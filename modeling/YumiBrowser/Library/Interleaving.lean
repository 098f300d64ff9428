import Mathlib.Data.List.Perm.Basic

universe u

namespace Interleaving

/-- What two senders put on one channel, each in its own order. -/
inductive Interleaves {α : Type u} : List α → List α → List α → Prop
  | nil : Interleaves [] [] []
  | left : Interleaves xs ys zs → Interleaves (x :: xs) ys (x :: zs)
  | right : Interleaves xs ys zs → Interleaves xs (y :: ys) (y :: zs)

namespace Interleaves

variable {α : Type u} {x : α} {xs ys zs : List α}

theorem symm (h : Interleaves xs ys zs) : Interleaves ys xs zs := by
  induction h with
  | nil => exact .nil
  | left _ ih => exact .right ih
  | right _ ih => exact .left ih

theorem eq_of_nil_left (h : Interleaves [] ys zs) : zs = ys := by
  generalize hxs : ([] : List α) = xs at h
  induction h with
  | nil => rfl
  | left => cases hxs
  | right _ ih => rw [ih hxs]

theorem nil_left (ys : List α) : Interleaves [] ys ys := by
  induction ys with
  | nil => exact .nil
  | cons y ys ih => exact .right ih

theorem append (xs ys : List α) : Interleaves xs ys (xs ++ ys) := by
  induction xs with
  | nil => exact nil_left ys
  | cons x xs ih => exact .left ih

theorem perm (h : Interleaves xs ys zs) : zs.Perm (xs ++ ys) := by
  induction h with
  | nil => exact .refl _
  | left _ ih => exact ih.cons _
  | right _ ih => exact (ih.cons _).trans List.perm_middle.symm

theorem mem_iff (h : Interleaves xs ys zs) : x ∈ zs ↔ x ∈ xs ∨ x ∈ ys := by
  rw [h.perm.mem_iff, List.mem_append]

theorem exists_split_of_singleton (h : Interleaves [x] ys zs) :
    ∃ before after, ys = before ++ after ∧ zs = before ++ x :: after := by
  generalize hxs : [x] = xs at h
  induction h with
  | nil => cases hxs
  | left h _ =>
    obtain ⟨rfl, rfl⟩ := List.cons.inj hxs
    exact ⟨[], _, rfl, by rw [h.eq_of_nil_left]; rfl⟩
  | right _ ih =>
    obtain ⟨before, after, rfl, rfl⟩ := ih hxs
    exact ⟨_ :: before, after, rfl, rfl⟩

theorem exists_split_right (h : Interleaves xs (x :: ys) zs) :
    ∃ before after rest, xs = before ++ after ∧ Interleaves after ys rest ∧ zs = before ++ x :: rest := by
  generalize hys : x :: ys = ys' at h
  induction h with
  | nil => cases hys
  | left _ ih =>
    obtain ⟨before, after, rest, rfl, hrest, rfl⟩ := ih hys
    exact ⟨_ :: before, after, rest, rfl, hrest, rfl⟩
  | right h _ =>
    obtain ⟨rfl, rfl⟩ := List.cons.inj hys
    exact ⟨[], _, _, rfl, h, rfl⟩

end Interleaves

end Interleaving
