import Mathlib.Data.List.Nodup
import Mathlib.Data.List.Perm.Basic
import Mathlib.Logic.ExistsUnique
import Mathlib.Logic.Function.Basic

universe u v

/-! Singly linked lists that share one memory of `next` fields, and sets of nodes divided among
places. -/

namespace Links

section Linked

variable {ν : Type u} [DecidableEq ν] {next next' : ν → Option ν} {o tail : Option ν} {a b : ν}
  {l l' rest : List ν} {n : ℕ}

/-- Following `next` from `o` one meets the nodes of the list and then the end. -/
def Linked (next : ν → Option ν) : Option ν → List ν → Prop
  | o, [] => o = none
  | o, a :: l => o = some a ∧ Linked next (next a) l

omit [DecidableEq ν] in
theorem Linked.congr (h : Linked next o l) (hsame : ∀ a ∈ l, next' a = next a) : Linked next' o l := by
  induction l generalizing o with
  | nil => exact h
  | cons a l ih =>
    refine ⟨h.1, ?_⟩
    rw [hsame a List.mem_cons_self]
    exact ih h.2 fun b hb => hsame b (List.mem_cons_of_mem _ hb)

omit [DecidableEq ν] in
theorem Linked.unique (h : Linked next o l) (h' : Linked next o l') : l = l' := by
  induction l generalizing o l' with
  | nil =>
    cases l' with
    | nil => rfl
    | cons b l' => exact absurd (h.symm.trans h'.1) (by simp)
  | cons a l ih =>
    cases l' with
    | nil => exact absurd (h.1.symm.trans h') (by simp)
    | cons b l' =>
      obtain rfl : a = b := Option.some.inj (h.1.symm.trans h'.1)
      rw [ih h.2 h'.2]

theorem Linked.update (h : Linked next o l) (ha : a ∉ l) : Linked (Function.update next a tail) o l := by
  refine h.congr fun b hb => Function.update_of_ne ?_ _ _
  rintro rfl
  exact ha hb

/-- Each node of the list is made to point to the one after it, and the last one to `tail`. -/
def linkUp (next : ν → Option ν) : List ν → Option ν → ν → Option ν
  | [], _ => next
  | a :: l, tail => Function.update (linkUp next l tail) a (l.head?.or tail)

theorem linkUp_of_not_mem (ha : a ∉ l) : linkUp next l tail a = next a := by
  induction l with
  | nil => rfl
  | cons b l ih =>
    rw [List.mem_cons, not_or] at ha
    rw [linkUp, Function.update_of_ne ha.1]
    exact ih ha.2

theorem Linked.congr_linkUp (h : Linked next o rest) (hd : ∀ a ∈ rest, a ∉ l) :
    Linked (linkUp next l tail) o rest :=
  h.congr fun a ha => linkUp_of_not_mem (hd a ha)

theorem Linked.linkUp (h : Linked next o rest) (hl : l.Nodup) (hd : ∀ a ∈ rest, a ∉ l) :
    Linked (linkUp next l o) (l.head?.or o) (l ++ rest) := by
  induction l with
  | nil => exact h
  | cons a l ih =>
    rw [List.nodup_cons] at hl
    have hrest : ∀ b ∈ rest, b ∉ l := fun b hb hmem => hd b hb (List.mem_cons_of_mem _ hmem)
    refine ⟨rfl, ?_⟩
    rw [Links.linkUp, Function.update_self]
    apply (ih hl.2 hrest).update
    rw [List.mem_append, not_or]
    exact ⟨hl.1, fun hmem => hd a hmem List.mem_cons_self⟩

/-- The walk from `a` along at most `n` links: the nodes passed, -/
def passed (next : ν → Option ν) : ℕ → ν → List ν
  | 0, _ => []
  | n + 1, a => ((next a).map fun b => a :: passed next n b).getD []

def stop (next : ν → Option ν) : ℕ → ν → ν
  | 0, a => a
  | n + 1, a => ((next a).map fun b => stop next n b).getD a

omit [DecidableEq ν] in
theorem Linked.walk (h : Linked next (some a) l) (n : ℕ) : ∃ rest,
    l = passed next n a ++ stop next n a :: rest ∧ Linked next (next (stop next n a)) rest ∧
      (passed next n a).length ≤ n := by
  induction n generalizing a l with
  | zero =>
    cases l with
    | nil => cases h
    | cons b l =>
      obtain ⟨hab, hrest⟩ := h
      cases hab
      exact ⟨l, rfl, hrest, Nat.le_refl _⟩
  | succ n ih =>
    cases l with
    | nil => cases h
    | cons b l =>
      obtain ⟨hab, hrest⟩ := h
      cases hab
      cases hnext : next a with
      | none =>
        simp only [passed, stop, hnext, Option.map_none, Option.getD_none]
        exact ⟨l, rfl, hnext ▸ hrest, Nat.zero_le _⟩
      | some c =>
        rw [hnext] at hrest
        obtain ⟨rest, hl, hlast, hlen⟩ := ih hrest
        simp only [passed, stop, hnext, Option.map_some, Option.getD_some]
        exact ⟨rest, congrArg (a :: ·) hl, hlast, Nat.succ_le_succ hlen⟩

end Linked

section Partitioned

variable {ν : Type u} {π : Type v} {cells cells' : π → List ν} {p q : π} {m : List ν} {a : ν}

/-- Every node is in exactly one place, and there once. -/
structure Partitioned (cells : π → List ν) : Prop where
  nodup : ∀ p, (cells p).Nodup
  unique : ∀ a, ∃! p, a ∈ cells p

theorem Partitioned.apart (h : Partitioned cells) (hp : a ∈ cells p) (hq : a ∈ cells q) : p = q :=
  (h.unique a).unique hp hq

theorem Partitioned.move (h : Partitioned cells) (hpq : p ≠ q)
    (hp : (cells p).Perm (m ++ cells' p)) (hq : (cells' q).Perm (m ++ cells q))
    (hrest : ∀ r, r ≠ p → r ≠ q → cells' r = cells r) : Partitioned cells' := by
  have hnodup : (m ++ cells' p).Nodup := hp.nodup_iff.mp (h.nodup p)
  have hmoved : ∀ a ∈ m, a ∈ cells p := fun a ha => hp.mem_iff.mpr (List.mem_append_left _ ha)
  constructor
  · intro r
    by_cases hrp : r = p
    · rw [hrp]
      exact (List.nodup_append.mp hnodup).2.1
    by_cases hrq : r = q
    · rw [hrq, hq.nodup_iff, List.nodup_append]
      refine ⟨(List.nodup_append.mp hnodup).1, h.nodup q, ?_⟩
      rintro a ha _ hb rfl
      exact hpq (h.apart (hmoved a ha) hb)
    · rw [hrest r hrp hrq]
      exact h.nodup r
  · intro a
    by_cases hm : a ∈ m
    · refine ⟨q, hq.mem_iff.mpr (List.mem_append_left _ hm), ?_⟩
      intro r hr
      by_contra hrq
      by_cases hrp : r = p
      · rw [hrp] at hr
        exact (List.nodup_append.mp hnodup).2.2 a hm a hr rfl
      · change a ∈ cells' r at hr
        rw [hrest r hrp hrq] at hr
        exact hrp (h.apart hr (hmoved a hm))
    · have hsame : ∀ r, a ∈ cells' r ↔ a ∈ cells r := by
        intro r
        by_cases hrp : r = p
        · rw [hrp, hp.mem_iff, List.mem_append, or_iff_right hm]
        by_cases hrq : r = q
        · rw [hrq, hq.mem_iff, List.mem_append, or_iff_right hm]
        · rw [hrest r hrp hrq]
      simp only [hsame]
      exact h.unique a

end Partitioned

end Links
