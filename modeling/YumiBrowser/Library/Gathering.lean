import Mathlib.Data.Finset.Card
import Mathlib.Data.Finset.Range

universe u

/-! The pieces of a whole, gathered in any order. -/

namespace Gathering

variable {α : Type u} {pieces : ℕ → Option α} {n i : ℕ} {a : α}

/-- Which of the first `n` pieces are there. -/
def held (pieces : ℕ → Option α) (n : ℕ) : Finset ℕ := {i ∈ Finset.range n | (pieces i).isSome}

theorem mem_held : i ∈ held pieces n ↔ i < n ∧ (pieces i).isSome := by
  rw [held, Finset.mem_filter, Finset.mem_range]

theorem held_empty (h : ∀ i, pieces i = none) : held pieces n = ∅ := by
  rw [held, Finset.filter_eq_empty_iff]
  intro i _
  simp [h i]

theorem held_update (h : i < n) : held (Function.update pieces i (some a)) n = insert i (held pieces n) := by
  ext j
  rw [mem_held, Finset.mem_insert, mem_held]
  by_cases hj : j = i
  · subst hj
    simp [h]
  · simp [hj]

theorem card_held_update (h : i < n) (hnone : pieces i = none) :
    (held (Function.update pieces i (some a)) n).card = (held pieces n).card + 1 := by
  rw [held_update h, Finset.card_insert_of_notMem]
  intro hmem
  rw [mem_held, hnone] at hmem
  cases hmem.2

theorem isSome_of_card (h : (held pieces n).card = n) (hi : i < n) : (pieces i).isSome := by
  have hall : held pieces n = Finset.range n :=
    Finset.eq_of_subset_of_card_le (Finset.filter_subset _ _) (by rw [h, Finset.card_range])
  have hmem : i ∈ held pieces n := by rwa [hall, Finset.mem_range]
  exact (mem_held.mp hmem).2

/-- Every piece that is there is the one of the whole. -/
def PartOf (whole : ℕ → α) (pieces : ℕ → Option α) : Prop := ∀ i a, pieces i = some a → a = whole i

theorem PartOf.update {whole : ℕ → α} (h : PartOf whole pieces) (i : ℕ) :
    PartOf whole (Function.update pieces i (some (whole i))) := by
  intro j a hj
  by_cases heq : j = i
  · subst heq
    rw [Function.update_self] at hj
    exact (Option.some.inj hj).symm
  · rw [Function.update_of_ne heq] at hj
    exact h j a hj

/-- The first `n` pieces, one after the other. -/
def joined (pieces : ℕ → Option (List α)) (n : ℕ) : List α := (List.range n).flatMap fun i => (pieces i).getD []

theorem joined_eq {pieces : ℕ → Option (List α)} {whole : ℕ → List α} (hall : ∀ i < n, (pieces i).isSome)
    (hpart : PartOf whole pieces) : joined pieces n = (List.range n).flatMap whole := by
  refine List.flatMap_congr fun i hi => ?_
  obtain ⟨a, ha⟩ := Option.isSome_iff_exists.mp (hall i (List.mem_range.mp hi))
  rw [ha, hpart i a ha]
  rfl

theorem flatMap_slices (xs : List α) (k n : ℕ) :
    (List.range n).flatMap (fun i => (xs.drop (i * k)).take k) = xs.take (n * k) := by
  induction n with
  | zero => simp
  | succ n ih =>
    rw [List.range_succ, List.flatMap_append, ih, Nat.succ_mul, List.take_add]
    simp

end Gathering
