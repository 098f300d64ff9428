import Mathlib.Logic.Equiv.Basic
import Mathlib.Order.Lattice

universe u

/-! The order of a binary heap whose node `i` has the children `2 * i + 1` and `2 * i + 2`, by the
keys of its nodes. -/

namespace HeapOrder

variable {K : Type u} [LinearOrder K] {key : ℕ → K} {n i j c : ℕ}

/-- No node has a smaller key than its parent. -/
def IsHeap (key : ℕ → K) (n : ℕ) : Prop := ∀ i, 0 < i → i < n → key ((i - 1) / 2) ≤ key i

/-- Node `i` may be smaller than its parent, and is the only one. -/
structure Rising (key : ℕ → K) (n i : ℕ) : Prop where
  others : ∀ j, 0 < j → j < n → j ≠ i → key ((j - 1) / 2) ≤ key j
  grand : 0 < i → ∀ j, 0 < j → j < n → (j - 1) / 2 = i → key ((i - 1) / 2) ≤ key j

/-- Node `i` may be larger than its children, and is the only one. -/
structure Sinking (key : ℕ → K) (n i : ℕ) : Prop where
  others : ∀ j, 0 < j → j < n → (j - 1) / 2 ≠ i → key ((j - 1) / 2) ≤ key j
  grand : 0 < i → ∀ j, 0 < j → j < n → (j - 1) / 2 = i → key ((i - 1) / 2) ≤ key j

theorem isHeap_zero (key : ℕ → K) : IsHeap key 0 := fun _ _ h => absurd h (Nat.not_lt_zero _)

theorem IsHeap.root_le (h : IsHeap key n) (hi : i < n) : key 0 ≤ key i := by
  induction i using Nat.strongRecOn with
  | ind i ih =>
    rcases Nat.eq_zero_or_pos i with rfl | hpos
    · exact le_rfl
    · exact (ih ((i - 1) / 2) (by omega) (by omega)).trans (h i hpos hi)

section Up

theorem IsHeap.rising (h : IsHeap key n) {key' : ℕ → K} (hsame : ∀ j < n, key' j = key j) :
    Rising key' (n + 1) n where
  others j hpos hlt hne := by
    rw [hsame j (by omega), hsame ((j - 1) / 2) (by omega)]
    exact h j hpos (by omega)
  grand _ j _ hlt hj := by omega

theorem Rising.isHeap (h : Rising key n i) (hi : 0 < i → key ((i - 1) / 2) ≤ key i) : IsHeap key n := by
  intro j hpos hlt
  by_cases hj : j = i
  · subst hj
    exact hi hpos
  · exact h.others j hpos hlt hj

theorem Rising.swap (h : Rising key n i) (hpos : 0 < i) (hi : i < n) (hlt : key i < key ((i - 1) / 2)) :
    Rising (key ∘ Equiv.swap ((i - 1) / 2) i) n ((i - 1) / 2) where
  others j hj hjn hne := by
    by_cases hji : j = i
    · subst hji
      simpa using hlt.le
    · have hjj : Equiv.swap ((i - 1) / 2) i j = j := Equiv.swap_apply_of_ne_of_ne hne hji
      simp only [Function.comp_apply, hjj]
      by_cases hpi : (j - 1) / 2 = i
      · rw [hpi, Equiv.swap_apply_right]
        exact h.grand hpos j hj hjn hpi
      · by_cases hpp : (j - 1) / 2 = (i - 1) / 2
        · rw [hpp, Equiv.swap_apply_left]
          exact hlt.le.trans (hpp ▸ h.others j hj hjn hji)
        · rw [Equiv.swap_apply_of_ne_of_ne hpp hpi]
          exact h.others j hj hjn hji
  grand hp j hj hjn hpj := by
    have hpp : ((i - 1) / 2 - 1) / 2 ≠ i := by omega
    have hpne : ((i - 1) / 2 - 1) / 2 ≠ (i - 1) / 2 := by omega
    have hparent := h.others ((i - 1) / 2) hp (by omega) (by omega)
    simp only [Function.comp_apply]
    rw [Equiv.swap_apply_of_ne_of_ne hpne hpp]
    by_cases hji : j = i
    · rw [hji, Equiv.swap_apply_right]
      exact hparent
    · rw [Equiv.swap_apply_of_ne_of_ne (by omega) hji]
      exact hparent.trans (hpj ▸ h.others j hj hjn hji)

end Up

section Down

theorem IsHeap.sinking (h : IsHeap key n) {m : ℕ} (hm : m ≤ n) {key' : ℕ → K}
    (hsame : ∀ j, 0 < j → j < m → key' j = key j) : Sinking key' m 0 where
  others j hpos hlt hne := by
    rw [hsame j hpos hlt, hsame ((j - 1) / 2) (by omega) (by omega)]
    exact h j hpos (by omega)
  grand hpos := absurd hpos (Nat.lt_irrefl 0)

theorem Sinking.isHeap (h : Sinking key n i) (hi : ∀ j, 0 < j → j < n → (j - 1) / 2 = i → key i ≤ key j) :
    IsHeap key n := by
  intro j hpos hlt
  by_cases hj : (j - 1) / 2 = i
  · exact hj ▸ hi j hpos hlt hj
  · exact h.others j hpos hlt hj

theorem Sinking.swap (h : Sinking key n i) (hc : 0 < c) (hcn : c < n) (hpc : (c - 1) / 2 = i)
    (hlt : key c < key i) (hleast : ∀ j, 0 < j → j < n → (j - 1) / 2 = i → key c ≤ key j) :
    Sinking (key ∘ Equiv.swap c i) n c where
  others j hj hjn hne := by
    have hci : c ≠ i := by omega
    simp only [Function.comp_apply]
    by_cases hji : j = i
    · subst hji
      rw [Equiv.swap_apply_right, Equiv.swap_apply_of_ne_of_ne (by omega) (by omega)]
      exact h.grand hj c hc hcn hpc
    · by_cases hjc : j = c
      · subst hjc
        rw [hpc, Equiv.swap_apply_right, Equiv.swap_apply_left]
        exact hlt.le
      · rw [Equiv.swap_apply_of_ne_of_ne hjc hji]
        by_cases hpi : (j - 1) / 2 = i
        · rw [hpi, Equiv.swap_apply_right]
          exact hleast j hj hjn hpi
        · rw [Equiv.swap_apply_of_ne_of_ne hne hpi]
          exact h.others j hj hjn hpi
  grand _ j hj hjn hpj := by
    simp only [Function.comp_apply]
    rw [hpc, Equiv.swap_apply_right, Equiv.swap_apply_of_ne_of_ne (by omega) (by omega)]
    exact hpj ▸ h.others j hj hjn (by omega)

end Down

end HeapOrder
