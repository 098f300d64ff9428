import Mathlib.Data.Set.Insert

namespace SlidingWindow

/-- Position `k` of a window of width `w` below `top` records whether `top - k` was seen. -/
structure Represents (w top : ℕ) (marked : ℕ → Prop) (seen : Set ℕ) : Prop where
  mark : ∀ k, k < w → (marked k ↔ k ≤ top ∧ top - k ∈ seen)
  le_top : ∀ s ∈ seen, s ≤ top

theorem Represents.mem_iff (h : Represents w top marked seen) (hs : s ≤ top)
    (hw : top - s < w) : s ∈ seen ↔ marked (top - s) := by
  rw [h.mark _ hw, Nat.sub_sub_self hs]
  simp

theorem Represents.not_mem (h : Represents w top marked seen) (hs : top < s) : s ∉ seen := by
  intro hmem
  have := h.le_top s hmem
  omega

theorem represents_empty (w : ℕ) (hm : ∀ k, k < w → ¬ marked k) :
    Represents w top marked ∅ where
  mark k hk := by simp [hm k hk]
  le_top s hs := by simp at hs

theorem Represents.advance_iff (h : Represents w top marked seen) (hd : 0 < d) :
    Represents w (top + d) marked' (insert (top + d) seen) ↔
      ∀ k, k < w → (marked' k ↔ k = 0 ∨ d ≤ k ∧ marked (k - d)) := by
  have moved : ∀ k, k < w →
      (k ≤ top + d ∧ top + d - k ∈ insert (top + d) seen ↔ k = 0 ∨ d ≤ k ∧ marked (k - d)) := by
    intro k hk
    rcases Nat.lt_or_ge k d with hlt | hge
    · have hnot : k ≠ 0 → top + d - k ∉ seen := fun hk0 => h.not_mem (by omega)
      rcases Nat.eq_zero_or_pos k with rfl | hpos
      · simp
      · have hk0 : k ≠ 0 := by omega
        have hne : top + d - k ≠ top + d := by omega
        simp only [Set.mem_insert_iff, hne, false_or]
        simp [hnot hk0, hk0, Nat.not_le.mpr hlt]
    · have hk0 : k ≠ 0 := by omega
      have hsub : top + d - k = top - (k - d) := by omega
      rw [h.mark (k - d) (by omega)]
      have hne : k ≤ top + d → top + d - k ≠ top + d := by omega
      have hle : k ≤ top + d ↔ k - d ≤ top := by omega
      constructor
      · rintro ⟨hle', heq | hmem⟩
        · exact absurd heq (hne hle')
        · exact Or.inr ⟨hge, hle.mp hle', hsub ▸ hmem⟩
      · rintro (h0 | ⟨_, hle', hmem⟩)
        · exact absurd h0 hk0
        · exact ⟨hle.mpr hle', Or.inr (hsub ▸ hmem)⟩
  constructor
  · intro h' k hk
    rw [h'.mark k hk, moved k hk]
  · intro h'
    refine ⟨fun k hk => by rw [h' k hk, moved k hk], ?_⟩
    rintro s (rfl | hs)
    · exact Nat.le_refl _
    · have := h.le_top s hs
      omega

theorem Represents.late (h : Represents w top marked seen) (hs : s ≤ top)
    (h' : ∀ k, k < w → (marked' k ↔ k = top - s ∨ marked k)) :
    Represents w top marked' (insert s seen) where
  mark k hk := by
    rw [h' k hk, h.mark k hk, Set.mem_insert_iff]
    have heq : k ≤ top ∧ top - k = s ↔ k = top - s := by omega
    rw [and_or_left, heq]
  le_top t ht := by
    rcases ht with rfl | ht
    · exact hs
    · exact h.le_top t ht

/-- One counter presented to a duplicate filter whose newest counter was `top`. -/
structure Verdict where
  seq : ℕ
  top : ℕ
  accepted : Bool
  deriving DecidableEq

def Verdict.InWindow (w : ℕ) (v : Verdict) : Prop := v.top < v.seq ∨ v.top - v.seq < w

instance : Decidable (Verdict.InWindow w v) := inferInstanceAs (Decidable (_ ∨ _))

/-- Newest first: no counter is accepted twice, and one that is presented for the first time
inside the window is accepted. -/
def Sound (w : ℕ) : List Verdict → Prop
  | [] => True
  | v :: earlier =>
    (v.accepted = true → ∀ u ∈ earlier, u.seq = v.seq → u.accepted = false) ∧
    (v.InWindow w → (∀ u ∈ earlier, u.seq ≠ v.seq) → v.accepted = true) ∧
    Sound w earlier

instance Sound.decidable (w : ℕ) : (log : List Verdict) → Decidable (Sound w log)
  | [] => .isTrue trivial
  | _ :: earlier =>
    have := Sound.decidable w earlier
    inferInstanceAs (Decidable (_ ∧ _ ∧ _))

def accepted (log : List Verdict) : Set ℕ := { s | ∃ v ∈ log, v.accepted = true ∧ v.seq = s }

theorem accepted_cons (v : Verdict) (log : List Verdict) :
    accepted (v :: log) = if v.accepted then insert v.seq (accepted log) else accepted log := by
  ext s
  cases hv : v.accepted with
  | false => simp [accepted, hv]
  | true => simp [accepted, hv, Set.mem_insert_iff, @eq_comm _ s]

theorem Sound.cons (h : Sound w log) (hin : v.InWindow w → (v.accepted ↔ v.seq ∉ accepted log))
    (hout : ¬ v.InWindow w → v.accepted = false) : Sound w (v :: log) := by
  refine ⟨?_, ?_, h⟩
  · intro hacc u hu hseq
    have hw : v.InWindow w := by
      by_contra hw
      simp [hout hw] at hacc
    have hfresh := (hin hw).mp hacc
    by_contra hu'
    exact hfresh ⟨u, hu, by simpa using hu', hseq⟩
  · intro hw hfirst
    rw [hin hw]
    rintro ⟨u, hu, _, hseq⟩
    exact hfirst u hu hseq

end SlidingWindow
