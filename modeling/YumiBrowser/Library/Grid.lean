import Mathlib

universe u

/-! A grid of cells of one size, by rows, whose corners are rounded to an order. -/

namespace Grid

variable {F : Type u} [LinearOrder F] {f : ℤ → F}

/-- The point lies in the `k`-th interval of width `w`. -/
def Within (f : ℤ → F) (w : ℤ) (k : ℕ) (x : F) : Prop := f (k * w) ≤ x ∧ x < f (k * w + w)

/-- The point lies in the cell. -/
def Covers (f : ℤ → F) (cols : ℕ) (w h : ℤ) (i : ℕ) (x y : F) : Prop :=
  Within f w (i % cols) x ∧ Within f h (i / cols) y

section Interval

variable {w : ℤ} {k l n : ℕ} {x : F}

theorem not_within_of_lt (hf : Monotone f) (hw : 0 ≤ w) (hlt : k < l) (hk : Within f w k x) : ¬ Within f w l x := by
  intro hl
  have hmul : (k * w + w : ℤ) ≤ l * w := by
    have hsucc : (k + 1 : ℤ) * w ≤ l * w := Int.mul_le_mul_of_nonneg_right (by omega) hw
    rwa [add_mul, one_mul] at hsucc
  exact absurd hk.2 (not_lt.mpr ((hf hmul).trans hl.1))

theorem Within.unique (hf : Monotone f) (hw : 0 ≤ w) (hk : Within f w k x) (hl : Within f w l x) : k = l := by
  obtain hlt | heq | hlt := lt_trichotomy k l
  · exact absurd hl (not_within_of_lt hf hw hlt hk)
  · exact heq
  · exact absurd hk (not_within_of_lt hf hw hlt hl)

theorem exists_within (hlo : f 0 ≤ x) (hhi : x < f (n * w)) : ∃ k < n, Within f w k x := by
  induction n with
  | zero =>
    rw [Nat.cast_zero, zero_mul] at hhi
    exact absurd hhi (not_lt.mpr hlo)
  | succ n ih =>
    rw [Nat.cast_succ, add_mul, one_mul] at hhi
    obtain hlt | hle := lt_or_ge x (f (n * w))
    · obtain ⟨k, hk, hwithin⟩ := ih hlt
      exact ⟨k, Nat.lt_succ_of_lt hk, hwithin⟩
    · exact ⟨n, Nat.lt_succ_self n, hle, hhi⟩

end Interval

section Cell

variable {cols rows i j : ℕ} {w h : ℤ} {x y : F}

theorem Covers.unique (hf : Monotone f) (hw : 0 ≤ w) (hh : 0 ≤ h) (hi : Covers f cols w h i x y)
    (hj : Covers f cols w h j x y) : i = j := by
  have hcol : i % cols = j % cols := hi.1.unique hf hw hj.1
  have hrow : i / cols = j / cols := hi.2.unique hf hh hj.2
  rw [← Nat.div_add_mod i cols, ← Nat.div_add_mod j cols, hcol, hrow]

theorem exists_covers (hx : f 0 ≤ x) (hx' : x < f (cols * w)) (hy : f 0 ≤ y) (hy' : y < f (rows * h)) :
    ∃ i < rows * cols, Covers f cols w h i x y := by
  obtain ⟨col, hcol, hwithin⟩ := exists_within hx hx'
  obtain ⟨row, hrow, hwithin'⟩ := exists_within hy hy'
  have hpos : 0 < cols := Nat.zero_lt_of_lt hcol
  have hmod : (row * cols + col) % cols = col := Nat.mul_add_mod_of_lt hcol
  have hdiv : (row * cols + col) / cols = row := by
    rw [Nat.add_comm, Nat.add_mul_div_right _ _ hpos, Nat.div_eq_of_lt hcol, Nat.zero_add]
  refine ⟨row * cols + col, ?_, ?_⟩
  · calc row * cols + col < row * cols + cols := Nat.add_lt_add_left hcol _
      _ = (row + 1) * cols := (Nat.succ_mul row cols).symm
      _ ≤ rows * cols := Nat.mul_le_mul_right cols hrow
  · unfold Covers
    rw [hmod, hdiv]
    exact ⟨hwithin, hwithin'⟩

end Cell

end Grid
