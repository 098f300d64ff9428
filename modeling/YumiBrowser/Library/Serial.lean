import Mathlib.Data.BitVec
import Mathlib.Tactic.Ring

/-! Serial numbers: naturals that travel as their last `w` bits. -/

namespace Serial

/-- The signed distance from `b` to `a` on the circle of `2 ^ w` serial numbers. -/
def dist (a b : BitVec w) : ℤ := (a - b).toInt

theorem dist_ofNat (n e : ℕ) :
    dist (BitVec.ofNat w n) (BitVec.ofNat w e) = ((n : ℤ) - e).bmod (2 ^ w) := by
  simp only [dist, BitVec.toInt_sub, BitVec.toInt_ofNat']
  rw [← Int.sub_bmod]

theorem dist_of_near {n e : ℕ} (hle : (e : ℤ) * 2 ≤ n * 2 + 2 ^ w)
    (hlt : (n : ℤ) * 2 < e * 2 + 2 ^ w) :
    dist (BitVec.ofNat w n) (BitVec.ofNat w e) = (n : ℤ) - e := by
  rw [dist_ofNat]
  apply Int.bmod_eq_of_le_mul_two
  · push_cast
    omega
  · push_cast
    omega

theorem ofNat_inj {n m : ℕ} (h : BitVec.ofNat w n = BitVec.ofNat w m) (hle : m ≤ n)
    (hlt : n < m + 2 ^ w) : n = m := by
  have hmod := congrArg BitVec.toNat h
  simp only [BitVec.toNat_ofNat] at hmod
  obtain ⟨k, hk⟩ := Nat.dvd_of_mod_eq_zero (Nat.sub_mod_eq_zero_of_mod_eq hmod)
  cases k with
  | zero => omega
  | succ k =>
    have : 2 ^ w ≤ 2 ^ w * (k + 1) := Nat.le_mul_of_pos_right _ (by omega)
    omega

theorem dist_eq_zero {a b : BitVec w} : dist a b = 0 ↔ a = b := by
  constructor
  · intro h
    have hsub : a - b = 0 := BitVec.eq_of_toInt_eq (h.trans BitVec.toInt_zero.symm)
    exact sub_eq_zero.mp hsub
  · rintro rfl
    rw [dist, sub_self]
    exact BitVec.toInt_zero

theorem toInt_sub_one {x : BitVec w} (h : 0 < x.toInt) : (x - 1).toInt = x.toInt - 1 := by
  have hlt := BitVec.two_mul_toInt_lt (x := x)
  have hw : 1 < w := by
    by_contra hle
    have hw : w = 0 ∨ w = 1 := by omega
    cases hw with
    | inl hw =>
      subst hw
      simp at hlt
      omega
    | inr hw =>
      subst hw
      simp at hlt
      omega
  have hone : BitVec.toInt (1 : BitVec w) = 1 := BitVec.toInt_one hw
  rw [BitVec.toInt_sub, hone]
  apply Int.bmod_eq_of_le_mul_two
  · push_cast
    omega
  · push_cast
    omega

theorem dist_succ {a b : BitVec w} (h : 0 < dist a b) : dist a (b + 1) = dist a b - 1 := by
  rw [dist, sub_add_eq_sub_sub]
  exact toInt_sub_one h

theorem getElem_consecutive {xs : List (BitVec w)} (h : xs.IsChain fun a b => b = a + 1)
    (hk : j + d < xs.length) : xs[j + d] = xs[j] + BitVec.ofNat w d := by
  induction d with
  | zero => simp
  | succ d ih =>
    have hstep : xs[j + d + 1] = xs[j + d] + 1 := List.isChain_iff_getElem.mp h (j + d) hk
    calc xs[j + (d + 1)] = xs[j + d] + 1 := hstep
      _ = xs[j] + BitVec.ofNat w d + 1 := by rw [ih]
      _ = xs[j] + BitVec.ofNat w (d + 1) := by
        rw [BitVec.add_assoc, BitVec.ofNat_add]
        rfl

theorem ne_of_consecutive {xs : List (BitVec w)} (h : xs.IsChain fun a b => b = a + 1)
    (hd : 0 < d) (hlt : d < 2 ^ w) (hk : j + d < xs.length) : xs[j] ≠ xs[j + d] := by
  rw [getElem_consecutive h hk]
  intro heq
  have hzero : BitVec.ofNat w d = BitVec.ofNat w 0 := by
    have hadd : xs[j] + BitVec.ofNat w d = xs[j] + 0 := by rw [← heq, add_zero]
    exact add_left_cancel hadd
  have hd0 := ofNat_inj hzero (Nat.zero_le d) (by omega)
  omega

end Serial
