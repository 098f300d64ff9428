import YumiBrowser.Library.ByteCodec
import Mathlib.Data.List.Range
import Mathlib.Logic.Function.Iterate

universe u

namespace Wire

section Xor

variable {l l' ks ks' : List Byte}

def xorBytes (l ks : List Byte) : List Byte := List.zipWith (· ^^^ ·) l ks

theorem length_xorBytes (h : l.length ≤ ks.length) : (xorBytes l ks).length = l.length := by
  rw [xorBytes, List.length_zipWith, Nat.min_eq_left h]

theorem xorBytes_xorBytes (h : l.length ≤ ks.length) : xorBytes (xorBytes l ks) ks = l := by
  induction l generalizing ks with
  | nil => rfl
  | cons b l ih =>
    cases ks with
    | nil => cases h
    | cons k ks =>
      have hrest : xorBytes (xorBytes l ks) ks = l := ih (Nat.le_of_succ_le_succ h)
      calc xorBytes (xorBytes (b :: l) (k :: ks)) (k :: ks)
          = (b ^^^ k ^^^ k) :: xorBytes (xorBytes l ks) ks := rfl
        _ = b :: l := by rw [hrest, BitVec.xor_assoc, BitVec.xor_self, BitVec.xor_zero]

theorem xorBytes_append (h : l.length = ks.length) :
    xorBytes (l ++ l') (ks ++ ks') = xorBytes l ks ++ xorBytes l' ks' :=
  List.zipWith_append h

theorem xorBytes_split {size : ℕ} (l : List Byte) (h : ks.length = size) :
    xorBytes l (ks ++ ks') = xorBytes (l.take size) ks ++ xorBytes (l.drop size) ks' := by
  induction ks generalizing l size with
  | nil =>
    subst h
    rfl
  | cons k ks ih =>
    subst h
    cases l with
    | nil => rfl
    | cons b l => exact congrArg (List.cons (b ^^^ k)) (ih l rfl)

theorem xorBytes_take (l ks : List Byte) : xorBytes l (ks.take l.length) = xorBytes l ks := by
  induction l generalizing ks with
  | nil => rfl
  | cons b l ih =>
    cases ks with
    | nil => rfl
    | cons k ks => exact congrArg (List.cons (b ^^^ k)) (ih ks)

theorem toLe_xor (n a b : ℕ) : toLe n (a ^^^ b) = xorBytes (toLe n a) (toLe n b) := by
  induction n generalizing a b with
  | zero => rfl
  | succ n ih =>
    have hlow : BitVec.ofNat 8 (a ^^^ b) = BitVec.ofNat 8 a ^^^ BitVec.ofNat 8 b := BitVec.ofNat_xor ..
    have hshift (v : ℕ) : v / 256 = v >>> 8 := (Nat.shiftRight_eq_div_pow v 8).symm
    have hhigh : (a ^^^ b) / 256 = a / 256 ^^^ b / 256 := by
      rw [hshift, hshift, hshift, Nat.shiftRight_xor_distrib]
    rw [toLe, hlow, hhigh, ih]
    rfl

end Xor

section Counter

variable {σ : Type u} (block : σ → List Byte) (step : σ → σ) (size : ℕ)

def counterMode : ℕ → σ → List Byte → List Byte
  | 0, _, _ => []
  | rounds + 1, s, l =>
    if l = [] then [] else xorBytes (l.take size) (block s) ++ counterMode rounds (step s) (l.drop size)

variable {block step size} {rounds : ℕ} {l : List Byte}

/-- The blocks that an input of `n` bytes takes. -/
def blocksFor (size n : ℕ) : ℕ := (n + size - 1) / size

theorem blocksFor_drop (hsize : 0 < size) (hl : l ≠ []) :
    blocksFor size l.length = blocksFor size (l.drop size).length + 1 := by
  have hpos := List.length_pos_iff.mpr hl
  rw [List.length_drop, blocksFor, blocksFor]
  obtain hlong | hshort := Nat.le_or_ge size l.length
  · have hsum : l.length + size - 1 = l.length - size + size - 1 + size := by omega
    rw [hsum, Nat.add_div_right _ hsize]
  · have hone : l.length + size - 1 = l.length - 1 + size := by omega
    rw [hone, Nat.add_div_right _ hsize, Nat.sub_eq_zero_of_le hshort, Nat.zero_add,
      Nat.div_eq_of_lt (by omega : l.length - 1 < size), Nat.div_eq_of_lt (by omega : size - 1 < size)]

theorem le_blocksFor (hsize : 0 < size) (n : ℕ) : n ≤ size * blocksFor size n := by
  have hdiv := Nat.div_add_mod (n + size - 1) size
  have hmod := Nat.mod_lt (n + size - 1) hsize
  rw [blocksFor]
  omega

theorem lt_blocksFor_iff {i n : ℕ} (hsize : 0 < size) : i < blocksFor size n ↔ size * i < n := by
  rw [blocksFor, ← Nat.succ_le_iff, Nat.le_div_iff_mul_le hsize, Nat.succ_mul, Nat.mul_comm i size]
  omega

variable (block step) in
/-- The first `n` blocks from a state on. -/
def keyBlocks (n : ℕ) (s : σ) : List Byte := (List.range n).flatMap fun i => block (step^[i] s)

theorem keyBlocks_succ (n : ℕ) (s : σ) :
    keyBlocks block step (n + 1) s = block s ++ keyBlocks block step n (step s) := by
  rw [keyBlocks, List.range_succ_eq_map, List.flatMap_cons, List.flatMap_map]
  rfl

theorem length_keyBlocks (hblock : ∀ s, (block s).length = size) (n : ℕ) (s : σ) :
    (keyBlocks block step n s).length = size * n := by
  induction n generalizing s with
  | zero => rfl
  | succ n ih =>
    rw [keyBlocks_succ, List.length_append, hblock, ih, Nat.mul_succ, Nat.add_comm]

theorem counterMode_eq (hsize : 0 < size) (hblock : ∀ s, (block s).length = size) (hl : l.length ≤ rounds) (s : σ) :
    counterMode block step size rounds s l = xorBytes l (keyBlocks block step (blocksFor size l.length) s) := by
  induction rounds generalizing s l with
  | zero =>
    rw [List.length_eq_zero_iff.mp (Nat.le_zero.mp hl)]
    rfl
  | succ rounds ih =>
    rw [counterMode]
    split
    · next hnil =>
      rw [hnil]
      rfl
    · next hne =>
      have hpos := List.length_pos_iff.mpr hne
      have hrest : (l.drop size).length ≤ rounds := by
        rw [List.length_drop]
        omega
      rw [ih hrest, blocksFor_drop hsize hne, keyBlocks_succ, xorBytes_split l (hblock s)]

theorem length_counterMode (hsize : 0 < size) (hblock : ∀ s, (block s).length = size) (hl : l.length ≤ rounds)
    (s : σ) :
    (counterMode block step size rounds s l).length = l.length := by
  rw [counterMode_eq hsize hblock hl]
  refine length_xorBytes ?_
  rw [length_keyBlocks hblock]
  exact le_blocksFor hsize l.length

theorem counterMode_counterMode (hsize : 0 < size) (hblock : ∀ s, (block s).length = size) (hl : l.length ≤ rounds)
    (s : σ) :
    counterMode block step size rounds s (counterMode block step size rounds s l) = l := by
  have hlength : (counterMode block step size rounds s l).length = l.length := length_counterMode hsize hblock hl s
  rw [counterMode_eq hsize hblock (hlength.trans_le hl), hlength, counterMode_eq hsize hblock hl]
  refine xorBytes_xorBytes ?_
  rw [length_keyBlocks hblock]
  exact le_blocksFor hsize l.length

end Counter

end Wire
