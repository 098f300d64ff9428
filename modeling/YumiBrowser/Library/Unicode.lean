import Mathlib.Algebra.Group.Nat.Defs

namespace Unicode

def IsSurrogate (n : ℕ) : Prop := 0xD800 ≤ n ∧ n ≤ 0xDFFF

instance IsSurrogate.decidable (n : ℕ) : Decidable (IsSurrogate n) := inferInstanceAs (Decidable (_ ∧ _))

def pair (high low : ℕ) : ℕ := 0x10000 + (high - 0xD800) * 0x400 + (low - 0xDC00)

def decodeUtf16 : List (BitVec 16) → Option (List ℕ)
  | [] => some []
  | [u] => if IsSurrogate u.toNat then none else some [u.toNat]
  | u :: v :: us =>
    if IsSurrogate u.toNat then
      if u.toNat < 0xDC00 ∧ 0xDC00 ≤ v.toNat ∧ v.toNat ≤ 0xDFFF then
        (decodeUtf16 us).map (pair u.toNat v.toNat :: ·)
      else none
    else (decodeUtf16 (v :: us)).map (u.toNat :: ·)

variable {u v : BitVec 16} {us : List (BitVec 16)}

theorem decodeUtf16_basic (h : ¬ IsSurrogate u.toNat) :
    decodeUtf16 (u :: us) = (decodeUtf16 us).map (u.toNat :: ·) := by
  cases us with
  | nil => simp [decodeUtf16, h]
  | cons v us => simp [decodeUtf16, h]

theorem decodeUtf16_pair (hu : IsSurrogate u.toNat) (hhigh : u.toNat < 0xDC00) (hlow : 0xDC00 ≤ v.toNat)
    (hv : v.toNat ≤ 0xDFFF) :
    decodeUtf16 (u :: v :: us) = (decodeUtf16 us).map (pair u.toNat v.toNat :: ·) := by
  simp [decodeUtf16, hu, hhigh, hlow, hv]

theorem supplementary_of_surrogate {n : ℕ} {ns : List ℕ} (hu : IsSurrogate u.toNat)
    (h : decodeUtf16 (u :: us) = some (n :: ns)) : 0x10000 ≤ n := by
  cases us with
  | nil => simp [decodeUtf16, hu] at h
  | cons v us =>
    rw [decodeUtf16, if_pos hu] at h
    split at h
    · obtain ⟨ms, -, heq⟩ := Option.map_eq_some_iff.mp h
      rw [← (List.cons.inj heq).1]
      unfold pair
      omega
    · cases h

/-- The byte lies in a range. -/
def Within (lo hi : ℕ) (b : BitVec 8) : Prop := lo ≤ b.toNat ∧ b.toNat ≤ hi

instance Within.decidable (lo hi : ℕ) (b : BitVec 8) : Decidable (Within lo hi b) :=
  inferInstanceAs (Decidable (_ ∧ _))

theorem exists_char {n : ℕ} (h : n.isValidChar) : ∃ c : Char, c.toNat = n := ⟨Char.ofNatAux n h, rfl⟩

def utf8 (c : Char) : List (BitVec 8) := (String.utf8EncodeChar c).map UInt8.toBitVec

theorem utf8_ne_nil (c : Char) : utf8 c ≠ [] := fun h => String.utf8EncodeChar_ne_nil (List.map_eq_nil_iff.mp h)

theorem utf8_one {c : Char} {a : BitVec 8} (h : c.toNat = a.toNat) (ha : a.toNat ≤ 0x7F) : utf8 c = [a] := by
  have hval : c.val.toNat = a.toNat := h
  simp only [utf8, String.utf8EncodeChar, hval, if_pos ha, List.map_cons, List.map_nil, List.cons.injEq, and_true,
    ← BitVec.toNat_inj]
  simp

theorem utf8_two {c : Char} {a b : BitVec 8} (h : c.toNat = (a.toNat - 0xC0) * 0x40 + (b.toNat - 0x80))
    (ha : Within 0xC2 0xDF a) (hb : Within 0x80 0xBF b) : utf8 c = [a, b] := by
  unfold Within at ha hb
  unfold utf8 String.utf8EncodeChar
  simp only [show c.val.toNat = c.toNat from rfl]
  generalize c.toNat = n at h ⊢
  rw [if_neg (by omega), if_pos (by omega)]
  simp only [List.map_cons, List.map_nil, List.cons.injEq, and_true, ← BitVec.toNat_inj]
  refine ⟨?_, ?_⟩ <;> simp <;> omega

theorem utf8_three {c : Char} {a b d : BitVec 8}
    (h : c.toNat = (a.toNat - 0xE0) * 0x1000 + (b.toNat - 0x80) * 0x40 + (d.toNat - 0x80)) (hlong : 0x800 ≤ c.toNat)
    (ha : Within 0xE0 0xEF a) (hb : Within 0x80 0xBF b)
    (hd : Within 0x80 0xBF d) : utf8 c = [a, b, d] := by
  unfold Within at ha hb hd
  unfold utf8 String.utf8EncodeChar
  simp only [show c.val.toNat = c.toNat from rfl]
  generalize c.toNat = n at h hlong ⊢
  rw [if_neg (by omega), if_neg (by omega), if_pos (by omega)]
  simp only [List.map_cons, List.map_nil, List.cons.injEq, and_true, ← BitVec.toNat_inj]
  refine ⟨?_, ?_, ?_⟩ <;> simp <;> omega

theorem utf8_four {c : Char} {a b d e : BitVec 8}
    (h : c.toNat = (a.toNat - 0xF0) * 0x40000 + (b.toNat - 0x80) * 0x1000 + (d.toNat - 0x80) * 0x40 +
      (e.toNat - 0x80))
    (hlong : 0x10000 ≤ c.toNat) (ha : Within 0xF0 0xF4 a) (hb : Within 0x80 0xBF b)
    (hd : Within 0x80 0xBF d) (he : Within 0x80 0xBF e) : utf8 c = [a, b, d, e] := by
  unfold Within at ha hb hd he
  unfold utf8 String.utf8EncodeChar
  simp only [show c.val.toNat = c.toNat from rfl]
  generalize c.toNat = n at h hlong ⊢
  rw [if_neg (by omega), if_neg (by omega), if_neg (by omega)]
  simp only [List.map_cons, List.map_nil, List.cons.injEq, and_true, ← BitVec.toNat_inj]
  refine ⟨?_, ?_, ?_, ?_⟩ <;> simp <;> omega

theorem utf8_cases (c : Char) :
    (∃ a, utf8 c = [a] ∧ a.toNat ≤ 0x7F ∧ c.toNat = a.toNat) ∨
    (∃ a b, utf8 c = [a, b] ∧ Within 0xC2 0xDF a ∧ Within 0x80 0xBF b ∧
      c.toNat = (a.toNat - 0xC0) * 0x40 + (b.toNat - 0x80)) ∨
    (∃ a b d, utf8 c = [a, b, d] ∧ Within 0xE0 0xEF a ∧ Within 0x80 0xBF b ∧ Within 0x80 0xBF d ∧
      c.toNat = (a.toNat - 0xE0) * 0x1000 + (b.toNat - 0x80) * 0x40 + (d.toNat - 0x80) ∧ 0x800 ≤ c.toNat) ∨
    ∃ a b d e, utf8 c = [a, b, d, e] ∧ Within 0xF0 0xF4 a ∧ Within 0x80 0xBF b ∧ Within 0x80 0xBF d ∧
      Within 0x80 0xBF e ∧ c.toNat = (a.toNat - 0xF0) * 0x40000 + (b.toNat - 0x80) * 0x1000 +
        (d.toNat - 0x80) * 0x40 + (e.toNat - 0x80) ∧ 0x10000 ≤ c.toNat := by
  have hvalid : c.val.toNat.isValidChar := c.valid
  have hc : c.toNat = c.val.toNat := rfl
  unfold Nat.isValidChar at hvalid
  unfold utf8 String.utf8EncodeChar Within
  simp only [hc]
  generalize c.val.toNat = n at hvalid ⊢
  split
  · exact .inl ⟨_, rfl, by simp; omega, by simp; omega⟩
  · split
    · exact .inr (.inl ⟨_, _, rfl, by simp; omega, by simp; omega, by simp; omega⟩)
    · split
      · exact .inr (.inr (.inl ⟨_, _, _, rfl, by simp; omega, by simp; omega, by simp; omega, by simp; omega,
          by omega⟩))
      · exact .inr (.inr (.inr ⟨_, _, _, _, rfl, by simp; omega, by simp; omega, by simp; omega, by simp; omega,
          by simp; omega, by omega⟩))

end Unicode
