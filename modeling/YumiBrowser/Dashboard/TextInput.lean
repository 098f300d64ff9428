import Mathlib.Data.List.Basic
import Mathlib.Data.List.Infix
import YumiBrowser.Library.ByteCodec
import YumiBrowser.Library.Unicode

namespace YumiBrowser.Text

open Unicode Wire

/-- The rest of a sequence, with `extra` bytes to go: a pointer is the memory from there on, up to the
terminator, and a read beyond it is the failure of the model. -/
def continuation : (extra : ℕ) → BitVec 32 → List Byte → Option (BitVec 32 × List Byte)
  | 0, cp, s => some (cp, s)
  | _ + 1, _, [] => none
  | extra + 1, cp, b :: s =>
    if b &&& 0xC0#8 ≠ 0x80#8 then some (0xFFFD#32, b :: s)
    else continuation extra (cp <<< 6 ||| (b &&& 0x3F#8).setWidth 32) s

def utf8Next : List Byte → Option (BitVec 32 × List Byte)
  | [] => none
  | b :: s =>
    if b < 0x80#8 then some (b.setWidth 32, s)
    else if b < 0xC0#8 then some (0xFFFD#32, s)
    else if b < 0xE0#8 then continuation 1 ((b &&& 0x1F#8).setWidth 32) s
    else if b < 0xF0#8 then continuation 2 ((b &&& 0x0F#8).setWidth 32) s
    else if b < 0xF8#8 then continuation 3 ((b &&& 0x07#8).setWidth 32) s
    else some (0xFFFD#32, s)

/-- One turn of the text input loop: the bytes that `utf8_next` moved over, and what it made of them. -/
structure Turn where
  bytes : List Byte
  cp : BitVec 32
  deriving DecidableEq

/-- The turns of the loop, which takes no more than `turns`. -/
def textInput : (turns : ℕ) → List Byte → Option (List Turn)
  | 0, _ => none
  | turns + 1, s =>
    s.head?.bind fun b =>
      if b = 0 then some []
      else
        (utf8Next s).bind fun r =>
          (textInput turns r.2).map (⟨s.take (s.length - r.2.length), r.1⟩ :: ·)

/-- The turns that end in `webapp_dispatch_char`. -/
def dispatched (ts : List Turn) : List Turn := ts.filter fun t => t.cp ≠ 0 ∧ t.cp ≠ 0xFFFD#32

/-- The loop ends, it dispatches the code points of a text that is well formed, and whatever the text is it
dispatches scalar values only, each from its own encoding. -/
def Decodes (text : List Byte) : Prop :=
  ∃ ts, textInput (text.length + 1) (text ++ [0]) = some ts ∧
    (∀ cs : List Char, text = cs.flatMap utf8 →
      (dispatched ts).map (·.cp.toNat) = (cs.filter (· ≠ Char.ofNat 0xFFFD)).map Char.toNat) ∧
    ∀ t ∈ dispatched ts, ∃ c : Char, t.cp.toNat = c.toNat ∧ t.bytes = utf8 c

/-- A sequence of the right length that is overlong, a surrogate or too large, and does not come out as
one of the two values that are left out anyway. -/
inductive Slip : List Byte → Prop
  | two : Within 0xC0 0xC1 a → Within 0x80 0xBF b → ¬ (a.toNat = 0xC0 ∧ b.toNat = 0x80) → Slip [a, b]
  | three : Within 0x80 0x9F b → Within 0x80 0xBF d → ¬ (b.toNat = 0x80 ∧ d.toNat = 0x80) →
      Slip [0xE0#8, b, d]
  | surrogate : Within 0xA0 0xBF b → Within 0x80 0xBF d → Slip [0xED#8, b, d]
  | four : Within 0x80 0x8F b → Within 0x80 0xBF d → Within 0x80 0xBF e →
      ¬ (b.toNat = 0x80 ∧ d.toNat = 0x80 ∧ e.toNat = 0x80) →
      ¬ (b.toNat = 0x8F ∧ d.toNat = 0xBF ∧ e.toNat = 0xBD) → Slip [0xF0#8, b, d, e]
  | large : Within 0x90 0xBF b → Within 0x80 0xBF d → Within 0x80 0xBF e → Slip [0xF4#8, b, d, e]
  | larger : Within 0xF5 0xF7 a → Within 0x80 0xBF b → Within 0x80 0xBF d → Within 0x80 0xBF e → Slip [a, b, d, e]

section Bytes

variable {a b d e : Byte} {cp : BitVec 32} {s : List Byte} {extra : ℕ}

theorem isContinuation_iff : b &&& 0xC0#8 = 0x80#8 ↔ Within 0x80 0xBF b := by
  revert b
  decide +kernel

theorem toNat_shift (cp : BitVec 32) (h : cp.toNat < 2 ^ 26) :
    (cp <<< 6 ||| (b &&& 0x3F#8).setWidth 32).toNat = cp.toNat * 0x40 + b.toNat % 0x40 := by
  have hlow : (b &&& 0x3F#8).toNat = b.toNat % 2 ^ 6 := Nat.and_two_pow_sub_one_eq_mod _ 6
  have hhigh : (cp <<< 6).toNat = cp.toNat <<< 6 := by
    rw [BitVec.toNat_shiftLeft, Nat.shiftLeft_eq, Nat.mod_eq_of_lt (by omega)]
  rw [BitVec.toNat_or, hhigh, BitVec.toNat_setWidth, hlow, Nat.mod_eq_of_lt (b := 2 ^ 32) (by omega),
    ← Nat.shiftLeft_add_eq_or_of_lt (by omega), Nat.shiftLeft_eq]
  rfl

theorem toNat_lead {m : Byte} {n : ℕ} (hm : m.toNat = 2 ^ n - 1) :
    ((a &&& m).setWidth 32).toNat = a.toNat % 2 ^ n := by
  have hlow : (a &&& m).toNat = a.toNat % 2 ^ n := by
    rw [BitVec.toNat_and, hm, Nat.and_two_pow_sub_one_eq_mod]
  have hlt : (a &&& m).toNat < 2 ^ 8 := (a &&& m).isLt
  rw [BitVec.toNat_setWidth, Nat.mod_eq_of_lt (by omega), hlow]

theorem continuation_cons (hb : Within 0x80 0xBF b) :
    continuation (extra + 1) cp (b :: s) = continuation extra (cp <<< 6 ||| (b &&& 0x3F#8).setWidth 32) s := by
  rw [continuation, if_neg (not_not.mpr (isContinuation_iff.mpr hb))]

theorem continuation_stop (hb : ¬ Within 0x80 0xBF b) :
    continuation (extra + 1) cp (b :: s) = some (0xFFFD#32, b :: s) := by
  rw [continuation, if_pos (mt isContinuation_iff.mp hb)]

theorem utf8Next_one (ha : a.toNat ≤ 0x7F) : utf8Next (a :: s) = some (a.setWidth 32, s) := by
  rw [utf8Next, if_pos (BitVec.lt_def.mpr (Nat.lt_succ_of_le ha))]

theorem utf8Next_lead_two (ha : Within 0xC0 0xDF a) :
    utf8Next (a :: s) = continuation 1 ((a &&& 0x1F#8).setWidth 32) s := by
  unfold Within at ha
  rw [utf8Next, if_neg (by simp [BitVec.lt_def]; omega), if_neg (by simp [BitVec.lt_def]; omega),
    if_pos (by simp [BitVec.lt_def]; omega)]

theorem utf8Next_lead_three (ha : Within 0xE0 0xEF a) :
    utf8Next (a :: s) = continuation 2 ((a &&& 0x0F#8).setWidth 32) s := by
  unfold Within at ha
  rw [utf8Next, if_neg (by simp [BitVec.lt_def]; omega), if_neg (by simp [BitVec.lt_def]; omega),
    if_neg (by simp [BitVec.lt_def]; omega), if_pos (by simp [BitVec.lt_def]; omega)]

theorem utf8Next_lead_four (ha : Within 0xF0 0xF7 a) :
    utf8Next (a :: s) = continuation 3 ((a &&& 0x07#8).setWidth 32) s := by
  unfold Within at ha
  rw [utf8Next, if_neg (by simp [BitVec.lt_def]; omega), if_neg (by simp [BitVec.lt_def]; omega),
    if_neg (by simp [BitVec.lt_def]; omega), if_neg (by simp [BitVec.lt_def]; omega),
    if_pos (by simp [BitVec.lt_def]; omega)]

theorem utf8Next_stray (ha : Within 0x80 0xBF a ∨ 0xF8 ≤ a.toNat) : utf8Next (a :: s) = some (0xFFFD#32, s) := by
  unfold Within at ha
  rw [utf8Next, if_neg (by simp [BitVec.lt_def]; omega)]
  split
  · rfl
  · rename_i hnot
    simp [BitVec.lt_def] at hnot
    rw [if_neg (by simp [BitVec.lt_def]; omega), if_neg (by simp [BitVec.lt_def]; omega),
      if_neg (by simp [BitVec.lt_def]; omega)]

theorem utf8Next_two (ha : Within 0xC0 0xDF a) (hb : Within 0x80 0xBF b) :
    ∃ cp, utf8Next (a :: b :: s) = some (cp, s) ∧ cp.toNat = (a.toNat - 0xC0) * 0x40 + (b.toNat - 0x80) := by
  have hlead : ((a &&& 0x1F#8).setWidth 32).toNat = a.toNat % 2 ^ 5 := toNat_lead rfl
  refine ⟨_, by rw [utf8Next_lead_two ha, continuation_cons hb, continuation], ?_⟩
  rw [toNat_shift _ (by omega), hlead]
  unfold Within at ha hb
  omega

theorem utf8Next_three (ha : Within 0xE0 0xEF a) (hb : Within 0x80 0xBF b) (hd : Within 0x80 0xBF d) :
    ∃ cp, utf8Next (a :: b :: d :: s) = some (cp, s) ∧
      cp.toNat = (a.toNat - 0xE0) * 0x1000 + (b.toNat - 0x80) * 0x40 + (d.toNat - 0x80) := by
  have hlead : ((a &&& 0x0F#8).setWidth 32).toNat = a.toNat % 2 ^ 4 := toNat_lead rfl
  have hone := toNat_shift (b := b) ((a &&& 0x0F#8).setWidth 32) (by omega)
  refine ⟨_, by rw [utf8Next_lead_three ha, continuation_cons hb, continuation_cons hd, continuation], ?_⟩
  rw [toNat_shift _ (by omega), hone, hlead]
  unfold Within at ha hb hd
  omega

theorem utf8Next_four (ha : Within 0xF0 0xF7 a) (hb : Within 0x80 0xBF b) (hd : Within 0x80 0xBF d)
    (he : Within 0x80 0xBF e) :
    ∃ cp, utf8Next (a :: b :: d :: e :: s) = some (cp, s) ∧
      cp.toNat = (a.toNat - 0xF0) * 0x40000 + (b.toNat - 0x80) * 0x1000 + (d.toNat - 0x80) * 0x40 +
        (e.toNat - 0x80) := by
  have hlead : ((a &&& 0x07#8).setWidth 32).toNat = a.toNat % 2 ^ 3 := toNat_lead rfl
  have hone := toNat_shift (b := b) ((a &&& 0x07#8).setWidth 32) (by omega)
  have htwo := toNat_shift (b := d) ((a &&& 0x07#8).setWidth 32 <<< 6 ||| (b &&& 0x3F#8).setWidth 32)
    (by omega)
  refine ⟨_, by rw [utf8Next_lead_four ha, continuation_cons hb, continuation_cons hd, continuation_cons he,
    continuation], ?_⟩
  rw [toNat_shift _ (by omega), htwo, hone, hlead]
  unfold Within at ha hb hd he
  omega

theorem continuation_cases (extra : ℕ) (cp : BitVec 32) (r : List Byte) :
    (∃ conts rest, r = conts ++ rest ∧ (∀ x ∈ conts, Within 0x80 0xBF x) ∧
      continuation extra cp (r ++ [0]) = some (0xFFFD#32, rest ++ [0])) ∨
    ∃ conts rest, r = conts ++ rest ∧ (∀ x ∈ conts, Within 0x80 0xBF x) ∧ conts.length = extra := by
  induction extra generalizing cp r with
  | zero => exact .inr ⟨[], r, rfl, fun _ hx => absurd hx List.not_mem_nil, rfl⟩
  | succ extra ih =>
    cases r with
    | nil => exact .inl ⟨[], [], rfl, fun _ hx => absurd hx List.not_mem_nil, continuation_stop (by decide)⟩
    | cons b r =>
      by_cases hb : Within 0x80 0xBF b
      · obtain ⟨conts, rest, rfl, hconts, heq⟩ | ⟨conts, rest, rfl, hconts, hlen⟩ :=
          ih (cp <<< 6 ||| (b &&& 0x3F#8).setWidth 32) r
        · exact .inl ⟨b :: conts, rest, rfl, List.forall_mem_cons.mpr ⟨hb, hconts⟩,
            (continuation_cons hb).trans heq⟩
        · exact .inr ⟨b :: conts, rest, rfl, List.forall_mem_cons.mpr ⟨hb, hconts⟩, congrArg Nat.succ hlen⟩
      · exact .inl ⟨[], b :: r, rfl, fun _ hx => absurd hx List.not_mem_nil, continuation_stop hb⟩

end Bytes

section Slips

variable {a b d e : Byte} {cp : BitVec 32} {s bytes : List Byte}

def Outcome (bytes : List Byte) (cp : BitVec 32) : Prop :=
  cp = 0 ∨ cp = 0xFFFD#32 ∨ (∃ c : Char, cp.toNat = c.toNat ∧ bytes = utf8 c) ∨ Slip bytes

theorem outcome_two (ha : Within 0xC0 0xDF a) (hb : Within 0x80 0xBF b) :
    ∃ cp, utf8Next (a :: b :: s) = some (cp, s) ∧ Outcome [a, b] cp := by
  obtain ⟨cp, hnext, hcp⟩ := utf8Next_two (s := s) ha hb
  refine ⟨cp, hnext, ?_⟩
  unfold Within at ha hb
  by_cases hlong : a.toNat ≤ 0xC1
  · by_cases hzero : a.toNat = 0xC0 ∧ b.toNat = 0x80
    · exact .inl (BitVec.eq_of_toNat_eq (by rw [hcp, hzero.1, hzero.2]; rfl))
    · exact .inr (.inr (.inr (.two ⟨ha.1, hlong⟩ hb hzero)))
  · obtain ⟨c, hc⟩ := exists_char (n := cp.toNat) (.inl (by omega))
    exact .inr (.inr (.inl ⟨c, hc.symm, (utf8_two (hc.trans hcp) ⟨by omega, ha.2⟩ hb).symm⟩))

theorem outcome_three (ha : Within 0xE0 0xEF a) (hb : Within 0x80 0xBF b) (hd : Within 0x80 0xBF d) :
    ∃ cp, utf8Next (a :: b :: d :: s) = some (cp, s) ∧ Outcome [a, b, d] cp := by
  obtain ⟨cp, hnext, hcp⟩ := utf8Next_three (s := s) ha hb hd
  refine ⟨cp, hnext, ?_⟩
  by_cases hvalid : 0x800 ≤ cp.toNat ∧ cp.toNat.isValidChar
  · obtain ⟨c, hc⟩ := exists_char hvalid.2
    exact .inr (.inr (.inl ⟨c, hc.symm, (utf8_three (hc.trans hcp) (hc ▸ hvalid.1) ha hb hd).symm⟩))
  · unfold Nat.isValidChar at hvalid
    unfold Within at ha hb hd
    by_cases hlong : cp.toNat < 0x800
    · obtain rfl : a = 0xE0#8 := BitVec.eq_of_toNat_eq (show a.toNat = 0xE0 by omega)
      by_cases hzero : b.toNat = 0x80 ∧ d.toNat = 0x80
      · exact .inl (BitVec.eq_of_toNat_eq (by rw [hcp, hzero.1, hzero.2]; rfl))
      · exact .inr (.inr (.inr (.three ⟨hb.1, by omega⟩ hd hzero)))
    · obtain rfl : a = 0xED#8 := BitVec.eq_of_toNat_eq (show a.toNat = 0xED by omega)
      refine .inr (.inr (.inr (.surrogate ⟨?_, hb.2⟩ hd)))
      change cp.toNat = (0xED - 0xE0) * 0x1000 + (b.toNat - 0x80) * 0x40 + (d.toNat - 0x80) at hcp
      omega

theorem outcome_four (ha : Within 0xF0 0xF7 a) (hb : Within 0x80 0xBF b) (hd : Within 0x80 0xBF d)
    (he : Within 0x80 0xBF e) :
    ∃ cp, utf8Next (a :: b :: d :: e :: s) = some (cp, s) ∧ Outcome [a, b, d, e] cp := by
  obtain ⟨cp, hnext, hcp⟩ := utf8Next_four (s := s) ha hb hd he
  refine ⟨cp, hnext, ?_⟩
  by_cases hvalid : 0x10000 ≤ cp.toNat ∧ cp.toNat ≤ 0x10FFFF
  · obtain ⟨c, hc⟩ := exists_char (n := cp.toNat) (.inr (by omega))
    have hlead : Within 0xF0 0xF4 a := ⟨ha.1, by unfold Within at ha hb hd he; omega⟩
    exact .inr (.inr (.inl ⟨c, hc.symm, (utf8_four (hc.trans hcp) (hc ▸ hvalid.1) hlead hb hd he).symm⟩))
  · by_cases hlong : cp.toNat < 0x10000
    · obtain rfl : a = 0xF0#8 :=
        BitVec.eq_of_toNat_eq (show a.toNat = 0xF0 by unfold Within at ha hb hd he; omega)
      by_cases hzero : b.toNat = 0x80 ∧ d.toNat = 0x80 ∧ e.toNat = 0x80
      · exact .inl (BitVec.eq_of_toNat_eq (by rw [hcp, hzero.1, hzero.2.1, hzero.2.2]; rfl))
      · by_cases hfffd : b.toNat = 0x8F ∧ d.toNat = 0xBF ∧ e.toNat = 0xBD
        · exact .inr (.inl (BitVec.eq_of_toNat_eq (by rw [hcp, hfffd.1, hfffd.2.1, hfffd.2.2]; rfl)))
        · change cp.toNat = (0xF0 - 0xF0) * 0x40000 + (b.toNat - 0x80) * 0x1000 + (d.toNat - 0x80) * 0x40 +
            (e.toNat - 0x80) at hcp
          have hsecond : Within 0x80 0x8F b := ⟨hb.1, by unfold Within at hb hd he; omega⟩
          exact .inr (.inr (.inr (.four hsecond hd he hzero hfffd)))
    · by_cases hlead : a.toNat ≤ 0xF4
      · obtain rfl : a = 0xF4#8 :=
          BitVec.eq_of_toNat_eq (show a.toNat = 0xF4 by unfold Within at ha hb hd he; omega)
        change cp.toNat = (0xF4 - 0xF0) * 0x40000 + (b.toNat - 0x80) * 0x1000 + (d.toNat - 0x80) * 0x40 +
          (e.toNat - 0x80) at hcp
        have hsecond : Within 0x90 0xBF b := ⟨by unfold Within at hb hd he; omega, hb.2⟩
        exact .inr (.inr (.inr (.large hsecond hd he)))
      · exact .inr (.inr (.inr (.larger ⟨Nat.lt_of_not_le hlead, ha.2⟩ hb hd he)))

theorem utf8Next_cases (b : Byte) (r : List Byte) : ∃ conts rest cp, r = conts ++ rest ∧
    (∀ x ∈ conts, Within 0x80 0xBF x) ∧ utf8Next (b :: r ++ [0]) = some (cp, rest ++ [0]) ∧
    Outcome (b :: conts) cp := by
  have hlt := b.isLt
  by_cases hone : b.toNat ≤ 0x7F
  · obtain ⟨c, hc⟩ := exists_char (n := b.toNat) (.inl (by omega))
    refine ⟨[], r, b.setWidth 32, rfl, fun _ hx => absurd hx List.not_mem_nil, utf8Next_one hone,
      .inr (.inr (.inl ⟨c, ?_, (utf8_one hc hone).symm⟩))⟩
    rw [BitVec.toNat_setWidth, hc]
    omega
  by_cases hstray : Within 0x80 0xBF b ∨ 0xF8 ≤ b.toNat
  · exact ⟨[], r, 0xFFFD#32, rfl, fun _ hx => absurd hx List.not_mem_nil, utf8Next_stray hstray, .inr (.inl rfl)⟩
  unfold Within at hstray
  by_cases htwo : Within 0xC0 0xDF b
  · obtain ⟨conts, rest, rfl, hconts, heq⟩ | ⟨conts, rest, rfl, hconts, hlen⟩ :=
      continuation_cases 1 ((b &&& 0x1F#8).setWidth 32) r
    · exact ⟨conts, rest, 0xFFFD#32, rfl, hconts, (utf8Next_lead_two htwo).trans heq, .inr (.inl rfl)⟩
    · obtain ⟨x, rfl⟩ := List.length_eq_one_iff.mp hlen
      obtain ⟨cp, hnext, hout⟩ := outcome_two (s := rest ++ [0]) htwo (hconts x (by simp))
      exact ⟨[x], rest, cp, rfl, hconts, hnext, hout⟩
  by_cases hthree : Within 0xE0 0xEF b
  · obtain ⟨conts, rest, rfl, hconts, heq⟩ | ⟨conts, rest, rfl, hconts, hlen⟩ :=
      continuation_cases 2 ((b &&& 0x0F#8).setWidth 32) r
    · exact ⟨conts, rest, 0xFFFD#32, rfl, hconts, (utf8Next_lead_three hthree).trans heq, .inr (.inl rfl)⟩
    · obtain ⟨x, y, rfl⟩ := List.length_eq_two.mp hlen
      obtain ⟨cp, hnext, hout⟩ := outcome_three (s := rest ++ [0]) hthree (hconts x (by simp)) (hconts y (by simp))
      exact ⟨[x, y], rest, cp, rfl, hconts, hnext, hout⟩
  have hfour : Within 0xF0 0xF7 b := by
    unfold Within at htwo hthree ⊢
    omega
  obtain ⟨conts, rest, rfl, hconts, heq⟩ | ⟨conts, rest, rfl, hconts, hlen⟩ :=
    continuation_cases 3 ((b &&& 0x07#8).setWidth 32) r
  · exact ⟨conts, rest, 0xFFFD#32, rfl, hconts, (utf8Next_lead_four hfour).trans heq, .inr (.inl rfl)⟩
  · obtain ⟨x, y, z, rfl⟩ := List.length_eq_three.mp hlen
    obtain ⟨cp, hnext, hout⟩ :=
      outcome_four (s := rest ++ [0]) hfour (hconts x (by simp)) (hconts y (by simp)) (hconts z (by simp))
    exact ⟨[x, y, z], rest, cp, rfl, hconts, hnext, hout⟩

theorem ne_of_toNat {n : ℕ} (hcp : cp.toNat = n) (hzero : n ≠ 0) (hfffd : n ≠ 0xFFFD) : cp ≠ 0 ∧ cp ≠ 0xFFFD#32 :=
  ⟨fun h => hzero (by rw [← hcp, h]; rfl), fun h => hfffd (by rw [← hcp, h]; rfl)⟩

theorem Slip.next (h : Slip bytes) :
    ∃ cp, utf8Next (bytes ++ s) = some (cp, s) ∧ cp ≠ 0 ∧ cp ≠ 0xFFFD#32 := by
  cases h with
  | @two a b ha hb hne =>
    obtain ⟨cp, hnext, hcp⟩ := utf8Next_two (s := s) ⟨ha.1, ha.2.trans (by decide)⟩ hb
    unfold Within at ha hb
    exact ⟨cp, hnext, ne_of_toNat hcp (by omega) (by omega)⟩
  | @three b d hb hd hne =>
    obtain ⟨cp, hnext, hcp⟩ := utf8Next_three (a := 0xE0#8) (s := s) (by decide) ⟨hb.1, hb.2.trans (by decide)⟩ hd
    unfold Within at hb hd
    exact ⟨cp, hnext, ne_of_toNat hcp (by simp; omega) (by simp; omega)⟩
  | @surrogate b d hb hd =>
    obtain ⟨cp, hnext, hcp⟩ := utf8Next_three (a := 0xED#8) (s := s) (by decide) ⟨hb.1.trans' (by decide), hb.2⟩ hd
    unfold Within at hb hd
    exact ⟨cp, hnext, ne_of_toNat hcp (by simp) (by simp; omega)⟩
  | @four b d e hb hd he hzero hfffd =>
    obtain ⟨cp, hnext, hcp⟩ :=
      utf8Next_four (a := 0xF0#8) (s := s) (by decide) ⟨hb.1, hb.2.trans (by decide)⟩ hd he
    unfold Within at hb hd he
    exact ⟨cp, hnext, ne_of_toNat hcp (by simp; omega) (by simp; omega)⟩
  | @large b d e hb hd he =>
    obtain ⟨cp, hnext, hcp⟩ := utf8Next_four (a := 0xF4#8) (s := s) (by decide) ⟨hb.1.trans' (by decide), hb.2⟩ hd he
    unfold Within at hb hd he
    exact ⟨cp, hnext, ne_of_toNat hcp (by simp) (by simp; omega)⟩
  | @larger a b d e ha hb hd he =>
    obtain ⟨cp, hnext, hcp⟩ := utf8Next_four (s := s) ⟨ha.1.trans' (by decide), ha.2⟩ hb hd he
    unfold Within at ha hb hd he
    exact ⟨cp, hnext, ne_of_toNat hcp (by omega) (by omega)⟩

theorem Slip.ne_utf8 (h : Slip bytes) (c : Char) : bytes ≠ utf8 c := by
  have hvalid : c.toNat.isValidChar := c.valid
  unfold Nat.isValidChar at hvalid
  intro heq
  rw [heq] at h
  obtain ⟨a, hc, -⟩ | ⟨a, b, hc, ha, -⟩ | ⟨a, b, d, hc, -, hb, hd, hval, hlong⟩ |
    ⟨a, b, d, e, hc, ha, hb, hd, he, hval, hlong⟩ := utf8_cases c
  · rw [hc] at h
    cases h
  · rw [hc] at h
    cases h with
    | two ha' => exact absurd (ha.1.trans ha'.2) (by decide)
  · rw [hc] at h
    unfold Within at hb hd
    cases h with
    | three hb' =>
      have hsecond := hb'.2
      rw [BitVec.toNat_ofNat] at hval
      omega
    | surrogate hb' =>
      have hsecond := hb'.1
      rw [BitVec.toNat_ofNat] at hval
      omega
  · rw [hc] at h
    unfold Within at hb hd he
    cases h with
    | four hb' =>
      have hsecond := hb'.2
      rw [BitVec.toNat_ofNat] at hval
      omega
    | large hb' =>
      have hsecond := hb'.1
      rw [BitVec.toNat_ofNat] at hval
      omega
    | larger ha' => exact absurd (ha'.1.trans ha.2) (by decide)

theorem Slip.head (h : Slip bytes) : ∃ b bs, bytes = b :: bs ∧ 0xC0 ≤ b.toNat := by
  cases h with
  | two ha => exact ⟨_, _, rfl, ha.1⟩
  | three => exact ⟨_, _, rfl, by decide⟩
  | surrogate => exact ⟨_, _, rfl, by decide⟩
  | four => exact ⟨_, _, rfl, by decide⟩
  | large => exact ⟨_, _, rfl, by decide⟩
  | larger ha => exact ⟨_, _, rfl, ha.1.trans' (by decide)⟩

theorem utf8Next_utf8 (c : Char) : utf8Next (utf8 c ++ s) = some (BitVec.ofNat 32 c.toNat, s) := by
  have hsame {cp : BitVec 32} (h : cp.toNat = c.toNat) : cp = BitVec.ofNat 32 c.toNat := by
    rw [← h, BitVec.ofNat_toNat, BitVec.setWidth_eq]
  obtain ⟨a, hc, ha, hval⟩ | ⟨a, b, hc, ha, hb, hval⟩ | ⟨a, b, d, hc, ha, hb, hd, hval, -⟩ |
    ⟨a, b, d, e, hc, ha, hb, hd, he, hval, -⟩ := utf8_cases c
  · have hcp : (a.setWidth 32).toNat = a.toNat := BitVec.toNat_setWidth_of_le (by decide)
    rw [hc, List.singleton_append, utf8Next_one ha, hsame (hcp.trans hval.symm)]
  · obtain ⟨cp, hnext, hcp⟩ := utf8Next_two (s := s) ⟨ha.1.trans' (by decide), ha.2⟩ hb
    rw [hc, ← hsame (hcp.trans hval.symm)]
    exact hnext
  · obtain ⟨cp, hnext, hcp⟩ := utf8Next_three (s := s) ha hb hd
    rw [hc, ← hsame (hcp.trans hval.symm)]
    exact hnext
  · obtain ⟨cp, hnext, hcp⟩ := utf8Next_four (s := s) ⟨ha.1, ha.2.trans (by decide)⟩ hb hd he
    rw [hc, ← hsame (hcp.trans hval.symm)]
    exact hnext

end Slips

section Loop

variable {b : Byte} {cp : BitVec 32} {c : Char} {cs : List Char} {r s bytes : List Byte} {n : ℕ} {ts : List Turn}

theorem textInput_turn (hnext : utf8Next (bytes ++ s) = some (cp, s)) (hhead : (bytes ++ s).head? = some b)
    (hb : b ≠ 0) : textInput (n + 1) (bytes ++ s) = (textInput n s).map (⟨bytes, cp⟩ :: ·) := by
  have htake : (bytes ++ s).take ((bytes ++ s).length - s.length) = bytes := by
    rw [List.length_append, Nat.add_sub_cancel, List.take_left']
    rfl
  rw [textInput, hhead, Option.bind_some, if_neg hb, hnext, Option.bind_some, htake]

theorem textInput_ends (hr : (0 : Byte) ∉ r) (hn : r.length < n) :
    ∃ ts, textInput n (r ++ [0]) = some ts ∧ ∀ t ∈ ts, Outcome t.bytes t.cp ∧ t.bytes <:+: r := by
  induction n generalizing r with
  | zero => exact absurd hn (Nat.not_lt_zero _)
  | succ n ih =>
    cases r with
    | nil => exact ⟨[], by simp [textInput], fun _ ht => absurd ht List.not_mem_nil⟩
    | cons b r =>
      obtain ⟨conts, rest, cp, rfl, -, hnext, hout⟩ := utf8Next_cases b r
      have hb : b ≠ 0 := fun h => hr (h ▸ List.mem_cons_self)
      have hrest : rest.length < n := by
        simp only [List.length_cons, List.length_append] at hn
        omega
      obtain ⟨ts, hts, hall⟩ :=
        ih (fun h => hr (List.mem_cons_of_mem _ (List.mem_append_right _ h))) hrest
      have hbytes : b :: (conts ++ rest) ++ [0] = (b :: conts) ++ (rest ++ [0]) := by simp
      rw [hbytes] at hnext ⊢
      refine ⟨⟨b :: conts, cp⟩ :: ts, by rw [textInput_turn hnext rfl hb, hts]; rfl, ?_⟩
      refine List.forall_mem_cons.mpr ⟨⟨hout, ((b :: conts).prefix_append rest).isInfix⟩, fun t ht => ?_⟩
      exact ⟨(hall t ht).1, (hall t ht).2.trans ((b :: conts).suffix_append rest).isInfix⟩

theorem textInput_utf8 (hr : (0 : Byte) ∉ cs.flatMap utf8) (hn : (cs.flatMap utf8).length < n) :
    textInput n (cs.flatMap utf8 ++ [0]) = some (cs.map fun c => ⟨utf8 c, BitVec.ofNat 32 c.toNat⟩) := by
  induction cs generalizing n with
  | nil =>
    obtain ⟨n, rfl⟩ := Nat.exists_eq_succ_of_ne_zero (Nat.ne_of_gt hn)
    simp [textInput]
  | cons c cs ih =>
    obtain ⟨n, rfl⟩ := Nat.exists_eq_succ_of_ne_zero (Nat.ne_of_gt (Nat.zero_lt_of_lt hn))
    rw [List.flatMap_cons] at hr hn ⊢
    obtain ⟨b, bs, hc⟩ := List.exists_cons_of_ne_nil (utf8_ne_nil c)
    have hb : b ≠ 0 := fun h => hr (List.mem_append_left _ (by rw [hc, h]; exact List.mem_cons_self))
    have hrest : (cs.flatMap utf8).length < n := by
      rw [List.length_append, hc, List.length_cons] at hn
      omega
    rw [List.append_assoc, textInput_turn (utf8Next_utf8 c) (by rw [hc]; rfl) hb,
      ih (fun h => hr (List.mem_append_right _ h)) hrest]
    rfl

theorem textInput_slip {pre post : List Byte} (hslip : Slip bytes) (hr : (0 : Byte) ∉ pre ++ (bytes ++ post))
    (hts : textInput n (pre ++ (bytes ++ post) ++ [0]) = some ts) :
    ∃ t ∈ ts, t.bytes = bytes ∧ t.cp ≠ 0 ∧ t.cp ≠ 0xFFFD#32 := by
  obtain ⟨lead, bs, hlead, hle⟩ := hslip.head
  induction n generalizing pre ts with
  | zero => cases hts
  | succ n ih =>
    cases pre with
    | nil =>
      obtain ⟨cp, hnext, hzero, hfffd⟩ := hslip.next (s := post ++ [0])
      have hhead : (bytes ++ (post ++ [0])).head? = some lead := by rw [hlead]; rfl
      have hne : lead ≠ 0 := fun h => hr (by rw [hlead, h]; exact List.mem_cons_self)
      rw [List.nil_append, List.append_assoc, textInput_turn hnext hhead hne] at hts
      obtain ⟨ts', -, rfl⟩ := Option.map_eq_some_iff.mp hts
      exact ⟨⟨bytes, cp⟩, List.mem_cons_self, rfl, hzero, hfffd⟩
    | cons b pre =>
      obtain ⟨conts, rest, cp, hsplit, hconts, hnext, -⟩ := utf8Next_cases b (pre ++ (bytes ++ post))
      have hne : b ≠ 0 := fun h => hr (h ▸ List.mem_cons_self)
      have hbytes : b :: pre ++ (bytes ++ post) ++ [0] = (b :: conts) ++ (rest ++ [0]) := by
        simp [hsplit]
      rw [← List.cons_append, hbytes] at hnext
      rw [hbytes, textInput_turn hnext rfl hne] at hts
      obtain ⟨ts', hts', rfl⟩ := Option.map_eq_some_iff.mp hts
      obtain ⟨pre', hpre⟩ : ∃ pre', rest = pre' ++ (bytes ++ post) := by
        obtain ⟨mid, hmid, hover⟩ | ⟨pre', -, hpre⟩ := List.append_eq_append_iff.mp hsplit
        · cases mid with
          | nil => exact ⟨[], hover.symm⟩
          | cons x mid =>
            rw [hlead] at hover
            obtain rfl : lead = x := (List.cons.inj hover).1
            have hcont := hconts lead (by rw [hmid]; simp)
            exact absurd (hle.trans hcont.2) (by decide)
        · exact ⟨pre', hpre⟩
      rw [hpre] at hts'
      have hclean : (0 : Byte) ∉ pre' ++ (bytes ++ post) := by
        rw [List.cons_append, hsplit, hpre] at hr
        exact fun h => hr (List.mem_cons_of_mem _ (List.mem_append_right _ h))
      obtain ⟨t, ht, hall⟩ := ih hclean hts'
      exact ⟨t, List.mem_cons_of_mem _ ht, hall⟩

theorem dispatched_utf8 (hr : (0 : Byte) ∉ cs.flatMap utf8) :
    (dispatched (cs.map fun c => ⟨utf8 c, BitVec.ofNat 32 c.toNat⟩)).map (·.cp.toNat) =
      (cs.filter (· ≠ Char.ofNat 0xFFFD)).map Char.toNat := by
  induction cs with
  | nil => rfl
  | cons c cs ih =>
    rw [List.flatMap_cons, List.mem_append, not_or] at hr
    have hvalid : c.toNat.isValidChar := c.valid
    unfold Nat.isValidChar at hvalid
    have hcp : (BitVec.ofNat 32 c.toNat).toNat = c.toNat := by
      rw [BitVec.toNat_ofNat]
      omega
    have hzero : BitVec.ofNat 32 c.toNat ≠ 0 := fun h => by
      have hnul : c.toNat = (0 : Byte).toNat := by
        rw [← hcp, h]
        rfl
      exact hr.1 (by rw [utf8_one hnul (by decide)]; exact List.mem_cons_self)
    have hiff : BitVec.ofNat 32 c.toNat = 0xFFFD#32 ↔ c = Char.ofNat 0xFFFD := by
      rw [← BitVec.toNat_inj, hcp]
      exact ⟨fun h => Char.toNat_inj.mp h, fun h => by rw [h]; rfl⟩
    have hrest := ih hr.2
    unfold dispatched at hrest ⊢
    by_cases hc : c = Char.ofNat 0xFFFD
    · rw [List.map_cons, List.filter_cons_of_neg (by simp [hc]), List.filter_cons_of_neg (by simp [hc]), hrest]
    · have hkeep : decide (BitVec.ofNat 32 c.toNat ≠ 0 ∧ BitVec.ofNat 32 c.toNat ≠ 0xFFFD#32) = true :=
        decide_eq_true ⟨hzero, mt hiff.mp hc⟩
      rw [List.map_cons, List.filter_cons, if_pos hkeep, List.filter_cons, if_pos (decide_eq_true hc), List.map_cons,
        hrest, List.map_cons, hcp]

/-- The text input loop does what it should if and only if no sequence of its text is a slip. -/
theorem decodes_iff (text : List Byte) (htext : (0 : Byte) ∉ text) :
    Decodes text ↔ ∀ bytes, bytes <:+: text → ¬ Slip bytes := by
  obtain ⟨ts, hts, hall⟩ := textInput_ends htext (Nat.lt_succ_self text.length)
  constructor
  · rintro ⟨ts', hts', -, hscalar⟩ bytes ⟨pre, post, hinfix⟩ hslip
    have hsplit : text = pre ++ (bytes ++ post) := by rw [← hinfix, List.append_assoc]
    rw [hsplit] at hts' htext
    obtain ⟨t, ht, hbytes, hzero, hfffd⟩ := textInput_slip hslip htext hts'
    obtain ⟨c, -, hc⟩ := hscalar t (List.mem_filter.mpr ⟨ht, decide_eq_true ⟨hzero, hfffd⟩⟩)
    exact hslip.ne_utf8 c (hbytes.symm.trans hc)
  · intro hnone
    refine ⟨ts, hts, fun cs hcs => ?_, fun t ht => ?_⟩
    · rw [hcs] at htext
      have hrun := textInput_utf8 htext (Nat.lt_succ_self _)
      rw [← hcs, hts] at hrun
      cases hrun
      exact dispatched_utf8 htext
    · obtain ⟨ht, hcp⟩ := List.mem_filter.mp ht
      simp only [decide_eq_true_eq] at hcp
      obtain ⟨hout, hinfix⟩ := hall t ht
      obtain hzero | hfffd | hc | hslip := hout
      · exact absurd hzero hcp.1
      · exact absurd hfffd hcp.2
      · exact hc
      · exact absurd hslip (hnone _ hinfix)

theorem decodes_iff_euro :
    Decodes [0xE2, 0x82, 0xAC] ↔ ∀ bytes, bytes <:+: [0xE2, 0x82, 0xAC] → ¬ Slip bytes :=
  decodes_iff [0xE2, 0x82, 0xAC] (by decide)

theorem surrogate_dispatched : ¬ ∀ text : List Byte, (0 : Byte) ∉ text → Decodes text := by
  intro h
  obtain ⟨ts, hts, -, hscalar⟩ := h [0xED, 0xA0, 0x80] (by decide)
  have hrun : textInput 4 [0xED, 0xA0, 0x80, 0] = some [⟨[0xED, 0xA0, 0x80], 0xD800#32⟩] := by decide
  obtain rfl := Option.some.inj (hrun.symm.trans hts)
  obtain ⟨c, hc, -⟩ := hscalar ⟨[0xED, 0xA0, 0x80], 0xD800#32⟩ (by decide)
  have hvalid : c.toNat.isValidChar := c.valid
  rw [← hc] at hvalid
  exact absurd hvalid (by decide)

end Loop

end YumiBrowser.Text
