import Mathlib.Algebra.Group.Int.Defs
import Mathlib.Data.List.Basic
import YumiBrowser.Library.Unicode

namespace YumiBrowser.Text

open Unicode

def textMaxCodepoints : ℕ := 1024 * 1024

/-- What an `int32_t` holds of a result. -/
def int32 (z : ℤ) : ℤ := z.bmod (2 ^ 32)

/-- The conversion buffer of the text bindings while it is written: `u16buf`, as long as `u16cap`, how far it
is filled, and the offsets that `cp_to_u16` has so far. -/
structure Conversion where
  u16buf : List (BitVec 16)
  u16len : ℕ
  cpToU16 : List ℕ

/-- `fresh` is what the memory that `realloc` adds holds. -/
def ensureU16 (u16buf : List (BitVec 16)) (fresh : ℕ → BitVec 16) (need : ℤ) : List (BitVec 16) :=
  if need ≤ u16buf.length then u16buf
  else (List.range (int32 (need + 256)).toNat).map fun i => u16buf.getD i (fresh i)

namespace Conversion

variable (s : Conversion)

def write (u : BitVec 16) : Option (List (BitVec 16)) :=
  if s.u16len < s.u16buf.length then some (s.u16buf.set s.u16len u) else none

def push (u : BitVec 16) : Option Conversion :=
  (s.write u).map fun buf => { s with u16buf := buf, u16len := s.u16len + 1 }

def note : Conversion := { s with cpToU16 := s.cpToU16 ++ [s.u16len] }

def encode (c : BitVec 32) : Option Conversion :=
  if c ≤ 0xFFFF#32 then s.push (c.setWidth 16)
  else if c ≤ 0x10FFFF#32 then
    (s.push ((0xD800#32 + (c - 0x10000#32) >>> 10).setWidth 16)).bind fun s =>
      s.push ((0xDC00#32 + ((c - 0x10000#32) &&& 0x3FF#32)).setWidth 16)
  else s.push 0xFFFD#16

/-- One turn of the loop of `utf32_to_u16`. -/
def convert (c : BitVec 32) : Option Conversion := s.note.encode c

def units : List (BitVec 16) := s.u16buf.take s.u16len

end Conversion

def utf32ToU16 (u16buf : List (BitVec 16)) (fresh : ℕ → BitVec 16) (cp : List (BitVec 32)) : Option Conversion := do
  let s ← cp.foldlM Conversion.convert ⟨ensureU16 u16buf fresh (int32 (cp.length * 2 + 1)), 0, []⟩
  let buf ← s.write 0
  return { s with u16buf := buf }

/-- The inner loop of `build_u16_to_cp`. -/
def advance (cpToU16 : List ℕ) (cpCount i ci : ℕ) : ℕ :=
  if ci + 1 < cpCount ∧ cpToU16.getD (ci + 1) 0 ≤ i then advance cpToU16 cpCount i (ci + 1) else ci
termination_by cpCount - ci

/-- The outer loop, with `left` units to go from the `i`-th on. -/
def buildFrom (cpToU16 : List ℕ) (cpCount : ℕ) : (left i ci : ℕ) → List ℕ
  | 0, _, _ => []
  | left + 1, i, ci =>
    advance cpToU16 cpCount i ci :: buildFrom cpToU16 cpCount left (i + 1) (advance cpToU16 cpCount i ci)

def buildU16ToCp (cpToU16 : List ℕ) (cpCount u16len : ℕ) : List ℕ := buildFrom cpToU16 cpCount u16len 0 0

def replaced (c : BitVec 32) : ℕ := if c.toNat.isValidChar then c.toNat else 0xFFFD

def unitsOf (c : BitVec 32) : List (BitVec 16) :=
  if c ≤ 0xFFFF#32 then [c.setWidth 16]
  else if c ≤ 0x10FFFF#32 then
    [(0xD800#32 + (c - 0x10000#32) >>> 10).setWidth 16, (0xDC00#32 + ((c - 0x10000#32) &&& 0x3FF#32)).setWidth 16]
  else [0xFFFD#16]

/-- The units of the code points from the `k`-th on, each with the place of the one that produced it. -/
def origins (k : ℕ) : List (BitVec 32) → List (BitVec 16 × ℕ)
  | [] => []
  | c :: cp => (unitsOf c).map (·, k) ++ origins (k + 1) cp

/-- The text and both maps are what they should be. -/
structure Mapped (cp : List (BitVec 32)) (r : Conversion) : Prop where
  decoded : decodeUtf16 r.units = some (cp.map replaced)
  back : ∀ i < cp.length, ∃ j, r.cpToU16[i]? = some j ∧ (buildU16ToCp r.cpToU16 cp.length r.u16len)[j]? = some i
  origin : r.units.zip (buildU16ToCp r.cpToU16 cp.length r.u16len) = origins 0 cp

section Units

variable {c : BitVec 32} {cp : List (BitVec 32)} {s : Conversion} {u : BitVec 16}

theorem length_unitsOf_pos : 0 < (unitsOf c).length := by
  unfold unitsOf
  split
  · exact Nat.one_pos
  · split
    · exact Nat.two_pos
    · exact Nat.one_pos

theorem length_unitsOf_le : (unitsOf c).length ≤ 2 := by
  unfold unitsOf
  split
  · exact Nat.le_succ 1
  · split
    · exact Nat.le_refl 2
    · exact Nat.le_succ 1

theorem Conversion.push_of_lt (h : s.u16len < s.u16buf.length) : ∃ t, s.push u = some t ∧
    t.u16buf.length = s.u16buf.length ∧ t.u16len = s.u16len + 1 ∧ t.units = s.units ++ [u] ∧
    t.cpToU16 = s.cpToU16 := by
  refine ⟨{ s with u16buf := s.u16buf.set s.u16len u, u16len := s.u16len + 1 }, ?_, List.length_set, rfl, ?_, rfl⟩
  · simp [Conversion.push, Conversion.write, h]
  · simp only [Conversion.units, List.take_add_one, List.take_set_of_le (Nat.le_refl _)]
    simp [h]

theorem Conversion.encode_of_le (h : s.u16len + 2 ≤ s.u16buf.length) : ∃ t, s.encode c = some t ∧
    t.u16buf.length = s.u16buf.length ∧ t.u16len = s.u16len + (unitsOf c).length ∧
    t.units = s.units ++ unitsOf c ∧ t.cpToU16 = s.cpToU16 := by
  unfold Conversion.encode unitsOf
  have hroom : s.u16len < s.u16buf.length := by omega
  split
  · exact Conversion.push_of_lt hroom
  · split
    · obtain ⟨t, ht, hbuf, hlen, hunits, hoffs⟩ :=
        Conversion.push_of_lt (u := (0xD800#32 + (c - 0x10000#32) >>> 10).setWidth 16) hroom
      obtain ⟨t', ht', hbuf', hlen', hunits', hoffs'⟩ :=
        Conversion.push_of_lt (u := (0xDC00#32 + ((c - 0x10000#32) &&& 0x3FF#32)).setWidth 16) (s := t)
          (by rw [hlen, hbuf]; exact h)
      refine ⟨t', by rw [ht]; exact ht', hbuf'.trans hbuf, by rw [hlen', hlen]; rfl, ?_, hoffs'.trans hoffs⟩
      rw [hunits', hunits, List.append_assoc]
      rfl
    · exact Conversion.push_of_lt hroom

theorem Conversion.convert_of_le (h : s.u16len + 2 ≤ s.u16buf.length) : ∃ t, s.convert c = some t ∧
    t.u16buf.length = s.u16buf.length ∧ t.u16len = s.u16len + (unitsOf c).length ∧
    t.units = s.units ++ unitsOf c ∧ t.cpToU16 = s.cpToU16 ++ [s.u16len] :=
  Conversion.encode_of_le (s := s.note) h

def offsets (start : ℕ) : List (BitVec 32) → List ℕ
  | [] => []
  | c :: cp => start :: offsets (start + (unitsOf c).length) cp

theorem Conversion.foldlM_convert (cp : List (BitVec 32)) (h : s.u16len + 2 * cp.length ≤ s.u16buf.length) :
    ∃ t, cp.foldlM Conversion.convert s = some t ∧ t.u16buf.length = s.u16buf.length ∧
      t.u16len = s.u16len + (cp.flatMap unitsOf).length ∧ t.units = s.units ++ cp.flatMap unitsOf ∧
      t.cpToU16 = s.cpToU16 ++ offsets s.u16len cp := by
  induction cp generalizing s with
  | nil => exact ⟨s, rfl, rfl, rfl, (List.append_nil _).symm, (List.append_nil _).symm⟩
  | cons c cp ih =>
    rw [List.length_cons] at h
    obtain ⟨t, ht, hbuf, hlen, hunits, hoffs⟩ := Conversion.convert_of_le (c := c) (s := s) (by omega)
    have htwo := length_unitsOf_le (c := c)
    obtain ⟨t', ht', hbuf', hlen', hunits', hoffs'⟩ := ih (s := t) (by omega)
    refine ⟨t', by rw [List.foldlM_cons, ht]; exact ht', hbuf'.trans hbuf, ?_, ?_, ?_⟩
    · rw [hlen', hlen, List.flatMap_cons, List.length_append, Nat.add_assoc]
    · rw [hunits', hunits, List.flatMap_cons, List.append_assoc]
    · rw [hoffs', hoffs, hlen, offsets, List.append_assoc]
      rfl

end Units

section Indices

variable {c : BitVec 32} {pre cp : List (BitVec 32)} {i k ci left : ℕ}

def before (pre : List (BitVec 32)) : ℕ := (pre.flatMap unitsOf).length

theorem before_append (pre cp : List (BitVec 32)) : before (pre ++ cp) = before pre + before cp := by
  simp only [before, List.flatMap_append, List.length_append]

theorem before_singleton : before [c] = (unitsOf c).length := by
  simp only [before, List.flatMap_cons, List.flatMap_nil, List.append_nil]

theorem length_offsets (start : ℕ) : (offsets start cp).length = cp.length := by
  induction cp generalizing start with
  | nil => rfl
  | cons c cp ih => rw [offsets, List.length_cons, ih, List.length_cons]

theorem getElem?_offsets (start : ℕ) (hk : k < cp.length) :
    (offsets start cp)[k]? = some (start + before (cp.take k)) := by
  induction cp generalizing start k with
  | nil => exact absurd hk (Nat.not_lt_zero k)
  | cons c cp ih =>
    cases k with
    | zero => rfl
    | succ k =>
      rw [offsets, List.getElem?_cons_succ, ih _ (Nat.lt_of_succ_lt_succ hk), List.take_succ_cons,
        show c :: cp.take k = [c] ++ cp.take k from rfl, before_append, before_singleton, Nat.add_assoc]

theorem before_take_mono (h : i ≤ k) : before (cp.take i) ≤ before (cp.take k) := by
  obtain ⟨d, rfl⟩ := Nat.exists_eq_add_of_le h
  rw [List.take_add, before_append]
  exact Nat.le_add_right _ _

theorem advance_eq (hci : ci ≤ pre.length) (hfrom : before pre ≤ i) (hto : i < before pre + (unitsOf c).length) :
    advance (offsets 0 (pre ++ c :: cp)) (pre ++ c :: cp).length i ci = pre.length := by
  fun_induction advance (offsets 0 (pre ++ c :: cp)) (pre ++ c :: cp).length i ci with
  | case1 ci h ih =>
    apply ih
    obtain hlt | heq := Nat.lt_or_eq_of_le hci
    · exact hlt
    · obtain ⟨hroom, hle⟩ := h
      have htake : (pre ++ c :: cp).take (ci + 1) = pre ++ [c] := by
        rw [heq, List.take_append, List.take_of_length_le (Nat.le_succ _), Nat.add_sub_cancel_left]
        rfl
      rw [List.getD_eq_getElem?_getD, getElem?_offsets 0 hroom, htake, before_append, before_singleton] at hle
      simp only [Option.getD_some] at hle
      omega
  | case2 ci h =>
    obtain (hlt : ci + 1 ≤ pre.length) | heq := Nat.lt_or_eq_of_le hci
    · refine absurd ⟨?_, ?_⟩ h
      · rw [List.length_append, List.length_cons]
        omega
      · have hroom : ci + 1 < (pre ++ c :: cp).length := by
          rw [List.length_append, List.length_cons]
          omega
        rw [List.getD_eq_getElem?_getD, getElem?_offsets 0 hroom, List.take_append_of_le_length hlt]
        have hle : before (pre.take (ci + 1)) ≤ before (pre.take pre.length) := before_take_mono hlt
        rw [List.take_length] at hle
        simp only [Option.getD_some]
        omega
    · exact heq

theorem buildFrom_add (cpToU16 : List ℕ) (cpCount m : ℕ)
    (hm : ∀ j < m, ∀ ci ≤ k, advance cpToU16 cpCount (i + j) ci = k) (hci : ci ≤ k) :
    buildFrom cpToU16 cpCount (m + left) i ci =
      List.replicate m k ++ buildFrom cpToU16 cpCount left (i + m) (if m = 0 then ci else k) := by
  induction m generalizing i ci with
  | zero => rw [Nat.zero_add]; rfl
  | succ m ih =>
    have hfirst : advance cpToU16 cpCount i ci = k := hm 0 (Nat.succ_pos m) ci hci
    rw [Nat.add_right_comm, buildFrom, hfirst, ih (fun j hj ci hci => ?_) (Nat.le_refl k), List.replicate_succ]
    · rw [if_neg (Nat.succ_ne_zero m), ite_self, Nat.add_right_comm, Nat.add_assoc]
      rfl
    · rw [Nat.add_assoc, Nat.add_comm 1 j]
      exact hm (j + 1) (Nat.succ_lt_succ hj) ci hci

theorem buildFrom_eq (pre : List (BitVec 32)) (hci : ci ≤ pre.length) :
    buildFrom (offsets 0 (pre ++ cp)) (pre ++ cp).length (before cp) (before pre) ci =
      (origins pre.length cp).map Prod.snd := by
  induction cp generalizing pre ci with
  | nil => rfl
  | cons c cp ih =>
    rw [show c :: cp = [c] ++ cp from rfl, before_append [c], before_singleton,
      buildFrom_add _ _ _ (k := pre.length) (fun j hj ci hci => ?_) hci, if_neg (Nat.ne_of_gt length_unitsOf_pos)]
    · have hrest := @ih pre.length (pre ++ [c]) (by simp)
      rw [before_append, before_singleton, List.append_assoc] at hrest
      rw [hrest]
      simp [origins, List.map_map, Function.comp_def]
    · exact advance_eq hci (Nat.le_add_right _ _) (by omega)

theorem map_fst_origins : (origins k cp).map Prod.fst = cp.flatMap unitsOf := by
  induction cp generalizing k with
  | nil => rfl
  | cons c cp ih => simp [origins, ih, List.map_map, Function.comp_def]

theorem buildU16ToCp_eq (cp : List (BitVec 32)) :
    buildU16ToCp (offsets 0 cp) cp.length (cp.flatMap unitsOf).length = (origins 0 cp).map Prod.snd :=
  buildFrom_eq [] (Nat.le_refl 0)

theorem getElem?_origins (hk : k < cp.length) :
    ((origins i cp).map Prod.snd)[before (cp.take k)]? = some (i + k) := by
  induction cp generalizing i k with
  | nil => exact absurd hk (Nat.not_lt_zero k)
  | cons c cp ih =>
    rw [origins, List.map_append, List.map_map]
    cases k with
    | zero =>
      rw [List.take_zero, show before [] = 0 from rfl, List.getElem?_append_left, List.getElem?_map,
        List.getElem?_eq_getElem (length_unitsOf_pos (c := c))]
      · rfl
      · rw [List.length_map]
        exact length_unitsOf_pos
    | succ k =>
      rw [List.take_succ_cons, show c :: cp.take k = [c] ++ cp.take k from rfl, before_append, before_singleton,
        List.getElem?_append_right, List.length_map, Nat.add_sub_cancel_left, ih (Nat.lt_of_succ_lt_succ hk),
        Nat.add_assoc, Nat.add_comm 1 k]
      rw [List.length_map]
      exact Nat.le_add_right _ _

end Indices

section Decoding

variable {c : BitVec 32} {cp : List (BitVec 32)} {us : List (BitVec 16)}

theorem toNat_high (hlt : 0xFFFF < c.toNat) (hle : c.toNat ≤ 0x10FFFF) :
    ((0xD800#32 + (c - 0x10000#32) >>> 10).setWidth 16).toNat = 0xD800 + (c.toNat - 0x10000) / 0x400 := by
  simp only [BitVec.toNat_setWidth, BitVec.toNat_add, BitVec.toNat_ushiftRight, BitVec.toNat_sub, BitVec.toNat_ofNat,
    Nat.shiftRight_eq_div_pow]
  omega

theorem toNat_low (hlt : 0xFFFF < c.toNat) (hle : c.toNat ≤ 0x10FFFF) :
    ((0xDC00#32 + ((c - 0x10000#32) &&& 0x3FF#32)).setWidth 16).toNat = 0xDC00 + (c.toNat - 0x10000) % 0x400 := by
  have hmask : ((c - 0x10000#32) &&& 0x3FF#32).toNat = (c - 0x10000#32).toNat % 2 ^ 10 :=
    Nat.and_two_pow_sub_one_eq_mod _ 10
  simp only [BitVec.toNat_setWidth, BitVec.toNat_add, hmask, BitVec.toNat_sub, BitVec.toNat_ofNat]
  omega

theorem decodeUtf16_unitsOf (hc : ¬ IsSurrogate c.toNat) :
    decodeUtf16 (unitsOf c ++ us) = (decodeUtf16 us).map (replaced c :: ·) := by
  unfold unitsOf replaced
  unfold IsSurrogate at hc
  split
  · rename_i hle
    have hle : c.toNat ≤ 0xFFFF := BitVec.le_def.mp hle
    have hsame : (c.setWidth 16).toNat = c.toNat := by
      rw [BitVec.toNat_setWidth]
      omega
    rw [if_pos (by unfold Nat.isValidChar; omega), List.singleton_append, decodeUtf16_basic (by rwa [hsame]), hsame]
  · rename_i hlt
    have hlt : 0xFFFF < c.toNat := BitVec.lt_def.mp (BitVec.not_le.mp hlt)
    split
    · rename_i hle
      have hle : c.toNat ≤ 0x10FFFF := BitVec.le_def.mp hle
      have hhigh := toNat_high hlt hle
      have hlow := toNat_low hlt hle
      generalize (0xD800#32 + (c - 0x10000#32) >>> 10).setWidth 16 = u at hhigh ⊢
      generalize (0xDC00#32 + ((c - 0x10000#32) &&& 0x3FF#32)).setWidth 16 = v at hlow ⊢
      have hu : IsSurrogate u.toNat := ⟨by omega, by omega⟩
      have hpair : pair u.toNat v.toNat = c.toNat := by
        unfold pair
        omega
      rw [if_pos (by unfold Nat.isValidChar; omega), List.cons_append, List.singleton_append,
        decodeUtf16_pair hu (by omega) (by omega) (by omega), hpair]
    · rename_i hbig
      have hbig : 0x10FFFF < c.toNat := BitVec.lt_def.mp (BitVec.not_le.mp hbig)
      rw [if_neg (by unfold Nat.isValidChar; omega), List.singleton_append, decodeUtf16_basic (by decide)]
      rfl

theorem decodeUtf16_flatMap_iff :
    decodeUtf16 (cp.flatMap unitsOf) = some (cp.map replaced) ↔ ∀ c ∈ cp, ¬ IsSurrogate c.toNat := by
  induction cp with
  | nil => exact iff_of_true rfl fun _ hc => absurd hc List.not_mem_nil
  | cons c cp ih =>
    rw [List.flatMap_cons, List.map_cons, List.forall_mem_cons]
    by_cases hc : IsSurrogate c.toNat
    · refine iff_of_false (fun hdec => ?_) fun hall => hall.1 hc
      unfold IsSurrogate at hc
      have hle : c ≤ 0xFFFF#32 := BitVec.le_def.mpr (by simp; omega)
      have hsame : (c.setWidth 16).toNat = c.toNat := by
        rw [BitVec.toNat_setWidth]
        omega
      rw [unitsOf, if_pos hle] at hdec
      have hbig := supplementary_of_surrogate (by rwa [hsame]) hdec
      rw [replaced, if_neg (by unfold Nat.isValidChar; omega)] at hbig
      omega
    · rw [decodeUtf16_unitsOf hc, ← ih, Option.map_eq_some_iff]
      simp [hc]

end Decoding

section Text

variable {cp : List (BitVec 32)} (u16buf : List (BitVec 16)) (fresh : ℕ → BitVec 16)

theorem int32_eq {z : ℤ} (hlo : 0 ≤ z) (hhi : z < 2 ^ 31) : int32 z = z :=
  Int.bmod_eq_of_le_mul_two (by omega) (by omega)

theorem le_length_ensureU16 (h : cp.length ≤ textMaxCodepoints) :
    2 * cp.length + 1 ≤ (ensureU16 u16buf fresh (int32 (cp.length * 2 + 1))).length := by
  unfold textMaxCodepoints at h
  rw [int32_eq (by omega) (by omega)]
  unfold ensureU16
  split
  · omega
  · rw [int32_eq (by omega) (by omega), List.length_map, List.length_range]
    omega

theorem utf32ToU16_writes (cp : List (BitVec 32)) (h : cp.length ≤ textMaxCodepoints) :
    ∃ r, utf32ToU16 u16buf fresh cp = some r ∧
      r.units = cp.flatMap unitsOf ∧ r.u16len = (cp.flatMap unitsOf).length ∧ r.cpToU16 = offsets 0 cp := by
  have hcap := le_length_ensureU16 u16buf fresh h
  obtain ⟨t, ht, hbuf, hlen, hunits, hoffs⟩ := Conversion.foldlM_convert cp
    (s := ⟨ensureU16 u16buf fresh (int32 (cp.length * 2 + 1)), 0, []⟩) (by simp only; omega)
  have hwidth : (cp.flatMap unitsOf).length ≤ 2 * cp.length := by
    clear hcap ht hbuf hlen hunits hoffs h
    induction cp with
    | nil => exact Nat.le_refl 0
    | cons c cp ih =>
      rw [List.flatMap_cons, List.length_append, List.length_cons]
      have htwo := length_unitsOf_le (c := c)
      omega
  simp only [Nat.zero_add] at hlen hbuf
  have hroom : t.u16len < t.u16buf.length := by omega
  refine ⟨{ t with u16buf := t.u16buf.set t.u16len 0 }, ?_, ?_, hlen, hoffs⟩
  · simp [utf32ToU16, ht, Conversion.write, hroom]
  · rw [Conversion.units, List.take_set_of_le (Nat.le_refl _)]
    exact hunits

/-- The text is converted inside its buffer and both maps are right whatever the code points are; it decodes
to what it should if and only if there is no surrogate among them. -/
theorem mapped_iff (h : cp.length ≤ textMaxCodepoints) :
    (∃ r, utf32ToU16 u16buf fresh cp = some r ∧ Mapped cp r) ↔ ∀ c ∈ cp, ¬ IsSurrogate c.toNat := by
  obtain ⟨r, hr, hunits, hlen, hoffs⟩ := utf32ToU16_writes u16buf fresh cp h
  have hback := buildU16ToCp_eq cp
  rw [← decodeUtf16_flatMap_iff, ← hunits]
  constructor
  · rintro ⟨r', hr', hmapped⟩
    rw [hr] at hr'
    cases hr'
    exact hmapped.decoded
  · intro hdec
    refine ⟨r, hr, hdec, fun i hi => ⟨before (cp.take i), ?_, ?_⟩, ?_⟩
    · rw [hoffs, getElem?_offsets 0 hi, Nat.zero_add]
    · rw [hoffs, hlen, hback, getElem?_origins hi, Nat.zero_add]
    · rw [hunits, hoffs, hlen, hback, ← List.zip_of_prod (map_fst_origins (k := 0)) rfl]

theorem mapped_iff_smiley :
    ∃ r, utf32ToU16 [] (fun _ => 0) [0x41#32, 0x1F600#32, 0x110000#32] = some r ∧
      Mapped [0x41#32, 0x1F600#32, 0x110000#32] r :=
  (mapped_iff [] (fun _ => 0) (by decide)).mpr (by simp [IsSurrogate])

theorem surrogate_kept : ¬ ∀ cp : List (BitVec 32), cp.length ≤ textMaxCodepoints →
    ∃ r, utf32ToU16 [] (fun _ => 0) cp = some r ∧ Mapped cp r := by
  intro h
  obtain ⟨r, hr, hmapped⟩ := h [0xD800#32] (by decide)
  obtain ⟨r', hr', hunits, -, -⟩ := utf32ToU16_writes [] (fun _ => 0) [0xD800#32] (by decide)
  rw [hr] at hr'
  cases hr'
  have hdec := hmapped.decoded
  rw [hunits] at hdec
  exact absurd hdec (by decide)

end Text

end YumiBrowser.Text
