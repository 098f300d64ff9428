import YumiBrowser.Registrar.WireBuffer
import Mathlib.Data.List.Forall2

namespace YumiBrowser.WireBuffer

open Wire Blocks

/-- What is read, and where it goes. -/
inductive Request
  | u8
  | u16
  | u32
  | i64
  | str (maxlen : ℕ) (out : Block Byte maxlen)
  | bytes (n : ℕ) (out : Block Byte n) (bounded : n < 2 ^ 63)

inductive Value
  | u8 (v : BitVec 8)
  | u16 (v : BitVec 16)
  | u32 (v : BitVec 32)
  | i64 (v : BitVec 64)
  | str (s : List Byte)
  | bytes (data : List Byte)
  deriving DecidableEq

/-- `gr_reader_t` -/
structure GrReader where
  data : List Byte
  pos : ℕ
  deriving DecidableEq

def GrReader.rest (r : GrReader) : List Byte := r.data.drop r.pos

abbrev Answer (α : Type) : Type := Option α × GrReader

def grReadBytes (r : GrReader) (out : List Byte) (n : ℕ) : Checked (Answer (List Byte)) :=
  if r.data.length < (r.pos + n) % 2 ^ 64 then .ok (none, r)
  else do
    let src ← readMany r.data r.pos n
    let out ← memcpy out 0 src
    .ok (some out, { r with pos := (r.pos + n) % 2 ^ 64 })

def grReadNumber (n w : ℕ) (r : GrReader) : Checked (Answer (BitVec w)) := do
  let x ← grReadBytes r (List.replicate n 0) n
  .ok (x.1.map fun le => BitVec.ofNat w (ofLe le), x.2)

def grReadU8 (r : GrReader) : Checked (Answer (BitVec 8)) := grReadNumber 1 8 r

def grReadU16 (r : GrReader) : Checked (Answer (BitVec 16)) := grReadNumber 2 16 r

def grReadU32 (r : GrReader) : Checked (Answer (BitVec 32)) := grReadNumber 4 32 r

def grReadI64 (r : GrReader) : Checked (Answer (BitVec 64)) := grReadNumber 8 64 r

/-- `gr_read_str` behind the length -/
def grReadText (r : GrReader) (out : List Byte) (slen : ℕ) : Checked (Answer (List Byte)) := do
  let x ← grReadBytes r out slen
  x.1.elim (.ok (none, x.2)) fun out => do
    let out ← writeAt out slen 0
    .ok (some out, x.2)

def grReadStr (r : GrReader) (out : List Byte) (maxlen : ℕ) : Checked (Answer (List Byte)) := do
  let x ← grReadU32 r
  x.1.elim (.ok (none, x.2)) fun slen =>
    if maxlen ≤ slen.toNat then .ok (none, x.2) else grReadText x.2 out slen.toNat

def given {α β : Type} (f : α → β) (r : Checked (Answer α)) : Checked (Answer β) := do
  let x ← r
  .ok (x.1.map f, x.2)

def readItem (r : GrReader) : Request → Checked (Answer Value)
  | .u8 => given .u8 (grReadU8 r)
  | .u16 => given .u16 (grReadU16 r)
  | .u32 => given .u32 (grReadU32 r)
  | .i64 => given .i64 (grReadI64 r)
  | .str maxlen out => given (fun s => .str (untilZero s)) (grReadStr r out.cells maxlen)
  | .bytes n out _ => given .bytes (grReadBytes r out.cells n)

def readAll : GrReader → List Request → Checked (List (Option Value) × GrReader)
  | r, [] => .ok ([], r)
  | r, q :: qs => do
    let x ← readItem r q
    let y ← readAll x.2 qs
    .ok (x.1 :: y.1, y.2)

def Item.value : Item → Value
  | u8 v => .u8 v
  | u16 v => .u16 v
  | u32 v => .u32 v
  | i64 v => .i64 v
  | str _ s => .str s.text.val
  | bytes data => .bytes data

/-- The read that is the inverse of a write. -/
inductive Matches : Item → Request → Prop
  | u8 : Matches (.u8 v) .u8
  | u16 : Matches (.u16 v) .u16
  | u32 : Matches (.u32 v) .u32
  | i64 : Matches (.i64 v) .i64
  | str : Matches (.str maxlen s) (.str maxlen out)
  | bytes : Matches (.bytes data) (.bytes data.length out h)

def Request.parse : Request → Reader Value
  | u8 => Value.u8 <$> readU8
  | u16 => Value.u16 <$> readU16
  | u32 => Value.u32 <$> readU32
  | i64 => Value.i64 <$> readI64
  | str maxlen _ => (fun s => Value.str s.val) <$> readStr maxlen
  | bytes n _ _ => (fun b => Value.bytes b.val) <$> readBytes n

/-- The position is in the data. -/
structure GrReader.Valid (r : GrReader) : Prop where
  inside : r.pos ≤ r.data.length
  bounded : r.data.length < 2 ^ 63

section Reads

variable {r : GrReader} {n : ℕ} {out : List Byte}

/-- The reader behind `n` bytes. -/
def GrReader.skip (r : GrReader) (n : ℕ) : GrReader := { r with pos := r.pos + n }

theorem GrReader.rest_skip (r : GrReader) (n : ℕ) : (r.skip n).rest = r.rest.drop n := (List.drop_drop ..).symm

theorem GrReader.length_rest (r : GrReader) : r.rest.length = r.data.length - r.pos := List.length_drop ..

theorem GrReader.Valid.skip (h : r.Valid) (hn : n ≤ r.rest.length) : (r.skip n).Valid where
  inside := by
    have hinside := h.inside
    rw [r.length_rest] at hn
    change r.pos + n ≤ r.data.length
    omega
  bounded := h.bounded

theorem GrReader.Valid.end_eq (h : r.Valid) (hn : n < 2 ^ 63) : (r.pos + n) % 2 ^ 64 = r.pos + n := by
  have hinside := h.inside
  have hbounded := h.bounded
  exact Nat.mod_eq_of_lt (by omega)

theorem grReadBytes_past (h : r.Valid) (hn : n < 2 ^ 63) (hpast : r.rest.length < n) :
    grReadBytes r out n = .ok (none, r) := by
  have hinside := h.inside
  rw [r.length_rest] at hpast
  rw [grReadBytes, h.end_eq hn]
  exact if_pos (by omega)

theorem grReadBytes_within (h : r.Valid) (hn : n < 2 ^ 63) (hout : n ≤ out.length) (hin : n ≤ r.rest.length) :
    grReadBytes r out n = .ok (some (splice out 0 (r.rest.take n)), r.skip n) := by
  have hinside := h.inside
  have hlength : (r.rest.take n).length = n := List.length_take_of_le hin
  have hroom : 0 + (r.rest.take n).length ≤ out.length := by rwa [hlength, Nat.zero_add]
  rw [r.length_rest] at hin
  rw [grReadBytes, h.end_eq hn, if_neg (by omega), Blocks.readMany, if_pos (by omega)]
  change (do
    let out ← memcpy out 0 (r.rest.take n)
    .ok (some out, r.skip n) : Checked (Answer (List Byte))) = _
  rw [memcpy, if_pos hroom]
  rfl

theorem grReadNumber_past (h : r.Valid) (hn : n < 2 ^ 63) (hpast : r.rest.length < n) :
    grReadNumber n w r = .ok (none, r) := by
  rw [grReadNumber, grReadBytes_past h hn hpast]
  rfl

theorem grReadNumber_within (h : r.Valid) (hn : n < 2 ^ 63) (hin : n ≤ r.rest.length) :
    grReadNumber n w r = .ok (some (BitVec.ofNat w (ofLe (r.rest.take n))), r.skip n) := by
  have hlength : (r.rest.take n).length = n := List.length_take_of_le hin
  rw [grReadNumber, grReadBytes_within h hn (List.length_replicate).ge hin,
    splice_whole (by rw [hlength, List.length_replicate])]
  rfl

/-- What a read that has to give `expected` gives, and where it leaves the reader; one that fails stays where it is, or
`behind` it. -/
structure Gives {α : Type} (expected : Option (α × List Byte)) (behind : ℕ) (r : GrReader) (x : Answer α) : Prop where
  data : x.2.data = r.data
  valid : x.2.Valid
  found : ∀ v rest, expected = some (v, rest) → x.1 = some v ∧ x.2.rest = rest
  failed : expected = none → x.1 = none ∧ (x.2 = r ∨ x.2 = r.skip behind)

section Gives

variable {α β : Type} {expected : Option (α × List Byte)} {behind : ℕ} {r' : GrReader} {v : α} {x : Answer α}

theorem Gives.of_found (h : expected = some (v, r'.rest)) (hdata : r'.data = r.data) (hvalid : r'.Valid) :
    Gives expected behind r (some v, r') where
  data := hdata
  valid := hvalid
  found v' rest hv := by
    obtain ⟨rfl, rfl⟩ := Prod.mk.inj (Option.some.inj (h.symm.trans hv))
    exact ⟨rfl, rfl⟩
  failed hnone := absurd (h.symm.trans hnone) (Option.some_ne_none _)

theorem Gives.of_failed (h : expected = none) (hvalid : r'.Valid) (hwhere : r' = r ∨ r' = r.skip behind) :
    Gives expected behind r (none, r') where
  data := by
    obtain rfl | rfl := hwhere
    · rfl
    · rfl
  valid := hvalid
  found v rest hv := absurd (hv.symm.trans h) (Option.some_ne_none _)
  failed _ := ⟨rfl, hwhere⟩

theorem Gives.map (h : Gives expected behind r x) (f : α → β) :
    Gives (expected.map (Prod.map f id)) behind r (x.1.map f, x.2) where
  data := h.data
  valid := h.valid
  found v rest hv := by
    obtain ⟨⟨a, rest'⟩, ha, hpair⟩ := Option.map_eq_some_iff.mp hv
    obtain ⟨rfl, rfl⟩ := Prod.mk.inj hpair
    obtain ⟨hx, hrest⟩ := h.found a rest' ha
    exact ⟨by rw [hx]; rfl, hrest⟩
  failed hnone := by
    obtain ⟨hx, hwhere⟩ := h.failed (Option.map_eq_none_iff.mp hnone)
    exact ⟨by rw [hx]; rfl, hwhere⟩

end Gives

theorem gives_grReadNumber (h : r.Valid) (hn : n < 2 ^ 63) :
    Safe (grReadNumber n w r) (Gives ((readLe n w).run r.rest) 0 r) := by
  obtain hpast | hin := Nat.lt_or_ge r.rest.length n
  · rw [grReadNumber_past h hn hpast]
    exact .ok (.of_failed (run_readLe_of_lt hpast) h (.inl rfl))
  · rw [grReadNumber_within h hn hin]
    refine .ok (.of_found ?_ rfl (h.skip hin))
    rw [r.rest_skip]
    exact run_readLe_of_le hin

theorem gives_grReadBytes (h : r.Valid) (hn : n < 2 ^ 63) (hout : out.length = n) :
    Safe (grReadBytes r out n) (Gives (((readBytes n).run r.rest).map (Prod.map Bytes.val id)) 0 r) := by
  obtain hpast | hin := Nat.lt_or_ge r.rest.length n
  · rw [grReadBytes_past h hn hpast]
    refine .ok (.of_failed ?_ h (.inl rfl))
    rw [run_readBytes_of_lt hpast]
    rfl
  · have hlength : (r.rest.take n).length = n := List.length_take_of_le hin
    rw [grReadBytes_within h hn hout.ge hin, splice_whole (hlength.trans hout.symm)]
    refine .ok (.of_found ?_ rfl (h.skip hin))
    rw [r.rest_skip, run_readBytes_of_le hin]
    rfl

section Strings

variable {s : List Byte} {maxlen : ℕ}

def prefixed (s : List Byte) : ℕ := (BitVec.ofNat 32 (ofLe (s.take 4))).toNat

theorem run_readStr_short (h : s.length < 4) : (readStr maxlen).run s = none := by
  rw [readStr, StateT.run_bind, run_readLe_of_lt h]
  rfl

theorem run_readStr_long (h : 4 ≤ s.length) (hlong : maxlen ≤ prefixed s) : (readStr maxlen).run s = none := by
  rw [prefixed] at hlong
  rw [readStr, run_bind_of _ (run_readLe_of_le h), dif_neg (Nat.not_lt.mpr hlong)]
  rfl

theorem run_readStr_cut (h : 4 ≤ s.length) (hcut : (s.drop 4).length < prefixed s) : (readStr maxlen).run s = none := by
  rw [prefixed] at hcut
  rw [readStr, run_bind_of _ (run_readLe_of_le h)]
  split
  · rw [StateT.run_bind, run_readBytes_of_lt hcut]
    rfl
  · rfl

theorem run_readStr_found (h : 4 ≤ s.length) (hfits : prefixed s < maxlen) (hin : prefixed s ≤ (s.drop 4).length) :
    ((readStr maxlen).run s).map (Prod.map CString.val id) =
      some (untilZero ((s.drop 4).take (prefixed s)), (s.drop 4).drop (prefixed s)) := by
  rw [prefixed] at hfits hin
  rw [readStr, run_bind_of _ (run_readLe_of_le h), dif_pos hfits, run_bind_of _ (run_readBytes_of_le hin)]
  rfl

theorem untilZero_splice {out src : List Byte} (h : src.length < out.length) :
    untilZero ((splice out 0 src).set src.length 0) = untilZero src := by
  have htail : (out.drop src.length).set 0 0 = 0 :: out.drop (src.length + 1) := by
    rw [List.drop_eq_getElem_cons h]
    rfl
  rw [splice, List.take_zero, List.nil_append, Nat.zero_add, List.set_append_right _ _ (Nat.le_refl _), Nat.sub_self,
    htail, untilZero_append_zero]

end Strings

theorem unterminated_refused {memory : Allocator} {limit maxlen : ℕ} {b : GrBuf} {cells : List Byte}
    (hcells : cells.length = maxlen) (hzero : ∀ c ∈ cells, c ≠ 0) (hshort : maxlen < 2 ^ 32) (hb : b.Valid)
    (hneed : b.len + (4 + maxlen) ≤ limit) (hlimit : limit ≤ 2 ^ 63) :
    Writes memory limit (writeU32 (BitVec.ofNat 32 maxlen) ++ cells) b (grBufWriteStr memory b cells maxlen) ∧
      ∀ s, (readStr maxlen).run (writeU32 (BitVec.ofNat 32 maxlen) ++ (cells ++ s)) = none := by
  have htext : untilZero cells = cells := untilZero_eq hzero
  have hwrites : Writes memory limit _ b _ := writes_grBufWriteStr hcells hb (by rwa [htext, hcells]) hlimit
  rw [htext, hcells] at hwrites
  refine ⟨hwrites, fun s => ?_⟩
  have hnumber : (writeU32 (BitVec.ofNat 32 maxlen)).length = 4 := length_toLe _ _
  have hprefixed : prefixed (writeU32 (BitVec.ofNat 32 maxlen) ++ (cells ++ s)) = maxlen := by
    rw [prefixed, List.take_left' hnumber, ofLe_toLe, BitVec.toNat_ofNat, BitVec.toNat_ofNat]
    omega
  exact run_readStr_long (by rw [List.length_append, hnumber]; omega) hprefixed.ge

theorem grReadText_past {slen : ℕ} (h : r.Valid) (hslen : slen < 2 ^ 63) (hpast : r.rest.length < slen) :
    grReadText r out slen = .ok (none, r) := by
  rw [grReadText, grReadBytes_past h hslen hpast]
  rfl

theorem grReadText_within {slen : ℕ} (h : r.Valid) (hslen : slen < 2 ^ 63) (hout : slen < out.length)
    (hin : slen ≤ r.rest.length) :
    grReadText r out slen = .ok (some ((splice out 0 (r.rest.take slen)).set slen 0), r.skip slen) := by
  have hlength : (r.rest.take slen).length = slen := List.length_take_of_le hin
  have hroom : slen < (splice out 0 (r.rest.take slen)).length := by
    rwa [length_splice (by rw [hlength, Nat.zero_add]; exact hout.le)]
  rw [grReadText, grReadBytes_within h hslen hout.le hin]
  change (do
    let out ← writeAt (splice out 0 (r.rest.take slen)) slen 0
    .ok (some out, r.skip slen) : Checked (Answer (List Byte))) = _
  rw [writeAt, if_pos hroom]
  rfl

theorem grReadStr_eq (h : r.Valid) (hnumbered : 4 ≤ r.rest.length) (out : List Byte) (maxlen : ℕ) :
    grReadStr r out maxlen = if maxlen ≤ prefixed r.rest then .ok (none, r.skip 4)
      else grReadText (r.skip 4) out (prefixed r.rest) := by
  rw [grReadStr, grReadU32, grReadNumber_within h (by decide) hnumbered]
  rfl

theorem gives_grReadStr {maxlen : ℕ} (h : r.Valid) (hout : out.length = maxlen) :
    Safe (given untilZero (grReadStr r out maxlen))
      (Gives (((readStr maxlen).run r.rest).map (Prod.map CString.val id)) 4 r) := by
  obtain hshort | hnumbered := Nat.lt_or_ge r.rest.length 4
  · rw [given, grReadStr, grReadU32, grReadNumber_past h (by decide) hshort]
    exact .ok (.of_failed (by rw [run_readStr_short hshort]; rfl) h (.inl rfl))
  have hvalid : (r.skip 4).Valid := h.skip hnumbered
  have hsmall : prefixed r.rest < 2 ^ 63 := (BitVec.isLt _).trans (by decide)
  have hrest : (r.skip 4).rest = r.rest.drop 4 := r.rest_skip 4
  rw [given, grReadStr_eq h hnumbered]
  obtain hfits | hlong := Nat.lt_or_ge (prefixed r.rest) maxlen
  · rw [if_neg (Nat.not_le.mpr hfits)]
    obtain hcut | hin := Nat.lt_or_ge (r.rest.drop 4).length (prefixed r.rest)
    · rw [grReadText_past hvalid hsmall (by rwa [hrest])]
      exact .ok (.of_failed (by rw [run_readStr_cut hnumbered hcut]; rfl) hvalid (.inr rfl))
    · have hlength : ((r.rest.drop 4).take (prefixed r.rest)).length = prefixed r.rest := List.length_take_of_le hin
      have hin' : prefixed r.rest ≤ (r.skip 4).rest.length := by rwa [hrest]
      rw [grReadText_within hvalid hsmall (hout ▸ hfits) hin']
      have hread : untilZero ((splice out 0 ((r.rest.drop 4).take (prefixed r.rest))).set (prefixed r.rest) 0) =
          untilZero ((r.rest.drop 4).take (prefixed r.rest)) := by
        have hcopy := untilZero_splice (show ((r.rest.drop 4).take (prefixed r.rest)).length < out.length by
          rw [hlength, hout]; exact hfits)
        rwa [hlength] at hcopy
      rw [hrest]
      refine .ok (.of_found ?_ rfl (hvalid.skip hin'))
      rw [run_readStr_found hnumbered hfits hin, hread]
      exact congrArg some (Prod.ext rfl (by rw [GrReader.rest_skip, hrest]))
  · rw [if_pos hlong]
    exact .ok (.of_failed (by rw [run_readStr_long hnumbered hlong]; rfl) hvalid (.inr rfl))

theorem gives_given {α β : Type} {read : Checked (Answer α)} {expected : Option (α × List Byte)} {behind : ℕ}
    (f : α → β) (h : Safe read (Gives expected behind r)) :
    Safe (given f read) (Gives (expected.map (Prod.map f id)) behind r) :=
  h.bind fun _ hx => .ok (hx.map f)

theorem given_given {α β γ : Type} (f : α → β) (g : β → γ) (read : Checked (Answer α)) :
    given g (given f read) = given (fun a => g (f a)) read := by
  cases read with
  | error e => rfl
  | ok x => exact congrArg (fun o => Except.ok (o, x.2)) (Option.map_map ..)

def Request.behind : Request → ℕ
  | str _ _ => 4
  | u8 | u16 | u32 | i64 | bytes _ _ _ => 0

theorem gives_number {w : ℕ} (h : r.Valid) (hn : n < 2 ^ 63) (f : BitVec w → Value) :
    Safe (given f (grReadNumber n w r)) (Gives ((f <$> readLe n w).run r.rest) 0 r) := by
  rw [run_map]
  exact gives_given f (gives_grReadNumber h hn)

theorem gives_readItem (h : r.Valid) (q : Request) :
    Safe (readItem r q) (Gives (q.parse.run r.rest) q.behind r) := by
  cases q with
  | u8 => exact gives_number h (by decide) Value.u8
  | u16 => exact gives_number h (by decide) Value.u16
  | u32 => exact gives_number h (by decide) Value.u32
  | i64 => exact gives_number h (by decide) Value.i64
  | str maxlen out =>
    have hread := gives_given Value.str (gives_grReadStr h out.size)
    rw [given_given, Option.map_map] at hread
    rw [Request.parse, run_map]
    exact hread
  | bytes n out hn =>
    have hread := gives_given Value.bytes (gives_grReadBytes h hn out.size)
    rw [Option.map_map] at hread
    rw [Request.parse, run_map]
    exact hread

theorem parse_number {w : ℕ} (f : BitVec w → Value) (v : BitVec w) (s : List Byte) (hw : 2 ^ w ≤ 256 ^ n) :
    (f <$> readLe n w).run (toLe n v.toNat ++ s) = some (f v, s) := by
  rw [run_map, readLe_append v s hw]
  rfl

theorem parse_encoding {item : Item} {q : Request} (h : Matches item q) (s : List Byte) :
    q.parse.run (item.encoding ++ s) = some (item.value, s) := by
  cases h with
  | u8 => exact parse_number Value.u8 _ s (by decide)
  | u16 => exact parse_number Value.u16 _ s (by decide)
  | u32 => exact parse_number Value.u32 _ s (by decide)
  | i64 => exact parse_number Value.i64 _ s (by decide)
  | @str maxlen field out =>
    rw [Request.parse, run_map, Item.encoding, readStr_of_short _ _ field.short]
    rfl
  | @bytes data out hn =>
    have hread := readBytes_append ⟨data, rfl⟩ s
    rw [Request.parse, run_map, Item.encoding, hread]
    rfl

def Request.Past : Request → List Byte → Prop
  | u8, s => s.length < 1
  | u16, s => s.length < 2
  | u32, s => s.length < 4
  | i64, s => s.length < 8
  | str _ _, s => s.length < 4 ∨ (s.drop 4).length < prefixed s
  | bytes n _ _, s => s.length < n

theorem parse_past {q : Request} {s : List Byte} (h : q.Past s) : q.parse.run s = none := by
  cases q with
  | u8 | u16 | u32 | i64 =>
    rw [Request.parse, run_map, run_readLe_of_lt h]
    rfl
  | str maxlen out =>
    have hnone : (readStr maxlen).run s = none := by
      obtain hshort | hnumbered := Nat.lt_or_ge s.length 4
      · exact run_readStr_short hshort
      · exact run_readStr_cut hnumbered (h.resolve_left (Nat.not_lt.mpr hnumbered))
    rw [Request.parse, run_map, hnone]
    rfl
  | bytes n out hn =>
    rw [Request.parse, run_map, run_readBytes_of_lt h]
    rfl

theorem safe_readAll {items : List Item} {qs : List Request} (h : r.Valid) (hmatch : List.Forall₂ Matches items qs)
    (s : List Byte) (hrest : r.rest = items.flatMap Item.encoding ++ s) :
    Safe (readAll r qs) fun x => x.1 = items.map (fun item => some item.value) ∧ x.2.Valid ∧ x.2.data = r.data ∧
      x.2.rest = s := by
  induction hmatch generalizing r with
  | nil => exact .ok ⟨rfl, h, rfl, hrest⟩
  | @cons item q items qs hitem hitems ih =>
    rw [List.flatMap_cons, List.append_assoc] at hrest
    have hgives := gives_readItem h q
    rw [hrest, parse_encoding hitem] at hgives
    refine hgives.bind fun x hx => ?_
    obtain ⟨hvalue, hleft⟩ := hx.found _ _ rfl
    refine (ih hx.valid hleft).bind fun y ⟨hvalues, hvalid, hdata, hend⟩ => .ok ⟨?_, hvalid, ?_, hend⟩
    · rw [hvalue, hvalues, List.map_cons]
    · exact hdata.trans hx.data

end Reads

/-- What a buffer is after a sequence of writes: if no memory was refused it has all the encodings, and they are read
back. -/
structure Serialized (memory : Allocator) (items : List Item) (b : GrBuf) : Prop where
  inside : b.len ≤ b.cap
  part : b.written <+: items.flatMap Item.encoding
  whole : b.error = false → b.written = items.flatMap Item.encoding
  readBack : b.error = false → ∀ qs, List.Forall₂ Matches items qs →
    Safe (readAll ⟨b.written, 0⟩ qs) fun x => x.1 = items.map (fun item => some item.value) ∧ x.2.pos = b.len
  refused : b.error = true → ∃ n < 2 * (items.flatMap Item.encoding).length, memory.grants n = false

/-- What a read may do: past the end it fails, and if it fails then the reader is where it was, or behind the length of
the string. -/
structure Bounded (r : GrReader) (q : Request) (x : Answer Value) : Prop where
  past : q.Past r.rest → x.1 = none
  data : x.2.data = r.data
  inside : x.2.pos ≤ r.data.length
  stays : x.1 = none → x.2.pos = r.pos ∨ x.2.pos = r.pos + q.behind

theorem buffer_reader_inverse (memory : Allocator) {cap : ℕ} {b : GrBuf} (hinit : grBufInit memory cap = some b)
    (hcap : 0 < cap) (items : List Item) (hsize : (items.flatMap Item.encoding).length ≤ 2 ^ 63) {r : GrReader}
    (hr : r.Valid) (q : Request) :
    Safe (writeAll memory b items) (Serialized memory items) ∧ Safe (readItem r q) (Bounded r q) := by
  refine ⟨?_, (gives_readItem hr q).mono fun x hx => ⟨fun hpast => ?_, hx.data, ?_, fun hnone => ?_⟩⟩
  · obtain ⟨hvalid, herror, hempty⟩ := valid_grBufInit hinit hcap
    have hlen : b.len = 0 := by rw [← hvalid.length_written, hempty, List.length_nil]
    refine (wrote_writeAll items hvalid (by rw [hlen, Nat.zero_add]) hsize).mono fun b' hwrote => ?_
    have hpart := hwrote.part
    rw [hempty, List.nil_append] at hpart
    have hwhole : b'.error = false → b'.written = items.flatMap Item.encoding := fun hfine => by
      rw [(hwrote.whole hfine).2, hempty, List.nil_append]
    refine ⟨hwrote.valid.inside, hpart, hwhole, fun hfine qs hmatch => ?_, fun hfailed => ?_⟩
    · have hlength := hwrote.valid.length_written
      have hstart : GrReader.Valid ⟨b'.written, 0⟩ :=
        ⟨Nat.zero_le _, hlength.trans_lt (hwrote.valid.inside.trans_lt hwrote.valid.bounded)⟩
      refine (safe_readAll hstart hmatch [] ?_).mono fun x ⟨hvalues, hend, hdata, hrest⟩ => ⟨hvalues, ?_⟩
      · rw [List.append_nil]
        exact hwhole hfine
      · have hleft := x.2.length_rest
        have hinside := hend.inside
        have hsame : x.2.data.length = b'.len := by rw [hdata, ← hlength]
        rw [hrest, List.length_nil, hsame] at hleft
        rw [hsame] at hinside
        omega
    · exact (hwrote.refused hfailed).resolve_left (by rw [herror]; decide)
  · exact (hx.failed (parse_past hpast)).1
  · rw [← hx.data]
    exact hx.valid.inside
  · cases hexpected : q.parse.run r.rest with
    | none =>
      obtain hsame | hbehind := (hx.failed hexpected).2
      · exact .inl (congrArg GrReader.pos hsame)
      · exact .inr (congrArg GrReader.pos hbehind)
    | some v =>
      rw [(hx.found v.1 v.2 hexpected).1] at hnone
      cases hnone

section Sample

def kilobyte : Allocator where
  grants n := decide (n < 1024)
  fresh n := Bytes.fill n 0xcd
  bounded n h := (of_decide_eq_true h).trans (by decide)

def greeting : Field 8 where
  cells := ⟨[104, 105, 0, 104, 111, 0, 0, 0], rfl⟩
  terminated := by decide
  short := by decide

def sampleItems : List Item := [.u16 0x0102, .str 8 greeting, .i64 (-1), .bytes [7, 8, 9]]

def threeBytes : GrReader := ⟨[1, 2, 3], 0⟩

theorem valid_threeBytes : threeBytes.Valid := ⟨Nat.zero_le _, by decide⟩

theorem buffer_reader_inverse_sample :
    Safe (writeAll kilobyte ⟨(kilobyte.fresh 4).val, 0, false⟩ sampleItems) (Serialized kilobyte sampleItems) ∧
      Safe (readItem threeBytes .u32) (Bounded threeBytes .u32) :=
  buffer_reader_inverse kilobyte (show grBufInit kilobyte 4 = some _ from rfl) (by decide) sampleItems (by decide)
    valid_threeBytes .u32

-- Four bytes are too many, and then two are not.
theorem read_after_failure : ¬ ∀ (r : GrReader) (q q' : Request) (x y : Answer Value), r.Valid → q.Past r.rest →
    readItem r q = .ok x → readItem x.2 q' = .ok y → y.1 = none := by
  intro h
  have hnone := h threeBytes .u32 .u16 (none, threeBytes) (some (.u16 0x0201), threeBytes.skip 2) valid_threeBytes
    (show 3 < 4 by decide) rfl rfl
  cases hnone

end Sample

end YumiBrowser.WireBuffer
