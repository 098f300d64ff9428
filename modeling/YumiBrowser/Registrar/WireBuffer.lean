import YumiBrowser.Library.Blocks

namespace YumiBrowser.WireBuffer

open Wire Blocks

/-- Which sizes `malloc` and `realloc` grant, and what stands in new memory. No object has more bytes than a pointer
difference can tell. -/
structure Allocator where
  grants : ℕ → Bool
  fresh : (n : ℕ) → Bytes n
  bounded : ∀ n, grants n = true → n < 2 ^ 63

/-- `gr_buf_t`; the capacity is the size of what `data` points to. -/
structure GrBuf where
  data : List Byte
  len : ℕ
  error : Bool

def GrBuf.cap (b : GrBuf) : ℕ := b.data.length

structure Field (maxlen : ℕ) where
  cells : Block Byte maxlen
  terminated : 0 ∈ cells.cells
  short : (untilZero cells.cells).length < 2 ^ 32

/-- What is written. -/
inductive Item
  | u8 (v : BitVec 8)
  | u16 (v : BitVec 16)
  | u32 (v : BitVec 32)
  | i64 (v : BitVec 64)
  | str (maxlen : ℕ) (s : Field maxlen)
  | bytes (data : List Byte)

section Writer

variable (memory : Allocator)

def grBufInit (cap : ℕ) : Option GrBuf :=
  if memory.grants cap then some ⟨(memory.fresh cap).val, 0, false⟩ else none

/-- `while (newcap < need) newcap *= 2;` -- a loop that has not ended when all bits are shifted out does not end. -/
def growLoop (need : ℕ) : ℕ → ℕ → Checked ℕ
  | 0, _ => .error .stuck
  | rounds + 1, newcap => if newcap < need then growLoop need rounds (newcap * 2 % 2 ^ 64) else .ok newcap

def realloc (data : List Byte) (size : ℕ) : List Byte :=
  data.take size ++ (memory.fresh (size - data.length)).val

def bufEnsure (b : GrBuf) (need : ℕ) : Checked (Bool × GrBuf) :=
  if b.error then .ok (false, b)
  else if (b.len + need) % 2 ^ 64 ≤ b.cap then .ok (true, b)
  else do
    let newcap ← growLoop ((b.len + need) % 2 ^ 64) 65 (b.cap * 2 % 2 ^ 64)
    .ok (if memory.grants newcap then (true, { b with data := realloc memory b.data newcap })
      else (false, { b with error := true }))

/-- `if (r != 0) return -1; return next(b);` -/
def andThen (r : Checked (Bool × GrBuf)) (next : GrBuf → Checked (Bool × GrBuf)) : Checked (Bool × GrBuf) := do
  let x ← r
  if x.1 then next x.2 else .ok (false, x.2)

def grBufWrite (b : GrBuf) (data : List Byte) (len : ℕ) : Checked (Bool × GrBuf) :=
  andThen (bufEnsure memory b len) fun b => do
    let src ← readMany data 0 len
    let mem ← memcpy b.data b.len src
    .ok (true, { b with data := mem, len := (b.len + len) % 2 ^ 64 })

def grBufWriteU8 (b : GrBuf) (v : BitVec 8) : Checked (Bool × GrBuf) := grBufWrite memory b (writeU8 v) 1

def grBufWriteU16 (b : GrBuf) (v : BitVec 16) : Checked (Bool × GrBuf) := grBufWrite memory b (writeU16 v) 2

def grBufWriteU32 (b : GrBuf) (v : BitVec 32) : Checked (Bool × GrBuf) := grBufWrite memory b (writeU32 v) 4

def grBufWriteI64 (b : GrBuf) (v : BitVec 64) : Checked (Bool × GrBuf) := grBufWrite memory b (writeI64 v) 8

def strnlenFrom (s : List Byte) (off : ℕ) : ℕ → Checked ℕ
  | 0 => .ok off
  | maxlen + 1 => do
    let c ← readAt s off
    if c = 0 then .ok off else strnlenFrom s (off + 1) maxlen

def strnlen (s : List Byte) (maxlen : ℕ) : Checked ℕ := strnlenFrom s 0 maxlen

def grBufWriteStr (b : GrBuf) (s : List Byte) (maxlen : ℕ) : Checked (Bool × GrBuf) := do
  let slen ← strnlen s maxlen
  andThen (grBufWriteU32 memory b (BitVec.ofNat 32 slen)) fun b => grBufWrite memory b s slen

def writeItem (b : GrBuf) : Item → Checked (Bool × GrBuf)
  | .u8 v => grBufWriteU8 memory b v
  | .u16 v => grBufWriteU16 memory b v
  | .u32 v => grBufWriteU32 memory b v
  | .i64 v => grBufWriteI64 memory b v
  | .str maxlen s => grBufWriteStr memory b s.cells.cells maxlen
  | .bytes data => grBufWrite memory b data data.length

def writeAll (b : GrBuf) (items : List Item) : Checked GrBuf :=
  items.foldlM (fun b item => do
    let x ← writeItem memory b item
    .ok x.2) b

end Writer

def Field.text {maxlen : ℕ} (s : Field maxlen) : CString maxlen where
  val := untilZero s.cells.cells
  nonzero _ hb := untilZero_nonzero hb
  short := (length_untilZero_lt s.terminated).trans_eq s.cells.size

def Item.encoding : Item → List Byte
  | u8 v => writeU8 v
  | u16 v => writeU16 v
  | u32 v => writeU32 v
  | i64 v => writeI64 v
  | str _ s => writeStr s.text
  | bytes data => data

section Growing

variable {memory : Allocator} {need newcap rounds limit : ℕ}

theorem safe_growLoop (hneed : need ≤ 2 ^ 63) (hfits : need ≤ newcap * 2 ^ rounds) (hcap : newcap < 2 ^ 64) :
    Safe (growLoop need (rounds + 1) newcap) fun c => need ≤ c ∧ newcap ≤ c ∧ (c = newcap ∨ c < 2 * need) := by
  induction rounds generalizing newcap with
  | zero =>
    rw [growLoop]
    refine .ite (fun hlt => ?_) fun hge => .ok ⟨Nat.not_lt.mp hge, Nat.le_refl _, .inl rfl⟩
    omega
  | succ rounds ih =>
    rw [growLoop]
    refine .ite (fun hlt => ?_) fun hge => .ok ⟨Nat.not_lt.mp hge, Nat.le_refl _, .inl rfl⟩
    have hdouble : newcap * 2 < 2 ^ 64 := by omega
    rw [Nat.mod_eq_of_lt hdouble]
    have hfits' : need ≤ newcap * 2 * 2 ^ rounds := by
      rw [Nat.mul_assoc, ← pow_succ']
      exact hfits
    refine (ih hfits' hdouble).mono fun c hc => ⟨hc.1, by omega, .inr ?_⟩
    obtain rfl | hlt' := hc.2.2
    · omega
    · exact hlt'

example : growLoop (2 ^ 63 + 1) 65 2 = .error .stuck := rfl

end Growing

/-- What a buffer keeps to. -/
structure GrBuf.Valid (b : GrBuf) : Prop where
  pos : 0 < b.cap
  bounded : b.cap < 2 ^ 63
  inside : b.len ≤ b.cap

def GrBuf.written (b : GrBuf) : List Byte := b.data.take b.len

/-- What writing `bs` makes of a buffer: it has them all, or memory was refused and it has some of them. -/
structure Wrote (memory : Allocator) (limit : ℕ) (bs : List Byte) (b b' : GrBuf) : Prop where
  valid : b'.Valid
  whole : b'.error = false → b.error = false ∧ b'.written = b.written ++ bs
  part : b'.written <+: b.written ++ bs
  stopped : b.error = true → b' = b
  refused : b'.error = true → b.error = true ∨ ∃ n < 2 * limit, memory.grants n = false

section Writes

variable {memory : Allocator} {limit : ℕ} {b b' b'' : GrBuf} {bs bs' : List Byte}

theorem GrBuf.Valid.length_written (h : b.Valid) : b.written.length = b.len := by
  rw [GrBuf.written, List.length_take]
  exact Nat.min_eq_left h.inside

theorem GrBuf.Valid.stopped (h : b.Valid) (herror : b.error = true) : Wrote memory limit bs b b where
  valid := h
  whole hfine := absurd (herror.symm.trans hfine) (by decide)
  part := List.prefix_append _ _
  stopped _ := rfl
  refused := .inl

theorem Wrote.trans (h : Wrote memory limit bs b b') (h' : Wrote memory limit bs' b' b'') :
    Wrote memory limit (bs ++ bs') b b'' where
  valid := h'.valid
  whole hfine := by
    obtain ⟨hmid, hw'⟩ := h'.whole hfine
    obtain ⟨hstart, hw⟩ := h.whole hmid
    exact ⟨hstart, by rw [hw', hw, List.append_assoc]⟩
  part := by
    cases hmid : b'.error with
    | true =>
      rw [h'.stopped hmid, ← List.append_assoc]
      exact h.part.trans (List.prefix_append _ _)
    | false =>
      have hpart := h'.part
      rwa [(h.whole hmid).2, List.append_assoc] at hpart
  stopped herror := by
    have hb := h.stopped herror
    rw [h'.stopped (hb ▸ herror), hb]
  refused herror := by
    obtain hmid | hn := h'.refused herror
    · exact h.refused hmid
    · exact .inr hn

/-- The answer of a call that writes `bs` tells whether it did. -/
def Writes (memory : Allocator) (limit : ℕ) (bs : List Byte) (b : GrBuf) (r : Checked (Bool × GrBuf)) : Prop :=
  Safe r fun x => x.1 = !x.2.error ∧ Wrote memory limit bs b x.2

theorem safe_andThen {P : GrBuf → Prop} {r : Checked (Bool × GrBuf)} {next : GrBuf → Checked (Bool × GrBuf)}
    (h : Safe r fun x => x.1 = !x.2.error ∧ Wrote memory limit bs b x.2 ∧ (x.1 = true → P x.2))
    (hnext : ∀ b', b'.error = false → Wrote memory limit bs b b' → P b' → Writes memory limit bs' b' (next b')) :
    Writes memory limit (bs ++ bs') b (andThen r next) := by
  refine Safe.bind h fun x ⟨hanswer, hwrote, hp⟩ => .ite (fun hdone => ?_) fun hfailed => ?_
  · have herror : x.2.error = false := by
      rw [hanswer] at hdone
      simpa using hdone
    exact (hnext x.2 herror hwrote (hp hdone)).mono fun y hy => ⟨hy.1, hwrote.trans hy.2⟩
  · have herror : x.2.error = true := by
      rw [hanswer] at hfailed
      simpa using hfailed
    exact .ok ⟨by rw [herror]; rfl, hwrote.trans (hwrote.valid.stopped herror)⟩

theorem GrBuf.Valid.refused (h : b.Valid) : GrBuf.Valid { b with error := true } := ⟨h.pos, h.bounded, h.inside⟩

theorem GrBuf.Valid.same (h : b.Valid) : Wrote memory limit [] b b where
  valid := h
  whole hfine := ⟨hfine, (List.append_nil _).symm⟩
  part := List.prefix_append _ _
  stopped _ := rfl
  refused := .inl

theorem realloc_eq {data : List Byte} {size : ℕ} (h : data.length ≤ size) :
    realloc memory data size = data ++ (memory.fresh (size - data.length)).val := by
  rw [realloc, List.take_of_length_le h]

theorem cap_realloc {newcap : ℕ} (h : b.cap ≤ newcap) :
    GrBuf.cap { b with data := realloc memory b.data newcap } = newcap := by
  rw [GrBuf.cap, realloc_eq h, List.length_append, Bytes.length_eq]
  exact Nat.add_sub_of_le h

theorem GrBuf.Valid.grown {newcap : ℕ} (h : b.Valid) (herror : b.error = false) (hgrown : b.cap ≤ newcap)
    (hbounded : newcap < 2 ^ 63) :
    Wrote memory limit [] b { b with data := realloc memory b.data newcap } := by
  have hcap : GrBuf.cap { b with data := realloc memory b.data newcap } = newcap := cap_realloc hgrown
  have hkept : GrBuf.written { b with data := realloc memory b.data newcap } = b.written := by
    rw [GrBuf.written, realloc_eq hgrown]
    exact List.take_append_of_le_length h.inside
  refine ⟨⟨?_, ?_, ?_⟩, fun hfine => ⟨hfine, ?_⟩, ?_, fun hstop => ?_, .inl⟩
  · rw [hcap]
    exact h.pos.trans_le hgrown
  · rwa [hcap]
  · rw [hcap]
    exact h.inside.trans hgrown
  · rw [hkept, List.append_nil]
  · rw [hkept]
    exact List.prefix_append _ _
  · exact absurd (herror.symm.trans hstop) (by decide)

theorem safe_bufEnsure {need : ℕ} (h : b.Valid) (hneed : b.len + need ≤ limit) (hlimit : limit ≤ 2 ^ 63) :
    Safe (bufEnsure memory b need) fun x => x.1 = !x.2.error ∧ Wrote memory limit [] b x.2 ∧
      (x.1 = true → x.2.len + need ≤ x.2.cap ∧ x.2.len + need ≤ limit) := by
  have hmod : (b.len + need) % 2 ^ 64 = b.len + need := Nat.mod_eq_of_lt (by omega)
  have hpos := h.pos
  have hbounded := h.bounded
  have hinside := h.inside
  unfold bufEnsure
  refine .ite (fun herror => .ok ⟨by rw [herror]; rfl, h.same, fun hdone => by cases hdone⟩) fun herror => ?_
  rw [Bool.not_eq_true] at herror
  rw [hmod, Nat.mod_eq_of_lt (show b.cap * 2 < 2 ^ 64 by omega)]
  refine .ite (fun hroom => .ok ⟨by rw [herror]; rfl, h.same, fun _ => ⟨hroom, hneed⟩⟩) fun hfull => ?_
  have hstart : b.len + need ≤ b.cap * 2 * 2 ^ 64 := by omega
  refine Safe.bind (safe_growLoop (by omega) hstart (by omega)) fun newcap ⟨hfits, hgrown, hbound⟩ => .ok ?_
  cases hgrant : memory.grants newcap with
  | true =>
    have hbigger : b.cap ≤ newcap := by omega
    have hgrew : Wrote memory limit [] b _ := h.grown herror hbigger (memory.bounded newcap hgrant)
    refine ⟨by rw [if_pos rfl, herror]; rfl, hgrew, fun _ => ⟨?_, hneed⟩⟩
    rw [if_pos rfl, cap_realloc hbigger]
    exact hfits
  | false =>
    refine ⟨rfl, ⟨h.refused, fun hfine => ?_, List.prefix_append _ _, fun hstop => ?_, fun _ => .inr ?_⟩,
      fun hdone => ?_⟩
    · cases hfine
    · exact absurd (herror.symm.trans hstop) (by decide)
    · refine ⟨newcap, ?_, hgrant⟩
      obtain rfl | hlt := hbound
      · omega
      · omega
    · cases hdone

theorem GrBuf.Valid.copied {src : List Byte} (h : b.Valid) (herror : b.error = false)
    (hroom : b.len + src.length ≤ b.cap) :
    Wrote memory limit src b { b with data := splice b.data b.len src, len := b.len + src.length } := by
  have hsize : (splice b.data b.len src).length = b.cap := length_splice hroom
  have hwritten : GrBuf.written { b with data := splice b.data b.len src, len := b.len + src.length } =
      b.written ++ src := take_splice h.inside
  refine ⟨⟨?_, ?_, ?_⟩, fun hfine => ⟨hfine, hwritten⟩, ?_, fun hstop => ?_, .inl⟩
  · rw [GrBuf.cap, hsize]
    exact h.pos
  · rw [GrBuf.cap, hsize]
    exact h.bounded
  · rwa [GrBuf.cap, hsize]
  · exact hwritten ▸ List.prefix_rfl
  · exact absurd (herror.symm.trans hstop) (by decide)

theorem writes_grBufWrite {src : List Byte} {len : ℕ} (h : b.Valid) (hlen : len ≤ src.length)
    (hneed : b.len + len ≤ limit) (hlimit : limit ≤ 2 ^ 63) :
    Writes memory limit (src.take len) b (grBufWrite memory b src len) := by
  have hcopied : (src.take len).length = len := List.length_take_of_le hlen
  rw [← List.nil_append (src.take len)]
  refine safe_andThen (P := fun b' => b'.len + len ≤ b'.cap ∧ b'.len + len ≤ limit) (safe_bufEnsure h hneed hlimit)
    fun b' herror hwrote ⟨hroom, hmore⟩ => ?_
  refine Safe.readMany (by rwa [Nat.zero_add]) (Safe.memcpy ?_ (.ok ?_))
  · rw [List.drop_zero, hcopied]
    exact hroom
  · rw [List.drop_zero, Nat.mod_eq_of_lt (show b'.len + len < 2 ^ 64 by omega)]
    have hdone : Wrote memory limit (src.take len) b' _ := hwrote.valid.copied herror (by rwa [hcopied])
    rw [hcopied] at hdone
    exact ⟨by rw [herror]; rfl, hdone⟩

theorem safe_strnlenFrom {s : List Byte} {off maxlen : ℕ} (h : off + maxlen = s.length) :
    Safe (strnlenFrom s off maxlen) fun n => n = off + (untilZero (s.drop off)).length := by
  induction maxlen generalizing off with
  | zero =>
    rw [List.drop_of_length_le (by omega)]
    exact .ok rfl
  | succ maxlen ih =>
    have hlt : off < s.length := by omega
    refine Safe.readAt hlt ?_
    rw [List.drop_eq_getElem_cons hlt]
    refine .ite (fun hzero => .ok ?_) fun hne => (ih (by omega)).mono fun n hn => ?_
    · rw [untilZero, List.takeWhile_cons_of_neg (by simpa using hzero)]
      rfl
    · rw [untilZero, List.takeWhile_cons_of_pos (by simpa using hne), List.length_cons, hn, untilZero]
      omega

theorem writes_whole {data : List Byte} {n : ℕ} (hn : data.length = n) (h : b.Valid)
    (hneed : b.len + data.length ≤ limit) (hlimit : limit ≤ 2 ^ 63) :
    Writes memory limit data b (grBufWrite memory b data n) := by
  have hwrites : Writes memory limit (data.take n) b _ := writes_grBufWrite h hn.ge (hn ▸ hneed) hlimit
  rwa [← hn, List.take_length, hn] at hwrites

theorem Wrote.len_le (h : b.Valid) (hwrote : Wrote memory limit bs b b') : b'.len ≤ b.len + bs.length := by
  rw [← hwrote.valid.length_written, ← h.length_written, ← List.length_append]
  exact hwrote.part.length_le

theorem writes_grBufWriteStr {s : List Byte} {maxlen : ℕ} (hs : s.length = maxlen) (h : b.Valid)
    (hneed : b.len + (4 + (untilZero s).length) ≤ limit) (hlimit : limit ≤ 2 ^ 63) :
    Writes memory limit (writeU32 (BitVec.ofNat 32 (untilZero s).length) ++ untilZero s) b
      (grBufWriteStr memory b s maxlen) := by
  refine Safe.bind (safe_strnlenFrom (by rw [Nat.zero_add, hs])) fun slen hslen => ?_
  rw [List.drop_zero, Nat.zero_add] at hslen
  have hcut : s.take slen = untilZero s := by
    rw [hslen]
    exact (List.prefix_iff_eq_take.mp (List.takeWhile_prefix _)).symm
  have hinside : slen ≤ s.length := hslen ▸ length_untilZero_le _
  have hnumber : (writeU32 (BitVec.ofNat 32 slen)).length = 4 := length_toLe _ _
  have hfirst : Writes memory limit _ b _ := writes_whole hnumber h (by omega) hlimit
  rw [← hslen, ← hcut]
  refine safe_andThen (P := fun _ => True) (hfirst.mono fun x hx => ⟨hx.1, hx.2, fun _ => trivial⟩)
    fun b' _ hwrote _ => writes_grBufWrite hwrote.valid hinside ?_ hlimit
  have hlen := hwrote.len_le h
  omega

theorem writes_writeItem (item : Item) (h : b.Valid) (hneed : b.len + item.encoding.length ≤ limit)
    (hlimit : limit ≤ 2 ^ 63) : Writes memory limit item.encoding b (writeItem memory b item) := by
  cases item with
  | u8 v => exact writes_whole (length_toLe _ _) h hneed hlimit
  | u16 v => exact writes_whole (length_toLe _ _) h hneed hlimit
  | u32 v => exact writes_whole (length_toLe _ _) h hneed hlimit
  | i64 v => exact writes_whole (length_toLe _ _) h hneed hlimit
  | str maxlen s =>
    rw [Item.encoding, writeStr, List.length_append, length_toLe] at hneed
    exact writes_grBufWriteStr s.cells.size h hneed hlimit
  | bytes data => exact writes_whole rfl h hneed hlimit

theorem wrote_writeAll (items : List Item) (h : b.Valid) (hneed : b.len + (items.flatMap Item.encoding).length ≤ limit)
    (hlimit : limit ≤ 2 ^ 63) :
    Safe (writeAll memory b items) fun b' => Wrote memory limit (items.flatMap Item.encoding) b b' := by
  induction items generalizing b with
  | nil => exact .ok h.same
  | cons item items ih =>
    rw [List.flatMap_cons, List.length_append] at hneed
    have hitem : Writes memory limit _ b _ := writes_writeItem item h (by omega) hlimit
    rw [writeAll, List.foldlM_cons, List.flatMap_cons]
    have hfirst : Safe (writeItem memory b item >>= fun x => .ok x.2) fun b' => Wrote memory limit item.encoding b b' :=
      hitem.bind fun x hx => .ok hx.2
    refine hfirst.bind fun b' hwrote => (ih hwrote.valid ?_).mono fun b'' hrest => hwrote.trans hrest
    have hlen := hwrote.len_le h
    omega

end Writes

theorem valid_grBufInit {memory : Allocator} {cap : ℕ} {b : GrBuf} (h : grBufInit memory cap = some b)
    (hcap : 0 < cap) : b.Valid ∧ b.error = false ∧ b.written = [] := by
  unfold grBufInit at h
  split at h
  · next hgrant =>
    obtain rfl := Option.some.inj h
    have hsize : GrBuf.cap ⟨(memory.fresh cap).val, 0, false⟩ = cap := Bytes.length_eq _
    refine ⟨⟨?_, ?_, ?_⟩, rfl, rfl⟩
    · rwa [hsize]
    · rw [hsize]
      exact memory.bounded cap hgrant
    · exact Nat.zero_le _
  · cases h

end YumiBrowser.WireBuffer
