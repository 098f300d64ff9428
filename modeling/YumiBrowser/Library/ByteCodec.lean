import Mathlib.Data.List.Basic
import Mathlib.Data.List.TakeWhile
import Mathlib.Tactic.Ring

universe u v

namespace Wire

abbrev Byte := BitVec 8

/-- A fixed-length byte array. -/
structure Bytes (n : ℕ) where
  val : List Byte
  length_eq : val.length = n
  deriving DecidableEq

theorem Bytes.ext {a b : Bytes n} (h : a.val = b.val) : a = b := by
  cases a
  cases b
  cases h
  rfl

def Bytes.fill (n : ℕ) (b : Byte) : Bytes n := ⟨List.replicate n b, List.length_replicate⟩

theorem Bytes.fill_inj (h : 0 < n) : Bytes.fill n a = Bytes.fill n b ↔ a = b := by
  simp [fill, Nat.pos_iff_ne_zero.mp h]

/-- The content of a `char[cap]`: what precedes the terminating zero. -/
structure CString (cap : ℕ) where
  val : List Byte
  nonzero : ∀ b ∈ val, b ≠ 0
  short : val.length < cap
  deriving DecidableEq

theorem CString.ext {a b : CString cap} (h : a.val = b.val) : a = b := by
  cases a
  cases b
  cases h
  rfl

def untilZero (l : List Byte) : List Byte := l.takeWhile (· ≠ 0)

theorem untilZero_nonzero (h : b ∈ untilZero l) : b ≠ 0 := by
  simpa using List.mem_takeWhile_imp h

theorem length_untilZero_le (l : List Byte) : (untilZero l).length ≤ l.length :=
  (List.takeWhile_prefix _).length_le

theorem untilZero_eq (h : ∀ b ∈ l, b ≠ 0) : untilZero l = l := by
  rw [untilZero, List.takeWhile_eq_self_iff]
  simpa using h

theorem length_untilZero_lt {l : List Byte} (h : 0 ∈ l) : (untilZero l).length < l.length := by
  refine Nat.lt_of_le_of_ne (length_untilZero_le l) fun heq => ?_
  have hall : untilZero l = l := (List.takeWhile_prefix _).eq_of_length heq
  rw [← hall] at h
  exact untilZero_nonzero h rfl

theorem untilZero_append_zero (s t : List Byte) : untilZero (s ++ 0 :: t) = untilZero s := by
  induction s with
  | nil => rfl
  | cons b s ih =>
    rw [List.cons_append, untilZero, untilZero, List.takeWhile_cons, List.takeWhile_cons]
    split
    · exact congrArg _ ih
    · rfl

/-- `strncpy` into a zeroed `char[cap]`. -/
def CString.copy (cap : ℕ) (h : 0 < cap) (l : List Byte) : CString cap where
  val := untilZero (l.take (cap - 1))
  nonzero _ hb := untilZero_nonzero hb
  short := by
    have := length_untilZero_le (l.take (cap - 1))
    rw [List.length_take] at this
    omega

def CString.empty (cap : ℕ) (h : 0 < cap) : CString cap := ⟨[], by simp, h⟩

/-- A text of any length, read back into a zeroed `char[cap]`: one that does not fit is not copied. -/
def CString.stored (cap : ℕ) (h : 0 < cap) (l : List Byte) : CString cap :=
  if hl : (untilZero l).length < cap then ⟨untilZero l, fun _ hb => untilZero_nonzero hb, hl⟩
  else .empty cap h

theorem CString.val_stored (h : 0 < cap) (l : List Byte) :
    (CString.stored cap h l).val = untilZero l ↔ (untilZero l).length < cap := by
  unfold stored
  split
  · next hl => exact ⟨fun _ => hl, fun _ => rfl⟩
  · next hl =>
    refine ⟨fun heq => ?_, fun hlt => absurd hlt hl⟩
    rw [← heq]
    exact h

/-- A heap buffer with an upper bound on its length. -/
structure Blob (cap : ℕ) where
  val : List Byte
  short : val.length ≤ cap
  deriving DecidableEq

theorem Blob.ext {a b : Blob cap} (h : a.val = b.val) : a = b := by
  cases a
  cases b
  cases h
  rfl

/-- `n` bytes of a number, the lowest first. -/
def toLe : ℕ → ℕ → List Byte
  | 0, _ => []
  | n + 1, v => BitVec.ofNat 8 v :: toLe n (v / 256)

def ofLe : List Byte → ℕ
  | [] => 0
  | b :: l => b.toNat + 256 * ofLe l

@[simp] theorem length_toLe (n v : ℕ) : (toLe n v).length = n := by
  induction n generalizing v with
  | zero => rfl
  | succ n ih => simp [toLe, ih]

theorem ofLe_toLe (n v : ℕ) : ofLe (toLe n v) = v % 256 ^ n := by
  induction n generalizing v with
  | zero => simp [toLe, ofLe, Nat.mod_one]
  | succ n ih =>
    rw [toLe, ofLe, ih, pow_succ', Nat.mod_mul]
    simp

theorem toLe_inj {a b : BitVec w} (hw : 2 ^ w ≤ 256 ^ n) (h : toLe n a.toNat = toLe n b.toNat) :
    a = b := by
  have hread := congrArg ofLe h
  rw [ofLe_toLe, ofLe_toLe, Nat.mod_eq_of_lt (a.isLt.trans_le hw),
    Nat.mod_eq_of_lt (b.isLt.trans_le hw)] at hread
  exact BitVec.eq_of_toNat_eq hread

theorem toLe_ofLe (l : List Byte) : toLe l.length (ofLe l) = l := by
  induction l with
  | nil => rfl
  | cons b l ih =>
    have hb : b.toNat < 256 := b.isLt
    have hlow : BitVec.ofNat 8 (b.toNat + 256 * ofLe l) = b := by
      apply BitVec.eq_of_toNat_eq
      rw [BitVec.toNat_ofNat]
      omega
    have hhigh : (b.toNat + 256 * ofLe l) / 256 = ofLe l := by omega
    rw [ofLe, List.length_cons, toLe, hlow, hhigh, ih]

theorem ofLe_lt (l : List Byte) : ofLe l < 256 ^ l.length := by
  have hsame := ofLe_toLe l.length (ofLe l)
  rw [toLe_ofLe] at hsame
  rw [hsame]
  exact Nat.mod_lt _ (Nat.pow_pos (by decide))

abbrev Reader := StateT (List Byte) Option

def readBytes (n : ℕ) : Reader (Bytes n) := fun s =>
  if h : n ≤ s.length then some (⟨s.take n, by simp [h]⟩, s.drop n) else none

def readLe (n w : ℕ) : Reader (BitVec w) := do
  let b ← readBytes n
  return BitVec.ofNat w (ofLe b.val)

abbrev readU8 : Reader (BitVec 8) := readLe 1 8
abbrev readU16 : Reader (BitVec 16) := readLe 2 16
abbrev readU32 : Reader (BitVec 32) := readLe 4 32
abbrev readI64 : Reader (BitVec 64) := readLe 8 64

abbrev writeU8 (v : BitVec 8) : List Byte := toLe 1 v.toNat
abbrev writeU16 (v : BitVec 16) : List Byte := toLe 2 v.toNat
abbrev writeU32 (v : BitVec 32) : List Byte := toLe 4 v.toNat
abbrev writeI64 (v : BitVec 64) : List Byte := toLe 8 v.toNat

def writeStr (s : CString cap) : List Byte := writeU32 (BitVec.ofNat 32 s.val.length) ++ s.val

def readStr (cap : ℕ) : Reader (CString cap) := do
  let slen ← readU32
  if h : slen.toNat < cap then do
    let b ← readBytes slen.toNat
    return ⟨untilZero b.val, fun _ hb => untilZero_nonzero hb,
      Nat.lt_of_le_of_lt (length_untilZero_le _) (b.length_eq.symm ▸ h)⟩
  else failure

def writeBlob (b : Blob cap) : List Byte := writeU32 (BitVec.ofNat 32 b.val.length) ++ b.val

def readBlob (cap : ℕ) : Reader (Blob cap) := do
  let len ← readU32
  if h : len.toNat ≤ cap then do
    let b ← readBytes len.toNat
    return ⟨b.val, b.length_eq.symm ▸ h⟩
  else failure

def readMany (r : Reader α) : ℕ → Reader (List α)
  | 0 => return []
  | n + 1 => do
    let a ← r
    let l ← readMany r n
    return a :: l

@[simp] theorem readBytes_append (b : Bytes n) (s : List Byte) :
    (readBytes n).run (b.val ++ s) = some (b, s) := by
  obtain ⟨val, rfl⟩ := b
  simp [StateT.run, readBytes]

@[simp] theorem readLe_append (v : BitVec w) (s : List Byte) (h : 2 ^ w ≤ 256 ^ n) :
    (readLe n w).run (toLe n v.toNat ++ s) = some (v, s) := by
  have hread := readBytes_append ⟨toLe n v.toNat, length_toLe n _⟩ s
  have hmod : v.toNat % 256 ^ n = v.toNat := Nat.mod_eq_of_lt (Nat.lt_of_lt_of_le v.isLt h)
  simp only at hread
  simp [readLe, hread, ofLe_toLe, hmod]

theorem readStr_of_short (c : CString cap) (s : List Byte) (h : c.val.length < 2 ^ 32) :
    (readStr cap).run (writeStr c ++ s) = some (c, s) := by
  have hlen : (BitVec.ofNat 32 c.val.length).toNat = c.val.length := by
    rw [BitVec.toNat_ofNat]
    exact Nat.mod_eq_of_lt h
  have hc : untilZero c.val = c.val := untilZero_eq c.nonzero
  rw [readStr, StateT.run_bind, writeStr, List.append_assoc, readLe_append _ _ (by norm_num)]
  simp [hlen, c.short, readBytes, StateT.run, hc, Functor.map, StateT.map]

@[simp] theorem readStr_append (c : CString cap) (s : List Byte) (h : cap ≤ 2 ^ 32) :
    (readStr cap).run (writeStr c ++ s) = some (c, s) :=
  readStr_of_short c s (Nat.lt_of_lt_of_le c.short h)

@[simp] theorem readBlob_append (b : Blob cap) (s : List Byte) (h : cap < 2 ^ 32) :
    (readBlob cap).run (writeBlob b ++ s) = some (b, s) := by
  have hlen : (BitVec.ofNat 32 b.val.length).toNat = b.val.length := by
    rw [BitVec.toNat_ofNat]
    exact Nat.mod_eq_of_lt (Nat.lt_of_le_of_lt b.short h)
  rw [readBlob, StateT.run_bind, writeBlob, List.append_assoc, readLe_append _ _ (by norm_num)]
  simp [hlen, b.short, readBytes, StateT.run, Functor.map, StateT.map]

theorem run_bind_of {r : Reader α} (f : α → Reader β) (h : r.run s = some (a, s')) :
    (r >>= f).run s = (f a).run s' := by
  rw [StateT.run_bind, h]
  rfl

theorem run_map (f : α → β) (r : Reader α) (s : List Byte) :
    (f <$> r).run s = (r.run s).map (Prod.map f id) := by
  rw [StateT.run_map]
  rfl

theorem run_readBytes_of_le (h : n ≤ s.length) :
    (readBytes n).run s = some (⟨s.take n, List.length_take_of_le h⟩, s.drop n) := dif_pos h

theorem run_readBytes_of_lt (h : s.length < n) : (readBytes n).run s = none := dif_neg (Nat.not_le.mpr h)

theorem run_readLe_of_le (h : n ≤ s.length) :
    (readLe n w).run s = some (BitVec.ofNat w (ofLe (s.take n)), s.drop n) := by
  rw [readLe, run_bind_of _ (run_readBytes_of_le h)]
  rfl

theorem run_readLe_of_lt (h : s.length < n) : (readLe n w).run s = none := by
  rw [readLe, StateT.run_bind, run_readBytes_of_lt h]
  rfl

-- The simp set of round trips: each reader takes what its writer left at the front.
@[simp] theorem readBytes_bind (b : Bytes n) (s : List Byte) (f : Bytes n → Reader α) :
    (readBytes n >>= f).run (b.val ++ s) = (f b).run s := run_bind_of f (readBytes_append b s)

@[simp] theorem readU16_bind (v : BitVec 16) (s : List Byte) (f : BitVec 16 → Reader α) :
    (readU16 >>= f).run (writeU16 v ++ s) = (f v).run s :=
  run_bind_of f (readLe_append v s (by norm_num))

@[simp] theorem readU32_bind (v : BitVec 32) (s : List Byte) (f : BitVec 32 → Reader α) :
    (readU32 >>= f).run (writeU32 v ++ s) = (f v).run s :=
  run_bind_of f (readLe_append v s (by norm_num))

@[simp] theorem readI64_bind (v : BitVec 64) (s : List Byte) (f : BitVec 64 → Reader α) :
    (readI64 >>= f).run (writeI64 v ++ s) = (f v).run s :=
  run_bind_of f (readLe_append v s (by norm_num))

@[simp] theorem readStr_bind (c : CString cap) (s : List Byte) (f : CString cap → Reader α)
    (h : cap ≤ 2 ^ 32) : (readStr cap >>= f).run (writeStr c ++ s) = (f c).run s :=
  run_bind_of f (readStr_append c s h)

@[simp] theorem readBlob_bind (b : Blob cap) (s : List Byte) (f : Blob cap → Reader α)
    (h : cap < 2 ^ 32) : (readBlob cap >>= f).run (writeBlob b ++ s) = (f b).run s :=
  run_bind_of f (readBlob_append b s h)

theorem readMany_append {r : Reader β} {w : α → List Byte} (g : α → β) (l : List α)
    (s : List Byte) (h : ∀ a s, r.run (w a ++ s) = some (g a, s)) :
    (readMany r l.length).run (l.flatMap w ++ s) = some (l.map g, s) := by
  induction l with
  | nil => simp [readMany]
  | cons a l ih => simp [readMany, StateT.run_bind, h, ih]

theorem readMany_short {r : Reader β} {w : α → List Byte} (g : α → β) (hnil : r.run [] = none)
    (l : List α) (h : ∀ a s, r.run (w a ++ s) = some (g a, s)) (hn : l.length < n) :
    (readMany r n).run (l.flatMap w) = none := by
  induction l generalizing n with
  | nil =>
    cases n with
    | zero => exact absurd hn (Nat.lt_irrefl 0)
    | succ n =>
      rw [readMany, List.flatMap_nil, StateT.run_bind, hnil]
      rfl
  | cons a l ih =>
    cases n with
    | zero => exact absurd hn (Nat.not_lt_zero _)
    | succ n =>
      rw [readMany, List.flatMap_cons, run_bind_of _ (h a _), StateT.run_bind,
        ih (Nat.lt_of_succ_lt_succ hn)]
      rfl

abbrev Parser (ε : Type u) := StateT (List Byte) (Except ε)

def orThrow (e : ε) (r : Reader α) : Parser ε α := fun s =>
  match r.run s with
  | some x => .ok x
  | none => .error e

theorem orThrow_eq_ok {r : Reader α} : (orThrow e r).run s = .ok x ↔ r.run s = some x := by
  change (match r.run s with | some x => Except.ok x | none => .error e) = _ ↔ _
  cases r.run s <;> simp

theorem orThrow_bind {r : Reader α} (f : α → Parser ε β) (h : r.run s = some (a, s')) :
    (orThrow e r >>= f).run s = (f a).run s' := by
  have hr : (orThrow e r).run s = .ok (a, s') := by
    change (match r.run s with | some x => Except.ok x | none => .error e) = _
    rw [h]
  rw [StateT.run_bind, hr]
  rfl

end Wire
