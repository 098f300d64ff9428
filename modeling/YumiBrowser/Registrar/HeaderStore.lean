import YumiBrowser.Registrar.FaultFree
import Mathlib.Data.Fin.VecNotation

namespace YumiBrowser.Group

open Wire Keyed Fallible

inductive Column
  | blob (b : List Byte)
  | varchar (s : List Byte)
  | i32 (v : BitVec 32)
  | i64 (v : I64)
  deriving DecidableEq

namespace Column

/-- `gr_db_vec_get_blob`: a blob of another length is an error. -/
def getBlob (n : ℕ) : Column → Except GrError (Bytes n)
  | blob b => if h : b.length = n then .ok ⟨b, h⟩ else .error .db
  | _ => .error .db

def getStr (cap : ℕ) (hcap : 0 < cap) : Column → Except GrError (CString cap)
  | varchar s => if s.length < cap then .ok (CString.copy cap hcap s) else .error .db
  | _ => .error .db

def getI32 : Column → Except GrError (BitVec 32)
  | i32 v => .ok v
  | _ => .error .db

def getI64 : Column → Except GrError I64
  | i64 v => .ok v
  | _ => .error .db

@[simp] theorem getBlob_blob (b : Bytes n) : (blob b.val).getBlob n = .ok b := dif_pos b.length_eq

@[simp] theorem getStr_varchar (hcap : 0 < cap) (s : CString cap) :
    (varchar s.val).getStr cap hcap = .ok s := by
  have hcopy : CString.copy cap hcap s.val = s := by
    apply CString.ext
    have htake : s.val.take (cap - 1) = s.val := List.take_of_length_le (Nat.le_sub_one_of_lt s.short)
    change untilZero (s.val.take (cap - 1)) = s.val
    rw [htake, untilZero_eq s.nonzero]
  rw [getStr, if_pos s.short, hcopy]

@[simp] theorem getI32_i32 (v : BitVec 32) : (i32 v).getI32 = .ok v := rfl

@[simp] theorem getI64_i64 (v : I64) : (i64 v).getI64 = .ok v := rfl

end Column

/-- A row of `gr_header`. -/
abbrev HeaderRow := Fin 16 → Column

/-- `bind_header_fields` -/
def bindHeaderFields (h : Header) : HeaderRow :=
  ![.blob h.groupId.val, .i32 h.groupType, .varchar h.groupName.val, .i32 h.version, .i64 h.createdAt,
    .i64 h.updatedAt, .i32 h.epochId, .i64 h.retention.messageRetentionMs, .i64 h.retention.fileRetentionMs,
    .i64 h.retention.registrarMaxBytes, .blob h.ownerId.val, .blob h.ownerSignKey.val, .blob h.signerId.val,
    .blob h.signerSignKey.val, .blob h.signature.val, .blob h.hash.val]

/-- What `gr_header_load` makes of a row. -/
def readHeader (row : HeaderRow) : Except GrError Header := do
  let groupId ← (row 0).getBlob 128
  let groupType ← (row 1).getI32
  let groupName ← (row 2).getStr 128 name_pos
  let version ← (row 3).getI32
  let createdAt ← (row 4).getI64
  let updatedAt ← (row 5).getI64
  let epochId ← (row 6).getI32
  let messageRetentionMs ← (row 7).getI64
  let fileRetentionMs ← (row 8).getI64
  let registrarMaxBytes ← (row 9).getI64
  let ownerId ← (row 10).getBlob 32
  let ownerSignKey ← (row 11).getBlob 2592
  let signerId ← (row 12).getBlob 32
  let signerSignKey ← (row 13).getBlob 2592
  let signature ← (row 14).getBlob 4627
  let hash ← (row 15).getBlob 128
  return { groupId, groupType, groupName, version, createdAt, updatedAt, epochId, ownerId, ownerSignKey, signerId,
           signerSignKey, signature, hash,
           retention := { messageRetentionMs, fileRetentionMs, registrarMaxBytes } }

theorem readHeader_bindHeaderFields (h : Header) : readHeader (bindHeaderFields h) = .ok h := by
  have hblob : ∀ {n : ℕ} (b : Bytes n), (Column.blob b.val).getBlob n = .ok b := Column.getBlob_blob
  simp [readHeader, bindHeaderFields, hblob]
  rfl

/-- `gr_header_load`: the first row of the table. -/
def Tables.loadHeader (t : Tables) : Except GrError Header :=
  match t.headers.head? with
  | none => .error .notFound
  | some h => readHeader (bindHeaderFields h)

def Header.zero : Header where
  groupId := zeroBytes 128
  groupType := 0
  groupName := CString.empty 128 name_pos
  version := 0
  createdAt := 0
  updatedAt := 0
  epochId := 0
  retention := ⟨0, 0, 0⟩
  ownerId := zeroBytes 32
  ownerSignKey := zeroBytes 2592
  signerId := zeroBytes 32
  signerSignKey := zeroBytes 2592
  signature := zeroBytes 4627
  hash := zeroBytes 128

/-- A handle on the file `t`, its statements prepared. -/
def Session.connected (t : Tables) : Session where
  header := .zero
  tables := t
  before := none
  savedHeader := .zero
  txnDepth := 0
  bound := none
  untrusted := false
  deltaAnomaly := none
  faults := .none

/-- `gr_open` -/
def grOpen (t : Tables) (groupId : Hash) : Except GrError Session := do
  let header ← t.loadHeader
  if header.groupId ≠ groupId then throw .notFound
  else return { Session.connected t with header }

/-- `gr_create`, once the file is open -/
def Db.create (crypto : Crypto) (groupName : List Byte) (groupType : BitVec 32) (owner : Identity)
    (epochKey : EpochKey) (clk : Clock) : Db PUnit := do
  guardThat (untilZero groupName ≠ []) .invalidParam
  guardThat (groupType = groupPrivate ∨ groupType = groupPublic) .invalidParam
  setHeader fun _ => initialHeader crypto groupName groupType owner clk.ms
  headerSave
  insert fun reg => (reg.peers.insert? (ownerPeer owner clk.ms)).map fun peers => { reg with peers }
  insert fun reg => (reg.epochs.insert? (firstEpoch owner epochKey clk.ms)).map fun epochs =>
    { reg with epochs }
  appendDb crypto .peerAdded owner (some owner.peerId) (ascii "group created") clk.ns

end YumiBrowser.Group
