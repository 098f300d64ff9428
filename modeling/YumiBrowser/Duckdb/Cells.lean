import YumiBrowser.Duckdb.Bindings

namespace YumiBrowser.Duckdb

open Wire Handles

/-- `sizeof` -/
def CType.size : CType → ℕ
  | .bool | .int8 | .uint8 => 1
  | .int16 | .uint16 => 2
  | .int32 | .uint32 | .float | .date => 4
  | .int64 | .uint64 | .double | .time | .timestamp => 8
  | .hugeint | .string => 16

def signed (n w : ℕ) (bytes : Text) : BitVec w := (BitVec.ofNat n (ofLe bytes)).signExtend w

def unsigned (w : ℕ) (bytes : Text) : BitVec w := BitVec.ofNat w (ofLe bytes)

inductive Accessor
  | bool | int8 | int16 | int32 | int64 | uint8 | uint16 | uint32 | uint64 | float | double
  | date | time | timestamp
  deriving DecidableEq

def Accessor.ctype : Accessor → CType
  | .bool => .bool
  | .int8 => .int8
  | .int16 => .int16
  | .int32 => .int32
  | .int64 => .int64
  | .uint8 => .uint8
  | .uint16 => .uint16
  | .uint32 => .uint32
  | .uint64 => .uint64
  | .float => .float
  | .double => .double
  | .date => .date
  | .time => .time
  | .timestamp => .timestamp

def Accessor.ret (bytes : Text) : Accessor → Val
  | .bool | .uint8 | .uint16 | .uint32 => .i32 (unsigned 32 bytes)
  | .int8 => .i32 (signed 8 32 bytes)
  | .int16 => .i32 (signed 16 32 bytes)
  | .int32 | .date => .i32 (signed 32 32 bytes)
  | .int64 | .time | .timestamp => .i64 (signed 64 64 bytes)
  | .uint64 => .i64 (unsigned 64 bytes)
  | .float => .f32 (unsigned 32 bytes)
  | .double => .f64 (unsigned 64 bytes)

def Accessor.zero : Accessor → Val
  | .int64 | .uint64 | .time | .timestamp => .i64 0
  | .float => .f32 0
  | .double => .f64 0
  | _ => .i32 0

/-- The value of a row in a column that holds values of type `T`. -/
def Chunk.cell? (c : Chunk) (col row : ℕ) (T : CType) : Option Text :=
  c.columns[col]?.bind fun v => if v.type.stores = some T then v.cells[row]? else none

def rowIsValid (mask : List (BitVec 64)) (row : ℕ) : Option Bool :=
  mask[row / 64]?.map (·.getLsbD (row % 64))

namespace Bindings

variable {E : Engine} (host : ℕ → Byte) (s : Bindings E)

def deref (cw : ChunkWrap) : Option Chunk :=
  s.htResult.slots.findSome? fun slot => slot.bind fun rw =>
    if rw.serial = cw.result then rw.chunks[cw.index]? else none

def hostBytes (n : ℕ) : Text := (List.range n).map host

/-- `VEC_READ_TYPED`: where there is no such value, what the memory of the host has there. -/
def vecRead (chunk : Option Chunk) (col row : ℕ) (T : CType) : Text :=
  match chunk.bind (·.cell? col row T) with
  | some cell => cell
  | none => hostBytes host (if T = .string then ofLe (hostBytes host 4) else T.size)

/-- `vec_is_null`: a vector without a mask has no NULL in it, and neither has a vector that is NULL. -/
def vecIsNull (chunk : Option Chunk) (col row : ℕ) : Bool × List Read :=
  match chunk.bind fun c => c.columns[col]?.bind Vector.validity with
  | none => (false, [])
  | some mask => (!(rowIsValid mask row).getD ((host 0).getLsbD 0), [.validity chunk col row])

def isNullVal (null : Bool) : Val := .i32 (if null then 1 else 0)

def writeStringtToGuest (chunk : Option Chunk) (col row : ℕ) (outPtr outCap : BitVec 32) :
    Bindings E × BitVec 32 :=
  let data := vecRead host chunk col row .string
  s.memWriteBlob outPtr outCap data (BitVec.ofNat 32 data.length)

def writeHugeint (chunk : Option Chunk) (col row : ℕ) (outPtr : BitVec 32) : Bindings E :=
  let data := vecRead host chunk col row .hugeint
  (s.memWrite outPtr (data.take 8)).memWrite (outPtr + 8) (data.drop 8)

section Chunks

def insertChunk (cw : ChunkWrap) : Outcome E :=
  let r := htableInsert s.htChunk (some cw)
  { s with htChunk := r.1 }.answer (.i32 r.2) []

def fnFetchChunk (h : BitVec 32) : Outcome E :=
  match s.getRw h with
  | none => s.answer (.i32 0) []
  | some rw =>
    let s := s.updateRw h rw.fetchOne.1
    if rw.fetchOne.2 then s.insertChunk ⟨rw.serial, rw.fetchOne.1.chunks.length - 1⟩
    else s.answer (.i32 0) []

def fnResultGetChunk (h ci : BitVec 32) : Outcome E :=
  match s.getRw h with
  | none => s.answer (.i32 0) []
  | some rw =>
    let r := rw.ensureChunk ci.toNat
    let s := s.updateRw h r.1
    if r.2 then s.insertChunk ⟨rw.serial, ci.toNat⟩ else s.answer (.i32 0) []

def fnDestroyChunk (h : BitVec 32) : Outcome E :=
  match htableGet s.htChunk h with
  | none => s.answer .unit []
  | some _ => { s with htChunk := htableRemove s.htChunk h }.answer .unit []

def chunkNumber (h : BitVec 32) (number : Chunk → ℕ) : Outcome E :=
  match htableGet s.htChunk h with
  | none => s.answer (.i32 0) []
  | some cw =>
    s.answer (.i32 ((s.deref cw).elim (unsigned 32 (hostBytes host 4)) fun c => BitVec.ofNat 32 (number c)))
      [.chunk (s.deref cw)]

def fnChunkSize (h : BitVec 32) : Outcome E := s.chunkNumber host h Chunk.size

def fnChunkColumnCount (h : BitVec 32) : Outcome E := s.chunkNumber host h (·.columns.length)

def columnType (c : Chunk) (col : ℕ) : DuckdbType := (c.columns[col]?.map Vector.type).getD .invalid

def fnChunkColumnType (h col : BitVec 32) : Outcome E :=
  s.chunkNumber host h fun c => (columnType c col.toNat).ctorIdx

def fnChunkIsNull (h col row : BitVec 32) : Outcome E :=
  match htableGet s.htChunk h with
  | none => s.answer (.i32 1) []
  | some cw =>
    let r := vecIsNull host (s.deref cw) col.toNat row.toNat
    s.answer (isNullVal r.1) (.chunk (s.deref cw) :: r.2)

/-- `DEF_CHUNK_GET_I32`, `DEF_CHUNK_GET_I64` and the like -/
def fnChunkGet (a : Accessor) (h col row : BitVec 32) : Outcome E :=
  match htableGet s.htChunk h with
  | none => s.answer a.zero []
  | some cw =>
    s.answer (a.ret (vecRead host (s.deref cw) col.toNat row.toNat a.ctype))
      [.chunk (s.deref cw), .cell (s.deref cw) col.toNat row.toNat a.ctype]

/-- `fn_chunk_get_varchar` and `fn_chunk_get_blob` -/
def fnChunkGetString (h col row outPtr outCap : BitVec 32) : Outcome E :=
  match htableGet s.htChunk h with
  | none => s.answer (.i32 0) []
  | some cw =>
    let r := s.writeStringtToGuest host (s.deref cw) col.toNat row.toNat outPtr outCap
    r.1.answer (.i32 r.2) [.chunk (s.deref cw), .cell (s.deref cw) col.toNat row.toNat .string]

def fnChunkGetHugeint (h col row outPtr : BitVec 32) : Outcome E :=
  match htableGet s.htChunk h with
  | none => s.answer .unit []
  | some cw =>
    (s.writeHugeint host (s.deref cw) col.toNat row.toNat outPtr).answer .unit
      [.chunk (s.deref cw), .cell (s.deref cw) col.toNat row.toNat .hugeint]

def columnData (c : Chunk) (col : ℕ) : Text := ((c.columns[col]?.map Vector.cells).getD []).flatten

def fnChunkCopyColumn (h col outPtr outCap : BitVec 32) : Outcome E :=
  match htableGet s.htChunk h with
  | none => s.answer (.i32 0) []
  | some cw =>
    match s.deref cw with
    | none => s.answer (.i32 (unsigned 32 (hostBytes host 4))) [.chunk none]
    | some c =>
      let size := ddbPrimitiveSize (columnType c col.toNat)
      if size = 0 then s.answer (.i32 0) [.chunk (some c)]
      else
        let bytes := BitVec.ofNat 32 (size * c.size)
        let r := s.memWriteBlob outPtr outCap (columnData c col.toNat) bytes
        r.1.answer (.i32 r.2) [.chunk (some c), .column (some c) col.toNat (min bytes.toNat outCap.toNat)]

def maskBytes (mask : List (BitVec 64)) : Text := mask.flatMap fun word => toLe 8 word.toNat

def fnChunkCopyValidity (h col outPtr outCap : BitVec 32) : Outcome E :=
  match htableGet s.htChunk h with
  | none => s.answer (.i32 0) []
  | some cw =>
    match s.deref cw with
    | none => s.answer (.i32 (unsigned 32 (hostBytes host 4))) [.chunk none]
    | some c =>
      let bytes := BitVec.ofNat 32 (Vector.maskWords c.size) * 8
      match c.columns[col.toNat]?.bind Vector.validity with
      | some mask =>
        let r := s.memWriteBlob outPtr outCap (maskBytes mask) bytes
        r.1.answer (.i32 r.2) [.chunk (some c), .mask (some c) col.toNat (min bytes.toNat outCap.toNat)]
      | none =>
        let r := s.memWriteBlob outPtr outCap (List.replicate bytes.toNat 0xff) bytes
        r.1.answer (.i32 r.2) [.chunk (some c)]

end Chunks

section Values

/-- `locate_cell`; the chunk may still have to be fetched. -/
def locateCell (h row : BitVec 32) : Bindings E × Option (Chunk × ℕ) :=
  match s.getRw h with
  | none => (s, none)
  | some rw =>
    let r := rw.locate row.toNat
    (s.updateRw h r.1, r.2.bind fun cell => r.1.chunks[cell.1]?.map (·, cell.2))

def fnValueIsNull (h col row : BitVec 32) : Outcome E :=
  let r := s.locateCell h row
  match r.2 with
  | none => r.1.answer (.i32 1) []
  | some (c, ri) =>
    let null := vecIsNull host (some c) col.toNat ri
    r.1.answer (isNullVal null.1) null.2

/-- `DEF_VALUE_I32`, `DEF_VALUE_I64` and the like -/
def fnValue (a : Accessor) (h col row : BitVec 32) : Outcome E :=
  let r := s.locateCell h row
  match r.2 with
  | none => r.1.answer a.zero []
  | some (c, ri) =>
    r.1.answer (a.ret (vecRead host (some c) col.toNat ri a.ctype)) [.cell (some c) col.toNat ri a.ctype]

/-- `fn_value_varchar` and `fn_value_blob` -/
def fnValueString (h col row outPtr outCap : BitVec 32) : Outcome E :=
  let r := s.locateCell h row
  match r.2 with
  | none => r.1.answer (.i32 0) []
  | some (c, ri) =>
    let w := r.1.writeStringtToGuest host (some c) col.toNat ri outPtr outCap
    w.1.answer (.i32 w.2) [.cell (some c) col.toNat ri .string]

def fnValueHugeint (h col row outPtr : BitVec 32) : Outcome E :=
  let r := s.locateCell h row
  match r.2 with
  | none => r.1.answer .unit []
  | some (c, ri) =>
    (r.1.writeHugeint host (some c) col.toNat ri outPtr).answer .unit [.cell (some c) col.toNat ri .hugeint]

end Values

end Bindings

end YumiBrowser.Duckdb
