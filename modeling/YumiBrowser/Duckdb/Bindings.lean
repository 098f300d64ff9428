import YumiBrowser.Duckdb.ResultWrap
import YumiBrowser.Memory.HandleTable

namespace YumiBrowser.Duckdb

open Wire Handles

structure ChunkWrap where
  result : ℕ
  index : ℕ
  deriving DecidableEq

structure Prepared (E : Engine) where
  stmt : Except Text (Statement E.Body)
  bound : List (ℕ × Value)

structure Appender (E : Engine) where
  table : Except Text E.Table
  rows : List (List Value)
  row : List Value
  error : Option Text

structure Bindings (E : Engine) where
  connection : Connection E
  htResult : HandleTable ResultWrap
  htPrepared : HandleTable (Prepared E)
  htAppender : HandleTable (Appender E)
  htTableDesc : HandleTable (Except Text (List (Text × Bool)))
  htExtracted : HandleTable (Except Text (List (Statement E.Body)))
  htChunk : HandleTable ChunkWrap
  memory : Option Text
  dbPath : Option Text
  quotaBytes : ℕ
  lastError : Option Text
  -- how many results have been made, and the chunks of them that have been destroyed
  made : ℕ
  destroyed : List ChunkWrap

/-- `duckdb_bindings_init` -/
def Bindings.init {E : Engine} (connection : Connection E) : Bindings E where
  connection
  htResult := htableInit 128
  htChunk := htableInit 256
  htPrepared := htableInit 64
  htAppender := htableInit 32
  htTableDesc := htableInit 32
  htExtracted := htableInit 16
  memory := none
  dbPath := none
  quotaBytes := 0
  lastError := none
  made := 0
  destroyed := []

def htableUpdate {α : Type} (t : HandleTable α) (handle : BitVec 32) (x : α) : HandleTable α :=
  { t with slots := t.slots.set (handle - 1).toNat (some x) }

structure Buffer where
  bytes : Text
  size : ℕ

def Buffer.cstr (buf : Buffer) : Text := untilZero buf.bytes

inductive Read
  -- the header of a chunk
  | chunk (chunk : Option Chunk)
  -- a value, and the validity of a row
  | cell (chunk : Option Chunk) (col row : ℕ) (T : CType)
  | validity (chunk : Option Chunk) (col row : ℕ)
  -- the first bytes of the values of a column, and of its mask
  | column (chunk : Option Chunk) (col n : ℕ)
  | mask (chunk : Option Chunk) (col n : ℕ)
  | guest (ptr len : ℕ)
  -- the first bytes of a block of host memory, as text up to its end and as data
  | text (buf : Buffer) (n : ℕ)
  | data (buf : Buffer) (n : ℕ)

inductive Val
  | unit
  | i32 (v : BitVec 32)
  | i64 (v : BitVec 64)
  | f32 (bits : BitVec 32)
  | f64 (bits : BitVec 64)
  deriving DecidableEq

structure Reply where
  value : Val
  reads : List Read
  effects : List Effect

abbrev Outcome (E : Engine) := Bindings E × Reply

inductive Scalar
  | null
  | boolean (v : BitVec 32)
  | int8 (v : BitVec 32)
  | int16 (v : BitVec 32)
  | int32 (v : BitVec 32)
  | int64 (v : BitVec 64)
  | uint8 (v : BitVec 32)
  | uint16 (v : BitVec 32)
  | uint32 (v : BitVec 32)
  | uint64 (v : BitVec 64)
  | float (bits : BitVec 32)
  | double (bits : BitVec 64)
  | date (days : BitVec 32)
  | time (micros : BitVec 64)
  | timestamp (micros : BitVec 64)

def Scalar.value : Scalar → Value
  | .null => .null
  | .boolean v => .boolean (v ≠ 0)
  | .int8 v => .int8 (v.setWidth 8)
  | .int16 v => .int16 (v.setWidth 16)
  | .int32 v => .int32 v
  | .int64 v => .int64 v
  | .uint8 v => .uint8 (v.setWidth 8)
  | .uint16 v => .uint16 (v.setWidth 16)
  | .uint32 v => .uint32 v
  | .uint64 v => .uint64 v
  | .float bits => .float bits
  | .double bits => .double bits
  | .date days => .date days
  | .time micros => .time micros
  | .timestamp micros => .timestamp micros

section Objects

variable {E : Engine}

def Buffer.take (host : ℕ → Byte) (buf : Buffer) (n : ℕ) : Text := (List.range n).map fun i => buf.bytes.getD i (host i)

def errorOf {α : Type} : Except Text α → Option Text
  | .error e => some e
  | .ok _ => none

def Prepared.error? (p : Prepared E) : Option Text := errorOf p.stmt

/-- `duckdb_prepared_statement_type` -/
def Prepared.type (p : Prepared E) : StatementType :=
  match p.stmt with
  | .error _ => .invalid
  | .ok stmt => stmt.type

/-- `duckdb_execute_prepared` -/
def Prepared.run (p : Prepared E) (c : Connection E) : Ran E :=
  match p.stmt with
  | .error e => ⟨c, .failed e, []⟩
  | .ok stmt => c.execute stmt p.bound

/-- `duckdb_appender_flush` -/
def Appender.flush (ap : Appender E) (c : Connection E) : Connection E × Appender E × BitVec 32 × List Effect :=
  match ap.table with
  | .error _ => (c, ap, 1, [])
  | .ok table =>
    if ap.row ≠ [] then (c, ap, 1, [])
    else if ap.rows = [] then (c, ap, 0, [])
    else
      match E.insert c.db table ap.rows with
      | .error e => (c, { ap with error := some e }, 1, [])
      | .ok db => ({ c with db }, { ap with rows := [] }, 0, [.stored ap.rows])

/-- `duckdb_appender_close` leaves the rows alone when one is incomplete. -/
def Appender.close (ap : Appender E) (c : Connection E) : Connection E × Appender E × BitVec 32 × List Effect :=
  if ap.row ≠ [] then (c, ap, 0, []) else ap.flush c

/-- `duckdb_appender_end_row` -/
def Appender.endRow (ap : Appender E) (c : Connection E) : Connection E × Appender E × BitVec 32 × List Effect :=
  match ap.table with
  | .error _ => (c, ap, 1, [])
  | .ok table =>
    if E.endRow table ap.row then
      let ap := { ap with rows := ap.rows ++ [ap.row], row := [] }
      if E.full ap.rows then ap.flush c else (c, ap, 0, [])
    else (c, ap, 1, [])

/-- The `duckdb_append_*` functions. -/
def Appender.append (ap : Appender E) (v : Value) : Appender E × BitVec 32 :=
  match ap.table with
  | .error _ => (ap, 1)
  | .ok table => if E.append table ap.row v then ({ ap with row := ap.row ++ [v] }, 0) else (ap, 1)

def Appender.error? (ap : Appender E) : Option Text :=
  match ap.table with
  | .error e => some e
  | .ok _ => ap.error

end Objects

namespace Bindings

variable {E : Engine} (host : ℕ → Byte) (s : Bindings E)

def answer (value : Val) (reads : List Read) : Outcome E := (s, ⟨value, reads, []⟩)

section Memory

def memSize : ℕ := (s.memory.getD []).length

def memWrite (ptr : BitVec 32) (src : Text) : Bindings E :=
  if s.memSize < ptr.toNat + src.length then s
  else { s with memory := s.memory.map fun m => m.take ptr.toNat ++ src ++ m.drop (ptr.toNat + src.length) }

def memReadCstr (ptr len : BitVec 32) : Buffer × List Read :=
  if len = 0 then (⟨[0], 1⟩, [])
  else if s.memSize < ptr.toNat + len.toNat then (⟨[0], 1⟩, [])
  else
    -- the sum that malloc gets is one of 32 bits
    (⟨((s.memory.getD []).drop ptr.toNat).take len.toNat ++ [0], (len + 1).toNat⟩, [.guest ptr.toNat len.toNat])

def memReadString (ptr len : BitVec 32) : Text × List Read :=
  let r := s.memReadCstr ptr len
  (r.1.cstr, r.2 ++ [.text r.1 (r.1.cstr.length + 1)])

def memWriteBlob (outPtr outCap : BitVec 32) (data : Text) (len : BitVec 32) : Bindings E × BitVec 32 :=
  if 0 < len ∧ 0 < outCap ∧ outPtr ≠ 0 then
    (s.memWrite outPtr (data.take (if len < outCap then len else outCap).toNat), len)
  else (s, len)

def memWriteCstr (outPtr outCap : BitVec 32) (str : Option Text) : Bindings E × BitVec 32 :=
  match str with
  | none => (s, 0)
  | some str => s.memWriteBlob outPtr outCap (untilZero str) (BitVec.ofNat 32 (untilZero str).length)

def writeText (outPtr outCap : BitVec 32) (str : Option Text) : Outcome E :=
  let r := s.memWriteCstr outPtr outCap str
  r.1.answer (.i32 r.2) []

def guestBlob (ptr len : BitVec 32) : Option Text :=
  if s.memSize < ptr.toNat + len.toNat then none
  else some (((s.memory.getD []).drop ptr.toNat).take len.toNat)

end Memory

section Sandbox

def utf8 (s : String) : Text := s.toUTF8.toList.map UInt8.toBitVec

def number (n : ℕ) : Text := utf8 (Nat.repr n)

def fileSizeBytes (path : Text) : ℕ :=
  if path = [] then 0 else (E.fileSize s.connection.db path).getD 0

def ddbDiskUsage : ℕ :=
  match s.dbPath with
  | none => 0
  | some path => s.fileSizeBytes path + s.fileSizeBytes (path ++ utf8 ".wal")

def isForbiddenStmt : StatementType → Bool
  | .attach | .detach | .load | .set | .variableSet | .transaction | .extension | .exportDb | .copy => true
  | _ => false

def isWriterStmt : StatementType → Bool
  | .insert | .update | .delete | .create | .createFunc | .alter | .drop | .vacuum | .analyze | .call
  | .multi | .relation | .logicalPlan => true
  | _ => false

def classify (c : Connection E) (stmts : List (Statement E.Body)) : Bool × Bool :=
  stmts.foldl (fun r stmt =>
    if c.Prepares stmt then (r.1 || isForbiddenStmt stmt.type, r.2 || isWriterStmt stmt.type)
    else (r.1, true)) (false, false)

def classifySql (c : Connection E) (sql : Text) : Except Text (Bool × Bool) :=
  match E.extract sql with
  | .error e => .error e
  | .ok [] => .error (utf8 "SQL parse error")
  | .ok stmts => .ok (classify c stmts)

def quotaExceeded : Bool := s.quotaBytes ≠ 0 ∧ s.quotaBytes ≤ s.ddbDiskUsage

def insertResult (rw : ℕ → ResultWrap) : Bindings E × BitVec 32 :=
  let r := htableInsert s.htResult (some (rw s.made))
  ({ s with htResult := r.1, made := s.made + 1 }, r.2)

def refuse (msg : Text) (reads : List Read) : Outcome E :=
  let r := { s with lastError := some msg }.insertResult (.newSynthetic · msg)
  r.1.answer (.i32 r.2) reads

/-- The buffers that messages are made in hold `cap` bytes. -/
def snprintf (cap : ℕ) (msg : Text) : Text := msg.take (cap - 1)

def forbiddenMsg (what : String) : Text :=
  utf8 (what ++ " type forbidden (ATTACH/DETACH/LOAD/SET/TRANSACTION/EXTENSION/EXPORT/COPY)")

def quotaMsg (rest : String) : Text :=
  snprintf 256 (utf8 "Yumi sandbox: database size " ++ number s.ddbDiskUsage ++
    utf8 " bytes reached quota " ++ number s.quotaBytes ++ utf8 (" bytes. " ++ rest))

def overshotMsg (before between after : String) : Text :=
  snprintf 256 (utf8 ("Yumi sandbox: " ++ before) ++ number s.ddbDiskUsage ++ utf8 between ++
    number s.quotaBytes ++ utf8 after)

def noteOvershoot (before between after : String) : Bindings E :=
  if s.quotaExceeded then { s with lastError := some (s.overshotMsg before between after) } else s

def conclude (r : Ran E) (writer : Bool) (reads : List Read) : Outcome E :=
  let s := { s with connection := r.connection }
  let s := if writer then s.noteOvershoot "post-write database size " " bytes exceeds quota " " bytes." else s
  let h := s.insertResult (.new · r.result)
  (h.1, ⟨.i32 h.2, reads, r.effects⟩)

def gated (forbidden writer : Bool) (what : String) (run : Ran E) (reads : List Read) : Outcome E :=
  if forbidden then s.refuse (forbiddenMsg what) reads
  else if writer && s.quotaExceeded then
    s.refuse (s.quotaMsg "Remove data or ask the user to increase the quota.") reads
  else s.conclude run writer reads

end Sandbox

section Queries

def queryText (c : Connection E) (sql : Text) : Ran E :=
  match E.extract sql with
  | .error e => ⟨c, .failed e, []⟩
  | .ok stmts => c.query stmts

def fnQuery (ptr len : BitVec 32) : Outcome E :=
  let r := s.memReadString ptr len
  match classifySql s.connection r.1 with
  | .error e => s.refuse (snprintf 512 (utf8 "Yumi sandbox: " ++ e)) r.2
  | .ok (forbidden, writer) =>
    s.gated forbidden writer "Yumi sandbox: statement" (queryText s.connection r.1) r.2

/-- `rw_destroy`, of the result behind a handle. -/
def rwDestroy (rw : ResultWrap) : Bindings E :=
  { s with destroyed := (List.range rw.chunks.length).map (⟨rw.serial, ·⟩) ++ s.destroyed }

def fnDestroyResult (h : BitVec 32) : Outcome E :=
  match htableGet s.htResult h with
  | none => s.answer .unit []
  | some rw => { s.rwDestroy rw with htResult := htableRemove s.htResult h }.answer .unit []

/-- `GET_RW` hides the results that DuckDB has not made. -/
def getRw (h : BitVec 32) : Option ResultWrap :=
  (htableGet s.htResult h).filter (·.syntheticError.isNone)

def updateRw (h : BitVec 32) (rw : ResultWrap) : Bindings E :=
  { s with htResult := htableUpdate s.htResult h rw }

def fnResultError (h outPtr outCap : BitVec 32) : Outcome E :=
  match htableGet s.htResult h with
  | none => s.answer (.i32 0) []
  | some rw => s.writeText outPtr outCap (rw.syntheticError <|> rw.result.error)

def resultNumber (h : BitVec 32) (number : ResultWrap → ℕ) : Outcome E :=
  match s.getRw h with
  | none => s.answer (.i32 0) []
  | some rw => s.answer (.i32 (BitVec.ofNat 32 (number rw))) []

def fnResultColumnCount (h : BitVec 32) : Outcome E := s.resultNumber h (·.result.columns.length)

def fnResultRowsChanged (h : BitVec 32) : Outcome E := s.resultNumber h (·.result.rowsChanged)

def fnResultChunkCount (h : BitVec 32) : Outcome E := s.resultNumber h (·.chunks.length)

def fnResultStatementType (h : BitVec 32) : Outcome E := s.resultNumber h (·.result.type.ctorIdx)

def fnResultColumnType (h col : BitVec 32) : Outcome E :=
  s.resultNumber h fun rw => ((rw.result.columns[col.toNat]?.map Prod.snd).getD .invalid).ctorIdx

def fnResultRowCount (h : BitVec 32) : Outcome E :=
  match s.getRw h with
  | none => s.answer (.i32 0) []
  | some rw => (s.updateRw h rw.materializeAll).answer (.i32 (BitVec.ofNat 32 rw.materializeAll.totalRows)) []

def fnResultColumnName (h col outPtr outCap : BitVec 32) : Outcome E :=
  match s.getRw h with
  | none => s.answer (.i32 0) []
  | some rw => s.writeText outPtr outCap (rw.result.columns[col.toNat]?.map Prod.fst)

end Queries

section Prepared

def fnPrepare (ptr len : BitVec 32) : Outcome E :=
  let r := s.memReadString ptr len
  let stmt := E.prepareText s.connection.db s.connection.named r.1
  let h := htableInsert s.htPrepared (some ⟨stmt, []⟩)
  { s with htPrepared := h.1 }.answer (.i32 h.2) r.2

def fnDestroyPrepare (h : BitVec 32) : Outcome E :=
  match htableGet s.htPrepared h with
  | none => s.answer .unit []
  | some _ => { s with htPrepared := htableRemove s.htPrepared h }.answer .unit []

def fnPrepareError (h outPtr outCap : BitVec 32) : Outcome E :=
  match htableGet s.htPrepared h with
  | none => s.answer (.i32 0) []
  | some p => s.writeText outPtr outCap (p.error?)

def fnNparams (h : BitVec 32) : Outcome E :=
  match htableGet s.htPrepared h with
  | none => s.answer (.i32 0) []
  | some p => s.answer (.i32 (BitVec.ofNat 32 ((p.stmt.toOption.map E.nparams).getD 0))) []

def fnParamType (h idx : BitVec 32) : Outcome E :=
  match htableGet s.htPrepared h with
  | none => s.answer (.i32 0) []
  | some p =>
    s.answer (.i32 (BitVec.ofNat 32 ((p.stmt.toOption.map (E.paramType · idx.toNat)).getD .invalid).ctorIdx)) []

def fnClearBindings (h : BitVec 32) : Outcome E :=
  match htableGet s.htPrepared h with
  | none => s.answer (.i32 1) []
  | some p =>
    match p.stmt with
    | .error _ => s.answer (.i32 1) []
    | .ok _ => { s with htPrepared := htableUpdate s.htPrepared h { p with bound := [] } }.answer (.i32 0) []

/-- The `duckdb_bind_*` functions. -/
def bindValue (h idx : BitVec 32) (p : Prepared E) (v : Value) (reads : List Read) : Outcome E :=
  match p.stmt with
  | .error _ => s.answer (.i32 1) reads
  | .ok stmt =>
    if E.bind stmt idx.toNat v then
      { s with htPrepared := htableUpdate s.htPrepared h { p with bound := (idx.toNat, v) :: p.bound } }.answer
        (.i32 0) reads
    else s.answer (.i32 1) reads

/-- `ddb_bind_boolean` to `ddb_bind_timestamp`, but for text and blobs -/
def fnBind (h idx : BitVec 32) (arg : Scalar) : Outcome E :=
  match htableGet s.htPrepared h with
  | none => s.answer (.i32 1) []
  | some p => s.bindValue h idx p arg.value []

def fnBindVarchar (h idx ptr len : BitVec 32) : Outcome E :=
  match htableGet s.htPrepared h with
  | none => s.answer (.i32 1) []
  | some p =>
    let r := s.memReadCstr ptr len
    s.bindValue h idx p (.varchar (r.1.take host len.toNat)) (r.2 ++ [.data r.1 len.toNat])

def fnBindBlob (h idx ptr len : BitVec 32) : Outcome E :=
  match htableGet s.htPrepared h with
  | none => s.answer (.i32 1) []
  | some p =>
    match s.guestBlob ptr len with
    | none => s.answer (.i32 1) []
    | some data => s.bindValue h idx p (.blob data) [.guest ptr.toNat len.toNat]

def fnExecutePrepared (h : BitVec 32) : Outcome E :=
  match htableGet s.htPrepared h with
  | none => s.answer (.i32 0) []
  | some p =>
    s.gated (isForbiddenStmt (p.type)) (isWriterStmt (p.type))
      "Yumi sandbox: prepared statement" (p.run s.connection) []

end Prepared

section Appender

def updateAppender (h : BitVec 32) (ap : Appender E) : Bindings E :=
  { s with htAppender := htableUpdate s.htAppender h ap }

def appended (h : BitVec 32) (r : Connection E × Appender E × BitVec 32 × List Effect) : Outcome E :=
  (({ s with connection := r.1 }).updateAppender h r.2.1, ⟨.i32 r.2.2.1, [], r.2.2.2⟩)

def memReadSchema (ptr len : BitVec 32) : Option Text × List Read :=
  if 0 < len then (s.memReadString ptr len).map some id else (none, [])

def fnAppenderCreate (schemaPtr schemaLen tablePtr tableLen : BitVec 32) : Outcome E :=
  if s.quotaExceeded then
    { s with lastError := some (s.quotaMsg "Cannot create appender. Remove data or raise the quota.") }.answer
      (.i32 0) []
  else
    let schema := s.memReadSchema schemaPtr schemaLen
    let table := s.memReadString tablePtr tableLen
    let h := htableInsert s.htAppender (some ⟨E.openTable s.connection.db schema.1 table.1, [], [], none⟩)
    { s with htAppender := h.1 }.answer (.i32 h.2) (schema.2 ++ table.2)

def fnAppenderDestroy (h : BitVec 32) : Outcome E :=
  match htableGet s.htAppender h with
  | none => s.answer .unit []
  | some ap =>
    let r := ap.close s.connection
    ({ s with connection := r.1, htAppender := htableRemove s.htAppender h }, ⟨.unit, [], r.2.2.2⟩)

def fnAppenderError (h outPtr outCap : BitVec 32) : Outcome E :=
  match htableGet s.htAppender h with
  | none => s.answer (.i32 0) []
  | some ap => s.writeText outPtr outCap (ap.error?)

def fnAppenderFlush (h : BitVec 32) : Outcome E :=
  match htableGet s.htAppender h with
  | none => s.answer (.i32 1) []
  | some ap =>
    if s.quotaExceeded then
      { s with
        lastError := some (snprintf 256 (utf8 "Yumi sandbox: quota " ++ number s.quotaBytes ++
          utf8 " bytes reached (used " ++ number s.ddbDiskUsage ++
          utf8 "). Flush rejected — remove data or raise the quota.")) }.answer (.i32 1) []
    else
      let r := s.appended h (ap.flush s.connection)
      (r.1.noteOvershoot "appender flush overshot quota (used " ", quota " ").", r.2)

def fnAppenderClose (h : BitVec 32) : Outcome E :=
  match htableGet s.htAppender h with
  | none => s.answer (.i32 1) []
  | some ap =>
    let r := s.appended h (ap.close s.connection)
    (r.1.noteOvershoot "appender close overshot quota (used " ", quota " ").", r.2)

def fnAppenderBeginRow (h : BitVec 32) : Outcome E :=
  match htableGet s.htAppender h with
  | none => s.answer (.i32 1) []
  | some _ => s.answer (.i32 0) []

def fnAppenderEndRow (h : BitVec 32) : Outcome E :=
  match htableGet s.htAppender h with
  | none => s.answer (.i32 1) []
  | some ap => s.appended h (ap.endRow s.connection)

def appendValue (h : BitVec 32) (ap : Appender E) (v : Value) (reads : List Read) : Outcome E :=
  let r := ap.append v
  (s.updateAppender h r.1).answer (.i32 r.2) reads

/-- `ddb_append_boolean` to `ddb_append_timestamp`, but for text and blobs -/
def fnAppend (h : BitVec 32) (arg : Scalar) : Outcome E :=
  match htableGet s.htAppender h with
  | none => s.answer (.i32 1) []
  | some ap => s.appendValue h ap arg.value []

def fnAppendVarchar (h ptr len : BitVec 32) : Outcome E :=
  match htableGet s.htAppender h with
  | none => s.answer (.i32 1) []
  | some ap =>
    let r := s.memReadCstr ptr len
    s.appendValue h ap (.varchar (r.1.take host len.toNat)) (r.2 ++ [.data r.1 len.toNat])

def fnAppendBlob (h ptr len : BitVec 32) : Outcome E :=
  match htableGet s.htAppender h with
  | none => s.answer (.i32 1) []
  | some ap =>
    match s.guestBlob ptr len with
    | none => s.answer (.i32 1) []
    | some data => s.appendValue h ap (.blob data) [.guest ptr.toNat len.toNat]

end Appender

section Descriptions

def fnTableDescCreate (schemaPtr schemaLen tablePtr tableLen : BitVec 32) : Outcome E :=
  let schema := s.memReadSchema schemaPtr schemaLen
  let table := s.memReadString tablePtr tableLen
  let h := htableInsert s.htTableDesc (some (E.describe s.connection.db schema.1 table.1))
  { s with htTableDesc := h.1 }.answer (.i32 h.2) (schema.2 ++ table.2)

def fnTableDescDestroy (h : BitVec 32) : Outcome E :=
  match htableGet s.htTableDesc h with
  | none => s.answer .unit []
  | some _ => { s with htTableDesc := htableRemove s.htTableDesc h }.answer .unit []

def fnTableDescError (h outPtr outCap : BitVec 32) : Outcome E :=
  match htableGet s.htTableDesc h with
  | none => s.answer (.i32 0) []
  | some desc => s.writeText outPtr outCap (errorOf desc)

def columnOf (desc : Except Text (List (Text × Bool))) (col : BitVec 32) : Option (Text × Bool) :=
  desc.toOption.bind (·[col.toNat]?)

def fnColumnHasDefault (h col : BitVec 32) : Outcome E :=
  match (htableGet s.htTableDesc h).bind (columnOf · col) with
  | none => s.answer (.i32 (-1)) []
  | some column => s.answer (.i32 (if column.2 then 1 else 0)) []

def fnTableDescColumnName (h col outPtr outCap : BitVec 32) : Outcome E :=
  match htableGet s.htTableDesc h with
  | none => s.answer (.i32 0) []
  | some desc => s.writeText outPtr outCap ((columnOf desc col).map Prod.fst)

end Descriptions

section Extracted

def fnExtractStatements (ptr len : BitVec 32) : Outcome E :=
  let r := s.memReadString ptr len
  let h := htableInsert s.htExtracted (some (E.extract r.1))
  { s with htExtracted := h.1 }.answer (.i32 h.2) r.2

def fnDestroyExtracted (h : BitVec 32) : Outcome E :=
  match htableGet s.htExtracted h with
  | none => s.answer .unit []
  | some _ => { s with htExtracted := htableRemove s.htExtracted h }.answer .unit []

def fnExtractStatementsError (h outPtr outCap : BitVec 32) : Outcome E :=
  match htableGet s.htExtracted h with
  | none => s.answer (.i32 0) []
  | some ext => s.writeText outPtr outCap (errorOf ext)

def fnPrepareExtracted (h index : BitVec 32) : Outcome E :=
  match (htableGet s.htExtracted h).bind fun ext => ext.toOption.bind (·[index.toNat]?) with
  | none => s.answer (.i32 0) []
  | some stmt =>
    if s.connection.Prepares stmt then
      let r := htableInsert s.htPrepared (some ⟨.ok stmt, []⟩)
      { s with htPrepared := r.1 }.answer (.i32 r.2) []
    else s.answer (.i32 0) []

end Extracted

section Telemetry

def fnLastError (outPtr outCap : BitVec 32) : Outcome E :=
  let r := s.memWriteCstr outPtr outCap (some (s.lastError.getD []))
  (if 0 < outCap ∧ outPtr ≠ 0 then { r.1 with lastError := none } else r.1).answer (.i32 r.2) []

def fnDbSize : Outcome E := s.answer (.i64 (BitVec.ofNat 64 s.ddbDiskUsage)) []

def fnDbQuota : Outcome E := s.answer (.i64 (BitVec.ofNat 64 s.quotaBytes)) []

end Telemetry

end Bindings

end YumiBrowser.Duckdb
