import YumiBrowser.Duckdb.Cells
import YumiBrowser.Library.System

namespace YumiBrowser.Duckdb

open Wire Handles Transition
open Bindings (utf8)

inductive Call
  | query (ptr len : BitVec 32)
  | destroyResult (h : BitVec 32)
  | fetchChunk (h : BitVec 32)
  | resultGetChunk (h ci : BitVec 32)
  | resultChunkCount (h : BitVec 32)
  | destroyChunk (h : BitVec 32)
  | chunkSize (h : BitVec 32)
  | chunkColumnCount (h : BitVec 32)
  | chunkColumnType (h col : BitVec 32)
  | chunkIsNull (h col row : BitVec 32)
  | chunkGet (a : Accessor) (h col row : BitVec 32)
  | chunkGetString (h col row outPtr outCap : BitVec 32)
  | chunkGetHugeint (h col row outPtr : BitVec 32)
  | chunkCopyColumn (h col outPtr outCap : BitVec 32)
  | chunkCopyValidity (h col outPtr outCap : BitVec 32)
  | resultError (h outPtr outCap : BitVec 32)
  | resultColumnCount (h : BitVec 32)
  | resultRowCount (h : BitVec 32)
  | resultRowsChanged (h : BitVec 32)
  | resultColumnName (h col outPtr outCap : BitVec 32)
  | resultColumnType (h col : BitVec 32)
  | resultStatementType (h : BitVec 32)
  | valueIsNull (h col row : BitVec 32)
  | value (a : Accessor) (h col row : BitVec 32)
  | valueString (h col row outPtr outCap : BitVec 32)
  | valueHugeint (h col row outPtr : BitVec 32)
  | prepare (ptr len : BitVec 32)
  | destroyPrepare (h : BitVec 32)
  | prepareError (h outPtr outCap : BitVec 32)
  | nparams (h : BitVec 32)
  | paramType (h idx : BitVec 32)
  | clearBindings (h : BitVec 32)
  | bind (h idx : BitVec 32) (arg : Scalar)
  | bindVarchar (h idx ptr len : BitVec 32)
  | bindBlob (h idx ptr len : BitVec 32)
  | executePrepared (h : BitVec 32)
  | appenderCreate (schemaPtr schemaLen tablePtr tableLen : BitVec 32)
  | appenderDestroy (h : BitVec 32)
  | appenderError (h outPtr outCap : BitVec 32)
  | appenderFlush (h : BitVec 32)
  | appenderClose (h : BitVec 32)
  | appenderBeginRow (h : BitVec 32)
  | appenderEndRow (h : BitVec 32)
  | append (h : BitVec 32) (arg : Scalar)
  | appendVarchar (h ptr len : BitVec 32)
  | appendBlob (h ptr len : BitVec 32)
  | tableDescCreate (schemaPtr schemaLen tablePtr tableLen : BitVec 32)
  | tableDescDestroy (h : BitVec 32)
  | tableDescError (h outPtr outCap : BitVec 32)
  | columnHasDefault (h col : BitVec 32)
  | tableDescColumnName (h col outPtr outCap : BitVec 32)
  | extractStatements (ptr len : BitVec 32)
  | destroyExtracted (h : BitVec 32)
  | extractStatementsError (h outPtr outCap : BitVec 32)
  | prepareExtracted (h index : BitVec 32)
  | lastError (outPtr outCap : BitVec 32)
  | dbSize
  | dbQuota

/-- What happens to the bindings: a call, a write of the guest to its own memory, or a new quota. -/
inductive Event
  | call (call : Call)
  | memory (memory : Option Text)
  | setQuota (quotaBytes : ℕ)

namespace Bindings

variable {E : Engine} (host : ℕ → Byte) (s : Bindings E)

/-- `DUCKDB_BINDINGS` -/
def call : Call → Outcome E
  | .query ptr len => s.fnQuery ptr len
  | .destroyResult h => s.fnDestroyResult h
  | .fetchChunk h => s.fnFetchChunk h
  | .resultGetChunk h ci => s.fnResultGetChunk h ci
  | .resultChunkCount h => s.fnResultChunkCount h
  | .destroyChunk h => s.fnDestroyChunk h
  | .chunkSize h => s.fnChunkSize host h
  | .chunkColumnCount h => s.fnChunkColumnCount host h
  | .chunkColumnType h col => s.fnChunkColumnType host h col
  | .chunkIsNull h col row => s.fnChunkIsNull host h col row
  | .chunkGet a h col row => s.fnChunkGet host a h col row
  | .chunkGetString h col row outPtr outCap => s.fnChunkGetString host h col row outPtr outCap
  | .chunkGetHugeint h col row outPtr => s.fnChunkGetHugeint host h col row outPtr
  | .chunkCopyColumn h col outPtr outCap => s.fnChunkCopyColumn host h col outPtr outCap
  | .chunkCopyValidity h col outPtr outCap => s.fnChunkCopyValidity host h col outPtr outCap
  | .resultError h outPtr outCap => s.fnResultError h outPtr outCap
  | .resultColumnCount h => s.fnResultColumnCount h
  | .resultRowCount h => s.fnResultRowCount h
  | .resultRowsChanged h => s.fnResultRowsChanged h
  | .resultColumnName h col outPtr outCap => s.fnResultColumnName h col outPtr outCap
  | .resultColumnType h col => s.fnResultColumnType h col
  | .resultStatementType h => s.fnResultStatementType h
  | .valueIsNull h col row => s.fnValueIsNull host h col row
  | .value a h col row => s.fnValue host a h col row
  | .valueString h col row outPtr outCap => s.fnValueString host h col row outPtr outCap
  | .valueHugeint h col row outPtr => s.fnValueHugeint host h col row outPtr
  | .prepare ptr len => s.fnPrepare ptr len
  | .destroyPrepare h => s.fnDestroyPrepare h
  | .prepareError h outPtr outCap => s.fnPrepareError h outPtr outCap
  | .nparams h => s.fnNparams h
  | .paramType h idx => s.fnParamType h idx
  | .clearBindings h => s.fnClearBindings h
  | .bind h idx arg => s.fnBind h idx arg
  | .bindVarchar h idx ptr len => s.fnBindVarchar host h idx ptr len
  | .bindBlob h idx ptr len => s.fnBindBlob h idx ptr len
  | .executePrepared h => s.fnExecutePrepared h
  | .appenderCreate schemaPtr schemaLen tablePtr tableLen =>
    s.fnAppenderCreate schemaPtr schemaLen tablePtr tableLen
  | .appenderDestroy h => s.fnAppenderDestroy h
  | .appenderError h outPtr outCap => s.fnAppenderError h outPtr outCap
  | .appenderFlush h => s.fnAppenderFlush h
  | .appenderClose h => s.fnAppenderClose h
  | .appenderBeginRow h => s.fnAppenderBeginRow h
  | .appenderEndRow h => s.fnAppenderEndRow h
  | .append h arg => s.fnAppend h arg
  | .appendVarchar h ptr len => s.fnAppendVarchar host h ptr len
  | .appendBlob h ptr len => s.fnAppendBlob h ptr len
  | .tableDescCreate schemaPtr schemaLen tablePtr tableLen =>
    s.fnTableDescCreate schemaPtr schemaLen tablePtr tableLen
  | .tableDescDestroy h => s.fnTableDescDestroy h
  | .tableDescError h outPtr outCap => s.fnTableDescError h outPtr outCap
  | .columnHasDefault h col => s.fnColumnHasDefault h col
  | .tableDescColumnName h col outPtr outCap => s.fnTableDescColumnName h col outPtr outCap
  | .extractStatements ptr len => s.fnExtractStatements ptr len
  | .destroyExtracted h => s.fnDestroyExtracted h
  | .extractStatementsError h outPtr outCap => s.fnExtractStatementsError h outPtr outCap
  | .prepareExtracted h index => s.fnPrepareExtracted h index
  | .lastError outPtr outCap => s.fnLastError outPtr outCap
  | .dbSize => s.fnDbSize
  | .dbQuota => s.fnDbQuota

def next : Event → Outcome E
  | .call call => s.call host call
  | .memory memory => { s with memory }.answer .unit []
  | .setQuota quotaBytes => { s with quotaBytes }.answer .unit []

/-- A property of every step of a run. -/
def Throughout (P : Bindings E → Event → Prop) : Bindings E → List Event → Prop
  | _, [] => True
  | s, event :: events => P s event ∧ Throughout P (s.next host event).1 events

theorem throughout_congr {P Q : Bindings E → Event → Prop} (hPQ : ∀ s event, P s event ↔ Q s event)
    {events : List Event} : Throughout host P s events ↔ Throughout host Q s events := by
  induction events generalizing s with
  | nil => rfl
  | cons event events ih => exact and_congr (hPQ s event) (ih _)

end Bindings

def bindings (E : Engine) (host : ℕ → Byte) : System (Bindings E) Event where
  init s := ∃ connection dbPath, s = { Bindings.init connection with dbPath }
  step s event t := t = (s.next host event).1

section Sample

/-! A database with room for one table, and the few statements that are about it. -/

inductive TableSql
  | createTable
  | copyTable
  | insertRow
  | deleteRows
  | selectRows

structure TableDb where
  created : Bool
  rows : ℕ

def rowChunk : Chunk where
  size := 1
  columns := [⟨.integer, [[1, 0, 0, 0]], none⟩]
  small := by decide
  filled := by simp
  flat := by simp [ddbPrimitiveSize]
  masked := by simp

def TableSql.run (db : TableDb) : TableSql → TableDb × QueryResult
  | .createTable => ({ db with created := true }, .empty .create)
  | .copyTable => (db, .empty .copy)
  | .insertRow => ({ db with rows := db.rows + 1 }, .empty .insert)
  | .deleteRows => ({ db with rows := 0 }, .empty .delete)
  | .selectRows => (db, { QueryResult.empty .select with chunks := [rowChunk] })

def TableSql.stmt : TableSql → Plain TableSql
  | .createTable => ⟨.create, .createTable⟩
  | .copyTable => ⟨.copy, .copyTable⟩
  | .insertRow => ⟨.insert, .insertRow⟩
  | .deleteRows => ⟨.delete, .deleteRows⟩
  | .selectRows => ⟨.select, .selectRows⟩

def Statement.needsTable : Statement TableSql → Bool
  | .plain ⟨_, .createTable⟩ => false
  | .prepare _ ⟨_, .createTable⟩ => false
  | .execute .. => false
  | _ => true

def tableTexts : List (Text × List (Statement TableSql)) :=
  [(utf8 "CREATE TABLE t(a INT)", [.plain TableSql.createTable.stmt]),
    (utf8 "CREATE TABLE t(a INT); COPY t TO 'f'", [.plain TableSql.createTable.stmt, .plain TableSql.copyTable.stmt]),
    (utf8 "INSERT INTO t VALUES (1)", [.plain TableSql.insertRow.stmt]),
    (utf8 "DELETE FROM t", [.plain TableSql.deleteRows.stmt]),
    (utf8 "PREPARE p AS INSERT INTO t VALUES (1)", [.prepare (utf8 "p") TableSql.insertRow.stmt]),
    (utf8 "EXECUTE p", [.execute (utf8 "p") []]),
    (utf8 "SELECT a FROM t", [.plain TableSql.selectRows.stmt])]

def tableEngine : Engine where
  Db := TableDb
  Body := TableSql
  Table := Unit
  extract text := (tableTexts.lookup text).elim (.error []) .ok
  prepare db _ stmt := if stmt.needsTable && !db.created then .error [] else .ok ()
  prepareText _ _ _ := .error []
  nparams _ := 0
  paramType _ _ := .invalid
  bind _ _ _ := false
  run db q _ := q.body.run db
  fileSize db path := if path = utf8 "db" then some (4096 * db.rows) else none
  openTable db _ _ := if db.created then .ok () else .error []
  append _ row _ := row = []
  endRow _ row := row ≠ []
  full _ := false
  insert db _ rows := .ok { db with rows := db.rows + rows.length }
  describe _ _ _ := .error []

namespace Bindings

def tableBindings (db : TableDb) (text : String) : Bindings tableEngine :=
  { Bindings.init ⟨db, []⟩ with memory := some (utf8 text), dbPath := some (utf8 "db") }

end Bindings

end Sample

end YumiBrowser.Duckdb
