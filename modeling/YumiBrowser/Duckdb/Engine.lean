import Mathlib.Data.List.Basic
import YumiBrowser.Library.ByteCodec

namespace YumiBrowser.Duckdb

open Wire

abbrev Text := List Byte

/-- `duckdb_statement_type`. -/
inductive StatementType
  | invalid | select | insert | update | explain | delete | prepare | create | execute | alter
  | transaction | copy | analyze | variableSet | createFunc | drop | exportDb | pragma | vacuum | call
  | set | load | relation | extension | logicalPlan | attach | detach | multi
  deriving DecidableEq

/-- `duckdb_type`. -/
inductive DuckdbType
  | invalid | boolean | tinyint | smallint | integer | bigint | utinyint | usmallint | uinteger | ubigint
  | float | double | timestamp | date | time | interval | hugeint | varchar | blob | decimal
  | timestampS | timestampMs | timestampNs | enum | list | struct | map | uuid | union | bit
  | timeTz | timestampTz | uhugeint | array
  deriving DecidableEq

inductive CType
  | bool | int8 | int16 | int32 | int64 | uint8 | uint16 | uint32 | uint64 | float | double
  | date | time | timestamp | hugeint | string
  deriving DecidableEq

def DuckdbType.stores : DuckdbType → Option CType
  | .boolean => some .bool
  | .tinyint => some .int8
  | .smallint => some .int16
  | .integer => some .int32
  | .bigint => some .int64
  | .utinyint => some .uint8
  | .usmallint => some .uint16
  | .uinteger => some .uint32
  | .ubigint => some .uint64
  | .float => some .float
  | .double => some .double
  | .date => some .date
  | .time => some .time
  | .timestamp => some .timestamp
  | .hugeint | .uuid => some .hugeint
  | .varchar | .blob | .bit => some .string
  | _ => none

def ddbPrimitiveSize : DuckdbType → ℕ
  | .boolean | .tinyint | .utinyint => 1
  | .smallint | .usmallint => 2
  | .integer | .uinteger | .float | .date => 4
  | .bigint | .ubigint | .double | .time | .timestamp | .timestampS | .timestampMs | .timestampNs
  | .timestampTz | .timeTz => 8
  | .hugeint | .uhugeint | .uuid | .interval => 16
  | _ => 0

structure Vector where
  type : DuckdbType
  cells : List Text
  validity : Option (List (BitVec 64))

def Vector.maskWords (rows : ℕ) : ℕ := (rows + 63) / 64

/-- `STANDARD_VECTOR_SIZE` -/
def vectorSize : ℕ := 2048

structure Chunk where
  size : ℕ
  columns : List Vector
  small : size ≤ vectorSize
  filled : ∀ v ∈ columns, v.cells.length = size
  flat : ∀ v ∈ columns, ddbPrimitiveSize v.type ≠ 0 → ∀ cell ∈ v.cells, cell.length = ddbPrimitiveSize v.type
  masked : ∀ v ∈ columns, ∀ mask, v.validity = some mask → mask.length = Vector.maskWords size

/-- `duckdb_result`, with the chunks that `duckdb_fetch_chunk` has still to give. -/
structure QueryResult where
  type : StatementType
  columns : List (Text × DuckdbType)
  rowsChanged : ℕ
  error : Option Text
  chunks : List Chunk

def QueryResult.empty (type : StatementType) : QueryResult := ⟨type, [], 0, none, []⟩

def QueryResult.failed (error : Text) : QueryResult := ⟨.invalid, [], 0, some error, []⟩

inductive Value
  | null
  | boolean (v : Bool)
  | int8 (v : BitVec 8)
  | int16 (v : BitVec 16)
  | int32 (v : BitVec 32)
  | int64 (v : BitVec 64)
  | uint8 (v : BitVec 8)
  | uint16 (v : BitVec 16)
  | uint32 (v : BitVec 32)
  | uint64 (v : BitVec 64)
  | float (bits : BitVec 32)
  | double (bits : BitVec 64)
  | date (days : BitVec 32)
  | time (micros : BitVec 64)
  | timestamp (micros : BitVec 64)
  | varchar (text : Text)
  | blob (data : Text)
  deriving DecidableEq

structure Plain (β : Type) where
  type : StatementType
  body : β

inductive Statement (β : Type)
  | plain (stmt : Plain β)
  | prepare (name : Text) (stmt : Plain β)
  | execute (name : Text) (args : List (ℕ × Value))

def Statement.type {β : Type} : Statement β → StatementType
  | .plain stmt => stmt.type
  | .prepare .. => .prepare
  | .execute .. => .execute

abbrev Named (β : Type) := List (Text × Plain β)

structure Engine where
  Db : Type
  Body : Type
  Table : Type
  -- `duckdb_extract_statements`
  extract : Text → Except Text (List (Statement Body))
  -- whether a statement can be prepared
  prepare : Db → Named Body → Statement Body → Except Text Unit
  -- `duckdb_prepare`
  prepareText : Db → Named Body → Text → Except Text (Statement Body)
  nparams : Statement Body → ℕ
  paramType : Statement Body → ℕ → DuckdbType
  bind : Statement Body → ℕ → Value → Bool
  run : Db → Plain Body → List (ℕ × Value) → Db × QueryResult
  fileSize : Db → Text → Option ℕ
  -- `duckdb_appender_create`
  openTable : Db → Option Text → Text → Except Text Table
  append : Table → List Value → Value → Bool
  endRow : Table → List Value → Bool
  -- an appender with this many rows flushes by itself
  full : List (List Value) → Bool
  insert : Db → Table → List (List Value) → Except Text Db
  -- `duckdb_table_description_create`: the columns, and which have a default
  describe : Db → Option Text → Text → Except Text (List (Text × Bool))

inductive Effect
  | ran (type : StatementType)
  | stored (rows : List (List Value))
  deriving DecidableEq

structure Connection (E : Engine) where
  db : E.Db
  named : Named E.Body

structure Ran (E : Engine) where
  connection : Connection E
  result : QueryResult
  effects : List Effect

namespace Connection

variable {E : Engine} (c : Connection E)

def Prepares (stmt : Statement E.Body) : Prop := E.prepare c.db c.named stmt = .ok ()

instance (stmt : Statement E.Body) : Decidable (c.Prepares stmt) :=
  match h : E.prepare c.db c.named stmt with
  | .ok () => .isTrue h
  | .error _ => .isFalse fun h' => nomatch h.symm.trans h'

def perform (stmt : Statement E.Body) (bound : List (ℕ × Value)) : Ran E :=
  match stmt with
  | .plain q =>
    let r := E.run c.db q bound
    ⟨{ c with db := r.1 }, r.2, [.ran q.type]⟩
  | .prepare name q => ⟨{ c with named := (name, q) :: c.named }, .empty .prepare, [.ran .prepare]⟩
  | .execute name args =>
    match c.named.lookup name with
    | none => ⟨c, .failed [], [.ran .execute]⟩
    | some q =>
      let r := E.run c.db q (args ++ bound)
      ⟨{ c with db := r.1 }, r.2, [.ran .execute, .ran q.type]⟩

def execute (stmt : Statement E.Body) (bound : List (ℕ × Value)) : Ran E :=
  match E.prepare c.db c.named stmt with
  | .error e => ⟨c, .failed e, []⟩
  | .ok () => c.perform stmt bound

/-- `duckdb_query`, after the text has been parsed: the statements in order, up to one that fails. -/
def query (c : Connection E) : List (Statement E.Body) → Ran E
  | [] => ⟨c, .empty .invalid, []⟩
  | [stmt] => c.execute stmt []
  | stmt :: rest =>
    let r := c.execute stmt []
    if r.result.error.isSome then r
    else
      let r' := r.connection.query rest
      ⟨r'.connection, r'.result, r.effects ++ r'.effects⟩

def reached (c : Connection E) : List (Statement E.Body) → List (Connection E × Statement E.Body)
  | [] => []
  | stmt :: rest =>
    if c.Prepares stmt then
      let r := c.perform stmt []
      (c, stmt) :: if r.result.error.isSome then [] else r.connection.reached rest
    else []

end Connection

end YumiBrowser.Duckdb
