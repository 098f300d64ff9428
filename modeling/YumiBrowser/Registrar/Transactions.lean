import YumiBrowser.Library.Fallible
import YumiBrowser.Registrar.FullSync

namespace YumiBrowser.Group

open Wire Keyed Fallible

structure Invite where
  verificationToken : Hash
  createdAt : I64
  expiresAt : I64
  createdBy : PeerId
  invalidated : Bool
  used : Bool
  usedBy : PeerId

/-- What the database stores for a registrar; `gr_header` has no primary key. -/
structure Tables where
  peers : Table Peer.peerId
  roles : Table Role.roleId
  webapps : Table Webapp.hash
  servers : Table Server.idHash
  epochs : Table Epoch.epochId
  auditLog : AuditLog
  invites : Table Invite.verificationToken
  headers : List Header

/-- What one `gr_header_save` is refused. -/
structure SaveFaults where
  delete : Bool
  bind : Bool
  insert : Bool

/-- What the database refuses during one call: its `BEGIN`, the insert of its log entry, its
`COMMIT`, parts of its header saves one by one, and its other statements one by one. -/
structure Faults where
  beginFails : Bool
  appendFails : Bool
  commitFails : Bool
  saves : List SaveFaults
  stmts : List Bool

def SaveFaults.none : SaveFaults := ⟨false, false, false⟩

def Faults.save (f : Faults) : SaveFaults := f.saves.headD .none

/-- A registrar handle and its connection: the header in memory, the tables as the connection sees
them, and as they were before the transaction that is open. -/
structure Session where
  header : Header
  tables : Tables
  before : Option Tables
  savedHeader : Header
  txnDepth : ℕ
  /-- the values last bound to `ps_header_save` -/
  bound : Option Header
  untrusted : Bool
  deltaAnomaly : Option (ℕ → I64 → DeltaAction)
  faults : Faults

def Session.reg (s : Session) : Registrar where
  header := s.header
  peers := s.tables.peers
  roles := s.tables.roles
  webapps := s.tables.webapps
  servers := s.tables.servers
  epochs := s.tables.epochs
  auditLog := s.tables.auditLog
  untrusted := s.untrusted
  deltaAnomaly := s.deltaAnomaly

def Tables.store (t : Tables) (reg : Registrar) : Tables :=
  { t with
    peers := reg.peers
    roles := reg.roles
    webapps := reg.webapps
    servers := reg.servers
    epochs := reg.epochs
    auditLog := reg.auditLog }

abbrev Db := EStateM GrError Session

-- A refused `BEGIN` is counted as if it had opened a transaction, and the header is not saved.
def Session.begin (s : Session) : Session :=
  if s.txnDepth = 0 ∧ s.before = none ∧ s.faults.beginFails = false then
    { s with before := some s.tables, savedHeader := s.header, txnDepth := 1 }
  else { s with txnDepth := s.txnDepth + 1 }

-- A refused `COMMIT` undoes the transaction; with none open the database refuses it as well.
def Session.commit (s : Session) : Bool × Session :=
  if s.txnDepth = 0 then (false, s)
  else if 1 < s.txnDepth then (true, { s with txnDepth := s.txnDepth - 1 })
  else
    match s.before with
    | none => (false, { s with txnDepth := 0 })
    | some t =>
      if s.faults.commitFails then (false, { s with tables := t, before := none, txnDepth := 0 })
      else (true, { s with before := none, txnDepth := 0 })

def Session.rollback (s : Session) : Session :=
  if s.txnDepth = 0 then s
  else
    { s with
      tables := s.before.getD s.tables
      before := none
      header := s.savedHeader
      txnDepth := 0 }

def txnBegin : Db PUnit := modify Session.begin
def txnCommit : Db Bool := modifyGet Session.commit
def txnRollback : Db PUnit := modify Session.rollback

@[simp] theorem run_txnBegin : txnBegin.run s = .ok ⟨⟩ s.begin := rfl
@[simp] theorem run_txnCommit : txnCommit.run s = .ok s.commit.1 s.commit.2 := rfl
@[simp] theorem run_txnRollback : txnRollback.run s = .ok ⟨⟩ s.rollback := rfl

def transact (body : Db α) : Db α := do
  txnBegin
  tryCatch
    (do
      let a ← body
      if ← txnCommit then pure a else throw .db)
    fun e => do
      txnRollback
      throw e

def Session.asked (s : Session) : Session :=
  { s with faults := { s.faults with stmts := s.faults.stmts.tail } }

def answer : Db Bool := modifyGet fun s => (!s.faults.stmts.headD false, s.asked)

theorem run_answer : answer.run s = .ok (!s.faults.stmts.headD false) s.asked := rfl

def query (f : Registrar → α) : Db (Option α) := do
  let taken ← answer
  let s ← get
  return if taken then some (f s.reg) else none

def execute (edit : Session → Option Tables) : Db Bool := do
  let taken ← answer
  let s ← get
  match taken, edit s with
  | true, some tables =>
    modify fun s => { s with tables }
    return true
  | _, _ => return false

def statement (edit : Session → Option Tables) : Db PUnit := do
  if ← execute edit then pure () else throw .db

def update (edit : Registrar → Registrar) : Db PUnit :=
  statement fun s => some (s.tables.store (edit s.reg))

def insert (edit : Registrar → Option Registrar) : Db PUnit :=
  statement fun s => (edit s.reg).map s.tables.store

def setHeader (edit : Header → Header) : Db PUnit :=
  modify fun s => { s with header := edit s.header }

def Session.saved (s : Session) : Session :=
  { s with faults := { s.faults with saves := s.faults.saves.tail } }

def takeSave : Db SaveFaults := modifyGet fun s => (s.faults.save, s.saved)

def setHeaders (edit : Session → List Header) : Db PUnit :=
  modify fun s => { s with tables := { s.tables with headers := edit s } }

def bindHeader (ok : Bool) : Db PUnit :=
  modify fun s => { s with bound := if ok then some s.header else none }

@[simp] theorem run_setHeader (edit : Header → Header) :
    (setHeader edit).run s = .ok ⟨⟩ { s with header := edit s.header } := rfl

@[simp] theorem run_takeSave : takeSave.run s = .ok s.faults.save s.saved := rfl

@[simp] theorem run_setHeaders (edit : Session → List Header) :
    (setHeaders edit).run s = .ok ⟨⟩ { s with tables := { s.tables with headers := edit s } } := rfl

@[simp] theorem run_bindHeader (ok : Bool) :
    (bindHeader ok).run s = .ok ⟨⟩ { s with bound := if ok then some s.header else none } := rfl

/-- `gr_header_save`, once the statements are prepared. -/
def headerSave : Db PUnit := do
  txnBegin
  let f ← takeSave
  if f.delete then
    txnRollback
    -- the prepared `INSERT` runs all the same, with the values bound last
    if ¬ f.insert then setHeaders fun s => s.tables.headers ++ s.bound.toList
    throw .db
  else
    setHeaders fun _ => []
    bindHeader (!f.bind)
    if f.bind then throw .db
    else if f.insert then
      txnRollback
      throw .db
    else
      setHeaders fun s => [s.header]
      if ← txnCommit then pure ()
      else
        txnRollback
        throw .db

/-- `gr_audit_enforce_retention_internal`, whose result is not looked at. -/
def enforceRetentionDb : Db PUnit := do
  match ← query fun reg => reg.auditLog.rows.length with
  | some count =>
    if auditMaxRows < count then
      let _ ← execute fun s => some { s.tables with
        auditLog := auditPrune s.tables.auditLog (count - auditMaxRows) }
      pure ()
    else pure ()
  | none => pure ()

-- A query for the last hash that is refused reads like an empty log.
def appendDb (crypto : Crypto) (change : ChangeType) (actor : Identity) (target : Option PeerId)
    (detail : List Byte) (ns : I64) : Db PUnit := do
  let seen ← query id
  let s ← get
  let entry := newEntry crypto (seen.getD { s.reg with auditLog := Table.empty }) change actor
    target detail ns
  setHeader fun h => { h with version := entry.registrarVersion }
  if s.faults.appendFails then throw .db
  else
    modify fun s => { s with
      tables := { s.tables with auditLog := s.tables.auditLog.insertIgnore entry } }
    setHeader fun h => { h with updatedAt := entry.timestamp }
    headerSave
    enforceRetentionDb

end YumiBrowser.Group
