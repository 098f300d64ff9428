import YumiBrowser.Registrar.Calls

namespace YumiBrowser.Group

open Wire Keyed Fallible

/-- Read `n` rows and insert each as it comes; what is left of the bytes. -/
def installManyDb (r : Reader α) (ins : Tables → α → Option Tables) :
    ℕ → List Byte → Db (List Byte)
  | 0, bytes => return bytes
  | n + 1, bytes =>
    match r.run bytes with
    | none => throw .serialization
    | some (a, rest) => do
      statement fun s => ins s.tables a
      installManyDb r ins n rest

def installDb (r : Reader α) (ins : Tables → α → Option Tables) (bytes : List Byte) :
    Db (List Byte) :=
  match readU32.run bytes with
  | none => throw .serialization
  | some (n, rest) => installManyDb r ins n.toNat rest

-- The six `DELETE`s are not looked at.
def clearTables : Db PUnit := do
  let _ ← execute fun s => some { s.tables with peers := Table.empty }
  let _ ← execute fun s => some { s.tables with roles := Table.empty }
  let _ ← execute fun s => some { s.tables with webapps := Table.empty }
  let _ ← execute fun s => some { s.tables with servers := Table.empty }
  let _ ← execute fun s => some { s.tables with epochs := Table.empty }
  let _ ← execute fun s => some { s.tables with auditLog := Table.empty }

def installTables (ver : ℕ) (bytes : List Byte) : Db PUnit := do
  let bytes ← installDb dePeer
    (fun t a => (t.peers.insert? a).map fun peers => { t with peers }) bytes
  let bytes ← installDb (deRole ver)
    (fun t a => (t.roles.insert? a).map fun roles => { t with roles }) bytes
  let bytes ← installDb (deWebapp ver)
    (fun t a => (t.webapps.insert? a).map fun webapps => { t with webapps }) bytes
  let bytes ← installDb deServer
    (fun t a => (t.servers.insert? a).map fun servers => { t with servers }) bytes
  let bytes ← installDb deServer
    (fun t a => (t.servers.insert? a).map fun servers => { t with servers }) bytes
  let bytes ← installDb deEpoch
    (fun t a => (t.epochs.insert? a).map fun epochs => { t with epochs }) bytes
  let _ ← installDb (deAudit ver)
    (fun t a => some { t with auditLog := t.auditLog.insertIgnore a }) bytes

/-- `gr_deserialize` -/
def deserializeDb (crypto : Crypto) (data : List Byte) : Db PUnit := do
  let s ← get
  match (readPreamble crypto s.reg).run data with
  | .error e => throw e
  | .ok ((ver, header), bytes) =>
    if header.version ≤ s.header.version then pure ()
    else
      transact do
        clearTables
        installTables ver bytes
        setHeader fun _ => header
        headerSave

def readDeltaHead (crypto : Crypto) (reg : Registrar) : Parse (ℕ × Option DeltaState × ℕ) := do
  let magic ← parse (readBytes 4)
  if magic.val ≠ deltaMagic then throw .serialization
  let wireVer ← parse readU32
  if wireVer.toNat > serialVersion then throw .serialization
  let _sinceVersion ← parse readU32
  let state ← if 2 ≤ wireVer.toNat then some <$> readDeltaState crypto reg wireVer.toNat
    else pure none
  let count ← readCount
  return (wireVer.toNat, state, count)

structure Tally where
  new : ℕ
  duplicate : ℕ
  rejected : ℕ
  forks : ℕ
  conflicts : ℕ

def Tally.zero : Tally := ⟨0, 0, 0, 0, 0⟩

def asksLocal (reg : Registrar) (state : Option DeltaState) (e : AuditEntry) : Bool :=
  (state.bind fun d => deltaPerms d e).isNone && !isOwner reg e.actorId

-- Refused permissions read like those of a peer whose role is gone.
def authorizedDb (state : Option DeltaState) (e : AuditEntry) : Db Bool := do
  let s ← get
  if asksLocal s.reg state e then
    let reg ← query id
    return authorized (reg.getD { s.reg with roles := Table.empty }) state e
  else return authorized s.reg state e

def admissibleDb (crypto : Crypto) (state : Option DeltaState) (e : AuditEntry) : Db Bool := do
  if ¬ intact crypto e then return false
  else
    let seen ← query fun reg => signedByActor crypto reg e
    if seen = some true then authorizedDb state e else return false

def acceptEntry (e : AuditEntry) (m : Tally) : Db Tally := do
  statement fun s => some { s.tables with auditLog := s.tables.auditLog.insertIgnore e }
  let fork ← query fun reg => decide (1 < countPrev reg.auditLog e.prevHash)
  setHeader fun h => { h with
    version := if e.registrarVersion > h.version then e.registrarVersion else h.version
    updatedAt := if e.timestamp.toInt > h.updatedAt.toInt then e.timestamp else h.updatedAt }
  return { m with
    new := m.new + 1
    forks := if fork = some true then m.forks + 1 else m.forks }

def mergeEntryDb (crypto : Crypto) (state : Option DeltaState) (m : Tally) (e : AuditEntry) :
    Db Tally := do
  match ← query fun reg => (reg.auditLog.find? e.entryHash).isSome with
  | none => throw .db
  | some true => return { m with duplicate := m.duplicate + 1 }
  | some false =>
    if ← admissibleDb crypto state e then acceptEntry e m
    else return { m with rejected := m.rejected + 1 }

def mergeEntriesDb (crypto : Crypto) (ver : ℕ) (state : Option DeltaState) :
    ℕ → List Byte → Tally → Db Tally
  | 0, _, m => return m
  | n + 1, bytes, m =>
    match (deAudit ver).run bytes with
    | none => throw .serialization
    | some (e, rest) => do
      let m ← mergeEntryDb crypto state m e
      mergeEntriesDb crypto ver state n rest m

def mergeRowDb (stamp : α → ℤ) (find : Registrar → Option α) (put : Tables → Tables) (a : α)
    (m : Tally) : Db Tally := do
  match ← query find with
  | some (some stored) =>
    if stamp a ≤ stamp stored then return m
    else
      let _ ← execute fun s => some (put s.tables)
      return { m with conflicts := m.conflicts + 1 }
  | _ =>
    let _ ← execute fun s => some (put s.tables)
    return m

def lookupSecret (a : Server) : Db (Option (Option Server)) :=
  if a.contentKemSk = zeroBytes 3168 then query fun reg => reg.servers.find? a.idHash
  else pure none

def mergeServerDb (a : Server) : Db PUnit := do
  let stored ← lookupSecret a
  let row := match stored with
    | some (some l) => { a with contentKemSk := l.contentKemSk }
    | _ => a
  let _ ← execute fun s => some { s.tables with servers := s.tables.servers.upsert row }

def mergeEpochDb (a : Epoch) : Db PUnit := do
  match ← query fun reg => reg.epochs.find? a.epochId with
  | some (some _) => pure ()
  | _ => let _ ← execute fun s => some { s.tables with epochs := s.tables.epochs.upsert a }

def mergePeerDb (m : Tally) (p : Peer) : Db Tally :=
  mergeRowDb Peer.stamp (fun reg => reg.peers.find? p.peerId)
    (fun t => { t with peers := t.peers.upsert p }) p m

def mergeRoleDb (m : Tally) (r : Role) : Db Tally :=
  mergeRowDb Role.stamp (fun reg => reg.roles.find? r.roleId)
    (fun t => { t with roles := t.roles.upsert r }) r m

def mergeWebappDb (w : Webapp) : Db PUnit := do
  let _ ← execute fun s => some { s.tables with webapps := s.tables.webapps.upsert w }

def mergeTablesDb (d : DeltaState) (m : Tally) : Db Tally := do
  let m ← d.peers.foldlM mergePeerDb m
  let m ← d.roles.foldlM mergeRoleDb m
  d.webapps.foldlM (fun _ w => mergeWebappDb w) ⟨⟩
  (d.signaling ++ d.rebroadcast).foldlM (fun _ v => mergeServerDb v) ⟨⟩
  d.epochs.foldlM (fun _ e => mergeEpochDb e) ⟨⟩
  return m

def mergeDeltaDb (crypto : Crypto) (ver : ℕ) (state : Option DeltaState) (count : ℕ)
    (bytes : List Byte) : Db Tally := do
  let m ← mergeEntriesDb crypto ver state count bytes .zero
  match state with
  | some d => mergeTablesDb d m
  | none => return m

def saveMerged (m : Tally) : Db PUnit := if 0 < m.new ∨ 0 < m.conflicts then headerSave else pure ()

def mergeAndSave (crypto : Crypto) (ver : ℕ) (state : Option DeltaState) (count : ℕ)
    (bytes : List Byte) : Db Tally := do
  let m ← mergeDeltaDb crypto ver state count bytes
  saveMerged m
  return m

/-- `gr_apply_delta` -/
def applyDeltaDb (crypto : Crypto) (data : List Byte) (now : I64) : Db PUnit := do
  let s ← get
  if tooLarge s.reg data.length now then throw .sizeExceeded
  else
    match (readDeltaHead crypto s.reg).run data with
    | .error e => throw e
    | .ok ((ver, state, count), bytes) =>
      let m ← transact (mergeAndSave crypto ver state count bytes)
      -- the merge is committed, so this is a transaction of its own
      if 0 < m.new then enforceRetentionDb else pure ()

/-- The public calls that change a registrar. -/
inductive Call
  | peerAdd (peer : Peer) (signer : Identity)
  | peerKick (peerId : PeerId) (reason : Option (List Byte)) (signer : Identity)
  | peerBan (peerId : PeerId) (reason : Option (List Byte)) (signer : Identity)
  | peerLeave (peer : Identity)
  | peerUpdateAddress (ip : List Byte) (port : BitVec 16) (peer : Identity)
  | peerObservedAddress (peerId : PeerId) (ip : List Byte) (port : BitVec 16)
      (observer : Identity)
  | peerTouch (peerId : PeerId)
  | peerSetRole (peerId : PeerId) (roleId : BitVec 32) (signer : Identity)
  | roleAdd (name : List Byte) (permissions : Perms) (rolePk : PublicKey) (signer : Identity)
  | roleRemove (roleId : BitVec 32) (signer : Identity)
  | roleSetPermissions (roleId : BitVec 32) (newPermissions : Perms) (signer : Identity)
  | webappAdd (webapp : Webapp) (signer : Identity)
  | webappRemove (hash : Hash) (signer : Identity)
  | webappUpdatePermData (hash : Hash) (data : List Byte) (signer : Identity)
  | webappUpdateRoleMask (hash : Hash) (mask : List Byte) (signer : Identity)
  | serverAdd (server : Server) (signer : Identity)
  | serverRemove (idHash : Hash) (signer : Identity)
  | retentionSet (policy : Retention) (signer : Identity)
  | epochRotate (newKey : EpochKey) (signer : Identity)
  | inviteCreate (token : Hash) (expiresAt : I64) (inviter : Identity)
  | inviteInvalidate (token : Hash) (admin : Identity)
  | inviteMarkUsed (token : Hash) (peerId : PeerId) (signer : Identity)
  | sign (signer : Identity)
  | deserialize (data : List Byte)
  | applyDelta (data : List Byte)

def Call.run (crypto : Crypto) (clk : Clock) : Call → Db PUnit
  | peerAdd peer signer => Db.peerAdd crypto clk peer signer
  | peerKick peerId reason signer => Db.peerKick crypto clk peerId reason signer
  | peerBan peerId reason signer => Db.peerBan crypto clk peerId reason signer
  | peerLeave peer => Db.peerLeave crypto clk peer
  | peerUpdateAddress ip port peer => Db.peerUpdateAddress crypto clk ip port peer
  | peerObservedAddress peerId ip port observer =>
    Db.peerObservedAddress crypto clk peerId ip port observer
  | peerTouch peerId => Db.peerTouch clk peerId
  | peerSetRole peerId roleId signer => Db.peerSetRole crypto clk peerId roleId signer
  | roleAdd name permissions rolePk signer => Db.roleAdd crypto clk name permissions rolePk signer
  | roleRemove roleId signer => Db.roleRemove crypto clk roleId signer
  | roleSetPermissions roleId newPermissions signer =>
    Db.roleSetPermissions crypto clk roleId newPermissions signer
  | webappAdd webapp signer => Db.webappAdd crypto clk webapp signer
  | webappRemove hash signer => Db.webappRemove crypto clk hash signer
  | webappUpdatePermData hash data signer => Db.webappUpdatePermData crypto clk hash data signer
  | webappUpdateRoleMask hash mask signer => Db.webappUpdateRoleMask crypto clk hash mask signer
  | serverAdd server signer => Db.serverAdd crypto clk server signer
  | serverRemove idHash signer => Db.serverRemove crypto clk idHash signer
  | retentionSet policy signer => Db.retentionSet crypto clk policy signer
  | epochRotate newKey signer => Db.epochRotate crypto clk newKey signer
  | inviteCreate token expiresAt inviter => Db.inviteCreate crypto clk token expiresAt inviter
  | inviteInvalidate token admin => Db.inviteInvalidate crypto clk token admin
  | inviteMarkUsed token peerId signer => Db.inviteMarkUsed crypto clk token peerId signer
  | sign signer => Db.sign crypto clk signer
  | deserialize data => deserializeDb crypto data
  | applyDelta data => applyDeltaDb crypto data clk.ms

end YumiBrowser.Group
