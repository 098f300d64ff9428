import YumiBrowser.Registrar.Mutators

namespace YumiBrowser.Group

open Wire Keyed

def deltaMagic : List Byte := ascii "GRDT"
def serialVersion : ℕ := 4
def deltaMaxBytes : ℕ := 2 * 1024 * 1024

structure DeltaState where
  header : Header
  peers : List Peer
  roles : List Role
  webapps : List Webapp
  signaling : List Server
  rebroadcast : List Server
  epochs : List Epoch

structure Delta where
  sinceVersion : BitVec 32
  state : Option DeltaState
  entries : List AuditEntry

abbrev Parse := Parser GrError

def parse (r : Reader α) : Parse α := orThrow .serialization r

def readCount : Parse ℕ := do
  let n ← parse readU32
  let rest ← get
  if n.toNat > rest.length then throw .serialization
  return n.toNat

def readCounted (r : Reader α) : Parse (List α) := do
  let n ← readCount
  parse (readMany r n)

-- The signature is checked over the hash and against the key that stand in the same header.
def readDeltaState (crypto : Crypto) (reg : Registrar) (wireVer : ℕ) : Parse DeltaState := do
  let header ← parse deHeader
  if ¬ crypto.verify header.signature header.hash header.signerSignKey then
    throw .signatureInvalid
  if header.ownerSignKey ≠ reg.header.ownerSignKey then throw .unauthorized
  let peers ← readCounted dePeer
  let roles ← readCounted (deRole wireVer)
  let webapps ← readCounted (deWebapp wireVer)
  let signaling ← readCounted deServer
  let rebroadcast ← readCounted deServer
  let epochs ← readCounted deEpoch
  return { header, peers, roles, webapps, signaling, rebroadcast, epochs }

-- The source reads each entry just before it merges it; a failure rolls the merge back, so here
-- the entries are read first.
def readDelta (crypto : Crypto) (reg : Registrar) : Parse Delta := do
  let magic ← parse (readBytes 4)
  if magic.val ≠ deltaMagic then throw .serialization
  let wireVer ← parse readU32
  if wireVer.toNat > serialVersion then throw .serialization
  let sinceVersion ← parse readU32
  let state ← if 2 ≤ wireVer.toNat then some <$> readDeltaState crypto reg wireVer.toNat
    else pure none
  let entries ← readCounted (deAudit wireVer.toNat)
  return { sinceVersion, state, entries }

def wasActive (p : Peer) (timestamp : I64) : Bool :=
  p.status = PeerStatus.active ∨
    0 < p.removedAt.toInt ∧ timestamp.toInt < p.removedAt.toInt

def deltaPerms (d : DeltaState) (e : AuditEntry) : Option Perms :=
  if e.actorId = d.header.ownerId then some Perm.owner
  else
    match d.peers.find? fun p => p.peerId = e.actorId with
    | some p =>
      if wasActive p e.timestamp then
        if p.roleId = 0 then some Perm.none
        else (d.roles.find? fun r => r.roleId = p.roleId).map (·.permissions)
      else none
    | none => none

def localPerms (reg : Registrar) (e : AuditEntry) : Perms :=
  if isOwner reg e.actorId then Perm.owner else getPeerPermissions reg e.actorId

def entryPerms (reg : Registrar) (state : Option DeltaState) (e : AuditEntry) : Perms :=
  ((state.bind fun d => deltaPerms d e).getD (localPerms reg e))

def authorized (reg : Registrar) (state : Option DeltaState) (e : AuditEntry) : Bool :=
  let perms := entryPerms reg state e
  match ChangeType.ofCode e.changeType with
  | some .peerAdded | some .inviteCreated | some .inviteUsed | some .inviteInvalidated =>
    perms &&& Perm.inviteMember ≠ 0
  | some .peerKicked | some .peerRemoved => perms &&& Perm.kickMember ≠ 0
  | some .peerBanned => perms &&& Perm.banMember ≠ 0
  | some .peerAddress => true
  | some .peerRoleChanged | some .roleAdded | some .roleRemoved | some .roleModified =>
    perms &&& Perm.editRoles ≠ 0
  | some .webappAdded => perms &&& Perm.addWebapp ≠ 0
  | some .webappRemoved => perms &&& Perm.removeWebapp ≠ 0
  | some .serverAdded | some .serverRemoved => perms &&& Perm.editServers ≠ 0
  | some .epochRotated => perms &&& Perm.rotateEpoch ≠ 0
  | some .retentionSet => perms &&& Perm.editRetention ≠ 0
  | some .registrarSigned =>
    match state with
    | some d => e.actorId = d.header.ownerId
    | none => isOwner reg e.actorId
  | some .groupIconSet | some .groupIconRemoved => perms &&& Perm.setGroupIcon ≠ 0
  | some .bootIpBlocked => true
  | some .webappModified | none => false

def intact (crypto : Crypto) (e : AuditEntry) : Bool := crypto.skein e.hashed = e.entryHash

def signedByActor (crypto : Crypto) (reg : Registrar) (e : AuditEntry) : Bool :=
  match reg.peers.find? e.actorId with
  | some p => crypto.verify e.signature e.entryHash p.signKey
  | none => false

def admissible (crypto : Crypto) (reg : Registrar) (state : Option DeltaState) (e : AuditEntry) :
    Bool :=
  intact crypto e && signedByActor crypto reg e && authorized reg state e

structure Merging where
  log : AuditLog
  version : BitVec 32
  updatedAt : I64
  inserted : List AuditEntry
  duplicate : ℕ
  rejected : ℕ
  forks : ℕ

def mergeEntry (crypto : Crypto) (reg : Registrar) (state : Option DeltaState) (m : Merging)
    (e : AuditEntry) : Merging :=
  if (m.log.find? e.entryHash).isSome then { m with duplicate := m.duplicate + 1 }
  else if ¬ admissible crypto reg state e then { m with rejected := m.rejected + 1 }
  else
    let log := m.log.insertIgnore e
    { m with
      log
      inserted := m.inserted ++ [e]
      forks := if 1 < countPrev log e.prevHash then m.forks + 1 else m.forks
      version := if e.registrarVersion > m.version then e.registrarVersion else m.version
      updatedAt := if e.timestamp.toInt > m.updatedAt.toInt then e.timestamp else m.updatedAt }

def Merging.start (reg : Registrar) : Merging where
  log := reg.auditLog
  version := reg.header.version
  updatedAt := reg.header.updatedAt
  inserted := []
  duplicate := 0
  rejected := 0
  forks := 0

def mergeEntries (crypto : Crypto) (reg : Registrar) (d : Delta) : Merging :=
  d.entries.foldl (mergeEntry crypto reg d.state) (.start reg)

/-- `max3_i64(last_seen, joined_at, removed_at)`: how fresh a peer row is. -/
def Peer.stamp (p : Peer) : ℤ := max (max p.lastSeen.toInt p.joinedAt.toInt) p.removedAt.toInt

def Role.stamp (r : Role) : ℤ := r.modifiedAt.toInt

def resolved {key : α → κ} [DecidableEq κ] (stamp : α → ℤ) (t : Table key) : List α → ℕ
  | [] => 0
  | a :: l =>
    (if (t.find? (key a)).any fun b => stamp b < stamp a then 1 else 0) +
      resolved stamp (t.write stamp a) l

-- A server row without its secret key keeps the one stored here.
def mergeServer (t : Table Server.idHash) (s : Server) : Table Server.idHash :=
  if s.contentKemSk = zeroBytes 3168 then
    match t.find? s.idHash with
    | some l => t.upsert { s with contentKemSk := l.contentKemSk }
    | none => t.upsert s
  else t.upsert s

def mergeTables (reg : Registrar) (d : DeltaState) : Registrar :=
  { reg with
    peers := reg.peers.merge Peer.stamp d.peers
    roles := reg.roles.merge Role.stamp d.roles
    webapps := d.webapps.foldl Table.upsert reg.webapps
    servers := d.rebroadcast.foldl mergeServer (d.signaling.foldl mergeServer reg.servers)
    epochs := reg.epochs.insertMissing d.epochs }

structure MergeResult where
  entriesReceived : ℕ
  entriesNew : ℕ
  entriesDuplicate : ℕ
  entriesRejected : ℕ
  conflictsResolved : ℕ
  forksDetected : ℕ
  newVersion : BitVec 32

def mergeStateOf (reg : Registrar) : Option DeltaState → Registrar
  | some d => mergeTables reg d
  | none => reg

def conflicts (reg : Registrar) : Option DeltaState → ℕ
  | some d => resolved Peer.stamp reg.peers d.peers + resolved Role.stamp reg.roles d.roles
  | none => 0

def mergeDelta (crypto : Crypto) (reg : Registrar) (d : Delta) : Registrar × MergeResult :=
  let m := mergeEntries crypto reg d
  ({ mergeStateOf reg d.state with
      header := { reg.header with version := m.version, updatedAt := m.updatedAt }
      auditLog := m.log },
    { entriesReceived := d.entries.length
      entriesNew := m.inserted.length
      entriesDuplicate := m.duplicate
      entriesRejected := m.rejected
      conflictsResolved := conflicts reg d.state
      forksDetected := m.forks
      newVersion := m.version })

def tooLarge (reg : Registrar) (len : ℕ) (now : I64) : Bool :=
  decide (deltaMaxBytes < len) &&
    match reg.deltaAnomaly with
    | some f => f len (now - reg.header.updatedAt) = .suspend
    | none => true

def commitDelta (crypto : Crypto) (reg : Registrar) (data : List Byte) (now : I64) :
    Except GrError (Registrar × MergeResult) :=
  if tooLarge reg data.length now then .error .sizeExceeded
  else
    match (readDelta crypto reg).run data with
    | .ok d => .ok (mergeDelta crypto reg d.1)
    | .error e => .error e

/-- `gr_audit_enforce_retention_internal`, run where a merge inserted something. -/
def cutLog (reg : Registrar) (result : MergeResult) : Registrar :=
  if 0 < result.entriesNew then { reg with auditLog := enforceRetention reg.auditLog } else reg

def applyDelta (crypto : Crypto) (reg : Registrar) (data : List Byte) (now : I64) :
    Except GrError (Registrar × MergeResult) :=
  (commitDelta crypto reg data now).map fun r => (cutLog r.1 r.2, r.2)

def serCounted (ser : α → List Byte) (l : List α) : List Byte :=
  writeU32 (BitVec.ofNat 32 l.length) ++ l.flatMap ser

/-- `gr_server_list` -/
def serverList (reg : Registrar) (type : BitVec 32) : List Server :=
  reg.servers.rows.filter fun s => s.type = type

/-- `ps_audit_delta` -/
def auditDelta (reg : Registrar) (sinceVersion : BitVec 32) : List AuditEntry :=
  (reg.auditLog.rows.filter fun e => sinceVersion.toInt < e.registrarVersion.toInt).mergeSort
    fun a b => a.timestamp.toInt ≤ b.timestamp.toInt

def stateOf (reg : Registrar) : DeltaState where
  header := reg.header
  peers := reg.peers.rows
  roles := reg.roles.rows.mergeSort fun a b => a.roleId.toInt ≤ b.roleId.toInt
  webapps := reg.webapps.rows
  signaling := serverList reg serverSignaling
  rebroadcast := serverList reg serverRebroadcast
  epochs := reg.epochs.rows.mergeSort fun a b => a.epochId.toInt ≤ b.epochId.toInt

def writeDelta (sinceVersion : BitVec 32) (d : DeltaState) (entries : List AuditEntry) :
    List Byte :=
  deltaMagic ++ writeU32 (BitVec.ofNat 32 serialVersion) ++ writeU32 sinceVersion ++
    serHeader d.header ++ serCounted serPeer d.peers ++ serCounted serRole d.roles ++
    serCounted serWebapp d.webapps ++ serCounted (serServer .full) d.signaling ++
    serCounted (serServer .full) d.rebroadcast ++ serCounted serEpoch d.epochs ++
    serCounted serAudit entries

def serializeDelta (reg : Registrar) (sinceVersion : BitVec 32) : List Byte :=
  writeDelta sinceVersion (stateOf reg) (auditDelta reg sinceVersion)

def DeltaState.received (d : DeltaState) : DeltaState :=
  { d with
    signaling := d.signaling.map (Server.shown .full)
    rebroadcast := d.rebroadcast.map (Server.shown .full) }

/-- Every count fits its 32-bit field. -/
structure Counted (d : DeltaState) (entries : List AuditEntry) : Prop where
  peers : d.peers.length < 2 ^ 32
  roles : d.roles.length < 2 ^ 32
  webapps : d.webapps.length < 2 ^ 32
  signaling : d.signaling.length < 2 ^ 32
  rebroadcast : d.rebroadcast.length < 2 ^ 32
  epochs : d.epochs.length < 2 ^ 32
  entries : entries.length < 2 ^ 32

section Merge

variable {crypto : Crypto} {reg : Registrar} {state : Option DeltaState} {m : Merging}

theorem find?_mergeEntry (e : AuditEntry) (k : Hash) :
    (mergeEntry crypto reg state m e).log.find? k =
      (m.log.find? k).or (if e.entryHash = k ∧ admissible crypto reg state e then some e else none) := by
  unfold mergeEntry
  split
  · rename_i hdup
    by_cases hk : e.entryHash = k
    · obtain ⟨a, ha⟩ := Option.isSome_iff_exists.mp hdup
      rw [← hk, ha]
      rfl
    · simp [hk]
  · split
    · rename_i hadm
      simp [hadm]
    · rename_i hadm
      simp only [not_not] at hadm
      simp [Table.find?_insertIgnore, hadm]

theorem inserted_mergeEntry (e : AuditEntry) : (mergeEntry crypto reg state m e).inserted =
    if m.log.find? e.entryHash = none ∧ admissible crypto reg state e then m.inserted ++ [e]
    else m.inserted := by
  unfold mergeEntry
  cases h : m.log.find? e.entryHash with
  | some a => simp
  | none => by_cases hadm : admissible crypto reg state e = true <;> simp [hadm]

theorem rows_mergeEntry (e : AuditEntry) : (mergeEntry crypto reg state m e).log.rows =
    if m.log.find? e.entryHash = none ∧ admissible crypto reg state e then m.log.rows ++ [e]
    else m.log.rows := by
  unfold mergeEntry
  cases h : m.log.find? e.entryHash with
  | some a => simp
  | none =>
    by_cases hadm : admissible crypto reg state e = true
    · simp [hadm, Table.rows_insertIgnore h]
    · simp [hadm]

theorem rows_mergeEntries (d : Delta) : (mergeEntries crypto reg d).log.rows =
    reg.auditLog.rows ++ (mergeEntries crypto reg d).inserted := by
  have : ∀ (l : List AuditEntry) (m : Merging) (rows : List AuditEntry),
      m.log.rows = rows ++ m.inserted →
      (l.foldl (mergeEntry crypto reg d.state) m).log.rows =
        rows ++ (l.foldl (mergeEntry crypto reg d.state) m).inserted := by
    intro l
    induction l with
    | nil => exact fun m rows h => h
    | cons e l ih =>
      intro m rows h
      apply ih
      rw [rows_mergeEntry, inserted_mergeEntry]
      split
      · rw [h, List.append_assoc]
      · exact h
  exact this d.entries _ _ (by simp [Merging.start])

theorem mem_inserted (d : Delta) (e : AuditEntry) : e ∈ (mergeEntries crypto reg d).inserted ↔
    ∃ pre post, d.entries = pre ++ e :: post ∧ reg.auditLog.find? e.entryHash = none ∧
      admissible crypto reg d.state e ∧
      ∀ e' ∈ pre, e'.entryHash = e.entryHash → ¬ admissible crypto reg d.state e' := by
  have : ∀ (l : List AuditEntry) (m : Merging),
      e ∈ (l.foldl (mergeEntry crypto reg d.state) m).inserted ↔ e ∈ m.inserted ∨
        ∃ pre post, l = pre ++ e :: post ∧ m.log.find? e.entryHash = none ∧
          admissible crypto reg d.state e ∧
          ∀ e' ∈ pre, e'.entryHash = e.entryHash → ¬ admissible crypto reg d.state e' := by
    intro l
    induction l with
    | nil => simp
    | cons a l ih =>
      intro m
      have hmem : e ∈ (mergeEntry crypto reg d.state m a).inserted ↔ e ∈ m.inserted ∨
          e = a ∧ m.log.find? e.entryHash = none ∧ admissible crypto reg d.state e := by
        rw [inserted_mergeEntry]
        by_cases hc : m.log.find? a.entryHash = none ∧ admissible crypto reg d.state a = true
        · rw [if_pos hc]
          simp only [List.mem_append, List.mem_singleton]
          constructor
          · rintro (h | rfl)
            · exact .inl h
            · exact .inr ⟨rfl, hc⟩
          · rintro (h | ⟨rfl, _⟩)
            · exact .inl h
            · exact .inr rfl
        · rw [if_neg hc]
          refine ⟨.inl, ?_⟩
          rintro (h | ⟨rfl, h⟩)
          · exact h
          · exact absurd h hc
      rw [List.foldl_cons, ih, hmem, find?_mergeEntry, or_assoc]
      apply or_congr_right
      constructor
      · rintro (⟨rfl, hnew, hadm⟩ | ⟨pre, post, rfl, hnew, hadm, hpre⟩)
        · exact ⟨[], l, rfl, hnew, hadm, by simp⟩
        · rw [Option.or_eq_none_iff] at hnew
          refine ⟨a :: pre, post, rfl, hnew.1, hadm, ?_⟩
          intro e' he' hhash
          rcases List.mem_cons.mp he' with rfl | he'
          · intro ha
            simp [hhash, ha] at hnew
          · exact hpre e' he' hhash
      · rintro ⟨pre, post, hl, hnew, hadm, hpre⟩
        cases pre with
        | nil =>
          obtain ⟨rfl, rfl⟩ := List.cons.inj hl
          exact .inl ⟨rfl, hnew, hadm⟩
        | cons b pre =>
          obtain ⟨rfl, rfl⟩ := List.cons.inj hl
          refine .inr ⟨pre, post, rfl, ?_, hadm, fun e' he' => hpre e' (List.mem_cons_of_mem _ he')⟩
          have hb := hpre a List.mem_cons_self
          rw [Option.or_eq_none_iff]
          refine ⟨hnew, if_neg ?_⟩
          rintro ⟨hhash, ha⟩
          exact hb hhash ha
  rw [mergeEntries, this]
  simp [Merging.start]

/-- The bytes are a delta this registrar takes. -/
def Accepts (crypto : Crypto) (reg : Registrar) (data : List Byte) (now : I64) (d : Delta) : Prop :=
  tooLarge reg data.length now = false ∧
    ∃ rest, (readDelta crypto reg).run data = .ok (d, rest)

theorem Accepts.unique (h : Accepts crypto reg data now d) (h' : Accepts crypto reg data now d') :
    d = d' := by
  obtain ⟨_, rest, hread⟩ := h
  obtain ⟨_, rest', hread'⟩ := h'
  rw [hread] at hread'
  exact (Prod.mk.inj (Except.ok.inj hread')).1

theorem commitDelta_eq_ok : commitDelta crypto reg data now = .ok r ↔
    ∃ d, Accepts crypto reg data now d ∧ r = mergeDelta crypto reg d := by
  unfold commitDelta Accepts
  cases htoo : tooLarge reg data.length now with
  | true => simp
  | false =>
    cases hread : (readDelta crypto reg).run data with
    | error e => simp
    | ok x =>
      obtain ⟨d, rest⟩ := x
      simp only [Bool.false_eq_true, ↓reduceIte, Except.ok.injEq, true_and]
      constructor
      · rintro rfl
        exact ⟨d, ⟨rest, rfl⟩, rfl⟩
      · rintro ⟨d', ⟨rest', h⟩, rfl⟩
        obtain ⟨rfl, _⟩ := Prod.mk.inj h
        rfl

@[simp] theorem header_cutLog (reg : Registrar) (result : MergeResult) :
    (cutLog reg result).header = reg.header := by
  unfold cutLog
  split <;> rfl

@[simp] theorem peers_cutLog (reg : Registrar) (result : MergeResult) :
    (cutLog reg result).peers = reg.peers := by
  unfold cutLog
  split <;> rfl

@[simp] theorem epochs_cutLog (reg : Registrar) (result : MergeResult) :
    (cutLog reg result).epochs = reg.epochs := by
  unfold cutLog
  split <;> rfl

theorem applyDelta_eq_ok : applyDelta crypto reg data now = .ok r ↔
    ∃ d, Accepts crypto reg data now d ∧
      r = (cutLog (mergeDelta crypto reg d).1 (mergeDelta crypto reg d).2,
        (mergeDelta crypto reg d).2) := by
  unfold applyDelta
  cases hc : commitDelta crypto reg data now with
  | error e =>
    refine ⟨nofun, ?_⟩
    rintro ⟨d, hacc, _⟩
    rw [commitDelta_eq_ok.mpr ⟨d, hacc, rfl⟩] at hc
    cases hc
  | ok c =>
    obtain ⟨d, hacc, rfl⟩ := commitDelta_eq_ok.mp hc
    constructor
    · intro h
      exact ⟨d, hacc, (Except.ok.inj h).symm⟩
    · rintro ⟨d', hacc', rfl⟩
      rw [commitDelta_eq_ok.mpr ⟨d', hacc', rfl⟩] at hc
      rw [← Except.ok.inj hc]
      rfl

theorem find?_peers_mergeTables (d : DeltaState) (k : PeerId) : (mergeTables reg d).peers.find? k =
    Table.later Peer.stamp (reg.peers.find? k) (Table.winner Peer.peerId Peer.stamp k d.peers) :=
  Table.find?_merge d.peers

theorem find?_roles_mergeTables (d : DeltaState) (k : BitVec 32) :
    (mergeTables reg d).roles.find? k =
      Table.later Role.stamp (reg.roles.find? k) (Table.winner Role.roleId Role.stamp k d.roles) :=
  Table.find?_merge d.roles

theorem find?_epochs_mergeTables (d : DeltaState) (k : BitVec 32) :
    (mergeTables reg d).epochs.find? k =
      (reg.epochs.find? k).or (d.epochs.find? fun e => e.epochId = k) :=
  Table.find?_insertMissing d.epochs

theorem find?_webapps_mergeTables (d : DeltaState) (k : Hash) :
    (mergeTables reg d).webapps.find? k =
      (d.webapps.reverse.find? fun w => w.hash = k).or (reg.webapps.find? k) :=
  Table.find?_foldl_upsert d.webapps

end Merge

section Servers

def secretOf (s : Option Server) : KemSecretKey := (s.map (·.contentKemSk)).getD (zeroBytes 3168)

def lastSecret (l : List Server) (sk : KemSecretKey) : KemSecretKey :=
  l.foldl (fun sk s => if s.contentKemSk = zeroBytes 3168 then sk else s.contentKemSk) sk

def mergeRows (l : List Server) (o : Option Server) : Option Server :=
  l.foldl (fun o s => some { s with contentKemSk := lastSecret [s] (secretOf o) }) o

theorem find?_mergeServer (t : Table Server.idHash) (s : Server) :
    (mergeServer t s).find? = Function.update t.find? s.idHash (mergeRows [s] (t.find? s.idHash)) := by
  unfold mergeServer
  have hrow : mergeRows [s] (t.find? s.idHash) =
      some { s with contentKemSk := lastSecret [s] (secretOf (t.find? s.idHash)) } := rfl
  rw [hrow]
  by_cases hz : s.contentKemSk = zeroBytes 3168
  · have hsk : lastSecret [s] (secretOf (t.find? s.idHash)) = secretOf (t.find? s.idHash) := if_pos hz
    rw [if_pos hz, hsk]
    cases t.find? s.idHash with
    | none =>
      have hself : { s with contentKemSk := secretOf none } = s := by
        change { s with contentKemSk := zeroBytes 3168 } = s
        rw [← hz]
      rw [hself]
      exact Table.find?_upsert
    | some l => exact Table.find?_upsert
  · have hsk : lastSecret [s] (secretOf (t.find? s.idHash)) = s.contentKemSk := if_neg hz
    rw [if_neg hz, hsk]
    exact Table.find?_upsert

theorem find?_foldl_mergeServer (t : Table Server.idHash) (l : List Server) (k : Hash) :
    (l.foldl mergeServer t).find? k = mergeRows (l.filter fun s => s.idHash = k) (t.find? k) := by
  induction l generalizing t with
  | nil => rfl
  | cons s l ih =>
    rw [List.foldl_cons, ih, find?_mergeServer]
    by_cases hk : s.idHash = k
    · subst hk
      rw [Function.update_self, List.filter_cons_of_pos (by simp)]
      rfl
    · rw [Function.update_of_ne (Ne.symm hk), List.filter_cons_of_neg (by simpa using hk)]

theorem mergeRows_concat (l : List Server) (s : Server) (o : Option Server) :
    mergeRows (l ++ [s]) o = some { s with contentKemSk := lastSecret (l ++ [s]) (secretOf o) } := by
  induction l generalizing o with
  | nil => rfl
  | cons a l ih => exact ih _

theorem lastSecret_twice (l : List Server) (sk : KemSecretKey) :
    lastSecret l (lastSecret l sk) = lastSecret l sk := by
  have hcases : ∀ sk, lastSecret l sk = sk ∨ ∀ sk', lastSecret l sk' = lastSecret l sk := by
    induction l with
    | nil => exact fun _ => .inl rfl
    | cons s l ih =>
      intro sk
      by_cases hz : s.contentKemSk = zeroBytes 3168
      · have hs : ∀ sk, lastSecret (s :: l) sk = lastSecret l sk := fun sk => by
          rw [lastSecret, List.foldl_cons, if_pos hz]
          rfl
        simp only [hs]
        exact ih sk
      · have hs : ∀ sk, lastSecret (s :: l) sk = lastSecret l s.contentKemSk := fun sk => by
          rw [lastSecret, List.foldl_cons, if_neg hz]
          rfl
        exact .inr fun sk' => by rw [hs, hs]
  cases hcases sk with
  | inl h => rw [h, h]
  | inr h => exact h _

theorem mergeRows_twice (l : List Server) (o : Option Server) :
    mergeRows l (mergeRows l o) = mergeRows l o := by
  cases List.eq_nil_or_concat l with
  | inl h =>
    rw [h]
    rfl
  | inr h =>
    obtain ⟨l, s, rfl⟩ := h
    rw [List.concat_eq_append, mergeRows_concat, mergeRows_concat]
    change some { s with contentKemSk := lastSecret (l ++ [s]) (lastSecret (l ++ [s]) (secretOf o)) } = _
    rw [lastSecret_twice]

theorem find?_servers_mergeTables (reg : Registrar) (d : DeltaState) (k : Hash) :
    (mergeTables reg d).servers.find? k =
      mergeRows ((d.signaling ++ d.rebroadcast).filter fun s => s.idHash = k) (reg.servers.find? k) := by
  rw [← find?_foldl_mergeServer, List.foldl_append]
  rfl

end Servers

section RoundTrip

theorem parse_bind {r : Reader α} (f : α → Parse β) (h : r.run s = some (a, s')) :
    (parse r >>= f).run s = (f a).run s' := orThrow_bind f h

theorem length_le_flatMap {ser : α → List Byte} (hser : ∀ a, 0 < (ser a).length) (l : List α) :
    l.length ≤ (l.flatMap ser).length := by
  induction l with
  | nil => simp
  | cons a l ih =>
    have := hser a
    simp only [List.length_cons, List.flatMap_cons, List.length_append]
    omega

theorem readCounted_bind {r : Reader β} {ser : α → List Byte} (g : α → β)
    (hser : ∀ a, 0 < (ser a).length) (hr : ∀ a s, r.run (ser a ++ s) = some (g a, s))
    (l : List α) (hl : l.length < 2 ^ 32) (s : List Byte) (f : List β → Parse γ) :
    (readCounted r >>= f).run (serCounted ser l ++ s) = (f (l.map g)).run s := by
  have hlen : (BitVec.ofNat 32 l.length).toNat = l.length := by
    rw [BitVec.toNat_ofNat]
    exact Nat.mod_eq_of_lt hl
  have hfit : ¬ l.length > (l.flatMap ser ++ s).length := by
    have := length_le_flatMap hser l
    rw [List.length_append]
    omega
  rw [readCounted, readCount, serCounted, List.append_assoc]
  simp only [bind_assoc]
  rw [parse_bind _ (readLe_append _ _ (by norm_num))]
  simp only [hlen, StateT.run_bind, StateT.run_get, pure_bind, hfit, ↓reduceIte, StateT.run_pure]
  rw [← StateT.run_bind, parse_bind _ (readMany_append g l s hr)]

theorem length_serPeer (p : Peer) : (serPeer p).length =
    4266 + p.ip.val.length + p.removedReason.val.length := by
  simp [serPeer, writeStr, Bytes.length_eq]
  omega

theorem length_serRole (r : Role) : (serRole r).length = 2620 + r.name.val.length := by
  simp [serRole, writeStr, Bytes.length_eq]
  omega

theorem length_serEpoch (e : Epoch) : (serEpoch e).length = 180 := by
  simp [serEpoch, Bytes.length_eq]

theorem serWebapp_pos (w : Webapp) : 0 < (serWebapp w).length := by
  simp [serWebapp, Bytes.length_eq]

theorem serServer_pos (mode : SerializeMode) (v : Server) : 0 < (serServer mode v).length := by
  simp [serServer, Bytes.length_eq]

theorem length_serAudit (a : AuditEntry) : (serAudit a).length = 4975 + a.detail.val.length := by
  simp [serAudit, writeStr, Bytes.length_eq]
  omega

theorem length_serHeader (h : Header) : (serHeader h).length =
    10187 + h.groupName.val.length := by
  simp [serHeader, writeStr, Bytes.length_eq]
  omega

theorem length_serCounted_le (n : ℕ) (ser : α → List Byte) (hser : ∀ a, (ser a).length ≤ n)
    (l : List α) : (serCounted ser l).length ≤ 4 + n * l.length := by
  have : (l.flatMap ser).length ≤ n * l.length := by
    induction l with
    | nil => simp
    | cons a l ih =>
      have := hser a
      rw [List.flatMap_cons, List.length_append, List.length_cons, Nat.mul_succ]
      omega
  rw [serCounted, List.length_append, length_toLe]
  omega

theorem length_writeDelta_le (sinceVersion : BitVec 32) (d : DeltaState)
    (entries : List AuditEntry) (hweb : d.webapps = []) (hsig : d.signaling = [])
    (hreb : d.rebroadcast = []) : (writeDelta sinceVersion d entries).length ≤
      10354 + 4438 * d.peers.length + 2747 * d.roles.length + 180 * d.epochs.length +
        5230 * entries.length := by
  have hpeers := length_serCounted_le 4438 serPeer (fun p => by
    have := p.ip.short
    have := p.removedReason.short
    rw [length_serPeer]
    omega) d.peers
  have hroles := length_serCounted_le 2747 serRole (fun r => by
    have := r.name.short
    rw [length_serRole]
    omega) d.roles
  have hepochs := length_serCounted_le 180 serEpoch
    (fun e => by rw [length_serEpoch]) d.epochs
  have hentries := length_serCounted_le 5230 serAudit (fun a => by
    have := a.detail.short
    rw [length_serAudit]
    omega) entries
  have hname := d.header.groupName.short
  simp only [writeDelta, List.length_append, length_serHeader, hweb, hsig, hreb, length_toLe,
    serCounted, List.flatMap_nil, List.length_nil, show deltaMagic.length = 4 from rfl] at *
  omega

theorem tooLarge_of_le {reg : Registrar} (h : len ≤ deltaMaxBytes) : tooLarge reg len now = false := by
  rw [tooLarge, decide_eq_false (Nat.not_lt.mpr h)]
  rfl

theorem run_readDelta {crypto : Crypto} {reg : Registrar} (sinceVersion : BitVec 32) (s : List Byte) :
    (readDelta crypto reg).run (deltaMagic ++ (writeU32 (BitVec.ofNat 32 serialVersion) ++
        (writeU32 sinceVersion ++ s))) =
      (do
        let state ← readDeltaState crypto reg 4
        let entries ← readCounted (deAudit 4)
        return { sinceVersion, state := some state, entries } : Parse Delta).run s := by
  have hmagic : ∀ s, (readBytes 4).run (deltaMagic ++ s) = some (⟨deltaMagic, rfl⟩, s) :=
    readBytes_append ⟨deltaMagic, rfl⟩
  have hver : (BitVec.ofNat 32 serialVersion).toNat = 4 := rfl
  rw [readDelta, parse_bind _ (hmagic _)]
  simp only [ne_eq, not_true, ↓reduceIte, pure_bind]
  rw [parse_bind _ (readLe_append _ _ (by norm_num))]
  simp only [hver, show ¬ 4 > serialVersion by decide, show 2 ≤ 4 by decide, ↓reduceIte]
  rw [parse_bind _ (readLe_append _ _ (by norm_num))]
  simp only [map_eq_pure_bind, bind_assoc, pure_bind]

theorem readDelta_refused {crypto : Crypto} {reg : Registrar} {d : DeltaState}
    {entries : List AuditEntry} (sinceVersion : BitVec 32)
    (h : ¬ (crypto.verify d.header.signature d.header.hash d.header.signerSignKey = true ∧
      d.header.ownerSignKey = reg.header.ownerSignKey)) :
    (readDelta crypto reg).run (writeDelta sinceVersion d entries) = .error .signatureInvalid ∨
      (readDelta crypto reg).run (writeDelta sinceVersion d entries) = .error .unauthorized := by
  rw [writeDelta]
  simp only [List.append_assoc]
  rw [run_readDelta, StateT.run_bind, readDeltaState, parse_bind _ (deHeader_ser _ _)]
  by_cases hverify : crypto.verify d.header.signature d.header.hash d.header.signerSignKey = true
  · have howner : d.header.ownerSignKey ≠ reg.header.ownerSignKey := fun heq => h ⟨hverify, heq⟩
    right
    simp only [hverify, howner, not_true, ↓reduceIte, ne_eq, not_false_eq_true]
    rfl
  · left
    simp only [hverify]
    rfl

theorem readDelta_writeDelta {crypto : Crypto} {reg : Registrar} {d : DeltaState}
    {entries : List AuditEntry} (sinceVersion : BitVec 32) (hc : Counted d entries)
    (hverify : crypto.verify d.header.signature d.header.hash d.header.signerSignKey = true)
    (howner : d.header.ownerSignKey = reg.header.ownerSignKey) :
    (readDelta crypto reg).run (writeDelta sinceVersion d entries) =
      .ok ({ sinceVersion, state := some d.received, entries }, []) := by
  have hstate : ∀ s, (readDeltaState crypto reg 4).run (serHeader d.header ++
      (serCounted serPeer d.peers ++ (serCounted serRole d.roles ++
      (serCounted serWebapp d.webapps ++ (serCounted (serServer .full) d.signaling ++
      (serCounted (serServer .full) d.rebroadcast ++ (serCounted serEpoch d.epochs ++ s)))))))
      = .ok (d.received, s) := by
    intro s
    rw [readDeltaState, parse_bind _ (deHeader_ser _ _)]
    simp only [hverify, howner, not_true, ↓reduceIte, ne_eq]
    rw [readCounted_bind id (fun p => by rw [length_serPeer]; omega) (fun p s => dePeer_ser s p)
        _ hc.peers,
      readCounted_bind id (fun r => by rw [length_serRole]; omega) (fun r s => deRole_ser s r)
        _ hc.roles,
      readCounted_bind id serWebapp_pos (fun w s => deWebapp_ser s w) _ hc.webapps,
      readCounted_bind (Server.shown .full) (serServer_pos .full)
        (fun v s => deServer_ser s .full v) _ hc.signaling,
      readCounted_bind (Server.shown .full) (serServer_pos .full)
        (fun v s => deServer_ser s .full v) _ hc.rebroadcast,
      readCounted_bind id (fun e => by rw [length_serEpoch]; omega) (fun e s => deEpoch_ser s e)
        _ hc.epochs]
    simp [DeltaState.received]
    rfl
  rw [writeDelta]
  simp only [List.append_assoc]
  rw [run_readDelta, StateT.run_bind, hstate]
  change (readCounted (deAudit 4) >>= fun entries => pure _).run _ = _
  rw [← List.append_nil (serCounted serAudit entries),
    readCounted_bind id (fun a => by rw [length_serAudit]; omega) (fun a s => deAudit_ser s a)
      _ hc.entries]
  simp
  rfl

end RoundTrip

end YumiBrowser.Group
