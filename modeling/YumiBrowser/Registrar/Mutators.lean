import YumiBrowser.Registrar.Audit

namespace YumiBrowser.Group

open Wire Keyed

def orElse (e : GrError) : Option α → Except GrError α
  | some a => .ok a
  | none => .error e

section Keys

theorem peerId_touched (ms : I64) (p : Peer) : { p with lastSeen := ms }.peerId = p.peerId := rfl

theorem peerId_assigned (roleId : BitVec 32) (p : Peer) : { p with roleId }.peerId = p.peerId := rfl

theorem roleId_regranted (permissions : Perms) (ms : I64) (r : Role) :
    { r with permissions, modifiedAt := ms }.roleId = r.roleId := rfl

theorem hash_permData (permData : Blob (512 * 2048)) (w : Webapp) :
    { w with permData }.hash = w.hash := rfl

theorem hash_roleMask (roleMask : Blob (50 * 64)) (w : Webapp) :
    { w with roleMask }.hash = w.hash := rfl

theorem epochId_expired (ms : I64) (e : Epoch) : { e with expiredAt := ms }.epochId = e.epochId :=
  rfl

theorem name_pos : 0 < 128 := by decide

end Keys

def mutate (crypto : Crypto) (reg : Registrar) (perm : Perms) (signer : Identity)
    (change : ChangeType) (target : Option PeerId) (detail : List Byte) (ns : I64)
    (edit : Except GrError Registrar) : Except GrError Registrar :=
  if reg.untrusted then .error .joinUnverified
  else if ¬ checkPerm reg signer perm then .error .unauthorized
  else edit.map fun reg => auditAppend crypto reg change signer target detail ns

/-- `ps_peer_update_status` -/
def updateStatus (reg : Registrar) (peerId : PeerId) (status : PeerStatus) (removedAt : I64)
    (reason : List Byte) (removedBy : PeerId) : Registrar :=
  { reg with
    peers := reg.peers.modify (fun p => p.peerId = peerId)
      (fun p => { p with status, removedAt, removedReason := CString.stored 128 (by decide) reason,
                         removedBy })
      fun _ => rfl }

/-- `ps_peer_update_addr`: only an active peer has an address to update. -/
def updateAddr (reg : Registrar) (peerId : PeerId) (ip : List Byte) (port : BitVec 16)
    (lastSeen : I64) : Registrar :=
  { reg with
    peers := reg.peers.modify (fun p => p.peerId = peerId ∧ p.status = PeerStatus.active)
      (fun p => { p with ip := CString.stored 46 (by decide) ip, port, lastSeen })
      fun _ => rfl }

def deriveId (crypto : Crypto) (signKey : PublicKey) : PeerId :=
  ⟨(crypto.skein signKey.val).val.take 32, by simp [(crypto.skein signKey.val).length_eq]⟩

def peerAdd (crypto : Crypto) (reg : Registrar) (peer : Peer) (signer : Identity) (clk : Clock) :
    Except GrError Registrar :=
  if reg.untrusted then .error .joinUnverified
  else if reg.header.groupType = groupPrivate ∧ ¬ checkPerm reg signer Perm.inviteMember then
    .error .unauthorized
  else if deriveId crypto peer.signKey ≠ peer.peerId then .error .invalidParam
  else
    match reg.peers.find? peer.peerId with
    | some existing =>
      if existing.status = PeerStatus.kicked then
        .ok (auditAppend crypto
          (updateStatus reg peer.peerId PeerStatus.active 0 [] (zeroBytes 32))
          .peerAdded signer (some peer.peerId) (ascii "peer re-added (was kicked)") clk.ns)
      else .error .alreadyExists
    | none =>
      let removedBy :=
        if peer.removedBy.val.head? = some 0 then zeroBytes 32 else peer.removedBy
      (orElse .db (reg.peers.insert? { peer with removedBy })).map fun peers =>
        auditAppend crypto { reg with peers } .peerAdded signer (some peer.peerId)
          (ascii "peer added") clk.ns

def peerKick (crypto : Crypto) (reg : Registrar) (peerId : PeerId) (reason : Option (List Byte))
    (signer : Identity) (clk : Clock) : Except GrError Registrar :=
  mutate crypto reg Perm.kickMember signer .peerKicked (some peerId)
    (reason.getD (ascii "kicked")) clk.ns <|
    match reg.peers.find? peerId with
    | none => .error .notFound
    | some peer =>
      if peer.status ≠ PeerStatus.active then .error .notFound
      else if isOwner reg peerId then .error .unauthorized
      else .ok (updateStatus reg peerId PeerStatus.kicked clk.ms (reason.getD []) signer.peerId)

-- Unlike a kick, a ban does not ask for an active peer.
def peerBan (crypto : Crypto) (reg : Registrar) (peerId : PeerId) (reason : Option (List Byte))
    (signer : Identity) (clk : Clock) : Except GrError Registrar :=
  mutate crypto reg Perm.banMember signer .peerBanned (some peerId)
    (reason.getD (ascii "banned")) clk.ns <|
    match reg.peers.find? peerId with
    | none => .error .notFound
    | some _ =>
      if isOwner reg peerId then .error .unauthorized
      else .ok (updateStatus reg peerId PeerStatus.banned clk.ms (reason.getD []) signer.peerId)

def peerLeave (crypto : Crypto) (reg : Registrar) (peer : Identity) (clk : Clock) :
    Except GrError Registrar :=
  if reg.untrusted then .error .joinUnverified
  else if isOwner reg peer.peerId then .error .unauthorized
  else
    match reg.peers.find? peer.peerId with
    | none => .error .notFound
    | some existing =>
      if existing.status ≠ PeerStatus.active then .error .notFound
      else
        .ok (auditAppend crypto
          (updateStatus reg peer.peerId PeerStatus.left clk.ms (ascii "left voluntarily") peer.peerId)
          .peerRemoved peer (some peer.peerId) (ascii "left voluntarily") clk.ns)

def peerUpdateAddress (crypto : Crypto) (reg : Registrar) (ip : List Byte) (port : BitVec 16)
    (peer : Identity) (clk : Clock) : Except GrError Registrar :=
  .ok (auditAppend crypto (updateAddr reg peer.peerId ip port clk.ms) .peerAddress peer
    (some peer.peerId) (ascii "address updated") clk.ns)

def peerObservedAddress (crypto : Crypto) (reg : Registrar) (peerId : PeerId) (ip : List Byte)
    (port : BitVec 16) (observer : Identity) (clk : Clock) : Except GrError Registrar :=
  match reg.peers.find? peerId with
  | none => .error .notFound
  | some existing =>
    if existing.status ≠ PeerStatus.active then .error .notFound
    else
      .ok (auditAppend crypto (updateAddr reg peerId ip port clk.ms) .peerAddress observer
        (some peerId) (ascii "observed address") clk.ns)

def peerTouch (reg : Registrar) (peerId : PeerId) (clk : Clock) : Except GrError Registrar :=
  .ok { reg with
    peers := reg.peers.modify (fun p => p.peerId = peerId)
      (fun p => { p with lastSeen := clk.ms }) fun _ => rfl }

def peerSetRole (crypto : Crypto) (reg : Registrar) (peerId : PeerId) (roleId : BitVec 32)
    (signer : Identity) (clk : Clock) : Except GrError Registrar :=
  mutate crypto reg Perm.editRoles signer .peerRoleChanged (some peerId)
    (ascii "role set to " ++ decimal roleId.toNat) clk.ns <|
    if 0 < roleId ∧ (reg.roles.find? roleId).isNone then .error .notFound
    else
      .ok { reg with
        peers := reg.peers.modify (fun p => p.peerId = peerId ∧ p.status = PeerStatus.active)
          (fun p => { p with roleId }) fun _ => rfl }

/-- `COALESCE(MAX(role_id), 0) + 1`, over signed integers. -/
def roleNextId (reg : Registrar) : ℤ :=
  match (reg.roles.rows.map fun r => r.roleId.toInt).max? with
  | some m => m + 1
  | none => 1

def maxRoles : ℕ := 50

def roleAdd (crypto : Crypto) (reg : Registrar) (name : List Byte) (permissions : Perms)
    (rolePk : PublicKey) (signer : Identity) (clk : Clock) : Except GrError Registrar :=
  let roleId := BitVec.ofInt 32 (roleNextId reg)
  mutate crypto reg Perm.editRoles signer .roleAdded none
    (ascii "role '" ++ (untilZero name).take 64 ++ ascii "' added (id=" ++ decimal roleId.toNat ++
      ascii ")") clk.ns <|
    if maxRoles ≤ reg.roles.rows.length then .error .roleLimit
    else if 2 ^ 31 ≤ roleNextId reg then .error .db
    else
      (orElse .db (reg.roles.insert?
        { roleId, name := CString.stored 128 (by decide) name, permissions, signKey := rolePk,
          createdAt := clk.ms, modifiedAt := clk.ms })).map fun roles => { reg with roles }

def roleRemove (crypto : Crypto) (reg : Registrar) (roleId : BitVec 32) (signer : Identity)
    (clk : Clock) : Except GrError Registrar :=
  let name := ((reg.roles.find? roleId).map fun r => r.name.val).getD []
  mutate crypto reg Perm.editRoles signer .roleRemoved none
    (ascii "role '" ++ name.take 64 ++ ascii "' removed (id=" ++ decimal roleId.toNat ++ ascii ")")
    clk.ns <|
    if (reg.roles.find? roleId).isNone then .error .notFound
    else
      .ok { reg with
        peers := reg.peers.modify (fun p => p.roleId = roleId) (fun p => { p with roleId := 0 })
          fun _ => rfl
        roles := reg.roles.filter fun r => r.roleId ≠ roleId }

def roleSetPermissions (crypto : Crypto) (reg : Registrar) (roleId : BitVec 32)
    (newPermissions : Perms) (signer : Identity) (clk : Clock) : Except GrError Registrar :=
  mutate crypto reg Perm.editRoles signer .roleModified none
    (ascii "role " ++ decimal roleId.toNat ++ ascii " permissions set to 0x" ++
      hex 8 newPermissions.toNat true) clk.ns <|
    .ok { reg with
      roles := reg.roles.modify (fun r => r.roleId = roleId)
        (fun r => { r with permissions := newPermissions, modifiedAt := clk.ms }) fun _ => rfl }

def webappAdd (crypto : Crypto) (reg : Registrar) (webapp : Webapp) (signer : Identity)
    (clk : Clock) : Except GrError Registrar :=
  mutate crypto reg Perm.addWebapp signer .webappAdded none
    (ascii "webapp '" ++ webapp.name.val.take 64 ++ ascii "' v" ++ decimal webapp.version.toNat ++
      ascii " added") clk.ns <|
    (orElse .db (reg.webapps.insert?
      { webapp with addedAt := clk.ms, addedBy := signer.peerId })).map fun webapps =>
        { reg with webapps }

def webappRemove (crypto : Crypto) (reg : Registrar) (hash : Hash) (signer : Identity)
    (clk : Clock) : Except GrError Registrar :=
  mutate crypto reg Perm.removeWebapp signer .webappRemoved none (ascii "webapp removed") clk.ns <|
    if (reg.webapps.find? hash).isNone then .error .notFound
    else .ok { reg with webapps := reg.webapps.filter fun w => w.hash ≠ hash }

def webappDetail (hash : Hash) (what : String) (len : ℕ) : List Byte :=
  ascii "webapp " ++ (hash.val.take 4).flatMap (fun b => hex 2 b.toNat false) ++
    ascii (" " ++ what ++ " updated (") ++ decimal len ++ ascii " bytes)"

def webappUpdatePermData (crypto : Crypto) (reg : Registrar) (hash : Hash) (data : List Byte)
    (signer : Identity) (clk : Clock) : Except GrError Registrar :=
  mutate crypto reg Perm.addWebapp signer .webappModified none
    (webappDetail hash "perm_data" data.length) clk.ns <|
    if h : data.length ≤ 512 * 2048 then
      if (reg.webapps.find? hash).isNone then .error .notFound
      else
        .ok { reg with
          webapps := reg.webapps.modify (fun w => w.hash = hash)
            (fun w => { w with permData := ⟨data, h⟩ }) fun _ => rfl }
    else .error .sizeExceeded

def webappUpdateRoleMask (crypto : Crypto) (reg : Registrar) (hash : Hash) (mask : List Byte)
    (signer : Identity) (clk : Clock) : Except GrError Registrar :=
  mutate crypto reg Perm.setWebappRoles signer .webappModified none
    (webappDetail hash "role_mask" mask.length) clk.ns <|
    if h : mask.length ≤ 50 * 64 then
      if (reg.webapps.find? hash).isNone then .error .notFound
      else
        .ok { reg with
          webapps := reg.webapps.modify (fun w => w.hash = hash)
            (fun w => { w with roleMask := ⟨mask, h⟩ }) fun _ => rfl }
    else .error .sizeExceeded

def serverSignaling : BitVec 32 := 0
def serverRebroadcast : BitVec 32 := 1

def serverAdd (crypto : Crypto) (reg : Registrar) (server : Server) (signer : Identity)
    (clk : Clock) : Except GrError Registrar :=
  let t := if server.type = serverSignaling then "signaling" else "rebroadcast"
  mutate crypto reg Perm.editServers signer .serverAdded none
    (ascii (t ++ " server added at ") ++ server.ip.val ++ ascii ":" ++ decimal server.port.toNat)
    clk.ns <|
    (orElse .db (reg.servers.insert? server)).map fun servers => { reg with servers }

def serverRemove (crypto : Crypto) (reg : Registrar) (idHash : Hash) (signer : Identity)
    (clk : Clock) : Except GrError Registrar :=
  mutate crypto reg Perm.editServers signer .serverRemoved none (ascii "server removed") clk.ns <|
    if (reg.servers.find? idHash).isNone then .error .notFound
    else .ok { reg with servers := reg.servers.filter fun s => s.idHash ≠ idHash }

def retentionSet (crypto : Crypto) (reg : Registrar) (policy : Retention) (signer : Identity)
    (clk : Clock) : Except GrError Registrar :=
  mutate crypto reg Perm.editRetention signer .retentionSet none
    (ascii "retention policy updated") clk.ns <|
    .ok { reg with header := { reg.header with retention := policy } }

def rotate (reg : Registrar) (newKey : EpochKey) (signer : Identity) (clk : Clock) :
    Except GrError Registrar :=
  let newId := reg.header.epochId + 1
  let expired := reg.epochs.modify (fun e => e.epochId = reg.header.epochId)
    (fun e => { e with expiredAt := clk.ms }) fun _ => rfl
  (orElse .db (expired.insert?
    { epochId := newId, epochKey := newKey, createdAt := clk.ms, expiredAt := 0,
      createdBy := signer.peerId })).map fun epochs =>
        { reg with epochs, header := { reg.header with epochId := newId } }

def epochRotate (crypto : Crypto) (reg : Registrar) (newKey : EpochKey) (signer : Identity)
    (clk : Clock) : Except GrError Registrar :=
  mutate crypto reg Perm.rotateEpoch signer .epochRotated none
    (ascii "epoch rotated to " ++ decimal (reg.header.epochId + 1).toNat) clk.ns
    (rotate reg newKey signer clk)

def epochGetCurrent (reg : Registrar) : Option Epoch := reg.epochs.find? reg.header.epochId

def Header.canonical (h : Header) : List Byte :=
  h.groupId.val ++ writeU32 h.groupType ++ writeStr h.groupName ++ writeU32 h.version ++
    writeI64 h.createdAt ++ writeU32 h.epochId ++ writeI64 h.retention.messageRetentionMs ++
    writeI64 h.retention.fileRetentionMs ++ writeI64 h.retention.registrarMaxBytes ++
    h.ownerId.val ++ h.ownerSignKey.val ++ h.signerId.val ++ h.signerSignKey.val

def Header.signed (crypto : Crypto) (h : Header) (signer : Identity) : Header :=
  let h := { h with signerId := signer.peerId, signerSignKey := signer.publicKey }
  let hash := crypto.skein h.canonical
  { h with hash, signature := crypto.sign signer.secretKey hash }

-- The entry comes first here, so that the signature covers its version.
def grSign (crypto : Crypto) (reg : Registrar) (signer : Identity) (clk : Clock) :
    Except GrError Registrar :=
  (mutate crypto reg Perm.signRegistrar signer .registrarSigned none (ascii "registrar signed")
    clk.ns (.ok reg)).map fun reg => { reg with header := reg.header.signed crypto signer }

/-- `gr_verify` -/
def grVerify (crypto : Crypto) (reg : Registrar) : Bool :=
  crypto.skein reg.header.canonical = reg.header.hash ∧
    crypto.verify reg.header.signature reg.header.hash reg.header.signerSignKey

inductive SideChange
  | inviteCreated
  | inviteInvalidated
  | inviteUsed (peerId : PeerId)
  | groupIconSet
  | groupIconRemoved

def SideChange.append (crypto : Crypto) (reg : Registrar) (signer : Identity) (detail : List Byte)
    (clk : Clock) : SideChange → Registrar
  | inviteCreated => auditAppend crypto reg .inviteCreated signer none detail clk.ns
  | inviteInvalidated => auditAppend crypto reg .inviteInvalidated signer none detail clk.ns
  | inviteUsed peerId => auditAppend crypto reg .inviteUsed signer (some peerId) detail clk.ns
  | groupIconSet => auditAppend crypto reg .groupIconSet signer none detail clk.ns
  | groupIconRemoved => auditAppend crypto reg .groupIconRemoved signer none detail clk.ns

def retentionDefaults : Retention where
  messageRetentionMs := 30 * 24 * 60 * 60 * 1000
  fileRetentionMs := 180 * 24 * 60 * 60 * 1000
  registrarMaxBytes := 200 * 1024 * 1024

def ownerPeer (owner : Identity) (now : I64) : Peer where
  peerId := owner.peerId
  kemPk := owner.kemPk
  signKey := owner.publicKey
  ip := CString.empty 46 (by decide)
  port := 0
  status := PeerStatus.active
  roleId := 0
  joinedAt := now
  removedAt := 0
  lastSeen := now
  removedReason := CString.empty 128 (by decide)
  removedBy := zeroBytes 32

def firstEpoch (owner : Identity) (epochKey : EpochKey) (now : I64) : Epoch where
  epochId := 1
  epochKey := epochKey
  createdAt := now
  expiredAt := 0
  createdBy := owner.peerId

def initialHeader (crypto : Crypto) (groupName : List Byte) (groupType : BitVec 32)
    (owner : Identity) (now : I64) : Header where
  groupId := crypto.skein (owner.publicKey.val ++ untilZero groupName ++ writeI64 now)
  groupType := groupType
  groupName := CString.copy 128 (by decide) groupName
  version := 1
  createdAt := now
  updatedAt := now
  epochId := 1
  retention := retentionDefaults
  ownerId := owner.peerId
  ownerSignKey := owner.publicKey
  signerId := zeroBytes 32
  signerSignKey := zeroBytes 2592
  signature := zeroBytes 4627
  hash := zeroBytes 128

/-- The registrar `gr_create` builds, before its first entry. -/
def founded (crypto : Crypto) (groupName : List Byte) (groupType : BitVec 32) (owner : Identity)
    (epochKey : EpochKey) (now : I64) : Registrar where
  header := initialHeader crypto groupName groupType owner now
  peers := Table.empty.upsert (ownerPeer owner now)
  roles := Table.empty
  webapps := Table.empty
  servers := Table.empty
  epochs := Table.empty.upsert (firstEpoch owner epochKey now)
  auditLog := Table.empty
  untrusted := false
  deltaAnomaly := none

def grCreate (crypto : Crypto) (groupName : List Byte) (groupType : BitVec 32) (owner : Identity)
    (epochKey : EpochKey) (clk : Clock) : Except GrError Registrar :=
  if untilZero groupName = [] then .error .invalidParam
  else if groupType ≠ groupPrivate ∧ groupType ≠ groupPublic then .error .invalidParam
  else
    .ok (auditAppend crypto (founded crypto groupName groupType owner epochKey clk.ms) .peerAdded
      owner (some owner.peerId) (ascii "group created") clk.ns)

theorem grCreate_cases (h : grCreate crypto groupName groupType owner epochKey clk = .ok reg) :
    reg = auditAppend crypto (founded crypto groupName groupType owner epochKey clk.ms) .peerAdded
      owner (some owner.peerId) (ascii "group created") clk.ns := by
  unfold grCreate at h
  split at h
  · cases h
  split at h
  · cases h
  exact (Except.ok.inj h).symm

end YumiBrowser.Group
