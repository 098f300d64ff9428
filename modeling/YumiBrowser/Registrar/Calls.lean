import YumiBrowser.Registrar.Transactions

namespace YumiBrowser.Group

open Wire Keyed Fallible

/-- `gr_get_peer_permissions`: the owner's are known without a query, and a refused one finds
none. -/
def permissionsDb (peerId : PeerId) : Db Perms := do
  let s ← get
  if isOwner s.reg peerId then return Perm.owner
  else
    let found ← query fun reg => rolePermsJoin reg peerId
    return found.getD Perm.none

def guardTrusted : Db PUnit := do
  let s ← get
  if s.untrusted then throw .joinUnverified else pure ()

def guardPerm (signer : Identity) (perm : Perms) : Db PUnit := do
  let perms ← permissionsDb signer.peerId
  if perms &&& perm = 0 then throw .unauthorized else pure ()

def guardInviter (signer : Identity) : Db PUnit := do
  let s ← get
  if s.header.groupType = groupPrivate then guardPerm signer Perm.inviteMember else pure ()

def guardNotOwner (peerId : PeerId) : Db PUnit := do
  let s ← get
  if isOwner s.reg peerId then throw .unauthorized else pure ()

def guardThat (ok : Bool) (e : GrError) : Db PUnit := if ok then pure () else throw e

def lookup (find : Registrar → Option α) : Db α := do
  match ← query find with
  | some (some a) => return a
  | some none => throw .notFound
  | none => throw .db

def lookupAssigned (roleId : BitVec 32) : Db PUnit :=
  if 0 < roleId then do let _ ← lookup fun reg => reg.roles.find? roleId else pure ()

def lookupPeer (peerId : PeerId) : Db Peer := lookup fun reg => reg.peers.find? peerId

def audited (crypto : Crypto) (change : ChangeType) (signer : Identity) (target : Option PeerId)
    (detail : List Byte) (ns : I64) (edit : Db PUnit) : Db PUnit :=
  transact do
    edit
    appendDb crypto change signer target detail ns

namespace Db

variable (crypto : Crypto) (clk : Clock)

def peerAdd (peer : Peer) (signer : Identity) : Db PUnit := do
  guardTrusted
  guardInviter signer
  guardThat (deriveId crypto peer.signKey = peer.peerId) .invalidParam
  -- a lookup that is refused counts as one that finds nothing
  match ← query fun reg => reg.peers.find? peer.peerId with
  | some (some existing) =>
    guardThat (existing.status = PeerStatus.kicked) .alreadyExists
    audited crypto .peerAdded signer (some peer.peerId) (ascii "peer re-added (was kicked)") clk.ns
      (update fun reg => updateStatus reg peer.peerId PeerStatus.active 0 [] (zeroBytes 32))
  | _ =>
    let removedBy := if peer.removedBy.val.head? = some 0 then zeroBytes 32 else peer.removedBy
    audited crypto .peerAdded signer (some peer.peerId) (ascii "peer added") clk.ns
      (insert fun reg => (reg.peers.insert? { peer with removedBy }).map fun peers =>
        { reg with peers })

def peerKick (peerId : PeerId) (reason : Option (List Byte)) (signer : Identity) : Db PUnit := do
  guardTrusted
  guardPerm signer Perm.kickMember
  let peer ← lookupPeer peerId
  guardThat (peer.status = PeerStatus.active) .notFound
  guardNotOwner peerId
  audited crypto .peerKicked signer (some peerId) (reason.getD (ascii "kicked")) clk.ns
    (update fun reg =>
      updateStatus reg peerId PeerStatus.kicked clk.ms (reason.getD []) signer.peerId)

def peerBan (peerId : PeerId) (reason : Option (List Byte)) (signer : Identity) : Db PUnit := do
  guardTrusted
  guardPerm signer Perm.banMember
  let _ ← lookupPeer peerId
  guardNotOwner peerId
  audited crypto .peerBanned signer (some peerId) (reason.getD (ascii "banned")) clk.ns
    (update fun reg =>
      updateStatus reg peerId PeerStatus.banned clk.ms (reason.getD []) signer.peerId)

def peerLeave (peer : Identity) : Db PUnit := do
  guardTrusted
  guardNotOwner peer.peerId
  let existing ← lookupPeer peer.peerId
  guardThat (existing.status = PeerStatus.active) .notFound
  audited crypto .peerRemoved peer (some peer.peerId) (ascii "left voluntarily") clk.ns
    (update fun reg => updateStatus reg peer.peerId PeerStatus.left clk.ms
      (ascii "left voluntarily") peer.peerId)

def peerUpdateAddress (ip : List Byte) (port : BitVec 16) (peer : Identity) : Db PUnit :=
  audited crypto .peerAddress peer (some peer.peerId) (ascii "address updated") clk.ns
    (update fun reg => updateAddr reg peer.peerId ip port clk.ms)

def peerObservedAddress (peerId : PeerId) (ip : List Byte) (port : BitVec 16)
    (observer : Identity) : Db PUnit := do
  let existing ← lookupPeer peerId
  guardThat (existing.status = PeerStatus.active) .notFound
  audited crypto .peerAddress observer (some peerId) (ascii "observed address") clk.ns
    (update fun reg => updateAddr reg peerId ip port clk.ms)

def peerTouch (peerId : PeerId) : Db PUnit :=
  update fun reg => { reg with
    peers := reg.peers.modify (fun p => p.peerId = peerId)
      (fun p => { p with lastSeen := clk.ms }) (peerId_touched clk.ms) }

def peerSetRole (peerId : PeerId) (roleId : BitVec 32) (signer : Identity) : Db PUnit := do
  guardTrusted
  guardPerm signer Perm.editRoles
  lookupAssigned roleId
  audited crypto .peerRoleChanged signer (some peerId)
    (ascii "role set to " ++ decimal roleId.toNat) clk.ns
    (update fun reg => { reg with
      peers := reg.peers.modify (fun p => p.peerId = peerId ∧ p.status = PeerStatus.active)
        (fun p => { p with roleId }) (peerId_assigned roleId) })

def roleAdd (name : List Byte) (permissions : Perms) (rolePk : PublicKey) (signer : Identity) :
    Db PUnit := do
  guardTrusted
  guardPerm signer Perm.editRoles
  let count ← lookup fun reg => some reg.roles.rows.length
  guardThat (count < maxRoles) .roleLimit
  let next ← lookup fun reg => some (roleNextId reg)
  guardThat (next < 2 ^ 31) .db
  let roleId := BitVec.ofInt 32 next
  audited crypto .roleAdded signer none
    (ascii "role '" ++ (untilZero name).take 64 ++ ascii "' added (id=" ++ decimal roleId.toNat ++
      ascii ")") clk.ns
    (insert fun reg => (reg.roles.insert?
      { roleId, name := CString.stored 128 name_pos name, permissions, signKey := rolePk,
        createdAt := clk.ms, modifiedAt := clk.ms }).map fun roles => { reg with roles })

def roleRemove (roleId : BitVec 32) (signer : Identity) : Db PUnit := do
  guardTrusted
  guardPerm signer Perm.editRoles
  let role ← lookup fun reg => reg.roles.find? roleId
  audited crypto .roleRemoved signer none
    (ascii "role '" ++ role.name.val.take 64 ++ ascii "' removed (id=" ++ decimal roleId.toNat ++
      ascii ")") clk.ns do
    update fun reg => { reg with
      peers := reg.peers.modify (fun p => p.roleId = roleId) (fun p => { p with roleId := 0 })
        (peerId_assigned 0) }
    update fun reg => { reg with roles := reg.roles.filter fun r => r.roleId ≠ roleId }

def roleSetPermissions (roleId : BitVec 32) (newPermissions : Perms) (signer : Identity) :
    Db PUnit := do
  guardTrusted
  guardPerm signer Perm.editRoles
  audited crypto .roleModified signer none
    (ascii "role " ++ decimal roleId.toNat ++ ascii " permissions set to 0x" ++
      hex 8 newPermissions.toNat true) clk.ns
    (update fun reg => { reg with
      roles := reg.roles.modify (fun r => r.roleId = roleId)
        (fun r => { r with permissions := newPermissions, modifiedAt := clk.ms })
        (roleId_regranted newPermissions clk.ms) })

def webappAdd (webapp : Webapp) (signer : Identity) : Db PUnit := do
  guardTrusted
  guardPerm signer Perm.addWebapp
  audited crypto .webappAdded signer none
    (ascii "webapp '" ++ webapp.name.val.take 64 ++ ascii "' v" ++ decimal webapp.version.toNat ++
      ascii " added") clk.ns
    (insert fun reg => (reg.webapps.insert?
      { webapp with addedAt := clk.ms, addedBy := signer.peerId }).map fun webapps =>
        { reg with webapps })

/-- A statement that has to hit a row: `duckdb_rows_changed` is looked at. -/
def hitting (hit : Session → Bool) (edit : Session → Tables) : Db PUnit := do
  let s ← get
  statement fun s => some (edit s)
  guardThat (hit s) .notFound

def webappRemove (hash : Hash) (signer : Identity) : Db PUnit := do
  guardTrusted
  guardPerm signer Perm.removeWebapp
  audited crypto .webappRemoved signer none (ascii "webapp removed") clk.ns
    (hitting (fun s => (s.tables.webapps.find? hash).isSome) fun s =>
      { s.tables with webapps := s.tables.webapps.filter fun w => w.hash ≠ hash })

def webappUpdatePermData (hash : Hash) (data : List Byte) (signer : Identity) : Db PUnit := do
  guardTrusted
  guardPerm signer Perm.addWebapp
  if h : data.length ≤ 512 * 2048 then
    audited crypto .webappModified signer none (webappDetail hash "perm_data" data.length) clk.ns
      (hitting (fun s => (s.tables.webapps.find? hash).isSome) fun s =>
        { s.tables with
          webapps := s.tables.webapps.modify (fun w => w.hash = hash)
            (fun w => { w with permData := ⟨data, h⟩ }) (hash_permData ⟨data, h⟩) })
  else throw .sizeExceeded

def webappUpdateRoleMask (hash : Hash) (mask : List Byte) (signer : Identity) : Db PUnit := do
  guardTrusted
  guardPerm signer Perm.setWebappRoles
  if h : mask.length ≤ 50 * 64 then
    audited crypto .webappModified signer none (webappDetail hash "role_mask" mask.length) clk.ns
      (hitting (fun s => (s.tables.webapps.find? hash).isSome) fun s =>
        { s.tables with
          webapps := s.tables.webapps.modify (fun w => w.hash = hash)
            (fun w => { w with roleMask := ⟨mask, h⟩ }) (hash_roleMask ⟨mask, h⟩) })
  else throw .sizeExceeded

def serverAdd (server : Server) (signer : Identity) : Db PUnit := do
  guardTrusted
  guardPerm signer Perm.editServers
  let t := if server.type = serverSignaling then "signaling" else "rebroadcast"
  audited crypto .serverAdded signer none
    (ascii (t ++ " server added at ") ++ server.ip.val ++ ascii ":" ++ decimal server.port.toNat)
    clk.ns (insert fun reg => (reg.servers.insert? server).map fun servers => { reg with servers })

def serverRemove (idHash : Hash) (signer : Identity) : Db PUnit := do
  guardTrusted
  guardPerm signer Perm.editServers
  audited crypto .serverRemoved signer none (ascii "server removed") clk.ns
    (hitting (fun s => (s.tables.servers.find? idHash).isSome) fun s =>
      { s.tables with servers := s.tables.servers.filter fun v => v.idHash ≠ idHash })

def retentionSet (policy : Retention) (signer : Identity) : Db PUnit := do
  guardTrusted
  guardPerm signer Perm.editRetention
  transact do
    setHeader fun h => { h with retention := policy }
    headerSave
    appendDb crypto .retentionSet signer none (ascii "retention policy updated") clk.ns

def epochRotate (newKey : EpochKey) (signer : Identity) : Db PUnit := do
  guardTrusted
  guardPerm signer Perm.rotateEpoch
  let s ← get
  let newId := s.header.epochId + 1
  audited crypto .epochRotated signer none (ascii "epoch rotated to " ++ decimal newId.toNat)
    clk.ns do
    update fun reg => { reg with
      epochs := reg.epochs.modify (fun e => e.epochId = s.header.epochId)
        (fun e => { e with expiredAt := clk.ms }) (epochId_expired clk.ms) }
    insert fun reg => (reg.epochs.insert?
      { epochId := newId, epochKey := newKey, createdAt := clk.ms, expiredAt := 0,
        createdBy := signer.peerId }).map fun epochs => { reg with epochs }
    setHeader fun h => { h with epochId := newId }

/-- `select_bootstrap_peers` -/
def readBootstrap : Db PUnit := do
  let active ← lookup fun reg => some (reg.peers.rows.countP fun p => p.status = PeerStatus.active)
  if active = 0 then pure () else let _ ← lookup fun reg => some reg.peers.rows

def readSignaling : Db PUnit := do
  let count ← query fun reg => (serverList reg serverSignaling).length
  if count = some 0 then pure () else let _ ← query fun reg => serverList reg serverSignaling

def inviteCreate (token : Hash) (expiresAt : I64) (inviter : Identity) : Db PUnit := do
  guardTrusted
  guardPerm inviter Perm.inviteMember
  audited crypto .inviteCreated inviter none (ascii "invite created") clk.ns do
    statement fun s => (s.tables.invites.insert?
      { verificationToken := token, createdAt := clk.ms, expiresAt, createdBy := inviter.peerId,
        invalidated := false, used := false, usedBy := zeroBytes 32 }).map fun invites =>
          { s.tables with invites }
    readBootstrap
    readSignaling

def inviteInvalidate (token : Hash) (admin : Identity) : Db PUnit := do
  guardPerm admin Perm.inviteMember
  audited crypto .inviteInvalidated admin none (ascii "invite invalidated") clk.ns
    (hitting (fun s => (s.tables.invites.find? token).isSome) fun s =>
      { s.tables with
        invites := s.tables.invites.modify (fun i => i.verificationToken = token)
          (fun i => { i with invalidated := true }) fun _ => rfl })

/-- `gr_invite_check`; no deadline is the deadline 0. -/
def Invite.valid (i : Invite) (now : I64) : Bool :=
  !i.invalidated && !i.used && (i.expiresAt = 0 ∨ now.toInt < i.expiresAt.toInt)

def inviteMarkUsed (token : Hash) (peerId : PeerId) (signer : Identity) : Db PUnit := do
  let taken ← answer
  let s ← get
  guardThat taken .db
  guardThat ((s.tables.invites.find? token).any fun i => Invite.valid i clk.ms) .inviteExpired
  audited crypto .inviteUsed signer (some peerId) (ascii "invite redeemed") clk.ns
    (statement fun s => some { s.tables with
      invites := s.tables.invites.modify (fun i => i.verificationToken = token)
        (fun i => { i with used := true, usedBy := peerId }) fun _ => rfl })

def sign (signer : Identity) : Db PUnit := do
  guardTrusted
  guardPerm signer Perm.signRegistrar
  transact do
    appendDb crypto .registrarSigned signer none (ascii "registrar signed") clk.ns
    setHeader fun h => h.signed crypto signer
    headerSave

end Db

end YumiBrowser.Group
