import YumiBrowser.Registrar.Types

namespace YumiBrowser.Group

open Wire Keyed

def serPeer (p : Peer) : List Byte :=
  p.peerId.val ++ p.kemPk.val ++ p.signKey.val ++ writeStr p.ip ++ writeU16 p.port ++
    writeU32 p.status ++ writeU32 p.roleId ++ writeI64 p.joinedAt ++ writeI64 p.removedAt ++
    writeI64 p.lastSeen ++ writeStr p.removedReason ++ p.removedBy.val

def dePeer : Reader Peer := do
  let peerId ← readBytes 32
  let kemPk ← readBytes 1568
  let signKey ← readBytes 2592
  let ip ← readStr 46
  let port ← readU16
  let status ← readU32
  let roleId ← readU32
  let joinedAt ← readI64
  let removedAt ← readI64
  let lastSeen ← readI64
  let removedReason ← readStr 128
  let removedBy ← readBytes 32
  return { peerId, kemPk, signKey, ip, port, status, roleId, joinedAt, removedAt, lastSeen,
           removedReason, removedBy }

def serRole (r : Role) : List Byte :=
  writeU32 r.roleId ++ writeStr r.name ++ writeU32 r.permissions ++ r.signKey.val ++
    writeI64 r.createdAt ++ writeI64 r.modifiedAt

def deRole (wireVer : ℕ) : Reader Role := do
  let roleId ← readU32
  let name ← readStr 128
  let permissions ← readU32
  let signKey ← readBytes 2592
  let createdAt ← readI64
  let modifiedAt ← if 2 ≤ wireVer then readI64 else pure createdAt
  return { roleId, name, permissions, signKey, createdAt, modifiedAt }

def serWebapp (w : Webapp) : List Byte :=
  w.hash.val ++ writeStr w.name ++ writeU32 w.version ++ writeI64 w.addedAt ++ w.addedBy.val ++
    writeBlob w.permData ++ writeBlob w.roleMask

def deWebapp (wireVer : ℕ) : Reader Webapp := do
  let hash ← readBytes 128
  let name ← readStr 128
  let version ← readU32
  let addedAt ← readI64
  let addedBy ← readBytes 32
  let permData ← if 4 ≤ wireVer then readBlob _ else pure ⟨[], Nat.zero_le _⟩
  let roleMask ← if 4 ≤ wireVer then readBlob _ else pure ⟨[], Nat.zero_le _⟩
  return { hash, name, version, addedAt, addedBy, permData, roleMask }

inductive SerializeMode
  | full
  | owner
  deriving DecidableEq

def SerializeMode.code : SerializeMode → BitVec 8
  | full => 0
  | owner => 1

def Server.shown (mode : SerializeMode) (s : Server) : Server :=
  match mode with
  | .owner => s
  | .full => { s with contentKemSk := zeroBytes 3168 }

def serServer (mode : SerializeMode) (s : Server) : List Byte :=
  s.idHash.val ++ writeU32 s.type ++ writeStr s.ip ++ writeU16 s.port ++ s.signKey.val ++
    s.serviceHash.val ++ s.contentKemPk.val ++ (s.shown mode).contentKemSk.val

def deServer : Reader Server := do
  let idHash ← readBytes 128
  let type ← readU32
  let ip ← readStr 46
  let port ← readU16
  let signKey ← readBytes 2592
  let serviceHash ← readBytes 128
  let contentKemPk ← readBytes 1568
  let contentKemSk ← readBytes 3168
  return { idHash, type, ip, port, signKey, serviceHash, contentKemPk, contentKemSk }

def serEpoch (e : Epoch) : List Byte :=
  writeU32 e.epochId ++ e.epochKey.val ++ writeI64 e.createdAt ++ writeI64 e.expiredAt ++
    e.createdBy.val

def deEpoch : Reader Epoch := do
  let epochId ← readU32
  let epochKey ← readBytes 128
  let createdAt ← readI64
  let expiredAt ← readI64
  let createdBy ← readBytes 32
  return { epochId, epochKey, createdAt, expiredAt, createdBy }

def serAudit (a : AuditEntry) : List Byte :=
  a.entryHash.val ++ writeI64 a.timestamp ++ writeI64 a.timestampNs ++ writeU32 a.changeType ++
    a.actorId.val ++ a.targetId.val ++ a.signature.val ++ writeU32 a.registrarVersion ++
    writeStr a.detail ++ a.prevHash.val

def deAudit (wireVer : ℕ) : Reader AuditEntry := do
  let entryHash ← readBytes 128
  let timestamp ← readI64
  let timestampNs ← if 2 ≤ wireVer then readI64 else pure (timestamp * 1000000)
  let changeType ← readU32
  let actorId ← readBytes 32
  let targetId ← readBytes 32
  let signature ← readBytes 4627
  let registrarVersion ← readU32
  let detail ← readStr 256
  let prevHash ← readBytes 128
  return { entryHash, timestamp, timestampNs, changeType, actorId, targetId, signature,
           registrarVersion, detail, prevHash }

def serHeader (h : Header) : List Byte :=
  h.groupId.val ++ writeU32 h.groupType ++ writeStr h.groupName ++ writeU32 h.version ++
    writeI64 h.createdAt ++ writeI64 h.updatedAt ++ writeU32 h.epochId ++
    writeI64 h.retention.messageRetentionMs ++ writeI64 h.retention.fileRetentionMs ++
    writeI64 h.retention.registrarMaxBytes ++ h.ownerId.val ++ h.ownerSignKey.val ++
    h.signerId.val ++ h.signerSignKey.val ++ h.signature.val ++ h.hash.val

def deHeader : Reader Header := do
  let groupId ← readBytes 128
  let groupType ← readU32
  let groupName ← readStr 128
  let version ← readU32
  let createdAt ← readI64
  let updatedAt ← readI64
  let epochId ← readU32
  let messageRetentionMs ← readI64
  let fileRetentionMs ← readI64
  let registrarMaxBytes ← readI64
  let ownerId ← readBytes 32
  let ownerSignKey ← readBytes 2592
  let signerId ← readBytes 32
  let signerSignKey ← readBytes 2592
  let signature ← readBytes 4627
  let hash ← readBytes 128
  return { groupId, groupType, groupName, version, createdAt, updatedAt, epochId,
           retention := { messageRetentionMs, fileRetentionMs, registrarMaxBytes },
           ownerId, ownerSignKey, signerId, signerSignKey, signature, hash }

section RoundTrips

variable {α : Type} (s : List Byte)

theorem readIp_bind (c : Ip) (f : Ip → Reader α) :
    (readStr 46 >>= f).run (writeStr c ++ s) = (f c).run s := readStr_bind c s f (by decide)

theorem readName_bind (c : Name) (f : Name → Reader α) :
    (readStr 128 >>= f).run (writeStr c ++ s) = (f c).run s := readStr_bind c s f (by decide)

theorem readDetail_bind (c : Detail) (f : Detail → Reader α) :
    (readStr 256 >>= f).run (writeStr c ++ s) = (f c).run s := readStr_bind c s f (by decide)

@[simp] theorem dePeer_ser (p : Peer) : dePeer.run (serPeer p ++ s) = some (p, s) := by
  simp only [serPeer, List.append_assoc, dePeer, readBytes_bind, readIp_bind, readName_bind,
    readU16_bind, readU32_bind, readI64_bind]
  rfl

@[simp] theorem deRole_ser (r : Role) : (deRole 4).run (serRole r ++ s) = some (r, s) := by
  simp only [serRole, List.append_assoc, deRole, readBytes_bind, readName_bind, readU32_bind,
    readI64_bind, Nat.reduceLeDiff, ↓reduceIte]
  rfl

@[simp] theorem deWebapp_ser (w : Webapp) :
    (deWebapp 4).run (serWebapp w ++ s) = some (w, s) := by
  simp only [serWebapp, List.append_assoc, deWebapp, readBytes_bind, readName_bind, readU32_bind,
    readI64_bind, Nat.le_refl, ↓reduceIte, readBlob_bind _ _ _ (show 512 * 2048 < 2 ^ 32 by decide),
    readBlob_bind _ _ _ (show 50 * 64 < 2 ^ 32 by decide)]
  rfl

@[simp] theorem deServer_ser (mode : SerializeMode) (v : Server) :
    deServer.run (serServer mode v ++ s) = some (v.shown mode, s) := by
  simp only [serServer, List.append_assoc, deServer, readBytes_bind, readIp_bind, readU16_bind,
    readU32_bind]
  cases mode <;> rfl

@[simp] theorem deEpoch_ser (e : Epoch) : deEpoch.run (serEpoch e ++ s) = some (e, s) := by
  simp only [serEpoch, List.append_assoc, deEpoch, readBytes_bind, readU32_bind, readI64_bind]
  rfl

@[simp] theorem deAudit_ser (a : AuditEntry) :
    (deAudit 4).run (serAudit a ++ s) = some (a, s) := by
  simp only [serAudit, List.append_assoc, deAudit, readBytes_bind, readDetail_bind, readU32_bind,
    readI64_bind, Nat.reduceLeDiff, ↓reduceIte]
  rfl

@[simp] theorem deHeader_ser (h : Header) : deHeader.run (serHeader h ++ s) = some (h, s) := by
  simp only [serHeader, List.append_assoc, deHeader, readBytes_bind, readName_bind, readU32_bind,
    readI64_bind]
  rfl

end RoundTrips

end YumiBrowser.Group
