import YumiBrowser.Library.ByteCodec
import YumiBrowser.Library.KeyedTable

namespace YumiBrowser.Group

open Wire Keyed

abbrev PeerId := Bytes 32
abbrev PublicKey := Bytes 2592
abbrev SecretKey := Bytes 4896
abbrev Signature := Bytes 4627
abbrev Hash := Bytes 128
abbrev KemPublicKey := Bytes 1568
abbrev KemSecretKey := Bytes 3168
abbrev EpochKey := Bytes 128
abbrev Ip := CString 46
abbrev Name := CString 128
abbrev Detail := CString 256
abbrev I64 := BitVec 64

def zeroBytes (n : ℕ) : Bytes n := Bytes.fill n 0

inductive GrError
  | invalidParam
  | notFound
  | alreadyExists
  | unauthorized
  | signatureInvalid
  | db
  | sizeExceeded
  | roleLimit
  | serialization
  | joinUnverified
  | inviteExpired
  | crypto
  | joinFailed
  | joinInviterExcluded
  | inviteInvalid
  | outOfMemory
  deriving DecidableEq

abbrev Perms := BitVec 32

namespace Perm

def none : Perms := 0
def kickMember : Perms := 1 <<< 0
def banMember : Perms := 1 <<< 1
def inviteMember : Perms := 1 <<< 2
def addWebapp : Perms := 1 <<< 3
def removeWebapp : Perms := 1 <<< 4
def editRoles : Perms := 1 <<< 5
def editRetention : Perms := 1 <<< 6
def editServers : Perms := 1 <<< 7
def rotateEpoch : Perms := 1 <<< 8
def signRegistrar : Perms := 1 <<< 9
def setGroupIcon : Perms := 1 <<< 10
def setWebappRoles : Perms := 1 <<< 11
def owner : Perms := 0xFFFFFFFF

end Perm

/-- `gr_peer_status_t`; a row may hold any 32-bit value, the codec does not check it. -/
abbrev PeerStatus := BitVec 32

namespace PeerStatus

def active : PeerStatus := 0
def kicked : PeerStatus := 1
def banned : PeerStatus := 2
def left : PeerStatus := 3

end PeerStatus

inductive ChangeType
  | peerAdded
  | peerRemoved
  | peerKicked
  | peerBanned
  | peerAddress
  | peerRoleChanged
  | roleAdded
  | roleRemoved
  | roleModified
  | webappAdded
  | webappRemoved
  | serverAdded
  | serverRemoved
  | epochRotated
  | retentionSet
  | registrarSigned
  | inviteCreated
  | inviteUsed
  | inviteInvalidated
  | groupIconSet
  | groupIconRemoved
  | bootIpBlocked
  | webappModified
  deriving DecidableEq

namespace ChangeType

def code : ChangeType → BitVec 32
  | peerAdded => 1
  | peerRemoved => 2
  | peerKicked => 3
  | peerBanned => 4
  | peerAddress => 5
  | peerRoleChanged => 6
  | roleAdded => 7
  | roleRemoved => 8
  | roleModified => 9
  | webappAdded => 10
  | webappRemoved => 11
  | serverAdded => 12
  | serverRemoved => 13
  | epochRotated => 14
  | retentionSet => 15
  | registrarSigned => 16
  | inviteCreated => 17
  | inviteUsed => 18
  | inviteInvalidated => 19
  | groupIconSet => 20
  | groupIconRemoved => 21
  | bootIpBlocked => 22
  | webappModified => 23

def all : List ChangeType :=
  [peerAdded, peerRemoved, peerKicked, peerBanned, peerAddress, peerRoleChanged, roleAdded,
    roleRemoved, roleModified, webappAdded, webappRemoved, serverAdded, serverRemoved,
    epochRotated, retentionSet, registrarSigned, inviteCreated, inviteUsed, inviteInvalidated,
    groupIconSet, groupIconRemoved, bootIpBlocked, webappModified]

def ofCode (c : BitVec 32) : Option ChangeType := all.find? fun t => t.code = c

theorem ofCode_code (t : ChangeType) : ofCode t.code = some t := by
  cases t <;> rfl

end ChangeType

structure Peer where
  peerId : PeerId
  kemPk : KemPublicKey
  signKey : PublicKey
  ip : Ip
  port : BitVec 16
  status : PeerStatus
  roleId : BitVec 32
  joinedAt : I64
  removedAt : I64
  lastSeen : I64
  removedReason : Name
  removedBy : PeerId
  deriving DecidableEq

structure Role where
  roleId : BitVec 32
  name : Name
  permissions : Perms
  signKey : PublicKey
  createdAt : I64
  modifiedAt : I64
  deriving DecidableEq

/-- An absent `perm_data` or `role_mask` is the empty blob. -/
structure Webapp where
  hash : Hash
  name : Name
  version : BitVec 32
  addedAt : I64
  addedBy : PeerId
  permData : Blob (512 * 2048)
  roleMask : Blob (50 * 64)
  deriving DecidableEq

structure Server where
  idHash : Hash
  type : BitVec 32
  ip : Ip
  port : BitVec 16
  signKey : PublicKey
  serviceHash : Hash
  contentKemPk : KemPublicKey
  contentKemSk : KemSecretKey
  deriving DecidableEq

structure Epoch where
  epochId : BitVec 32
  epochKey : EpochKey
  createdAt : I64
  expiredAt : I64
  createdBy : PeerId
  deriving DecidableEq

structure AuditEntry where
  entryHash : Hash
  timestamp : I64
  timestampNs : I64
  changeType : BitVec 32
  actorId : PeerId
  targetId : PeerId
  signature : Signature
  registrarVersion : BitVec 32
  detail : Detail
  prevHash : Hash
  deriving DecidableEq

structure Retention where
  messageRetentionMs : I64
  fileRetentionMs : I64
  registrarMaxBytes : I64
  deriving DecidableEq

structure Header where
  groupId : Hash
  groupType : BitVec 32
  groupName : Name
  version : BitVec 32
  createdAt : I64
  updatedAt : I64
  epochId : BitVec 32
  retention : Retention
  ownerId : PeerId
  ownerSignKey : PublicKey
  signerId : PeerId
  signerSignKey : PublicKey
  signature : Signature
  hash : Hash
  deriving DecidableEq

/-- A member's own key pairs. -/
structure Identity where
  publicKey : PublicKey
  secretKey : SecretKey
  kemPk : KemPublicKey
  peerId : PeerId

/-- The primitives of the crypto layer the registrar calls. -/
structure Crypto where
  skein : List Byte → Hash
  sign : SecretKey → Hash → Signature
  verify : Signature → Hash → PublicKey → Bool

inductive DeltaAction
  | proceed
  | suspend
  | proceedExtended
  deriving DecidableEq

/-- `gr_registrar_t`: the header, the tables, and the hooks the host has set. -/
structure Registrar where
  header : Header
  peers : Table Peer.peerId
  roles : Table Role.roleId
  webapps : Table Webapp.hash
  servers : Table Server.idHash
  epochs : Table Epoch.epochId
  auditLog : Table AuditEntry.entryHash
  untrusted : Bool
  deltaAnomaly : Option (ℕ → I64 → DeltaAction)

def groupPrivate : BitVec 32 := 0
def groupPublic : BitVec 32 := 1

end YumiBrowser.Group
