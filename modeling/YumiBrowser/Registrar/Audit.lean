import Mathlib.Data.List.MinMax
import Mathlib.Data.Prod.Lex
import YumiBrowser.Registrar.Serialize

namespace YumiBrowser.Group

open Wire Keyed

def isOwner (reg : Registrar) (peerId : PeerId) : Bool := reg.header.ownerId = peerId

/-- `ps_role_perms_join`: the role of an active peer. `role_id` is compared as a signed integer. -/
def rolePermsJoin (reg : Registrar) (peerId : PeerId) : Perms :=
  match reg.peers.find? peerId with
  | some p =>
    if p.status = PeerStatus.active ∧ 0 < p.roleId.toInt then
      match reg.roles.find? p.roleId with
      | some r => r.permissions
      | none => Perm.none
    else Perm.none
  | none => Perm.none

def getPeerPermissions (reg : Registrar) (peerId : PeerId) : Perms :=
  if isOwner reg peerId then Perm.owner else rolePermsJoin reg peerId

def checkPerm (reg : Registrar) (signer : Identity) (perm : Perms) : Bool :=
  getPeerPermissions reg signer.peerId &&& perm ≠ 0

/-- What the hash of an entry covers; `timestamp_ns` and the signature are not part of it. -/
def AuditEntry.hashed (e : AuditEntry) : List Byte :=
  e.prevHash.val ++ writeI64 e.timestamp ++ writeU32 e.changeType ++ e.actorId.val ++
    e.targetId.val ++ writeU32 e.registrarVersion ++ e.detail.val

def Place : Type := ℤ ×ₗ ℤ

instance : LinearOrder Place := @Prod.Lex.instLinearOrder ℤ ℤ Int.instLinearOrder Int.instLinearOrder

def AuditEntry.place (e : AuditEntry) : Place := toLex (e.registrarVersion.toInt, e.timestamp.toInt)

abbrev AuditLog := Table AuditEntry.entryHash

def lastHash (log : AuditLog) : Option Hash := (log.rows.argmax AuditEntry.place).map (·.entryHash)

def countPrev (log : AuditLog) (prev : Hash) : ℕ := log.rows.countP fun e => e.prevHash = prev

def auditMaxRows : ℕ := 25 * 1024 * 1024 / 500

/-- `ps_audit_prune`: drop the oldest entries, but none that shares its predecessor. -/
def auditPrune (log : AuditLog) (excess : ℕ) : AuditLog :=
  let oldest := ((log.rows.filter fun e => countPrev log e.prevHash ≤ 1).mergeSort
    fun a b => a.place ≤ b.place).take excess
  log.filter fun e => oldest.all fun o => o.entryHash ≠ e.entryHash

def enforceRetention (log : AuditLog) : AuditLog :=
  if log.rows.length ≤ auditMaxRows then log
  else auditPrune log (log.rows.length - auditMaxRows)

def ascii (s : String) : List Byte := s.toList.map fun c => BitVec.ofNat 8 c.toNat

def decimal (n : ℕ) : List Byte := ascii (toString n)

def hex (width n : ℕ) (upper : Bool) : List Byte :=
  let digits := Nat.toDigits 16 n
  let padded := List.replicate (width - digits.length) '0' ++ digits
  ascii (String.ofList (if upper then padded.map Char.toUpper else padded))

/-- The two clock readings of a mutator: `gr_timestamp_ms` and, in the log, `gr_timestamp_ns`. -/
structure Clock where
  ms : I64
  ns : I64

def newEntry (crypto : Crypto) (reg : Registrar) (change : ChangeType) (actor : Identity)
    (target : Option PeerId) (detail : List Byte) (ns : I64) : AuditEntry :=
  let entry : AuditEntry :=
    { entryHash := zeroBytes 128
      timestamp := ns.sdiv 1000000
      timestampNs := ns
      changeType := change.code
      actorId := actor.peerId
      targetId := target.getD (zeroBytes 32)
      signature := zeroBytes 4627
      registrarVersion := reg.header.version + 1
      detail := CString.copy 256 (by decide) detail
      prevHash := (lastHash reg.auditLog).getD (zeroBytes 128) }
  let entryHash := crypto.skein entry.hashed
  { entry with entryHash, signature := crypto.sign actor.secretKey entryHash }

def auditAppend (crypto : Crypto) (reg : Registrar) (change : ChangeType) (actor : Identity)
    (target : Option PeerId) (detail : List Byte) (ns : I64) : Registrar :=
  let entry := newEntry crypto reg change actor target detail ns
  { reg with
    header :=
      { reg.header with version := entry.registrarVersion, updatedAt := entry.timestamp }
    auditLog := enforceRetention (reg.auditLog.insertIgnore entry) }

section Append

variable (crypto : Crypto) (reg : Registrar) (change : ChangeType) (actor : Identity)
  (target : Option PeerId) (detail : List Byte) (ns : I64)

@[simp] theorem peers_auditAppend :
    (auditAppend crypto reg change actor target detail ns).peers = reg.peers := rfl

@[simp] theorem roles_auditAppend :
    (auditAppend crypto reg change actor target detail ns).roles = reg.roles := rfl

@[simp] theorem epochs_auditAppend :
    (auditAppend crypto reg change actor target detail ns).epochs = reg.epochs := rfl

@[simp] theorem epochId_auditAppend :
    (auditAppend crypto reg change actor target detail ns).header.epochId = reg.header.epochId := rfl

end Append

theorem length_enforceRetention_le (log : AuditLog) :
    (enforceRetention log).rows.length ≤ log.rows.length := by
  unfold enforceRetention
  split
  · exact Nat.le_refl _
  · exact List.length_filter_le ..

theorem length_auditAppend_le : (auditAppend crypto reg change actor target detail ns).auditLog.rows.length ≤
    reg.auditLog.rows.length + 1 :=
  (length_enforceRetention_le _).trans Table.length_insertIgnore_le

end YumiBrowser.Group
