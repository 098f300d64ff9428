import YumiBrowser.Registrar.DeltaAuthorization
import YumiBrowser.Registrar.LocalRuns

namespace YumiBrowser.Group

open Wire Keyed

def SideChange.permitted (reg : Registrar) (signer : Identity) : SideChange → Bool
  | inviteCreated => ¬ reg.untrusted ∧ checkPerm reg signer Perm.inviteMember
  | inviteInvalidated => checkPerm reg signer Perm.inviteMember
  | inviteUsed _ => true
  | groupIconSet => ¬ reg.untrusted ∧ checkPerm reg signer Perm.setGroupIcon
  | groupIconRemoved => ¬ reg.untrusted ∧ checkPerm reg signer Perm.setGroupIcon

def Mutation.permitted (reg : Registrar) : Mutation → Bool
  | side change _ signer => change.permitted reg signer
  | _ => true

/-- A replica of the same group with the same peers and roles. -/
structure SameMembers (reg replica : Registrar) : Prop where
  owner : replica.header.ownerId = reg.header.ownerId
  peers : ∀ k, replica.peers.find? k = reg.peers.find? k
  roles : ∀ k, replica.roles.find? k = reg.roles.find? k

/-- Active at that time, in a role that grants `p`. -/
def Peer.Holds (peer : Peer) (roles : Table Role.roleId) (timestamp : I64) (p : Perms) : Prop :=
  wasActive peer timestamp = true ∧ peer.roleId ≠ 0 ∧
    ∃ role, roles.find? peer.roleId = some role ∧ role.permissions &&& p ≠ 0

def Registrar.Granted (reg : Registrar) (peerId : PeerId) (timestamp : I64) (p : Perms) : Prop :=
  peerId = reg.header.ownerId ∨
    ∃ peer, reg.peers.find? peerId = some peer ∧ peer.Holds reg.roles timestamp p

def Registrar.Decides (reg : Registrar) (peerId : PeerId) (timestamp : I64) : Prop :=
  ∃ peer, reg.peers.find? peerId = some peer ∧ wasActive peer timestamp = true ∧
    (peer.roleId = 0 ∨ (reg.roles.find? peer.roleId).isSome)

def Registrar.joined (reg : Registrar) (peer : Peer) : Peer :=
  match reg.peers.find? peer.peerId with
  | some row => { row with status := PeerStatus.active }
  | none => peer.entered

/-- Where a mutator asks for less than the replicas do, what it would have to ask for as well. The
replicas judge by the tables the call leaves, so it must not take from its signer what it needs. -/
def Mutation.Endorsed (reg : Registrar) (clk : Clock) : Mutation → Prop
  | peerAdd peer signer =>
    reg.header.groupType = groupPrivate ∨ signer.peerId = reg.header.ownerId ∨
      if signer.peerId = peer.peerId then
        (reg.joined peer).Holds reg.roles (clk.ns.sdiv 1000000) Perm.inviteMember
      else reg.Granted signer.peerId (clk.ns.sdiv 1000000) Perm.inviteMember
  | peerLeave peer =>
    checkPerm reg peer Perm.kickMember = true ∨
      0 < clk.ms.toInt ∧ (clk.ns.sdiv 1000000).toInt < clk.ms.toInt ∧
        reg.Granted peer.peerId (clk.ns.sdiv 1000000) Perm.kickMember
  | peerSetRole peerId roleId signer =>
    signer.peerId = reg.header.ownerId ∨ signer.peerId ≠ peerId ∨
      roleId ≠ 0 ∧ ∃ role, reg.roles.find? roleId = some role ∧ role.permissions &&& Perm.editRoles ≠ 0
  | roleRemove roleId signer =>
    signer.peerId = reg.header.ownerId ∨
      ∀ row, reg.peers.find? signer.peerId = some row → row.roleId ≠ roleId
  | roleSetPermissions roleId permissions signer =>
    signer.peerId = reg.header.ownerId ∨ permissions &&& Perm.editRoles ≠ 0 ∨
      ∀ row, reg.peers.find? signer.peerId = some row → row.roleId ≠ roleId
  | webappUpdatePermData .. => False
  | webappUpdateRoleMask .. => False
  | sign signer => signer.peerId = reg.header.ownerId
  | side (.inviteUsed _) _ signer =>
    reg.Granted signer.peerId (clk.ns.sdiv 1000000) Perm.inviteMember
  | _ => True

section Lookup

variable {reg reg' replica sender : Registrar} {e : AuditEntry} {p : Perms}

theorem find?_stateOf_roles (k : BitVec 32) :
    (stateOf sender).roles.find? (fun r => r.roleId = k) = sender.roles.find? k :=
  Table.find?_perm (List.mergeSort_perm ..)

theorem row_of_rolePermsJoin {id : PeerId} (h : rolePermsJoin reg id &&& p ≠ 0) :
    ∃ row role, reg.peers.find? id = some row ∧ row.status = PeerStatus.active ∧ row.roleId ≠ 0 ∧
      reg.roles.find? row.roleId = some role ∧ role.permissions &&& p ≠ 0 := by
  unfold rolePermsJoin at h
  cases hrow : reg.peers.find? id with
  | none => simp [hrow, Perm.none] at h
  | some row =>
    simp only [hrow] at h
    split at h
    · next hactive =>
      cases hrole : reg.roles.find? row.roleId with
      | none => simp [hrole, Perm.none] at h
      | some role =>
        simp only [hrole] at h
        refine ⟨row, role, rfl, hactive.1, ?_, hrole, h⟩
        intro hzero
        rw [hzero] at hactive
        exact absurd hactive.2 (by decide)
    · simp [Perm.none] at h

theorem checkPerm_iff_of_ne {signer : Identity} (hne : signer.peerId ≠ reg.header.ownerId) :
    checkPerm reg signer p = true ↔ rolePermsJoin reg signer.peerId &&& p ≠ 0 := by
  have hnot : ¬ isOwner reg signer.peerId = true := fun h => hne (of_decide_eq_true h).symm
  rw [checkPerm, getPeerPermissions, if_neg hnot, decide_eq_true_iff]

theorem granted_of_join {id : PeerId} (h : rolePermsJoin reg id &&& p ≠ 0) (ts : I64) :
    reg.Granted id ts p := by
  obtain ⟨row, role, hrow, hactive, hzero, hrole, hperm⟩ := row_of_rolePermsJoin h
  exact .inr ⟨row, hrow, decide_eq_true (.inl hactive), hzero, role, hrole, hperm⟩

theorem granted_of_checkPerm {signer : Identity} (h : checkPerm reg signer p = true) (ts : I64) :
    reg.Granted signer.peerId ts p := by
  by_cases howner : signer.peerId = reg.header.ownerId
  · exact .inl howner
  · exact granted_of_join ((checkPerm_iff_of_ne howner).mp h) ts

theorem entryPerms_iff (hreplica : SameMembers reg replica) (hsender : SameMembers reg' sender)
    (howner : reg'.header.ownerId = reg.header.ownerId) (hp : Perm.owner &&& p ≠ 0) :
    entryPerms replica (some (stateOf sender)) e &&& p ≠ 0 ↔
      reg'.Granted e.actorId e.timestamp p ∨
        ¬ reg'.Decides e.actorId e.timestamp ∧ rolePermsJoin reg e.actorId &&& p ≠ 0 := by
  have hroles := fun k => (find?_stateOf_roles k).trans (hsender.roles k)
  have hpeers : ∀ k, (stateOf sender).peers.find? (fun q => q.peerId = k) = reg'.peers.find? k :=
    hsender.peers
  by_cases hactor : e.actorId = reg'.header.ownerId
  · have hsome : deltaPerms (stateOf sender) e = some Perm.owner :=
      if_pos (hactor.trans hsender.owner.symm)
    simp only [entryPerms, Option.bind_some, hsome, Option.getD_some]
    exact ⟨fun _ => .inl (.inl hactor), fun _ => hp⟩
  · have hnot : ¬ isOwner replica e.actorId = true := by
      intro h
      exact hactor ((of_decide_eq_true h).symm.trans (hreplica.owner.trans howner.symm))
    have hforeign : ¬ e.actorId = (stateOf sender).header.ownerId :=
      fun h => hactor (h.trans hsender.owner)
    have hlocal : localPerms replica e = rolePermsJoin reg e.actorId := by
      rw [localPerms, if_neg hnot, getPeerPermissions, if_neg hnot]
      simp only [rolePermsJoin, hreplica.peers, hreplica.roles]
    simp only [entryPerms, Option.bind_some, deltaPerms, if_neg hforeign, hpeers, hlocal,
      Registrar.Granted, hactor, false_or, Registrar.Decides, Peer.Holds]
    cases hpeer : reg'.peers.find? e.actorId with
    | none => simp
    | some peer =>
      by_cases hactive : wasActive peer e.timestamp = true
      · by_cases hzero : peer.roleId = 0#32
        · simp [hactive, hzero, Perm.none]
        · cases hrole : reg'.roles.find? peer.roleId with
          | none => simp [hactive, hzero, hroles, hrole]
          | some role => simp [hactive, hzero, hroles, hrole]
      · simp [hactive]

end Lookup

section Switch

variable {crypto : Crypto} {clk : Clock} {reg reg' replica sender : Registrar} {c : Record}

/-- The switch of `gr_apply_delta`, for the types that ask for one permission. -/
def ChangeType.asked : ChangeType → Option Perms
  | peerAdded | inviteCreated | inviteUsed | inviteInvalidated => some Perm.inviteMember
  | peerKicked | peerRemoved => some Perm.kickMember
  | peerBanned => some Perm.banMember
  | peerRoleChanged | roleAdded | roleRemoved | roleModified => some Perm.editRoles
  | webappAdded => some Perm.addWebapp
  | webappRemoved => some Perm.removeWebapp
  | serverAdded | serverRemoved => some Perm.editServers
  | epochRotated => some Perm.rotateEpoch
  | retentionSet => some Perm.editRetention
  | groupIconSet | groupIconRemoved => some Perm.setGroupIcon
  | _ => none

theorem authorized_of_asked {e : AuditEntry} {change : ChangeType} {p : Perms} (hask : change.asked = some p)
    (he : e.changeType = change.code) (state : Option DeltaState) :
    authorized replica state e = decide (entryPerms replica state e &&& p ≠ 0) := by
  unfold authorized
  rw [he, ChangeType.ofCode_code]
  cases change <;> cases hask <;> rfl

theorem owner_asked {change : ChangeType} {p : Perms} (hask : change.asked = some p) :
    Perm.owner &&& p ≠ 0 := by
  cases change <;> cases hask <;> decide

structure Judged (reg reg' replica sender : Registrar) : Prop where
  replica : SameMembers reg replica
  sender : SameMembers reg' sender
  owner : reg'.header.ownerId = reg.header.ownerId

theorem Judged.authorized_iff {p : Perms} (h : Judged reg reg' replica sender)
    (hask : c.change.asked = some p) :
    authorized replica (some (stateOf sender)) (c.entry crypto reg ns) = true ↔
      reg'.Granted c.actor.peerId (ns.sdiv 1000000) p ∨
        ¬ reg'.Decides c.actor.peerId (ns.sdiv 1000000) ∧
          rolePermsJoin reg c.actor.peerId &&& p ≠ 0 := by
  rw [authorized_of_asked hask rfl, decide_eq_true_iff]
  exact entryPerms_iff h.replica h.sender h.owner (owner_asked hask)

theorem Judged.authorized_of_owner {p : Perms} (h : Judged reg reg' replica sender)
    (hask : c.change.asked = some p)
    (hactor : c.actor.peerId = reg.header.ownerId) :
    authorized replica (some (stateOf sender)) (c.entry crypto reg ns) = true :=
  (h.authorized_iff hask).mpr (.inl (.inl (hactor.trans h.owner.symm)))

theorem Judged.authorized_iff_granted {p : Perms} (h : Judged reg reg' replica sender)
    (hask : c.change.asked = some p)
    (hpeers : reg'.peers.find? c.actor.peerId = reg.peers.find? c.actor.peerId)
    (hroles : reg'.roles = reg.roles) :
    authorized replica (some (stateOf sender)) (c.entry crypto reg ns) = true ↔
      reg.Granted c.actor.peerId (ns.sdiv 1000000) p := by
  rw [h.authorized_iff hask, Registrar.Granted, hpeers, hroles, h.owner]
  exact ⟨fun hor => hor.elim id fun hjoin => granted_of_join hjoin.2 _, .inl⟩

theorem Judged.authorized_of_checkPerm {p : Perms} (h : Judged reg reg' replica sender)
    (hask : c.change.asked = some p)
    (hperm : checkPerm reg c.actor p = true)
    (hkept : ∀ row role, reg.peers.find? c.actor.peerId = some row → row.status = PeerStatus.active →
      reg.roles.find? row.roleId = some role → c.actor.peerId ≠ reg.header.ownerId →
      ∃ row' role', reg'.peers.find? c.actor.peerId = some row' ∧ row'.roleId = row.roleId ∧
        reg'.roles.find? row.roleId = some role' ∧
        (role.permissions &&& p ≠ 0 → role'.permissions &&& p ≠ 0)) :
    authorized replica (some (stateOf sender)) (c.entry crypto reg ns) = true := by
  by_cases howner : c.actor.peerId = reg.header.ownerId
  · exact h.authorized_of_owner hask howner
  · rw [h.authorized_iff hask]
    have hjoin := (checkPerm_iff_of_ne howner).mp hperm
    obtain ⟨row, role, hrow, hactive, hzero, hrole, hgrants⟩ := row_of_rolePermsJoin hjoin
    obtain ⟨row', role', hrow', hid, hrole', hgrants'⟩ := hkept row role hrow hactive hrole howner
    refine or_iff_not_imp_right.mpr fun hdecides => ?_
    have hdecides := not_not.mp fun hnot => hdecides ⟨hnot, hjoin⟩
    obtain ⟨seen, hseen, hwas, _⟩ := hdecides
    obtain rfl := Option.some.inj (hrow'.symm.trans hseen)
    rw [← hid] at hzero hrole'
    exact .inr ⟨row', hrow', hwas, hzero, role', hrole', hgrants' hgrants⟩

theorem Judged.authorized_iff_row {p : Perms} (h : Judged reg reg' replica sender) {row : Peer}
    (hask : c.change.asked = some p) (hactor : c.actor.peerId ≠ reg.header.ownerId)
    (hrow : reg'.peers.find? c.actor.peerId = some row)
    (hdecides : rolePermsJoin reg c.actor.peerId &&& p ≠ 0 →
      wasActive row (ns.sdiv 1000000) = true ∧
        (row.roleId = 0 ∨ (reg'.roles.find? row.roleId).isSome)) :
    authorized replica (some (stateOf sender)) (c.entry crypto reg ns) = true ↔
      row.Holds reg'.roles (ns.sdiv 1000000) p := by
  have hforeign : c.actor.peerId ≠ reg'.header.ownerId := fun he => hactor (he.trans h.owner)
  rw [h.authorized_iff hask, Registrar.Granted, or_iff_right hforeign]
  simp only [hrow, Option.some.injEq, exists_eq_left']
  refine or_iff_left fun hjoin => ?_
  exact hjoin.1 ⟨row, hrow, hdecides hjoin.2⟩

end Switch

section Calls

variable {crypto : Crypto} {clk : Clock} {reg reg' replica sender : Registrar} {m : Mutation}

theorem Mutation.keeps_grant (hrun : m.run crypto reg clk = .ok reg') {id : PeerId} {row : Peer}
    {role : Role} (hrow : reg.peers.find? id = some row) (hrole : reg.roles.find? row.roleId = some role)
    (hassign : ∀ roleId signer, m ≠ .peerSetRole id roleId signer) (hremove : ¬ m.RemovesRole row.roleId)
    (hset : ∀ permissions signer, m ≠ .roleSetPermissions row.roleId permissions signer) :
    ∃ row' role', reg'.peers.find? id = some row' ∧ row'.roleId = row.roleId ∧
      reg'.roles.find? row.roleId = some role' ∧
      (role.permissions &&& p ≠ 0 → role'.permissions &&& p ≠ 0) := by
  have hstep := Mutation.rowStep hrun id
  rw [hrow] at hstep
  obtain ⟨row', hrow', hid⟩ := hstep.keeps_roleId hassign hremove
  obtain ⟨mid, hmid, rfl⟩ := m.edits crypto reg clk reg' hrun
  refine ⟨row', role, hrow', hid, ?_, fun h => h⟩
  rw [unrecorded_roles.close]
  exact hmid.keeps_role hrole hremove hset

theorem Mutation.judged (hrun : m.run crypto reg clk = .ok reg') (hreplica : SameMembers reg replica)
    (hsender : SameMembers reg' sender) : Judged reg reg' replica sender :=
  ⟨hreplica, hsender, Mutation.keeps_owner reg' hrun⟩

theorem authorized_of_mutate {perm : Perms} {c : Record} (hrun : m.run crypto reg clk = .ok reg')
    (hreplica : SameMembers reg replica) (hsender : SameMembers reg' sender)
    (hask : c.change.asked = some perm) (hperm : checkPerm reg c.actor perm = true)
    (hassign : ∀ roleId signer, m ≠ .peerSetRole c.actor.peerId roleId signer)
    (hremove : ∀ roleId, ¬ m.RemovesRole roleId)
    (hset : ∀ roleId permissions signer, m ≠ .roleSetPermissions roleId permissions signer) :
    authorized replica (some (stateOf sender)) (c.entry crypto reg ns) = true :=
  (Mutation.judged hrun hreplica hsender).authorized_of_checkPerm hask hperm
    fun row _ hrow _ hrole _ =>
      Mutation.keeps_grant hrun hrow hrole hassign (hremove row.roleId) (hset row.roleId)

theorem peerLeave_leaves {peer : Identity} (hrun : (Mutation.peerLeave peer).run crypto reg clk = .ok reg') :
    peer.peerId ≠ reg.header.ownerId ∧ reg'.roles = reg.roles ∧
      ∃ row gone, reg.peers.find? peer.peerId = some row ∧ row.status = PeerStatus.active ∧
        reg'.peers.find? peer.peerId = some gone ∧ gone.roleId = row.roleId ∧
        gone.status = PeerStatus.left ∧ gone.removedAt = clk.ms := by
  obtain ⟨mid, hmid, rfl⟩ := (Mutation.peerLeave peer).edits crypto reg clk reg' hrun
  rw [unrecorded_roles.close, unrecorded_peers.close]
  cases hmid with
  | @peerLeft row _ _ hrow hactive howner =>
    refine ⟨fun h => of_decide_eq_false howner h.symm, rfl, row, ?_⟩
    rw [updateStatus, Table.find?_modify, hrow, Option.map_some,
      if_pos (decide_eq_true (Table.key_of_find? hrow))]
    exact ⟨_, rfl, hactive, rfl, rfl, rfl, rfl⟩

theorem authorized_peerLeave_iff {c : Record}
    (hrun : (Mutation.peerLeave c.actor).run crypto reg clk = .ok reg')
    (hreplica : SameMembers reg replica) (hsender : SameMembers reg' sender)
    (hask : c.change.asked = some Perm.kickMember) :
    authorized replica (some (stateOf sender)) (c.entry crypto reg clk.ns) = true ↔
      (Mutation.peerLeave c.actor).Endorsed reg clk := by
  have hjudged := Mutation.judged hrun hreplica hsender
  obtain ⟨hne, hroles, row, gone, hrow, hactive, hgone, hid, hstatus, hremoved⟩ := peerLeave_leaves hrun
  have hwas : wasActive gone (clk.ns.sdiv 1000000) = true ↔
      0 < clk.ms.toInt ∧ (clk.ns.sdiv 1000000).toInt < clk.ms.toInt := by
    simp [wasActive, hstatus, hremoved, PeerStatus.left, PeerStatus.active]
  have hheld : wasActive row (clk.ns.sdiv 1000000) = true := decide_eq_true (.inl hactive)
  have hgrant : reg.Granted c.actor.peerId (clk.ns.sdiv 1000000) Perm.kickMember ↔
      row.Holds reg.roles (clk.ns.sdiv 1000000) Perm.kickMember := by
    simp only [Registrar.Granted, hne, hrow, Option.some.injEq, exists_eq_left', false_or]
  have hsame : gone.Holds reg'.roles (clk.ns.sdiv 1000000) Perm.kickMember ↔
      wasActive gone (clk.ns.sdiv 1000000) = true ∧
        row.Holds reg.roles (clk.ns.sdiv 1000000) Perm.kickMember := by
    simp only [Peer.Holds, hid, hroles, hheld, true_and]
  have hleft : reg'.Granted c.actor.peerId (clk.ns.sdiv 1000000) Perm.kickMember ↔
      gone.Holds reg'.roles (clk.ns.sdiv 1000000) Perm.kickMember := by
    simp only [Registrar.Granted, hjudged.owner, hne, hgone, Option.some.injEq, exists_eq_left', false_or]
  rw [Mutation.Endorsed, checkPerm_iff_of_ne hne, hgrant, ← and_assoc, ← hwas, ← hsame,
    hjudged.authorized_iff hask, hleft]
  constructor
  · rintro (hholds | ⟨-, hjoin⟩)
    · exact .inr hholds
    · exact .inl hjoin
  · rintro (hjoin | hholds)
    · by_cases hcounts : wasActive gone (clk.ns.sdiv 1000000) = true
      · exact .inl (hsame.mpr ⟨hcounts, hgrant.mp (granted_of_join hjoin _)⟩)
      · refine .inr ⟨?_, hjoin⟩
        rintro ⟨seen, hseen, hactive', -⟩
        obtain rfl := Option.some.inj (hgone.symm.trans hseen)
        exact hcounts hactive'
    · exact .inl hholds

theorem peerAdd_leaves {peer : Peer} {signer : Identity}
    (hrun : (Mutation.peerAdd peer signer).run crypto reg clk = .ok reg') :
    reg'.roles = reg.roles ∧ rolePermsJoin reg peer.peerId = Perm.none ∧
      (∀ k, k ≠ peer.peerId → reg'.peers.find? k = reg.peers.find? k) ∧
      ∃ row, reg'.peers.find? peer.peerId = some row ∧
        ∀ roles ts p, row.Holds roles ts p ↔ (reg.joined peer).Holds roles ts p := by
  obtain ⟨mid, hmid, rfl⟩ := (Mutation.peerAdd peer signer).edits crypto reg clk reg' hrun
  rw [unrecorded_roles.close, unrecorded_peers.close]
  cases hmid with
  | peerAdded _ _ _ hfree hinsert =>
    refine ⟨rfl, by simp only [rolePermsJoin, hfree], fun k hk => ?_, peer.entered, ?_, fun _ _ _ => ?_⟩
    · rw [Table.find?_insert? hinsert]
      exact Function.update_of_ne hk ..
    · rw [Table.find?_insert? hinsert]
      exact Function.update_self ..
    · rw [Registrar.joined, hfree]
  | @peerReadded existing _ _ _ _ _ hrow hkicked =>
    have hlocal : rolePermsJoin reg peer.peerId = Perm.none := by
      simp [rolePermsJoin, hrow, hkicked, PeerStatus.kicked, PeerStatus.active]
    refine ⟨rfl, hlocal, fun k hk => ?_, ?_⟩
    · rw [updateStatus, Table.find?_modify]
      cases hother : reg.peers.find? k with
      | none => rfl
      | some row =>
        have hmiss : ¬ row.peerId = peer.peerId := fun h => hk ((Table.key_of_find? hother).symm.trans h)
        rw [Option.map_some, if_neg (decide_eq_true_iff.not.mpr hmiss)]
    · rw [updateStatus, Table.find?_modify, hrow, Option.map_some,
        if_pos (decide_eq_true (Table.key_of_find? hrow))]
      refine ⟨_, rfl, fun roles ts p => ?_⟩
      simp only [Registrar.joined, hrow, Peer.Holds, wasActive, true_or, decide_true]

theorem peerSetRole_leaves {k : PeerId} {roleId : BitVec 32} {signer : Identity} {row : Peer}
    (hrun : (Mutation.peerSetRole k roleId signer).run crypto reg clk = .ok reg')
    (hrow : reg.peers.find? k = some row) (hactive : row.status = PeerStatus.active) :
    reg'.roles = reg.roles ∧ (0 < roleId → (reg.roles.find? roleId).isSome) ∧
      reg'.peers.find? k = some { row with roleId } := by
  obtain ⟨mid, hmid, rfl⟩ := (Mutation.peerSetRole k roleId signer).edits crypto reg clk reg' hrun
  rw [unrecorded_roles.close, unrecorded_peers.close]
  cases hmid with
  | roleAssigned _ hknown =>
    refine ⟨rfl, hknown, ?_⟩
    rw [Table.find?_modify, hrow, Option.map_some,
      if_pos (decide_eq_true ⟨Table.key_of_find? hrow, hactive⟩)]

theorem roleRemove_leaves {k : PeerId} {roleId : BitVec 32} {signer : Identity} {row : Peer}
    (hrun : (Mutation.roleRemove roleId signer).run crypto reg clk = .ok reg')
    (hrow : reg.peers.find? k = some row) (hrole : row.roleId = roleId) :
    reg'.peers.find? k = some { row with roleId := 0 } := by
  obtain ⟨mid, hmid, rfl⟩ := (Mutation.roleRemove roleId signer).edits crypto reg clk reg' hrun
  rw [unrecorded_peers.close]
  cases hmid with
  | roleRemoved => rw [Table.find?_modify, hrow, Option.map_some, if_pos (decide_eq_true hrole)]

theorem roleSetPermissions_leaves {roleId : BitVec 32} {permissions : Perms} {signer : Identity}
    (hrun : (Mutation.roleSetPermissions roleId permissions signer).run crypto reg clk = .ok reg') :
    reg'.peers = reg.peers ∧ ∀ role, reg.roles.find? roleId = some role →
      ∃ role', reg'.roles.find? roleId = some role' ∧ role'.permissions = permissions := by
  obtain ⟨mid, hmid, rfl⟩ :=
    (Mutation.roleSetPermissions roleId permissions signer).edits crypto reg clk reg' hrun
  rw [unrecorded_roles.close, unrecorded_peers.close]
  cases hmid with
  | permissionsSet =>
    refine ⟨rfl, fun role hrole => ?_⟩
    rw [Table.find?_modify, hrole, Option.map_some,
      if_pos (decide_eq_true (Table.key_of_find? hrole))]
    exact ⟨_, rfl, rfl⟩

theorem authorized_peerAdd_iff {c : Record} {peer : Peer}
    (hrun : (Mutation.peerAdd peer c.actor).run crypto reg clk = .ok reg')
    (hreplica : SameMembers reg replica) (hsender : SameMembers reg' sender)
    (hask : c.change.asked = some Perm.inviteMember) :
    authorized replica (some (stateOf sender)) (c.entry crypto reg clk.ns) = true ↔
      (Mutation.peerAdd peer c.actor).Endorsed reg clk := by
  have hjudged := Mutation.judged hrun hreplica hsender
  obtain ⟨hroles, hlocal, hothers, row, hrow, hholds⟩ := peerAdd_leaves hrun
  by_cases howner : c.actor.peerId = reg.header.ownerId
  · exact iff_of_true (hjudged.authorized_of_owner hask howner) (.inr (.inl howner))
  · rw [Mutation.Endorsed, or_iff_right howner]
    by_cases hself : c.actor.peerId = peer.peerId
    · -- Nobody without a row, or kicked, may invite.
      have hnot : ¬ rolePermsJoin reg c.actor.peerId &&& Perm.inviteMember ≠ 0 := by
        rw [hself, hlocal]
        decide
      have hpublic : ¬ reg.header.groupType = groupPrivate := fun hprivate =>
        hnot ((checkPerm_iff_of_ne howner).mp ((peerAdd_cases hrun).1 hprivate))
      rw [or_iff_right hpublic, if_pos hself, ← hholds, ← hroles]
      rw [← hself] at hrow
      exact hjudged.authorized_iff_row hask howner hrow fun h => absurd h hnot
    · rw [if_neg hself, hjudged.authorized_iff_granted hask (hothers _ hself) hroles]
      refine ⟨.inr, fun h => h.elim (fun hprivate => ?_) id⟩
      exact granted_of_checkPerm ((peerAdd_cases hrun).1 hprivate) _

theorem authorized_peerSetRole_iff {c : Record} {k : PeerId} {roleId : BitVec 32}
    (hrun : (Mutation.peerSetRole k roleId c.actor).run crypto reg clk = .ok reg')
    (hreplica : SameMembers reg replica) (hsender : SameMembers reg' sender)
    (hask : c.change.asked = some Perm.editRoles) :
    authorized replica (some (stateOf sender)) (c.entry crypto reg clk.ns) = true ↔
      (Mutation.peerSetRole k roleId c.actor).Endorsed reg clk := by
  have hjudged := Mutation.judged hrun hreplica hsender
  obtain ⟨_, hperm, _⟩ := mutate_eq_ok.mp hrun
  by_cases howner : c.actor.peerId = reg.header.ownerId
  · exact iff_of_true (hjudged.authorized_of_owner hask howner) (.inl howner)
  · rw [Mutation.Endorsed, or_iff_right howner]
    by_cases hself : c.actor.peerId = k
    · obtain ⟨row, role, hrow, hactive, -⟩ := row_of_rolePermsJoin ((checkPerm_iff_of_ne howner).mp hperm)
      obtain ⟨hroles, hknown, hmoved⟩ := peerSetRole_leaves hrun (hself ▸ hrow) hactive
      have hwas : wasActive { row with roleId } (clk.ns.sdiv 1000000) = true :=
        decide_eq_true (.inl hactive)
      rw [or_iff_right (not_not.mpr hself), hjudged.authorized_iff_row hask howner (hself ▸ hmoved)]
      · simp only [Peer.Holds, hroles, hwas, true_and]
      · refine fun _ => ⟨hwas, Classical.or_iff_not_imp_left.mpr fun hzero => ?_⟩
        rw [hroles]
        exact hknown ((BitVec.pos_iff_ne_zero roleId).mpr hzero)
    · refine iff_of_true (hjudged.authorized_of_checkPerm hask hperm fun _ _ hrow _ hrole _ => ?_)
        (.inl hself)
      refine Mutation.keeps_grant hrun hrow hrole ?_ id (fun _ _ h => Mutation.noConfusion h)
      rintro _ _ ⟨⟩
      exact hself rfl

theorem authorized_roleRemove_iff {c : Record} {roleId : BitVec 32}
    (hrun : (Mutation.roleRemove roleId c.actor).run crypto reg clk = .ok reg')
    (hreplica : SameMembers reg replica) (hsender : SameMembers reg' sender)
    (hask : c.change.asked = some Perm.editRoles) :
    authorized replica (some (stateOf sender)) (c.entry crypto reg clk.ns) = true ↔
      (Mutation.roleRemove roleId c.actor).Endorsed reg clk := by
  have hjudged := Mutation.judged hrun hreplica hsender
  obtain ⟨_, hperm, _⟩ := mutate_eq_ok.mp hrun
  by_cases howner : c.actor.peerId = reg.header.ownerId
  · exact iff_of_true (hjudged.authorized_of_owner hask howner) (.inl howner)
  · obtain ⟨row, role, hrow, hactive, -⟩ := row_of_rolePermsJoin ((checkPerm_iff_of_ne howner).mp hperm)
    rw [Mutation.Endorsed, or_iff_right howner]
    simp only [hrow, Option.some.injEq, forall_eq']
    by_cases hown : row.roleId = roleId
    · have hwas : wasActive { row with roleId := 0 } (clk.ns.sdiv 1000000) = true :=
        decide_eq_true (.inl hactive)
      rw [hjudged.authorized_iff_row hask howner (roleRemove_leaves hrun hrow hown) fun _ =>
        ⟨hwas, .inl rfl⟩]
      exact iff_of_false (fun h => h.2.1 rfl) (not_not.mpr hown)
    · refine iff_of_true (hjudged.authorized_of_checkPerm hask hperm fun seen _ hseen _ hrole _ => ?_) hown
      obtain rfl := Option.some.inj (hrow.symm.trans hseen)
      exact Mutation.keeps_grant hrun hrow hrole (fun _ _ h => Mutation.noConfusion h) (fun h => hown h.symm)
        (fun _ _ h => Mutation.noConfusion h)

theorem authorized_roleSetPermissions_iff {c : Record} {roleId : BitVec 32} {permissions : Perms}
    (hrun : (Mutation.roleSetPermissions roleId permissions c.actor).run crypto reg clk = .ok reg')
    (hreplica : SameMembers reg replica) (hsender : SameMembers reg' sender)
    (hask : c.change.asked = some Perm.editRoles) :
    authorized replica (some (stateOf sender)) (c.entry crypto reg clk.ns) = true ↔
      (Mutation.roleSetPermissions roleId permissions c.actor).Endorsed reg clk := by
  have hjudged := Mutation.judged hrun hreplica hsender
  obtain ⟨_, hperm, _⟩ := mutate_eq_ok.mp hrun
  by_cases howner : c.actor.peerId = reg.header.ownerId
  · exact iff_of_true (hjudged.authorized_of_owner hask howner) (.inl howner)
  · obtain ⟨row, role, hrow, hactive, hzero, hrole, -⟩ :=
      row_of_rolePermsJoin ((checkPerm_iff_of_ne howner).mp hperm)
    rw [Mutation.Endorsed, or_iff_right howner]
    simp only [hrow, Option.some.injEq, forall_eq']
    by_cases hown : row.roleId = roleId
    · obtain ⟨hpeers, hchanged⟩ := roleSetPermissions_leaves hrun
      obtain ⟨role', hrole', hset⟩ := hchanged role (hown ▸ hrole)
      rw [← hpeers] at hrow
      have hwas : wasActive row (clk.ns.sdiv 1000000) = true := decide_eq_true (.inl hactive)
      rw [hjudged.authorized_iff_row hask howner hrow fun _ =>
          ⟨hwas, .inr (by rw [hown, hrole', Option.isSome_some])⟩,
        or_iff_left (not_not.mpr hown)]
      simp only [Peer.Holds, hwas, hown ▸ hzero, hown, hrole', Option.some.injEq, exists_eq_left', hset,
        ne_eq, not_false_eq_true, true_and]
    · refine iff_of_true (hjudged.authorized_of_checkPerm hask hperm fun seen _ hseen _ hrole _ => ?_)
        (.inr hown)
      obtain rfl := Option.some.inj (hrow.symm.trans hseen)
      refine Mutation.keeps_grant hrun hrow hrole (fun _ _ h => Mutation.noConfusion h) id ?_
      rintro _ _ ⟨⟩
      exact hown rfl

end Calls

/-- The entry of a successful call is accepted by a replica with the peers and roles the producer had
before it, from a delta with those it has after it, exactly where the actor then has what the replicas
ask for. -/
theorem entry_authorized_iff {crypto : Crypto} {clk : Clock} {reg reg' replica sender : Registrar}
    (m : Mutation) {c : Record} (hrun : m.run crypto reg clk = .ok reg')
    (hpermitted : m.permitted reg = true) (hrecord : m.record reg = some c)
    (hreplica : SameMembers reg replica) (hsender : SameMembers reg' sender) :
    authorized replica (some (stateOf sender)) (c.entry crypto reg clk.ns) = true ↔
      m.Endorsed reg clk := by
  cases m
  case peerTouch => cases hrecord
  case webappUpdatePermData =>
    obtain rfl := Option.some.inj hrecord
    exact ⟨fun h => Bool.false_ne_true h, False.elim⟩
  case webappUpdateRoleMask =>
    obtain rfl := Option.some.inj hrecord
    exact ⟨fun h => Bool.false_ne_true h, False.elim⟩
  case peerUpdateAddress =>
    obtain rfl := Option.some.inj hrecord
    exact ⟨fun _ => trivial, fun _ => rfl⟩
  case peerObservedAddress =>
    obtain rfl := Option.some.inj hrecord
    exact ⟨fun _ => trivial, fun _ => rfl⟩
  case peerLeave peer =>
    obtain rfl := Option.some.inj hrecord
    exact authorized_peerLeave_iff hrun hreplica hsender rfl
  case sign signer =>
    have howner := (Mutation.judged hrun hreplica hsender).owner
    obtain rfl := Option.some.inj hrecord
    change decide (signer.peerId = sender.header.ownerId) = true ↔ _
    rw [decide_eq_true_iff, hsender.owner, howner]
    rfl
  case peerAdd peer signer =>
    obtain rfl := Option.some.inj hrecord
    exact authorized_peerAdd_iff hrun hreplica hsender rfl
  case peerSetRole k roleId signer =>
    obtain rfl := Option.some.inj hrecord
    exact authorized_peerSetRole_iff hrun hreplica hsender rfl
  case roleRemove roleId signer =>
    obtain rfl := Option.some.inj hrecord
    exact authorized_roleRemove_iff hrun hreplica hsender rfl
  case roleSetPermissions roleId permissions signer =>
    obtain rfl := Option.some.inj hrecord
    exact authorized_roleSetPermissions_iff hrun hreplica hsender rfl
  case side change detail signer =>
    have hguard : change.permitted reg signer = true := hpermitted
    cases change
    case inviteUsed peerId =>
      have hjudged := Mutation.judged hrun hreplica hsender
      obtain ⟨mid, hmid, rfl⟩ := (Mutation.side (.inviteUsed peerId) detail signer).edits crypto reg clk
        reg' hrun
      obtain rfl := Option.some.inj hrecord
      cases hmid
      exact hjudged.authorized_iff_granted rfl rfl rfl
    case inviteInvalidated =>
      obtain rfl := Option.some.inj hrecord
      exact iff_of_true (authorized_of_mutate hrun hreplica hsender rfl hguard nofun (fun _ => id) nofun)
        trivial
    all_goals
      obtain rfl := Option.some.inj hrecord
      refine iff_of_true (authorized_of_mutate hrun hreplica hsender rfl ?_ nofun (fun _ => id) nofun) trivial
      exact (of_decide_eq_true hguard).2
  all_goals
    obtain ⟨_, hperm, _⟩ := mutate_eq_ok.mp hrun
    obtain rfl := Option.some.inj hrecord
    exact iff_of_true (authorized_of_mutate hrun hreplica hsender rfl hperm nofun (fun _ => id) nofun) trivial

theorem SameMembers.refl (reg : Registrar) : SameMembers reg reg :=
  ⟨rfl, fun _ => rfl, fun _ => rfl⟩

section Leaving

variable {crypto : Crypto}

def leftGroup (crypto : Crypto) : Registrar :=
  auditAppend crypto (updateStatus (pairGroup crypto) (member 2).peerId PeerStatus.left 5
    (ascii "left voluntarily") (member 2).peerId) .peerRemoved (member 2) (some (member 2).peerId)
    (ascii "left voluntarily") 5000000

def leaveClock : Clock := ⟨5, 5000000⟩

def leaveRecord : Record :=
  ⟨.peerRemoved, member 2, some (member 2).peerId, ascii "left voluntarily"⟩

theorem member_ne_owner : (member 2).peerId ≠ (pairGroup crypto).header.ownerId := by
  have howner : (pairGroup crypto).header.ownerId = (member 1).peerId := rfl
  rw [howner]
  exact fun h => absurd (peerId_inj.mp h) (by decide)

theorem peerLeave_pairGroup : (Mutation.peerLeave (member 2)).run crypto (pairGroup crypto)
    leaveClock = .ok (leftGroup crypto) := by
  have howner : ¬ isOwner (pairGroup crypto) (member 2).peerId = true :=
    fun h => member_ne_owner (of_decide_eq_true h).symm
  have htrusted : ¬ (pairGroup crypto).untrusted = true := Bool.false_ne_true
  have hactive : ¬ (ownerPeer (member 2) 1).status ≠ PeerStatus.active := not_not.mpr rfl
  change Group.peerLeave crypto (pairGroup crypto) (member 2) leaveClock = _
  rw [Group.peerLeave, if_neg htrusted, if_neg howner, pairGroup_member]
  exact if_neg hactive

theorem member_not_granted (p : Perms) (ts : I64) :
    ¬ (pairGroup crypto).Granted (member 2).peerId ts p := by
  rintro (howner | ⟨peer, hpeer, _, hrole, _⟩)
  · exact member_ne_owner howner
  · rw [pairGroup_member] at hpeer
    obtain rfl := Option.some.inj hpeer
    exact hrole rfl

theorem entry_authorized_iff_leaving :
    authorized (pairGroup (onlySigner flatHash (member 1)))
      (some (stateOf (leftGroup (onlySigner flatHash (member 1)))))
      (leaveRecord.entry (onlySigner flatHash (member 1)) (pairGroup (onlySigner flatHash (member 1)))
        leaveClock.ns) = true ↔
    (Mutation.peerLeave (member 2)).Endorsed (pairGroup (onlySigner flatHash (member 1))) leaveClock :=
  entry_authorized_iff (.peerLeave (member 2)) peerLeave_pairGroup rfl rfl (.refl _) (.refl _)

-- A member leaves, and no replica believes it.
theorem leaving_not_authorized : ¬ ∀ (crypto : Crypto) (clk : Clock)
    (reg reg' replica sender : Registrar) (m : Mutation) (c : Record),
    m.run crypto reg clk = .ok reg' → m.permitted reg = true → m.record reg = some c →
    SameMembers reg replica → SameMembers reg' sender →
    authorized replica (some (stateOf sender)) (c.entry crypto reg clk.ns) = true := by
  intro h
  have hauth := h (onlySigner flatHash (member 1)) leaveClock _ _ _ _ (.peerLeave (member 2))
    leaveRecord peerLeave_pairGroup rfl rfl (.refl _) (.refl _)
  rcases (authorized_peerLeave_iff (c := leaveRecord) peerLeave_pairGroup (.refl _) (.refl _) rfl).mp hauth
    with hperm | ⟨-, -, hgranted⟩
  · exact member_not_granted _ 0 (granted_of_checkPerm hperm 0)
  · exact member_not_granted _ _ hgranted

end Leaving

end YumiBrowser.Group
