import YumiBrowser.Registrar.RemoteAuthorization
import YumiBrowser.Registrar.LocalRuns

namespace YumiBrowser.Group

open Wire Keyed

def Peer.effectiveRole (p : Peer) : BitVec 32 :=
  if p.status = PeerStatus.active then p.roleId else 0

def roleIdOf (reg : Registrar) (peerId : PeerId) : BitVec 32 :=
  ((reg.peers.find? peerId).map Peer.roleId).getD 0

def effectiveRole (reg : Registrar) (peerId : PeerId) : BitVec 32 :=
  ((reg.peers.find? peerId).map Peer.effectiveRole).getD 0

/-- The call makes `roleId` the role of the peer, in its row or in effect. -/
def LocalStep.Confers (s : LocalStep) (peerId : PeerId) (roleId : BitVec 32) : Prop :=
  roleId ≠ 0 ∧ (roleIdOf s.before peerId ≠ roleId ∧ roleIdOf s.after peerId = roleId ∨
    effectiveRole s.before peerId ≠ roleId ∧ effectiveRole s.after peerId = roleId)

/-- Who signed the call could edit roles at that moment. -/
def LocalStep.ByEditor (s : LocalStep) : Prop :=
  ∃ c, s.record = some c ∧ checkPerm s.before c.actor Perm.editRoles = true

def RolesByEditors (steps : List LocalStep) : Prop :=
  ∀ s ∈ steps, ∀ peerId roleId, s.Confers peerId roleId → s.ByEditor

/-- A new peer comes without a role and a kicked one returns without, or the signer edits roles. -/
def Mutation.AddsNoRole (reg : Registrar) : Mutation → Prop
  | peerAdd peer signer => checkPerm reg signer Perm.editRoles = true ∨
      ((reg.peers.find? peer.peerId).getD peer).roleId = 0
  | _ => True

section Step

variable {crypto : Crypto} {reg reg' : Registrar} {clk : Clock} {k : PeerId} {r : BitVec 32}

theorem Peer.effectiveRole_eq {p : Peer} (hr : r ≠ 0) :
    p.effectiveRole = r ↔ p.status = PeerStatus.active ∧ p.roleId = r := by
  unfold Peer.effectiveRole
  split
  · next hactive => exact ⟨fun h => ⟨hactive, h⟩, And.right⟩
  · next hactive => exact ⟨fun h => absurd h.symm hr, fun h => absurd h.1 hactive⟩

theorem Peer.Kept.not_confers {p q : Peer} (h : p.Kept q) (hr : r ≠ 0) :
    (q.roleId = r → p.roleId = r) ∧ (q.effectiveRole = r → p.effectiveRole = r) := by
  have hsame : q.roleId = r → p.roleId = r := by
    intro hq
    cases h.roleId with
    | inl heq => exact heq.symm.trans hq
    | inr hzero => exact absurd (hq.symm.trans hzero) hr
  refine ⟨hsame, ?_⟩
  rw [Peer.effectiveRole_eq hr, Peer.effectiveRole_eq hr]
  exact fun hq => ⟨h.status hq.1, hsame hq.2⟩

theorem confers_cases {m : Mutation} (h : m.run crypto reg clk = .ok reg')
    (hconfers : (⟨reg, m, clk, reg'⟩ : LocalStep).Confers k r) :
    (∃ roleId signer, m = .peerSetRole k roleId signer) ∨
      ∃ peer signer, m = .peerAdd peer signer ∧
        ((reg.peers.find? peer.peerId).getD peer).roleId = r := by
  obtain ⟨hr, hbecomes⟩ := hconfers
  have hchange := m.rowChange crypto reg clk k reg' h
  simp only [roleIdOf, effectiveRole] at hbecomes
  generalize hbefore : reg.peers.find? k = before at hbecomes hchange
  generalize reg'.peers.find? k = after at hbecomes hchange
  cases hchange with
  | absent => exact absurd hbecomes (by simp)
  | kept hkept =>
    rcases hbecomes with ⟨hne, heq⟩ | ⟨hne, heq⟩
    · exact absurd ((hkept.not_confers hr).1 heq) hne
    · exact absurd ((hkept.not_confers hr).2 heq) hne
  | @added peer signer removedBy hk =>
    refine .inr ⟨peer, signer, rfl, ?_⟩
    rw [hk, hbefore]
    rcases hbecomes with ⟨_, heq⟩ | ⟨_, heq⟩
    · exact heq
    · exact ((Peer.effectiveRole_eq hr).mp heq).2
  | @readded peer signer p _ _ _ hk hkicked =>
    refine .inr ⟨peer, signer, rfl, ?_⟩
    rw [hk, hbefore]
    rcases hbecomes with ⟨_, heq⟩ | ⟨_, heq⟩
    · exact heq
    · exact ((Peer.effectiveRole_eq hr).mp heq).2
  | @roleSet roleId signer p => exact .inl ⟨roleId, signer, rfl⟩

theorem peerAdd_confers {peer : Peer}
    (h : (Mutation.peerAdd peer signer).run crypto reg clk = .ok reg')
    (hr : ((reg.peers.find? peer.peerId).getD peer).roleId ≠ 0) :
    (⟨reg, .peerAdd peer signer, clk, reg'⟩ : LocalStep).Confers peer.peerId
      ((reg.peers.find? peer.peerId).getD peer).roleId := by
  refine ⟨hr, ?_⟩
  simp only [roleIdOf, effectiveRole]
  obtain ⟨_, _, ⟨hfree, removedBy, hinsert⟩ | ⟨p, hrow, hkicked, hpeers⟩⟩ := peerAdd_cases h
  · left
    rw [Table.find?_insert? hinsert, Function.update_self, hfree]
    exact ⟨Ne.symm (by simpa [hfree] using hr), rfl⟩
  · right
    have hsel : decide (p.peerId = peer.peerId) = true := decide_eq_true (Table.key_of_find? hrow)
    rw [hpeers, updateStatus, Table.find?_modify, hrow]
    simp only [Option.map_some, Option.getD_some, if_pos hsel]
    rw [hrow, Option.getD_some] at hr
    refine ⟨fun hsame => ?_, rfl⟩
    obtain ⟨hactive, _⟩ := (Peer.effectiveRole_eq hr).mp hsame
    exact absurd (hkicked.symm.trans hactive) (by decide)

theorem byEditor_peerSetRole (h : (Mutation.peerSetRole k roleId signer).run crypto reg clk = .ok reg') :
    (⟨reg, .peerSetRole k roleId signer, clk, reg'⟩ : LocalStep).ByEditor :=
  ⟨_, rfl, (mutate_eq_ok.mp h).2.1⟩

theorem step_byEditor_iff {m : Mutation} (h : m.run crypto reg clk = .ok reg') :
    (∀ peerId roleId, (⟨reg, m, clk, reg'⟩ : LocalStep).Confers peerId roleId →
      (⟨reg, m, clk, reg'⟩ : LocalStep).ByEditor) ↔ m.AddsNoRole reg := by
  constructor
  · intro hby
    cases m with
    | peerAdd peer signer =>
      by_cases hr : ((reg.peers.find? peer.peerId).getD peer).roleId = 0
      · exact .inr hr
      · obtain ⟨c, hc, hperm⟩ := hby _ _ (peerAdd_confers h hr)
        obtain rfl := Option.some.inj hc
        exact .inl hperm
    | _ => exact trivial
  · intro hadds peerId roleId hconfers
    rcases confers_cases h hconfers with ⟨_, signer, rfl⟩ | ⟨peer, signer, rfl, hrole⟩
    · exact byEditor_peerSetRole h
    · cases hadds with
      | inl hperm => exact ⟨_, rfl, hperm⟩
      | inr hzero => exact absurd (hrole.symm.trans hzero) hconfers.1

end Step

section Runs

variable {crypto : Crypto} {start reg : Registrar}

theorem rolesByEditors_iff (h : LocalRun crypto start steps reg) :
    RolesByEditors steps ↔ ∀ s ∈ steps, s.call.AddsNoRole s.before :=
  forall₂_congr fun s hs => step_byEditor_iff (h.step s hs)

theorem LocalRun.conferred (h : LocalRun crypto start steps reg) (hr : r ≠ 0)
    (hstart : roleIdOf start k ≠ r) (hend : roleIdOf reg k = r) : ∃ s ∈ steps, s.Confers k r := by
  induction h with
  | nil => exact absurd hend hstart
  | @snoc steps reg reg' m clk _ hcall ih =>
    by_cases hbefore : roleIdOf reg k = r
    · obtain ⟨s, hs, hconfers⟩ := ih hbefore
      exact ⟨s, List.mem_append_left _ hs, hconfers⟩
    · refine ⟨⟨reg, m, clk, reg'⟩, List.mem_append_right _ (List.mem_singleton_self _), hr, ?_⟩
      exact .inl ⟨hbefore, hend⟩

theorem roleIdOf_grCreate (h : grCreate crypto name type owner key clk = .ok start) (k : PeerId) :
    roleIdOf start k = 0 := by
  rw [grCreate_cases h, roleIdOf, peers_auditAppend, founded, Table.find?_upsert]
  by_cases hk : k = (ownerPeer owner clk.ms).peerId
  · subst hk
    rw [Function.update_self]
    rfl
  · rw [Function.update_of_ne hk]
    rfl

end Runs

/-- In the runs of a created group roles come from role editors only exactly where no addition of
another brings a role, and then an editor has given every role that a peer has. -/
theorem roles_granted_by_editors_iff {crypto : Crypto} {start reg : Registrar}
    (hcreate : grCreate crypto name type owner key clk = .ok start)
    (hrun : LocalRun crypto start steps reg) :
    (RolesByEditors steps ↔ ∀ s ∈ steps, s.call.AddsNoRole s.before) ∧
      (RolesByEditors steps → ∀ peerId, roleIdOf reg peerId ≠ 0 →
        ∃ s ∈ steps, s.Confers peerId (roleIdOf reg peerId) ∧ s.ByEditor) := by
  refine ⟨rolesByEditors_iff hrun, fun hby peerId hr => ?_⟩
  have hstart : roleIdOf start peerId ≠ roleIdOf reg peerId := by
    rw [roleIdOf_grCreate hcreate]
    exact hr.symm
  obtain ⟨s, hs, hconfers⟩ := hrun.conferred hr hstart rfl
  exact ⟨s, hs, hconfers, hby s hs _ _ hconfers⟩

section Climber

variable {crypto : Crypto}

def openGroup (crypto : Crypto) : Registrar :=
  auditAppend crypto (founded crypto (ascii "open") groupPublic (member 1) (zeroBytes 128) 1)
    .peerAdded (member 1) (some (member 1).peerId) (ascii "group created") 1000000

def moderator : Role where
  roleId := 1
  name := CString.stored 128 name_pos (ascii "moderator")
  permissions := Perm.editRoles
  signKey := zeroBytes 2592
  createdAt := 2
  modifiedAt := 2

def moderatorRoles : Table Role.roleId where
  rows := [moderator]
  nodup := List.nodup_singleton _

def ruledGroup (crypto : Crypto) : Registrar :=
  auditAppend crypto { openGroup crypto with roles := moderatorRoles } .roleAdded (member 1) none
    (ascii "role '" ++ (untilZero (ascii "moderator")).take 64 ++ ascii "' added (id=" ++
      decimal (BitVec.ofInt 32 1).toNat ++ ascii ")") 2000000

def climber : Peer := { ownerPeer (member 0) 3 with roleId := 1 }

theorem grCreate_openGroup : grCreate crypto (ascii "open") groupPublic (member 1) (zeroBytes 128)
    ⟨1, 1000000⟩ = .ok (openGroup crypto) := by
  unfold grCreate
  rw [if_neg (by decide), if_neg (by decide)]
  rfl

theorem roleAdd_openGroup :
    (Mutation.roleAdd (ascii "moderator") Perm.editRoles (zeroBytes 2592) (member 1)).run crypto
      (openGroup crypto) ⟨2, 2000000⟩ = .ok (ruledGroup crypto) := by
  have howner : (openGroup crypto).header.ownerId = (member 1).peerId := rfl
  have hnz : Perm.editRoles ≠ 0 := by decide
  refine mutate_eq_ok.mpr ⟨rfl, checkPerm_owner howner hnz,
    { openGroup crypto with roles := moderatorRoles }, ?_, ?_⟩
  · rfl
  · have hid : roleNextId (openGroup crypto) = 1 := rfl
    rw [hid]
    rfl

theorem openGroup_absent (h : b ≠ 1) : (openGroup crypto).peers.find? (member b).peerId = none := by
  have hpeers : (openGroup crypto).peers = Table.empty.upsert (ownerPeer (member 1) 1) := rfl
  rw [hpeers, Table.find?_upsert, Function.update_of_ne]
  · rfl
  · exact fun heq => h (peerId_inj.mp heq)

theorem climber_absent : (ruledGroup crypto).peers.find? climber.peerId = none :=
  @openGroup_absent crypto 0 (by decide)

theorem peerAdd_climber (hskein : deriveId crypto climber.signKey = climber.peerId) :
    ∃ reg', (Mutation.peerAdd climber (member 0)).run crypto (ruledGroup crypto) ⟨3, 3000000⟩ =
      .ok reg' := by
  have hpublic : (ruledGroup crypto).header.groupType ≠ groupPrivate :=
    fun h => absurd (show groupPublic = groupPrivate from h) (by decide)
  exact peerAdd_of_free rfl (.inl hpublic) hskein climber_absent _

theorem climber_not_editor : ¬ checkPerm (ruledGroup crypto) (member 0) Perm.editRoles = true := by
  intro h
  rcases granted_of_checkPerm h 0 with howner | ⟨peer, hpeer, _⟩
  · exact absurd (peerId_inj.mp howner) (by decide)
  · rw [show (member 0).peerId = climber.peerId from rfl, climber_absent] at hpeer
    cases hpeer

theorem climb (hskein : deriveId crypto climber.signKey = climber.peerId) : ∃ reg',
    LocalRun crypto (openGroup crypto)
      [⟨openGroup crypto, .roleAdd (ascii "moderator") Perm.editRoles (zeroBytes 2592) (member 1),
          ⟨2, 2000000⟩, ruledGroup crypto⟩,
        ⟨ruledGroup crypto, .peerAdd climber (member 0), ⟨3, 3000000⟩, reg'⟩] reg' := by
  obtain ⟨reg', hadd⟩ := peerAdd_climber hskein
  have hnil : LocalRun crypto (openGroup crypto) [] (openGroup crypto) := .nil
  exact ⟨reg', (hnil.snoc _ _ roleAdd_openGroup).snoc _ _ hadd⟩

theorem roles_granted_by_editors_iff_climb : ∃ steps reg,
    LocalRun (onlySigner flatHash (member 1)) (openGroup (onlySigner flatHash (member 1))) steps reg ∧
      (RolesByEditors steps ↔ ∀ s ∈ steps, s.call.AddsNoRole s.before) ∧
      (RolesByEditors steps → ∀ peerId, roleIdOf reg peerId ≠ 0 →
        ∃ s ∈ steps, s.Confers peerId (roleIdOf reg peerId) ∧ s.ByEditor) := by
  obtain ⟨reg, hrun⟩ := @climb (onlySigner flatHash (member 1)) rfl
  exact ⟨_, reg, hrun, roles_granted_by_editors_iff grCreate_openGroup hrun⟩

theorem newcomer_takes_role : ¬ ∀ (crypto : Crypto) (name : List Byte) (type : BitVec 32)
    (owner : Identity) (key : EpochKey) (clk : Clock) (start reg : Registrar)
    (steps : List LocalStep), grCreate crypto name type owner key clk = .ok start →
    LocalRun crypto start steps reg → RolesByEditors steps := by
  intro h
  obtain ⟨reg, hrun⟩ := @climb (onlySigner flatHash (member 1)) rfl
  have hby := h _ _ _ _ _ _ _ _ _ grCreate_openGroup hrun
  have hlast := (rolesByEditors_iff hrun).mp hby _ (List.mem_cons_of_mem _ (List.mem_singleton_self _))
  cases hlast with
  | inl hperm => exact climber_not_editor hperm
  | inr hrole =>
    rw [climber_absent] at hrole
    exact absurd hrole (by decide)

end Climber

end YumiBrowser.Group
