import YumiBrowser.Registrar.RoleGrants

namespace YumiBrowser.Group

open Wire Keyed

inductive StatusMove (reg : Registrar) (k : PeerId) : Mutation → PeerStatus → PeerStatus → Prop
  | kick : checkPerm reg signer Perm.kickMember = true →
      StatusMove reg k (.peerKick k reason signer) PeerStatus.active PeerStatus.kicked
  | ban : checkPerm reg signer Perm.banMember = true →
      StatusMove reg k (.peerBan k reason signer) status PeerStatus.banned
  | leave : peer.peerId = k →
      StatusMove reg k (.peerLeave peer) PeerStatus.active PeerStatus.left
  | rejoin : peer.peerId = k →
      (reg.header.groupType = groupPrivate → checkPerm reg signer Perm.inviteMember = true) →
      StatusMove reg k (.peerAdd peer signer) PeerStatus.kicked PeerStatus.active

def OwnerActive (founder : PeerId) (reg : Registrar) : Prop :=
  reg.header.ownerId = founder ∧ ∃ p, reg.peers.find? founder = some p ∧ p.status = PeerStatus.active

/-- The owner stays, every row stays, and a status changes by a `StatusMove` or not at all. -/
structure LocalStep.Lawful (founder : PeerId) (s : LocalStep) : Prop where
  founder : OwnerActive founder s.after
  rows : ∀ k p, s.before.peers.find? k = some p → ∃ q, s.after.peers.find? k = some q ∧
    (q.status = p.status ∨ StatusMove s.before k s.call p.status q.status)

section Moves

variable {crypto : Crypto} {reg reg' : Registrar} {clk : Clock} {m : Mutation} {k founder : PeerId}

theorem RowStep.status {p : Peer} (h : RowStep reg k m (some p) row) : ∃ q, row = some q ∧
    (q.status = p.status ∨ StatusMove reg k m p.status q.status) := by
  cases h with
  | kept _ hstatus => exact ⟨_, rfl, .inl hstatus⟩
  | readded hk hkicked hinvite => exact ⟨_, rfl, .inr (hkicked ▸ .rejoin hk hinvite)⟩
  | kicked hactive _ hperm => exact ⟨_, rfl, .inr (hactive ▸ .kick hperm)⟩
  | banned _ hperm => exact ⟨_, rfl, .inr (.ban hperm)⟩
  | left hk hactive => exact ⟨_, rfl, .inr (hactive ▸ .leave hk)⟩
  | roleSet => exact ⟨_, rfl, .inl rfl⟩
  | unassigned => exact ⟨_, rfl, .inl rfl⟩

theorem RowStep.owner {p : Peer} (h : RowStep reg k m (some p) row) (howner : isOwner reg k = true) :
    ∃ q, row = some q ∧ (p.status = PeerStatus.active → q.status = PeerStatus.active) := by
  cases h with
  | kept _ hstatus => exact ⟨_, rfl, fun hactive => hstatus.trans hactive⟩
  | readded => exact ⟨_, rfl, fun _ => rfl⟩
  | kicked _ hother => exact absurd (howner.symm.trans hother) (by decide)
  | banned hother => exact absurd (howner.symm.trans hother) (by decide)
  | left _ _ hother => exact absurd (howner.symm.trans hother) (by decide)
  | roleSet => exact ⟨_, rfl, id⟩
  | unassigned => exact ⟨_, rfl, id⟩

theorem OwnerActive.run (h : OwnerActive founder reg) (hcall : m.run crypto reg clk = .ok reg') :
    OwnerActive founder reg' := by
  obtain ⟨hid, p, hrow, hactive⟩ := h
  have hstep := Mutation.rowStep hcall founder
  rw [hrow] at hstep
  obtain ⟨q, hq, hstays⟩ := hstep.owner (decide_eq_true hid)
  exact ⟨(Mutation.keeps_owner reg' hcall).trans hid, q, hq, hstays hactive⟩

theorem ownerActive_grCreate {owner : Identity}
    (h : grCreate crypto name type owner key clk = .ok reg) : OwnerActive owner.peerId reg := by
  obtain rfl := grCreate_cases h
  refine ⟨rfl, ownerPeer owner clk.ms, ?_, rfl⟩
  rw [peers_auditAppend, founded, Table.find?_upsert]
  exact Function.update_self ..

end Moves

/-- From its creation on, whatever is called on a registrar by whomever. -/
theorem membership_lawful {crypto : Crypto} {start reg : Registrar} {steps : List LocalStep}
    {owner : Identity} (hcreate : grCreate crypto name type owner key clk = .ok start)
    (hrun : LocalRun crypto start steps reg) :
    OwnerActive owner.peerId reg ∧ ∀ s ∈ steps, s.Lawful owner.peerId := by
  induction hrun with
  | nil => exact ⟨ownerActive_grCreate hcreate, fun _ hs => absurd hs List.not_mem_nil⟩
  | @snoc steps reg reg' m clk hrun hcall ih =>
    have hnext : OwnerActive owner.peerId reg' := ih.1.run hcall
    refine ⟨hnext, fun s hs => ?_⟩
    cases List.mem_append.mp hs with
    | inl hold => exact ih.2 s hold
    | inr hnew =>
      obtain rfl := List.mem_singleton.mp hnew
      refine ⟨hnext, fun k p hrow => ?_⟩
      have hstep := Mutation.rowStep hcall k
      rw [hrow] at hstep
      exact hstep.status

theorem membership_lawful_climb : ∃ steps reg,
    LocalRun (onlySigner flatHash (member 1)) (openGroup (onlySigner flatHash (member 1))) steps reg ∧
      OwnerActive (member 1).peerId reg ∧ ∀ s ∈ steps, s.Lawful (member 1).peerId := by
  obtain ⟨reg, hrun⟩ := @climb (onlySigner flatHash (member 1)) rfl
  exact ⟨_, reg, hrun, membership_lawful grCreate_openGroup hrun⟩

section Readmission

variable {crypto : Crypto} {reg : Registrar}

theorem find?_updateStatus {p : Peer} (hrow : reg.peers.find? k = some p) : ∃ q,
    (updateStatus reg k status removedAt reason removedBy).peers.find? k = some q ∧
      q.status = status := by
  rw [updateStatus, Table.find?_modify, hrow, Option.map_some,
    if_pos (decide_eq_true (Table.key_of_find? hrow))]
  exact ⟨_, rfl, rfl⟩

def newcomer : Peer := ownerPeer (member 0) 3

theorem newcomer_absent : (openGroup crypto).peers.find? newcomer.peerId = none :=
  openGroup_absent (by decide)

theorem outsider_absent {peers : Table Peer.peerId}
    (hpeers : (openGroup crypto).peers.insert? newcomer.entered = some peers) :
    peers.find? outsider.peerId = none := by
  rw [Table.find?_insert? hpeers, Function.update_of_ne]
  · exact openGroup_absent (by decide)
  · exact fun h => absurd (peerId_inj.mp h) (by decide)

def joinedGroup (crypto : Crypto) (peers : Table Peer.peerId) : Registrar :=
  Mutation.close crypto (openGroup crypto) { openGroup crypto with peers } ⟨3, 3000000⟩
    (.peerAdd newcomer (member 1))

def kickedGroup (crypto : Crypto) (peers : Table Peer.peerId) : Registrar :=
  Mutation.close crypto (joinedGroup crypto peers)
    (updateStatus (joinedGroup crypto peers) newcomer.peerId PeerStatus.kicked 4 []
      (member 1).peerId) ⟨4, 4000000⟩ (.peerKick newcomer.peerId none (member 1))

def readmittedGroup (crypto : Crypto) (peers : Table Peer.peerId) : Registrar :=
  Mutation.close crypto (kickedGroup crypto peers)
    (updateStatus (kickedGroup crypto peers) newcomer.peerId PeerStatus.active 0 [] (zeroBytes 32))
    ⟨5, 5000000⟩ (.peerAdd newcomer outsider)

theorem outsider_powerless {peers : Table Peer.peerId}
    (hpeers : (openGroup crypto).peers.insert? newcomer.entered = some peers) :
    ¬ checkPerm (kickedGroup crypto peers) outsider Perm.inviteMember = true := by
  intro h
  rcases granted_of_checkPerm h 0 with howner | ⟨peer, hpeer, _⟩
  · exact absurd (peerId_inj.mp howner) (by decide)
  · change ((updateStatus (joinedGroup crypto peers) newcomer.peerId PeerStatus.kicked 4 []
      (member 1).peerId).peers.find? outsider.peerId) = some peer at hpeer
    rw [updateStatus, Table.find?_modify] at hpeer
    change (peers.find? outsider.peerId).map _ = _ at hpeer
    rw [outsider_absent hpeers] at hpeer
    cases hpeer

theorem readmission (hskein : deriveId crypto newcomer.signKey = newcomer.peerId) :
    ∃ steps before clk after, LocalRun crypto (openGroup crypto)
      (steps ++ [⟨before, .peerAdd newcomer outsider, clk, after⟩]) after ∧
      (∃ p, before.peers.find? newcomer.peerId = some p ∧ p.status = PeerStatus.kicked) ∧
      (∃ q, after.peers.find? newcomer.peerId = some q ∧ q.status = PeerStatus.active) ∧
      ¬ checkPerm before outsider Perm.inviteMember = true := by
  obtain ⟨peers, hpeers⟩ := Option.ne_none_iff_exists'.mp
    (mt Table.insert?_eq_none.mp (not_not.mpr (@newcomer_absent crypto)))
  have hpublic : ¬ groupPublic = groupPrivate := by decide
  have hadd : Edit crypto (openGroup crypto) ⟨3, 3000000⟩ (.peerAdd newcomer (member 1))
      { openGroup crypto with peers } :=
    .peerAdded rfl (fun h => absurd h hpublic) hskein newcomer_absent hpeers
  have hjoined : (joinedGroup crypto peers).peers.find? newcomer.peerId = some newcomer.entered := by
    change peers.find? newcomer.peerId = _
    rw [Table.find?_insert? hpeers]
    exact Function.update_self ..
  have howner : isOwner (joinedGroup crypto peers) newcomer.peerId = false :=
    decide_eq_false fun h => absurd (peerId_inj.mp h) (by decide)
  have hkick : Edit crypto (joinedGroup crypto peers) ⟨4, 4000000⟩
      (.peerKick newcomer.peerId none (member 1)) (updateStatus (joinedGroup crypto peers)
        newcomer.peerId PeerStatus.kicked 4 [] (member 1).peerId) :=
    .peerKicked ⟨rfl, checkPerm_owner rfl (by decide)⟩ hjoined rfl howner
  obtain ⟨p, hp, hkicked⟩ := find?_updateStatus hjoined
  have hreadd : Edit crypto (kickedGroup crypto peers) ⟨5, 5000000⟩ (.peerAdd newcomer outsider)
      (updateStatus (kickedGroup crypto peers) newcomer.peerId PeerStatus.active 0 []
        (zeroBytes 32)) :=
    .peerReadded rfl (fun h => absurd h hpublic) hskein hp hkicked
  have hnil : LocalRun crypto (openGroup crypto) [] (openGroup crypto) := .nil
  have hrun := ((hnil.snoc _ _ hadd.run).snoc _ _ hkick.run).snoc _ _ hreadd.run
  exact ⟨_, kickedGroup crypto peers, _, readmittedGroup crypto peers, hrun, ⟨p, hp, hkicked⟩,
    find?_updateStatus hp, outsider_powerless hpeers⟩

-- A public group asks for no permission to add, and so for none to bring a kicked peer back.
theorem kicked_peer_readmitted : ¬ ∀ (crypto : Crypto) (name : List Byte) (type : BitVec 32)
    (owner : Identity) (key : EpochKey) (clk : Clock) (start reg : Registrar)
    (steps : List LocalStep), grCreate crypto name type owner key clk = .ok start →
    LocalRun crypto start steps reg → ∀ s ∈ steps, ∀ peer signer p q, s.call = .peerAdd peer signer →
      s.before.peers.find? peer.peerId = some p → s.after.peers.find? peer.peerId = some q →
      p.status = PeerStatus.kicked → q.status = PeerStatus.active →
      checkPerm s.before signer Perm.inviteMember = true := by
  intro h
  obtain ⟨steps, before, clk, after, hrun, ⟨p, hp, hkicked⟩, ⟨q, hq, hactive⟩, hperm⟩ :=
    @readmission (onlySigner flatHash (member 1)) rfl
  exact hperm (h _ _ _ _ _ _ _ _ _ grCreate_openGroup hrun _
    (List.mem_append_right _ (List.mem_singleton_self _)) newcomer outsider p q rfl hp hq hkicked
    hactive)

end Readmission

end YumiBrowser.Group
