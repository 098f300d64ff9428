import YumiBrowser.Registrar.Retention

namespace YumiBrowser.Group

open Wire Keyed

/-- A call that succeeded, between the registrar it found and the one it left. -/
structure LocalStep where
  before : Registrar
  call : Mutation
  clk : Clock
  after : Registrar

/-- Successful calls one after the other, with no delta merged in between. -/
inductive LocalRun (crypto : Crypto) (start : Registrar) : List LocalStep → Registrar → Prop
  | nil : LocalRun crypto start [] start
  | snoc (m : Mutation) (clk : Clock) : LocalRun crypto start steps reg →
      m.run crypto reg clk = .ok reg' →
      LocalRun crypto start (steps ++ [⟨reg, m, clk, reg'⟩]) reg'

def LocalStep.record (s : LocalStep) : Option Record := s.call.record s.before

theorem LocalRun.step {crypto : Crypto} (h : LocalRun crypto start steps reg) :
    ∀ s ∈ steps, s.call.run crypto s.before s.clk = .ok s.after := by
  induction h with
  | nil => exact fun _ hs => absurd hs List.not_mem_nil
  | snoc m clk _ hcall ih =>
    intro s hs
    cases List.mem_append.mp hs with
    | inl hold => exact ih s hold
    | inr hnew =>
      obtain rfl := List.mem_singleton.mp hnew
      exact hcall

section Rows

structure Peer.Kept (p q : Peer) : Prop where
  signKey : q.signKey = p.signKey
  roleId : q.roleId = p.roleId ∨ q.roleId = 0
  status : q.status = PeerStatus.active → p.status = PeerStatus.active

/-- What a successful call does to the row of peer `k`. -/
inductive RowChange (k : PeerId) : Mutation → Option Peer → Option Peer → Prop
  | absent : RowChange k m none none
  | kept {p q : Peer} : p.Kept q → RowChange k m (some p) (some q)
  | added : peer.peerId = k →
      RowChange k (.peerAdd peer signer) none (some { peer with removedBy })
  | readded : peer.peerId = k → p.status = PeerStatus.kicked →
      RowChange k (.peerAdd peer signer) (some p)
        (some { p with status := PeerStatus.active, removedAt, removedReason, removedBy })
  | roleSet : RowChange k (.peerSetRole k roleId signer) (some p) (some { p with roleId })

theorem RowChange.stays {p : Peer} (h : RowChange k m (some p) row) :
    ∃ q, row = some q ∧ q.signKey = p.signKey := by
  cases h with
  | kept hkept => exact ⟨_, rfl, hkept.signKey⟩
  | readded => exact ⟨_, rfl, rfl⟩
  | roleSet => exact ⟨_, rfl, rfl⟩

def Mutation.RemovesRole (roleId : BitVec 32) : Mutation → Prop
  | roleRemove removed _ => removed = roleId
  | _ => False

/-- What a successful call does to the row of peer `k`, and what it has made sure of before. -/
inductive RowStep (reg : Registrar) (k : PeerId) : Mutation → Option Peer → Option Peer → Prop
  | absent : RowStep reg k m none none
  | kept {p q : Peer} : q.signKey = p.signKey → q.status = p.status → q.roleId = p.roleId →
      ¬ m.RemovesRole p.roleId → RowStep reg k m (some p) (some q)
  | added : peer.peerId = k →
      RowStep reg k (.peerAdd peer signer) none (some { peer with removedBy })
  | readded : peer.peerId = k → p.status = PeerStatus.kicked →
      (reg.header.groupType = groupPrivate → checkPerm reg signer Perm.inviteMember = true) →
      RowStep reg k (.peerAdd peer signer) (some p)
        (some { p with status := PeerStatus.active, removedAt, removedReason, removedBy })
  | kicked : p.status = PeerStatus.active → isOwner reg k = false →
      checkPerm reg signer Perm.kickMember = true →
      RowStep reg k (.peerKick k reason signer) (some p)
        (some { p with status := PeerStatus.kicked, removedAt, removedReason, removedBy })
  | banned : isOwner reg k = false → checkPerm reg signer Perm.banMember = true →
      RowStep reg k (.peerBan k reason signer) (some p)
        (some { p with status := PeerStatus.banned, removedAt, removedReason, removedBy })
  | left : peer.peerId = k → p.status = PeerStatus.active → isOwner reg k = false →
      RowStep reg k (.peerLeave peer) (some p)
        (some { p with status := PeerStatus.left, removedAt, removedReason, removedBy })
  | roleSet : p.status = PeerStatus.active →
      (0 < roleId → (reg.roles.find? roleId).isSome) →
      RowStep reg k (.peerSetRole k roleId signer) (some p) (some { p with roleId })
  | unassigned : RowStep reg k (.roleRemove p.roleId signer) (some p) (some { p with roleId := 0 })

variable {k : PeerId} {m : Mutation} {reg : Registrar}

theorem RowStep.refl (hm : ∀ roleId, ¬ m.RemovesRole roleId) (row : Option Peer) :
    RowStep reg k m row row := by
  cases row with
  | none => exact .absent
  | some p => exact .kept rfl rfl rfl (hm p.roleId)

theorem RowStep.modify {t : Table Peer.peerId} {f : Peer → Peer} {sel : Peer → Bool}
    (hkey : ∀ p, (f p).peerId = p.peerId)
    (hhit : ∀ p, t.find? k = some p → sel p → RowStep reg k m (some p) (some (f p)))
    (hmiss : ∀ p, ¬ sel p → ¬ m.RemovesRole p.roleId) :
    RowStep reg k m (t.find? k) ((t.modify sel f hkey).find? k) := by
  rw [Table.find?_modify]
  cases hrow : t.find? k with
  | none => exact .absent
  | some p =>
    rw [Option.map_some]
    split
    · next hsel => exact hhit p hrow hsel
    · next hsel => exact .kept rfl rfl rfl (hmiss p hsel)

theorem RowStep.updateStatus (hm : ∀ roleId, ¬ m.RemovesRole roleId)
    (h : ∀ p, reg.peers.find? k = some p → peerId = k → RowStep reg k m (some p)
      (some { p with
        status, removedAt, removedReason := CString.stored 128 (by decide) reason, removedBy })) :
    RowStep reg k m (reg.peers.find? k)
      ((Group.updateStatus reg peerId status removedAt reason removedBy).peers.find? k) := by
  refine .modify ?_ ?_ fun p _ => hm p.roleId
  · exact fun _ => rfl
  · intro p hrow hsel
    exact h p hrow ((of_decide_eq_true hsel).symm.trans (Table.key_of_find? hrow))

theorem RowStep.updateAddr (hm : ∀ roleId, ¬ m.RemovesRole roleId) :
    RowStep reg k m (reg.peers.find? k)
      ((Group.updateAddr reg peerId ip port lastSeen).peers.find? k) := by
  refine .modify ?_ (fun p _ _ => .kept rfl rfl rfl (hm p.roleId)) fun p _ => hm p.roleId
  exact fun _ => rfl

theorem RowStep.inserted {peer : Peer} {peers : Table Peer.peerId}
    (hfree : reg.peers.find? peer.peerId = none)
    (hinsert : reg.peers.insert? { peer with removedBy } = some peers) :
    RowStep reg k (.peerAdd peer signer) (reg.peers.find? k) (peers.find? k) := by
  rw [Table.find?_insert? hinsert]
  by_cases hk : k = peer.peerId
  · subst hk
    rw [hfree, Function.update_self]
    exact .added rfl
  · rw [Function.update_of_ne hk]
    exact .refl (fun _ => id) _

theorem Edit.rowStep (h : Edit crypto reg clk m mid) :
    RowStep reg k m (reg.peers.find? k) (mid.peers.find? k) := by
  cases h with
  | peerAdded _ _ _ hfree hinsert => exact .inserted hfree hinsert
  | peerReadded _ hinvite _ hrow hkicked =>
    refine .updateStatus (fun _ => id) ?_
    rintro p hother rfl
    obtain rfl := Option.some.inj (hrow.symm.trans hother)
    exact .readded rfl hkicked hinvite
  | peerKicked hc hrow hactive howner =>
    refine .updateStatus (fun _ => id) ?_
    rintro p hother rfl
    obtain rfl := Option.some.inj (hrow.symm.trans hother)
    exact .kicked hactive howner hc.permitted
  | peerBanned hc _ howner =>
    refine .updateStatus (fun _ => id) ?_
    rintro p _ rfl
    exact .banned howner hc.permitted
  | peerLeft _ hrow hactive howner =>
    refine .updateStatus (fun _ => id) ?_
    rintro p hother rfl
    obtain rfl := Option.some.inj (hrow.symm.trans hother)
    exact .left rfl hactive howner
  | addressUpdated => exact .updateAddr fun _ => id
  | addressObserved => exact .updateAddr fun _ => id
  | touched =>
    exact .modify (peerId_touched clk.ms) (fun p _ _ => .kept rfl rfl rfl id) fun _ _ => id
  | roleAssigned _ hknown =>
    refine .modify (peerId_assigned _) ?_ fun _ _ => id
    intro p hrow hsel
    obtain ⟨rfl, hactive⟩ := of_decide_eq_true hsel
    obtain rfl : p.peerId = k := Table.key_of_find? hrow
    exact .roleSet hactive hknown
  | roleRemoved =>
    refine .modify (peerId_assigned 0) ?_ ?_
    · intro p _ hsel
      obtain rfl := of_decide_eq_true hsel
      exact .unassigned
    · rintro p hsel rfl
      exact hsel (decide_eq_true rfl)
  | epochRotated _ _ hshape =>
    rw [hshape]
    exact .refl (fun _ => id) _
  | _ => exact .refl (fun _ => id) _

theorem Mutation.keeps_owner : Keeps (fun reg => reg.header.ownerId) reg (m.run crypto reg clk) := by
  refine Mutation.keeps ⟨fun _ _ _ _ _ _ => rfl, fun _ _ => rfl⟩ fun mid hmid => ?_
  cases hmid with
  | epochRotated _ _ hshape => rw [hshape]
  | _ => rfl

theorem unrecorded_peers : Unrecorded crypto Registrar.peers := by
  constructor <;> intros <;> rfl

theorem unrecorded_roles : Unrecorded crypto Registrar.roles := by
  constructor <;> intros <;> rfl

theorem Mutation.rowStep (h : m.run crypto reg clk = .ok reg') (k : PeerId) :
    RowStep reg k m (reg.peers.find? k) (reg'.peers.find? k) := by
  obtain ⟨mid, hmid, rfl⟩ := m.edits crypto reg clk reg' h
  rw [unrecorded_peers.close]
  exact hmid.rowStep

theorem RowStep.keeps_roleId {row : Peer} {row' : Option Peer} (h : RowStep reg k m (some row) row')
    (hset : ∀ roleId signer, m ≠ .peerSetRole k roleId signer) (hremove : ¬ m.RemovesRole row.roleId) :
    ∃ q, row' = some q ∧ q.roleId = row.roleId := by
  cases h with
  | kept _ _ hid => exact ⟨_, rfl, hid⟩
  | roleSet => exact absurd rfl (hset _ _)
  | unassigned => exact absurd rfl hremove
  | _ => exact ⟨_, rfl, rfl⟩

theorem Edit.keeps_role {id : BitVec 32} {role : Role} (h : Edit crypto reg clk m mid)
    (hrole : reg.roles.find? id = some role) (hremove : ¬ m.RemovesRole id)
    (hset : ∀ permissions signer, m ≠ .roleSetPermissions id permissions signer) :
    mid.roles.find? id = some role := by
  have hkey : role.roleId = id := Table.key_of_find? hrole
  cases h with
  | roleAdded _ _ _ hinsert =>
    rw [Table.find?_insert? hinsert, Function.update_of_ne, hrole]
    rintro rfl
    rw [Table.insert?_eq_none.mpr] at hinsert
    · cases hinsert
    · rw [hrole]
      exact Option.some_ne_none _
  | @roleRemoved _ roleId _ _ =>
    have hother : role.roleId ≠ roleId := fun h => hremove (h.symm.trans hkey)
    change (reg.roles.filter fun r => r.roleId ≠ roleId).find? id = _
    rw [Table.find?_filter, hrole, Option.filter_some, if_pos (decide_eq_true hother)]
  | @permissionsSet _ roleId permissions _ =>
    have hother : ¬ role.roleId = roleId := fun h => hset _ _ (by rw [← hkey, h])
    change (reg.roles.modify _ _ (roleId_regranted _ clk.ms)).find? id = _
    rw [Table.find?_modify, hrole, Option.map_some, if_neg (decide_eq_true_iff.not.mpr hother)]
  | epochRotated _ _ hshape =>
    rw [hshape]
    exact hrole
  | _ => exact hrole

theorem RowStep.change (h : RowStep reg k m row row') : RowChange k m row row' := by
  cases h with
  | absent => exact .absent
  | kept hkey hstatus hrole => exact .kept ⟨hkey, .inl hrole, fun hactive => hstatus ▸ hactive⟩
  | added hk => exact .added hk
  | readded hk hkicked => exact .readded hk hkicked
  | kicked =>
    exact .kept ⟨rfl, .inl rfl, fun h => absurd h (show PeerStatus.kicked ≠ PeerStatus.active by decide)⟩
  | banned =>
    exact .kept ⟨rfl, .inl rfl, fun h => absurd h (show PeerStatus.banned ≠ PeerStatus.active by decide)⟩
  | left =>
    exact .kept ⟨rfl, .inl rfl, fun h => absurd h (show PeerStatus.left ≠ PeerStatus.active by decide)⟩
  | roleSet => exact .roleSet
  | unassigned => exact .kept ⟨rfl, .inr rfl, id⟩

theorem Mutation.rowChange (m : Mutation) (crypto : Crypto) (reg : Registrar) (clk : Clock)
    (k : PeerId) : Yields (fun reg' => RowChange k m (reg.peers.find? k) (reg'.peers.find? k))
      (m.run crypto reg clk) :=
  fun _ hreg' => (Mutation.rowStep hreg' k).change

end Rows

end YumiBrowser.Group
