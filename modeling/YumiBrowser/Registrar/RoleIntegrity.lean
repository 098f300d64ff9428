import YumiBrowser.Registrar.RoleGrants

namespace YumiBrowser.Group

open Wire Keyed

def Registrar.HasRole (reg : Registrar) (roleId : BitVec 32) : Prop :=
  (reg.roles.find? roleId).isSome

/-- Every peer has no role, or one that exists. -/
def Referential (reg : Registrar) : Prop :=
  ∀ k p, reg.peers.find? k = some p → p.roleId = 0 ∨ reg.HasRole p.roleId

/-- A role added here gets `roleId`. -/
def Mutation.Issues (reg : Registrar) (roleId : BitVec 32) : Mutation → Prop
  | roleAdd .. => roleId = BitVec.ofInt 32 (roleNextId reg)
  | _ => False

def Mutation.Assigns (k : PeerId) (roleId : BitVec 32) : Mutation → Prop
  | peerSetRole peerId assigned _ => peerId = k ∧ assigned = roleId
  | peerAdd peer _ => peer.peerId = k ∧ peer.roleId = roleId
  | _ => False

/-- Whoever holds an issued role has been assigned to it since. -/
def HeldByAssignment (steps : List LocalStep) (reg : Registrar) : Prop :=
  ∀ earlier s later roleId k p, steps = earlier ++ s :: later → s.call.Issues s.before roleId →
    reg.peers.find? k = some p → p.roleId = roleId → ∃ t ∈ later, t.call.Assigns k roleId

/-- A peer that is new comes without a role, or with one that exists. -/
def Mutation.AddsKnownRole (reg : Registrar) : Mutation → Prop
  | peerAdd peer _ =>
    reg.peers.find? peer.peerId = none → peer.roleId = 0 ∨ reg.HasRole peer.roleId
  | _ => True

def RolesNumbered (reg : Registrar) : Prop := ∀ r ∈ reg.roles.rows, 0 < r.roleId.toInt

section Step

variable {crypto : Crypto} {reg reg' mid : Registrar} {clk : Clock} {m : Mutation} {k : PeerId}
  {roleId : BitVec 32}

theorem roleNextId_pos (h : RolesNumbered reg) : 0 < roleNextId reg := by
  unfold roleNextId
  cases hmax : (reg.roles.rows.map fun r => r.roleId.toInt).max? with
  | none => exact Int.one_pos
  | some m =>
    obtain ⟨r, hr, rfl⟩ := List.mem_map.mp (List.max?_mem hmax)
    exact Int.add_pos (h r hr) Int.one_pos

theorem toInt_issued (h : RolesNumbered reg) (hid : roleNextId reg < 2 ^ 31) :
    (BitVec.ofInt 32 (roleNextId reg)).toInt = roleNextId reg := by
  have hpos := roleNextId_pos h
  exact BitVec.toInt_ofInt_eq_self (by decide) (by omega) hid

theorem Edit.rolesNumbered (h : Edit crypto reg clk m mid) (hids : RolesNumbered reg) :
    RolesNumbered mid := by
  cases h with
  | roleAdded _ _ hid hinsert =>
    intro r hr
    change r ∈ Table.rows _ at hr
    rw [Table.rows_insert? hinsert, List.mem_append, List.mem_singleton] at hr
    cases hr with
    | inl hold => exact hids r hold
    | inr hnew =>
      rw [hnew, toInt_issued hids hid]
      exact roleNextId_pos hids
  | roleRemoved => exact fun r hr => hids r (List.mem_of_mem_filter hr)
  | permissionsSet =>
    intro r hr
    obtain ⟨old, hold, rfl⟩ := List.mem_map.mp hr
    have hold := hids old hold
    split
    · exact hold
    · exact hold
  | epochRotated _ _ hshape =>
    rw [hshape]
    exact hids
  | _ => exact hids

theorem Edit.hasRole (h : Edit crypto reg clk m mid) (hm : ¬ m.RemovesRole roleId)
    (hrole : reg.HasRole roleId) : mid.HasRole roleId := by
  unfold Registrar.HasRole at hrole ⊢
  cases h with
  | roleAdded _ _ _ hinsert =>
    rw [Table.find?_insert? hinsert, Function.update_apply]
    split
    · rfl
    · exact hrole
  | roleRemoved =>
    obtain ⟨r, hr⟩ := Option.isSome_iff_exists.mp hrole
    change ((Table.filter _ _).find? roleId).isSome = true
    rw [Table.find?_filter, hr, Option.filter_some, if_pos]
    · rfl
    · have hkey : r.roleId = roleId := Table.key_of_find? hr
      exact decide_eq_true fun hremoved => hm (hremoved.symm.trans hkey)
  | permissionsSet =>
    change ((reg.roles.modify _ _ (roleId_regranted _ clk.ms)).find? roleId).isSome = true
    rw [Table.find?_modify, Option.isSome_map]
    exact hrole
  | epochRotated _ _ hshape =>
    rw [hshape]
    exact hrole
  | _ => exact hrole

theorem RolesNumbered.run (h : RolesNumbered reg) (hcall : m.run crypto reg clk = .ok reg') :
    RolesNumbered reg' := by
  obtain ⟨mid, hmid, rfl⟩ := m.edits crypto reg clk reg' hcall
  unfold RolesNumbered
  rw [unrecorded_roles.close]
  exact hmid.rolesNumbered h

theorem hasRole_run (hcall : m.run crypto reg clk = .ok reg') (hm : ¬ m.RemovesRole roleId)
    (hrole : reg.HasRole roleId) : reg'.HasRole roleId := by
  obtain ⟨mid, hmid, rfl⟩ := m.edits crypto reg clk reg' hcall
  unfold Registrar.HasRole
  rw [unrecorded_roles.close]
  exact hmid.hasRole hm hrole

theorem issued_new (hids : RolesNumbered reg) (hcall : m.run crypto reg clk = .ok reg')
    (hissues : m.Issues reg roleId) : roleId ≠ 0 ∧ ¬ reg.HasRole roleId := by
  obtain ⟨mid, hmid, rfl⟩ := m.edits crypto reg clk reg' hcall
  cases hmid with
  | roleAdded _ _ hid hinsert =>
    obtain rfl := hissues
    constructor
    · intro hzero
      have hpos := roleNextId_pos hids
      rw [← toInt_issued hids hid, hzero] at hpos
      exact absurd hpos (by decide)
    · intro htaken
      unfold Registrar.HasRole at htaken
      rw [Table.insert?_eq_none.mpr (Option.isSome_iff_ne_none.mp htaken)] at hinsert
      cases hinsert
  | _ => exact hissues.elim

theorem RowStep.assigned {q : Peer} (h : RowStep reg k m row (some q)) (hr : q.roleId ≠ 0) :
    (∃ p, row = some p ∧ p.roleId = q.roleId ∧ ¬ m.RemovesRole q.roleId) ∨ m.Assigns k q.roleId := by
  cases h with
  | kept _ _ hrole hm => exact .inl ⟨_, rfl, hrole.symm, hrole ▸ hm⟩
  | added hk => exact .inr ⟨hk, rfl⟩
  | readded => exact .inl ⟨_, rfl, rfl, id⟩
  | kicked => exact .inl ⟨_, rfl, rfl, id⟩
  | banned => exact .inl ⟨_, rfl, rfl, id⟩
  | left => exact .inl ⟨_, rfl, rfl, id⟩
  | roleSet => exact .inr ⟨rfl, rfl⟩
  | unassigned => exact absurd rfl hr

theorem RowStep.known {q : Peer} (h : RowStep reg k m row (some q)) (hrow : reg.peers.find? k = row)
    (hreg : Referential reg) (hadds : m.AddsKnownRole reg) :
    q.roleId = 0 ∨ reg.HasRole q.roleId ∧ ¬ m.RemovesRole q.roleId := by
  cases h with
  | kept _ _ hrole hm =>
    rw [hrole]
    exact (hreg k _ hrow).imp_right fun hold => ⟨hold, hm⟩
  | added hk =>
    subst hk
    exact (hadds hrow).imp_right fun hold => ⟨hold, id⟩
  | readded => exact (hreg k _ hrow).imp_right fun hold => ⟨hold, id⟩
  | kicked => exact (hreg k _ hrow).imp_right fun hold => ⟨hold, id⟩
  | banned => exact (hreg k _ hrow).imp_right fun hold => ⟨hold, id⟩
  | left => exact (hreg k _ hrow).imp_right fun hold => ⟨hold, id⟩
  | roleSet _ hknown =>
    rw [or_iff_not_imp_left]
    exact fun hzero => ⟨hknown ((BitVec.pos_iff_ne_zero _).mpr hzero), id⟩
  | unassigned => exact .inl rfl

theorem Referential.run (h : Referential reg) (hadds : m.AddsKnownRole reg)
    (hcall : m.run crypto reg clk = .ok reg') : Referential reg' := by
  intro k q hq
  have hstep := Mutation.rowStep hcall k
  rw [hq] at hstep
  exact (hstep.known rfl h hadds).imp_right fun hold => hasRole_run hcall hold.2 hold.1

theorem find?_entered {peer : Peer} {peers : Table Peer.peerId}
    (hinsert : reg.peers.insert? peer.entered = some peers) :
    peers.find? peer.peerId = some peer.entered := by
  rw [Table.find?_insert? hinsert]
  exact Function.update_self ..

theorem adds_known_of_referential (hcall : m.run crypto reg clk = .ok reg') (h : Referential reg') :
    m.AddsKnownRole reg := by
  obtain ⟨mid, hmid, rfl⟩ := m.edits crypto reg clk reg' hcall
  cases hmid with
  | peerAdded _ _ _ _ hinsert =>
    intro _
    unfold Referential Registrar.HasRole at h
    rw [unrecorded_peers.close, unrecorded_roles.close] at h
    have hknown := h _ _ (find?_entered hinsert)
    exact hknown
  | peerReadded _ _ _ hrow =>
    intro hfree
    rw [hfree] at hrow
    cases hrow
  | _ => trivial

end Step

section Run

variable {crypto : Crypto} {start reg : Registrar} {steps : List LocalStep}

theorem founded_grCreate (h : grCreate crypto name type owner key clk = .ok reg) :
    RolesNumbered reg ∧ Referential reg := by
  obtain rfl := grCreate_cases h
  refine ⟨fun _ hr => absurd hr List.not_mem_nil, fun k p hp => .inl ?_⟩
  rw [peers_auditAppend, founded, Table.find?_upsert, Function.update_apply] at hp
  split at hp
  · rw [← Option.some.inj hp]
    rfl
  · cases hp

theorem RolesNumbered.along (h : RolesNumbered start) (hrun : LocalRun crypto start steps reg) :
    RolesNumbered reg ∧ ∀ s ∈ steps, RolesNumbered s.before := by
  induction hrun with
  | nil => exact ⟨h, fun _ hs => absurd hs List.not_mem_nil⟩
  | @snoc steps reg reg' m clk _ hcall ih =>
    refine ⟨ih.1.run hcall, fun s hs => ?_⟩
    cases List.mem_append.mp hs with
    | inl hold => exact ih.2 s hold
    | inr hnew =>
      obtain rfl := List.mem_singleton.mp hnew
      exact ih.1

theorem Referential.along (h : Referential start) (hrun : LocalRun crypto start steps reg)
    (hadds : ∀ s ∈ steps, s.call.AddsKnownRole s.before) :
    Referential reg ∧ ∀ s ∈ steps, Referential s.after := by
  induction hrun with
  | nil => exact ⟨h, fun _ hs => absurd hs List.not_mem_nil⟩
  | @snoc steps reg reg' m clk _ hcall ih =>
    have hbefore := ih fun s hs => hadds s (List.mem_append_left _ hs)
    have hnext := hbefore.1.run (hadds _ (List.mem_append_right _ (List.mem_singleton_self _))) hcall
    refine ⟨hnext, fun s hs => ?_⟩
    cases List.mem_append.mp hs with
    | inl hold => exact hbefore.2 s hold
    | inr hnew =>
      obtain rfl := List.mem_singleton.mp hnew
      exact hnext

theorem HeldByAssignment.along (hids : RolesNumbered start) (h : Referential start)
    (hrun : LocalRun crypto start steps reg) (hadds : ∀ s ∈ steps, s.call.AddsKnownRole s.before) :
    HeldByAssignment steps reg := by
  induction hrun with
  | nil =>
    intro earlier s later roleId k p hsteps
    exact absurd hsteps.symm (List.append_ne_nil_of_right_ne_nil _ (List.cons_ne_nil _ _))
  | @snoc steps reg reg' m clk hrun hcall ih =>
    have hbefore : ∀ s ∈ steps, s.call.AddsKnownRole s.before :=
      fun s hs => hadds s (List.mem_append_left _ hs)
    intro earlier s later roleId k q hsteps hissues hq hheld
    obtain rfl := hheld
    have hstep := Mutation.rowStep hcall k
    rw [hq] at hstep
    cases later using List.reverseRecOn with
    | nil =>
      obtain ⟨rfl, hlast⟩ := List.append_inj' hsteps rfl
      obtain rfl := (List.cons.inj hlast).1
      have hnew := issued_new (hids.along hrun).1 hcall hissues
      have hknown := hstep.known rfl (h.along hrun hbefore).1
        (hadds _ (List.mem_append_right _ (List.mem_singleton_self _)))
      exact absurd hknown (not_or.mpr ⟨hnew.1, fun hold => hnew.2 hold.1⟩)
    | append_singleton later t _ =>
      have hassoc := (List.append_assoc earlier (s :: later) [t]).symm
      obtain ⟨hinit, hlast⟩ := List.append_inj' (hsteps.trans hassoc) rfl
      obtain rfl := (List.cons.inj hlast).1
      have hs : s ∈ steps := hinit ▸ List.mem_append_right _ List.mem_cons_self
      have hzero := (issued_new ((hids.along hrun).2 s hs) (hrun.step s hs) hissues).1
      rcases hstep.assigned hzero with ⟨p, hp, hrole, _⟩ | hass
      · obtain ⟨t, ht, hass⟩ := ih hbefore earlier s later q.roleId k p hinit hissues hp hrole
        exact ⟨t, List.mem_append_left _ ht, hass⟩
      · exact ⟨_, List.mem_append_right _ (List.mem_singleton_self _), hass⟩

end Run

/-- Roles stay consistent along a run exactly where every newcomer comes with a role that exists. -/
theorem roles_referential_iff {crypto : Crypto} {start reg : Registrar} {steps : List LocalStep}
    (hcreate : grCreate crypto name type owner key clk = .ok start)
    (hrun : LocalRun crypto start steps reg) :
    (∀ s ∈ steps, Referential s.after) ∧ HeldByAssignment steps reg ↔
      ∀ s ∈ steps, s.call.AddsKnownRole s.before := by
  obtain ⟨hids, hstart⟩ := founded_grCreate hcreate
  constructor
  · rintro ⟨hafter, _⟩ s hs
    exact adds_known_of_referential (hrun.step s hs) (hafter s hs)
  · intro hadds
    exact ⟨(hstart.along hrun hadds).2, .along hids hstart hrun hadds⟩

section Dangling

variable {crypto : Crypto}

theorem roles_referential_iff_climb : ∃ steps reg,
    LocalRun (onlySigner flatHash (member 1)) (openGroup (onlySigner flatHash (member 1))) steps reg ∧
      ((∀ s ∈ steps, Referential s.after) ∧ HeldByAssignment steps reg ↔
        ∀ s ∈ steps, s.call.AddsKnownRole s.before) := by
  obtain ⟨reg, hrun⟩ := @climb (onlySigner flatHash (member 1)) rfl
  exact ⟨_, reg, hrun, roles_referential_iff grCreate_openGroup hrun⟩

theorem early_climb (hskein : deriveId crypto climber.signKey = climber.peerId) : ∃ reg,
    LocalRun crypto (openGroup crypto)
      [⟨openGroup crypto, .peerAdd climber (member 0), ⟨3, 3000000⟩, reg⟩] reg ∧
      ¬ (Mutation.peerAdd climber (member 0)).AddsKnownRole (openGroup crypto) := by
  have hpublic : (openGroup crypto).header.groupType ≠ groupPrivate :=
    fun h => absurd (show groupPublic = groupPrivate from h) (by decide)
  have habsent : (openGroup crypto).peers.find? climber.peerId = none :=
    @openGroup_absent crypto 0 (by decide)
  obtain ⟨reg, hadd⟩ := peerAdd_of_free rfl (.inl hpublic) hskein habsent ⟨3, 3000000⟩
  have hnil : LocalRun crypto (openGroup crypto) [] (openGroup crypto) := .nil
  refine ⟨reg, hnil.snoc (.peerAdd climber (member 0)) _ hadd, fun hadds => ?_⟩
  cases hadds habsent with
  | inl hzero => exact absurd hzero (by decide)
  | inr hknown => cases hknown

-- Unlike an assignment, an addition does not look the role up.
theorem role_dangling : ¬ ∀ (crypto : Crypto) (name : List Byte) (type : BitVec 32)
    (owner : Identity) (key : EpochKey) (clk : Clock) (start reg : Registrar)
    (steps : List LocalStep), grCreate crypto name type owner key clk = .ok start →
    LocalRun crypto start steps reg → ∀ s ∈ steps, Referential s.after := by
  intro h
  obtain ⟨reg, hrun, hnot⟩ := @early_climb (onlySigner flatHash (member 1)) rfl
  have hreg := h _ _ _ _ _ _ _ _ _ grCreate_openGroup hrun _ (List.mem_singleton_self _)
  exact hnot (adds_known_of_referential (hrun.step _ (List.mem_singleton_self _)) hreg)

end Dangling

end YumiBrowser.Group
