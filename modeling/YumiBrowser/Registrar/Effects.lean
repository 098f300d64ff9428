import YumiBrowser.Registrar.RoleIntegrity

namespace YumiBrowser.Group

open Wire Keyed

def Mutation.ReadsBack (reg reg' : Registrar) : Mutation → Prop
  | peerSetRole peerId roleId _ => ∃ p, reg'.peers.find? peerId = some p ∧ p.roleId = roleId
  | roleSetPermissions roleId permissions _ =>
    ∃ r, reg'.roles.find? roleId = some r ∧ r.permissions = permissions
  | peerUpdateAddress ip port peer => ∃ p, reg'.peers.find? peer.peerId = some p ∧
    p.ip.val = untilZero ip ∧ p.port = port
  | peerKick peerId reason _ => ∃ p, reg'.peers.find? peerId = some p ∧
    p.status = PeerStatus.kicked ∧ p.removedReason.val = untilZero (reason.getD [])
  | roleAdd name permissions _ _ =>
    ∃ r, reg'.roles.find? (BitVec.ofInt 32 (roleNextId reg)) = some r ∧
      r.name.val = untilZero name ∧ r.permissions = permissions
  | _ => True

def Mutation.HasTarget (reg : Registrar) : Mutation → Prop
  | peerSetRole peerId _ _ => (reg.peers.find? peerId).isSome
  | roleSetPermissions roleId _ _ => reg.HasRole roleId
  | peerUpdateAddress _ _ peer => (reg.peers.find? peer.peerId).isSome
  | peerKick peerId _ _ => (reg.peers.find? peerId).isSome
  | _ => True

/-- `GR_OK` stands for the effect, and a call without a target does not return it. -/
structure Mutation.Effective (crypto : Crypto) (reg : Registrar) (clk : Clock) (m : Mutation) :
    Prop where
  readsBack : ∀ reg', m.run crypto reg clk = .ok reg' → m.ReadsBack reg reg'
  target : ¬ m.HasTarget reg → ∀ reg', m.run crypto reg clk ≠ .ok reg'

/-- What the call checks. -/
def Mutation.Passes (reg : Registrar) : Mutation → Prop
  | peerSetRole _ roleId signer =>
    Cleared reg signer Perm.editRoles ∧ (0 < roleId → reg.HasRole roleId)
  | roleSetPermissions _ _ signer => Cleared reg signer Perm.editRoles
  | peerKick peerId _ signer => Cleared reg signer Perm.kickMember ∧
    (∃ p, reg.peers.find? peerId = some p ∧ p.status = PeerStatus.active) ∧
      isOwner reg peerId = false
  | roleAdd _ _ _ signer => Cleared reg signer Perm.editRoles ∧
    reg.roles.rows.length < maxRoles ∧ roleNextId reg < 2 ^ 31
  | _ => True

/-- What it would have to check besides: that its `UPDATE` has a row to match, and that the text is
short enough to be read again. -/
def Mutation.Fits (reg : Registrar) : Mutation → Prop
  | peerSetRole peerId roleId _ => ∃ p, reg.peers.find? peerId = some p ∧
    (p.status = PeerStatus.active ∨ p.roleId = roleId)
  | roleSetPermissions roleId _ _ => reg.HasRole roleId
  | peerUpdateAddress ip port peer => (untilZero ip).length < 46 ∧
    ∃ p, reg.peers.find? peer.peerId = some p ∧
      (p.status = PeerStatus.active ∨ p.ip.val = untilZero ip ∧ p.port = port)
  | peerKick _ reason _ => (untilZero (reason.getD [])).length < 128
  | roleAdd name _ _ _ => (untilZero name).length < 128
  | _ => True

section Rows

variable {crypto : Crypto} {reg mid : Registrar} {clk : Clock} {m : Mutation}

theorem roleNextId_free (hid : roleNextId reg < 2 ^ 31) :
    reg.roles.find? (BitVec.ofInt 32 (roleNextId reg)) = none := by
  rw [Table.find?_eq_none]
  intro r hr hsame
  have hmem : r.roleId.toInt ∈ reg.roles.rows.map fun r => r.roleId.toInt :=
    List.mem_map_of_mem hr
  unfold roleNextId at hid hsame
  cases hmax : (reg.roles.rows.map fun r => r.roleId.toInt).max? with
  | none =>
    rw [List.max?_eq_none_iff] at hmax
    rw [hmax] at hmem
    exact List.not_mem_nil hmem
  | some m =>
    rw [hmax] at hid hsame
    have hle := (List.max?_eq_some_iff.mp hmax).2 _ hmem
    have hlow := BitVec.le_toInt r.roleId
    have hint : (BitVec.ofInt 32 (m + 1)).toInt = m + 1 :=
      BitVec.toInt_ofInt_eq_self (by decide) (by omega) hid
    rw [hsame, hint] at hle
    omega

theorem Mutation.Passes.roleAdd {name : List Byte} {permissions : Perms} {rolePk : PublicKey}
    {signer : Identity} (h : (Mutation.roleAdd name permissions rolePk signer).Passes reg) :
    ∃ mid, Edit crypto reg clk (.roleAdd name permissions rolePk signer) mid := by
  obtain ⟨hc, hlen, hid⟩ := h
  have hfree := roleNextId_free hid
  cases hinsert : reg.roles.insert?
      { roleId := BitVec.ofInt 32 (roleNextId reg), name := CString.stored 128 name_pos name,
        permissions, signKey := rolePk, createdAt := clk.ms, modifiedAt := clk.ms } with
  | none => exact absurd hfree (Table.insert?_eq_none.mp hinsert)
  | some roles => exact ⟨_, .roleAdded hc hlen hid hinsert⟩

theorem Edit.passes (h : Edit crypto reg clk m mid) : m.Passes reg := by
  cases h with
  | peerKicked hc hrow hactive howner => exact ⟨hc, ⟨_, hrow, hactive⟩, howner⟩
  | roleAssigned hc hknown => exact ⟨hc, hknown⟩
  | roleAdded hc hlen hid => exact ⟨hc, hlen, hid⟩
  | permissionsSet hc => exact hc
  | _ => trivial

theorem Mutation.Fits.hasTarget (h : m.Fits reg) (hpass : m.Passes reg) : m.HasTarget reg := by
  cases m with
  | peerSetRole =>
    obtain ⟨p, hrow, _⟩ := h
    exact Option.isSome_iff_exists.mpr ⟨p, hrow⟩
  | roleSetPermissions => exact h
  | peerUpdateAddress =>
    obtain ⟨_, p, hrow, _⟩ := h
    exact Option.isSome_iff_exists.mpr ⟨p, hrow⟩
  | peerKick =>
    obtain ⟨_, ⟨p, hrow, _⟩, _⟩ := hpass
    exact Option.isSome_iff_exists.mpr ⟨p, hrow⟩
  | _ => trivial

theorem readsBack_close (m : Mutation) :
    m.ReadsBack reg (m.close crypto reg mid clk) ↔ m.ReadsBack reg mid := by
  cases m with
  | peerSetRole => simp only [Mutation.ReadsBack, unrecorded_peers.close]
  | peerUpdateAddress => simp only [Mutation.ReadsBack, unrecorded_peers.close]
  | peerKick => simp only [Mutation.ReadsBack, unrecorded_peers.close]
  | roleSetPermissions => simp only [Mutation.ReadsBack, unrecorded_roles.close]
  | roleAdd => simp only [Mutation.ReadsBack, unrecorded_roles.close]
  | _ => exact Iff.rfl

theorem read_modify {α κ : Type} {key : α → κ} [DecidableEq κ] {t : Table key} {k : κ} {sel : α → Bool}
    {f : α → α} (hf : ∀ a, key (f a) = key a) (P : α → Prop) :
    (∃ b, (t.modify sel f hf).find? k = some b ∧ P b) ↔
      ∃ a, t.find? k = some a ∧ P (if sel a then f a else a) := by
  simp only [Table.find?_modify, Option.map_eq_some_iff]
  constructor
  · rintro ⟨_, ⟨a, ha, rfl⟩, hP⟩
    exact ⟨a, ha, hP⟩
  · rintro ⟨a, ha, hP⟩
    exact ⟨_, ⟨a, ha, rfl⟩, hP⟩

theorem reads_assigned (peerId : PeerId) (roleId : BitVec 32) :
    (∃ p, (reg.peers.modify (fun p => p.peerId = peerId ∧ p.status = PeerStatus.active)
        (fun p => { p with roleId }) (peerId_assigned roleId)).find? peerId = some p ∧
        p.roleId = roleId) ↔
      ∃ p, reg.peers.find? peerId = some p ∧ (p.status = PeerStatus.active ∨ p.roleId = roleId) := by
  refine (read_modify (peerId_assigned roleId) fun p => p.roleId = roleId).trans ?_
  refine exists_congr fun p => and_congr_right fun hrow => ?_
  have hkey : p.peerId = peerId := Table.key_of_find? hrow
  by_cases hactive : p.status = PeerStatus.active
  · simp [hkey, hactive]
  · simp [hactive]

theorem reads_regranted (roleId : BitVec 32) (permissions : Perms) (ms : I64) :
    (∃ r, (reg.roles.modify (fun r => r.roleId = roleId)
        (fun r => { r with permissions, modifiedAt := ms })
        (roleId_regranted permissions ms)).find? roleId = some r ∧ r.permissions = permissions) ↔
      reg.HasRole roleId := by
  refine (read_modify (roleId_regranted permissions ms) fun r => r.permissions = permissions).trans ?_
  refine Iff.trans (exists_congr fun r => and_iff_left_of_imp fun hrow => ?_)
    Option.isSome_iff_exists.symm
  rw [if_pos (decide_eq_true (Table.key_of_find? hrow))]

-- An inactive peer's address stays, and is the requested one only by coincidence.
theorem reads_address (peerId : PeerId) (ip : List Byte) (port : BitVec 16) (ms : I64) :
    (∃ p, (updateAddr reg peerId ip port ms).peers.find? peerId = some p ∧
        p.ip.val = untilZero ip ∧ p.port = port) ↔
      (untilZero ip).length < 46 ∧ ∃ p, reg.peers.find? peerId = some p ∧
        (p.status = PeerStatus.active ∨ p.ip.val = untilZero ip ∧ p.port = port) := by
  refine (read_modify (t := reg.peers) ?_ fun p => p.ip.val = untilZero ip ∧ p.port = port).trans ?_
  · exact fun _ => rfl
  constructor
  · rintro ⟨p, hrow, hread⟩
    have hkey : p.peerId = peerId := Table.key_of_find? hrow
    by_cases hactive : p.status = PeerStatus.active
    · rw [if_pos (decide_eq_true ⟨hkey, hactive⟩)] at hread
      exact ⟨(CString.val_stored _ ip).mp hread.1, p, hrow, .inl hactive⟩
    · rw [if_neg fun hsel => hactive (of_decide_eq_true hsel).2] at hread
      refine ⟨?_, p, hrow, .inr hread⟩
      rw [← hread.1]
      exact p.ip.short
  · rintro ⟨hlen, p, hrow, hread⟩
    have hkey : p.peerId = peerId := Table.key_of_find? hrow
    refine ⟨p, hrow, ?_⟩
    by_cases hactive : p.status = PeerStatus.active
    · rw [if_pos (decide_eq_true ⟨hkey, hactive⟩)]
      exact ⟨(CString.val_stored _ ip).mpr hlen, rfl⟩
    · rw [if_neg fun hsel => hactive (of_decide_eq_true hsel).2]
      exact hread.resolve_left hactive

theorem reads_kicked {peerId : PeerId} {reason : List Byte} {p : Peer}
    (hrow : reg.peers.find? peerId = some p) (ms : I64) (by' : PeerId) :
    (∃ p, (updateStatus reg peerId PeerStatus.kicked ms reason by').peers.find? peerId = some p ∧
        p.status = PeerStatus.kicked ∧ p.removedReason.val = untilZero reason) ↔
      (untilZero reason).length < 128 := by
  refine (read_modify (t := reg.peers) ?_ fun p =>
    p.status = PeerStatus.kicked ∧ p.removedReason.val = untilZero reason).trans ?_
  · exact fun _ => rfl
  have hsel : decide (p.peerId = peerId) = true := decide_eq_true (Table.key_of_find? hrow)
  constructor
  · rintro ⟨q, hq, hread⟩
    obtain rfl : p = q := Option.some.inj (hrow.symm.trans hq)
    rw [if_pos hsel] at hread
    exact (CString.val_stored _ reason).mp hread.2
  · intro hlen
    refine ⟨p, hrow, ?_⟩
    rw [if_pos hsel]
    exact ⟨rfl, (CString.val_stored _ reason).mpr hlen⟩

theorem Edit.readsBack_iff (h : Edit crypto reg clk m mid) : m.ReadsBack reg mid ↔ m.Fits reg := by
  cases h with
  | roleAssigned => exact reads_assigned ..
  | permissionsSet => exact reads_regranted ..
  | addressUpdated => exact reads_address ..
  | peerKicked _ hrow => exact reads_kicked hrow ..
  | roleAdded _ _ _ hinsert =>
    simp only [Mutation.ReadsBack, Table.find?_insert? hinsert, Function.update_self,
      Option.some.injEq, exists_eq_left', and_true]
    exact CString.val_stored ..
  | _ => exact Iff.rfl

theorem Mutation.Passes.effect (hpass : m.Passes reg)
    (h : ∀ mid, Edit crypto reg clk m mid → m.Fits reg) : m.Fits reg := by
  cases m with
  | peerSetRole => exact h _ (.roleAssigned hpass.1 hpass.2)
  | roleSetPermissions => exact h _ (.permissionsSet hpass)
  | peerUpdateAddress => exact h _ .addressUpdated
  | peerKick =>
    obtain ⟨hc, ⟨p, hrow, hactive⟩, howner⟩ := hpass
    exact h _ (.peerKicked hc hrow hactive howner)
  | roleAdd =>
    obtain ⟨mid, hmid⟩ := hpass.roleAdd
    exact h mid hmid
  | _ => trivial

end Rows

/-- A call that returns `GR_OK` has had its effect exactly where, its checks passed, there is a row
to change and the text fits. -/
theorem effective_iff_fits (crypto : Crypto) (reg : Registrar) (clk : Clock) (m : Mutation) :
    m.Effective crypto reg clk ↔ (m.Passes reg → m.Fits reg) := by
  constructor
  · intro h hpass
    refine hpass.effect fun mid (hmid : Edit crypto reg clk m mid) => ?_
    exact hmid.readsBack_iff.mp ((readsBack_close m).mp (h.readsBack _ hmid.run))
  · intro h
    constructor
    · intro reg' hrun
      obtain ⟨mid, hmid, rfl⟩ := m.edits crypto reg clk reg' hrun
      exact (readsBack_close m).mpr (hmid.readsBack_iff.mpr (h hmid.passes))
    · intro hnone reg' hrun
      obtain ⟨mid, hmid, _⟩ := m.edits crypto reg clk reg' hrun
      exact hnone ((h hmid.passes).hasTarget hmid.passes)

-- The owner takes the role from a peer that was never there.
theorem role_set_of_nobody : ¬ ∀ (crypto : Crypto) (name : List Byte) (type : BitVec 32)
    (owner : Identity) (key : EpochKey) (clk : Clock) (start reg : Registrar)
    (steps : List LocalStep), grCreate crypto name type owner key clk = .ok start →
    LocalRun crypto start steps reg → ∀ (m : Mutation) clk, m.Effective crypto reg clk := by
  intro h
  have heffect := h (onlySigner flatHash (member 1)) _ _ _ _ _ _ _ _ grCreate_openGroup .nil
    (.peerSetRole outsider.peerId 0 (member 1)) ⟨2, 2000000⟩
  have hedit : Edit (onlySigner flatHash (member 1)) (openGroup (onlySigner flatHash (member 1)))
      ⟨2, 2000000⟩ (.peerSetRole outsider.peerId 0 (member 1)) _ :=
    .roleAssigned ⟨rfl, checkPerm_owner rfl (by decide)⟩ fun hpos => absurd hpos (by decide)
  refine heffect.target (fun hsome => ?_) _ hedit.run
  have habsent : (openGroup (onlySigner flatHash (member 1))).peers.find? outsider.peerId = none :=
    openGroup_absent (by decide)
  rw [Mutation.HasTarget, habsent] at hsome
  cases hsome

end YumiBrowser.Group
