import YumiBrowser.Registrar.Replicas

namespace YumiBrowser.Group

open Wire Keyed

/-- What an entry says, next to the place it takes in the log. -/
structure Record where
  change : ChangeType
  actor : Identity
  target : Option PeerId
  detail : List Byte

def Record.entry (c : Record) (crypto : Crypto) (reg : Registrar) (ns : I64) : AuditEntry :=
  newEntry crypto reg c.change c.actor c.target c.detail ns

def Mutation.record (reg : Registrar) : Mutation → Option Record
  | peerAdd peer signer =>
    let known := (reg.peers.find? peer.peerId).isSome
    some ⟨.peerAdded, signer, some peer.peerId,
      if known then ascii "peer re-added (was kicked)" else ascii "peer added"⟩
  | peerKick peerId reason signer =>
    some ⟨.peerKicked, signer, some peerId, reason.getD (ascii "kicked")⟩
  | peerBan peerId reason signer =>
    some ⟨.peerBanned, signer, some peerId, reason.getD (ascii "banned")⟩
  | peerLeave peer => some ⟨.peerRemoved, peer, some peer.peerId, ascii "left voluntarily"⟩
  | peerUpdateAddress _ _ peer =>
    some ⟨.peerAddress, peer, some peer.peerId, ascii "address updated"⟩
  | peerObservedAddress peerId _ _ observer =>
    some ⟨.peerAddress, observer, some peerId, ascii "observed address"⟩
  | peerTouch _ => none
  | peerSetRole peerId roleId signer =>
    some ⟨.peerRoleChanged, signer, some peerId, ascii "role set to " ++ decimal roleId.toNat⟩
  | roleAdd name _ _ signer =>
    let roleId := BitVec.ofInt 32 (roleNextId reg)
    some ⟨.roleAdded, signer, none, ascii "role '" ++ (untilZero name).take 64 ++
      ascii "' added (id=" ++ decimal roleId.toNat ++ ascii ")"⟩
  | roleRemove roleId signer =>
    let name := ((reg.roles.find? roleId).map fun r => r.name.val).getD []
    some ⟨.roleRemoved, signer, none, ascii "role '" ++ name.take 64 ++
      ascii "' removed (id=" ++ decimal roleId.toNat ++ ascii ")"⟩
  | roleSetPermissions roleId permissions signer =>
    some ⟨.roleModified, signer, none, ascii "role " ++ decimal roleId.toNat ++
      ascii " permissions set to 0x" ++ hex 8 permissions.toNat true⟩
  | webappAdd webapp signer =>
    some ⟨.webappAdded, signer, none, ascii "webapp '" ++ webapp.name.val.take 64 ++ ascii "' v" ++
      decimal webapp.version.toNat ++ ascii " added"⟩
  | webappRemove _ signer => some ⟨.webappRemoved, signer, none, ascii "webapp removed"⟩
  | webappUpdatePermData hash data signer =>
    some ⟨.webappModified, signer, none, webappDetail hash "perm_data" data.length⟩
  | webappUpdateRoleMask hash mask signer =>
    some ⟨.webappModified, signer, none, webappDetail hash "role_mask" mask.length⟩
  | serverAdd server signer =>
    let t := if server.type = serverSignaling then "signaling" else "rebroadcast"
    some ⟨.serverAdded, signer, none, ascii (t ++ " server added at ") ++ server.ip.val ++
      ascii ":" ++ decimal server.port.toNat⟩
  | serverRemove _ signer => some ⟨.serverRemoved, signer, none, ascii "server removed"⟩
  | epochRotate _ signer =>
    some ⟨.epochRotated, signer, none,
      ascii "epoch rotated to " ++ decimal (reg.header.epochId + 1).toNat⟩
  | retentionSet _ signer =>
    some ⟨.retentionSet, signer, none, ascii "retention policy updated"⟩
  | sign signer => some ⟨.registrarSigned, signer, none, ascii "registrar signed"⟩
  | side .inviteCreated detail signer => some ⟨.inviteCreated, signer, none, detail⟩
  | side .inviteInvalidated detail signer => some ⟨.inviteInvalidated, signer, none, detail⟩
  | side (.inviteUsed peerId) detail signer => some ⟨.inviteUsed, signer, some peerId, detail⟩
  | side .groupIconSet detail signer => some ⟨.groupIconSet, signer, none, detail⟩
  | side .groupIconRemoved detail signer => some ⟨.groupIconRemoved, signer, none, detail⟩

def Mutation.close (crypto : Crypto) (reg mid : Registrar) (clk : Clock) (m : Mutation) : Registrar :=
  match m.record reg with
  | none => mid
  | some c =>
    let reg' := auditAppend crypto mid c.change c.actor c.target c.detail clk.ns
    match m with
    | sign signer => { reg' with header := reg'.header.signed crypto signer }
    | _ => reg'

def Peer.entered (p : Peer) : Peer :=
  { p with removedBy := if p.removedBy.val.head? = some 0 then zeroBytes 32 else p.removedBy }

structure Cleared (reg : Registrar) (signer : Identity) (perm : Perms) : Prop where
  trusted : reg.untrusted = false
  permitted : checkPerm reg signer perm = true

inductive Edit (crypto : Crypto) (reg : Registrar) (clk : Clock) : Mutation → Registrar → Prop
  | peerAdded : reg.untrusted = false →
      (reg.header.groupType = groupPrivate → checkPerm reg signer Perm.inviteMember = true) →
      deriveId crypto peer.signKey = peer.peerId → reg.peers.find? peer.peerId = none →
      reg.peers.insert? peer.entered = some peers →
      Edit crypto reg clk (.peerAdd peer signer) { reg with peers }
  | peerReadded : reg.untrusted = false →
      (reg.header.groupType = groupPrivate → checkPerm reg signer Perm.inviteMember = true) →
      deriveId crypto peer.signKey = peer.peerId → reg.peers.find? peer.peerId = some existing →
      existing.status = PeerStatus.kicked →
      Edit crypto reg clk (.peerAdd peer signer)
        (updateStatus reg peer.peerId PeerStatus.active 0 [] (zeroBytes 32))
  | peerKicked : Cleared reg signer Perm.kickMember → reg.peers.find? peerId = some peer →
      peer.status = PeerStatus.active → isOwner reg peerId = false →
      Edit crypto reg clk (.peerKick peerId reason signer)
        (updateStatus reg peerId PeerStatus.kicked clk.ms (reason.getD []) signer.peerId)
  | peerBanned : Cleared reg signer Perm.banMember → reg.peers.find? peerId = some peer →
      isOwner reg peerId = false →
      Edit crypto reg clk (.peerBan peerId reason signer)
        (updateStatus reg peerId PeerStatus.banned clk.ms (reason.getD []) signer.peerId)
  | peerLeft : reg.untrusted = false → reg.peers.find? peer.peerId = some existing →
      existing.status = PeerStatus.active → isOwner reg peer.peerId = false →
      Edit crypto reg clk (.peerLeave peer)
        (updateStatus reg peer.peerId PeerStatus.left clk.ms (ascii "left voluntarily") peer.peerId)
  | addressUpdated : Edit crypto reg clk (.peerUpdateAddress ip port peer)
      (updateAddr reg peer.peerId ip port clk.ms)
  | addressObserved : reg.peers.find? peerId = some existing →
      existing.status = PeerStatus.active →
      Edit crypto reg clk (.peerObservedAddress peerId ip port observer)
        (updateAddr reg peerId ip port clk.ms)
  | touched : Edit crypto reg clk (.peerTouch peerId)
      { reg with
        peers := reg.peers.modify (fun p => p.peerId = peerId)
          (fun p => { p with lastSeen := clk.ms }) (peerId_touched clk.ms) }
  | roleAssigned : Cleared reg signer Perm.editRoles →
      (0 < roleId → (reg.roles.find? roleId).isSome) →
      Edit crypto reg clk (.peerSetRole peerId roleId signer)
        { reg with
          peers := reg.peers.modify (fun p => p.peerId = peerId ∧ p.status = PeerStatus.active)
            (fun p => { p with roleId }) (peerId_assigned roleId) }
  | roleAdded : Cleared reg signer Perm.editRoles → reg.roles.rows.length < maxRoles →
      roleNextId reg < 2 ^ 31 →
      reg.roles.insert?
        { roleId := BitVec.ofInt 32 (roleNextId reg), name := CString.stored 128 name_pos name,
          permissions, signKey := rolePk, createdAt := clk.ms, modifiedAt := clk.ms } = some roles →
      Edit crypto reg clk (.roleAdd name permissions rolePk signer) { reg with roles }
  | roleRemoved : Cleared reg signer Perm.editRoles → (reg.roles.find? roleId).isSome →
      Edit crypto reg clk (.roleRemove roleId signer)
        { reg with
          peers := reg.peers.modify (fun p => p.roleId = roleId) (fun p => { p with roleId := 0 })
            (peerId_assigned 0)
          roles := reg.roles.filter fun r => r.roleId ≠ roleId }
  | permissionsSet : Cleared reg signer Perm.editRoles →
      Edit crypto reg clk (.roleSetPermissions roleId permissions signer)
        { reg with
          roles := reg.roles.modify (fun r => r.roleId = roleId)
            (fun r => { r with permissions, modifiedAt := clk.ms })
            (roleId_regranted permissions clk.ms) }
  | webappAdded : Cleared reg signer Perm.addWebapp →
      reg.webapps.insert? { webapp with addedAt := clk.ms, addedBy := signer.peerId } = some webapps →
      Edit crypto reg clk (.webappAdd webapp signer) { reg with webapps }
  | webappRemoved : Cleared reg signer Perm.removeWebapp → (reg.webapps.find? key).isSome →
      Edit crypto reg clk (.webappRemove key signer)
        { reg with webapps := reg.webapps.filter fun w => w.hash ≠ key }
  | permDataSet (permData : Blob (512 * 2048)) : Cleared reg signer Perm.addWebapp →
      (reg.webapps.find? key).isSome →
      Edit crypto reg clk (.webappUpdatePermData key permData.val signer)
        { reg with
          webapps := reg.webapps.modify (fun w => w.hash = key) (fun w => { w with permData })
            (hash_permData permData) }
  | roleMaskSet (roleMask : Blob (50 * 64)) : Cleared reg signer Perm.setWebappRoles →
      (reg.webapps.find? key).isSome →
      Edit crypto reg clk (.webappUpdateRoleMask key roleMask.val signer)
        { reg with
          webapps := reg.webapps.modify (fun w => w.hash = key) (fun w => { w with roleMask })
            (hash_roleMask roleMask) }
  | serverAdded : Cleared reg signer Perm.editServers → reg.servers.insert? server = some servers →
      Edit crypto reg clk (.serverAdd server signer) { reg with servers }
  | serverRemoved : Cleared reg signer Perm.editServers → (reg.servers.find? idHash).isSome →
      Edit crypto reg clk (.serverRemove idHash signer)
        { reg with servers := reg.servers.filter fun s => s.idHash ≠ idHash }
  | epochRotated : Cleared reg signer Perm.rotateEpoch → rotate reg newKey signer clk = .ok mid →
      mid = { reg with
        epochs, header := { reg.header with epochId := reg.header.epochId + 1 } } →
      Edit crypto reg clk (.epochRotate newKey signer) mid
  | retentionChanged : Cleared reg signer Perm.editRetention →
      Edit crypto reg clk (.retentionSet policy signer)
        { reg with header := { reg.header with retention := policy } }
  | signed : Cleared reg signer Perm.signRegistrar → Edit crypto reg clk (.sign signer) reg
  | side : Edit crypto reg clk (.side change detail signer) reg

theorem not_isNone_iff {o : Option α} : ¬ o.isNone = true ↔ o.isSome = true := by
  cases o <;> simp

section Yields

/-- Where the call succeeds, `Q` holds of what it leaves. -/
def Yields (Q : Registrar → Prop) (r : Except GrError Registrar) : Prop :=
  ∀ reg', r = .ok reg' → Q reg'

variable {Q : Registrar → Prop}

theorem Yields.error : Yields Q (.error e) := nofun

theorem Yields.ok (h : Q reg') : Yields Q (.ok reg') := by
  rintro _ ⟨⟩
  exact h

theorem Yields.ite {p : Prop} [Decidable p] {a b : Except GrError Registrar}
    (ha : p → Yields Q a) (hb : ¬ p → Yields Q b) : Yields Q (if p then a else b) := by
  by_cases hp : p
  · rw [if_pos hp]
    exact ha hp
  · rw [if_neg hp]
    exact hb hp

theorem Yields.map_orElse {o : Option β} {g : β → Registrar} (h : ∀ b, o = some b → Q (g b)) :
    Yields Q ((orElse e o).map g) := by
  intro reg' hreg'
  obtain ⟨b, hb, rfl⟩ := map_orElse_eq_ok.mp hreg'
  exact h b hb

theorem Yields.mutate (h : Cleared reg signer perm →
      Yields (fun mid => Q (auditAppend crypto mid change signer target detail ns)) edit) :
    Yields Q (mutate crypto reg perm signer change target detail ns edit) := by
  intro reg' hreg'
  obtain ⟨htrusted, hperm, mid, hmid, rfl⟩ := mutate_eq_ok.mp hreg'
  exact h ⟨htrusted, hperm⟩ mid hmid

theorem Yields.map {f : Registrar → Registrar} {r : Except GrError Registrar}
    (h : Yields (fun mid => Q (f mid)) r) : Yields Q (r.map f) := by
  cases r with
  | error e => exact .error
  | ok mid => exact .ok (h mid rfl)

end Yields

theorem rotate_cases (h : rotate reg newKey signer clk = .ok mid) : ∃ epochs, mid =
    { reg with epochs, header := { reg.header with epochId := reg.header.epochId + 1 } } := by
  obtain ⟨epochs, _, rfl⟩ := map_orElse_eq_ok.mp h
  exact ⟨epochs, rfl⟩

theorem Mutation.edits (m : Mutation) (crypto : Crypto) (reg : Registrar) (clk : Clock) :
    Yields (fun reg' => ∃ mid, Edit crypto reg clk m mid ∧ reg' = m.close crypto reg mid clk)
      (m.run crypto reg clk) := by
  cases m with
  | peerAdd peer signer =>
    refine .ite (fun _ => .error) fun htrusted => .ite (fun _ => .error) fun hinvite =>
      .ite (fun _ => .error) fun hderived => ?_
    have htrusted := Bool.eq_false_of_not_eq_true htrusted
    have hderived := not_not.mp hderived
    have hpermitted : reg.header.groupType = groupPrivate →
        checkPerm reg signer Perm.inviteMember = true :=
      fun hprivate => not_not.mp fun hperm => hinvite ⟨hprivate, hperm⟩
    cases hrow : reg.peers.find? peer.peerId with
    | none =>
      refine .map_orElse fun peers hpeers => ⟨_, .peerAdded htrusted hpermitted hderived hrow hpeers, ?_⟩
      simp only [close, record, hrow]
      rfl
    | some existing =>
      refine .ite (fun hkicked => .ok ⟨_, .peerReadded htrusted hpermitted hderived hrow hkicked, ?_⟩)
        fun _ => .error
      simp only [close, record, hrow]
      rfl
  | peerKick peerId reason signer =>
    refine .mutate fun hc => ?_
    cases hrow : reg.peers.find? peerId with
    | none => exact .error
    | some peer =>
      refine .ite (fun _ => .error) fun hactive => .ite (fun _ => .error) fun howner => ?_
      exact .ok ⟨_, .peerKicked hc hrow (not_not.mp hactive) (Bool.eq_false_of_not_eq_true howner),
        rfl⟩
  | peerBan peerId reason signer =>
    refine .mutate fun hc => ?_
    cases hrow : reg.peers.find? peerId with
    | none => exact .error
    | some peer =>
      refine .ite (fun _ => .error) fun howner => ?_
      exact .ok ⟨_, .peerBanned hc hrow (Bool.eq_false_of_not_eq_true howner), rfl⟩
  | peerLeave peer =>
    refine .ite (fun _ => .error) fun htrusted => .ite (fun _ => .error) fun howner => ?_
    cases hrow : reg.peers.find? peer.peerId with
    | none => exact .error
    | some existing =>
      refine .ite (fun _ => .error) fun hactive => ?_
      exact .ok ⟨_, .peerLeft (Bool.eq_false_of_not_eq_true htrusted) hrow (not_not.mp hactive)
        (Bool.eq_false_of_not_eq_true howner), rfl⟩
  | peerUpdateAddress ip port peer => exact .ok ⟨_, .addressUpdated, rfl⟩
  | peerObservedAddress peerId ip port observer =>
    simp only [Mutation.run, Group.peerObservedAddress]
    cases hrow : reg.peers.find? peerId with
    | none => exact .error
    | some existing =>
      exact .ite (fun _ => .error) fun hactive =>
        .ok ⟨_, .addressObserved hrow (not_not.mp hactive), rfl⟩
  | peerTouch peerId => exact .ok ⟨_, .touched, rfl⟩
  | peerSetRole peerId roleId signer =>
    refine .mutate fun hc => .ite (fun _ => .error) fun hknown => .ok ⟨_, .roleAssigned hc ?_, rfl⟩
    exact fun hpos => not_isNone_iff.mp fun hnone => hknown ⟨hpos, hnone⟩
  | roleAdd name permissions rolePk signer =>
    refine .mutate fun hc => .ite (fun _ => .error) fun hlen => .ite (fun _ => .error) fun hid => ?_
    exact .map_orElse fun roles hroles =>
      ⟨_, .roleAdded hc (Nat.not_le.mp hlen) (not_le.mp hid) hroles, rfl⟩
  | roleRemove roleId signer =>
    refine .mutate fun hc => .ite (fun _ => .error) fun hknown =>
      .ok ⟨_, .roleRemoved hc (not_isNone_iff.mp hknown), rfl⟩
  | roleSetPermissions roleId permissions signer =>
    exact .mutate fun hc => .ok ⟨_, .permissionsSet hc, rfl⟩
  | webappAdd webapp signer =>
    exact .mutate fun hc => .map_orElse fun webapps hins => ⟨_, .webappAdded hc hins, rfl⟩
  | webappRemove key signer =>
    refine .mutate fun hc => .ite (fun _ => .error) fun hknown =>
      .ok ⟨_, .webappRemoved hc (not_isNone_iff.mp hknown), rfl⟩
  | webappUpdatePermData key data signer =>
    refine .mutate fun hc => ?_
    split
    · next hlen =>
      refine .ite (fun _ => .error) fun hknown =>
        .ok ⟨_, .permDataSet ⟨data, hlen⟩ hc (not_isNone_iff.mp hknown), rfl⟩
    · exact .error
  | webappUpdateRoleMask key mask signer =>
    refine .mutate fun hc => ?_
    split
    · next hlen =>
      refine .ite (fun _ => .error) fun hknown =>
        .ok ⟨_, .roleMaskSet ⟨mask, hlen⟩ hc (not_isNone_iff.mp hknown), rfl⟩
    · exact .error
  | serverAdd server signer =>
    exact .mutate fun hc => .map_orElse fun servers hins => ⟨_, .serverAdded hc hins, rfl⟩
  | serverRemove idHash signer =>
    refine .mutate fun hc => .ite (fun _ => .error) fun hknown =>
      .ok ⟨_, .serverRemoved hc (not_isNone_iff.mp hknown), rfl⟩
  | epochRotate newKey signer =>
    refine .mutate fun hc mid hmid => ?_
    obtain ⟨epochs, hshape⟩ := rotate_cases hmid
    exact ⟨mid, .epochRotated hc hmid hshape, rfl⟩
  | retentionSet policy signer => exact .mutate fun hc => .ok ⟨_, .retentionChanged hc, rfl⟩
  | sign signer => exact .map (.mutate fun hc => .ok ⟨_, .signed hc, rfl⟩)
  | side change detail signer => cases change <;> exact .ok ⟨_, .side, rfl⟩

section Converse

variable {crypto : Crypto} {reg mid : Registrar} {clk : Clock} {m : Mutation}

theorem Cleared.run (h : Cleared reg signer perm) (hedit : edit = .ok mid) :
    mutate crypto reg perm signer change target detail ns edit =
      .ok (auditAppend crypto mid change signer target detail ns) :=
  mutate_eq_ok.mpr ⟨h.trusted, h.permitted, mid, hedit, rfl⟩

theorem Edit.run (h : Edit crypto reg clk m mid) :
    m.run crypto reg clk = .ok (m.close crypto reg mid clk) := by
  cases h with
  | peerAdded htrusted hinvite hderived hfree hinsert =>
    have hguard : ¬ (reg.header.groupType = groupPrivate ∧ ¬ checkPerm reg _ Perm.inviteMember = true) :=
      fun hdenied => hdenied.2 (hinvite hdenied.1)
    rw [Peer.entered] at hinsert
    simp only [Mutation.run, Group.peerAdd, htrusted, Bool.false_eq_true, ↓reduceIte, if_neg hguard,
      hderived, ne_eq, not_true_eq_false, hfree, hinsert, Mutation.close, Mutation.record]
    rfl
  | peerReadded htrusted hinvite hderived hrow hkicked =>
    have hguard : ¬ (reg.header.groupType = groupPrivate ∧ ¬ checkPerm reg _ Perm.inviteMember = true) :=
      fun hdenied => hdenied.2 (hinvite hdenied.1)
    simp only [Mutation.run, Group.peerAdd, htrusted, Bool.false_eq_true, ↓reduceIte, if_neg hguard,
      hderived, ne_eq, not_true_eq_false, hrow, hkicked, Mutation.close, Mutation.record]
    rfl
  | peerKicked hc hrow hactive howner =>
    apply hc.run
    simp [hrow, hactive, howner]
  | peerBanned hc hrow howner =>
    apply hc.run
    simp [hrow, howner]
  | peerLeft htrusted hrow hactive howner =>
    simp only [Mutation.run, Group.peerLeave, htrusted, Bool.false_eq_true, ↓reduceIte, howner, hrow,
      hactive, ne_eq, not_true_eq_false]
    rfl
  | addressUpdated => rfl
  | addressObserved hrow hactive =>
    simp only [Mutation.run, Group.peerObservedAddress, hrow, hactive, ne_eq, not_true_eq_false,
      ↓reduceIte]
    rfl
  | touched => rfl
  | roleAssigned hc hknown =>
    exact hc.run (if_neg fun hnone => not_isNone_iff.mpr (hknown hnone.1) hnone.2)
  | roleAdded hc hlen hid hinsert =>
    apply hc.run
    rw [if_neg (Nat.not_le.mpr hlen), if_neg (not_le.mpr hid), hinsert]
    rfl
  | roleRemoved hc hknown => exact hc.run (if_neg (not_isNone_iff.mpr hknown))
  | permissionsSet hc => exact hc.run rfl
  | webappAdded hc hinsert =>
    apply hc.run
    rw [hinsert]
    rfl
  | webappRemoved hc hknown => exact hc.run (if_neg (not_isNone_iff.mpr hknown))
  | permDataSet permData hc hknown =>
    apply hc.run
    rw [dif_pos permData.short, if_neg (not_isNone_iff.mpr hknown)]
  | roleMaskSet roleMask hc hknown =>
    apply hc.run
    rw [dif_pos roleMask.short, if_neg (not_isNone_iff.mpr hknown)]
  | serverAdded hc hinsert =>
    apply hc.run
    rw [hinsert]
    rfl
  | serverRemoved hc hknown => exact hc.run (if_neg (not_isNone_iff.mpr hknown))
  | epochRotated hc hrotate => exact hc.run hrotate
  | retentionChanged hc => exact hc.run rfl
  | signed hc => exact congrArg (Except.map _) (hc.run rfl)
  | @side change => cases change <;> rfl

end Converse

section Views

variable {crypto : Crypto} {reg mid : Registrar} {clk : Clock} {m : Mutation} {f : Registrar → α}

/-- Neither the entry nor the signature shows in the view `f`. -/
structure Unrecorded (crypto : Crypto) (f : Registrar → α) : Prop where
  entry : ∀ mid change signer target detail ns,
    f (auditAppend crypto mid change signer target detail ns) = f mid
  signature : ∀ mid signer, f { mid with header := mid.header.signed crypto signer } = f mid

theorem Unrecorded.close (h : Unrecorded crypto f) (m : Mutation) (reg mid : Registrar) (clk : Clock) :
    f (m.close crypto reg mid clk) = f mid := by
  unfold Mutation.close
  cases m.record reg with
  | none => rfl
  | some c =>
    cases m with
    | sign signer => exact (h.signature _ signer).trans (h.entry ..)
    | _ => exact h.entry ..

theorem Mutation.keeps (h : Unrecorded crypto f)
    (hedit : ∀ mid, Edit crypto reg clk m mid → f mid = f reg) : Keeps f reg (m.run crypto reg clk) := by
  intro reg' hreg'
  obtain ⟨mid, hmid, rfl⟩ := m.edits crypto reg clk reg' hreg'
  rw [h.close, hedit mid hmid]

end Views

end YumiBrowser.Group
