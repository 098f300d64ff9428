import YumiBrowser.Registrar.Delta

namespace YumiBrowser.Group

open Wire Keyed

def ChangeType.requires : ChangeType → Perms → Bool
  | peerAdded, p | inviteCreated, p | inviteUsed, p | inviteInvalidated, p =>
    p = Perm.inviteMember
  | peerKicked, p | peerRemoved, p => p = Perm.kickMember
  | peerBanned, p => p = Perm.banMember
  | peerRoleChanged, p | roleAdded, p | roleRemoved, p | roleModified, p => p = Perm.editRoles
  | webappAdded, p => p = Perm.addWebapp
  | webappRemoved, p => p = Perm.removeWebapp
  | webappModified, p => p = Perm.addWebapp || p = Perm.setWebappRoles
  | serverAdded, p | serverRemoved, p => p = Perm.editServers
  | epochRotated, p => p = Perm.rotateEpoch
  | retentionSet, p => p = Perm.editRetention
  | registrarSigned, p => p = Perm.signRegistrar
  | groupIconSet, p | groupIconRemoved, p => p = Perm.setGroupIcon
  | peerAddress, _ | bootIpBlocked, _ => false

def AuditEntry.requires (e : AuditEntry) (p : Perms) : Bool :=
  (ChangeType.ofCode e.changeType).any fun t => t.requires p

/-- Ideal signatures: where an entry of the delta verifies under a key that is not its author's, the
holder of that key has signed this very hash before, so that the entry is replayed. -/
def SignedWith (crypto : Crypto) (keys : Set PublicKey) (made : Set (PublicKey × Hash)) (d : Delta) :
    Prop :=
  ∀ e ∈ d.entries, ∀ pk, crypto.verify e.signature e.entryHash pk = true →
    pk ∈ keys ∨ (pk, e.entryHash) ∈ made

/-- Among `keys` there is neither the owner's nor that of an active peer whose role grants `p`. -/
structure Unprivileged (reg : Registrar) (p : Perms) (keys : Set PublicKey) : Prop where
  owner : reg.header.ownerSignKey ∉ keys
  peers : ∀ id row, reg.peers.find? id = some row → rolePermsJoin reg id &&& p ≠ 0 →
    row.signKey ∉ keys

/-- Nothing that takes the permission `p`, or any, has happened between two states. -/
structure Untouched (p : Perms) (reg reg' : Registrar) : Prop where
  entries : ∀ e ∈ reg'.auditLog.rows, e ∉ reg.auditLog.rows → e.requires p = false
  peers : ∀ id row, reg.peers.find? id = some row →
    ∃ row', reg'.peers.find? id = some row' ∧ row'.status = row.status ∧ row'.roleId = row.roleId
  roles : ∀ id row, reg.roles.find? id = some row →
    ∃ row', reg'.roles.find? id = some row' ∧ row'.permissions = row.permissions

def selfGranted (reg : Registrar) (state : Option DeltaState) (e : AuditEntry) : Bool :=
  (state.bind fun d => deltaPerms d e).isSome || isOwner reg e.actorId

def Replayed (reg : Registrar) (made : Set (PublicKey × Hash)) (e : AuditEntry) : Prop :=
  ∃ row, reg.peers.find? e.actorId = some row ∧ (row.signKey, e.entryHash) ∈ made

/-- A new entry that needs `p` and that the loop over the entries lets through on the word of the
delta alone, or because a member has signed it. -/
structure Smuggled (crypto : Crypto) (reg : Registrar) (p : Perms) (made : Set (PublicKey × Hash))
    (d : Delta) (pre : List AuditEntry) (e : AuditEntry) : Prop where
  fresh : reg.auditLog.find? e.entryHash = none
  first : ∀ e' ∈ pre, e'.entryHash = e.entryHash → ¬ admissible crypto reg d.state e'
  admissible : admissible crypto reg d.state e
  requires : e.requires p
  granted : selfGranted reg d.state e ∨ Replayed reg made e

/-- A delta that changes no decision: no entry is smuggled in, and no row it carries wins over a
local one with another status, role or permission set. -/
structure Harmless (crypto : Crypto) (reg : Registrar) (p : Perms) (made : Set (PublicKey × Hash))
    (d : Delta) : Prop where
  entries : ∀ pre e post, d.entries = pre ++ e :: post → ¬ Smuggled crypto reg p made d pre e
  peers : ∀ s ∈ d.state, ∀ id row w, reg.peers.find? id = some row →
    Table.winner Peer.peerId Peer.stamp id s.peers = some w → row.stamp < w.stamp →
    w.status = row.status ∧ w.roleId = row.roleId
  roles : ∀ s ∈ d.state, ∀ id row w, reg.roles.find? id = some row →
    Table.winner Role.roleId Role.stamp id s.roles = some w → row.stamp < w.stamp →
    w.permissions = row.permissions

variable {crypto : Crypto} {reg : Registrar} {p : Perms} {keys : Set PublicKey}
  {made : Set (PublicKey × Hash)} {d : Delta}

-- The switch of the source, against the permissions of the mutators.
theorem authorized_of_requires {e : AuditEntry} (hreq : e.requires p)
    (h : authorized reg d.state e) :
    entryPerms reg d.state e &&& p ≠ 0 ∨ selfGranted reg d.state e := by
  unfold AuditEntry.requires at hreq
  unfold authorized at h
  cases hct : ChangeType.ofCode e.changeType with
  | none => simp [hct] at hreq
  | some t =>
    rw [hct] at hreq h
    simp only [Option.any_some] at hreq
    cases t
    case registrarSigned =>
      refine .inr ?_
      unfold selfGranted
      cases hs : d.state with
      | none => simpa [hs] using h
      | some s =>
        have hown : e.actorId = s.header.ownerId := by simpa [hs] using h
        simp [deltaPerms, hown]
    case peerAddress => cases hreq
    case bootIpBlocked => cases hreq
    case webappModified => cases h
    all_goals
      simp only [ChangeType.requires, decide_eq_true_eq] at hreq
      subst hreq
      exact .inl (by simpa using h)

theorem selfGranted_of_unprivileged (hkeys : Unprivileged reg p keys)
    (hsigned : SignedWith crypto keys made d) {e : AuditEntry} (he : e ∈ d.entries)
    (hadm : admissible crypto reg d.state e) (hreq : e.requires p) :
    selfGranted reg d.state e ∨ Replayed reg made e := by
  simp only [admissible, Bool.and_eq_true] at hadm
  obtain ⟨⟨_, hsig⟩, hauth⟩ := hadm
  refine Classical.or_iff_not_imp_left.mpr fun hself => ?_
  have hperms := (authorized_of_requires hreq hauth).resolve_right hself
  simp only [selfGranted, Bool.or_eq_true, not_or, Bool.not_eq_true, Option.isSome_eq_false_iff,
    Option.isNone_iff_eq_none] at hself
  simp only [entryPerms, hself.1, Option.getD_none, localPerms, getPeerPermissions, hself.2,
    Bool.false_eq_true, ↓reduceIte] at hperms
  unfold signedByActor at hsig
  cases hrow : reg.peers.find? e.actorId with
  | none => simp [hrow] at hsig
  | some row =>
    rw [hrow] at hsig
    have hnot := hkeys.peers _ row hrow hperms
    exact ⟨row, hrow, (hsigned e he _ hsig).resolve_left hnot⟩

theorem entries_untouched_iff (hkeys : Unprivileged reg p keys)
    (hsigned : SignedWith crypto keys made d) :
    (∀ e ∈ (mergeDelta crypto reg d).1.auditLog.rows, e ∉ reg.auditLog.rows →
      e.requires p = false) ↔
    ∀ pre e post, d.entries = pre ++ e :: post → ¬ Smuggled crypto reg p made d pre e := by
  have hrows : (mergeDelta crypto reg d).1.auditLog.rows =
      reg.auditLog.rows ++ (mergeEntries crypto reg d).inserted := rows_mergeEntries d
  constructor
  · rintro h pre e post hd ⟨hfresh, hfirst, hadm, hreq, _⟩
    have hins : e ∈ (mergeEntries crypto reg d).inserted :=
      (mem_inserted d e).mpr ⟨pre, post, hd, hfresh, hadm, hfirst⟩
    have hnew : e ∉ reg.auditLog.rows := fun hmem => by
      rw [Table.find?_of_mem hmem] at hfresh
      cases hfresh
    have := h e (by rw [hrows]; exact List.mem_append_right _ hins) hnew
    rw [hreq] at this
    cases this
  · intro h e hmem hnew
    rw [hrows] at hmem
    have hins := (List.mem_append.mp hmem).resolve_left hnew
    obtain ⟨pre, post, hd, hfresh, hadm, hfirst⟩ := (mem_inserted d e).mp hins
    cases hreq : e.requires p with
    | false => rfl
    | true =>
      have he : e ∈ d.entries := by simp [hd]
      exact absurd ⟨hfresh, hfirst, hadm, hreq, selfGranted_of_unprivileged hkeys hsigned he hadm hreq⟩
        (h pre e post hd)

theorem kept_iff_winner {α κ β : Type*} {key : α → κ} [DecidableEq κ] (t : Table key)
    (stamp : α → ℤ) (l : List α) (col : α → β) (k : κ) :
    (∀ row, t.find? k = some row →
      ∃ row', Table.later stamp (t.find? k) (Table.winner key stamp k l) = some row' ∧
        col row' = col row) ↔
    ∀ row w, t.find? k = some row → Table.winner key stamp k l = some w → stamp row < stamp w →
      col w = col row := by
  constructor
  · intro h row w hrow hw hlt
    obtain ⟨row', hrow', hcol⟩ := h row hrow
    rw [hrow, hw, Table.later, if_neg (not_le.mpr hlt)] at hrow'
    rw [Option.some.inj hrow', hcol]
  · intro h row hrow
    rw [hrow]
    cases hw : Table.winner key stamp k l with
    | none => exact ⟨row, rfl, rfl⟩
    | some w =>
      rw [Table.later]
      split
      · exact ⟨row, rfl, rfl⟩
      · rename_i hlt
        exact ⟨w, rfl, h row w hrow hw (not_le.mp hlt)⟩

theorem peers_untouched_iff :
    (∀ id row, reg.peers.find? id = some row →
      ∃ row', (mergeStateOf reg d.state).peers.find? id = some row' ∧
        row'.status = row.status ∧ row'.roleId = row.roleId) ↔
    ∀ s ∈ d.state, ∀ id row w, reg.peers.find? id = some row →
      Table.winner Peer.peerId Peer.stamp id s.peers = some w → row.stamp < w.stamp →
      w.status = row.status ∧ w.roleId = row.roleId := by
  cases d.state with
  | none => exact ⟨nofun, fun _ id row h => ⟨row, h, rfl, rfl⟩⟩
  | some s =>
    have := fun id => kept_iff_winner reg.peers Peer.stamp s.peers
      (fun r : Peer => (r.status, r.roleId)) id
    simp only [Prod.mk.injEq] at this
    simp only [mergeStateOf, find?_peers_mergeTables, Option.mem_some_iff, forall_eq']
    exact forall_congr' this

theorem roles_untouched_iff :
    (∀ id row, reg.roles.find? id = some row →
      ∃ row', (mergeStateOf reg d.state).roles.find? id = some row' ∧
        row'.permissions = row.permissions) ↔
    ∀ s ∈ d.state, ∀ id row w, reg.roles.find? id = some row →
      Table.winner Role.roleId Role.stamp id s.roles = some w → row.stamp < w.stamp →
      w.permissions = row.permissions := by
  cases d.state with
  | none => exact ⟨nofun, fun _ id row h => ⟨row, h, rfl⟩⟩
  | some s =>
    have := fun id => kept_iff_winner reg.roles Role.stamp s.roles
      Role.permissions id
    simp only [mergeStateOf, find?_roles_mergeTables, Option.mem_some_iff, forall_eq']
    exact forall_congr' this

theorem untouched_iff_harmless (hkeys : Unprivileged reg p keys)
    (hsigned : SignedWith crypto keys made d) :
    Untouched p reg (mergeDelta crypto reg d).1 ↔ Harmless crypto reg p made d := by
  constructor
  · rintro ⟨hentries, hpeers, hroles⟩
    exact ⟨(entries_untouched_iff hkeys hsigned).mp hentries, peers_untouched_iff.mp hpeers,
      roles_untouched_iff.mp hroles⟩
  · rintro ⟨hentries, hpeers, hroles⟩
    exact ⟨(entries_untouched_iff hkeys hsigned).mpr hentries, peers_untouched_iff.mpr hpeers,
      roles_untouched_iff.mpr hroles⟩

/-- A delta of an author without the permission leaves every decision of the registrar alone
exactly when it is refused or harmless. -/
theorem delta_authorized_iff (hkeys : Unprivileged reg p keys)
    (hsigned : ∀ d, Accepts crypto reg data now d → SignedWith crypto keys made d) :
    (∀ r, commitDelta crypto reg data now = .ok r → Untouched p reg r.1) ↔
      ∀ d, Accepts crypto reg data now d → Harmless crypto reg p made d := by
  constructor
  · intro h d hacc
    exact (untouched_iff_harmless hkeys (hsigned d hacc)).mp
      (h _ (commitDelta_eq_ok.mpr ⟨d, hacc, rfl⟩))
  · intro h r hr
    obtain ⟨d, hacc, rfl⟩ := commitDelta_eq_ok.mp hr
    exact (untouched_iff_harmless hkeys (hsigned d hacc)).mpr (h d hacc)

section Outsider

variable {skein : List Byte → Hash}

def member (b : Byte) : Identity where
  publicKey := Bytes.fill 2592 b
  secretKey := Bytes.fill 4896 b
  kemPk := Bytes.fill 1568 b
  peerId := Bytes.fill 32 b

theorem detailCap_pos : 0 < 256 := by decide

def onlySigner (skein : List Byte → Hash) (signer : Identity) : Crypto where
  skein := skein
  sign _ _ := zeroBytes 4627
  verify _ _ pk := pk = signer.publicKey

theorem onlySigner_verify {signer : Identity} :
    (onlySigner skein signer).verify signature digest signer.publicKey = true := decide_eq_true rfl

def outsider : Identity := member 3

def pairGroup (crypto : Crypto) : Registrar :=
  let group := founded crypto (ascii "pair") groupPrivate (member 1) (zeroBytes 128) 1
  { group with peers := group.peers.upsert (ownerPeer (member 2) 1) }

def bannedMember : Peer := { ownerPeer (member 2) 1 with status := PeerStatus.banned, lastSeen := 2 }

def forgedBan (skein : List Byte → Hash) : DeltaState where
  header := { (pairGroup (onlySigner skein outsider)).header with signerSignKey := outsider.publicKey }
  peers := [bannedMember]
  roles := []
  webapps := []
  signaling := []
  rebroadcast := []
  epochs := []

theorem publicKey_inj : (member a).publicKey = (member b).publicKey ↔ a = b :=
  Bytes.fill_inj (by decide)

theorem peerId_inj : (member a).peerId = (member b).peerId ↔ a = b := Bytes.fill_inj (by decide)

theorem pairGroup_member :
    (pairGroup crypto).peers.find? (member 2).peerId = some (ownerPeer (member 2) 1) := by
  unfold pairGroup
  rw [Table.find?_upsert]
  exact Function.update_self ..

theorem forgedBan_merged : (mergeTables (pairGroup crypto) (forgedBan skein)).peers.find?
    (member 2).peerId = some bannedMember := by
  have hlt : ¬ bannedMember.stamp ≤ (ownerPeer (member 2) 1).stamp := by decide
  have hwin : Table.winner Peer.peerId Peer.stamp (member 2).peerId (forgedBan skein).peers =
      some bannedMember := by
    simp [forgedBan, Table.winner, bannedMember, ownerPeer]
  rw [find?_peers_mergeTables, pairGroup_member, hwin, Table.later, if_neg hlt]

theorem forgedBan_accepted : Accepts (onlySigner skein outsider) (pairGroup (onlySigner skein outsider))
    (writeDelta 0 (forgedBan skein) []) 0 { sinceVersion := 0, state := some (forgedBan skein), entries := [] } := by
  have hlen := length_writeDelta_le 0 (forgedBan skein) [] rfl rfl rfl
  refine ⟨tooLarge_of_le (hlen.trans (by simp [forgedBan, deltaMaxBytes])), [], ?_⟩
  have hc : Counted (forgedBan skein) [] := by constructor <;> simp [forgedBan]
  exact readDelta_writeDelta 0 hc (by simp [onlySigner, forgedBan]) rfl

theorem outsider_signed (d : Delta) :
    SignedWith (onlySigner skein outsider) {outsider.publicKey} ∅ d := by
  intro e _ pk hpk
  exact .inl (by simpa [onlySigner] using hpk)

theorem pairGroup_unprivileged : Unprivileged (pairGroup crypto) p {outsider.publicKey} := by
  constructor
  · rw [Set.mem_singleton_iff]
    exact fun h => absurd (publicKey_inj.mp h) (by decide)
  · intro id row hrow hperms
    have hroles : ∀ k, (pairGroup crypto).roles.find? k = none := fun _ => rfl
    simp [rolePermsJoin, hrow, hroles, Perm.none] at hperms

def flatHash : List Byte → Hash := fun _ => zeroBytes 128

def signedPair (skein : List Byte → Hash) : Registrar :=
  let crypto := onlySigner skein (member 1)
  { pairGroup crypto with header := (pairGroup crypto).header.signed crypto (member 1) }

-- The outsider has signed nothing here: he sends the header and an entry the owner has signed, with
-- a row of his own making.
def replayedBan : DeltaState := { forgedBan flatHash with header := (signedPair flatHash).header }

def ownerEntry : AuditEntry :=
  newEntry (onlySigner flatHash (member 1)) (signedPair flatHash) .peerBanned (member 1)
    (some (member 2).peerId) [] 1000000

theorem signedPair_unprivileged : Unprivileged (signedPair flatHash) p {outsider.publicKey} :=
  ⟨(@pairGroup_unprivileged (onlySigner flatHash (member 1)) p).owner,
    (@pairGroup_unprivileged (onlySigner flatHash (member 1)) p).peers⟩

theorem delta_authorized_iff_replayed :
    (∀ r, commitDelta (onlySigner flatHash (member 1)) (signedPair flatHash)
        (writeDelta 0 replayedBan [ownerEntry]) 0 = .ok r →
      Untouched Perm.banMember (signedPair flatHash) r.1) ↔
    ∀ d, Accepts (onlySigner flatHash (member 1)) (signedPair flatHash)
        (writeDelta 0 replayedBan [ownerEntry]) 0 d →
      Harmless (onlySigner flatHash (member 1)) (signedPair flatHash) Perm.banMember
        {signed | signed.1 = (member 1).publicKey} d := by
  refine delta_authorized_iff signedPair_unprivileged fun d _ e _ pk hpk => ?_
  exact .inr (by simpa [onlySigner] using hpk)

-- Anyone can sign a header of this group with a key of his own, and ban whom he likes with it.
theorem delta_not_authorized :
    ¬ ∃ skein : List Byte → Hash, ∀ (crypto : Crypto) (reg : Registrar) (data : List Byte) (now : I64) (p : Perms)
      (keys : Set PublicKey), crypto.skein = skein → Unprivileged reg p keys →
      (∀ d, Accepts crypto reg data now d → SignedWith crypto keys ∅ d) →
      ∀ r, commitDelta crypto reg data now = .ok r → Untouched p reg r.1 := by
  rintro ⟨skein, h⟩
  have hun := h (onlySigner skein outsider) (pairGroup _) (writeDelta 0 (forgedBan skein) []) 0
    Perm.banMember {outsider.publicKey} rfl pairGroup_unprivileged (fun d _ => outsider_signed d) _
    (commitDelta_eq_ok.mpr ⟨_, forgedBan_accepted, rfl⟩)
  obtain ⟨row, hrow, hstatus, _⟩ := hun.peers _ _ pairGroup_member
  have hbanned : (mergeTables (pairGroup (onlySigner skein outsider)) (forgedBan skein)).peers.find?
      (member 2).peerId = some row := hrow
  rw [forgedBan_merged] at hbanned
  rw [← Option.some.inj hbanned] at hstatus
  exact absurd hstatus (by decide)

end Outsider

end YumiBrowser.Group
