import Mathlib.Tactic.IntervalCases
import YumiBrowser.Library.System
import YumiBrowser.Registrar.Delta

namespace YumiBrowser.Group

open Wire Keyed Transition

/-- The calls that change a registrar locally, with what they are given. -/
inductive Mutation
  | peerAdd (peer : Peer) (signer : Identity)
  | peerKick (peerId : PeerId) (reason : Option (List Byte)) (signer : Identity)
  | peerBan (peerId : PeerId) (reason : Option (List Byte)) (signer : Identity)
  | peerLeave (peer : Identity)
  | peerUpdateAddress (ip : List Byte) (port : BitVec 16) (peer : Identity)
  | peerObservedAddress (peerId : PeerId) (ip : List Byte) (port : BitVec 16) (observer : Identity)
  | peerTouch (peerId : PeerId)
  | peerSetRole (peerId : PeerId) (roleId : BitVec 32) (signer : Identity)
  | roleAdd (name : List Byte) (permissions : Perms) (rolePk : PublicKey) (signer : Identity)
  | roleRemove (roleId : BitVec 32) (signer : Identity)
  | roleSetPermissions (roleId : BitVec 32) (permissions : Perms) (signer : Identity)
  | webappAdd (webapp : Webapp) (signer : Identity)
  | webappRemove (hash : Hash) (signer : Identity)
  | webappUpdatePermData (hash : Hash) (data : List Byte) (signer : Identity)
  | webappUpdateRoleMask (hash : Hash) (mask : List Byte) (signer : Identity)
  | serverAdd (server : Server) (signer : Identity)
  | serverRemove (idHash : Hash) (signer : Identity)
  | epochRotate (newKey : EpochKey) (signer : Identity)
  | retentionSet (policy : Retention) (signer : Identity)
  | sign (signer : Identity)
  | side (change : SideChange) (detail : List Byte) (signer : Identity)

def Mutation.run (crypto : Crypto) (reg : Registrar) (clk : Clock) :
    Mutation → Except GrError Registrar
  | peerAdd peer signer => Group.peerAdd crypto reg peer signer clk
  | peerKick peerId reason signer => Group.peerKick crypto reg peerId reason signer clk
  | peerBan peerId reason signer => Group.peerBan crypto reg peerId reason signer clk
  | peerLeave peer => Group.peerLeave crypto reg peer clk
  | peerUpdateAddress ip port peer => Group.peerUpdateAddress crypto reg ip port peer clk
  | peerObservedAddress peerId ip port observer =>
    Group.peerObservedAddress crypto reg peerId ip port observer clk
  | peerTouch peerId => Group.peerTouch reg peerId clk
  | peerSetRole peerId roleId signer => Group.peerSetRole crypto reg peerId roleId signer clk
  | roleAdd name permissions rolePk signer =>
    Group.roleAdd crypto reg name permissions rolePk signer clk
  | roleRemove roleId signer => Group.roleRemove crypto reg roleId signer clk
  | roleSetPermissions roleId permissions signer =>
    Group.roleSetPermissions crypto reg roleId permissions signer clk
  | webappAdd webapp signer => Group.webappAdd crypto reg webapp signer clk
  | webappRemove hash signer => Group.webappRemove crypto reg hash signer clk
  | webappUpdatePermData hash data signer => Group.webappUpdatePermData crypto reg hash data signer clk
  | webappUpdateRoleMask hash mask signer => Group.webappUpdateRoleMask crypto reg hash mask signer clk
  | serverAdd server signer => Group.serverAdd crypto reg server signer clk
  | serverRemove idHash signer => Group.serverRemove crypto reg idHash signer clk
  | epochRotate newKey signer => Group.epochRotate crypto reg newKey signer clk
  | retentionSet policy signer => Group.retentionSet crypto reg policy signer clk
  | sign signer => grSign crypto reg signer clk
  | side change detail signer => .ok (change.append crypto reg signer detail clk)

structure Replicas (ι : Type) where
  reg : ι → Registrar
  deltas : List (List Byte)

inductive ReplicaEvent (ι : Type)
  | mutate (i : ι) (m : Mutation) (clk : Clock)
  | serialize (i : ι) (sinceVersion : BitVec 32)
  | apply (i : ι) (data : List Byte) (now : I64)

variable {ι : Type} [DecidableEq ι]

def Replicas.adopt (s : Replicas ι) (i : ι) : Except GrError Registrar → Replicas ι
  | .ok reg => { s with reg := Function.update s.reg i reg }
  | .error _ => s

def Replicas.next (crypto : Crypto) (s : Replicas ι) : ReplicaEvent ι → Replicas ι
  | .mutate i m clk => s.adopt i (m.run crypto (s.reg i) clk)
  | .serialize i sinceVersion =>
    { s with deltas := serializeDelta (s.reg i) sinceVersion :: s.deltas }
  | .apply i data now => s.adopt i ((applyDelta crypto (s.reg i) data now).map Prod.fst)

def Replicas.Enabled (allowed : Mutation → Prop) (s : Replicas ι) : ReplicaEvent ι → Prop
  | .mutate _ m _ => allowed m
  | .serialize _ _ => True
  | .apply _ data _ => data ∈ s.deltas

def replicaSystem (crypto : Crypto) (start : (ι → Registrar) → Prop) (allowed : Mutation → Prop) :
    System (Replicas ι) (ReplicaEvent ι) where
  init s := start s.reg ∧ s.deltas = []
  step s e t := s.Enabled allowed e ∧ t = s.next crypto e

section Steps

variable (crypto : Crypto) (s : Replicas ι) (i j : ι)

theorem reg_adopt (r : Except GrError Registrar) :
    (s.adopt i r).reg j = s.reg j ∨ j = i ∧ r = .ok ((s.adopt i r).reg j) := by
  cases r with
  | error e => exact .inl rfl
  | ok reg =>
    by_cases hj : j = i
    · subst hj
      exact .inr ⟨rfl, by simp [Replicas.adopt]⟩
    · exact .inl (by simp [Replicas.adopt, hj])

theorem reg_next_mutate (m : Mutation) (clk : Clock) :
    (s.next crypto (.mutate i m clk)).reg j = s.reg j ∨
      j = i ∧ m.run crypto (s.reg i) clk = .ok ((s.next crypto (.mutate i m clk)).reg j) :=
  reg_adopt s i j _

variable {crypto s i} in
theorem next_mutate_ok {m : Mutation} (h : m.run crypto (s.reg i) clk = .ok reg) :
    (s.next crypto (.mutate i m clk)).reg = Function.update s.reg i reg := by
  rw [Replicas.next, h]
  rfl

variable {crypto} in
theorem applyDelta_fst_eq_ok : (applyDelta crypto reg data now).map Prod.fst = .ok reg' ↔
    ∃ d, Accepts crypto reg data now d ∧
      reg' = cutLog (mergeDelta crypto reg d).1 (mergeDelta crypto reg d).2 := by
  cases h : applyDelta crypto reg data now with
  | error e =>
    refine ⟨nofun, ?_⟩
    rintro ⟨d, hacc, _⟩
    rw [applyDelta_eq_ok.mpr ⟨d, hacc, rfl⟩] at h
    cases h
  | ok r =>
    constructor
    · intro he
      obtain ⟨d, hacc, rfl⟩ := applyDelta_eq_ok.mp h
      exact ⟨d, hacc, (Except.ok.inj he).symm⟩
    · rintro ⟨d, hacc, rfl⟩
      rw [applyDelta_eq_ok.mpr ⟨d, hacc, rfl⟩] at h
      rw [← Except.ok.inj h]
      rfl

theorem reg_next_apply (data : List Byte) (now : I64) :
    (s.next crypto (.apply i data now)).reg j = s.reg j ∨
      j = i ∧ ∃ d, Accepts crypto (s.reg i) data now d ∧
        (s.next crypto (.apply i data now)).reg j =
          cutLog (mergeDelta crypto (s.reg i) d).1 (mergeDelta crypto (s.reg i) d).2 := by
  rcases reg_adopt s i j
      ((applyDelta crypto (s.reg i) data now).map Prod.fst) with h | ⟨hj, h⟩
  · exact .inl h
  · exact .inr ⟨hj, applyDelta_fst_eq_ok.mp h⟩

variable {crypto s i} in
theorem next_apply_ok {d : Delta} (hreg : s.reg i = reg) (hacc : Accepts crypto reg data now d) :
    (s.next crypto (.apply i data now)).reg i =
      cutLog (mergeDelta crypto reg d).1 (mergeDelta crypto reg d).2 := by
  subst hreg
  simp [Replicas.next, applyDelta_fst_eq_ok.mpr ⟨d, hacc, rfl⟩, Replicas.adopt]

end Steps

section Guards

variable {crypto : Crypto} {reg : Registrar} {signer : Identity}

theorem mutate_eq_ok : mutate crypto reg perm signer change target detail ns edit = .ok reg' ↔
    reg.untrusted = false ∧ checkPerm reg signer perm = true ∧
      ∃ mid, edit = .ok mid ∧ reg' = auditAppend crypto mid change signer target detail ns := by
  unfold mutate
  cases reg.untrusted with
  | true => simp
  | false =>
    cases checkPerm reg signer perm with
    | false => simp
    | true =>
      cases edit with
      | error e => simp [Except.map]
      | ok mid => simp [Except.map, @eq_comm _ reg']

theorem map_orElse_eq_ok {o : Option α} {f : α → β} :
    (orElse e o).map f = .ok b ↔ ∃ a, o = some a ∧ f a = b := by
  cases o <;> simp [orElse, Except.map]

theorem peerAdd_cases {peer : Peer} (h : peerAdd crypto reg peer signer clk = .ok reg') :
    (reg.header.groupType = groupPrivate → checkPerm reg signer Perm.inviteMember = true) ∧
      deriveId crypto peer.signKey = peer.peerId ∧
      ((reg.peers.find? peer.peerId = none ∧
          ∃ removedBy, reg.peers.insert? { peer with removedBy } = some reg'.peers) ∨
        ∃ p, reg.peers.find? peer.peerId = some p ∧ p.status = PeerStatus.kicked ∧
          reg'.peers =
            (updateStatus reg peer.peerId PeerStatus.active 0 [] (zeroBytes 32)).peers) := by
  unfold peerAdd at h
  split at h
  · cases h
  split at h
  · cases h
  next hinvite =>
  split at h
  · cases h
  next hderived =>
  refine ⟨fun hprivate => ?_, not_not.mp hderived, ?_⟩
  · by_contra hperm
    exact hinvite ⟨hprivate, hperm⟩
  · cases hrow : reg.peers.find? peer.peerId with
    | none =>
      simp only [hrow] at h
      obtain ⟨peers, hpeers, rfl⟩ := map_orElse_eq_ok.mp h
      exact .inl ⟨rfl, _, hpeers⟩
    | some existing =>
      simp only [hrow] at h
      split at h
      · next hkicked =>
        obtain rfl := Except.ok.inj h
        exact .inr ⟨existing, rfl, hkicked, rfl⟩
      · cases h

theorem peerAdd_of_free {peer : Peer} (htrusted : reg.untrusted = false)
    (hinvite : reg.header.groupType ≠ groupPrivate ∨ checkPerm reg signer Perm.inviteMember = true)
    (hderived : deriveId crypto peer.signKey = peer.peerId)
    (hfree : reg.peers.find? peer.peerId = none) (clk : Clock) :
    ∃ reg', peerAdd crypto reg peer signer clk = .ok reg' := by
  have hguard : ¬ (reg.header.groupType = groupPrivate ∧
      ¬ checkPerm reg signer Perm.inviteMember = true) := by
    rintro ⟨hprivate, hperm⟩
    exact hinvite.elim (fun h => h hprivate) hperm
  unfold peerAdd
  rw [htrusted, if_neg Bool.false_ne_true, if_neg hguard, if_neg (not_not.mpr hderived), hfree]
  dsimp only
  generalize hrow : { peer with removedBy := _ } = row
  have hkey : row.peerId = peer.peerId := by rw [← hrow]
  cases hins : reg.peers.insert? row with
  | none => exact absurd (hkey ▸ hfree) (Table.insert?_eq_none.mp hins)
  | some peers => exact ⟨_, rfl⟩

theorem checkPerm_owner (h : reg.header.ownerId = signer.peerId) (hp : perm ≠ 0) :
    checkPerm reg signer perm = true := by
  have hmask : Perm.owner &&& perm = perm := by
    unfold Perm.owner
    ext i hi
    have : (4294967295#32).getLsbD i = true := by
      interval_cases i <;> rfl
    simp_all
  simpa [checkPerm, getPeerPermissions, isOwner, h, hmask] using hp

end Guards

section Keeps

/-- Where the call succeeds, it has left the view `f` of the registrar as it was. -/
def Keeps (f : Registrar → α) (reg : Registrar) (r : Except GrError Registrar) : Prop :=
  ∀ reg', r = .ok reg' → f reg' = f reg

variable {f : Registrar → α} {reg : Registrar}

theorem Keeps.error : Keeps f reg (.error e) := nofun

theorem Keeps.ok (h : f reg' = f reg) : Keeps f reg (.ok reg') := by
  rintro _ ⟨⟩
  exact h

theorem Keeps.ite {p : Prop} [Decidable p] {a b : Except GrError Registrar}
    (ha : p → Keeps f reg a) (hb : ¬ p → Keeps f reg b) : Keeps f reg (if p then a else b) := by
  by_cases hp : p
  · rw [if_pos hp]
    exact ha hp
  · rw [if_neg hp]
    exact hb hp

theorem Keeps.map_orElse {o : Option β} {g : β → Registrar} (h : ∀ b, f (g b) = f reg) :
    Keeps f reg ((orElse e o).map g) := by
  intro reg' hreg'
  obtain ⟨b, _, rfl⟩ := map_orElse_eq_ok.mp hreg'
  exact h b

theorem Keeps.mutate (hlog : ∀ mid, f (auditAppend crypto mid change signer target detail ns) = f mid)
    (h : Keeps f reg edit) :
    Keeps f reg (mutate crypto reg perm signer change target detail ns edit) := by
  intro reg' hreg'
  obtain ⟨_, _, mid, hmid, rfl⟩ := mutate_eq_ok.mp hreg'
  rw [hlog, h mid hmid]

end Keeps

end YumiBrowser.Group
