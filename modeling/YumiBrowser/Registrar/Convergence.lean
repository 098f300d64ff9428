import YumiBrowser.Registrar.Idempotence
import YumiBrowser.Registrar.RoundTrip

namespace YumiBrowser.Group

open Wire Keyed Table Transition

def Registrar.shownServer (reg : Registrar) (k : Hash) : Option Server :=
  (reg.servers.find? k).map (Server.shown .full)

/-- The same rows in every table, the secret keys of the servers apart. -/
structure Agree (reg reg' : Registrar) : Prop where
  peers : reg.peers.find? = reg'.peers.find?
  roles : reg.roles.find? = reg'.roles.find?
  webapps : reg.webapps.find? = reg'.webapps.find?
  servers : reg.shownServer = reg'.shownServer
  epochs : reg.epochs.find? = reg'.epochs.find?

/-- `GR_SERVER_TYPE_COUNT`: a delta lists the servers of two types. -/
def listed (s : Server) : Bool := s.type = serverSignaling ∨ s.type = serverRebroadcast

structure Took (reg sender reg' : Registrar) : Prop where
  peers : ∀ k, reg'.peers.find? k = later Peer.stamp (reg.peers.find? k) (sender.peers.find? k)
  roles : ∀ k, reg'.roles.find? k = later Role.stamp (reg.roles.find? k) (sender.roles.find? k)
  webapps : ∀ k, reg'.webapps.find? k =
    overwrite (fun _ => true) (reg.webapps.find? k) (sender.webapps.find? k)
  servers : ∀ k, reg'.shownServer k = overwrite listed (reg.shownServer k) (sender.shownServer k)
  epochs : ∀ k, reg'.epochs.find? k = (reg.epochs.find? k).or (sender.epochs.find? k)

/-- Rows under one key that a merge has no way to choose between are the same. -/
structure Joinable (turn : Turn) (reg reg' : Registrar) : Prop where
  peers : ∀ k, ∀ p ∈ reg.peers.find? k, ∀ q ∈ reg'.peers.find? k, p.stamp = q.stamp → p = q
  roles : ∀ k, ∀ r ∈ reg.roles.find? k, ∀ s ∈ reg'.roles.find? k, r.stamp = s.stamp → r = s
  webapps : turn = .crossing →
    ∀ k, ∀ w ∈ reg.webapps.find? k, ∀ v ∈ reg'.webapps.find? k, w = v
  unlisted : ∀ k, ∀ s ∈ reg.shownServer k, listed s = false → reg'.shownServer k ≠ none
  unlisted' : ∀ k, ∀ s ∈ reg'.shownServer k, listed s = false → reg.shownServer k ≠ none
  servers : ∀ k, ∀ s ∈ reg.shownServer k, ∀ v ∈ reg'.shownServer k, listed s = listed v →
    (turn = .inTurn → listed s = false) → s = v
  epochs : ∀ k, ∀ e ∈ reg.epochs.find? k, ∀ f ∈ reg'.epochs.find? k, e = f

variable {crypto : Crypto} {reg sent reg' : Registrar} {turn : Turn}

section Taking

theorem shown_listed (s : Server) : listed (s.shown .full) = listed s := by
  unfold listed
  rw [shown_type]

theorem shown_shown (s : Server) : (s.shown .full).shown .full = s.shown .full := rfl

theorem shown_mergeRows (s : Server) (o : Option Server) :
    (mergeRows [s] o).map (Server.shown .full) = some (s.shown .full) := by
  have hrow : mergeRows [s] o = some { s with contentKemSk := lastSecret [s] (secretOf o) } := rfl
  rw [hrow, Option.map_some]
  rfl

theorem listed_rows (reg : Registrar) (k : Hash) :
    ((stateOf reg).received.signaling ++ (stateOf reg).received.rebroadcast).filter
      (fun s => s.idHash = k) = ((reg.shownServer k).filter listed).toList := by
  have hkey : (fun s : Server => decide (s.idHash = k)) ∘ Server.shown .full =
      fun s : Server => decide (s.idHash = k) := by
    funext s
    rw [Function.comp_apply, shown_idHash]
  have hrows : ∀ type, (serverList reg type).filter (fun s => s.idHash = k) =
      ((reg.servers.find? k).toList).filter fun s => s.type = type := by
    intro type
    rw [serverList, List.filter_comm, filter_key]
  change ((serverList reg serverSignaling).map _ ++ (serverList reg serverRebroadcast).map _).filter _ = _
  rw [← List.map_append, List.filter_map, hkey, List.filter_append, hrows, hrows, Registrar.shownServer]
  cases reg.servers.find? k with
  | none => rfl
  | some s =>
    rw [Option.map_some, Option.filter_some, shown_listed, listed, Option.toList_some]
    have htypes : serverSignaling ≠ serverRebroadcast := by decide
    by_cases hsig : s.type = serverSignaling
    · simp [hsig, htypes]
    · by_cases hreb : s.type = serverRebroadcast
      · simp [hreb, htypes.symm]
      · simp [hsig, hreb]

theorem took_mergeTables (reg sent : Registrar) :
    Took reg sent (mergeTables reg (stateOf sent).received) := by
  constructor
  · intro k
    rw [find?_peers_mergeTables]
    exact congrArg _ (winner_of_nodup _ sent.peers.nodup)
  · intro k
    have hperm := List.mergeSort_perm sent.roles.rows fun a b => decide (a.roleId.toInt ≤ b.roleId.toInt)
    rw [find?_roles_mergeTables, ← find?_perm hperm]
    exact congrArg _ (winner_of_nodup _ ((hperm.map _).nodup_iff.mpr sent.roles.nodup))
  · intro k
    have hall : ∀ o : Option Webapp, o.filter (fun _ => true) = o := by
      intro o
      cases o <;> rfl
    rw [find?_webapps_mergeTables, overwrite, hall, ← find?_perm (List.reverse_perm sent.webapps.rows)]
    rfl
  · intro k
    rw [Registrar.shownServer, find?_servers_mergeTables, listed_rows, overwrite]
    cases hs : (sent.shownServer k).filter listed with
    | none => rfl
    | some s =>
      obtain ⟨v, _, rfl⟩ := Option.map_eq_some_iff.mp (Option.filter_eq_some_iff.mp hs).1
      change (mergeRows [v.shown .full] (reg.servers.find? k)).map _ = some (v.shown .full)
      rw [shown_mergeRows, shown_shown]
  · intro k
    have hperm := List.mergeSort_perm sent.epochs.rows fun a b => decide (a.epochId.toInt ≤ b.epochId.toInt)
    rw [find?_epochs_mergeTables, ← find?_perm hperm]
    rfl

theorem signed_of_readDelta {d : DeltaState} {entries : List AuditEntry} {sinceVersion : BitVec 32}
    (h : (readDelta crypto reg).run (writeDelta sinceVersion d entries) = .ok x) :
    crypto.verify d.header.signature d.header.hash d.header.signerSignKey = true ∧
      d.header.ownerSignKey = reg.header.ownerSignKey := by
  have hmagic : ∀ s, (readBytes 4).run (deltaMagic ++ s) = some (⟨deltaMagic, rfl⟩, s) :=
    readBytes_append ⟨deltaMagic, rfl⟩
  have hver : (BitVec.ofNat 32 serialVersion).toNat = 4 := rfl
  rw [readDelta, writeDelta] at h
  simp only [List.append_assoc] at h
  rw [parse_bind _ (hmagic _)] at h
  simp only [ne_eq, not_true, ↓reduceIte] at h
  rw [parse_bind _ (readLe_append _ _ (by norm_num))] at h
  simp only [hver, show ¬ 4 > serialVersion by decide, show 2 ≤ 4 by decide, ↓reduceIte] at h
  rw [parse_bind _ (readLe_append _ _ (by norm_num))] at h
  simp only [map_eq_pure_bind, bind_assoc, pure_bind] at h
  obtain ⟨state, s', hstate, _⟩ := bind_ok.mp h
  rw [readDeltaState, parse_bind _ (deHeader_ser _ _)] at hstate
  constructor
  · by_contra hverify
    simp only [hverify] at hstate
    cases hstate
  · by_contra howner
    by_cases hverify : crypto.verify d.header.signature d.header.hash d.header.signerSignKey = true
    · simp only [hverify, not_true, ↓reduceIte, ne_eq, howner, not_false_eq_true] at hstate
      cases hstate
    · simp only [hverify] at hstate
      cases hstate

theorem took_of_applyDelta (hc : Counted (stateOf sent) (auditDelta sent v))
    (h : applyDelta crypto reg (serializeDelta sent v) now = .ok (reg', r)) : Took reg sent reg' := by
  obtain ⟨d, ⟨_, rest, hread⟩, heq⟩ := applyDelta_eq_ok.mp h
  obtain ⟨hverify, howner⟩ := signed_of_readDelta hread
  rw [serializeDelta, readDelta_writeDelta v hc hverify howner] at hread
  obtain ⟨rfl, _⟩ := Prod.mk.inj (Except.ok.inj hread)
  obtain ⟨rfl, _⟩ := Prod.mk.inj heq
  have hmerged := took_mergeTables reg sent
  obtain ⟨hroles, hwebapps, hservers⟩ := tables_cutLog
    (mergeDelta crypto reg ⟨v, some (stateOf sent).received, auditDelta sent v⟩).1
    (mergeDelta crypto reg ⟨v, some (stateOf sent).received, auditDelta sent v⟩).2
  constructor
  · rw [peers_cutLog]
    exact hmerged.peers
  · rw [hroles]
    exact hmerged.roles
  · rw [hwebapps]
    exact hmerged.webapps
  · unfold Registrar.shownServer
    rw [hservers]
    exact hmerged.servers
  · rw [epochs_cutLog]
    exact hmerged.epochs

end Taking

section Exchange

variable {S T S' T' : Registrar}

theorem agree_iff_meets (h₁ : Took S T S') (h₂ : Took T (turn.sent S S') T') : Agree S' T' ↔
    (∀ k, Meets (later Peer.stamp) turn (S.peers.find? k) (T.peers.find? k)) ∧
      (∀ k, Meets (later Role.stamp) turn (S.roles.find? k) (T.roles.find? k)) ∧
      (∀ k, Meets (overwrite fun _ => true) turn (S.webapps.find? k) (T.webapps.find? k)) ∧
      (∀ k, Meets (overwrite listed) turn (S.shownServer k) (T.shownServer k)) ∧
      ∀ k, Meets Option.or turn (S.epochs.find? k) (T.epochs.find? k) := by
  have hpeers : ∀ k, S'.peers.find? k = T'.peers.find? k ↔
      Meets (later Peer.stamp) turn (S.peers.find? k) (T.peers.find? k) := fun k =>
    meets_iff (fun R : Registrar => R.peers.find? k) (h₁.peers k) (h₂.peers k)
  have hroles : ∀ k, S'.roles.find? k = T'.roles.find? k ↔
      Meets (later Role.stamp) turn (S.roles.find? k) (T.roles.find? k) := fun k =>
    meets_iff (fun R : Registrar => R.roles.find? k) (h₁.roles k) (h₂.roles k)
  have hwebapps : ∀ k, S'.webapps.find? k = T'.webapps.find? k ↔
      Meets (overwrite fun _ => true) turn (S.webapps.find? k) (T.webapps.find? k) := fun k =>
    meets_iff (fun R : Registrar => R.webapps.find? k) (h₁.webapps k) (h₂.webapps k)
  have hservers : ∀ k, S'.shownServer k = T'.shownServer k ↔
      Meets (overwrite listed) turn (S.shownServer k) (T.shownServer k) := fun k =>
    meets_iff (fun R : Registrar => R.shownServer k) (h₁.servers k) (h₂.servers k)
  have hepochs : ∀ k, S'.epochs.find? k = T'.epochs.find? k ↔
      Meets Option.or turn (S.epochs.find? k) (T.epochs.find? k) := fun k =>
    meets_iff (fun R : Registrar => R.epochs.find? k) (h₁.epochs k) (h₂.epochs k)
  simp only [← hpeers, ← hroles, ← hwebapps, ← hservers, ← hepochs, ← funext_iff]
  constructor
  · intro h
    exact ⟨h.peers, h.roles, h.webapps, h.servers, h.epochs⟩
  · rintro ⟨hp, hr, hw, hs, he⟩
    exact ⟨hp, hr, hw, hs, he⟩

theorem joinable_iff_meets : Joinable turn S T ↔
    (∀ k, Meets (later Peer.stamp) turn (S.peers.find? k) (T.peers.find? k)) ∧
      (∀ k, Meets (later Role.stamp) turn (S.roles.find? k) (T.roles.find? k)) ∧
      (∀ k, Meets (overwrite fun _ => true) turn (S.webapps.find? k) (T.webapps.find? k)) ∧
      (∀ k, Meets (overwrite listed) turn (S.shownServer k) (T.shownServer k)) ∧
      ∀ k, Meets Option.or turn (S.epochs.find? k) (T.epochs.find? k) := by
  simp only [meets_later_iff, meets_or_iff, meets_overwrite_iff]
  constructor
  · intro h
    refine ⟨h.peers, h.roles, ?_, fun k => ⟨h.unlisted k, h.unlisted' k, h.servers k⟩, h.epochs⟩
    intro k
    refine ⟨fun _ _ hw => Bool.noConfusion hw, fun _ _ hw => Bool.noConfusion hw, ?_⟩
    intro w hw v hv _ hturn
    cases turn with
    | crossing => exact h.webapps rfl k w hw v hv
    | inTurn => cases hturn rfl
  · rintro ⟨hp, hr, hw, hs, he⟩
    constructor
    · exact hp
    · exact hr
    · rintro rfl k w hmem v hmem'
      exact (hw k).2.2 w hmem v hmem' trivial fun hturn => Turn.noConfusion hturn
    · exact fun k => (hs k).1
    · exact fun k => (hs k).2.1
    · exact fun k => (hs k).2.2
    · exact he

/-- Two replicas that take each other's delta agree exactly where no two rows under one key are in
conflict. -/
theorem exchange_agrees_iff (turn : Turn) (hc : Counted (stateOf T) (auditDelta T 0))
    (hc' : Counted (stateOf (turn.sent S S')) (auditDelta (turn.sent S S') 0))
    (h₁ : applyDelta crypto S (serializeDelta T 0) now = .ok (S', r))
    (h₂ : applyDelta crypto T (serializeDelta (turn.sent S S') 0) now' = .ok (T', r')) :
    Agree S' T' ↔ Joinable turn S T := by
  rw [agree_iff_meets (took_of_applyDelta hc h₁) (took_of_applyDelta hc' h₂), joinable_iff_meets]

end Exchange

section Rotations

variable {skein : List Byte → Hash}

def otherKey : EpochKey := Bytes.fill 128 7

def fullDelta (reg : Registrar) : Delta := ⟨0, some (stateOf reg).received, auditDelta reg 0⟩

def afterRotation (skein : List Byte → Hash) (reg : Registrar) (key : EpochKey) : Registrar :=
  applied (onlySigner skein (member 1)) reg (fullDelta (rotatedTo skein key))

theorem applyDelta_rotatedTo (key : EpochKey) (now : I64)
    (howner : reg.header.ownerSignKey = (member 1).publicKey) :
    applyDelta (onlySigner skein (member 1)) reg (serializeDelta (rotatedTo skein key) 0) now =
      .ok (afterRotation skein reg key,
        (mergeDelta (onlySigner skein (member 1)) reg (fullDelta (rotatedTo skein key))).2) :=
  applyDelta_eq_ok.mpr ⟨_, rotatedTo_accepted key now howner, rfl⟩

theorem exchange_agrees_iff_rotated :
    Agree (afterRotation flatHash (rotatedTo flatHash (zeroBytes 128)) otherKey)
        (afterRotation flatHash (rotatedTo flatHash otherKey) (zeroBytes 128)) ↔
      Joinable .crossing (rotatedTo flatHash (zeroBytes 128)) (rotatedTo flatHash otherKey) :=
  exchange_agrees_iff .crossing (counted_rotatedTo otherKey) (counted_rotatedTo (zeroBytes 128))
    (applyDelta_rotatedTo otherKey 4 rfl) (applyDelta_rotatedTo (zeroBytes 128) 4 rfl)

theorem rotations_apart {S' T' : Registrar} (h₁ : Took (rotatedTo skein (zeroBytes 128))
    (rotatedTo skein otherKey) S') (h₂ : Took (rotatedTo skein otherKey)
    (rotatedTo skein (zeroBytes 128)) T') : ¬ Agree S' T' := by
  intro h
  have hepoch : ∀ key, (rotatedTo skein key).epochs.find? 2 =
      some ⟨2, key, 3, 0, (member 1).peerId⟩ := fun _ => rfl
  have hsame := congrFun h.epochs 2
  rw [h₁.epochs, h₂.epochs, hepoch, hepoch, Option.some_or, Option.some_or, Option.some.injEq] at hsame
  have hkey : zeroBytes 128 = otherKey := congrArg Epoch.epochKey hsame
  exact absurd hkey (by decide)

theorem reachable_mutate {s : Replicas Bool} (i : Bool) (m : Mutation) (clk : Clock)
    (hs : (replicaSystem crypto (FromCreate crypto) fun _ => True).Reachable s)
    (hm : m.run crypto (s.reg i) clk = .ok reg) :
    ∃ t, (replicaSystem crypto (FromCreate crypto) fun _ => True).Reachable t ∧ t.reg i = reg ∧
      ∀ j, j ≠ i → t.reg j = s.reg j := by
  refine ⟨s.next crypto (.mutate i m clk), .step (e := .mutate i m clk) hs ⟨?_, rfl⟩, ?_, ?_⟩
  · trivial
  · rw [next_mutate_ok hm, Function.update_self]
  · intro j hj
    rw [next_mutate_ok hm, Function.update_of_ne hj]

theorem rotations_run : ∃ s, (replicaSystem (onlySigner skein (member 1))
    (FromCreate (onlySigner skein (member 1))) fun _ => True).Reachable s ∧
    s.reg true = rotatedTo skein (zeroBytes 128) ∧ s.reg false = rotatedTo skein otherKey := by
  have hinit : (replicaSystem (onlySigner skein (member 1)) (FromCreate (onlySigner skein (member 1)))
      fun _ => True).Reachable (createdPair skein) :=
    .init ⟨⟨_, _, _, _, _, _, grCreate_createdGroup, rfl⟩, rfl⟩
  obtain ⟨s₁, hs₁, hself₁, hother₁⟩ := reachable_mutate true (.sign (member 1)) ⟨2, 2000000⟩ hinit
    grSign_createdGroup
  obtain ⟨s₂, hs₂, hself₂, hother₂⟩ := reachable_mutate false (.sign (member 1)) ⟨2, 2000000⟩ hs₁ (by
    rw [hother₁ false (by decide)]
    exact grSign_createdGroup)
  obtain ⟨s₃, hs₃, hself₃, hother₃⟩ := reachable_mutate true (.epochRotate (zeroBytes 128) (member 1))
    ⟨3, 3000000⟩ hs₂ (by
    rw [hother₂ true (by decide), hself₁]
    exact epochRotate_to (zeroBytes 128))
  obtain ⟨s₄, hs₄, hself₄, hother₄⟩ := reachable_mutate false (.epochRotate otherKey (member 1))
    ⟨3, 3000000⟩ hs₃ (by
    rw [hother₃ false (by decide), hself₂]
    exact epochRotate_to otherKey)
  refine ⟨s₄, hs₄, ?_, hself₄⟩
  rw [hother₄ true (by decide), hself₃]

-- Both devices made an epoch of the same id, and each keeps its own.
theorem rotations_not_agree :
    ¬ ∃ skein : List Byte → Hash, ∀ (crypto : Crypto) (s : Replicas Bool) (S' T' : Registrar)
      (r r' : MergeResult) (now now' : I64), crypto.skein = skein →
      (replicaSystem crypto (FromCreate crypto) fun _ => True).Reachable s →
      applyDelta crypto (s.reg true) (serializeDelta (s.reg false) 0) now = .ok (S', r) →
      applyDelta crypto (s.reg false) (serializeDelta (s.reg true) 0) now' = .ok (T', r') →
      Agree S' T' := by
  rintro ⟨skein, h⟩
  obtain ⟨s, hs, htrue, hfalse⟩ := @rotations_run skein
  have h₁ := @applyDelta_rotatedTo (rotatedTo skein (zeroBytes 128)) skein otherKey 4 rfl
  have h₂ := @applyDelta_rotatedTo (rotatedTo skein otherKey) skein (zeroBytes 128) 4 rfl
  have hagree := h _ s _ _ _ _ 4 4 rfl hs (by rw [htrue, hfalse]; exact h₁)
    (by rw [htrue, hfalse]; exact h₂)
  exact rotations_apart (took_of_applyDelta (counted_rotatedTo otherKey) h₁)
    (took_of_applyDelta (counted_rotatedTo (zeroBytes 128)) h₂) hagree

end Rotations

end YumiBrowser.Group
