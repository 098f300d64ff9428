import YumiBrowser.Registrar.FullSync
import YumiBrowser.Registrar.VersionOrder

namespace YumiBrowser.Group

open Wire Keyed Transition

structure Reproduces (mode : SerializeMode) (reg reg' : Registrar) : Prop where
  header : reg'.header = reg.header
  peers : ∀ p, p ∈ reg'.peers.rows ↔ p ∈ reg.peers.rows
  roles : ∀ r, r ∈ reg'.roles.rows ↔ r ∈ reg.roles.rows
  webapps : ∀ w, w ∈ reg'.webapps.rows ↔ w ∈ reg.webapps.rows
  servers : ∀ s, s ∈ reg'.servers.rows ↔ s ∈ reg.servers.rows.map (Server.shown mode)
  epochs : ∀ e, e ∈ reg'.epochs.rows ↔ e ∈ reg.epochs.rows
  auditLog : ∀ e, e ∈ reg'.auditLog.rows ↔ e ∈ reg.auditLog.rows

def RoundTrips (crypto : Crypto) (mode : SerializeMode) (reg target : Registrar) : Prop :=
  ∃ reg', grDeserialize crypto target (grSerialize reg mode) = .ok reg' ∧ Reproduces mode reg reg'

/-- What the encoder takes for granted: a signed header, no entry from before 1970, and servers of
the two types it lists. -/
structure Portable (crypto : Crypto) (reg : Registrar) : Prop where
  signed : crypto.verify reg.header.signature reg.header.hash reg.header.signerSignKey = true
  dated : ∀ e ∈ reg.auditLog.rows, 0 < e.timestamp.toInt
  typed : ∀ s ∈ reg.servers.rows, s.type = serverSignaling ∨ s.type = serverRebroadcast

variable {crypto : Crypto} {reg target : Registrar} {mode : SerializeMode}

section Rows

theorem nodup_auditList (reg : Registrar) : ((auditList reg).map AuditEntry.entryHash).Nodup := by
  have hperm := List.mergeSort_perm (reg.auditLog.rows.filter fun e => 0 < e.timestamp.toInt)
    fun a b => decide (a.timestamp.toInt ≤ b.timestamp.toInt)
  exact (hperm.map _).nodup_iff.mpr (reg.auditLog.nodup.sublist (List.filter_sublist.map _))

theorem mem_auditList (hdated : ∀ e ∈ reg.auditLog.rows, 0 < e.timestamp.toInt) (e : AuditEntry) :
    e ∈ auditList reg ↔ e ∈ reg.auditLog.rows := by
  rw [auditList, List.mem_mergeSort, List.mem_filter, decide_eq_true_eq]
  exact ⟨And.left, fun h => ⟨h, hdated e h⟩⟩

theorem mem_serverList (type : BitVec 32) (s : Server) :
    s ∈ serverList reg type ↔ s ∈ reg.servers.rows ∧ s.type = type := by
  rw [serverList, List.mem_filter, decide_eq_true_eq]

theorem shown_idHash (mode : SerializeMode) (s : Server) : (s.shown mode).idHash = s.idHash := by
  cases mode <;> rfl

theorem shown_type (mode : SerializeMode) (s : Server) : (s.shown mode).type = s.type := by
  cases mode <;> rfl

theorem mem_servers_rowsOf (s : Server) :
    s ∈ (rowsOf reg mode).signaling ++ (rowsOf reg mode).rebroadcast ↔
      ∃ v ∈ reg.servers.rows, (v.type = serverSignaling ∨ v.type = serverRebroadcast) ∧
        v.shown mode = s := by
  simp only [rowsOf, stateOf, List.mem_append, List.mem_map, mem_serverList]
  constructor
  · rintro (⟨v, ⟨hv, ht⟩, rfl⟩ | ⟨v, ⟨hv, ht⟩, rfl⟩)
    · exact ⟨v, hv, .inl ht, rfl⟩
    · exact ⟨v, hv, .inr ht, rfl⟩
  · rintro ⟨v, hv, ht | ht, rfl⟩
    · exact .inl ⟨v, ⟨hv, ht⟩, rfl⟩
    · exact .inr ⟨v, ⟨hv, ht⟩, rfl⟩

theorem distinct_rowsOf (reg : Registrar) (mode : SerializeMode) : (rowsOf reg mode).Distinct := by
  constructor
  · exact reg.peers.nodup
  · exact ((List.mergeSort_perm reg.roles.rows _).map _).nodup_iff.mpr reg.roles.nodup
  · exact reg.webapps.nodup
  · have hkeys : ∀ l : List Server,
        (l.map (Server.shown mode)).map Server.idHash = l.map Server.idHash := by
      intro l
      rw [List.map_map]
      exact List.map_congr_left fun s _ => shown_idHash mode s
    have hlist : ∀ type, ((serverList reg type).map Server.idHash).Nodup := fun type =>
      reg.servers.nodup.sublist (List.filter_sublist.map _)
    simp only [rowsOf, stateOf, List.map_append, hkeys]
    refine List.nodup_append.mpr ⟨hlist serverSignaling, hlist serverRebroadcast, ?_⟩
    rintro k hsig _ hreb rfl
    obtain ⟨s, hs, rfl⟩ := List.mem_map.mp hsig
    obtain ⟨v, hv, hkey⟩ := List.mem_map.mp hreb
    obtain ⟨hs, htype⟩ := (mem_serverList _ s).mp hs
    obtain ⟨hv, htype'⟩ := (mem_serverList _ v).mp hv
    -- one row cannot be of both types
    have hfind := Table.find?_of_mem hv
    rw [hkey, Table.find?_of_mem hs] at hfind
    obtain rfl := Option.some.inj hfind
    rw [htype] at htype'
    exact absurd htype' (by decide)
  · exact ((List.mergeSort_perm reg.epochs.rows _).map _).nodup_iff.mpr reg.epochs.nodup

end Rows

section Portable

theorem reproduces_of_installed (hp : Portable crypto reg)
    (hin : Installed reg.header (rowsOf reg mode) reg') : Reproduces mode reg reg' := by
  constructor
  · exact hin.header
  · exact fun p => by rw [hin.peers]; rfl
  · intro r
    rw [hin.roles]
    exact List.mem_mergeSort
  · exact fun w => by rw [hin.webapps]; rfl
  · intro s
    rw [hin.servers, mem_servers_rowsOf, List.mem_map]
    constructor
    · rintro ⟨v, hv, _, heq⟩
      exact ⟨v, hv, heq⟩
    · rintro ⟨v, hv, heq⟩
      exact ⟨v, hv, hp.typed v hv, heq⟩
  · intro e
    rw [hin.epochs]
    exact List.mem_mergeSort
  · intro e
    rw [hin.auditLog, mem_insertMissing_empty, ← mem_auditList hp.dated]
    have hlog : Table.find? (⟨auditList reg, nodup_auditList reg⟩ : AuditLog) e.entryHash =
        some e ↔ e ∈ auditList reg :=
      Table.find?_eq_some.trans ⟨And.left, fun h => ⟨h, rfl⟩⟩
    exact hlog

theorem roundTrips_of_portable (hc : Counted (stateOf reg) reg.auditLog.rows)
    (howner : reg.header.ownerSignKey = target.header.ownerSignKey)
    (hnew : target.header.version < reg.header.version) (hp : Portable crypto reg) :
    RoundTrips crypto mode reg target := by
  have hread := readFullRows_serTables mode hc hp.dated
  obtain ⟨reg', hreg'⟩ := readTables_of_distinct target reg.header hread (distinct_rowsOf reg mode)
  obtain ⟨rows, hrows, _, hin⟩ := readTables_rows hreg'
  rw [hread] at hrows
  obtain ⟨rfl, _⟩ := Prod.mk.inj (Option.some.inj hrows)
  have hpre := readPreamble_grSerialize mode hp.signed howner
  exact ⟨reg', (grDeserialize_newer hpre hnew).mpr ⟨_, hreg'⟩, reproduces_of_installed hp hin⟩

theorem signed_of_readPreamble (h : (readPreamble crypto target).run (grSerialize reg mode) = .ok r) :
    crypto.verify reg.header.signature reg.header.hash reg.header.signerSignKey = true := by
  by_contra hverify
  have hmagic : ∀ s, (readBytes 4).run (serialMagic ++ s) = some (⟨serialMagic, rfl⟩, s) :=
    readBytes_append ⟨serialMagic, rfl⟩
  have hver : (BitVec.ofNat 32 serialVersion).toNat = 4 := rfl
  rw [readPreamble, grSerialize_eq, parse_bind _ (hmagic _)] at h
  simp only [ne_eq, not_true, ↓reduceIte] at h
  rw [parse_bind _ (readLe_append _ _ (by norm_num))] at h
  simp only [hver, show ¬ 4 > serialVersion by decide, ↓reduceIte] at h
  rw [parse_bind _ (readLe_append _ _ (by norm_num)), parse_bind _ (deHeader_ser _ _)] at h
  simp only [hverify] at h
  cases h

theorem dated_of_readFullRows (hc : Counted (stateOf reg) reg.auditLog.rows)
    (h : (readFullRows 4).run (serTables reg mode) = some r) :
    ∀ e ∈ reg.auditLog.rows, 0 < e.timestamp.toInt := by
  by_contra hdated
  push Not at hdated
  obtain ⟨e, he, htime⟩ := hdated
  have hlt : (auditList reg).length < reg.auditLog.rows.length := by
    rw [auditList, List.length_mergeSort]
    apply List.length_filter_lt_length_iff_exists.mpr
    exact ⟨e, he, by simpa using htime⟩
  have hcount : (BitVec.ofNat 32 reg.auditLog.rows.length).toNat = reg.auditLog.rows.length := by
    rw [BitVec.toNat_ofNat]
    exact Nat.mod_eq_of_lt hc.entries
  have hnil : (deAudit 4).run [] = none := rfl
  rw [readFullRows_serTables_log mode hc, readRows,
    run_bind_of _ (readLe_append _ _ (by norm_num)), hcount,
    readMany_short id hnil (auditList reg) (fun a s => deAudit_ser s a) hlt] at h
  cases h

theorem portable_of_roundTrips (hc : Counted (stateOf reg) reg.auditLog.rows)
    (howner : reg.header.ownerSignKey = target.header.ownerSignKey)
    (hnew : target.header.version < reg.header.version) (h : RoundTrips crypto mode reg target) :
    Portable crypto reg := by
  obtain ⟨reg', hok, hsame⟩ := h
  have hsigned : crypto.verify reg.header.signature reg.header.hash reg.header.signerSignKey = true := by
    obtain ⟨rest, hfull⟩ := grDeserialize_ok.mp hok
    obtain ⟨v, body, hpre, _⟩ := bind_ok.mp hfull
    exact signed_of_readPreamble hpre
  have hpre := readPreamble_grSerialize mode hsigned howner
  obtain ⟨rest, htables⟩ := (grDeserialize_newer hpre hnew).mp hok
  obtain ⟨rows, hread, _, hin⟩ := readTables_rows htables
  have hdated := dated_of_readFullRows hc hread
  rw [readFullRows_serTables mode hc hdated] at hread
  obtain ⟨rfl, _⟩ := Prod.mk.inj (Option.some.inj hread)
  refine ⟨hsigned, hdated, ?_⟩
  intro s hs
  have hmem := (hsame.servers (s.shown mode)).mpr (List.mem_map_of_mem hs)
  rw [hin.servers, mem_servers_rowsOf] at hmem
  obtain ⟨v, hv, htype, heq⟩ := hmem
  rw [← shown_type mode s, ← heq, shown_type]
  exact htype

/-- A blob brings a registrar over as it is exactly when the registrar is signed and the encoder
lists all it counts. -/
theorem roundTrips_iff_portable (hc : Counted (stateOf reg) reg.auditLog.rows)
    (howner : reg.header.ownerSignKey = target.header.ownerSignKey)
    (hnew : target.header.version < reg.header.version) :
    RoundTrips crypto mode reg target ↔ Portable crypto reg :=
  ⟨portable_of_roundTrips hc howner hnew, roundTrips_of_portable hc howner hnew⟩

end Portable

section Unsigned

variable {skein : List Byte → Hash}

def joining (skein : List Byte → Hash) : Registrar :=
  founded (onlySigner skein (member 1)) (ascii "pair") groupPrivate (member 1) (zeroBytes 128) 1

theorem counted_createdGroup :
    Counted (stateOf (createdGroup skein)) (createdGroup skein).auditLog.rows := by
  have hlog : (createdGroup skein).auditLog.rows.length ≤ 1 := length_auditAppend_le
  constructor
  · exact (by decide : 1 < 2 ^ 32)
  · rw [stateOf, List.length_mergeSort]
    exact (by decide : 0 < 2 ^ 32)
  · exact (by decide : 0 < 2 ^ 32)
  · exact (by decide : 0 < 2 ^ 32)
  · exact (by decide : 0 < 2 ^ 32)
  · rw [stateOf, List.length_mergeSort]
    exact (by decide : 1 < 2 ^ 32)
  · exact hlog.trans_lt (by decide)

theorem counted_signedGroup :
    Counted (stateOf (signedGroup skein)) (signedGroup skein).auditLog.rows := by
  have hlog : (signedGroup skein).auditLog.rows.length ≤ 2 :=
    length_auditAppend_le.trans (Nat.succ_le_succ length_auditAppend_le)
  have hcreated := @counted_createdGroup skein
  exact ⟨hcreated.peers, hcreated.roles, hcreated.webapps, hcreated.signaling, hcreated.rebroadcast,
    hcreated.epochs, hlog.trans_lt (by decide)⟩

theorem roundTrips_iff_portable_signedGroup :
    RoundTrips (onlySigner flatHash (member 1)) .full (signedGroup flatHash) (joining flatHash) ↔
      Portable (onlySigner flatHash (member 1)) (signedGroup flatHash) :=
  roundTrips_iff_portable counted_signedGroup rfl (by decide : (1 : BitVec 32) < 3)

def undated : AuditEntry :=
  { leap with timestamp := 0, timestampNs := 0, registrarVersion := 3 }

def undatedEntry : AuditEntry := { undated with entryHash := lengthHash undated.hashed }

def undatedState : DeltaState := { memberState with peers := [] }

def undatedDelta : Delta := ⟨0, some undatedState, [undatedEntry]⟩

theorem undatedDelta_accepted : Accepts (onlySigner lengthHash (member 1)) (createdGroup lengthHash)
    (writeDelta 0 undatedState [undatedEntry]) 4 undatedDelta := by
  have hlen := length_writeDelta_le 0 undatedState [undatedEntry] rfl rfl rfl
  have hc : Counted undatedState [undatedEntry] := by constructor <;> simp [undatedState, memberState]
  have hkey : undatedState.header.signerSignKey = (member 1).publicKey := rfl
  exact ⟨tooLarge_of_le (hlen.trans (by decide)), [],
    readDelta_writeDelta 0 hc (by simp [onlySigner, hkey]) rfl⟩

theorem undatedEntry_brought :
    undatedDelta.Brings (onlySigner lengthHash (member 1)) (createdGroup lengthHash) undatedEntry :=
  ownersEntry_brought rfl rfl (congrArg lengthHash (hashed_entryHash undated _)).symm
    (length_hashed undatedEntry)

def undatedGroup : Registrar :=
  applied (onlySigner lengthHash (member 1)) (createdGroup lengthHash) undatedDelta

def signedUndated : Registrar :=
  Mutation.close (onlySigner lengthHash (member 1)) undatedGroup undatedGroup ⟨5, 5000000⟩
    (.sign (member 1))

theorem auditLog_close_sign (crypto : Crypto) (reg : Registrar) (clk : Clock) (signer : Identity) :
    (Mutation.close crypto reg reg clk (.sign signer)).auditLog =
      enforceRetention (reg.auditLog.insertIgnore
        (newEntry crypto reg .registrarSigned signer none (ascii "registrar signed") clk.ns)) := rfl

theorem header_close_sign (crypto : Crypto) (reg : Registrar) (clk : Clock) (signer : Identity) :
    (Mutation.close crypto reg reg clk (.sign signer)).header.version = reg.header.version + 1 ∧
      (Mutation.close crypto reg reg clk (.sign signer)).header.ownerSignKey = reg.header.ownerSignKey ∧
      (Mutation.close crypto reg reg clk (.sign signer)).header.signerSignKey = signer.publicKey :=
  ⟨rfl, rfl, rfl⟩

theorem tables_close_sign (crypto : Crypto) (reg : Registrar) (clk : Clock) (signer : Identity) :
    (Mutation.close crypto reg reg clk (.sign signer)).peers = reg.peers ∧
      (Mutation.close crypto reg reg clk (.sign signer)).roles = reg.roles ∧
      (Mutation.close crypto reg reg clk (.sign signer)).webapps = reg.webapps ∧
      (Mutation.close crypto reg reg clk (.sign signer)).servers = reg.servers ∧
      (Mutation.close crypto reg reg clk (.sign signer)).epochs = reg.epochs :=
  ⟨rfl, rfl, rfl, rfl, rfl⟩

theorem rows_undatedGroup : undatedGroup.auditLog.rows.length ≤ 2 ∧
    undatedEntry ∈ undatedGroup.auditLog.rows := by
  have hcreated : (createdGroup lengthHash).auditLog.rows.length ≤ 1 := length_auditAppend_le
  have hone : (createdGroup lengthHash).auditLog.rows.length + undatedDelta.entries.length ≤ 2 :=
    Nat.succ_le_succ hcreated
  have hbrought := (mem_inserted undatedDelta undatedEntry).mpr undatedEntry_brought
  rw [undatedGroup, auditLog_applied_of_short (hone.trans (by decide))]
  refine ⟨length_grownLog_le.trans hone, ?_⟩
  rw [← log_mergeEntries, rows_mergeEntries]
  exact List.mem_append_right _ hbrought

theorem rows_signedUndated : signedUndated.auditLog.rows.length ≤ 3 ∧
    undatedEntry ∈ signedUndated.auditLog.rows := by
  obtain ⟨hlen, hmem⟩ := rows_undatedGroup
  rw [signedUndated, auditLog_close_sign]
  generalize newEntry _ _ _ _ _ _ _ = entry
  have hgrown : (undatedGroup.auditLog.insertIgnore entry).rows.length ≤ 3 :=
    le_trans Table.length_insertIgnore_le (by omega)
  have huncut : (undatedGroup.auditLog.insertIgnore entry).rows.length ≤ auditMaxRows :=
    hgrown.trans (by decide)
  rw [enforceRetention, if_pos huncut]
  exact ⟨hgrown, Table.mem_insertIgnore_of_mem entry hmem⟩

theorem tables_applied_undatedDelta (crypto : Crypto) (reg : Registrar) :
    (applied crypto reg undatedDelta).peers = reg.peers ∧ (applied crypto reg undatedDelta).roles = reg.roles ∧
      (applied crypto reg undatedDelta).webapps = reg.webapps ∧
      (applied crypto reg undatedDelta).servers = reg.servers ∧
      (applied crypto reg undatedDelta).epochs = reg.epochs ∧
      (applied crypto reg undatedDelta).untrusted = reg.untrusted := by
  unfold applied cutLog
  split <;> exact ⟨rfl, rfl, rfl, rfl, rfl, rfl⟩

theorem header_applied (crypto : Crypto) (reg : Registrar) (d : Delta) :
    (applied crypto reg d).header.ownerId = reg.header.ownerId ∧
      (applied crypto reg d).header.ownerSignKey = reg.header.ownerSignKey ∧
      (applied crypto reg d).header.version = (mergeEntries crypto reg d).version := by
  rw [applied, header_cutLog]
  exact ⟨rfl, rfl, rfl⟩

theorem header_undatedGroup : undatedGroup.header.ownerSignKey = (member 1).publicKey ∧
    undatedGroup.header.ownerId = (member 1).peerId ∧
      (undatedGroup.header.version = 2 ∨ undatedGroup.header.version = 3) := by
  obtain ⟨howner, hkey, hmerged⟩ := header_applied (onlySigner lengthHash (member 1))
    (createdGroup lengthHash) undatedDelta
  rw [undatedGroup, hkey, howner, hmerged]
  refine ⟨rfl, rfl, ?_⟩
  obtain ⟨_, _, hversion⟩ := version_mergeEntries (onlySigner lengthHash (member 1))
    (createdGroup lengthHash) undatedDelta
  refine hversion.imp (fun h => h) ?_
  rintro ⟨e, he, hversion⟩
  obtain ⟨pre, post, hsplit, _⟩ := (mem_inserted undatedDelta e).mp he
  have hmem : e ∈ undatedDelta.entries := by simp [hsplit]
  obtain rfl := List.mem_singleton.mp hmem
  exact hversion

theorem signedUndated_walk : (registrarSystem (onlySigner lengthHash (member 1))).Walk
    (createdGroup lengthHash)
    [⟨createdGroup lengthHash, .merge (writeDelta 0 undatedState [undatedEntry]) 4, undatedGroup⟩,
      ⟨undatedGroup, .call (.sign (member 1)) ⟨5, 5000000⟩, signedUndated⟩] signedUndated := by
  obtain ⟨_, howner, _⟩ := header_undatedGroup
  obtain ⟨_, _, _, _, _, htrusted⟩ := tables_applied_undatedDelta (onlySigner lengthHash (member 1))
    (createdGroup lengthHash)
  have hsign : Edit (onlySigner lengthHash (member 1)) undatedGroup ⟨5, 5000000⟩ (.sign (member 1))
      undatedGroup := .signed ⟨htrusted, checkPerm_owner howner (by decide)⟩
  exact .cons ⟨_, applyDelta_eq_ok.mpr ⟨undatedDelta, undatedDelta_accepted, rfl⟩⟩
    (.cons hsign.run .nil)

theorem counted_signedUndated :
    Counted (stateOf signedUndated) signedUndated.auditLog.rows := by
  obtain ⟨hpeers, hroles, hwebapps, hservers, hepochs⟩ := tables_close_sign
    (onlySigner lengthHash (member 1)) undatedGroup ⟨5, 5000000⟩ (member 1)
  obtain ⟨hpeers', hroles', hwebapps', hservers', hepochs', _⟩ := tables_applied_undatedDelta
    (onlySigner lengthHash (member 1)) (createdGroup lengthHash)
  rw [← signedUndated, undatedGroup] at hpeers hroles hwebapps hservers hepochs
  have hcreated := @counted_createdGroup lengthHash
  constructor
  · rw [stateOf, hpeers, hpeers']
    exact hcreated.peers
  · rw [stateOf, hroles, hroles']
    exact hcreated.roles
  · rw [stateOf, hwebapps, hwebapps']
    exact hcreated.webapps
  · rw [stateOf, serverList, hservers, hservers']
    exact hcreated.signaling
  · simp only [stateOf, serverList, hservers, hservers']
    exact hcreated.rebroadcast
  · rw [stateOf, hepochs, hepochs']
    exact hcreated.epochs
  · exact rows_signedUndated.1.trans_lt (by decide)

-- A delta brings in an entry of the owner's that is dated 0. Every blob of the group counts it and
-- leaves it out, so that nobody can read the blob.
theorem undated_not_roundTrips :
    ¬ ∀ (crypto : Crypto) (start reg : Registrar) (xs : List (System.Step Registrar RegistrarEvent))
      (mode : SerializeMode) (target : Registrar), (registrarSystem crypto).init start →
      (registrarSystem crypto).Walk start xs reg →
      crypto.verify reg.header.signature reg.header.hash reg.header.signerSignKey = true →
      reg.header.ownerSignKey = target.header.ownerSignKey →
      target.header.version < reg.header.version → RoundTrips crypto mode reg target := by
  intro h
  obtain ⟨howner, _, hversion⟩ := header_undatedGroup
  obtain ⟨hnext, howner', hsigner⟩ := header_close_sign (onlySigner lengthHash (member 1))
    undatedGroup ⟨5, 5000000⟩ (member 1)
  rw [← signedUndated] at hnext howner' hsigner
  have hkey : signedUndated.header.ownerSignKey = (joining lengthHash).header.ownerSignKey :=
    howner'.trans howner
  have hnewer : (joining lengthHash).header.version < signedUndated.header.version := by
    have hone : (joining lengthHash).header.version = 1 := rfl
    rw [hnext, hone]
    rcases hversion with h | h <;> rw [h] <;> decide
  have hsigned : (onlySigner lengthHash (member 1)).verify signedUndated.header.signature
      signedUndated.header.hash signedUndated.header.signerSignKey = true := by
    rw [hsigner]
    exact onlySigner_verify
  have htrip := h _ _ _ _ .full (joining lengthHash) createdGroup_init signedUndated_walk hsigned hkey hnewer
  have hp := portable_of_roundTrips counted_signedUndated hkey hnewer htrip
  have hdated := hp.dated undatedEntry rows_signedUndated.2
  rw [show undatedEntry.timestamp = 0 from rfl] at hdated
  exact absurd hdated (by decide)

end Unsigned

end YumiBrowser.Group
