import YumiBrowser.Registrar.EpochAdoption

namespace YumiBrowser.Group

open Wire Keyed

/-- The header and every table as they were. -/
structure Unchanged (reg reg' : Registrar) : Prop where
  header : reg'.header = reg.header
  peers : reg'.peers.find? = reg.peers.find?
  roles : reg'.roles.find? = reg.roles.find?
  webapps : reg'.webapps.find? = reg.webapps.find?
  servers : reg'.servers.find? = reg.servers.find?
  epochs : reg'.epochs.find? = reg.epochs.find?
  auditLog : reg'.auditLog.find? = reg.auditLog.find?

def grownLog (crypto : Crypto) (reg : Registrar) (d : Delta) : AuditLog :=
  reg.auditLog.insertMissing (d.entries.filter fun e => admissible crypto reg d.state e)

def keptLog (crypto : Crypto) (reg : Registrar) (d : Delta) : AuditLog :=
  if reg.auditLog.rows.length < (grownLog crypto reg d).rows.length then
    enforceRetention (grownLog crypto reg d)
  else grownLog crypto reg d

/-- No entry of the delta waits for the rows that come with it, and none is cut off. -/
def Settled (crypto : Crypto) (reg : Registrar) (d : Delta) : Prop :=
  ∀ e ∈ d.entries, admissible crypto (mergeStateOf reg d.state) d.state e →
    (keptLog crypto reg d).find? e.entryHash ≠ none

section Entries

variable {crypto : Crypto} {reg reg' : Registrar} {d : Delta}

theorem log_mergeEntries (crypto : Crypto) (reg : Registrar) (d : Delta) :
    (mergeEntries crypto reg d).log = grownLog crypto reg d := by
  have hlog : ∀ (l : List AuditEntry) (m : Merging),
      (l.foldl (mergeEntry crypto reg d.state) m).log =
        m.log.insertMissing (l.filter fun e => admissible crypto reg d.state e) := by
    intro l
    induction l with
    | nil => exact fun _ => rfl
    | cons e l ih =>
      intro m
      rw [List.foldl_cons, ih]
      unfold mergeEntry
      by_cases hadm : admissible crypto reg d.state e = true
      · rw [List.filter_cons_of_pos hadm]
        change _ = (m.log.insertIgnore e).insertMissing _
        split
        · rename_i hdup
          have hstay : m.log.insertIgnore e = m.log := by
            unfold Table.insertIgnore
            rw [Table.insert?_eq_none.mpr (Option.isSome_iff_ne_none.mp hdup)]
            rfl
          rw [hstay]
        · rfl
      · rw [List.filter_cons_of_neg hadm]
        split <;> rfl
  exact hlog d.entries _

theorem mergeEntries_idle (h : ∀ e ∈ d.entries, reg.auditLog.find? e.entryHash = none →
    ¬ admissible crypto reg d.state e) :
    (mergeEntries crypto reg d).log = reg.auditLog ∧
      (mergeEntries crypto reg d).version = reg.header.version ∧
      (mergeEntries crypto reg d).updatedAt = reg.header.updatedAt ∧
      (mergeEntries crypto reg d).inserted = [] := by
  have hidle : ∀ (l : List AuditEntry) (m : Merging), (∀ e ∈ l, e ∈ d.entries) →
      m.log = reg.auditLog → (l.foldl (mergeEntry crypto reg d.state) m).log = m.log ∧
        (l.foldl (mergeEntry crypto reg d.state) m).version = m.version ∧
        (l.foldl (mergeEntry crypto reg d.state) m).updatedAt = m.updatedAt ∧
        (l.foldl (mergeEntry crypto reg d.state) m).inserted = m.inserted := by
    intro l
    induction l with
    | nil => exact fun _ _ _ => ⟨rfl, rfl, rfl, rfl⟩
    | cons e l ih =>
      intro m hl hm
      have hstep : (mergeEntry crypto reg d.state m e).log = m.log ∧
          (mergeEntry crypto reg d.state m e).version = m.version ∧
          (mergeEntry crypto reg d.state m e).updatedAt = m.updatedAt ∧
          (mergeEntry crypto reg d.state m e).inserted = m.inserted := by
        unfold mergeEntry
        split
        · exact ⟨rfl, rfl, rfl, rfl⟩
        · rename_i hnew
          have hfree : reg.auditLog.find? e.entryHash = none := by
            rw [← hm]
            exact Option.not_isSome_iff_eq_none.mp hnew
          rw [if_pos (h e (hl e List.mem_cons_self) hfree)]
          exact ⟨rfl, rfl, rfl, rfl⟩
      obtain ⟨h₁, h₂, h₃, h₄⟩ := ih (mergeEntry crypto reg d.state m e)
        (fun a ha => hl a (List.mem_cons_of_mem _ ha)) (hstep.1.trans hm)
      exact ⟨h₁.trans hstep.1, h₂.trans hstep.2.1, h₃.trans hstep.2.2.1, h₄.trans hstep.2.2.2⟩
  exact hidle d.entries (.start reg) (fun _ he => he) rfl

theorem inserted_eq_nil_iff : (mergeEntries crypto reg d).inserted = [] ↔
    ∀ e ∈ d.entries, reg.auditLog.find? e.entryHash = none → ¬ admissible crypto reg d.state e := by
  constructor
  · intro h e he hfree hadm
    have hrows : (mergeEntries crypto reg d).log.rows = reg.auditLog.rows := by
      rw [rows_mergeEntries, h, List.append_nil]
    have hfind : (mergeEntries crypto reg d).log.find? e.entryHash =
        reg.auditLog.find? e.entryHash := by
      unfold Table.find?
      rw [hrows]
    rw [log_mergeEntries, grownLog, Table.find?_insertMissing, hfree, Option.none_or,
      List.find?_eq_none] at hfind
    exact hfind e (List.mem_filter.mpr ⟨he, hadm⟩) (decide_eq_true rfl)
  · exact fun h => (mergeEntries_idle h).2.2.2

theorem admissible_congr (hpeers : reg'.peers = reg.peers) (hroles : reg'.roles = reg.roles)
    (howner : reg'.header.ownerId = reg.header.ownerId) (state : Option DeltaState) (e : AuditEntry) :
    admissible crypto reg' state e = admissible crypto reg state e := by
  have hlocal : localPerms reg' e = localPerms reg e := by
    have hjoin : rolePermsJoin reg' e.actorId = rolePermsJoin reg e.actorId := by
      unfold rolePermsJoin
      rw [hpeers, hroles]
    rw [localPerms, getPeerPermissions, isOwner, howner, hjoin]
    rfl
  have hperms : entryPerms reg' state e = entryPerms reg state e := by
    rw [entryPerms, hlocal]
    rfl
  have hauth : authorized reg' state e = authorized reg state e := by
    simp only [authorized, hperms, isOwner, howner]
  rw [admissible, hauth, signedByActor, hpeers]
  rfl

end Entries

section Twice

variable {crypto : Crypto} {d : Delta}

def applied (crypto : Crypto) (reg : Registrar) (d : Delta) : Registrar :=
  cutLog (mergeDelta crypto reg d).1 (mergeDelta crypto reg d).2

theorem entriesNew_mergeDelta (crypto : Crypto) (reg : Registrar) (d : Delta) :
    (mergeDelta crypto reg d).2.entriesNew = (mergeEntries crypto reg d).inserted.length := rfl

theorem auditLog_applied (crypto : Crypto) (reg : Registrar) (d : Delta) :
    (applied crypto reg d).auditLog = keptLog crypto reg d := by
  have hlen : (grownLog crypto reg d).rows.length =
      reg.auditLog.rows.length + (mergeEntries crypto reg d).inserted.length := by
    rw [← log_mergeEntries, rows_mergeEntries, List.length_append]
  have hlog : (mergeDelta crypto reg d).1.auditLog = grownLog crypto reg d := log_mergeEntries ..
  unfold applied cutLog keptLog
  rw [hlen, entriesNew_mergeDelta]
  by_cases h : 0 < (mergeEntries crypto reg d).inserted.length
  · rw [if_pos h, if_pos (Nat.lt_add_of_pos_right h)]
    exact congrArg enforceRetention hlog
  · rw [if_neg h, if_neg (fun hlt => h (Nat.pos_of_lt_add_right hlt))]
    exact hlog

theorem tables_cutLog (reg : Registrar) (result : MergeResult) :
    (cutLog reg result).roles = reg.roles ∧ (cutLog reg result).webapps = reg.webapps ∧
      (cutLog reg result).servers = reg.servers := by
  unfold cutLog
  split <;> exact ⟨rfl, rfl, rfl⟩

theorem mergeStateOf_twice (reg reg' : Registrar) (state : Option DeltaState)
    (hpeers : reg'.peers = (mergeStateOf reg state).peers)
    (hroles : reg'.roles = (mergeStateOf reg state).roles)
    (hwebapps : reg'.webapps = (mergeStateOf reg state).webapps)
    (hservers : reg'.servers = (mergeStateOf reg state).servers)
    (hepochs : reg'.epochs = (mergeStateOf reg state).epochs) :
    (mergeStateOf reg' state).peers.find? = reg'.peers.find? ∧
      (mergeStateOf reg' state).roles.find? = reg'.roles.find? ∧
      (mergeStateOf reg' state).webapps.find? = reg'.webapps.find? ∧
      (mergeStateOf reg' state).servers.find? = reg'.servers.find? ∧
      (mergeStateOf reg' state).epochs.find? = reg'.epochs.find? := by
  cases state with
  | none => exact ⟨rfl, rfl, rfl, rfl, rfl⟩
  | some d =>
    refine ⟨?_, ?_, ?_, ?_, ?_⟩
    · change (reg'.peers.merge Peer.stamp d.peers).find? = _
      rw [hpeers]
      exact Table.find?_merge_twice d.peers
    · change (reg'.roles.merge Role.stamp d.roles).find? = _
      rw [hroles]
      exact Table.find?_merge_twice d.roles
    · change (d.webapps.foldl Table.upsert reg'.webapps).find? = _
      rw [hwebapps]
      exact Table.find?_foldl_upsert_twice d.webapps
    · funext k
      change (mergeTables reg' d).servers.find? k = _
      rw [find?_servers_mergeTables, hservers]
      change mergeRows _ ((mergeTables reg d).servers.find? k) = (mergeTables reg d).servers.find? k
      rw [find?_servers_mergeTables, mergeRows_twice]
    · change (reg'.epochs.insertMissing d.epochs).find? = _
      rw [hepochs]
      exact Table.find?_insertMissing_twice d.epochs

theorem readDelta_congr (h : reg'.header.ownerSignKey = reg.header.ownerSignKey) :
    readDelta crypto reg' = readDelta crypto reg := by
  simp only [readDelta, readDeltaState, h]

theorem ownerSignKey_applied (crypto : Crypto) (reg : Registrar) (d : Delta) :
    (applied crypto reg d).header.ownerSignKey = reg.header.ownerSignKey := by
  rw [applied, header_cutLog]
  rfl

theorem admissible_applied (e : AuditEntry) : admissible crypto (applied crypto reg d) d.state e =
    admissible crypto (mergeStateOf reg d.state) d.state e := by
  apply admissible_congr
  · rw [applied, peers_cutLog]
    rfl
  · rw [applied, (tables_cutLog _ _).1]
    rfl
  · rw [applied, header_cutLog]
    cases d.state <;> rfl

theorem settled_iff_idle : Settled crypto reg d ↔
    (mergeEntries crypto (applied crypto reg d) d).inserted = [] := by
  rw [inserted_eq_nil_iff, auditLog_applied]
  constructor
  · intro h e he hfree hadm
    rw [admissible_applied] at hadm
    exact h e he hadm hfree
  · intro h e he hadm hfree
    rw [← admissible_applied] at hadm
    exact h e he hfree hadm

theorem unchanged_of_settled (h : Settled crypto reg d) :
    Unchanged (applied crypto reg d) (applied crypto (applied crypto reg d) d) := by
  have hidle := settled_iff_idle.mp h
  obtain ⟨hlog, hversion, hupdated, _⟩ := mergeEntries_idle (inserted_eq_nil_iff.mp hidle)
  have hcut : applied crypto (applied crypto reg d) d = (mergeDelta crypto (applied crypto reg d) d).1 := by
    have hnew : ¬ 0 < (mergeDelta crypto (applied crypto reg d) d).2.entriesNew := by
      rw [entriesNew_mergeDelta, hidle]
      exact Nat.lt_irrefl 0
    exact if_neg hnew
  obtain ⟨hr, hw, hs⟩ := tables_cutLog (mergeDelta crypto reg d).1 (mergeDelta crypto reg d).2
  obtain ⟨h₁, h₂, h₃, h₄, h₅⟩ := mergeStateOf_twice reg (applied crypto reg d) d.state
    (peers_cutLog _ _) hr hw hs (epochs_cutLog _ _)
  rw [hcut]
  constructor
  · change { (applied crypto reg d).header with
      version := (mergeEntries crypto (applied crypto reg d) d).version
      updatedAt := (mergeEntries crypto (applied crypto reg d) d).updatedAt } = _
    rw [hversion, hupdated]
  · exact h₁
  · exact h₂
  · exact h₃
  · exact h₄
  · exact h₅
  · change (mergeEntries crypto (applied crypto reg d) d).log.find? = _
    rw [hlog]

/-- A delta that comes again and is not held back for its size changes nothing and brings nothing
new exactly when the first time left none of its entries to be learned. -/
theorem applyDelta_twice_iff (h₁ : applyDelta crypto reg data now = .ok (reg₁, res₁))
    (hread : (readDelta crypto reg).run data = .ok (d, rest))
    (hsize : tooLarge reg₁ data.length now' = false) :
    (∃ reg₂ res₂, applyDelta crypto reg₁ data now' = .ok (reg₂, res₂) ∧ Unchanged reg₁ reg₂ ∧
      res₂.entriesNew = 0) ↔ Settled crypto reg d := by
  obtain ⟨d', ⟨_, rest', hread'⟩, heq⟩ := applyDelta_eq_ok.mp h₁
  rw [hread] at hread'
  obtain ⟨rfl, rfl⟩ := Prod.mk.inj (Except.ok.inj hread')
  obtain ⟨rfl, rfl⟩ := Prod.mk.inj heq
  have hagain : Accepts crypto (applied crypto reg d) data now' d :=
    ⟨hsize, rest, by rw [readDelta_congr (ownerSignKey_applied crypto reg d), hread]⟩
  have hok : applyDelta crypto (applied crypto reg d) data now' =
      .ok (applied crypto (applied crypto reg d) d, (mergeDelta crypto (applied crypto reg d) d).2) :=
    applyDelta_eq_ok.mpr ⟨d, hagain, rfl⟩
  constructor
  · rintro ⟨reg₂, res₂, hsecond, _, hnone⟩
    have heq := hok.symm.trans hsecond
    obtain ⟨rfl, rfl⟩ := Prod.mk.inj (Except.ok.inj heq)
    exact settled_iff_idle.mpr (List.length_eq_zero_iff.mp hnone)
  · intro h
    refine ⟨_, _, hok, unchanged_of_settled h, ?_⟩
    exact List.length_eq_zero_iff.mpr (settled_iff_idle.mp h)

end Twice

section Late

def lengthHash (l : List Byte) : Hash := ⟨toLe 128 l.length, length_toLe 128 _⟩

def membersSign : Crypto where
  skein := lengthHash
  sign _ _ := zeroBytes 4627
  verify _ _ pk := pk = (member 1).publicKey ∨ pk = (member 2).publicKey

def addressEntry : AuditEntry :=
  newEntry membersSign (createdGroup lengthHash) .peerAddress (member 2) (some (member 2).peerId)
    (ascii "address updated") 2000000

def memberState : DeltaState where
  header := (signedGroup lengthHash).header
  peers := [ownerPeer (member 1) 1, ownerPeer (member 2) 1]
  roles := []
  webapps := []
  signaling := []
  rebroadcast := []
  epochs := []

def memberDelta : Delta := { sinceVersion := 0, state := some memberState, entries := [addressEntry] }

theorem memberDelta_read : (readDelta membersSign (createdGroup lengthHash)).run
    (writeDelta 0 memberState [addressEntry]) = .ok (memberDelta, []) := by
  have hc : Counted memberState [addressEntry] := by constructor <;> simp [memberState]
  have hkey : memberState.header.signerSignKey = (member 1).publicKey := rfl
  exact readDelta_writeDelta 0 hc (by simp [membersSign, hkey]) rfl

theorem length_memberDelta : (writeDelta 0 memberState [addressEntry]).length ≤ deltaMaxBytes :=
  (length_writeDelta_le 0 memberState [addressEntry] rfl rfl rfl).trans (by decide)

theorem memberDelta_merged :
    (mergeStateOf (createdGroup lengthHash) (some memberState)).peers.find? (member 2).peerId =
      some (ownerPeer (member 2) 1) := by
  change (mergeTables (createdGroup lengthHash) memberState).peers.find? (member 2).peerId = _
  rw [find?_peers_mergeTables]
  rfl

theorem length_hashed (e : AuditEntry) : e.hashed.length = 208 + e.detail.val.length := by
  simp only [AuditEntry.hashed, List.length_append, Bytes.length_eq, length_toLe]

theorem entryHash_newEntry (crypto : Crypto) (reg : Registrar) (change : ChangeType) (actor : Identity)
    (target : Option PeerId) (detail : List Byte) (ns : I64) :
    (newEntry crypto reg change actor target detail ns).entryHash =
      crypto.skein (newEntry crypto reg change actor target detail ns).hashed := rfl

/-- The entry `gr_create` makes. -/
def createdEntry : AuditEntry :=
  newEntry (onlySigner lengthHash (member 1))
    (founded (onlySigner lengthHash (member 1)) (ascii "pair") groupPrivate (member 1) (zeroBytes 128) 1)
    .peerAdded (member 1) (some (member 1).peerId) (ascii "group created") 1000000

theorem lengthHash_ne (h : l.length ≠ l'.length) (hl : l.length < 256) (hl' : l'.length < 256) :
    lengthHash l ≠ lengthHash l' := by
  intro heq
  have hlen := congrArg (fun h : Hash => ofLe h.val) heq
  have hle : 256 ≤ 256 ^ 128 := Nat.le_self_pow (by decide) 256
  simp only [lengthHash, ofLe_toLe, Nat.mod_eq_of_lt (hl.trans_le hle),
    Nat.mod_eq_of_lt (hl'.trans_le hle)] at hlen
  exact h hlen

theorem createdGroup_lacks {e : AuditEntry} (he : e.entryHash = lengthHash e.hashed)
    (hne : e.hashed.length ≠ 221) (hlen : e.hashed.length < 256) :
    (createdGroup lengthHash).auditLog.find? e.entryHash = none := by
  have hlog : (createdGroup lengthHash).auditLog = Table.empty.insertIgnore createdEntry := by
    change enforceRetention (Table.empty.insertIgnore createdEntry) = _
    have hlen : (Table.empty.insertIgnore createdEntry : AuditLog).rows.length ≤ 1 :=
      Table.length_insertIgnore_le
    exact if_pos (hlen.trans (by decide))
  have hfirst : createdEntry.hashed.length = 221 := length_hashed createdEntry
  have hother : createdEntry.entryHash ≠ e.entryHash := by
    rw [he, createdEntry, entryHash_newEntry, ← createdEntry]
    exact lengthHash_ne (by rw [hfirst]; exact hne.symm) (by rw [hfirst]; decide) hlen
  rw [hlog, Table.find?_insertIgnore, Table.find?_empty, if_neg hother]
  rfl

theorem addressEntry_new : (createdGroup lengthHash).auditLog.find? addressEntry.entryHash = none := by
  have hlen : addressEntry.hashed.length = 223 := length_hashed addressEntry
  exact createdGroup_lacks (entryHash_newEntry membersSign ..) (by rw [hlen]; decide)
    (by rw [hlen]; decide)

theorem memberDelta_unsettled : ¬ Settled membersSign (createdGroup lengthHash) memberDelta := by
  intro h
  have hintact : intact membersSign addressEntry = true :=
    decide_eq_true (entryHash_newEntry membersSign ..).symm
  have hauth : ∀ reg, authorized reg (some memberState) addressEntry = true := fun _ => rfl
  have hunknown : (createdGroup lengthHash).peers.find? addressEntry.actorId = none := rfl
  have hadm : admissible membersSign (mergeStateOf (createdGroup lengthHash) (some memberState))
      (some memberState) addressEntry = true := by
    have hactor : addressEntry.actorId = (member 2).peerId := rfl
    have hkey : (ownerPeer (member 2) 1).signKey = (member 2).publicKey := rfl
    rw [admissible, hintact, hauth, signedByActor, hactor, memberDelta_merged]
    simp only [membersSign, Bool.true_and, Bool.and_true, decide_eq_true_eq]
    exact .inr hkey
  have hinadm : ¬ admissible membersSign (createdGroup lengthHash) (some memberState) addressEntry = true := by
    rw [admissible, hintact, hauth, signedByActor, hunknown]
    exact Bool.false_ne_true
  have hgrown : grownLog membersSign (createdGroup lengthHash) memberDelta =
      (createdGroup lengthHash).auditLog := by
    have hnone : memberDelta.entries.filter
        (fun e => admissible membersSign (createdGroup lengthHash) memberDelta.state e) = [] := by
      apply List.filter_eq_nil_iff.mpr
      intro e he
      obtain rfl := List.mem_singleton.mp he
      exact hinadm
    rw [grownLog, hnone]
    rfl
  apply h addressEntry List.mem_cons_self hadm
  rw [keptLog, hgrown, if_neg (Nat.lt_irrefl _)]
  exact addressEntry_new

theorem applyDelta_memberDelta :
    applyDelta membersSign (createdGroup lengthHash) (writeDelta 0 memberState [addressEntry]) 4 =
      .ok (applied membersSign (createdGroup lengthHash) memberDelta,
        (mergeDelta membersSign (createdGroup lengthHash) memberDelta).2) :=
  applyDelta_eq_ok.mpr
    ⟨memberDelta, ⟨tooLarge_of_le length_memberDelta, [], memberDelta_read⟩, rfl⟩

theorem applyDelta_twice_iff_member :
    (∃ reg₂ res₂, applyDelta membersSign (applied membersSign (createdGroup lengthHash) memberDelta)
        (writeDelta 0 memberState [addressEntry]) 5 = .ok (reg₂, res₂) ∧
        Unchanged (applied membersSign (createdGroup lengthHash) memberDelta) reg₂ ∧
        res₂.entriesNew = 0) ↔
      Settled membersSign (createdGroup lengthHash) memberDelta :=
  applyDelta_twice_iff applyDelta_memberDelta memberDelta_read (tooLarge_of_le length_memberDelta)

-- The member's first entry is refused together with the row that says who the member is, and taken
-- when the delta comes again.
theorem applyDelta_twice_learns :
    ¬ ∀ (crypto : Crypto) (reg reg₁ : Registrar) (res₁ : MergeResult) (data : List Byte) (now now' : I64),
      applyDelta crypto reg data now = .ok (reg₁, res₁) → tooLarge reg₁ data.length now' = false →
      ∃ reg₂ res₂, applyDelta crypto reg₁ data now' = .ok (reg₂, res₂) ∧ Unchanged reg₁ reg₂ ∧
        res₂.entriesNew = 0 := by
  intro h
  have hsize : tooLarge (applied membersSign (createdGroup lengthHash) memberDelta)
      (writeDelta 0 memberState [addressEntry]).length 5 = false := tooLarge_of_le length_memberDelta
  obtain ⟨reg₂, res₂, hsecond, _, hnone⟩ := h _ _ _ _ _ 4 5 applyDelta_memberDelta hsize
  obtain ⟨d', ⟨_, rest', hread⟩, heq⟩ := applyDelta_eq_ok.mp hsecond
  rw [readDelta_congr (ownerSignKey_applied ..), memberDelta_read] at hread
  obtain ⟨rfl, _⟩ := Prod.mk.inj (Except.ok.inj hread)
  obtain ⟨_, rfl⟩ := Prod.mk.inj heq
  rw [entriesNew_mergeDelta] at hnone
  exact memberDelta_unsettled (settled_iff_idle.mpr (List.length_eq_zero_iff.mp hnone))

end Late

end YumiBrowser.Group
