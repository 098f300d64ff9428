import YumiBrowser.Registrar.DeltaAuthorization

namespace YumiBrowser.Group

open Wire Keyed

def serialMagic : List Byte := ascii "GREG"

/-- `gr_audit_list` from timestamp 0 on. -/
def auditList (reg : Registrar) : List AuditEntry :=
  (reg.auditLog.rows.filter fun e => 0 < e.timestamp.toInt).mergeSort
    fun a b => a.timestamp.toInt ≤ b.timestamp.toInt

-- The count of the log covers every entry, the list only those with a positive timestamp.
def grSerialize (reg : Registrar) (mode : SerializeMode) : List Byte :=
  serialMagic ++ writeU32 (BitVec.ofNat 32 serialVersion) ++ writeU8 mode.code ++
    serHeader reg.header ++ serCounted serPeer (stateOf reg).peers ++
    serCounted serRole (stateOf reg).roles ++ serCounted serWebapp (stateOf reg).webapps ++
    serCounted (serServer mode) (stateOf reg).signaling ++
    serCounted (serServer mode) (stateOf reg).rebroadcast ++
    serCounted serEpoch (stateOf reg).epochs ++
    writeU32 (BitVec.ofNat 32 reg.auditLog.rows.length) ++ (auditList reg).flatMap serAudit

/-- The checks of `gr_deserialize`: magic, version, mode, header, its signature, its owner. -/
def readPreamble (crypto : Crypto) (reg : Registrar) : Parse (ℕ × Header) := do
  let magic ← parse (readBytes 4)
  if magic.val ≠ serialMagic then throw .serialization
  let ver ← parse readU32
  if ver.toNat > serialVersion then throw .serialization
  let _mode ← parse readU8
  let header ← parse deHeader
  if ¬ crypto.verify header.signature header.hash header.signerSignKey then
    throw .signatureInvalid
  if header.ownerSignKey ≠ reg.header.ownerSignKey then throw .unauthorized
  return (ver.toNat, header)

section Install

variable {α : Type} {κ : Type} {key : α → κ}

/-- Read `n` rows and insert each as it comes. -/
def installMany (r : Reader α) (ins : Table key → α → Option (Table key)) :
    ℕ → Table key → Parse (Table key)
  | 0, t => return t
  | n + 1, t => do
    let a ← parse r
    match ins t a with
    | some t => installMany r ins n t
    | none => throw .db

def install (r : Reader α) (ins : Table key → α → Option (Table key)) (t : Table key) :
    Parse (Table key) := do
  let n ← parse readU32
  installMany r ins n.toNat t

end Install

def readTables (reg : Registrar) (ver : ℕ) (header : Header) : Parse Registrar := do
  let peers ← install dePeer Table.insert? Table.empty
  let roles ← install (deRole ver) Table.insert? Table.empty
  let webapps ← install (deWebapp ver) Table.insert? Table.empty
  let signaling ← install deServer Table.insert? Table.empty
  let servers ← install deServer Table.insert? signaling
  let epochs ← install deEpoch Table.insert? Table.empty
  let auditLog ← install (deAudit ver) (fun t a => some (t.insertIgnore a)) Table.empty
  return { reg with header, peers, roles, webapps, servers, epochs, auditLog }

def readFull (crypto : Crypto) (reg : Registrar) : Parse Registrar := do
  let (ver, header) ← readPreamble crypto reg
  if header.version ≤ reg.header.version then return reg
  else readTables reg ver header

def grDeserialize (crypto : Crypto) (reg : Registrar) (data : List Byte) :
    Except GrError Registrar :=
  ((readFull crypto reg).run data).map Prod.fst

structure FullRows where
  peers : List Peer
  roles : List Role
  webapps : List Webapp
  signaling : List Server
  rebroadcast : List Server
  epochs : List Epoch
  entries : List AuditEntry

def readRows (r : Reader α) : Reader (List α) := do
  let n ← readU32
  readMany r n.toNat

def readFullRows (ver : ℕ) : Reader FullRows := do
  let peers ← readRows dePeer
  let roles ← readRows (deRole ver)
  let webapps ← readRows (deWebapp ver)
  let signaling ← readRows deServer
  let rebroadcast ← readRows deServer
  let epochs ← readRows deEpoch
  let entries ← readRows (deAudit ver)
  return { peers, roles, webapps, signaling, rebroadcast, epochs, entries }

structure FullRows.Distinct (rows : FullRows) : Prop where
  peers : (rows.peers.map Peer.peerId).Nodup
  roles : (rows.roles.map Role.roleId).Nodup
  webapps : (rows.webapps.map Webapp.hash).Nodup
  servers : ((rows.signaling ++ rows.rebroadcast).map Server.idHash).Nodup
  epochs : (rows.epochs.map Epoch.epochId).Nodup

/-- The bytes pass every check and are newer than the registrar; `rows` is what they carry. -/
structure Installs (crypto : Crypto) (reg : Registrar) (data : List Byte) (rows : FullRows) :
    Prop where
  distinct : rows.Distinct
  read : ∃ ver header body rest, (readPreamble crypto reg).run data = .ok ((ver, header), body) ∧
    reg.header.version < header.version ∧ (readFullRows ver).run body = some (rows, rest)

structure Installed (header : Header) (rows : FullRows) (reg : Registrar) : Prop where
  header : reg.header = header
  peers : reg.peers.rows = rows.peers
  roles : reg.roles.rows = rows.roles
  webapps : reg.webapps.rows = rows.webapps
  servers : reg.servers.rows = rows.signaling ++ rows.rebroadcast
  epochs : reg.epochs.rows = rows.epochs
  auditLog : reg.auditLog = Table.empty.insertMissing rows.entries

/-- The same rows in the four tables that hold the decisions of the group. -/
structure SameTables (reg reg' : Registrar) : Prop where
  peers : ∀ p, p ∈ reg'.peers.rows ↔ p ∈ reg.peers.rows
  roles : ∀ r, r ∈ reg'.roles.rows ↔ r ∈ reg.roles.rows
  epochs : ∀ e, e ∈ reg'.epochs.rows ↔ e ∈ reg.epochs.rows
  auditLog : ∀ e, e ∈ reg'.auditLog.rows ↔ e ∈ reg.auditLog.rows

/-- The blob carries what the registrar has; of entries with one hash the first counts. -/
structure FullRows.Matches (rows : FullRows) (reg : Registrar) : Prop where
  peers : ∀ p, p ∈ rows.peers ↔ p ∈ reg.peers.rows
  roles : ∀ r, r ∈ rows.roles ↔ r ∈ reg.roles.rows
  epochs : ∀ e, e ∈ rows.epochs ↔ e ∈ reg.epochs.rows
  entries : ∀ e, rows.entries.find? (fun a => a.entryHash = e.entryHash) = some e ↔
    e ∈ reg.auditLog.rows

theorem parse_ok {r : Reader α} : (parse r).run s = .ok x ↔ r.run s = some x :=
  orThrow_eq_ok

theorem bind_ok {x : Parse α} {f : α → Parse β} : (x >>= f).run s = .ok y ↔
    ∃ a s', x.run s = .ok (a, s') ∧ (f a).run s' = .ok y := by
  rw [StateT.run_bind]
  cases h : x.run s with
  | error e =>
    refine ⟨nofun, ?_⟩
    rintro ⟨a, s', ha, _⟩
    cases ha
  | ok v =>
    constructor
    · intro hf
      exact ⟨v.1, v.2, rfl, hf⟩
    · rintro ⟨a, s', ha, hf⟩
      obtain rfl := Except.ok.inj ha
      exact hf

theorem bind_some {x : Reader α} {f : α → Reader β} : (x >>= f).run s = some y ↔
    ∃ a s', x.run s = some (a, s') ∧ (f a).run s' = some y := by
  rw [StateT.run_bind]
  constructor
  · intro h
    obtain ⟨v, hv, hf⟩ := Option.bind_eq_some_iff.mp h
    exact ⟨v.1, v.2, hv, hf⟩
  · rintro ⟨a, s', ha, hf⟩
    exact Option.bind_eq_some_iff.mpr ⟨(a, s'), ha, hf⟩

section Install

variable {α : Type} {κ : Type} {key : α → κ} {r : Reader α}
  {ins : Table key → α → Option (Table key)} {t t' : Table key}

theorem installMany_ok (n : ℕ) : (installMany r ins n t).run s = .ok (t', s') ↔
    ∃ l, (readMany r n).run s = some (l, s') ∧ l.foldlM ins t = some t' := by
  induction n generalizing t s with
  | zero =>
    simp only [installMany, readMany, StateT.run_pure]
    constructor
    · intro h
      obtain ⟨rfl, rfl⟩ := Prod.mk.inj (Except.ok.inj h)
      exact ⟨[], rfl, rfl⟩
    · rintro ⟨l, hl, hf⟩
      obtain ⟨rfl, rfl⟩ := Prod.mk.inj (Option.some.inj hl)
      obtain rfl := Option.some.inj hf
      rfl
  | succ n ih =>
    rw [installMany, readMany, bind_ok]
    simp only [parse_ok, bind_some, StateT.run_pure]
    constructor
    · rintro ⟨a, s₁, ha, h⟩
      cases hi : ins t a with
      | none =>
        rw [hi] at h
        cases h
      | some t₁ =>
        rw [hi] at h
        obtain ⟨l, hl, hf⟩ := ih.mp h
        refine ⟨a :: l, ⟨a, s₁, ha, l, s', hl, rfl⟩, ?_⟩
        rw [List.foldlM_cons, hi]
        exact hf
    · rintro ⟨_, ⟨a, s₁, ha, l, s₂, hl, he⟩, hf⟩
      obtain ⟨rfl, rfl⟩ := Prod.mk.inj (Option.some.inj he)
      rw [List.foldlM_cons] at hf
      obtain ⟨t₁, hi, hf⟩ := Option.bind_eq_some_iff.mp hf
      refine ⟨a, s₁, ha, ?_⟩
      rw [hi]
      exact ih.mpr ⟨l, hl, hf⟩

theorem install_ok : (install r ins t).run s = .ok (t', s') ↔
    ∃ l, (readRows r).run s = some (l, s') ∧ l.foldlM ins t = some t' := by
  rw [install, bind_ok]
  simp only [parse_ok, installMany_ok, readRows, bind_some]
  constructor
  · rintro ⟨n, s₁, hn, l, hl, hf⟩
    exact ⟨l, ⟨n, s₁, hn, hl⟩, hf⟩
  · rintro ⟨l, ⟨n, s₁, hn, hl⟩, hf⟩
    exact ⟨n, s₁, hn, l, hl, hf⟩

variable [DecidableEq κ]

theorem foldlM_insert? (l : List α) : l.foldlM Table.insert? t = t.insertAll? l := by
  induction l generalizing t with
  | nil => rfl
  | cons a l ih =>
    rw [List.foldlM_cons, Table.insertAll?]
    exact congrArg _ (funext fun t => ih)

theorem foldlM_insertIgnore (l : List α) :
    l.foldlM (fun (t : Table key) a => some (t.insertIgnore a)) t = some (t.insertMissing l) := by
  induction l generalizing t with
  | nil => rfl
  | cons a l ih => exact ih

theorem install_insert?_ok : (install r Table.insert? Table.empty).run s = .ok (t', s') ↔
    (readRows r).run s = some (t'.rows, s') := by
  rw [install_ok]
  simp only [foldlM_insert?, Table.insertAll?_empty]
  constructor
  · rintro ⟨l, hl, rfl⟩
    exact hl
  · intro h
    exact ⟨_, h, rfl⟩

theorem install_more_ok : (install r Table.insert? t).run s = .ok (t', s') ↔
    ∃ l, (readRows r).run s = some (l, s') ∧ t'.rows = t.rows ++ l := by
  rw [install_ok]
  simp only [foldlM_insert?]
  constructor
  · rintro ⟨l, hl, h⟩
    exact ⟨l, hl, Table.rows_insertAll? l h⟩
  · rintro ⟨l, hl, h⟩
    exact ⟨l, hl, Table.insertAll?_of_rows l h⟩

theorem install_ignore_ok :
    (install r (fun t a => some (t.insertIgnore a)) (Table.empty : Table key)).run s = .ok (t', s') ↔
      ∃ l, (readRows r).run s = some (l, s') ∧ t' = Table.empty.insertMissing l := by
  rw [install_ok]
  simp only [foldlM_insertIgnore, Option.some.injEq, eq_comm]

end Install

theorem readTables_rows (h : (readTables reg ver header).run s = .ok (reg', rest)) :
    ∃ rows, (readFullRows ver).run s = some (rows, rest) ∧ rows.Distinct ∧
      Installed header rows reg' := by
  unfold readTables at h
  simp only [bind_ok, install_insert?_ok, install_ignore_ok] at h
  simp only [install_more_ok] at h
  obtain ⟨peers, s₁, h₁, roles, s₂, h₂, webapps, s₃, h₃, signaling, s₄, h₄, servers, s₅,
    ⟨more, h₅, hservers⟩, epochs, s₆, h₆, log, s₇, ⟨entries, h₇, rfl⟩, h⟩ := h
  obtain ⟨rfl, rfl⟩ := Prod.mk.inj (Except.ok.inj h)
  refine ⟨⟨peers.rows, roles.rows, webapps.rows, signaling.rows, more, epochs.rows, entries⟩,
    ?_, ⟨peers.nodup, roles.nodup, webapps.nodup, hservers ▸ servers.nodup, epochs.nodup⟩,
    ⟨rfl, rfl, rfl, rfl, hservers, rfl, rfl⟩⟩
  simp only [readFullRows, bind_some]
  exact ⟨_, _, h₁, _, _, h₂, _, _, h₃, _, _, h₄, _, _, h₅, _, _, h₆, _, _, h₇, rfl⟩

theorem readTables_of_distinct (reg : Registrar) (header : Header)
    (hread : (readFullRows ver).run s = some (rows, rest))
    (hd : rows.Distinct) : ∃ reg', (readTables reg ver header).run s = .ok (reg', rest) := by
  simp only [readFullRows, bind_some] at hread
  obtain ⟨peers, s₁, h₁, roles, s₂, h₂, webapps, s₃, h₃, signaling, s₄, h₄, more, s₅, h₅,
    epochs, s₆, h₆, entries, s₇, h₇, h⟩ := hread
  obtain ⟨rfl, rfl⟩ := Prod.mk.inj (Option.some.inj h)
  have hsig : (signaling.map Server.idHash).Nodup :=
    hd.servers.sublist ((List.sublist_append_left _ _).map _)
  unfold readTables
  simp only [bind_ok, install_insert?_ok, install_ignore_ok]
  simp only [install_more_ok]
  exact ⟨_, ⟨peers, hd.peers⟩, s₁, h₁, ⟨roles, hd.roles⟩, s₂, h₂, ⟨webapps, hd.webapps⟩, s₃, h₃,
    ⟨signaling, hsig⟩, s₄, h₄, ⟨signaling ++ more, hd.servers⟩, s₅, ⟨more, h₅, rfl⟩,
    ⟨epochs, hd.epochs⟩, s₆, h₆, _, s₇, ⟨entries, h₇, rfl⟩, rfl⟩

theorem grDeserialize_ok : grDeserialize crypto reg data = .ok reg' ↔
    ∃ rest, (readFull crypto reg).run data = .ok (reg', rest) := by
  unfold grDeserialize
  cases (readFull crypto reg).run data with
  | error e => exact ⟨nofun, nofun⟩
  | ok v =>
    constructor
    · intro h
      obtain rfl := Except.ok.inj h
      exact ⟨v.2, rfl⟩
    · rintro ⟨rest, h⟩
      obtain rfl := Except.ok.inj h
      rfl

theorem grDeserialize_newer (hpre : (readPreamble crypto reg).run data = .ok ((ver, header), body))
    (hnew : reg.header.version < header.version) : grDeserialize crypto reg data = .ok reg' ↔
      ∃ rest, (readTables reg ver header).run body = .ok (reg', rest) := by
  have hver : ¬ header.version ≤ reg.header.version := BitVec.not_le.mpr hnew
  simp only [grDeserialize_ok, readFull, bind_ok, hpre, Except.ok.injEq, Prod.mk.injEq]
  constructor
  · rintro ⟨rest, _, _, ⟨rfl, rfl⟩, h⟩
    rw [if_neg hver] at h
    exact ⟨rest, h⟩
  · rintro ⟨rest, h⟩
    refine ⟨rest, (ver, header), body, ⟨rfl, rfl⟩, ?_⟩
    rw [if_neg hver]
    exact h

theorem grDeserialize_cases (h : grDeserialize crypto reg data = .ok reg') : reg' = reg ∨
    ∃ rows, Installs crypto reg data rows ∧
      reg'.peers.rows = rows.peers ∧ reg'.roles.rows = rows.roles ∧
      reg'.epochs.rows = rows.epochs ∧ reg'.auditLog = Table.empty.insertMissing rows.entries := by
  obtain ⟨rest, h⟩ := grDeserialize_ok.mp h
  rw [readFull, bind_ok] at h
  obtain ⟨⟨ver, header⟩, body, hpre, h⟩ := h
  by_cases hver : header.version ≤ reg.header.version
  · simp only [hver, ↓reduceIte] at h
    exact .inl (Prod.mk.inj (Except.ok.inj h)).1.symm
  · simp only [hver, ↓reduceIte] at h
    obtain ⟨rows, hread, hd, hin⟩ := readTables_rows h
    exact .inr ⟨rows, ⟨hd, ver, header, body, rest, hpre, BitVec.not_le.mp hver, hread⟩, hin.peers,
      hin.roles, hin.epochs, hin.auditLog⟩

theorem Installs.ok (h : Installs crypto reg data rows) : ∃ reg',
    grDeserialize crypto reg data = .ok reg' ∧
      reg'.peers.rows = rows.peers ∧ reg'.roles.rows = rows.roles ∧
      reg'.epochs.rows = rows.epochs ∧ reg'.auditLog = Table.empty.insertMissing rows.entries := by
  obtain ⟨hd, ver, header, body, rest, hpre, hver, hread⟩ := h
  obtain ⟨reg', hreg'⟩ := readTables_of_distinct reg header hread hd
  obtain ⟨rows', hread', _, hin⟩ := readTables_rows hreg'
  rw [hread] at hread'
  obtain ⟨rfl, _⟩ := Prod.mk.inj (Option.some.inj hread')
  exact ⟨reg', (grDeserialize_newer hpre hver).mpr ⟨rest, hreg'⟩, hin.peers, hin.roles, hin.epochs,
    hin.auditLog⟩

theorem mem_insertMissing_empty (l : List AuditEntry) (e : AuditEntry) :
    e ∈ (Table.empty.insertMissing l : AuditLog).rows ↔
      l.find? (fun a => a.entryHash = e.entryHash) = some e := by
  have : e ∈ (Table.empty.insertMissing l : AuditLog).rows ↔
      (Table.empty.insertMissing l : AuditLog).find? e.entryHash = some e :=
    ⟨Table.find?_of_mem, Table.mem_of_find?⟩
  rw [this, Table.find?_insertMissing]
  rfl

theorem matches_iff_sameTables {rows : FullRows} (hpeers : reg'.peers.rows = rows.peers)
    (hroles : reg'.roles.rows = rows.roles) (hepochs : reg'.epochs.rows = rows.epochs)
    (hlog : reg'.auditLog = Table.empty.insertMissing rows.entries) :
    rows.Matches reg ↔ SameTables reg reg' := by
  have hlog' : ∀ e, e ∈ reg'.auditLog.rows ↔
      rows.entries.find? (fun a => a.entryHash = e.entryHash) = some e := by
    rw [hlog]
    exact mem_insertMissing_empty _
  constructor
  · rintro ⟨h₁, h₂, h₃, h₄⟩
    exact ⟨fun p => by rw [hpeers, h₁], fun r => by rw [hroles, h₂], fun e => by rw [hepochs, h₃],
      fun e => by rw [hlog', h₄]⟩
  · rintro ⟨h₁, h₂, h₃, h₄⟩
    exact ⟨fun p => by rw [← hpeers, h₁], fun r => by rw [← hroles, h₂],
      fun e => by rw [← hepochs, h₃], fun e => by rw [← hlog', h₄]⟩

/-- A blob leaves the tables alone exactly when it is refused, not newer, or carries these same
tables. Nothing in it has to be signed by a member. -/
theorem full_sync_unchanged_iff :
    (∀ reg', grDeserialize crypto reg data = .ok reg' → SameTables reg reg') ↔
      ∀ rows, Installs crypto reg data rows → rows.Matches reg := by
  constructor
  · intro h rows hrows
    obtain ⟨reg', hok, hpeers, hroles, hepochs, hlog⟩ := hrows.ok
    exact (matches_iff_sameTables hpeers hroles hepochs hlog).mpr (h reg' hok)
  · intro h reg' hok
    rcases grDeserialize_cases hok with rfl | ⟨rows, hrows, hpeers, hroles, hepochs, hlog⟩
    · exact ⟨fun _ => .rfl, fun _ => .rfl, fun _ => .rfl, fun _ => .rfl⟩
    · exact (matches_iff_sameTables hpeers hroles hepochs hlog).mp (h rows hrows)

section RoundTrip

theorem readRows_bind {r : Reader β} {ser : α → List Byte} (g : α → β)
    (hr : ∀ a s, r.run (ser a ++ s) = some (g a, s)) (l : List α) (hl : l.length < 2 ^ 32)
    (s : List Byte) (f : List β → Reader γ) :
    (readRows r >>= f).run (serCounted ser l ++ s) = (f (l.map g)).run s := by
  have hlen : (BitVec.ofNat 32 l.length).toNat = l.length := by
    rw [BitVec.toNat_ofNat]
    exact Nat.mod_eq_of_lt hl
  rw [readRows, bind_assoc, serCounted, List.append_assoc,
    run_bind_of _ (readLe_append _ _ (by norm_num)), hlen, run_bind_of _ (readMany_append g l s hr)]

def serTables (reg : Registrar) (mode : SerializeMode) : List Byte :=
  serCounted serPeer (stateOf reg).peers ++ (serCounted serRole (stateOf reg).roles ++
    (serCounted serWebapp (stateOf reg).webapps ++
    (serCounted (serServer mode) (stateOf reg).signaling ++
    (serCounted (serServer mode) (stateOf reg).rebroadcast ++
    (serCounted serEpoch (stateOf reg).epochs ++
    (writeU32 (BitVec.ofNat 32 reg.auditLog.rows.length) ++ (auditList reg).flatMap serAudit))))))

theorem grSerialize_eq (reg : Registrar) (mode : SerializeMode) : grSerialize reg mode =
    serialMagic ++ (writeU32 (BitVec.ofNat 32 serialVersion) ++ (writeU8 mode.code ++
      (serHeader reg.header ++ serTables reg mode))) := by
  simp only [grSerialize, serTables, List.append_assoc]

theorem readPreamble_grSerialize_eq (crypto : Crypto) (reg sender : Registrar) (mode : SerializeMode) :
    (readPreamble crypto reg).run (grSerialize sender mode) =
      if ¬ crypto.verify sender.header.signature sender.header.hash sender.header.signerSignKey then
        .error .signatureInvalid
      else if sender.header.ownerSignKey ≠ reg.header.ownerSignKey then .error .unauthorized
      else .ok ((4, sender.header), serTables sender mode) := by
  have hmagic : ∀ s, (readBytes 4).run (serialMagic ++ s) = some (⟨serialMagic, rfl⟩, s) :=
    readBytes_append ⟨serialMagic, rfl⟩
  have hver : (BitVec.ofNat 32 serialVersion).toNat = 4 := rfl
  rw [readPreamble, grSerialize_eq, parse_bind _ (hmagic _)]
  simp only [ne_eq, not_true, ↓reduceIte]
  rw [parse_bind _ (readLe_append _ _ (by norm_num))]
  simp only [hver, show ¬ 4 > serialVersion by decide, ↓reduceIte]
  rw [parse_bind _ (readLe_append _ _ (by norm_num)), parse_bind _ (deHeader_ser _ _)]
  by_cases hverify : crypto.verify sender.header.signature sender.header.hash
      sender.header.signerSignKey
  · by_cases howner : sender.header.ownerSignKey = reg.header.ownerSignKey
    · simp only [hverify, howner, not_true, ↓reduceIte]
      rfl
    · simp only [hverify, howner, not_true, not_false_eq_true, ↓reduceIte]
      rfl
  · simp only [hverify]
    rfl

theorem readPreamble_grSerialize {crypto : Crypto} {reg sender : Registrar} (mode : SerializeMode)
    (hverify : crypto.verify sender.header.signature sender.header.hash
      sender.header.signerSignKey = true)
    (howner : sender.header.ownerSignKey = reg.header.ownerSignKey) :
    (readPreamble crypto reg).run (grSerialize sender mode) =
      .ok ((4, sender.header), serTables sender mode) := by
  rw [readPreamble_grSerialize_eq, if_neg (not_not.mpr hverify), if_neg (not_not.mpr howner)]

theorem grDeserialize_foreign {crypto : Crypto} {reg sender : Registrar} (mode : SerializeMode)
    (hverify : crypto.verify sender.header.signature sender.header.hash
      sender.header.signerSignKey = true)
    (howner : sender.header.ownerSignKey ≠ reg.header.ownerSignKey) :
    grDeserialize crypto reg (grSerialize sender mode) = .error .unauthorized := by
  rw [grDeserialize, readFull, StateT.run_bind, readPreamble_grSerialize_eq,
    if_neg (not_not.mpr hverify), if_pos howner]
  rfl

def rowsOf (reg : Registrar) (mode : SerializeMode) : FullRows where
  peers := (stateOf reg).peers
  roles := (stateOf reg).roles
  webapps := (stateOf reg).webapps
  signaling := (stateOf reg).signaling.map (Server.shown mode)
  rebroadcast := (stateOf reg).rebroadcast.map (Server.shown mode)
  epochs := (stateOf reg).epochs
  entries := auditList reg

theorem readFullRows_serTables_log {reg : Registrar} (mode : SerializeMode)
    (hc : Counted (stateOf reg) reg.auditLog.rows) :
    (readFullRows 4).run (serTables reg mode) =
      ((readRows (deAudit 4)).run (writeU32 (BitVec.ofNat 32 reg.auditLog.rows.length) ++
        (auditList reg).flatMap serAudit)).map fun r => ({ rowsOf reg mode with entries := r.1 }, r.2) := by
  rw [readFullRows, serTables, readRows_bind id (fun p s => dePeer_ser s p) _ hc.peers,
    readRows_bind id (fun r s => deRole_ser s r) _ hc.roles,
    readRows_bind id (fun w s => deWebapp_ser s w) _ hc.webapps,
    readRows_bind (Server.shown mode) (fun v s => deServer_ser s mode v) _ hc.signaling,
    readRows_bind (Server.shown mode) (fun v s => deServer_ser s mode v) _ hc.rebroadcast,
    readRows_bind id (fun e s => deEpoch_ser s e) _ hc.epochs]
  simp only [List.map_id, StateT.run_bind]
  cases (readRows (deAudit 4)).run (writeU32 (BitVec.ofNat 32 reg.auditLog.rows.length) ++
    (auditList reg).flatMap serAudit) <;> rfl

theorem readFullRows_serTables {reg : Registrar} (mode : SerializeMode)
    (hc : Counted (stateOf reg) reg.auditLog.rows)
    (htime : ∀ e ∈ reg.auditLog.rows, 0 < e.timestamp.toInt) :
    (readFullRows 4).run (serTables reg mode) = some (rowsOf reg mode, []) := by
  have hlen : (auditList reg).length = reg.auditLog.rows.length := by
    rw [auditList, List.length_mergeSort, List.filter_eq_self.mpr]
    exact fun e he => by simpa using htime e he
  have hlog : writeU32 (BitVec.ofNat 32 reg.auditLog.rows.length) ++ (auditList reg).flatMap serAudit
      = serCounted serAudit (auditList reg) ++ [] := by
    rw [serCounted, hlen, List.append_nil]
  rw [readFullRows_serTables_log mode hc, hlog, ← bind_pure (readRows (deAudit 4)),
    readRows_bind id (fun a s => deAudit_ser s a) _ (hlen ▸ hc.entries), List.map_id]
  rfl

theorem header_of_grSerialize (h : grSerialize reg mode = grSerialize reg' mode') :
    reg.header = reg'.header := by
  have hread : ∀ (r : Registrar) (m : SerializeMode),
      deHeader.run ((grSerialize r m).drop 9) = some (r.header, serTables r m) := by
    intro r m
    have hnine : (serialMagic ++ writeU32 (BitVec.ofNat 32 serialVersion) ++
        writeU8 m.code).length = 9 := by simp [show serialMagic.length = 4 from rfl]
    rw [grSerialize_eq, ← List.append_assoc, ← List.append_assoc, List.drop_left' hnine,
      deHeader_ser]
  have := hread reg mode
  rw [h, hread reg' mode'] at this
  exact (Prod.mk.inj (Option.some.inj this)).1.symm

end RoundTrip

/-- The blob is of an author who holds `keys`, none of which has a permission or signs for the group: none
of those who sign for it made the blob, and what verifies in it does so under one of `keys`. -/
structure Outside (crypto : Crypto) (reg : Registrar) (data : List Byte) (keys : Set PublicKey)
    (honest : Registrar → Prop) : Prop where
  unprivileged : ∀ p, Unprivileged reg p keys
  signers : ∀ r, honest r → r.header.signerSignKey ∉ keys
  notSent : ∀ r mode, honest r → data ≠ grSerialize r mode
  header : ∀ ver h body, (readPreamble crypto reg).run data = .ok ((ver, h), body) →
    ∀ pk, crypto.verify h.signature h.hash pk = true → pk ∈ keys
  entries : ∀ rows, Installs crypto reg data rows → ∀ e ∈ rows.entries, ∀ pk,
    crypto.verify e.signature e.entryHash pk = true → pk ∈ keys

def emptied (crypto : Crypto) : Registrar where
  header := { (pairGroup crypto).header with version := 2, signerSignKey := outsider.publicKey }
  peers := Table.empty
  roles := Table.empty
  webapps := Table.empty
  servers := Table.empty
  epochs := Table.empty
  auditLog := Table.empty
  untrusted := false
  deltaAnomaly := none

variable {skein : List Byte → Hash}

theorem emptied_installs : Installs (onlySigner skein outsider) (pairGroup (onlySigner skein outsider))
    (grSerialize (emptied (onlySigner skein outsider)) .full)
    (rowsOf (emptied (onlySigner skein outsider)) .full) := by
  have hc : Counted (stateOf (emptied (onlySigner skein outsider)))
      (emptied (onlySigner skein outsider)).auditLog.rows := by
    constructor <;> simp [stateOf, serverList, emptied, Table.empty]
  refine ⟨?_, 4, _, _, [], readPreamble_grSerialize .full ?_ rfl, ?_,
    readFullRows_serTables .full hc ?_⟩
  · constructor <;> simp [rowsOf, stateOf, serverList, emptied, Table.empty]
  · simp [onlySigner, emptied]
  · exact (by decide : (1 : BitVec 32) < 2)
  · intro e he
    cases he

-- The owner's key in the header is all that ties the blob to the group.
theorem full_sync_unauthorized :
    ¬ ∃ skein : List Byte → Hash, ∀ (crypto : Crypto) (reg : Registrar) (data : List Byte) (keys : Set PublicKey)
      (honest : Registrar → Prop), crypto.skein = skein → Outside crypto reg data keys honest →
      ∀ reg', grDeserialize crypto reg data = .ok reg' → SameTables reg reg' := by
  rintro ⟨skein, h⟩
  obtain ⟨reg', hok, hpeers, _⟩ := (@emptied_installs skein).ok
  have hout : Outside (onlySigner skein outsider) (pairGroup (onlySigner skein outsider))
      (grSerialize (emptied (onlySigner skein outsider)) .full) {outsider.publicKey}
      (fun r => r.header.signerSignKey ≠ outsider.publicKey) := by
    refine ⟨fun _ => pairGroup_unprivileged, fun r hr => hr, ?_, ?_, ?_⟩
    · intro r mode hr hdata
      exact hr (congrArg Header.signerSignKey (header_of_grSerialize hdata)).symm
    · intro ver hd body _ pk hpk
      simpa [onlySigner] using hpk
    · intro rows _ e _ pk hpk
      simpa [onlySigner] using hpk
  have hsame := h _ _ _ _ _ rfl hout reg' hok
  have hmember := (hsame.peers _).mpr (Table.mem_of_find? pairGroup_member)
  rw [hpeers] at hmember
  cases hmember

end YumiBrowser.Group
