import YumiBrowser.Registrar.HeaderSeal

namespace YumiBrowser.Group

open Wire Keyed Fallible Transition

structure Attempt where
  op : Operation
  crypto : Crypto
  clk : Clock
  faults : Faults
  untrusted : Bool
  deltaAnomaly : Option (ℕ → I64 → DeltaAction)

namespace Attempt

def begin (a : Attempt) (s : Session) : Session :=
  { s with faults := a.faults, untrusted := a.untrusted, deltaAnomaly := a.deltaAnomaly }

def next (s : Session) (a : Attempt) : Session := after (a.op.run a.crypto a.clk) (a.begin s)

end Attempt

/-- What may happen to a registrar, the failures of its database included. -/
inductive Incident
  | attempt (a : Attempt)
  | reopen

namespace Incident

-- Closed, the connection undoes a transaction that is still open.
def next (s : Session) : Incident → Session
  | attempt a => a.next s
  | reopen => (grOpen (s.before.getD s.tables) s.header.groupId).toOption.getD s

def Orderly : Incident → Prop
  | attempt a => a.faults.Orderly
  | reopen => True

/-- A signing or an import that puts another hash or signature in the header. -/
def Reseals (s : Session) : Incident → Prop
  | attempt a => a.op.seals = true ∧ (a.next s).header.seal ≠ s.header.seal
  | reopen => False

end Incident

section Runs

variable {crypto : Crypto} {clk : Clock} {signer : Identity} {σ : Hash × Signature} {s u : Session}

theorem Session.Sealed.attempt (hs : s.Sealed σ) (a : Attempt) (hf : a.faults.Orderly)
    (ha : ¬ (Incident.attempt a).Reseals s) : (a.next s).Sealed σ := by
  have hbegin : (a.begin s).Steady σ :=
    ⟨⟨hs.header, hs.rows, within_congr (s := s) rfl rfl rfl hs.within⟩, hf⟩
  cases hop : a.op.seals with
  | false => exact ((keepsSeal_operation a.op hop σ).after hbegin).1
  | true =>
    have hseal : (a.next s).header.seal = σ := by
      by_contra hne
      exact ha ⟨hop, fun h => hne (h.trans hs.header)⟩
    have hcall : ∃ c, a.op = .call c := by
      cases hc : a.op with
      | call c => exact ⟨c, rfl⟩
      | auditAppend => cases hc ▸ hop
      | auditEnforceRetention => cases hc ▸ hop
      | groupIconSet => cases hc ▸ hop
      | groupIconRemove => cases hc ▸ hop
    obtain ⟨c, hc⟩ := hcall
    have hrun : a.op.run a.crypto a.clk = c.run a.crypto a.clk := hc ▸ rfl
    unfold Attempt.next at hseal ⊢
    rw [hrun] at hseal ⊢
    exact (bracketed_run c).resealed.after hbegin hseal

theorem sealed_grOpen {tables : Tables} (hrows : ∀ h ∈ tables.headers, h.seal = σ)
    (hopen : grOpen tables groupId = .ok s) : s.Sealed σ := by
  unfold grOpen Tables.loadHeader at hopen
  cases hheaders : tables.headers with
  | nil =>
    rw [hheaders] at hopen
    cases hopen
  | cons h hs =>
    rw [hheaders] at hopen
    dsimp only [List.head?_cons] at hopen
    rw [readHeader_bindHeaderFields] at hopen
    change (if h.groupId ≠ groupId then _ else _ : Except GrError Session) = _ at hopen
    split at hopen
    · cases hopen
    · cases hopen
      exact ⟨hrows h (hheaders ▸ List.mem_cons_self), hrows, .inl ⟨rfl, rfl⟩⟩

theorem Session.Sealed.reopen (hs : s.Sealed σ) : (Incident.next s .reopen).Sealed σ := by
  have hrows : ∀ h ∈ (s.before.getD s.tables).headers, h.seal = σ := by
    obtain hidle | hopen := hs.within
    · rw [hidle.2]
      exact hs.rows
    · obtain ⟨t, hbefore, hrows⟩ := hopen.rows
      rw [hbefore]
      exact hrows
  unfold Incident.next
  cases hopen : grOpen (s.before.getD s.tables) s.header.groupId with
  | ok t => exact sealed_grOpen hrows hopen
  | error e => exact hs

theorem Session.Sealed.next (hs : s.Sealed σ) (e : Incident) (hf : e.Orderly) (he : ¬ e.Reseals s) :
    (e.next s).Sealed σ := by
  cases e with
  | attempt a => exact hs.attempt a hf he
  | reopen => exact hs.reopen

theorem sealed_along (hs : s.Sealed σ) (es : List Incident) (hf : ∀ e ∈ es, e.Orderly)
    (hes : ∀ xs e ys, es = xs ++ e :: ys → ¬ e.Reseals (xs.foldl Incident.next s)) :
    (es.foldl Incident.next s).Sealed σ := by
  refine System.holds_along (I := Session.Sealed σ) (C := fun s e => e.Orderly ∧ ¬ e.Reseals s)
    (fun s e hs he => hs.next e he.1 he.2) hs es (fun xs e ys heq => ?_) es [] (List.append_nil es).symm
  exact ⟨hf e (heq ▸ List.mem_append_right xs List.mem_cons_self), hes xs e ys heq⟩

theorem ensures_sign (crypto : Crypto) (clk : Clock) (signer : Identity) :
    Ensures (fun _ => True) (Db.sign crypto clk signer)
      (fun _ s => (∃ g : Header, s.header = g.signed crypto signer) ∧ s.Durable) fun _ => True := by
  have hbody : Ensures (fun _ => True) (do
      appendDb crypto .registrarSigned signer none (ascii "registrar signed") clk.ns
      setHeader fun h => h.signed crypto signer
      headerSave)
      (fun _ s => (∃ g : Header, s.header = g.signed crypto signer) ∧ s.Durable) fun _ => True := by
    refine (ensures_trivial _).bind fun _ => ?_
    refine (ensures_modify (Q := fun _ s => ∃ g : Header, s.header = g.signed crypto signer) fun s _ => ?_).bind
      fun _ => ensures_headerSave_stores fun h => ∃ g : Header, h = g.signed crypto signer
    exact ⟨s.header, rfl⟩
  refine (ensures_trivial guardTrusted).bind fun _ => (ensures_trivial (guardPerm signer _)).bind fun _ => ?_
  refine (ensures_trivial txnBegin).bind fun _ => ensures_tryCatch (R := fun _ => True) ?_ fun e => ?_
  · refine hbody.bind fun _ => (ensures_modifyGet (Q := fun ok s => ok = true →
      (∃ g : Header, s.header = g.signed crypto signer) ∧ s.Durable) fun s hs hok => ?_).bind fun ok => ?_
    · rw [header_commit]
      exact ⟨hs.1, durable_commit hs.2 hok⟩
    · exact ensures_ite (fun hok => ensures_pure fun s hs => hs hok) fun _ => ensures_throw fun _ _ => trivial
  · exact (ensures_trivial txnRollback).bind fun _ => ensures_throw fun _ _ => trivial

theorem hashMatches_signed (crypto : Crypto) (h : Header) (signer : Identity) :
    (h.signed crypto signer).HashMatches crypto := rfl

theorem verify_signed (hkeys : ∀ m, crypto.verify (crypto.sign signer.secretKey m) m signer.publicKey = true)
    (h : Header) : crypto.verify (h.signed crypto signer).signature (h.signed crypto signer).hash
      (h.signed crypto signer).signerSignKey = true :=
  hkeys _

theorem grVerify_iff (s : Session) : grVerify crypto s.reg = true ↔ s.header.HashMatches crypto ∧
    crypto.verify s.header.signature s.header.hash s.header.signerSignKey = true :=
  decide_eq_true_iff

theorem idle_sign (crypto : Crypto) (clk : Clock) (signer : Identity) (hs : s.Idle) :
    (after (Db.sign crypto clk signer) s).Idle :=
  idle_run crypto clk (.sign signer) hs

/-- After a signing that went through, `gr_verify` succeeds, and from then on it does exactly where the header has
every field as it was signed, as long as no other signing and no import has put its own hash and signature in. The
keys of the signer are a pair, and the hash does not collide on the two headers. -/
theorem verifies_while_unchanged
    (hkeys : ∀ m, crypto.verify (crypto.sign signer.secretKey m) m signer.publicKey = true)
    (hsign : (Db.sign crypto clk signer).run s = .ok ⟨⟩ u) :
    grVerify crypto u.reg = true ∧
      (∀ h h' : Header, h.canonical = h'.canonical ↔ SameFields h h') ∧
      ∀ es : List Incident, s.Idle → (∀ e ∈ es, e.Orderly) →
        (∀ xs e ys, es = xs ++ e :: ys → ¬ e.Reseals (xs.foldl Incident.next u)) →
        let t := es.foldl Incident.next u
        (crypto.skein t.header.canonical = crypto.skein u.header.canonical →
          t.header.canonical = u.header.canonical) →
        (grVerify crypto t.reg = true ↔ SameFields t.header u.header) := by
  obtain ⟨⟨g, hsigned⟩, hdurable⟩ := (ensures_sign crypto clk signer s trivial).1 _ _ hsign
  have hmatch : u.header.HashMatches crypto := hsigned ▸ hashMatches_signed crypto g signer
  have hverify : crypto.verify u.header.signature u.header.hash u.header.signerSignKey = true :=
    hsigned ▸ verify_signed hkeys g
  refine ⟨(grVerify_iff u).mpr ⟨hmatch, hverify⟩, fun h h' => canonical_eq_iff, ?_⟩
  intro es hidle horderly hlater t hideal
  have hsealed : u.Sealed u.header.seal := by
    refine ⟨rfl, fun h hh => ?_, .inl ?_⟩
    · rw [hdurable] at hh
      rw [List.mem_singleton.mp hh]
    · have hafter := idle_sign crypto clk signer hidle
      rwa [after_ok hsign] at hafter
  obtain ⟨hhash, hsignature⟩ := Prod.mk.inj (sealed_along hsealed es horderly hlater).header
  rw [grVerify_iff, ← canonical_eq_iff]
  unfold Header.HashMatches
  constructor
  · rintro ⟨hmatches, _⟩
    exact hideal (hmatches.trans (hhash.trans hmatch.symm))
  · intro hsame
    refine ⟨?_, ?_⟩
    · rw [hsame, hhash]
      exact hmatch
    · rw [hsignature, hhash, (canonical_eq_iff.mp hsame).signerSignKey]
      exact hverify

end Runs

section Imported

variable {s : Session} {h : Header}

def versionHash (l : List Byte) : Hash :=
  prefixHash (((deCanonical.run l).map fun v => writeU32 v.1.version).getD [])

theorem version_of_versionHash {h h' : Header} (heq : versionHash h.canonical = versionHash h'.canonical) :
    h.version = h'.version := by
  have hread : ∀ h : Header, ((versionHash h.canonical).val.take 4) = writeU32 h.version := by
    intro h
    have hcanonical := deCanonical_canonical h []
    rw [List.append_nil] at hcanonical
    unfold versionHash
    rw [hcanonical]
    change ((writeU32 h.version ++ List.replicate 128 0).take 128).take 4 = _
    rw [List.take_take]
    exact List.take_left' (length_toLe 4 _)
  have hbytes := (hread h).symm.trans ((congrArg (fun b : Hash => b.val.take 4) heq).trans (hread h'))
  exact toLe_inj (by norm_num) hbytes

theorem run_sign_quiet (hq : s.Quiet) (htrusted : s.untrusted = false) (hown : s.header.ownerId = signer.peerId)
    (crypto : Crypto) (clk : Clock) : ∃ t, (Db.sign crypto clk signer).run s = .ok ⟨⟩ t ∧ t.header =
      (auditAppend crypto s.reg .registrarSigned signer none (ascii "registrar signed") clk.ns).header.signed
        crypto signer := by
  have htrust : guardTrusted.run s = .ok ⟨⟩ s := by
    have hget : (get : Db Session).run s = .ok s s := rfl
    unfold guardTrusted
    rw [run_bind_ok hget, htrusted]
    rfl
  have hf : s.begin.faults = .none := (faults_begin s).trans hq.faults
  have hd : s.begin.txnDepth = 1 := begin_of_idle hq.idle
  have hb : s.begin.before = some s.tables := by rw [begin_quiet hq]
  have hreg : s.begin.reg = s.reg := by
    rw [begin_quiet hq]
    rfl
  generalize hreg' : auditAppend crypto s.begin.reg .registrarSigned signer none (ascii "registrar signed") clk.ns =
    reg
  have happend := run_appendDb_quiet hf hd crypto .registrarSigned signer none (ascii "registrar signed") clk.ns
  rw [hreg'] at happend
  have hsave := run_headerSave_quiet
    (s := { s.begin.appended reg with header := reg.header.signed crypto signer }) hf hd
  have hbody := (run_bind_ok (f := fun _ => do setHeader fun h => h.signed crypto signer; headerSave) happend).trans
    ((run_bind_ok (run_setHeader _)).trans hsave)
  unfold Db.sign
  rw [run_bind_ok htrust, run_bind_ok (run_guardPerm_owner hown (by decide))]
  refine ⟨_, run_transact_quiet hbody hf hd hb, ?_⟩
  rw [← hreg, hreg']

def Session.cleared (s : Session) : Session :=
  { s with tables := { Tables.blank with invites := s.tables.invites, headers := s.tables.headers } }

theorem run_clearTables_quiet (hf : s.faults = .none) : clearTables.run s = .ok ⟨⟩ s.cleared := by
  have hempty : ∀ (edit : Session → Tables) {t : Session}, t.faults = .none →
      (execute fun s => some (edit s)).run t = .ok true { t with tables := edit t } :=
    fun edit t ht => run_execute_quiet ht rfl
  unfold clearTables
  rw [run_bind_ok (hempty _ hf), run_bind_ok (hempty _ ?_), run_bind_ok (hempty _ ?_), run_bind_ok (hempty _ ?_),
    run_bind_ok (hempty _ ?_), run_bind_ok (hempty _ ?_)]
  · rfl
  all_goals exact hf

theorem run_deserializeDb_bare (hq : s.Quiet) {crypto : Crypto}
    (hverify : crypto.verify h.signature h.hash h.signerSignKey = true)
    (howner : h.ownerSignKey = s.header.ownerSignKey) (hnewer : ¬ h.version ≤ s.header.version) :
    ∃ t, (deserializeDb crypto (grSerialize (bare h) .full)).run s = .ok ⟨⟩ t ∧ t.header = h := by
  have hget : (get : Db Session).run s = .ok s s := rfl
  have hpre : (readPreamble crypto s.reg).run (grSerialize (bare h) .full) = .ok ((4, h), serTables (bare h) .full) :=
    readPreamble_grSerialize .full hverify howner
  have hf : s.begin.faults = .none := (faults_begin s).trans hq.faults
  have hd : s.begin.txnDepth = 1 := begin_of_idle hq.idle
  have hb : s.begin.before = some s.tables := by rw [begin_quiet hq]
  have hclear := run_clearTables_quiet hf
  have hrows : serTables (bare h) .full = List.replicate 28 0 := by
    simp only [serTables, serCounted, stateOf, serverList, auditList, bare, Table.empty, List.filter_nil,
      List.mergeSort_nil]
    rfl
  have hinstall : ∀ s : Session, (installTables 4 (serTables (bare h) .full)).run s = .ok ⟨⟩ s := by
    intro s
    rw [hrows]
    rfl
  have hsave := run_headerSave_quiet (s := { s.begin.cleared with header := h }) hf hd
  have hbody := (run_bind_ok (f := fun _ => do
      installTables 4 (serTables (bare h) .full)
      setHeader fun _ => h
      headerSave) hclear).trans
    ((run_bind_ok (hinstall _)).trans ((run_bind_ok (run_setHeader _)).trans hsave))
  unfold deserializeDb
  rw [run_bind_ok hget, hpre]
  dsimp only
  rw [if_neg hnewer]
  exact ⟨_, run_transact_quiet hbody hf hd hb, rfl⟩

def importOf (crypto : Crypto) (h : Header) : Attempt where
  op := .call (.deserialize (grSerialize (bare h) .full))
  crypto := crypto
  clk := ⟨3, 3000000⟩
  faults := .none
  untrusted := false
  deltaAnomaly := none

theorem header_importOf (hidle : s.Idle) {crypto : Crypto}
    (hverify : crypto.verify h.signature h.hash h.signerSignKey = true)
    (howner : h.ownerSignKey = s.header.ownerSignKey) (hnewer : ¬ h.version ≤ s.header.version) :
    ((importOf crypto h).next s).header = h := by
  have hquiet : ((importOf crypto h).begin s).Quiet := ⟨hidle, rfl⟩
  obtain ⟨t, hrun, ht⟩ := run_deserializeDb_bare hquiet hverify howner hnewer
  have hafter : (importOf crypto h).next s = t := after_ok hrun
  rw [hafter]
  exact ht

theorem header_reopen (hs : s.Durable) (hidle : s.Idle) : (Incident.next s .reopen).header = s.header := by
  have hbefore : s.before.getD s.tables = s.tables := by
    rw [hidle.2]
    rfl
  unfold Incident.next
  rw [hbefore, grOpen_durable hs]
  rfl

def openedGroup (skein : List Byte → Hash) : Session :=
  { Session.connected { Tables.blank.store (createdGroup skein) with headers := [(createdGroup skein).header] } with
    header := (createdGroup skein).header }

theorem quiet_openedGroup (skein : List Byte → Hash) : (openedGroup skein).Quiet := ⟨⟨rfl, rfl⟩, rfl⟩

def signedSession : Session :=
  after (Db.sign (onlySigner versionHash (member 1)) ⟨2, 2000000⟩ (member 1)) (openedGroup versionHash)

theorem run_sign_openedGroup : (Db.sign (onlySigner versionHash (member 1)) ⟨2, 2000000⟩ (member 1)).run
    (openedGroup versionHash) = .ok ⟨⟩ signedSession ∧ signedSession.header.version = 3 := by
  have hown : (openedGroup versionHash).header.ownerId = (member 1).peerId := rfl
  obtain ⟨t, hrun, hheader⟩ := run_sign_quiet (quiet_openedGroup versionHash) rfl hown
    (onlySigner versionHash (member 1)) ⟨2, 2000000⟩
  have hafter : signedSession = t := after_ok hrun
  rw [hafter, hheader]
  exact ⟨hrun, rfl⟩

theorem idle_signedSession : signedSession.Idle :=
  idle_sign (onlySigner versionHash (member 1)) ⟨2, 2000000⟩ (member 1) (quiet_openedGroup versionHash).idle

theorem header_next_around {a : Attempt} (ha : Leaves Session.around (a.op.run a.crypto a.clk))
    (hrows : Leaves Session.headers (a.op.run a.crypto a.clk)) (hs : s.Durable) (hidle : s.Idle) :
    (a.next s).header = s.header ∧ (a.next s).Durable ∧ (a.next s).Idle := by
  have hbegin : (a.begin s).Durable := hs
  exact ⟨header_around ha (a.begin s), durable_of_leaves (header_around ha) hrows hbegin, idle_around ha hidle⟩

def routine (op : Operation) : Attempt where
  op := op
  crypto := onlySigner versionHash (member 1)
  clk := ⟨3, 3000000⟩
  faults := .none
  untrusted := false
  deltaAnomaly := none

def routineRun : List Incident :=
  [.attempt (routine (.call (.peerTouch (member 1).peerId))), .attempt (routine .auditEnforceRetention), .reopen]

theorem header_routineRun (hs : s.Durable) (hidle : s.Idle) :
    (routineRun.foldl Incident.next s).header = s.header := by
  obtain ⟨htouched, hd, hi⟩ := header_next_around (a := routine (.call (.peerTouch (member 1).peerId)))
    around_statement (apart_statement apart_headers fun s t h => Option.some.inj h ▸ rfl) hs hidle
  obtain ⟨hpruned, hd', hi'⟩ := header_next_around (a := routine .auditEnforceRetention)
    around_enforceRetentionDb (apart_enforceRetentionDb apart_headers) hd hi
  exact (header_reopen hd' hi').trans (hpruned.trans htouched)

theorem verifies_while_unchanged_routine :
    grVerify (onlySigner versionHash (member 1)) signedSession.reg = true ∧
      (grVerify (onlySigner versionHash (member 1)) (routineRun.foldl Incident.next signedSession).reg = true ↔
        SameFields (routineRun.foldl Incident.next signedSession).header signedSession.header) := by
  have hrun := run_sign_openedGroup.1
  have hidle := idle_signedSession
  have hkeys : ∀ m, (onlySigner versionHash (member 1)).verify
      ((onlySigner versionHash (member 1)).sign (member 1).secretKey m) m (member 1).publicKey = true :=
    fun _ => onlySigner_verify
  generalize signedSession = u at hrun hidle ⊢
  generalize onlySigner versionHash (member 1) = crypto at hrun hkeys ⊢
  obtain ⟨hverify, _, hruns⟩ := verifies_while_unchanged hkeys hrun
  have hheader := header_routineRun ((ensures_sign _ _ _ _ trivial).1 _ _ hrun).2 hidle
  have hreseals : System.Enables (fun s e => ¬ Incident.Reseals s e) Incident.next u routineRun :=
    ⟨fun h => Bool.false_ne_true h.1, fun h => Bool.false_ne_true h.1, id, trivial⟩
  refine ⟨hverify, hruns routineRun (quiet_openedGroup versionHash).idle (fun e he => ?_)
    (hreseals.along routineRun) fun _ => congrArg Header.canonical hheader⟩
  rcases List.mem_cons.mp he with rfl | he
  · exact ⟨rfl, nofun⟩
  rcases List.mem_cons.mp he with rfl | he
  · exact ⟨rfl, nofun⟩
  · rw [List.mem_singleton.mp he]
    trivial

def laterHeader (crypto : Crypto) (signer : Identity) (h : Header) : Header :=
  ({ h with version := 7 } : Header).signed crypto signer

theorem importOf_verifies {signer : Identity} {u : Session} (hidle : u.Idle) (hversion : u.header.version = 3)
    (hkeys : ∀ m, crypto.verify (crypto.sign signer.secretKey m) m signer.publicKey = true) :
    ∃ e : Incident, e.Orderly ∧ (e.next u).header.version ≠ u.header.version ∧
      grVerify crypto (e.next u).reg = true := by
  generalize hlater : laterHeader crypto signer u.header = later
  have hseven : later.version = 7 := hlater ▸ rfl
  have hverify : crypto.verify later.signature later.hash later.signerSignKey = true :=
    hlater ▸ verify_signed hkeys { u.header with version := 7 }
  have hmatches : later.HashMatches crypto := hlater ▸ hashMatches_signed crypto _ signer
  have hnewer : ¬ later.version ≤ u.header.version := by
    rw [hseven, hversion]
    decide
  have himported : ((Incident.attempt (importOf crypto later)).next u).header = later :=
    header_importOf hidle hverify (hlater ▸ rfl) hnewer
  refine ⟨.attempt (importOf crypto later), ⟨rfl, nofun⟩, ?_⟩
  rw [grVerify_iff, himported, hseven, hversion]
  exact ⟨by decide, hmatches, hverify⟩

theorem import_verifies_changed : ¬ ∀ (crypto : Crypto) (clk : Clock) (signer : Identity) (s u : Session)
    (es : List Incident), (∀ m, crypto.verify (crypto.sign signer.secretKey m) m signer.publicKey = true) →
      (Db.sign crypto clk signer).run s = .ok ⟨⟩ u → s.Idle → (∀ e ∈ es, e.Orderly) →
      let t := es.foldl Incident.next u
      (crypto.skein t.header.canonical = crypto.skein u.header.canonical →
        t.header.canonical = u.header.canonical) →
      (grVerify crypto t.reg = true ↔ SameFields t.header u.header) := by
  intro hall
  obtain ⟨hrun, hthree⟩ := run_sign_openedGroup
  have hkeys : ∀ m, (onlySigner versionHash (member 1)).verify
      ((onlySigner versionHash (member 1)).sign (member 1).secretKey m) m (member 1).publicKey = true :=
    fun _ => onlySigner_verify
  obtain ⟨e, horderly, hversion, hvalid⟩ := importOf_verifies idle_signedSession hthree hkeys
  have hideal : versionHash (e.next signedSession).header.canonical = versionHash signedSession.header.canonical →
      (e.next signedSession).header.canonical = signedSession.header.canonical :=
    fun heq => absurd (version_of_versionHash heq) hversion
  have hiff := hall _ _ _ _ _ [e] hkeys hrun (quiet_openedGroup versionHash).idle
    (List.forall_mem_singleton.mpr horderly)
  dsimp only [List.foldl_cons, List.foldl_nil] at hiff
  exact hversion ((hiff hideal).mp hvalid).version

end Imported

end YumiBrowser.Group
