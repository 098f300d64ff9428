import YumiBrowser.Registrar.HeaderRuns

namespace YumiBrowser.Group

open Wire Keyed Fallible Transition

/-- What `gr_sign` writes besides the fields it signs. -/
def Header.seal (h : Header) : Hash × Signature := (h.hash, h.signature)

/-- The database takes each `BEGIN`, and no row of `gr_header` whose `DELETE` it refused. -/
def Faults.Orderly (f : Faults) : Prop := f.beginFails = false ∧ ∀ g ∈ f.saves, ¬ g.Stray

/-- A transaction is open, and rolling it back brings the seal `σ` back. -/
structure Session.Rewinds (σ : Hash × Signature) (s : Session) : Prop where
  opened : 0 < s.txnDepth
  header : s.savedHeader.seal = σ
  rows : ∃ t, s.before = some t ∧ ∀ h ∈ t.headers, h.seal = σ

/-- Every header that the handle shows, or may come to show, has the seal `σ`. -/
structure Session.Sealed (σ : Hash × Signature) (s : Session) : Prop where
  header : s.header.seal = σ
  rows : ∀ h ∈ s.tables.headers, h.seal = σ
  within : s.Idle ∨ s.Rewinds σ

def Session.Steady (σ : Hash × Signature) (s : Session) : Prop := s.Sealed σ ∧ s.faults.Orderly

section Transactions

variable {σ : Hash × Signature} {f : Faults} {s t : Session}

theorem Session.Rewinds.congr (hd : t.txnDepth = s.txnDepth) (hh : t.savedHeader = s.savedHeader)
    (hb : t.before = s.before) (hs : s.Rewinds σ) : t.Rewinds σ := by
  refine ⟨?_, ?_, ?_⟩
  · rw [hd]
    exact hs.opened
  · rw [hh]
    exact hs.header
  · rw [hb]
    exact hs.rows

theorem within_congr (hd : t.txnDepth = s.txnDepth) (hh : t.savedHeader = s.savedHeader)
    (hb : t.before = s.before) (hs : s.Idle ∨ s.Rewinds σ) : t.Idle ∨ t.Rewinds σ :=
  hs.imp (fun hidle => ⟨hd.trans hidle.1, hb.trans hidle.2⟩) (Session.Rewinds.congr hd hh hb)

theorem orderly_congr (h : t.faults.placed = s.faults.placed) (hs : s.faults.Orderly) : t.faults.Orderly := by
  have hbegin : t.faults.placed.beginFails = s.faults.placed.beginFails := congrArg Faults.beginFails h
  have hsaves : t.faults.placed.saves = s.faults.placed.saves := congrArg Faults.saves h
  exact ⟨hbegin.trans hs.1, fun g hg => hs.2 g (hsaves ▸ hg)⟩

theorem Session.Steady.congr (haround : t.around = s.around) (hrows : t.headers = s.headers) (hs : s.Steady σ) :
    t.Steady σ := by
  simp only [Session.around, Session.base, Prod.mk.injEq] at haround
  obtain ⟨hheader, hb, hh, hd, hf⟩ := haround
  refine ⟨⟨?_, ?_, within_congr hd hh hb hs.1.within⟩, orderly_congr hf hs.2⟩
  · rw [hheader]
    exact hs.1.header
  · change ∀ h ∈ t.headers, h.seal = σ
    rw [hrows]
    exact hs.1.rows

theorem Faults.Orderly.save (hf : f.Orderly) : ¬ f.save.Stray := by
  unfold Faults.save
  cases hsaves : f.saves with
  | nil => exact fun h => Bool.false_ne_true h.1
  | cons g gs => exact hf.2 g (hsaves ▸ List.mem_cons_self)

theorem orderly_saved (hf : s.faults.Orderly) : s.saved.faults.Orderly :=
  ⟨hf.1, fun g hg => hf.2 g (List.mem_of_mem_tail hg)⟩

theorem faults_begin (s : Session) : s.begin.faults = s.faults := by
  unfold Session.begin
  split <;> rfl

theorem faults_commit (s : Session) : s.commit.2.faults = s.faults := by
  unfold Session.commit
  split
  · rfl
  split
  · rfl
  split
  · rfl
  split <;> rfl

theorem faults_rollback (s : Session) : s.rollback.faults = s.faults := by
  unfold Session.rollback
  split <;> rfl

theorem Session.Rewinds.begin (hs : s.Rewinds σ) : s.begin.Rewinds σ ∧ 1 < s.begin.txnDepth := by
  have hbegin : s.begin = { s with txnDepth := s.txnDepth + 1 } := if_neg fun h => hs.opened.ne' h.1
  rw [hbegin]
  exact ⟨⟨Nat.succ_pos _, hs.header, hs.rows⟩, Nat.succ_lt_succ hs.opened⟩

theorem Session.Sealed.begin (hs : s.Sealed σ) (hf : s.faults.beginFails = false) :
    s.begin.Sealed σ ∧ s.begin.Rewinds σ := by
  obtain hidle | hopen := hs.within
  · have hbegin : s.begin = { s with before := some s.tables, savedHeader := s.header, txnDepth := 1 } :=
      if_pos ⟨hidle.1, hidle.2, hf⟩
    rw [hbegin]
    have hrewinds : Session.Rewinds σ
        { s with before := some s.tables, savedHeader := s.header, txnDepth := 1 } :=
      ⟨Nat.one_pos, hs.header, s.tables, rfl, hs.rows⟩
    exact ⟨⟨hs.header, hs.rows, .inr hrewinds⟩, hrewinds⟩
  · have hbegin : s.begin = { s with txnDepth := s.txnDepth + 1 } := if_neg fun h => hopen.opened.ne' h.1
    have hrewinds := hopen.begin.1
    rw [hbegin] at hrewinds ⊢
    exact ⟨⟨hs.header, hs.rows, .inr hrewinds⟩, hrewinds⟩

theorem Session.Rewinds.rollback (hs : s.Rewinds σ) : s.rollback.Sealed σ := by
  obtain ⟨t, hbefore, hrows⟩ := hs.rows
  have hback : s.rollback = { s with tables := t, before := none, header := s.savedHeader, txnDepth := 0 } := by
    unfold Session.rollback
    rw [if_neg hs.opened.ne', hbefore]
    rfl
  rw [hback]
  exact ⟨hs.header, hrows, .inl ⟨rfl, rfl⟩⟩

theorem Session.Sealed.rollback (hs : s.Sealed σ) : s.rollback.Sealed σ := by
  obtain hidle | hopen := hs.within
  · rw [rollback_of_idle hidle]
    exact hs
  · exact hopen.rollback

theorem Session.Rewinds.commit (hs : s.Rewinds σ) : s.commit.2.header = s.header ∧
    (s.commit.2.tables = s.tables ∨ s.commit.1 = false ∧ ∀ h ∈ s.commit.2.tables.headers, h.seal = σ) ∧
    (1 < s.txnDepth → s.commit.2.Rewinds σ) ∧ (s.commit.2.Idle ∨ s.commit.1 = true ∧ s.commit.2.Rewinds σ) := by
  obtain ⟨t, hbefore, hrows⟩ := hs.rows
  unfold Session.commit
  rw [if_neg hs.opened.ne']
  by_cases hdepth : 1 < s.txnDepth
  · rw [if_pos hdepth]
    have hrewinds : Session.Rewinds σ { s with txnDepth := s.txnDepth - 1 } :=
      ⟨Nat.sub_pos_of_lt hdepth, hs.header, hs.rows⟩
    exact ⟨rfl, .inl rfl, fun _ => hrewinds, .inr ⟨rfl, hrewinds⟩⟩
  · rw [if_neg hdepth, hbefore]
    cases s.faults.commitFails with
    | true => exact ⟨rfl, .inr ⟨rfl, hrows⟩, fun h => absurd h hdepth, .inl ⟨rfl, rfl⟩⟩
    | false => exact ⟨rfl, .inl rfl, fun h => absurd h hdepth, .inl ⟨rfl, rfl⟩⟩

theorem Session.Sealed.commit (hs : s.Sealed σ) : s.commit.2.Sealed σ := by
  obtain hidle | hopen := hs.within
  · have hcommit : s.commit.2 = s := by
      unfold Session.commit
      rw [if_pos hidle.1]
    rw [hcommit]
    exact hs
  · obtain ⟨hheader, htables, _, hwithin⟩ := hopen.commit
    refine ⟨hheader ▸ hs.header, ?_, hwithin.imp_right And.right⟩
    obtain hsame | ⟨_, hrows⟩ := htables
    · rw [hsame]
      exact hs.rows
    · exact hrows

end Transactions

def KeepsSeal (x : Db α) : Prop :=
  ∀ σ, Ensures (Session.Steady σ) x (fun _ => Session.Steady σ) (Session.Steady σ)

section Statements

variable {α β : Type} {x : Db α} {σ : Hash × Signature}

theorem KeepsSeal.bind {k : α → Db β} (hx : KeepsSeal x) (hk : ∀ a, KeepsSeal (k a)) : KeepsSeal (x >>= k) :=
  fun σ => (hx σ).bind fun a => hk a σ

theorem KeepsSeal.ite {p : Prop} [Decidable p] {y : Db α} (hx : p → KeepsSeal x) (hy : ¬ p → KeepsSeal y) :
    KeepsSeal (if p then x else y) :=
  fun σ => ensures_ite (fun h => hx h σ) fun h => hy h σ

theorem keepsSeal_pure (a : α) : KeepsSeal (pure a) := fun _ => ensures_pure fun _ hs => hs

theorem keepsSeal_throw (e : GrError) : KeepsSeal (throw e : Db α) := fun _ => ensures_throw fun _ hs => hs

theorem keepsSeal_get : KeepsSeal get := by
  intro σ
  have hview : Leaves (fun s : Session => s) (get : Db Session) := leaves_get
  exact ensures_of_leaves hview (p := Session.Steady σ)

theorem keepsSeal_around (hx : Leaves Session.around x) (hrows : Leaves Session.headers x) : KeepsSeal x := by
  intro σ s hs
  constructor
  · intro a t ht
    exact hs.congr (hx.ok ht) (hrows.ok ht)
  · intro e t ht
    exact hs.congr (hx.error ht) (hrows.error ht)

theorem keepsSeal_reads (hx : Leaves Session.frame x) : KeepsSeal x :=
  keepsSeal_around (reads_around hx) (headers_reads hx)

theorem keepsSeal_statement {edit : Session → Option Tables}
    (h : ∀ s t, edit s = some t → t.headers = s.tables.headers) : KeepsSeal (statement edit) :=
  keepsSeal_around around_statement (apart_statement apart_headers h)

theorem keepsSeal_update (edit : Registrar → Registrar) : KeepsSeal (update edit) := by
  refine keepsSeal_statement fun s t h => ?_
  obtain rfl := Option.some.inj h
  rfl

theorem keepsSeal_insert (edit : Registrar → Option Registrar) : KeepsSeal (insert edit) := by
  refine keepsSeal_statement fun s t h => ?_
  obtain ⟨reg, _, rfl⟩ := Option.map_eq_some_iff.mp h
  rfl

theorem keepsSeal_hitting (hit : Session → Bool) {edit : Session → Tables}
    (h : ∀ s, (edit s).headers = s.tables.headers) : KeepsSeal (Db.hitting hit edit) := by
  refine keepsSeal_get.bind fun _ => KeepsSeal.bind (keepsSeal_statement fun s t heq => ?_) fun _ =>
    keepsSeal_reads (reads_guardThat _ _)
  obtain rfl := Option.some.inj heq
  exact h s

theorem keepsSeal_setHeader {f : Header → Header} (h : ∀ g, (f g).seal = g.seal) : KeepsSeal (setHeader f) := by
  intro σ
  refine ensures_modify fun s hs => ?_
  obtain ⟨⟨hheader, hrows, hwithin⟩, hf⟩ := hs
  exact ⟨⟨(h s.header).trans hheader, hrows, within_congr (s := s) rfl rfl rfl hwithin⟩, hf⟩

theorem keepsSeal_setTables {edit : Session → Tables} (h : ∀ s, (edit s).headers = s.tables.headers) :
    KeepsSeal (modify fun s => { s with tables := edit s } : Db PUnit) :=
  keepsSeal_around (leaves_modify fun _ => rfl) (leaves_modify h)

theorem keepsSeal_txnBegin : KeepsSeal txnBegin := by
  intro σ
  exact ensures_modify fun s hs => ⟨(hs.1.begin hs.2.1).1, (faults_begin s).symm ▸ hs.2⟩

theorem keepsSeal_txnCommit : KeepsSeal txnCommit := by
  intro σ
  exact ensures_modifyGet fun s hs => ⟨hs.1.commit, (faults_commit s).symm ▸ hs.2⟩

theorem keepsSeal_txnRollback : KeepsSeal txnRollback := by
  intro σ
  exact ensures_modify fun s hs => ⟨hs.1.rollback, (faults_rollback s).symm ▸ hs.2⟩

theorem keepsSeal_bindHeader (ok : Bool) : KeepsSeal (bindHeader ok) :=
  keepsSeal_around (leaves_modify fun _ => rfl) (leaves_modify fun _ => rfl)

theorem keepsSeal_setHeaders {edit : Session → List Header} (h : ∀ s, ∀ g ∈ edit s, g = s.header) :
    KeepsSeal (setHeaders edit) := by
  intro σ
  refine ensures_modify fun s hs => ?_
  obtain ⟨⟨hheader, _, hwithin⟩, hf⟩ := hs
  refine ⟨⟨hheader, fun g hg => ?_, within_congr (s := s) rfl rfl rfl hwithin⟩, hf⟩
  rw [h s g hg]
  exact hheader

theorem ensures_takeSave : Ensures (Session.Steady σ) takeSave (fun f s => s.Steady σ ∧ ¬ f.Stray)
    (Session.Steady σ) := by
  refine ensures_modifyGet fun s hs => ?_
  exact ⟨⟨⟨hs.1.header, hs.1.rows, within_congr (s := s) rfl rfl rfl hs.1.within⟩, orderly_saved hs.2⟩, hs.2.save⟩

theorem keepsSeal_undone (e : GrError) : KeepsSeal (do txnRollback; throw e : Db α) :=
  keepsSeal_txnRollback.bind fun _ => keepsSeal_throw e

theorem keepsSeal_headerSave : KeepsSeal headerSave := by
  intro σ
  unfold headerSave
  refine (keepsSeal_txnBegin σ).bind fun _ => ensures_takeSave.bind fun f => .of_fact fun hstray => ?_
  refine ensures_ite (fun hdelete => ?_) fun _ => ?_
  · rw [insert_of_not_stray hstray hdelete]
    exact keepsSeal_undone .db σ
  · refine (KeepsSeal.bind (keepsSeal_setHeaders fun _ _ hg => ?_) fun _ => ?_) σ
    · cases hg
    refine (keepsSeal_bindHeader _).bind fun _ => .ite (fun _ => keepsSeal_throw _) fun _ => ?_
    refine .ite (fun _ => keepsSeal_undone .db) fun _ => ?_
    refine KeepsSeal.bind (keepsSeal_setHeaders fun _ _ hg => List.mem_singleton.mp hg) fun _ => ?_
    exact keepsSeal_txnCommit.bind fun _ => .ite (fun _ => keepsSeal_pure _) fun _ => keepsSeal_undone .db

theorem keepsSeal_enforceRetentionDb : KeepsSeal enforceRetentionDb :=
  keepsSeal_around around_enforceRetentionDb (apart_enforceRetentionDb apart_headers)

theorem keepsSeal_appendDb : KeepsSeal (appendDb crypto change actor target detail ns) := by
  unfold appendDb
  refine (keepsSeal_reads (reads_query id)).bind fun seen => keepsSeal_get.bind fun s => ?_
  refine KeepsSeal.bind (keepsSeal_setHeader (by intro; rfl)) fun _ => ?_
  refine .ite (fun _ => keepsSeal_throw _) fun _ => ?_
  refine KeepsSeal.bind (keepsSeal_setTables (by intro; rfl)) fun _ => ?_
  refine KeepsSeal.bind (keepsSeal_setHeader (by intro; rfl)) fun _ => ?_
  exact keepsSeal_headerSave.bind fun _ => keepsSeal_enforceRetentionDb

theorem keepsSeal_transact {body : Db α} (h : KeepsSeal body) : KeepsSeal (transact body) := by
  have hcommitted : KeepsSeal (do
      let a ← body
      if ← txnCommit then pure a else throw .db) :=
    h.bind fun a => keepsSeal_txnCommit.bind fun _ => .ite (fun _ => keepsSeal_pure a) fun _ => keepsSeal_throw _
  refine keepsSeal_txnBegin.bind fun _ σ => ?_
  exact ensures_tryCatch (hcommitted σ) fun e => keepsSeal_undone e σ

theorem keepsSeal_audited {edit : Db PUnit} (h : KeepsSeal edit) :
    KeepsSeal (audited crypto change signer target detail ns edit) :=
  keepsSeal_transact (h.bind fun _ => keepsSeal_appendDb)

end Statements

section Merge

variable {crypto : Crypto} {ver : ℕ} {state : Option DeltaState} {m : Tally}

theorem keepsSeal_mergeEntryDb (e : AuditEntry) : KeepsSeal (mergeEntryDb crypto state m e) := by
  have haccept : KeepsSeal (acceptEntry e m) := by
    unfold acceptEntry
    refine KeepsSeal.bind (keepsSeal_statement fun s t h => ?_) fun _ =>
      (keepsSeal_reads (reads_query _)).bind fun _ => ?_
    · obtain rfl := Option.some.inj h
      rfl
    · exact KeepsSeal.bind (keepsSeal_setHeader (by intro; rfl)) fun _ => keepsSeal_pure _
  refine (keepsSeal_reads (reads_query _)).bind fun seen => ?_
  rcases seen with _ | _ | _
  · exact keepsSeal_throw _
  · exact (keepsSeal_reads (reads_admissibleDb _ _)).bind fun _ => .ite (fun _ => haccept) fun _ => keepsSeal_pure _
  · exact keepsSeal_pure _

theorem keepsSeal_mergeEntriesDb (n : ℕ) (bytes : List Byte) (m : Tally) :
    KeepsSeal (mergeEntriesDb crypto ver state n bytes m) := by
  induction n generalizing bytes m with
  | zero => exact keepsSeal_pure m
  | succ n ih =>
    unfold mergeEntriesDb
    cases (deAudit ver).run bytes with
    | none => exact keepsSeal_throw _
    | some v => exact (keepsSeal_mergeEntryDb v.1).bind fun m => ih v.2 m

theorem keepsSeal_mergeAndSave (n : ℕ) (bytes : List Byte) : KeepsSeal (mergeAndSave crypto ver state n bytes) := by
  have hmerge : KeepsSeal (mergeDeltaDb crypto ver state n bytes) := by
    refine (keepsSeal_mergeEntriesDb n bytes .zero).bind fun m => ?_
    cases state with
    | none => exact keepsSeal_pure m
    | some d => exact keepsSeal_around (apart_mergeTablesDb apart_around d m) (apart_mergeTablesDb apart_headers d m)
  have hsave : ∀ m, KeepsSeal (saveMerged m) :=
    fun m => .ite (fun _ => keepsSeal_headerSave) fun _ => keepsSeal_pure _
  exact hmerge.bind fun m => (hsave m).bind fun _ => keepsSeal_pure m

end Merge

section Calls

variable {α : Type} {crypto : Crypto} {clk : Clock}

theorem KeepsSeal.guard {x : Db α} {k : α → Db β} (hx : Leaves Session.frame x) (hk : ∀ a, KeepsSeal (k a)) :
    KeepsSeal (x >>= k) :=
  (keepsSeal_reads hx).bind hk

theorem KeepsSeal.permitted {x : Db PUnit} (signer : Identity) (perm : Perms) (h : KeepsSeal x) :
    KeepsSeal (do guardTrusted; guardPerm signer perm; x) :=
  .guard reads_guardTrusted fun _ => .guard (reads_guardPerm signer perm) fun _ => h

theorem keepsSeal_peerAdd (peer : Peer) (signer : Identity) : KeepsSeal (Db.peerAdd crypto clk peer signer) := by
  refine .guard reads_guardTrusted fun _ => .guard (reads_guardInviter _) fun _ =>
    .guard (reads_guardThat _ _) fun _ => .guard (reads_query _) fun found => ?_
  rcases found with _ | _ | existing
  · exact keepsSeal_audited (keepsSeal_insert _)
  · exact keepsSeal_audited (keepsSeal_insert _)
  · exact .guard (reads_guardThat _ _) fun _ => keepsSeal_audited (keepsSeal_update _)

theorem keepsSeal_webappUpdatePermData (key : Hash) (data : List Byte) (signer : Identity) :
    KeepsSeal (Db.webappUpdatePermData crypto clk key data signer) := by
  apply KeepsSeal.permitted
  split
  · exact keepsSeal_audited (keepsSeal_hitting _ (by intro; rfl))
  · exact keepsSeal_throw _

theorem keepsSeal_webappUpdateRoleMask (key : Hash) (mask : List Byte) (signer : Identity) :
    KeepsSeal (Db.webappUpdateRoleMask crypto clk key mask signer) := by
  apply KeepsSeal.permitted
  split
  · exact keepsSeal_audited (keepsSeal_hitting _ (by intro; rfl))
  · exact keepsSeal_throw _

theorem keepsSeal_retentionSet (policy : Retention) (signer : Identity) :
    KeepsSeal (Db.retentionSet crypto clk policy signer) := by
  refine .permitted _ _ (keepsSeal_transact ?_)
  refine KeepsSeal.bind (keepsSeal_setHeader (by intro; rfl)) fun _ => ?_
  exact keepsSeal_headerSave.bind fun _ => keepsSeal_appendDb

theorem keepsSeal_epochRotate (newKey : EpochKey) (signer : Identity) :
    KeepsSeal (Db.epochRotate crypto clk newKey signer) := by
  refine .permitted _ _ (keepsSeal_get.bind fun s => keepsSeal_audited ?_)
  refine (keepsSeal_update _).bind fun _ => (keepsSeal_insert _).bind fun _ => ?_
  exact keepsSeal_setHeader (by intro; rfl)

theorem keepsSeal_inviteCreate (token : Hash) (expiresAt : I64) (inviter : Identity) :
    KeepsSeal (Db.inviteCreate crypto clk token expiresAt inviter) := by
  refine .permitted _ _ (keepsSeal_audited ?_)
  refine KeepsSeal.bind (keepsSeal_statement fun s t h => ?_) fun _ =>
    .guard reads_readBootstrap fun _ => keepsSeal_reads reads_readSignaling
  obtain ⟨invites, _, rfl⟩ := Option.map_eq_some_iff.mp h
  rfl

theorem keepsSeal_inviteMarkUsed (token : Hash) (peerId : PeerId) (signer : Identity) :
    KeepsSeal (Db.inviteMarkUsed crypto clk token peerId signer) := by
  refine .guard reads_answer fun _ => keepsSeal_get.bind fun _ => .guard (reads_guardThat _ _) fun _ =>
    .guard (reads_guardThat _ _) fun _ => keepsSeal_audited (keepsSeal_statement fun s t h => ?_)
  obtain rfl := Option.some.inj h
  rfl

theorem keepsSeal_applyDeltaDb (data : List Byte) (now : I64) : KeepsSeal (applyDeltaDb crypto data now) := by
  refine keepsSeal_get.bind fun s => .ite (fun _ => keepsSeal_throw _) fun _ => ?_
  cases (readDeltaHead crypto s.reg).run data with
  | error e => exact keepsSeal_throw _
  | ok v =>
    refine KeepsSeal.bind (keepsSeal_transact (keepsSeal_mergeAndSave _ _)) fun m => ?_
    exact .ite (fun _ => keepsSeal_enforceRetentionDb) fun _ => keepsSeal_pure _

def Operation.seals : Operation → Bool
  | .call (.sign _) => true
  | .call (.deserialize _) => true
  | _ => false

theorem keepsSeal_call (c : Call) (hc : (Operation.call c).seals = false) : KeepsSeal (c.run crypto clk) := by
  cases c with
  | peerAdd => exact keepsSeal_peerAdd _ _
  | peerKick =>
    exact .permitted _ _ (.guard (reads_lookup _) fun _ => .guard (reads_guardThat _ _) fun _ =>
      .guard (reads_guardNotOwner _) fun _ => keepsSeal_audited (keepsSeal_update _))
  | peerBan =>
    exact .permitted _ _ (.guard (reads_lookup _) fun _ =>
      .guard (reads_guardNotOwner _) fun _ => keepsSeal_audited (keepsSeal_update _))
  | peerLeave =>
    exact .guard reads_guardTrusted fun _ => .guard (reads_guardNotOwner _) fun _ =>
      .guard (reads_lookup _) fun _ => .guard (reads_guardThat _ _) fun _ =>
        keepsSeal_audited (keepsSeal_update _)
  | peerUpdateAddress => exact keepsSeal_audited (keepsSeal_update _)
  | peerObservedAddress =>
    exact .guard (reads_lookup _) fun _ => .guard (reads_guardThat _ _) fun _ =>
      keepsSeal_audited (keepsSeal_update _)
  | peerTouch peerId =>
    unfold Call.run Db.peerTouch
    exact keepsSeal_update _
  | peerSetRole =>
    exact .permitted _ _ (.guard (reads_lookupAssigned _) fun _ => keepsSeal_audited (keepsSeal_update _))
  | roleAdd =>
    exact .permitted _ _ (.guard (reads_lookup _) fun _ => .guard (reads_guardThat _ _) fun _ =>
      .guard (reads_lookup _) fun _ => .guard (reads_guardThat _ _) fun _ =>
        keepsSeal_audited (keepsSeal_insert _))
  | roleRemove =>
    exact .permitted _ _ (.guard (reads_lookup _) fun _ =>
      keepsSeal_audited ((keepsSeal_update _).bind fun _ => keepsSeal_update _))
  | roleSetPermissions => exact .permitted _ _ (keepsSeal_audited (keepsSeal_update _))
  | webappAdd => exact .permitted _ _ (keepsSeal_audited (keepsSeal_insert _))
  | webappRemove => exact .permitted _ _ (keepsSeal_audited (keepsSeal_hitting _ (by intro; rfl)))
  | webappUpdatePermData => exact keepsSeal_webappUpdatePermData _ _ _
  | webappUpdateRoleMask => exact keepsSeal_webappUpdateRoleMask _ _ _
  | serverAdd => exact .permitted _ _ (keepsSeal_audited (keepsSeal_insert _))
  | serverRemove => exact .permitted _ _ (keepsSeal_audited (keepsSeal_hitting _ (by intro; rfl)))
  | retentionSet => exact keepsSeal_retentionSet _ _
  | epochRotate => exact keepsSeal_epochRotate _ _
  | inviteCreate => exact keepsSeal_inviteCreate _ _ _
  | inviteInvalidate =>
    exact .guard (reads_guardPerm _ _) fun _ => keepsSeal_audited (keepsSeal_hitting _ (by intro; rfl))
  | inviteMarkUsed => exact keepsSeal_inviteMarkUsed _ _ _
  | sign => cases hc
  | deserialize => cases hc
  | applyDelta => exact keepsSeal_applyDeltaDb _ _

theorem keepsSeal_operation (op : Operation) (hop : op.seals = false) : KeepsSeal (op.run crypto clk) := by
  cases op with
  | call c => exact keepsSeal_call c hop
  | auditAppend => exact keepsSeal_appendDb
  | auditEnforceRetention => exact keepsSeal_enforceRetentionDb
  | groupIconSet icon signer =>
    apply KeepsSeal.permitted
    cases icon.check with
    | some e => exact keepsSeal_throw _
    | none =>
      have hrows : KeepsSeal (execute fun s => some s.tables) :=
        keepsSeal_around around_execute (apart_put apart_headers (by intro; rfl))
      refine keepsSeal_audited (hrows.bind fun _ => keepsSeal_statement fun s t h => ?_)
      obtain rfl := Option.some.inj h
      rfl
  | groupIconRemove signer =>
    apply KeepsSeal.permitted
    have hrows : KeepsSeal (execute fun s => some s.tables) :=
      keepsSeal_around around_execute (apart_put apart_headers (by intro; rfl))
    exact keepsSeal_audited (hrows.bind fun _ => keepsSeal_pure _)

end Calls

def Session.Open (σ : Hash × Signature) (s : Session) : Prop := s.Rewinds σ ∧ s.faults.Orderly

/-- Once what is open has been rolled back, a header with the seal `σ` is the stored one. -/
def Session.Loose (σ : Hash × Signature) (s : Session) : Prop :=
  s.Rewinds σ ∨ s.Idle ∧ (s.header.seal = σ → s.Sealed σ)

section Resealed

variable {α : Type} {x : Db α} {crypto : Crypto} {σ : Hash × Signature} {s : Session}

theorem Session.Sealed.loose (hs : s.Sealed σ) : s.Loose σ :=
  hs.within.symm.imp_right fun hidle => ⟨hidle, fun _ => hs⟩

theorem Session.Loose.rollback (hs : s.Loose σ) : s.rollback.header.seal = σ → s.rollback.Sealed σ := by
  obtain hopen | ⟨hidle, hsealed⟩ := hs
  · exact fun _ => hopen.rollback
  · rw [rollback_of_idle hidle]
    exact hsealed

theorem ensures_open (hx : Leaves Session.base x) :
    Ensures (Session.Open σ) x (fun _ => Session.Open σ) (Session.Loose σ) := by
  have hopen : ∀ {s t : Session}, t.base = s.base → s.Open σ → t.Open σ := by
    intro s t hbase hs
    simp only [Session.base, Prod.mk.injEq] at hbase
    obtain ⟨hb, hh, hd, hf⟩ := hbase
    exact ⟨hs.1.congr hd hh hb, orderly_congr hf hs.2⟩
  intro s hs
  constructor
  · intro a t ht
    exact hopen (hx.ok ht) hs
  · intro e t ht
    exact .inl (hopen (hx.error ht) hs).1

theorem ensures_headerSave_open :
    Ensures (Session.Open σ) headerSave (fun _ s => s.Open σ ∧ s.Durable) (Session.Loose σ) := by
  have hundone : ∀ e, Ensures (Session.Open σ) (do txnRollback; throw e : Db PUnit)
      (fun _ s => s.Open σ ∧ s.Durable) (Session.Loose σ) := by
    intro e
    refine (ensures_modify (Q := fun _ => Session.Sealed σ) fun s hs => hs.1.rollback).bind fun _ => ?_
    exact ensures_throw fun s hs => hs.loose
  have hinner : ∀ {y : Db PUnit}, Leaves Session.base y →
      Ensures (fun s => s.Open σ ∧ 1 < s.txnDepth) y (fun _ s => s.Open σ ∧ 1 < s.txnDepth) (Session.Loose σ) :=
    fun hy => (ensures_open hy).keeping (p := fun b => 1 < b.2.2.1) hy
  unfold headerSave
  refine (ensures_modify (Q := fun _ s => s.Open σ ∧ 1 < s.txnDepth) fun s hs => ?_).bind fun _ => ?_
  · obtain ⟨hbegin, hdepth⟩ := hs.1.begin
    exact ⟨⟨hbegin, (faults_begin s).symm ▸ hs.2⟩, hdepth⟩
  refine (ensures_modifyGet (Q := fun f s => (s.Open σ ∧ 1 < s.txnDepth) ∧ ¬ f.Stray) fun s hs => ?_).bind
    fun f => .of_fact fun hstray => ?_
  · obtain ⟨⟨hopen, hf⟩, hdepth⟩ := hs
    exact ⟨⟨⟨.congr (s := s) rfl rfl rfl hopen, orderly_saved hf⟩, hdepth⟩, hf.save⟩
  refine ensures_ite (fun hdelete => ?_) fun _ => ?_
  · rw [insert_of_not_stray hstray hdelete]
    exact (hundone .db).weaken (fun _ hs => hs.1) (fun _ _ hs => hs) fun _ hs => hs
  have hempty : Leaves Session.base (setHeaders fun _ => []) := leaves_modify fun _ => rfl
  have hbound : Leaves Session.base (bindHeader !f.bind) := leaves_modify fun _ => rfl
  refine (hinner hempty).bind fun _ => (hinner hbound).bind fun _ => ?_
  refine ensures_ite (fun _ => ensures_throw fun _ hs => .inl hs.1.1) fun _ => ?_
  refine ensures_ite (fun _ => (hundone .db).weaken (fun _ hs => hs.1) (fun _ _ hs => hs) fun _ hs => hs)
    fun _ => ?_
  refine (ensures_modify (Q := fun _ s => (s.Open σ ∧ 1 < s.txnDepth) ∧ s.Durable) fun s hs => ?_).bind
    fun _ => ?_
  · obtain ⟨⟨hopen, hf⟩, hdepth⟩ := hs
    exact ⟨⟨⟨.congr (s := s) rfl rfl rfl hopen, hf⟩, hdepth⟩, rfl⟩
  refine (ensures_modifyGet (Q := fun _ s => s.Open σ ∧ s.Durable) fun s hs => ?_).bind fun ok => ?_
  · obtain ⟨⟨⟨hopen, hf⟩, hdepth⟩, hdurable⟩ := hs
    have hcommit : s.commit.2 = { s with txnDepth := s.txnDepth - 1 } := by
      unfold Session.commit
      rw [if_neg hopen.opened.ne', if_pos hdepth]
    rw [hcommit]
    exact ⟨⟨⟨Nat.sub_pos_of_lt hdepth, hopen.header, hopen.rows⟩, hf⟩, hdurable⟩
  · refine ensures_ite (fun _ => ensures_pure fun _ hs => hs) fun _ => ?_
    exact (hundone .db).weaken (fun _ hs => hs.1) (fun _ _ hs => hs) fun _ hs => hs

theorem ensures_appendDb_open : Ensures (Session.Open σ) (appendDb crypto change actor target detail ns)
    (fun _ s => s.Open σ ∧ s.Durable) (Session.Loose σ) := by
  unfold appendDb
  refine (ensures_open (around_base (reads_around (reads_query id)))).bind fun seen => ?_
  refine Ensures.get_bind fun s _ => (ensures_open (base_setHeader _)).bind fun _ => ?_
  refine ensures_ite (fun _ => ensures_throw fun _ hs => .inl hs.1) fun _ => ?_
  refine (ensures_open (base_setTables _)).bind fun _ => (ensures_open (base_setHeader _)).bind fun _ => ?_
  refine ensures_headerSave_open.bind fun _ s hs => ?_
  obtain ⟨hok, herr⟩ := ensures_open (apart_enforceRetentionDb apart_base) s hs.1
  have hdurable := ensures_durable_enforceRetentionDb s hs.2
  exact ⟨fun a t ht => ⟨hok a t ht, hdurable.1 a t ht⟩, herr⟩

theorem Body.open {body : Db PUnit} (h : Body crypto body) :
    Ensures (Session.Open σ) body (fun _ s => s.Open σ ∧ s.Durable) (Session.Loose σ) := by
  have hopen : ∀ {y : Db PUnit}, Ensures (Session.Open σ) y (fun _ s => s.Open σ ∧ s.Durable) (Session.Loose σ) →
      Ensures (Session.Open σ) y (fun _ => Session.Open σ) (Session.Loose σ) :=
    fun h => h.weaken (fun _ hs => hs) (fun _ _ hs => hs.1) fun _ hs => hs
  induction h with
  | step hx _ ih => exact (ensures_open hx).bind ih
  | append => exact ensures_appendDb_open
  | save => exact ensures_headerSave_open
  | saveAppend => exact (hopen ensures_headerSave_open).bind fun _ => ensures_appendDb_open
  | appendSave edit =>
    exact (hopen ensures_appendDb_open).bind fun _ => (ensures_open (base_setHeader edit)).bind fun _ =>
      ensures_headerSave_open

theorem ensures_transact_resealed {body : Db PUnit} (h : Body crypto body) :
    Ensures (Session.Steady σ) (transact body) (fun _ s => s.header.seal = σ → s.Sealed σ)
      fun s => s.header.seal = σ → s.Sealed σ := by
  have hbegin : Ensures (Session.Steady σ) txnBegin (fun _ => Session.Open σ)
      fun s => s.header.seal = σ → s.Sealed σ :=
    ensures_modify fun s hs => ⟨(hs.1.begin hs.2.1).2, (faults_begin s).symm ▸ hs.2⟩
  refine hbegin.bind fun _ => ensures_tryCatch (R := Session.Loose σ) ?_ fun e => ?_
  · refine h.open.bind fun _ => (ensures_modifyGet (Q := fun ok s =>
      (s.header.seal = σ → s.Sealed σ) ∧ (ok = false → s.Idle)) fun s hs => ?_).bind fun ok => ?_
    · obtain ⟨⟨hopen, _⟩, hdurable⟩ := hs
      obtain ⟨hheader, htables, _, hwithin⟩ := hopen.commit
      refine ⟨fun hseal => ⟨hseal, ?_, hwithin.imp_right And.right⟩, fun hfalse => ?_⟩
      · obtain hsame | ⟨_, hrows⟩ := htables
        · intro g hg
          rw [hsame, hdurable] at hg
          rw [List.mem_singleton.mp hg, ← hheader]
          exact hseal
        · exact hrows
      · refine hwithin.resolve_right fun hopened => ?_
        rw [hopened.1] at hfalse
        cases hfalse
    · refine ensures_ite (fun _ => ensures_pure fun _ hs => hs.1) fun hok => ensures_throw fun s hs => ?_
      exact .inr ⟨hs.2 (Bool.eq_false_iff.mpr hok), hs.1⟩
  · exact (ensures_modify (Q := fun _ s => s.header.seal = σ → s.Sealed σ) fun s hs => hs.rollback).bind fun _ =>
      ensures_throw fun _ hs => hs

theorem Bracketed.resealed {x : Db PUnit} (h : Bracketed crypto x) :
    Ensures (Session.Steady σ) x (fun _ s => s.header.seal = σ → s.Sealed σ)
      fun s => s.header.seal = σ → s.Sealed σ := by
  have hkept : ∀ {y : Db PUnit}, KeepsSeal y → Ensures (Session.Steady σ) y
      (fun _ s => s.header.seal = σ → s.Sealed σ) fun s => s.header.seal = σ → s.Sealed σ :=
    fun h => (h σ).weaken (fun _ hs => hs) (fun _ _ hs _ => hs.1) fun _ hs _ => hs.1
  induction h with
  | reads hx => exact hkept (keepsSeal_reads hx)
  | statement hedit => exact hkept (keepsSeal_statement hedit)
  | guard hx _ ih =>
    have hread := (keepsSeal_reads hx σ).weaken (fun _ hs => hs) (fun _ _ hs => hs)
      (fun s hs (_ : s.header.seal = σ) => hs.1)
    exact hread.bind ih
  | transact hbody => exact ensures_transact_resealed hbody
  | merge ver state n bytes =>
    refine hkept (KeepsSeal.bind (keepsSeal_transact (keepsSeal_mergeAndSave n bytes)) fun m => ?_)
    exact .ite (fun _ => keepsSeal_enforceRetentionDb) fun _ => keepsSeal_pure _

end Resealed

end YumiBrowser.Group
