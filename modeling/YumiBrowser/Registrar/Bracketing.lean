import YumiBrowser.Registrar.StoredSync

namespace YumiBrowser.Group

open Wire Keyed Fallible

def Faults.placed (f : Faults) : Faults := { f with stmts := [] }

def Faults.next (f : Faults) : Faults := { f with saves := f.saves.tail }

def Session.frame (s : Session) : Session := { s with faults := s.faults.placed }

def Session.base (s : Session) : Option Tables × Header × ℕ × Faults :=
  (s.before, s.savedHeader, s.txnDepth, s.faults.placed)

def Session.around (s : Session) : Header × Option Tables × Header × ℕ × Faults :=
  (s.header, s.base)

section Frames

variable {α τ : Type} {x : Db α} {edit : Session → Option Tables}

theorem reads_around (h : Leaves Session.frame x) : Leaves Session.around x :=
  h.mono Session.around fun _ => rfl

theorem around_base (h : Leaves Session.around x) : Leaves Session.base x :=
  h.mono Prod.snd fun _ => rfl

theorem reads_answer : Leaves Session.frame answer := fun _ => rfl

theorem reads_query (f : Registrar → α) : Leaves Session.frame (query f) :=
  reads_answer.bind fun _ => leaves_get.bind fun _ => leaves_pure _

theorem reads_lookup (f : Registrar → Option α) : Leaves Session.frame (lookup f) := by
  apply (reads_query f).bind
  intro found
  rcases found with _ | _ | a
  · exact leaves_throw _
  · exact leaves_throw _
  · exact leaves_pure a

theorem reads_guardThat (ok : Bool) (e : GrError) : Leaves Session.frame (guardThat ok e) :=
  leaves_ite (fun _ => leaves_pure _) fun _ => leaves_throw _

theorem reads_guardTrusted : Leaves Session.frame guardTrusted :=
  leaves_get.bind fun _ => leaves_ite (fun _ => leaves_throw _) fun _ => leaves_pure _

theorem reads_guardNotOwner (peerId : PeerId) : Leaves Session.frame (guardNotOwner peerId) :=
  leaves_get.bind fun _ => leaves_ite (fun _ => leaves_throw _) fun _ => leaves_pure _

theorem reads_permissionsDb (peerId : PeerId) : Leaves Session.frame (permissionsDb peerId) :=
  leaves_get.bind fun _ => leaves_ite (fun _ => leaves_pure _) fun _ =>
    (reads_query _).bind fun _ => leaves_pure _

theorem reads_lookupAssigned (roleId : BitVec 32) : Leaves Session.frame (lookupAssigned roleId) :=
  leaves_ite (fun _ => (reads_lookup _).bind fun _ => leaves_pure _) fun _ => leaves_pure _

theorem reads_guardPerm (signer : Identity) (perm : Perms) :
    Leaves Session.frame (guardPerm signer perm) :=
  (reads_permissionsDb _).bind fun _ => leaves_ite (fun _ => leaves_throw _) fun _ => leaves_pure _

theorem reads_guardInviter (signer : Identity) : Leaves Session.frame (guardInviter signer) :=
  leaves_get.bind fun _ => leaves_ite (fun _ => reads_guardPerm _ _) fun _ => leaves_pure _

theorem reads_readBootstrap : Leaves Session.frame Db.readBootstrap :=
  (reads_lookup _).bind fun _ => leaves_ite (fun _ => leaves_pure _) fun _ =>
    (reads_lookup _).bind fun _ => leaves_pure _

theorem reads_readSignaling : Leaves Session.frame Db.readSignaling :=
  (reads_query _).bind fun _ => leaves_ite (fun _ => leaves_pure _) fun _ =>
    (reads_query _).bind fun _ => leaves_pure _

theorem around_execute : Leaves Session.around (execute edit) := by
  refine (reads_around reads_answer).bind fun taken => leaves_get.bind fun s => ?_
  cases taken
  · exact leaves_pure false
  · cases edit s with
    | none => exact leaves_pure false
    | some tables =>
      have h : Leaves Session.around (modify fun s => { s with tables } : Db PUnit) :=
        leaves_modify fun _ => rfl
      exact h.bind fun _ => leaves_pure true

/-- What neither a read nor a change of the rows moves, those of `gr_header` apart. -/
structure Apart (view : Session → τ) : Prop where
  of_frame {α : Type} {x : Db α} : Leaves Session.frame x → Leaves view x
  of_execute {edit : Session → Option Tables} :
    (∀ s t, edit s = some t → t.headers = s.tables.headers) → Leaves view (execute edit)

theorem apart_around : Apart Session.around where
  of_frame := reads_around
  of_execute _ := around_execute

theorem apart_base : Apart Session.base where
  of_frame h := around_base (reads_around h)
  of_execute _ := around_base around_execute

theorem run_execute (edit : Session → Option Tables) (s : Session) : ∃ taken s', (execute edit).run s = .ok taken s' ∧
    (taken = false → s'.frame = s.frame) := by
  have hget : (get : Db Session).run s.asked = .ok s.asked s.asked := rfl
  unfold execute
  rw [run_bind_ok run_answer, run_bind_ok hget]
  cases s.faults.stmts.headD false with
  | true => exact ⟨false, _, rfl, fun _ => rfl⟩
  | false =>
    cases edit s.asked with
    | none => exact ⟨false, _, rfl, fun _ => rfl⟩
    | some tables => exact ⟨true, _, rfl, nofun⟩

theorem neverThrows_execute : NeverThrows (execute edit) := by
  intro s _
  obtain ⟨taken, s', hrun, _⟩ := run_execute edit s
  refine ⟨fun _ _ _ => trivial, fun e t ht => ?_⟩
  rw [hrun] at ht
  cases ht

theorem neverThrows_query (f : Registrar → α) : NeverThrows (query f) := by
  intro s _
  refine ⟨fun _ _ _ => trivial, fun e t ht => ?_⟩
  cases ht

theorem neverThrows_enforceRetentionDb : NeverThrows enforceRetentionDb := by
  refine (neverThrows_query _).bind fun count => ?_
  cases count with
  | none => exact neverThrows_pure _
  | some n =>
    exact ensures_ite (fun _ => neverThrows_execute.bind fun _ => neverThrows_pure _)
      fun _ => neverThrows_pure _

theorem around_statement : Leaves Session.around (statement edit) :=
  around_execute.bind fun _ => leaves_ite (fun _ => leaves_pure _) fun _ => leaves_throw _

theorem base_setTables (edit : Session → Tables) :
    Leaves Session.base (modify fun s => { s with tables := edit s } : Db PUnit) :=
  leaves_modify fun _ => rfl

theorem base_setHeader (f : Header → Header) : Leaves Session.base (setHeader f) :=
  leaves_modify fun _ => rfl


theorem base_update (edit : Registrar → Registrar) : Leaves Session.base (update edit) :=
  around_base around_statement

theorem base_insert (edit : Registrar → Option Registrar) : Leaves Session.base (insert edit) :=
  around_base around_statement

theorem base_hitting (hit : Session → Bool) (edit : Session → Tables) :
    Leaves Session.base (Db.hitting hit edit) :=
  leaves_get.bind fun _ => (around_base around_statement).bind fun _ =>
    around_base (reads_around (reads_guardThat _ _))

section Install

variable {r : Reader α} {ins : Tables → α → Option Tables}

theorem around_installManyDb (n : ℕ) (bytes : List Byte) :
    Leaves Session.around (installManyDb r ins n bytes) := by
  induction n generalizing bytes with
  | zero => exact leaves_pure bytes
  | succ n ih =>
    unfold installManyDb
    cases r.run bytes with
    | none => exact leaves_throw _
    | some v => exact around_statement.bind fun _ => ih v.2

theorem around_installDb (bytes : List Byte) : Leaves Session.around (installDb r ins bytes) := by
  unfold installDb
  cases readU32.run bytes with
  | none => exact leaves_throw _
  | some v => exact around_installManyDb v.1.toNat v.2

end Install

theorem around_clearTables : Leaves Session.around clearTables :=
  around_execute.bind fun _ => around_execute.bind fun _ => around_execute.bind fun _ =>
    around_execute.bind fun _ => around_execute.bind fun _ => around_execute.bind fun _ =>
      leaves_pure _

theorem around_installTables (ver : ℕ) (bytes : List Byte) :
    Leaves Session.around (installTables ver bytes) :=
  (around_installDb _).bind fun _ => (around_installDb _).bind fun _ =>
    (around_installDb _).bind fun _ => (around_installDb _).bind fun _ =>
      (around_installDb _).bind fun _ => (around_installDb _).bind fun _ =>
        (around_installDb _).bind fun _ => leaves_pure _

theorem reads_authorizedDb (state : Option DeltaState) (e : AuditEntry) :
    Leaves Session.frame (authorizedDb state e) :=
  leaves_get.bind fun _ => leaves_ite (fun _ => (reads_query _).bind fun _ => leaves_pure _)
    fun _ => leaves_pure _

theorem reads_admissibleDb (state : Option DeltaState) (e : AuditEntry) :
    Leaves Session.frame (admissibleDb crypto state e) :=
  leaves_ite (fun _ => leaves_pure _) fun _ => (reads_query _).bind fun _ =>
    leaves_ite (fun _ => reads_authorizedDb _ _) fun _ => leaves_pure _

end Frames

section Merge

variable {α τ : Type} {crypto : Crypto} {ver : ℕ} {state : Option DeltaState} {m : Tally} {view : Session → τ}

theorem apart_put (h : Apart view) {put : Tables → Tables} (hput : ∀ t, (put t).headers = t.headers) :
    Leaves view (execute fun s => some (put s.tables)) := by
  refine h.of_execute fun s t heq => ?_
  obtain rfl := Option.some.inj heq
  exact hput s.tables

theorem apart_statement (h : Apart view) {edit : Session → Option Tables}
    (hedit : ∀ s t, edit s = some t → t.headers = s.tables.headers) : Leaves view (statement edit) :=
  (h.of_execute hedit).bind fun _ => leaves_ite (fun _ => leaves_pure _) fun _ => leaves_throw _

theorem apart_enforceRetentionDb (h : Apart view) : Leaves view enforceRetentionDb := by
  refine (h.of_frame (reads_query _)).bind fun count => ?_
  cases count with
  | none => exact leaves_pure _
  | some n =>
    refine leaves_ite (fun _ => ?_) fun _ => leaves_pure _
    refine Leaves.bind (h.of_execute fun s t heq => ?_) fun _ => leaves_pure _
    obtain rfl := Option.some.inj heq
    rfl

theorem around_enforceRetentionDb : Leaves Session.around enforceRetentionDb :=
  apart_enforceRetentionDb apart_around

theorem apart_acceptEntry (h : Apart view) (hset : ∀ f, Leaves view (setHeader f)) (e : AuditEntry) :
    Leaves view (acceptEntry e m) := by
  refine Leaves.bind (apart_statement h fun s t heq => ?_) fun _ =>
    (h.of_frame (reads_query _)).bind fun _ => (hset _).bind fun _ => leaves_pure _
  obtain rfl := Option.some.inj heq
  rfl

theorem apart_mergeEntryDb (h : Apart view) (hset : ∀ f, Leaves view (setHeader f)) (e : AuditEntry) :
    Leaves view (mergeEntryDb crypto state m e) := by
  refine (h.of_frame (reads_query _)).bind fun seen => ?_
  rcases seen with _ | _ | _
  · exact leaves_throw _
  · exact (h.of_frame (reads_admissibleDb _ _)).bind fun _ =>
      leaves_ite (fun _ => apart_acceptEntry h hset e) fun _ => leaves_pure _
  · exact leaves_pure _

theorem apart_mergeEntriesDb (h : Apart view) (hset : ∀ f, Leaves view (setHeader f)) (n : ℕ)
    (bytes : List Byte) (m : Tally) : Leaves view (mergeEntriesDb crypto ver state n bytes m) := by
  induction n generalizing bytes m with
  | zero => exact leaves_pure m
  | succ n ih =>
    unfold mergeEntriesDb
    cases (deAudit ver).run bytes with
    | none => exact leaves_throw _
    | some v => exact (apart_mergeEntryDb h hset v.1).bind fun m => ih v.2 m

theorem apart_mergeRowDb (h : Apart view) {stamp : α → ℤ} {find : Registrar → Option α} {put : Tables → Tables}
    (hput : ∀ t, (put t).headers = t.headers) (a : α) (m : Tally) : Leaves view (mergeRowDb stamp find put a m) := by
  refine (h.of_frame (reads_query _)).bind fun found => ?_
  rcases found with _ | _ | stored
  · exact (apart_put h hput).bind fun _ => leaves_pure _
  · exact (apart_put h hput).bind fun _ => leaves_pure _
  · exact leaves_ite (fun _ => leaves_pure _) fun _ => (apart_put h hput).bind fun _ => leaves_pure _

theorem apart_mergeWebappDb (h : Apart view) (w : Webapp) : Leaves view (mergeWebappDb w) := by
  have hput := @apart_put _ _ h (fun t => { t with webapps := t.webapps.upsert w }) fun _ => rfl
  exact hput.bind fun _ => leaves_pure _

theorem apart_mergeServerDb (h : Apart view) (a : Server) : Leaves view (mergeServerDb a) := by
  have hlookup : Leaves Session.frame (lookupSecret a) :=
    leaves_ite (fun _ => reads_query _) fun _ => leaves_pure _
  refine (h.of_frame hlookup).bind fun _ => Leaves.bind (h.of_execute fun s t heq => ?_) fun _ => leaves_pure _
  obtain rfl := Option.some.inj heq
  rfl

theorem apart_mergeEpochDb (h : Apart view) (a : Epoch) : Leaves view (mergeEpochDb a) := by
  have hput := @apart_put _ _ h (fun t => { t with epochs := t.epochs.upsert a }) fun _ => rfl
  refine (h.of_frame (reads_query _)).bind fun found => ?_
  rcases found with _ | _ | stored
  · exact hput.bind fun _ => leaves_pure _
  · exact hput.bind fun _ => leaves_pure _
  · exact leaves_pure _

theorem apart_mergeTablesDb (h : Apart view) (d : DeltaState) (m : Tally) : Leaves view (mergeTablesDb d m) := by
  have hpeer : ∀ m p, Leaves view (mergePeerDb m p) := fun m p => apart_mergeRowDb h (by intro; rfl) p m
  have hrole : ∀ m r, Leaves view (mergeRoleDb m r) := fun m r => apart_mergeRowDb h (by intro; rfl) r m
  refine (leaves_foldlM hpeer _ m).bind fun m => (leaves_foldlM hrole _ m).bind fun m => ?_
  refine (leaves_foldlM (fun _ w => apart_mergeWebappDb h w) _ _).bind fun _ => ?_
  refine (leaves_foldlM (fun _ v => apart_mergeServerDb h v) _ _).bind fun _ => ?_
  exact (leaves_foldlM (fun _ e => apart_mergeEpochDb h e) _ _).bind fun _ => leaves_pure m

theorem apart_mergeDeltaDb (h : Apart view) (hset : ∀ f, Leaves view (setHeader f)) (n : ℕ) (bytes : List Byte) :
    Leaves view (mergeDeltaDb crypto ver state n bytes) := by
  refine (apart_mergeEntriesDb h hset n bytes .zero).bind fun m => ?_
  cases state with
  | none => exact leaves_pure m
  | some d => exact apart_mergeTablesDb h d m

end Merge

inductive Body (crypto : Crypto) : Db PUnit → Prop
  | step {α : Type} {x : Db α} {k : α → Db PUnit} :
    Leaves Session.base x → (∀ a, Body crypto (k a)) → Body crypto (x >>= k)
  | append : Body crypto (appendDb crypto change actor target detail ns)
  | save : Body crypto headerSave
  | saveAppend :
    Body crypto (do headerSave; appendDb crypto change actor target detail ns)
  | appendSave (edit : Header → Header) :
    Body crypto (do appendDb crypto change actor target detail ns; setHeader edit; headerSave)

inductive Bracketed (crypto : Crypto) : Db PUnit → Prop
  | reads {x : Db PUnit} : Leaves Session.frame x → Bracketed crypto x
  | statement {edit : Session → Option Tables} : (∀ s t, edit s = some t → t.headers = s.tables.headers) →
    Bracketed crypto (statement edit)
  | guard {α : Type} {x : Db α} {k : α → Db PUnit} :
    Leaves Session.frame x → (∀ a, Bracketed crypto (k a)) → Bracketed crypto (x >>= k)
  | transact {body : Db PUnit} : Body crypto body → Bracketed crypto (transact body)
  | merge (ver : ℕ) (state : Option DeltaState) (n : ℕ) (bytes : List Byte) :
    Bracketed crypto (do
      let m ← transact (mergeAndSave crypto ver state n bytes)
      if 0 < m.new then enforceRetentionDb else pure ())

section Calls

variable {crypto : Crypto} {clk : Clock}

theorem bracketed_audited {edit : Db PUnit} (hedit : Leaves Session.base edit) :
    Bracketed crypto (audited crypto change signer target detail ns edit) :=
  .transact (.step hedit fun _ => .append)

theorem Bracketed.ite {p : Prop} [Decidable p] {x y : Db PUnit} (hx : p → Bracketed crypto x)
    (hy : ¬ p → Bracketed crypto y) : Bracketed crypto (if p then x else y) := by
  split
  · exact hx ‹_›
  · exact hy ‹_›

theorem Bracketed.permitted {x : Db PUnit} (signer : Identity) (perm : Perms)
    (h : Bracketed crypto x) : Bracketed crypto (do guardTrusted; guardPerm signer perm; x) :=
  .guard reads_guardTrusted fun _ => .guard (reads_guardPerm signer perm) fun _ => h

theorem bracketed_peerAdd (peer : Peer) (signer : Identity) :
    Bracketed crypto (Db.peerAdd crypto clk peer signer) := by
  refine .guard reads_guardTrusted fun _ => .guard (reads_guardInviter _) fun _ =>
    .guard (reads_guardThat _ _) fun _ => .guard (reads_query _) fun found => ?_
  rcases found with _ | _ | existing
  · exact bracketed_audited (base_insert _)
  · exact bracketed_audited (base_insert _)
  · exact .guard (reads_guardThat _ _) fun _ => bracketed_audited (base_update _)

theorem bracketed_webappUpdatePermData (key : Hash) (data : List Byte) (signer : Identity) :
    Bracketed crypto (Db.webappUpdatePermData crypto clk key data signer) := by
  apply Bracketed.permitted
  split
  · exact bracketed_audited (base_hitting _ _)
  · exact .reads (leaves_throw _)

theorem bracketed_webappUpdateRoleMask (key : Hash) (mask : List Byte) (signer : Identity) :
    Bracketed crypto (Db.webappUpdateRoleMask crypto clk key mask signer) := by
  apply Bracketed.permitted
  split
  · exact bracketed_audited (base_hitting _ _)
  · exact .reads (leaves_throw _)

theorem base_inviteRow (edit : Session → Option Tables) : Leaves Session.base (do
    statement edit
    Db.readBootstrap
    Db.readSignaling) :=
  (around_base around_statement).bind fun _ =>
    (around_base (reads_around reads_readBootstrap)).bind fun _ =>
      around_base (reads_around reads_readSignaling)

theorem bracketed_deserializeDb (data : List Byte) :
    Bracketed crypto (deserializeDb crypto data) := by
  refine .guard leaves_get fun s => ?_
  cases (readPreamble crypto s.reg).run data with
  | error e => exact .reads (leaves_throw e)
  | ok v =>
    obtain ⟨⟨ver, header⟩, bytes⟩ := v
    refine .ite (fun _ => .reads (leaves_pure _)) fun _ => .transact ?_
    exact .step (around_base around_clearTables) fun _ =>
      .step (around_base (around_installTables ver bytes)) fun _ =>
        .step (base_setHeader _) fun _ => .save

theorem bracketed_applyDeltaDb (data : List Byte) (now : I64) :
    Bracketed crypto (applyDeltaDb crypto data now) := by
  refine .guard leaves_get fun s => .ite (fun _ => .reads (leaves_throw _)) fun _ => ?_
  cases (readDeltaHead crypto s.reg).run data with
  | error e => exact .reads (leaves_throw e)
  | ok v =>
    obtain ⟨⟨ver, state, count⟩, bytes⟩ := v
    exact .merge ver state count bytes

theorem bracketed_run (c : Call) : Bracketed crypto (c.run crypto clk) := by
  cases c with
  | peerAdd => exact bracketed_peerAdd _ _
  | peerKick =>
    exact .permitted _ _ (.guard (reads_lookup _) fun _ => .guard (reads_guardThat _ _) fun _ =>
      .guard (reads_guardNotOwner _) fun _ => bracketed_audited (base_update _))
  | peerBan =>
    exact .permitted _ _ (.guard (reads_lookup _) fun _ =>
      .guard (reads_guardNotOwner _) fun _ => bracketed_audited (base_update _))
  | peerLeave =>
    exact .guard reads_guardTrusted fun _ => .guard (reads_guardNotOwner _) fun _ =>
      .guard (reads_lookup _) fun _ => .guard (reads_guardThat _ _) fun _ =>
        bracketed_audited (base_update _)
  | peerUpdateAddress => exact bracketed_audited (base_update _)
  | peerObservedAddress =>
    exact .guard (reads_lookup _) fun _ => .guard (reads_guardThat _ _) fun _ =>
      bracketed_audited (base_update _)
  | peerTouch =>
    refine .statement fun s t h => ?_
    obtain rfl := Option.some.inj h
    rfl
  | peerSetRole =>
    exact .permitted _ _ (.guard (reads_lookupAssigned _) fun _ =>
      bracketed_audited (base_update _))
  | roleAdd =>
    exact .permitted _ _ (.guard (reads_lookup _) fun _ => .guard (reads_guardThat _ _) fun _ =>
      .guard (reads_lookup _) fun _ => .guard (reads_guardThat _ _) fun _ =>
        bracketed_audited (base_insert _))
  | roleRemove =>
    exact .permitted _ _ (.guard (reads_lookup _) fun _ =>
      bracketed_audited ((base_update _).bind fun _ => base_update _))
  | roleSetPermissions => exact .permitted _ _ (bracketed_audited (base_update _))
  | webappAdd => exact .permitted _ _ (bracketed_audited (base_insert _))
  | webappRemove => exact .permitted _ _ (bracketed_audited (base_hitting _ _))
  | webappUpdatePermData => exact bracketed_webappUpdatePermData _ _ _
  | webappUpdateRoleMask => exact bracketed_webappUpdateRoleMask _ _ _
  | serverAdd => exact .permitted _ _ (bracketed_audited (base_insert _))
  | serverRemove => exact .permitted _ _ (bracketed_audited (base_hitting _ _))
  | retentionSet =>
    exact .permitted _ _ (.transact (.step (base_setHeader _) fun _ => .saveAppend))
  | epochRotate =>
    exact .permitted _ _ (.guard leaves_get fun _ => bracketed_audited
      ((base_update _).bind fun _ => (base_insert _).bind fun _ => base_setHeader _))
  | inviteCreate => exact .permitted _ _ (bracketed_audited (base_inviteRow _))
  | inviteInvalidate =>
    exact .guard (reads_guardPerm _ _) fun _ => bracketed_audited (base_hitting _ _)
  | inviteMarkUsed =>
    exact .guard reads_answer fun _ => .guard leaves_get fun _ =>
      .guard (reads_guardThat _ _) fun _ => .guard (reads_guardThat _ _) fun _ =>
        bracketed_audited (around_base around_statement)
  | sign => exact .permitted _ _ (.transact (.appendSave _))
  | deserialize => exact bracketed_deserializeDb _
  | applyDelta => exact bracketed_applyDeltaDb _ _

end Calls

/-- A session that has emptied `gr_header` to save the header. -/
def Session.emptied (s : Session) : Session :=
  { s.saved with tables := { s.tables with headers := [] }, bound := some s.header }

theorem run_headerSave (s : Session) (hd : s.txnDepth = 1) : headerSave.run s =
    if s.faults.save.delete then
      .error .db { s.saved.rollback with
        tables := if s.faults.save.insert then s.saved.rollback.tables
          else { s.saved.rollback.tables with
            headers := s.saved.rollback.tables.headers ++ s.bound.toList } }
    else if s.faults.save.bind then
      .error .db { s.emptied with bound := none, txnDepth := 2 }
    else if s.faults.save.insert then .error .db s.emptied.rollback
    else .ok ⟨⟩ { s.emptied with tables := { s.tables with headers := [s.header] } } := by
  have hbegin : s.begin = { s with txnDepth := 2 } := by
    simp [Session.begin, hd]
  unfold headerSave Session.emptied
  simp only [EStateM.run_bind, run_txnBegin, run_takeSave, hbegin]
  generalize s.faults.save = f
  obtain ⟨d, b, i⟩ := f
  obtain ⟨header, tables, before, savedHeader, txnDepth, bound, untrusted, deltaAnomaly, faults⟩ := s
  obtain rfl := hd
  cases d <;> cases b <;> cases i <;> rfl

section Transact

variable {α : Type} {body : Db α} {s s' : Session}

theorem run_transact_ok (h : body.run s.begin = .ok a s') : (transact body).run s =
    if s'.commit.1 then .ok a s'.commit.2 else .error .db s'.commit.2.rollback := by
  unfold transact
  rw [run_bind_ok run_txnBegin]
  cases hc : s'.commit.1 with
  | true =>
    apply run_tryCatch_ok
    rw [run_bind_ok h, run_bind_ok run_txnCommit, hc]
    rfl
  | false =>
    have hthrow : (body >>= fun a => txnCommit >>= fun ok =>
        if ok = true then pure a else throw .db).run s.begin = .error .db s'.commit.2 := by
      rw [run_bind_ok h, run_bind_ok run_txnCommit, hc]
      rfl
    exact run_tryCatch_error hthrow

theorem run_transact_error (h : body.run s.begin = .error e s') :
    (transact body).run s = .error e s'.rollback := by
  unfold transact
  rw [run_bind_ok run_txnBegin]
  exact run_tryCatch_error (run_bind_error h)

end Transact

/-- Between two calls no transaction is open. -/
def Session.Idle (s : Session) : Prop := s.txnDepth = 0 ∧ s.before = none

def Balanced (body : Db α) : Prop :=
  Ensures (fun s => s.txnDepth = 1) body (fun _ s => s.txnDepth = 1)
    (fun s => s.txnDepth = 0 → s.before = none)

section Balance

variable {α : Type} {x : Db α} {crypto : Crypto} {s : Session}

theorem before_rollback (h : 0 < s.txnDepth) : s.rollback.before = none := by
  simp [Session.rollback, h.ne']

theorem balanced_of_base (hx : Leaves Session.base x) : Balanced x := by
  have hkeep := ensures_of_leaves (p := fun b => b.2.2.1 = 1) hx
  refine hkeep.weaken (fun _ hs => hs) (fun _ _ hs => hs) fun s hs h0 => ?_
  have hdepth : s.txnDepth = 1 := hs
  omega

theorem balanced_headerSave : Balanced headerSave := by
  intro s hd
  rw [run_headerSave s hd]
  have hback : ∀ s' : Session, s'.txnDepth = 1 → s'.rollback.before = none := by
    intro s' hd'
    exact before_rollback (hd'.symm ▸ Nat.one_pos)
  constructor
  · intro a s' hrun
    split at hrun
    · cases hrun
    · split at hrun
      · cases hrun
      · split at hrun
        · cases hrun
        · cases hrun
          exact hd
  · intro e s' hrun
    split at hrun
    · cases hrun
      exact fun _ => hback s.saved hd
    · split at hrun
      · cases hrun
        exact fun h0 => absurd h0 Nat.two_pos.ne'
      · split at hrun
        · cases hrun
          exact fun _ => hback s.emptied hd
        · cases hrun

theorem balanced_appendDb : Balanced (appendDb crypto change actor target detail ns) := by
  refine (balanced_of_base (around_base (reads_around (reads_query id)))).bind fun seen => ?_
  refine Ensures.get_bind fun s _ => ?_
  refine (balanced_of_base (base_setHeader _)).bind fun _ => ?_
  refine ensures_ite (fun _ => ensures_throw fun s hs h0 => ?_) fun _ => ?_
  · rw [hs] at h0
    cases h0
  refine (balanced_of_base (base_setTables _)).bind fun _ => ?_
  refine (balanced_of_base (base_setHeader _)).bind fun _ => ?_
  exact balanced_headerSave.bind fun _ => balanced_of_base (apart_enforceRetentionDb apart_base)

theorem Body.balanced {body : Db PUnit} (h : Body crypto body) : Balanced body := by
  induction h with
  | step hx _ ih => exact (balanced_of_base hx).bind ih
  | append => exact balanced_appendDb
  | save => exact balanced_headerSave
  | saveAppend => exact balanced_headerSave.bind fun _ => balanced_appendDb
  | appendSave edit =>
    exact balanced_appendDb.bind fun _ => (balanced_of_base (base_setHeader _)).bind fun _ =>
      balanced_headerSave

theorem balanced_mergeAndSave (ver : ℕ) (state : Option DeltaState) (n : ℕ) (bytes : List Byte) :
    Balanced (mergeAndSave crypto ver state n bytes) := by
  refine (balanced_of_base (apart_mergeDeltaDb apart_base base_setHeader n bytes)).bind fun m => ?_
  have hsave : Balanced (saveMerged m) :=
    ensures_ite (fun _ => balanced_headerSave) fun _ => balanced_of_base (leaves_pure _)
  exact hsave.bind fun _ => balanced_of_base (leaves_pure m)

theorem begin_of_idle (hs : s.Idle) : s.begin.txnDepth = 1 := by
  unfold Session.begin
  split
  · rfl
  · exact congrArg (· + 1) hs.1

theorem commit_of_depth (hd : s.txnDepth = 1) : s.commit.2.Idle := by
  unfold Session.commit
  rw [hd]
  cases hb : s.before with
  | none => exact ⟨rfl, rfl⟩
  | some t => cases s.faults.commitFails <;> exact ⟨rfl, rfl⟩

theorem rollback_of_idle (hs : s.Idle) : s.rollback = s := if_pos hs.1

theorem idle_transact {body : Db α} (hbody : Balanced body) (hs : s.Idle) :
    (after (transact body) s).Idle := by
  obtain ⟨hok, herr⟩ := hbody s.begin (begin_of_idle hs)
  unfold after
  cases hrun : body.run s.begin with
  | ok a s' =>
    have hidle := commit_of_depth (hok a s' hrun)
    rw [run_transact_ok hrun]
    cases s'.commit.1 with
    | true => exact hidle
    | false => exact (rollback_of_idle hidle).symm ▸ hidle
  | error e s' =>
    rw [run_transact_error hrun]
    rcases Nat.eq_zero_or_pos s'.txnDepth with h0 | hpos
    · have hidle : s'.Idle := ⟨h0, herr e s' hrun h0⟩
      exact (rollback_of_idle hidle).symm ▸ hidle
    · refine ⟨?_, before_rollback hpos⟩
      simp [Session.rollback, hpos.ne']

theorem idle_around {x : Db α} (hx : Leaves Session.around x) (hs : s.Idle) : (after x s).Idle := by
  have hsame := congrArg (fun a => a.2.2.2.1 = 0 ∧ a.2.1 = none) (hx s)
  exact hsame.mpr hs

theorem Bracketed.idle {x : Db PUnit} (h : Bracketed crypto x) :
    ∀ s : Session, s.Idle → (after x s).Idle := by
  induction h with
  | reads hx => exact fun s hs => idle_around (reads_around hx) hs
  | statement _ => exact fun s hs => idle_around around_statement hs
  | guard hx _ ih => exact fun s hs => after_bind (idle_around (reads_around hx) hs) ih
  | transact hbody => exact fun s hs => idle_transact hbody.balanced hs
  | merge ver state n bytes =>
    intro s hs
    apply after_bind (idle_transact (balanced_mergeAndSave ver state n bytes) hs)
    intro m s' hs'
    exact idle_around (leaves_ite (fun _ => around_enforceRetentionDb) fun _ => leaves_pure _) hs'

theorem idle_run (crypto : Crypto) (clk : Clock) (c : Call) (hs : s.Idle) :
    (after (c.run crypto clk) s).Idle :=
  (bracketed_run c).idle s hs

end Balance

end YumiBrowser.Group
