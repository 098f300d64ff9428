import YumiBrowser.Registrar.Bracketing
import YumiBrowser.Registrar.HeaderAuthenticity

namespace YumiBrowser.Group

open Wire Keyed Fallible

/-- Inside the transaction that began with the tables `t` and the header `h`. -/
def Session.Inside (t : Tables) (h : Header) (f : Faults) (s : Session) : Prop :=
  s.base = (some t, h, 1, f.placed)

def Session.Failed (t : Tables) (h : Header) (s : Session) : Prop :=
  s.before = some t ∧ s.savedHeader = h ∧ 0 < s.txnDepth ∨
    s.before = none ∧ s.tables = t ∧ s.header = h ∧ s.txnDepth = 0

def SaveFaults.Taken (f : SaveFaults) : Prop :=
  f.delete = false ∧ f.bind = false ∧ f.insert = false

/-- The database refused to empty `gr_header` and then took the row. -/
def SaveFaults.Stray (f : SaveFaults) : Prop := f.delete = true ∧ f.insert = false

theorem insert_of_not_stray {f : SaveFaults} (h : ¬ f.Stray) (hdelete : f.delete = true) : f.insert = true := by
  by_contra hinsert
  exact h ⟨hdelete, Bool.eq_false_iff.mpr hinsert⟩

theorem ensures_headerSave (t : Tables) (h : Header) (f : Faults) (hf : ¬ f.save.Stray) :
    Ensures (Session.Inside t h f) headerSave
      (fun _ s => s.Inside t h f.next ∧ f.save.Taken) (Session.Failed t h) := by
  intro s hs
  simp only [Session.Inside, Session.base, Prod.mk.injEq] at hs
  obtain ⟨hb, hh, hd, hp⟩ := hs
  have hsave : s.faults.placed.save = f.placed.save := congrArg Faults.save hp
  have hnext : s.saved.faults.placed = f.next.placed := congrArg Faults.next hp
  change s.faults.save = f.save at hsave
  have hback : ∀ s' : Session, s'.before = some t → s'.savedHeader = h → s'.txnDepth = 1 →
      s'.rollback.Failed t h := by
    intro s' hb hh hd
    simp [Session.Failed, Session.rollback, hb, hh, hd]
  rw [run_headerSave s hd, hsave]
  constructor
  · intro a s' hrun
    split at hrun
    · cases hrun
    · split at hrun
      · cases hrun
      · split at hrun
        · cases hrun
        · cases hrun
          refine ⟨?_, by simp_all [SaveFaults.Taken]⟩
          simp only [Session.Inside, Session.base, Session.emptied, Prod.mk.injEq]
          exact ⟨hb, hh, hd, hnext⟩
  · intro e s' hrun
    split at hrun
    · rename_i hdelete
      rw [insert_of_not_stray hf hdelete] at hrun
      cases hrun
      exact hback s.saved hb hh hd
    · split at hrun
      · cases hrun
        exact .inl ⟨hb, hh, Nat.two_pos⟩
      · split at hrun
        · cases hrun
          exact hback s.emptied hb hh hd
        · cases hrun

section Inside

variable {α : Type} {x : Db α} {s : Session} {t : Tables} {h : Header} {f : Faults}

theorem Session.Inside.failed (hs : s.Inside t h f) : s.Failed t h := by
  simp only [Session.Inside, Session.base, Prod.mk.injEq] at hs
  obtain ⟨hb, hh, hd, _⟩ := hs
  exact .inl ⟨hb, hh, hd ▸ Nat.one_pos⟩

theorem ensures_inside (hx : Leaves Session.base x) :
    Ensures (Session.Inside t h f) x (fun _ s => s.Inside t h f) (Session.Failed t h) := by
  have hkeep := ensures_of_leaves (p := fun b => b = (some t, h, 1, f.placed)) hx
  exact hkeep.weaken (fun _ hs => hs) (fun _ _ hs => hs) fun _ hs => Session.Inside.failed hs

theorem ensures_appendDb (crypto : Crypto) (change : ChangeType) (actor : Identity)
    (target : Option PeerId) (detail : List Byte) (ns : I64) (hf : f.appendFails = false → ¬ f.save.Stray) :
    Ensures (Session.Inside t h f) (appendDb crypto change actor target detail ns)
      (fun _ s => (s.Inside t h f.next ∧ f.save.Taken) ∧ f.appendFails = false)
      (Session.Failed t h) := by
  refine (ensures_inside (around_base (reads_around (reads_query id)))).bind fun seen => ?_
  refine Ensures.get_bind fun s hs => ?_
  refine (ensures_inside (base_setHeader _)).bind fun _ => ?_
  have happend : s.faults.placed.appendFails = f.placed.appendFails :=
    congrArg (fun b => b.2.2.2.appendFails) hs
  change s.faults.appendFails = f.appendFails at happend
  rw [happend]
  refine ensures_ite (fun _ => ensures_throw fun _ => Session.Inside.failed) fun hok => ?_
  rw [Bool.not_eq_true] at hok
  refine (ensures_inside (base_setTables _)).bind fun _ => ?_
  refine (ensures_inside (base_setHeader _)).bind fun _ => ?_
  refine (ensures_headerSave t h f (hf hok)).bind fun _ => ?_
  have hrest := ensures_inside (t := t) (h := h) (f := f.next)
    (apart_enforceRetentionDb apart_base)
  have hkept : Ensures _ _ (fun _ s => Session.Inside t h f.next s ∧ f.save.Taken) _ :=
    Ensures.fact fun _ => hrest
  exact hkept.weaken (fun _ hs => hs) (fun _ _ hs => ⟨hs, hok⟩) fun _ hs => hs

end Inside

def Session.shown (s : Session) : Header × Tables × ℕ := (s.header, s.tables, s.txnDepth)

/-- The database takes the call's `BEGIN`, no row of `gr_header` whose `DELETE` it refused, and,
where it takes the first header save, the `COMMIT` too. -/
def Faults.Safe (f : Faults) : Prop :=
  f.beginFails = false ∧ ¬ f.save.Stray ∧
    (f.save.Taken → f.commitFails = false ∧ (f.appendFails = false → ¬ f.next.save.Stray))

def Session.Done (t : Tables) (h : Header) (f : Faults) (s : Session) : Prop :=
  (∃ g, s.Inside t h g ∧ g.commitFails = f.commitFails) ∧ (s.header = h ∨ f.save.Taken)

/-- A body that its transaction can undo. -/
def Sound (f : Faults) (body : Db α) : Prop :=
  ∀ t h, Ensures (fun s => s.Inside t h f ∧ s.header = h) body (fun _ s => s.Done t h f)
    (Session.Failed t h)

def Guarded (f : Faults) (x : Db α) : Prop :=
  ∀ s : Session, s.Idle → s.faults.placed = f.placed → AtomicAt Session.shown x s

section Transact

variable {α β : Type} {x : Db α} {k : α → Db β} {body : Db α} {f g : Faults} {s s' : Session}

theorem shown_rollback (hs : s'.Failed s.tables s.header) (h0 : s.txnDepth = 0) :
    s'.rollback.shown = s.shown := by
  obtain ⟨hb, hh, hd⟩ | ⟨_, ht, hh, hd⟩ := hs
  · simp [Session.shown, Session.rollback, hb, hh, hd.ne', h0]
  · simp [Session.shown, Session.rollback, ht, hh, hd, h0]

theorem shown_commit (hs : s'.Inside s.tables s.header g) (hcommit : s'.commit.1 = false) :
    s'.commit.2.rollback.shown = (s'.header, s.tables, 0) ∧ g.commitFails = true := by
  simp only [Session.Inside, Session.base, Prod.mk.injEq] at hs
  obtain ⟨hb, _, hd, hp⟩ := hs
  have hc : s'.faults.placed.commitFails = g.placed.commitFails := congrArg Faults.commitFails hp
  change s'.faults.commitFails = g.commitFails at hc
  unfold Session.commit at hcommit ⊢
  rw [hd, hb, hc] at hcommit ⊢
  cases hg : g.commitFails with
  | false => simp [hg] at hcommit
  | true => exact ⟨rfl, rfl⟩

theorem commitFails_of_commit (hs : s'.Inside t h g) (hcommit : s'.commit.1 = true) :
    g.commitFails = false := by
  simp only [Session.Inside, Session.base, Prod.mk.injEq] at hs
  obtain ⟨hb, _, hd, hp⟩ := hs
  have hc : s'.faults.placed.commitFails = g.placed.commitFails := congrArg Faults.commitFails hp
  change s'.faults.commitFails = g.commitFails at hc
  unfold Session.commit at hcommit
  rw [hd, hb, hc] at hcommit
  cases hg : g.commitFails with
  | false => rfl
  | true => simp [hg] at hcommit

theorem inside_begin (hs : s.Idle) (hp : s.faults.placed = f.placed) (hf : f.beginFails = false) :
    s.begin.Inside s.tables s.header f ∧ s.begin.header = s.header := by
  have hb : s.faults.placed.beginFails = f.placed.beginFails := congrArg Faults.beginFails hp
  change s.faults.beginFails = f.beginFails at hb
  unfold Session.begin
  rw [if_pos ⟨hs.1, hs.2, hb.trans hf⟩]
  exact ⟨congrArg (fun g => (some s.tables, s.header, 1, g)) hp, rfl⟩

theorem guarded_transact (hf : f.Safe) (hbody : Sound f body) : Guarded f (transact body) := by
  intro s hs hp e t ht
  obtain ⟨hbegin, hstray, hsaved⟩ := hf
  obtain ⟨hok, herr⟩ := hbody s.tables s.header s.begin (inside_begin hs hp hbegin)
  cases hrun : body.run s.begin with
  | error e' s' =>
    rw [run_transact_error hrun] at ht
    cases ht
    exact shown_rollback (herr e s' hrun) hs.1
  | ok a s' =>
    rw [run_transact_ok hrun] at ht
    obtain ⟨⟨g, hin, hg⟩, hhead⟩ := hok a s' hrun
    split at ht
    · cases ht
    · rename_i hcommit
      cases ht
      obtain ⟨hshown, hfails⟩ := shown_commit hin (Bool.eq_false_iff.mpr hcommit)
      have hsame : s'.header = s.header := by
        apply hhead.resolve_right
        intro htaken
        rw [hg, (hsaved htaken).1] at hfails
        cases hfails
      rw [hshown, hsame]
      exact congrArg (fun d => (s.header, s.tables, d)) hs.1.symm

theorem Guarded.bind (hx : Leaves Session.frame x) (hk : ∀ a, Guarded f (k a)) :
    Guarded f (x >>= k) := by
  intro s hs hp
  have hshown : Leaves Session.shown x := hx.mono Session.shown fun _ => rfl
  refine AtomicAt.bind_leaves hshown fun a s' hrun => hk a s' ?_ ?_
  · have hframe := congrArg Session.Idle (hx.ok hrun)
    exact hframe.mpr hs
  · have hframe := congrArg Session.faults (hx.ok hrun)
    exact hframe.trans hp

theorem guarded_of_leaves (h : Leaves Session.frame x) : Guarded f x := fun _ _ _ =>
  (h.mono Session.shown fun _ => rfl).atomicAt

theorem guarded_statement {edit : Session → Option Tables} : Guarded f (statement edit) := by
  intro s _ _ e t ht
  obtain ⟨taken, s', hrun, hsame⟩ := run_execute edit s
  unfold statement at ht
  rw [run_bind_ok hrun] at ht
  cases taken with
  | true => cases ht
  | false =>
    cases ht
    have hframe := congrArg Session.shown (hsame rfl)
    exact hframe

end Transact

def Session.Merging (t : Tables) (h : Header) (f : Faults) (m : Tally) (s : Session) : Prop :=
  s.Inside t h f ∧ (m.new = 0 → s.header = h)

section Merge

variable {α : Type} {crypto : Crypto} {f : Faults} {t : Tables} {h : Header} {m : Tally}

theorem ensures_merging {x : Db α} (hx : Leaves Session.around x) :
    Ensures (Session.Merging t h f m) x (fun _ s => s.Merging t h f m) (Session.Failed t h) := by
  have hkeep := ensures_of_leaves
    (p := fun a => a.2 = (some t, h, 1, f.placed) ∧ (m.new = 0 → a.1 = h)) hx
  exact hkeep.weaken (fun _ hs => hs) (fun _ _ hs => hs) fun _ hs => Session.Inside.failed hs.1

theorem ensures_tally {m' : Tally} (hm : m'.new = m.new) :
    Ensures (Session.Merging t h f m) (pure m' : Db Tally) (fun m' s => s.Merging t h f m')
      (Session.Failed t h) :=
  ensures_pure fun _ hs => ⟨hs.1, fun hnew => hs.2 (hm.symm.trans hnew)⟩

theorem ensures_acceptEntry (e : AuditEntry) :
    Ensures (Session.Merging t h f m) (acceptEntry e m) (fun m' s => s.Merging t h f m')
      (Session.Failed t h) := by
  refine (ensures_merging around_statement).bind fun _ => ?_
  refine (ensures_merging (reads_around (reads_query _))).bind fun fork => ?_
  have hhead := ensures_inside (t := t) (h := h) (f := f) (base_setHeader fun h => { h with
    version := if e.registrarVersion > h.version then e.registrarVersion else h.version
    updatedAt := if e.timestamp.toInt > h.updatedAt.toInt then e.timestamp else h.updatedAt })
  refine (hhead.weaken (fun _ hs => hs.1) (fun _ _ hs => hs) fun _ hs => hs).bind fun _ => ?_
  exact ensures_pure fun _ hs => ⟨hs, fun hnew => absurd hnew (Nat.succ_ne_zero _)⟩

theorem ensures_mergeEntryDb (state : Option DeltaState) (m : Tally) (e : AuditEntry) :
    Ensures (Session.Merging t h f m) (mergeEntryDb crypto state m e)
      (fun m' s => s.Merging t h f m') (Session.Failed t h) := by
  refine (ensures_merging (reads_around (reads_query _))).bind fun seen => ?_
  rcases seen with _ | _ | _
  · exact ensures_throw fun _ hs => Session.Inside.failed hs.1
  · refine (ensures_merging (reads_around (reads_admissibleDb _ _))).bind fun ok => ?_
    exact ensures_ite (fun _ => ensures_acceptEntry e) fun _ => ensures_tally rfl
  · exact ensures_tally rfl

theorem ensures_mergeEntriesDb (ver : ℕ) (state : Option DeltaState) (n : ℕ) (bytes : List Byte)
    (m : Tally) :
    Ensures (Session.Merging t h f m) (mergeEntriesDb crypto ver state n bytes m)
      (fun m' s => s.Merging t h f m') (Session.Failed t h) := by
  induction n generalizing bytes m with
  | zero => exact ensures_tally rfl
  | succ n ih =>
    unfold mergeEntriesDb
    cases (deAudit ver).run bytes with
    | none => exact ensures_throw fun _ hs => Session.Inside.failed hs.1
    | some v => exact (ensures_mergeEntryDb state m v.1).bind fun m => ih v.2 m

theorem ensures_mergeRowDb {stamp : α → ℤ} {find : Registrar → Option α} {put : Tables → Tables}
    (a : α) (m : Tally) :
    Ensures (Session.Merging t h f m) (mergeRowDb stamp find put a m)
      (fun m' s => s.Merging t h f m') (Session.Failed t h) := by
  refine (ensures_merging (reads_around (reads_query _))).bind fun found => ?_
  have hexecute : Leaves Session.around (execute fun s => some (put s.tables)) := around_execute
  have hput := ensures_merging (t := t) (h := h) (m := m) (f := f) hexecute
  rcases found with _ | _ | stored
  · exact hput.bind fun _ => ensures_tally rfl
  · exact hput.bind fun _ => ensures_tally rfl
  · exact ensures_ite (fun _ => ensures_tally rfl) fun _ => hput.bind fun _ => ensures_tally rfl

theorem ensures_mergeTablesDb (d : DeltaState) (m : Tally) :
    Ensures (Session.Merging t h f m) (mergeTablesDb d m) (fun m' s => s.Merging t h f m')
      (Session.Failed t h) := by
  have hpeer : ∀ m p, Ensures (Session.Merging t h f m) (mergePeerDb m p)
      (fun m' s => s.Merging t h f m') (Session.Failed t h) := fun m p => ensures_mergeRowDb p m
  have hrole : ∀ m r, Ensures (Session.Merging t h f m) (mergeRoleDb m r)
      (fun m' s => s.Merging t h f m') (Session.Failed t h) := fun m r => ensures_mergeRowDb r m
  refine (ensures_foldlM hpeer _ m).bind fun m => (ensures_foldlM hrole _ m).bind fun m => ?_
  refine (ensures_merging (leaves_foldlM (fun _ w => apart_mergeWebappDb apart_around w) _ _)).bind fun _ => ?_
  refine (ensures_merging (leaves_foldlM (fun _ v => apart_mergeServerDb apart_around v) _ _)).bind fun _ => ?_
  refine (ensures_merging (leaves_foldlM (fun _ e => apart_mergeEpochDb apart_around e) _ _)).bind fun _ => ?_
  exact ensures_tally rfl

theorem ensures_mergeDeltaDb (crypto : Crypto) (ver : ℕ) (state : Option DeltaState) (n : ℕ) (bytes : List Byte) :
    Ensures (Session.Merging t h f .zero) (mergeDeltaDb crypto ver state n bytes)
      (fun m' s => s.Merging t h f m') (Session.Failed t h) := by
  refine (ensures_mergeEntriesDb ver state n bytes .zero).bind fun m => ?_
  cases state with
  | none => exact ensures_tally rfl
  | some d => exact ensures_mergeTablesDb d m

theorem sound_mergeAndSave (crypto : Crypto) (hf : f.Safe) (ver : ℕ) (state : Option DeltaState) (n : ℕ)
    (bytes : List Byte) : Sound f (mergeAndSave crypto ver state n bytes) := by
  intro t h
  have hmerge := ensures_mergeDeltaDb crypto ver state n bytes (f := f) (t := t) (h := h)
  refine (hmerge.weaken (fun _ hs => ⟨hs.1, fun _ => hs.2⟩) (fun _ _ hs => hs)
    fun _ hs => hs).bind fun m => ?_
  have hsave : Ensures (Session.Merging t h f m) (saveMerged m) (fun _ s => s.Done t h f)
      (Session.Failed t h) := by
    apply ensures_ite
    · intro _
      exact (ensures_headerSave t h f hf.2.1).weaken (fun _ hs => hs.1)
        (fun _ s hs => ⟨⟨f.next, hs.1, rfl⟩, .inr hs.2⟩) fun _ hs => hs
    · intro hnone
      have hnew : m.new = 0 := Nat.eq_zero_of_not_pos fun hpos => hnone (.inl hpos)
      exact ensures_pure fun _ hs => ⟨⟨f, hs.1, rfl⟩, .inl (hs.2 hnew)⟩
  exact hsave.bind fun _ => ensures_pure fun _ hs => hs

end Merge

section Calls

variable {crypto : Crypto} {clk : Clock} {f : Faults}

theorem Body.done {body : Db PUnit} (h : Body crypto body) (hf : f.Safe) (t : Tables) (h₀ : Header) :
    Ensures (Session.Inside t h₀ f) body (fun _ s => s.Done t h₀ f) (Session.Failed t h₀) := by
  induction h with
  | step hx _ ih => exact (ensures_inside hx).bind ih
  | append =>
    refine (ensures_appendDb _ _ _ _ _ _ fun _ => hf.2.1).weaken (fun _ hs => hs) ?_ fun _ hs => hs
    rintro _ s ⟨⟨hin, htaken⟩, _⟩
    exact ⟨⟨f.next, hin, rfl⟩, .inr htaken⟩
  | save =>
    refine (ensures_headerSave t h₀ f hf.2.1).weaken (fun _ hs => hs) (fun _ s hs => ?_)
      fun _ hs => hs
    exact ⟨⟨f.next, hs.1, rfl⟩, .inr hs.2⟩
  | saveAppend =>
    refine (ensures_headerSave t h₀ f hf.2.1).bind fun _ => .of_fact fun htaken => ?_
    refine (ensures_appendDb _ _ _ _ _ _ (hf.2.2 htaken).2).weaken (fun _ hs => hs) ?_
      fun _ hs => hs
    rintro _ s ⟨⟨hin, _⟩, _⟩
    exact ⟨⟨f.next.next, hin, rfl⟩, .inr htaken⟩
  | appendSave edit =>
    refine (ensures_appendDb _ _ _ _ _ _ fun _ => hf.2.1).bind fun _ => .of_fact fun happend => ?_
    refine .of_fact fun htaken => (ensures_inside (base_setHeader _)).bind fun _ => ?_
    have hsave := ensures_headerSave t h₀ f.next ((hf.2.2 htaken).2 happend)
    refine hsave.weaken (fun _ hs => hs) (fun _ s hs => ?_) fun _ hs => hs
    exact ⟨⟨f.next.next, hs.1, rfl⟩, .inr htaken⟩

theorem Body.sound {body : Db PUnit} (h : Body crypto body) (hf : f.Safe) : Sound f body :=
  fun t h₀ => (h.done hf t h₀).weaken (fun _ hs => hs.1) (fun _ _ hs => hs) fun _ hs => hs

theorem Bracketed.guarded {x : Db PUnit} (h : Bracketed crypto x) (hf : f.Safe) : Guarded f x := by
  induction h with
  | reads hx => exact guarded_of_leaves hx
  | statement _ => exact guarded_statement
  | guard hx _ ih => exact .bind hx ih
  | transact hbody => exact guarded_transact hf (hbody.sound hf)
  | merge ver state n bytes =>
    intro s hs hp
    have hmerge := guarded_transact hf (sound_mergeAndSave crypto hf ver state n bytes) s hs hp
    refine AtomicAt.bind_neverThrows hmerge fun m => ?_
    exact ensures_ite (fun _ => neverThrows_enforceRetentionDb) fun _ => neverThrows_pure _

end Calls

section Refused

variable {s : Session}

theorem run_guardPerm_owner (hown : s.header.ownerId = signer.peerId)
    (hperm : Perm.owner &&& perm ≠ 0) : (guardPerm signer perm).run s = .ok ⟨⟩ s := by
  have howner : isOwner s.reg signer.peerId = true := decide_eq_true hown
  have hget : (get : Db Session).run s = .ok s s := rfl
  have hperms : (permissionsDb signer.peerId).run s = .ok Perm.owner s := by
    unfold permissionsDb
    rw [run_bind_ok hget, if_pos howner]
    rfl
  unfold guardPerm
  rw [run_bind_ok hperms, if_neg hperm]
  rfl

theorem run_query (g : Registrar → α) : (query g).run s =
    .ok (if !s.faults.stmts.headD false then some (g s.asked.reg) else none) s.asked := rfl

variable (crypto : Crypto) (change : ChangeType) (actor : Identity) (target : Option PeerId)
  (detail : List Byte) (ns : I64)

theorem version_newEntry (seen : Option Registrar) (hseen : ∀ r, seen = some r → r = s.asked.reg) :
    (newEntry crypto (seen.getD { s.asked.reg with auditLog := Table.empty }) change actor target
      detail ns).registrarVersion = s.header.version + 1 := by
  cases seen with
  | none => rfl
  | some r =>
    obtain rfl := hseen r rfl
    rfl

theorem run_appendDb_refused (hf : s.faults.appendFails = true) :
    ∃ h : Header, h.version = s.header.version + 1 ∧
      (appendDb crypto change actor target detail ns).run s =
        .error .db { s.asked with header := h } := by
  have hget : (get : Db Session).run s.asked = .ok s.asked s.asked := rfl
  have hf : s.asked.faults.appendFails = true := hf
  unfold appendDb
  rw [run_bind_ok (run_query id), run_bind_ok hget, run_bind_ok (run_setHeader _), if_pos hf]
  refine ⟨_, ?_, rfl⟩
  exact version_newEntry crypto change actor target detail ns _ fun r hr => by split at hr <;> simp_all

theorem run_appendDb (hf : s.faults.appendFails = false) :
    ∃ (h : Header) (log : AuditLog), h.version = s.header.version + 1 ∧
      (appendDb crypto change actor target detail ns).run s =
        (do headerSave; enforceRetentionDb : Db PUnit).run
          { s.asked with header := h, tables := { s.tables with auditLog := log } } := by
  have hget : (get : Db Session).run s.asked = .ok s.asked s.asked := rfl
  have hf : ¬ s.asked.faults.appendFails = true := by
    rw [Bool.not_eq_true]
    exact hf
  unfold appendDb
  rw [run_bind_ok (run_query id), run_bind_ok hget, run_bind_ok (run_setHeader _), if_neg hf]
  refine ⟨_, _, ?_, rfl⟩
  exact version_newEntry crypto change actor target detail ns _ fun r hr => by split at hr <;> simp_all

def Session.Unopened (h : Header) (v : BitVec 32) (s : Session) : Prop :=
  s.before = none ∧ s.savedHeader = h ∧ s.txnDepth = 1 ∧ s.header.version = v

def Session.Reverts (h : Header) (s : Session) : Prop := s.rollback.header = h

theorem Session.Unopened.reverts {h : Header} (hs : s.Unopened h v) : s.Reverts h := by
  obtain ⟨_, hh, hd, _⟩ := hs
  simp [Session.Reverts, Session.rollback, hd, hh]

theorem ensures_headerSave_unopened (h : Header) (v : BitVec 32) :
    Ensures (Session.Unopened h v) headerSave (fun _ s => s.Unopened h v) (Session.Reverts h) := by
  intro s hs
  obtain ⟨hb, hh, hd, hv⟩ := hs
  rw [run_headerSave s hd]
  constructor
  · intro a s' hrun
    split at hrun
    · cases hrun
    · split at hrun
      · cases hrun
      · split at hrun
        · cases hrun
        · cases hrun
          exact ⟨hb, hh, hd, hv⟩
  · intro e s' hrun
    split at hrun
    · cases hrun
      simp [Session.Reverts, Session.rollback, Session.saved, hd, hh]
    · split at hrun
      · cases hrun
        simp [Session.Reverts, Session.rollback, Session.saved, Session.emptied, hh]
      · split at hrun
        · cases hrun
          simp [Session.Reverts, Session.rollback, Session.saved, Session.emptied, hd, hh]
        · cases hrun

theorem ensures_appendDb_unopened (h : Header) (v : BitVec 32) :
    Ensures (Session.Unopened h v) (appendDb crypto change actor target detail ns)
      (fun _ s => s.Unopened h (v + 1)) (Session.Reverts h) := by
  intro s hs
  obtain ⟨hb, hh, hd, hv⟩ := hs
  cases hf : s.faults.appendFails with
  | true =>
    obtain ⟨h', _, hrun⟩ := run_appendDb_refused crypto change actor target detail ns hf
    rw [hrun]
    refine ⟨fun a t ht => ?_, fun e t ht => ?_⟩
    · cases ht
    cases ht
    have hs' : Session.Unopened h h'.version { s.asked with header := h' } := ⟨hb, hh, hd, rfl⟩
    exact hs'.reverts
  | false =>
    obtain ⟨h', log, hver, hrun⟩ := run_appendDb crypto change actor target detail ns hf
    rw [hrun]
    have hkeep : Ensures (Session.Unopened h (v + 1)) enforceRetentionDb
        (fun _ s => s.Unopened h (v + 1)) (Session.Reverts h) := by
      have hleaves := ensures_of_leaves (p := fun a => a.2.1 = none ∧ a.2.2.1 = h ∧ a.2.2.2.1 = 1 ∧
        a.1.version = v + 1) around_enforceRetentionDb
      exact hleaves.weaken (fun _ hs => hs) (fun _ _ hs => hs) fun _ hs => Session.Unopened.reverts hs
    exact ((ensures_headerSave_unopened h (v + 1)).bind fun _ => hkeep) _
      ⟨hb, hh, hd, by rw [hver, hv]⟩

theorem run_headerSave_stray {t : Tables} {b : Header} (hd : s.txnDepth = 1)
    (hb : s.before = some t) (hbound : s.bound = some b) (hs : s.faults.save.Stray) :
    ∃ s', headerSave.run s = .error .db s' ∧ s'.rollback.tables.headers = t.headers ++ [b] := by
  rw [run_headerSave s hd, if_pos hs.1]
  refine ⟨_, rfl, ?_⟩
  simp [Session.rollback, Session.saved, hd, hb, hbound, hs.2]

theorem run_headerSave_taken (hd : s.txnDepth = 1) (hs : s.faults.save.Taken) :
    headerSave.run s =
      .ok ⟨⟩ { s.emptied with tables := { s.tables with headers := [s.header] } } := by
  rw [run_headerSave s hd, hs.1, hs.2.1, hs.2.2]
  rfl

theorem not_atomicAt_unopened {body : Db PUnit} {h : Header} {v : BitVec 32}
    (hbody : Ensures (Session.Unopened h v) body (fun _ s => s.Unopened h (v + 1))
      (Session.Reverts h))
    (hs : s.begin.Unopened h v) (hne : h ≠ s.header) (hv : s.header.version = v) :
    ¬ AtomicAt Session.shown (transact body) s := by
  intro hatomic
  obtain ⟨hok, herr⟩ := hbody s.begin hs
  cases hrun : body.run s.begin with
  | error e s' =>
    have hshown := hatomic e s'.rollback (run_transact_error hrun)
    exact hne ((herr e s' hrun).symm.trans (congrArg Prod.fst hshown))
  | ok a s' =>
    obtain ⟨hb, _, hd, hver⟩ := hok a s' hrun
    have hcommit : s'.commit = (false, { s' with txnDepth := 0 }) := by
      simp [Session.commit, hd, hb]
    have hrun' := run_transact_ok hrun
    rw [hcommit] at hrun'
    have hshown := hatomic .db _ hrun'
    have hhead : s'.header = s.header := congrArg Prod.fst hshown
    rw [hhead, hv] at hver
    bv_omega

end Refused

section Necessary

def aloneHeader : Header :=
  initialHeader (onlySigner prefixHash (member 1)) [] groupPrivate (member 1) 0

def alone (f : Faults) : Session where
  header := aloneHeader
  tables := (⟨Table.empty, Table.empty, Table.empty, Table.empty, Table.empty, Table.empty,
    Table.empty, [aloneHeader]⟩ : Tables)
  before := none
  savedHeader := { aloneHeader with version := 0 }
  txnDepth := 0
  bound := some aloneHeader
  untrusted := false
  deltaAnomaly := none
  faults := f

theorem alone_idle (f : Faults) : (alone f).Idle := ⟨rfl, rfl⟩

variable (crypto : Crypto) (clk : Clock) (policy : Retention) (f : Faults)

def retentionBody : Db PUnit := do
  setHeader fun h => { h with retention := policy }
  headerSave
  appendDb crypto .retentionSet (member 1) none (ascii "retention policy updated") clk.ns

theorem run_retentionSet : (Db.retentionSet crypto clk policy (member 1)).run (alone f) =
    (transact (retentionBody crypto clk policy)).run (alone f) := by
  have htrusted : guardTrusted.run (alone f) = .ok ⟨⟩ (alone f) := rfl
  have hperm : (guardPerm (member 1) Perm.editRetention).run (alone f) = .ok ⟨⟩ (alone f) :=
    run_guardPerm_owner rfl (by decide)
  unfold Db.retentionSet
  rw [run_bind_ok htrusted, run_bind_ok hperm]
  rfl

theorem beginFails_of_atomic
    (h : AtomicAt Session.shown (Db.retentionSet crypto clk policy (member 1)) (alone f)) :
    f.beginFails = false := by
  by_contra hf
  rw [Bool.not_eq_false] at hf
  have hatomic : AtomicAt Session.shown (transact (retentionBody crypto clk policy)) (alone f) := by
    intro e s' hrun
    exact h e s' ((run_retentionSet crypto clk policy f).trans hrun)
  have hbegin : (alone f).begin.Unopened { aloneHeader with version := 0 } 1 := by
    simp [Session.begin, Session.Unopened, alone, hf]
    rfl
  refine not_atomicAt_unopened ?_ hbegin ?_ rfl hatomic
  · have hset : Ensures (Session.Unopened { aloneHeader with version := 0 } 1)
        (setHeader fun h => { h with retention := policy })
        (fun _ s => s.Unopened { aloneHeader with version := 0 } 1)
        (Session.Reverts { aloneHeader with version := 0 }) := by
      intro s hs
      refine ⟨fun a s' hrun => ?_, fun e s' hrun => ?_⟩
      · cases hrun
        exact hs
      · cases hrun
    exact hset.bind fun _ => (ensures_headerSave_unopened _ _).bind fun _ =>
      ensures_appendDb_unopened _ _ _ _ _ _ _ _
  · intro heq
    cases congrArg Header.version heq

/-- The session in which the body of a retention change runs once `BEGIN` was taken. -/
def aloneBegun (f : Faults) : Session :=
  { alone f with before := some (alone f).tables, savedHeader := aloneHeader, txnDepth := 1 }

theorem begin_alone (hf : f.beginFails = false) : (alone f).begin = aloneBegun f :=
  if_pos ⟨rfl, rfl, hf⟩

theorem not_atomicAt_stray {e : GrError} {s' : Session} (hf : f.beginFails = false)
    (hrun : (retentionBody crypto clk policy).run (aloneBegun f) = .error e s')
    (hstray : s'.rollback.tables.headers = (alone f).tables.headers ++ [b]) :
    ¬ AtomicAt Session.shown (Db.retentionSet crypto clk policy (member 1)) (alone f) := by
  intro h
  have hbody := run_transact_error (s := alone f) (begin_alone f hf ▸ hrun)
  have hshown := h e s'.rollback ((run_retentionSet crypto clk policy f).trans hbody)
  have hheaders : s'.rollback.tables.headers = (alone f).tables.headers :=
    congrArg (fun v : Header × Tables × ℕ => v.2.1.headers) hshown
  rw [hstray] at hheaders
  exact absurd (congrArg List.length hheaders) (by simp)

def aloneSet (policy : Retention) (f : Faults) : Session :=
  { aloneBegun f with header := { aloneHeader with retention := policy } }

theorem run_aloneSet (policy : Retention) (f : Faults) :
    (setHeader fun h => { h with retention := policy }).run (aloneBegun f) =
      .ok ⟨⟩ (aloneSet policy f) := rfl

theorem not_stray_of_atomic (hf : f.beginFails = false)
    (h : AtomicAt Session.shown (Db.retentionSet crypto clk policy (member 1)) (alone f)) :
    ¬ f.save.Stray := by
  intro hs
  obtain ⟨s', hsave, hstray⟩ := run_headerSave_stray (s := aloneSet policy f)
    (t := (alone f).tables) (b := aloneHeader) rfl rfl rfl hs
  have hbody : (retentionBody crypto clk policy).run (aloneBegun f) = .error .db s' := by
    unfold retentionBody
    rw [run_bind_ok (run_aloneSet policy f)]
    exact run_bind_error hsave
  exact not_atomicAt_stray crypto clk policy f hf hbody hstray h

theorem not_stray_next_of_atomic (hf : f.beginFails = false) (htaken : f.save.Taken)
    (happend : f.appendFails = false)
    (h : AtomicAt Session.shown (Db.retentionSet crypto clk policy (member 1)) (alone f)) :
    ¬ f.next.save.Stray := by
  intro hs
  obtain ⟨s₁, hfirst, hfaults, hbefore, hdepth, hbound⟩ : ∃ s₁ : Session,
      headerSave.run (aloneSet policy f) = .ok ⟨⟩ s₁ ∧ s₁.faults = f.next ∧
        s₁.before = some (alone f).tables ∧ s₁.txnDepth = 1 ∧
        s₁.bound = some (aloneSet policy f).header :=
    ⟨_, run_headerSave_taken rfl htaken, rfl, rfl, rfl, rfl⟩
  have happend : s₁.faults.appendFails = false := hfaults ▸ happend
  obtain ⟨h', log, _, hrun⟩ := run_appendDb crypto .retentionSet (member 1) none
    (ascii "retention policy updated") clk.ns happend
  have hsecond : s₁.faults.save.Stray := hfaults ▸ hs
  obtain ⟨s', hsave, hstray⟩ := run_headerSave_stray
    (s := { s₁.asked with header := h', tables := { s₁.tables with auditLog := log } })
    hdepth hbefore hbound hsecond
  have hbody : (retentionBody crypto clk policy).run (aloneBegun f) = .error .db s' := by
    unfold retentionBody
    rw [run_bind_ok (run_aloneSet policy f), run_bind_ok hfirst, hrun]
    exact run_bind_error hsave
  exact not_atomicAt_stray crypto clk policy f hf hbody hstray h

def trusting : Crypto where
  skein := prefixHash
  sign _ _ := zeroBytes 4627
  verify _ _ _ := true

def newerHeader : Header := { aloneHeader with version := 2 }

def newerBlob : List Byte := grSerialize (bare newerHeader) .full

theorem installDb_none (r : Reader α) (ins : Tables → α → Option Tables) (ser : α → List Byte)
    (rest : List Byte) : installDb r ins (serCounted ser [] ++ rest) = pure rest := by
  have hread : readU32.run (serCounted ser [] ++ rest) = some (0, rest) := by
    rw [serCounted, List.flatMap_nil, List.append_nil]
    exact readLe_append 0 rest (by norm_num)
  unfold installDb
  rw [hread]
  rfl

theorem serTables_bare (h : Header) : serTables (bare h) .full =
    serCounted serPeer [] ++ (serCounted serRole [] ++ (serCounted serWebapp [] ++
      (serCounted (serServer .full) [] ++ (serCounted (serServer .full) [] ++
        (serCounted serEpoch [] ++ (serCounted serAudit [] ++ [])))))) := by
  simp [serTables, stateOf, serverList, auditList, bare, Table.empty, serCounted]

theorem installTables_bare (h : Header) : installTables 4 (serTables (bare h) .full) = pure ⟨⟩ := by
  unfold installTables
  rw [serTables_bare]
  simp only [installDb_none, pure_bind]

theorem neverThrows_clearTables : NeverThrows clearTables :=
  neverThrows_execute.bind fun _ => neverThrows_execute.bind fun _ =>
    neverThrows_execute.bind fun _ => neverThrows_execute.bind fun _ =>
      neverThrows_execute.bind fun _ => neverThrows_execute.bind fun _ => neverThrows_pure _

def bareBody : Db PUnit := do
  clearTables
  installTables 4 (serTables (bare newerHeader) .full)
  setHeader fun _ => newerHeader
  headerSave

theorem run_deserializeDb : (deserializeDb trusting newerBlob).run (alone f) =
    (transact bareBody).run (alone f) := by
  have hpre : (readPreamble trusting (alone f).reg).run newerBlob =
      .ok ((4, newerHeader), serTables (bare newerHeader) .full) :=
    readPreamble_grSerialize .full rfl rfl
  have hget : (get : Db Session).run (alone f) = .ok (alone f) (alone f) := rfl
  have hnewer : ¬ newerHeader.version ≤ (alone f).header.version := by
    change ¬ (2 : BitVec 32) ≤ 1
    decide
  unfold deserializeDb
  rw [run_bind_ok hget, hpre]
  exact congrArg (fun x : Db PUnit => x.run (alone f)) (if_neg hnewer)

theorem run_bareBody (htaken : f.save.Taken) : ∃ s, bareBody.run (aloneBegun f) = .ok ⟨⟩ s ∧
    s.header = newerHeader ∧ s.Inside (alone f).tables (alone f).header f.next := by
  cases hclear : clearTables.run (aloneBegun f) with
  | error e s₁ => exact ((neverThrows_clearTables (aloneBegun f) trivial).2 e s₁ hclear).elim
  | ok a s₁ =>
    have haround := around_clearTables.ok hclear
    simp only [Session.around, Session.base, Prod.mk.injEq] at haround
    obtain ⟨_, hb, hh, hd, hp⟩ := haround
    have hsave : s₁.faults.placed.save = f.placed.save := congrArg Faults.save hp
    change s₁.faults.save = f.save at hsave
    have hlast := run_headerSave_taken (s := { s₁ with header := newerHeader }) hd (hsave ▸ htaken)
    have hrun : bareBody.run (aloneBegun f) = headerSave.run { s₁ with header := newerHeader } := by
      unfold bareBody
      rw [run_bind_ok hclear, installTables_bare, pure_bind, run_bind_ok (run_setHeader _)]
    exact ⟨_, hrun.trans hlast, rfl, congrArg₂ Prod.mk hb (congrArg₂ Prod.mk hh
      (congrArg₂ Prod.mk hd (congrArg Faults.next hp)))⟩

theorem commitFails_of_atomic (hf : f.beginFails = false) (htaken : f.save.Taken)
    (h : AtomicAt Session.shown (deserializeDb trusting newerBlob) (alone f)) :
    f.commitFails = false := by
  obtain ⟨s, hbody, hhead, hin⟩ := run_bareBody f htaken
  rw [← begin_alone f hf] at hbody
  have hrun := (run_deserializeDb f).trans (run_transact_ok hbody)
  cases hcommit : s.commit.1 with
  | true =>
    have hnext := commitFails_of_commit hin hcommit
    exact hnext
  | false =>
    rw [hcommit] at hrun
    have hshown := h .db _ hrun
    rw [(shown_commit hin hcommit).1, hhead] at hshown
    cases congrArg (fun v : Header × Tables × ℕ => v.1.version) hshown

end Necessary

/-- A failed call leaves header, tables and depth as they were, whichever mutator it is and from
whatever state between two calls, exactly under the placements that `Safe` describes. -/
theorem calls_atomic_iff (f : Faults) :
    (∀ (crypto : Crypto) (clk : Clock) (c : Call) (s : Session), s.Idle → s.faults = f →
      AtomicAt Session.shown (c.run crypto clk) s) ↔ f.Safe := by
  constructor
  · intro h
    have hset := h trusting ⟨0, 0⟩ (.retentionSet retentionDefaults (member 1)) (alone f)
      (alone_idle f) rfl
    have hfull := h trusting ⟨0, 0⟩ (.deserialize newerBlob) (alone f) (alone_idle f) rfl
    have hbegin := beginFails_of_atomic _ _ _ f hset
    refine ⟨hbegin, not_stray_of_atomic _ _ _ f hbegin hset, fun htaken => ?_⟩
    exact ⟨commitFails_of_atomic f hbegin htaken hfull, fun happend =>
      not_stray_next_of_atomic _ _ _ f hbegin htaken happend hset⟩
  · intro hf crypto clk c s hs hfaults
    exact (bracketed_run c).guarded hf s hs (congrArg Faults.placed hfaults)

/-- Only the `COMMIT` is refused. -/
def commitRefused : Faults := ⟨false, false, true, [], []⟩

theorem deserialize_not_atomic :
    (alone commitRefused).Idle ∧
      ¬ AtomicAt Session.shown ((Call.deserialize newerBlob).run trusting ⟨0, 0⟩)
        (alone commitRefused) := by
  refine ⟨alone_idle _, fun h => ?_⟩
  cases commitFails_of_atomic commitRefused rfl ⟨rfl, rfl, rfl⟩ h

end YumiBrowser.Group
