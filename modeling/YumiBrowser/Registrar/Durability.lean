import YumiBrowser.Library.System
import YumiBrowser.Registrar.Atomicity
import YumiBrowser.Registrar.HeaderStore

namespace YumiBrowser.Group

open Wire Keyed Fallible Transition

/-- The header in memory is the one row of `gr_header`. -/
def Session.Durable (s : Session) : Prop := s.tables.headers = [s.header]

def Session.headers (s : Session) : List Header := s.tables.headers

section Statements

variable {α : Type} {x : Db α} {edit : Session → Option Tables} {s : Session}

theorem headers_reads (h : Leaves Session.frame x) : Leaves Session.headers x :=
  h.mono Session.headers fun _ => rfl

theorem header_around (h : Leaves Session.around x) : Leaves Session.header x := h.mono Prod.fst fun _ => rfl

theorem headers_execute (h : ∀ s t, edit s = some t → t.headers = s.tables.headers) :
    Leaves Session.headers (execute edit) := by
  refine (headers_reads reads_answer).bind fun taken => ?_
  intro s
  have hget : (get : Db Session).run s = .ok s s := rfl
  unfold after
  rw [run_bind_ok hget]
  cases taken with
  | false => rfl
  | true =>
    cases hedit : edit s with
    | none => rfl
    | some tables => exact h s tables hedit

theorem apart_headers : Apart Session.headers where
  of_frame := headers_reads
  of_execute := headers_execute

theorem headers_setHeader (f : Header → Header) : Leaves Session.headers (setHeader f) :=
  leaves_modify fun _ => rfl

theorem durable_of_leaves (hx : Leaves Session.header x) (hrows : Leaves Session.headers x) (hs : s.Durable) :
    (after x s).Durable := by
  have hhead := hx s
  have hheaders := hrows s
  unfold Session.Durable
  change Session.headers (after x s) = _
  rw [hheaders, hhead]
  exact hs

theorem ensures_durable (hx : Leaves Session.header x) (hrows : Leaves Session.headers x) :
    Ensures Session.Durable x (fun _ => Session.Durable) fun _ => True := by
  intro s hs
  have hafter := durable_of_leaves hx hrows hs
  refine ⟨fun a t ht => ?_, fun _ _ _ => trivial⟩
  rwa [after_ok ht] at hafter

theorem ensures_durable_enforceRetentionDb :
    Ensures Session.Durable enforceRetentionDb (fun _ => Session.Durable) fun _ => True :=
  ensures_durable (header_around around_enforceRetentionDb) (apart_enforceRetentionDb apart_headers)

theorem header_begin (s : Session) : s.begin.header = s.header := by
  unfold Session.begin
  split <;> rfl

theorem header_commit (s : Session) : s.commit.2.header = s.header := by
  unfold Session.commit
  split
  · rfl
  split
  · rfl
  split
  · rfl
  split <;> rfl

theorem durable_commit (hs : s.Durable) (hcommit : s.commit.1 = true) : s.commit.2.Durable := by
  unfold Session.commit at hcommit ⊢
  split
  · exact hs
  split
  · exact hs
  split
  · exact hs
  · rename_i hdepth hone _ t hbefore
    rw [if_neg hdepth, if_neg hone, hbefore] at hcommit
    split
    · rename_i hfails
      dsimp only at hcommit
      rw [if_pos hfails] at hcommit
      cases hcommit
    · exact hs

theorem ensures_headerSave_stores (p : Header → Prop) :
    Ensures (fun s => p s.header) headerSave (fun _ s => p s.header ∧ s.Durable) fun _ => True := by
  have hfails : ∀ {β : Type} {P : Session → Prop} (y : Db β) (e : GrError),
      Ensures P (do let _ ← y; throw e : Db PUnit) (fun _ s => p s.header ∧ s.Durable) fun _ => True :=
    fun y e => (ensures_trivial y).bind fun _ => ensures_throw fun _ _ => trivial
  have hheader : ∀ {β : Type} {y : Db β}, Leaves Session.header y →
      Ensures (fun s => p s.header) y (fun _ s => p s.header) fun _ => True :=
    fun hy => (ensures_of_leaves hy).weaken (fun _ hs => hs) (fun _ _ hs => hs) fun _ _ => trivial
  have htake : Leaves Session.header takeSave := fun _ => rfl
  have hempty : Leaves Session.header (setHeaders fun _ => []) := leaves_modify fun _ => rfl
  have hbound : ∀ ok, Leaves Session.header (bindHeader ok) := fun _ => leaves_modify fun _ => rfl
  have hstore : Ensures (fun s => p s.header) (setHeaders fun s => [s.header])
      (fun _ s => p s.header ∧ s.Durable) fun _ => True := ensures_modify fun s hs => ⟨hs, rfl⟩
  have hcommit : Ensures (fun s => p s.header ∧ s.Durable) txnCommit
      (fun ok s => ok = true → p s.header ∧ s.Durable) fun _ => True := by
    refine ensures_modifyGet fun s hs hok => ?_
    rw [header_commit]
    exact ⟨hs.1, durable_commit hs.2 hok⟩
  unfold headerSave
  refine (hheader (leaves_modify header_begin)).bind fun _ => (hheader htake).bind fun f => ?_
  refine ensures_ite (fun _ => ?_) fun _ => ?_
  · refine (ensures_trivial txnRollback).bind fun _ => ?_
    exact ensures_ite (fun _ => hfails _ _) fun _ => ensures_throw fun _ _ => trivial
  refine (hheader hempty).bind fun _ => (hheader (hbound _)).bind fun _ => ?_
  refine ensures_ite (fun _ => ensures_throw fun _ _ => trivial) fun _ => ?_
  refine ensures_ite (fun _ => hfails txnRollback _) fun _ => hstore.bind fun _ => hcommit.bind fun ok => ?_
  exact ensures_ite (fun hok => ensures_pure fun s hs => hs hok) fun _ => hfails txnRollback _

theorem ensures_headerSave_durable :
    Ensures (fun _ => True) headerSave (fun _ => Session.Durable) fun _ => True :=
  (ensures_headerSave_stores fun _ => True).weaken (fun _ hs => hs) (fun _ _ hs => hs.2) fun _ hs => hs

theorem ensures_appendDb_durable (crypto : Crypto) (change : ChangeType) (actor : Identity)
    (target : Option PeerId) (detail : List Byte) (ns : I64) :
    Ensures (fun _ => True) (appendDb crypto change actor target detail ns) (fun _ => Session.Durable)
      fun _ => True := by
  unfold appendDb
  refine (ensures_trivial _).bind fun seen => Ensures.get_bind fun s _ => (ensures_trivial _).bind fun _ => ?_
  refine ensures_ite (fun _ => ensures_throw fun _ _ => trivial) fun _ => ?_
  refine (ensures_trivial _).bind fun _ => (ensures_trivial _).bind fun _ => ensures_headerSave_durable.bind fun _ => ?_
  exact ensures_durable_enforceRetentionDb

end Statements

theorem Body.durable {crypto : Crypto} {body : Db PUnit} (h : Body crypto body) :
    Ensures (fun _ => True) body (fun _ => Session.Durable) fun _ => True := by
  induction h with
  | step hx _ ih => exact (ensures_trivial _).bind ih
  | append => exact ensures_appendDb_durable _ _ _ _ _ _
  | save => exact ensures_headerSave_durable
  | saveAppend => exact (ensures_trivial _).bind fun _ => ensures_appendDb_durable _ _ _ _ _ _
  | appendSave edit =>
    exact (ensures_trivial _).bind fun _ => (ensures_trivial _).bind fun _ => ensures_headerSave_durable

section Calls

variable {α : Type} {crypto : Crypto} {clk : Clock} {f : Faults} {s t : Session}

theorem durable_transact {body : Db α} (hbody : ∀ a t, body.run s.begin = .ok a t → t.Durable)
    (hrun : (transact body).run s = .ok a t) : t.Durable := by
  cases hb : body.run s.begin with
  | error e s' =>
    rw [run_transact_error hb] at hrun
    cases hrun
  | ok a' s' =>
    rw [run_transact_ok hb] at hrun
    split at hrun
    · cases hrun
      exact durable_commit (hbody _ _ hb) ‹_›
    · cases hrun

theorem ensures_mergeAndSave_durable (ver : ℕ) (state : Option DeltaState) (n : ℕ) (bytes : List Byte)
    (tables : Tables) (h : Header) :
    Ensures (fun s => s.Merging tables h f .zero ∧ s.headers = [h]) (mergeAndSave crypto ver state n bytes)
      (fun _ => Session.Durable) fun _ => True := by
  have hmerge := ensures_mergeDeltaDb crypto ver state n bytes (f := f) (t := tables) (h := h)
  have hrows := @apart_mergeDeltaDb _ crypto ver state _ apart_headers headers_setHeader n bytes
  have hkept := hmerge.keeping (p := fun rows => rows = [h]) hrows
  refine (hkept.weaken (fun _ hs => hs) (fun _ _ hs => hs) fun _ _ => trivial).bind fun m => ?_
  have hsave : Ensures (fun s => s.Merging tables h f m ∧ s.headers = [h]) (saveMerged m)
      (fun _ => Session.Durable) fun _ => True := by
    refine ensures_ite (fun _ => ?_) fun hnone => ensures_pure fun s hs => ?_
    · exact ensures_headerSave_durable.weaken (fun _ _ => trivial) (fun _ _ hs => hs) fun _ hs => hs
    · have hnew : m.new = 0 := Nat.eq_zero_of_not_pos fun hpos => hnone (.inl hpos)
      have hhead : s.header = h := hs.1.2 hnew
      exact hs.2.trans (congrArg (fun h => [h]) hhead.symm)
  exact hsave.bind fun _ => ensures_pure fun _ hs => hs

theorem Bracketed.durable {x : Db PUnit} (h : Bracketed crypto x) (hf : f.Safe) :
    ∀ s : Session, s.Idle → s.faults.placed = f.placed → s.Durable →
      ∀ a t, x.run s = .ok a t → t.Durable := by
  have hreads : ∀ {β : Type} {y : Db β} {s t : Session}, Leaves Session.frame y → s.Durable →
      ∀ b, y.run s = .ok b t → t.Durable := by
    intro β y s t hy hs b hrun
    have hframe := congrArg Session.Durable (hy.ok hrun)
    exact hframe.mpr hs
  induction h with
  | reads hx => exact fun s _ _ hs a t hrun => hreads hx hs a hrun
  | statement hedit =>
    intro s _ _ hs a t hrun
    exact (ensures_durable (header_around around_statement) (apart_statement apart_headers hedit) s hs).1 a t hrun
  | guard hx _ ih =>
    intro s hidle hp hs a t hrun
    cases hy : EStateM.run _ s with
    | error e s' =>
      rw [run_bind_error hy] at hrun
      cases hrun
    | ok b s' =>
      rw [run_bind_ok hy] at hrun
      have hidle' := congrArg Session.Idle (hx.ok hy)
      have hp' := congrArg Session.faults (hx.ok hy)
      exact ih b s' (hidle'.mpr hidle) (hp'.trans hp) (hreads hx hs b hy) a t hrun
  | transact hbody =>
    intro s _ _ _ a t hrun
    exact durable_transact (fun b u hu => (hbody.durable s.begin trivial).1 b u hu) hrun
  | merge ver state n bytes =>
    intro s hidle hp hs a t hrun
    cases hy : EStateM.run _ s with
    | error e s' =>
      rw [run_bind_error hy] at hrun
      cases hrun
    | ok m s' =>
      rw [run_bind_ok hy] at hrun
      obtain ⟨hin, hhead⟩ := inside_begin hidle hp hf.1
      have hrows : s.begin.headers = [s.header] := by
        have hbegin : s.begin.headers = s.headers := by
          unfold Session.begin
          split <;> rfl
        exact hbegin.trans hs
      have hmerged : s'.Durable := by
        refine durable_transact (fun b u hu => ?_) hy
        have hsaved := @ensures_mergeAndSave_durable crypto f ver state n bytes s.tables s.header
        exact (hsaved s.begin ⟨⟨hin, fun _ => hhead⟩, hrows⟩).1 b u hu
      have hkeep : Ensures Session.Durable (if 0 < m.new then enforceRetentionDb else pure ())
          (fun _ => Session.Durable) fun _ => True :=
        ensures_ite (fun _ => ensures_durable_enforceRetentionDb) fun _ => ensures_pure fun _ hs => hs
      exact (hkeep s' hmerged).1 a t hrun

theorem Bracketed.durable_after {x : Db PUnit} (h : Bracketed crypto x) (hf : f.Safe) (hidle : s.Idle)
    (hp : s.faults.placed = f.placed) (hs : s.Durable) : (after x s).Durable := by
  unfold after
  cases hrun : x.run s with
  | ok a t => exact h.durable hf s hidle hp hs a t hrun
  | error e t =>
    have hshown := h.guarded hf s hidle hp e t hrun
    have hhead : t.header = s.header := congrArg Prod.fst hshown
    have htables : t.tables = s.tables := congrArg (fun v => v.2.1) hshown
    change t.tables.headers = [t.header]
    rw [htables, hhead]
    exact hs

end Calls

end YumiBrowser.Group
