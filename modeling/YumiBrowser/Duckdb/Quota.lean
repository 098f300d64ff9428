import YumiBrowser.Duckdb.Sandbox

namespace YumiBrowser.Duckdb

open Wire Handles

variable {E : Engine}

def Effect.Grows : Effect → Prop
  | .ran type => type = .insert ∨ type = .update ∨ type = .create
  | .stored _ => True

def StatementType.shrinks : StatementType → Bool
  | .delete | .drop => true
  | _ => false

namespace Connection

variable {c : Connection E} {stmt : Statement E.Body} {stmts rest : List (Statement E.Body)} {effect : Effect}
  {bound : List (ℕ × Value)}

theorem effects_perform (h : effect ∈ (c.perform stmt bound).effects) : ∃ T, effect = .ran T := by
  cases stmt with
  | plain q => exact ⟨_, List.mem_singleton.mp h⟩
  | prepare name q => exact ⟨_, List.mem_singleton.mp h⟩
  | execute name args =>
    unfold perform at h
    dsimp only at h
    split at h
    · exact ⟨_, List.mem_singleton.mp h⟩
    · cases h with
      | head => exact ⟨_, rfl⟩
      | tail _ h => exact ⟨_, List.mem_singleton.mp h⟩

theorem perform_effects_ne_nil : (c.perform stmt bound).effects ≠ [] :=
  List.ne_nil_of_mem (ran_perform.mpr (.inl rfl))

theorem execute_effects_eq_nil : (c.execute stmt bound).effects = [] ↔ ¬ c.Prepares stmt := by
  by_cases h : c.Prepares stmt
  · rw [execute_of_prepares h]
    exact iff_of_false perform_effects_ne_nil (not_not_intro h)
  · exact iff_of_true (execute_of_not h).2 h

theorem effects_execute (h : effect ∈ (c.execute stmt bound).effects) : ∃ T, effect = .ran T := by
  by_cases hprepares : c.Prepares stmt
  · rw [execute_of_prepares hprepares] at h
    exact effects_perform h
  · rw [(execute_of_not hprepares).2] at h
    exact nomatch h

theorem effects_ran (h : effect ∈ (c.query stmts).effects) : ∃ T, effect = .ran T := by
  induction stmts generalizing c with
  | nil => exact nomatch h
  | cons stmt rest ih =>
    rw [effects_query, List.mem_append] at h
    cases h with
    | inl h => exact effects_execute h
    | inr h =>
      split at h
      · exact nomatch h
      · exact ih h

theorem query_effects_eq_nil : (c.query (stmt :: rest)).effects = [] ↔ ¬ c.Prepares stmt := by
  rw [effects_query, List.append_eq_nil_iff, execute_effects_eq_nil]
  refine and_iff_left_of_imp fun h => ?_
  rw [if_pos (execute_of_not h).1]

end Connection

namespace Appender

def Stores (c : Connection E) (ap : Appender E) : Prop :=
  ap.row = [] ∧ ap.rows ≠ [] ∧ ∃ table db, ap.table = .ok table ∧ E.insert c.db table ap.rows = .ok db

def Fills (ap : Appender E) : Prop :=
  ∃ table, ap.table = .ok table ∧ E.endRow table ap.row = true ∧ E.full (ap.rows ++ [ap.row]) = true

def rowEnded (ap : Appender E) : Appender E := { ap with rows := ap.rows ++ [ap.row], row := [] }

variable {c : Connection E} {ap : Appender E}

theorem effects_flush : (ap.flush c).2.2.2 ≠ [] ↔ ap.Stores c := by
  unfold flush Stores
  cases htable : ap.table with
  | error e => simp
  | ok table =>
    dsimp only
    split
    · simp [*]
    · split
      · simp [*]
      · cases hinsert : E.insert c.db table ap.rows with
        | error e => simp [hinsert]
        | ok db => simp_all

theorem effects_close : (ap.close c).2.2.2 ≠ [] ↔ ap.Stores c := by
  unfold close
  split
  · rename_i hrow
    exact iff_of_false (absurd rfl) fun h => hrow h.1
  · exact effects_flush

theorem effects_endRow : (ap.endRow c).2.2.2 ≠ [] ↔ ap.Fills ∧ ap.rowEnded.Stores c := by
  unfold endRow Fills
  cases htable : ap.table with
  | error e => simp
  | ok table =>
    dsimp only
    split
    · split
      · rw [effects_flush]
        simp_all [rowEnded]
      · simp_all
    · simp_all

end Appender

namespace Bindings

variable (host : ℕ → Byte) (s : Bindings E)

/-- Over quota, nothing more is stored, and what deletes or drops is run as it would be without one. -/
structure QuotaKept (event : Event) : Prop where
  stores : ∀ effect ∈ (s.next host event).2.effects, ¬ effect.Grows
  frees_text : ∀ ptr len stmts, event = .call (.query ptr len) → E.extract (s.memReadString ptr len).1 = .ok stmts →
    (∀ stmt ∈ stmts, stmt.type.shrinks = true) →
    (s.next host event).2.effects = (s.connection.query stmts).effects
  frees_prepared : ∀ h p, event = .call (.executePrepared h) → htableGet s.htPrepared h = some p →
    p.type.shrinks = true → (s.next host event).2.effects = (p.run s.connection).effects

/-- None of what the quota gate does not see, or stops without need. -/
def Spares : Event → Prop
  | .call (.query ptr len) => ∀ stmts, E.extract (s.memReadString ptr len).1 = .ok stmts →
      (s.Refused stmts ∨ ∀ x ∈ s.connection.reached stmts, ∀ T, x.1.Unwraps x.2 T → ¬ (Effect.ran T).Grows) ∧
        ((∀ stmt ∈ stmts, stmt.type.shrinks = true) → ∀ stmt, stmts.head? = some stmt → ¬ s.connection.Prepares stmt)
  | .call (.executePrepared h) => ∀ p, htableGet s.htPrepared h = some p → ∀ stmt, p.stmt = .ok stmt →
      s.connection.Prepares stmt →
      stmt.type.shrinks = false ∧ ∀ T, s.connection.Unwraps stmt T → ¬ (Effect.ran T).Grows
  | .call (.appenderDestroy h) | .call (.appenderClose h) => ∀ ap, htableGet s.htAppender h = some ap →
      ¬ ap.Stores s.connection
  | .call (.appenderEndRow h) => ∀ ap, htableGet s.htAppender h = some ap →
      ¬ (ap.Fills ∧ ap.rowEnded.Stores s.connection)
  | _ => True

variable {host s} {event : Event} {T : StatementType} {stmts : List (Statement E.Body)} {h ptr len : BitVec 32}

theorem quotaKept_of_idle (hnone : (s.next host event).2.effects = [])
    (hquery : ∀ ptr len, event ≠ .call (.query ptr len)) (hexecute : ∀ h, event ≠ .call (.executePrepared h)) :
    s.QuotaKept host event where
  stores effect heffect := by
    rw [hnone] at heffect
    exact nomatch heffect
  frees_text ptr len _ hevent := absurd hevent (hquery ptr len)
  frees_prepared h _ hevent := absurd hevent (hexecute h)

theorem writer_of_grows (h : (Effect.ran T).Grows) : isWriterStmt T = true := by
  obtain rfl | rfl | rfl := h
  all_goals rfl

theorem writer_of_shrinks (h : T.shrinks = true) : isWriterStmt T = true := by
  cases T with
  | delete => rfl
  | drop => rfl
  | _ => exact nomatch h

theorem refused_of_shrinks (hover : s.quotaExceeded = true) {stmt : Statement E.Body} (hmem : stmt ∈ stmts)
    (hshrinks : stmt.type.shrinks = true) : s.Refused stmts :=
  .inr ⟨hover, stmt, hmem, fun _ => writer_of_shrinks hshrinks⟩

theorem passed (hover : s.quotaExceeded = true) (h : ¬ s.Refused stmts) {stmt : Statement E.Body}
    (hmem : stmt ∈ stmts) : isWriterStmt stmt.type = false := by
  rw [← Bool.not_eq_true]
  exact fun hwriter => h (.inr ⟨hover, stmt, hmem, fun _ => hwriter⟩)

theorem frees_text_iff (hover : s.quotaExceeded = true) (htext : E.extract (s.memReadString ptr len).1 = .ok stmts)
    (hshrinks : ∀ stmt ∈ stmts, stmt.type.shrinks = true) :
    (s.fnQuery ptr len).2.effects = (s.connection.query stmts).effects ↔
      ∀ stmt, stmts.head? = some stmt → ¬ s.connection.Prepares stmt := by
  cases stmts with
  | nil =>
    refine iff_of_true ?_ fun _ h => nomatch h
    exact List.eq_nil_iff_forall_not_mem.mpr fun effect heffect => nomatch ((effects_fnQuery htext).mp heffect).2
  | cons stmt rest =>
    have hrefused : s.Refused (stmt :: rest) :=
      refused_of_shrinks hover List.mem_cons_self (hshrinks stmt List.mem_cons_self)
    have hnone : (s.fnQuery ptr len).2.effects = [] :=
      List.eq_nil_iff_forall_not_mem.mpr fun effect heffect => ((effects_fnQuery htext).mp heffect).1 hrefused
    rw [hnone, eq_comm, Connection.query_effects_eq_nil]
    simp

theorem stores_text_iff (hover : s.quotaExceeded = true)
    (htext : E.extract (s.memReadString ptr len).1 = .ok stmts) :
    (∀ effect ∈ (s.fnQuery ptr len).2.effects, ¬ effect.Grows) ↔
      (s.Refused stmts ∨ ∀ x ∈ s.connection.reached stmts, ∀ T, x.1.Unwraps x.2 T → ¬ (Effect.ran T).Grows) := by
  simp only [effects_fnQuery htext]
  constructor
  · refine fun h => or_iff_not_imp_left.mpr fun hpassed x hx T hT => ?_
    exact h _ ⟨hpassed, Connection.ran_query.mpr ⟨x, hx, .inr hT⟩⟩
  · rintro h effect ⟨hpassed, heffect⟩
    obtain ⟨T, rfl⟩ := Connection.effects_ran heffect
    obtain ⟨x, hx, htype | hT⟩ := Connection.ran_query.mp heffect
    · intro hgrows
      rw [← htype] at hgrows
      exact Bool.false_ne_true
        ((passed hover hpassed (Connection.mem_of_reached hx)).symm.trans (writer_of_grows hgrows))
    · exact h.resolve_left hpassed x hx T hT

theorem quotaKept_query (hover : s.quotaExceeded = true) :
    s.QuotaKept host (.call (.query ptr len)) ↔ s.Spares (.call (.query ptr len)) := by
  constructor
  · intro h stmts htext
    exact ⟨(stores_text_iff hover htext).mp h.stores,
      fun hshrinks => (frees_text_iff hover htext hshrinks).mp (h.frees_text ptr len stmts rfl htext hshrinks)⟩
  · intro h
    refine ⟨?_, fun ptr len stmts hevent htext hshrinks => ?_, fun _ _ hevent => nomatch hevent⟩
    · cases htext : E.extract (s.memReadString ptr len).1 with
      | error e =>
        change ∀ effect ∈ (s.fnQuery ptr len).2.effects, _
        rw [effects_query_of_error htext]
        exact fun _ heffect => nomatch heffect
      | ok stmts => exact (stores_text_iff hover htext).mpr (h stmts htext).1
    · cases hevent
      exact (frees_text_iff hover htext hshrinks).mpr ((h stmts htext).2 hshrinks)

section Prepared

variable {p : Prepared E} {stmt : Statement E.Body}

theorem frees_prepared_iff (hover : s.quotaExceeded = true) (hp : htableGet s.htPrepared h = some p)
    (hstmt : p.stmt = .ok stmt) (hshrinks : stmt.type.shrinks = true) :
    (s.fnExecutePrepared h).2.effects = (p.run s.connection).effects ↔ ¬ s.connection.Prepares stmt := by
  have htype : p.type = stmt.type := by rw [Prepared.type, hstmt]
  have hnone : (s.fnExecutePrepared h).2.effects = [] := by
    refine List.eq_nil_iff_forall_not_mem.mpr fun effect heffect => ?_
    exact ((effects_fnExecutePrepared hp).mp heffect).2.1 ⟨hover, htype ▸ writer_of_shrinks hshrinks⟩
  rw [hnone, eq_comm, Prepared.run, hstmt]
  exact Connection.execute_effects_eq_nil

theorem stores_prepared_iff (hover : s.quotaExceeded = true) (hp : htableGet s.htPrepared h = some p)
    (hstmt : p.stmt = .ok stmt) :
    (∀ effect ∈ (s.fnExecutePrepared h).2.effects, ¬ effect.Grows) ↔
      (s.connection.Prepares stmt → ∀ T, s.connection.Unwraps stmt T → ¬ (Effect.ran T).Grows) := by
  simp only [effects_fnExecutePrepared hp, Prepared.type, Prepared.run, hstmt]
  constructor
  · intro h hprepares T hT
    refine h _ ⟨?_, ?_, Connection.ran_execute.mpr ⟨hprepares, .inr hT⟩⟩
    · rw [hT.type_eq]
      rfl
    · rw [hT.type_eq]
      exact fun hwriter => Bool.false_ne_true hwriter.2
  · rintro h effect ⟨_, hreader, heffect⟩
    obtain ⟨T, rfl⟩ := Connection.effects_execute heffect
    obtain ⟨hprepares, htype | hT⟩ := Connection.ran_execute.mp heffect
    · exact fun hgrows => hreader ⟨hover, writer_of_grows (htype ▸ hgrows)⟩
    · exact h hprepares T hT

end Prepared

theorem quotaKept_executePrepared (hover : s.quotaExceeded = true) :
    s.QuotaKept host (.call (.executePrepared h)) ↔ s.Spares (.call (.executePrepared h)) := by
  constructor
  · intro hkept p hp stmt hstmt hprepares
    have htype : p.type = stmt.type := by rw [Prepared.type, hstmt]
    refine ⟨?_, (stores_prepared_iff hover hp hstmt).mp hkept.stores hprepares⟩
    rw [← Bool.not_eq_true]
    intro hshrinks
    exact (frees_prepared_iff hover hp hstmt hshrinks).mp (hkept.frees_prepared h p rfl hp (htype ▸ hshrinks)) hprepares
  · intro hspares
    refine ⟨?_, (fun _ _ _ hevent => by cases hevent), fun h' p hevent hp hshrinks => ?_⟩
    · change ∀ effect ∈ (s.fnExecutePrepared h).2.effects, _
      cases hp : htableGet s.htPrepared h with
      | none =>
        unfold fnExecutePrepared
        rw [hp]
        exact fun _ heffect => absurd heffect List.not_mem_nil
      | some p =>
        cases hstmt : p.stmt with
        | error e =>
          intro effect heffect
          have hrun := ((effects_fnExecutePrepared hp).mp heffect).2.2
          rw [Prepared.run, hstmt] at hrun
          exact absurd hrun List.not_mem_nil
        | ok stmt =>
          exact (stores_prepared_iff hover hp hstmt).mpr fun hprepares => (hspares p hp stmt hstmt hprepares).2
    · cases hevent
      cases hstmt : p.stmt with
      | error e =>
        rw [Prepared.type, hstmt] at hshrinks
        exact absurd hshrinks Bool.false_ne_true
      | ok stmt =>
        rw [Prepared.type, hstmt] at hshrinks
        refine (frees_prepared_iff hover hp hstmt hshrinks).mpr fun hprepares => ?_
        exact Bool.false_ne_true ((hspares p hp stmt hstmt hprepares).1.symm.trans hshrinks)

section Appenders

variable {ap : Appender E}

theorem grows_of_not_ran {effects : List Effect} (hran : ∀ T, .ran T ∉ effects) :
    (∀ effect ∈ effects, ¬ effect.Grows) ↔ ¬ effects ≠ [] := by
  rw [not_not, List.eq_nil_iff_forall_not_mem]
  refine forall_congr' fun effect => ?_
  cases effect with
  | ran T => exact iff_of_true (fun h => absurd h (hran T)) (hran T)
  | stored rows => simp [Effect.Grows]

theorem quotaKept_stores (hquery : ∀ ptr len, event ≠ .call (.query ptr len))
    (hexecute : ∀ h, event ≠ .call (.executePrepared h)) :
    s.QuotaKept host event ↔ ∀ effect ∈ (s.next host event).2.effects, ¬ effect.Grows :=
  ⟨QuotaKept.stores, fun hstores => ⟨hstores, fun ptr len _ hevent => absurd hevent (hquery ptr len),
    fun h _ hevent => absurd hevent (hexecute h)⟩⟩

theorem quotaKept_close (call : Call) (hquery : ∀ ptr len, call ≠ .query ptr len)
    (hexecute : ∀ h, call ≠ .executePrepared h) {effects : Appender E → List Effect} {Stores : Appender E → Prop}
    (hcall : (s.call host call).2.effects = (htableGet s.htAppender h).elim [] effects)
    (heffects : ∀ ap, effects ap ≠ [] ↔ Stores ap) :
    s.QuotaKept host (.call call) ↔ ∀ ap, htableGet s.htAppender h = some ap → ¬ Stores ap := by
  rw [quotaKept_stores (fun ptr len hevent => hquery ptr len (Event.call.inj hevent))
    fun h hevent => hexecute h (Event.call.inj hevent)]
  change (∀ effect ∈ (s.call host call).2.effects, _) ↔ _
  rw [grows_of_not_ran fun T => ran_appender hquery hexecute, hcall]
  cases htableGet s.htAppender h with
  | none => simp
  | some ap => simp [← heffects]

end Appenders

theorem quotaKept_iff (hover : s.quotaExceeded = true) (event : Event) :
    s.QuotaKept host event ↔ s.Spares event := by
  cases event with
  | memory m => exact iff_of_true (quotaKept_of_idle rfl (fun _ _ h => nomatch h) fun _ h => nomatch h) trivial
  | setQuota q => exact iff_of_true (quotaKept_of_idle rfl (fun _ _ h => nomatch h) fun _ h => nomatch h) trivial
  | call call =>
    cases call with
    | query ptr len => exact quotaKept_query hover
    | executePrepared h => exact quotaKept_executePrepared hover
    | appenderDestroy h =>
      refine quotaKept_close (.appenderDestroy h) (fun _ _ h => nomatch h) (fun _ h => nomatch h) ?_
        fun ap => Appender.effects_close
      change (s.fnAppenderDestroy h).2.effects = _
      unfold fnAppenderDestroy
      cases htableGet s.htAppender h <;> rfl
    | appenderClose h =>
      refine quotaKept_close (.appenderClose h) (fun _ _ h => nomatch h) (fun _ h => nomatch h) ?_
        fun ap => Appender.effects_close
      change (s.fnAppenderClose h).2.effects = _
      unfold fnAppenderClose
      cases htableGet s.htAppender h <;> rfl
    | appenderEndRow h =>
      refine quotaKept_close (.appenderEndRow h) (fun _ _ h => nomatch h) (fun _ h => nomatch h) ?_
        fun ap => Appender.effects_endRow
      change (s.fnAppenderEndRow h).2.effects = _
      unfold fnAppenderEndRow
      cases htableGet s.htAppender h <;> rfl
    | appenderFlush h =>
      refine iff_of_true (quotaKept_of_idle ?_ (fun _ _ h => nomatch h) fun _ h => nomatch h) trivial
      change (s.fnAppenderFlush h).2.effects = _
      unfold fnAppenderFlush
      split
      · rfl
      · rw [if_pos hover]
        rfl
    | _ =>
      exact iff_of_true (quotaKept_of_idle (effects_idle rfl) (fun _ _ h => nomatch h) fun _ h => nomatch h) trivial

/-- The guest is at its quota, or over it. -/
def OverQuota (s : Bindings E) : Prop := 0 < s.quotaBytes ∧ s.quotaBytes ≤ s.ddbDiskUsage

theorem OverQuota.exceeded (h : s.OverQuota) : s.quotaExceeded = true :=
  decide_eq_true ⟨Nat.ne_of_gt h.1, h.2⟩

/-- The quota is kept throughout a run exactly where none of its calls gets round the gate, or is
stopped by it without need. -/
theorem quota_throughout_iff (host : ℕ → Byte) (s : Bindings E) (events : List Event) :
    s.Throughout host (fun s event => s.OverQuota → s.QuotaKept host event) events ↔
      s.Throughout host (fun s event => s.OverQuota → s.Spares event) events :=
  s.throughout_congr host fun _ event => imp_congr_right fun hover => quotaKept_iff hover.exceeded event

theorem insert_executed : ¬ ∀ events,
    ({ tableBindings ⟨true, 1⟩ "PREPARE p AS INSERT INTO t VALUES (1)" with quotaBytes := 4096 }).Throughout
      (fun _ => 0) (fun s event => s.OverQuota → s.QuotaKept (fun _ => 0) event) events := by
  intro hall
  have hkept := (hall [.call (.query 0 37), .memory (some (utf8 "EXECUTE p")), .call (.query 0 9)]).2.2.1
    ⟨by decide +kernel, by decide +kernel⟩
  exact hkept.stores (.ran .insert) (by decide +kernel) (.inl rfl)

end Bindings

end YumiBrowser.Duckdb
