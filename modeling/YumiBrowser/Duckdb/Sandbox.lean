import YumiBrowser.Duckdb.Calls

namespace YumiBrowser.Duckdb

open Wire Handles

variable {E : Engine}

namespace Connection

/-- A statement of type `T` that an EXECUTE runs. -/
def Unwraps (c : Connection E) (stmt : Statement E.Body) (T : StatementType) : Prop :=
  ∃ name args q, stmt = .execute name args ∧ c.named.lookup name = some q ∧ q.type = T

variable {c : Connection E} {stmt : Statement E.Body} {stmts : List (Statement E.Body)} {T : StatementType}
  {bound : List (ℕ × Value)}

theorem Unwraps.type_eq (h : c.Unwraps stmt T) : stmt.type = .execute := by
  obtain ⟨name, args, q, rfl, _⟩ := h
  rfl

theorem ran_perform : .ran T ∈ (c.perform stmt bound).effects ↔ stmt.type = T ∨ c.Unwraps stmt T := by
  cases stmt with
  | plain q => simp [perform, Statement.type, Unwraps, eq_comm]
  | prepare name q => simp [perform, Statement.type, Unwraps, eq_comm]
  | execute name args =>
    unfold perform
    dsimp only
    split
    · rename_i hnone
      simp [Statement.type, Unwraps, hnone, eq_comm]
    · rename_i q hsome
      simp [Statement.type, Unwraps, hsome, eq_comm]

theorem execute_of_prepares (h : c.Prepares stmt) : c.execute stmt bound = c.perform stmt bound := by
  unfold execute
  rw [h]

theorem execute_of_not (h : ¬ c.Prepares stmt) :
    (c.execute stmt bound).result.error.isSome = true ∧ (c.execute stmt bound).effects = [] := by
  unfold execute
  split
  · exact ⟨rfl, rfl⟩
  · exact absurd ‹_› h

theorem ran_execute :
    .ran T ∈ (c.execute stmt bound).effects ↔ c.Prepares stmt ∧ (stmt.type = T ∨ c.Unwraps stmt T) := by
  by_cases h : c.Prepares stmt
  · rw [execute_of_prepares h, ran_perform, and_iff_right h]
  · simp [(execute_of_not h).2, h]

theorem effects_query (c : Connection E) (stmt : Statement E.Body) (rest : List (Statement E.Body)) :
    (c.query (stmt :: rest)).effects = (c.execute stmt []).effects ++
      if (c.execute stmt []).result.error.isSome then [] else ((c.execute stmt []).connection.query rest).effects := by
  cases rest with
  | nil => simp [query]
  | cons next rest =>
    rw [query]
    · dsimp only
      split
      · rw [List.append_nil]
      · rfl
    · exact List.cons_ne_nil _ _

theorem mem_of_reached {x : Connection E × Statement E.Body} (h : x ∈ c.reached stmts) : x.2 ∈ stmts := by
  induction stmts generalizing c with
  | nil => exact nomatch h
  | cons stmt rest ih =>
    unfold reached at h
    split at h
    · cases h with
      | head => exact List.mem_cons_self
      | tail _ h =>
        split at h
        · exact nomatch h
        · exact List.mem_cons_of_mem _ (ih h)
    · exact nomatch h

theorem ran_query :
    .ran T ∈ (c.query stmts).effects ↔ ∃ x ∈ c.reached stmts, x.2.type = T ∨ x.1.Unwraps x.2 T := by
  induction stmts generalizing c with
  | nil => simp [query, reached]
  | cons stmt rest ih =>
    rw [effects_query, List.mem_append, ran_execute]
    unfold reached
    by_cases h : c.Prepares stmt
    · rw [execute_of_prepares h, if_pos h]
      dsimp only
      by_cases herror : (c.perform stmt []).result.error.isSome = true
      · rw [if_pos herror, if_pos herror]
        simp [h]
      · rw [if_neg herror, if_neg herror, ih, List.exists_mem_cons_iff, and_iff_right h]
    · simp [h, (execute_of_not h).1]

end Connection

namespace Bindings

variable (host : ℕ → Byte) (s : Bindings E)

def Refused (stmts : List (Statement E.Body)) : Prop :=
  (∃ stmt ∈ stmts, s.connection.Prepares stmt ∧ isForbiddenStmt stmt.type = true) ∨
    s.quotaExceeded = true ∧ ∃ stmt ∈ stmts, s.connection.Prepares stmt → isWriterStmt stmt.type = true

/-- No forbidden statement gets past the gate: none becomes preparable only while the text runs, and
none is run by an EXECUTE. -/
def Guarded : Event → Prop
  | .call (.query ptr len) => ∀ stmts, E.extract (s.memReadString ptr len).1 = .ok stmts →
      s.Refused stmts ∨ ∀ x ∈ s.connection.reached stmts,
        (isForbiddenStmt x.2.type = true → s.connection.Prepares x.2) ∧
          ∀ T, x.1.Unwraps x.2 T → isForbiddenStmt T = false
  | .call (.executePrepared h) => ∀ p, htableGet s.htPrepared h = some p → ∀ stmt, p.stmt = .ok stmt →
      s.connection.Prepares stmt → ∀ T, s.connection.Unwraps stmt T → isForbiddenStmt T = false
  | _ => True

/-- No forbidden statement is executed. -/
def Permitted (event : Event) : Prop :=
  ∀ T, .ran T ∈ (s.next host event).2.effects → isForbiddenStmt T = false

variable {host s}

section Gate

variable {c : Connection E} {stmts : List (Statement E.Body)} {T : StatementType} {run : Ran E}
  {forbidden writer : Bool} {what : String} {reads : List Read}

theorem classify_foldl (r : Bool × Bool) :
    (stmts.foldl (fun r stmt =>
      if c.Prepares stmt then (r.1 || isForbiddenStmt stmt.type, r.2 || isWriterStmt stmt.type)
      else (r.1, true)) r) = (r.1 || (classify c stmts).1, r.2 || (classify c stmts).2) := by
  unfold classify
  induction stmts generalizing r with
  | nil => simp
  | cons stmt rest ih =>
    rw [List.foldl_cons, List.foldl_cons, ih, ih (ite ..)]
    split <;> simp [Bool.or_assoc]

theorem classify_cons (stmt : Statement E.Body) :
    classify c (stmt :: stmts) =
      if c.Prepares stmt then
        (isForbiddenStmt stmt.type || (classify c stmts).1, isWriterStmt stmt.type || (classify c stmts).2)
      else ((classify c stmts).1, true) := by
  rw [classify, List.foldl_cons, classify_foldl]
  split <;> simp

theorem classify_forbidden :
    (classify c stmts).1 = true ↔ ∃ stmt ∈ stmts, c.Prepares stmt ∧ isForbiddenStmt stmt.type = true := by
  induction stmts with
  | nil => simp [classify]
  | cons stmt rest ih =>
    rw [classify_cons, List.exists_mem_cons_iff, ← ih]
    split
    · simp [*]
    · simp [*]

theorem classify_writer :
    (classify c stmts).2 = true ↔ ∃ stmt ∈ stmts, c.Prepares stmt → isWriterStmt stmt.type = true := by
  induction stmts with
  | nil => simp [classify]
  | cons stmt rest ih =>
    rw [classify_cons, List.exists_mem_cons_iff, ← ih]
    split
    · simp [*]
    · simp [*]

theorem refused_iff :
    s.Refused stmts ↔ (classify s.connection stmts).1 = true ∨
      s.quotaExceeded = true ∧ (classify s.connection stmts).2 = true := by
  rw [classify_forbidden, classify_writer, Refused]

@[simp] theorem effects_answer (value : Val) : (s.answer value reads).2.effects = [] := rfl

@[simp] theorem effects_refuse (msg : Text) : (s.refuse msg reads).2.effects = [] := rfl

theorem effects_gated : (s.gated forbidden writer what run reads).2.effects =
    if forbidden = true ∨ s.quotaExceeded = true ∧ writer = true then [] else run.effects := by
  unfold gated
  cases forbidden with
  | true => simp
  | false =>
    cases writer with
    | true =>
      cases hquota : s.quotaExceeded with
      | true => simp
      | false => simp [conclude]
    | false => simp [conclude]

end Gate

section Calls

variable {ptr len h : BitVec 32} {stmts : List (Statement E.Body)} {T : StatementType} {effect : Effect}
  {p : Prepared E}

def Call.works : Call → Bool
  | .query .. | .executePrepared _ | .appenderDestroy _ | .appenderFlush _ | .appenderClose _
  | .appenderEndRow _ => true
  | _ => false

theorem effects_query_of_error {e : Text} (htext : E.extract (s.memReadString ptr len).1 = .error e) :
    (s.fnQuery ptr len).2.effects = [] := by
  unfold fnQuery classifySql
  dsimp only
  rw [htext]
  rfl

theorem effects_fnQuery (htext : E.extract (s.memReadString ptr len).1 = .ok stmts) :
    effect ∈ (s.fnQuery ptr len).2.effects ↔ ¬ s.Refused stmts ∧ effect ∈ (s.connection.query stmts).effects := by
  unfold fnQuery classifySql queryText
  dsimp only
  rw [htext]
  cases stmts with
  | nil => simp [Connection.query]
  | cons stmt rest =>
    dsimp only
    rw [effects_gated, refused_iff]
    split
    · simp [*]
    · simp [*]

theorem effects_fnExecutePrepared (hp : htableGet s.htPrepared h = some p) :
    effect ∈ (s.fnExecutePrepared h).2.effects ↔
      isForbiddenStmt p.type = false ∧
        ¬ (s.quotaExceeded = true ∧ isWriterStmt p.type = true) ∧
          effect ∈ (p.run s.connection).effects := by
  unfold fnExecutePrepared
  rw [hp]
  dsimp only
  rw [effects_gated]
  split
  · rename_i hrefused
    simp only [List.not_mem_nil, false_iff, not_and]
    intro hforbidden hwriter
    cases hrefused with
    | inl h => exact nomatch h.symm.trans hforbidden
    | inr h => exact absurd h.2 (hwriter h.1)
  · rename_i hpassed
    rw [not_or, Bool.not_eq_true] at hpassed
    rw [and_iff_right hpassed.1, and_iff_right hpassed.2]

theorem ran_flush {c : Connection E} {ap : Appender E} : .ran T ∉ (ap.flush c).2.2.2 := by
  unfold Appender.flush
  repeat' split
  all_goals simp

theorem ran_close {c : Connection E} {ap : Appender E} : .ran T ∉ (ap.close c).2.2.2 := by
  unfold Appender.close
  split
  · exact List.not_mem_nil
  · exact ran_flush

theorem ran_endRow {c : Connection E} {ap : Appender E} : .ran T ∉ (ap.endRow c).2.2.2 := by
  unfold Appender.endRow
  split
  · exact List.not_mem_nil
  · split
    · dsimp only
      split
      · exact ran_flush
      · exact List.not_mem_nil
    · exact List.not_mem_nil

theorem effects_chunkNumber {number : Chunk → ℕ} : (s.chunkNumber host h number).2.effects = [] := by
  unfold chunkNumber
  split <;> rfl

theorem effects_resultNumber {number : ResultWrap → ℕ} : (s.resultNumber h number).2.effects = [] := by
  unfold resultNumber
  split <;> rfl

theorem effects_bindValue {idx : BitVec 32} {v : Value} {reads : List Read} :
    (s.bindValue h idx p v reads).2.effects = [] := by
  unfold bindValue
  repeat' split
  all_goals rfl

theorem effects_idle {call : Call} (hidle : Call.works call = false) : (s.call host call).2.effects = [] := by
  cases call with
  | query => exact nomatch hidle
  | executePrepared => exact nomatch hidle
  | appenderDestroy => exact nomatch hidle
  | appenderFlush => exact nomatch hidle
  | appenderClose => exact nomatch hidle
  | appenderEndRow => exact nomatch hidle
  | _ =>
    simp only [call, fnDestroyResult, fnFetchChunk, fnResultGetChunk, fnResultChunkCount, fnDestroyChunk,
      fnChunkSize, fnChunkColumnCount, fnChunkColumnType, fnChunkIsNull, fnChunkGet, fnChunkGetString,
      fnChunkGetHugeint, fnChunkCopyColumn, fnChunkCopyValidity, fnResultError, fnResultColumnCount,
      fnResultRowCount, fnResultRowsChanged, fnResultColumnName, fnResultColumnType, fnResultStatementType,
      fnValueIsNull, fnValue, fnValueString, fnValueHugeint, fnPrepare, fnDestroyPrepare, fnPrepareError,
      fnNparams, fnParamType, fnClearBindings, fnBind, fnBindVarchar, fnBindBlob, fnAppenderCreate,
      fnAppenderError, fnAppenderBeginRow, fnAppend, fnAppendVarchar, fnAppendBlob, fnTableDescCreate,
      fnTableDescDestroy, fnTableDescError, fnColumnHasDefault, fnTableDescColumnName, fnExtractStatements,
      fnDestroyExtracted, fnExtractStatementsError, fnPrepareExtracted, fnLastError, fnDbSize, fnDbQuota,
      insertChunk, appendValue, effects_chunkNumber, effects_resultNumber]
    repeat' split
    all_goals first | rfl | exact effects_bindValue

theorem ran_appender {call : Call} (hquery : ∀ ptr len, call ≠ .query ptr len)
    (hexecute : ∀ h, call ≠ .executePrepared h) : .ran T ∉ (s.call host call).2.effects := by
  cases hworks : Call.works call with
  | false =>
    rw [effects_idle hworks]
    exact List.not_mem_nil
  | true =>
    cases call with
    | query ptr len => exact absurd rfl (hquery ptr len)
    | executePrepared h => exact absurd rfl (hexecute h)
    | appenderDestroy h =>
      change .ran T ∉ (s.fnAppenderDestroy h).2.effects
      unfold fnAppenderDestroy
      split
      · exact List.not_mem_nil
      · exact ran_close
    | appenderFlush h =>
      change .ran T ∉ (s.fnAppenderFlush h).2.effects
      unfold fnAppenderFlush
      split
      · exact List.not_mem_nil
      · split
        · exact List.not_mem_nil
        · exact ran_flush
    | appenderClose h =>
      change .ran T ∉ (s.fnAppenderClose h).2.effects
      unfold fnAppenderClose
      split
      · exact List.not_mem_nil
      · exact ran_close
    | appenderEndRow h =>
      change .ran T ∉ (s.fnAppenderEndRow h).2.effects
      unfold fnAppenderEndRow
      split
      · exact List.not_mem_nil
      · exact ran_endRow
    | _ => exact nomatch hworks

end Calls

section Permitted

variable {T : StatementType}

theorem permitted_query (ptr len : BitVec 32) :
    s.Permitted host (.call (.query ptr len)) ↔ s.Guarded (.call (.query ptr len)) := by
  unfold Permitted Guarded
  change (∀ T, .ran T ∈ (s.fnQuery ptr len).2.effects → _) ↔
    ∀ stmts, E.extract (s.memReadString ptr len).1 = .ok stmts → _
  cases htext : E.extract (s.memReadString ptr len).1 with
  | error e => simp [effects_query_of_error htext]
  | ok stmts =>
    simp only [effects_fnQuery htext, Connection.ran_query, Except.ok.injEq, forall_eq']
    constructor
    · intro hpermitted
      refine or_iff_not_imp_left.mpr fun hpassed x hx => ⟨fun hforbidden => ?_, fun T hT => ?_⟩
      · exact absurd ((hpermitted _ ⟨hpassed, x, hx, .inl rfl⟩).symm.trans hforbidden) Bool.false_ne_true
      · exact hpermitted T ⟨hpassed, x, hx, .inr hT⟩
    · rintro hguarded T ⟨hpassed, x, hx, hT⟩
      obtain ⟨hbefore, hunwraps⟩ := (hguarded.resolve_left hpassed) x hx
      cases hT with
      | inl htype =>
        rw [← htype, ← Bool.not_eq_true]
        exact fun hforbidden => hpassed (.inl ⟨x.2, Connection.mem_of_reached hx, hbefore hforbidden, hforbidden⟩)
      | inr hwrapped => exact hunwraps T hwrapped

theorem permitted_executePrepared (h : BitVec 32) :
    s.Permitted host (.call (.executePrepared h)) ↔ s.Guarded (.call (.executePrepared h)) := by
  unfold Permitted Guarded
  change (∀ T, .ran T ∈ (s.fnExecutePrepared h).2.effects → _) ↔
    ∀ p, htableGet s.htPrepared h = some p → _
  cases hp : htableGet s.htPrepared h with
  | none =>
    unfold fnExecutePrepared
    simp [hp]
  | some p =>
    simp only [effects_fnExecutePrepared hp, Option.some.injEq, forall_eq']
    cases hstmt : p.stmt with
    | error e => simp [Prepared.run, hstmt]
    | ok stmt =>
      simp only [Prepared.run, Prepared.type, hstmt, Connection.ran_execute, Except.ok.injEq, forall_eq']
      constructor
      · intro hpermitted hprepares T hT
        have htype := hT.type_eq
        exact hpermitted T ⟨by rw [htype]; rfl, by rw [htype]; exact (nomatch ·.2), hprepares, .inr hT⟩
      · rintro hguarded T ⟨hallowed, _, hprepares, hT⟩
        exact hT.elim (fun htype => htype ▸ hallowed) (hguarded hprepares T)

theorem permitted_iff (s : Bindings E) (event : Event) : s.Permitted host event ↔ s.Guarded event := by
  cases event with
  | call call =>
    cases call with
    | query ptr len => exact permitted_query ptr len
    | executePrepared h => exact permitted_executePrepared h
    | _ =>
      exact iff_of_true (fun T hT => absurd hT (ran_appender (fun _ _ h => nomatch h) fun _ h => nomatch h)) trivial
  | memory m => exact iff_of_true (fun T hT => nomatch hT) trivial
  | setQuota q => exact iff_of_true (fun T hT => nomatch hT) trivial

/-- A guest gets DuckDB to execute a forbidden statement exactly where one of its calls gets such a
statement past the gate. -/
theorem permitted_throughout_iff (host : ℕ → Byte) (s : Bindings E) (events : List Event) :
    s.Throughout host (Permitted host) events ↔ s.Throughout host Guarded events :=
  s.throughout_congr host permitted_iff

theorem copy_executed : ¬ ∀ events,
    (tableBindings ⟨false, 0⟩ "CREATE TABLE t(a INT); COPY t TO 'f'").Throughout (fun _ => 0)
      (Permitted fun _ => 0) events := by
  intro hall
  have hran : .ran .copy ∈ ((tableBindings ⟨false, 0⟩ "CREATE TABLE t(a INT); COPY t TO 'f'").next (fun _ => 0)
      (.call (.query 0 36))).2.effects := by
    decide +kernel
  exact nomatch (hall [.call (.query 0 36)]).1 .copy hran

end Permitted

end Bindings

end YumiBrowser.Duckdb
