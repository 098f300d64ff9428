import YumiBrowser.Registrar.Bracketing

namespace YumiBrowser.Group

open Wire Keyed Fallible

def Faults.none : Faults := ⟨false, false, false, [], []⟩

structure Session.Quiet (s : Session) : Prop where
  idle : s.Idle
  faults : s.faults = .none

section Statements

variable {s : Session}

theorem asked_quiet (hf : s.faults = .none) : s.asked = s := by
  obtain ⟨header, tables, before, savedHeader, txnDepth, bound, untrusted, deltaAnomaly, faults⟩ := s
  obtain rfl := hf
  rfl

theorem saved_quiet (hf : s.faults = .none) : s.saved = s := by
  obtain ⟨header, tables, before, savedHeader, txnDepth, bound, untrusted, deltaAnomaly, faults⟩ := s
  obtain rfl := hf
  rfl

theorem run_answer_quiet (hf : s.faults = .none) : answer.run s = .ok true s := by
  rw [run_answer, asked_quiet hf, hf]
  rfl

theorem run_query_quiet (hf : s.faults = .none) (g : Registrar → α) :
    (query g).run s = .ok (some (g s.reg)) s := by
  have hget : (get : Db Session).run s = .ok s s := rfl
  unfold query
  rw [run_bind_ok (run_answer_quiet hf), run_bind_ok hget]
  rfl

theorem run_execute_quiet (hf : s.faults = .none) {edit : Session → Option Tables}
    (h : edit s = some tables) : (execute edit).run s = .ok true { s with tables } := by
  have hget : (get : Db Session).run s = .ok s s := rfl
  unfold execute
  rw [run_bind_ok (run_answer_quiet hf), run_bind_ok hget, h]
  rfl

theorem run_statement_quiet (hf : s.faults = .none) (edit : Session → Option Tables)
    (h : edit s = some tables) : (statement edit).run s = .ok ⟨⟩ { s with tables } := by
  unfold statement
  rw [run_bind_ok (run_execute_quiet hf h)]
  rfl

/-- The session that an entry about `reg` leaves: header and log are those of `reg`, and saved. -/
def Session.appended (s : Session) (reg : Registrar) : Session :=
  { s with
    header := reg.header
    tables := { s.tables with auditLog := reg.auditLog, headers := [reg.header] }
    bound := some reg.header }

theorem run_headerSave_quiet (hf : s.faults = .none) (hd : s.txnDepth = 1) :
    headerSave.run s = .ok ⟨⟩
      { s with tables := { s.tables with headers := [s.header] }, bound := some s.header } := by
  have hsave : s.faults.save = .none := by
    rw [hf]
    rfl
  rw [run_headerSave s hd, hsave, Session.emptied, saved_quiet hf]
  rfl

theorem run_enforceRetentionDb_quiet (hf : s.faults = .none) : enforceRetentionDb.run s =
    .ok ⟨⟩ { s with tables := { s.tables with auditLog := enforceRetention s.tables.auditLog } } := by
  unfold enforceRetentionDb
  rw [run_bind_ok (run_query_quiet hf _)]
  change (if auditMaxRows < s.tables.auditLog.rows.length then _ else _ : Db PUnit).run s = _
  unfold enforceRetention
  by_cases h : auditMaxRows < s.tables.auditLog.rows.length
  · rw [if_pos h, if_neg (Nat.not_le.mpr h), run_bind_ok (run_execute_quiet hf rfl)]
    rfl
  · rw [if_neg h, if_pos (Nat.not_lt.mp h)]
    rfl

theorem run_saveLog_quiet (hf : s.faults = .none) (hd : s.txnDepth = 1) :
    (do headerSave; enforceRetentionDb : Db PUnit).run s = .ok ⟨⟩
      { s with
        tables := { s.tables with
          auditLog := enforceRetention s.tables.auditLog, headers := [s.header] }
        bound := some s.header } := by
  rw [run_bind_ok (run_headerSave_quiet hf hd)]
  refine (run_enforceRetentionDb_quiet ?_).trans rfl
  exact hf

theorem run_appendDb_quiet (hf : s.faults = .none) (hd : s.txnDepth = 1) (crypto : Crypto)
    (change : ChangeType) (actor : Identity) (target : Option PeerId) (detail : List Byte) (ns : I64) :
    (appendDb crypto change actor target detail ns).run s =
      .ok ⟨⟩ (s.appended (auditAppend crypto s.reg change actor target detail ns)) := by
  have hget : (get : Db Session).run s = .ok s s := rfl
  have happend : ¬ s.faults.appendFails = true := by
    rw [hf]
    exact Bool.false_ne_true
  unfold appendDb
  rw [run_bind_ok (run_query_quiet hf id), run_bind_ok hget, run_bind_ok (run_setHeader _),
    if_neg happend]
  have hmodify : ∀ (g : Session → Session) t, (modify g : Db PUnit).run t = .ok ⟨⟩ (g t) :=
    fun _ _ => rfl
  rw [run_bind_ok (hmodify _ _), run_bind_ok (run_setHeader _)]
  refine (run_saveLog_quiet ?_ ?_).trans rfl
  · exact hf
  · exact hd

theorem begin_quiet (hq : s.Quiet) :
    s.begin = { s with before := some s.tables, savedHeader := s.header, txnDepth := 1 } := by
  have hbegin : s.faults.beginFails = false := by
    rw [hq.faults]
    rfl
  rw [Session.begin, if_pos ⟨hq.idle.1, hq.idle.2, hbegin⟩]

theorem run_transact_quiet {body : Db PUnit} {t : Session} (h : body.run s.begin = .ok ⟨⟩ t)
    (hf : t.faults = .none) (hd : t.txnDepth = 1) (hb : t.before = some tables) :
    (transact body).run s = .ok ⟨⟩ { t with before := none, txnDepth := 0 } := by
  have hcommit : t.commit = (true, { t with before := none, txnDepth := 0 }) := by
    simp [Session.commit, hd, hb, hf, Faults.none]
  rw [run_transact_ok h, hcommit]
  rfl

theorem run_audited_quiet (hq : s.Quiet) {edit : Db PUnit} {tables : Tables}
    (hedit : edit.run s.begin = .ok ⟨⟩ { s.begin with tables }) (crypto : Crypto)
    (change : ChangeType) (actor : Identity) (target : Option PeerId) (detail : List Byte) (ns : I64) :
    ∃ s', (audited crypto change actor target detail ns edit).run s = .ok ⟨⟩ s' ∧ s'.Quiet ∧
      s'.reg = auditAppend crypto { s with tables }.reg change actor target detail ns ∧
      s'.tables.invites = tables.invites := by
  have hf : ({ s.begin with tables } : Session).faults = .none := by
    rw [begin_quiet hq]
    exact hq.faults
  have hd : ({ s.begin with tables } : Session).txnDepth = 1 := by rw [begin_quiet hq]
  have hb : ({ s.begin with tables } : Session).before = some s.tables := by rw [begin_quiet hq]
  have hreg : ({ s.begin with tables } : Session).reg = { s with tables }.reg := by
    rw [begin_quiet hq]
    rfl
  have hbody := (run_bind_ok (f := fun _ => appendDb crypto change actor target detail ns) hedit).trans
    (run_appendDb_quiet hf hd crypto change actor target detail ns)
  refine ⟨_, run_transact_quiet hbody hf hd hb, ⟨⟨rfl, rfl⟩, hf⟩, ?_, rfl⟩
  rw [← hreg]
  rfl

end Statements

end YumiBrowser.Group
