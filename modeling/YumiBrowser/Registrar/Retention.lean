import Mathlib.Data.List.Nodup
import YumiBrowser.Library.Paging
import YumiBrowser.Registrar.Idempotence

namespace YumiBrowser.Group

open Wire Keyed

structure Linear (l : List AuditEntry) : Prop where
  versions : ∀ e ∈ l, ∀ e' ∈ l, e.registrarVersion = e'.registrarVersion → e = e'
  preds : ∀ e ∈ l, ∀ e' ∈ l, e.prevHash = e'.prevHash → e = e'

section Pruning

variable {log : AuditLog} {n : ℕ} {e : AuditEntry}

def byAge (log : AuditLog) : List AuditEntry := log.rows.mergeSort fun a b => a.place ≤ b.place

theorem byAge_perm (log : AuditLog) : (byAge log).Perm log.rows := List.mergeSort_perm ..

theorem nodup_rows (log : AuditLog) : log.rows.Nodup := log.nodup.of_map _

theorem byAge_sorted (log : AuditLog) : (byAge log).Pairwise fun a b => a.place ≤ b.place :=
  Paging.ordered_mergeSort AuditEntry.place log.rows

theorem countPrev_le_one (h : Linear log.rows) (prev : Hash) : countPrev log prev ≤ 1 := by
  have hnodup : (log.rows.map AuditEntry.prevHash).Nodup := (nodup_rows log).map_on h.preds
  have hcount := List.nodup_iff_count_le_one.mp hnodup prev
  rw [List.count, List.countP_map] at hcount
  apply Nat.le_trans (Nat.le_of_eq _) hcount
  apply List.countP_congr
  intro e _
  simp

theorem rows_auditPrune (h : Linear log.rows) : (auditPrune log n).rows =
    log.rows.filter fun e => e ∉ (byAge log).take n := by
  have hfree : log.rows.filter (fun e => countPrev log e.prevHash ≤ 1) = log.rows := by
    apply List.filter_eq_self.mpr
    intro e _
    exact decide_eq_true (countPrev_le_one h e.prevHash)
  change log.rows.filter _ = _
  rw [hfree]
  apply List.filter_congr
  intro e he
  have hhash : ∀ o ∈ (byAge log).take n, o.entryHash = e.entryHash → o = e := by
    intro o ho heq
    have hmem := (byAge_perm log).mem_iff.mp (List.mem_of_mem_take ho)
    exact List.inj_on_of_nodup_map log.nodup hmem he heq
  rw [Bool.eq_iff_iff, List.all_eq_true, decide_eq_true_iff]
  constructor
  · intro hall hold
    exact of_decide_eq_true (hall e hold) rfl
  · intro hnew o ho
    apply decide_eq_true
    intro heq
    obtain rfl := hhash o ho heq
    exact hnew ho

theorem length_auditPrune_le (h : Linear log.rows) :
    (auditPrune log n).rows.length ≤ log.rows.length - n := by
  have hperm := (byAge_perm log).filter fun e => e ∉ (byAge log).take n
  have hold : ((byAge log).take n).filter (fun e => e ∉ (byAge log).take n) = [] := by
    apply List.filter_eq_nil_iff.mpr
    intro e he hnew
    exact of_decide_eq_true hnew he
  have hsplit : (byAge log).filter (fun e => e ∉ (byAge log).take n) =
      ((byAge log).drop n).filter fun e => e ∉ (byAge log).take n := by
    conv_lhs => arg 2; rw [← List.take_append_drop n (byAge log)]
    rw [List.filter_append, hold, List.nil_append]
  rw [rows_auditPrune h, ← hperm.length_eq, hsplit, ← (byAge_perm log).length_eq, ← List.length_drop]
  exact List.length_filter_le ..

theorem newer_of_pruned (h : Linear log.rows) (he : e ∈ (byAge log).take n) :
    ∀ a ∈ (byAge log).drop n, a ∈ log.rows ∧ e.registrarVersion.toInt < a.registrarVersion.toInt := by
  intro a ha
  have hmem : ∀ x ∈ byAge log, x ∈ log.rows := fun x => (byAge_perm log).mem_iff.mp
  have hsorted := byAge_sorted log
  have hnodup : (byAge log).Nodup := (byAge_perm log).nodup_iff.mpr (nodup_rows log)
  rw [← List.take_append_drop n (byAge log)] at hsorted hnodup
  have hle := (List.pairwise_append.mp hsorted).2.2 e he a ha
  have hne : e ≠ a := (List.nodup_append.mp hnodup).2.2 e he a ha
  refine ⟨hmem a (List.mem_of_mem_drop ha), ?_⟩
  cases Prod.Lex.le_iff.mp hle with
  | inl hlt => exact hlt
  | inr heq =>
    have hsame : e.registrarVersion = a.registrarVersion := BitVec.eq_of_toInt_eq heq.1
    exact absurd (h.versions e (hmem e (List.mem_of_mem_take he)) a (hmem a (List.mem_of_mem_drop ha))
      hsame) hne

theorem enforceRetention_subset : (enforceRetention log).rows ⊆ log.rows := by
  unfold enforceRetention
  split
  · exact List.Subset.refl _
  · exact fun _ => List.mem_of_mem_filter

theorem length_enforceRetention (h : Linear log.rows) :
    (enforceRetention log).rows.length ≤ auditMaxRows := by
  unfold enforceRetention
  split
  · assumption
  · have hlen := @length_auditPrune_le log (log.rows.length - auditMaxRows) h
    omega

theorem newer_of_dropped (h : Linear log.rows) (he : e ∈ log.rows)
    (hdrop : e ∉ (enforceRetention log).rows) : ∃ newer : List AuditEntry, newer.Nodup ∧
      newer.length = auditMaxRows ∧
      ∀ a ∈ newer, a ∈ log.rows ∧ e.registrarVersion.toInt < a.registrarVersion.toInt := by
  unfold enforceRetention at hdrop
  split at hdrop
  · exact absurd he hdrop
  · rename_i hlong
    rw [rows_auditPrune h] at hdrop
    have hold : e ∈ (byAge log).take (log.rows.length - auditMaxRows) := by
      by_contra hnew
      exact hdrop (List.mem_filter.mpr ⟨he, decide_eq_true hnew⟩)
    refine ⟨(byAge log).drop (log.rows.length - auditMaxRows), ?_, ?_, newer_of_pruned h hold⟩
    · exact ((byAge_perm log).nodup_iff.mpr (nodup_rows log)).sublist (List.drop_sublist ..)
    · rw [List.length_drop, (byAge_perm log).length_eq]
      omega

end Pruning

section Writes

variable {crypto : Crypto} {reg reg' mid : Registrar} {edit : Except GrError Registrar}

structure Writes (reg reg' : Registrar) (e : AuditEntry) : Prop where
  version : e.registrarVersion = reg.header.version + 1
  prev : e.prevHash = (lastHash reg.auditLog).getD (zeroBytes 128)
  header : reg'.header.version = e.registrarVersion
  log : reg'.auditLog = enforceRetention (reg.auditLog.insertIgnore e)

def Registrar.logView (reg : Registrar) : AuditLog × BitVec 32 := (reg.auditLog, reg.header.version)

def Records (crypto : Crypto) (reg : Registrar) (ns : I64) (record : Option Record)
    (r : Except GrError Registrar) : Prop :=
  ∀ reg', r = .ok reg' → record = none ∧ reg'.logView = reg.logView ∨
    ∃ c, record = some c ∧ Writes reg reg' (c.entry crypto reg ns)

theorem Record.entry_congr (c : Record) (h : mid.logView = reg.logView) :
    c.entry crypto mid ns = c.entry crypto reg ns := by
  obtain ⟨hlog, hversion⟩ := Prod.mk.inj h
  unfold Record.entry newEntry
  rw [hlog, hversion]

theorem Writes.append (c : Record) (h : mid.logView = reg.logView) :
    Writes reg (auditAppend crypto mid c.change c.actor c.target c.detail ns)
      (c.entry crypto reg ns) := by
  have hentry : c.entry crypto mid ns = c.entry crypto reg ns := c.entry_congr h
  obtain ⟨hlog, hversion⟩ := Prod.mk.inj h
  refine ⟨rfl, rfl, ?_, ?_⟩
  · rw [← hentry]
    rfl
  · rw [← hentry, ← hlog]
    rfl

theorem Writes.congr (h : Writes reg mid e) (hlog : reg'.auditLog = mid.auditLog)
    (hversion : reg'.header.version = mid.header.version) : Writes reg reg' e :=
  ⟨h.version, h.prev, hversion.trans h.header, hlog.trans h.log⟩

theorem Writes.rows (h : Writes reg reg' e) (hlen : reg.auditLog.rows.length < auditMaxRows)
    (hfresh : ∀ a ∈ reg.auditLog.rows, a.entryHash ≠ e.entryHash) :
    reg'.auditLog.rows = reg.auditLog.rows ++ [e] := by
  have hrows : (reg.auditLog.insertIgnore e).rows = reg.auditLog.rows ++ [e] :=
    Table.rows_insertIgnore (Table.find?_eq_none.mpr hfresh)
  have hfits : (reg.auditLog.insertIgnore e).rows.length ≤ auditMaxRows := by
    rw [hrows, List.length_append]
    exact hlen
  rw [h.log, enforceRetention, if_pos hfits, hrows]

theorem Edit.logView (h : Edit crypto reg clk m mid) : mid.logView = reg.logView := by
  cases h with
  | epochRotated _ _ hshape => rw [hshape]; rfl
  | _ => rfl

theorem Mutation.records (m : Mutation) (crypto : Crypto) (reg : Registrar) (clk : Clock) :
    Records crypto reg clk.ns (m.record reg) (m.run crypto reg clk) := by
  intro reg' hreg'
  obtain ⟨mid, hmid, rfl⟩ := m.edits crypto reg clk reg' hreg'
  unfold Mutation.close
  cases m.record reg with
  | none => exact .inl ⟨rfl, hmid.logView⟩
  | some c =>
    refine .inr ⟨c, rfl, ?_⟩
    cases m with
    | sign signer => exact (Writes.append c hmid.logView).congr rfl rfl
    | _ => exact .append c hmid.logView

theorem Mutation.logs (m : Mutation) (h : m.run crypto reg clk = .ok reg') :
    reg'.logView = reg.logView ∨ ∃ e, Writes reg reg' e := by
  rcases m.records crypto reg clk reg' h with ⟨_, hview⟩ | ⟨c, _, hwrites⟩
  · exact .inl hview
  · exact .inr ⟨_, hwrites⟩

end Writes

end YumiBrowser.Group
