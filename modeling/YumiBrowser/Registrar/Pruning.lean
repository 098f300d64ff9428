import YumiBrowser.Registrar.ForkListing

namespace YumiBrowser.Group

open Wire Keyed Paging

def nonForks (log : AuditLog) : List AuditEntry := log.rows.filter fun e => countPrev log e.prevHash ≤ 1

/-- `ps_audit_prune`, with the order in which the engine answers its subquery. -/
def auditPruneWith (log : AuditLog) (excess : ℕ) (order : List AuditEntry) : AuditLog :=
  log.filter fun e => (order.take excess).all fun o => o.entryHash ≠ e.entryHash

/-- `gr_audit_enforce_retention_internal`, for any limit on the rows. -/
def enforceRetentionWith (maxRows : ℕ) (log : AuditLog) (order : List AuditEntry) : AuditLog :=
  if log.rows.length ≤ maxRows then log else auditPruneWith log (log.rows.length - maxRows) order

def Newest (log : AuditLog) (x : AuditEntry) : Prop := x ∈ log.rows ∧ ∀ e ∈ log.rows, e.place ≤ x.place

/-- The log with the oldest entries removed that belong to no fork, as many as are too many, and the chain going on. -/
structure Retains (reg : Registrar) (maxRows : ℕ) (pruned : AuditLog) : Prop where
  subset : pruned.rows.Sublist reg.auditLog.rows
  count : pruned.rows.length + min (reg.auditLog.rows.length - maxRows) (nonForks reg.auditLog).length =
    reg.auditLog.rows.length
  oldest : ∀ e ∈ reg.auditLog.rows, e ∉ pruned.rows →
    ∀ e' ∈ nonForks reg.auditLog, e' ∈ pruned.rows → e.place ≤ e'.place
  forks : ∀ e ∈ reg.auditLog.rows, 1 < countPrev reg.auditLog e.prevHash → e ∈ pruned.rows
  newest : ∀ x, Newest reg.auditLog x → x ∈ pruned.rows
  next : ∀ crypto change actor target detail ns,
    newEntry crypto { reg with auditLog := pruned } change actor target detail ns =
      newEntry crypto reg change actor target detail ns

theorem enforceRetention_eq_with (log : AuditLog) : enforceRetention log =
    enforceRetentionWith auditMaxRows log ((nonForks log).mergeSort fun a b => a.place ≤ b.place) := rfl

section Rows

variable {log : AuditLog} {order : List AuditEntry} {n : ℕ} {e : AuditEntry}

theorem mem_nonForks : e ∈ nonForks log ↔ e ∈ log.rows ∧ countPrev log e.prevHash ≤ 1 := by
  rw [nonForks, List.mem_filter, decide_eq_true_iff]

theorem nodup_nonForks (log : AuditLog) : (nonForks log).Nodup := (nodup_rows log).filter _

theorem rows_auditPruneWith (hperm : order.Perm (nonForks log)) :
    (auditPruneWith log n order).rows = log.rows.filter fun e => e ∉ order.take n := by
  refine List.filter_congr fun e he => ?_
  rw [Bool.eq_iff_iff, List.all_eq_true, decide_eq_true_iff]
  constructor
  · intro hall hold
    exact of_decide_eq_true (hall e hold) rfl
  · intro hnew o ho
    refine decide_eq_true fun heq => hnew ?_
    have hmem := (mem_nonForks.mp (hperm.mem_iff.mp (List.mem_of_mem_take ho))).1
    exact List.inj_on_of_nodup_map log.nodup hmem he heq ▸ ho

theorem rows_enforceRetentionWith {maxRows : ℕ} (hperm : order.Perm (nonForks log)) :
    (enforceRetentionWith maxRows log order).rows =
      log.rows.filter fun e => e ∉ order.take (log.rows.length - maxRows) := by
  unfold enforceRetentionWith
  split
  · next hle =>
    rw [Nat.sub_eq_zero_of_le hle, List.take_zero]
    exact (List.filter_eq_self.mpr fun e _ => decide_eq_true List.not_mem_nil).symm
  · exact rows_auditPruneWith hperm

theorem length_pruned (hperm : order.Perm (nonForks log)) :
    (log.rows.filter fun e => e ∉ order.take n).length + min n (nonForks log).length = log.rows.length := by
  have hremoved : (log.rows.filter fun e => e ∈ order.take n).Perm (order.take n) := by
    refine (List.perm_ext_iff_of_nodup ((nodup_rows log).filter _) ?_).mpr fun e => ?_
    · exact (hperm.nodup_iff.mpr (nodup_nonForks log)).sublist (List.take_sublist ..)
    · rw [List.mem_filter, decide_eq_true_iff, and_iff_right_iff_imp]
      intro he
      exact (mem_nonForks.mp (hperm.mem_iff.mp (List.mem_of_mem_take he))).1
  have hlength := hremoved.length_eq
  rw [List.length_take, hperm.length_eq, ← List.countP_eq_length_filter] at hlength
  have hsplit := List.length_eq_countP_add_countP (fun e => decide (e ∈ order.take n)) (l := log.rows)
  rw [← List.countP_eq_length_filter, ← hlength, Nat.add_comm]
  simpa using hsplit.symm

theorem argmax_filter {α : Type} {p : α → Bool} {f : α → Place} {l : List α} {c : Place} {m : α}
    (hkeep : ∀ x ∈ l, c ≤ f x → p x = true) (hmax : l.argmax f = some m) (hc : c ≤ f m) :
    (l.filter p).argmax f = some m := by
  induction l generalizing m with
  | nil => cases hmax
  | cons a l ih =>
    rw [List.argmax_cons] at hmax
    have hkeep' : ∀ x ∈ l, c ≤ f x → p x = true := fun x hx => hkeep x (List.mem_cons_of_mem a hx)
    cases hrest : l.argmax f with
    | none =>
      rw [hrest] at hmax
      obtain rfl := Option.some.inj hmax
      rw [List.argmax_eq_none.mp hrest, List.filter_cons_of_pos (hkeep a List.mem_cons_self hc)]
      rfl
    | some k =>
      rw [hrest] at hmax
      dsimp only at hmax
      split at hmax
      · next hlt =>
        obtain rfl := Option.some.inj hmax
        have hfilter := ih hkeep' hrest hc
        by_cases ha : p a = true
        · rw [List.filter_cons_of_pos ha, List.argmax_cons, hfilter]
          exact if_pos hlt
        · rw [List.filter_cons_of_neg ha, hfilter]
      · next hle =>
        obtain rfl := Option.some.inj hmax
        rw [List.filter_cons_of_pos (hkeep a List.mem_cons_self hc), List.argmax_cons]
        cases hfilter : (l.filter p).argmax f with
        | none => rfl
        | some k' =>
          have hmem := List.mem_of_mem_filter (List.argmax_mem hfilter)
          exact if_neg fun hlt => hle (hlt.trans_le (List.le_of_mem_argmax hmem hrest))

theorem exists_newest (hne : log.rows ≠ []) : ∃ x, log.rows.argmax AuditEntry.place = some x ∧ Newest log x := by
  cases hmax : log.rows.argmax AuditEntry.place with
  | none => exact absurd (List.argmax_eq_none.mp hmax) hne
  | some x => exact ⟨x, rfl, List.argmax_mem hmax, fun e he => List.le_of_mem_argmax he hmax⟩

theorem lastHash_filter {pruned : AuditLog} {p : AuditEntry → Bool} (hrows : pruned.rows = log.rows.filter p)
    (hkeep : ∀ x, Newest log x → p x = true) : lastHash pruned = lastHash log := by
  by_cases hempty : log.rows = []
  · rw [lastHash, lastHash, hrows, hempty, List.filter_nil]
  · obtain ⟨x, hmax, hx⟩ := exists_newest hempty
    have hall : ∀ y ∈ log.rows, x.place ≤ y.place → p y = true := by
      intro y hy hle
      exact hkeep y ⟨hy, fun e he => (hx.2 e he).trans hle⟩
    rw [lastHash, lastHash, hrows, argmax_filter hall hmax le_rfl, hmax]

end Rows

section Pruned

variable {reg : Registrar} {maxRows : ℕ} {order : List AuditEntry}

/-- None of the newest entries is among the oldest that may be removed. -/
def SparesNewest (log : AuditLog) (excess : ℕ) : Prop :=
  ∀ x, Newest log x → 1 < countPrev log x.prevHash ∨
    excess ≤ (nonForks log).countP fun e => e.place < x.place

theorem retains_enforceRetentionWith (hperm : order.Perm (nonForks reg.auditLog))
    (hordered : Ordered AuditEntry.place order)
    (hspared : SparesNewest reg.auditLog (reg.auditLog.rows.length - maxRows)) :
    Retains reg maxRows (enforceRetentionWith maxRows reg.auditLog order) := by
  have hrows := @rows_enforceRetentionWith reg.auditLog order maxRows hperm
  have hnonFork : ∀ e ∈ order.take (reg.auditLog.rows.length - maxRows), e ∈ nonForks reg.auditLog := fun e he =>
    hperm.mem_iff.mp (List.mem_of_mem_take he)
  have hnewest : ∀ x, Newest reg.auditLog x → x ∉ order.take (reg.auditLog.rows.length - maxRows) := by
    intro x hx hremoved
    cases hspared x hx with
    | inl hfork => exact absurd (mem_nonForks.mp (hnonFork x hremoved)).2 (Nat.not_le.mpr hfork)
    | inr hexcess =>
      have hcount := hordered.take_countP x.place
      rw [hperm.countP_eq] at hcount
      have hold := (List.take_prefix_take_left hexcess).subset hremoved
      rw [hcount, List.mem_filter, decide_eq_true_iff] at hold
      exact lt_irrefl _ hold.2
  constructor
  case subset => exact hrows ▸ List.filter_sublist
  case count => exact hrows ▸ length_pruned hperm
  case oldest =>
    intro e he hremoved e' he' hkept
    rw [hrows, List.mem_filter, decide_eq_true_iff] at hremoved hkept
    have hold : e ∈ order.take (reg.auditLog.rows.length - maxRows) := by
      by_contra hnew
      exact hremoved ⟨he, hnew⟩
    have hsplit := List.take_append_drop (reg.auditLog.rows.length - maxRows) order
    have hnew : e' ∈ order.drop (reg.auditLog.rows.length - maxRows) := by
      have hmem := hperm.mem_iff.mpr he'
      rw [← hsplit] at hmem
      exact (List.mem_append.mp hmem).resolve_left hkept.2
    rw [← hsplit] at hordered
    exact (List.pairwise_append.mp hordered).2.2 e hold e' hnew
  case forks =>
    intro e he hfork
    rw [hrows, List.mem_filter, decide_eq_true_iff]
    refine ⟨he, fun hremoved => ?_⟩
    exact absurd (mem_nonForks.mp (hnonFork e hremoved)).2 (Nat.not_le.mpr hfork)
  case newest =>
    intro x hx
    rw [hrows, List.mem_filter, decide_eq_true_iff]
    exact ⟨hx.1, hnewest x hx⟩
  case next =>
    intro crypto change actor target detail ns
    have hlast := lastHash_filter hrows fun x hx => decide_eq_true (hnewest x hx)
    unfold newEntry
    dsimp only
    rw [hlast]

theorem exists_order {log : AuditLog} {x : AuditEntry} {n : ℕ} (hx : Newest log x) (hfree : x ∈ nonForks log)
    (hn : (nonForks log).countP (fun e => e.place < x.place) < n) :
    ∃ order, order.Perm (nonForks log) ∧ Ordered AuditEntry.place order ∧ x ∈ order.take n := by
  let older := ((nonForks log).filter fun e => e.place < x.place).mergeSort fun a b => a.place ≤ b.place
  let top := (nonForks log).filter fun e => ¬ e.place < x.place
  have htop : ∀ e ∈ x :: top.erase x, e.place = x.place := by
    intro e he
    obtain rfl | he := List.mem_cons.mp he
    · rfl
    · obtain ⟨hmem, hge⟩ := List.mem_filter.mp (List.mem_of_mem_erase he)
      exact le_antisymm (hx.2 e (mem_nonForks.mp hmem).1) (not_lt.mp (of_decide_eq_true hge))
  have hxtop : x ∈ top := List.mem_filter.mpr ⟨hfree, decide_eq_true (lt_irrefl _)⟩
  have hold : older.Perm ((nonForks log).filter fun e => e.place < x.place) := List.mergeSort_perm ..
  refine ⟨older ++ x :: top.erase x, ?_, ?_, ?_⟩
  · refine (hold.append (List.perm_cons_erase hxtop).symm).trans ?_
    have hsplit := List.filter_append_perm (fun e => decide (e.place < x.place)) (nonForks log)
    simpa only [top, decide_not] using hsplit
  · refine List.pairwise_append.mpr ⟨?_, ?_, fun e he e' he' => ?_⟩
    · exact ordered_mergeSort AuditEntry.place _
    · refine List.Pairwise.imp_of_mem (fun ha hb _ => ?_) (List.pairwise_of_forall fun _ _ => True.intro)
      exact (htop _ ha).trans_le (htop _ hb).ge
    · have hlt := (List.mem_filter.mp (hold.mem_iff.mp he)).2
      exact (of_decide_eq_true hlt).le.trans (htop e' he').ge
  · have hlen : older.length < n := by
      rw [hold.length_eq, ← List.countP_eq_length_filter]
      exact hn
    obtain ⟨m, hm⟩ := Nat.exists_eq_succ_of_ne_zero (Nat.sub_ne_zero_of_lt hlen)
    rw [List.take_append, hm]
    exact List.mem_append_right _ List.mem_cons_self

/-- Retention keeps the log as it should, whichever order the engine gives entries of one place, exactly where it need
not come to the newest entries. -/
theorem retention_iff (reg : Registrar) (maxRows : ℕ) :
    (∀ order, order.Perm (nonForks reg.auditLog) → Ordered AuditEntry.place order →
      Retains reg maxRows (enforceRetentionWith maxRows reg.auditLog order)) ↔
    SparesNewest reg.auditLog (reg.auditLog.rows.length - maxRows) := by
  constructor
  · intro hall x hx
    by_contra hneither
    obtain ⟨hfork, hexcess⟩ := not_or.mp hneither
    have hfree : x ∈ nonForks reg.auditLog := mem_nonForks.mpr ⟨hx.1, Nat.not_lt.mp hfork⟩
    obtain ⟨order, hperm, hordered, hremoved⟩ := exists_order hx hfree (Nat.not_le.mp hexcess)
    have hkept := (hall order hperm hordered).newest x hx
    rw [rows_enforceRetentionWith hperm, List.mem_filter, decide_eq_true_iff] at hkept
    exact hkept.2 hremoved
  · intro hspared order hperm hordered
    exact retains_enforceRetentionWith hperm hordered hspared

end Pruned

section OnlyForks

def forkedLog : AuditLog where
  rows := [branchAfter 1 1, branchAfter 1 2, { branchAfter 2 3 with registrarVersion := 2 }]
  nodup := by decide +kernel

def forkedGroup : Registrar := { signedGroup flatHash with auditLog := forkedLog }

theorem forkedLog_headless : ¬ ∀ order, order.Perm (nonForks forkedGroup.auditLog) → Ordered AuditEntry.place order →
    Retains forkedGroup 2 (enforceRetentionWith 2 forkedGroup.auditLog order) := by
  intro hall
  have hfree : nonForks forkedGroup.auditLog = [{ branchAfter 2 3 with registrarVersion := 2 }] := rfl
  have hnewest : Newest forkedGroup.auditLog { branchAfter 2 3 with registrarVersion := 2 } := by
    constructor
    · exact List.mem_cons_of_mem _ (List.mem_cons_of_mem _ List.mem_cons_self)
    · decide +kernel
  have hkept := (hall _ (.refl _) (hfree ▸ List.pairwise_singleton ..)).newest _ hnewest
  rw [hfree] at hkept
  revert hkept
  decide +kernel

end OnlyForks

end YumiBrowser.Group
