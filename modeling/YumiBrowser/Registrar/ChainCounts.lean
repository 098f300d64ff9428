import YumiBrowser.Registrar.ForkListing

namespace YumiBrowser.Group

open Wire Keyed Grouped Paging

/-- `gr_audit_verify_chain`, with an answer of the engine to the query of each batch. The query orders by version and
timestamp only, and what stands in one place has any order in each answer. -/
def auditVerifyChainWith (crypto : Crypto) (reg : Registrar) (answer : ℕ → List AuditEntry) : ChainResult :=
  if reg.auditLog.rows.length = 0 then emptyResult reg.auditLog.rows.length
  else
    (batchOffsets reg.auditLog.rows.length).foldl
      (fun r offset => (((answer offset).drop offset).take chainBatch).foldl (verifyEntry crypto reg) r)
      (scanForks reg.auditLog (emptyResult reg.auditLog.rows.length))

def examined (log : AuditLog) (answer : ℕ → List AuditEntry) : List AuditEntry :=
  pages chainBatch ((log.rows.length + chainBatch - 1) / chainBatch) answer

/-- Each entry is examined once, and the counts are what they say. -/
structure ChainCounted (crypto : Crypto) (reg : Registrar) (answer : ℕ → List AuditEntry) : Prop where
  once : (examined reg.auditLog answer).Perm reg.auditLog.rows
  total : (auditVerifyChainWith crypto reg answer).totalEntries =
    (auditVerifyChainWith crypto reg answer).verifiedEntries + (auditVerifyChainWith crypto reg answer).invalidHash +
      (auditVerifyChainWith crypto reg answer).invalidSignature + (auditVerifyChainWith crypto reg answer).unknownActor
  detected : (auditVerifyChainWith crypto reg answer).forksDetected = (forkHashes reg.auditLog).length
  resolved : (auditVerifyChainWith crypto reg answer).forksResolved =
    ((forkHashes reg.auditLog).map fun prev => countPrev reg.auditLog prev - 1).sum

section Forks

variable {log : AuditLog} {s : Hash × ChainResult} {g : Group Hash AuditEntry} {gs : List (Group Hash AuditEntry)}

def ChainResult.forked (r : ChainResult) (detected resolved : ℕ) : ChainResult :=
  { r with forksDetected := r.forksDetected + detected, forksResolved := r.forksResolved + resolved }

theorem ChainResult.forked_forked (r : ChainResult) (d k d' k' : ℕ) :
    (r.forked d k).forked d' k' = r.forked (d + d') (k + k') := by
  unfold forked
  dsimp only
  rw [Nat.add_assoc, Nat.add_assoc]

theorem forkStep_same {e : AuditEntry} (h : e.prevHash = s.1) : forkStep s e = (s.1, s.2.forked 0 1) :=
  if_neg (not_not.mpr h)

theorem forkStep_new {e : AuditEntry} (h : e.prevHash ≠ s.1) : forkStep s e = (e.prevHash, s.2.forked 1 0) :=
  if_pos h

theorem forkStep_rows (es : List AuditEntry) (h : ∀ e ∈ es, e.prevHash = s.1) :
    es.foldl forkStep s = (s.1, s.2.forked 0 es.length) := by
  induction es generalizing s with
  | nil => rfl
  | cons e es ih =>
    rw [List.foldl_cons, forkStep_same (h e List.mem_cons_self),
      @ih (s.1, s.2.forked 0 1) fun e' he' => h e' (List.mem_cons_of_mem e he'), ChainResult.forked_forked,
      List.length_cons, Nat.add_comm 1]

theorem forkStep_group (hrows : g.rows ≠ []) (hkey : ∀ e ∈ g.rows, e.prevHash = g.key) (hlast : g.key ≠ s.1) :
    g.rows.foldl forkStep s = (g.key, s.2.forked 1 (g.rows.length - 1)) := by
  obtain ⟨e, es, hcons⟩ := List.exists_cons_of_ne_nil hrows
  rw [hcons] at hkey ⊢
  have he := hkey e List.mem_cons_self
  rw [List.foldl_cons, forkStep_new (he.symm ▸ hlast), he,
    @forkStep_rows (g.key, s.2.forked 1 0) es fun e' he' => hkey e' (List.mem_cons_of_mem e he'),
    ChainResult.forked_forked, Nat.zero_add]
  rfl

theorem forkStep_groups (h : Grouping AuditEntry.prevHash gs) (hlast : ∀ g ∈ gs.head?, g.key ≠ s.1) :
    ((Grouped.rowsOf gs).foldl forkStep s).2 = s.2.forked gs.length (gs.map fun g => g.rows.length - 1).sum := by
  induction gs generalizing s with
  | nil => rfl
  | cons g gs ih =>
    have hgroup := forkStep_group (h.rows_ne_nil g List.mem_cons_self) (h.key_eq g List.mem_cons_self)
      (hlast g (Option.mem_some_self g))
    rw [rowsOf_cons, List.foldl_append, hgroup, ih h.tail]
    · rw [ChainResult.forked_forked, List.map_cons, List.sum_cons, List.length_cons, Nat.add_comm 1]
    · intro g' hg' heq
      exact h.head_fresh (List.mem_map.mpr ⟨g', List.mem_of_head? hg', heq⟩)

theorem blobRank_le (x : Hash) : blobRank x ≤ blobRank (Bytes.fill 128 0xFF : Hash) := by
  have hmax : blobRank (Bytes.fill 128 0xFF : Hash) = 256 ^ 128 - 1 := by decide +kernel
  have hlen : x.val.reverse.length = 128 := by rw [List.length_reverse, x.length_eq]
  have hself := congrArg ofLe (toLe_ofLe x.val.reverse)
  rw [ofLe_toLe, hlen] at hself
  have hlt : blobRank x < 256 ^ 128 := by
    rw [blobRank, ← hself]
    exact Nat.mod_lt _ (by decide)
  rw [hmax]
  exact Nat.le_sub_one_of_lt hlt

theorem forkHashes_head (h : forkHashes log ≠ [Bytes.fill 128 0xFF]) :
    ∀ g ∈ (forkGroups log).head?, g.key ≠ Bytes.fill 128 0xFF := by
  intro g hg hkey
  have hsorted := forkHashes_sorted log
  rw [forkGroups, List.head?_map] at hg
  cases hhashes : forkHashes log with
  | nil =>
    rw [hhashes] at hg
    cases hg
  | cons prev rest =>
    rw [hhashes] at hg hsorted h
    obtain rfl := Option.some.inj hg
    obtain rfl : prev = Bytes.fill 128 0xFF := hkey
    cases rest with
    | nil => exact h rfl
    | cons next rest =>
      exact absurd ((List.pairwise_cons.mp hsorted).1 next List.mem_cons_self) (Nat.not_lt.mpr (blobRank_le next))

theorem scanForks_eq (h : forkHashes log ≠ [Bytes.fill 128 0xFF]) (r : ChainResult) : scanForks log r =
    r.forked (forkHashes log).length ((forkHashes log).map fun prev => countPrev log prev - 1).sum := by
  have hlength : (forkGroups log).length = (forkHashes log).length := List.length_map ..
  have hsum : (forkGroups log).map (fun g => g.rows.length - 1) =
      (forkHashes log).map fun prev => countPrev log prev - 1 := by
    rw [forkGroups, List.map_map]
    refine List.map_congr_left fun prev _ => ?_
    rw [Function.comp_apply, length_branchesOf]
  rw [scanForks, forkRows_eq, forkStep_groups (grouping_forkGroups log) (forkHashes_head h), hlength, hsum]

theorem scanForks_hidden (h : forkHashes log = [Bytes.fill 128 0xFF]) (r : ChainResult) :
    (scanForks log r).forksDetected = r.forksDetected := by
  have hrows : Grouped.rowsOf (forkGroups log) = branchesOf log (Bytes.fill 128 0xFF) := by
    rw [forkGroups, h, List.map_singleton, rowsOf_cons, rowsOf_nil, List.append_nil]
  rw [scanForks, forkRows_eq, hrows, forkStep_rows _ fun e he => (mem_branchesOf.mp he).2]
  rfl

end Forks

section Batches

variable {crypto : Crypto} {reg : Registrar} {answer : ℕ → List AuditEntry}

theorem auditVerifyChain_eq_with :
    auditVerifyChain crypto reg = auditVerifyChainWith crypto reg fun _ => byAge reg.auditLog := rfl

theorem auditVerifyChainWith_eq : auditVerifyChainWith crypto reg answer =
    (examined reg.auditLog answer).foldl (verifyEntry crypto reg)
      (scanForks reg.auditLog (emptyResult reg.auditLog.rows.length)) := by
  unfold auditVerifyChainWith
  split
  · next hempty =>
    have hrows : reg.auditLog.rows = [] := List.length_eq_zero_iff.mp hempty
    rw [scanForks, forkRows, examined, hrows, List.filter_nil, List.mergeSort_nil]
    rfl
  · rw [batchOffsets, List.foldl_map, ← List.foldl_flatMap]
    rfl

theorem frame_auditVerifyChainWith : (auditVerifyChainWith crypto reg answer).frame =
    (scanForks reg.auditLog (emptyResult reg.auditLog.rows.length)).frame := by
  rw [auditVerifyChainWith_eq, frame_foldl]

theorem batches_cover (log : AuditLog) :
    (byAge log).length ≤ (log.rows.length + chainBatch - 1) / chainBatch * chainBatch := by
  rw [(byAge_perm log).length_eq]
  unfold chainBatch
  omega

theorem sum_tally (l : List AuditEntry) :
    l.length = (l.countP fun e => examine crypto reg e = .verified) +
      (l.countP fun e => examine crypto reg e = .invalidHash) +
      (l.countP fun e => examine crypto reg e = .invalidSignature) +
      l.countP fun e => examine crypto reg e = .unknownActor := by
  induction l with
  | nil => rfl
  | cons e l ih =>
    simp only [List.countP_cons, List.length_cons]
    cases examine crypto reg e <;> simp <;> omega

theorem tally_auditVerifyChainWith (v : Verdict) : (auditVerifyChainWith crypto reg answer).tally v =
    (examined reg.auditLog answer).countP fun e => examine crypto reg e = v := by
  have hzero : (emptyResult reg.auditLog.rows.length).tally v = 0 := by cases v <;> rfl
  rw [auditVerifyChainWith_eq, tally_foldl, tally_scanForks, hzero, Nat.zero_add]

theorem total_auditVerifyChainWith (h : Answers AuditEntry.place (byAge reg.auditLog) answer) :
    (auditVerifyChainWith crypto reg answer).totalEntries =
      (auditVerifyChainWith crypto reg answer).verifiedEntries + (auditVerifyChainWith crypto reg answer).invalidHash +
        (auditVerifyChainWith crypto reg answer).invalidSignature +
        (auditVerifyChainWith crypto reg answer).unknownActor := by
  have htotal : (auditVerifyChainWith crypto reg answer).totalEntries = reg.auditLog.rows.length := by
    have hframe := @frame_auditVerifyChainWith crypto reg answer
    obtain ⟨htotal, -⟩ := Prod.mk.inj hframe
    exact htotal.trans (forks_scanForks _).2
  have hlength : (examined reg.auditLog answer).length = reg.auditLog.rows.length := by
    rw [← (byAge_perm reg.auditLog).length_eq]
    exact length_pages (fun offset => (h offset).1.length_eq) (batches_cover reg.auditLog)
  rw [htotal, ← hlength, @sum_tally crypto reg, ← tally_auditVerifyChainWith, ← tally_auditVerifyChainWith,
    ← tally_auditVerifyChainWith, ← tally_auditVerifyChainWith]
  rfl

theorem chainCounted_iff (h : Answers AuditEntry.place (byAge reg.auditLog) answer) :
    ChainCounted crypto reg answer ↔ (examined reg.auditLog answer).Perm (byAge reg.auditLog) ∧
      forkHashes reg.auditLog ≠ [Bytes.fill 128 0xFF] := by
  have hframe := @frame_auditVerifyChainWith crypto reg answer
  constructor
  · intro hcounted
    refine ⟨hcounted.once.trans (byAge_perm _).symm, fun hhidden => ?_⟩
    have hdetected := hcounted.detected
    obtain ⟨-, hforks⟩ := Prod.mk.inj hframe
    rw [(Prod.mk.inj hforks).1, scanForks_hidden hhidden, hhidden] at hdetected
    exact absurd hdetected Nat.zero_ne_one
  · rintro ⟨honce, hseen⟩
    rw [scanForks_eq hseen] at hframe
    obtain ⟨-, hforks⟩ := Prod.mk.inj hframe
    obtain ⟨hdetected, hresolved⟩ := Prod.mk.inj hforks
    exact {
      once := honce.trans (byAge_perm _)
      total := total_auditVerifyChainWith h
      detected := hdetected.trans (Nat.zero_add _)
      resolved := hresolved.trans (Nat.zero_add _) }

/-- Where the engine keeps to one order, the counts are right unless the only fork is the one after the value that the
scan starts with. Where it does not, no two entries in one place may stand on both sides of the end of a batch. -/
theorem chain_counts_iff (crypto : Crypto) (reg : Registrar) :
    (∀ order, order.Perm (byAge reg.auditLog) → Ordered AuditEntry.place order →
      (ChainCounted crypto reg (fun _ => order) ↔ forkHashes reg.auditLog ≠ [Bytes.fill 128 0xFF])) ∧
    ((∀ answer, Answers AuditEntry.place (byAge reg.auditLog) answer → ChainCounted crypto reg answer) ↔
      (∀ i, Parted AuditEntry.place (byAge reg.auditLog) (i * chainBatch)) ∧
        forkHashes reg.auditLog ≠ [Bytes.fill 128 0xFF]) := by
  have hnodup : (byAge reg.auditLog).Nodup := (byAge_perm _).nodup_iff.mpr (nodup_rows _)
  have hcover := batches_cover reg.auditLog
  constructor
  · intro order hperm hordered
    rw [chainCounted_iff fun _ => ⟨hperm, hordered⟩, and_iff_right]
    rw [examined, pages_const, List.take_of_length_le (hperm.length_eq ▸ hcover)]
    exact hperm
  · rw [← pages_iff (byAge_sorted reg.auditLog) hnodup (by decide) hcover]
    constructor
    · intro hall
      refine ⟨fun answer h => ((chainCounted_iff h).mp (hall answer h)).1, ?_⟩
      have hsame : Answers AuditEntry.place (byAge reg.auditLog) fun _ => byAge reg.auditLog :=
        fun _ => ⟨.refl _, byAge_sorted _⟩
      exact ((chainCounted_iff hsame).mp (hall _ hsame)).2
    · rintro ⟨hpages, hseen⟩ answer h
      exact (chainCounted_iff h).mpr ⟨hpages answer h, hseen⟩

end Batches

section Hidden

def twinLog : AuditLog where
  rows := [branchAfter 0xFF 1, branchAfter 0xFF 2]
  nodup := by decide +kernel

def twinGroup : Registrar := { signedGroup flatHash with auditLog := twinLog }

theorem forkRows_twinLog : forkRows twinLog = twinLog.rows := by
  have hall : twinLog.rows.filter (fun e => 1 < countPrev twinLog e.prevHash) = twinLog.rows := by
    apply List.filter_eq_self.mpr
    decide +kernel
  have hsorted : twinLog.rows.Pairwise fun a b => a.branchLe b = true := by decide +kernel
  rw [forkRows, hall]
  exact List.mergeSort_of_pairwise hsorted

theorem length_forkHashes_twinLog : (forkHashes twinLog).length = 1 := by
  rw [forkHashes, List.length_mergeSort]
  decide +kernel

theorem twinLog_uncounted :
    ¬ ChainCounted (onlySigner flatHash (member 1)) twinGroup fun _ => byAge twinGroup.auditLog := by
  intro hcounted
  have hdetected := hcounted.detected
  obtain ⟨-, hforks⟩ := Prod.mk.inj (@frame_auditVerifyChainWith (onlySigner flatHash (member 1)) twinGroup
    fun _ => byAge twinGroup.auditLog)
  have hhashes : (forkHashes twinGroup.auditLog).length = 1 := length_forkHashes_twinLog
  have hrows : forkRows twinGroup.auditLog = twinLog.rows := forkRows_twinLog
  rw [(Prod.mk.inj hforks).1, scanForks, hrows, hhashes] at hdetected
  revert hdetected
  decide +kernel

end Hidden

end YumiBrowser.Group
