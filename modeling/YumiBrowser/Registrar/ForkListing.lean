import Mathlib.Data.List.Dedup
import YumiBrowser.Library.Grouping
import YumiBrowser.Registrar.ChainVerification

namespace YumiBrowser.Group

open Wire Keyed Grouped

def forkMaxBranches : ℕ := 8

/-- `gr_audit_fork_t`; `branch_count` is the length of `branches`. -/
structure AuditFork where
  prevHash : Hash
  branches : List AuditEntry
  deriving DecidableEq

def AuditFork.add (e : AuditEntry) (f : AuditFork) : AuditFork :=
  if f.branches.length < forkMaxBranches then { f with branches := f.branches ++ [e] } else f

/-- The variables of the loop over the rows; there is no `currentPrev` as long as `first` is set. -/
structure ForkScan where
  forkIdx : ℕ
  out : List AuditFork
  currentPrev : Option Hash

def ForkScan.step (maxForks : ℕ) (s : ForkScan) (e : AuditEntry) : ForkScan :=
  if s.forkIdx < maxForks then
    if s.currentPrev = some e.prevHash then { s with out := s.out.modify s.forkIdx (.add e) }
    else
      let forkIdx := if s.currentPrev = none then s.forkIdx else s.forkIdx + 1
      if forkIdx < maxForks then
        { forkIdx
          out := (s.out ++ [AuditFork.mk e.prevHash []]).modify forkIdx (.add e)
          currentPrev := some e.prevHash }
      else { s with forkIdx }
  else s

def ForkScan.result (maxForks : ℕ) (s : ForkScan) : List AuditFork :=
  s.out.take (if s.currentPrev ≠ none ∧ s.forkIdx < maxForks then s.forkIdx + 1 else s.forkIdx)

def rowLimit (maxForks : BitVec 32) : ℤ := (maxForks * BitVec.ofNat 32 forkMaxBranches).toInt

/-- `gr_audit_list_forks`. A negative limit is refused by the engine. -/
def auditListForks (log : AuditLog) (maxForks : BitVec 32) : Except GrError (List AuditFork) :=
  if maxForks = 0 then .ok []
  else if rowLimit maxForks < 0 then .error .db
  else
    let s := ((forkRows log).take (rowLimit maxForks).toNat).foldl (ForkScan.step maxForks.toNat) ⟨0, [], none⟩
    .ok (s.result maxForks.toNat)

section Groups

variable {log : AuditLog} {a b e : AuditEntry} {prev : Hash}

theorem blobRank_inj {x y : Bytes n} (h : blobRank x = blobRank y) : x = y := by
  have hlen : x.val.reverse.length = y.val.reverse.length := by
    rw [List.length_reverse, List.length_reverse, x.length_eq, y.length_eq]
  apply Bytes.ext
  apply List.reverse_injective
  rw [← toLe_ofLe x.val.reverse, ← toLe_ofLe y.val.reverse, hlen]
  exact congrArg _ h

theorem branchLe_trans (a b c : AuditEntry) (hab : a.branchLe b = true) (hbc : b.branchLe c = true) :
    a.branchLe c = true := by
  simp only [AuditEntry.branchLe, decide_eq_true_eq] at *
  omega

theorem branchLe_total (a b : AuditEntry) : (a.branchLe b || b.branchLe a) = true := by
  simp only [AuditEntry.branchLe, Bool.or_eq_true, decide_eq_true_eq]
  omega

theorem branchLe_antisymm (hab : a.branchLe b = true) (hba : b.branchLe a = true) : a.entryHash = b.entryHash := by
  apply blobRank_inj
  simp only [AuditEntry.branchLe, decide_eq_true_eq] at hab hba
  omega

def forkHashes (log : AuditLog) : List Hash :=
  ((log.rows.map AuditEntry.prevHash).dedup.filter fun prev => 1 < countPrev log prev).mergeSort
    fun x y => blobRank x ≤ blobRank y

def branchesOf (log : AuditLog) (prev : Hash) : List AuditEntry :=
  (log.rows.filter fun e => e.prevHash = prev).mergeSort AuditEntry.branchLe

def forkGroups (log : AuditLog) : List (Group Hash AuditEntry) :=
  (forkHashes log).map fun prev => ⟨prev, branchesOf log prev⟩

theorem mem_forkHashes : prev ∈ forkHashes log ↔ 1 < countPrev log prev := by
  rw [forkHashes, List.mem_mergeSort, List.mem_filter, List.mem_dedup, decide_eq_true_iff, and_iff_right_iff_imp]
  intro h
  obtain ⟨e, he, hprev⟩ := List.countP_pos_iff.mp (Nat.lt_trans Nat.zero_lt_one h)
  exact List.mem_map.mpr ⟨e, he, of_decide_eq_true hprev⟩

theorem mem_branchesOf : e ∈ branchesOf log prev ↔ e ∈ log.rows ∧ e.prevHash = prev := by
  rw [branchesOf, List.mem_mergeSort, List.mem_filter, decide_eq_true_iff]

theorem length_branchesOf (log : AuditLog) (prev : Hash) : (branchesOf log prev).length = countPrev log prev := by
  rw [branchesOf, List.length_mergeSort, countPrev, List.countP_eq_length_filter]

theorem nodup_forkHashes (log : AuditLog) : (forkHashes log).Nodup :=
  (List.mergeSort_perm ..).nodup_iff.mpr ((List.nodup_dedup _).filter _)

theorem forkHashes_sorted (log : AuditLog) : (forkHashes log).Pairwise fun x y => blobRank x < blobRank y := by
  have hle := Paging.ordered_mergeSort blobRank
    ((log.rows.map AuditEntry.prevHash).dedup.filter fun prev => 1 < countPrev log prev)
  refine (hle.and (nodup_forkHashes log)).imp fun h => ?_
  exact Nat.lt_of_le_of_ne h.1 fun heq => h.2 (blobRank_inj heq)

theorem grouping_forkGroups (log : AuditLog) : Grouping AuditEntry.prevHash (forkGroups log) where
  rows_ne_nil g hg := by
    obtain ⟨prev, hprev, rfl⟩ := List.mem_map.mp hg
    have hcount := mem_forkHashes.mp hprev
    rw [← length_branchesOf] at hcount
    exact List.ne_nil_of_length_pos (Nat.lt_trans Nat.zero_lt_one hcount)
  key_eq g hg a ha := by
    obtain ⟨prev, -, rfl⟩ := List.mem_map.mp hg
    exact (mem_branchesOf.mp ha).2
  nodup := by
    rw [forkGroups, List.map_map]
    exact (List.map_id (forkHashes log)).symm ▸ nodup_forkHashes log

theorem rowsOf_forkGroups_perm (log : AuditLog) :
    (Grouped.rowsOf (forkGroups log)).Perm (log.rows.filter fun e => 1 < countPrev log e.prevHash) := by
  have hrows : Grouped.rowsOf (forkGroups log) = (forkHashes log).flatMap (branchesOf log) := List.flatMap_map ..
  rw [hrows, List.perm_ext_iff_of_nodup _ ((nodup_rows log).filter _)]
  · intro e
    rw [List.mem_flatMap, List.mem_filter, decide_eq_true_iff]
    constructor
    · rintro ⟨prev, hprev, he⟩
      obtain ⟨hmem, rfl⟩ := mem_branchesOf.mp he
      exact ⟨hmem, mem_forkHashes.mp hprev⟩
    · rintro ⟨hmem, hcount⟩
      exact ⟨e.prevHash, mem_forkHashes.mpr hcount, mem_branchesOf.mpr ⟨hmem, rfl⟩⟩
  · refine List.nodup_flatMap.mpr ⟨fun prev _ => ?_, (nodup_forkHashes log).imp fun hne => ?_⟩
    · exact (List.mergeSort_perm ..).nodup_iff.mpr ((nodup_rows log).filter _)
    · intro e he he'
      exact hne ((mem_branchesOf.mp he).2.symm.trans (mem_branchesOf.mp he').2)

theorem forkRows_eq (log : AuditLog) : forkRows log = Grouped.rowsOf (forkGroups log) := by
  have hperm : (forkRows log).Perm (Grouped.rowsOf (forkGroups log)) :=
    (List.mergeSort_perm ..).trans (rowsOf_forkGroups_perm log).symm
  have hsame : ∀ a b, a ∈ forkRows log → b ∈ Grouped.rowsOf (forkGroups log) →
      a.branchLe b = true → b.branchLe a = true → a = b := by
    intro a b ha hb hab hba
    have hmem : ∀ e ∈ forkRows log, e ∈ log.rows := by
      intro e he
      rw [forkRows, List.mem_mergeSort] at he
      exact List.mem_of_mem_filter he
    exact List.inj_on_of_nodup_map log.nodup (hmem a ha) (hmem b (hperm.mem_iff.mpr hb)) (branchLe_antisymm hab hba)
  have hquery : (forkRows log).Pairwise fun a b => a.branchLe b = true :=
    List.pairwise_mergeSort branchLe_trans branchLe_total _
  have hforks : (Grouped.rowsOf (forkGroups log)).Pairwise fun a b => a.branchLe b = true := by
    have hrows : Grouped.rowsOf (forkGroups log) = (forkHashes log).flatMap (branchesOf log) := List.flatMap_map ..
    rw [hrows, List.pairwise_flatMap]
    refine ⟨fun prev _ => List.pairwise_mergeSort branchLe_trans branchLe_total _, ?_⟩
    refine (forkHashes_sorted log).imp fun hlt a ha b hb => ?_
    rw [← (mem_branchesOf.mp ha).2, ← (mem_branchesOf.mp hb).2] at hlt
    exact decide_eq_true (.inl hlt)
  exact hperm.eq_of_pairwise hsame hquery hforks

end Groups

section Scan

variable {maxForks : ℕ} {s : ForkScan} {gs : List (Group Hash AuditEntry)} {g : Group Hash AuditEntry}

def AuditFork.whole (g : Group Hash AuditEntry) : AuditFork := ⟨g.key, g.rows⟩

theorem AuditFork.whole_injective : Function.Injective AuditFork.whole := by
  rintro ⟨key, rows⟩ ⟨key', rows'⟩ h
  obtain ⟨rfl, rfl⟩ := AuditFork.mk.inj h
  rfl

def AuditFork.ofGroup (g : Group Hash AuditEntry) : AuditFork := .whole (g.first forkMaxBranches)

theorem foldl_add (prev : Hash) (bs es : List AuditEntry) (h : bs.length ≤ forkMaxBranches) :
    es.foldl (fun f e => f.add e) (AuditFork.mk prev bs) = ⟨prev, (bs ++ es).take forkMaxBranches⟩ := by
  induction es generalizing bs with
  | nil => rw [List.foldl_nil, List.append_nil, List.take_of_length_le h]
  | cons e es ih =>
    rw [List.foldl_cons, AuditFork.add]
    split
    · next hroom =>
      rw [ih (bs ++ [e]) (by rw [List.length_append]; exact hroom), List.append_assoc]
      rfl
    · next hfull =>
      have hlen : bs.length = forkMaxBranches := Nat.le_antisymm h (Nat.not_lt.mp hfull)
      rw [ih bs h, List.take_append_of_le_length hlen.ge, List.take_append_of_le_length hlen.ge]

theorem modify_concat {α : Type} (l : List α) (a : α) (f : α → α) : (l ++ [a]).modify l.length f = l ++ [f a] := by
  induction l with
  | nil => rfl
  | cons b l ih => exact congrArg (List.cons b) ih

theorem scan_full (hfull : ¬ s.forkIdx < maxForks) (es : List AuditEntry) :
    es.foldl (ForkScan.step maxForks) s = s := by
  induction es with
  | nil => rfl
  | cons e es ih => rw [List.foldl_cons, ForkScan.step, if_neg hfull, ih]

theorem scan_rows (hidx : s.forkIdx < maxForks) (es : List AuditEntry)
    (hprev : ∀ e ∈ es, s.currentPrev = some e.prevHash) : es.foldl (ForkScan.step maxForks) s =
      { s with out := s.out.modify s.forkIdx fun f => es.foldl (fun f e => f.add e) f } := by
  induction es generalizing s with
  | nil => exact congrArg (fun out => { s with out }) (List.modify_id _ s.out).symm
  | cons e es ih =>
    rw [List.foldl_cons, ForkScan.step, if_pos hidx, if_pos (hprev e List.mem_cons_self)]
    rw [@ih { s with out := s.out.modify s.forkIdx (.add e) } hidx fun e' he' =>
      hprev e' (List.mem_cons_of_mem e he'), List.modify_modify_eq]
    rfl

def scanned (maxForks : ℕ) (gs : List (Group Hash AuditEntry)) : ForkScan where
  forkIdx := if gs.length ≤ maxForks then gs.length - 1 else maxForks
  out := (gs.map .ofGroup).take maxForks
  currentPrev := (gs.take maxForks).getLast?.map Group.key

theorem scanned_of_le (hle : gs.length ≤ maxForks) :
    scanned maxForks gs = ⟨gs.length - 1, gs.map .ofGroup, gs.getLast?.map Group.key⟩ := by
  have hmap : (gs.map AuditFork.ofGroup).length ≤ maxForks := by rwa [List.length_map]
  rw [scanned, if_pos hle, List.take_of_length_le hle, List.take_of_length_le hmap]

theorem scanned_of_ge (hge : maxForks ≤ gs.length) :
    scanned maxForks (gs ++ [g]) =
      ⟨maxForks, (gs.map .ofGroup).take maxForks, (gs.take maxForks).getLast?.map Group.key⟩ := by
  have hlength : ¬ (gs ++ [g]).length ≤ maxForks := by
    rw [List.length_append]
    exact Nat.not_le_of_gt (Nat.lt_succ_of_le hge)
  rw [scanned, if_neg hlength, List.take_append_of_le_length hge, List.map_append, List.take_append_of_le_length]
  rwa [List.length_map]

theorem next_idx (hle : gs.length ≤ maxForks) :
    (if (scanned maxForks gs).currentPrev = none then (scanned maxForks gs).forkIdx
      else (scanned maxForks gs).forkIdx + 1) = gs.length := by
  rw [scanned_of_le hle]
  cases gs using List.reverseRecOn with
  | nil => rfl
  | append_singleton gs g =>
    rw [List.getLast?_concat, List.length_append]
    exact if_neg (Option.some_ne_none g.key)

theorem currentPrev_fresh (h : Grouping AuditEntry.prevHash (gs ++ [g])) :
    (scanned maxForks gs).currentPrev ≠ some g.key := by
  intro hsame
  obtain ⟨g', hlast, hkey⟩ := Option.map_eq_some_iff.mp hsame
  have hmem := List.mem_of_mem_take (List.mem_of_getLast? hlast)
  exact h.fresh (List.mem_map.mpr ⟨g', hmem, hkey⟩)

theorem scan_group (hpos : 0 < maxForks) (h : Grouping AuditEntry.prevHash (gs ++ [g])) :
    g.rows.foldl (ForkScan.step maxForks) (scanned maxForks gs) = scanned maxForks (gs ++ [g]) := by
  by_cases hle : gs.length ≤ maxForks
  · obtain ⟨e, es, hrows⟩ := List.exists_cons_of_ne_nil (h.rows_ne_nil g (by simp))
    have hkey : ∀ a ∈ e :: es, a.prevHash = g.key := by
      rw [← hrows]
      exact h.key_eq g (by simp)
    have hidx : (scanned maxForks gs).forkIdx < maxForks := by
      rw [scanned_of_le hle]
      exact Nat.lt_of_lt_of_le (m := gs.length - 1 + 1) (Nat.lt_succ_self _) (by omega)
    rw [hrows, List.foldl_cons, ForkScan.step, if_pos hidx, hkey e List.mem_cons_self,
      if_neg (currentPrev_fresh h), next_idx hle]
    dsimp only
    split
    · next hroom =>
      have hadd : es.foldl (fun f e => f.add e) ((AuditFork.mk g.key []).add e) = .ofGroup g := by
        rw [← List.foldl_cons (f := fun f e => AuditFork.add e f), foldl_add _ _ _ (Nat.zero_le _), ← hrows]
        rfl
      have hall : (gs ++ [g]).length ≤ maxForks := by rwa [List.length_append]
      rw [scan_rows hroom es fun a ha => by rw [hkey a (List.mem_cons_of_mem e ha)], scanned_of_le hle,
        List.modify_modify_eq, scanned_of_le hall]
      have hlength : (gs.map AuditFork.ofGroup).length = gs.length := List.length_map ..
      have hmodify := modify_concat (gs.map AuditFork.ofGroup) (AuditFork.mk g.key [])
        ((fun f => es.foldl (fun f e => f.add e) f) ∘ .add e)
      rw [hlength, Function.comp_apply, hadd] at hmodify
      rw [hmodify, List.getLast?_concat, List.map_append, List.length_append]
      rfl
    · next hfull =>
      have heq : gs.length = maxForks := Nat.le_antisymm hle (Nat.not_lt.mp hfull)
      rw [scan_full hfull, scanned_of_ge heq.ge, heq]
      rfl
  · have hge : maxForks ≤ gs.length := Nat.le_of_not_le hle
    have hsame : scanned maxForks (gs ++ [g]) = scanned maxForks gs := by
      rw [scanned_of_ge hge, scanned, if_neg hle]
    have hfull : ¬ (scanned maxForks gs).forkIdx < maxForks := by
      rw [scanned, if_neg hle]
      exact Nat.lt_irrefl maxForks
    rw [hsame, scan_full hfull]

theorem scan_groups (hpos : 0 < maxForks) (h : Grouping AuditEntry.prevHash gs) :
    (Grouped.rowsOf gs).foldl (ForkScan.step maxForks) ⟨0, [], none⟩ = scanned maxForks gs := by
  induction gs using List.reverseRecOn with
  | nil =>
    have hle : ([] : List (Group Hash AuditEntry)).length ≤ maxForks := Nat.zero_le maxForks
    rw [scanned, if_pos hle, List.take_nil, List.map_nil, List.take_nil]
    rfl
  | append_singleton gs g ih =>
    rw [rowsOf_concat, List.foldl_append, ih h.init, scan_group hpos h]

theorem result_scanned :
    (scanned maxForks gs).result maxForks = (gs.map .ofGroup).take maxForks := by
  cases gs using List.reverseRecOn with
  | nil => rw [ForkScan.result, scanned, List.map_nil, List.take_nil, List.take_nil]
  | append_singleton gs g =>
    by_cases hlt : gs.length < maxForks
    · have hle : (gs ++ [g]).length ≤ maxForks := by rwa [List.length_append]
      have hmap : ((gs ++ [g]).map AuditFork.ofGroup).length = gs.length + 1 := by
        rw [List.length_map, List.length_append]
        rfl
      rw [ForkScan.result, scanned_of_le hle, List.getLast?_concat, List.length_append]
      dsimp only
      rw [if_pos ⟨Option.some_ne_none _, by simpa using hlt⟩, List.take_of_length_le (by rw [hmap]; rfl),
        List.take_of_length_le (by rw [hmap]; exact hlt)]
    · have hge : maxForks ≤ gs.length := Nat.not_lt.mp hlt
      rw [ForkScan.result, scanned_of_ge hge, if_neg (fun h => Nat.lt_irrefl _ h.2), List.take_take, Nat.min_self,
        List.map_append, List.take_append_of_le_length (by rwa [List.length_map])]

end Scan

section Listing

variable {log : AuditLog} {maxForks : BitVec 32} {out : List AuditFork}

/-- What a listing is for: as many forks as there is room for, each with its earliest branches. -/
def ListsForks (log : AuditLog) (maxForks : ℕ) (r : Except GrError (List AuditFork)) : Prop :=
  ∃ out, r = .ok out ∧ out.length = min maxForks (forkHashes log).length ∧ (out.map AuditFork.prevHash).Nodup ∧
    ∀ f ∈ out, f.prevHash ∈ forkHashes log ∧ f.branches = (branchesOf log f.prevHash).take forkMaxBranches

/-- The rows of the query that the first forks need, up to the last branch that is listed of each. -/
def WithinLimit (log : AuditLog) (maxForks : BitVec 32) : Prop :=
  0 ≤ rowLimit maxForks ∧ ∀ k < min maxForks.toNat (forkHashes log).length,
    reach forkMaxBranches k (forkGroups log) ≤ (rowLimit maxForks).toNat

theorem auditListForks_eq (hpos : maxForks ≠ 0) (hlimit : 0 ≤ rowLimit maxForks) : auditListForks log maxForks =
    .ok (((clip (rowLimit maxForks).toNat (forkGroups log)).map .ofGroup).take maxForks.toNat) := by
  have hmax : 0 < maxForks.toNat := Nat.pos_of_ne_zero fun h => hpos (BitVec.eq_of_toNat_eq h)
  rw [auditListForks, if_neg hpos, if_neg (Int.not_lt.mpr hlimit), forkRows_eq, ← rowsOf_clip]
  dsimp only
  rw [scan_groups hmax ((grouping_forkGroups log).clip _), result_scanned]

def AuditFork.listed (log : AuditLog) (prev : Hash) : AuditFork := ⟨prev, (branchesOf log prev).take forkMaxBranches⟩

theorem forkGroups_ofGroup (log : AuditLog) :
    (forkGroups log).map AuditFork.ofGroup = (forkHashes log).map (AuditFork.listed log) :=
  List.map_map ..

theorem listsForks_listed (log : AuditLog) (m : ℕ) :
    ListsForks log m (.ok (((forkHashes log).take m).map (.listed log))) := by
  refine ⟨_, rfl, ?_, ?_, fun f hf => ?_⟩
  · rw [List.length_map, List.length_take]
  · rw [List.map_map]
    exact (List.map_id ((forkHashes log).take m)).symm ▸ (nodup_forkHashes log).sublist (List.take_sublist ..)
  · obtain ⟨prev, hprev, rfl⟩ := List.mem_map.mp hf
    exact ⟨List.mem_of_mem_take hprev, rfl⟩

theorem listsForks_iff {gs : List (Group Hash AuditEntry)}
    (hkeys : gs.map Group.key <+: (forkGroups log).map Group.key) (m : ℕ) :
    ListsForks log m (.ok ((gs.map .ofGroup).take m)) ↔
      (gs.map AuditFork.ofGroup).take m = ((forkGroups log).map .ofGroup).take m := by
  have htake : ((forkHashes log).map (AuditFork.listed log)).take m = ((forkHashes log).take m).map (.listed log) :=
    List.map_take.symm
  rw [forkGroups_ofGroup, htake]
  constructor
  · rintro ⟨out, hout, hlength, -, hforks⟩
    obtain rfl := Except.ok.inj hout
    have hprefix : (gs.map Group.key).take m <+: (forkHashes log).take m := by
      have hall : (forkGroups log).map Group.key = forkHashes log := (List.map_map ..).trans (List.map_id _)
      obtain ⟨others, hothers⟩ := hkeys
      rw [← hall, ← hothers, List.take_append]
      exact List.prefix_append ..
    have hprevs : ((gs.map AuditFork.ofGroup).take m).map AuditFork.prevHash = (forkHashes log).take m := by
      have hmap : ((gs.map AuditFork.ofGroup).take m).map AuditFork.prevHash = (gs.map Group.key).take m := by
        rw [List.map_take, List.map_map]
        rfl
      rw [hmap]
      apply hprefix.eq_of_length
      rw [← hmap, List.length_map, hlength, List.length_take]
    rw [← hprevs, List.map_map]
    refine (List.map_id _).symm.trans (List.map_congr_left fun f hf => ?_)
    obtain ⟨-, hbranches⟩ := hforks f hf
    rw [Function.comp_apply, AuditFork.listed, ← hbranches]
    rfl
  · intro h
    rw [h]
    exact listsForks_listed log m

theorem lists_forks_iff (log : AuditLog) (maxForks : BitVec 32) :
    ListsForks log maxForks.toNat (auditListForks log maxForks) ↔ maxForks = 0 ∨ WithinLimit log maxForks := by
  by_cases hzero : maxForks = 0
  · refine iff_of_true ⟨[], if_pos hzero, ?_, List.nodup_nil, fun f hf => absurd hf List.not_mem_nil⟩ (.inl hzero)
    rw [hzero]
    exact (Nat.zero_min _).symm
  · rw [or_iff_right hzero, WithinLimit]
    by_cases hlimit : 0 ≤ rowLimit maxForks
    · have hlength : (forkHashes log).length = (forkGroups log).length := (List.length_map ..).symm
      rw [auditListForks_eq hzero hlimit, listsForks_iff (clip_keys _ _), and_iff_right hlimit, hlength,
        ← clip_first_iff (by decide) (grouping_forkGroups log).rows_ne_nil]
      have hwhole (gs : List (Group Hash AuditEntry)) : (gs.map AuditFork.ofGroup).take maxForks.toNat =
          ((gs.map (Group.first forkMaxBranches)).take maxForks.toNat).map .whole := by
        rw [List.map_take, List.map_map]
        rfl
      rw [hwhole, hwhole]
      exact (List.map_injective_iff.mpr AuditFork.whole_injective).eq_iff
    · rw [auditListForks, if_neg hzero, if_pos (Int.not_le.mp hlimit)]
      refine iff_of_false ?_ fun h => hlimit h.1
      rintro ⟨out, hout, -⟩
      cases hout

end Listing

section Crowded

def branchAfter (prev hash : Byte) : AuditEntry where
  entryHash := Bytes.fill 128 hash
  timestamp := 1
  timestampNs := 1
  changeType := 0
  actorId := (member 1).peerId
  targetId := zeroBytes 32
  signature := zeroBytes 4627
  registrarVersion := 1
  detail := CString.empty 256 detailCap_pos
  prevHash := Bytes.fill 128 prev

def crowdedLog : AuditLog where
  rows := (List.range 16).map (fun i => branchAfter 1 (BitVec.ofNat 8 i)) ++ [branchAfter 2 16, branchAfter 2 17]
  nodup := by decide +kernel

theorem forkRows_crowdedLog : forkRows crowdedLog = crowdedLog.rows := by
  have hall : crowdedLog.rows.filter (fun e => 1 < countPrev crowdedLog e.prevHash) = crowdedLog.rows := by
    apply List.filter_eq_self.mpr
    decide +kernel
  have hsorted : crowdedLog.rows.Pairwise fun a b => a.branchLe b = true := by decide +kernel
  rw [forkRows, hall]
  exact List.mergeSort_of_pairwise hsorted

theorem length_forkHashes_crowdedLog : (forkHashes crowdedLog).length = 2 := by
  rw [forkHashes, List.length_mergeSort]
  decide +kernel

theorem crowdedLog_hides : ¬ ListsForks crowdedLog 2 (auditListForks crowdedLog 2) := by
  rintro ⟨out, hout, hlength, -⟩
  rw [auditListForks, if_neg (by decide), if_neg (by decide), forkRows_crowdedLog] at hout
  rw [length_forkHashes_crowdedLog, ← Except.ok.inj hout] at hlength
  revert hlength
  decide +kernel

end Crowded

end YumiBrowser.Group
