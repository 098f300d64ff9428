import YumiBrowser.Registrar.Retention

namespace YumiBrowser.Group

open Wire Keyed

/-- `gr_audit_chain_result_t` -/
structure ChainResult where
  totalEntries : ℕ
  verifiedEntries : ℕ
  invalidHash : ℕ
  invalidSignature : ℕ
  unknownActor : ℕ
  forksDetected : ℕ
  forksResolved : ℕ
  hasGenesis : Bool
  deriving DecidableEq

inductive Verdict
  | verified
  | invalidHash
  | invalidSignature
  | unknownActor
  deriving DecidableEq

def examine (crypto : Crypto) (reg : Registrar) (e : AuditEntry) : Verdict :=
  if crypto.skein e.hashed ≠ e.entryHash then .invalidHash
  else
    match reg.peers.find? e.actorId with
    | none => .unknownActor
    | some p =>
      if crypto.verify e.signature e.entryHash p.signKey then .verified else .invalidSignature

def ChainResult.count (r : ChainResult) : Verdict → ChainResult
  | .verified => { r with verifiedEntries := r.verifiedEntries + 1 }
  | .invalidHash => { r with invalidHash := r.invalidHash + 1 }
  | .invalidSignature => { r with invalidSignature := r.invalidSignature + 1 }
  | .unknownActor => { r with unknownActor := r.unknownActor + 1 }

def ChainResult.seen (r : ChainResult) (e : AuditEntry) : ChainResult :=
  if e.prevHash = zeroBytes 128 then { r with hasGenesis := true } else r

def verifyEntry (crypto : Crypto) (reg : Registrar) (r : ChainResult) (e : AuditEntry) :
    ChainResult :=
  (r.seen e).count (examine crypto reg e)

def blobRank (b : Bytes n) : ℕ := ofLe b.val.reverse

def AuditEntry.branchLe (a b : AuditEntry) : Bool :=
  blobRank a.prevHash < blobRank b.prevHash ∨ blobRank a.prevHash = blobRank b.prevHash ∧
    (a.timestampNs.toInt < b.timestampNs.toInt ∨ a.timestampNs.toInt = b.timestampNs.toInt ∧
      blobRank a.entryHash ≤ blobRank b.entryHash)

/-- `ps_audit_fork_resolve`: the rows that share their predecessor with another. -/
def forkRows (log : AuditLog) : List AuditEntry :=
  (log.rows.filter fun e => 1 < countPrev log e.prevHash).mergeSort AuditEntry.branchLe

-- The first component is the predecessor of the row before.
def forkStep (s : Hash × ChainResult) (e : AuditEntry) : Hash × ChainResult :=
  if e.prevHash ≠ s.1 then (e.prevHash, { s.2 with forksDetected := s.2.forksDetected + 1 })
  else (s.1, { s.2 with forksResolved := s.2.forksResolved + 1 })

def scanForks (log : AuditLog) (r : ChainResult) : ChainResult :=
  ((forkRows log).foldl forkStep (Bytes.fill 128 0xFF, r)).2

def chainBatch : ℕ := 512

/-- `ps_audit_verify_batch`, at one offset. -/
def batchAt (log : AuditLog) (offset : ℕ) : List AuditEntry :=
  ((byAge log).drop offset).take chainBatch

def batchOffsets (total : ℕ) : List ℕ :=
  (List.range ((total + chainBatch - 1) / chainBatch)).map fun i => i * chainBatch

def emptyResult (total : ℕ) : ChainResult where
  totalEntries := total
  verifiedEntries := 0
  invalidHash := 0
  invalidSignature := 0
  unknownActor := 0
  forksDetected := 0
  forksResolved := 0
  hasGenesis := false

/-- `gr_audit_verify_chain` -/
def auditVerifyChain (crypto : Crypto) (reg : Registrar) : ChainResult :=
  if reg.auditLog.rows.length = 0 then emptyResult reg.auditLog.rows.length
  else
    (batchOffsets reg.auditLog.rows.length).foldl
      (fun r offset => (batchAt reg.auditLog offset).foldl (verifyEntry crypto reg) r)
      (scanForks reg.auditLog (emptyResult reg.auditLog.rows.length))

structure AuditEntry.Alike (a b : AuditEntry) : Prop where
  prevHash : a.prevHash = b.prevHash
  timestamp : a.timestamp = b.timestamp
  changeType : a.changeType = b.changeType
  actorId : a.actorId = b.actorId
  targetId : a.targetId = b.targetId
  registrarVersion : a.registrarVersion = b.registrarVersion
  detail : a.detail = b.detail

-- Only the last of the fields has no fixed length.
theorem AuditEntry.hashed_inj {a b : AuditEntry} (h : a.hashed = b.hashed) : a.Alike b := by
  unfold AuditEntry.hashed at h
  obtain ⟨hleft, hdetail⟩ := List.append_inj h (by simp [Bytes.length_eq])
  obtain ⟨hleft, hversion⟩ := List.append_inj hleft (by simp [Bytes.length_eq])
  obtain ⟨hleft, htarget⟩ := List.append_inj hleft (by simp [Bytes.length_eq])
  obtain ⟨hleft, hactor⟩ := List.append_inj hleft (by simp [Bytes.length_eq])
  obtain ⟨hleft, hchange⟩ := List.append_inj hleft (by simp [Bytes.length_eq])
  obtain ⟨hprev, htime⟩ := List.append_inj hleft (by simp [Bytes.length_eq])
  exact
    { prevHash := Bytes.ext hprev
      timestamp := toLe_inj (by decide) htime
      changeType := toLe_inj (by decide) hchange
      actorId := Bytes.ext hactor
      targetId := Bytes.ext htarget
      registrarVersion := toLe_inj (by decide) hversion
      detail := CString.ext hdetail }

/-- Everything verified and nothing to report. -/
structure ChainResult.Clean (r : ChainResult) : Prop where
  verified : r.verifiedEntries = r.totalEntries
  hash : r.invalidHash = 0
  signature : r.invalidSignature = 0
  actor : r.unknownActor = 0
  fork : r.forksDetected = 0
  branch : r.forksResolved = 0

def ChainResult.Defect (r : ChainResult) : Prop :=
  r.invalidHash ≠ 0 ∨ r.invalidSignature ≠ 0 ∨ r.unknownActor ≠ 0 ∨ r.forksDetected ≠ 0 ∨
    r.forksResolved ≠ 0

def Vouched (crypto : Crypto) (reg : Registrar) (e : AuditEntry) : Prop :=
  ∃ key, (reg.peers.find? e.actorId).map Peer.signKey = some key ∧
    crypto.verify e.signature e.entryHash key = true

section Walk

variable {crypto : Crypto} {reg : Registrar} {log : AuditLog}

theorem examine_eq_verified {e : AuditEntry} : examine crypto reg e = .verified ↔
    crypto.skein e.hashed = e.entryHash ∧ Vouched crypto reg e := by
  unfold examine Vouched
  split
  · next hne => exact ⟨fun h => Verdict.noConfusion h, fun h => absurd h.1 hne⟩
  · next heq =>
    cases reg.peers.find? e.actorId with
    | none => simp
    | some p => simpa using fun _ => not_not.mp heq

def ChainResult.tally (r : ChainResult) : Verdict → ℕ
  | .verified => r.verifiedEntries
  | .invalidHash => r.invalidHash
  | .invalidSignature => r.invalidSignature
  | .unknownActor => r.unknownActor

def ChainResult.frame (r : ChainResult) : ℕ × ℕ × ℕ :=
  (r.totalEntries, r.forksDetected, r.forksResolved)

theorem tally_verifyEntry (r : ChainResult) (e : AuditEntry) (v : Verdict) :
    (verifyEntry crypto reg r e).tally v =
      r.tally v + if examine crypto reg e = v then 1 else 0 := by
  have hseen : (r.seen e).tally v = r.tally v := by
    unfold ChainResult.seen
    split
    · cases v <;> rfl
    · rfl
  rw [verifyEntry, ← hseen]
  generalize examine crypto reg e = w
  cases w <;> cases v <;> rfl

theorem frame_verifyEntry (r : ChainResult) (e : AuditEntry) :
    (verifyEntry crypto reg r e).frame = r.frame := by
  have hseen : (r.seen e).frame = r.frame := by
    unfold ChainResult.seen
    split
    · rfl
    · rfl
  rw [verifyEntry, ← hseen]
  cases examine crypto reg e <;> rfl

theorem tally_foldl (l : List AuditEntry) (r : ChainResult) (v : Verdict) :
    (l.foldl (verifyEntry crypto reg) r).tally v =
      r.tally v + l.countP fun e => examine crypto reg e = v := by
  induction l generalizing r with
  | nil => rfl
  | cons e l ih =>
    rw [List.foldl_cons, ih, tally_verifyEntry, List.countP_cons]
    simp only [decide_eq_true_eq]
    omega

theorem frame_foldl (l : List AuditEntry) (r : ChainResult) :
    (l.foldl (verifyEntry crypto reg) r).frame = r.frame := by
  induction l generalizing r with
  | nil => rfl
  | cons e l ih => rw [List.foldl_cons, ih, frame_verifyEntry]

theorem take_batches (l : List α) (k n : ℕ) :
    (List.range n).flatMap (fun i => (l.drop (i * k)).take k) = l.take (n * k) := by
  induction n with
  | zero => simp
  | succ n ih =>
    rw [List.range_succ, List.flatMap_append, ih, List.flatMap_singleton, Nat.succ_mul, List.take_add]

theorem walk_eq (r : ChainResult) :
    (batchOffsets log.rows.length).foldl
      (fun r offset => (batchAt log offset).foldl (verifyEntry crypto reg) r) r =
    (byAge log).foldl (verifyEntry crypto reg) r := by
  have hlen : (byAge log).length ≤
      (log.rows.length + chainBatch - 1) / chainBatch * chainBatch := by
    rw [(byAge_perm log).length_eq]
    unfold chainBatch
    omega
  rw [batchOffsets, List.foldl_map, ← List.foldl_flatMap]
  congr 1
  exact (take_batches (byAge log) chainBatch _).trans (List.take_of_length_le hlen)

theorem tally_forkStep (s : Hash × ChainResult) (e : AuditEntry) (v : Verdict) :
    (forkStep s e).2.tally v = s.2.tally v := by
  unfold forkStep
  split
  · cases v <;> rfl
  · cases v <;> rfl

theorem tally_scanForks (r : ChainResult) (v : Verdict) : (scanForks log r).tally v = r.tally v := by
  have hfold : ∀ (l : List AuditEntry) (s : Hash × ChainResult),
      (l.foldl forkStep s).2.tally v = s.2.tally v := by
    intro l
    induction l with
    | nil => exact fun _ => rfl
    | cons e l ih => exact fun s => (ih _).trans (tally_forkStep s e v)
  exact hfold _ _

def ChainResult.forks (r : ChainResult) : ℕ := r.forksDetected + r.forksResolved

theorem forks_forkStep (s : Hash × ChainResult) (e : AuditEntry) :
    (forkStep s e).2.forks = s.2.forks + 1 ∧
      (forkStep s e).2.totalEntries = s.2.totalEntries := by
  unfold forkStep
  split
  · exact ⟨Nat.add_right_comm .., rfl⟩
  · exact ⟨rfl, rfl⟩

theorem forks_scanForks (r : ChainResult) :
    (scanForks log r).forks = r.forks + (forkRows log).length ∧
      (scanForks log r).totalEntries = r.totalEntries := by
  have hfold : ∀ (l : List AuditEntry) (s : Hash × ChainResult),
      (l.foldl forkStep s).2.forks = s.2.forks + l.length ∧
        (l.foldl forkStep s).2.totalEntries = s.2.totalEntries := by
    intro l
    induction l with
    | nil => exact fun _ => ⟨rfl, rfl⟩
    | cons e l ih =>
      intro s
      obtain ⟨hforks, htotal⟩ := forks_forkStep s e
      obtain ⟨ihforks, ihtotal⟩ := ih (forkStep s e)
      refine ⟨?_, ihtotal.trans htotal⟩
      rw [List.foldl_cons, ihforks, hforks, List.length_cons]
      omega
  exact hfold _ _

theorem auditVerifyChain_eq : auditVerifyChain crypto reg =
    (byAge reg.auditLog).foldl (verifyEntry crypto reg)
      (scanForks reg.auditLog (emptyResult reg.auditLog.rows.length)) := by
  unfold auditVerifyChain
  split
  · next hempty =>
    have hrows : reg.auditLog.rows = [] := List.length_eq_zero_iff.mp hempty
    rw [scanForks, forkRows, byAge, hrows, List.filter_nil, List.mergeSort_nil, List.mergeSort_nil]
    rfl
  · exact walk_eq _

theorem tally_auditVerifyChain (v : Verdict) : (auditVerifyChain crypto reg).tally v =
    reg.auditLog.rows.countP fun e => examine crypto reg e = v := by
  have hzero : (emptyResult reg.auditLog.rows.length).tally v = 0 := by cases v <;> rfl
  rw [auditVerifyChain_eq, tally_foldl, tally_scanForks, hzero, Nat.zero_add]
  exact (byAge_perm _).countP_eq _

theorem forks_auditVerifyChain :
    (auditVerifyChain crypto reg).forks = (forkRows reg.auditLog).length ∧
      (auditVerifyChain crypto reg).totalEntries = reg.auditLog.rows.length := by
  have hframe := @frame_foldl crypto reg (byAge reg.auditLog)
    (scanForks reg.auditLog (emptyResult reg.auditLog.rows.length))
  rw [← auditVerifyChain_eq] at hframe
  obtain ⟨htotal, hforks⟩ := Prod.mk.inj hframe
  obtain ⟨hdetected, hresolved⟩ := Prod.mk.inj hforks
  obtain ⟨hcount, hscanned⟩ := @forks_scanForks reg.auditLog (emptyResult reg.auditLog.rows.length)
  refine ⟨?_, htotal.trans hscanned⟩
  rw [ChainResult.forks, hdetected, hresolved]
  exact hcount.trans (Nat.zero_add _)

theorem forkRows_ne_nil : (forkRows log).length ≠ 0 ↔ ∃ e ∈ log.rows, 1 < countPrev log e.prevHash := by
  have hmem : ∀ e, e ∈ forkRows log ↔ e ∈ log.rows ∧ 1 < countPrev log e.prevHash := by
    intro e
    rw [forkRows, List.mem_mergeSort, List.mem_filter, decide_eq_true_iff]
  rw [← Nat.pos_iff_ne_zero, List.length_pos_iff_exists_mem]
  exact exists_congr hmem

theorem tally_ne_zero (v : Verdict) : (auditVerifyChain crypto reg).tally v ≠ 0 ↔
    ∃ e ∈ reg.auditLog.rows, examine crypto reg e = v := by
  rw [tally_auditVerifyChain, ← Nat.pos_iff_ne_zero, List.countP_pos_iff]
  simp only [decide_eq_true_eq]

theorem defect_iff : (auditVerifyChain crypto reg).Defect ↔
    (∃ e ∈ reg.auditLog.rows, examine crypto reg e ≠ .verified) ∨
      ∃ e ∈ reg.auditLog.rows, 1 < countPrev reg.auditLog e.prevHash := by
  have hforks : (auditVerifyChain crypto reg).forksDetected ≠ 0 ∨
      (auditVerifyChain crypto reg).forksResolved ≠ 0 ↔
        ∃ e ∈ reg.auditLog.rows, 1 < countPrev reg.auditLog e.prevHash := by
    rw [← forkRows_ne_nil, ← (@forks_auditVerifyChain crypto reg).1, ChainResult.forks]
    omega
  unfold ChainResult.Defect
  rw [hforks]
  have hhash := @tally_ne_zero crypto reg .invalidHash
  have hsignature := @tally_ne_zero crypto reg .invalidSignature
  have hactor := @tally_ne_zero crypto reg .unknownActor
  change (auditVerifyChain crypto reg).invalidHash ≠ 0 ↔ _ at hhash
  change (auditVerifyChain crypto reg).invalidSignature ≠ 0 ↔ _ at hsignature
  change (auditVerifyChain crypto reg).unknownActor ≠ 0 ↔ _ at hactor
  rw [hhash, hsignature, hactor]
  constructor
  · rintro (⟨e, he, h⟩ | ⟨e, he, h⟩ | ⟨e, he, h⟩ | h)
    · exact .inl ⟨e, he, by simp [h]⟩
    · exact .inl ⟨e, he, by simp [h]⟩
    · exact .inl ⟨e, he, by simp [h]⟩
    · exact .inr h
  · rintro (⟨e, he, h⟩ | h)
    · cases hv : examine crypto reg e with
      | verified => exact absurd hv h
      | invalidHash => exact .inl ⟨e, he, hv⟩
      | invalidSignature => exact .inr (.inl ⟨e, he, hv⟩)
      | unknownActor => exact .inr (.inr (.inl ⟨e, he, hv⟩))
    · exact .inr (.inr (.inr h))

theorem clean_iff : (auditVerifyChain crypto reg).Clean ↔ ¬ (auditVerifyChain crypto reg).Defect := by
  constructor
  · rintro ⟨_, hhash, hsignature, hactor, hfork, hbranch⟩
    rintro (h | h | h | h | h)
    · exact h hhash
    · exact h hsignature
    · exact h hactor
    · exact h hfork
    · exact h hbranch
  · intro h
    have hall : ∀ e ∈ reg.auditLog.rows, decide (examine crypto reg e = .verified) = true := by
      intro e he
      by_contra hv
      exact h (defect_iff.mpr (.inl ⟨e, he, fun heq => hv (decide_eq_true heq)⟩))
    simp only [ChainResult.Defect, not_or, not_not] at h
    obtain ⟨hhash, hsignature, hactor, hfork, hbranch⟩ := h
    refine ⟨?_, hhash, hsignature, hactor, hfork, hbranch⟩
    have hverified := @tally_auditVerifyChain crypto reg .verified
    rw [List.countP_eq_length.mpr hall] at hverified
    exact hverified.trans (@forks_auditVerifyChain crypto reg).2.symm

end Walk

end YumiBrowser.Group
