import YumiBrowser.Library.System
import YumiBrowser.Registrar.Types

namespace YumiBrowser.Group

open Wire Keyed Transition

/-- A row of `gr_ip_blocklist`. -/
structure BlockRow where
  ip : Ip
  failCount : BitVec 32
  blocked : Bool
  blockedAt : I64
  lastAttempt : I64

abbrev Blocklist := Table BlockRow.ip

structure Refusal where
  query : Bool
  change : Bool

def Refusal.none : Refusal := ⟨false, false⟩

/-- `now_ms`, of what `gr_timestamp_ns` returns. -/
def nowMs (ns : I64) : I64 := ns.sdiv 1000000

section Calls

variable (t : Blocklist) (r : Refusal) (ns : I64) (ip : Ip)

def blockDelete : Blocklist := t.filter fun row => row.ip ≠ ip

def grBlocklistCheck (blockDurationMs : I64) : Except GrError Bool × Blocklist :=
  if r.query then (.error .db, t)
  else
    match t.find? ip with
    | none => (.ok false, t)
    | some row =>
      if row.blocked then
        if blockDurationMs.toInt ≤ (nowMs ns - row.blockedAt).toInt then
          -- a refusal of the deletion goes unnoticed
          (.ok false, if r.change then t else blockDelete t ip)
        else (.ok true, t)
      else (.ok false, t)

def BlockRow.failed (row : Option BlockRow) (ns : I64) (ip : Ip) (maxFails : BitVec 32) : BlockRow :=
  let failCount := (row.map BlockRow.failCount).getD 0 + 1
  let shouldBlock : Bool := maxFails.toInt ≤ failCount.toInt
  { ip, failCount, blocked := shouldBlock, blockedAt := if shouldBlock then nowMs ns else 0, lastAttempt := nowMs ns }

def grBlocklistRecordFail (maxFails : BitVec 32) : Except GrError Bool × Blocklist :=
  if r.query then (.error .db, t)
  else if (t.find? ip).any BlockRow.blocked then (.ok false, t)
  else
    let row := BlockRow.failed (t.find? ip) ns ip maxFails
    if r.change then (.error .db, t) else (.ok row.blocked, t.upsert row)

def grBlocklistReset : Except GrError Unit × Blocklist :=
  if r.change then (.error .db, t) else (.ok (), blockDelete t ip)

/-- With the statement `DELETE … WHERE blocked=TRUE AND blocked_at < cutoff`. -/
def grBlocklistCleanup (blockDurationMs : I64) : Except GrError Unit × Blocklist :=
  let cutoff := nowMs ns - blockDurationMs
  if r.change then (.error .db, t)
  else (.ok (), t.filter fun row => ¬ (row.blocked ∧ row.blockedAt.toInt < cutoff.toInt))

end Calls

inductive BlockCall
  | check (ip : Ip)
  | recordFail (ip : Ip) (maxFails : BitVec 32)
  | reset (ip : Ip)
  | cleanup

/-- A call, with the time that it reads. -/
structure BlockEvent where
  ns : I64
  refusal : Refusal
  call : BlockCall

def BlockEvent.time (e : BlockEvent) : ℤ := (nowMs e.ns).toInt

def BlockEvent.run (duration : I64) (t : Blocklist) (e : BlockEvent) : Except GrError (Option Bool) × Blocklist :=
  match e.call with
  | .check ip => Prod.map (Except.map some) id (grBlocklistCheck t e.refusal e.ns ip duration)
  | .recordFail ip maxFails => Prod.map (Except.map some) id (grBlocklistRecordFail t e.refusal e.ns ip maxFails)
  | .reset ip => Prod.map (Except.map fun _ => none) id (grBlocklistReset t e.refusal ip)
  | .cleanup => Prod.map (Except.map fun _ => none) id (grBlocklistCleanup t e.refusal e.ns duration)

inductive Standing
  | counting (fails : ℕ)
  | blocked (since : ℤ)

namespace Standing

def Blocked (s : Standing) : Prop := ∃ since, s = .blocked since

def expire (duration now : ℤ) : Standing → Standing
  | .counting fails => .counting fails
  | .blocked since => if duration ≤ now - since then .counting 0 else .blocked since

def fail (maxFails now : ℤ) : Standing → Standing
  | .counting fails => if maxFails ≤ fails + 1 then .blocked now else .counting (fails + 1)
  | .blocked since => .blocked since

def ofRow : Option BlockRow → Standing
  | none => .counting 0
  | some row => if row.blocked then .blocked row.blockedAt.toInt else .counting row.failCount.toNat

end Standing

def BlockCall.enter (now : ℤ) (ledger : Ip → Standing) : BlockCall → Ip → Standing
  | .recordFail ip maxFails => Function.update ledger ip ((ledger ip).fail maxFails.toInt now)
  | .reset ip => Function.update ledger ip (.counting 0)
  | .check _ | .cleanup => ledger

structure BlockRun where
  table : Blocklist
  ledger : Ip → Standing
  now : ℤ

namespace BlockRun

def start : BlockRun := ⟨Table.empty, fun _ => .counting 0, -2 ^ 63⟩

def due (duration : I64) (s : BlockRun) (e : BlockEvent) (ip : Ip) : Standing :=
  (s.ledger ip).expire duration.toInt e.time

def next (duration : I64) (s : BlockRun) (e : BlockEvent) : BlockRun where
  table := (e.run duration s.table).2
  ledger := if (e.run duration s.table).1.isOk then e.call.enter e.time (s.due duration e) else s.due duration e
  now := e.time

def Follows (duration : I64) (s : BlockRun) : Prop :=
  ∀ ip, (Standing.ofRow (s.table.find? ip)).expire duration.toInt s.now = (s.ledger ip).expire duration.toInt s.now

/-- The answer of a call is what the standings say, and a cleanup removes what a check finds expired. -/
def Answers (duration : I64) (s : BlockRun) (e : BlockEvent) : Prop :=
  match e.call with
  | .check ip => ∀ blocked, (e.run duration s.table).1 = .ok (some blocked) →
    (blocked = true ↔ (s.due duration e ip).Blocked)
  | .recordFail ip _ => ∀ justBlocked, (e.run duration s.table).1 = .ok (some justBlocked) →
    (justBlocked = true ↔ ¬ (s.due duration e ip).Blocked ∧ ((s.next duration e).ledger ip).Blocked)
  | .reset _ => True
  | .cleanup => (e.run duration s.table).1.isOk →
    ∀ ip, (s.next duration e).table.find? ip = (grBlocklistCheck s.table .none e.ns ip duration).2.find? ip

structure Right (duration : I64) (s : BlockRun) (e : BlockEvent) : Prop where
  answers : s.Answers duration e
  follows : (s.next duration e).Follows duration

/-- No failure is recorded for an IP whose block has expired and is still in the table, and no cleanup comes at the
very end of a block (or with a cutoff beyond 64 bits). -/
def Timely (duration : I64) (s : BlockRun) (e : BlockEvent) : Prop :=
  match e.call with
  | .check _ | .reset _ => True
  | .recordFail ip _ => e.refusal.query = false → ∀ row, s.table.find? ip = some row → row.blocked = true →
    e.time - row.blockedAt.toInt < duration.toInt
  | .cleanup => e.refusal.change = false → ∀ row ∈ s.table.rows, row.blocked = true →
    e.time - row.blockedAt.toInt ≠ duration.toInt ∧
      -2 ^ 63 ≤ e.time - duration.toInt ∧ e.time - duration.toInt < 2 ^ 63

end BlockRun

section Arithmetic

theorem time_bounds (e : BlockEvent) : -9223372036855 ≤ e.time ∧ e.time ≤ 9223372036855 := by
  have hlow : -2 ^ 63 ≤ e.ns.toInt := BitVec.le_toInt e.ns
  have hhigh : e.ns.toInt < 2 ^ 63 := BitVec.toInt_lt
  have hbounds : -9223372036855 ≤ e.ns.toInt.tdiv 1000000 ∧ e.ns.toInt.tdiv 1000000 ≤ 9223372036855 := by
    rw [Int.tdiv_eq_ediv]
    split
    · omega
    · have hsign : (1000000 : ℤ).sign = 1 := rfl
      omega
  have htime : e.time = e.ns.toInt.tdiv 1000000 := by
    unfold BlockEvent.time nowMs
    rw [BitVec.toInt_sdiv]
    have hmillion : (1000000 : I64).toInt = 1000000 := by decide
    rw [hmillion, Int.bmod_eq_of_le]
    · omega
    · omega
  rw [htime]
  exact hbounds

theorem toInt_sub {x y : I64} (hx : -9223372036855 ≤ x.toInt ∧ x.toInt ≤ 9223372036855)
    (hy : -9223372036855 ≤ y.toInt ∧ y.toInt ≤ 9223372036855) : (x - y).toInt = x.toInt - y.toInt := by
  rw [BitVec.toInt_sub, Int.bmod_eq_of_le]
  · omega
  · omega

end Arithmetic

namespace Standing

variable {duration now later maxFails : ℤ}

theorem not_blocked_counting (fails : ℕ) : ¬ (counting fails).Blocked := by
  rintro ⟨since, h⟩
  cases h

theorem expire_of_over {since : ℤ} (h : duration ≤ now - since) :
    (blocked since).expire duration now = counting 0 := if_pos h

theorem expire_of_lasting {since : ℤ} (h : now - since < duration) :
    (blocked since).expire duration now = blocked since := if_neg (not_le.mpr h)

theorem expire_expire (h : now ≤ later) (s : Standing) :
    (s.expire duration now).expire duration later = s.expire duration later := by
  cases s with
  | counting fails => rfl
  | blocked since =>
    rcases lt_or_ge (now - since) duration with hlasts | hover
    · rw [expire_of_lasting hlasts]
    · have hlater : duration ≤ later - since := by omega
      rw [expire_of_over hover, expire_of_over hlater]
      rfl

end Standing

/-- What the rows of the table are: the count stays below any limit of 32 bits. -/
structure BlockRow.Valid (row : BlockRow) : Prop where
  since : row.blocked = true → -9223372036855 ≤ row.blockedAt.toInt ∧ row.blockedAt.toInt ≤ 9223372036855
  count : row.blocked = false → row.failCount.toNat < 2 ^ 31 - 1

section Rows

variable {t : Blocklist} {r : Refusal} {e : BlockEvent} {ip j : Ip} {row : BlockRow} {maxFails : BitVec 32} {D : I64}

theorem find?_blockDelete : (blockDelete t ip).find? j = if j = ip then none else t.find? j := by
  rw [blockDelete, Table.find?_filter]
  cases hrow : t.find? j with
  | none => simp
  | some row =>
    rw [← Table.key_of_find? hrow]
    by_cases hip : row.ip = ip <;> simp [Option.filter, hip]

theorem ofRow_of_not_blocked {found : Option BlockRow} (h : ¬ found.any BlockRow.blocked = true) :
    Standing.ofRow found = .counting ((found.map BlockRow.failCount).getD 0).toNat := by
  cases found with
  | none => rfl
  | some row => exact if_neg h

theorem toInt_count {found : Option BlockRow} (hvalid : ∀ row ∈ found, row.Valid)
    (h : ¬ found.any BlockRow.blocked = true) :
    ((found.map BlockRow.failCount).getD 0 + 1).toInt = ((found.map BlockRow.failCount).getD 0).toNat + 1 ∧
      ((found.map BlockRow.failCount).getD 0 + 1).toNat = ((found.map BlockRow.failCount).getD 0).toNat + 1 := by
  have hlt : ((found.map BlockRow.failCount).getD 0).toNat < 2 ^ 31 - 1 := by
    cases found with
    | none => decide
    | some row => exact (hvalid row rfl).count (Bool.eq_false_iff.mpr h)
  generalize (found.map BlockRow.failCount).getD 0 = count at hlt
  have hnat : (count + 1).toNat = count.toNat + 1 := by
    rw [BitVec.toNat_add]
    exact Nat.mod_eq_of_lt (by change count.toNat + 1 < _; omega)
  refine ⟨?_, hnat⟩
  rw [BitVec.toInt_eq_toNat_of_lt, hnat]
  · rfl
  · omega

theorem ofRow_failed (e : BlockEvent) (maxFails : BitVec 32) (hvalid : ∀ row ∈ t.find? ip, row.Valid)
    (h : ¬ (t.find? ip).any BlockRow.blocked = true) :
    Standing.ofRow (some (BlockRow.failed (t.find? ip) e.ns ip maxFails)) =
      (Standing.ofRow (t.find? ip)).fail maxFails.toInt e.time := by
  obtain ⟨hint, hnat⟩ := toInt_count hvalid h
  rw [ofRow_of_not_blocked h]
  unfold BlockRow.failed Standing.ofRow Standing.fail
  simp only [hint, hnat, decide_eq_true_eq]
  split
  · rfl
  · rfl

theorem BlockRow.valid_failed (hvalid : ∀ row ∈ t.find? ip, row.Valid)
    (h : ¬ (t.find? ip).any BlockRow.blocked = true) :
    (BlockRow.failed (t.find? ip) e.ns ip maxFails).Valid := by
  obtain ⟨hint, hnat⟩ := toInt_count hvalid h
  constructor
  · intro hblocked
    change (decide _) = true at hblocked
    have hsince : (BlockRow.failed (t.find? ip) e.ns ip maxFails).blockedAt = nowMs e.ns := if_pos hblocked
    rw [hsince]
    exact time_bounds e
  · intro hblocked
    have hbelow := of_decide_eq_false hblocked
    have hmax := maxFails.toInt_lt
    change (_ + 1 : BitVec 32).toNat < _
    rw [hint] at hbelow
    rw [hnat]
    omega

theorem recordFail_cases (t : Blocklist) (r : Refusal) (ns : I64) (ip : Ip) (maxFails : BitVec 32) :
    (r.query = true ∧ grBlocklistRecordFail t r ns ip maxFails = (.error .db, t)) ∨
    (r.query = false ∧ ∃ row, t.find? ip = some row ∧ row.blocked = true ∧
      grBlocklistRecordFail t r ns ip maxFails = (.ok false, t)) ∨
    (¬ (t.find? ip).any BlockRow.blocked = true ∧ grBlocklistRecordFail t r ns ip maxFails = (.error .db, t)) ∨
    ¬ (t.find? ip).any BlockRow.blocked = true ∧ grBlocklistRecordFail t r ns ip maxFails =
      (.ok (BlockRow.failed (t.find? ip) ns ip maxFails).blocked,
        t.upsert (BlockRow.failed (t.find? ip) ns ip maxFails)) := by
  unfold grBlocklistRecordFail
  cases hquery : r.query with
  | true => exact .inl ⟨rfl, rfl⟩
  | false =>
    rw [if_neg Bool.false_ne_true]
    by_cases hany : (t.find? ip).any BlockRow.blocked = true
    · obtain ⟨row, hrow, hblocked⟩ := (Option.any_eq_true ..).mp hany
      exact .inr (.inl ⟨rfl, row, hrow, hblocked, if_pos hany⟩)
    · rw [if_neg hany]
      cases r.change with
      | true => exact .inr (.inr (.inl ⟨hany, rfl⟩))
      | false => exact .inr (.inr (.inr ⟨hany, rfl⟩))

theorem check_cases (D : I64) (r : Refusal) (ip : Ip) (e : BlockEvent) (hvalid : ∀ row ∈ t.rows, row.Valid) :
    (r.query = true ∧ grBlocklistCheck t r e.ns ip D = (.error .db, t)) ∨
    (∃ row, t.find? ip = some row ∧ row.blocked = true ∧ D.toInt ≤ e.time - row.blockedAt.toInt ∧
      grBlocklistCheck t r e.ns ip D = (.ok false, if r.change then t else blockDelete t ip)) ∨
    (∃ row, t.find? ip = some row ∧ row.blocked = true ∧ e.time - row.blockedAt.toInt < D.toInt ∧
      grBlocklistCheck t r e.ns ip D = (.ok true, t)) ∨
    ¬ (t.find? ip).any BlockRow.blocked = true ∧ grBlocklistCheck t r e.ns ip D = (.ok false, t) := by
  unfold grBlocklistCheck
  cases r.query with
  | true => exact .inl ⟨rfl, rfl⟩
  | false =>
    cases hrow : t.find? ip with
    | none => exact .inr (.inr (.inr ⟨nofun, rfl⟩))
    | some row =>
      dsimp only
      cases hblocked : row.blocked with
      | false =>
        refine .inr (.inr (.inr ⟨?_, rfl⟩))
        change ¬ row.blocked = true
        rw [hblocked]
        exact Bool.false_ne_true
      | true =>
        have helapsed : (nowMs e.ns - row.blockedAt).toInt = e.time - row.blockedAt.toInt :=
          toInt_sub (time_bounds e) ((hvalid row (Table.mem_of_find? hrow)).since hblocked)
        rw [helapsed]
        by_cases hend : D.toInt ≤ e.time - row.blockedAt.toInt
        · refine .inr (.inl ⟨row, rfl, hblocked, hend, ?_⟩)
          rw [if_neg Bool.false_ne_true, if_pos rfl, if_pos hend]
        · refine .inr (.inr (.inl ⟨row, rfl, hblocked, not_le.mp hend, ?_⟩))
          rw [if_neg Bool.false_ne_true, if_pos rfl, if_neg hend]

theorem ofRow_of_blocked (h : row.blocked = true) : Standing.ofRow (some row) = .blocked row.blockedAt.toInt := if_pos h

theorem blocked_ofRow : (Standing.ofRow (some row)).Blocked ↔ row.blocked = true := by
  cases hblocked : row.blocked with
  | true => exact iff_of_true ⟨_, ofRow_of_blocked hblocked⟩ rfl
  | false =>
    have hcounting : Standing.ofRow (some row) = .counting row.failCount.toNat := if_neg (by simp [hblocked])
    rw [hcounting]
    exact iff_of_false (Standing.not_blocked_counting _) Bool.false_ne_true

theorem check_answer {b : Bool} (hvalid : ∀ row ∈ t.rows, row.Valid) (h : (grBlocklistCheck t r e.ns ip D).1 = .ok b) :
    b = true ↔ ((Standing.ofRow (t.find? ip)).expire D.toInt e.time).Blocked := by
  obtain ⟨hquery, heq⟩ | ⟨row, hrow, hblocked, hover, heq⟩ | ⟨row, hrow, hblocked, hlasts, heq⟩ | ⟨hfree, heq⟩ :=
    check_cases D r ip e hvalid
  · rw [heq] at h
    cases h
  · rw [heq] at h
    cases h
    rw [hrow, ofRow_of_blocked hblocked, Standing.expire_of_over hover]
    exact iff_of_false Bool.false_ne_true (Standing.not_blocked_counting 0)
  · rw [heq] at h
    cases h
    rw [hrow, ofRow_of_blocked hblocked, Standing.expire_of_lasting hlasts]
    exact iff_of_true rfl ⟨_, rfl⟩
  · rw [heq] at h
    cases h
    rw [ofRow_of_not_blocked hfree]
    exact iff_of_false Bool.false_ne_true (Standing.not_blocked_counting _)

theorem check_stands (hvalid : ∀ row ∈ t.rows, row.Valid) (j : Ip) :
    (Standing.ofRow ((grBlocklistCheck t r e.ns ip D).2.find? j)).expire D.toInt e.time =
      (Standing.ofRow (t.find? j)).expire D.toInt e.time := by
  obtain ⟨hquery, heq⟩ | ⟨row, hrow, hblocked, hover, heq⟩ | ⟨_, _, _, _, heq⟩ | ⟨_, heq⟩ := check_cases D r ip e hvalid
  · rw [heq]
  · rw [heq]
    dsimp only
    split
    · rfl
    · rw [find?_blockDelete]
      split
      · next hj =>
        rw [hj, hrow, ofRow_of_blocked hblocked, Standing.expire_of_over hover]
        rfl
      · rfl
  · rw [heq]
  · rw [heq]

theorem find?_check (hvalid : ∀ row ∈ t.rows, row.Valid) : (grBlocklistCheck t .none e.ns ip D).2.find? ip =
    (t.find? ip).filter fun row => ¬ (row.blocked = true ∧ D.toInt ≤ e.time - row.blockedAt.toInt) := by
  obtain ⟨hquery, heq⟩ | ⟨row, hrow, hblocked, hover, heq⟩ | ⟨row, hrow, hblocked, hlasts, heq⟩ | ⟨hfree, heq⟩ :=
    check_cases D .none ip e hvalid
  · cases hquery
  · rw [heq, hrow]
    simp [find?_blockDelete, Refusal.none, Option.filter, hblocked, hover]
  · rw [heq, hrow]
    simp [Option.filter, hblocked, hlasts]
  · rw [heq]
    cases hrow : t.find? ip with
    | none => rfl
    | some row =>
      rw [hrow] at hfree
      have hfree : row.blocked = false := Bool.eq_false_iff.mpr hfree
      simp [Option.filter, hfree]

theorem cutoff_iff (hvalid : -9223372036855 ≤ row.blockedAt.toInt ∧ row.blockedAt.toInt ≤ 9223372036855) :
    (row.blockedAt.toInt < (nowMs e.ns - D).toInt ↔ D.toInt ≤ e.time - row.blockedAt.toInt) ↔
      e.time - row.blockedAt.toInt ≠ D.toInt ∧ -2 ^ 63 ≤ e.time - D.toInt ∧ e.time - D.toInt < 2 ^ 63 := by
  have hlow : -2 ^ 63 ≤ D.toInt := BitVec.le_toInt D
  have hhigh : D.toInt < 2 ^ 63 := BitVec.toInt_lt
  have htime := time_bounds e
  rw [BitVec.toInt_sub, Int.bmod_def]
  change (_ < (if (e.time - D.toInt) % _ < _ then (e.time - D.toInt) % _ else (e.time - D.toInt) % _ - _) ↔ _) ↔ _
  omega

theorem filter_some_inj {p q : BlockRow → Bool} : (some row).filter p = (some row).filter q ↔ p row = q row := by
  simp only [Option.filter]
  cases p row <;> cases q row <;> simp

theorem cleanup_iff (hvalid : ∀ row ∈ t.rows, row.Valid) (query : Bool) :
    (∀ ip, (grBlocklistCleanup t ⟨query, false⟩ e.ns D).2.find? ip = (grBlocklistCheck t .none e.ns ip D).2.find? ip) ↔
      ∀ row ∈ t.rows, row.blocked = true → e.time - row.blockedAt.toInt ≠ D.toInt ∧
        -2 ^ 63 ≤ e.time - D.toInt ∧ e.time - D.toInt < 2 ^ 63 := by
  have hfind (ip : Ip) : (grBlocklistCleanup t ⟨query, false⟩ e.ns D).2.find? ip = (t.find? ip).filter fun row =>
      ¬ (row.blocked = true ∧ row.blockedAt.toInt < (nowMs e.ns - D).toInt) := Table.find?_filter _
  simp only [hfind, find?_check hvalid]
  constructor
  · intro hall row hmem hblocked
    refine (cutoff_iff ((hvalid row hmem).since hblocked)).mp ?_
    have hrow := hall row.ip
    rw [Table.find?_of_mem hmem, filter_some_inj] at hrow
    simpa [hblocked] using not_congr (Bool.eq_iff_iff.mp hrow)
  · intro hall ip
    cases hrow : t.find? ip with
    | none => rfl
    | some row =>
      rw [filter_some_inj]
      cases hblocked : row.blocked with
      | false => simp
      | true =>
        have hmem := Table.mem_of_find? hrow
        have hiff := (cutoff_iff ((hvalid row hmem).since hblocked)).mpr (hall row hmem hblocked)
        simp only [true_and, hiff]

end Rows

namespace BlockRun

variable {D : I64} {s : BlockRun} {e : BlockEvent} {ip : Ip}

def Inv (s : BlockRun) : Prop := ∀ row ∈ s.table.rows, row.Valid

theorem Inv.found (h : s.Inv) : ∀ row ∈ s.table.find? ip, row.Valid :=
  fun row hrow => h row (Table.mem_of_find? hrow)

theorem Inv.next (h : s.Inv) : (s.next D e).Inv := by
  obtain ⟨ns, r, call⟩ := e
  intro row hrow
  cases call with
  | check ip =>
    change row ∈ (grBlocklistCheck s.table r ns ip D).2.rows at hrow
    obtain ⟨hquery, heq⟩ | ⟨_, _, _, _, heq⟩ | ⟨_, _, _, _, heq⟩ | ⟨_, heq⟩ := check_cases D r ip ⟨ns, r, .check ip⟩ h
    · rw [heq] at hrow
      exact h row hrow
    · rw [heq] at hrow
      dsimp only at hrow
      split at hrow
      · exact h row hrow
      · exact h row (List.mem_of_mem_filter hrow)
    · rw [heq] at hrow
      exact h row hrow
    · rw [heq] at hrow
      exact h row hrow
  | recordFail ip maxFails =>
    change row ∈ (grBlocklistRecordFail s.table r ns ip maxFails).2.rows at hrow
    obtain ⟨_, heq⟩ | ⟨_, _, _, _, heq⟩ | ⟨_, heq⟩ | ⟨hfree, heq⟩ := recordFail_cases s.table r ns ip maxFails
    · rw [heq] at hrow
      exact h row hrow
    · rw [heq] at hrow
      exact h row hrow
    · rw [heq] at hrow
      exact h row hrow
    · rw [heq] at hrow
      cases List.mem_append.mp hrow with
      | inl hold => exact h row (List.mem_of_mem_filter hold)
      | inr hnew =>
        rw [List.mem_singleton.mp hnew]
        exact BlockRow.valid_failed (e := ⟨ns, r, .recordFail ip maxFails⟩) h.found hfree
  | reset ip =>
    change row ∈ (grBlocklistReset s.table r ip).2.rows at hrow
    unfold grBlocklistReset at hrow
    split at hrow
    · exact h row hrow
    · exact h row (List.mem_of_mem_filter hrow)
  | cleanup =>
    change row ∈ (grBlocklistCleanup s.table r ns D).2.rows at hrow
    unfold grBlocklistCleanup at hrow
    dsimp only at hrow
    split at hrow
    · exact h row hrow
    · exact h row (List.mem_of_mem_filter hrow)

theorem Follows.due (h : s.Follows D) (hle : s.now ≤ e.time) (ip : Ip) :
    (Standing.ofRow (s.table.find? ip)).expire D.toInt e.time = s.due D e ip :=
  calc (Standing.ofRow (s.table.find? ip)).expire D.toInt e.time
    _ = ((Standing.ofRow (s.table.find? ip)).expire D.toInt s.now).expire D.toInt e.time :=
      (Standing.expire_expire hle _).symm
    _ = ((s.ledger ip).expire D.toInt s.now).expire D.toInt e.time := by rw [h ip]
    _ = s.due D e ip := Standing.expire_expire hle _

theorem expire_due (s : BlockRun) (e : BlockEvent) (ip : Ip) :
    (s.due D e ip).expire D.toInt e.time = s.due D e ip := Standing.expire_expire le_rfl _

theorem Follows.kept (h : s.Follows D) (hle : s.now ≤ e.time) (hledger : (s.next D e).ledger = s.due D e)
    (htable : ∀ ip, (Standing.ofRow ((s.next D e).table.find? ip)).expire D.toInt e.time =
      (Standing.ofRow (s.table.find? ip)).expire D.toInt e.time) : (s.next D e).Follows D := by
  intro ip
  change _ = ((s.next D e).ledger ip).expire D.toInt e.time
  rw [hledger, expire_due, ← h.due hle]
  exact htable ip

section Steps

variable {ns : I64} {r : Refusal} {maxFails : BitVec 32}

theorem ledger_check : (s.next D ⟨ns, r, .check ip⟩).ledger = s.due D ⟨ns, r, .check ip⟩ := ite_self _

theorem ok_of_map {x : Except GrError Bool} {b : Bool} (h : x.map some = .ok (some b)) : x = .ok b := by
  cases x with
  | error e => cases h
  | ok a =>
    cases h
    rfl

theorem right_check (hinv : s.Inv) (h : s.Follows D) (hle : s.now ≤ (nowMs ns).toInt) :
    s.Right D ⟨ns, r, .check ip⟩ := by
  refine ⟨fun blocked hanswer => ?_, h.kept (e := ⟨ns, r, .check ip⟩) hle ledger_check fun j => ?_⟩
  · rw [← h.due (e := ⟨ns, r, .check ip⟩) hle]
    exact check_answer (e := ⟨ns, r, .check ip⟩) hinv (ok_of_map hanswer)
  · exact check_stands (e := ⟨ns, r, .check ip⟩) hinv j

theorem right_reset (h : s.Follows D) (hle : s.now ≤ (nowMs ns).toInt) : s.Right D ⟨ns, r, .reset ip⟩ := by
  refine ⟨trivial, ?_⟩
  obtain ⟨query, change⟩ := r
  cases change with
  | true => exact h.kept (e := ⟨ns, ⟨query, true⟩, .reset ip⟩) hle rfl fun _ => rfl
  | false =>
    intro j
    change (Standing.ofRow ((blockDelete s.table ip).find? j)).expire _ _ =
      (Function.update (s.due D ⟨ns, ⟨query, false⟩, .reset ip⟩) ip (.counting 0) j).expire D.toInt _
    rw [find?_blockDelete]
    by_cases hj : j = ip
    · rw [if_pos hj, hj, Function.update_self]
      rfl
    · rw [if_neg hj, Function.update_of_ne hj]
      exact (h.due (e := ⟨ns, ⟨query, false⟩, .reset ip⟩) hle j).trans (expire_due ..).symm

theorem right_cleanup_iff (hinv : s.Inv) (h : s.Follows D) (hle : s.now ≤ (nowMs ns).toInt) :
    s.Right D ⟨ns, r, .cleanup⟩ ↔ s.Timely D ⟨ns, r, .cleanup⟩ := by
  obtain ⟨query, change⟩ := r
  cases change with
  | true =>
    refine iff_of_true ⟨fun hok => ?_, h.kept (e := ⟨ns, ⟨query, true⟩, .cleanup⟩) hle rfl fun _ => rfl⟩ fun hno => ?_
    · cases hok
    · cases hno
  | false =>
    have hagree := cleanup_iff (e := ⟨ns, ⟨query, false⟩, .cleanup⟩) (D := D) hinv query
    constructor
    · exact fun hright _ => hagree.mp (hright.answers rfl)
    · intro htimely
      have hsame := hagree.mpr (htimely rfl)
      refine ⟨fun _ => hsame, h.kept (e := ⟨ns, ⟨query, false⟩, .cleanup⟩) hle rfl fun j => ?_⟩
      exact (congrArg (fun found => (Standing.ofRow found).expire _ _) (hsame j)).trans
        (check_stands (e := ⟨ns, ⟨query, false⟩, .cleanup⟩) hinv j)

theorem ledger_recordFail (s : BlockRun) (r : Refusal) : (s.next D ⟨ns, r, .recordFail ip maxFails⟩).ledger =
    if (grBlocklistRecordFail s.table r ns ip maxFails).1.isOk then
      Function.update (s.due D ⟨ns, r, .recordFail ip maxFails⟩) ip
        ((s.due D ⟨ns, r, .recordFail ip maxFails⟩ ip).fail maxFails.toInt (nowMs ns).toInt)
    else s.due D ⟨ns, r, .recordFail ip maxFails⟩ := by
  change (if ((grBlocklistRecordFail s.table r ns ip maxFails).1.map some).isOk then _ else _) = _
  cases (grBlocklistRecordFail s.table r ns ip maxFails).1 <;> rfl

theorem not_right_late {row : BlockRow} (h : s.Follows D) (hle : s.now ≤ (nowMs ns).toInt)
    (hrow : s.table.find? ip = some row) (hblocked : row.blocked = true)
    (hover : D.toInt ≤ (nowMs ns).toInt - row.blockedAt.toInt)
    (heq : grBlocklistRecordFail s.table r ns ip maxFails = (.ok false, s.table)) :
    ¬ s.Right D ⟨ns, r, .recordFail ip maxFails⟩ := by
  rintro ⟨hanswers, hfollows⟩
  have hdue : s.due D ⟨ns, r, .recordFail ip maxFails⟩ ip = .counting 0 := by
    rw [← h.due (e := ⟨ns, r, .recordFail ip maxFails⟩) hle, hrow, ofRow_of_blocked hblocked]
    exact Standing.expire_of_over hover
  have hledger : (s.next D ⟨ns, r, .recordFail ip maxFails⟩).ledger ip =
      if maxFails.toInt ≤ 1 then .blocked (nowMs ns).toInt else .counting 1 := by
    rw [ledger_recordFail, heq, hdue]
    exact Function.update_self ..
  have hanswer := (hanswers false (congrArg (fun x => x.1.map some) heq)).not.mp Bool.false_ne_true
  rw [hdue, hledger] at hanswer
  have hstands := hfollows ip
  have htable : (s.next D ⟨ns, r, .recordFail ip maxFails⟩).table = s.table := congrArg Prod.snd heq
  rw [htable, hrow, ofRow_of_blocked hblocked, hledger] at hstands
  by_cases hone : maxFails.toInt ≤ 1
  · rw [if_pos hone] at hanswer
    exact hanswer ⟨Standing.not_blocked_counting 0, _, rfl⟩
  · rw [if_neg hone] at hstands
    cases (Standing.expire_of_over hover).symm.trans hstands

theorem right_recordFail_iff (hinv : s.Inv) (h : s.Follows D) (hle : s.now ≤ (nowMs ns).toInt) :
    s.Right D ⟨ns, r, .recordFail ip maxFails⟩ ↔ s.Timely D ⟨ns, r, .recordFail ip maxFails⟩ := by
  have hdue := h.due (e := ⟨ns, r, .recordFail ip maxFails⟩) hle
  have hkept := h.kept (e := ⟨ns, r, .recordFail ip maxFails⟩) hle
  have hledger := @ledger_recordFail D ip ns maxFails s r
  obtain ⟨hquery, heq⟩ | ⟨hquery, row, hrow, hblocked, heq⟩ | ⟨hfree, heq⟩ | ⟨hfree, heq⟩ :=
    recordFail_cases s.table r ns ip maxFails
  · rw [heq] at hledger
    refine iff_of_true ⟨fun justBlocked hanswer => ?_, hkept hledger fun j => ?_⟩ fun hno => ?_
    · cases (congrArg (fun x => x.1.map some) heq).symm.trans hanswer
    · change (Standing.ofRow ((grBlocklistRecordFail s.table r ns ip maxFails).2.find? j)).expire _ _ = _
      rw [heq]
    · cases hquery.symm.trans hno
  · rcases lt_or_ge ((nowMs ns).toInt - row.blockedAt.toInt) D.toInt with hlasts | hover
    · have hstands : s.due D ⟨ns, r, .recordFail ip maxFails⟩ ip = .blocked row.blockedAt.toInt := by
        rw [← hdue, hrow, ofRow_of_blocked hblocked]
        exact Standing.expire_of_lasting hlasts
      refine iff_of_true ⟨fun justBlocked hanswer => ?_, hkept ?_ fun j => ?_⟩ fun _ row' hrow' _ => ?_
      · cases (congrArg (fun x => x.1.map some) heq).symm.trans hanswer
        exact iff_of_false Bool.false_ne_true fun hjust => hjust.1 ⟨_, hstands⟩
      · rw [hledger, heq]
        have hsame : (s.due D ⟨ns, r, .recordFail ip maxFails⟩ ip).fail maxFails.toInt (nowMs ns).toInt =
            s.due D ⟨ns, r, .recordFail ip maxFails⟩ ip := by
          rw [hstands]
          rfl
        rw [hsame]
        exact Function.update_eq_self ip _
      · change (Standing.ofRow ((grBlocklistRecordFail s.table r ns ip maxFails).2.find? j)).expire _ _ = _
        rw [heq]
      · cases hrow.symm.trans hrow'
        exact hlasts
    · refine iff_of_false (not_right_late h hle hrow hblocked hover heq) fun htimely => ?_
      exact not_lt.mpr hover (htimely hquery row hrow hblocked)
  · rw [heq] at hledger
    refine iff_of_true ⟨fun justBlocked hanswer => ?_, hkept hledger fun j => ?_⟩ fun _ row hrow hblocked => ?_
    · cases (congrArg (fun x => x.1.map some) heq).symm.trans hanswer
    · change (Standing.ofRow ((grBlocklistRecordFail s.table r ns ip maxFails).2.find? j)).expire _ _ = _
      rw [heq]
    · rw [hrow] at hfree
      exact absurd hblocked hfree
  · have hcount : s.due D ⟨ns, r, .recordFail ip maxFails⟩ ip = Standing.ofRow (s.table.find? ip) := by
      rw [← hdue, ofRow_of_not_blocked hfree]
      rfl
    have hfailed := ofRow_failed ⟨ns, r, .recordFail ip maxFails⟩ maxFails hinv.found hfree
    rw [← hcount] at hfailed
    have hnext : (s.next D ⟨ns, r, .recordFail ip maxFails⟩).ledger =
        Function.update (s.due D ⟨ns, r, .recordFail ip maxFails⟩) ip
          (Standing.ofRow (some (BlockRow.failed (s.table.find? ip) ns ip maxFails))) := by
      rw [hledger, heq]
      exact congrArg (Function.update _ ip) hfailed.symm
    refine iff_of_true ⟨fun justBlocked hanswer => ?_, fun j => ?_⟩ fun _ row hrow hblocked => ?_
    · cases (congrArg (fun x => x.1.map some) heq).symm.trans hanswer
      rw [hnext, Function.update_self, blocked_ofRow, hcount, ofRow_of_not_blocked hfree]
      exact (and_iff_right (Standing.not_blocked_counting _)).symm
    · have htable : (s.next D ⟨ns, r, .recordFail ip maxFails⟩).table =
          s.table.upsert (BlockRow.failed (s.table.find? ip) ns ip maxFails) := congrArg Prod.snd heq
      rw [htable, Table.find?_upsert, hnext]
      change (Standing.ofRow (Function.update s.table.find? ip _ j)).expire _ _ = _
      by_cases hj : j = ip
      · rw [hj, Function.update_self, Function.update_self]
      · rw [Function.update_of_ne hj, Function.update_of_ne hj]
        exact (hdue j).trans (expire_due ..).symm
    · rw [hrow] at hfree
      exact absurd hblocked hfree

end Steps

theorem right_iff (hinv : s.Inv) (h : s.Follows D) (hle : s.now ≤ e.time) : s.Right D e ↔ s.Timely D e := by
  obtain ⟨ns, r, call⟩ := e
  cases call with
  | check ip => exact iff_of_true (right_check hinv h hle) trivial
  | recordFail ip maxFails => exact right_recordFail_iff hinv h hle
  | reset ip => exact iff_of_true (right_reset h hle) trivial
  | cleanup => exact right_cleanup_iff hinv h hle

theorem now_le {es : List BlockEvent} {time : ℤ} (h : s.now ≤ time) (hes : ∀ e ∈ es, e.time ≤ time) :
    (es.foldl (next D) s).now ≤ time := by
  induction es generalizing s with
  | nil => exact h
  | cons e es ih => exact ih (hes e List.mem_cons_self) fun e' he' => hes e' (List.mem_cons_of_mem _ he')

theorem inv_start : start.Inv := fun _ hrow => absurd hrow List.not_mem_nil

theorem follows_start : start.Follows D := fun _ => rfl

end BlockRun

open BlockRun

/-- Along a run the blocklist is right exactly as long as no call comes where an expired block is still in the table
and matters. -/
theorem blocklist_right_iff (D : I64) (es : List BlockEvent) (hclock : (es.map BlockEvent.time).Pairwise (· ≤ ·)) :
    (∀ xs e ys, es = xs ++ e :: ys → (xs.foldl (next D) start).Right D e) ↔
      ∀ xs e ys, es = xs ++ e :: ys → (xs.foldl (next D) start).Timely D e := by
  have hnow (xs ys : List BlockEvent) (e : BlockEvent) (heq : es = xs ++ e :: ys) :
      (xs.foldl (next D) start).now ≤ e.time := by
    refine now_le ?_ fun e' he' => ?_
    · exact (time_bounds e).1.trans' (by decide)
    · rw [heq, List.map_append] at hclock
      exact (List.pairwise_append.mp hclock).2.2 _ (List.mem_map_of_mem he') _ (by simp)
  have hkeeps (s : BlockRun) (e : BlockEvent) (hs : s.Inv ∧ s.Follows D) (he : s.now ≤ e.time ∧ s.Right D e) :
      (s.next D e).Inv ∧ (s.next D e).Follows D := ⟨hs.1.next, he.2.follows⟩
  constructor
  · intro hright xs e ys heq
    obtain ⟨hinv, hfollows⟩ := System.holds_along hkeeps ⟨inv_start, follows_start⟩ es
      (fun xs e ys heq => ⟨hnow xs ys e heq, hright xs e ys heq⟩) xs (e :: ys) heq
    exact (right_iff hinv hfollows (hnow xs ys e heq)).mp (hright xs e ys heq)
  · intro htimely xs e ys heq
    have htimely' (s : BlockRun) (e : BlockEvent) (hs : s.Inv ∧ s.Follows D) (he : s.now ≤ e.time ∧ s.Timely D e) :
        (s.next D e).Inv ∧ (s.next D e).Follows D :=
      hkeeps s e hs ⟨he.1, (right_iff hs.1 hs.2 he.1).mpr he.2⟩
    obtain ⟨hinv, hfollows⟩ := System.holds_along htimely' ⟨inv_start, follows_start⟩ es
      (fun xs e ys heq => ⟨hnow xs ys e heq, htimely xs e ys heq⟩) xs (e :: ys) heq
    exact (right_iff hinv hfollows (hnow xs ys e heq)).mpr (htimely xs e ys heq)

/-- One failure blocks the IP `::1`. -/
def failureAt (ns : I64) : BlockEvent :=
  ⟨ns, .none, .recordFail ⟨[58, 58, 49], by decide, by decide⟩ 1⟩

theorem blocklist_right_iff_before :
    (∀ xs e ys, [failureAt 0, ⟨999000000, .none, .cleanup⟩] = xs ++ e :: ys →
      (xs.foldl (next 1000) start).Right 1000 e) ↔
    ∀ xs e ys, [failureAt 0, ⟨999000000, .none, .cleanup⟩] = xs ++ e :: ys →
      (xs.foldl (next 1000) start).Timely 1000 e :=
  blocklist_right_iff 1000 _ (by decide)

theorem lateFailure_unblocked :
    ¬ ∀ D es, (es.map BlockEvent.time).Pairwise (· ≤ ·) →
      ∀ xs e ys, es = xs ++ e :: ys → (xs.foldl (next D) start).Right D e := by
  intro h
  have hlast := (h 1000 [failureAt 0, failureAt 1000000000] (by decide) [failureAt 0] _ [] rfl).answers
  exact Bool.false_ne_true ((hlast false rfl).mpr ⟨Standing.not_blocked_counting 0, 1000, rfl⟩)

end YumiBrowser.Group
