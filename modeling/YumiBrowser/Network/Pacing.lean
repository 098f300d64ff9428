import Mathlib.Algebra.BigOperators.Group.Finset.Piecewise
import Mathlib.Algebra.BigOperators.Ring.Finset
import Mathlib.Algebra.Order.BigOperators.Group.Finset
import YumiBrowser.Library.Overdraft
import YumiBrowser.Library.Simulation
import YumiBrowser.Network.LossWatchdog
import YumiBrowser.Network.PacedPool

universe u v

namespace YumiBrowser.Udp

open Transition TokenBucket

namespace PacedPool

variable {ι : Type u} [DecidableEq ι] {F : Type v} [Double F] {toI64 : F → ℤ} {value : F → ℚ}
  {workers maxPayload : ℕ} {s t : PacedPool ι} {e : Event ι} {w v : ℕ} {R : ℕ}

/-- The rate that a refill of a worker finds has been loaded before. -/
def RatedBy (ok : BitVec 64 → Prop) (s : PacedPool ι) : Event ι → Prop
  | .work w => ∀ retry sendRate, (s.worker w).stage = .rated retry sendRate → ok sendRate
  | _ => True

/-- The most credit that a worker has at rates up to `R`. -/
def creditCap (R : ℕ) : ℚ := max (2 * R) (paceStart : ℚ)

/-- What is credited at a rate between two times, as `double` computes it. -/
def paceGain (R : ℕ) (t t' : ℕ) : ℚ := (1 + doubleError) ^ 4 * (R * (t' - t) / 10 ^ 6)

theorem accrual_paceGain (R : ℕ) : Accrual (paceGain R) where
  nonneg t t' h := by
    have hle : (0 : ℚ) ≤ t' - t := sub_nonneg.mpr (Nat.cast_le.mpr h)
    have hmore : 0 ≤ 1 + doubleError := by norm_num [doubleError]
    unfold paceGain
    positivity
  add_le t t' t'' _ _ := by
    unfold paceGain
    exact le_of_eq (by ring)

theorem paceCap_le {rate : BitVec 64} (h : rate.toNat ≤ R) : (paceCap rate : ℚ) ≤ creditCap R := by
  have hint : (rate * 2).toInt ≤ 2 * R := by
    have hle : (rate * 2).toNat ≤ 2 * R := by
      rw [BitVec.toNat_mul]
      exact (Nat.mod_le _ _).trans (by rw [Nat.mul_comm]; exact Nat.mul_le_mul_left 2 h)
    have hsigned := BitVec.toInt_eq_toNat_cond (rate * 2)
    split at hsigned <;> omega
  unfold paceCap creditCap
  rw [Int.cast_max]
  exact max_le_max (by exact_mod_cast hint) le_rfl

theorem paceRefill_cases (hd : Rounded toI64 value) (sw : SendWorker) {now rate : BitVec 64}
    (hlast : sw.paceLastUs ≤ now) (hrate : rate.toNat ≤ R) (hrange : R * now.toNat ≤ 2 ^ 62 * 10 ^ 6) :
    sw.paceRefill toI64 now rate = sw ∨
      rate = 0 ∧ sw.paceRefill toI64 now rate = { sw with paceCredit := paceStart, paceLastUs := now } ∨
      ∃ c : ℤ, sw.paceRefill toI64 now rate = { sw with paceCredit := c, paceLastUs := now } ∧
        (c : ℚ) ≤ sw.paceCredit + paceGain R sw.paceLastUs.toNat now.toNat ∧ (c : ℚ) ≤ creditCap R ∧
        min (sw.paceCredit : ℚ) 0 ≤ c := by
  unfold SendWorker.paceRefill
  dsimp only
  split
  · exact .inl rfl
  · next helapsed =>
    split
    · next hzero => exact .inr (.inl ⟨hzero, rfl⟩)
    · next hne =>
      have helapsed' : (now - sw.paceLastUs).toNat = now.toNat - sw.paceLastUs.toNat := BitVec.toNat_sub_of_le hlast
      have hle : sw.paceLastUs.toNat ≤ now.toNat := hlast
      have hproduct : rate.toNat * (now - sw.paceLastUs).toNat ≤ R * (now.toNat - sw.paceLastUs.toNat) := by
        rw [helapsed']
        exact Nat.mul_le_mul_right _ hrate
      have hfits : R * (now.toNat - sw.paceLastUs.toNat) ≤ 2 ^ 62 * 10 ^ 6 :=
        (Nat.mul_le_mul_left R (Nat.sub_le _ _)).trans hrange
      obtain ⟨hnonneg, hadded⟩ := hd.paceAdded_between hne helapsed (hproduct.trans hfits)
      refine .inr (.inr ⟨_, rfl, ?_, ?_, ?_⟩)
      · have hgain : (paceAdded toI64 rate (now - sw.paceLastUs) : ℚ) ≤
            paceGain R sw.paceLastUs.toNat now.toNat := by
          refine hadded.trans ?_
          have hcast : (rate.toNat * (now - sw.paceLastUs).toNat : ℚ) ≤ R * (now.toNat - sw.paceLastUs.toNat) := by
            rw [← Nat.cast_sub hle]
            exact_mod_cast hproduct
          unfold paceGain
          gcongr
        have hmin : min (sw.paceCredit + paceAdded toI64 rate (now - sw.paceLastUs)) (paceCap rate) ≤
            sw.paceCredit + paceAdded toI64 rate (now - sw.paceLastUs) := min_le_left _ _
        have hcast : ((min (sw.paceCredit + paceAdded toI64 rate (now - sw.paceLastUs)) (paceCap rate) : ℤ) : ℚ) ≤
            sw.paceCredit + paceAdded toI64 rate (now - sw.paceLastUs) := by exact_mod_cast hmin
        linarith
      · exact (Int.cast_le.mpr (min_le_right _ _)).trans (paceCap_le hrate)
      · have hcap : 0 ≤ paceCap rate := (by decide : 0 ≤ paceStart).trans (le_max_right _ _)
        have hmin : min sw.paceCredit 0 ≤
            min (sw.paceCredit + paceAdded toI64 rate (now - sw.paceLastUs)) (paceCap rate) :=
          le_min ((min_le_left _ _).trans (le_add_of_nonneg_right hnonneg)) ((min_le_right _ _).trans hcap)
        exact_mod_cast hmin

section Accounts

omit [DecidableEq ι] in
theorem sent_drain (p : SendPool ι) (w : ℕ) (x : Ticket ι) :
    (x.work.Sends → ∃ seq, (p.drain w x).sent = p.sent ++ [⟨w, x, seq⟩]) ∧
      (x.work.type = .shutdown ∨ x.work.type = .userCb → (p.drain w x).sent = p.sent) := by
  obtain ⟨-, seq, hsent, -⟩ := p.sendWorkerProcessItem_sends w x
  unfold SendPool.drain
  constructor
  · rintro (htype | htype)
    · rw [htype]
      exact ⟨seq, hsent⟩
    · rw [htype]
      exact ⟨seq, hsent⟩
  · rintro (htype | htype)
    · rw [htype]
    · rw [htype]
      rfl

theorem sent_enqueue {p q : SendPool ι} {e : SendPool.Event ι} (he : ∀ w, e ≠ .drain w)
    (hstep : SendPool.Step workers maxPayload p e q) : q.sent = p.sent := by
  cases hstep with
  | call i work =>
    unfold SendPool.enqueueWork
    split
    · rfl
    · rfl
  | drain w => exact absurd rfl (he w)
  | _ => rfl

omit [DecidableEq ι] in
theorem sentBytesBy_congr {p q : SendPool ι} (h : q.sent = p.sent) : q.sentBytesBy w = p.sentBytesBy w := by
  unfold SendPool.sentBytesBy
  rw [h]

omit [DecidableEq ι] in
theorem sentBytesBy_append {p q : SendPool ι} {seq : ℕ} {x : Ticket ι} (h : q.sent = p.sent ++ [⟨w, x, seq⟩])
    (v : ℕ) :
    q.sentBytesBy v = p.sentBytesBy v + if v = w then x.work.dgramSize else 0 := by
  unfold SendPool.sentBytesBy
  rw [h, List.filter_append, List.map_append, List.sum_append]
  congr 1
  by_cases hv : v = w
  · subst hv
    simp
  · simp [hv, Ne.symm hv]

def account (s : PacedPool ι) (w : ℕ) : Account ℕ ℚ :=
  ⟨(s.worker w).paceLastUs.toNat, (s.worker w).paceCredit, s.pool.sentBytesBy w⟩

def mostBytes (maxPayload : ℕ) : ℚ := (hdrSize + maxPayload : ℕ)

omit [DecidableEq ι] in
theorem account_setWorker_of_ne (hv : v ≠ w) (sw : SendWorker) : (s.setWorker w sw).account v = s.account v := by
  unfold account
  rw [worker_setWorker_of_ne hv]
  rfl

omit [DecidableEq ι] in
theorem account_setWorker_self (sw : SendWorker) :
    (s.setWorker w sw).account w = ⟨sw.paceLastUs.toNat, sw.paceCredit, s.pool.sentBytesBy w⟩ := by
  unfold account
  rw [worker_setWorker_self]
  rfl

theorem mostBytes_nonneg : 0 ≤ mostBytes maxPayload := Nat.cast_nonneg _

theorem solvent_start {now : ℕ} {a : Account ℕ ℚ} (htime : a.time ≤ now) (hcredit : a.credit = paceStart) :
    a.Solvent (creditCap R) (mostBytes maxPayload) now := by
  have hpos : (0 : ℚ) ≤ paceStart := by norm_num [paceStart, maxDgram]
  refine ⟨htime, ?_, ?_⟩
  · rw [hcredit]
    exact (neg_nonpos.mpr mostBytes_nonneg).trans hpos
  · rw [hcredit]
    exact le_max_right _ _

omit [DecidableEq ι] in
theorem account_turn (hd : Rounded toI64 value) (hsized : s.pool.AllSized maxPayload)
    (hrange : R * s.now.toNat ≤ 2 ^ 62 * 10 ^ 6) (hlast : (s.account w).time ≤ s.now.toNat)
    (hrate : RatedBy (fun r => r.toNat ≤ R) s (.work w)) (hturn : Turn toI64 s w t) (v : ℕ) :
    t.account v = s.account v ∨
      Account.Move (creditCap R) (mostBytes maxPayload) (paceGain R) s.now.toNat (s.account v) (t.account v) ∨
      (∃ retry, (s.worker w).stage = .rated retry 0) ∧
        t.account v = { s.account v with time := s.now.toNat, credit := paceStart } := by
  by_cases hv : v = w
  · subst hv
    cases hturn with
    | quiet stage =>
      rw [account_setWorker_self]
      exact .inl rfl
    | refill retry sendRate hstage =>
      rw [account_setWorker_self]
      obtain hsame | ⟨rfl, hreset⟩ | ⟨c, hrefill, hgained, hcap, hlow⟩ :=
        paceRefill_cases hd (s.worker v) hlast (hrate retry sendRate hstage) hrange
      · rw [hsame]
        exact .inl rfl
      · rw [hreset]
        exact .inr (.inr ⟨⟨retry, hstage⟩, rfl⟩)
      · rw [hrefill]
        exact .inr (.inl (.refill (c : ℚ) hlast hgained hcap hlow))
    | other x _ htype =>
      refine .inl ?_
      unfold account
      rw [sentBytesBy_congr ((sent_drain s.pool v x).2 htype)]
    | send x stage hx htype hcredit =>
      rw [account_setWorker_self]
      obtain ⟨seq, hsent⟩ := (sent_drain s.pool v x).1 htype
      have hbytes := sentBytesBy_append hsent v
      rw [if_pos rfl] at hbytes
      rw [hbytes]
      have hspend : Account.Move (creditCap R) (mostBytes maxPayload) (paceGain R) s.now.toNat (s.account v) _ :=
        .spend (x.work.dgramSize : ℚ) (Int.cast_pos.mpr hcredit) (Nat.cast_nonneg _)
          (Nat.cast_le.mpr (Nat.add_le_add_left (hsized.filled v _ x hx htype) hdrSize))
      refine .inr (.inl ?_)
      dsimp only
      push_cast
      exact hspend
  · refine .inl ?_
    cases hturn with
    | quiet | refill => exact account_setWorker_of_ne hv _
    | other x _ htype =>
      unfold account
      rw [sentBytesBy_congr ((sent_drain s.pool w x).2 htype)]
    | send x stage _ htype =>
      rw [account_setWorker_of_ne hv]
      obtain ⟨seq, hsent⟩ := (sent_drain s.pool w x).1 htype
      unfold account
      dsimp only
      rw [sentBytesBy_append hsent v, if_neg hv, Nat.add_zero]

theorem account_enqueue {p : SendPool ι} {e : SendPool.Event ι} (he : ∀ w, e ≠ .drain w)
    (hstep : SendPool.Step workers maxPayload s.pool e p) (v : ℕ) : { s with pool := p }.account v = s.account v := by
  unfold account
  rw [sentBytesBy_congr (sent_enqueue he hstep)]

omit [DecidableEq ι] in
theorem now_turn (hturn : Turn toI64 s w t) : t.now = s.now := by
  cases hturn with
  | _ => rfl

theorem now_le (hstep : (pacedSystem ι toI64 workers maxPayload).step s e t) : s.now.toNat ≤ t.now.toNat := by
  cases hstep with
  | clock now hle => exact hle
  | work w => exact (congrArg BitVec.toNat (now_turn (s.turn toI64 w))).ge
  | _ => exact le_rfl

theorem solvent_reachable (hd : Rounded toI64 value)
    (h : ((pacedSystem ι toI64 workers maxPayload).restrict (RatedBy fun r => r.toNat ≤ R)).Reachable s)
    (hrange : R * s.now.toNat ≤ 2 ^ 62 * 10 ^ 6) (v : ℕ) :
    (s.account v).Solvent (creditCap R) (mostBytes maxPayload) s.now.toNat := by
  induction h generalizing v with
  | init h => exact solvent_start (h.last v) (congrArg Int.cast (h.credit v))
  | @step s e t hs hstep ih =>
    have hbefore := ih ((Nat.mul_le_mul_left R (now_le hstep.2)).trans hrange)
    have hsized := SendPool.allSized_reachable (pool_reachable hs.of_restrict)
    obtain ⟨hrate, hstep⟩ := hstep
    cases hstep with
    | enqueue e p he hp =>
      rw [account_enqueue he hp]
      exact hbefore v
    | clock now hle => exact ⟨(hbefore v).time_le.trans hle, (hbefore v).owed, (hbefore v).capped⟩
    | rate => exact hbefore v
    | work w =>
      have hturn := s.turn toI64 w
      have hnow := now_turn hturn
      rw [hnow] at hrange ⊢
      obtain hsame | hmove | ⟨-, hreset⟩ := account_turn hd hsized hrange (hbefore w).time_le hrate hturn v
      · rw [hsame]
        exact hbefore v
      · exact (hbefore v).move mostBytes_nonneg hmove
      · rw [hreset]
        exact solvent_start le_rfl rfl

theorem run_path (hd : Rounded toI64 value)
    (hs : ((pacedSystem ι toI64 workers maxPayload).restrict (RatedBy fun r => r.toNat ≤ R)).Reachable s)
    (hpath : ((pacedSystem ι toI64 workers maxPayload).restrict (RatedBy fun r => r ≠ 0 ∧ r.toNat ≤ R)).Path s t)
    (hrange : R * t.now.toNat ≤ 2 ^ 62 * 10 ^ 6) :
    ((pacedSystem ι toI64 workers maxPayload).restrict (RatedBy fun r => r.toNat ≤ R)).Reachable t ∧
      ∀ v, Account.Run (creditCap R) (mostBytes maxPayload) (paceGain R) s.now.toNat (s.account v)
        t.now.toNat (t.account v) := by
  induction hpath with
  | refl => exact ⟨hs, fun _ => .start⟩
  | @tail t e u _ hstep ih =>
    obtain ⟨ht, hrun⟩ := ih ((Nat.mul_le_mul_left R (now_le hstep.2)).trans hrange)
    have hrate : RatedBy (fun r => r.toNat ≤ R) t e := by
      cases e with
      | work w => exact fun retry sendRate hstage => (hstep.1 retry sendRate hstage).2
      | _ => exact trivial
    refine ⟨.step ht ⟨hrate, hstep.2⟩, fun v => ?_⟩
    have hsized := SendPool.allSized_reachable (pool_reachable ht.of_restrict)
    have hsolvent := solvent_reachable hd ht ((Nat.mul_le_mul_left R (now_le hstep.2)).trans hrange)
    obtain ⟨hok, hstep⟩ := hstep
    cases hstep with
    | enqueue e p he hp =>
      rw [account_enqueue he hp]
      exact hrun v
    | clock now hle => exact .pass (hrun v) hle
    | rate => exact hrun v
    | work w =>
      have hturn := t.turn toI64 w
      have hnow := now_turn hturn
      rw [hnow] at hrange ⊢
      obtain hsame | hmove | ⟨⟨retry, hstage⟩, -⟩ := account_turn hd hsized hrange (hsolvent w).time_le hrate hturn v
      · rw [hsame]
        exact hrun v
      · exact .move (hrun v) hmove
      · exact absurd rfl (hok retry 0 hstage).1

end Accounts

section Governor

omit [DecidableEq ι] in
theorem sum_by_worker (l : List (Sent ι)) (h : ∀ e ∈ l, e.worker < workers) (f : Sent ι → ℕ) :
    (l.map f).sum = ∑ w ∈ Finset.range workers, ((l.filter fun e => e.worker = w).map f).sum := by
  induction l with
  | nil => simp
  | cons e l ih =>
    have hworker : e.worker < workers := h e List.mem_cons_self
    have hcons (w : ℕ) : (((e :: l).filter fun e => e.worker = w).map f).sum =
        (if e.worker = w then f e else 0) + ((l.filter fun e => e.worker = w).map f).sum := by
      by_cases hw : e.worker = w
      · rw [List.filter_cons_of_pos (by simpa using hw), List.map_cons, List.sum_cons, if_pos hw]
      · rw [List.filter_cons_of_neg (by simpa using hw), if_neg hw, Nat.zero_add]
    rw [List.map_cons, List.sum_cons, ih fun e he => h e (List.mem_cons_of_mem _ he),
      Finset.sum_congr rfl fun w _ => hcons w, Finset.sum_add_distrib, Finset.sum_ite_eq,
      if_pos (Finset.mem_range.mpr hworker)]

theorem sentBytes_eq (h : (pacedSystem ι toI64 workers maxPayload).Reachable s) :
    s.pool.sentBytes = ∑ w ∈ Finset.range workers, s.pool.sentBytesBy w :=
  sum_by_worker _ (SendPool.reachable_inv (pool_reachable h)).2.worker _

/-- From any moment on, as long as the congestion controller gives a rate and none above `R`, what a worker sends is
two of its full credits, a datagram beyond each of them, and what `R` makes of the time; and all workers together send
no more than that times their number. -/
theorem sent_le (hd : Rounded toI64 value)
    (hs : ((pacedSystem ι toI64 workers maxPayload).restrict (RatedBy fun r => r.toNat ≤ R)).Reachable s)
    (hpath : ((pacedSystem ι toI64 workers maxPayload).restrict (RatedBy fun r => r ≠ 0 ∧ r.toNat ≤ R)).Path s t)
    (hrange : R * t.now.toNat ≤ 2 ^ 62 * 10 ^ 6) :
    (∀ w, (t.pool.sentBytesBy w : ℚ) ≤ s.pool.sentBytesBy w +
        (2 * (creditCap R + mostBytes maxPayload) + paceGain R s.now.toNat t.now.toNat)) ∧
      (t.pool.sentBytes : ℚ) ≤ s.pool.sentBytes +
        workers * (2 * (creditCap R + mostBytes maxPayload) + paceGain R s.now.toNat t.now.toNat) := by
  obtain ⟨ht, hrun⟩ := run_path hd hs hpath hrange
  have hle : s.now.toNat ≤ t.now.toNat := (hrun 0).time_le
  have heach (w : ℕ) : (t.pool.sentBytesBy w : ℚ) ≤ s.pool.sentBytesBy w +
      (2 * (creditCap R + mostBytes maxPayload) + paceGain R s.now.toNat t.now.toNat) := by
    have hspent := (hrun w).spent_le (accrual_paceGain R) mostBytes_nonneg
      (solvent_reachable hd hs ((Nat.mul_le_mul_left R hle).trans hrange) w)
    exact hspent.trans_eq (add_assoc _ _ _)
  refine ⟨heach, ?_⟩
  rw [sentBytes_eq hs.of_restrict, sentBytes_eq ht.of_restrict]
  push_cast
  calc ∑ w ∈ Finset.range workers, (t.pool.sentBytesBy w : ℚ)
      ≤ ∑ w ∈ Finset.range workers, ((s.pool.sentBytesBy w : ℚ) +
          (2 * (creditCap R + mostBytes maxPayload) + paceGain R s.now.toNat t.now.toNat)) :=
        Finset.sum_le_sum fun w _ => heach w
    _ = _ := by
        rw [Finset.sum_add_distrib, Finset.sum_const, Finset.card_range, nsmul_eq_mul]

end Governor

section Starvation

/-- The refills of a worker find less than what makes a byte. -/
def Creeps (w : ℕ) (s : PacedPool ι) : Event ι → Prop
  | .work v => v = w → ∀ retry sendRate, (s.worker v).stage = .rated retry sendRate →
      sendRate ≠ 0 ∧ sendRate.toNat * (s.now - (s.worker v).paceLastUs).toNat < 10 ^ 6
  | _ => True

/-- A worker that has no credit, in a round of its loop with a message in front of its ring. -/
structure Polling (s : PacedPool ι) (w : ℕ) (x : Ticket ι) : Prop where
  running : s.pool.stopped w = false
  front : (s.pool.rings w).front = some x
  sends : x.work.Sends
  stage : (s.worker w).stage = .acks
  last : (s.worker w).paceLastUs = s.now
  credit : (s.worker w).paceCredit ≤ 0

theorem paceRefill_creeps (hd : Rounded toI64 value) (sw : SendWorker) {now rate : BitVec 64}
    (hcredit : sw.paceCredit ≤ 0) (hrate : rate ≠ 0) (hless : rate.toNat * (now - sw.paceLastUs).toNat < 10 ^ 6) :
    sw.paceRefill toI64 now rate = { sw with paceLastUs := now } := by
  unfold SendWorker.paceRefill
  dsimp only
  split
  · next hzero =>
    have hnow : now = sw.paceLastUs := by
      have hsum := BitVec.sub_add_cancel now sw.paceLastUs
      rw [hzero] at hsum
      exact hsum.symm.trans (BitVec.zero_add _)
    rw [hnow]
  · next helapsed =>
    have hcap : 0 ≤ paceCap rate := (by decide : 0 ≤ paceStart).trans (le_max_right _ _)
    rw [hd.paceAdded_eq_zero hrate helapsed hless, add_zero, min_eq_left (hcredit.trans hcap)]

theorem creeps_path (hd : Rounded toI64 value)
    (hpath : ((pacedSystem ι toI64 workers maxPayload).restrict (Creeps w)).Path s t)
    (hcredit : (s.worker w).paceCredit ≤ 0) :
    (t.worker w).paceCredit = (s.worker w).paceCredit ∧ t.pool.sentBytesBy w = s.pool.sentBytesBy w := by
  induction hpath with
  | refl => exact ⟨rfl, rfl⟩
  | @tail t e u _ hstep ih =>
    obtain ⟨hcreeps, hstep⟩ := hstep
    rw [← ih.1, ← ih.2]
    rw [← ih.1] at hcredit
    cases hstep with
    | enqueue e p he hp => exact ⟨rfl, sentBytesBy_congr (sent_enqueue he hp)⟩
    | clock | rate => exact ⟨rfl, rfl⟩
    | work v =>
      have hturn := t.turn toI64 v
      generalize t.sendWorkerThread toI64 v = u at hturn ⊢
      by_cases hv : w = v
      · subst hv
        cases hturn with
        | quiet stage => exact ⟨by rw [worker_setWorker_self], rfl⟩
        | refill retry sendRate hstage =>
          obtain ⟨hrate, hless⟩ := hcreeps rfl retry sendRate hstage
          rw [paceRefill_creeps hd _ hcredit hrate hless]
          exact ⟨by rw [worker_setWorker_self], rfl⟩
        | other x _ htype => exact ⟨rfl, sentBytesBy_congr ((sent_drain t.pool w x).2 htype)⟩
        | send x stage _ _ hpos => exact absurd hcredit (not_le.mpr hpos)
      · cases hturn with
        | quiet | refill => exact ⟨by rw [worker_setWorker_of_ne hv], rfl⟩
        | other x _ htype => exact ⟨rfl, sentBytesBy_congr ((sent_drain t.pool v x).2 htype)⟩
        | send x stage _ htype =>
          obtain ⟨seq, hsent⟩ := (sent_drain t.pool v x).1 htype
          have hbytes := sentBytesBy_append hsent w
          rw [if_neg hv, Nat.add_zero] at hbytes
          exact ⟨by rw [worker_setWorker_of_ne hv], hbytes⟩

omit [DecidableEq ι] in
theorem setWorker_setWorker (sw sw' : SendWorker) : (s.setWorker w sw).setWorker w sw' = s.setWorker w sw' := by
  unfold setWorker
  rw [Function.update_idem]

section Rounds

variable {sw : SendWorker} {retry : ℕ}

omit [DecidableEq ι]

theorem sendWorkerThread_acks (h : sw.stage = .acks) :
    (s.setWorker w sw).sendWorkerThread toI64 w = s.setWorker w { sw with stage := .refill 0 } := by
  unfold sendWorkerThread
  rw [worker_setWorker_self, h]
  exact setWorker_setWorker ..

theorem sendWorkerThread_refill (h : sw.stage = .refill retry) :
    (s.setWorker w sw).sendWorkerThread toI64 w = s.setWorker w { sw with stage := .rated retry s.ccRateCache } := by
  unfold sendWorkerThread
  rw [worker_setWorker_self, h]
  exact setWorker_setWorker ..

theorem sendWorkerThread_rated {sendRate : BitVec 64} (h : sw.stage = .rated retry sendRate) :
    (s.setWorker w sw).sendWorkerThread toI64 w =
      s.setWorker w { sw.paceRefill toI64 s.now sendRate with stage := .drain retry false } := by
  unfold sendWorkerThread
  rw [worker_setWorker_self, h]
  exact setWorker_setWorker ..

theorem sendWorkerThread_leaves {x : Ticket ι} (h : sw.stage = .drain retry false)
    (hx : (s.pool.rings w).front = some x) (hsends : x.work.Sends)
    (hcredit : sw.paceCredit ≤ 0) :
    (s.setWorker w sw).sendWorkerThread toI64 w = s.setWorker w { sw with stage := .acks } := by
  have hfront : ((s.setWorker w sw).pool.rings w).front = some x := hx
  unfold sendWorkerThread
  rw [worker_setWorker_self, h]
  dsimp only
  rw [hfront]
  obtain htype | htype := hsends
  all_goals
    dsimp only
    rw [htype]
    dsimp only
    rw [if_pos hcredit]
    exact setWorker_setWorker ..

end Rounds

theorem Polling.round (hd : Rounded toI64 value) (hw : w < workers) (maxPayload : ℕ) {x : Ticket ι}
    (h : s.Polling w x) (hrate : s.ccRateCache ≠ 0) (hless : s.ccRateCache.toNat < 10 ^ 6)
    (hnow : s.now.toNat + 1 < 2 ^ 64) :
    ∃ t, ((pacedSystem ι toI64 workers maxPayload).restrict (Creeps w)).Path s t ∧ t.Polling w x ∧
      t.now.toNat = s.now.toNat + 1 ∧ t.ccRateCache = s.ccRateCache ∧ t.pool = s.pool := by
  have hlater : (s.now + 1).toNat = s.now.toNat + 1 := by
    rw [BitVec.toNat_add]
    exact Nat.mod_eq_of_lt hnow
  have hone : s.ccRateCache.toNat * (s.now + 1 - (s.worker w).paceLastUs).toNat < 10 ^ 6 := by
    have helapsed : s.now + 1 - s.now = 1 := by
      rw [BitVec.add_comm]
      exact BitVec.add_sub_cancel 1 s.now
    rw [h.last, helapsed]
    exact (Nat.mul_one _).trans_lt hless
  let S := (pacedSystem ι toI64 workers maxPayload).restrict (Creeps w)
  let tick : PacedPool ι := { s with now := s.now + 1 }
  have hstart : tick.setWorker w (s.worker w) = tick := by
    change { tick with worker := Function.update s.worker w (s.worker w) } = tick
    rw [Function.update_eq_self]
  have hwork {t u : PacedPool ι} (hpath : S.Path s t) (hpool : t.pool = s.pool)
      (hcreeps : Creeps w t (.work w)) (hgo : t.sendWorkerThread toI64 w = u) : S.Path s u := by
    refine .tail hpath (e := .work w) ⟨hcreeps, ?_⟩
    rw [← hgo]
    exact Step.work w hw (by rw [hpool]; exact h.running)
  have hquiet (sw : SendWorker) (hstage : ∀ retry sendRate, sw.stage ≠ .rated retry sendRate) :
      Creeps w (tick.setWorker w sw) (.work w) := by
    intro _ retry sendRate hrated
    rw [worker_setWorker_self] at hrated
    exact absurd hrated (hstage retry sendRate)
  have hclock : S.Path s tick := by
    have hle : s.now ≤ s.now + 1 := by
      rw [BitVec.le_def, hlater]
      exact Nat.le_succ _
    have hcreeps : Creeps w s (.clock (s.now + 1)) := trivial
    exact .tail .refl ⟨hcreeps, Step.clock (s.now + 1) hle⟩
  have hacks : S.Path s (tick.setWorker w { s.worker w with stage := .refill 0 }) := by
    rw [← hstart] at hclock
    refine hwork hclock rfl (hquiet _ fun _ _ => ?_) (sendWorkerThread_acks h.stage)
    rw [h.stage]
    exact nofun
  have hrefill : S.Path s (tick.setWorker w { s.worker w with stage := .rated 0 s.ccRateCache }) :=
    hwork hacks rfl (hquiet _ fun _ _ => nofun) (sendWorkerThread_refill rfl)
  have hrated : S.Path s (tick.setWorker w { s.worker w with paceLastUs := s.now + 1, stage := .drain 0 false }) := by
    refine hwork hrefill rfl (fun _ retry sendRate hstage => ?_) ((sendWorkerThread_rated rfl).trans ?_)
    · rw [worker_setWorker_self] at hstage ⊢
      obtain ⟨-, rfl⟩ := WorkerStage.rated.inj hstage
      exact ⟨hrate, hone⟩
    · have hsame : SendWorker.paceRefill toI64 { s.worker w with stage := .rated 0 s.ccRateCache } tick.now
          s.ccRateCache = { s.worker w with paceLastUs := tick.now, stage := .rated 0 s.ccRateCache } :=
        paceRefill_creeps hd _ h.credit hrate hone
      rw [hsame]
  have hleaves : S.Path s (tick.setWorker w { s.worker w with paceLastUs := s.now + 1, stage := .acks }) :=
    hwork hrated rfl (hquiet _ fun _ _ => nofun) (sendWorkerThread_leaves rfl h.front h.sends h.credit)
  refine ⟨_, hleaves, ⟨h.running, h.front, h.sends, ?_, ?_, ?_⟩, hlater, rfl, rfl⟩
  · rw [worker_setWorker_self]
  · rw [worker_setWorker_self]
    rfl
  · rw [worker_setWorker_self]
    exact h.credit

/-- A worker that has used up its credit sends nothing while less than a byte is credited at a time; and at any rate
below a megabyte a second, one that polls every microsecond goes on so for as long as the clock goes, with a message in
front of its ring. -/
theorem starves (hd : Rounded toI64 value) (hw : w < workers) (maxPayload : ℕ) {x : Ticket ι} (hx : s.Polling w x)
    (hrate : s.ccRateCache ≠ 0) (hless : s.ccRateCache.toNat < 10 ^ 6) :
    (∀ t, ((pacedSystem ι toI64 workers maxPayload).restrict (Creeps w)).Path s t →
      t.pool.sentBytesBy w = s.pool.sentBytesBy w) ∧
    ∀ n, s.now.toNat + n < 2 ^ 64 →
      ∃ t, ((pacedSystem ι toI64 workers maxPayload).restrict (Creeps w)).Path s t ∧ t.Polling w x ∧
        t.now.toNat = s.now.toNat + n ∧ t.pool = s.pool := by
  refine ⟨fun t hpath => (creeps_path hd hpath hx.credit).2, fun n hnow => ?_⟩
  have hrounds : ∃ t, ((pacedSystem ι toI64 workers maxPayload).restrict (Creeps w)).Path s t ∧ t.Polling w x ∧
      t.now.toNat = s.now.toNat + n ∧ t.ccRateCache = s.ccRateCache ∧ t.pool = s.pool := by
    induction n with
    | zero => exact ⟨s, .refl, hx, rfl, rfl, rfl⟩
    | succ n ih =>
      obtain ⟨t, hpath, hpolling, htime, hcache, hpool⟩ := ih (Nat.lt_of_succ_lt hnow)
      obtain ⟨u, hround, hpolling', htime', hcache', hpool'⟩ := hpolling.round hd hw maxPayload (hcache ▸ hrate)
        (hcache ▸ hless) (by rw [htime]; exact hnow)
      refine ⟨u, hpath.trans hround, hpolling', ?_, hcache'.trans hcache, hpool'.trans hpool⟩
      rw [htime', htime, Nat.add_assoc]
  obtain ⟨t, hpath, hpolling, htime, -, hpool⟩ := hrounds
  exact ⟨t, hpath, hpolling, htime, hpool⟩

end Starvation

section Greeting

theorem exact_rounded : Rounded (F := Exact) Rat.floor Exact.value where
  ofU64 n := by
    have hexact : Exact.value (Double.ofU64 n) = n.toNat := by
      change mkRat n.toNat 1 = n.toNat
      rw [Rat.mkRat_one]
      rfl
    rw [hexact, sub_self, abs_zero]
    have hpos : 0 ≤ doubleError := by norm_num [doubleError]
    positivity
  mul x y hx hy _ _ := by
    have hexact : Exact.value (x * y) = Exact.value x * Exact.value y := rfl
    rw [hexact, sub_self, abs_zero]
    have hpos : 0 ≤ doubleError := by norm_num [doubleError]
    have hx₀ : 0 ≤ Exact.value x := le_trans (by norm_num) hx
    have hy₀ : 0 ≤ Exact.value y := le_trans (by norm_num) hy
    positivity
  million x hx _ := by
    have hexact : Exact.value (x / (1e6 : Exact)) = Exact.value x / 10 ^ 6 := by
      change Exact.value x / (1e6 : ℚ) = Exact.value x / 10 ^ 6
      norm_num
    rw [hexact, sub_self, abs_zero]
    have hpos : 0 ≤ doubleError := by norm_num [doubleError]
    have hx₀ : 0 ≤ Exact.value x := le_trans (by norm_num) hx
    positivity
  toI64 x _ _ := rfl

def atRest : PacedPool ℕ where
  pool := .create 0
  now := 0
  ccRateCache := 1000000
  worker _ := ⟨paceStart, 0, .acks⟩

def asked : PacedPool ℕ :=
  let item := SendPool.reliableItem [104, 105]
  let called := atRest.pool.enqueueWork 1 1442 0 item
  let reserved := (called.setRing 0 (called.rings 0).reserve).setCaller 0 (.holding 0 0 item)
  { atRest with pool := reserved.commit 0 0 0 item, now := 1000 }

def greeted : PacedPool ℕ := (fun s => s.sendWorkerThread (F := Exact) Rat.floor 0)^[4] asked

theorem greeted_path : ((pacedSystem ℕ (F := Exact) Rat.floor 1 1442).restrict
    (RatedBy fun r => r ≠ 0 ∧ r.toNat ≤ 1000000)).Path atRest greeted := by
  let S := (pacedSystem ℕ (F := Exact) Rat.floor 1 1442).restrict (RatedBy fun r => r ≠ 0 ∧ r.toNat ≤ 1000000)
  have hwork {t : PacedPool ℕ} (hpath : S.Path atRest t) (hrunning : t.pool.stopped 0 = false)
      (hrated : RatedBy (fun r => r ≠ 0 ∧ r.toNat ≤ 1000000) t (.work 0)) :
      S.Path atRest (t.sendWorkerThread (F := Exact) Rat.floor 0) :=
    .tail hpath ⟨hrated, Step.work 0 Nat.one_pos hrunning⟩
  have henqueue {t : PacedPool ℕ} {p : SendPool ℕ} (e : SendPool.Event ℕ) (hpath : S.Path atRest t)
      (he : ∀ w, e ≠ .drain w) (hstep : SendPool.Step 1 1442 t.pool e p) : S.Path atRest { t with pool := p } := by
    have hrated : RatedBy (fun r => r ≠ 0 ∧ r.toNat ≤ 1000000) t (.enqueue e) := trivial
    exact .tail hpath ⟨hrated, Step.enqueue e p he hstep⟩
  have hclock {t : PacedPool ℕ} (hpath : S.Path atRest t) (now : BitVec 64) (hnow : t.now ≤ now) :
      S.Path atRest { t with now } := by
    have hrated : RatedBy (fun r => r ≠ 0 ∧ r.toNat ≤ 1000000) t (.clock now) := trivial
    exact .tail hpath ⟨hrated, Step.clock now hnow⟩
  have hcalled := henqueue (.call 0) .refl nofun (.call 0 (SendPool.reliableItem [104, 105]) rfl (.inl rfl))
  have hreserved := henqueue (.reserve 0) hcalled nofun (.reserve 0 rfl (by decide))
  have hasked : S.Path atRest asked := hclock (henqueue (.commit 0) hreserved nofun (.commit 0 rfl)) 1000 (by decide)
  refine hwork (hwork (hwork (hwork hasked rfl ?_) rfl ?_) rfl ?_) rfl ?_
  · exact fun _ _ hstage => nomatch hstage
  · exact fun _ _ hstage => nomatch hstage
  · intro retry sendRate hstage
    obtain ⟨-, rfl⟩ := WorkerStage.rated.inj hstage
    decide
  · exact fun _ _ hstage => nomatch hstage

theorem sent_le_greeted : greeted.pool.sentBytes = 12 ∧
    (∀ w, (greeted.pool.sentBytesBy w : ℚ) ≤ atRest.pool.sentBytesBy w +
      (2 * (creditCap 1000000 + mostBytes 1442) + paceGain 1000000 atRest.now.toNat greeted.now.toNat)) ∧
    (greeted.pool.sentBytes : ℚ) ≤ atRest.pool.sentBytes +
      (1 : ℕ) * (2 * (creditCap 1000000 + mostBytes 1442) + paceGain 1000000 atRest.now.toNat greeted.now.toNat) :=
  ⟨by decide +kernel, sent_le exact_rounded
    (.init ⟨⟨0, rfl⟩, fun _ => rfl, fun _ => BitVec.le_refl _, fun _ => rfl⟩) greeted_path (by decide +kernel)⟩

def stuck : PacedPool ℕ := { asked with ccRateCache := 999999, worker := fun _ => ⟨0, 1000, .acks⟩ }

theorem starves_stuck :
    (∀ t, ((pacedSystem ℕ (F := Exact) Rat.floor 1 1442).restrict (Creeps 0)).Path stuck t →
      t.pool.sentBytesBy 0 = stuck.pool.sentBytesBy 0) ∧
    ∀ n, stuck.now.toNat + n < 2 ^ 64 →
      ∃ t, ((pacedSystem ℕ (F := Exact) Rat.floor 1 1442).restrict (Creeps 0)).Path stuck t ∧
        t.Polling 0 ⟨0, 0, SendPool.reliableItem [104, 105]⟩ ∧
        t.now.toNat = stuck.now.toNat + n ∧ t.pool = stuck.pool :=
  starves exact_rounded Nat.one_pos 1442 ⟨rfl, rfl, .inl rfl, rfl, rfl, le_rfl⟩ (by decide) (by decide)

end Greeting

end PacedPool

end YumiBrowser.Udp
