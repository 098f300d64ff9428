import Mathlib.Data.Rat.Floor
import Mathlib.Tactic.Linarith
import Mathlib.Tactic.Positivity
import Mathlib.Tactic.Ring
import YumiBrowser.Network.Bbr
import YumiBrowser.Network.IcePath
import YumiBrowser.Network.SendOrder

universe u v

namespace YumiBrowser.Udp

open Transition
open Double (ofU64)

/-- How far a worker is with a round of `send_worker_thread`. -/
inductive WorkerStage
  -- the ACKs, which are not paced
  | acks
  | refill (retry : ℕ)
  -- the rate has been loaded
  | rated (retry : ℕ) (sendRate : BitVec 64)
  | drain (retry : ℕ) (drainedAny : Bool)
  deriving DecidableEq

/-- What a send worker has for itself. The credit is that of an `int64_t` that does not overflow. -/
structure SendWorker where
  paceCredit : ℤ
  paceLastUs : BitVec 64
  stage : WorkerStage

structure PacedPool (ι : Type u) where
  pool : SendPool ι
  now : BitVec 64
  ccRateCache : BitVec 64
  worker : ℕ → SendWorker

def paceRetries : ℕ := 32

def paceStart : ℤ := maxDgram * 64

/-- `YUMI_UDP_HDR_SIZE + item->len` -/
def WorkItem.dgramSize (item : WorkItem) : ℕ := hdrSize + item.data.length

def WorkItem.Sends (item : WorkItem) : Prop := item.type = .sendReliable ∨ item.type = .sendUnreliable

instance WorkItem.decidableSends (item : WorkItem) : Decidable item.Sends := inferInstanceAs (Decidable (_ ∨ _))

section Refill

variable {F : Type v} [Double F]

/-- `(int64_t)((double)rate * (double)elapsed / 1e6)` -/
def paceAdded (toI64 : F → ℤ) (rate elapsed : BitVec 64) : ℤ := toI64 (ofU64 rate * ofU64 elapsed / (1e6 : F))

-- Twice the rate is an `int64_t` again, and may be negative as such.
def paceCap (rate : BitVec 64) : ℤ := max (rate * 2).toInt paceStart

def SendWorker.paceRefill (toI64 : F → ℤ) (sw : SendWorker) (now rate : BitVec 64) : SendWorker :=
  let elapsed := now - sw.paceLastUs
  if elapsed = 0 then sw
  else if rate = 0 then { sw with paceCredit := paceStart, paceLastUs := now }
  else
    { sw with
      paceCredit := min (sw.paceCredit + paceAdded toI64 rate elapsed) (paceCap rate)
      paceLastUs := now }

def SendWorker.leave (sw : SendWorker) (retry : ℕ) (drainedAny : Bool) : SendWorker :=
  { sw with stage := if drainedAny = true ∧ retry + 1 < paceRetries then .refill (retry + 1) else .acks }

end Refill

def SendPool.sentBytes {ι : Type u} (p : SendPool ι) : ℕ := (p.sent.map fun e => e.ticket.work.dgramSize).sum

def SendPool.sentBytesBy {ι : Type u} (p : SendPool ι) (w : ℕ) : ℕ :=
  ((p.sent.filter fun e => e.worker = w).map fun e => e.ticket.work.dgramSize).sum

namespace PacedPool

variable {ι : Type u} [DecidableEq ι] {F : Type v} [Double F]

def setWorker (s : PacedPool ι) (w : ℕ) (sw : SendWorker) : PacedPool ι :=
  { s with worker := Function.update s.worker w sw }

/-- `send_worker_process_item` -/
def processItem (s : PacedPool ι) (w retry : ℕ) (ticket : Ticket ι) : PacedPool ι :=
  let sw := { s.worker w with paceCredit := (s.worker w).paceCredit - ticket.work.dgramSize }
  { s with pool := s.pool.drain w ticket }.setWorker w
    (if sw.paceCredit ≤ 0 then sw.leave retry true else { sw with stage := .drain retry true })

/-- The next step of `send_worker_thread`. -/
def sendWorkerThread (toI64 : F → ℤ) (s : PacedPool ι) (w : ℕ) : PacedPool ι :=
  match (s.worker w).stage with
  | .acks => s.setWorker w { s.worker w with stage := .refill 0 }
  | .refill retry => s.setWorker w { s.worker w with stage := .rated retry s.ccRateCache }
  | .rated retry sendRate =>
    s.setWorker w { (s.worker w).paceRefill toI64 s.now sendRate with stage := .drain retry false }
  | .drain retry drainedAny =>
    match (s.pool.rings w).front with
    | none => s.setWorker w ((s.worker w).leave retry drainedAny)
    | some ticket =>
      match ticket.work.type with
      | .shutdown | .userCb => { s with pool := s.pool.drain w ticket }
      | .sendUnreliable | .sendReliable =>
        if (s.worker w).paceCredit ≤ 0 then s.setWorker w ((s.worker w).leave retry drainedAny)
        else s.processItem w retry ticket

inductive Event (ι : Type u)
  -- the threads that fill the rings
  | enqueue (e : SendPool.Event ι)
  | clock (now : BitVec 64)
  | rate (rate : BitVec 64)
  | work (w : ℕ)

inductive Step (toI64 : F → ℤ) (workers maxPayload : ℕ) : PacedPool ι → Event ι → PacedPool ι → Prop
  | enqueue (e : SendPool.Event ι) (p : SendPool ι) : (∀ w, e ≠ .drain w) →
      SendPool.Step workers maxPayload s.pool e p → Step toI64 workers maxPayload s (.enqueue e) { s with pool := p }
  | clock (now : BitVec 64) : s.now ≤ now → Step toI64 workers maxPayload s (.clock now) { s with now }
  | rate (rate : BitVec 64) : Step toI64 workers maxPayload s (.rate rate) { s with ccRateCache := rate }
  | work (w : ℕ) : w < workers → s.pool.stopped w = false →
      Step toI64 workers maxPayload s (.work w) (s.sendWorkerThread toI64 w)

structure Started (s : PacedPool ι) : Prop where
  pool : ∃ sendRr, s.pool = .create sendRr
  credit : ∀ w, (s.worker w).paceCredit = paceStart
  last : ∀ w, (s.worker w).paceLastUs ≤ s.now
  stage : ∀ w, (s.worker w).stage = .acks

end PacedPool

def pacedSystem (ι : Type u) [DecidableEq ι] {F : Type v} [Double F] (toI64 : F → ℤ) (workers maxPayload : ℕ) :
    System (PacedPool ι) (PacedPool.Event ι) where
  init := PacedPool.Started
  step := PacedPool.Step toI64 workers maxPayload

/-- `2 ^ -53` -/
def doubleError : ℚ := 1 / 2 ^ 53

/-- What the conversions, the product and the quotient of `double` are worth, as far as nothing overflows or is
subnormal. -/
structure Rounded {F : Type v} [Double F] (toI64 : F → ℤ) (value : F → ℚ) : Prop where
  ofU64 : ∀ n : BitVec 64, |value (ofU64 n) - n.toNat| ≤ doubleError * n.toNat
  mul : ∀ x y : F, 1 / 2 ≤ value x → 1 / 2 ≤ value y → value x ≤ 2 ^ 65 → value y ≤ 2 ^ 65 →
    |value (x * y) - value x * value y| ≤ doubleError * (value x * value y)
  million : ∀ x : F, 1 / 8 ≤ value x → value x ≤ 2 ^ 131 →
    |value (x / (1e6 : F)) - value x / 10 ^ 6| ≤ doubleError * (value x / 10 ^ 6)
  toI64 : ∀ x : F, 0 ≤ value x → value x < 2 ^ 63 → toI64 x = ⌊value x⌋

section Arithmetic

variable {F : Type v} [Double F] {toI64 : F → ℤ} {value : F → ℚ} {rate elapsed : BitVec 64}

theorem between_of_abs {x y u : ℚ} (h : |x - y| ≤ u * y) : (1 - u) * y ≤ x ∧ x ≤ (1 + u) * y := by
  obtain ⟨hle, hge⟩ := abs_le.mp h
  exact ⟨by linarith, by linarith⟩

theorem Rounded.ofU64_between (h : Rounded toI64 value) (n : BitVec 64) :
    (1 - doubleError) * n.toNat ≤ value (Double.ofU64 n) ∧
      value (Double.ofU64 n) ≤ (1 + doubleError) * n.toNat := between_of_abs (h.ofU64 n)

theorem one_le_toNat {n : BitVec 64} (h : n ≠ 0) : (1 : ℚ) ≤ n.toNat := by
  rw [Nat.one_le_cast, Nat.one_le_iff_ne_zero]
  exact fun hzero => h (BitVec.eq_of_toNat_eq hzero)

theorem toNat_le_two_pow (n : BitVec 64) : (n.toNat : ℚ) ≤ 2 ^ 64 := by
  have hlt : (n.toNat : ℚ) < (2 ^ 64 : ℕ) := Nat.cast_lt.mpr n.isLt
  push_cast at hlt
  exact hlt.le

theorem Rounded.ofU64_range (h : Rounded toI64 value) {n : BitVec 64} (hn : n ≠ 0) :
    1 / 2 ≤ value (Double.ofU64 n) ∧ value (Double.ofU64 n) ≤ 2 ^ 65 := by
  obtain ⟨hlow, hhigh⟩ := h.ofU64_between n
  have hone := one_le_toNat hn
  have hmost := toNat_le_two_pow n
  unfold doubleError at hlow hhigh
  constructor
  · linarith
  · linarith

theorem product_between {u x y r e : ℚ} (hu : 0 ≤ u) (hu' : u ≤ 1) (hr : 0 ≤ r) (he : 0 ≤ e)
    (hx : (1 - u) * r ≤ x ∧ x ≤ (1 + u) * r) (hy : (1 - u) * e ≤ y ∧ y ≤ (1 + u) * e) :
    (1 - u) ^ 2 * (r * e) ≤ x * y ∧ x * y ≤ (1 + u) ^ 2 * (r * e) := by
  have hrest : 0 ≤ 1 - u := sub_nonneg.mpr hu'
  have hx₀ : 0 ≤ x := (mul_nonneg hrest hr).trans hx.1
  have hy₀ : 0 ≤ y := (mul_nonneg hrest he).trans hy.1
  constructor
  · calc (1 - u) ^ 2 * (r * e) = ((1 - u) * r) * ((1 - u) * e) := by ring
      _ ≤ x * y := mul_le_mul hx.1 hy.1 (mul_nonneg hrest he) hx₀
  · calc x * y ≤ ((1 + u) * r) * ((1 + u) * e) :=
          mul_le_mul hx.2 hy.2 hy₀ (mul_nonneg (by linarith) hr)
      _ = (1 + u) ^ 2 * (r * e) := by ring

theorem Rounded.quotient_between (h : Rounded toI64 value) (hrate : rate ≠ 0) (helapsed : elapsed ≠ 0) :
    (1 - doubleError) ^ 4 * (rate.toNat * elapsed.toNat / 10 ^ 6) ≤
        value (Double.ofU64 rate * Double.ofU64 elapsed / (1e6 : F)) ∧
      value (Double.ofU64 rate * Double.ofU64 elapsed / (1e6 : F)) ≤
        (1 + doubleError) ^ 4 * (rate.toNat * elapsed.toNat / 10 ^ 6) := by
  have hu : 0 ≤ doubleError := by norm_num [doubleError]
  have hu' : doubleError ≤ 1 := by norm_num [doubleError]
  have hlow : (1 / 2 : ℚ) ≤ 1 - doubleError := by norm_num [doubleError]
  have hhigh : 1 + doubleError ≤ 2 := by linarith
  obtain ⟨hx, hx'⟩ := h.ofU64_range hrate
  obtain ⟨hy, hy'⟩ := h.ofU64_range helapsed
  obtain ⟨hp, hp'⟩ := between_of_abs (h.mul _ _ hx hy hx' hy')
  set p := value (Double.ofU64 rate * Double.ofU64 elapsed : F)
  have hxy := product_between hu hu' (Nat.cast_nonneg rate.toNat) (Nat.cast_nonneg elapsed.toNat)
    (h.ofU64_between rate) (h.ofU64_between elapsed)
  have hquarter : (1 / 4 : ℚ) ≤ value (Double.ofU64 rate) * value (Double.ofU64 elapsed) := by
    have hmul := mul_le_mul hx hy (by norm_num) ((by norm_num : (0 : ℚ) ≤ 1 / 2).trans hx)
    linarith
  have hlarge : value (Double.ofU64 rate) * value (Double.ofU64 elapsed) ≤ 2 ^ 130 := by
    have hmul := mul_le_mul hx' hy' ((by norm_num : (0 : ℚ) ≤ 1 / 2).trans hy) (by norm_num)
    linarith
  have hpoint : 1 / 8 ≤ p := by
    have hmul := mul_le_mul hlow hquarter (by norm_num) (by linarith)
    linarith
  have hbig : p ≤ 2 ^ 131 := by
    have hmul := mul_le_mul hhigh hlarge (by linarith) (by norm_num)
    linarith
  obtain ⟨hq, hq'⟩ := between_of_abs (h.million _ hpoint hbig)
  have hrest : 0 ≤ 1 - doubleError := sub_nonneg.mpr hu'
  have hmore : 0 ≤ 1 + doubleError := add_nonneg zero_le_one hu
  constructor
  · calc (1 - doubleError) ^ 4 * (rate.toNat * elapsed.toNat / 10 ^ 6)
        = (1 - doubleError) * ((1 - doubleError) * ((1 - doubleError) ^ 2 * (rate.toNat * elapsed.toNat))) /
            10 ^ 6 := by ring
      _ ≤ (1 - doubleError) * p / 10 ^ 6 := by
          gcongr
          exact (mul_le_mul_of_nonneg_left hxy.1 hrest).trans hp
      _ = (1 - doubleError) * (p / 10 ^ 6) := mul_div_assoc ..
      _ ≤ _ := hq
  · calc value (Double.ofU64 rate * Double.ofU64 elapsed / (1e6 : F))
        ≤ (1 + doubleError) * (p / 10 ^ 6) := hq'
      _ = (1 + doubleError) * p / 10 ^ 6 := (mul_div_assoc ..).symm
      _ ≤ (1 + doubleError) * ((1 + doubleError) * ((1 + doubleError) ^ 2 * (rate.toNat * elapsed.toNat))) /
            10 ^ 6 := by
          gcongr
          exact hp'.trans (mul_le_mul_of_nonneg_left hxy.2 hmore)
      _ = _ := by ring

theorem Rounded.quotient_nonneg (h : Rounded toI64 value) (hrate : rate ≠ 0) (helapsed : elapsed ≠ 0) :
    0 ≤ value (Double.ofU64 rate * Double.ofU64 elapsed / (1e6 : F)) := by
  refine le_trans ?_ (h.quotient_between hrate helapsed).1
  have hu' : doubleError ≤ 1 := by norm_num [doubleError]
  have hrest : 0 ≤ 1 - doubleError := sub_nonneg.mpr hu'
  positivity

theorem Rounded.paceAdded_between (h : Rounded toI64 value) (hrate : rate ≠ 0) (helapsed : elapsed ≠ 0)
    (hrange : rate.toNat * elapsed.toNat ≤ 2 ^ 62 * 10 ^ 6) :
    0 ≤ paceAdded toI64 rate elapsed ∧
      (paceAdded toI64 rate elapsed : ℚ) ≤ (1 + doubleError) ^ 4 * (rate.toNat * elapsed.toNat / 10 ^ 6) := by
  have hnonneg := h.quotient_nonneg hrate helapsed
  have hle := (h.quotient_between hrate helapsed).2
  have hcast : (rate.toNat * elapsed.toNat : ℚ) ≤ 2 ^ 62 * 10 ^ 6 := by exact_mod_cast hrange
  have hless : (1 + doubleError) ^ 4 < 2 := by norm_num [doubleError]
  have hin : value (Double.ofU64 rate * Double.ofU64 elapsed / (1e6 : F)) < 2 ^ 63 := by
    refine hle.trans_lt ?_
    have hsmall : (rate.toNat * elapsed.toNat / 10 ^ 6 : ℚ) ≤ 2 ^ 62 := by
      rw [div_le_iff₀ (by norm_num)]
      exact hcast
    calc (1 + doubleError) ^ 4 * (rate.toNat * elapsed.toNat / 10 ^ 6)
        ≤ (1 + doubleError) ^ 4 * 2 ^ 62 := mul_le_mul_of_nonneg_left hsmall (by norm_num [doubleError])
      _ < 2 * 2 ^ 62 := mul_lt_mul_of_pos_right hless (by norm_num)
      _ = 2 ^ 63 := by norm_num
  rw [paceAdded, h.toI64 _ hnonneg hin]
  exact ⟨Int.floor_nonneg.mpr hnonneg, (Int.floor_le _).trans hle⟩

theorem Rounded.paceAdded_eq_zero (h : Rounded toI64 value) (hrate : rate ≠ 0) (helapsed : elapsed ≠ 0)
    (hless : rate.toNat * elapsed.toNat < 10 ^ 6) : paceAdded toI64 rate elapsed = 0 := by
  have hnonneg := h.quotient_nonneg hrate helapsed
  have hone : value (Double.ofU64 rate * Double.ofU64 elapsed / (1e6 : F)) < 1 := by
    refine (h.quotient_between hrate helapsed).2.trans_lt ?_
    have hcast : (rate.toNat * elapsed.toNat : ℚ) ≤ 999999 := by
      have hle : rate.toNat * elapsed.toNat ≤ 999999 := Nat.le_of_lt_succ hless
      exact_mod_cast hle
    calc (1 + doubleError) ^ 4 * (rate.toNat * elapsed.toNat / 10 ^ 6)
        ≤ (1 + doubleError) ^ 4 * (999999 / 10 ^ 6) := by gcongr
      _ < 1 := by norm_num [doubleError]
  rw [paceAdded, h.toI64 _ hnonneg (hone.trans (by norm_num)), Int.floor_eq_zero_iff]
  exact ⟨hnonneg, hone⟩

end Arithmetic

namespace SendPool

variable {ι : Type u} {workers maxPayload : ℕ} {s t : SendPool ι} {e : Event ι}

def Sized (maxPayload : ℕ) (item : WorkItem) : Prop :=
  item.Sends → item.data.length ≤ maxPayload

def callerWork : Caller → Option WorkItem
  | .idle => none
  | .picked _ work | .holding _ _ work => some work

structure AllSized (maxPayload : ℕ) (s : SendPool ι) : Prop where
  caller : ∀ i work, callerWork (s.callers i) = some work → Sized maxPayload work
  filled : ∀ w n x, (s.rings w).filled n = some x → Sized maxPayload x.work

theorem allSized_create (sendRr : BitVec 64) : (create sendRr : SendPool ι).AllSized maxPayload where
  caller _ _ h := nomatch h
  filled _ _ _ h := nomatch h

theorem AllSized.congr (h : s.AllSized maxPayload) (hcallers : t.callers = s.callers)
    (hrings : ∀ w, (t.rings w).filled = (s.rings w).filled) : t.AllSized maxPayload where
  caller i work hi := h.caller i work (hcallers ▸ hi)
  filled w n x hx := h.filled w n x (hrings w ▸ hx)

theorem drain_same (s : SendPool ι) (w : ℕ) (x : Ticket ι) :
    (s.drain w x).callers = s.callers ∧ ∀ v, ((s.drain w x).rings v).filled = (s.rings v).filled := by
  have hprocess : (s.sendWorkerProcessItem w x).callers = s.callers := by
    unfold sendWorkerProcessItem
    split
    · rfl
    · rfl
  have hsent (p : SendPool ι) (hp : p.rings = s.rings) (v : ℕ) :
      ((p.setRing w (s.rings w).take).rings v).filled = (s.rings v).filled := by
    rw [← hp]
    exact (filled_setRing_take p w v).1
  unfold SendPool.drain
  split
  · exact ⟨rfl, fun _ => rfl⟩
  · exact ⟨rfl, hsent s rfl⟩
  · exact ⟨hprocess, hsent _ (s.sendWorkerProcessItem_sends w x).1⟩
  · exact ⟨hprocess, hsent _ (s.sendWorkerProcessItem_sends w x).1⟩

theorem AllSized.setRing (h : s.AllSized maxPayload) (w : ℕ) {q : ReservedQueue (Ticket ι)}
    (hq : ∀ n x, q.filled n = some x → Sized maxPayload x.work) : (s.setRing w q).AllSized maxPayload where
  caller := h.caller
  filled v n x hx := by
    by_cases hv : v = w
    · subst hv
      rw [rings_setRing_self] at hx
      exact hq n x hx
    · rw [rings_setRing_of_ne hv] at hx
      exact h.filled v n x hx

variable [DecidableEq ι]

theorem AllSized.setCaller (h : s.AllSized maxPayload) (i : ι) {c : Caller}
    (hc : ∀ work, callerWork c = some work → Sized maxPayload work) : (s.setCaller i c).AllSized maxPayload where
  caller j work hj := by
    obtain ⟨rfl, hself⟩ | ⟨-, hother⟩ := setCaller_cases (s := s) (i := i) (c := c) (j := j) rfl
    · exact hc work (hself ▸ hj)
    · exact h.caller j work (hother ▸ hj)
  filled := h.filled

theorem AllSized.step (h : s.AllSized maxPayload) (hstep : Step workers maxPayload s e t) :
    t.AllSized maxPayload := by
  cases hstep with
  | call i work =>
    unfold enqueueWork
    split
    · exact h
    · next hlen =>
      refine (h.congr (t := { s with sendRr := s.sendRr + 1 }) rfl fun _ => rfl).setCaller i ?_
      rintro _ ⟨⟩ _
      exact Nat.not_lt.mp hlen
  | elsewhere => exact h.congr rfl fun _ => rfl
  | post i data =>
    refine h.setCaller i ?_
    rintro _ ⟨⟩ hsends
    exact hsends.elim nofun nofun
  | destroy i w =>
    refine h.setCaller i ?_
    rintro _ ⟨⟩ hsends
    exact hsends.elim nofun nofun
  | reserve i hi =>
    refine AllSized.setCaller (h.setRing _ (q := (s.rings _).reserve) fun n x hx => h.filled _ n x hx) i ?_
    rintro work hwork
    exact h.caller i work (hi ▸ hwork)
  | giveUp i hi => exact h.setCaller i nofun
  | commit i hi =>
    refine AllSized.congr (s := SendPool.setCaller (s.setRing _ _) i .idle)
      (AllSized.setCaller (h.setRing _ ?_) i nofun) rfl fun _ => rfl
    intro n x hx
    obtain ⟨-, rfl⟩ | ⟨-, hold⟩ := ReservedQueue.filled_fill_cases hx
    · exact h.caller i _ (by rw [hi]; rfl)
    · exact h.filled _ n x hold
  | drain w _ _ hx => exact h.congr (s.drain_same w _).1 (s.drain_same w _).2

theorem allSized_reachable (h : (sendSystem ι workers maxPayload).Reachable s) : s.AllSized maxPayload := by
  refine System.Reachable.invariant ?_ (fun s e t _ hsized hstep => hsized.step hstep) h
  rintro s ⟨sendRr, rfl⟩
  exact allSized_create sendRr

end SendPool

namespace PacedPool

variable {ι : Type u} [DecidableEq ι] {F : Type v} [Double F] {toI64 : F → ℤ} {value : F → ℚ}
  {workers maxPayload : ℕ} {s t : PacedPool ι} {e : Event ι} {w v : ℕ} {R : ℕ}

omit [DecidableEq ι] in
@[simp] theorem worker_setWorker_self (sw : SendWorker) : (s.setWorker w sw).worker w = sw := Function.update_self ..

omit [DecidableEq ι] in
theorem worker_setWorker_of_ne (h : v ≠ w) (sw : SendWorker) : (s.setWorker w sw).worker v = s.worker v :=
  Function.update_of_ne h ..

inductive Turn (toI64 : F → ℤ) (s : PacedPool ι) (w : ℕ) : PacedPool ι → Prop
  | quiet (stage : WorkerStage) : Turn toI64 s w (s.setWorker w { s.worker w with stage })
  | refill (retry : ℕ) (sendRate : BitVec 64) : (s.worker w).stage = .rated retry sendRate →
      Turn toI64 s w (s.setWorker w { (s.worker w).paceRefill toI64 s.now sendRate with stage := .drain retry false })
  | other (x : Ticket ι) : (s.pool.rings w).front = some x → x.work.type = .shutdown ∨ x.work.type = .userCb →
      Turn toI64 s w { s with pool := s.pool.drain w x }
  | send (x : Ticket ι) (stage : WorkerStage) : (s.pool.rings w).front = some x →
      x.work.Sends → 0 < (s.worker w).paceCredit →
      Turn toI64 s w ({ s with pool := s.pool.drain w x }.setWorker w
        { s.worker w with paceCredit := (s.worker w).paceCredit - x.work.dgramSize, stage })

omit [DecidableEq ι] in
theorem turn (toI64 : F → ℤ) (s : PacedPool ι) (w : ℕ) : Turn toI64 s w (s.sendWorkerThread toI64 w) := by
  unfold sendWorkerThread
  split
  · exact .quiet _
  · exact .quiet _
  · next retry sendRate hstage => exact .refill retry sendRate hstage
  · next retry drainedAny _ =>
    split
    · exact .quiet _
    · next x hx =>
      split
      · next htype => exact .other x hx (.inl htype)
      · next htype => exact .other x hx (.inr htype)
      all_goals
        next htype =>
          split
          · exact .quiet _
          · next hcredit =>
            unfold processItem
            dsimp only
            split
            · exact .send x _ hx (by simp [WorkItem.Sends, htype]) (not_le.mp hcredit)
            · exact .send x _ hx (by simp [WorkItem.Sends, htype]) (not_le.mp hcredit)

theorem pool_step (hstep : (pacedSystem ι toI64 workers maxPayload).step s e t) :
    t.pool = s.pool ∨ ∃ e, SendPool.Step workers maxPayload s.pool e t.pool := by
  cases hstep with
  | enqueue e p _ hp => exact .inr ⟨e, hp⟩
  | clock | rate => exact .inl rfl
  | work w hw hrunning =>
    have hturn := s.turn toI64 w
    generalize s.sendWorkerThread toI64 w = t at hturn ⊢
    cases hturn with
    | quiet | refill => exact .inl rfl
    | other x hx | send x _ hx => exact .inr ⟨.drain w, .drain w hw hrunning hx⟩

theorem pool_reachable (h : (pacedSystem ι toI64 workers maxPayload).Reachable s) :
    (sendSystem ι workers maxPayload).Reachable s.pool := by
  induction h with
  | init h => exact .init h.pool
  | step _ hstep ih =>
    obtain heq | ⟨e, hstep⟩ := pool_step hstep
    · rw [heq]
      exact ih
    · exact .step ih hstep

end PacedPool

end YumiBrowser.Udp
