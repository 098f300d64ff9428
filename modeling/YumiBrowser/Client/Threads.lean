import Mathlib.Logic.Function.Basic
import YumiBrowser.Client.Mesh

universe u

namespace YumiBrowser.Client

open Wire Transition
open YumiBrowser.Group (PeerId zeroBytes)

inductive Thread (ι : Type u)
  | sync
  | boot
  | caller (i : ι)
  | worker (n w : ℕ)
  deriving DecidableEq

inductive Sweep
  | failed
  | silent
  | all
  deriving DecidableEq

/-- Who calls `yumi_sudp_client_destroy`, and what is left to do after it. -/
inductive Destroyer
  -- `peer_connect`, after a connect that failed
  | connect
  -- `slot_free`, called by `peer_connect`
  | slotFree
  -- `slot_free`, called under the lock
  | sweep (kind : Sweep) (rest : List (Fin maxPeers))
  deriving DecidableEq

/-- The callbacks of a session that take the lock: `mesh_handle` with a packet to forward, and
`sudp_state_cb` with ESTABLISHED. -/
inductive Callback
  | forward
  | established
  deriving DecidableEq

inductive Task
  | idle
  -- in `peer_connect`, which has taken a slot
  | claimed (k : Fin maxPeers)
  | creating (k : Fin maxPeers) (n : ℕ)
  | created (k : Fin maxPeers)
  | connecting (k : Fin maxPeers) (n : ℕ)
  | refused (k : Fin maxPeers)
  | scrapped (k : Fin maxPeers)
  -- in `yumi_sudp_client_destroy`, which joins the workers of the session
  | destroying (who : Destroyer) (k : Fin maxPeers) (n : ℕ)
  -- in a lock region that sends over the sessions of the slots
  | calls
  | calling (n : ℕ)
  -- in a lock region that frees slots
  | sweeping (kind : Sweep) (rest : List (Fin maxPeers))
  -- in a send that has found a session, before the call and in it
  | picked (n : ℕ)
  | sending (n : ℕ)
  -- in a callback that takes the lock, before that and waiting for it
  | entered (cb : Callback)
  | wanting (cb : Callback)
  -- in `sudp_state_cb`, after the lock
  | greeting
  -- in `yumi_client_destroy`, waiting for the two threads to end
  | stopping
  deriving DecidableEq

/-- A client with its threads. `made` sessions have been created, the slot of each being `slotOf`;
`destroys` counts the calls of `yumi_sudp_client_destroy` for a session, and `freed` says that one
has returned. -/
structure Threads (ι : Type u) where
  slots : Fin maxPeers → SlotView ℕ
  lock : Option (Thread ι)
  running : Bool
  closed : Bool
  tasks : Thread ι → Task
  made : ℕ
  slotOf : ℕ → Fin maxPeers
  destroys : ℕ → ℕ
  freed : ℕ → Bool

namespace Threads

variable {ι : Type u}

def started : Threads ι where
  slots _ := ⟨zeroBytes 32, .free, none⟩
  lock := none
  running := true
  closed := false
  tasks _ := .idle
  made := 0
  slotOf _ := 0
  destroys _ := 0
  freed _ := false

def Live (s : Threads ι) (n : ℕ) : Prop := n < s.made ∧ s.freed n = false

variable [DecidableEq ι] (s : Threads ι) (T : Thread ι)

def setTask (task : Task) : Threads ι := { s with tasks := Function.update s.tasks T task }

def setSlot (k : Fin maxPeers) (slot : SlotView ℕ) : Threads ι :=
  { s with slots := Function.update s.slots k slot }

def setState (k : Fin maxPeers) (state : SlotState) : Threads ι :=
  s.setSlot k { s.slots k with state }

def setSession (k : Fin maxPeers) (sudp : Option ℕ) : Threads ι :=
  s.setSlot k { s.slots k with sudp }

/-- The end of `slot_free`. -/
def clear (k : Fin maxPeers) : Threads ι := s.setSlot k ⟨zeroBytes 32, .free, none⟩

/-- `peer_connect` takes a slot. -/
def claim (k : Fin maxPeers) (peerId : PeerId) : Threads ι :=
  (s.setSlot k { s.slots k with peerId, state := .connecting }).setTask T (.claimed k)

/-- `yumi_sudp_client_create` has started the workers of a session. -/
def create (k : Fin maxPeers) : Threads ι :=
  { s with made := s.made + 1, slotOf := Function.update s.slotOf s.made k }.setTask T (.creating k s.made)

/-- `yumi_sudp_client_destroy` is called. -/
def destroy (who : Destroyer) (k : Fin maxPeers) (n : ℕ) : Threads ι :=
  { s with destroys := Function.update s.destroys n (s.destroys n + 1) }.setTask T (.destroying who k n)

/-- `yumi_sudp_client_destroy` returns. -/
def destroyed (who : Destroyer) (k : Fin maxPeers) (n : ℕ) : Threads ι :=
  let s := { s with freed := Function.update s.freed n true }
  match who with
  | .connect => (s.setSession k none).setTask T (.scrapped k)
  | .slotFree => (s.clear k).setTask T .idle
  | .sweep kind rest => (s.clear k).setTask T (.sweeping kind rest)

def locked (task : Task) : Threads ι := { s with lock := some T }.setTask T task

def unlocked (task : Task) : Threads ι := { s with lock := none }.setTask T task

def duplicate (k : Fin maxPeers) : Bool :=
  (List.finRange maxPeers).any fun j =>
    j ≠ k ∧ (s.slots j).state = .connected ∧ (s.slots j).peerId = (s.slots k).peerId

section Updates

variable {s T} {T' : Thread ι} {task : Task} {k j : Fin maxPeers} {slot : SlotView ℕ} {n : ℕ}

@[grind =] theorem tasks_setTask : (s.setTask T task).tasks T' = if T' = T then task else s.tasks T' :=
  Function.update_apply ..

@[grind =] theorem slots_setTask : (s.setTask T task).slots k = s.slots k := rfl

@[grind =] theorem made_setTask : (s.setTask T task).made = s.made := rfl

@[grind =] theorem slotOf_setTask : (s.setTask T task).slotOf n = s.slotOf n := rfl

@[grind =] theorem destroys_setTask : (s.setTask T task).destroys n = s.destroys n := rfl

@[grind =] theorem freed_setTask : (s.setTask T task).freed n = s.freed n := rfl

omit [DecidableEq ι]

@[grind =] theorem slots_setSlot : (s.setSlot k slot).slots j = if j = k then slot else s.slots j :=
  Function.update_apply ..

@[grind =] theorem tasks_setSlot : (s.setSlot k slot).tasks T = s.tasks T := rfl

@[grind =] theorem made_setSlot : (s.setSlot k slot).made = s.made := rfl

@[grind =] theorem slotOf_setSlot : (s.setSlot k slot).slotOf n = s.slotOf n := rfl

@[grind =] theorem destroys_setSlot : (s.setSlot k slot).destroys n = s.destroys n := rfl

@[grind =] theorem freed_setSlot : (s.setSlot k slot).freed n = s.freed n := rfl

end Updates

end Threads

def Sweep.Frees (kind : Sweep) (slot : SlotView ℕ) : Prop :=
  match kind with
  | .failed => slot.state = .failed
  | .silent => slot.state = .connected ∧ slot.sudp.isSome
  | .all => slot.state ≠ .free

def Sweep.Spares (kind : Sweep) (slot : SlotView ℕ) : Prop :=
  match kind with
  | .failed => slot.state ≠ .failed
  | .silent => True
  | .all => slot.state = .free

def Thread.Loops {ι : Type u} (T : Thread ι) : Prop := T = .sync ∨ T = .boot

def Threads.Starts {ι : Type u} (s : Threads ι) (T : Thread ι) : Prop :=
  s.tasks T = .idle ∧
    match T with
    | .sync | .boot => s.running = true
    | .caller _ => s.closed = false
    | .worker _ _ => False

inductive ThreadEvent (ι : Type u)
  | act (T : Thread ι)
  -- a slot is about to be freed, or its session to be destroyed
  | teardown (T : Thread ι) (k : Fin maxPeers)
  -- a session is taken out of its slot, to be used
  | take (T : Thread ι) (n : ℕ)
  -- a worker calls back
  | callback (n w : ℕ) (cb : Callback)

namespace Threads

open ThreadEvent

variable {ι : Type u} [DecidableEq ι]

inductive Step (s : Threads ι) : ThreadEvent ι → Threads ι → Prop
  -- `peer_connect`
  | claim (T : Thread ι) (k : Fin maxPeers) (peerId : PeerId) : T.Loops → s.Starts T → s.lock = none →
      slotFind s.slots peerId = none → slotAlloc s.slots = some k → Step s (act T) (s.claim T k peerId)
  | abandon (T : Thread ι) (k : Fin maxPeers) : s.tasks T = .claimed k →
      Step s (act T) (s.setTask T (.scrapped k))
  | create (T : Thread ι) (k : Fin maxPeers) : s.tasks T = .claimed k → Step s (act T) (s.create T k)
  | store (T : Thread ι) (k : Fin maxPeers) (n : ℕ) : s.tasks T = .creating k n →
      Step s (act T) ((s.setSession k (some n)).setTask T (.created k))
  | connect (T : Thread ι) (k : Fin maxPeers) (n : ℕ) : s.tasks T = .created k → (s.slots k).sudp = some n →
      Step s (take T n) (s.setTask T (.connecting k n))
  | connectNull (T : Thread ι) (k : Fin maxPeers) : s.tasks T = .created k → (s.slots k).sudp = none →
      Step s (act T) (s.setTask T (.refused k))
  | accepted (T : Thread ι) (k : Fin maxPeers) (n : ℕ) : s.tasks T = .connecting k n →
      Step s (act T) (s.setTask T .idle)
  | refused (T : Thread ι) (k : Fin maxPeers) (n : ℕ) : s.tasks T = .connecting k n →
      Step s (act T) (s.setTask T (.refused k))
  | scrap (T : Thread ι) (k : Fin maxPeers) (n : ℕ) : s.tasks T = .refused k → (s.slots k).sudp = some n →
      Step s (teardown T k) (s.destroy T .connect k n)
  | scrapNull (T : Thread ι) (k : Fin maxPeers) : s.tasks T = .refused k → (s.slots k).sudp = none →
      Step s (teardown T k) (s.setTask T (.scrapped k))
  | discard (T : Thread ι) (k : Fin maxPeers) (n : ℕ) : s.tasks T = .scrapped k → (s.slots k).sudp = some n →
      Step s (teardown T k) (s.destroy T .slotFree k n)
  | discardNull (T : Thread ι) (k : Fin maxPeers) : s.tasks T = .scrapped k → (s.slots k).sudp = none →
      Step s (teardown T k) ((s.clear k).setTask T .idle)
  -- `yumi_sudp_client_destroy` returns when it has joined the workers of the session
  | destroyed (T : Thread ι) (who : Destroyer) (k : Fin maxPeers) (n : ℕ) : s.tasks T = .destroying who k n →
      (∀ w, s.tasks (.worker n w) = .idle) → Step s (act T) (s.destroyed T who k n)
  -- the lock regions that send
  | lock (T : Thread ι) : T ≠ .boot → s.Starts T → s.lock = none → Step s (act T) (s.locked T .calls)
  | call (T : Thread ι) (k : Fin maxPeers) (n : ℕ) : s.tasks T = .calls → (s.slots k).state = .connected →
      (s.slots k).sudp = some n → Step s (take T n) (s.setTask T (.calling n))
  | called (T : Thread ι) (n : ℕ) : s.tasks T = .calling n → Step s (act T) (s.setTask T .calls)
  | unlock (T : Thread ι) : s.tasks T = .calls → Step s (act T) (s.unlocked T .idle)
  -- the lock regions that free slots
  | sweep (kind : Sweep) : s.Starts .sync → s.lock = none → kind ≠ .all →
      Step s (act .sync) (s.locked .sync (.sweeping kind (List.finRange maxPeers)))
  | sweepDestroy (T : Thread ι) (kind : Sweep) (k : Fin maxPeers) (rest : List (Fin maxPeers)) (n : ℕ) :
      s.tasks T = .sweeping kind (k :: rest) → kind.Frees (s.slots k) → (s.slots k).sudp = some n →
      Step s (teardown T k) (s.destroy T (.sweep kind rest) k n)
  | sweepClear (T : Thread ι) (kind : Sweep) (k : Fin maxPeers) (rest : List (Fin maxPeers)) :
      s.tasks T = .sweeping kind (k :: rest) → kind.Frees (s.slots k) → (s.slots k).sudp = none →
      Step s (teardown T k) ((s.clear k).setTask T (.sweeping kind rest))
  | sweepSkip (T : Thread ι) (kind : Sweep) (k : Fin maxPeers) (rest : List (Fin maxPeers)) :
      s.tasks T = .sweeping kind (k :: rest) → kind.Spares (s.slots k) →
      Step s (act T) (s.setTask T (.sweeping kind rest))
  | swept (T : Thread ι) (kind : Sweep) : s.tasks T = .sweeping kind [] → kind ≠ .all →
      Step s (act T) (s.unlocked T .idle)
  -- `yumi_client_send` and its variants
  | pick (i : ι) (peerId : PeerId) (n : ℕ) : s.Starts (.caller i) → s.lock = none →
      sessionOf s.slots peerId = some n → Step s (take (.caller i) n) (s.setTask (.caller i) (.picked n))
  | send (T : Thread ι) (n : ℕ) : s.tasks T = .picked n → Step s (act T) (s.setTask T (.sending n))
  | sent (T : Thread ι) (n : ℕ) : s.tasks T = .sending n → Step s (act T) (s.setTask T .idle)
  -- `sudp_state_cb` with FAILED, called by a send that finds the peer removed
  | sendFailed (T : Thread ι) (n : ℕ) : s.tasks T = .sending n ∨ s.tasks T = .calling n →
      Step s (act T) (s.setState (s.slotOf n) .failed)
  -- the callbacks of a session
  | enter (n w : ℕ) (cb : Callback) : s.Live n → s.tasks (.worker n w) = .idle →
      Step s (callback n w cb) (s.setTask (.worker n w) (.entered cb))
  | wantForward (n w : ℕ) : s.tasks (.worker n w) = .entered .forward →
      Step s (act (.worker n w)) (s.setTask (.worker n w) (.wanting .forward))
  | wantEstablished (n w : ℕ) : s.tasks (.worker n w) = .entered .established →
      Step s (act (.worker n w))
        ((s.setState (s.slotOf n) .connected).setTask (.worker n w) (.wanting .established))
  | forward (n w : ℕ) : s.tasks (.worker n w) = .wanting .forward → s.lock = none →
      Step s (act (.worker n w)) (s.locked (.worker n w) .calls)
  | established (n w : ℕ) : s.tasks (.worker n w) = .wanting .established → s.lock = none →
      s.duplicate (s.slotOf n) = false → Step s (act (.worker n w)) (s.setTask (.worker n w) .greeting)
  | duplicate (n w : ℕ) : s.tasks (.worker n w) = .wanting .established → s.lock = none →
      s.duplicate (s.slotOf n) = true →
      Step s (act (.worker n w)) ((s.setState (s.slotOf n) .failed).setTask (.worker n w) .idle)
  | failed (n w : ℕ) : s.Live n → s.tasks (.worker n w) = .idle →
      Step s (act (.worker n w)) (s.setState (s.slotOf n) .failed)
  -- `chunked_send` in a callback, over the session of the slot
  | reply (n w m : ℕ) : s.Live n → s.tasks (.worker n w) = .idle ∨ s.tasks (.worker n w) = .greeting →
      (s.slots (s.slotOf n)).state = .connected → (s.slots (s.slotOf n)).sudp = some m →
      Step s (take (.worker n w) m) (s.setTask (.worker n w) (.sending m))
  | greeted (n w : ℕ) : s.tasks (.worker n w) = .greeting →
      Step s (act (.worker n w)) (s.setTask (.worker n w) .idle)
  -- `yumi_client_destroy`
  | stop (i : ι) : s.Starts (.caller i) → s.running = true →
      Step s (act (.caller i)) ({ s with running := false }.setTask (.caller i) .stopping)
  | sweepAll (i : ι) : s.tasks (.caller i) = .stopping → s.tasks .sync = .idle → s.tasks .boot = .idle →
      s.lock = none → Step s (act (.caller i)) (s.locked (.caller i) (.sweeping .all (List.finRange maxPeers)))
  | close (i : ι) : s.tasks (.caller i) = .sweeping .all [] →
      Step s (act (.caller i)) ({ s with closed := true }.unlocked (.caller i) .idle)

end Threads

def threads (ι : Type u) [DecidableEq ι] : System (Threads ι) (ThreadEvent ι) where
  init s := s = .started
  step := Threads.Step

section Dialed

/-! A session that the sync thread makes, and that is ESTABLISHED. -/

namespace Threads

open ThreadEvent

variable {ι : Type u} [DecidableEq ι] {s t : Threads ι} {ok : Threads ι → ThreadEvent ι → Prop}

theorem reachable_next (hs : ((threads ι).restrict ok).Reachable s) {event : ThreadEvent ι}
    (hok : ok s event) (hstep : Step s event t) : ((threads ι).restrict ok).Reachable t :=
  hs.step ⟨hok, hstep⟩

def Calm (s : Threads ι) : Prop := ∀ T who k n, s.tasks T ≠ .destroying who k n

theorem Calm.setTask (h : s.Calm) (htasks : t.tasks = s.tasks) (T : Thread ι) {task : Task}
    (htask : ∀ who k n, task ≠ .destroying who k n) : (t.setTask T task).Calm := by
  intro T' who k n
  change Function.update t.tasks T task T' ≠ _
  by_cases hT : T' = T
  · rw [hT, Function.update_self]
    exact htask who k n
  · rw [Function.update_of_ne hT, htasks]
    exact h T' who k n

def dialing (peerId : PeerId) : Threads ι :=
  (((started.claim .sync 0 peerId).create .sync 0).setSession 0 (some 0)).setTask .sync (.created 0)

def connecting (peerId : PeerId) : Threads ι :=
  ((dialing peerId).setTask .sync (.connecting 0 0)).setTask .sync .idle

def establishing (peerId : PeerId) : Threads ι :=
  (((connecting peerId).setTask (.worker 0 0) (.entered .established)).setState 0 .connected).setTask
    (.worker 0 0) (.wanting .established)

def dialed (peerId : PeerId) : Threads ι :=
  ((establishing peerId).setTask (.worker 0 0) .greeting).setTask (.worker 0 0) .idle

def Free (ok : Threads ι → ThreadEvent ι → Prop) : Prop :=
  ∀ s, Calm s → (∀ T, ok s (act T)) ∧ (∀ T n, ok s (take T n)) ∧ ∀ n w cb, ok s (callback n w cb)

theorem slotFind_free (peerId : PeerId) :
    slotFind (fun _ => (⟨zeroBytes 32, .free, none⟩ : SlotView ℕ)) peerId = none := by
  simp [slotFind]

theorem slotAlloc_free : slotAlloc (fun _ => (⟨zeroBytes 32, .free, none⟩ : SlotView ℕ)) = some 0 := rfl

theorem dialing_reachable (hok : Free ok) (peerId : PeerId) :
    ((threads ι).restrict ok).Reachable (dialing peerId) ∧ (dialing peerId : Threads ι).Calm := by
  have hcalm : (started : Threads ι).Calm := fun _ _ _ _ => Task.noConfusion
  have hclaim := reachable_next (.init rfl) ((hok _ hcalm).1 .sync)
    (Step.claim .sync 0 peerId (.inl rfl) ⟨rfl, rfl⟩ rfl (slotFind_free peerId) slotAlloc_free)
  have hcalm₁ : ((started : Threads ι).claim .sync 0 peerId).Calm :=
    hcalm.setTask rfl _ fun _ _ _ => Task.noConfusion
  have hcreate := reachable_next hclaim ((hok _ hcalm₁).1 .sync) (Step.create .sync 0 rfl)
  have hcalm₂ : (((started : Threads ι).claim .sync 0 peerId).create .sync 0).Calm :=
    hcalm₁.setTask rfl _ fun _ _ _ => Task.noConfusion
  have hstore := reachable_next hcreate ((hok _ hcalm₂).1 .sync)
    (Step.store .sync 0 0 rfl)
  exact ⟨hstore, hcalm₂.setTask rfl _ fun _ _ _ => Task.noConfusion⟩

theorem connecting_reachable (hok : Free ok) (peerId : PeerId) :
    ((threads ι).restrict ok).Reachable (connecting peerId) ∧ (connecting peerId : Threads ι).Calm := by
  obtain ⟨hs, hcalm⟩ := dialing_reachable (ι := ι) hok peerId
  have hconnect := reachable_next hs ((hok _ hcalm).2.1 .sync 0)
    (Step.connect .sync 0 0 rfl rfl)
  have hcalm₁ : ((dialing peerId : Threads ι).setTask .sync (.connecting 0 0)).Calm :=
    hcalm.setTask rfl _ fun _ _ _ => Task.noConfusion
  have haccepted := reachable_next hconnect ((hok _ hcalm₁).1 .sync)
    (Step.accepted .sync 0 0 rfl)
  exact ⟨haccepted, hcalm₁.setTask rfl _ fun _ _ _ => Task.noConfusion⟩

theorem establishing_reachable (hok : Free ok) (peerId : PeerId) :
    ((threads ι).restrict ok).Reachable (establishing peerId) ∧ (establishing peerId : Threads ι).Calm := by
  obtain ⟨hs, hcalm⟩ := connecting_reachable (ι := ι) hok peerId
  have henter := reachable_next hs ((hok _ hcalm).2.2 0 0 .established)
    (Step.enter 0 0 .established ⟨Nat.zero_lt_one, rfl⟩ rfl)
  have hcalm₁ : ((connecting peerId : Threads ι).setTask (.worker 0 0) (.entered .established)).Calm :=
    hcalm.setTask rfl _ fun _ _ _ => Task.noConfusion
  have hwant := reachable_next henter ((hok _ hcalm₁).1 (.worker 0 0))
    (Step.wantEstablished 0 0 rfl)
  exact ⟨hwant, hcalm₁.setTask rfl _ fun _ _ _ => Task.noConfusion⟩

theorem alone_establishing (peerId : PeerId) : (establishing peerId : Threads ι).duplicate 0 = false := by
  unfold duplicate
  rw [List.any_eq_false]
  intro j _
  by_cases hj : j = 0
  · simp [hj]
  · simp [hj, establishing, connecting, dialing, setState, setSession, setSlot, setTask, create, claim, started]

theorem dialed_reachable (hok : Free ok) (peerId : PeerId) :
    ((threads ι).restrict ok).Reachable (dialed peerId) ∧ (dialed peerId : Threads ι).Calm := by
  obtain ⟨hs, hcalm⟩ := establishing_reachable (ι := ι) hok peerId
  have hestablished := reachable_next hs ((hok _ hcalm).1 (.worker 0 0))
    (Step.established 0 0 rfl rfl (alone_establishing peerId))
  have hcalm₁ : ((establishing peerId : Threads ι).setTask (.worker 0 0) .greeting).Calm :=
    hcalm.setTask rfl _ fun _ _ _ => Task.noConfusion
  have hgreeted := reachable_next hestablished ((hok _ hcalm₁).1 (.worker 0 0))
    (Step.greeted 0 0 rfl)
  exact ⟨hgreeted, hcalm₁.setTask rfl _ fun _ _ _ => Task.noConfusion⟩

end Threads

end Dialed

end YumiBrowser.Client
