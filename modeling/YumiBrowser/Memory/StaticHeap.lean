import YumiBrowser.Library.LinkedLists
import YumiBrowser.Library.System

universe u v

namespace YumiBrowser.StaticHeap

open Transition Links

def tlsCacheSize : ℕ := 64

def refillBatch : ℕ := 32

def maxThreads : ℕ := 64

theorem maxThreads_pos : 0 < maxThreads := by decide

/-- Between two calls, at a step of `recovery_pop_any`, at a step of `recovery_push`, by a release or
by the destructor (`flush`), or after the exit. -/
inductive Phase (ν : Type u)
  | idle
  | probing (probe : ℕ)
  | holding (probe : ℕ) (head : ν)
  | swapping (probe : ℕ) (head : ν) (next : Option ν)
  | pushing (flush : Bool) (item : ν)
  | linking (flush : Bool) (item : ν) (expected : Option ν)
  | publishing (flush : Bool) (item : ν) (expected : Option ν)
  | gone

structure Thread (ν : Type u) where
  stack : List ν
  registered : Bool
  phase : Phase ν

/-- The pool, with the nodes that callers hold. -/
structure Heap (τ : Type v) (ν : Type u) where
  next : ν → Option ν
  head : Option ν
  globalCount : ℕ
  globalMtxOk : Bool
  recoverySlots : Fin maxThreads → Option ν
  thread : τ → Thread ν
  leased : List ν

inductive AllocError
  | internalError
  | unavailableMemory
  deriving DecidableEq

inductive Answer (ν : Type u)
  | leased (node : ν)
  | released
  | failed (e : AllocError)

/-- The checked and the `_ptr` variant of a release; `tssOk` and `lockOk` say how the calls of
`tss_set` and `mtx_lock` end, and a weak exchange may fail for no reason. -/
inductive Event (τ : Type v) (ν : Type u)
  | lease (t : τ) (tssOk lockOk : Bool)
  | release (t : τ) (node : ν) (checked tssOk lockOk : Bool)
  | advance (t : τ) (spurious : Bool)
  | exit (t : τ) (lockOk : Bool)

variable {τ : Type v} {ν : Type u} [DecidableEq τ] [DecidableEq ν]

def initStaticHeap (y : ℕ) : Heap τ (Fin y) where
  next := linkUp (fun _ => none) (List.finRange y) none
  head := (List.finRange y).head?
  globalCount := y
  globalMtxOk := true
  recoverySlots _ := none
  thread _ := { stack := [], registered := false, phase := .idle }
  leased := []

namespace Heap

variable (s : Heap τ ν) (t : τ)

def setThread (th : Thread ν) : Heap τ ν := { s with thread := Function.update s.thread t th }

def setPhase (phase : Phase ν) : Heap τ ν := s.setThread t { s.thread t with phase }

omit [DecidableEq τ] [DecidableEq ν] in
def lockGlobal (lockOk : Bool) : Bool := s.globalMtxOk && lockOk

def ensureTls (tssOk : Bool) : Option (Heap τ ν) :=
  if (s.thread t).registered || tssOk then some (s.setThread t { s.thread t with registered := true })
  else none

/-- The mutex section of `refill_from_global`, for a global list that starts with `head`. -/
def takeBatch (head : ν) : Heap τ ν × Option (Answer ν) :=
  let wantInTls := max 1 (min refillBatch ((s.globalCount + 1) / 2)) - 1
  let stored := passed s.next wantInTls head
  let cur := stop s.next wantInTls head
  ({ s.setThread t { s.thread t with stack := stored } with
      head := s.next cur
      globalCount := s.globalCount - (stored.length + 1)
      leased := cur :: s.leased },
    some (.leased cur))

def refillFromGlobal (tssOk lockOk : Bool) : Heap τ ν × Option (Answer ν) :=
  match s.ensureTls t tssOk with
  | none => (s, some (.failed .internalError))
  | some s' =>
    match if s'.lockGlobal lockOk then s'.head else none with
    | some head => s'.takeBatch t head
    | none => (s'.setPhase t (.probing 0), none)

def lease (tssOk lockOk : Bool) : Heap τ ν × Option (Answer ν) :=
  match (s.thread t).stack.getLast? with
  | some item =>
    ({ s.setThread t { s.thread t with stack := (s.thread t).stack.dropLast } with
        leased := item :: s.leased },
      some (.leased item))
  | none => s.refillFromGlobal t tssOk lockOk

/-- The mutex section of `spill_to_global`: the lower half of the stack goes to the global list. -/
def spill (item : ν) : Heap τ ν :=
  let half := tlsCacheSize / 2
  let stack := (s.thread t).stack
  { s.setThread t { s.thread t with stack := stack.drop half ++ [item] } with
    next := linkUp s.next (stack.take half) s.head
    head := (stack.take half).head?
    globalCount := s.globalCount + half
    leased := s.leased.erase item }

def spillToGlobal (item : ν) (lockOk : Bool) : Heap τ ν × Option (Answer ν) :=
  if s.lockGlobal lockOk then (s.spill t item, some .released)
  else (s.setPhase t (.pushing false item), none)

def keep (item : ν) : Heap τ ν :=
  { s.setThread t { s.thread t with stack := (s.thread t).stack ++ [item] } with
    leased := s.leased.erase item }

def releasePtr (item : ν) (lockOk : Bool) : Heap τ ν × Option (Answer ν) :=
  if (s.thread t).stack.length < tlsCacheSize then (s.keep t item, some .released)
  else s.spillToGlobal t item lockOk

def release (item : ν) (tssOk lockOk : Bool) : Heap τ ν × Option (Answer ν) :=
  match s.ensureTls t tssOk with
  | none => (s, some (.failed .internalError))
  | some s' => s'.releasePtr t item lockOk

def probeNext (probe : ℕ) : Heap τ ν × Option (Answer ν) :=
  if probe + 1 < maxThreads then (s.setPhase t (.probing (probe + 1)), none)
  else
    (s.setPhase t .idle,
      some (.failed (if s.globalMtxOk then .unavailableMemory else .internalError)))

def look (probe : ℕ) : Option ν → Heap τ ν × Option (Answer ν)
  | some head => (s.setPhase t (.holding probe head), none)
  | none => s.probeNext t probe

def popSlot (k : Fin maxThreads) (head : ν) (next : Option ν) : Heap τ ν :=
  { s.setPhase t .idle with
    recoverySlots := Function.update s.recoverySlots k next
    leased := head :: s.leased }

def pushReleased (k : Fin maxThreads) (item : ν) : Heap τ ν :=
  { s.setPhase t .idle with
    recoverySlots := Function.update s.recoverySlots k (some item)
    leased := s.leased.erase item }

def pushFlushed (k : Fin maxThreads) (item : ν) : Heap τ ν :=
  let stack := (s.thread t).stack.tail
  { s.setThread t { s.thread t with
      stack, phase := (stack.head?.map (Phase.pushing true)).getD .gone } with
    recoverySlots := Function.update s.recoverySlots k (some item) }

def setNext (flush : Bool) (item : ν) (expected : Option ν) : Heap τ ν :=
  { s.setPhase t (.publishing flush item expected) with next := Function.update s.next item expected }

variable (recoveryIndex : τ → Fin maxThreads)

omit [DecidableEq τ] [DecidableEq ν] in
def slotAt (recoveryIndex : τ → Fin maxThreads) (t : τ) (probe : ℕ) : Fin maxThreads :=
  ⟨((recoveryIndex t).val + probe) % maxThreads, Nat.mod_lt _ maxThreads_pos⟩

def advance (spurious : Bool) : Heap τ ν × Option (Answer ν) :=
  match (s.thread t).phase with
  | .idle | .gone => (s, none)
  | .probing probe => s.look t probe (s.recoverySlots (slotAt recoveryIndex t probe))
  | .holding probe head => (s.setPhase t (.swapping probe head (s.next head)), none)
  | .swapping probe head next =>
    let k := slotAt recoveryIndex t probe
    if s.recoverySlots k = some head ∧ spurious = false then
      (s.popSlot t k head next, some (.leased head))
    else s.look t probe (s.recoverySlots k)
  | .pushing flush item =>
    (s.setPhase t (.linking flush item (s.recoverySlots (recoveryIndex t))), none)
  | .linking flush item expected => (s.setNext t flush item expected, none)
  | .publishing flush item expected =>
    let k := recoveryIndex t
    if s.recoverySlots k = expected ∧ spurious = false then
      if flush then (s.pushFlushed t k item, none) else (s.pushReleased t k item, some .released)
    else (s.setPhase t (.linking flush item (s.recoverySlots k)), none)

/-- The mutex section of `tls_flush`. -/
def flush : Heap τ ν :=
  let stack := (s.thread t).stack
  { s.setThread t { s.thread t with stack := [], phase := .gone } with
    next := linkUp s.next stack s.head
    head := stack.head?.or s.head
    globalCount := s.globalCount + stack.length }

/-- `tls_flush` without the mutex, up to its first push. -/
def flushByPush (item : ν) : Heap τ ν :=
  let stack := (s.thread t).stack
  { s.setPhase t (.pushing true item) with
    next := linkUp s.next stack (stack.getLast?.bind s.next) }

def exit (lockOk : Bool) : Heap τ ν :=
  match (s.thread t).stack.head? with
  | some item =>
    if (s.thread t).registered then
      if s.lockGlobal lockOk then s.flush t else s.flushByPush t item
    else s.setThread t { s.thread t with stack := [], phase := .gone }
  | none => s.setPhase t .gone

def step : Event τ ν → Heap τ ν × Option (Answer ν)
  | .lease t tssOk lockOk => s.lease t tssOk lockOk
  | .release t item checked tssOk lockOk =>
    if checked then s.release t item tssOk lockOk else s.releasePtr t item lockOk
  | .advance t spurious => s.advance t recoveryIndex spurious
  | .exit t lockOk => (s.exit t lockOk, none)

end Heap

section Cases

variable {s s' : Heap τ ν} {t : τ} {tssOk lockOk : Bool} {w : Thread ν}

omit [DecidableEq ν] in
@[simp] theorem setThread_self : (s.setThread t w).thread t = w := Function.update_self ..

omit [DecidableEq ν] in
theorem ensureTls_eq (h : s.ensureTls t tssOk = some s') :
    s' = s.setThread t { s.thread t with registered := true } := by
  unfold Heap.ensureTls at h
  split at h
  · exact (Option.some.inj h).symm
  · cases h

omit [DecidableEq ν] in
theorem refill_cases (s : Heap τ ν) (t : τ) (tssOk lockOk : Bool) :
    s.refillFromGlobal t tssOk lockOk = (s, some (.failed .internalError)) ∨
      ∃ s', s.ensureTls t tssOk = some s' ∧
        ((∃ head, s'.head = some head ∧ s.refillFromGlobal t tssOk lockOk = s'.takeBatch t head) ∨
          (s'.lockGlobal lockOk = true → s'.head = none) ∧
            s.refillFromGlobal t tssOk lockOk = (s'.setPhase t (.probing 0), none)) := by
  unfold Heap.refillFromGlobal
  cases htls : s.ensureTls t tssOk with
  | none => exact .inl rfl
  | some s' =>
    refine .inr ⟨s', rfl, ?_⟩
    simp only
    cases hlock : s'.lockGlobal lockOk with
    | false => exact .inr ⟨fun h => absurd h Bool.false_ne_true, rfl⟩
    | true =>
      cases hhead : s'.head with
      | none => exact .inr ⟨fun _ => rfl, rfl⟩
      | some head => exact .inl ⟨head, rfl, rfl⟩

end Cases

omit [DecidableEq ν] in
def Thread.carried? (th : Thread ν) : Option (Bool × ν) :=
  match th.phase with
  | .pushing flush item | .linking flush item _ | .publishing flush item _ => some (flush, item)
  | _ => none

def Event.Enabled (s : Heap τ ν) : Event τ ν → Prop
  | lease t _ _ => (s.thread t).phase = .idle
  | release t item _ _ _ => (s.thread t).phase = .idle ∧ item ∈ s.leased ∧
    ∀ t' flush, (s.thread t').carried? ≠ some (flush, item)
  | advance t _ => (s.thread t).phase ≠ .idle ∧ (s.thread t).phase ≠ .gone
  | exit t _ => (s.thread t).phase = .idle

def heapSystem (recoveryIndex : τ → Fin maxThreads) (y : ℕ) :
    System (Heap τ (Fin y)) (Event τ (Fin y)) :=
  System.machine (initStaticHeap y) (fun s e => e.Enabled s) fun s e => (s.step recoveryIndex e).1

end YumiBrowser.StaticHeap
