import Mathlib.Logic.Function.Basic
import YumiBrowser.Library.System

universe u v

namespace YumiBrowser.Udp

open Transition

variable {ι : Type v} {α : Type u}

def ringCapacity : ℕ := 4096

inductive RingOp (α : Type u)
  | push (item : α)
  | reserve
  | tryReserve

/-- How far a producer is with its call. What `holding` says of the slot beside its index is which
reservation it is, counted from 0, and whether anything has been written to it. -/
inductive Producer (α : Type u)
  | idle
  | sawHead (op : RingOp α) (head : BitVec 64)
  | sawRoom (op : RingOp α) (head : BitVec 64)
  | sawFull (op : RingOp α)
  | holding (op : RingOp α) (idx number : ℕ) (written : Bool)

inductive TakeOp
  | pop
  | peek

inductive Consumer
  | idle
  | sawTail (op : TakeOp) (tail : BitVec 64)
  | sawHead (op : TakeOp) (tail : BitVec 64)
  | found (op : TakeOp) (tail : BitVec 64)
  | taking (tail : BitVec 64)
  | cleared (tail : BitVec 64)

namespace RingOp

variable (op : RingOp α)

def onFull : Producer α :=
  match op with
  | tryReserve => .idle
  | push _ | reserve => .sawFull op

def onContention (head : BitVec 64) : Producer α :=
  match op with
  | tryReserve => .idle
  | push _ | reserve => .sawHead op head

-- A weak exchange may fail although it finds what it expects.
def weak : Prop :=
  match op with
  | tryReserve => False
  | push _ | reserve => True

def mayWrite (written : Bool) (x : α) : Prop :=
  match op with
  | push item => written = false ∧ x = item
  | reserve | tryReserve => True

def mayCommit (written : Bool) : Prop :=
  match op with
  | push _ => written = true
  | reserve | tryReserve => True

end RingOp

/-- The ring with the threads that use it, one step being one access to what they share. `reserved`
counts the reservations, `committed` is what was committed under each and `consumed` what was taken
out. -/
structure WorkRing (ι : Type v) (α : Type u) where
  head : BitVec 64
  tail : BitVec 64
  slots : ℕ → α
  ready : ℕ → Bool
  producers : ι → Producer α
  consumer : Consumer
  reserved : ℕ
  committed : ℕ → Option α
  consumed : List α

namespace WorkRing

def create (blank : α) : WorkRing ι α where
  head := 0
  tail := 0
  slots _ := blank
  ready _ := false
  producers _ := .idle
  consumer := .idle
  reserved := 0
  committed _ := none
  consumed := []

-- The capacity is a power of two, so the mask is the remainder.
def slotOf (word : BitVec 64) : ℕ := word.toNat % ringCapacity

variable [DecidableEq ι]

def setProducer (s : WorkRing ι α) (i : ι) (p : Producer α) : WorkRing ι α :=
  { s with producers := Function.update s.producers i p }

def setConsumer (s : WorkRing ι α) (c : Consumer) : WorkRing ι α := { s with consumer := c }

def reserve (s : WorkRing ι α) (i : ι) (op : RingOp α) : WorkRing ι α :=
  { s with
    head := s.head + 1
    producers := Function.update s.producers i (.holding op (slotOf s.head) s.reserved false)
    reserved := s.reserved + 1 }

def write (s : WorkRing ι α) (i : ι) (op : RingOp α) (idx number : ℕ) (x : α) : WorkRing ι α :=
  { s with
    slots := Function.update s.slots idx x
    producers := Function.update s.producers i (.holding op idx number true) }

def commit (s : WorkRing ι α) (i : ι) (idx number : ℕ) : WorkRing ι α :=
  { s with
    ready := Function.update s.ready idx true
    producers := Function.update s.producers i .idle
    committed := Function.update s.committed number (some (s.slots idx)) }

def take (s : WorkRing ι α) (idx : ℕ) (tail : BitVec 64) : WorkRing ι α :=
  { s with consumer := .taking tail, consumed := s.consumed ++ [s.slots idx] }

def clear (s : WorkRing ι α) (tail : BitVec 64) : WorkRing ι α :=
  { s with ready := Function.update s.ready (slotOf tail) false, consumer := .cleared tail }

def advance (s : WorkRing ι α) (tail : BitVec 64) : WorkRing ι α :=
  { s with tail := tail + 1, consumer := .idle }

inductive Event (ι : Type v)
  | call (i : ι)
  | loadTail (i : ι)
  | retry (i : ι)
  | giveUp (i : ι)
  | exchange (i : ι)
  | contend (i : ι)
  | write (i : ι)
  | commit (i : ι)
  | look
  | leave
  | take
  | clear
  | advance

inductive Step : WorkRing ι α → Event ι → WorkRing ι α → Prop
  | call (i : ι) (op : RingOp α) : s.producers i = .idle →
      Step s (.call i) (s.setProducer i (.sawHead op s.head))
  | room (i : ι) {seen : BitVec 64} : s.producers i = .sawHead op seen →
      (seen - s.tail).toNat < ringCapacity → Step s (.loadTail i) (s.setProducer i (.sawRoom op seen))
  | full (i : ι) {seen : BitVec 64} : s.producers i = .sawHead op seen →
      ringCapacity ≤ (seen - s.tail).toNat → Step s (.loadTail i) (s.setProducer i op.onFull)
  | retry (i : ι) : s.producers i = .sawFull op →
      Step s (.retry i) (s.setProducer i (.sawHead op s.head))
  | giveUp (i : ι) : s.producers i = .sawFull op → Step s (.giveUp i) (s.setProducer i .idle)
  | exchange (i : ι) : s.producers i = .sawRoom op s.head → Step s (.exchange i) (s.reserve i op)
  | contend (i : ι) {seen : BitVec 64} : s.producers i = .sawRoom op seen → s.head ≠ seen ∨ op.weak →
      Step s (.contend i) (s.setProducer i (op.onContention s.head))
  | write (i : ι) (x : α) : s.producers i = .holding op idx number written → op.mayWrite written x →
      Step s (.write i) (s.write i op idx number x)
  | commit (i : ι) : s.producers i = .holding op idx number written → op.mayCommit written →
      Step s (.commit i) (s.commit i idx number)
  | look (how : TakeOp) : s.consumer = .idle → Step s .look (s.setConsumer (.sawTail how s.tail))
  | empty {seen : BitVec 64} : s.consumer = .sawTail how seen → s.head ≤ seen →
      Step s .look (s.setConsumer .idle)
  | filled {seen : BitVec 64} : s.consumer = .sawTail how seen → seen < s.head →
      Step s .look (s.setConsumer (.sawHead how seen))
  | uncommitted {seen : BitVec 64} : s.consumer = .sawHead how seen → s.ready (slotOf seen) = false →
      Step s .look (s.setConsumer .idle)
  | found {seen : BitVec 64} : s.consumer = .sawHead how seen → s.ready (slotOf seen) = true →
      Step s .look (s.setConsumer (.found how seen))
  | leave {seen : BitVec 64} : s.consumer = .found .peek seen → Step s .leave (s.setConsumer .idle)
  | pop {seen : BitVec 64} : s.consumer = .found .pop seen → Step s .take (s.take (slotOf seen) seen)
  -- `yumi_ring_advance` reads the tail again
  | process {seen : BitVec 64} : s.consumer = .found .peek seen → Step s .take (s.take (slotOf seen) s.tail)
  | clear {seen : BitVec 64} : s.consumer = .taking seen → Step s .clear (s.clear seen)
  | advance {seen : BitVec 64} : s.consumer = .cleared seen → Step s .advance (s.advance seen)

/-- What `yumi_ring_peek` finds when nothing else runs. -/
def peek (s : WorkRing ι α) : Option α :=
  if s.head ≤ s.tail then none
  else if s.ready (slotOf s.tail) then some (s.slots (slotOf s.tail))
  else none

/-- The head is at the last number of its 64 bits, and the step takes it to 0. -/
def Wraps (s : WorkRing ι α) : Event ι → Prop
  | .exchange _ => s.head = BitVec.allOnes 64
  | _ => False

end WorkRing

def ringSystem [DecidableEq ι] (blank : α) : System (WorkRing ι α) (WorkRing.Event ι) where
  init s := s = .create blank
  step := WorkRing.Step

end YumiBrowser.Udp
