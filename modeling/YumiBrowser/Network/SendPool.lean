import YumiBrowser.Library.ByteCodec
import YumiBrowser.Library.RingBuffer
import YumiBrowser.Network.RingRuns

universe u v

namespace YumiBrowser.Udp

open Transition Wire

namespace WorkRing

variable {ι : Type v} {α : Type u} [DecidableEq ι] {s t : WorkRing ι α} {e : Event ι}

def queue (s : WorkRing ι α) : ReservedQueue α := ⟨s.reserved, s.committed, s.consumed.length⟩

theorem queue_move (h : s.Inv) (hstep : Step s e t) : ReservedQueue.Move s.queue t.queue := by
  have hfits := h.consumer
  have take (tail : BitVec 64) (how : TakeOp) (hc : s.consumer = .found how tail) :
      ∃ x, s.queue.front = some x := by
    rw [hc] at hfits
    obtain ⟨-, hlength, hsome⟩ := hfits
    rw [← hlength] at hsome
    exact Option.isSome_iff_exists.mp hsome
  have taken (idx : ℕ) (tail : BitVec 64) : (s.take idx tail).queue = s.queue.take := by
    simp [WorkRing.take, queue, ReservedQueue.take]
  cases hstep with
  | exchange i => exact .reserve
  | commit i hp =>
    obtain ⟨-, -, hlt, hnone⟩ := h.holding _ _ _ _ _ hp
    exact .fill _ _ hlt hnone
  | pop hc =>
    obtain ⟨x, hx⟩ := take _ _ hc
    exact taken _ _ ▸ .take x hx
  | process hc =>
    obtain ⟨x, hx⟩ := take _ _ hc
    exact taken _ _ ▸ .take x hx
  | _ => exact .stay

end WorkRing

/-- `yumi_work_type_t`, without the packets that go to the rings for ACKs. -/
inductive WorkType
  | sendUnreliable
  | sendReliable
  | shutdown
  | userCb
  deriving DecidableEq

structure WorkItem where
  type : WorkType
  channel : BitVec 8
  dest : Option (List Byte)
  data : List Byte
  deriving DecidableEq

/-- A work item with the thread that enqueued it, and how many that thread had enqueued before. -/
structure Ticket (ι : Type u) where
  thread : ι
  number : ℕ
  work : WorkItem

/-- How far a thread is with `enqueue_work`. -/
inductive Caller
  | idle
  | picked (wid : ℕ) (work : WorkItem)
  | holding (wid place : ℕ) (work : WorkItem)

/-- An item that a worker has sent, with the value it took from the counter of the channel; the packet has
the low 32 bits of it. -/
structure Sent (ι : Type u) where
  worker : ℕ
  ticket : Ticket ι
  seq : ℕ

/-- The rings of a client, the threads that fill them, and what the workers have sent. The counters are those
of `rel_seq` and `unrel_seq`, not reduced. -/
structure SendPool (ι : Type u) where
  sendRr : BitVec 64
  rings : ℕ → ReservedQueue (Ticket ι)
  callers : ι → Caller
  enqueued : ι → ℕ
  relSeq : BitVec 8 → ℕ
  unrelSeq : BitVec 8 → ℕ
  stopped : ℕ → Bool
  sent : List (Sent ι)

def udpMaxPayload : ℕ := 1442

def numSendWorkers (configured : ℕ) : ℕ := if 0 < configured then configured else 1

namespace SendPool

variable {ι : Type u} [DecidableEq ι]

-- The round robin is one for all clients.
def create (sendRr : BitVec 64) : SendPool ι where
  sendRr := sendRr
  rings _ := .empty
  callers _ := .idle
  enqueued _ := 0
  relSeq _ := 0
  unrelSeq _ := 0
  stopped _ := false
  sent := []

def setCaller (s : SendPool ι) (i : ι) (c : Caller) : SendPool ι :=
  { s with callers := Function.update s.callers i c }

def setRing (s : SendPool ι) (w : ℕ) (q : ReservedQueue (Ticket ι)) : SendPool ι :=
  { s with rings := Function.update s.rings w q }

/-- `enqueue_work` up to its choice of a ring. -/
def enqueueWork (s : SendPool ι) (workers maxPayload : ℕ) (i : ι) (work : WorkItem) : SendPool ι :=
  if maxPayload < work.data.length then s
  else { s with sendRr := s.sendRr + 1 }.setCaller i (.picked (s.sendRr.toNat % workers) work)

def commit (s : SendPool ι) (i : ι) (w place : ℕ) (work : WorkItem) : SendPool ι :=
  { (s.setRing w ((s.rings w).fill place ⟨i, s.enqueued i, work⟩)).setCaller i .idle with
    enqueued := Function.update s.enqueued i (s.enqueued i + 1) }

def sendWorkerProcessItem (s : SendPool ι) (w : ℕ) (ticket : Ticket ι) : SendPool ι :=
  if ticket.work.type = .sendReliable then
    { s with
      relSeq := Function.update s.relSeq ticket.work.channel (s.relSeq ticket.work.channel + 1)
      sent := s.sent ++ [⟨w, ticket, s.relSeq ticket.work.channel⟩] }
  else
    { s with
      unrelSeq := Function.update s.unrelSeq ticket.work.channel (s.unrelSeq ticket.work.channel + 1)
      sent := s.sent ++ [⟨w, ticket, s.unrelSeq ticket.work.channel⟩] }

def drain (s : SendPool ι) (w : ℕ) (ticket : Ticket ι) : SendPool ι :=
  match ticket.work.type with
  | .shutdown => { s with stopped := Function.update s.stopped w true }
  | .userCb => s.setRing w (s.rings w).take
  | .sendUnreliable | .sendReliable => (s.sendWorkerProcessItem w ticket).setRing w (s.rings w).take

inductive Event (ι : Type u)
  | call (i : ι)
  | elsewhere
  | post (i : ι)
  | destroy (i : ι) (w : ℕ)
  | reserve (i : ι)
  | giveUp (i : ι)
  | commit (i : ι)
  | drain (w : ℕ)

/-- The steps of the threads and of the workers, each at its own pace: whether a worker has credit to send is
left open. -/
inductive Step (workers maxPayload : ℕ) : SendPool ι → Event ι → SendPool ι → Prop
  | call (i : ι) (work : WorkItem) : s.callers i = .idle →
      work.type = .sendReliable ∨ work.type = .sendUnreliable →
      Step workers maxPayload s (.call i) (s.enqueueWork workers maxPayload i work)
  -- a thread enqueues to another client
  | elsewhere : Step workers maxPayload s .elsewhere { s with sendRr := s.sendRr + 1 }
  | post (i : ι) (data : List Byte) : s.callers i = .idle → data.length ≤ udpMaxPayload →
      Step workers maxPayload s (.post i) (s.setCaller i (.picked 0 ⟨.userCb, 0, none, data⟩))
  | destroy (i : ι) (w : ℕ) : s.callers i = .idle → w < workers →
      Step workers maxPayload s (.destroy i w) (s.setCaller i (.picked w ⟨.shutdown, 0, none, []⟩))
  | reserve (i : ι) : s.callers i = .picked w work → (s.rings w).reserved < (s.rings w).taken + ringCapacity →
      Step workers maxPayload s (.reserve i)
        ((s.setRing w (s.rings w).reserve).setCaller i (.holding w (s.rings w).reserved work))
  | giveUp (i : ι) : s.callers i = .picked w work → (s.rings w).taken + ringCapacity ≤ (s.rings w).reserved →
      Step workers maxPayload s (.giveUp i) (s.setCaller i .idle)
  | commit (i : ι) : s.callers i = .holding w place work →
      Step workers maxPayload s (.commit i) (s.commit i w place work)
  | drain (w : ℕ) : w < workers → s.stopped w = false → (s.rings w).front = some ticket →
      Step workers maxPayload s (.drain w) (s.drain w ticket)

end SendPool

def sendSystem (ι : Type u) [DecidableEq ι] (workers maxPayload : ℕ) : System (SendPool ι) (SendPool.Event ι) where
  init s := ∃ sendRr, s = .create sendRr
  step := SendPool.Step workers maxPayload

end YumiBrowser.Udp
