import YumiBrowser.Library.System
import YumiBrowser.Registrar.Retention

namespace YumiBrowser.Client

open Wire YumiBrowser.Group Transition

inductive SyncMsg
  | version (v : BitVec 32)
  | deltaReq (since : BitVec 32)
  | delta (data : List Byte)

structure SyncEnd where
  reg : Registrar
  lastBroadcastVer : BitVec 32
  connected : Bool
  remoteVersion : BitVec 32

namespace SyncEnd

def version (c : SyncEnd) : BitVec 32 := c.reg.header.version

def sendVersion (c : SyncEnd) : List SyncMsg := if c.connected then [.version c.version] else []

def requestDelta (c : SyncEnd) : List SyncMsg := if c.connected then [.deltaReq c.version] else []

def sendDeltaTo (c : SyncEnd) (since : BitVec 32) : List SyncMsg :=
  if c.connected then [.delta (serializeDelta c.reg since)] else []

def broadcastDelta (c : SyncEnd) (since : BitVec 32) : List SyncMsg :=
  if c.remoteVersion < since ∨ c.remoteVersion = 0 then c.sendDeltaTo c.remoteVersion else []

/-- `sync_handle`: what is left of the client, and what it sends back. -/
def handle (crypto : Crypto) (c : SyncEnd) (now : I64) : SyncMsg → SyncEnd × List SyncMsg
  | .version v =>
    let c := { c with remoteVersion := v }
    (c, if v > c.version then c.requestDelta else if v < c.version then c.sendDeltaTo v else [])
  | .deltaReq since => (c, c.sendDeltaTo since)
  | .delta data =>
    match applyDelta crypto c.reg data now with
    | .ok (reg, result) =>
      ({ c with
        reg
        lastBroadcastVer := if 0 < result.entriesNew then reg.header.version else c.lastBroadcastVer },
        [])
    | .error _ => (c, [])

/-- The first step of a round of `sync_worker`. -/
def poll (c : SyncEnd) : SyncEnd × List SyncMsg :=
  if c.version > c.lastBroadcastVer then
    ({ c with lastBroadcastVer := c.version }, c.broadcastDelta c.lastBroadcastVer)
  else (c, [])

/-- The session is `ESTABLISHED`: each end tells its version. -/
def establish (c : SyncEnd) : SyncEnd × List SyncMsg :=
  ({ c with connected := true }, { c with connected := true }.sendVersion)

def slotFree (c : SyncEnd) : SyncEnd := { c with connected := false, remoteVersion := 0 }

end SyncEnd

structure Pair where
  client : Bool → SyncEnd
  inbox : Bool → List SyncMsg
  made : List AuditEntry

inductive SyncEvent
  | mutate (i : Bool) (m : Mutation) (clk : Clock)
  | establish (i : Bool)
  | handle (i : Bool) (now : I64)
  | poll (i : Bool)
  -- A message that cannot be sent, or that the receiver gives up to put together.
  | lose (i : Bool)
  -- The session ends, and what is on its way with it.
  | disconnect

namespace Pair

def setClient (s : Pair) (i : Bool) (c : SyncEnd) : Pair :=
  { s with client := Function.update s.client i c }

def setInbox (s : Pair) (i : Bool) (msgs : List SyncMsg) : Pair :=
  { s with inbox := Function.update s.inbox i msgs }

/-- One end acts: it goes on as `c.1`, and `c.2` is on its way to the other. -/
def act (s : Pair) (i : Bool) (c : SyncEnd × List SyncMsg) : Pair :=
  (s.setClient i c.1).setInbox (!i) (s.inbox (!i) ++ c.2)

def adopt (s : Pair) (i : Bool) (reg : Registrar) : Pair :=
  { s.setClient i { s.client i with reg } with
    made := (reg.auditLog.rows.filter fun e => e ∉ (s.client i).reg.auditLog.rows) ++ s.made }

def next (crypto : Crypto) (s : Pair) : SyncEvent → Pair
  | .mutate i m clk =>
    match m.run crypto (s.client i).reg clk with
    | .ok reg => s.adopt i reg
    | .error _ => s
  | .establish i => s.act i (s.client i).establish
  | .handle i now =>
    match s.inbox i with
    | msg :: rest => (s.setInbox i rest).act i ((s.client i).handle crypto now msg)
    | [] => s
  | .poll i => s.act i (s.client i).poll
  | .lose i => s.setInbox i (s.inbox i).tail
  | .disconnect => { s with client := fun i => (s.client i).slotFree, inbox := fun _ => [] }

variable {crypto : Crypto} {s : Pair} {i : Bool}

theorem next_mutate_ok {m : Mutation} (h : m.run crypto (s.client i).reg clk = .ok reg) :
    s.next crypto (.mutate i m clk) = s.adopt i reg := by
  simp only [next, h]

theorem next_mutate_error {m : Mutation} (h : m.run crypto (s.client i).reg clk = .error err) :
    s.next crypto (.mutate i m clk) = s := by
  simp only [next, h]

theorem next_handle_nil (h : s.inbox i = []) : s.next crypto (.handle i now) = s := by
  simp only [next, h]

theorem next_handle_cons (h : s.inbox i = msg :: rest) : s.next crypto (.handle i now) =
    (s.setInbox i rest).act i ((s.client i).handle crypto now msg) := by
  simp only [next, h]

def Enabled (s : Pair) : SyncEvent → Prop
  | .establish i => (s.client i).connected = false
  | _ => True

instance (s : Pair) (e : SyncEvent) : Decidable (s.Enabled e) := by
  cases e <;> unfold Enabled <;> infer_instance

/-- No sync message is in flight, and none is due. -/
structure Quiet (s : Pair) : Prop where
  connected : ∀ i, (s.client i).connected = true
  delivered : ∀ i, s.inbox i = []
  broadcast : ∀ i, (s.client i).version ≤ (s.client i).lastBroadcastVer

/-- Where nothing is on its way any more and the versions are equal, so are the logs. -/
def Agrees (s : Pair) : Prop := s.Quiet → (s.client true).version = (s.client false).version →
  ∀ e, e ∈ (s.client true).reg.auditLog.rows ↔ e ∈ (s.client false).reg.auditLog.rows

/-- Both have the registrar that `gr_create` made, and are not connected yet. -/
structure Starts (crypto : Crypto) (s : Pair) : Prop where
  created : FromCreate crypto fun i => (s.client i).reg
  broadcast : ∀ i, (s.client i).lastBroadcastVer = (s.client i).version
  apart : ∀ i, (s.client i).connected = false ∧ (s.client i).remoteVersion = 0
  idle : ∀ i, s.inbox i = []
  made : s.made = (s.client true).reg.auditLog.rows

end Pair

def syncSystem (crypto : Crypto) : System Pair SyncEvent where
  init s := s.Starts crypto
  step s e t := s.Enabled e ∧ t = s.next crypto e

end YumiBrowser.Client
