import YumiBrowser.Client.PeerSlots
import YumiBrowser.Library.LocalParsers

universe u

namespace YumiBrowser.Client

open Wire
open YumiBrowser.Group (PeerId)

def meshForward : Byte := 0x01

def meshMinTtl : Byte := 2

/-- `YUMI_MESH_RATE_BYTES_SEC` -/
def meshRate : ℤ := 10240

structure MeshPacket where
  ttl : Byte
  src : PeerId
  dst : PeerId
  innerCh : Byte
  payload : List Byte
  deriving DecidableEq

namespace MeshPacket

def wire (p : MeshPacket) : List Byte :=
  meshForward :: p.ttl :: (p.src.val ++ (p.dst.val ++ p.innerCh :: p.payload))

def parseIds (ttl : Byte) (rest : List Byte) : Option MeshPacket := do
  let (src, rest) ← (readBytes 32).run rest
  let (dst, rest) ← (readBytes 32).run rest
  match rest with
  | [] => none
  | innerCh :: payload => some ⟨ttl, src, dst, innerCh, payload⟩

/-- What `mesh_handle` reads; it drops what is too short or is no MESH_FORWARD. -/
def parse : List Byte → Option MeshPacket
  | type :: ttl :: rest => if type = meshForward then parseIds ttl rest else none
  | _ => none

variable {p : MeshPacket} {data : List Byte} {ttl : Byte}

theorem parse_wire (p : MeshPacket) : parse p.wire = some p := by
  simp [parse, wire, parseIds]

theorem parseIds_eq_some (h : parseIds ttl data = some p) :
    p.ttl = ttl ∧ data = p.src.val ++ (p.dst.val ++ p.innerCh :: p.payload) := by
  unfold parseIds at h
  cases hsrc : (readBytes 32).run data with
  | none => simp [hsrc] at h
  | some src =>
    cases hdst : (readBytes 32).run src.2 with
    | none => simp [hsrc, hdst] at h
    | some dst =>
      cases hrest : dst.2 with
      | nil => simp [hsrc, hdst, hrest] at h
      | cons innerCh payload =>
        simp only [hsrc, hdst, hrest, Option.bind_eq_bind, Option.bind_some, Option.some.injEq] at h
        rw [← h]
        exact ⟨rfl, by rw [readBytes_eq_some hsrc, readBytes_eq_some hdst, hrest]⟩

theorem wire_of_parse (h : parse data = some p) : data = p.wire := by
  cases data with
  | nil => exact nomatch h
  | cons type rest =>
    cases rest with
    | nil => exact nomatch h
    | cons ttl rest =>
      change (if type = meshForward then _ else _) = _ at h
      split at h
      · next htype =>
        obtain ⟨rfl, hrest⟩ := parseIds_eq_some h
        rw [wire, htype, hrest]
      · exact nomatch h

theorem parse_set (ttl : Byte) (h : parse data = some p) :
    parse (data.set 1 ttl) = some { p with ttl } := by
  obtain rfl := wire_of_parse h
  exact parse_wire { p with ttl }

end MeshPacket

/-- What a slot allows the peer behind it to have relayed. -/
structure Bucket where
  tokens : ℤ
  lastRefill : ℤ
  fwdBytes : ℕ

namespace Bucket

def created : Bucket := ⟨0, 0, 0⟩

/-- What `slot_free` leaves behind. -/
def freed : Bucket := ⟨meshRate, 0, 0⟩

def refill (b : Bucket) (now : ℤ) : Bucket :=
  let b := if b.lastRefill = 0 then { b with lastRefill := now } else b
  if 0 < now - b.lastRefill then
    { b with
      tokens := min (b.tokens + meshRate * (now - b.lastRefill) / 1000) meshRate
      lastRefill := now }
  else b

/-- `mesh_bucket_allow` -/
def meshBucketAllow (b : Bucket) (now : ℤ) (nbytes : ℕ) : Bucket × Bool :=
  let b := b.refill now
  if b.tokens < nbytes then (b, false) else ({ b with tokens := b.tokens - nbytes }, true)

def count (b : Bucket) (nbytes : ℕ) : Bucket × Bool :=
  if meshRate * 5 < b.fwdBytes + nbytes then ({ b with fwdBytes := 0 }, true)
  else ({ b with fwdBytes := b.fwdBytes + nbytes }, false)

structure Kept (b : Bucket) (clock : ℤ) : Prop where
  tokens : 0 ≤ b.tokens
  lastRefill : b.lastRefill ≤ clock
  full : b.lastRefill = 0 → b.tokens = meshRate

theorem kept_freed : freed.Kept 0 := ⟨by decide, le_rfl, fun _ => rfl⟩

variable {b : Bucket} {clock now : ℤ} {nbytes : ℕ}

theorem Kept.mono (h : b.Kept clock) (hle : clock ≤ now) : b.Kept now :=
  ⟨h.tokens, h.lastRefill.trans hle, h.full⟩

theorem Kept.refill (h : b.Kept clock) :
    b.refill (clock + 1000) = { b with tokens := meshRate, lastRefill := clock + 1000 } := by
  unfold Bucket.refill
  by_cases hnew : b.lastRefill = 0
  · simp [hnew, ← h.full hnew]
  · have hlast := h.lastRefill
    have htokens := h.tokens
    have helapsed : 0 < clock + 1000 - b.lastRefill := by omega
    have hfull : meshRate ≤ b.tokens + meshRate * (clock + 1000 - b.lastRefill) / 1000 := by
      change (10240 : ℤ) ≤ b.tokens + 10240 * (clock + 1000 - b.lastRefill) / 1000
      omega
    simp only [hnew, if_false, helapsed, if_true, min_eq_right hfull]

theorem Kept.allow (h : b.Kept clock) (hpos : 0 ≤ clock) (hsize : (nbytes : ℤ) ≤ meshRate) :
    (b.meshBucketAllow (clock + 1000) nbytes).2 = true ∧
      (b.meshBucketAllow (clock + 1000) nbytes).1.Kept (clock + 1000) := by
  unfold meshBucketAllow
  rw [h.refill, if_neg (not_lt.mpr hsize)]
  exact ⟨rfl, Int.sub_nonneg_of_le hsize, le_rfl, fun h0 => absurd h0 (by simp only; omega)⟩

theorem Kept.count (h : b.Kept clock) (nbytes : ℕ) : (b.count nbytes).1.Kept clock := by
  unfold Bucket.count
  split
  · exact ⟨h.tokens, h.lastRefill, h.full⟩
  · exact ⟨h.tokens, h.lastRefill, h.full⟩

end Bucket

/-- What all threads of a client see of a slot; `σ` are the sessions. -/
structure SlotView (σ : Type u) where
  peerId : PeerId
  state : SlotState
  sudp : Option σ

section Slots

variable {σ : Type u}

def SlotView.live (s : SlotView σ) : Bool := s.state = .connected ∧ s.sudp.isSome

variable (peers : Fin maxPeers → SlotView σ)

/-- `slot_find` -/
def slotFind (peerId : PeerId) : Option (Fin maxPeers) :=
  (List.finRange maxPeers).find? fun k => (peers k).state ≠ .free ∧ (peers k).peerId = peerId

/-- `slot_alloc` -/
def slotAlloc : Option (Fin maxPeers) := (List.finRange maxPeers).find? fun k => (peers k).state = .free

/-- The session that the senders of `yumi_client_send` and its variants find. -/
def sessionOf (peerId : PeerId) : Option σ :=
  (slotFind peers peerId).bind fun k => if (peers k).state = .connected then (peers k).sudp else none

end Slots

/-- What the mesh sees of a `yumi_client_t`. -/
structure MeshClient (σ : Type u) where
  peerId : PeerId
  peers : Fin maxPeers → SlotView σ

structure MeshSend where
  slot : Fin maxPeers
  data : List Byte

inductive MeshOutput
  -- `on_event` is called with YUMI_EVENT_MESH_ABUSE
  | abuse (peerId : PeerId)
  -- `on_message` is called
  | message (src : PeerId) (channel : Byte) (payload : List Byte) (reliable : Bool)
  | send (sent : MeshSend)

namespace MeshClient

variable {σ : Type u} (c : MeshClient σ)

/-- `count_connected` -/
def countConnected : ℕ :=
  (List.finRange maxPeers).countP fun k => (c.peers k).state = .connected

/-- `mesh_compute_ttl` -/
def meshComputeTtl : Byte :=
  let n := c.countConnected
  if n ≤ 2 then meshMinTtl
  else
    let bits := BitVec.ofNat 8 ((n - 1).log2 + 1)
    if bits < meshMinTtl then meshMinTtl else bits

def others (sender : Option (Fin maxPeers)) : List (Fin maxPeers) :=
  (List.finRange maxPeers).filter fun k => some k ≠ sender ∧ (c.peers k).live

/-- The direct route of `mesh_forward_to_peers`. -/
def directRoute (sender : Fin maxPeers) (dst : PeerId) : Option (Fin maxPeers) :=
  (c.others (some sender)).find? fun k => (c.peers k).peerId = dst

/-- `mesh_forward_to_peers` -/
def meshForwardToPeers (sender : Fin maxPeers) (dst : PeerId) (ttl : Byte) (data : List Byte) :
    List MeshSend :=
  match c.directRoute sender dst with
  | some k => [⟨k, data⟩]
  | none => if ttl = 0 then [] else (c.others (some sender)).map (⟨·, data.set 1 (ttl - 1)⟩)

/-- `mesh_handle`, for a packet that the bucket of its sender has let pass. -/
def dispatch (sender : Fin maxPeers) (p : MeshPacket) (data : List Byte) : List MeshOutput :=
  if p.dst = c.peerId then
    if userCh ≤ p.innerCh ∧ p.innerCh < attestCh then [.message p.src p.innerCh p.payload true] else []
  else if p.ttl = 0 then []
  else (c.meshForwardToPeers sender p.dst p.ttl data).map .send

/-- `mesh_handle`; `b` is the bucket of the slot `sender`. -/
def meshHandle (b : Bucket) (now : ℤ) (sender : Fin maxPeers) (data : List Byte) :
    Bucket × List MeshOutput :=
  match MeshPacket.parse data with
  | none => (b, [])
  | some p =>
    match b.meshBucketAllow now data.length with
    | (b, false) => (b, [])
    | (b, true) =>
      match b.count data.length with
      | (b, false) => (b, c.dispatch sender p data)
      | (b, true) => (b, .abuse (c.peers sender).peerId :: c.dispatch sender p data)

/-- The envelope of `mesh_relay_send`. -/
def envelope (dst : PeerId) (innerCh : Byte) (data : List Byte) : MeshPacket :=
  ⟨c.meshComputeTtl, c.peerId, dst, innerCh, data⟩

/-- `mesh_relay_send` -/
def meshRelaySend (dst : PeerId) (innerCh : Byte) (data : List Byte) : List MeshSend :=
  (c.others none).map (⟨·, (c.envelope dst innerCh data).wire⟩)

/-- `yumi_client_send_channel` comes to `mesh_relay_send`. -/
def Relays (dst : PeerId) (channel : Byte) : Prop :=
  userCh ≤ channel ∧ channel < attestCh ∧ (sessionOf c.peers dst).isNone

instance (dst : PeerId) (channel : Byte) : Decidable (c.Relays dst channel) :=
  inferInstanceAs (Decidable (_ ∧ _ ∧ _))

end MeshClient

end YumiBrowser.Client
