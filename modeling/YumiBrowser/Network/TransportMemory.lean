import YumiBrowser.Library.Blocks
import YumiBrowser.Network.IcePath

namespace YumiBrowser.Udp.Memory

open Wire Blocks
open YumiBrowser.Sudp (flagReliable flagAck flagProbe)

/-- `YUMI_UDP_MAX_PAYLOAD` -/
def payloadCap : ℕ := 1442

/-- `YUMI_UDP_MAX_CHANNELS` -/
def maxChannels : ℕ := 256

/-- `yumi_reorder_slot_t` -/
structure ReorderSlot where
  occupied : Bool
  seq : BitVec 32
  len : ℕ
  data : Block Byte payloadCap

def ReorderSlot.empty : ReorderSlot := ⟨false, 0, 0, .fill payloadCap 0⟩

/-- `deferred_send_t` -/
structure DeferredSend where
  channel : Byte
  seq : BitVec 32
  payloadLen : ℕ
  payload : Block Byte payloadCap

/-- The part of `yumi_udp_client_t` that a datagram changes, and what came of the datagrams so far: the calls of
`recv_cb`, the answers and the packets that were sent again. -/
structure Client (τ : Type) where
  recvRelStarted : Block Bool maxChannels
  recvRelNext : Block (BitVec 32) maxChannels
  recvUnrelStarted : Block Bool maxChannels
  recvUnrelNext : Block (BitVec 32) maxChannels
  reorderBuf : Block ReorderSlot (maxChannels * reorderWindow)
  sender : Reliable (List Byte)
  delivered : List (List Byte)
  sent : List RawSend
  resent : List (List Byte)
  user : τ

def Client.fresh {τ : Type} (timeout maxRetransmits : ℕ) (user : τ) : Client τ where
  recvRelStarted := .fill maxChannels false
  recvRelNext := .fill maxChannels 0
  recvUnrelStarted := .fill maxChannels false
  recvUnrelNext := .fill maxChannels 0
  reorderBuf := .fill (maxChannels * reorderWindow) .empty
  sender := .fresh timeout maxRetransmits
  delivered := []
  sent := []
  resent := []
  user := user

section Sack

/-- `worker_handle_sack` at work; the first `deferCount` elements of `deferred` are to be sent. -/
structure SackWork where
  sender : Reliable (List Byte)
  deferred : Block DeferredSend deferredSendMax
  deferCount : ℕ

variable (now : ℕ) (channel : Byte) (cumulative bitmap : BitVec 32)

/-- A packet is put into the next element of `deferred`. -/
def SackWork.defer (w : SackWork) (idx : ℕ) (e : ReliableEntry (List Byte)) : Checked SackWork := do
  let d ← readAt w.deferred.cells w.deferCount
  let payload ← d.payload.memcpy 0 e.payload
  let deferred ← w.deferred.writeAt w.deferCount ⟨e.channel, e.seq, e.payload.length, payload⟩
  let sender := { w.sender with table := w.sender.table.set idx (some { e with sendTime := now }) }
  .ok { sender, deferred, deferCount := w.deferCount + 1 }

def sackBit (w : SackWork) (i : ℕ) : Checked SackWork :=
  if bitmap.getLsbD i then .ok w
  else (workerReliableFind w.sender channel false (cumulative + BitVec.ofNat 32 i)).elim (.ok w) fun idx =>
    (w.sender.table.get idx).elim (.ok w) fun e =>
      if now - e.sendTime < e.timeout / 2 then .ok w
      else if w.deferCount ≥ deferredSendMax then .ok w
      else w.defer now idx e

/-- `worker_handle_sack` -/
def workerHandleSack (w : SackWork) (payload : List Byte) : Checked SackWork :=
  if payload.length < 8 then .ok w
  else do
    let cumulative ← readMany payload 0 4
    let bitmap ← readMany payload 4 4
    (List.range reorderWindow).foldlM
      (sackBit now channel (BitVec.ofNat 32 (ofLe cumulative)) (BitVec.ofNat 32 (ofLe bitmap))) w

/-- `flush_deferred` -/
def flushDeferred (w : SackWork) : Checked (List (List Byte)) :=
  (List.range w.deferCount).foldlM (fun sent i => do
    let d ← readAt w.deferred.cells i
    let payload ← readMany d.payload.cells 0 d.payloadLen
    .ok (sent ++ [payload])) []

end Sack

section Receive

variable {τ : Type} (recvCb : τ → List Byte → Bool → BitVec 32 → Checked τ) (c : Client τ) (ch : Byte) (seq : BitVec 32)

def Client.enqueueRawSend (flags : Byte) (payload : List Byte) : Client τ :=
  { c with sent := c.sent ++ [⟨flags, ch, seq, payload⟩] }

/-- A call of `recv_cb`. -/
def Client.deliver (data : List Byte) (reliable : Bool) : Checked (Client τ) := do
  let user ← recvCb c.user data reliable seq
  .ok { c with user, delivered := c.delivered ++ [data] }

def slotIdx : ℕ := ch.toNat * reorderWindow + (seq &&& 31#32).toNat

/-- `worker_reorder_drain`; each round empties a slot. -/
def workerReorderDrain : ℕ → Client τ → Checked (Client τ)
  | 0, _ => .error .stuck
  | rounds + 1, c => do
    let next ← readAt c.recvRelNext.cells ch.toNat
    let rs ← readAt c.reorderBuf.cells (slotIdx ch next)
    if rs.occupied = false ∨ rs.seq ≠ next then .ok c
    else do
      let data ← readMany rs.data.cells 0 rs.len
      let c ← c.deliver recvCb rs.seq data true
      let reorderBuf ← c.reorderBuf.writeAt (slotIdx ch next) { rs with occupied := false }
      let recvRelNext ← c.recvRelNext.writeAt ch.toNat (next + 1)
      workerReorderDrain rounds { c with reorderBuf, recvRelNext }

def startReliable : Checked (Client τ) := do
  let started ← readAt c.recvRelStarted.cells ch.toNat
  if started then .ok c
  else do
    let recvRelStarted ← c.recvRelStarted.writeAt ch.toNat true
    let recvRelNext ← c.recvRelNext.writeAt ch.toNat seq
    .ok { c with recvRelStarted, recvRelNext }

def startUnreliable : Checked (Client τ) := do
  let started ← readAt c.recvUnrelStarted.cells ch.toNat
  if started then .ok c
  else do
    let recvUnrelStarted ← c.recvUnrelStarted.writeAt ch.toNat true
    let recvUnrelNext ← c.recvUnrelNext.writeAt ch.toNat seq
    .ok { c with recvUnrelStarted, recvUnrelNext }

def buffer (pkt : List Byte) (safeLen : ℕ) : Checked (Client τ) := do
  let rs ← readAt c.reorderBuf.cells (slotIdx ch seq)
  if rs.occupied then .ok c
  else do
    let bytes ← readMany pkt hdrSize safeLen
    let data ← rs.data.memcpy 0 bytes
    let reorderBuf ← c.reorderBuf.writeAt (slotIdx ch seq) ⟨true, seq, safeLen, data⟩
    .ok { c with reorderBuf }

def sackBitmap (cumulative : BitVec 32) : Checked (BitVec 32) :=
  (List.range reorderWindow).foldlM (fun bitmap si => do
    let ck := cumulative + BitVec.ofNat 32 si
    let rs ← readAt c.reorderBuf.cells (slotIdx ch ck)
    .ok (if rs.occupied = true ∧ rs.seq = ck then bitmap ||| BitVec.twoPow 32 si else bitmap)) 0

def sendSack : Checked (Client τ) := do
  let cumulative ← readAt c.recvRelNext.cells ch.toNat
  let bitmap ← sackBitmap c ch cumulative
  let sackData ← (Block.fill 8 (0 : Byte)).memcpy 0 (toLe 4 cumulative.toNat)
  let sackData ← sackData.memcpy 4 (toLe 4 bitmap.toNat)
  .ok (c.enqueueRawSend ch seq flagAck sackData.cells)

def recvReliable (pkt : List Byte) (safeLen : ℕ) : Checked (Client τ) := do
  let c ← startReliable c ch seq
  let next ← readAt c.recvRelNext.cells ch.toNat
  let dist := Serial.dist seq next
  if dist < 0 then .ok (c.enqueueRawSend ch seq flagAck [])
  else if dist = 0 then do
    let payload ← readMany pkt hdrSize safeLen
    let c ← c.deliver recvCb seq payload true
    let recvRelNext ← c.recvRelNext.writeAt ch.toNat (seq + 1)
    let c ← workerReorderDrain recvCb ch (maxChannels * reorderWindow + 1) { c with recvRelNext }
    .ok (c.enqueueRawSend ch seq flagAck [])
  else if dist < reorderWindow then do
    let c ← buffer c ch seq pkt safeLen
    sendSack c ch seq
  else .ok c

def recvUnreliable (pkt : List Byte) (safeLen : ℕ) : Checked (Client τ) := do
  let c ← startUnreliable c ch seq
  let next ← readAt c.recvUnrelNext.cells ch.toNat
  if Serial.dist seq next < 0 then .ok c
  else do
    let recvUnrelNext ← c.recvUnrelNext.writeAt ch.toNat (seq + 1)
    let payload ← readMany pkt hdrSize safeLen
    { c with recvUnrelNext }.deliver recvCb seq payload false

def recvAck (now : ℕ) (ackProbe : Bool) (pkt : List Byte) (sackLen : ℕ) : Checked (Client τ) :=
  let sender := workerReliableAck c.sender seq ch ackProbe
  if ackProbe = false ∧ 8 ≤ sackLen then do
    let payload ← readMany pkt hdrSize sackLen
    let w ← workerHandleSack now ch ⟨sender, .fill deferredSendMax ⟨0, 0, 0, .fill payloadCap 0⟩, 0⟩ payload
    let resent ← flushDeferred w
    .ok { c with sender := w.sender, resent := c.resent ++ resent }
  else .ok { c with sender }

end Receive

/-- What `worker_recv` does with a decrypted datagram. -/
def workerRecv {τ : Type} (recvCb : Option (τ → List Byte → Bool → BitVec 32 → Checked τ)) (now : ℕ) (c : Client τ)
    (pkt : List Byte) : Checked (Client τ) :=
  if pkt.length < hdrSize then .ok c
  else do
    let flags ← readAt pkt 0
    let ch ← readAt pkt 1
    let seqBytes ← readMany pkt 2 4
    let lenBytes ← readMany pkt 6 4
    let seq := BitVec.ofNat 32 (ofLe seqBytes)
    let safeLen := min (ofLe lenBytes) (sub32 pkt.length hdrSize)
    if flags &&& flagAck ≠ 0 then recvAck c ch seq now (flags &&& flagProbe ≠ 0) pkt safeLen
    else if flags &&& flagProbe ≠ 0 then
      if flags &&& flagReliable ≠ 0 then .ok (c.enqueueRawSend ch seq (flagAck ||| flagProbe) []) else .ok c
    else recvCb.elim (.ok c) fun recvCb =>
      if maxChannels ≤ ch.toNat then .ok c
      else if flags &&& flagReliable ≠ 0 then recvReliable recvCb c ch seq pkt safeLen
      else recvUnreliable recvCb c ch seq pkt safeLen

/-- `max_payload`, as `yumi_udp_client_create` sets it. -/
def maxPayload (linkMtu cryptoOverhead : ℕ) : ℕ :=
  let overhead := 48 + hdrSize + cryptoOverhead
  let mtuPay := if overhead < linkMtu then linkMtu - overhead else 0
  let wireCap := if hdrSize + cryptoOverhead < maxDgram then maxDgram - hdrSize - cryptoOverhead else 0
  if 0 < cryptoOverhead then min (min mtuPay payloadCap) wireCap else min mtuPay payloadCap

section Local

variable {τ : Type} (c : Client τ) (now : ℕ) (grows : Bool) (seq : BitVec 32)

def sendReliable (limit : ℕ) (channel : Byte) (payload : List Byte) : Client τ :=
  if limit < payload.length then c
  else { c with sender := workerReliableAdd c.sender grows (c.sender.newEntry now channel false seq payload) }

/-- `worker_cc_probe` -/
def ccProbe : Client τ :=
  { c with sender := workerReliableAdd c.sender grows (c.sender.newEntry now 0 true seq []) }

/-- `worker_reliable_retransmit` -/
def retransmit : Client τ := { c with sender := (workerReliableRetransmit c.sender now).state }

end Local

theorem maxPayload_le (linkMtu cryptoOverhead : ℕ) : maxPayload linkMtu cryptoOverhead ≤ payloadCap := by
  unfold maxPayload
  dsimp only
  split
  · exact (Nat.min_le_left _ _).trans (Nat.min_le_right _ _)
  · exact Nat.min_le_right _ _

structure Bounded (s : Reliable (List Byte)) : Prop where
  capacity : 0 < s.table.capacity
  pending : ∀ e ∈ s.table, e.payload.length ≤ payloadCap

def ReorderSlot.held (rs : ReorderSlot) : ℕ := if rs.occupied then rs.len else 0

def ReorderSlot.count (rs : ReorderSlot) : ℕ := if rs.occupied then 1 else 0

def FromDatagram (hist : List (List Byte)) (p : List Byte) : Prop := ∃ d ∈ hist, p <+: d.drop hdrSize

section Accounts

variable {τ : Type} {J : List (List Byte) → τ → Prop} {hist : List (List Byte)} {spare : ℕ} {c c' : Client τ}
  {recvCb : τ → List Byte → Bool → BitVec 32 → Checked τ} {ch : Byte} {seq : BitVec 32} {pkt : List Byte} {safeLen : ℕ}

/-- A client that the datagrams of `hist` have come to: what waits in a slot is part of one of them and fits, what was
handed on is part of one of them, and what was handed on and waits is not more than what came, less what is
`spare` of the last one. -/
structure Client.Accounts (J : List (List Byte) → τ → Prop) (hist : List (List Byte)) (spare : ℕ) (c : Client τ) :
    Prop where
  user : J c.delivered c.user
  slots : ∀ rs ∈ c.reorderBuf.cells, rs.occupied = true →
    rs.len ≤ payloadCap ∧ FromDatagram hist (rs.data.cells.take rs.len)
  bytes : sumLen c.delivered + weight ReorderSlot.held c.reorderBuf.cells + spare ≤
    sumLen (hist.map (List.drop hdrSize))
  part : ∀ p ∈ c.delivered, FromDatagram hist p
  sender : Bounded c.sender

/-- What `recv_cb` does with its user. -/
def Serves (J : List (List Byte) → τ → Prop) (recvCb : τ → List Byte → Bool → BitVec 32 → Checked τ) : Prop :=
  ∀ given user data reliable seq, data.length ≤ payloadCap → J given user →
    Safe (recvCb user data reliable seq) (J (given ++ [data]))

theorem FromDatagram.mono {d : List Byte} {p : List Byte} (h : FromDatagram hist p) : FromDatagram (hist ++ [d]) p := by
  obtain ⟨d', hd, hp⟩ := h
  exact ⟨d', List.mem_append_left _ hd, hp⟩

theorem Client.Accounts.less {n : ℕ} (h : c.Accounts J hist spare) (hle : n ≤ spare) : c.Accounts J hist n :=
  ⟨h.user, h.slots, (Nat.add_le_add_left hle _).trans h.bytes, h.part, h.sender⟩

theorem Client.Accounts.arrive (h : c.Accounts J hist 0) (pkt : List Byte) :
    c.Accounts J (hist ++ [pkt]) (pkt.length - hdrSize) where
  user := h.user
  slots rs hrs hocc := ⟨(h.slots rs hrs hocc).1, (h.slots rs hrs hocc).2.mono⟩
  bytes := by
    have hold := h.bytes
    rw [List.map_append, List.map_singleton, sumLen_append, sumLen_singleton, List.length_drop]
    omega
  part p hp := (h.part p hp).mono
  sender := h.sender

theorem slotIdx_lt (ch : Byte) (seq : BitVec 32) : slotIdx ch seq < maxChannels * reorderWindow := by
  have hch : ch.toNat < 256 := ch.isLt
  have hslot : (seq &&& 31#32).toNat ≤ 31 := by
    rw [BitVec.toNat_and]
    exact Nat.and_le_right
  unfold slotIdx maxChannels reorderWindow
  omega

theorem ch_lt (ch : Byte) : ch.toNat < maxChannels := ch.isLt

theorem deliver_safe {data : List Byte} {reliable : Bool} (hserves : Serves J recvCb) (huser : J c.delivered c.user)
    (hlen : data.length ≤ payloadCap) :
    Safe (c.deliver recvCb seq data reliable) fun c' => ∃ user,
      J (c.delivered ++ [data]) user ∧ c' = { c with user, delivered := c.delivered ++ [data] } := by
  unfold Client.deliver
  exact .bind (hserves _ _ data reliable seq hlen huser) fun user hgiven => .ok ⟨user, hgiven, rfl⟩

theorem Client.Accounts.handOn {data : List Byte} {user : τ} (h : c.Accounts J hist spare)
    (huser : J (c.delivered ++ [data]) user) (hfrom : FromDatagram hist data) (hlen : data.length ≤ spare) :
    Client.Accounts J hist (spare - data.length) { c with user, delivered := c.delivered ++ [data] } where
  user := huser
  slots := h.slots
  bytes := by
    have hold := h.bytes
    rw [sumLen_append, sumLen_singleton]
    dsimp only
    omega
  part p hp := by
    obtain hp | hp := List.mem_append.mp hp
    · exact h.part p hp
    · exact List.mem_singleton.mp hp ▸ hfrom
  sender := h.sender

theorem Client.Accounts.release {rs : ReorderSlot} {user : τ} {i : ℕ} (h : c.Accounts J hist spare)
    (hcell : c.reorderBuf.cells[i]? = some rs) (hocc : rs.occupied = true)
    (huser : J (c.delivered ++ [rs.data.cells.take rs.len]) user) (next : Block (BitVec 32) maxChannels) :
    Client.Accounts J hist spare
      { c with
        user, delivered := c.delivered ++ [rs.data.cells.take rs.len]
        reorderBuf := c.reorderBuf.set i { rs with occupied := false }
        recvRelNext := next } where
  user := huser
  slots x hx hx' := by
    obtain hx | rfl := List.mem_or_eq_of_mem_set hx
    · exact h.slots x hx hx'
    · cases hx'
  bytes := by
    have hset := weight_set ReorderSlot.held (b := { rs with occupied := false }) hcell
    have hold := h.bytes
    have hheld : rs.held = rs.len := if_pos hocc
    have hfree : ReorderSlot.held { rs with occupied := false } = 0 := rfl
    rw [hheld, hfree] at hset
    rw [sumLen_append, sumLen_singleton, List.length_take]
    change _ + weight ReorderSlot.held (c.reorderBuf.cells.set i _) + spare ≤ _
    omega
  part p hp := by
    obtain hp | hp := List.mem_append.mp hp
    · exact h.part p hp
    · exact List.mem_singleton.mp hp ▸ (h.slots rs (List.mem_of_getElem? hcell) hocc).2
  sender := h.sender

theorem drain_safe (hserves : Serves J recvCb) {rounds : ℕ} (h : c.Accounts J hist spare)
    (hrounds : weight ReorderSlot.count c.reorderBuf.cells < rounds) :
    Safe (workerReorderDrain recvCb ch rounds c) (Client.Accounts J hist spare) := by
  induction rounds generalizing c with
  | zero => exact absurd hrounds (Nat.not_lt_zero _)
  | succ rounds ih =>
    have hch : ch.toNat < c.recvRelNext.cells.length := by rw [c.recvRelNext.size]; exact ch_lt ch
    unfold workerReorderDrain
    refine .readAt hch ?_
    generalize c.recvRelNext.cells.get ⟨ch.toNat, hch⟩ = next
    have hslot : slotIdx ch next < c.reorderBuf.cells.length := by rw [c.reorderBuf.size]; exact slotIdx_lt ch next
    have hcell := List.getElem?_eq_getElem hslot
    refine .readAt hslot ?_
    change c.reorderBuf.cells[slotIdx ch next]? = some (c.reorderBuf.cells.get ⟨slotIdx ch next, hslot⟩) at hcell
    generalize c.reorderBuf.cells.get ⟨slotIdx ch next, hslot⟩ = rs at hcell ⊢
    refine .ite (fun _ => .ok h) fun hready => ?_
    have hocc : rs.occupied = true := by
      cases hrs : rs.occupied with
      | false => exact absurd (.inl hrs) hready
      | true => rfl
    obtain ⟨hlen, -⟩ := h.slots rs (List.mem_of_getElem? hcell) hocc
    refine .readMany (by rw [rs.data.size]; omega) ?_
    rw [List.drop_zero]
    refine .bind (deliver_safe hserves h.user ?_) ?_
    · rw [List.length_take]
      omega
    · rintro _ ⟨user, huser, rfl⟩
      refine .writeBlock (slotIdx_lt ch next) (.writeBlock (ch_lt ch) (ih (h.release hcell hocc huser _) ?_))
      have hset := weight_set ReorderSlot.count (b := { rs with occupied := false }) hcell
      have hcount : rs.count = 1 := if_pos hocc
      have hfree : ReorderSlot.count { rs with occupied := false } = 0 := rfl
      change weight ReorderSlot.count (c.reorderBuf.cells.set _ _) < rounds
      omega

theorem startReliable_safe (h : c.Accounts J hist spare) :
    Safe (startReliable c ch seq) (Client.Accounts J hist spare) := by
  unfold startReliable
  refine .readAt (by rw [c.recvRelStarted.size]; exact ch_lt ch) (.ite (fun _ => .ok h) fun _ => ?_)
  exact .writeBlock (ch_lt ch) (.writeBlock (ch_lt ch) (.ok ⟨h.user, h.slots, h.bytes, h.part, h.sender⟩))

theorem startUnreliable_safe (h : c.Accounts J hist spare) :
    Safe (startUnreliable c ch seq) (Client.Accounts J hist spare) := by
  unfold startUnreliable
  refine .readAt (by rw [c.recvUnrelStarted.size]; exact ch_lt ch) (.ite (fun _ => .ok h) fun _ => ?_)
  exact .writeBlock (ch_lt ch) (.writeBlock (ch_lt ch) (.ok ⟨h.user, h.slots, h.bytes, h.part, h.sender⟩))

structure Within (pkt : List Byte) (safeLen : ℕ) : Prop where
  datagram : hdrSize + safeLen ≤ pkt.length
  slot : safeLen ≤ payloadCap

theorem Within.length (h : Within pkt safeLen) : ((pkt.drop hdrSize).take safeLen).length = safeLen := by
  have hdatagram := h.datagram
  rw [List.length_take, List.length_drop]
  omega

theorem fromDatagram_take (hmem : pkt ∈ hist) : FromDatagram hist ((pkt.drop hdrSize).take safeLen) :=
  ⟨pkt, hmem, List.take_prefix _ _⟩

theorem buffer_safe (hwithin : Within pkt safeLen) (hmem : pkt ∈ hist) (h : c.Accounts J hist safeLen) :
    Safe (buffer c ch seq pkt safeLen) (Client.Accounts J hist 0) := by
  have hslot : slotIdx ch seq < c.reorderBuf.cells.length := by rw [c.reorderBuf.size]; exact slotIdx_lt ch seq
  have hcell := List.getElem?_eq_getElem hslot
  unfold buffer
  refine .readAt hslot ?_
  change c.reorderBuf.cells[slotIdx ch seq]? = some (c.reorderBuf.cells.get ⟨slotIdx ch seq, hslot⟩) at hcell
  generalize c.reorderBuf.cells.get ⟨slotIdx ch seq, hslot⟩ = rs at hcell ⊢
  refine .ite (fun _ => .ok (h.less (Nat.zero_le _))) fun hfree => .readMany hwithin.datagram ?_
  have hroom : 0 + ((pkt.drop hdrSize).take safeLen).length ≤ payloadCap := by
    rw [hwithin.length, Nat.zero_add]
    exact hwithin.slot
  refine .copyBlock hroom fun data hdata => .writeBlock (slotIdx_lt ch seq) (.ok ⟨h.user, ?_, ?_, h.part, h.sender⟩)
  · intro x hx hocc
    obtain hx | rfl := List.mem_or_eq_of_mem_set hx
    · exact h.slots x hx hocc
    · refine ⟨hwithin.slot, ?_⟩
      have hbytes := take_splice_start rs.data.cells ((pkt.drop hdrSize).take safeLen)
      rw [hwithin.length] at hbytes
      rw [hdata, hbytes]
      exact fromDatagram_take hmem
  · have hset := weight_set ReorderSlot.held (b := ⟨true, seq, safeLen, data⟩) hcell
    have hold := h.bytes
    have hfreed : rs.held = 0 := if_neg hfree
    have hheld : ReorderSlot.held ⟨true, seq, safeLen, data⟩ = safeLen := rfl
    change sumLen c.delivered + weight ReorderSlot.held (c.reorderBuf.cells.set _ _) + 0 ≤ _
    omega

theorem sackBitmap_safe (cumulative : BitVec 32) : Safe (sackBitmap c ch cumulative) fun _ => True := by
  unfold sackBitmap
  refine .forRange (fun _ _ => True) _ (fun si bitmap _ _ => ?_) trivial
  exact .readAt (by rw [c.reorderBuf.size]; exact slotIdx_lt ch _) (.ok trivial)

theorem sendSack_safe (h : c.Accounts J hist spare) : Safe (sendSack c ch seq) (Client.Accounts J hist spare) := by
  unfold sendSack
  refine .readAt (by rw [c.recvRelNext.size]; exact ch_lt ch) (.bind (sackBitmap_safe _) fun bitmap _ => ?_)
  refine .copyBlock (by rw [length_toLe]; omega) fun _ _ => .copyBlock (by rw [length_toLe]) fun _ _ => ?_
  exact .ok ⟨h.user, h.slots, h.bytes, h.part, h.sender⟩

theorem recvReliable_safe (hserves : Serves J recvCb) (hwithin : Within pkt safeLen) (hmem : pkt ∈ hist)
    (h : c.Accounts J hist safeLen) : Safe (recvReliable recvCb c ch seq pkt safeLen) (Client.Accounts J hist 0) := by
  unfold recvReliable
  refine .bind (startReliable_safe h) fun c h => .readAt (by rw [c.recvRelNext.size]; exact ch_lt ch) ?_
  refine .ite (fun _ => .ok ?_) fun _ => .ite (fun _ => ?_) fun _ => .ite (fun _ => ?_) fun _ => ?_
  · exact ⟨h.user, h.slots, (h.less (Nat.zero_le _)).bytes, h.part, h.sender⟩
  · refine .readMany hwithin.datagram (.bind (deliver_safe hserves h.user ?_) ?_)
    · rw [hwithin.length]
      exact hwithin.slot
    · rintro _ ⟨user, huser, rfl⟩
      have hgiven := h.handOn huser (fromDatagram_take hmem) hwithin.length.le
      have hgiven := hgiven.less (Nat.zero_le _)
      refine .writeBlock (ch_lt ch) (.bind (drain_safe hserves
        ⟨hgiven.user, hgiven.slots, hgiven.bytes, hgiven.part, hgiven.sender⟩ ?_) fun c' h' => .ok ?_)
      · refine Nat.lt_succ_of_le ((weight_le_length _ (fun rs => ?_) _).trans_eq c.reorderBuf.size)
        unfold ReorderSlot.count
        split <;> omega
      · exact ⟨h'.user, h'.slots, h'.bytes, h'.part, h'.sender⟩
  · exact .bind (buffer_safe hwithin hmem h) fun c' h' => sendSack_safe h'
  · exact .ok (h.less (Nat.zero_le _))

theorem recvUnreliable_safe (hserves : Serves J recvCb) (hwithin : Within pkt safeLen) (hmem : pkt ∈ hist)
    (h : c.Accounts J hist safeLen) : Safe (recvUnreliable recvCb c ch seq pkt safeLen) (Client.Accounts J hist 0) := by
  unfold recvUnreliable
  refine .bind (startUnreliable_safe h) fun c h => .readAt (by rw [c.recvUnrelNext.size]; exact ch_lt ch) ?_
  refine .ite (fun _ => .ok (h.less (Nat.zero_le _))) fun _ => .writeBlock (ch_lt ch) (.readMany hwithin.datagram ?_)
  have h : Client.Accounts J hist safeLen { c with recvUnrelNext := c.recvUnrelNext.set ch.toNat (seq + 1) } :=
    ⟨h.user, h.slots, h.bytes, h.part, h.sender⟩
  refine (deliver_safe hserves h.user ?_).mono ?_
  · rw [hwithin.length]
    exact hwithin.slot
  · rintro _ ⟨user, huser, rfl⟩
    have hgiven := h.handOn huser (fromDatagram_take hmem) hwithin.length.le
    exact ⟨hgiven.user, hgiven.slots, (hgiven.less (Nat.zero_le _)).bytes, hgiven.part, hgiven.sender⟩

end Accounts

section Sack

variable {s : Reliable (List Byte)} {now : ℕ} {channel : Byte} {cumulative bitmap : BitVec 32} {w : SackWork}

theorem Bounded.of_pending {s' : Reliable (List Byte)} (h : Bounded s) (hcap : s'.table.capacity = s.table.capacity)
    (hpending : ∀ k, s'.Pending k → s.Pending k) : Bounded s' where
  capacity := hcap ▸ h.capacity
  pending e he := by
    obtain ⟨x, hx, hkey⟩ := hpending e.key ⟨e, he, rfl⟩
    have hpayload : x.payload = e.payload := congrArg (fun k => k.2.2.2) hkey
    exact hpayload ▸ h.pending x hx

theorem Bounded.ack (h : Bounded s) (seq : BitVec 32) (probe : Bool) :
    Bounded (workerReliableAck s seq channel probe) :=
  h.of_pending (workerReliableAck_capacity ..) fun _ => (workerReliableAck_pending ..).1

theorem Bounded.retransmit (h : Bounded s) (now : ℕ) : Bounded (workerReliableRetransmit s now).state :=
  h.of_pending (workerReliableRetransmit_keeps s now).size (workerReliableRetransmit_keeps s now).old

theorem Bounded.add {e : ReliableEntry (List Byte)} (h : Bounded s) (grows : Bool)
    (he : e.payload.length ≤ payloadCap) :
    Bounded (workerReliableAdd s grows e) where
  capacity := workerReliableAdd_capacity h.capacity grows e
  pending x hx := by
    obtain ⟨y, hy, hkey⟩ | hkey := (workerReliableAdd_others h.capacity grows x.key).1 ⟨x, hx, rfl⟩
    · have hpayload : y.payload = x.payload := congrArg (fun k => k.2.2.2) hkey
      exact hpayload ▸ h.pending y hy
    · have hpayload : x.payload = e.payload := congrArg (fun k => k.2.2.2) hkey
      exact hpayload ▸ he

theorem bounded_fresh (timeout maxRetransmits : ℕ) : Bounded (Reliable.fresh timeout maxRetransmits) where
  capacity := show 0 < reliableInitSlots by decide
  pending e he := by
    obtain ⟨i, _, hi⟩ := he
    cases hi

/-- What is in `deferred` so far lies within its elements, as many of them as there are. -/
structure SackWork.Sound (w : SackWork) : Prop where
  sender : Bounded w.sender
  count : w.deferCount ≤ deferredSendMax
  deferred : ∀ d ∈ w.deferred.cells, d.payloadLen ≤ payloadCap

theorem defer_safe {idx : ℕ} {e : ReliableEntry (List Byte)} (h : w.Sound) (he : w.sender.table.get idx = some e)
    (hroom : w.deferCount < deferredSendMax) : Safe (w.defer now idx e) SackWork.Sound := by
  have hmem : e ∈ w.sender.table := ⟨idx, ProbeTable.get_eq_some he⟩
  have hfit : e.payload.length ≤ payloadCap := h.sender.pending e hmem
  unfold SackWork.defer
  refine .readAt (by rw [w.deferred.size]; exact hroom) (.copyBlock (by rwa [Nat.zero_add]) fun payload _ => ?_)
  refine .writeBlock hroom (.ok ⟨⟨h.sender.capacity, ?_⟩, hroom, ?_⟩)
  · intro x hx
    obtain hx | hx := ProbeTable.mem_or_eq_of_mem_set hx
    · exact h.sender.pending x hx
    · obtain rfl := Option.some.inj hx
      exact hfit
  · intro d hd
    obtain hd | rfl := List.mem_or_eq_of_mem_set hd
    · exact h.deferred d hd
    · exact hfit

theorem sackBit_safe (h : w.Sound) (i : ℕ) : Safe (sackBit now channel cumulative bitmap w i) SackWork.Sound := by
  unfold sackBit
  refine .ite (fun _ => .ok h) fun _ => ?_
  cases workerReliableFind w.sender channel false (cumulative + BitVec.ofNat 32 i) with
  | none => exact .ok h
  | some idx =>
    cases he : w.sender.table.get idx with
    | none =>
      dsimp only [Option.elim]
      rw [he]
      exact .ok h
    | some e =>
      dsimp only [Option.elim]
      rw [he]
      exact .ite (fun _ => .ok h) fun _ => .ite (fun _ => .ok h) fun hroom => defer_safe h he (Nat.not_le.mp hroom)

theorem workerHandleSack_safe {payload : List Byte} (h : w.Sound) :
    Safe (workerHandleSack now channel w payload) SackWork.Sound := by
  unfold workerHandleSack
  refine .ite (fun _ => .ok h) fun hlen => .readMany (by omega) (.readMany (by omega) ?_)
  exact .forRange (fun _ => SackWork.Sound) _ (fun i w _ hw => sackBit_safe hw i) h

theorem flushDeferred_safe (h : w.Sound) : Safe (flushDeferred w) fun _ => True := by
  unfold flushDeferred
  refine .forRange (fun _ _ => True) _ (fun i sent hi _ => ?_) trivial
  have hin : i < w.deferred.cells.length := by rw [w.deferred.size]; exact hi.trans_le h.count
  have hlen := h.deferred _ (List.get_mem w.deferred.cells ⟨i, hin⟩)
  refine .readAt hin (.readMany ?_ (.ok trivial))
  rw [(w.deferred.cells.get ⟨i, hin⟩).payload.size]
  omega

end Sack

section Datagrams

variable {τ : Type} {J : List (List Byte) → τ → Prop} {hist : List (List Byte)} {spare : ℕ} {c c' : Client τ}
  {ch : Byte} {seq : BitVec 32} {pkt : List Byte} {safeLen : ℕ} {now : ℕ}

theorem recvAck_safe {ackProbe : Bool} (hwithin : Within pkt safeLen) (h : c.Accounts J hist spare) :
    Safe (recvAck c ch seq now ackProbe pkt safeLen) (Client.Accounts J hist 0) := by
  have hsender : Bounded (workerReliableAck c.sender seq ch ackProbe) := h.sender.ack seq ackProbe
  have hless := h.less (Nat.zero_le spare)
  unfold recvAck
  refine .ite (fun _ => .readMany hwithin.datagram ?_) fun _ => .ok ⟨h.user, h.slots, hless.bytes, h.part, hsender⟩
  refine .bind (workerHandleSack_safe ⟨hsender, Nat.zero_le _, fun d hd => ?_⟩) fun w hw => ?_
  · obtain rfl := List.eq_of_mem_replicate hd
    exact Nat.zero_le _
  · exact .bind (flushDeferred_safe hw) fun _ _ => .ok ⟨h.user, h.slots, hless.bytes, h.part, hw.sender⟩

theorem Client.Accounts.withSender (h : c.Accounts J hist spare) {s : Reliable (List Byte)} (hs : Bounded s) :
    Client.Accounts J hist spare { c with sender := s } := ⟨h.user, h.slots, h.bytes, h.part, hs⟩

theorem Client.Accounts.withUser (h : c.Accounts J hist spare) {user : τ} (huser : J c.delivered user) :
    Client.Accounts J hist spare { c with user } := ⟨huser, h.slots, h.bytes, h.part, h.sender⟩

theorem accounts_fresh {user : τ} (huser : J [] user) (timeout maxRetransmits : ℕ) :
    (Client.fresh timeout maxRetransmits user).Accounts J [] 0 where
  user := huser
  slots rs hrs hocc := by
    obtain rfl := List.eq_of_mem_replicate hrs
    cases hocc
  bytes := by
    have hempty : weight ReorderSlot.held (Client.fresh timeout maxRetransmits user).reorderBuf.cells = 0 :=
      weight_eq_zero _ fun rs hrs => by
        obtain rfl := List.eq_of_mem_replicate hrs
        rfl
    rw [hempty]
    exact Nat.zero_le _
  part p hp := absurd hp List.not_mem_nil
  sender := bounded_fresh timeout maxRetransmits

theorem Client.Accounts.send (h : c.Accounts J hist spare) {limit : ℕ} (hlimit : limit ≤ payloadCap) (now : ℕ)
    (grows : Bool) (seq : BitVec 32) (channel : Byte) (payload : List Byte) :
    (sendReliable c now grows seq limit channel payload).Accounts J hist spare := by
  unfold sendReliable
  split
  · exact h
  · next hfits => exact h.withSender (h.sender.add grows (show payload.length ≤ payloadCap by omega))

theorem workerRecv_safe {recvCb : Option (τ → List Byte → Bool → BitVec 32 → Checked τ)}
    (hserves : ∀ f, recvCb = some f → Serves J f) (hpkt : pkt.length ≤ maxDgram) (h : c.Accounts J hist 0) :
    Safe (workerRecv recvCb now c pkt) (Client.Accounts J (hist ++ [pkt]) 0) := by
  have hcame := h.arrive pkt
  have hidle := hcame.less (Nat.zero_le _)
  have hmax : pkt.length ≤ 1452 := hpkt
  unfold workerRecv
  refine .ite (fun _ => .ok hidle) fun hshort => ?_
  have hsize : 10 ≤ pkt.length := Nat.not_lt.mp hshort
  refine .readAt (by omega) (.readAt (by omega) (.readMany (by omega) (.readMany (by omega) ?_)))
  dsimp only
  rw [sub32_of_le (b := hdrSize) hsize (by omega)]
  generalize hsafe : min (ofLe _) (pkt.length - hdrSize) = safeLen
  have hle : safeLen ≤ pkt.length - 10 := hsafe ▸ Nat.min_le_right _ _
  have hwithin : Within pkt safeLen := ⟨show 10 + safeLen ≤ _ by omega, show _ ≤ 1442 by omega⟩
  have hmem : pkt ∈ hist ++ [pkt] := List.mem_append_right _ List.mem_cons_self
  refine .ite (fun _ => recvAck_safe hwithin hcame) fun _ => .ite (fun _ => ?_) fun _ => ?_
  · exact .ite (fun _ => .ok ⟨hidle.user, hidle.slots, hidle.bytes, hidle.part, hidle.sender⟩) fun _ => .ok hidle
  · cases hcb : recvCb with
    | none => exact .ok hidle
    | some f =>
      refine .ite (fun _ => .ok hidle) fun _ => .ite (fun _ => ?_) fun _ => ?_
      · exact recvReliable_safe (hserves f hcb) hwithin hmem (hcame.less hle)
      · exact recvUnreliable_safe (hserves f hcb) hwithin hmem (hcame.less hle)

end Datagrams

end YumiBrowser.Udp.Memory
