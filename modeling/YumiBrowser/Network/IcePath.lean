import YumiBrowser.Network.OrderedDelivery
import YumiBrowser.Network.ReliableSend
import YumiBrowser.Network.SessionRuns

universe u

namespace YumiBrowser.Udp

open Wire
open YumiBrowser.Sudp (flagReliable flagAck flagProbe)

def hdrSize : ℕ := 10
def maxDgram : ℕ := 1452

-- The fields of `yumi_udp_hdr_t` at the start of a buffer.
def hdrFlags (pkt : List Byte) : Byte := pkt.getD 0 0
def hdrChannel (pkt : List Byte) : Byte := pkt.getD 1 0
def hdrSeq (pkt : List Byte) : BitVec 32 := BitVec.ofNat 32 (ofLe ((pkt.drop 2).take 4))
def hdrPayloadLen (pkt : List Byte) : ℕ := ofLe ((pkt.drop 6).take 4)

/-- The datagram decryption and the receive callback of a client, over the state that the two have. -/
structure Hooks (σ : Type u) where
  pktDecrypt : Option (σ → List Byte → σ × Option (List Byte))
  recvCb : Option (σ → List Byte → Bool → BitVec 32 → σ)

/-- A call of `recv_cb`. -/
structure RecvCall where
  payload : List Byte
  reliable : Bool
  seq : BitVec 32
  deriving DecidableEq

/-- A packet that is handed to `enqueue_raw_send`; with ICE there is but one place to send it to. -/
structure RawSend where
  flags : BitVec 8
  channel : BitVec 8
  seq : BitVec 32
  payload : List Byte
  deriving DecidableEq

/-- What a receive worker reads and writes, and the buffers that it has. -/
structure RecvWorker (σ : Type u) where
  session : σ
  lane : BitVec 8 → Lane (List Byte)
  sender : Reliable (List Byte)
  -- the readings of the clock so far
  readings : ℕ
  delivered : List RecvCall
  sent : List RawSend
  resent : List (ReliableEntry (List Byte))
  recvBuf : List Byte
  cryptoBuf : List Byte

/-- `memcpy` to the start of a buffer. -/
def copyInto (buf bytes : List Byte) : List Byte := bytes ++ buf.drop bytes.length

namespace RecvWorker

variable {σ : Type u} (s : RecvWorker σ)

def enqueueRawSend (flags channel : BitVec 8) (seq : BitVec 32) (payload : List Byte) : RecvWorker σ :=
  { s with sent := s.sent ++ [⟨flags, channel, seq, payload⟩] }

def setReliable (channel : BitVec 8) (r : Receiver (List Byte)) : RecvWorker σ :=
  { s with lane := Function.update s.lane channel { s.lane channel with reliable := r } }

def setUnreliable (channel : BitVec 8) (r : UnrelReceiver) : RecvWorker σ :=
  { s with lane := Function.update s.lane channel { s.lane channel with unreliable := r } }

def callback (recvCb : σ → List Byte → Bool → BitVec 32 → σ) (call : RecvCall) : RecvWorker σ :=
  { s with
    session := recvCb s.session call.payload call.reliable call.seq
    delivered := s.delivered ++ [call] }

/-- The calls of `worker_reorder_drain`. -/
def callbacks (recvCb : σ → List Byte → Bool → BitVec 32 → σ) (drained : List (BitVec 32 × List Byte)) :
    RecvWorker σ :=
  drained.foldl (fun s x => s.callback recvCb ⟨x.2, true, x.1⟩) s

/-- `worker_handle_sack`, and then `flush_deferred`. -/
def handleSack (clock : ℕ → ℕ) (payload : List Byte) (channel : BitVec 8) : RecvWorker σ :=
  let w := workerHandleSack s.sender (clock s.readings) channel
    (BitVec.ofNat 32 (ofLe (payload.take 4))) (BitVec.ofNat 32 (ofLe ((payload.drop 4).take 4)))
  { s with sender := w.state, readings := s.readings + 1, resent := s.resent ++ w.deferred }

/-- The reply of `worker_recv` to a reliable packet. -/
def answer (channel : BitVec 8) : Option Reply → RecvWorker σ
  | none => s
  | some (.ack seq) => s.enqueueRawSend flagAck channel seq []
  | some (.sack seq cumulative bitmap) =>
    s.enqueueRawSend flagAck channel seq (toLe 4 cumulative.toNat ++ toLe 4 bitmap.toNat)

end RecvWorker

section Socket

variable {σ : Type u} (hooks : Hooks σ) (clock : ℕ → ℕ) (s : RecvWorker σ)

/-- What `worker_recv` does with the first `n` bytes of `pkt`. -/
def workerRecvPkt (pkt : List Byte) (n : ℕ) : RecvWorker σ :=
  if n < hdrSize then s
  else if hdrFlags pkt &&& flagAck ≠ 0 then
    let ackProbe : Bool := hdrFlags pkt &&& flagProbe ≠ 0
    let s := { s with sender := workerReliableAck s.sender (hdrSeq pkt) (hdrChannel pkt) ackProbe }
    let sackLen := min (hdrPayloadLen pkt) (n - hdrSize)
    if ackProbe = false ∧ 8 ≤ sackLen then s.handleSack clock ((pkt.drop hdrSize).take sackLen) (hdrChannel pkt)
    else s
  else if hdrFlags pkt &&& flagProbe ≠ 0 then
    if hdrFlags pkt &&& flagReliable ≠ 0 then
      s.enqueueRawSend (flagAck ||| flagProbe) (hdrChannel pkt) (hdrSeq pkt) []
    else s
  else
    match hooks.recvCb with
    | none => s
    | some recvCb =>
      let ch := hdrChannel pkt
      let data := (pkt.drop hdrSize).take (min (hdrPayloadLen pkt) (n - hdrSize))
      if hdrFlags pkt &&& flagReliable ≠ 0 then
        let r := workerRecv (s.lane ch).reliable (hdrSeq pkt) data
        ((s.setReliable ch r.receiver).callbacks recvCb r.delivered).answer ch r.reply
      else
        let r := workerRecvUnreliable (s.lane ch).unreliable (hdrSeq pkt)
        let s := s.setUnreliable ch r.1
        if r.2 then s.callback recvCb ⟨data, false, hdrSeq pkt⟩ else s

/-- A datagram that `recvfrom` has put into the buffer. -/
def workerRecvDatagram (datagram : List Byte) : RecvWorker σ :=
  let n := min datagram.length maxDgram
  let s := { s with recvBuf := copyInto s.recvBuf (datagram.take maxDgram) }
  match hooks.pktDecrypt with
  | none => workerRecvPkt hooks clock s s.recvBuf n
  | some pktDecrypt =>
    match pktDecrypt s.session (s.recvBuf.take n) with
    | (session, none) => { s with session }
    | (session, some pt) =>
      let s := { s with session, cryptoBuf := copyInto s.cryptoBuf pt }
      workerRecvPkt hooks clock s s.cryptoBuf pt.length

/-- `worker_recv`: an empty datagram ends the loop as an empty socket does. -/
def workerRecvLoop : List (List Byte) → RecvWorker σ → RecvWorker σ × List (List Byte)
  | [], s => (s, [])
  | datagram :: queue, s =>
    if datagram = [] then (s, queue) else workerRecvLoop queue (workerRecvDatagram hooks clock s datagram)

end Socket

section Ice

variable {σ : Type u} (hooks : Hooks σ) (clock : ℕ → ℕ) (s : RecvWorker σ)

/-- A reliable packet in `worker_recv_ice`. -/
def workerRecvIceReliable (recvCb : σ → List Byte → Bool → BitVec 32 → σ) (ch : BitVec 8) (seq : BitVec 32)
    (payload : List Byte) : RecvWorker σ :=
  let r := (s.lane ch).reliable.start seq
  let dist := Serial.dist seq r.next
  if dist < 0 then (s.setReliable ch r).enqueueRawSend flagAck ch seq []
  else if dist = 0 then
    let s := s.callback recvCb ⟨payload, true, seq⟩
    let drained := workerReorderDrain { r with next := seq + 1 }
    ((s.setReliable ch drained.1).callbacks recvCb drained.2).enqueueRawSend flagAck ch seq []
  else if dist < reorderWindow then
    let r := r.store seq payload
    (s.setReliable ch r).enqueueRawSend flagAck ch seq (toLe 4 r.next.toNat ++ toLe 4 (sackBitmap r).toNat)
  else s.setReliable ch r

/-- What `worker_recv_ice` does with the first `nr` bytes of its buffer. -/
def workerRecvIcePkt (nr : ℕ) : RecvWorker σ :=
  let hdr := s.recvBuf
  let buf := s.recvBuf
  if nr < hdrSize then s
  else if hdrFlags hdr &&& flagAck ≠ 0 then
    let ackProbe : Bool := hdrFlags hdr &&& flagProbe ≠ 0
    let s := { s with sender := workerReliableAck s.sender (hdrSeq hdr) (hdrChannel hdr) ackProbe }
    if ackProbe = false then
      let actualPl := nr - hdrSize
      let sackLen := if hdrPayloadLen hdr ≤ actualPl then hdrPayloadLen hdr else actualPl
      if 8 ≤ sackLen then s.handleSack clock ((buf.drop hdrSize).take sackLen) (hdrChannel hdr) else s
    else s
  else if hdrFlags hdr &&& flagProbe ≠ 0 then
    if hdrFlags hdr &&& flagReliable ≠ 0 then
      s.enqueueRawSend (flagAck ||| flagProbe) (hdrChannel hdr) (hdrSeq hdr) []
    else s
  else
    match hooks.recvCb with
    | none => s
    | some recvCb =>
      let ch := hdrChannel hdr
      let seq := hdrSeq hdr
      let actualPayload := nr - hdrSize
      let safeLen := if hdrPayloadLen hdr ≤ actualPayload then hdrPayloadLen hdr else actualPayload
      let payload := (buf.drop hdrSize).take safeLen
      if hdrFlags hdr &&& flagReliable ≠ 0 then
        workerRecvIceReliable s recvCb ch seq payload
      else
        let r := (s.lane ch).unreliable.start seq
        let dist := Serial.dist seq r.next
        if dist < 0 then s.setUnreliable ch r
        else (s.setUnreliable ch { r with next := seq + 1 }).callback recvCb ⟨payload, false, seq⟩

/-- A complete message of `len` bytes in the buffer. -/
def workerRecvIceMsg (len : ℕ) : RecvWorker σ :=
  match hooks.pktDecrypt with
  | none => workerRecvIcePkt hooks clock s len
  | some pktDecrypt =>
    match pktDecrypt s.session (s.recvBuf.take len) with
    | (session, none) => { s with session }
    | (session, some pt) =>
      let s := { s with session, cryptoBuf := copyInto s.cryptoBuf pt }
      let s := { s with recvBuf := copyInto s.recvBuf (s.cryptoBuf.take pt.length) }
      workerRecvIcePkt hooks clock s pt.length

structure IcePipe where
  bytes : List Byte
  hdr : List Byte
  msgPos : ℕ

def iceOnRecv (p : IcePipe) (data : List Byte) : IcePipe :=
  if maxDgram < data.length then p else { p with bytes := p.bytes ++ (toLe 4 data.length ++ data) }

/-- `worker_recv_ice`: each `read` takes as much as there is, up to what is asked for. -/
def workerRecvIceLoop : ℕ → IcePipe → RecvWorker σ → IcePipe × RecvWorker σ
  | 0, p, s => (p, s)
  | rounds + 1, p, s =>
    -- accumulate 4-byte length header
    let hdr := p.hdr ++ p.bytes.take (4 - p.hdr.length)
    let bytes := p.bytes.drop (4 - p.hdr.length)
    if hdr.length < 4 then (⟨bytes, hdr, p.msgPos⟩, s)
    else
      let len := ofLe hdr
      -- corrupt: drain and reset
      if maxDgram < len then (⟨[], [], 0⟩, s)
      else
        -- accumulate payload
        let got := bytes.take (len - p.msgPos)
        let s := { s with recvBuf := s.recvBuf.take p.msgPos ++ copyInto (s.recvBuf.drop p.msgPos) got }
        let bytes := bytes.drop (len - p.msgPos)
        if p.msgPos + got.length < len then (⟨bytes, hdr, p.msgPos + got.length⟩, s)
        else workerRecvIceLoop rounds ⟨bytes, [], 0⟩ (workerRecvIceMsg hooks clock s len)

end Ice

/-- A datagram comes in, or the worker is woken and runs its receive routine. -/
inductive Arrival
  | datagram (bytes : List Byte)
  | wake
  deriving DecidableEq

def Arrival.bytes? : Arrival → Option (List Byte)
  | datagram bytes => some bytes
  | wake => none

section Runs

variable {σ : Type u} (hooks : Hooks σ) (clock : ℕ → ℕ)

def socketStep : RecvWorker σ × List (List Byte) → Arrival → RecvWorker σ × List (List Byte)
  | (s, queue), .datagram bytes => (s, queue ++ [bytes])
  | (s, queue), .wake => workerRecvLoop hooks clock queue s

def socketRun (s : RecvWorker σ) (es : List Arrival) : RecvWorker σ × List (List Byte) :=
  es.foldl (socketStep hooks clock) (s, [])

-- Each round takes at least the four bytes of a length, so the rounds suffice.
def iceStep : IcePipe × RecvWorker σ → Arrival → IcePipe × RecvWorker σ
  | (p, s), .datagram bytes => (iceOnRecv p bytes, s)
  | (p, s), .wake => workerRecvIceLoop hooks clock (p.bytes.length + 1) p s

def iceRun (s : RecvWorker σ) (es : List Arrival) : IcePipe × RecvWorker σ :=
  es.foldl (iceStep hooks clock) (⟨[], [], 0⟩, s)

end Runs

end YumiBrowser.Udp
