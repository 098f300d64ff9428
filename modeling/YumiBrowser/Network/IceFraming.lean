import YumiBrowser.Library.System
import YumiBrowser.Network.IceAgreement

universe u

namespace YumiBrowser.Udp

open Transition Wire

variable {σ : Type u}

/-- What `yumi_udp_client_create` opens: the pipe of the ICE agent where there is a STUN server, and the
socket where there is none. The descriptor of the other one stays -1. -/
inductive Transport
  | ice
  | socket
  deriving DecidableEq

structure IceReader (σ : Type u) where
  pipe : IcePipe
  worker : RecvWorker σ
  written : List (List Byte)
  recovered : List (List Byte)

def iceFrame (data : List Byte) : List Byte := toLe 4 data.length ++ data

namespace IceReader

def start (worker : RecvWorker σ) : IceReader σ := ⟨⟨[], [], 0⟩, worker, [], []⟩

section Calls

variable (hooks : Hooks σ) (clock : ℕ → ℕ) (s : IceReader σ)

def len : ℕ := ofLe s.pipe.hdr

/-- `ice_on_recv` -/
def write (data : List Byte) : IceReader σ :=
  { s with
    pipe := iceOnRecv s.pipe data
    written := if maxDgram < data.length then s.written else s.written ++ [data] }

def takeMessage : IceReader σ :=
  if 4 ≤ s.pipe.hdr.length ∧ s.len ≤ maxDgram ∧ s.len ≤ s.pipe.msgPos then
    { s with
      pipe := ⟨s.pipe.bytes, [], 0⟩
      worker := workerRecvIceMsg hooks clock s.worker s.len
      recovered := s.recovered ++ [s.worker.recvBuf.take s.len] }
  else s

/-- A `read` returns up to `size` bytes of what is there, or nothing: part of the header, or of the payload. -/
def readPart (size : ℕ) : Option (IceReader σ) :=
  if s.pipe.hdr.length < 4 then
    let part := s.pipe.bytes.take (min size (4 - s.pipe.hdr.length))
    if part = [] then none
    else some { s with pipe := ⟨s.pipe.bytes.drop part.length, s.pipe.hdr ++ part, s.pipe.msgPos⟩ }
  else
    let part := s.pipe.bytes.take (min size (s.len - s.pipe.msgPos))
    if part = [] then none
    else some { s with
      pipe := ⟨s.pipe.bytes.drop part.length, s.pipe.hdr, s.pipe.msgPos + part.length⟩
      worker := { s.worker with
        recvBuf := s.worker.recvBuf.take s.pipe.msgPos ++ copyInto (s.worker.recvBuf.drop s.pipe.msgPos) part } }

def drain : List ℕ → List Byte → List Byte
  | [], bytes => bytes
  | size :: sizes, bytes =>
    let discard := bytes.take (min size 256)
    if discard = [] then bytes else drain sizes (bytes.drop discard.length)

def reset (sizes : List ℕ) : IceReader σ := { s with pipe := ⟨drain sizes s.pipe.bytes, [], 0⟩ }

def Corrupt : Prop := 4 ≤ s.pipe.hdr.length ∧ maxDgram < s.len

instance : Decidable s.Corrupt := inferInstanceAs (Decidable (_ ∧ _))

/-- `worker_recv_ice`, whose reads return up to `sizes` bytes: the call ends with one that returns none. -/
def workerRecvIce : List ℕ → IceReader σ → IceReader σ
  | [], s =>
    let s := s.takeMessage hooks clock
    if s.Corrupt then s.reset [] else s
  | size :: sizes, s =>
    let s := s.takeMessage hooks clock
    if s.Corrupt then s.reset (size :: sizes)
    else
      match s.readPart size with
      | none => s
      | some s => workerRecvIce sizes s

/-- A datagram that `worker_recv` takes from the socket meanwhile. -/
def recvDatagram (datagram : List Byte) : IceReader σ :=
  { s with worker := workerRecvDatagram hooks clock s.worker datagram }

end Calls

end IceReader

/-- What the agent writes, and what `epoll_wait` lets the primary worker read. -/
inductive IceEvent
  | write (data : List Byte)
  | recvIce (sizes : List ℕ)
  | recv (datagram : List Byte)

namespace IceReader

variable (hooks : Hooks σ) (clock : ℕ → ℕ)

-- Only the descriptor that was opened is registered: no datagram comes in next to a pipe, and without an
-- agent nothing is written.
def next (transport : Transport) (s : IceReader σ) (e : IceEvent) : IceReader σ :=
  match transport, e with
  | .ice, .write data => s.write data
  | .ice, .recvIce sizes => s.workerRecvIce hooks clock sizes
  | .socket, .recv datagram => s.recvDatagram hooks clock datagram
  | _, _ => s

def run (transport : Transport) (worker : RecvWorker σ) (es : List IceEvent) : IceReader σ :=
  es.foldl (next hooks clock transport) (start worker)

section Framing

variable (s : IceReader σ)

def held : List Byte := s.worker.recvBuf.take s.pipe.msgPos

def pending : List Byte := s.pipe.hdr ++ s.held ++ s.pipe.bytes

/-- The messages recovered are those written, in their order, and what is still to come is the rest of them. -/
def Recovers : Prop := ∃ rest, s.written = s.recovered ++ rest ∧ s.pending = rest.flatMap iceFrame

/-- How far a message has been read. -/
structure Orderly : Prop where
  written : ∀ data ∈ s.written, data.length ≤ maxDgram
  hdr : s.pipe.hdr.length ≤ 4
  fresh : s.pipe.hdr.length < 4 → s.pipe.msgPos = 0
  within : 4 ≤ s.pipe.hdr.length → s.pipe.msgPos ≤ s.len
  bounded : s.pipe.msgPos ≤ maxDgram
  held : s.pipe.msgPos ≤ s.worker.recvBuf.length

end Framing

section Buffer

theorem length_copyInto (buf bytes : List Byte) : (copyInto buf bytes).length = max bytes.length buf.length := by
  rw [copyInto, List.length_append, List.length_drop]
  omega

end Buffer

section Steps

variable {hooks clock} {s t : IceReader σ} {data datagram : List Byte} {size : ℕ}

theorem length_iceFrame : (iceFrame data).length = 4 + data.length := by
  rw [iceFrame, List.length_append, length_toLe]

theorem Orderly.length_held (h : s.Orderly) : s.held.length = s.pipe.msgPos := by
  rw [IceReader.held, List.length_take, Nat.min_eq_left h.held]

theorem Recovers.drained (hrec : s.Recovers) (hpending : s.pending = []) : s.recovered = s.written := by
  obtain ⟨rest, hwritten, hrest⟩ := hrec
  cases rest with
  | nil => rw [hwritten, List.append_nil]
  | cons data rest =>
    have hlen := congrArg List.length (hrest.symm.trans hpending)
    rw [List.flatMap_cons, List.length_append, length_iceFrame, List.length_nil] at hlen
    omega

theorem Recovers.announced (h : s.Orderly) (hrec : s.Recovers) (hhdr : 4 ≤ s.pipe.hdr.length) :
    ∃ data rest, s.written = s.recovered ++ data :: rest ∧ s.len = data.length ∧
      s.held ++ s.pipe.bytes = data ++ rest.flatMap iceFrame := by
  obtain ⟨rest, hwritten, hpending⟩ := hrec
  cases rest with
  | nil =>
    have hlen := congrArg List.length hpending
    rw [pending, List.length_append, List.length_append, List.flatMap_nil, List.length_nil] at hlen
    omega
  | cons data rest =>
    rw [pending, List.flatMap_cons, iceFrame, List.append_assoc, List.append_assoc] at hpending
    obtain ⟨hheader, hbody⟩ := List.append_inj hpending (by rw [length_toLe]; have := h.hdr; omega)
    refine ⟨data, rest, hwritten, ?_, hbody⟩
    have hsize : data.length ≤ maxDgram := h.written data (by rw [hwritten]; simp)
    rw [len, hheader, ofLe_toLe]
    exact Nat.mod_eq_of_lt (lt_of_le_of_lt hsize (by decide))

theorem Recovers.sound (h : s.Orderly) (hrec : s.Recovers) : ¬ s.Corrupt := by
  rintro ⟨hhdr, hlarge⟩
  obtain ⟨data, rest, hwritten, hlen, -⟩ := hrec.announced h hhdr
  have hsize : data.length ≤ maxDgram := h.written data (by rw [hwritten]; simp)
  omega

theorem Orderly.takeMessage (h : s.Orderly) : (s.takeMessage hooks clock).Orderly := by
  unfold IceReader.takeMessage
  split
  · exact ⟨h.written, Nat.zero_le _, fun _ => rfl, fun hfull => absurd hfull (Nat.not_succ_le_zero 3),
      Nat.zero_le _, Nat.zero_le _⟩
  · exact h

theorem Recovers.takeMessage (h : s.Orderly) (hrec : s.Recovers) : (s.takeMessage hooks clock).Recovers := by
  unfold IceReader.takeMessage
  split
  · rename_i hcomplete
    obtain ⟨hhdr, -, hread⟩ := hcomplete
    obtain ⟨data, rest, hwritten, hlen, hbody⟩ := hrec.announced h hhdr
    have hpos : s.pipe.msgPos = s.len := Nat.le_antisymm (h.within hhdr) hread
    obtain ⟨hdata, hbytes⟩ := List.append_inj hbody (by rw [h.length_held, hpos, hlen])
    refine ⟨rest, ?_, ?_⟩
    · rw [hwritten, ← hdata, IceReader.held, hpos, List.append_assoc]
      rfl
    · exact hbytes
  · exact hrec

theorem take_append_drop_length (l : List Byte) (n : ℕ) : l.take n ++ l.drop (l.take n).length = l := by
  rw [List.length_take]
  by_cases hn : n ≤ l.length
  · rw [Nat.min_eq_left hn, List.take_append_drop]
  · rw [Nat.min_eq_right (by omega), List.drop_length, List.append_nil, List.take_of_length_le (by omega)]

theorem readPart_cases (hpart : s.readPart size = some t) (h : s.Orderly) (hsound : ¬ s.Corrupt) :
    t.Orderly ∧ t.written = s.written ∧ t.recovered = s.recovered ∧ t.pending = s.pending := by
  unfold readPart at hpart
  split at hpart
  · rename_i hhdr
    dsimp only at hpart
    split at hpart
    · cases hpart
    · obtain rfl := Option.some.inj hpart
      have hzero := h.fresh hhdr
      have hmoved := take_append_drop_length s.pipe.bytes (min size (4 - s.pipe.hdr.length))
      have hsize := List.length_take_le (min size (4 - s.pipe.hdr.length)) s.pipe.bytes
      refine ⟨⟨h.written, ?_, fun _ => hzero, fun _ => ?_, h.bounded, h.held⟩, rfl, rfl, ?_⟩
      · rw [List.length_append]
        omega
      · exact hzero ▸ Nat.zero_le _
      · simp only [pending, IceReader.held, hzero, List.take_zero, List.append_nil, List.append_assoc, hmoved]
  · rename_i hhdr
    have hfull : 4 ≤ s.pipe.hdr.length := Nat.not_lt.mp hhdr
    dsimp only at hpart
    split at hpart
    · cases hpart
    · obtain rfl := Option.some.inj hpart
      have hwithin := h.within hfull
      have hmax : s.len ≤ maxDgram := Nat.not_lt.mp fun hlarge => hsound ⟨hfull, hlarge⟩
      have hmoved := take_append_drop_length s.pipe.bytes (min size (s.len - s.pipe.msgPos))
      have hsize := List.length_take_le (min size (s.len - s.pipe.msgPos)) s.pipe.bytes
      generalize s.pipe.bytes.take (min size (s.len - s.pipe.msgPos)) = part at hmoved hsize ⊢
      have hpos : s.pipe.msgPos + part.length ≤ s.len := by omega
      have hheld : (s.worker.recvBuf.take s.pipe.msgPos ++
            copyInto (s.worker.recvBuf.drop s.pipe.msgPos) part).take (s.pipe.msgPos + part.length) =
          s.held ++ part := by
        rw [copyInto, ← List.append_assoc]
        exact List.take_left' (by rw [List.length_append, ← IceReader.held, h.length_held])
      refine ⟨⟨h.written, h.hdr, fun hshort => absurd hshort hhdr, fun _ => hpos, hpos.trans hmax, ?_⟩,
        rfl, rfl, ?_⟩
      · rw [List.length_append, length_copyInto, ← IceReader.held, h.length_held]
        exact Nat.add_le_add_left (Nat.le_max_left _ _) _
      · simp only [pending]
        rw [IceReader.held, hheld, List.append_assoc, List.append_assoc, List.append_assoc, hmoved]

theorem Orderly.reset (h : s.Orderly) (sizes : List ℕ) : (s.reset sizes).Orderly where
  written := h.written
  hdr := Nat.zero_le _
  fresh _ := rfl
  within hfull := absurd hfull (Nat.not_succ_le_zero 3)
  bounded := Nat.zero_le _
  held := Nat.zero_le _

theorem Orderly.workerRecvIce (sizes : List ℕ) (h : s.Orderly) : (s.workerRecvIce hooks clock sizes).Orderly := by
  induction sizes generalizing s with
  | nil =>
    rw [IceReader.workerRecvIce]
    split
    · exact h.takeMessage.reset []
    · exact h.takeMessage
  | cons size sizes ih =>
    rw [IceReader.workerRecvIce]
    split
    · exact h.takeMessage.reset _
    · rename_i hsound
      split
      · exact h.takeMessage
      · rename_i hpart
        exact ih (readPart_cases hpart h.takeMessage hsound).1

theorem Recovers.workerRecvIce (sizes : List ℕ) (h : s.Orderly) (hrec : s.Recovers) :
    (s.workerRecvIce hooks clock sizes).Recovers := by
  induction sizes generalizing s with
  | nil =>
    rw [IceReader.workerRecvIce]
    rw [if_neg ((hrec.takeMessage h).sound h.takeMessage)]
    exact hrec.takeMessage h
  | cons size sizes ih =>
    rw [IceReader.workerRecvIce]
    have hsound : ¬ (s.takeMessage hooks clock).Corrupt := (hrec.takeMessage h).sound h.takeMessage
    rw [if_neg hsound]
    split
    · exact hrec.takeMessage h
    · rename_i t hpart
      obtain ⟨horderly, hwritten, hrecovered, hpending⟩ := readPart_cases hpart h.takeMessage hsound
      apply ih horderly
      obtain ⟨rest, hlog, hrest⟩ := hrec.takeMessage h
      exact ⟨rest, by rw [hwritten, hrecovered, hlog], by rw [hpending, hrest]⟩

theorem Orderly.write (h : s.Orderly) (data : List Byte) : (s.write data).Orderly := by
  unfold IceReader.write iceOnRecv
  split
  · exact h
  · rename_i hsize
    refine ⟨fun m hm => ?_, h.hdr, h.fresh, h.within, h.bounded, h.held⟩
    obtain hm | hm := List.mem_append.mp hm
    · exact h.written m hm
    · rw [List.mem_singleton.mp hm]
      exact Nat.not_lt.mp hsize

theorem Recovers.write (hrec : s.Recovers) (data : List Byte) : (s.write data).Recovers := by
  unfold IceReader.write iceOnRecv
  split
  · exact hrec
  · obtain ⟨rest, hwritten, hpending⟩ := hrec
    refine ⟨rest ++ [data], ?_, ?_⟩
    · dsimp only
      rw [hwritten, List.append_assoc]
    · rw [List.flatMap_append, ← hpending]
      simp [pending, iceFrame, IceReader.held]

end Steps

variable {hooks clock}

end IceReader

end YumiBrowser.Udp
