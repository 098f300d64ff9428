import YumiBrowser.Library.Blocks
import YumiBrowser.Client.Mesh
import YumiBrowser.Client.Chunks

namespace YumiBrowser.Client.Memory

open Wire Blocks
open YumiBrowser.Group (PeerId)

/-- `yc_reasm_t` -/
structure Reasm where
  msgType : Byte
  totalLen : ℕ
  buf : Option (List Byte)
  received : ℕ

/-- What `reasm_feed` returns; the sentinel of an empty message has nothing behind it. -/
structure Message where
  msgType : Byte
  msg : Option (List Byte)
  len : ℕ

def malloc (len : ℕ) : List Byte := List.replicate len 0

namespace Reasm

/-- `reasm_reset` -/
def reset : Reasm := ⟨0, 0, none, 0⟩

def complete (r : Reasm) : Reasm × Option Message :=
  if r.buf.isSome ∧ r.totalLen ≤ r.received then (reset, some ⟨r.msgType, r.buf, r.totalLen⟩) else (r, none)

/-- Start of a chunked message; `hasMemory` says whether `malloc` succeeds. -/
def start (r : Reasm) (hasMemory : Bool) (data : List Byte) (len : ℕ) : Checked (Reasm × Option Message) :=
  if len < 6 then .ok (r, none)
  else do
    let msgType ← readAt data 1
    let totalLen ← readMany data 2 4
    let totalLen := Chunked.getU32 totalLen
    if totalLen = 0 ∨ Chunked.maxTotalLen < totalLen then .ok (reset, none)
    else if hasMemory = false then .ok (reset, none)
    else do
      let chunk := min (sub32 len 6) totalLen
      let bytes ← readMany data 6 chunk
      let buf ← memcpy (malloc totalLen) 0 bytes
      .ok (complete ⟨msgType, totalLen, some buf, chunk⟩)

def cont (r : Reasm) (data : List Byte) (len : ℕ) : Checked (Reasm × Option Message) :=
  r.buf.elim (.ok (r, none)) fun buf =>
    if r.totalLen ≤ r.received then .ok (r, none)
    else do
      let chunk := min (sub32 len 1) (sub32 r.totalLen r.received)
      let bytes ← readMany data 1 chunk
      let buf ← memcpy buf r.received bytes
      .ok (complete { r with buf := some buf, received := r.received + chunk })

def small (r : Reasm) (hasMemory : Bool) (data : List Byte) (len : ℕ) : Checked (Reasm × Option Message) := do
  let outType ← readAt data 0
  let plen := sub32 len 1
  if plen = 0 then .ok (r, some ⟨outType, none, 0⟩)
  else if hasMemory = false then .ok (r, none)
  else do
    let bytes ← readMany data 1 plen
    let msg ← memcpy (malloc plen) 0 bytes
    .ok (r, some ⟨outType, some msg, plen⟩)

end Reasm

def reasmFeed (r : Reasm) (hasMemory : Bool) (data : List Byte) : Checked (Reasm × Option Message) :=
  if data.length < 1 then .ok (r, none)
  else do
    let tag ← readAt data 0
    if tag = Chunked.chunkStart then r.start hasMemory data data.length
    else if tag = Chunked.chunkCont then r.cont data data.length
    else r.small hasMemory data data.length

structure Reasm.WellFormed (r : Reasm) : Prop where
  size : ∀ buf, r.buf = some buf → buf.length = r.totalLen
  received : r.received ≤ r.totalLen
  total : r.totalLen ≤ Chunked.maxTotalLen
  empty : r.buf = none → r.received = 0

def Message.Held (m : Message) : Prop := m.len ≤ (m.msg.getD []).length

def taken (out : Option Message) : ℕ := (out.map Message.len).getD 0

def Message.whole (m : Message) : Byte × List Byte := (m.msgType, (m.msg.getD []).take m.len)

def Reasm.shows (r : Reasm) : Chunked.Reasm := ⟨r.msgType, r.totalLen, r.buf.map (List.take r.received)⟩

variable {r : Reasm} {data : List Byte} {hasMemory : Bool} {abs : Chunked.Reasm × Option (Byte × List Byte)}

/-- What a packet of `n` bytes leaves in the buffer and in a message that is complete; with memory enough it is what
the packet does to the bytes. -/
structure Fed (r : Reasm) (hasMemory : Bool) (n : ℕ) (abs : Chunked.Reasm × Option (Byte × List Byte))
    (res : Reasm × Option Message) : Prop where
  state : res.1.WellFormed
  held : ∀ m, res.2 = some m → m.Held
  bytes : res.1.received + taken res.2 ≤ r.received + n
  shows : hasMemory = true → res.1.shows = abs.1 ∧ res.2.map Message.whole = abs.2

theorem length_malloc (len : ℕ) : (malloc len).length = len := List.length_replicate

theorem wellFormed_reset : Reasm.reset.WellFormed where
  size _ h := by cases h
  received := le_rfl
  total := Nat.zero_le _
  empty _ := rfl

theorem fed_none {n : ℕ} (h : r.WellFormed) : Fed r hasMemory n (r.shows, none) (r, none) where
  state := h
  held _ hm := by cases hm
  bytes := Nat.le_add_right _ _
  shows _ := ⟨rfl, rfl⟩

theorem fed_reset {n : ℕ} : Fed r hasMemory n (.reset, none) (Reasm.reset, none) where
  state := wellFormed_reset
  held _ hm := by cases hm
  bytes := Nat.zero_le _
  shows _ := ⟨rfl, rfl⟩

theorem fed_lost {n : ℕ} {r' : Reasm} (h : r'.WellFormed) (hle : r'.received ≤ r.received) (hlost : hasMemory = false) :
    Fed r hasMemory n abs (r', none) where
  state := h
  held _ hm := by cases hm
  bytes := hle.trans (Nat.le_add_right _ _)
  shows hmemory := by
    rw [hlost] at hmemory
    cases hmemory

theorem fed_complete {r' : Reasm} {n : ℕ} (h : r'.WellFormed) (hbytes : r'.received ≤ r.received + n) :
    Fed r hasMemory n r'.shows.complete r'.complete := by
  unfold Reasm.complete Chunked.Reasm.complete Reasm.shows
  cases hbuf : r'.buf with
  | none =>
    rw [if_neg (by simp)]
    exact ⟨h, fun m hm => (by cases hm), hbytes, fun _ => ⟨by simp [Reasm.shows, hbuf], rfl⟩⟩
  | some buf =>
    have hsize := h.size buf hbuf
    have hreceived := h.received
    have htaken : (buf.take r'.received).length = r'.received := by
      rw [List.length_take]
      omega
    simp only [Option.map_some, htaken, Option.isSome_some, true_and]
    split
    · next hdone =>
      have hfull : r'.totalLen = r'.received := le_antisymm hdone hreceived
      refine ⟨wellFormed_reset, ?_, ?_, fun _ => ⟨rfl, ?_⟩⟩
      · rintro m ⟨⟩
        rw [Message.Held, Option.getD_some, hsize]
      · change 0 + r'.totalLen ≤ _
        omega
      · simp only [Option.map_some, Message.whole, Option.getD_some]
        rw [hfull]
    · exact ⟨h, fun m hm => (by cases hm), hbytes, fun _ => ⟨by simp [Reasm.shows, hbuf], rfl⟩⟩

theorem wellFormed_copy {buf bytes : List Byte} {msgType : Byte} {totalLen off n : ℕ} (hsize : buf.length = totalLen)
    (hn : off + bytes.length = n) (hfits : n ≤ totalLen) (htotal : totalLen ≤ Chunked.maxTotalLen) :
    Reasm.WellFormed ⟨msgType, totalLen, some (splice buf off bytes), n⟩ where
  size x hx := by
    obtain rfl := Option.some.inj hx
    rw [length_splice (by omega), hsize]
  received := hfits
  total := htotal
  empty hnone := by cases hnone

theorem shows_copy {buf bytes : List Byte} {msgType : Byte} {totalLen off n : ℕ} (hoff : off ≤ buf.length)
    (hn : off + bytes.length = n) :
    Reasm.shows ⟨msgType, totalLen, some (splice buf off bytes), n⟩ =
      ⟨msgType, totalLen, some (buf.take off ++ bytes)⟩ := by
  subst hn
  exact congrArg (fun b => (⟨msgType, totalLen, some b⟩ : Chunked.Reasm)) (take_splice hoff)

theorem take_min (chunk : List Byte) (n : ℕ) : chunk.take (min chunk.length n) = chunk.take n := by
  rcases Nat.le_total chunk.length n with hle | hle
  · rw [Nat.min_eq_left hle, List.take_length, List.take_of_length_le hle]
  · rw [Nat.min_eq_right hle]

theorem copy_safe (r : Reasm) (hasMemory : Bool) (n : ℕ) (msgType : Byte) {received totalLen : ℕ}
    {buf chunk : List Byte} (hsize : buf.length = totalLen) (htotal : totalLen ≤ Chunked.maxTotalLen)
    (hroom : received ≤ totalLen) (hbytes : received + min chunk.length (totalLen - received) ≤ r.received + n) :
    Safe (Blocks.memcpy buf received (chunk.take (min chunk.length (totalLen - received))) >>= fun buf =>
      .ok (Reasm.complete ⟨msgType, totalLen, some buf, received + min chunk.length (totalLen - received)⟩))
      (Fed r hasMemory n <|
        Chunked.Reasm.complete ⟨msgType, totalLen, some (buf.take received ++ chunk.take (totalLen - received))⟩) := by
  have hcopied : (chunk.take (min chunk.length (totalLen - received))).length =
      min chunk.length (totalLen - received) := by
    rw [List.length_take]
    omega
  have hend := congrArg (received + ·) hcopied
  refine .memcpy (by rw [hcopied]; omega) (.ok ?_)
  have hcopy : Reasm.WellFormed ⟨msgType, totalLen, some (splice buf received _), _⟩ :=
    wellFormed_copy hsize hend (by omega) htotal
  have hfed : Fed r hasMemory n _ _ := fed_complete hcopy hbytes
  rw [shows_copy (by omega) hend] at hfed
  rw [take_min] at hfed ⊢
  exact hfed

theorem start_safe {tag : Byte} {payload : List Byte} (h : r.WellFormed) (hlen : (tag :: payload).length < 2 ^ 32) :
    Safe (r.start hasMemory (tag :: payload) (tag :: payload).length)
      (Fed r hasMemory (tag :: payload).length (r.shows.start payload)) := by
  rcases payload with _ | ⟨msgType, _ | ⟨b₀, _ | ⟨b₁, _ | ⟨b₂, _ | ⟨b₃, chunk⟩⟩⟩⟩⟩
  iterate 5 exact .ite (fun _ => .ok (fed_none h)) fun hsix => absurd (by simp) hsix
  rw [show r.shows.start (msgType :: b₀ :: b₁ :: b₂ :: b₃ :: chunk) =
    if Chunked.getU32 [b₀, b₁, b₂, b₃] = 0 ∨ Chunked.maxTotalLen < Chunked.getU32 [b₀, b₁, b₂, b₃] then (.reset, none)
    else Chunked.Reasm.complete
      ⟨msgType, Chunked.getU32 [b₀, b₁, b₂, b₃], some (chunk.take (Chunked.getU32 [b₀, b₁, b₂, b₃]))⟩ from rfl]
  unfold Reasm.start
  refine .ite (fun hsix => absurd hsix (by simp [List.length_cons])) fun _ => ?_
  refine .readAt (by simp) (.readMany (by simp) ?_)
  rw [show List.take 4 (List.drop 2 (tag :: msgType :: b₀ :: b₁ :: b₂ :: b₃ :: chunk)) = [b₀, b₁, b₂, b₃] from rfl]
  generalize Chunked.getU32 [b₀, b₁, b₂, b₃] = totalLen
  refine .ite (fun htotal => .ok ?_) fun htotal => .ite (fun hlost => .ok ?_) fun _ => ?_
  · rw [if_pos htotal]
    exact fed_reset
  · exact fed_lost wellFormed_reset (Nat.zero_le _) hlost
  · rw [if_neg htotal, sub32_of_le (by simp) hlen]
    change Safe (Blocks.readMany (tag :: msgType :: b₀ :: b₁ :: b₂ :: b₃ :: chunk) 6 (min chunk.length totalLen) >>= _)
      (Fed r hasMemory (chunk.length + 6) _)
    refine .readMany (by simp; omega) ?_
    have hcopy (hroom : 0 + min chunk.length (totalLen - 0) ≤ r.received + (chunk.length + 6)) :=
      copy_safe r hasMemory (chunk.length + 6) msgType (length_malloc totalLen) (Nat.not_lt.mp (not_or.mp htotal).2)
        (Nat.zero_le _) hroom
    rw [Nat.zero_add, Nat.sub_zero, List.take_zero, List.nil_append] at hcopy
    exact hcopy (by omega)

theorem cont_safe {tag : Byte} {payload : List Byte} (h : r.WellFormed) (hlen : (tag :: payload).length < 2 ^ 32) :
    Safe (r.cont (tag :: payload) (tag :: payload).length)
      (Fed r hasMemory (tag :: payload).length (r.shows.cont payload)) := by
  have hnone : Fed r hasMemory (tag :: payload).length (r.shows, none) (r, none) := fed_none h
  unfold Reasm.cont Chunked.Reasm.cont
  unfold Reasm.shows at hnone ⊢
  cases hbuf : r.buf with
  | none =>
    rw [hbuf] at hnone
    exact .ok hnone
  | some buf =>
    rw [hbuf] at hnone
    have hsize := h.size buf hbuf
    have hreceived := h.received
    have htaken : (buf.take r.received).length = r.received := by
      rw [List.length_take]
      omega
    simp only [Option.map_some, htaken, Option.elim_some] at hnone ⊢
    refine .ite (fun hdone => .ok ?_) fun hmore => ?_
    · rwa [if_pos hdone]
    · rw [if_neg hmore, sub32_of_le (by simp) hlen, sub32_of_le hreceived (h.total.trans_lt (by decide))]
      rw [List.length_cons, Nat.add_sub_cancel]
      refine .readMany (by rw [List.length_cons]; omega) ?_
      exact copy_safe r hasMemory _ r.msgType hsize h.total hreceived (by omega)

theorem small_safe {tag : Byte} {payload : List Byte} (h : r.WellFormed) (hlen : (tag :: payload).length < 2 ^ 32) :
    Safe (r.small hasMemory (tag :: payload) (tag :: payload).length)
      (Fed r hasMemory (tag :: payload).length (r.shows, some (tag, payload))) := by
  unfold Reasm.small
  refine .readAt (by simp) ?_
  rw [sub32_of_le (by simp) hlen]
  change Safe (if payload.length = 0 then _ else if hasMemory = false then _ else
    Blocks.readMany (tag :: payload) 1 payload.length >>= _) _
  refine .ite (fun hempty => .ok ?_) fun _ => .ite (fun hlost => .ok (fed_lost h le_rfl hlost)) fun _ => ?_
  · obtain rfl := List.length_eq_zero_iff.mp hempty
    exact ⟨h, fun m hm => by cases hm; exact Nat.zero_le _, Nat.le_add_right _ _, fun _ => ⟨rfl, rfl⟩⟩
  · refine .readMany (by rw [List.length_cons]; omega) ?_
    rw [List.drop_succ_cons, List.drop_zero, List.take_length]
    have hfits : 0 + payload.length ≤ (malloc payload.length).length := by rw [length_malloc, Nat.zero_add]
    have hcopied := take_splice_start (malloc payload.length) payload
    refine .memcpy hfits (.ok ⟨h, ?_, ?_, fun _ => ⟨rfl, congrArg (fun bytes => some (tag, bytes)) hcopied⟩⟩)
    · rintro m ⟨⟩
      exact ((length_splice hfits).trans (length_malloc _)).ge
    · change r.received + payload.length ≤ r.received + (payload.length + 1)
      omega

theorem reasmFeed_safe (h : r.WellFormed) (hlen : data.length < 2 ^ 32) :
    Safe (reasmFeed r hasMemory data) (Fed r hasMemory data.length (Chunked.reasmFeed r.shows data)) := by
  cases data with
  | nil => exact .ok (fed_none h)
  | cons tag payload =>
    rw [show Chunked.reasmFeed r.shows (tag :: payload) =
      if tag = Chunked.chunkStart then r.shows.start payload
      else if tag = Chunked.chunkCont then r.shows.cont payload
      else (r.shows, some (tag, payload)) from rfl]
    unfold reasmFeed
    refine .ite (fun hempty => absurd hempty (by simp)) fun _ => .readAt (by simp) ?_
    change Safe (if tag = Chunked.chunkStart then _ else if tag = Chunked.chunkCont then _ else _) _
    refine .ite (fun hstart => ?_) fun hstart => .ite (fun hcont => ?_) fun hcont => ?_
    · rw [if_pos hstart]
      exact start_safe h hlen
    · rw [if_neg hstart, if_pos hcont]
      exact cont_safe h hlen
    · rw [if_neg hstart, if_neg hcont]
      exact small_safe h hlen

section Mesh

variable {σ : Type} (c : MeshClient σ) (sender : Fin maxPeers)

def meshHdrLen : ℕ := 1 + 32 + 32 + 1

/-- `mesh_forward_to_peers` -/
def meshForwardToPeers (hasMemory : Bool) (dst : PeerId) (ttl : Byte) (wire : List Byte) (wireLen : ℕ) :
    Checked (List MeshSend) :=
  (c.directRoute sender dst).elim
    (if ttl = 0 then .ok []
    else if hasMemory = false then .ok []
    else do
      let bytes ← readMany wire 0 wireLen
      let fwd ← Blocks.memcpy (malloc wireLen) 0 bytes
      let fwd ← writeAt fwd 1 (ttl - 1)
      let sent ← readMany fwd 0 wireLen
      .ok ((c.others (some sender)).map (⟨·, sent⟩)))
    fun k => do
      let sent ← readMany wire 0 wireLen
      .ok [⟨k, sent⟩]

/-- `mesh_handle`; `b` is the bucket of the slot `sender`. -/
def meshHandle (hasMemory onMessage : Bool) (b : Bucket) (now : ℤ) (data : List Byte) :
    Checked (Bucket × List MeshOutput) :=
  let len := data.length
  if len < 1 + meshHdrLen then .ok (b, [])
  else do
    let type ← readAt data 0
    if type ≠ meshForward then .ok (b, [])
    else do
      let ttl ← readAt data 1
      let innerCh ← readAt data (2 + 2 * 32)
      let payloadLen := sub32 (sub32 len 1) meshHdrLen
      let allowed := b.meshBucketAllow now len
      if allowed.2 = false then .ok (allowed.1, [])
      else do
        let counted := allowed.1.count len
        let abuse := if counted.2 then [.abuse (c.peers sender).peerId] else []
        let dstId ← readArray data (2 + 32) 32
        if dstId.cells = c.peerId.val then
          if onMessage ∧ userCh ≤ innerCh ∧ innerCh < attestCh then do
            let srcId ← readArray data 2 32
            let payload ← readMany data (1 + meshHdrLen) payloadLen
            .ok (counted.1, abuse ++ [.message srcId.toBytes innerCh payload true])
          else .ok (counted.1, abuse)
        else if ttl = 0 then .ok (counted.1, abuse)
        else do
          let sends ← meshForwardToPeers c sender hasMemory dstId.toBytes ttl data len
          .ok (counted.1, abuse ++ sends.map .send)

end Mesh

def meshCh : BitVec 8 := 1

inductive Output
  | sync (msgType : Byte) (msg : List Byte)
  | attest (msgType : Byte) (msg : List Byte)
  | mesh (output : MeshOutput)

def Output.upward : Output → List Byte
  | .sync _ msg => msg
  | .attest _ msg => msg
  | .mesh (.message _ _ payload _) => payload
  | .mesh (.abuse _) => []
  | .mesh (.send _) => []

/-- What a call of `sudp_recv_cb` finds around the slot. -/
structure Surroundings (σ : Type) where
  client : MeshClient σ
  now : ℤ
  hasMemory : Bool
  onMessage : Bool

/-- The part of `peer_slot_t` that a packet changes, and what came of the packets so far. -/
structure Slot where
  syncReasm : Reasm
  attestReasm : Reasm
  bucket : Bucket
  lastRecv : ℤ
  calls : ℕ
  outputs : List Output

namespace Slot

def fresh (bucket : Bucket) (now : ℤ) : Slot := ⟨.reset, .reset, bucket, now, 0, []⟩

def put (s : Slot) (outputs : List Output) : Slot := { s with outputs := s.outputs ++ outputs }

end Slot

def handle (out : Option Message) (wrap : Byte → List Byte → Output) : Checked (List Output) :=
  out.elim (.ok []) fun m => do
    let bytes ← readPtr m.msg m.len
    .ok [wrap m.msgType bytes]

section Callback

variable {σ : Type} (env : ℕ → Surroundings σ) (k : Fin maxPeers)

def sudpRecvCb (s : Slot) (channel : Byte) (data : List Byte) (reliable : Bool) : Checked Slot :=
  let w := env s.calls
  let s := { s with calls := s.calls + 1, lastRecv := w.now }
  if channel = syncCh then do
    let fed ← reasmFeed s.syncReasm w.hasMemory data
    let outputs ← handle fed.2 .sync
    .ok ({ s with syncReasm := fed.1 }.put outputs)
  else if channel = meshCh then do
    let handled ← meshHandle w.client k w.hasMemory w.onMessage s.bucket w.now data
    .ok ({ s with bucket := handled.1 }.put (handled.2.map .mesh))
  else if channel = attestCh then do
    let fed ← reasmFeed s.attestReasm w.hasMemory data
    let outputs ← handle fed.2 .attest
    .ok ({ s with attestReasm := fed.1 }.put outputs)
  else if userCh ≤ channel ∧ channel < attestCh then
    if w.onMessage then .ok (s.put [.mesh (.message (w.client.peers k).peerId channel data reliable)]) else .ok s
  else .ok s

end Callback

/-- A slot that has been given the packets of `given`: its buffers are sound, what it has handed on and
still holds is not more than what came, and what is not put together of chunks is part of one packet. -/
structure Slot.Accounts (given : List (List Byte)) (s : Slot) : Prop where
  sync : s.syncReasm.WellFormed
  attest : s.attestReasm.WellFormed
  bytes : sumLen (s.outputs.map Output.upward) + s.syncReasm.received + s.attestReasm.received ≤ sumLen given
  part : ∀ o, Output.mesh o ∈ s.outputs → ∃ data ∈ given, (Output.mesh o).upward <:+: data

section Accounts

variable {σ : Type} {c : MeshClient σ} {k sender : Fin maxPeers} {onMessage : Bool} {b : Bucket} {now : ℤ}

/-- What the outputs of `mesh_handle` hand on is part of the packet, and not more than that. -/
def FromPacket (data : List Byte) (res : Bucket × List MeshOutput) : Prop :=
  sumLen (res.2.map fun o => (Output.mesh o).upward) ≤ data.length ∧
    ∀ o ∈ res.2, (Output.mesh o).upward <:+: data

theorem sumLen_silent {outputs : List MeshOutput} (h : ∀ o ∈ outputs, (Output.mesh o).upward = []) :
    sumLen (outputs.map fun o => (Output.mesh o).upward) = 0 := by
  refine weight_eq_zero _ fun x hx => ?_
  obtain ⟨o, ho, rfl⟩ := List.mem_map.mp hx
  rw [h o ho, List.length_nil]

theorem fromPacket_silent {outputs : List MeshOutput} (h : ∀ o ∈ outputs, (Output.mesh o).upward = []) :
    FromPacket data (b, outputs) := by
  constructor
  · rw [sumLen_silent h]
    exact Nat.zero_le _
  · intro o ho
    rw [h o ho]
    exact List.nil_infix

theorem abuse_silent {c : MeshClient σ} {flag : Bool} :
    ∀ o ∈ (if flag then [MeshOutput.abuse (c.peers sender).peerId] else []), (Output.mesh o).upward = [] := by
  cases flag
  · simp
  · simp [Output.upward]

theorem fromPacket_message {outputs : List MeshOutput} {o : MeshOutput}
    (h : ∀ o ∈ outputs, (Output.mesh o).upward = []) (ho : (Output.mesh o).upward <:+: data) :
    FromPacket data (b, outputs ++ [o]) := by
  constructor
  · rw [List.map_append, sumLen_append, sumLen_silent h, Nat.zero_add, List.map_singleton, sumLen_singleton]
    exact ho.length_le
  · intro x hx
    obtain hx | hx := List.mem_append.mp hx
    · rw [h x hx]
      exact List.nil_infix
    · rw [List.mem_singleton.mp hx]
      exact ho

theorem meshForward_safe {dst : PeerId} {ttl : Byte} (hsize : 1 < data.length) :
    Safe (meshForwardToPeers c sender hasMemory dst ttl data data.length) fun sends =>
      hasMemory = true → sends = c.meshForwardToPeers sender dst ttl data := by
  unfold meshForwardToPeers MeshClient.meshForwardToPeers
  cases c.directRoute sender dst with
  | none =>
    refine .ite (fun httl => .ok fun _ => (if_pos httl).symm) fun httl => ?_
    refine .ite (fun hlost => .ok fun hmemory => ?_) fun _ => ?_
    · rw [hlost] at hmemory
      cases hmemory
    · have hwhole : splice (malloc data.length) 0 data = data := splice_whole (length_malloc _).symm
      refine .readMany (by omega) ?_
      rw [List.drop_zero, List.take_length]
      refine .memcpy (by rw [length_malloc, Nat.zero_add]) ?_
      rw [hwhole]
      refine .writeAt hsize (.readMany (by rw [List.length_set]; omega) (.ok fun _ => ?_))
      rw [List.drop_zero, List.take_of_length_le (List.length_set ..).le]
      exact (if_neg httl).symm
  | some slot =>
    refine .readMany (by omega) (.ok fun _ => ?_)
    rw [List.drop_zero, List.take_length]

theorem parse_short (h : data.length < 1 + meshHdrLen) : MeshPacket.parse data = none := by
  cases hparse : MeshPacket.parse data with
  | none => rfl
  | some p =>
    rw [MeshPacket.wire_of_parse hparse, MeshPacket.wire] at h
    simp only [List.length_cons, List.length_append, p.src.length_eq, p.dst.length_eq] at h
    unfold meshHdrLen at h
    omega

theorem parse_fields {type : Byte} (ttl : Byte) {rest : List Byte} (htype : type = meshForward)
    (hlen : 65 ≤ rest.length) (src dst : PeerId) (hsrc : src.val = rest.take 32)
    (hdst : dst.val = (rest.drop 32).take 32) :
    MeshPacket.parse (type :: ttl :: rest) = some ⟨ttl, src, dst, rest.get ⟨64, by omega⟩, rest.drop 65⟩ := by
  have hrest : rest = src.val ++ (dst.val ++ rest.get ⟨64, by omega⟩ :: rest.drop 65) := by
    have hlast : rest.get ⟨64, by omega⟩ :: rest.drop 65 = rest.drop 64 := List.getElem_cons_drop (by omega)
    have hmid : (rest.drop 32).take 32 ++ rest.drop 64 = rest.drop 32 := by
      have hdrop := List.take_append_drop 32 (rest.drop 32)
      rwa [List.drop_drop] at hdrop
    rw [hlast, hsrc, hdst, hmid, List.take_append_drop]
  have hwire : type :: ttl :: rest = MeshPacket.wire ⟨ttl, src, dst, rest.get ⟨64, by omega⟩, rest.drop 65⟩ := by
    rw [MeshPacket.wire, ← hrest, htype]
  rw [hwire, MeshPacket.parse_wire]

/-- The calls of `on_event`. -/
def abuse (c : MeshClient σ) (sender : Fin maxPeers) (flag : Bool) : List MeshOutput :=
  if flag then [.abuse (c.peers sender).peerId] else []

theorem meshHandle_eq {p : MeshPacket} (hp : MeshPacket.parse data = some p) :
    c.meshHandle b now sender data =
      if (b.meshBucketAllow now data.length).2 = false then ((b.meshBucketAllow now data.length).1, [])
      else (((b.meshBucketAllow now data.length).1.count data.length).1,
        abuse c sender ((b.meshBucketAllow now data.length).1.count data.length).2 ++ c.dispatch sender p data) := by
  unfold MeshClient.meshHandle
  rw [hp]
  dsimp only
  generalize b.meshBucketAllow now data.length = allowed
  rcases allowed with ⟨b', _ | _⟩
  · rfl
  · dsimp only
    generalize b'.count data.length = counted
    rcases counted with ⟨b'', _ | _⟩
    · rfl
    · rfl

theorem meshHandle_safe (hlen : data.length < 2 ^ 32) :
    Safe (meshHandle c sender hasMemory onMessage b now data) fun res => FromPacket data res ∧
      (hasMemory = true → onMessage = true → res = c.meshHandle b now sender data) := by
  unfold meshHandle
  refine .ite (fun hshort => .ok ⟨fromPacket_silent (by simp), fun _ _ => ?_⟩) fun hshort => ?_
  · rw [MeshClient.meshHandle, parse_short hshort]
  have hsize : 67 ≤ data.length := Nat.not_lt.mp hshort
  rcases data with _ | ⟨type, _ | ⟨ttl, rest⟩⟩
  · simp at hsize
  · simp at hsize
  have hrest : 65 ≤ rest.length := by
    rw [List.length_cons, List.length_cons] at hsize
    omega
  refine .readAt (by omega) (.ite (fun htype => .ok ⟨fromPacket_silent (by simp), fun _ _ => ?_⟩) fun htype => ?_)
  · rw [MeshClient.meshHandle, show MeshPacket.parse (type :: ttl :: rest) = none from if_neg htype]
  have htype : type = meshForward := not_not.mp htype
  have hsrc : (rest.take 32).length = 32 := by
    rw [List.length_take]
    omega
  have hdst : ((rest.drop 32).take 32).length = 32 := by
    rw [List.length_take, List.length_drop]
    omega
  rw [meshHandle_eq (parse_fields ttl htype hrest ⟨_, hsrc⟩ ⟨_, hdst⟩ rfl rfl)]
  refine .readAt (by omega) (.readAt (by omega) ?_)
  dsimp only
  rw [sub32_of_le (by omega) hlen, sub32_of_le (show meshHdrLen ≤ _ by unfold meshHdrLen; omega) (by omega)]
  refine .ite (fun hover => .ok ⟨fromPacket_silent (by simp), fun _ _ => ?_⟩) fun hallowed => ?_
  · rw [if_pos hover]
  rw [if_neg hallowed]
  refine .readArray (by omega) fun ⟨_, _⟩ hread => ?_
  obtain rfl : _ = (rest.drop 32).take 32 := hread
  unfold MeshClient.dispatch
  refine .ite (fun hhome => .ite (fun huser => ?_) fun hother => ?_) fun haway => ?_
  · refine .readArray (by omega) fun ⟨_, _⟩ hread => .readMany (by unfold meshHdrLen; omega) (.ok ⟨?_, fun _ _ => ?_⟩)
    · exact fromPacket_message abuse_silent ((List.take_prefix _ _).isInfix.trans (List.drop_suffix _ _).isInfix)
    · obtain rfl : _ = rest.take 32 := hread
      have huser : userCh ≤ rest.get ⟨64, by omega⟩ ∧ rest.get ⟨64, by omega⟩ < attestCh := huser.2
      rw [if_pos (Bytes.ext hhome), if_pos huser]
      refine congrArg (fun payload => (_, _ ++ [MeshOutput.message _ _ payload true])) ?_
      exact List.take_of_length_le (by simp [meshHdrLen])
  · refine .ok ⟨fromPacket_silent abuse_silent, fun _ hmessage => ?_⟩
    have hother : ¬ (userCh ≤ rest.get ⟨64, by omega⟩ ∧ rest.get ⟨64, by omega⟩ < attestCh) :=
      fun huser => hother ⟨hmessage, huser⟩
    rw [if_pos (Bytes.ext hhome), if_neg hother, List.append_nil]
    rfl
  · have haway : ¬ (⟨(rest.drop 32).take 32, hdst⟩ : PeerId) = c.peerId := fun hhome => haway (congrArg Bytes.val hhome)
    refine .ite (fun httl => .ok ⟨fromPacket_silent abuse_silent, fun _ _ => ?_⟩) fun httl => ?_
    · rw [if_neg haway, if_pos (show ttl = 0 from httl), List.append_nil]
      rfl
    refine .bind (meshForward_safe (by omega)) fun sends hsends => .ok ⟨fromPacket_silent fun o ho => ?_, ?_⟩
    · obtain ho | ho := List.mem_append.mp ho
      · exact abuse_silent o ho
      · obtain ⟨sent, _, rfl⟩ := List.mem_map.mp ho
        rfl
    · intro hmemory _
      rw [if_neg haway, if_neg (show ¬ ttl = 0 from httl), hsends hmemory]
      rfl

theorem handle_safe {out : Option Message} {wrap : Byte → List Byte → Output} (hheld : ∀ m, out = some m → m.Held)
    (hwrap : ∀ t msg, (wrap t msg).upward = msg) :
    Safe (handle out wrap) fun outputs =>
      sumLen (outputs.map Output.upward) = taken out ∧ ∀ o ∈ outputs, ∃ t msg, o = wrap t msg := by
  unfold handle
  cases out with
  | none => exact .ok ⟨rfl, fun o ho => absurd ho List.not_mem_nil⟩
  | some m =>
    have hlen : m.len ≤ (m.msg.getD []).length := hheld m rfl
    refine .readPtr hlen (.ok ⟨?_, fun o ho => ⟨_, _, List.mem_singleton.mp ho⟩⟩)
    rw [List.map_singleton, sumLen_singleton, hwrap, List.length_take, Nat.min_eq_left hlen]
    rfl

namespace Slot

variable {s : Slot} {given : List (List Byte)} {env : ℕ → Surroundings σ} {channel : Byte} {reliable : Bool}

theorem accounts_fresh (bucket : Bucket) (now : ℤ) : (fresh bucket now).Accounts [] where
  sync := wellFormed_reset
  attest := wellFormed_reset
  bytes := le_rfl
  part _ ho := absurd ho List.not_mem_nil

theorem Accounts.next {s' : Slot} {outputs : List Output} (h : s.Accounts given) (hsync : s'.syncReasm.WellFormed)
    (hattest : s'.attestReasm.WellFormed) (hout : s'.outputs = s.outputs ++ outputs)
    (hbytes : sumLen (outputs.map Output.upward) + s'.syncReasm.received + s'.attestReasm.received ≤
      s.syncReasm.received + s.attestReasm.received + data.length)
    (hpart : ∀ o, Output.mesh o ∈ outputs → (Output.mesh o).upward <:+: data) : s'.Accounts (given ++ [data]) where
  sync := hsync
  attest := hattest
  bytes := by
    have hold := h.bytes
    rw [hout, List.map_append, sumLen_append, sumLen_append, sumLen_singleton]
    omega
  part o ho := by
    rw [hout] at ho
    obtain ho | ho := List.mem_append.mp ho
    · obtain ⟨packet, hpacket, ho⟩ := h.part o ho
      exact ⟨packet, List.mem_append_left _ hpacket, ho⟩
    · exact ⟨data, List.mem_append_right _ List.mem_cons_self, hpart o ho⟩

theorem Accounts.idle {s' : Slot} (h : s.Accounts given) (hsync : s'.syncReasm = s.syncReasm)
    (hattest : s'.attestReasm = s.attestReasm) (hout : s'.outputs = s.outputs) : s'.Accounts (given ++ [data]) := by
  refine h.next (hsync ▸ h.sync) (hattest ▸ h.attest) (hout.trans (List.append_nil _).symm) ?_ fun o ho => ?_
  · rw [hsync, hattest]
    exact Nat.le_trans (Nat.le_of_eq (by simp)) (Nat.le_add_right _ _)
  · exact absurd ho List.not_mem_nil

theorem sudpRecvCb_safe (h : s.Accounts given) (hlen : data.length < 2 ^ 32) :
    Safe (sudpRecvCb env k s channel data reliable) (Accounts (given ++ [data])) := by
  unfold sudpRecvCb
  refine .ite (fun _ => ?_) fun _ => .ite (fun _ => ?_) fun _ => .ite (fun _ => ?_) fun _ => ?_
  · refine .bind (reasmFeed_safe h.sync hlen) fun fed hfed => ?_
    refine .bind (handle_safe hfed.held fun _ _ => rfl) fun outputs hout => .ok ?_
    refine h.next hfed.state h.attest rfl ?_ fun o ho => ?_
    · have hbytes := hfed.bytes
      rw [hout.1]
      change taken fed.2 + fed.1.received + s.attestReasm.received ≤ _
      dsimp only at hbytes
      omega
    · obtain ⟨_, _, ho⟩ := hout.2 _ ho
      cases ho
  · refine .bind (meshHandle_safe hlen) fun handled hhandled => .ok ?_
    refine h.next h.sync h.attest rfl ?_ fun o ho => ?_
    · have hbytes := hhandled.1.1
      rw [List.map_map]
      change sumLen (handled.2.map fun o => (Output.mesh o).upward) + s.syncReasm.received + s.attestReasm.received ≤ _
      omega
    · obtain ⟨_, ho, ⟨⟩⟩ := List.mem_map.mp ho
      exact hhandled.1.2 _ ho
  · refine .bind (reasmFeed_safe h.attest hlen) fun fed hfed => ?_
    refine .bind (handle_safe hfed.held fun _ _ => rfl) fun outputs hout => .ok ?_
    refine h.next h.sync hfed.state rfl ?_ fun o ho => ?_
    · have hbytes := hfed.bytes
      rw [hout.1]
      change taken fed.2 + s.syncReasm.received + fed.1.received ≤ _
      dsimp only at hbytes
      omega
    · obtain ⟨_, _, ho⟩ := hout.2 _ ho
      cases ho
  · refine .ite (fun _ => .ite (fun _ => .ok ?_) fun _ => .ok (h.idle rfl rfl rfl)) fun _ => .ok (h.idle rfl rfl rfl)
    refine h.next h.sync h.attest rfl ?_ fun o ho => ?_
    · rw [List.map_singleton, sumLen_singleton]
      change data.length + s.syncReasm.received + s.attestReasm.received ≤ _
      omega
    · cases List.mem_singleton.mp ho
      exact List.infix_rfl

end Slot

end Accounts

end YumiBrowser.Client.Memory
