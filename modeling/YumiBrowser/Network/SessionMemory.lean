import YumiBrowser.Library.Blocks
import YumiBrowser.Network.HandshakeFragments
import YumiBrowser.Network.Session

namespace YumiBrowser.Sudp.Memory

open Wire Blocks
open YumiBrowser.Group (PeerId)

def mlkemPublicKeyLen : ℕ := 1568
def mlkemCiphertextLen : ℕ := 1568
def bp512PublicKeyLen : ℕ := 129
def frodoPublicKeyLen : ℕ := 21520
def frodoCiphertextLen : ℕ := 21696
def mldsaSignLen : ℕ := 4627

def helloBaseLen : ℕ := 1 + 32 + 4 + 1 + mlkemPublicKeyLen + bp512PublicKeyLen

/-- `sudp_frag_slot_t` -/
structure FragSlot where
  data : Option (List Byte)
  len : ℕ

def FragSlot.empty : FragSlot := ⟨none, 0⟩

/-- The part of `sudp_hs_ctx_t` that parsing reads or writes. -/
structure HsCtx where
  state : HsState
  firstContact : Bool
  peerId : PeerId
  frags : Block FragSlot 256
  fragTotal : Byte
  fragReceived : Byte
  fragStartUs : BitVec 64

namespace HsCtx

/-- `hs_ctx_create` -/
def create (firstContact : Bool) : HsCtx where
  state := .idle
  firstContact := firstContact
  peerId := .fill 32 0
  frags := .fill 256 .empty
  fragTotal := 0
  fragReceived := 0
  fragStartUs := 0

/-- `hs_reasm_reset` -/
def reasmReset (h : HsCtx) : HsCtx := { h with frags := .fill 256 .empty, fragTotal := 0, fragReceived := 0 }

def received (h : HsCtx) (frags : Block FragSlot 256) : HsCtx :=
  { h with frags, fragReceived := h.fragReceived + 1 }

end HsCtx

inductive External
  | fragment | message | skeinInit | mlkemEncaps | mlkemDecaps | bp512Keygen | bp512GetPublicKey | bp512Ecdh
  | frodoBuffer | frodoEncaps | frodoDecaps | combineKeys | hkdf | mldsaSign | mldsaVerify | response | fragSend
  deriving DecidableEq

/-- What a call of `sudp_inner_recv` gets from outside: the readings of the clock, what the registrar says and
which calls succeed. -/
structure Answers where
  now : BitVec 64
  later : BitVec 64
  deadline : BitVec 64
  active : PeerId → Bool
  epoch : Option (BitVec 32)
  succeeds : External → Bool

section Fragments

variable (w : Answers) (h : HsCtx)

def concatenate (total : ℕ) : Checked (List Byte) := do
  let filled ← (List.range h.fragTotal.toNat).foldlM (fun (acc : List Byte × ℕ) i => do
    let frag ← readAt h.frags.cells i
    let bytes ← readPtr frag.data frag.len
    let msg ← memcpy acc.1 acc.2 bytes
    .ok (msg, acc.2 + frag.len)) (List.replicate total 0, 0)
  .ok filled.1

def finish : Checked (HsCtx × Option (List Byte)) := do
  let total ← (List.range h.fragTotal.toNat).foldlM (fun acc i => do
    let frag ← readAt h.frags.cells i
    .ok (acc + frag.len)) 0
  if hsBufMax < total then .ok (h.reasmReset, none)
  else if w.succeeds .message = false then .ok (h.reasmReset, none)
  else do
    let msg ← concatenate h total
    .ok (h.reasmReset, some msg)

def late : Bool := h.fragStartUs ≠ 0 ∧ 5 * 1000000 < (w.later - h.fragStartUs).toNat

/-- `sudp_frag_receive`, once the counts have been compared. -/
def store (data : List Byte) (fragIndex : ℕ) : Checked (HsCtx × Option (List Byte)) :=
  if late w h then .ok ({ h.reasmReset with fragStartUs := 0 }, none)
  else do
    let frag ← readAt h.frags.cells fragIndex
    if frag.data.isSome then .ok (h, none)
    else do
      let fragDataLen := sub32 data.length hsFragHdr
      if hsBufMax < fragDataLen then .ok (h, none)
      else if w.succeeds .fragment = false then .ok (h, none)
      else do
        let bytes ← readMany data hsFragHdr fragDataLen
        let buf ← memcpy (List.replicate fragDataLen 0) 0 bytes
        let frags ← h.frags.writeAt fragIndex ⟨some buf, fragDataLen % 2 ^ 16⟩
        let h := h.received frags
        if h.fragReceived < h.fragTotal then .ok (h, none) else finish w h

def start (fragTotal : Byte) : HsCtx :=
  if h.fragTotal = 0 then { h with fragTotal, fragStartUs := w.now } else h

/-- `sudp_frag_receive` -/
def fragReceive (data : List Byte) : Checked (HsCtx × Option (List Byte)) :=
  if data.length < hsFragHdr then .ok (h, none)
  else do
    let fragTotal ← readAt data 5
    let fragIndex ← readAt data 6
    if fragTotal = 0 ∨ fragTotal ≤ fragIndex then .ok (h, none)
    else if h.fragTotal ≠ 0 ∧ fragTotal ≠ h.fragTotal then .ok (h, none)
    else store w (start w h fragTotal) data fragIndex.toNat

end Fragments

/-- The part of `yumi_sudp_client` that a packet changes, and what came of the packets so far: the handshake
messages that were put together and the calls of `recv_cb`. -/
structure Client (τ : Type) where
  state : SessionState
  hs : Option HsCtx
  epochId : BitVec 32
  peerActive : Bool
  peerId : PeerId
  firstContact : Bool
  isInitiator : Bool
  hsDeadlineUs : BitVec 64
  calls : ℕ
  messages : List (List Byte)
  delivered : List (Byte × List Byte)
  user : τ

section Handshake

variable {τ : Type} (id : PeerId) (w : Answers) (c : Client τ) (h : HsCtx) (msg : List Byte)

def Client.fail : Client τ := { c with state := .failed }

/-- A function of the crypto library reads `len` bytes of the message. -/
def crypto (fn : External) (off len : ℕ) : Checked Bool := do
  let _ ← readMany msg off len
  .ok (w.succeeds fn)

def onFirst (firstContact : Bool) (step : Checked Bool) : Checked Bool := if firstContact then step else .ok true

/-- `sudp_derive_keys` -/
def deriveKeys : Client τ × Bool :=
  if w.succeeds .combineKeys = false then (c, false)
  else w.epoch.elim (c, false) fun epochId => ({ c with epochId }, w.succeeds .hkdf)

inductive Tiebreak
  | ignored
  | failed (h : HsCtx)
  | responder (h : HsCtx)

def tiebreak : Checked Tiebreak :=
  if h.state = .helloSent then do
    let initPeerId ← readArray msg 1 32
    if id.val < initPeerId.cells then .ok .ignored
    else if w.succeeds .skeinInit = false then .ok (.failed h.reasmReset)
    else .ok (.responder h.reasmReset)
  else .ok (.responder h)

def respond (off : ℕ) (firstContact : Bool) : Checked (Client τ) := do
  let encapsulated ← crypto w msg .mlkemEncaps off mlkemPublicKeyLen
  let off := off + mlkemPublicKeyLen
  if encapsulated = false ∨ w.succeeds .bp512Keygen = false ∨ w.succeeds .bp512GetPublicKey = false then .ok c.fail
  else do
    let agreed ← crypto w msg .bp512Ecdh off bp512PublicKeyLen
    let off := off + bp512PublicKeyLen
    if agreed = false then .ok c.fail
    else if firstContact = true ∧ w.succeeds .frodoBuffer = false then .ok c.fail
    else do
      let frodo ← onFirst firstContact (crypto w msg .frodoEncaps off frodoPublicKeyLen)
      if frodo = false then .ok c.fail
      else do
        let _ ← readMany msg 0 msg.length
        if w.succeeds .mldsaSign = false ∨ w.succeeds .response = false then .ok c.fail
        else
          let derived := deriveKeys w c
          if derived.2 = false then .ok derived.1.fail
          else
            let c := { derived.1 with hs := some { h with state := .waitConfirm } }
            if w.succeeds .fragSend = false then .ok c.fail else .ok c

/-- `[version(1)][peer_id(32)][epoch_id(4)][first_contact(1)][...]` -/
def parseHello : Checked (Client τ) := do
  let off := 1
  let initPeerId ← readArray msg off 32
  let peerId : PeerId := initPeerId.toBytes
  let off := off + 32
  let _ ← readMany msg off 4
  let off := off + 4
  let flag ← readAt msg off
  let firstContact : Bool := flag ≠ 0
  let off := off + 1
  if firstContact = true ∧ msg.length < helloBaseLen + frodoPublicKeyLen then .ok c
  else if w.active peerId = false then .ok c
  else
    let h := { h with peerId, firstContact }
    let hsDeadlineUs := if c.hsDeadlineUs = 0 then w.deadline else c.hsDeadlineUs
    let c := { c with hs := some h, peerActive := true, peerId, firstContact, isInitiator := false, hsDeadlineUs }
    respond w c h msg off firstContact

def afterTiebreak : Tiebreak → Checked (Client τ)
  | .ignored => .ok c
  | .failed h => .ok { c with hs := some h }.fail
  | .responder h => parseHello w { c with hs := some h } h msg

/-- `sudp_process_hello` -/
def processHello : Checked (Client τ) :=
  if msg.length < helloBaseLen then .ok c
  else do
    let version ← readAt msg 0
    if version ≠ protocolVersion then .ok c
    else do
      let tie ← tiebreak id w h msg
      afterTiebreak w c msg tie

def confirm (off : ℕ) (frodoLen : ℕ) : Checked (Client τ) := do
  let decapsulated ← crypto w msg .mlkemDecaps off mlkemCiphertextLen
  let off := off + mlkemCiphertextLen
  if decapsulated = false then .ok c.fail
  else do
    let agreed ← crypto w msg .bp512Ecdh off bp512PublicKeyLen
    let off := off + bp512PublicKeyLen
    if agreed = false then .ok c.fail
    else do
      let frodo ← onFirst h.firstContact (crypto w msg .frodoDecaps off frodoCiphertextLen)
      let off := off + frodoLen
      if frodo = false then .ok c.fail
      else do
        -- the parts of the transcript lie next to each other
        let _ ← readMany msg 1 (off - 1)
        let verified ← crypto w msg .mldsaVerify off mldsaSignLen
        if verified = false then .ok c.fail
        else
          let derived := deriveKeys w c
          if derived.2 = false ∨ w.succeeds .mldsaSign = false then .ok derived.1.fail
          else if w.succeeds .fragSend = false then
            .ok { derived.1 with hs := some { h with state := .done } }.fail
          else .ok { derived.1 with state := .established, hs := none }

/-- `sudp_process_response` -/
def processResponse : Checked (Client τ) :=
  let frodoLen := if h.firstContact then frodoCiphertextLen else 0
  if h.state ≠ .helloSent then .ok c
  else if msg.length < 1 + 32 + mlkemCiphertextLen + bp512PublicKeyLen + frodoLen + mldsaSignLen then .ok c
  else do
    let version ← readAt msg 0
    if version ≠ protocolVersion then .ok c
    else do
      let off := 1
      let respPeerId ← readArray msg off 32
      let off := off + 32
      if w.active respPeerId.toBytes = false then .ok c
      else if respPeerId.cells ≠ h.peerId.val then .ok c
      else confirm w c h msg off frodoLen

/-- `sudp_process_confirm` -/
def processConfirm : Checked (Client τ) :=
  if h.state ≠ .waitConfirm then .ok c
  else if msg.length < 1 + mldsaSignLen then .ok c
  else do
    let version ← readAt msg 0
    if version ≠ protocolVersion then .ok c
    else if w.active h.peerId = false then .ok c.fail
    else do
      let verified ← crypto w msg .mldsaVerify 1 mldsaSignLen
      if verified = false then .ok c.fail else .ok { c with state := .established, hs := none }

/-- `sudp_worker_connect`: whether there is memory for a context, whether the keys and the HELLO can be made, and
whether the HELLO can be sent. -/
def workerConnect (peerId : PeerId) (deadline : BitVec 64) (created made sent : Bool) : Client τ :=
  if c.state = .established then c
  else if c.hs.isNone ∧ created = false then c.fail
  else
    let h := c.hs.getD (.create c.firstContact)
    if h.state ≠ .idle then
      { c with hs := some h, state := if c.state = .disconnected then .handshaking else c.state }
    else if made = false then
      { c with hs := some { h with peerId }, peerId, peerActive := true, isInitiator := true }.fail
    else
      let c := { c with
        hs := some { h with peerId, state := .helloSent }
        peerId, peerActive := true, isInitiator := true, hsDeadlineUs := deadline, state := .handshaking }
      if sent = false then c.fail else c

def msgHello : Byte := 0x01
def msgResponse : Byte := 0x02
def msgConfirm : Byte := 0x03

/-- `sudp_process_handshake_msg` -/
def processHandshakeMsg (msgType : Byte) : Checked (Client τ) :=
  if msgType = msgHello then processHello id w c h msg
  else if msgType = msgResponse then processResponse w c h msg
  else if msgType = msgConfirm then processConfirm w c h msg
  else .ok c

end Handshake

section Envelope

variable {τ : Type} (id : PeerId) (answers : ℕ → Answers) (recvCb : Option (τ → Byte → List Byte → Bool → Checked τ))

/-- A call of `recv_cb`. -/
def Client.deliver (recvCb : τ → Byte → List Byte → Bool → Checked τ) (c : Client τ) (channel : Byte)
    (payload : List Byte) (reliable : Bool) : Checked (Client τ) := do
  let user ← recvCb c.user channel payload reliable
  .ok { c with user, delivered := c.delivered ++ [(channel, payload)] }

/-- `sudp_inner_recv` -/
def sudpInnerRecv (c : Client τ) (data : List Byte) (reliable : Bool) : Checked (Client τ) :=
  let w := answers c.calls
  let c := { c with calls := c.calls + 1 }
  if data.length < 4 then .ok c
  else do
    let eidN ← readMany data 0 4
    if ofLe eidN = 0 then
      c.hs.elim (.ok c) fun h =>
        if data.length < hsFragHdr then .ok c
        else do
          let msgType ← readAt data 4
          let got ← fragReceive w h data
          let c := { c with hs := some got.1 }
          got.2.elim (.ok c) fun msg =>
            processHandshakeMsg id w { c with messages := c.messages ++ [msg] } got.1 msg msgType
    else if data.length < 5 then .ok c
    else if c.peerActive = false then .ok c.fail
    else if BitVec.ofNat 32 (ofLe eidN.reverse) ≠ c.epochId then .ok c
    else do
      let channel ← readAt data 4
      let payloadLen := sub32 data.length 5
      let payload ← readMany data 5 payloadLen
      recvCb.elim (.ok c) fun recvCb => c.deliver recvCb channel payload reliable

end Envelope

structure HsCtx.WellFormed (h : HsCtx) : Prop where
  frag : ∀ f ∈ h.frags.cells, f.len ≤ (f.data.getD []).length

/-- The bytes in the first `i` buffers. -/
def HsCtx.heldIn (h : HsCtx) (i : ℕ) : ℕ := weight FragSlot.len (h.frags.cells.take i)

def HsCtx.held (h : HsCtx) : ℕ := weight FragSlot.len h.frags.cells

/-- What a packet of `n` bytes leaves in the buffers and in a message that is complete. -/
structure Gathered (h : HsCtx) (n : ℕ) (res : HsCtx × Option (List Byte)) : Prop where
  state : res.1.WellFormed
  bytes : res.1.held + (res.2.getD []).length ≤ h.held + n

variable {w : Answers} {h h' : HsCtx} {data : List Byte} {n : ℕ}

theorem HsCtx.held_empty (hfrags : h.frags = .fill 256 .empty) : h.held = 0 := by
  rw [held, hfrags]
  refine weight_eq_zero _ fun f hf => ?_
  obtain rfl := List.eq_of_mem_replicate hf
  rfl

theorem HsCtx.wellFormed_empty (hfrags : h.frags = .fill 256 .empty) : h.WellFormed where
  frag f hf := by
    rw [hfrags] at hf
    obtain rfl := List.eq_of_mem_replicate hf
    exact Nat.zero_le _

theorem gathered_none (hwf : h.WellFormed) : Gathered h n (h, none) where
  state := hwf
  bytes := Nat.le_add_right _ _

theorem gathered_reset (hfrags : h'.frags = .fill 256 .empty) : Gathered h n (h', none) where
  state := h'.wellFormed_empty hfrags
  bytes := by
    rw [h'.held_empty hfrags]
    exact Nat.zero_le _

theorem concatenate_safe (hwf : h.WellFormed) (htotal : h.fragTotal.toNat < 256) :
    Safe (concatenate h (h.heldIn h.fragTotal.toNat)) fun msg => msg.length = h.heldIn h.fragTotal.toNat := by
  unfold concatenate
  refine .bind (Safe.forRange (fun i acc => acc.2 = h.heldIn i ∧ acc.1.length = h.heldIn h.fragTotal.toNat) _ ?_ ?_)
    fun filled hfilled => .ok hfilled.2
  · rintro i ⟨msg, pos⟩ hi ⟨rfl, hmsg⟩
    have hin : i < h.frags.cells.length := by rw [h.frags.size]; omega
    refine .readAt hin ?_
    have hcell := List.getElem?_eq_getElem hin
    have hnext : h.heldIn (i + 1) = h.heldIn i + (h.frags.cells.get ⟨i, hin⟩).len := weight_take_succ _ hcell
    have hmono : h.heldIn (i + 1) ≤ h.heldIn h.fragTotal.toNat := weight_take_mono _ hi
    have hframe := hwf.frag _ (List.get_mem h.frags.cells ⟨i, hin⟩)
    refine .readPtr hframe (.memcpy ?_ (.ok ⟨hnext.symm, ?_⟩))
    · rw [List.length_take, hmsg]
      dsimp only
      omega
    · rw [length_splice, hmsg]
      rw [List.length_take, hmsg]
      dsimp only
      omega
  · exact ⟨rfl, List.length_replicate⟩

theorem finish_safe (hwf : h.WellFormed) (htotal : h.fragTotal.toNat < 256) :
    Safe (finish w h) (Gathered h 0) := by
  unfold finish
  refine .bind (Safe.forRange (fun i acc => acc = h.heldIn i) _ ?_ rfl) fun total htot => ?_
  · rintro i acc hi rfl
    have hin : i < h.frags.cells.length := by rw [h.frags.size]; omega
    exact .readAt hin (.ok (weight_take_succ _ (List.getElem?_eq_getElem hin)).symm)
  · subst htot
    refine .ite (fun _ => .ok (gathered_reset rfl)) fun _ => .ite (fun _ => .ok (gathered_reset rfl)) fun _ => ?_
    refine .bind (concatenate_safe hwf htotal) fun msg hmsg => .ok ⟨HsCtx.wellFormed_empty rfl, ?_⟩
    rw [HsCtx.held_empty rfl, Option.getD_some, hmsg, Nat.zero_add]
    exact Nat.le_add_right_of_le (weight_take_le _ _ _)

theorem HsCtx.WellFormed.received {f : FragSlot} {i : ℕ} (hwf : h.WellFormed) (hf : f.len ≤ (f.data.getD []).length) :
    (h.received (h.frags.set i f)).WellFormed where
  frag g hg := by
    obtain hg | rfl := List.mem_or_eq_of_mem_set hg
    · exact hwf.frag g hg
    · exact hf

theorem HsCtx.held_received {f old : FragSlot} {i : ℕ} (hold : h.frags.cells[i]? = some old) :
    (h.received (h.frags.set i f)).held ≤ h.held + f.len := by
  have hset := weight_set FragSlot.len (b := f) hold
  change weight FragSlot.len (h.frags.cells.set i f) ≤ weight FragSlot.len h.frags.cells + f.len
  omega

theorem store_safe {fragIndex : ℕ} (hwf : h.WellFormed) (hindex : fragIndex < 256) (hsize : hsFragHdr ≤ data.length)
    (hlen : data.length < 2 ^ 32) : Safe (store w h data fragIndex) (Gathered h data.length) := by
  unfold store
  refine .ite (fun _ => .ok (gathered_reset rfl)) fun _ => ?_
  have hin : fragIndex < h.frags.cells.length := by rwa [h.frags.size]
  refine .readAt hin (.ite (fun _ => .ok (gathered_none hwf)) fun _ => ?_)
  rw [sub32_of_le hsize hlen]
  refine .ite (fun _ => .ok (gathered_none hwf)) fun _ => .ite (fun _ => .ok (gathered_none hwf)) fun _ => ?_
  have hfit : 0 + ((data.drop hsFragHdr).take (data.length - hsFragHdr)).length ≤
      (List.replicate (data.length - hsFragHdr) (0 : Byte)).length := by
    rw [List.length_replicate, List.length_take, List.length_drop]
    omega
  refine .readMany (by omega) (.memcpy hfit (.writeBlock hindex ?_))
  have hbuf := length_splice hfit
  rw [List.length_replicate] at hbuf
  generalize splice _ 0 _ = buf at hbuf ⊢
  have hmod : (data.length - hsFragHdr) % 2 ^ 16 ≤ data.length - hsFragHdr := Nat.mod_le _ _
  have hstored := hwf.received (i := fragIndex) (f := ⟨some buf, (data.length - hsFragHdr) % 2 ^ 16⟩)
    (by rw [Option.getD_some, hbuf]; exact hmod)
  have hheld := h.held_received (f := ⟨some buf, (data.length - hsFragHdr) % 2 ^ 16⟩) (List.getElem?_eq_getElem hin)
  dsimp only at hheld ⊢
  refine .ite (fun _ => .ok ⟨hstored, ?_⟩) fun _ => ?_
  · rw [Option.getD_none, List.length_nil]
    dsimp only
    omega
  · refine (finish_safe hstored (BitVec.isLt _)).mono fun res hres => ⟨hres.state, ?_⟩
    have hbytes := hres.bytes
    omega

theorem start_frags (fragTotal : Byte) : (start w h fragTotal).frags = h.frags := by
  unfold start
  split <;> rfl

theorem fragReceive_safe (hwf : h.WellFormed) (hlen : data.length < 2 ^ 32) :
    Safe (fragReceive w h data) (Gathered h data.length) := by
  unfold fragReceive
  refine .ite (fun _ => .ok (gathered_none hwf)) fun hshort => ?_
  have hsize : 8 ≤ data.length := Nat.not_lt.mp hshort
  refine .readAt (by omega) (.readAt (by omega) ?_)
  refine .ite (fun _ => .ok (gathered_none hwf)) fun _ => .ite (fun _ => .ok (gathered_none hwf)) fun _ => ?_
  generalize data.get ⟨5, _⟩ = fragTotal
  have hstart := start_frags (w := w) (h := h) fragTotal
  have hwf' : (start w h fragTotal).WellFormed := ⟨hstart.symm ▸ hwf.frag⟩
  have hheld : (start w h fragTotal).held = h.held := by rw [HsCtx.held, hstart, HsCtx.held]
  refine (store_safe hwf' (BitVec.isLt _) hsize hlen).mono fun res hres => ⟨hres.state, ?_⟩
  rw [← hheld]
  exact hres.bytes

section Accounts

variable {τ : Type} {J : List (List Byte) → τ → Prop} {given : List (List Byte)} {id : PeerId} {c c' : Client τ}
  {msg : List Byte} {off : ℕ}

def Client.held (c : Client τ) : ℕ := (c.hs.map HsCtx.held).getD 0

/-- A session that has been given the packets of `given`: the fragments are sound, what it has handed on and still
holds is not more than what came, and its user has got parts of single packets only. -/
structure Client.Accounts (J : List (List Byte) → τ → Prop) (given : List (List Byte)) (c : Client τ) : Prop where
  hs : ∀ h, c.hs = some h → h.WellFormed
  user : J (c.delivered.map Prod.snd) c.user
  bytes : sumLen (c.delivered.map Prod.snd) + sumLen c.messages + c.held ≤ sumLen given
  part : ∀ d ∈ c.delivered, ∃ packet ∈ given, d.2 <:+: packet

/-- The handshake context, if there is one still, is sound and holds no more than `h` does. -/
def Client.Within (c : Client τ) (h : HsCtx) : Prop := ∀ h', c.hs = some h' → h'.WellFormed ∧ h'.held ≤ h.held

structure Client.Keeps (c : Client τ) (h : HsCtx) (c' : Client τ) : Prop where
  within : c'.Within h
  delivered : c'.delivered = c.delivered
  messages : c'.messages = c.messages
  user : c'.user = c.user

theorem Client.Keeps.held (hkeeps : c.Keeps h c') : c'.held ≤ h.held := by
  unfold Client.held
  cases hhs : c'.hs with
  | none => exact Nat.zero_le _
  | some h' => exact (hkeeps.within h' hhs).2

theorem Client.Keeps.refl (hhs : c.hs = some h) (hwf : h.WellFormed) : c.Keeps h c where
  within x hx := by
    obtain rfl := Option.some.inj (hhs.symm.trans hx)
    exact ⟨hwf, le_rfl⟩
  delivered := rfl
  messages := rfl
  user := rfl

theorem Client.Keeps.fail (hkeeps : c.Keeps h c') : c.Keeps h c'.fail :=
  ⟨hkeeps.within, hkeeps.delivered, hkeeps.messages, hkeeps.user⟩

theorem Client.Within.put (hwf : h'.WellFormed) (hle : h'.held ≤ h.held) :
    Client.Within { c with hs := some h' } h := by
  rintro x ⟨⟩
  exact ⟨hwf, hle⟩

theorem keeps_derive (hkeeps : c.Keeps h c') : c.Keeps h (deriveKeys w c').1 := by
  unfold deriveKeys
  split
  · exact hkeeps
  · cases w.epoch with
    | none => exact hkeeps
    | some epochId => exact ⟨hkeeps.within, hkeeps.delivered, hkeeps.messages, hkeeps.user⟩

theorem crypto_safe {fn : External} {len : ℕ} {β : Type} {f : Bool → Checked β} {R : β → Prop}
    (hlen : off + len ≤ msg.length) (hf : Safe (f (w.succeeds fn)) R) : Safe (crypto w msg fn off len >>= f) R :=
  .bind (P := fun r => r = w.succeeds fn) (.readMany hlen (.ok rfl)) fun _ hr => hr ▸ hf

theorem onFirst_safe {fn : External} {len : ℕ} {firstContact : Bool}
    (hlen : firstContact = true → off + len ≤ msg.length) :
    Safe (onFirst firstContact (crypto w msg fn off len)) fun _ => True :=
  .ite (fun hfirst => .readMany (hlen hfirst) (.ok trivial)) fun _ => .ok trivial

theorem Client.Keeps.put (hkeeps : c.Keeps h c') (h' : HsCtx) (hwf : h'.WellFormed) (hle : h'.held ≤ h.held) :
    c.Keeps h { c' with hs := some h' } where
  within := .put hwf hle
  delivered := hkeeps.delivered
  messages := hkeeps.messages
  user := hkeeps.user

theorem Client.Keeps.established (hkeeps : c.Keeps h c') :
    c.Keeps h { c' with state := .established, hs := none } where
  within _ hx := by cases hx
  delivered := hkeeps.delivered
  messages := hkeeps.messages
  user := hkeeps.user

theorem respond_safe {h' : HsCtx} {firstContact : Bool} (hkeeps : c.Keeps h c') (hwf : h'.WellFormed)
    (hle : h'.held ≤ h.held)
    (hlen : off + mlkemPublicKeyLen + bp512PublicKeyLen ≤ msg.length)
    (hfrodo : firstContact = true → off + mlkemPublicKeyLen + bp512PublicKeyLen + frodoPublicKeyLen ≤ msg.length) :
    Safe (respond w c' h' msg off firstContact) (c.Keeps h) := by
  unfold respond
  refine crypto_safe (by omega) (.ite (fun _ => .ok hkeeps.fail) fun _ => ?_)
  refine crypto_safe hlen (.ite (fun _ => .ok hkeeps.fail) fun _ => .ite (fun _ => .ok hkeeps.fail) fun _ => ?_)
  refine .bind (onFirst_safe hfrodo) fun frodo _ => .ite (fun _ => .ok hkeeps.fail) fun _ => ?_
  · refine .readMany (by omega) (.ite (fun _ => .ok hkeeps.fail) fun _ => ?_)
    refine .ite (fun _ => .ok (keeps_derive hkeeps).fail) fun _ => ?_
    have hput := (keeps_derive (w := w) hkeeps).put { h' with state := .waitConfirm } ⟨hwf.frag⟩ hle
    exact .ite (fun _ => .ok hput.fail) fun _ => .ok hput

theorem parseHello_safe {h' : HsCtx} (hkeeps : c.Keeps h c') (hwf : h'.WellFormed) (hle : h'.held ≤ h.held)
    (hlen : helloBaseLen ≤ msg.length) : Safe (parseHello w c' h' msg) (c.Keeps h) := by
  have hsize : 1735 ≤ msg.length := hlen
  unfold parseHello
  refine .readArray (by omega) fun initPeerId _ => .readMany (by omega) (.readAt (by omega) ?_)
  dsimp only
  refine .ite (fun _ => .ok hkeeps) fun hfirst => .ite (fun _ => .ok hkeeps) fun _ => ?_
  have hput := hkeeps.put { h' with peerId := initPeerId.toBytes } ⟨hwf.frag⟩ hle
  refine respond_safe ⟨?_, hput.delivered, hput.messages, hput.user⟩ ⟨hwf.frag⟩ hle hlen fun hcontact => ?_
  · rintro x ⟨⟩
    exact ⟨⟨hwf.frag⟩, hle⟩
  · exact Nat.not_lt.mp fun hshort => hfirst ⟨hcontact, hshort⟩

theorem tiebreak_safe {P : Tiebreak → Prop} (hlen : helloBaseLen ≤ msg.length) (hignored : P .ignored)
    (hfailed : P (.failed h.reasmReset)) (hreset : P (.responder h.reasmReset)) (hsame : P (.responder h)) :
    Safe (tiebreak id w h msg) P := by
  have hsize : 1735 ≤ msg.length := hlen
  unfold tiebreak
  refine .ite (fun _ => .readArray (by omega) fun _ _ => ?_) fun _ => .ok hsame
  exact .ite (fun _ => .ok hignored) fun _ => .ite (fun _ => .ok hfailed) fun _ => .ok hreset

theorem processHello_safe (hkeeps : c.Keeps h c) (hwf : h.WellFormed) :
    Safe (processHello id w c h msg) (c.Keeps h) := by
  unfold processHello
  refine .ite (fun _ => .ok hkeeps) fun hshort => ?_
  have hlen : helloBaseLen ≤ msg.length := Nat.not_lt.mp hshort
  have hsize : 1735 ≤ msg.length := hlen
  have hreset : h.reasmReset.WellFormed := HsCtx.wellFormed_empty rfl
  have hheld : h.reasmReset.held ≤ h.held := (HsCtx.held_empty rfl).trans_le (Nat.zero_le _)
  refine .readAt (by omega) (.ite (fun _ => .ok hkeeps) fun _ => ?_)
  refine .bind (tiebreak_safe (P := fun tie => Safe (afterTiebreak w c msg tie) (c.Keeps h)) hlen ?_ ?_ ?_ ?_)
    fun _ htie => htie
  · exact .ok hkeeps
  · exact .ok (hkeeps.put _ hreset hheld).fail
  · exact parseHello_safe (hkeeps.put _ hreset hheld) hreset hheld hlen
  · exact parseHello_safe (hkeeps.put _ hwf le_rfl) hwf le_rfl hlen

theorem confirm_safe {frodoLen : ℕ} (hkeeps : c.Keeps h c) (hwf : h.WellFormed) (hoff : 1 ≤ off)
    (hfrodo : frodoLen = if h.firstContact then frodoCiphertextLen else 0)
    (hlen : off + mlkemCiphertextLen + bp512PublicKeyLen + frodoLen + mldsaSignLen ≤ msg.length) :
    Safe (confirm w c h msg off frodoLen) (c.Keeps h) := by
  have hderived := keeps_derive (w := w) hkeeps
  unfold confirm
  refine crypto_safe (by omega) (.ite (fun _ => .ok hkeeps.fail) fun _ => ?_)
  refine crypto_safe (by omega) (.ite (fun _ => .ok hkeeps.fail) fun _ => ?_)
  refine .bind (onFirst_safe fun hfirst => ?_) fun frodo _ => .ite (fun _ => .ok hkeeps.fail) fun _ => ?_
  · rw [hfirst, if_pos rfl] at hfrodo
    omega
  · refine .readMany (by omega) (crypto_safe hlen (.ite (fun _ => .ok hkeeps.fail) fun _ => ?_))
    refine .ite (fun _ => .ok hderived.fail) fun _ => .ite (fun _ => .ok ?_) fun _ => .ok hderived.established
    exact (hderived.put { h with state := .done } ⟨hwf.frag⟩ le_rfl).fail

theorem processResponse_safe (hkeeps : c.Keeps h c) (hwf : h.WellFormed) :
    Safe (processResponse w c h msg) (c.Keeps h) := by
  unfold processResponse
  refine .ite (fun _ => .ok hkeeps) fun _ => .ite (fun _ => .ok hkeeps) fun hshort => ?_
  refine .readAt (by omega) (.ite (fun _ => .ok hkeeps) fun _ => ?_)
  refine .readArray (by omega) fun respPeerId _ => ?_
  refine .ite (fun _ => .ok hkeeps) fun _ => .ite (fun _ => .ok hkeeps) fun _ => ?_
  exact confirm_safe hkeeps hwf (by omega) rfl (Nat.not_lt.mp hshort)

theorem processConfirm_safe (hkeeps : c.Keeps h c) : Safe (processConfirm w c h msg) (c.Keeps h) := by
  unfold processConfirm
  refine .ite (fun _ => .ok hkeeps) fun _ => .ite (fun _ => .ok hkeeps) fun hshort => ?_
  refine .readAt (by omega) (.ite (fun _ => .ok hkeeps) fun _ => .ite (fun _ => .ok hkeeps.fail) fun _ => ?_)
  exact crypto_safe (by omega) (.ite (fun _ => .ok hkeeps.fail) fun _ => .ok hkeeps.established)

theorem processHandshakeMsg_safe {msgType : Byte} (hkeeps : c.Keeps h c) (hwf : h.WellFormed) :
    Safe (processHandshakeMsg id w c h msg msgType) (c.Keeps h) := by
  unfold processHandshakeMsg
  refine .ite (fun _ => processHello_safe hkeeps hwf) fun _ => ?_
  refine .ite (fun _ => processResponse_safe hkeeps hwf) fun _ => ?_
  exact .ite (fun _ => processConfirm_safe hkeeps) fun _ => .ok hkeeps

theorem Client.Accounts.keep (hacc : c.Accounts J given) {n : ℕ} (hwf : ∀ h, c'.hs = some h → h.WellFormed)
    (hdelivered : c'.delivered = c.delivered) (huser : c'.user = c.user)
    (hbytes : sumLen c'.messages + c'.held ≤ sumLen c.messages + c.held + n) {data : List Byte} (hn : n ≤ data.length) :
    c'.Accounts J (given ++ [data]) where
  hs := hwf
  user := by
    rw [hdelivered, huser]
    exact hacc.user
  bytes := by
    have hold := hacc.bytes
    rw [hdelivered, sumLen_append, sumLen_singleton]
    omega
  part d hd := by
    rw [hdelivered] at hd
    obtain ⟨packet, hpacket, hd⟩ := hacc.part d hd
    exact ⟨packet, List.mem_append_left _ hpacket, hd⟩

theorem Client.Accounts.alone (hacc : c.Accounts J given) (hwf : ∀ h, c'.hs = some h → h.WellFormed ∧ h.held ≤ c.held)
    (hdelivered : c'.delivered = c.delivered) (huser : c'.user = c.user) (hmessages : c'.messages = c.messages) :
    c'.Accounts J given where
  hs h hh := (hwf h hh).1
  user := by
    rw [hdelivered, huser]
    exact hacc.user
  bytes := by
    have hold := hacc.bytes
    have hheld : c'.held ≤ c.held := by
      rw [Client.held]
      cases hhs : c'.hs with
      | none => exact Nat.zero_le _
      | some h => exact (hwf h hhs).2
    rw [hdelivered, hmessages]
    omega
  part := hdelivered ▸ hacc.part

theorem Client.Accounts.connect (hacc : c.Accounts J given) (peerId : PeerId) (deadline : BitVec 64)
    (created made sent : Bool) : (workerConnect c peerId deadline created made sent).Accounts J given := by
  have hctx : (c.hs.getD (.create c.firstContact)).WellFormed ∧ (c.hs.getD (.create c.firstContact)).held ≤ c.held := by
    cases hhs : c.hs with
    | none => exact ⟨HsCtx.wellFormed_empty rfl, (HsCtx.held_empty rfl).trans_le (Nat.zero_le _)⟩
    | some h => exact ⟨hacc.hs h hhs, by rw [Client.held, hhs]; exact le_rfl⟩
  unfold workerConnect
  generalize c.hs.getD (.create c.firstContact) = h at hctx ⊢
  have hput : ∀ h' : HsCtx, h'.frags = h.frags → ∀ x, some h' = some x → x.WellFormed ∧ x.held ≤ c.held := by
    rintro h' hfrags x ⟨⟩
    exact ⟨⟨hfrags ▸ hctx.1.frag⟩, by rw [HsCtx.held, hfrags]; exact hctx.2⟩
  split
  · exact hacc
  · split
    · refine hacc.alone (fun x hx => ⟨hacc.hs x hx, ?_⟩) rfl rfl rfl
      rw [Client.held, show c.hs = some x from hx]
      exact le_rfl
    · dsimp only
      split
      · exact hacc.alone (hput h rfl) rfl rfl rfl
      · split
        · exact hacc.alone (hput _ rfl) rfl rfl rfl
        · split
          · exact hacc.alone (hput _ rfl) rfl rfl rfl
          · exact hacc.alone (hput _ rfl) rfl rfl rfl

theorem Client.Accounts.idle (hacc : c.Accounts J given) (hhs : c'.hs = c.hs) (hdelivered : c'.delivered = c.delivered)
    (huser : c'.user = c.user) (hmessages : c'.messages = c.messages) : c'.Accounts J (given ++ [data]) := by
  refine hacc.keep (hhs ▸ hacc.hs) hdelivered huser (n := 0) ?_ (Nat.zero_le _)
  rw [hmessages, Client.held, hhs]
  rfl

/-- What `recv_cb` does with its user. -/
def Serves (J : List (List Byte) → τ → Prop) (recvCb : τ → Byte → List Byte → Bool → Checked τ) : Prop :=
  ∀ given user channel data reliable, data.length < 2 ^ 32 → J given user →
    Safe (recvCb user channel data reliable) (J (given ++ [data]))

theorem deliver_safe {recvCb : τ → Byte → List Byte → Bool → Checked τ} {channel : Byte} {payload : List Byte}
    {reliable : Bool} (hserves : Serves J recvCb) (hacc : c.Accounts J given) (hpart : payload <:+: data)
    (hlen : data.length < 2 ^ 32) :
    Safe (c.deliver recvCb channel payload reliable) (Client.Accounts J (given ++ [data])) := by
  have hle := hpart.length_le
  unfold Client.deliver
  refine .bind (hserves _ _ channel payload reliable (by omega) hacc.user) fun user huser => .ok ⟨hacc.hs, ?_, ?_, ?_⟩
  · rw [List.map_append, List.map_singleton]
    exact huser
  · have hold := hacc.bytes
    rw [List.map_append, List.map_singleton, sumLen_append, sumLen_append, sumLen_singleton, sumLen_singleton]
    change _ + payload.length + sumLen c.messages + c.held ≤ _
    omega
  · intro d hd
    obtain hd | hd := List.mem_append.mp hd
    · obtain ⟨packet, hpacket, hd⟩ := hacc.part d hd
      exact ⟨packet, List.mem_append_left _ hpacket, hd⟩
    · rw [List.mem_singleton.mp hd]
      exact ⟨data, List.mem_append_right _ List.mem_cons_self, hpart⟩

theorem sudpInnerRecv_safe {recvCb : Option (τ → Byte → List Byte → Bool → Checked τ)} {answers : ℕ → Answers}
    {reliable : Bool} (hserves : ∀ f, recvCb = some f → Serves J f) (hacc : c.Accounts J given)
    (hlen : data.length < 2 ^ 32) :
    Safe (sudpInnerRecv id answers recvCb c data reliable) (Client.Accounts J (given ++ [data])) := by
  unfold sudpInnerRecv
  refine .ite (fun _ => .ok (hacc.idle rfl rfl rfl rfl)) fun hshort => ?_
  have hidle : ∀ x : Client τ, x.hs = c.hs → x.delivered = c.delivered → x.user = c.user →
      x.messages = c.messages → Safe (.ok x) (Client.Accounts J (given ++ [data])) :=
    fun _ hhs hdelivered huser hmessages => .ok (hacc.idle hhs hdelivered huser hmessages)
  refine .readMany (by omega) (.ite (fun _ => ?_) fun _ => .ite (fun _ => hidle _ rfl rfl rfl rfl) fun hfive => ?_)
  · dsimp only
    cases hhs : c.hs with
    | none => exact hidle _ hhs.symm rfl rfl rfl
    | some h =>
      have hwf := hacc.hs h hhs
      have hheld : c.held = h.held := by rw [Client.held, hhs]; rfl
      refine .ite (fun _ => hidle _ hhs.symm rfl rfl rfl) fun hfrag => ?_
      have hframed : 8 ≤ data.length := Nat.not_lt.mp hfrag
      refine .readAt (by omega) ?_
      refine .bind (fragReceive_safe hwf hlen) fun got hgot => ?_
      have hbytes := hgot.bytes
      cases hmsg : got.2 with
      | none =>
        rw [hmsg] at hbytes
        refine .ok (hacc.keep ?_ ?_ ?_ (n := data.length) ?_ le_rfl)
        · rintro x ⟨⟩
          exact hgot.state
        · rfl
        · rfl
        · change sumLen c.messages + got.1.held ≤ _
          rw [Option.getD_none, List.length_nil] at hbytes
          omega
      | some msg =>
        rw [hmsg] at hbytes
        refine (processHandshakeMsg_safe (.refl rfl hgot.state) hgot.state).mono fun c' hc' => ?_
        refine hacc.keep (fun x hx => (hc'.within x hx).1) hc'.delivered hc'.user (n := data.length) ?_ le_rfl
        have hafter := hc'.held
        rw [hc'.messages]
        change sumLen (c.messages ++ [msg]) + c'.held ≤ _
        rw [sumLen_append, sumLen_singleton]
        rw [Option.getD_some] at hbytes
        omega
  · refine .ite (fun _ => hidle _ rfl rfl rfl rfl) fun _ => .ite (fun _ => hidle _ rfl rfl rfl rfl) fun _ => ?_
    refine .readAt (by omega) ?_
    dsimp only
    rw [sub32_of_le (by omega) hlen]
    refine .readMany (by omega) ?_
    cases hcb : recvCb with
    | none => exact hidle _ rfl rfl rfl rfl
    | some f =>
      refine deliver_safe (hserves f hcb) ⟨hacc.hs, hacc.user, hacc.bytes, hacc.part⟩ ?_ hlen
      exact (List.take_prefix _ _).isInfix.trans (List.drop_suffix _ _).isInfix

end Accounts

end YumiBrowser.Sudp.Memory
