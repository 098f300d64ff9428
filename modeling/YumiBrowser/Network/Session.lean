import YumiBrowser.Library.IdealCrypto
import YumiBrowser.Network.Replay
import YumiBrowser.Registrar.Mutators

namespace YumiBrowser.Sudp

open Wire Ideal
open YumiBrowser.Group (Registrar Identity PeerId PublicKey EpochKey Epoch PeerStatus epochGetCurrent zeroBytes)

def protocolVersion : BitVec 8 := 1
def epochCheckIntervalUs : ℕ := 30 * 1000000
def hsTimeoutFirstUs : ℕ := 30 * 1000000
def hsTimeoutSubseqUs : ℕ := 10 * 1000000

/-- `yumi_sudp_state_t` -/
inductive SessionState
  | disconnected
  | handshaking
  | established
  | failed
  deriving DecidableEq

inductive HsState
  | idle
  | helloSent
  | waitConfirm
  | done
  deriving DecidableEq

section Terms

variable (ι : Type)

/-- What `sudp_derive_keys` makes the first seed of a session from. -/
structure Root where
  mlkem : Shared ι
  frodo : Option (Shared ι)
  bp512 : Sym2 (Name ι)
  epochKey : EpochKey
  deriving DecidableEq

/-- `rekey_seed` -/
inductive Seed
  | zero
  | init (root : Root ι)
  | rekey (seed : Seed) (epochKey : EpochKey)
  deriving DecidableEq

/-- AEAD keys; `foreign` ones are of none of the sessions. -/
inductive Key
  | zero
  | epoch (epochKey : EpochKey)
  | gen (seed : Seed ι) (gen : BitVec 32) (initDirection : Bool)
  | foreign (n : ℕ)
  deriving DecidableEq

structure Hello where
  version : BitVec 8
  peerId : PeerId
  epochId : BitVec 32
  firstContact : BitVec 8
  mlkemPk : Name ι
  bp512Pk : Name ι
  frodoPk : Option (Name ι)
  rest : List Byte
  deriving DecidableEq

inductive Chunk
  | hello (msg : Hello ι)
  | response (peerId : PeerId) (mlkemCt : Ciphertext ι) (bp512Pk : Name ι)
      (frodoCt : Option (Ciphertext ι))
  deriving DecidableEq

/-- `transcript_hash`; a buffer that no hash was written to holds what it held before. -/
inductive Digest
  | hash (chunks : List (Chunk ι))
  | other (n : ℕ)
  deriving DecidableEq

abbrev Sig := Signature PublicKey (Digest ι)

structure Response where
  version : BitVec 8
  peerId : PeerId
  mlkemCt : Ciphertext ι
  bp512Pk : Name ι
  frodoCt : Option (Ciphertext ι)
  signature : Sig ι

structure Confirm where
  version : BitVec 8
  signature : Sig ι

inductive Message
  | hello (msg : Hello ι)
  | response (msg : Response ι)
  | confirm (msg : Confirm ι)

/-- `sudp_hs_ctx_t`, without the reassembly of fragments. -/
structure Handshake where
  state : HsState
  firstContact : Bool
  peerId : PeerId
  mlkem : Option (Name ι)
  bp512 : Option (Name ι)
  frodo : Option (Name ι)
  transcript : Option (List (Chunk ι))
  transcriptHash : Digest ι

/-- `yumi_sudp_client_t`. Only the derived subkeys of a key are ever used, so one field stands for
both; `drawn` counts the random values drawn so far. -/
structure Client where
  self : ι
  drawn : ℕ
  identity : Identity
  state : SessionState
  transportKeyReady : Bool
  sendSubkeys : Key ι
  recvSubkeys : Key ι
  epochSubkeys : Key ι
  nonceToken : BitVec 64
  nonceCounter : BitVec 64
  epochId : BitVec 32
  epochCheckLastUs : ℕ
  rekeySeed : Seed ι
  sendRekeyGen : BitVec 32
  recvRekeyGen : BitVec 32
  hsDeadlineUs : ℕ
  replay : Replay
  hs : Option (Handshake ι)
  peerId : PeerId
  firstContact : Bool
  isInitiator : Bool
  peerActive : Bool

end Terms

/-- A datagram as an AEAD with its nonce seals it; the packet is the plaintext. -/
structure Datagram (ι : Type) where
  token : BitVec 64
  counter : BitVec 64
  key : Key ι
  packet : List Byte
  deriving DecidableEq

inductive Primitive
  | mlkem
  | bp512
  | frodo
  | sign
  | fragSend
  deriving DecidableEq

/-- What a call finds around it: the registrar, the clock, which of the calls it makes fail, and
what an uninitialised hash buffer holds. -/
structure Around (ι : Type) where
  reg : Registrar
  now : ℕ
  fails : Primitive → Bool
  noise : Digest ι

inductive Output (ι : Type)
  | state (state : SessionState)
  | message (msg : Message ι)
  | signed (signature : Sig ι)
  | verified (signature : Sig ι)
  | queued (payload : List Byte) (reliable : Bool)
  | received (channel : BitVec 8) (data : List Byte) (reliable : Bool)

variable {ι : Type}

abbrev Outcome (ι : Type) := Client ι × List (Output ι)

def setState (c : Client ι) (state : SessionState) : Outcome ι := ({ c with state }, [.state state])

def hsCtxCreate (firstContact : Bool) : Handshake ι where
  state := .idle
  firstContact := firstContact
  peerId := zeroBytes 32
  mlkem := none
  bp512 := none
  frodo := none
  transcript := some []
  transcriptHash := .other 0

def create (self : ι) (reg : Registrar) (identity : Identity) (firstContact : Bool)
    (nonceToken : BitVec 64) (now : ℕ) : Option (Client ι) :=
  (epochGetCurrent reg).map fun epoch =>
    { self, drawn := 0, identity, state := .disconnected, transportKeyReady := false
      sendSubkeys := .zero, recvSubkeys := .zero, epochSubkeys := .epoch epoch.epochKey
      nonceToken, nonceCounter := 0, epochId := epoch.epochId, epochCheckLastUs := now
      rekeySeed := .zero, sendRekeyGen := 0, recvRekeyGen := 0, hsDeadlineUs := 0
      replay := .zero, hs := some (hsCtxCreate firstContact), peerId := zeroBytes 32
      firstContact, isInitiator := false, peerActive := false }

/-- The `k`-th of the random values the client draws next. -/
def Client.draw (c : Client ι) (k : ℕ) : Name ι := .honest c.self (c.drawn + k)

def deriveGenKey (seed : Seed ι) (gen : BitVec 32) (initDirection : Bool) : Key ι :=
  .gen seed gen initDirection

-- The epoch key of the datagrams stays the one the client has.
def deriveKeys (reg : Registrar) (c : Client ι) (mlkemSs : Shared ι) (frodoSs : Option (Shared ι))
    (bp512Ss : Sym2 (Name ι)) : Option (Client ι) :=
  (epochGetCurrent reg).map fun epoch =>
    let seed := .init ⟨mlkemSs, frodoSs, bp512Ss, epoch.epochKey⟩
    { c with
      epochId := epoch.epochId
      rekeySeed := seed
      sendSubkeys := deriveGenKey seed 0 c.isInitiator
      recvSubkeys := deriveGenKey seed 0 (!c.isInitiator)
      sendRekeyGen := 0
      recvRekeyGen := 0
      transportKeyReady := true }

def epochRekey (reg : Registrar) (c : Client ι) (epoch : Epoch) : Client ι :=
  let seed := c.rekeySeed.rekey epoch.epochKey
  { c with
    rekeySeed := seed
    sendSubkeys := deriveGenKey seed 0 c.isInitiator
    recvSubkeys := deriveGenKey seed 0 (!c.isInitiator)
    epochSubkeys := .epoch epoch.epochKey
    epochId := epoch.epochId
    sendRekeyGen := 0
    recvRekeyGen := 0
    peerActive :=
      match reg.peers.find? c.peerId with
      | some peer => if peer.status ≠ PeerStatus.active then false else c.peerActive
      | none => c.peerActive }

def finalHash (transcript : Option (List (Chunk ι))) (noise : Digest ι) : Digest ι :=
  match transcript with
  | some chunks => .hash chunks
  | none => noise

def feed (transcript : Option (List (Chunk ι))) (chunks : List (Chunk ι)) :
    Option (List (Chunk ι)) := transcript.map (· ++ chunks)

/-- `memcmp(a, b) < 0` -/
def memcmpLt (a b : PeerId) : Bool := a.val < b.val

def Client.fail (c : Client ι) (h : Handshake ι) (outs : List (Output ι)) : Outcome ι :=
  ({ c with state := .failed, hs := some h }, outs ++ [.state .failed])

def becomeResponder (e : Around ι) (c : Client ι) (msg : Hello ι) : Client ι :=
  let firstContact : Bool := msg.firstContact ≠ 0
  { c with
    peerActive := true
    peerId := msg.peerId
    firstContact
    isInitiator := false
    hsDeadlineUs :=
      if c.hsDeadlineUs = 0 then
        e.now + (if firstContact then hsTimeoutFirstUs else hsTimeoutSubseqUs)
      else c.hsDeadlineUs }

/-- The second half of `sudp_process_hello`: key exchange, signature, RESPONSE. -/
def respond (e : Around ι) (c : Client ι) (h : Handshake ι) (msg : Hello ι) : Outcome ι :=
  let firstContact : Bool := msg.firstContact ≠ 0
  let own := c.draw 1
  let mlkem := encaps msg.mlkemPk (c.draw 0)
  let frodo := if firstContact then msg.frodoPk.map fun pk => encaps pk (c.draw 2) else none
  let c := { c with drawn := c.drawn + 3 }
  if e.fails .mlkem then c.fail h []
  else
    let h := { h with bp512 := some own }
    if e.fails .bp512 then c.fail h []
    else if firstContact ∧ e.fails .frodo then c.fail h []
    else
      let transcript := feed h.transcript
        [.hello msg, .response c.identity.peerId mlkem.1 own (frodo.map Prod.fst)]
      let digest := finalHash transcript e.noise
      let signature : Sig ι := ⟨c.identity.publicKey, digest⟩
      let h := { h with transcript := none }
      if e.fails .sign then c.fail h []
      else
        match deriveKeys e.reg c mlkem.2 (frodo.map Prod.snd) s(own, msg.bp512Pk) with
        | none => c.fail h [.signed signature]
        | some c =>
          let h := { h with transcriptHash := digest, state := .waitConfirm }
          if e.fails .fragSend then c.fail h [.signed signature]
          else
            ({ c with hs := some h },
              [.signed signature,
                .message (.response ⟨protocolVersion, c.identity.peerId, mlkem.1, own,
                  frodo.map Prod.fst, signature⟩)])

def Handshake.yield (h : Handshake ι) : Handshake ι :=
  if h.state = .helloSent then { h with bp512 := none, transcript := some [] } else h

def processHello (e : Around ι) (c : Client ι) (h : Handshake ι) (msg : Hello ι) : Outcome ι :=
  if msg.version ≠ protocolVersion then (c, [])
  else if h.state = .helloSent ∧ memcmpLt c.identity.peerId msg.peerId then (c, [])
  else if msg.firstContact ≠ 0 ∧ msg.frodoPk = none then ({ c with hs := some h.yield }, [])
  else
    match e.reg.peers.find? msg.peerId with
    | none => ({ c with hs := some h.yield }, [])
    | some peer =>
      if peer.status ≠ PeerStatus.active then ({ c with hs := some h.yield }, [])
      else
        respond e (becomeResponder e c msg)
          { h.yield with peerId := msg.peerId, firstContact := msg.firstContact ≠ 0 } msg

def Response.signatureFor (msg : Response ι) (firstContact : Bool) : Option (Sig ι) :=
  if msg.frodoCt.isSome = firstContact then some msg.signature else none

variable [DecidableEq ι]

/-- The second half of `sudp_process_response`, from the key pairs of the HELLO. -/
def concludeResponse (e : Around ι) (c : Client ι) (h : Handshake ι) (msg : Response ι)
    (signKey : PublicKey) (mlkem bp512 : Name ι) : Outcome ι :=
  let frodoCt := if h.firstContact then msg.frodoCt else none
  if e.fails .mlkem ∨ e.fails .bp512 ∨ (h.firstContact ∧ e.fails .frodo) then c.fail h []
  else
    let digest := finalHash
      (feed h.transcript [.response msg.peerId msg.mlkemCt msg.bp512Pk frodoCt]) e.noise
    let h := { h with transcript := none }
    if msg.signatureFor h.firstContact ≠ some ⟨signKey, digest⟩ then c.fail h []
    else
      let frodoSs := h.frodo.bind fun key => frodoCt.map (decaps key)
      match deriveKeys e.reg c (decaps mlkem msg.mlkemCt) frodoSs s(bp512, msg.bp512Pk) with
      | none => c.fail h [.verified ⟨signKey, digest⟩]
      | some c =>
        let signature : Sig ι := ⟨c.identity.publicKey, digest⟩
        if e.fails .sign then c.fail h [.verified ⟨signKey, digest⟩]
        else if e.fails .fragSend then
          c.fail { h with state := .done } [.verified ⟨signKey, digest⟩, .signed signature]
        else
          ({ c with state := .established, hs := none },
            [.verified ⟨signKey, digest⟩, .signed signature,
              .message (.confirm ⟨protocolVersion, signature⟩), .state .established])

def processResponse (e : Around ι) (c : Client ι) (h : Handshake ι) (msg : Response ι) :
    Outcome ι :=
  if h.state ≠ .helloSent then (c, [])
  else if h.firstContact ∧ msg.frodoCt = none then (c, [])
  else if msg.version ≠ protocolVersion then (c, [])
  else
    match e.reg.peers.find? msg.peerId with
    | none => (c, [])
    | some peer =>
      if peer.status ≠ PeerStatus.active then (c, [])
      else if msg.peerId ≠ h.peerId then (c, [])
      else
        match h.mlkem, h.bp512 with
        | some mlkem, some bp512 => concludeResponse e c h msg peer.signKey mlkem bp512
        | _, _ => c.fail h []

def processConfirm (e : Around ι) (c : Client ι) (h : Handshake ι) (msg : Confirm ι) : Outcome ι :=
  if h.state ≠ .waitConfirm then (c, [])
  else if msg.version ≠ protocolVersion then (c, [])
  else
    match e.reg.peers.find? h.peerId with
    | none => c.fail h []
    | some peer =>
      if peer.status ≠ PeerStatus.active then c.fail h []
      else if ¬ msg.signature.Verifies h.transcriptHash peer.signKey then c.fail h []
      else
        ({ c with state := .established, hs := none },
          [.verified msg.signature, .state .established])

/-- `sudp_process_handshake_msg`, for a message that is complete. -/
def processHandshakeMsg (e : Around ι) (c : Client ι) (msg : Message ι) : Outcome ι :=
  match c.hs with
  | none => (c, [])
  | some h =>
    match msg with
    | .hello msg => processHello e c h msg
    | .response msg => processResponse e c h msg
    | .confirm msg => processConfirm e c h msg

def udpHdrSize : ℕ := 10

def htonl (v : BitVec 32) : List Byte := (writeU32 v).reverse

def ntohl (bytes : List Byte) : BitVec 32 := BitVec.ofNat 32 (ofLe bytes.reverse)

def epochField (pt : List Byte) : List Byte := (pt.drop udpHdrSize).take 4

def patchEpoch (pt : List Byte) (epochId : BitVec 32) : List Byte :=
  pt.take udpHdrSize ++ htonl epochId ++ pt.drop (udpHdrSize + 4)

def genOf (counter : BitVec 64) : BitVec 32 := (counter >>> 20).setWidth 32

def Client.timedOut (c : Client ι) (now : ℕ) : Bool :=
  c.state = .handshaking ∧ c.hsDeadlineUs ≠ 0 ∧ c.hsDeadlineUs < now

-- The registrar is asked at most every 30 s; a packet that meets a rotation gets the new epoch.
def refreshEpoch (e : Around ι) (c : Client ι) (pt : List Byte) : Client ι × List Byte :=
  if c.transportKeyReady ∧ epochCheckIntervalUs ≤ e.now - c.epochCheckLastUs then
    let c := { c with epochCheckLastUs := e.now }
    match epochGetCurrent e.reg with
    | some epoch =>
      if epoch.epochId ≠ c.epochId then
        let c := epochRekey e.reg c epoch
        (c, patchEpoch pt c.epochId)
      else (c, pt)
    | none => (c, pt)
  else (c, pt)

/-- Whether the packet is encrypted with `send_subkeys`, and not with the subkeys of the epoch. -/
def usesSendSubkeys (c : Client ι) (pt : List Byte) : Bool :=
  if udpHdrSize + 4 < pt.length then epochField pt ≠ [0, 0, 0, 0]
  else c.state = .established ∧ c.transportKeyReady

def sendRekey (c : Client ι) : Client ι :=
  let gen := genOf c.nonceCounter
  if c.transportKeyReady ∧ gen ≠ c.sendRekeyGen then
    { c with
      sendSubkeys := deriveGenKey c.rekeySeed gen c.isInitiator
      sendRekeyGen := gen }
  else c

/-- The last steps of `sudp_pkt_encrypt`: the nonce, the generation, the AEAD. -/
def sealWith (c : Client ι) (session : Bool) (pt : List Byte) : Client ι × Datagram ι :=
  let counter := c.nonceCounter
  let c := if session then sendRekey c else c
  ({ c with nonceCounter := counter + 1 },
    ⟨c.nonceToken, counter, if session then c.sendSubkeys else c.epochSubkeys, pt⟩)

def pktEncrypt (e : Around ι) (c : Client ι) (pt : List Byte) : Outcome ι × Option (Datagram ι) :=
  if c.timedOut e.now then (setState c .failed, none)
  else
    let session := usesSendSubkeys c pt
    let refreshed :=
      if udpHdrSize + 4 < pt.length ∧ session then refreshEpoch e c pt else (c, pt)
    let sealed := sealWith refreshed.1 session refreshed.2
    ((sealed.1, []), some sealed.2)

def openSession (c : Client ι) (d : Datagram ι) : Option (Client ι) :=
  let gen := genOf d.counter
  if ¬ c.transportKeyReady then none
  else if gen = c.recvRekeyGen then
    if d.key = c.recvSubkeys then some c else none
  else
    let key := deriveGenKey c.rekeySeed gen (!c.isInitiator)
    if d.key = key then some { c with recvSubkeys := key, recvRekeyGen := gen } else none

def accept (c : Client ι) (d : Datagram ι) : Client ι × Option (List Byte) :=
  let check := replayCheck c.replay d.counter
  ({ c with replay := check.2 }, if check.1 then some d.packet else none)

def rotatedEpoch (reg : Registrar) (c : Client ι) : Option Epoch :=
  (epochGetCurrent reg).filter fun epoch => c.transportKeyReady ∧ epoch.epochId ≠ c.epochId

def openDatagram (e : Around ι) (c : Client ι) (d : Datagram ι) : Client ι × Option (List Byte) :=
  match openSession c d with
  | some c => accept c d
  | none =>
    if d.key = c.epochSubkeys then accept c d
    else
      match rotatedEpoch e.reg c with
      | none => (c, none)
      | some epoch =>
        let c := epochRekey e.reg c epoch
        if d.key = c.recvSubkeys ∨ d.key = c.epochSubkeys then accept c d else (c, none)

/-- `none` for bytes that are too few for a datagram. -/
def pktDecrypt (e : Around ι) (c : Client ι) (d : Option (Datagram ι)) :
    Outcome ι × Option (List Byte) :=
  if c.timedOut e.now then (setState c .failed, none)
  else
    match d with
    | none => ((c, []), none)
    | some d => (((openDatagram e c d).1, []), (openDatagram e c d).2)

section Data

omit [DecidableEq ι]

/-- `maxPayload` is what the inner transport takes. -/
def encryptSend (maxPayload : ℕ) (c : Client ι) (channel : BitVec 8) (data : List Byte)
    (reliable : Bool) : Outcome ι :=
  if c.state ≠ .established then (c, [])
  else if ¬ c.peerActive then setState c .failed
  else if maxPayload < 5 + data.length then (c, [])
  else (c, [.queued (htonl c.epochId ++ channel :: data) reliable])

/-- `sudp_inner_recv` for a payload that does not start with a zero epoch. -/
def innerRecvData (c : Client ι) (pkt : List Byte) (reliable : Bool) : Outcome ι :=
  match pkt.drop 4 with
  | [] => (c, [])
  | channel :: data =>
    if ¬ c.peerActive then setState c .failed
    else if ntohl (pkt.take 4) ≠ c.epochId then (c, [])
    else (c, [.received channel data reliable])

def workerConnect (e : Around ι) (c : Client ι) (peerId : PeerId) : Outcome ι :=
  if c.state = .established then (c, [])
  else
    let h := c.hs.getD (hsCtxCreate c.firstContact)
    if h.state ≠ .idle then
      let c := { c with hs := some h }
      if c.state = .disconnected then setState c .handshaking else (c, [])
    else
      let mlkem := c.draw 0
      let bp512 := c.draw 1
      let frodo := if h.firstContact then some (c.draw 2) else none
      let h := { h with peerId, mlkem := some mlkem, bp512 := some bp512, frodo }
      let c := { c with drawn := c.drawn + 3, hs := some h, peerId, peerActive := true, isInitiator := true }
      match epochGetCurrent e.reg with
      | none => c.fail h []
      | some epoch =>
        let hello : Hello ι :=
          ⟨protocolVersion, c.identity.peerId, epoch.epochId, if h.firstContact then 1 else 0,
            mlkem, bp512, frodo, []⟩
        let h := { h with transcript := feed h.transcript [.hello hello], state := .helloSent }
        let c :=
          { c with
            hs := some h
            hsDeadlineUs :=
              e.now + (if h.firstContact then hsTimeoutFirstUs else hsTimeoutSubseqUs)
            state := .handshaking }
        if e.fails .fragSend then c.fail h [.state .handshaking]
        else (c, [.state .handshaking, .message (.hello hello)])

/-- `yumi_sudp_client_connect`: what is checked before the worker is asked to connect. -/
def connect (reg : Registrar) (c : Client ι) (peerId : PeerId) : Bool :=
  c.state ≠ .established ∧ (reg.peers.find? peerId).any fun peer => peer.status = PeerStatus.active

def notifyKick (reg : Registrar) (c : Client ι) : Outcome ι :=
  if c.state ≠ .established ∧ c.state ≠ .handshaking then (c, [])
  else
    match reg.peers.find? c.peerId with
    | none => (c, [])
    | some peer =>
      if peer.status = PeerStatus.kicked ∨ peer.status = PeerStatus.banned then
        setState { c with peerActive := false } .failed
      else (c, [])

end Data

end YumiBrowser.Sudp
