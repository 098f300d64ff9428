import YumiBrowser.Registrar.FullSync

namespace YumiBrowser.Client

open Wire YumiBrowser.Group

def putU16 (v : BitVec 16) : List Byte := (toLe 2 v.toNat).reverse

def getU16 (b₀ b₁ : Byte) : BitVec 16 := BitVec.ofNat 16 (ofLe [b₁, b₀])

/-- `YBOT` -/
def bootMagic : List Byte := [0x59, 0x42, 0x4F, 0x54]

def bootData : Byte := 0x02
def bootDone : Byte := 0x03
def bootErr : Byte := 0xFF

def bootChunkSize : ℕ := 1000

section Server

variable (blob : List Byte)

def totalChunks : ℕ := (blob.length + bootChunkSize - 1) / bootChunkSize

def chunkAt (i : ℕ) : List Byte := (blob.drop (i * bootChunkSize)).take bootChunkSize

def bootDataPacket (i : ℕ) : List Byte :=
  bootMagic ++ bootData :: putU16 (BitVec.ofNat 16 i) ++ putU16 (BitVec.ofNat 16 (totalChunks blob)) ++ chunkAt blob i

def bootSend : List (List Byte) :=
  (List.range (totalChunks blob)).map (bootDataPacket blob) ++ [bootMagic ++ [bootDone]]

end Server

def bootSendRegistrar (reg : Registrar) : List (List Byte) := bootSend (grSerialize reg .full)

inductive BootMsg
  | data (seq total : BitVec 16) (chunk : List Byte)
  | done
  | err
  | other

/-- What a datagram is that `recvfrom` puts into `rbuf[BOOT_HDR + 5 + YUMI_BOOT_CHUNK_SIZE + 64]`. -/
def readBoot (datagram : List Byte) : BootMsg :=
  let rbuf := datagram.take (4 + 5 + bootChunkSize + 64)
  if rbuf.take 4 ≠ bootMagic then .other
  else
    match rbuf.drop 4 with
    | [] => .other
    | rtype :: rest =>
      if rtype = bootData then
        match rest with
        | s₀ :: s₁ :: t₀ :: t₁ :: chunk => .data (getU16 s₀ s₁) (getU16 t₀ t₁) chunk
        | _ => .other
      else if rtype = bootDone then .done
      else if rtype = bootErr then .err
      else .other

/-- Where `boot_fetch_registrar` is: it receives chunks until the end of a transfer, waits for those that are
missing, or has returned. -/
inductive FetchPhase
  | receiving
  | missing
  | ended
  deriving DecidableEq

structure Fetch where
  -- the bootstrap peer that is tried
  peer : ℕ
  phase : FetchPhase
  totalChunks : BitVec 16
  chunks : Option (List (Option (List Byte)))
  retries : ℕ
  out : Option (List Byte)

inductive FetchEvent
  | datagram (bytes : List Byte)
  -- `poll` without a datagram
  | timeout
  -- the end of the time for this peer
  | deadline

namespace Fetch

def tryPeer (count peer : ℕ) : Fetch :=
  ⟨peer, if peer < count then .receiving else .ended, 0, none, 0, none⟩

variable (count : ℕ) (f : Fetch)

def giveUp : Fetch := tryPeer count (f.peer + 1)

def allocate (total : BitVec 16) : Fetch :=
  match f.chunks with
  | none => { f with totalChunks := total, chunks := some (List.replicate total.toNat none) }
  | some _ => f

def store (seq : BitVec 16) (chunk : List Byte) : Fetch :=
  match f.chunks with
  | none => f
  | some chunks =>
    if seq.toNat < f.totalChunks.toNat ∧ chunks[seq.toNat]? = some none then
      { f with chunks := some (chunks.set seq.toNat (some chunk)) }
    else f

def finish (chunks : List (Option (List Byte))) : Fetch :=
  { f with phase := .ended, chunks := none, out := some (chunks.flatMap fun chunk => chunk.getD []) }

def Complete (chunks : List (Option (List Byte))) : Prop := ∀ chunk ∈ chunks, chunk.isSome

instance (chunks : List (Option (List Byte))) : Decidable (Complete chunks) :=
  inferInstanceAs (Decidable (∀ chunk ∈ chunks, chunk.isSome))

def settle (phase : FetchPhase) : Fetch :=
  match f.chunks with
  | none => f.giveUp count
  | some chunks => if Complete chunks then f.finish chunks else { f with phase }

def receive (datagram : List Byte) : Fetch :=
  match f.phase, readBoot datagram with
  | .receiving, .data seq total chunk =>
    if total = 0 ∨ 10000 < total.toNat then f else (f.allocate total).store seq chunk
  | .receiving, .done => f.settle count .missing
  | .receiving, .err => f.giveUp count
  | .missing, .data seq _ chunk => (f.store seq chunk).settle count .missing
  | _, _ => f

def next : FetchEvent → Fetch
  | .datagram bytes => f.receive count bytes
  | .timeout =>
    match f.phase with
    | .receiving => if 5 < f.retries + 1 then f.giveUp count else { f with retries := f.retries + 1 }
    | .missing => f.giveUp count
    | .ended => f
  | .deadline => if f.phase = .ended then f else f.giveUp count

end Fetch

end YumiBrowser.Client
