import YumiBrowser.Network.Session
import YumiBrowser.Registrar.EpochAdoption

namespace YumiBrowser.Sudp

open Wire Ideal
open YumiBrowser.Group (Registrar Identity PeerId EpochKey Epoch epochGetCurrent)

variable {ι : Type}

/-- The uses of a session that has its keys. -/
inductive Use (ι : Type)
  | encrypt (pt : List Byte) (e : Around ι)
  | decrypt (d : Option (Datagram ι)) (e : Around ι)
  | send (maxPayload : ℕ) (channel : BitVec 8) (data : List Byte) (reliable : Bool)
  | recv (pkt : List Byte) (reliable : Bool)
  | kick (reg : Registrar)

def Use.registrar? : Use ι → Option Registrar
  | encrypt _ e | decrypt _ e => some e.reg
  | kick reg => some reg
  | _ => none

def RotatesTo (crypto : Group.Crypto) (reg reg' : Registrar) : Prop :=
  ∃ key signer clk, Group.epochRotate crypto reg key signer clk = .ok reg'

def rotations : BitVec 32 → List Epoch → List EpochKey
  | _, [] => []
  | id, e :: es =>
    if e.epochId ≠ id then e.epochKey :: rotations e.epochId es else rotations id es

def epochAfter : BitVec 32 → List Epoch → BitVec 32
  | id, [] => id
  | _, e :: es => epochAfter e.epochId es

def Seed.rekeyAll (seed : Seed ι) (keys : List EpochKey) : Seed ι := keys.foldl rekey seed

section Seeds

theorem rotations_append (id : BitVec 32) (es es' : List Epoch) :
    rotations id (es ++ es') = rotations id es ++ rotations (epochAfter id es) es' := by
  induction es generalizing id with
  | nil => rfl
  | cons e es ih =>
    rw [List.cons_append, rotations, rotations, epochAfter]
    split
    · rw [ih, List.cons_append]
    · rename_i h
      rw [ih, not_not.mp h]

theorem epochAfter_append (id : BitVec 32) (es es' : List Epoch) :
    epochAfter id (es ++ es') = epochAfter (epochAfter id es) es' := by
  induction es generalizing id with
  | nil => rfl
  | cons e es ih => exact ih e.epochId

def Seed.depth : Seed ι → ℕ
  | rekey seed _ => seed.depth + 1
  | _ => 0

theorem Seed.depth_rekeyAll (seed : Seed ι) (keys : List EpochKey) :
    (seed.rekeyAll keys).depth = seed.depth + keys.length := by
  induction keys generalizing seed with
  | nil => rfl
  | cons key keys ih =>
    rw [List.length_cons, ← Nat.add_assoc, Nat.add_right_comm]
    exact ih (seed.rekey key)

theorem Seed.rekeyAll_append (seed : Seed ι) (keys keys' : List EpochKey) :
    seed.rekeyAll (keys ++ keys') = (seed.rekeyAll keys).rekeyAll keys' := List.foldl_append

theorem Seed.rekeyAll_inj_of_length (seed seed' : Seed ι) {keys keys' : List EpochKey}
    (hlen : keys.length = keys'.length) :
    seed.rekeyAll keys = seed'.rekeyAll keys' → seed = seed' ∧ keys = keys' := by
  induction keys generalizing seed seed' keys' with
  | nil =>
    intro h
    obtain rfl := List.eq_nil_of_length_eq_zero hlen.symm
    exact ⟨h, rfl⟩
  | cons key keys ih =>
    intro h
    cases keys' with
    | nil => cases hlen
    | cons key' keys' =>
      obtain ⟨hseed, rfl⟩ := ih (seed.rekey key) (seed'.rekey key') (Nat.succ.inj hlen) h
      obtain ⟨rfl, rfl⟩ := Seed.rekey.inj hseed
      exact ⟨rfl, rfl⟩

theorem Seed.rekeyAll_inj {seed : Seed ι} {keys keys' : List EpochKey} :
    seed.rekeyAll keys = seed.rekeyAll keys' ↔ keys = keys' := by
  constructor
  · intro h
    have hdepth : (seed.rekeyAll keys).depth = (seed.rekeyAll keys').depth := by rw [h]
    rw [depth_rekeyAll, depth_rekeyAll] at hdepth
    exact (rekeyAll_inj_of_length seed seed (Nat.add_left_cancel hdepth) h).2
  · intro h
    rw [h]

end Seeds

/-- A session whose keys are those of its seed, its role and its generations. -/
structure Client.Derived (c : Client ι) : Prop where
  ready : c.transportKeyReady = true
  send : c.sendSubkeys = deriveGenKey c.rekeySeed c.sendRekeyGen c.isInitiator
  recv : c.recvSubkeys = deriveGenKey c.rekeySeed c.recvRekeyGen (!c.isInitiator)

/-- What becomes of a session that meets the epochs `es`. -/
structure Follows (c : Client ι) (es : List Epoch) (c' : Client ι) : Prop where
  derived : c.Derived → c'.Derived
  seed : c'.rekeySeed = c.rekeySeed.rekeyAll (rotations c.epochId es)
  epochId : c'.epochId = epochAfter c.epochId es
  role : c'.isInitiator = c.isInitiator

namespace Follows

variable {c c' c'' : Client ι} {es es' : List Epoch}

theorem refl (c : Client ι) : Follows c [] c where
  derived h := h
  seed := rfl
  epochId := rfl
  role := rfl

theorem trans (h : Follows c es c') (h' : Follows c' es' c'') : Follows c (es ++ es') c'' where
  derived hc := h'.derived (h.derived hc)
  seed := by rw [h'.seed, h.seed, h.epochId, rotations_append, Seed.rekeyAll_append]
  epochId := by rw [h'.epochId, h.epochId, epochAfter_append]
  role := h'.role.trans h.role

theorem same {epoch : Epoch} (h : epoch.epochId = c.epochId) : Follows c [epoch] c where
  derived hc := hc
  seed := by
    rw [rotations, if_neg (not_not.mpr h)]
    rfl
  epochId := h.symm
  role := rfl

theorem epochRekey {epoch : Epoch} (reg : Registrar) (h : epoch.epochId ≠ c.epochId) :
    Follows c [epoch] (epochRekey reg c epoch) where
  derived hc := ⟨hc.ready, rfl, rfl⟩
  seed := by
    rw [rotations, if_pos h]
    rfl
  epochId := rfl
  role := rfl

end Follows

section Refresh

variable (e : Around ι) (c : Client ι)

/-- The epochs `sudp_pkt_encrypt` reads from the registrar for a data packet. -/
def refreshReads : List Epoch :=
  if c.transportKeyReady ∧ epochCheckIntervalUs ≤ e.now - c.epochCheckLastUs then
    (epochGetCurrent e.reg).toList
  else []

theorem follows_refreshEpoch (pt : List Byte) :
    Follows c (refreshReads e c) (refreshEpoch e c pt).1 := by
  unfold refreshReads refreshEpoch
  by_cases hdue : c.transportKeyReady ∧ epochCheckIntervalUs ≤ e.now - c.epochCheckLastUs
  · rw [if_pos hdue, if_pos hdue]
    cases epochGetCurrent e.reg with
    | none => exact ⟨fun h => ⟨h.ready, h.send, h.recv⟩, rfl, rfl, rfl⟩
    | some epoch =>
      dsimp only
      split
      · rename_i hne
        exact ⟨fun h => ⟨h.ready, rfl, rfl⟩, (Follows.epochRekey e.reg hne).seed, rfl, rfl⟩
      · rename_i heq
        have h := Follows.same (not_not.mp heq)
        exact ⟨fun h => ⟨h.ready, h.send, h.recv⟩, h.seed, h.epochId, rfl⟩
  · rw [if_neg hdue, if_neg hdue]
    exact Follows.refl c

theorem follows_sealWith (session : Bool) (pt : List Byte) :
    Follows c [] (sealWith c session pt).1 := by
  unfold sealWith sendRekey
  dsimp only
  split
  · split
    · exact ⟨fun h => ⟨h.ready, rfl, h.recv⟩, rfl, rfl, rfl⟩
    · exact ⟨fun h => ⟨h.ready, h.send, h.recv⟩, rfl, rfl, rfl⟩
  · exact ⟨fun h => ⟨h.ready, h.send, h.recv⟩, rfl, rfl, rfl⟩

theorem follows_accept (d : Datagram ι) : Follows c [] (accept c d).1 :=
  ⟨fun h => ⟨h.ready, h.send, h.recv⟩, rfl, rfl, rfl⟩

end Refresh

section Uses

variable [DecidableEq ι] (e : Around ι) (c : Client ι)

def Client.use : Use ι → Client ι
  | .encrypt pt e => (pktEncrypt e c pt).1.1
  | .decrypt d e => (pktDecrypt e c d).1.1
  | .send maxPayload channel data reliable => (encryptSend maxPayload c channel data reliable).1
  | .recv pkt reliable => (innerRecvData c pkt reliable).1
  | .kick reg => (notifyKick reg c).1

/-- The epochs `sudp_pkt_decrypt` reads for a datagram: none, unless the keys at hand all fail. -/
def openReads (d : Datagram ι) : List Epoch :=
  if openSession c d = none ∧ d.key ≠ c.epochSubkeys ∧ c.transportKeyReady then
    (epochGetCurrent e.reg).toList
  else []

def Client.reads : Use ι → List Epoch
  | .encrypt pt e =>
    if c.timedOut e.now then []
    else if udpHdrSize + 4 < pt.length ∧ usesSendSubkeys c pt then refreshReads e c
    else []
  | .decrypt (some d) e => if c.timedOut e.now then [] else openReads e c d
  | _ => []

def Client.observes : Client ι → List (Use ι) → List Epoch
  | _, [] => []
  | c, u :: us => c.reads u ++ (c.use u).observes us

theorem follows_encrypt (pt : List Byte) :
    Follows c (c.reads (.encrypt pt e)) (c.use (.encrypt pt e)) := by
  simp only [Client.reads, Client.use, pktEncrypt]
  by_cases hout : c.timedOut e.now = true
  · rw [if_pos hout, if_pos hout]
    exact ⟨fun h => ⟨h.ready, h.send, h.recv⟩, rfl, rfl, rfl⟩
  · rw [if_neg hout, if_neg hout]
    by_cases hsession : udpHdrSize + 4 < pt.length ∧ usesSendSubkeys c pt = true
    · rw [if_pos hsession, if_pos hsession, ← List.append_nil (refreshReads e c)]
      exact (follows_refreshEpoch e c pt).trans (follows_sealWith _ _ (refreshEpoch e c pt).2)
    · rw [if_neg hsession, if_neg hsession]
      exact follows_sealWith c _ pt

theorem follows_openSession {c c' : Client ι} {d : Datagram ι} (h : openSession c d = some c') :
    Follows c [] c' := by
  unfold openSession at h
  dsimp only at h
  split at h
  · cases h
  · split at h
    · split at h
      · cases h
        exact Follows.refl c
      · cases h
    · split at h
      · cases h
        exact ⟨fun hc => ⟨hc.ready, hc.send, rfl⟩, rfl, rfl, rfl⟩
      · cases h

theorem follows_openDatagram (d : Datagram ι) :
    Follows c (openReads e c d) (openDatagram e c d).1 := by
  unfold openReads openDatagram
  cases hopen : openSession c d with
  | some c' =>
    rw [if_neg (fun h => nomatch h.1)]
    exact (follows_openSession hopen).trans (follows_accept c' d)
  | none =>
    dsimp only
    by_cases hkey : d.key = c.epochSubkeys
    · rw [if_neg (fun h => h.2.1 hkey), if_pos hkey]
      exact follows_accept c d
    · rw [if_neg hkey, rotatedEpoch]
      by_cases hready : c.transportKeyReady = true
      · rw [if_pos ⟨rfl, hkey, hready⟩]
        cases epochGetCurrent e.reg with
        | none => exact Follows.refl c
        | some epoch =>
          by_cases hid : epoch.epochId = c.epochId
          · rw [Option.filter_some, if_neg (by simp [hid])]
            exact Follows.same hid
          · rw [Option.filter_some, if_pos (by simp [hready, hid])]
            dsimp only
            split
            · exact (Follows.epochRekey e.reg hid).trans (follows_accept _ d)
            · exact Follows.epochRekey e.reg hid
      · rw [if_neg (fun h => hready h.2.2)]
        cases epochGetCurrent e.reg with
        | none => exact Follows.refl c
        | some epoch =>
          rw [Option.filter_some, if_neg (by simp [hready])]
          exact Follows.refl c

theorem follows_decrypt (d : Option (Datagram ι)) :
    Follows c (c.reads (.decrypt d e)) (c.use (.decrypt d e)) := by
  simp only [Client.use, pktDecrypt]
  by_cases hout : c.timedOut e.now = true
  · rw [if_pos hout]
    cases d with
    | none => exact ⟨fun h => ⟨h.ready, h.send, h.recv⟩, rfl, rfl, rfl⟩
    | some d =>
      rw [Client.reads, if_pos hout]
      exact ⟨fun h => ⟨h.ready, h.send, h.recv⟩, rfl, rfl, rfl⟩
  · rw [if_neg hout]
    cases d with
    | none => exact Follows.refl c
    | some d =>
      rw [Client.reads, if_neg hout]
      exact follows_openDatagram e c d

theorem follows_use (u : Use ι) : Follows c (c.reads u) (c.use u) := by
  cases u with
  | encrypt pt e => exact follows_encrypt e c pt
  | decrypt d e => exact follows_decrypt e c d
  | send maxPayload channel data reliable =>
    simp only [Client.use, encryptSend]
    split
    · exact Follows.refl c
    · split
      · exact ⟨fun h => ⟨h.ready, h.send, h.recv⟩, rfl, rfl, rfl⟩
      · split <;> exact Follows.refl c
  | recv pkt reliable =>
    simp only [Client.use, innerRecvData]
    split
    · exact Follows.refl c
    · split
      · exact ⟨fun h => ⟨h.ready, h.send, h.recv⟩, rfl, rfl, rfl⟩
      · split <;> exact Follows.refl c
  | kick reg =>
    simp only [Client.use, notifyKick]
    split
    · exact Follows.refl c
    · split
      · exact Follows.refl c
      · split
        · exact ⟨fun h => ⟨h.ready, h.send, h.recv⟩, rfl, rfl, rfl⟩
        · exact Follows.refl c

theorem observes_append (us us' : List (Use ι)) :
    c.observes (us ++ us') = c.observes us ++ (us.foldl (·.use ·) c).observes us' := by
  induction us generalizing c with
  | nil => rfl
  | cons u us ih => rw [List.cons_append, Client.observes, Client.observes, ih, List.append_assoc, List.foldl_cons]

theorem follows_uses (us : List (Use ι)) :
    Follows c (c.observes us) (us.foldl (·.use ·) c) := by
  induction us generalizing c with
  | nil => exact Follows.refl c
  | cons u us ih => exact (follows_use c u).trans (ih (c.use u))

end Uses

/-- One seed, and whatever one end encrypts in a generation the other one has the key of. -/
structure Agree (c₁ c₂ : Client ι) : Prop where
  seed : c₁.rekeySeed = c₂.rekeySeed
  forth : c₁.sendRekeyGen = c₂.recvRekeyGen → c₁.sendSubkeys = c₂.recvSubkeys
  back : c₂.sendRekeyGen = c₁.recvRekeyGen → c₂.sendSubkeys = c₁.recvSubkeys

theorem agree_iff_seed {c₁ c₂ : Client ι} (h₁ : c₁.Derived) (h₂ : c₂.Derived)
    (hrole : c₁.isInitiator = !c₂.isInitiator) : Agree c₁ c₂ ↔ c₁.rekeySeed = c₂.rekeySeed := by
  constructor
  · exact Agree.seed
  · intro hseed
    constructor
    · exact hseed
    · intro hgen
      rw [h₁.send, h₂.recv, hseed, hgen, hrole]
    · intro hgen
      rw [h₂.send, h₁.recv, hseed, hgen, hrole, Bool.not_not]

variable [DecidableEq ι]

/-- Two ends that start from one seed still agree exactly when they met the same rotations: the
seed is chained through all of them. -/
theorem uses_agree_iff {c₁ c₂ : Client ι} (h₁ : c₁.Derived) (h₂ : c₂.Derived)
    (hrole : c₁.isInitiator = !c₂.isInitiator) (hseed : c₁.rekeySeed = c₂.rekeySeed)
    (us₁ us₂ : List (Use ι)) :
    Agree (us₁.foldl (·.use ·) c₁) (us₂.foldl (·.use ·) c₂) ↔
      rotations c₁.epochId (c₁.observes us₁) = rotations c₂.epochId (c₂.observes us₂) := by
  have hf₁ := follows_uses c₁ us₁
  have hf₂ := follows_uses c₂ us₂
  have hroles : (us₁.foldl (·.use ·) c₁).isInitiator = !(us₂.foldl (·.use ·) c₂).isInitiator := by
    rw [hf₁.role, hf₂.role, hrole]
  rw [agree_iff_seed (hf₁.derived h₁) (hf₂.derived h₂) hroles, hf₁.seed, hf₂.seed, hseed]
  exact Seed.rekeyAll_inj

section Skipped

open YumiBrowser.Group (Hash Crypto member flatHash onlySigner rotatedGroup rotatedTwice
  epochRotate_rotatedGroup)

def pairEnd (isInitiator : Bool) : Client Bool :=
  let root : Root Bool :=
    ⟨.agreed (.honest true 0) (.honest false 0), none, s(.honest true 1, .honest false 1),
      Group.zeroBytes 128⟩
  { self := isInitiator, drawn := 3, identity := member (if isInitiator then 1 else 2)
    state := .established, transportKeyReady := true
    sendSubkeys := deriveGenKey (.init root) 0 isInitiator
    recvSubkeys := deriveGenKey (.init root) 0 (!isInitiator)
    epochSubkeys := .epoch (Group.zeroBytes 128), nonceToken := 0, nonceCounter := 0, epochId := 1
    epochCheckLastUs := 0, rekeySeed := .init root, sendRekeyGen := 0, recvRekeyGen := 0
    hsDeadlineUs := 0, replay := .zero, hs := none
    peerId := (member (if isInitiator then 2 else 1)).peerId, firstContact := false, isInitiator
    peerActive := true }

/-- What an end does with a datagram it cannot open, while the registrar is `reg`. -/
def meets (reg : Registrar) : Use Bool :=
  .decrypt (some ⟨0, 0, .foreign 0, []⟩) ⟨reg, 0, fun _ => false, .other 0⟩

theorem pairEnd_derived (b : Bool) : (pairEnd b).Derived := ⟨rfl, rfl, rfl⟩

-- Each end reads the third epoch, after it has applied the second one.
theorem uses_agree_iff_met :
    Agree
        ([meets (rotatedGroup flatHash), meets (rotatedTwice flatHash)].foldl (·.use ·) (pairEnd true))
        ([meets (rotatedGroup flatHash), meets (rotatedTwice flatHash)].foldl (·.use ·)
          (pairEnd false)) ↔
      rotations 1 ((pairEnd true).observes
          [meets (rotatedGroup flatHash), meets (rotatedTwice flatHash)]) =
        rotations 1 ((pairEnd false).observes
          [meets (rotatedGroup flatHash), meets (rotatedTwice flatHash)]) :=
  uses_agree_iff (pairEnd_derived true) (pairEnd_derived false) rfl rfl _ _

-- One end asks the registrar for the first time when it has rotated twice.
theorem skipped_epoch_disagrees :
    ¬ ∃ skein : List Byte → Hash, ∀ (crypto : Crypto) (regs : List Registrar) (c₁ c₂ : Client Bool)
      (us₁ us₂ : List (Use Bool)), crypto.skein = skein → regs.IsChain (RotatesTo crypto) →
      c₁.Derived → c₂.Derived → c₁.isInitiator = !c₂.isInitiator → c₁.rekeySeed = c₂.rekeySeed →
      c₁.epochId = c₂.epochId → (∀ u ∈ us₁ ++ us₂, ∀ reg ∈ u.registrar?, reg ∈ regs) →
      (c₁.observes us₁).getLast? = (c₂.observes us₂).getLast? →
      Agree (us₁.foldl (·.use ·) c₁) (us₂.foldl (·.use ·) c₂) := by
  rintro ⟨skein, h⟩
  let us₁ := [meets (rotatedGroup skein), meets (rotatedTwice skein)]
  let us₂ := [meets (rotatedTwice skein)]
  have hchain : [rotatedGroup skein, rotatedTwice skein].IsChain
      (RotatesTo (onlySigner skein (member 1))) :=
    List.isChain_pair.mpr ⟨_, _, _, epochRotate_rotatedGroup⟩
  have hregs : ∀ u ∈ us₁ ++ us₂, ∀ reg ∈ u.registrar?, reg ∈ [rotatedGroup skein, rotatedTwice skein] := by
    simp [us₁, us₂, meets, Use.registrar?]
  have hlast : ((pairEnd true).observes us₁).getLast? = ((pairEnd false).observes us₂).getLast? := rfl
  have hagree := h (onlySigner skein (member 1)) _ (pairEnd true) (pairEnd false) us₁ us₂ rfl hchain
    (pairEnd_derived true) (pairEnd_derived false) rfl rfl rfl hregs hlast
  have hseed := hagree.seed
  rw [(follows_uses (pairEnd true) us₁).seed, (follows_uses (pairEnd false) us₂).seed] at hseed
  have hkeys : 2 = 1 := congrArg List.length (Seed.rekeyAll_inj.mp hseed)
  exact absurd hkeys (by decide)

end Skipped

end YumiBrowser.Sudp
