import YumiBrowser.Network.EpochRekey
import YumiBrowser.Network.KeyChoice
import YumiBrowser.Network.ReliableReceive

namespace YumiBrowser.Sudp

open Wire Ideal Transition
open YumiBrowser.Group (Registrar EpochKey Epoch epochGetCurrent)
open YumiBrowser.Udp (Receiver Channel Reply workerRecv wire packet)

structure Queued where
  user : Bool
  payload : List Byte

structure Flow where
  queued : List Queued
  receiver : Receiver (ℕ × List Byte)
  handed : List (BitVec 32 × ℕ × List Byte)
  emitted : List (ℕ × Reply)

def Flow.fresh : Flow where
  queued := []
  receiver := .fresh
  handed := []
  emitted := []

inductive Load
  | packet (n : ℕ)
  | answer (n : ℕ) (reply : Reply)
  | other
  deriving DecidableEq

structure Passed where
  number : ℕ
  channel : BitVec 8
  data : List Byte

/-- Two ends of a session: what either end has sent, opened, and been told to have arrived, and
what of its packets the user at the other end got. -/
structure Line where
  client : Bool → Client Bool
  flow : Bool → Flow
  flying : Bool → List (Load × Datagram Bool)
  opened : Bool → List (Load × List Byte)
  acked : Bool → List ℕ
  passed : Bool → List Passed

inductive LineEvent
  | send (i : Bool) (maxPayload : ℕ) (channel : BitVec 8) (data : List Byte)
  | fragment (i : Bool) (payload : List Byte)
  | transmit (i : Bool) (n : ℕ) (e : Around Bool)
  | answer (i : Bool) (n : ℕ) (reply : Reply) (e : Around Bool)
  | other (i : Bool) (pt : List Byte) (e : Around Bool)
  | arrive (i : Bool) (load : Load) (d : Datagram Bool) (e : Around Bool)
  | recv (i : Bool) (load : Load) (pt : List Byte)
  | kick (i : Bool) (reg : Registrar)

def seqOf (pt : List Byte) : BitVec 32 := BitVec.ofNat 32 (ofLe ((pt.drop 2).take 4))

/-- `sudp_inner_recv` in a session that is through with its handshake. -/
def innerRecv (c : Client Bool) (pkt : List Byte) (reliable : Bool) : Outcome Bool :=
  if pkt.take 4 = [0, 0, 0, 0] then (c, []) else innerRecvData c pkt reliable

def Output.queued? : Output Bool → Option Queued
  | .queued payload _ => some ⟨true, payload⟩
  | _ => none

def Output.passed (n : ℕ) : Output Bool → Option Passed
  | .received channel data _ => some ⟨n, channel, data⟩
  | _ => none

/-- The calls of `recv_cb` for the packets the transport hands up. -/
def handUp (c : Client Bool) : List (BitVec 32 × ℕ × List Byte) → Client Bool × List Passed
  | [] => (c, [])
  | x :: xs =>
    let o := innerRecv c x.2.2 true
    let rest := handUp o.1 xs
    (rest.1, o.2.filterMap (Output.passed x.2.1) ++ rest.2)

def replyPacket : Reply → Packet
  | .ack seq => .ack 0 seq
  | .sack seq cumulative bitmap => .sack 0 seq cumulative bitmap

def Flow.released (f : Flow) (n : ℕ) (pt : List Byte) : List (BitVec 32 × ℕ × List Byte) :=
  (workerRecv f.receiver (seqOf pt) (n, payloadOf pt)).delivered

def Flow.recv (f : Flow) (n : ℕ) (pt : List Byte) : Flow :=
  let out := workerRecv f.receiver (seqOf pt) (n, payloadOf pt)
  { f with
    receiver := out.receiver
    handed := f.handed ++ out.delivered
    emitted := f.emitted ++ out.reply.toList.map (n, ·) }

namespace Line

def setClient (s : Line) (i : Bool) (c : Client Bool) : Line :=
  { s with client := Function.update s.client i c }

def setFlow (s : Line) (i : Bool) (f : Flow) : Line :=
  { s with flow := Function.update s.flow i f }

def queue (s : Line) (i : Bool) (qs : List Queued) : Line :=
  s.setFlow i { s.flow i with queued := (s.flow i).queued ++ qs }

def emit (s : Line) (i : Bool) (load : Load) (r : Outcome Bool × Option (Datagram Bool)) : Line :=
  { s.setClient i r.1.1 with
    flying := Function.update s.flying i (r.2.toList.map (load, ·) ++ s.flying i) }

def take (s : Line) (i : Bool) (x : Load × List Byte) : Line :=
  { s with opened := Function.update s.opened i ((s.opened i).erase x) }

/-- `worker_recv`, from the plaintext on: data goes up, and an answer takes its packet off the
sender's table. -/
def recv (s : Line) (i : Bool) (pt : List Byte) : Load → Line
  | .packet n =>
    let up := handUp (s.client i) ((s.flow !i).released n pt)
    { (s.setClient i up.1).setFlow (!i) ((s.flow !i).recv n pt) with
      passed := Function.update s.passed (!i) (up.2 ++ s.passed !i) }
  | .answer n _ => { s with acked := Function.update s.acked i (n :: s.acked i) }
  | .other =>
    if isControl (flagsOf pt) then s
    else s.setClient i (innerRecv (s.client i) (payloadOf pt) false).1

def next (s : Line) : LineEvent → Line
  | .send i maxPayload channel data =>
    let o := encryptSend maxPayload (s.client i) channel data true
    (s.setClient i o.1).queue i (o.2.filterMap Output.queued?)
  | .fragment i payload => s.queue i [⟨false, payload⟩]
  | .transmit i n e =>
    match (s.flow i).queued[n]? with
    | some q =>
      s.emit i (.packet n) (pktEncrypt e (s.client i) (buildPacket flagReliable 0 (wire n) q.payload))
    | none => s
  | .answer i n reply e => s.emit i (.answer n reply) (pktEncrypt e (s.client i) (replyPacket reply).bytes)
  | .other i pt e => s.emit i .other (pktEncrypt e (s.client i) pt)
  | .arrive i load d e =>
    let r := pktDecrypt e (s.client i) (some d)
    { s.setClient i r.1.1 with
      opened := Function.update s.opened i (r.2.toList.map (load, ·) ++ s.opened i) }
  | .recv i load pt => (s.take i (load, pt)).recv i pt load
  | .kick i reg => s.setClient i (notifyKick reg (s.client i)).1

def Enabled (s : Line) : LineEvent → Prop
  | .send _ maxPayload _ _ => maxPayload < 2 ^ 32
  | .fragment _ payload => payload.take 4 = [0, 0, 0, 0] ∧ payload.length < 2 ^ 32
  | .answer i n reply _ => (n, reply) ∈ (s.flow !i).emitted
  | .arrive i load d _ => (load, d) ∈ s.flying !i
  | .recv i load pt => (load, pt) ∈ s.opened i
  | _ => True

instance decidableEnabled (s : Line) : (e : LineEvent) → Decidable (s.Enabled e)
  | .send _ _ _ _ => inferInstanceAs (Decidable (_ < _))
  | .fragment _ _ => inferInstanceAs (Decidable (_ ∧ _))
  | .answer _ _ _ _ => inferInstanceAs (Decidable (_ ∈ _))
  | .arrive _ _ _ _ => inferInstanceAs (Decidable (_ ∈ _))
  | .recv _ _ _ => inferInstanceAs (Decidable (_ ∈ _))
  | .transmit _ _ _ => .isTrue trivial
  | .other _ _ _ => .isTrue trivial
  | .kick _ _ => .isTrue trivial

structure Opens (s : Line) : Prop where
  established : ∀ i, (s.client i).state = .established
  derived : ∀ i, (s.client i).Derived
  apart : ∀ i, (s.client i).Apart
  agree : Agree (s.client true) (s.client false)
  roles : (s.client true).isInitiator = !(s.client false).isInitiator
  epochId : (s.client true).epochId = (s.client false).epochId
  numbered : (s.client true).epochId ≠ 0
  flow : ∀ i, s.flow i = .fresh
  flying : ∀ i, s.flying i = []
  opened : ∀ i, s.opened i = []
  acked : ∀ i, s.acked i = []
  passed : ∀ i, s.passed i = []

end Line

def lineSystem : System Line LineEvent where
  init := Line.Opens
  step s e t := s.Enabled e ∧ t = s.next e

section Bytes

variable {flags channel : BitVec 8} {seq : BitVec 32} {payload : List Byte}

theorem seqOf_buildPacket : seqOf (buildPacket flags channel seq payload) = seq := by
  have hbytes : ((buildPacket flags channel seq payload).drop 2).take 4 = writeU32 seq :=
    List.take_left' (length_toLe 4 _)
  rw [seqOf, hbytes, ofLe_toLe, Nat.mod_eq_of_lt (show seq.toNat < 256 ^ 4 from seq.isLt),
    BitVec.ofNat_toNat, BitVec.setWidth_eq]

theorem arrives_pktEncrypt {e : Around Bool} {c : Client Bool} (hlen : payload.length < 2 ^ 32)
    (h : (pktEncrypt e c (buildPacket flags channel seq payload)).2 = some d) :
    seqOf d.packet = seq ∧ (payloadOf d.packet).drop 4 = payload.drop 4 := by
  rcases packet_pktEncrypt h with heq | ⟨hlong, _, id, heq⟩
  · rw [heq, seqOf_buildPacket, payloadOf_buildPacket hlen]
    exact ⟨rfl, rfl⟩
  · rw [length_buildPacket] at hlong
    have hfit : 4 ≤ payload.length := by omega
    rw [heq, patchEpoch_buildPacket hfit, seqOf_buildPacket]
    exact ⟨rfl, drop_payloadOf_stamped hlen hfit⟩

end Bytes

section Flow

def Flow.channel (f : Flow) : Channel where
  sent := f.queued.length
  receiver := f.receiver.map Prod.fst
  delivered := f.handed.map (Prod.map id Prod.fst)
  emitted := f.emitted

/-- Packet `n` is one of the user's. -/
def Flow.User (f : Flow) (n : ℕ) : Prop := ∃ q, f.queued[n]? = some q ∧ q.user = true

/-- The user at the other end got what packet `n` carries. -/
def Flow.Got (f : Flow) (passed : List Passed) (n : ℕ) : Prop :=
  ∃ q channel data, f.queued[n]? = some q ∧ q.payload.drop 4 = channel :: data ∧
    ⟨n, channel, data⟩ ∈ passed

/-- The payload is that of packet `n`, the epoch apart. -/
def Flow.Carries (f : Flow) (n : ℕ) (payload : List Byte) : Prop :=
  ∃ q, f.queued[n]? = some q ∧ payload.drop 4 = q.payload.drop 4

instance (f : Flow) (n : ℕ) : Decidable (f.User n) :=
  decidable_of_iff ((f.queued[n]?).any (·.user) = true) (Option.any_eq_true ..)

structure Flow.Inv (f : Flow) (passed : List Passed) : Prop where
  ordered : f.channel.Ordered
  answered : ∀ a ∈ f.emitted, f.channel.Kept a.1
  stored : ∀ i x, f.receiver.slots i = some x → f.Carries x.2.1 x.2.2
  sized : ∀ q ∈ f.queued, q.payload.length < 2 ^ 32 ∧ (q.user = true → q.payload.drop 4 ≠ [])
  handed : ∀ x ∈ f.handed, (f.queued[x.2.1]?).isSome ∧ (f.User x.2.1 → f.Got passed x.2.1)

structure Flow.Grows (f f' : Flow) : Prop where
  queued : ∀ (n : ℕ) q, f.queued[n]? = some q → f'.queued[n]? = some q
  emitted : ∀ a ∈ f.emitted, a ∈ f'.emitted

theorem Flow.Grows.refl (f : Flow) : f.Grows f := ⟨fun _ _ h => h, fun _ h => h⟩

theorem Flow.Grows.queue (f : Flow) (qs : List Queued) : f.Grows { f with queued := f.queued ++ qs } where
  queued n q' h := by
    rw [List.getElem?_append_left (List.getElem?_eq_some_iff.mp h).1]
    exact h
  emitted _ h := h

theorem Flow.Grows.recv (f : Flow) (n : ℕ) (pt : List Byte) : f.Grows (f.recv n pt) where
  queued _ _ h := h
  emitted _ h := List.mem_append_left _ h

theorem Flow.Grows.carries {f f' : Flow} (h : f.Grows f') (hn : f.Carries n payload) :
    f'.Carries n payload := by
  obtain ⟨q, hq, hp⟩ := hn
  exact ⟨q, h.queued n q hq, hp⟩

theorem Flow.Grows.user_iff {f f' : Flow} (h : f.Grows f') (hn : f.Carries n payload) :
    f'.User n ↔ f.User n := by
  obtain ⟨q, hq, _⟩ := hn
  have hq' := h.queued n q hq
  simp only [Flow.User, hq, hq']

variable {f : Flow} {passed : List Passed}

theorem Flow.inv_fresh (passed : List Passed) : Flow.fresh.Inv passed where
  ordered := Channel.inv_fresh.ordered
  answered := nofun
  stored := nofun
  sized := nofun
  handed := nofun

theorem Flow.Inv.queue (h : f.Inv passed) {qs : List Queued}
    (hqs : ∀ q ∈ qs, q.payload.length < 2 ^ 32 ∧ (q.user = true → q.payload.drop 4 ≠ [])) :
    Flow.Inv { f with queued := f.queued ++ qs } passed where
  ordered := ⟨h.ordered.idle, h.ordered.started, h.ordered.delivered⟩
  answered := h.answered
  stored i x hx := (Flow.Grows.queue f qs).carries (h.stored i x hx)
  sized q hq := (List.mem_append.mp hq).elim (h.sized q) (hqs q)
  handed x hx := by
    obtain ⟨hsome, hgot⟩ := h.handed x hx
    obtain ⟨old, hold⟩ := Option.isSome_iff_exists.mp hsome
    have hnew := (Flow.Grows.queue f qs).queued _ _ hold
    refine ⟨Option.isSome_iff_exists.mpr ⟨old, hnew⟩, ?_⟩
    rintro ⟨q', hq', huser⟩
    rw [hnew] at hq'
    obtain rfl := Option.some.inj hq'
    obtain ⟨q', channel, data, hq', hrest⟩ := hgot ⟨old, hold, huser⟩
    exact ⟨q', channel, data, (Flow.Grows.queue f qs).queued _ _ hq', hrest⟩

theorem channel_recv (hseq : seqOf pt = wire n) : (f.recv n pt).channel = f.channel.arrive n := by
  have hmap := Udp.workerRecv_map Prod.fst f.receiver (wire n) (n, payloadOf pt)
  rw [Flow.recv, Flow.channel, hseq, Channel.arrive]
  change _ = Channel.mk _ (workerRecv (f.receiver.map Prod.fst) (wire n) (Prod.fst (n, payloadOf pt))).receiver
    (_ ++ (workerRecv (f.receiver.map Prod.fst) (wire n) (Prod.fst (n, payloadOf pt))).delivered)
    (_ ++ (workerRecv (f.receiver.map Prod.fst) (wire n) (Prod.fst (n, payloadOf pt))).reply.toList.map _)
  rw [hmap, List.map_append]
  rfl

theorem Flow.Inv.released (h : f.Inv passed) (hload : f.Carries n (payloadOf pt)) :
    ∀ x ∈ f.released n pt, f.Carries x.2.1 x.2.2 := by
  intro x hx
  cases (Udp.mem_workerRecv f.receiver (seqOf pt) (n, payloadOf pt)).1 x hx with
  | inl heq =>
    rw [heq]
    exact hload
  | inr hslot =>
    obtain ⟨i, hi⟩ := hslot
    exact h.stored i x hi

theorem Flow.Inv.recv (h : f.Inv passed) (hseq : seqOf pt = wire n)
    (hload : f.Carries n (payloadOf pt)) (hreach : f.channel.Reached n) {up : List Passed}
    (hup : ∀ x ∈ f.released n pt, f.User x.2.1 → f.Got (up ++ passed) x.2.1) :
    (f.recv n pt).Inv (up ++ passed) := by
  have hchannel := channel_recv (f := f) hseq
  obtain ⟨hord, harr⟩ := h.ordered.arrive hreach.1
  constructor
  · rw [hchannel]
    exact hord
  · intro a ha
    rw [hchannel]
    have ha' : a ∈ (f.channel.arrive n).emitted := by
      rw [← hchannel]
      exact ha
    cases Udp.answered_kept h.ordered hord hreach harr a ha' with
    | inl hold => exact Udp.kept_arrive h.ordered hord harr (h.answered a hold)
    | inr hnew =>
      rw [hnew.1]
      exact hnew.2
  · intro i x hx
    cases (Udp.mem_workerRecv f.receiver (seqOf pt) (n, payloadOf pt)).2 i x hx with
    | inl heq =>
      rw [heq]
      exact hload
    | inr hold => exact h.stored i x hold
  · exact h.sized
  · intro x hx
    cases List.mem_append.mp hx with
    | inl hold =>
      obtain ⟨hsome, hgot⟩ := h.handed x hold
      refine ⟨hsome, fun huser => ?_⟩
      obtain ⟨q, channel, data, hq, hdata, hmem⟩ := hgot huser
      exact ⟨q, channel, data, hq, hdata, List.mem_append_right _ hmem⟩
    | inr hnew =>
      obtain ⟨q, hq, _⟩ := h.released hload x hnew
      exact ⟨Option.isSome_iff_exists.mpr ⟨q, hq⟩, hup x hnew⟩

theorem Flow.Inv.got (h : f.Inv passed) (ha : (n, reply) ∈ f.emitted) (huser : f.User n) :
    f.Got passed n ∨ f.channel.receiver.Waits n := by
  apply (h.answered _ ha).imp_left
  intro hmem
  obtain ⟨x, hx, heq⟩ := List.mem_map.mp hmem
  have hn : x.2.1 = n := congrArg Prod.snd heq
  rw [← hn] at huser ⊢
  exact (h.handed x hx).2 huser

end Flow

section HandUp

/-- `sudp_inner_recv` takes a payload that carries the epoch of the session. -/
def Client.Takes (c : Client Bool) (payload : List Byte) : Prop :=
  payload.take 4 ≠ [0, 0, 0, 0] ∧ c.peerActive = true ∧ ntohl (payload.take 4) = c.epochId

instance (c : Client Bool) (payload : List Byte) : Decidable (c.Takes payload) :=
  inferInstanceAs (Decidable (_ ∧ _ ∧ _))

variable {c : Client Bool}

theorem innerRecv_takes (h : c.Takes payload) (hdata : payload.drop 4 = channel :: data)
    (reliable : Bool) : innerRecv c payload reliable = (c, [.received channel data reliable]) := by
  obtain ⟨htag, hactive, hepoch⟩ := h
  rw [innerRecv, if_neg htag, innerRecvData, hdata]
  simp only [hactive, hepoch, not_true, ↓reduceIte, ne_eq]

theorem takes_innerRecv (payload : List Byte) (reliable : Bool) (p : List Byte) :
    (innerRecv c payload reliable).1.Takes p ↔ c.Takes p := by
  unfold innerRecv innerRecvData
  split
  · exact Iff.rfl
  · split
    · exact Iff.rfl
    · split
      · exact Iff.rfl
      · split <;> exact Iff.rfl

theorem passed_handUp (xs : List (BitVec 32 × ℕ × List Byte)) (hx : x ∈ xs) (h : c.Takes x.2.2)
    (hdata : x.2.2.drop 4 = channel :: data) : ⟨x.2.1, channel, data⟩ ∈ (handUp c xs).2 := by
  induction xs generalizing c with
  | nil => cases hx
  | cons y xs ih =>
    rw [handUp]
    cases List.mem_cons.mp hx with
    | inl heq =>
      subst heq
      rw [innerRecv_takes h hdata]
      exact List.mem_append_left _ (List.mem_singleton_self _)
    | inr hmem => exact List.mem_append_right _ (ih hmem ((takes_innerRecv _ _ _).mpr h))

end HandUp

section Epochs

/-- The seed is `base`, rekeyed with keys of which the last one goes with `id`. -/
def Seed.InEpoch (idOf : EpochKey → BitVec 32) (seed : Seed Bool) (id : BitVec 32) (base : Seed Bool)
    (start : BitVec 32) : Prop :=
  ∃ keys, seed = base.rekeyAll keys ∧ id = (keys.map idOf).getLastD start

variable {idOf : EpochKey → BitVec 32} {base seed : Seed Bool} {start id id' : BitVec 32}

theorem Seed.InEpoch.unique (h : seed.InEpoch idOf id base start) (h' : seed.InEpoch idOf id' base start) :
    id = id' := by
  obtain ⟨keys, hseed, rfl⟩ := h
  obtain ⟨keys', hseed', rfl⟩ := h'
  rw [Seed.rekeyAll_inj.mp (hseed.symm.trans hseed')]

theorem epochAfter_eq_getLastD {es : List Epoch} (h : ∀ epoch ∈ es, epoch.epochId = idOf epoch.epochKey)
    (id : BitVec 32) : epochAfter id es = ((rotations id es).map idOf).getLastD id := by
  induction es generalizing id with
  | nil => rfl
  | cons epoch es ih =>
    obtain ⟨hepoch, hrest⟩ := List.forall_mem_cons.mp h
    rw [epochAfter, ih hrest, rotations]
    split
    · rw [List.map_cons, List.getLastD_cons, ← hepoch]
    · rename_i hsame
      rw [not_not.mp hsame]

variable {c c' : Client Bool} {es : List Epoch}

theorem Seed.InEpoch.follows (h : c.rekeySeed.InEpoch idOf c.epochId base start) (hf : Follows c es c')
    (hes : ∀ epoch ∈ es, epoch.epochId = idOf epoch.epochKey) :
    c'.rekeySeed.InEpoch idOf c'.epochId base start := by
  obtain ⟨keys, hseed, hid⟩ := h
  refine ⟨keys ++ rotations c.epochId es, ?_, ?_⟩
  · rw [hf.seed, hseed, Seed.rekeyAll_append]
  · rw [hf.epochId, epochAfter_eq_getLastD hes, hid, List.map_append]
    simp only [List.getLastD_eq_getLast?, List.getLast?_append, Option.getD_or]

theorem epochAfter_ne_zero (hid : id ≠ 0) (hes : ∀ epoch ∈ es, epoch.epochId ≠ 0) : epochAfter id es ≠ 0 := by
  induction es generalizing id with
  | nil => exact hid
  | cons epoch es ih =>
    obtain ⟨hepoch, hrest⟩ := List.forall_mem_cons.mp hes
    exact ih hepoch hrest

theorem apart_uses (h : c.Apart) (us : List (Use Bool)) : (us.foldl (·.use ·) c).Apart := by
  induction us generalizing c with
  | nil => exact h
  | cons u us ih =>
    refine ih ?_
    cases u with
    | encrypt pt e => exact kept_apart.encrypt e c pt h
    | decrypt d e => exact kept_apart.decrypt e c d h
    | send maxPayload channel data reliable => exact kept_apart.send maxPayload c channel data reliable h
    | recv pkt reliable => exact kept_apart.deliver c pkt reliable h
    | kick reg => exact kept_apart.kick reg c h

end Epochs

section Stamps

theorem ntohl_htonl (v : BitVec 32) : ntohl (htonl v) = v := by
  rw [ntohl, htonl, List.reverse_reverse, ofLe_toLe, Nat.mod_eq_of_lt (show v.toNat < 256 ^ 4 from v.isLt),
    BitVec.ofNat_toNat, BitVec.setWidth_eq]

variable {e : Around Bool} {c : Client Bool} {seq : BitVec 32} {payload : List Byte}

def stampOf (payload : List Byte) : BitVec 32 := ntohl (payload.take 4)

theorem take_ne_zero (h : stampOf payload ≠ 0) : payload.take 4 ≠ [0, 0, 0, 0] := by
  intro hzero
  rw [stampOf, hzero] at h
  exact h rfl

theorem refreshEpoch_stamp (pt : List Byte) :
    (refreshEpoch e c pt).2 = pt ∧ (refreshEpoch e c pt).1.epochId = c.epochId ∨
      (refreshEpoch e c pt).2 = patchEpoch pt (refreshEpoch e c pt).1.epochId := by
  unfold refreshEpoch
  split
  · cases epochGetCurrent e.reg with
    | none => exact .inl ⟨rfl, rfl⟩
    | some epoch =>
      dsimp only
      split
      · exact .inr rfl
      · exact .inl ⟨rfl, rfl⟩
  · exact .inl ⟨rfl, rfl⟩

theorem stamp_pktEncrypt (hc : c.Derived) (hlen : payload.length < 2 ^ 32) (hdata : payload.drop 4 ≠ [])
    (hid : c.epochId ≠ 0)
    (hstamp : stampOf payload = c.epochId ∨
      epochAfter c.epochId (c.reads (.encrypt (buildPacket flagReliable 0 seq payload) e)) ≠ c.epochId)
    (h : (pktEncrypt e c (buildPacket flagReliable 0 seq payload)).2 = some d) :
    (∃ gen dir, d.key = .gen (c.use (.encrypt (buildPacket flagReliable 0 seq payload) e)).rekeySeed gen dir) ∧
      stampOf (payloadOf d.packet) = (c.use (.encrypt (buildPacket flagReliable 0 seq payload) e)).epochId := by
  have hfollows := follows_encrypt e c (buildPacket flagReliable 0 seq payload)
  have hlong : 4 < payload.length := by
    by_contra hshort
    exact hdata (List.drop_eq_nil_of_le (not_lt.mp hshort))
  have hpatch : ∀ id, stampOf (payloadOf (patchEpoch (buildPacket flagReliable 0 seq payload) id)) = id := by
    intro id
    have hfour : (htonl id).length = 4 := by rw [htonl, List.length_reverse, length_toLe]
    rw [patchEpoch_buildPacket hlong.le, payloadOf_buildPacket, stampOf, List.take_left' hfour, ntohl_htonl]
    rw [List.length_append, hfour, List.length_drop]
    omega
  generalize hpt : buildPacket flagReliable 0 seq payload = pt at hstamp hfollows hpatch h
  have htimed : c.timedOut e.now = false := by
    by_contra hout
    rw [pktEncrypt, if_pos (eq_true_of_ne_false hout)] at h
    cases h
  have hsession : udpHdrSize + 4 < pt.length ∧ usesSendSubkeys c pt = true := by
    cases hstamp with
    | inl hstamp =>
      have hfield : epochField pt = payload.take 4 := by rw [epochField, ← hpt, drop_buildPacket]
      have hshort : udpHdrSize + 4 < pt.length := by
        rw [← hpt, length_buildPacket]
        omega
      refine ⟨hshort, ?_⟩
      rw [usesSendSubkeys, if_pos hshort, hfield]
      exact decide_eq_true (take_ne_zero (hstamp ▸ hid))
    | inr hrotated =>
      by_contra hnot
      rw [Client.reads, if_neg (ne_true_of_eq_false htimed), if_neg hnot] at hrotated
      exact hrotated rfl
  have hsealed : pktEncrypt e c pt = (((sealWith (refreshEpoch e c pt).1 true (refreshEpoch e c pt).2).1, []),
      some (sealWith (refreshEpoch e c pt).1 true (refreshEpoch e c pt).2).2) := by
    rw [pktEncrypt, if_neg (ne_true_of_eq_false htimed)]
    simp only [hsession, and_self, ↓reduceIte]
  have huse : c.use (.encrypt pt e) = (sealWith (refreshEpoch e c pt).1 true (refreshEpoch e c pt).2).1 := by
    rw [Client.use, hsealed]
  rw [hsealed] at h
  obtain rfl := Option.some.inj h
  have hkept := (follows_sealWith (refreshEpoch e c pt).1 true (refreshEpoch e c pt).2).epochId
  constructor
  · exact ⟨_, _, (congrArg Client.sendSubkeys huse).symm.trans (hfollows.derived hc).send⟩
  · have hsame : (c.use (.encrypt pt e)).epochId = (refreshEpoch e c pt).1.epochId := by
      rw [huse, hkept]
      rfl
    rw [hsame]
    change stampOf (payloadOf (refreshEpoch e c pt).2) = _
    rcases refreshEpoch_stamp (e := e) (c := c) pt with ⟨hpacket, hepoch⟩ | hpacket
    · rw [hpacket, hepoch, ← hpt, payloadOf_buildPacket hlen]
      refine hstamp.resolve_right ?_
      rw [not_not, ← hfollows.epochId, hsame, hepoch]
    · rw [hpacket]
      exact hpatch _

theorem seed_pktDecrypt {d : Datagram Bool} (hc : c.Derived) (hapart : c.Apart)
    (hkey : d.key = .gen seed gen dir) (h : (pktDecrypt e c (some d)).2 = some pt) :
    (c.use (.decrypt (some d) e)).rekeySeed = seed := by
  change (pktDecrypt e c (some d)).1.1.rekeySeed = seed
  unfold pktDecrypt at h ⊢
  split at h
  · cases h
  · rename_i htimed
    rw [if_neg htimed]
    change (openDatagram e c d).2 = some pt at h
    change (openDatagram e c d).1.rekeySeed = seed
    have hepoch : ∀ c : Client Bool, c.Apart → d.key ≠ c.epochSubkeys := by
      intro c hapart heq
      obtain ⟨k, hk⟩ := hapart.epoch
      rw [hkey, hk] at heq
      cases heq
    unfold openDatagram at h ⊢
    cases hopen : openSession c d with
    | some c' =>
      change c'.rekeySeed = seed
      unfold openSession at hopen
      dsimp only at hopen
      split at hopen
      · cases hopen
      · split at hopen
        · split at hopen
          · rename_i heq
            cases hopen
            rw [hkey, hc.recv] at heq
            exact (Key.gen.inj heq).1.symm
          · cases hopen
        · split at hopen
          · rename_i heq
            cases hopen
            rw [hkey] at heq
            exact (Key.gen.inj heq).1.symm
          · cases hopen
    | none =>
      simp only [hopen, if_neg (hepoch c hapart)] at h ⊢
      cases hrotated : rotatedEpoch e.reg c with
      | none =>
        simp only [hrotated] at h
        cases h
      | some epoch =>
        simp only [hrotated] at h ⊢
        split at h
        · rename_i heq
          rw [if_pos heq]
          have hrecv := heq.resolve_right (hepoch _ (apart_epochRekey e.reg c epoch))
          rw [hkey] at hrecv
          exact (Key.gen.inj hrecv).1.symm
        · cases h

end Stamps

section Runs

namespace Line

def Tuned (s : Line) : LineEvent → Prop
  | .recv i (.packet n) pt => (s.flow !i).channel.Reached n ∧
    ∀ x ∈ (s.flow !i).released n pt, (s.flow !i).User x.2.1 → (s.client i).Takes x.2.2
  | _ => True

/-- What one end sends for a purpose is what arrives. -/
def Genuine (s : Line) (i : Bool) : Load → List Byte → Prop
  | .packet n, pt => seqOf pt = wire n ∧ (s.flow i).Carries n (payloadOf pt)
  | .answer n reply, _ => (n, reply) ∈ (s.flow !i).emitted
  | .other, _ => True

structure Inv (s : Line) : Prop where
  flow : ∀ i, (s.flow i).Inv (s.passed i)
  flying : ∀ i, ∀ x ∈ s.flying i, s.Genuine i x.1 x.2.packet
  opened : ∀ i, ∀ x ∈ s.opened i, s.Genuine (!i) x.1 x.2
  acked : ∀ i, ∀ n ∈ s.acked i, ∃ reply, (n, reply) ∈ (s.flow i).emitted

variable {s t : Line}

theorem Genuine.grows (hgrow : ∀ j, (s.flow j).Grows (t.flow j)) {i : Bool} {load : Load}
    {pt : List Byte} (h : s.Genuine i load pt) : t.Genuine i load pt := by
  cases load with
  | packet n => exact ⟨h.1, (hgrow i).carries h.2⟩
  | answer n reply => exact (hgrow !i).emitted _ h
  | other => trivial

theorem Inv.grows (h : s.Inv) (hgrow : ∀ j, (s.flow j).Grows (t.flow j))
    (hflow : ∀ j, (t.flow j).Inv (t.passed j)) (hflying : t.flying = s.flying)
    (hopened : ∀ j, t.opened j ⊆ s.opened j) (hacked : t.acked = s.acked) : t.Inv where
  flow := hflow
  flying i x hx := (h.flying i x (hflying ▸ hx)).grows hgrow
  opened i x hx := (h.opened i x (hopened i hx)).grows hgrow
  acked i n hn := by
    obtain ⟨reply, hr⟩ := h.acked i n (hacked ▸ hn)
    exact ⟨reply, (hgrow i).emitted _ hr⟩

theorem Inv.setClient (h : s.Inv) (i : Bool) (c : Client Bool) : (s.setClient i c).Inv :=
  h.grows (fun _ => .refl _) h.flow rfl (fun _ => List.Subset.refl _) rfl

theorem opened_take (s : Line) (i j : Bool) (x : Load × List Byte) : (s.take i x).opened j ⊆ s.opened j := by
  change Function.update s.opened i ((s.opened i).erase x) j ⊆ _
  rw [Function.update_apply]
  split
  · rename_i hj
    rw [hj]
    exact List.erase_subset
  · exact List.Subset.refl _

theorem Inv.take (h : s.Inv) (i : Bool) (x : Load × List Byte) : (s.take i x).Inv :=
  h.grows (fun _ => .refl _) h.flow rfl (fun j => opened_take s i j x) rfl

theorem flow_setFlow (s : Line) (i j : Bool) (f : Flow) :
    (s.setFlow i f).flow j = if j = i then f else s.flow j := Function.update_apply ..

theorem grows_queue (s : Line) (i j : Bool) (qs : List Queued) : (s.flow j).Grows ((s.queue i qs).flow j) := by
  rw [Line.queue, flow_setFlow]
  split
  · rename_i hj
    rw [hj]
    exact .queue _ qs
  · exact .refl _

theorem Inv.queue (h : s.Inv) (i : Bool) {qs : List Queued}
    (hqs : ∀ q ∈ qs, q.payload.length < 2 ^ 32 ∧ (q.user = true → q.payload.drop 4 ≠ [])) :
    (s.queue i qs).Inv := by
  refine h.grows (fun j => grows_queue s i j qs) ?_ rfl (fun _ => List.Subset.refl _) rfl
  intro j
  rw [Line.queue, flow_setFlow]
  split
  · rename_i hj
    rw [hj]
    exact (h.flow i).queue hqs
  · exact h.flow j

theorem Inv.emit (h : s.Inv) (i : Bool) (load : Load) (r : Outcome Bool × Option (Datagram Bool))
    (hload : ∀ d, r.2 = some d → s.Genuine i load d.packet) : (s.emit i load r).Inv where
  flow := h.flow
  flying j x hx := by
    simp only [Line.emit, Function.update_apply] at hx
    split at hx
    · rename_i hj
      rw [hj]
      cases List.mem_append.mp hx with
      | inl hx =>
        obtain ⟨d, hd, rfl⟩ := List.mem_map.mp hx
        exact hload d (Option.mem_toList.mp hd)
      | inr hx => exact h.flying i x hx
    · exact h.flying j x hx
  opened := h.opened
  acked := h.acked

theorem Inv.arrive (h : s.Inv) (i : Bool) (load : Load) (d : Datagram Bool) (e : Around Bool)
    (hin : (load, d) ∈ s.flying !i) : (s.next (.arrive i load d e)).Inv where
  flow := h.flow
  flying := h.flying
  opened j x hx := by
    simp only [Line.next, Line.setClient, Function.update_apply] at hx
    split at hx
    · rename_i hj
      rw [hj]
      cases List.mem_append.mp hx with
      | inl hx =>
        obtain ⟨pt, hpt, rfl⟩ := List.mem_map.mp hx
        rw [pktDecrypt_packet (Option.mem_toList.mp hpt)]
        exact h.flying (!i) _ hin
      | inr hx => exact h.opened i x hx
    · exact h.opened j x hx
  acked := h.acked

theorem grows_recv (s : Line) (i j : Bool) (load : Load) (pt : List Byte) :
    (s.flow j).Grows ((s.recv i pt load).flow j) := by
  cases load with
  | packet n =>
    change (s.flow j).Grows (Function.update s.flow (!i) ((s.flow !i).recv n pt) j)
    rw [Function.update_apply]
    split
    · rename_i hj
      rw [hj]
      exact .recv _ n pt
    · exact .refl _
  | answer n reply => exact .refl _
  | other =>
    change (s.flow j).Grows ((if isControl (flagsOf pt) then s else s.setClient i _).flow j)
    split <;> exact .refl _

theorem Inv.recv (h : s.Inv) {i : Bool} {load : Load} {pt : List Byte} (hgenuine : s.Genuine (!i) load pt)
    (htuned : s.Tuned (.recv i load pt)) : (s.recv i pt load).Inv := by
  have hgrow := fun j => grows_recv s i j load pt
  cases load with
  | other =>
    change (if isControl (flagsOf pt) then s else s.setClient i _).Inv
    split
    · exact h
    · exact h.setClient i _
  | answer n reply =>
    refine ⟨h.flow, h.flying, h.opened, ?_⟩
    intro j m hm
    simp only [Line.recv, Function.update_apply] at hm
    split at hm
    · rename_i hj
      rw [hj]
      cases List.mem_cons.mp hm with
      | inl heq =>
        rw [Genuine, Bool.not_not] at hgenuine
        exact ⟨reply, heq ▸ hgenuine⟩
      | inr hm => exact h.acked i m hm
    · exact h.acked j m hm
  | packet n =>
    obtain ⟨hseq, hload⟩ := hgenuine
    obtain ⟨hreach, htakes⟩ := htuned
    have hup : ∀ x ∈ (s.flow !i).released n pt, (s.flow !i).User x.2.1 →
        (s.flow !i).Got ((handUp (s.client i) ((s.flow !i).released n pt)).2 ++ s.passed !i) x.2.1 := by
      intro x hx huser
      obtain ⟨q, hq, hdrop⟩ := (h.flow !i).released hload x hx
      obtain ⟨q', hq', hu⟩ := huser
      rw [hq] at hq'
      obtain rfl := Option.some.inj hq'
      have hne := ((h.flow !i).sized q (List.mem_of_getElem? hq)).2 hu
      obtain ⟨channel, data, hdata⟩ := List.exists_cons_of_ne_nil hne
      refine ⟨q, channel, data, hq, hdata, List.mem_append_left _ ?_⟩
      exact passed_handUp _ hx (htakes x hx ⟨q, hq, hu⟩) (hdrop.trans hdata)
    have hflow := (h.flow !i).recv hseq hload hreach hup
    refine h.grows hgrow ?_ rfl (fun _ => List.Subset.refl _) rfl
    intro j
    change (Function.update s.flow (!i) ((s.flow !i).recv n pt) j).Inv
      (Function.update s.passed (!i) (_ ++ s.passed !i) j)
    rw [Function.update_apply, Function.update_apply]
    split
    · exact hflow
    · exact h.flow j

theorem sized_encryptSend {maxPayload : ℕ} (hmax : maxPayload < 2 ^ 32) (c : Client Bool) :
    ∀ q ∈ (encryptSend maxPayload c channel data true).2.filterMap Output.queued?,
      q.payload.length < 2 ^ 32 ∧ (q.user = true → q.payload.drop 4 ≠ []) := by
  intro q hq
  unfold encryptSend at hq
  split at hq
  · cases hq
  · split at hq
    · cases hq
    · split at hq
      · cases hq
      · rename_i hfit
        obtain rfl := List.mem_singleton.mp hq
        have hlen : (htonl c.epochId).length = 4 := by rw [htonl, List.length_reverse, length_toLe]
        constructor
        · simp only [List.length_append, List.length_cons, hlen]
          omega
        · intro _
          rw [List.drop_left' hlen]
          exact List.cons_ne_nil _ _

theorem Inv.next (h : s.Inv) {e : LineEvent} (hen : s.Enabled e) (htuned : s.Tuned e) :
    (s.next e).Inv := by
  cases e with
  | send i maxPayload channel data => exact (h.setClient i _).queue i (sized_encryptSend hen (s.client i))
  | fragment i payload =>
    apply h.queue i
    intro q hq
    obtain rfl := List.mem_singleton.mp hq
    exact ⟨hen.2, nofun⟩
  | transmit i n e =>
    simp only [Line.next]
    split
    · rename_i q hq
      apply h.emit i _ _
      intro d hd
      have hlen := ((h.flow i).sized q (List.mem_of_getElem? hq)).1
      obtain ⟨hseq, hdrop⟩ := arrives_pktEncrypt hlen hd
      exact ⟨hseq, q, hq, hdrop⟩
    · exact h
  | answer i n reply e => exact h.emit i _ _ fun _ _ => hen
  | other i pt e => exact h.emit i _ _ fun _ _ => trivial
  | arrive i load d e => exact h.arrive i load d e hen
  | recv i load pt =>
    refine (h.take i (load, pt)).recv ?_ ?_
    · exact (h.opened i _ hen).grows fun _ => .refl _
    · cases load with
      | packet n => exact htuned
      | answer n reply => exact htuned
      | other => exact htuned
  | kick i reg => exact h.setClient i _

theorem grows_next (s : Line) (e : LineEvent) (j : Bool) : (s.flow j).Grows ((s.next e).flow j) := by
  cases e with
  | send i maxPayload channel data => exact grows_queue (s.setClient i _) i j _
  | fragment i payload => exact grows_queue s i j _
  | transmit i n e =>
    simp only [Line.next]
    split <;> exact .refl _
  | recv i load pt => exact grows_recv (s.take i (load, pt)) i j load pt
  | answer i n reply e => exact .refl _
  | other i pt e => exact .refl _
  | arrive i load d e => exact .refl _
  | kick i reg => exact .refl _

/-- What a user sent and the transport acknowledged, the other user got, or his transport holds it
back for an earlier packet. -/
def Delivers (s : Line) : Prop :=
  ∀ i, ∀ n ∈ s.acked i, (s.flow i).User n →
    (s.flow i).Got (s.passed i) n ∨ (s.flow i).channel.receiver.Waits n

theorem Inv.delivers (h : s.Inv) : s.Delivers := by
  intro i n hn huser
  obtain ⟨reply, hr⟩ := h.acked i n hn
  exact (h.flow i).got hr huser

theorem Opens.inv (h : s.Opens) : s.Inv where
  flow i := by
    rw [h.flow]
    exact Flow.inv_fresh _
  flying i x hx := by
    rw [h.flying] at hx
    cases hx
  opened i x hx := by
    rw [h.opened] at hx
    cases hx
  acked i n hn := by
    rw [h.acked] at hn
    cases hn

end Line

end Runs

section Rotations

def LineEvent.site : LineEvent → Bool
  | .send i _ _ _ | .fragment i _ | .transmit i _ _ | .answer i _ _ _ => i
  | .other i _ _ | .arrive i _ _ _ | .recv i _ _ | .kick i _ => i

namespace Line

def reads (s : Line) : LineEvent → List Epoch
  | .transmit i n e =>
    match (s.flow i).queued[n]? with
    | some q => (s.client i).reads (.encrypt (buildPacket flagReliable 0 (wire n) q.payload) e)
    | none => []
  | .answer i _ reply e => (s.client i).reads (.encrypt (replyPacket reply).bytes e)
  | .other i pt e => (s.client i).reads (.encrypt pt e)
  | .arrive i _ d e => (s.client i).reads (.decrypt (some d) e)
  | _ => []

def Rotates (s : Line) (e : LineEvent) : Prop :=
  epochAfter (s.client e.site).epochId (s.reads e) ≠ (s.client e.site).epochId

instance (s : Line) (e : LineEvent) : Decidable (s.Rotates e) := inferInstanceAs (Decidable (_ ≠ _))

def OfUser (s : Line) (i : Bool) : Load → Prop
  | .packet n => (s.flow i).User n
  | _ => False

instance (s : Line) (i : Bool) : (load : Load) → Decidable (s.OfUser i load)
  | .packet n => inferInstanceAs (Decidable ((s.flow i).User n))
  | .answer _ _ => .isFalse id
  | .other => .isFalse id

structure Quiet (s : Line) (i : Bool) : Prop where
  opened : ∀ x ∈ s.opened i, ¬ s.OfUser (!i) x.1
  held : ∀ k, ∀ x ∈ (s.flow !i).receiver.slots k, ¬ (s.flow !i).User x.2.1

instance (s : Line) (i : Bool) : Decidable (s.Quiet i) :=
  decidable_of_iff (_ ∧ _) ⟨fun h => ⟨h.1, h.2⟩, fun h => ⟨h.opened, h.held⟩⟩

/-- A packet of the user's is sent while the session has the epoch that the packet was queued with, or
as the one that meets the rotation; a packet arrives where the transport expects it, and while the peer
counts as active unless nothing of the user's is there. -/
def Timely (s : Line) : LineEvent → Prop
  | .transmit i n e => ∀ q ∈ (s.flow i).queued[n]?, q.user = true →
    stampOf q.payload = (s.client i).epochId ∨ s.Rotates (.transmit i n e)
  | .recv i (.packet n) _ =>
    (s.flow !i).channel.Reached n ∧ (s.Quiet i ∨ (s.client i).peerActive = true)
  | _ => True

instance decidableTimely (s : Line) : (e : LineEvent) → Decidable (s.Timely e)
  | .transmit _ _ _ => inferInstanceAs (Decidable (∀ q ∈ _, _ → _))
  | .recv _ (.packet _) _ => inferInstanceAs (Decidable (_ ∧ _))
  | .recv _ (.answer _ _) _ => .isTrue trivial
  | .recv _ .other _ => .isTrue trivial
  | .send _ _ _ _ => .isTrue trivial
  | .fragment _ _ => .isTrue trivial
  | .answer _ _ _ _ => .isTrue trivial
  | .arrive _ _ _ _ => .isTrue trivial
  | .other _ _ _ => .isTrue trivial
  | .kick _ _ => .isTrue trivial

/-- The key of an epoch tells its id, an end takes up a new epoch while it is quiet, and what it sends
and receives is timely. -/
structure Calm (idOf : EpochKey → BitVec 32) (s : Line) (e : LineEvent) : Prop where
  named : ∀ epoch ∈ s.reads e, epoch.epochId = idOf epoch.epochKey ∧ epoch.epochId ≠ 0
  quiet : s.Rotates e → s.Quiet e.site
  timely : s.Timely e

instance (idOf : EpochKey → BitVec 32) (s : Line) (e : LineEvent) : Decidable (Calm idOf s e) :=
  decidable_of_iff (_ ∧ _ ∧ _) ⟨fun h => ⟨h.1, h.2.1, h.2.2⟩, fun h => ⟨h.named, h.quiet, h.timely⟩⟩

variable {s t : Line}

section Uses

def Uses (c c' : Client Bool) (es : List Epoch) : Prop :=
  ∃ us : List (Use Bool), c' = us.foldl (·.use ·) c ∧ c.observes us = es

theorem uses_refl (c : Client Bool) : Uses c c [] := ⟨[], rfl, rfl⟩

theorem uses_use (c : Client Bool) (u : Use Bool) : Uses c (c.use u) (c.reads u) :=
  ⟨[u], rfl, List.append_nil _⟩

theorem uses_innerRecv (c : Client Bool) (pkt : List Byte) (reliable : Bool) :
    Uses c (innerRecv c pkt reliable).1 [] := by
  unfold innerRecv
  split
  · exact uses_refl c
  · exact uses_use c (.recv pkt reliable)

theorem uses_handUp (c : Client Bool) (xs : List (BitVec 32 × ℕ × List Byte)) : Uses c (handUp c xs).1 [] := by
  induction xs generalizing c with
  | nil => exact uses_refl c
  | cons x xs ih =>
    obtain ⟨us, hclient, hreads⟩ := uses_innerRecv c x.2.2 true
    obtain ⟨us', hclient', hreads'⟩ := ih (innerRecv c x.2.2 true).1
    refine ⟨us ++ us', ?_, ?_⟩
    · rw [List.foldl_append, ← hclient, ← hclient', handUp]
    · rw [observes_append, hreads, ← hclient, hreads', List.append_nil]

theorem uses_setClient (s : Line) (i j : Bool) {c : Client Bool} {es : List Epoch}
    (h : Uses (s.client i) c es) : Uses (s.client j) ((s.setClient i c).client j) (if j = i then es else []) := by
  change Uses (s.client j) (Function.update s.client i c j) _
  rw [Function.update_apply]
  split
  · rename_i hj
    rw [hj]
    exact h
  · exact uses_refl _

theorem uses_idle (c : Client Bool) (i j : Bool) : Uses c c (if j = i then [] else []) := by
  rw [ite_self]
  exact uses_refl c

theorem uses_next (s : Line) (e : LineEvent) (j : Bool) :
    Uses (s.client j) ((s.next e).client j) (if j = e.site then s.reads e else []) := by
  cases e with
  | send i maxPayload channel data => exact uses_setClient s i j (uses_use _ (.send maxPayload channel data true))
  | fragment i payload => exact uses_idle _ i j
  | transmit i n e =>
    simp only [next, reads]
    split
    · exact uses_setClient s i j (uses_use _ (.encrypt _ e))
    · exact uses_idle _ i j
  | answer i n reply e => exact uses_setClient s i j (uses_use _ (.encrypt _ e))
  | other i pt e => exact uses_setClient s i j (uses_use _ (.encrypt pt e))
  | arrive i load d e => exact uses_setClient s i j (uses_use _ (.decrypt (some d) e))
  | recv i load pt =>
    cases load with
    | packet n => exact uses_setClient (s.take i _) i j (uses_handUp _ _)
    | answer n reply => exact uses_idle _ i j
    | other =>
      change Uses _ ((if isControl (flagsOf pt) then s.take i _ else (s.take i _).setClient i _).client j)
        (if j = i then [] else [])
      split
      · exact uses_idle _ i j
      · exact uses_setClient (s.take i _) i j (uses_innerRecv _ _ _)
  | kick i reg => exact uses_setClient s i j (uses_use _ (.kick reg))

theorem follows_next (s : Line) (e : LineEvent) (j : Bool) :
    Follows (s.client j) (if j = e.site then s.reads e else []) ((s.next e).client j) := by
  obtain ⟨us, hclient, hreads⟩ := uses_next s e j
  rw [hclient, ← hreads]
  exact follows_uses _ us

theorem apart_next (s : Line) (e : LineEvent) {j : Bool} (h : (s.client j).Apart) :
    ((s.next e).client j).Apart := by
  obtain ⟨us, hclient, _⟩ := uses_next s e j
  rw [hclient]
  exact apart_uses h us

end Uses

section Aligned

structure Aligned (idOf : EpochKey → BitVec 32) (base : Seed Bool) (start : BitVec 32) (s : Line) : Prop where
  derived : ∀ i, (s.client i).Derived
  apart : ∀ i, (s.client i).Apart
  numbered : ∀ i, (s.client i).epochId ≠ 0
  epoch : ∀ i, (s.client i).rekeySeed.InEpoch idOf (s.client i).epochId base start
  flying : ∀ i, ∀ x ∈ s.flying i, s.OfUser i x.1 → ∃ seed gen dir, x.2.key = .gen seed gen dir ∧
    seed.InEpoch idOf (stampOf (payloadOf x.2.packet)) base start
  opened : ∀ i, ∀ x ∈ s.opened i, s.OfUser (!i) x.1 → stampOf (payloadOf x.2) = (s.client i).epochId
  held : ∀ i k, ∀ x ∈ (s.flow !i).receiver.slots k, (s.flow !i).User x.2.1 →
    stampOf x.2.2 = (s.client i).epochId

variable {idOf : EpochKey → BitVec 32} {base : Seed Bool} {start : BitVec 32}

theorem Opens.aligned (h : s.Opens) : s.Aligned idOf (s.client true).rekeySeed (s.client true).epochId where
  derived := h.derived
  apart := h.apart
  numbered i := by
    cases i with
    | false => exact h.epochId ▸ h.numbered
    | true => exact h.numbered
  epoch i := by
    cases i with
    | false => exact ⟨[], h.agree.seed.symm, h.epochId.symm⟩
    | true => exact ⟨[], rfl, rfl⟩
  flying i x hx := by
    rw [h.flying] at hx
    cases hx
  opened i x hx := by
    rw [h.opened] at hx
    cases hx
  held i k x hx := by
    rw [h.flow] at hx
    cases hx

theorem ofUser_next {i : Bool} {load : Load} {pt : List Byte} (e : LineEvent) (h : s.Genuine i load pt) :
    (s.next e).OfUser i load ↔ s.OfUser i load := by
  cases load with
  | packet n => exact (grows_next s e i).user_iff h.2
  | answer n reply => exact Iff.rfl
  | other => exact Iff.rfl

theorem epochId_next {e : LineEvent} (hcalm : Calm idOf s e) (i : Bool) :
    ((s.next e).client i).epochId = (s.client i).epochId ∨ s.Quiet i := by
  have hfollows := (follows_next s e i).epochId
  by_cases hi : i = e.site
  · by_cases hrot : s.Rotates e
    · exact .inr (hi ▸ hcalm.quiet hrot)
    · rw [if_pos hi, hi] at hfollows
      rw [hi]
      exact .inl (hfollows.trans (not_not.mp hrot))
  · rw [if_neg hi] at hfollows
    exact .inl hfollows

theorem mem_emit {i j : Bool} {load : Load} {r : Outcome Bool × Option (Datagram Bool)} {x : Load × Datagram Bool}
    (hx : x ∈ (s.emit i load r).flying j) : x ∈ s.flying j ∨ j = i ∧ x.1 = load ∧ r.2 = some x.2 := by
  simp only [Line.emit, Function.update_apply] at hx
  split at hx
  · rename_i hj
    rw [hj]
    cases List.mem_append.mp hx with
    | inl hx =>
      obtain ⟨d, hd, rfl⟩ := List.mem_map.mp hx
      exact .inr ⟨rfl, rfl, Option.mem_toList.mp hd⟩
    | inr hx => exact .inl hx
  · exact .inl hx

theorem flying_next {e : LineEvent} {i : Bool} {x : Load × Datagram Bool} (hx : x ∈ (s.next e).flying i)
    (huser : (s.next e).OfUser i x.1) : x ∈ s.flying i ∨ ∃ n a, ∃ q ∈ (s.flow i).queued[n]?,
      e = .transmit i n a ∧ x.1 = .packet n ∧
        (pktEncrypt a (s.client i) (buildPacket flagReliable 0 (wire n) q.payload)).2 = some x.2 := by
  cases e with
  | transmit j n a =>
    simp only [next] at hx
    split at hx
    · rename_i q hq
      rcases mem_emit hx with hold | ⟨rfl, hload, hd⟩
      · exact .inl hold
      · exact .inr ⟨n, a, q, hq, rfl, hload, hd⟩
    · exact .inl hx
  | answer j n reply a =>
    rcases mem_emit hx with hold | ⟨_, hload, _⟩
    · exact .inl hold
    · rw [hload] at huser
      exact huser.elim
  | other j pt a =>
    rcases mem_emit hx with hold | ⟨_, hload, _⟩
    · exact .inl hold
    · rw [hload] at huser
      exact huser.elim
  | recv j load pt =>
    refine .inl ?_
    cases load with
    | packet n => exact hx
    | answer n reply => exact hx
    | other =>
      change x ∈ (if isControl (flagsOf pt) then s.take j _ else (s.take j _).setClient j _).flying i at hx
      split at hx <;> exact hx
  | send j maxPayload channel data => exact .inl hx
  | fragment j payload => exact .inl hx
  | arrive j load d a => exact .inl hx
  | kick j reg => exact .inl hx

theorem opened_next {e : LineEvent} {i : Bool} {x : Load × List Byte} (hx : x ∈ (s.next e).opened i) :
    x ∈ s.opened i ∨ ∃ d a, e = .arrive i x.1 d a ∧ (pktDecrypt a (s.client i) (some d)).2 = some x.2 := by
  cases e with
  | arrive j load d a =>
    simp only [next, setClient, Function.update_apply] at hx
    split at hx
    · rename_i hj
      rw [hj]
      cases List.mem_append.mp hx with
      | inl hx =>
        obtain ⟨pt, hpt, rfl⟩ := List.mem_map.mp hx
        exact .inr ⟨d, a, rfl, Option.mem_toList.mp hpt⟩
      | inr hx => exact .inl hx
    · exact .inl hx
  | transmit j n a =>
    simp only [next] at hx
    split at hx <;> exact .inl hx
  | recv j load pt =>
    refine .inl (opened_take s j i (load, pt) ?_)
    cases load with
    | packet n => exact hx
    | answer n reply => exact hx
    | other =>
      change x ∈ (if isControl (flagsOf pt) then s.take j _ else (s.take j _).setClient j _).opened i at hx
      split at hx <;> exact hx
  | send j maxPayload channel data => exact .inl hx
  | fragment j payload => exact .inl hx
  | answer j n reply a => exact .inl hx
  | other j pt a => exact .inl hx
  | kick j reg => exact .inl hx

theorem receiver_queue (s : Line) (i j : Bool) (qs : List Queued) :
    ((s.queue i qs).flow j).receiver = (s.flow j).receiver := by
  rw [queue, flow_setFlow]
  split
  · rename_i hj
    rw [hj]
  · rfl

theorem held_next {e : LineEvent} {i : Bool} {k : Fin 32} {x : BitVec 32 × ℕ × List Byte}
    (hx : x ∈ ((s.next e).flow !i).receiver.slots k) : x ∈ (s.flow !i).receiver.slots k ∨
      ∃ n pt, e = .recv i (.packet n) pt ∧ x = (seqOf pt, n, payloadOf pt) := by
  cases e with
  | recv j load pt =>
    cases load with
    | packet n =>
      change x ∈ (Function.update s.flow (!j) ((s.flow !j).recv n pt) (!i)).receiver.slots k at hx
      rw [Function.update_apply] at hx
      split at hx
      · rename_i hj
        obtain rfl := Bool.not_inj hj
        rcases (Udp.mem_workerRecv (s.flow !i).receiver (seqOf pt) (n, payloadOf pt)).2 k x hx with hnew | hold
        · exact .inr ⟨n, pt, rfl, hnew⟩
        · exact .inl hold
      · exact .inl hx
    | answer n reply => exact .inl hx
    | other =>
      change x ∈ ((if isControl (flagsOf pt) then s.take j _ else (s.take j _).setClient j _).flow !i).receiver.slots k
        at hx
      split at hx <;> exact .inl hx
  | send j maxPayload channel data =>
    refine .inl ?_
    change x ∈ ((Line.queue (s.setClient j _) j _).flow !i).receiver.slots k at hx
    rw [receiver_queue] at hx
    exact hx
  | fragment j payload =>
    refine .inl ?_
    change x ∈ ((s.queue j _).flow !i).receiver.slots k at hx
    rw [receiver_queue] at hx
    exact hx
  | transmit j n a =>
    simp only [next] at hx
    split at hx <;> exact .inl hx
  | answer j n reply a => exact .inl hx
  | other j pt a => exact .inl hx
  | arrive j load d a => exact .inl hx
  | kick j reg => exact .inl hx

variable {e : LineEvent}

theorem Aligned.epoch_next (h : s.Aligned idOf base start) (hcalm : Calm idOf s e) (i : Bool) :
    ((s.next e).client i).rekeySeed.InEpoch idOf ((s.next e).client i).epochId base start := by
  refine (h.epoch i).follows (follows_next s e i) ?_
  intro epoch hepoch
  split at hepoch
  · exact (hcalm.named epoch hepoch).1
  · cases hepoch

theorem Aligned.numbered_next (h : s.Aligned idOf base start) (hcalm : Calm idOf s e) (i : Bool) :
    ((s.next e).client i).epochId ≠ 0 := by
  rw [(follows_next s e i).epochId]
  refine epochAfter_ne_zero (h.numbered i) ?_
  intro epoch hepoch
  split at hepoch
  · exact (hcalm.named epoch hepoch).2
  · cases hepoch

theorem Aligned.flying_transmit (h : s.Aligned idOf base start) (hinv : s.Inv) {i : Bool} {n : ℕ} {a : Around Bool}
    (hcalm : Calm idOf s (.transmit i n a)) {q : Queued} (hq : (s.flow i).queued[n]? = some q)
    (huser : q.user = true) {d : Datagram Bool}
    (hd : (pktEncrypt a (s.client i) (buildPacket flagReliable 0 (wire n) q.payload)).2 = some d) :
    ∃ seed gen dir, d.key = .gen seed gen dir ∧ seed.InEpoch idOf (stampOf (payloadOf d.packet)) base start := by
  obtain ⟨hlen, hdata⟩ := (hinv.flow i).sized q (List.mem_of_getElem? hq)
  have hstamp := hcalm.timely q hq huser
  simp only [Rotates, LineEvent.site, reads, hq] at hstamp
  obtain ⟨⟨gen, dir, hkey⟩, hid⟩ := stamp_pktEncrypt (h.derived i) hlen (hdata huser) (h.numbered i) hstamp hd
  have hnext : (s.next (.transmit i n a)).client i =
      (s.client i).use (.encrypt (buildPacket flagReliable 0 (wire n) q.payload) a) := by
    simp only [next, hq]
    exact Function.update_self ..
  refine ⟨_, gen, dir, hkey, ?_⟩
  rw [hid, ← hnext]
  exact h.epoch_next hcalm i

theorem Aligned.next (h : s.Aligned idOf base start) (hinv : s.Inv) (hen : s.Enabled e) (hcalm : Calm idOf s e) :
    (s.next e).Aligned idOf base start where
  derived i := (follows_next s e i).derived (h.derived i)
  apart i := apart_next s e (h.apart i)
  numbered := h.numbered_next hcalm
  epoch := h.epoch_next hcalm
  flying i x hx huser := by
    rcases flying_next hx huser with hold | ⟨n, a, q, hq, rfl, hload, hd⟩
    · exact h.flying i x hold ((ofUser_next e (hinv.flying i x hold)).mp huser)
    · have hgrown := (grows_next s (.transmit i n a) i).queued n q hq
      rw [hload] at huser
      obtain ⟨q', hq', hquser⟩ := huser
      rw [hgrown] at hq'
      obtain rfl := Option.some.inj hq'
      exact h.flying_transmit hinv hcalm hq hquser hd
  opened i x hx huser := by
    rcases opened_next hx with hold | ⟨d, a, rfl, hopen⟩
    · have huser' := (ofUser_next e (hinv.opened i x hold)).mp huser
      cases epochId_next hcalm i with
      | inl hsame =>
        rw [hsame]
        exact h.opened i x hold huser'
      | inr hquiet => exact absurd huser' (hquiet.opened x hold)
    · -- The key that opens it is the one it was sealed with, and its seed tells the epoch.
      have huser' := (ofUser_next _ (hinv.flying (!i) _ hen)).mp huser
      obtain ⟨seed, gen, dir, hkey, hepoch⟩ := h.flying (!i) _ hen huser'
      have hnext : (s.next (.arrive i x.1 d a)).client i = (s.client i).use (.decrypt (some d) a) :=
        Function.update_self ..
      have hseed := seed_pktDecrypt (h.derived i) (h.apart i) hkey hopen
      have hself := h.epoch_next hcalm i
      rw [hnext, hseed] at hself
      rw [pktDecrypt_packet hopen, hnext]
      exact hepoch.unique hself
  held i k x hx huser := by
    rcases held_next hx with hold | ⟨n, pt, rfl, rfl⟩
    · have huser' := ((grows_next s e !i).user_iff ((hinv.flow !i).stored k x hold)).mp huser
      cases epochId_next hcalm i with
      | inl hsame =>
        rw [hsame]
        exact h.held i k x hold huser'
      | inr hquiet => exact absurd huser' (hquiet.held k x hold)
    · have huser' := ((grows_next s (.recv i (.packet n) pt) !i).user_iff (hinv.opened i _ hen).2).mp huser
      have hepoch : ((s.next (.recv i (.packet n) pt)).client i).epochId = (s.client i).epochId := by
        rw [(follows_next s _ i).epochId, LineEvent.site, if_pos rfl]
        rfl
      rw [hepoch]
      exact h.opened i _ hen huser'

theorem Aligned.tuned (h : s.Aligned idOf base start) (hen : s.Enabled e) (hcalm : Calm idOf s e) : s.Tuned e := by
  cases e with
  | recv i load pt =>
    cases load with
    | packet n =>
      obtain ⟨hreach, hactive⟩ := hcalm.timely
      refine ⟨hreach, fun x hx huser => ?_⟩
      have hthere : stampOf x.2.2 = (s.client i).epochId ∧ ¬ s.Quiet i := by
        rcases (Udp.mem_workerRecv (s.flow !i).receiver (seqOf pt) (n, payloadOf pt)).1 x hx with rfl | ⟨k, hk⟩
        · exact ⟨h.opened i _ hen huser, fun hquiet => hquiet.opened _ hen huser⟩
        · exact ⟨h.held i k x hk huser, fun hquiet => hquiet.held k x hk huser⟩
      refine ⟨take_ne_zero ?_, hactive.resolve_left hthere.2, hthere.1⟩
      rw [hthere.1]
      exact h.numbered i
    | answer n reply => trivial
    | other => trivial
  | send i maxPayload channel data => trivial
  | fragment i payload => trivial
  | transmit i n a => trivial
  | answer i n reply a => trivial
  | other i pt a => trivial
  | arrive i load d a => trivial
  | kick i reg => trivial

end Aligned

end Line

/-- While the rotations find the ends quiet and what is sent and received is timely, whatever the transport
acknowledges is received. -/
theorem acknowledged_received (idOf : EpochKey → BitVec 32)
    (h : (lineSystem.restrict (Line.Calm idOf)).Reachable s) : s.Delivers := by
  suffices s.Inv ∧ ∃ base start, s.Aligned idOf base start from this.1.delivers
  refine h.invariant (I := fun s => s.Inv ∧ ∃ base start, s.Aligned idOf base start) ?_ ?_
  · intro s hs
    exact ⟨hs.inv, _, _, hs.aligned⟩
  · rintro s e t _ ⟨hinv, base, start, haligned⟩ ⟨hcalm, hen, rfl⟩
    exact ⟨hinv.next hen (haligned.tuned hen hcalm), base, start, haligned.next hinv hen hcalm⟩

end Rotations

section Stale

open YumiBrowser.Group (flatHash signedGroup rotatedTo)

def pairLine : Line where
  client := pairEnd
  flow _ := .fresh
  flying _ := []
  opened _ := []
  acked _ := []
  passed _ := []

theorem pairLine_opens : pairLine.Opens where
  established _ := rfl
  derived := pairEnd_derived
  apart _ := ⟨⟨_, rfl⟩, fun _ hk => nomatch hk⟩
  agree := ⟨rfl, fun _ => rfl, fun _ => rfl⟩
  roles := rfl
  epochId := rfl
  numbered := by decide
  flow _ := rfl
  flying _ := rfl
  opened _ := rfl
  acked _ := rfl
  passed _ := rfl

def aroundLine (reg : Registrar) (now : ℕ) : Around Bool := ⟨reg, now, fun _ => false, .other 0⟩

def firstPacket : List Byte := buildPacket flagReliable 0 0 (htonl 1 ++ [1, 7])

def firstAck : List Byte := (replyPacket (.ack 0)).bytes

def pairSeed : Seed Bool := (pairEnd true).rekeySeed

def rotatedKey : EpochKey := Bytes.fill 128 7

def secondPacket : List Byte := buildPacket flagReliable 0 1 (htonl 2 ++ [1, 8])

def secondAck : List Byte := (replyPacket (.ack 1)).bytes

def rotatedRun : List LineEvent :=
  let e := aroundLine (signedGroup flatHash) 0
  let e' := aroundLine (rotatedTo flatHash rotatedKey) epochCheckIntervalUs
  let seed := pairSeed.rekey rotatedKey
  [.send true 1000 1 [7], .transmit true 0 e,
    .arrive false (.packet 0) ⟨0, 0, deriveGenKey pairSeed 0 true, firstPacket⟩ e,
    .recv false (.packet 0) firstPacket, .answer false 0 (.ack 0) e,
    .arrive true (.answer 0 (.ack 0)) ⟨0, 0, deriveGenKey pairSeed 0 false, firstAck⟩ e,
    .recv true (.answer 0 (.ack 0)) firstAck,
    .send true 1000 1 [8], .transmit true 1 e',
    .arrive false (.packet 1) ⟨0, 1, deriveGenKey seed 0 true, secondPacket⟩ e',
    .recv false (.packet 1) secondPacket, .answer false 1 (.ack 1) e',
    .arrive true (.answer 1 (.ack 1)) ⟨0, 1, deriveGenKey seed 0 false, secondAck⟩ e',
    .recv true (.answer 1 (.ack 1)) secondAck]

theorem acknowledged_received_rotated : (rotatedRun.foldl Line.next pairLine).Delivers ∧
    (rotatedRun.foldl Line.next pairLine).acked true = [1, 0] ∧
    ∀ i, ((rotatedRun.foldl Line.next pairLine).client i).epochId = 2 := by
  let idOf (key : EpochKey) : BitVec 32 := if key = rotatedKey then 2 else 1
  have hrun : System.Enables (fun s e => Line.Calm idOf s e ∧ s.Enabled e) Line.next pairLine rotatedRun := by
    decide +kernel
  refine ⟨acknowledged_received idOf (System.Reachable.run ?_ rotatedRun hrun (.init pairLine_opens)), ?_, ?_⟩
  · exact fun _ _ he => ⟨he.1, he.2, rfl⟩
  · decide +kernel
  · decide +kernel

def staleRun : List LineEvent :=
  let e := aroundLine (rotatedTo flatHash rotatedKey) epochCheckIntervalUs
  let seed := pairSeed.rekey rotatedKey
  [.send true 1000 1 [7], .send true 1000 1 [8], .transmit true 1 e, .transmit true 0 e,
    .arrive false (.packet 0) ⟨0, 1, deriveGenKey seed 0 true, firstPacket⟩ e,
    .recv false (.packet 0) firstPacket, .answer false 0 (.ack 0) e,
    .arrive true (.answer 0 (.ack 0)) ⟨0, 0, deriveGenKey seed 0 false, firstAck⟩ e,
    .recv true (.answer 0 (.ack 0)) firstAck]

-- The transport acknowledges the first packet; its epoch is not the receiver's any more.
theorem stale_epoch_lost : ¬ ∀ s, lineSystem.Reachable s → s.Delivers := by
  intro h
  have hrun : System.Enables Line.Enabled Line.next pairLine staleRun := by decide +kernel
  have hreach := System.Reachable.run (S := lineSystem) (fun _ _ he => ⟨he, rfl⟩) staleRun hrun
    (.init pairLine_opens)
  have hacked : 0 ∈ (staleRun.foldl Line.next pairLine).acked true := by decide +kernel
  have huser : ((staleRun.foldl Line.next pairLine).flow true).User 0 := by decide +kernel
  cases h _ hreach true 0 hacked huser with
  | inl hgot =>
    obtain ⟨q, channel, data, _, _, hmem⟩ := hgot
    have hnone : (staleRun.foldl Line.next pairLine).passed true = [] := rfl
    rw [hnone] at hmem
    cases hmem
  | inr hwaits =>
    have hslot : ((staleRun.foldl Line.next pairLine).flow true).channel.receiver.slots 0 = none := by
      decide +kernel
    have hholds := hwaits.1
    change ((staleRun.foldl Line.next pairLine).flow true).channel.receiver.slots 0 = some (packet 0) at hholds
    rw [hslot] at hholds
    cases hholds

end Stale

end YumiBrowser.Sudp
