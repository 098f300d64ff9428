import YumiBrowser.Client.SlotTraffic
import YumiBrowser.Network.SessionAuthenticity

namespace YumiBrowser.Client

open Wire Transition
open YumiBrowser.Group
open Ideal (Presentable)
open Sudp (World Event Around Output Received Message Datagram Uses Establishes Sig IsHonest Authentic
  Secured sudpSystem)

variable {ι : Type} [DecidableEq ι]

section Condition

def Desk.sessionEvent (s : Desk ι) (k : Fin maxPeers) (i : ι) : SlotEvent ι → Option (Event ι)
  | .work e => (s.peers k).posted.map fun peerId => .connect i peerId e
  | .handshake msg e _ => some (.handshake i msg e)
  | .encrypt flags channel seq payload e => some (.encrypt i flags channel seq payload e)
  | .decrypt d e => some (.decrypt i d e)
  | .deliver d reliable _ _ => some (.deliver i d reliable)
  | .send maxPayload channel data reliable => some (.send i maxPayload channel data reliable)
  | .free => none

def Desk.worldEvent (s : Desk ι) : DeskEvent ι → Option (Event ι)
  | .slot k event => (s.peers k).sudp.bind fun i => s.sessionEvent k i event
  | .other event => some event
  | _ => none

/-- A HELLO that the session of a slot heeds is one of the peer that the slot was made for. -/
def Named (s : Desk ι) : DeskEvent ι → Prop
  | .slot k (.handshake msg e _) =>
    ∀ i ∈ (s.peers k).sudp, msg.IsFrom e (s.world.client i) (s.peers k).peerId
  | _ => True

/-- And no handshake and no session is meddled with. -/
def Guarded (s : Desk ι) (event : DeskEvent ι) : Prop :=
  Named s event ∧ ∀ w ∈ s.worldEvent event, Secured s.world w

end Condition

section Property

variable (ident : ι → Identity)

/-- The session of a CONNECTED slot was completed under the key that the registrar recorded for the
peer of the slot, by whoever has that key. -/
def Desk.Bound (s : Desk ι) : Prop :=
  ∀ k i, (s.peers k).sudp = some i → (s.peers k).state = .connected →
    ∃ signature, s.world.established i = some signature ∧ s.recorded i = some signature.key ∧
      Presentable (· ∈ s.world.signed) (IsHonest ident) signature

/-- What the client hears under the id of a peer, the holder of the key recorded for it sent. -/
def Desk.Attributed (s : Desk ι) : Prop :=
  ∀ x ∈ s.log, ∀ item key, x.what = .heard item key → Authentic ident s.world item ∧
    ∃ signature, item.peer = some signature ∧ key = some signature.key

end Property

namespace Desk

section Worlds

variable (s : Desk ι) (k : Fin maxPeers) (i : ι)

theorem sends_deliver (crypto : Crypto) (maxPayload : ℕ) (now : I64) (d : Datagram ι) (reliable : Bool) :
    Sends (s.world.next (.deliver i d reliable)) (s.deliver crypto k maxPayload now i d reliable).world := by
  rw [← s.world_act k i]
  rcases s.deliver_cases k i crypto maxPayload now d reliable with heq | ⟨channel, data, _, _, heq⟩
  · rw [heq]
    exact .refl
  · rw [heq]
    exact (talks_recvCb _ k maxPayload crypto now i channel data reliable).world

theorem sends_handshake (maxPayload : ℕ) (msg : Message ι) (e : Around ι) :
    Sends (s.world.next (.handshake i msg e)) (s.handshake k maxPayload i msg e).world := by
  rw [← s.world_act k i]
  unfold handshake
  dsimp only
  split
  · exact (talks_syncSend _ k maxPayload _ _).world
  · exact .refl

theorem sends_next (crypto : Crypto) (self : PeerId) (event : DeskEvent ι) :
    Sends ((s.worldEvent event).elim s.world s.world.next) (s.next crypto self event).world := by
  cases event with
  | dial peerId i =>
    change Sends s.world (s.peerConnect self peerId i).world
    unfold peerConnect
    split
    · exact .refl
    · split
      · exact .refl
      · split
        · exact .refl
        · split <;> exact .refl
  | poll maxPayload => exact (s.talks_poll maxPayload).world
  | mutate m clk =>
    change Sends s.world (s.next crypto self (.mutate m clk)).world
    unfold next
    dsimp only
    split <;> exact .refl
  | other event => exact .refl
  | slot k event =>
    unfold next worldEvent
    dsimp only
    cases hsudp : (s.peers k).sudp with
    | none => exact .refl
    | some i =>
      cases event with
      | work e =>
        change Sends (((s.peers k).posted.map _).elim _ _) (s.work k i e).world
        unfold work
        cases (s.peers k).posted with
        | none => exact .refl
        | some peerId =>
          dsimp only
          rw [world_act]
          exact .refl
      | handshake msg e maxPayload => exact s.sends_handshake k i maxPayload msg e
      | encrypt flags channel seq payload e =>
        change Sends _ (s.act k i _).world
        rw [world_act]
        exact .refl
      | decrypt d e =>
        change Sends _ (s.act k i _).world
        rw [world_act]
        exact .refl
      | deliver d reliable maxPayload now => exact s.sends_deliver k i crypto maxPayload now d reliable
      | send maxPayload channel data reliable =>
        change Sends _ (s.sendChannel k maxPayload channel data reliable).1.world
        unfold sendChannel
        rw [hsudp]
        dsimp only
        rw [world_act]
        exact .refl
      | free => exact .refl

end Worlds

end Desk

theorem Sends.reachable {ident : ι → Identity} {s t : World ι} {ok : World ι → Event ι → Prop}
    (hok : ∀ s i maxPayload channel data reliable, ok s (.send i maxPayload channel data reliable))
    (h : Sends s t) (hs : ((sudpSystem ident).restrict ok).Reachable s) :
    ((sudpSystem ident).restrict ok).Reachable t := by
  induction h with
  | refl => exact hs
  | tail i maxPayload channel data reliable _ ih =>
    exact .step ih ⟨hok _ i maxPayload channel data reliable, trivial, rfl⟩

section Refinement

variable {crypto : Crypto} {ident : ι → Identity} {self : Identity} {mine : ι → Prop} {s : Desk ι}

omit [DecidableEq ι] in
theorem enabled_worldEvent {event : DeskEvent ι} (h : DeskEnabled ident self mine s event) :
    ∀ w ∈ s.worldEvent event, Sudp.Enabled ident s.world w := by
  intro w hw
  cases event with
  | dial peerId i => exact nomatch hw
  | poll maxPayload => exact nomatch hw
  | mutate m clk => exact nomatch hw
  | other event =>
    cases hw
    exact h.2
  | slot k event =>
    obtain ⟨i, hi, hw⟩ := Option.bind_eq_some_iff.mp hw
    have hen := h i hi
    cases event with
    | work e =>
      obtain ⟨_, _, rfl⟩ := Option.map_eq_some_iff.mp hw
      trivial
    | handshake msg e maxPayload =>
      cases hw
      exact hen.2
    | encrypt flags channel seq payload e =>
      cases hw
      exact hen.2
    | decrypt d e =>
      cases hw
      exact hen.2
    | deliver d reliable maxPayload now =>
      cases hw
      exact hen
    | send maxPayload channel data reliable =>
      cases hw
      trivial
    | free => exact nomatch hw

theorem reachable_world {ok : World ι → Event ι → Prop}
    (hok : ∀ s i maxPayload channel data reliable, ok s (.send i maxPayload channel data reliable))
    (h : ((deskSystem crypto ident self mine).restrict fun s event =>
      ∀ w ∈ s.worldEvent event, ok s.world w).Reachable s) :
    ((sudpSystem ident).restrict ok).Reachable s.world := by
  refine System.Reachable.invariant (I := fun s : Desk ι => ((sudpSystem ident).restrict ok).Reachable s.world)
    ?_ ?_ h
  · exact fun s hs => .init hs.1
  · rintro s event t _ ih ⟨hwell, hen, rfl⟩
    apply (s.sends_next crypto self.peerId event).reachable hok
    cases hw : s.worldEvent event with
    | none => exact ih
    | some w => exact .step ih ⟨hwell w hw, enabled_worldEvent hen w hw, rfl⟩

end Refinement

section Invariant

variable (mine : ι → Prop)

structure Desk.Inv (s : Desk ι) : Prop where
  held : ∀ k i, (s.peers k).sudp = some i → mine i ∧ s.used i = true
  apart : ∀ j k i, (s.peers j).sudp = some i → (s.peers k).sudp = some i → j = k
  deals : ∀ k i, (s.peers k).sudp = some i → (s.world.client i).DealsWith (s.peers k).peerId
  posted : ∀ k, ∀ peerId ∈ (s.peers k).posted, peerId = (s.peers k).peerId
  recorded : ∀ i, mine i → ∀ signature ∈ s.world.established i, s.recorded i = some signature.key
  connected : ∀ k i, (s.peers k).sudp = some i → (s.peers k).state = .connected →
    s.world.established i ≠ none
  heard : ∀ x ∈ s.log, ∀ item key, x.what = .heard item key → item ∈ s.world.received ∧
    ∀ signature ∈ item.peer, key = some signature.key

variable {mine} {s t : Desk ι}

/-- A step at which no session is dialed, and no handshake goes on. -/
structure Follows (s t : Desk ι) : Prop where
  world : Uses s.world t.world
  slot : ∀ k, SameSlot (s.peers k) (t.peers k)
  used : t.used = s.used
  recorded : t.recorded = s.recorded
  heard : ∀ x ∈ t.log, (∃ item key, x.what = .heard item key) → x ∈ s.log

theorem Talks.follows (h : Talks s t) : Follows s t :=
  ⟨h.world.uses, h.slot, h.used, h.recorded, h.heard⟩

omit [DecidableEq ι] in
theorem Desk.Inv.follows (hs : s.Inv mine) (h : Follows s t) : t.Inv mine where
  held k i hi := by
    rw [h.used]
    exact hs.held k i ((h.slot k).sudp ▸ hi)
  apart j k i hj hk := hs.apart j k i ((h.slot j).sudp ▸ hj) ((h.slot k).sudp ▸ hk)
  deals k i hi := by
    rw [(h.slot k).peerId]
    exact (hs.deals k i ((h.slot k).sudp ▸ hi)).continues (h.world.continues i)
  posted k peerId hp := by
    rw [(h.slot k).peerId]
    exact hs.posted k peerId ((h.slot k).posted ▸ hp)
  recorded i hi signature hsig := by
    rw [h.recorded]
    exact hs.recorded i hi signature (h.world.established ▸ hsig)
  connected k i hi hk := by
    rw [h.world.established]
    exact hs.connected k i ((h.slot k).sudp ▸ hi) ((h.slot k).connected hk)
  heard x hx item key hwhat := by
    obtain ⟨hin, hkey⟩ := hs.heard x (h.heard x hx ⟨item, key, hwhat⟩) item key hwhat
    exact ⟨h.world.received item hin, hkey⟩

structure Renews (s t : Desk ι) (k : Fin maxPeers) (i : ι) : Prop where
  frames : ∀ j, j ≠ i → Sudp.Frames s.world t.world j
  received : ∀ r ∈ s.world.received, r ∈ t.world.received
  used : t.used = s.used
  log : t.log = s.log
  others : ∀ j, j ≠ i → t.recorded j = s.recorded j
  slot : ∀ j, (t.peers j).peerId = (s.peers j).peerId ∧ (t.peers j).sudp = (s.peers j).sudp ∧
    (t.peers j).posted = (s.peers j).posted
  state : ∀ j, j ≠ k → (t.peers j).state = (s.peers j).state
  deals : (t.world.client i).DealsWith (s.peers k).peerId
  key : ∀ signature ∈ t.world.established i, t.recorded i = some signature.key
  done : (t.peers k).state = .connected → t.world.established i ≠ none

omit [DecidableEq ι] in
theorem Desk.Inv.renews (hs : s.Inv mine) (hk : (s.peers k).sudp = some i) (h : Renews s t k i) :
    t.Inv mine where
  held j i' hj := by
    rw [h.used]
    exact hs.held j i' ((h.slot j).2.1 ▸ hj)
  apart j j' i' hj hj' := hs.apart j j' i' ((h.slot j).2.1 ▸ hj) ((h.slot j').2.1 ▸ hj')
  deals j i' hj := by
    have hj := (h.slot j).2.1 ▸ hj
    rw [(h.slot j).1]
    by_cases hi : i' = i
    · obtain rfl := hi
      obtain rfl := hs.apart j k i' hj hk
      exact h.deals
    · rw [(h.frames i' hi).client]
      exact hs.deals j i' hj
  posted j p hp := by
    rw [(h.slot j).1]
    exact hs.posted j p ((h.slot j).2.2 ▸ hp)
  recorded i' hi' signature hsig := by
    by_cases hi : i' = i
    · exact hi ▸ h.key signature (hi ▸ hsig)
    · rw [h.others i' hi]
      exact hs.recorded i' hi' signature ((h.frames i' hi).established ▸ hsig)
  connected j i' hj hstate := by
    have hj := (h.slot j).2.1 ▸ hj
    by_cases hjk : j = k
    · obtain rfl := hjk
      cases hk.symm.trans hj
      exact h.done hstate
    · have hi : i' ≠ i := by
        rintro rfl
        exact hjk (hs.apart j k i' hj hk)
      rw [(h.frames i' hi).established]
      exact hs.connected j i' hj ((h.state j hjk).symm.trans hstate)
  heard x hx item key hwhat := by
    obtain ⟨hin, hkey⟩ := hs.heard x (h.log ▸ hx) item key hwhat
    exact ⟨h.received item hin, hkey⟩

theorem Desk.Inv.session {event : Event ι} (hs : s.Inv mine) (hk : (s.peers k).sudp = some i)
    (hactor : event.actor = some i)
    (hdeals : ((s.world.next event).client i).DealsWith (s.peers k).peerId)
    (hest : (s.world.next event).established = s.world.established) :
    { s with world := s.world.next event }.Inv mine := by
  apply hs.renews hk
  refine ⟨fun j hj => ?_, Sudp.received_next event, rfl, rfl, fun _ _ => rfl, fun _ => ⟨rfl, rfl, rfl⟩,
    fun _ _ => rfl, hdeals, fun signature hsig => ?_, fun hstate => ?_⟩
  · refine Sudp.frames_next fun i' hi' => ?_
    cases hactor.symm.trans hi'
    exact hj
  · exact hs.recorded i (hs.held k i hk).1 signature (congrFun hest i ▸ hsig)
  · change (s.world.next event).established i ≠ none
    rw [hest]
    exact hs.connected k i hk hstate

omit [DecidableEq ι] in
theorem Marks.follows (h : Marks s t) : Follows s t := by
  rw [h.rest]
  exact ⟨⟨⟨rfl, rfl, fun _ hr => hr⟩, fun _ => .refl _⟩, h.slot, rfl, rfl, fun _ hx _ => hx⟩

omit [DecidableEq ι] in
theorem slotAlloc_free (h : s.slotAlloc = some k) : (s.peers k).state = .free := by
  have hfree := List.find?_some h
  exact of_decide_eq_true hfree

omit [DecidableEq ι] in
theorem dealsWith_create {self : Identity} {c : Sudp.Client ι} (p : PeerId)
    (h : Sudp.create i reg self firstContact token now = some c) : c.DealsWith p := by
  obtain ⟨epoch, _, rfl⟩ := Option.map_eq_some_iff.mp h
  refine ⟨fun h' hh' hidle => ?_, fun hactive => nomatch hactive⟩
  cases hh'
  exact absurd rfl hidle

theorem Desk.Inv.dial {self : Identity} (hs : s.Inv mine) (hi : mine i) (hused : s.used i = false)
    (hnew : Sudp.create i s.reg self firstContact token now = some (s.world.client i))
    (k : Fin maxPeers) (peerId : PeerId) :
    (s.occupy k peerId i).Inv mine := by
  have hslot (j : Fin maxPeers) : (s.occupy k peerId i).peers j =
      if j = k then .dialed peerId i else s.peers j := Function.update_apply ..
  have huse (j : ι) : (s.occupy k peerId i).used j = if j = i then true else s.used j :=
    Function.update_apply ..
  have hfresh (j : Fin maxPeers) : (s.peers j).sudp ≠ some i := by
    intro hj
    exact nomatch (hs.held j i hj).2.symm.trans hused
  refine ⟨fun j i' hj => ?_, fun j j' i' hj hj' => ?_, fun j i' hj => ?_, fun j p hp => ?_, hs.recorded,
    fun j i' hj hstate => ?_, hs.heard⟩
  · rw [hslot] at hj
    rw [huse]
    split at hj
    · cases hj
      exact ⟨hi, if_pos rfl⟩
    · obtain ⟨hmine, hu⟩ := hs.held j i' hj
      refine ⟨hmine, ?_⟩
      split
      · rfl
      · exact hu
  · rw [hslot] at hj hj'
    split at hj
    · split at hj'
      · next hjk hjk' => exact hjk.trans hjk'.symm
      · cases hj
        exact absurd hj' (hfresh j')
    · split at hj'
      · cases hj'
        exact absurd hj (hfresh j)
      · exact hs.apart j j' i' hj hj'
  · rw [hslot] at hj ⊢
    split at hj
    · next hjk =>
      cases hj
      rw [if_pos hjk]
      exact dealsWith_create _ hnew
    · next hjk =>
      rw [if_neg hjk]
      exact hs.deals j i' hj
  · rw [hslot] at hp ⊢
    split at hp
    · next hjk =>
      cases hp
      rw [if_pos hjk]
      rfl
    · next hjk =>
      rw [if_neg hjk]
      exact hs.posted j p hp
  · rw [hslot] at hj hstate
    split at hj
    · next hjk =>
      rw [if_pos hjk] at hstate
      exact nomatch hstate
    · next hjk =>
      rw [if_neg hjk] at hstate
      exact hs.connected j i' hj hstate

omit [DecidableEq ι] in
theorem Desk.Inv.modify {f : PeerSlot ι → PeerSlot ι} (hs : s.Inv mine) (k : Fin maxPeers)
    (hsudp : ∀ i, (f (s.peers k)).sudp = some i → (s.peers k).sudp = some i ∧
      (f (s.peers k)).peerId = (s.peers k).peerId ∧ (f (s.peers k)).state = (s.peers k).state)
    (hposted : (f (s.peers k)).posted = none) : (s.modify k f).Inv mine := by
  have hslot (j : Fin maxPeers) : (s.modify k f).peers j =
      if j = k then f (s.peers k) else s.peers j := Function.update_apply ..
  have hold (j : Fin maxPeers) (i : ι) (hj : ((s.modify k f).peers j).sudp = some i) :
      (s.peers j).sudp = some i ∧ ((s.modify k f).peers j).peerId = (s.peers j).peerId ∧
        ((s.modify k f).peers j).state = (s.peers j).state := by
    rw [hslot] at hj ⊢
    split at hj
    · next hjk =>
      rw [if_pos hjk, hjk]
      exact hsudp i hj
    · next hjk =>
      rw [if_neg hjk]
      exact ⟨hj, rfl, rfl⟩
  refine ⟨fun j i hj => hs.held j i (hold j i hj).1,
    fun j j' i hj hj' => hs.apart j j' i (hold j i hj).1 (hold j' i hj').1, fun j i hj => ?_,
    fun j p hp => ?_, hs.recorded, fun j i hj hstate => ?_, hs.heard⟩
  · obtain ⟨hsudp, hid, _⟩ := hold j i hj
    rw [hid]
    exact hs.deals j i hsudp
  · rw [hslot] at hp ⊢
    split at hp
    · exact nomatch hposted.symm.trans hp
    · next hjk =>
      rw [if_neg hjk]
      exact hs.posted j p hp
  · obtain ⟨hsudp, _, hsame⟩ := hold j i hj
    exact hs.connected j i hsudp (hsame.symm.trans hstate)

theorem Desk.Inv.completes {msg : Message ι} {e : Around ι} {signature : Sig ι} (hs : s.Inv mine)
    (hk : (s.peers k).sudp = some i) (hreg : e.reg = s.reg)
    (hdeals : ((s.world.next (.handshake i msg e)).client i).DealsWith (s.peers k).peerId)
    (hdone : Sudp.ConcludedBy e (s.world.client i) msg signature) :
    (s.act k i (.handshake i msg e)).Inv mine := by
  have hkey := hdone.keyOf (hs.deals k i hk)
  have hest : (s.world.next (.handshake i msg e)).established = _ :=
    (Sudp.absorb_establishes s.world i hdone.outputs).1
  have hslot (j : Fin maxPeers) : ((s.act k i (.handshake i msg e)).peers j) =
      if j = k then (s.peers k).setState (if s.duplicate k then .failed else .connected) else s.peers j := by
    rw [s.act_establishes k i hdone.outputs]
    exact Function.update_apply ..
  have hrecorded (j : ι) : (s.act k i (.handshake i msg e)).recorded j =
      if j = i then some signature.key else s.recorded j := by
    rw [s.act_establishes k i hdone.outputs, ← hkey, hreg]
    exact Function.update_apply ..
  have hlog : (s.act k i (.handshake i msg e)).log = s.log ∧ (s.act k i (.handshake i msg e)).used = s.used := by
    rw [s.act_establishes k i hdone.outputs]
    exact ⟨rfl, rfl⟩
  apply hs.renews hk
  refine ⟨fun j hj => ?_, ?_, hlog.2, hlog.1, fun j hj => (hrecorded j).trans (if_neg hj), fun j => ?_,
    fun j hj => by rw [hslot, if_neg hj], ?_, fun new hnew => ?_, fun _ => ?_⟩
  · rw [s.world_act]
    refine Sudp.frames_next fun i' hi' => ?_
    cases hi'
    exact hj
  · rw [s.world_act]
    exact Sudp.received_next _
  · rw [hslot]
    split
    · next hjk => exact hjk ▸ ⟨rfl, rfl, rfl⟩
    · exact ⟨rfl, rfl, rfl⟩
  · rw [s.world_act]
    exact hdeals
  · rw [s.world_act, hest, Function.update_self] at hnew
    cases hnew
    exact (hrecorded i).trans (if_pos rfl)
  · rw [s.world_act, hest, Function.update_self]
    exact Option.some_ne_none _

theorem Desk.Inv.use {event : Event ι} (hs : s.Inv mine) (hk : (s.peers k).sudp = some i)
    (hactor : event.actor = some i) (huse : event.IsUse) : (s.act k i event).Inv mine := by
  have huses := Sudp.uses_next (s := s.world) huse
  have hsession := hs.session hk hactor ((hs.deals k i hk).continues (huses.continues i)) huses.established
  refine hsession.follows (s.marks_act k i fun out hout => ?_).follows
  exact not_established_of_passing (Sudp.passing_outputs huse out hout)

theorem Desk.Inv.plain {event : Event ι} (hs : s.Inv mine) (hk : (s.peers k).sudp = some i)
    (hactor : event.actor = some i)
    (hdeals : ((s.world.next event).client i).DealsWith (s.peers k).peerId)
    (hest : (s.world.next event).established = s.world.established)
    (hplain : ∀ out ∈ s.world.outputs event, out.Plain) : (s.act k i event).Inv mine := by
  refine (hs.session hk hactor hdeals hest).follows (s.marks_act k i fun out hout => ?_).follows
  rintro rfl
  exact hplain _ hout rfl

theorem Desk.Inv.work (hs : s.Inv mine) (hk : (s.peers k).sudp = some i) (e : Around ι) :
    (s.work k i e).Inv mine := by
  unfold Desk.work
  cases hposted : (s.peers k).posted with
  | none => exact hs
  | some peerId =>
    obtain rfl := hs.posted k peerId hposted
    have htaken := hs.modify k (f := .taken) (fun i hi => ⟨hi, rfl, rfl⟩) rfl
    have hslot : (s.modify k .taken).peers k = (s.peers k).taken := Function.update_self ..
    have hplain := Sudp.plain_workerConnect (e := e) (c := s.world.client i) (s.peers k).peerId
    refine htaken.plain ?_ rfl ?_
      (Sudp.absorb_plain s.world i hplain).1 hplain
    · rw [hslot]
      exact hk
    · change (Sudp.World.client (s.world.absorb i _) i).DealsWith _
      rw [Sudp.client_absorb_self, hslot]
      exact (hs.deals k i hk).connect e

theorem Desk.Inv.handshake {msg : Message ι} {e : Around ι} (hs : s.Inv mine)
    (hk : (s.peers k).sudp = some i) (hreg : e.reg = s.reg)
    (hfrom : msg.IsFrom e (s.world.client i) (s.peers k).peerId) (maxPayload : ℕ) :
    (s.handshake k maxPayload i msg e).Inv mine := by
  have hdeals : ((s.world.next (.handshake i msg e)).client i).DealsWith (s.peers k).peerId := by
    change (Sudp.World.client (s.world.absorb i _) i).DealsWith _
    rw [Sudp.client_absorb_self]
    exact (hs.deals k i hk).message hfrom
  have hacted : (s.act k i (.handshake i msg e)).Inv mine := by
    cases Sudp.outputs_message e (s.world.client i) msg with
    | inl hplain => exact hs.plain hk rfl hdeals (Sudp.absorb_plain s.world i hplain).1 hplain
    | inr hdone =>
      obtain ⟨signature, hdone⟩ := hdone
      exact hs.completes hk hreg hdeals hdone
  unfold Desk.handshake
  dsimp only
  split
  · exact hacted.follows (Desk.talks_syncSend _ k maxPayload _ _).follows
  · exact hacted

theorem received_deliver {s : World ι} {d : Datagram ι} {reliable reliable' : Bool}
    (houts : s.outputs (.deliver i d reliable) = [.received channel data reliable']) :
    ⟨i, ((s.next (.deliver i d reliable)).client i).root?, (s.next (.deliver i d reliable)).established i,
      channel, data⟩ ∈ (s.next (.deliver i d reliable)).received := by
  change _ ∈ (World.absorb s i _).received
  change (Sudp.innerRecvData (s.client i) (Sudp.payloadOf d.packet) reliable).2 = _ at houts
  change (⟨i, ((World.absorb s i _).client i).root?, (World.absorb s i _).established i, channel, data⟩ :
    Received ι) ∈ _
  unfold World.absorb
  rw [houts]
  exact List.mem_cons_self ..

theorem Desk.Inv.deliver (hs : s.Inv mine) (hk : (s.peers k).sudp = some i) (crypto : Crypto)
    (maxPayload : ℕ) (now : I64) (d : Datagram ι) (reliable : Bool) :
    (s.deliver crypto k maxPayload now i d reliable).Inv mine := by
  have hacted : (s.act k i (.deliver i d reliable)).Inv mine := hs.use hk rfl trivial
  rcases s.deliver_cases k i crypto maxPayload now d reliable with heq | ⟨channel, data, _, houts, heq⟩
  · rw [heq]
    exact hacted
  · rw [heq]
    refine Desk.Inv.follows ?_ (Desk.talks_recvCb _ k maxPayload crypto now i channel data reliable).follows
    refine ⟨hacted.held, hacted.apart, hacted.deals, hacted.posted, hacted.recorded, hacted.connected, ?_⟩
    intro x hx item key hwhat
    cases hx with
    | tail _ hx => exact hacted.heard x hx item key hwhat
    | head =>
      obtain ⟨rfl, rfl⟩ := Passage.heard.inj hwhat
      refine ⟨?_, fun signature hsig => hacted.recorded i (hs.held k i hk).1 signature hsig⟩
      change _ ∈ (s.act k i (.deliver i d reliable)).world.received
      rw [s.world_act]
      exact received_deliver houts

variable {crypto : Crypto} {ident : ι → Identity} {self : Identity}

theorem Desk.Inv.slot {event : SlotEvent ι} (hs : s.Inv mine) (hk : (s.peers k).sudp = some i)
    (hen : SlotEnabled ident s i event) (hnamed : Named s (.slot k event)) :
    (s.slotNext crypto k i event).Inv mine := by
  cases event with
  | work e => exact hs.work hk e
  | handshake msg e maxPayload => exact hs.handshake hk hen.1 (hnamed i hk) maxPayload
  | encrypt flags channel seq payload e => exact hs.use hk rfl trivial
  | decrypt d e => exact hs.use hk rfl trivial
  | deliver d reliable maxPayload now => exact hs.deliver hk crypto maxPayload now d reliable
  | send maxPayload channel data reliable =>
    exact hs.follows (s.talks_sendChannel k maxPayload channel data reliable).follows
  | free => exact hs.modify k (f := fun _ => .free) (fun _ hi => absurd hi (by simp [PeerSlot.free])) rfl

theorem Desk.Inv.other {event : Event ι} (hs : s.Inv mine) (hforeign : ∀ i ∈ event.actor, ¬ mine i) :
    { s with world := s.world.next event }.Inv mine := by
  have hframes (i : ι) (hi : mine i) : Sudp.Frames s.world (s.world.next event) i := by
    refine Sudp.frames_next fun j hj => ?_
    rintro rfl
    exact hforeign i hj hi
  refine ⟨hs.held, hs.apart, fun k i hk => ?_, hs.posted, fun i hi signature hsig => ?_,
    fun k i hk hstate => ?_, fun x hx item key hwhat => ?_⟩
  · change ((s.world.next event).client i).DealsWith _
    rw [(hframes i (hs.held k i hk).1).client]
    exact hs.deals k i hk
  · exact hs.recorded i hi signature ((hframes i hi).established ▸ hsig)
  · change (s.world.next event).established i ≠ none
    rw [(hframes i (hs.held k i hk).1).established]
    exact hs.connected k i hk hstate
  · obtain ⟨hin, hkey⟩ := hs.heard x hx item key hwhat
    exact ⟨Sudp.received_next event item hin, hkey⟩

theorem Desk.Inv.next {event : DeskEvent ι} (hs : s.Inv mine) (hen : DeskEnabled ident self mine s event)
    (hnamed : Named s event) : (s.next crypto self.peerId event).Inv mine := by
  cases event with
  | dial peerId i =>
    obtain ⟨hi, hused, _, _, _, hnew⟩ := hen
    change (s.peerConnect self.peerId peerId i).Inv mine
    unfold Desk.peerConnect
    split
    · exact hs
    · split
      · exact hs
      · split
        · exact hs
        · next k _ =>
          split
          · exact hs.dial hi hused hnew k peerId
          · exact hs
  | slot k event =>
    unfold Desk.next
    dsimp only
    cases hk : (s.peers k).sudp with
    | none => exact hs
    | some i => exact hs.slot hk (hen i hk) hnamed
  | poll maxPayload => exact hs.follows (s.talks_poll maxPayload).follows
  | mutate m clk =>
    unfold Desk.next
    dsimp only
    split
    · exact hs
    · exact ⟨hs.held, hs.apart, hs.deals, hs.posted, hs.recorded, hs.connected, hs.heard⟩
  | other event => exact hs.other hen.1

omit [DecidableEq ι] in
theorem inv_deskStarts (hs : DeskStarts ident s) : s.Inv mine := by
  have hfree (k : Fin maxPeers) (i : ι) : (s.peers k).sudp ≠ some i := by
    rw [hs.peers]
    exact fun hnone => nomatch hnone
  refine ⟨fun k i hk => absurd hk (hfree k i), fun k _ i hk => absurd hk (hfree k i),
    fun k i hk => absurd hk (hfree k i), fun k p hp => ?_, fun i _ signature hsig => ?_,
    fun k i hk => absurd hk (hfree k i), fun x hx => ?_⟩
  · rw [hs.peers] at hp
    exact nomatch hp
  · rw [(hs.world.2.1 i).2] at hsig
    exact nomatch hsig
  · rw [hs.log] at hx
    exact nomatch hx

theorem reachable_desk_inv
    (h : ((deskSystem crypto ident self mine).restrict Named).Reachable s) : s.Inv mine := by
  refine System.Reachable.invariant (I := fun s : Desk ι => s.Inv mine) (fun _ => inv_deskStarts) ?_ h
  rintro s event t _ hs ⟨hnamed, hen, rfl⟩
  exact hs.next hen hnamed

end Invariant

section Binding

variable {crypto : Crypto} {ident : ι → Identity} {self : Identity} {mine : ι → Prop} {s : Desk ι}

theorem Desk.Inv.bound (hs : s.Inv mine) (hworld : (sudpSystem ident).Reachable s.world) : s.Bound ident := by
  intro k i hk hstate
  obtain ⟨signature, hsig⟩ := Option.ne_none_iff_exists'.mp (hs.connected k i hk hstate)
  exact ⟨signature, hsig, hs.recorded i (hs.held k i hk).1 signature hsig,
    Sudp.reachable_presentable hworld i signature hsig⟩

theorem Desk.Inv.attributed (hs : s.Inv mine)
    (hworld : ((sudpSystem ident).restrict Secured).Reachable s.world) : s.Attributed ident := by
  intro x hx item key hwhat
  obtain ⟨hin, hkey⟩ := hs.heard x hx item key hwhat
  obtain ⟨signature, hpeer, hsent⟩ := Sudp.session_authenticity hworld item hin
  exact ⟨⟨signature, hpeer, hsent⟩, signature, hpeer, hkey signature hpeer⟩

omit [DecidableEq ι] in
theorem secured_send (s : World ι) (i : ι) (maxPayload : ℕ) (channel : BitVec 8) (data : List Byte)
    (reliable : Bool) : Secured s (.send i maxPayload channel data reliable) :=
  ⟨trivial, fun _ _ _ heq => absurd heq (by simp)⟩

/-- In a run whose slots take no HELLO but that of their peer, a CONNECTED slot is that of the holder
of its peer's key; where no handshake and no session is meddled with, so is all that is heard. -/
theorem slots_bound :
    (((deskSystem crypto ident self mine).restrict Named).Reachable s → s.Bound ident) ∧
      (((deskSystem crypto ident self mine).restrict Guarded).Reachable s → s.Attributed ident) := by
  constructor
  · intro h
    apply (reachable_desk_inv h).bound
    have hworld : ((sudpSystem ident).restrict fun _ _ => True).Reachable s.world :=
      reachable_world (fun _ _ _ _ _ _ => trivial) (h.restrict_mono fun _ _ _ _ _ => trivial)
    exact hworld.of_restrict
  · intro h
    refine (reachable_desk_inv (h.restrict_mono fun _ _ hg => hg.1)).attributed ?_
    exact reachable_world secured_send (h.restrict_mono fun _ _ hg => hg.2)

end Binding

section Calls

open Sudp (pairStart pairStart_starts pairIdentity pairRegistrar pairAround talkWorld dialedHello dialedResponse
  dialedConfirm dialedHandshake firstDatagram responderRoot responderRoot_eq buildPacket flagReliable
  hsCtxCreate)

def callCrypto : Crypto := onlySigner flatHash (member 1)

def callStart (reg : Registrar) : Desk Bool where
  world := pairStart
  reg := reg
  peers _ := .free
  lastBroadcastVer := 0
  used _ := false
  recorded _ := none
  log := []

theorem callStart_starts (reg : Registrar) : DeskStarts pairIdentity (callStart reg) :=
  ⟨pairStart_starts, fun _ => rfl, fun _ => rfl, fun _ => rfl, rfl⟩

def callSystem : System (Desk Bool) (DeskEvent Bool) :=
  deskSystem callCrypto pairIdentity (member 1) (· = true)

def userPayload : List Byte := Sudp.htonl 1 ++ [2, 7]

def userDatagram : Datagram Bool :=
  { firstDatagram with packet := buildPacket flagReliable 0 0 userPayload }

def callRun : List (DeskEvent Bool) :=
  [.dial (member 2).peerId true,
    .slot 0 (.work (pairAround 1)),
    .other (.handshake false (.hello dialedHello) (pairAround 2)),
    .slot 0 (.handshake (.response dialedResponse) (pairAround 3) 0),
    .other (.handshake false (.confirm dialedConfirm) (pairAround 4)),
    .other (.send false 1000 2 [7] true),
    .other (.encrypt false flagReliable 0 0 userPayload (pairAround 5)),
    .slot 0 (.decrypt (some userDatagram) (pairAround 6)),
    .slot 0 (.deliver userDatagram true 0 0)]

def callAt (n : ℕ) : Desk Bool :=
  (callRun.take n).foldl (Desk.next callCrypto (member 1).peerId) (callStart pairRegistrar)

theorem callAt_succ (h : callRun[n]? = some event) :
    callAt (n + 1) = (callAt n).next callCrypto (member 1).peerId event := by
  rw [callAt, List.take_add_one, h, List.foldl_append]
  rfl

theorem call_quiet : ∀ event ∈ callRun, event.writes = false := by decide

theorem call_registrar (n : ℕ) : (callAt n).reg = pairRegistrar :=
  (callStart pairRegistrar).reg_run callCrypto _ fun event hevent => call_quiet event (List.mem_of_mem_take hevent)

def Guided (s : Desk Bool) (event : DeskEvent Bool) : Prop := Guarded s event ∧ s.reg = pairRegistrar

theorem call_step {n : ℕ} {event : DeskEvent Bool}
    (h : (callSystem.restrict Guided).Reachable (callAt n))
    (hevent : callRun[n]? = some event) (hguarded : Guarded (callAt n) event)
    (hen : DeskEnabled pairIdentity (member 1) (· = true) (callAt n) event) :
    (callSystem.restrict Guided).Reachable (callAt (n + 1)) := by
  rw [callAt_succ hevent]
  exact .step h ⟨⟨hguarded, call_registrar n⟩, hen, rfl⟩

theorem call_answered : (callAt 3).world = talkWorld 2 := by rfl

theorem call_trace :
    (callAt 3).world.signed = [dialedResponse.signature] ∧
    (callAt 4).world.signed = [dialedConfirm.signature, dialedResponse.signature] ∧
    (callAt 6).world.sent.map (fun x => (x.sender, x.payload)) = [(false, userPayload)] ∧
    ((callAt 7).peers 0).sudp = some true ∧
    (callAt 7).world.wire = [{ userDatagram with key := .gen (.init responderRoot) 0 false }] ∧
    ((callAt 8).peers 0).sudp = some true ∧ (callAt 8).world.held = [(true, userDatagram)] ∧
    ((callAt 8).world.client true).hs = none ∧ ((callAt 9).peers 0).state = .connected ∧
    ((callAt 9).peers 0).peerId = (member 2).peerId ∧ (callAt 9).log.length = 2 := by decide +kernel

theorem call_session7 : ((callAt 7).peers 0).sudp = some true := call_trace.2.2.2.1

theorem call_session8 : ((callAt 8).peers 0).sudp = some true := call_trace.2.2.2.2.2.1

theorem call_connected : ((callAt 9).peers 0).state = .connected := call_trace.2.2.2.2.2.2.2.2.1

theorem call_peer : ((callAt 9).peers 0).peerId = (member 2).peerId := call_trace.2.2.2.2.2.2.2.2.2.1

theorem call_wire : (callAt 7).world.wire = [userDatagram] := by
  rw [call_trace.2.2.2.2.1, responderRoot_eq]
  rfl

theorem call_heard : (callAt 9).log ≠ [] := by
  intro hnil
  have hlength := call_trace.2.2.2.2.2.2.2.2.2.2
  rw [hnil] at hlength
  exact absurd hlength (by decide)

theorem worldEvent_slot {s : Desk Bool} {event : SlotEvent Bool} (h : (s.peers k).sudp = some i) :
    s.worldEvent (.slot k event) = s.sessionEvent k i event := by
  rw [Desk.worldEvent, h]
  rfl

theorem enabled_slot {s : Desk Bool} {event : SlotEvent Bool} (h : (s.peers k).sudp = some i)
    (hen : SlotEnabled pairIdentity s i event) :
    DeskEnabled pairIdentity (member 1) (· = true) s (.slot k event) := by
  intro i' hi'
  cases h.symm.trans hi'
  exact hen

theorem guarded_of_orderly {s : Desk Bool} {event : DeskEvent Bool} {w : Event Bool} (hnamed : Named s event)
    (hw : s.worldEvent event = some w) (horder : Sudp.Orderly s.world w)
    (hother : ∀ i d reliable, w ≠ .deliver i d reliable) : Guarded s event := by
  refine ⟨hnamed, fun w' hw' => ?_⟩
  cases hw.symm.trans hw'
  exact .other horder hother

theorem call_established : (callSystem.restrict Guided).Reachable (callAt 5) := by
  have hstart : (callSystem.restrict Guided).Reachable (callAt 0) := .init (callStart_starts _)
  have hdialed := call_step hstart rfl ⟨trivial, fun _ hw => nomatch hw⟩ ⟨rfl, rfl, false, 0, 0, rfl⟩
  have hworks := call_step hdialed rfl
    (guarded_of_orderly (w := .connect true (member 2).peerId (pairAround 1)) trivial rfl
      (fun hnone => nomatch hnone) fun _ _ _ heq => nomatch heq) fun _ _ => rfl
  have hhello : Sudp.MessageInOrder (pairAround 2) ((callAt 2).world.client false) (.hello dialedHello) := by
    intro h hhs _
    have hcontext : ((callAt 2).world.client false).hs = some (hsCtxCreate false) := rfl
    cases hcontext.symm.trans hhs
    exact ⟨rfl, .inr fun hnone => nomatch hnone⟩
  have hanswered := call_step hworks rfl
    (guarded_of_orderly trivial rfl hhello fun _ _ _ heq => nomatch heq)
    ⟨(fun i hi => by cases hi; decide), fun _ hnone => nomatch hnone⟩
  have hresponse : Sudp.MessageInOrder (pairAround 3) ((callAt 3).world.client true) (.response dialedResponse) := by
    intro h hhs _ _
    rw [call_answered] at hhs
    have hcontext : ((talkWorld 2).client true).hs = some dialedHandshake := rfl
    cases hcontext.symm.trans hhs
    exact ⟨dialedHello, rfl⟩
  have hconcluded := call_step hanswered rfl
    (guarded_of_orderly (w := .handshake true (.response dialedResponse) (pairAround 3))
      (fun _ _ => trivial) rfl hresponse
      fun _ _ _ heq => nomatch heq)
    fun _ _ => ⟨rfl, fun signature hsig => by
      cases hsig
      rw [call_trace.1]
      exact .inl (List.mem_singleton_self _)⟩
  refine call_step hconcluded rfl (guarded_of_orderly trivial rfl trivial fun _ _ _ heq => nomatch heq)
    ⟨(fun i hi => by cases hi; decide), fun signature hsig => ?_⟩
  cases hsig
  rw [call_trace.2.1]
  exact .inl (List.mem_cons_self ..)

theorem call_decrypted : (callSystem.restrict Guided).Reachable (callAt 8) := by
  have hsent := call_step call_established rfl
    (guarded_of_orderly trivial rfl trivial fun _ _ _ heq => nomatch heq)
    ⟨(fun i hi => by cases hi; decide), trivial⟩
  have hsource : ∃ x ∈ (callAt 6).world.sent, x.sender = false ∧ x.payload = userPayload := by
    have hmem : (false, userPayload) ∈ (callAt 6).world.sent.map fun x => (x.sender, x.payload) := by
      rw [call_trace.2.2.1]
      exact List.mem_singleton_self _
    obtain ⟨x, hx, heq⟩ := List.mem_map.mp hmem
    obtain ⟨hsender, hpayload⟩ := Prod.mk.inj heq
    exact ⟨x, hx, hsender, hpayload⟩
  have hsealed : (callSystem.restrict Guided).Reachable (callAt 7) := call_step hsent rfl
    (guarded_of_orderly trivial rfl trivial fun _ _ _ heq => nomatch heq)
    ⟨(fun i hi => by cases hi; decide), by decide, .inr (.inr hsource)⟩
  have hin : Sudp.Enabled pairIdentity (callAt 7).world (.decrypt true (some userDatagram) (pairAround 6)) := by
    intro d hd
    cases hd
    rw [call_wire]
    exact List.mem_singleton_self _
  have hworld : (callAt 7).worldEvent (.slot 0 (.decrypt (some userDatagram) (pairAround 6))) =
      some (.decrypt true (some userDatagram) (pairAround 6)) := worldEvent_slot call_session7
  have hguarded : Guarded (callAt 7) (.slot 0 (.decrypt (some userDatagram) (pairAround 6))) :=
    guarded_of_orderly trivial hworld trivial fun _ _ _ heq => nomatch heq
  have hen : DeskEnabled pairIdentity (member 1) (· = true) (callAt 7)
      (.slot 0 (.decrypt (some userDatagram) (pairAround 6))) := enabled_slot call_session7
    ⟨(call_registrar 7).symm, hin⟩
  exact call_step hsealed rfl hguarded hen

theorem call_reachable : (callSystem.restrict Guided).Reachable (callAt 9) := by
  obtain ⟨_, _, _, _, _, _, hheld, hdone, _⟩ := call_trace
  have hopened : Sudp.Enabled pairIdentity (callAt 8).world (.deliver true userDatagram true) := by
    refine ⟨?_, by decide, by decide⟩
    rw [hheld]
    exact List.mem_singleton_self _
  have hup : Sudp.HandsUp ((callAt 8).world.client true) userDatagram :=
    fun _ _ _ => ⟨(fun _ hk => nomatch hk), hdone⟩
  have hworld : (callAt 8).worldEvent (.slot 0 (.deliver userDatagram true 0 0)) =
      some (.deliver true userDatagram true) := worldEvent_slot call_session8
  have hguarded : Guarded (callAt 8) (.slot 0 (.deliver userDatagram true 0 0)) := by
    refine ⟨trivial, fun w hw => ?_⟩
    cases hworld.symm.trans hw
    refine ⟨trivial, fun i d reliable heq => ?_⟩
    obtain ⟨rfl, rfl, _⟩ := Event.deliver.inj heq
    exact hup
  have hen : DeskEnabled pairIdentity (member 1) (· = true) (callAt 8)
      (.slot 0 (.deliver userDatagram true 0 0)) := enabled_slot call_session8 hopened
  exact call_step call_decrypted rfl hguarded hen

theorem slots_bound_call : ((callAt 9).peers 0).state = .connected ∧ (callAt 9).log ≠ [] ∧
    (callAt 9).Bound pairIdentity ∧ (callAt 9).Attributed pairIdentity :=
  ⟨call_connected, call_heard, slots_bound.1 (call_reachable.restrict_mono fun _ _ hg => hg.1.1),
    slots_bound.2 (call_reachable.restrict_mono fun _ _ hg => hg.1)⟩

def trioRegistrar : Registrar :=
  { pairRegistrar with peers := pairRegistrar.peers.upsert (ownerPeer (member 3) 1) }

def trioAround (now : ℕ) : Around Bool := { pairAround now with reg := trioRegistrar }

def strangerHello : Sudp.Hello Bool :=
  { dialedHello with peerId := (member 3).peerId, mlkemPk := .adversary 0, bp512Pk := .adversary 1 }

def strangerTranscript : Sudp.Transcript Bool where
  hello := strangerHello
  peerId := (member 1).peerId
  mlkemCt := ⟨.adversary 0, .honest true 0⟩
  bp512Pk := .honest true 1
  frodoCt := none

def strangerConfirm : Sudp.Confirm Bool where
  version := Sudp.protocolVersion
  signature := ⟨(member 3).publicKey, strangerTranscript.digest⟩

def strangerRun : List (DeskEvent Bool) :=
  [.dial (member 2).peerId true,
    .slot 0 (.handshake (.hello strangerHello) (trioAround 1) 0),
    .slot 0 (.handshake (.confirm strangerConfirm) (trioAround 2) 0)]

def strangerAt (n : ℕ) : Desk Bool :=
  (strangerRun.take n).foldl (Desk.next callCrypto (member 1).peerId) (callStart trioRegistrar)

theorem stranger_trace : ((strangerAt 3).peers 0).sudp = some true ∧
    ((strangerAt 3).peers 0).state = .connected ∧
    (strangerAt 3).recorded true = some (member 2).publicKey ∧
    ((strangerAt 3).world.established true).map Ideal.Signature.key = some (member 3).publicKey := by
  decide +kernel

theorem stranger_reachable : callSystem.Reachable (strangerAt 3) := by
  have hforeign : ¬ IsHonest pairIdentity (member 3).publicKey := by
    rintro ⟨i, hi⟩
    cases i with
    | true => exact absurd (publicKey_inj.mp hi) (by decide)
    | false => exact absurd (publicKey_inj.mp hi) (by decide)
  have hhello : SlotEnabled pairIdentity (strangerAt 1) true
      (.handshake (.hello strangerHello) (trioAround 1) 0) := ⟨rfl, fun _ hnone => nomatch hnone⟩
  have hconfirm : SlotEnabled pairIdentity (strangerAt 2) true
      (.handshake (.confirm strangerConfirm) (trioAround 2) 0) := by
    refine ⟨rfl, fun signature hsig => ?_⟩
    cases hsig
    exact .inr hforeign
  have hrun : System.Enables (DeskEnabled pairIdentity (member 1) (· = true))
      (Desk.next callCrypto (member 1).peerId) (callStart trioRegistrar) strangerRun :=
    ⟨⟨rfl, rfl, false, 0, 0, rfl⟩, enabled_slot rfl hhello, enabled_slot rfl hconfirm, trivial⟩
  exact System.Reachable.run (S := callSystem) (fun _ _ hen => ⟨hen, rfl⟩) strangerRun hrun
    (.init (callStart_starts _))

-- The client dials one member, and another one answers.
theorem stranger_not_bound : ¬ ∀ (crypto : Crypto) (ident : Bool → Identity) (self : Identity)
    (mine : Bool → Prop) (s : Desk Bool), (deskSystem crypto ident self mine).Reachable s → s.Bound ident := by
  intro h
  obtain ⟨hsudp, hstate, hrecorded, hstranger⟩ := stranger_trace
  obtain ⟨signature, hsig, hkey, _⟩ := h _ _ _ _ _ stranger_reachable 0 true hsudp hstate
  rw [hsig] at hstranger
  rw [hrecorded] at hkey
  have hsame : (member 2).publicKey = (member 3).publicKey :=
    (Option.some.inj hkey).trans (Option.some.inj hstranger)
  exact absurd (publicKey_inj.mp hsame) (by decide)

end Calls

end YumiBrowser.Client
