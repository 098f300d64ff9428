import YumiBrowser.Client.MeshNetwork

universe u

namespace YumiBrowser.Client

open Wire Transition
open YumiBrowser.Group (PeerId member)

def MeshPacket.asCall (p : MeshPacket) : MeshCall := ⟨p.src, p.dst, p.innerCh, p.payload⟩

def Relayed.asCall {ι : Type u} (m : Relayed ι) (dst : PeerId) : MeshCall :=
  ⟨m.src, dst, m.channel, m.payload⟩

section Dispatch

variable {ι : Type u} {c : Member ι} {k : Fin maxPeers} {p : MeshPacket} {data : List Byte}
  {call : Option ℕ} {i : ι} {m : Relayed ι} {sent : MeshSend}

theorem data_of_forwarded {dst : PeerId} {ttl : Byte} (h : sent ∈ c.meshForwardToPeers k dst ttl data) :
    sent.data = data ∨ sent.data = data.set 1 (ttl - 1) := by
  unfold MeshClient.meshForwardToPeers at h
  split at h
  · exact .inl (List.mem_singleton.mp h ▸ rfl)
  · split at h
    · exact absurd h List.not_mem_nil
    · obtain ⟨_, _, rfl⟩ := List.mem_map.mp h
      exact .inr rfl

theorem asCall_of_sent (hp : MeshPacket.parse data = some p)
    (h : sent ∈ sendsOf (c.dispatch k p data)) :
    ∃ p', MeshPacket.parse sent.data = some p' ∧ p'.asCall = p.asCall := by
  unfold MeshClient.dispatch at h
  split at h
  · split at h <;> exact absurd h List.not_mem_nil
  · split at h
    · exact absurd h List.not_mem_nil
    · rw [sendsOf_send] at h
      cases data_of_forwarded h with
      | inl hsame => exact ⟨p, hsame ▸ hp, rfl⟩
      | inr hset =>
        rw [hset]
        exact ⟨_, MeshPacket.parse_set _ hp, rfl⟩

theorem asCall_of_relayed (h : m ∈ relayedOf call i (c.dispatch k p data)) :
    m.client = i ∧ m.asCall c.peerId = p.asCall := by
  unfold MeshClient.dispatch at h
  split at h
  · rename_i hdst
    split at h
    · exact List.mem_singleton.mp h ▸ ⟨rfl, hdst ▸ rfl⟩
    · exact absurd h List.not_mem_nil
  · split at h
    · exact absurd h List.not_mem_nil
    · rw [relayedOf_send] at h
      exact absurd h List.not_mem_nil

end Dispatch

namespace Mesh

variable {ι : Type u} [DecidableEq ι] {s : Mesh ι}

def Tells (calls : List MeshCall) (data : List Byte) : Prop :=
  ∀ p, MeshPacket.parse data = some p → p.asCall ∈ calls

/-- Whatever is under way or has arrived was sent by whoever is named as its source. -/
structure Attributed (s : Mesh ι) : Prop where
  flight : ∀ p ∈ s.flight, Tells s.calls p.data
  messages : ∀ m ∈ s.messages, m.asCall (s.clients m.client).peerId ∈ s.calls

/-- A packet that is made up names its sender as its source, or is of a call that was made. -/
def Genuine (s : Mesh ι) : MeshEvent ι → Prop
  | .inject target data =>
    ∀ p, MeshPacket.parse data = some p → p.src = s.neighbour target ∨ p.asCall ∈ s.calls
  | _ => True

namespace Attributed

omit [DecidableEq ι] in
theorem sublist (h : s.Attributed) {flight : List (Flying ι)} (hsub : flight.Sublist s.flight) :
    { s with flight }.Attributed where
  flight p hp := h.flight p (hsub.subset hp)
  messages := h.messages

omit [DecidableEq ι] in
theorem post (h : s.Attributed) (posted : List (Flying ι)) {calls : List MeshCall}
    (hcalls : s.calls ⊆ calls) (hposted : ∀ p ∈ posted, Tells calls p.data) :
    { s with flight := posted ++ s.flight, calls }.Attributed where
  flight p hp := by
    cases List.mem_append.mp hp with
    | inl hnew => exact hposted p hnew
    | inr hold => exact fun pk hpk => hcalls (h.flight p hold pk hpk)
  messages m hm := hcalls (h.messages m hm)

theorem relay (h : s.Attributed) (i : ι) (dst : PeerId) (channel : Byte) (data : List Byte) :
    (s.next (.relay i dst channel data)).Attributed := by
  refine h.post _ (List.subset_append_left ..) fun p hp pk hpk => ?_
  obtain ⟨sent, hsent, hcarry⟩ := List.mem_filterMap.mp hp
  obtain ⟨_, _, rfl⟩ := List.mem_map.mp hsent
  obtain ⟨_, _, rfl⟩ := Option.map_eq_some_iff.mp hcarry
  cases (MeshPacket.parse_wire _).symm.trans hpk
  exact List.mem_append_right _ (List.mem_singleton_self _)

omit [DecidableEq ι] in
theorem inject (h : s.Attributed) {target : SlotOf ι} {data : List Byte}
    (hgenuine : s.Genuine (.inject target data)) : (s.inject target data).Attributed := by
  unfold Mesh.inject
  split
  · rename_i p hp
    split
    · refine h.post [_] (List.subset_append_left ..) fun _ hmem pk hpk => ?_
      cases List.mem_singleton.mp hmem
      cases hp.symm.trans hpk
      exact List.mem_append_right _ (List.mem_singleton_self _)
    · rename_i hsrc
      refine h.post [_] (List.Subset.refl _) fun _ hmem pk hpk => ?_
      cases List.mem_singleton.mp hmem
      cases hp.symm.trans hpk
      exact (hgenuine p hp).resolve_left hsrc
  · rename_i hp
    refine h.post [_] (List.Subset.refl _) fun _ hmem pk hpk => ?_
    cases List.mem_singleton.mp hmem
    exact nomatch hp.symm.trans hpk

theorem handle (h : s.Attributed) {p : Flying ι} (hp : Tells s.calls p.data) (now : ℤ) :
    (s.handle p now).Attributed := by
  rcases meshHandle_cases (s.clients p.target.1) (s.buckets p.target) now p.target.2 p.data with
    hnone | ⟨pk, hpk, hsends, hrelayed⟩
  · exact ⟨by simpa [Mesh.handle, handled, hnone, sendsOf] using h.flight,
      by simpa [Mesh.handle, handled, hnone, relayedOf] using h.messages⟩
  · constructor
    · intro q hq
      cases List.mem_append.mp hq with
      | inl hnew =>
        obtain ⟨sent, hsent, hcarry⟩ := List.mem_filterMap.mp hnew
        obtain ⟨_, _, rfl⟩ := Option.map_eq_some_iff.mp hcarry
        obtain ⟨p', hp', hcall⟩ := asCall_of_sent hpk (hsends ▸ hsent)
        intro q' hq'
        cases hp'.symm.trans hq'
        exact hcall ▸ hp pk hpk
      | inr hold => exact h.flight q hold
    · intro m hm
      cases List.mem_append.mp hm with
      | inl hnew =>
        obtain ⟨hclient, hcall⟩ := asCall_of_relayed (hrelayed p.call p.target.1 ▸ hnew)
        rw [hclient]
        exact hcall ▸ hp pk hpk
      | inr hold => exact h.messages m hold

theorem peerId_rewired (s : Mesh ι) (target : SlotOf ι) (slot : SlotView (Option (SlotOf ι)))
    (bucket : Bucket) (i : ι) :
    ((s.next (.rewire target slot bucket)).clients i).peerId = (s.clients i).peerId := by
  change (Function.update s.clients target.1 _ i).peerId = _
  by_cases hi : i = target.1
  · rw [hi, Function.update_self]
  · rw [Function.update_of_ne hi]

theorem step (h : s.Attributed) {event : MeshEvent ι} (hgenuine : s.Genuine event) :
    (s.next event).Attributed := by
  cases event with
  | relay i dst channel data => exact h.relay i dst channel data
  | deliver index now =>
    cases hp : s.flight[index]? with
    | none => simpa only [Mesh.next, hp] using h
    | some p =>
      have hrest := h.sublist (List.eraseIdx_sublist s.flight index)
      simpa only [Mesh.next, hp] using hrest.handle (h.flight p (List.mem_of_getElem? hp)) now
  | lose index => exact h.sublist (List.eraseIdx_sublist ..)
  | inject target data => exact h.inject hgenuine
  | rewire target slot bucket =>
    refine ⟨fun p hp => h.flight p (List.mem_of_mem_filter hp), fun m hm => ?_⟩
    rw [peerId_rewired]
    exact h.messages m hm

end Attributed

omit [DecidableEq ι] in
theorem clock_inject (s : Mesh ι) (target : SlotOf ι) (data : List Byte) :
    (s.inject target data).clock = s.clock := by
  unfold Mesh.inject
  split
  · split <;> rfl
  · rfl

/-- Every message is of a call that its source has made, in every run in which nobody makes up a
packet under the name of another. -/
theorem relayed_attributed (h : ((mesh ι).restrict Genuine).Reachable s) :
    ∀ m ∈ s.messages, m.asCall (s.clients m.client).peerId ∈ s.calls := by
  have hinv : s.Attributed := by
    refine System.Reachable.invariant ?_ ?_ h
    · rintro s ⟨_, hflight, _, hmessages, _⟩
      exact ⟨hflight ▸ fun _ hp => absurd hp List.not_mem_nil, hmessages ▸ fun _ hm => absurd hm List.not_mem_nil⟩
    · rintro s event _ - hs ⟨hgenuine, _, rfl⟩
      exact hs.step hgenuine
  exact hinv.messages

section Forged

def strangerSlot (b : Byte) : SlotView (Option (SlotOf Bool)) := ⟨(member b).peerId, .connected, some none⟩

def noSlot : SlotView (Option (SlotOf Bool)) := ⟨Bytes.fill 32 0, .free, none⟩

/-- `true` is connected with the third member only, `false` with nobody. -/
def besieged : Mesh Bool where
  clients i := ⟨(member (if i then 1 else 2)).peerId,
    fun k => if i = true ∧ k = 0 then strangerSlot 3 else noSlot⟩
  buckets _ := .freed
  clock := 0
  flight := []
  calls := []
  messages := []

def greeting (src : PeerId) : List Byte := (MeshPacket.mk 1 src (member 1).peerId userCh [42]).wire

/-- A packet in the name of a member is handed to `true` by his neighbour, and handled. -/
def injectedRun (b : Byte) : List (MeshEvent Bool) :=
  [.inject (true, 0) (greeting (member b).peerId), .deliver 0 1]

def injected (b : Byte) : Mesh Bool := (injectedRun b).foldl Mesh.next besieged

theorem injected_trace :
    (injected 3).messages = [⟨some 0, true, (member 3).peerId, userCh, [42]⟩] ∧
    (injected 2).messages = [⟨none, true, (member 2).peerId, userCh, [42]⟩] ∧ (injected 2).calls = [] := by
  decide +kernel

theorem injected_reachable {ok : Mesh Bool → MeshEvent Bool → Prop} (b : Byte)
    (hsend : ok besieged (.inject (true, 0) (greeting (member b).peerId)))
    (hhandle : ∀ s, ok s (.deliver 0 1)) : ((mesh Bool).restrict ok).Reachable (injected b) := by
  have hstart : ((mesh Bool).restrict ok).Reachable besieged :=
    .init ⟨rfl, rfl, rfl, rfl, fun _ => .inr rfl⟩
  have hsent := reachable_next hstart (.inject (true, 0) (greeting (member b).peerId)) hsend rfl
  apply reachable_next hsent (.deliver 0 1) (hhandle _)
  change (besieged.inject _ _).clock ≤ 1
  rw [clock_inject]
  exact Int.one_nonneg

theorem relayed_attributed_neighbour :
    (injected 3).messages ≠ [] ∧
    ∀ m ∈ (injected 3).messages, m.asCall ((injected 3).clients m.client).peerId ∈ (injected 3).calls := by
  refine ⟨injected_trace.1 ▸ List.cons_ne_nil _ _, relayed_attributed ?_⟩
  refine injected_reachable 3 (fun p hp => ?_) fun _ => trivial
  cases (MeshPacket.parse_wire _).symm.trans hp
  exact .inl rfl

theorem relayed_forged :
    ¬ ∀ s : Mesh Bool, (mesh Bool).Reachable s →
      ∀ m ∈ s.messages, m.asCall (s.clients m.client).peerId ∈ s.calls := by
  intro hall
  have hreach : ((mesh Bool).restrict fun _ _ => True).Reachable (injected 2) :=
    injected_reachable 2 trivial fun _ => trivial
  have hcall := hall (injected 2) hreach.of_restrict _ (injected_trace.2.1 ▸ List.mem_singleton_self _)
  rw [injected_trace.2.2] at hcall
  exact absurd hcall List.not_mem_nil

end Forged

end Mesh

end YumiBrowser.Client
