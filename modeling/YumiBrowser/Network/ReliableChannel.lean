import YumiBrowser.Network.ReliableSend

namespace YumiBrowser.Udp

open Transition

/-- The replies `worker_recv` emits when packet `n` arrives. -/
def Channel.replyTo (s : Channel) (n : ℕ) : List (ℕ × Reply) :=
  (workerRecv s.receiver (wire n) n).reply.toList.map (n, ·)

def Reply.seq : Reply → BitVec 32
  | .ack seq => seq
  | .sack seq _ _ => seq

/-- One reliable channel from sender to receiver, with the datagrams in flight both ways. The
entries in `lost` were given up, and the packets in `unregistered` never got an entry. -/
structure Link where
  chan : Channel
  sender : Reliable ℕ
  flying : List (BitVec 32 × ℕ)
  replies : List (ℕ × Reply)
  lost : List (ReliableEntry ℕ)
  unregistered : List ℕ

def Link.fresh (timeout maxRetransmits : ℕ) : Link where
  chan := .fresh
  sender := .fresh timeout maxRetransmits
  flying := []
  replies := []
  lost := []
  unregistered := []

inductive LinkEvent
  | send (now : ℕ) (grows : Bool)
  | timer (now : ℕ)
  | arrive (n : ℕ)
  | reply (now : ℕ) (a : ℕ × Reply)
  | lose (d : BitVec 32 × ℕ)
  | copy (d : BitVec 32 × ℕ)
  | loseReply (a : ℕ × Reply)
  | copyReply (a : ℕ × Reply)

section

variable (ch : BitVec 8)

def Link.nextEntry (s : Link) (now : ℕ) : ReliableEntry ℕ :=
  s.sender.newEntry now ch false (wire s.chan.sent) s.chan.sent

/-- `send_worker_process_item`: number the packet, send it, register it. -/
def Link.send (s : Link) (now : ℕ) (grows : Bool) : Link :=
  { s with
    chan := { s.chan with sent := s.chan.sent + 1 }
    sender := workerReliableAdd s.sender grows (s.nextEntry ch now)
    flying := packet s.chan.sent :: s.flying
    unregistered := if !grows && (s.sender.tryAdd (s.nextEntry ch now)).isNone then
        s.chan.sent :: s.unregistered
      else s.unregistered }

def Link.flush (s : Link) (w : Sending ℕ) : Link :=
  { s with
    sender := w.state
    flying := w.deferred.map (fun e => (e.seq, e.payload)) ++ s.flying
    lost := w.lost ++ s.lost }

def Link.next (s : Link) : LinkEvent → Link
  | .send now grows => s.send ch now grows
  | .timer now => s.flush (workerReliableRetransmit s.sender now)
  | .arrive n =>
    { s with
      chan := s.chan.arrive n
      flying := s.flying.erase (packet n)
      replies := s.chan.replyTo n ++ s.replies }
  | .reply now a =>
    { s.flush (workerRecvAck s.sender now ch a.2) with replies := s.replies.erase a }
  | .lose d => { s with flying := s.flying.erase d }
  | .copy d => { s with flying := d :: s.flying }
  | .loseReply a => { s with replies := s.replies.erase a }
  | .copyReply a => { s with replies := a :: s.replies }

end

def Link.Enabled (s : Link) : LinkEvent → Prop
  | .send _ _ => True
  | .timer _ => True
  | .arrive n => packet n ∈ s.flying
  | .reply _ a => a ∈ s.replies
  | .lose d => d ∈ s.flying
  | .copy d => d ∈ s.flying
  | .loseReply a => a ∈ s.replies
  | .copyReply a => a ∈ s.replies

instance Link.decidableEnabled (s : Link) : (e : LinkEvent) → Decidable (s.Enabled e)
  | .send _ _ => .isTrue trivial
  | .timer _ => .isTrue trivial
  | .arrive n => inferInstanceAs (Decidable (packet n ∈ s.flying))
  | .reply _ a => inferInstanceAs (Decidable (a ∈ s.replies))
  | .lose d => inferInstanceAs (Decidable (d ∈ s.flying))
  | .copy d => inferInstanceAs (Decidable (d ∈ s.flying))
  | .loseReply a => inferInstanceAs (Decidable (a ∈ s.replies))
  | .copyReply a => inferInstanceAs (Decidable (a ∈ s.replies))

def linkSystem (timeout maxRetransmits : ℕ) (ch : BitVec 8) : System Link LinkEvent :=
  System.machine (.fresh timeout maxRetransmits) Link.Enabled (Link.next ch)

/-- What the sender's table calls packet `n` of channel `ch`. -/
def packetKey (ch : BitVec 8) (n : ℕ) : BitVec 32 × BitVec 8 × Bool × ℕ := (wire n, ch, false, n)

/-- The packet the receiver expects next is the one at its cursor, and that one is not numbered
yet, or an active entry of the sender's table, or in flight. -/
def Link.Moving (ch : BitVec 8) (s : Link) : Prop :=
  s.chan.receiver.next = wire s.chan.cursor ∧
    (s.chan.sent ≤ s.chan.cursor ∨ s.sender.Pending (packetKey ch s.chan.cursor) ∨
      packet s.chan.cursor ∈ s.flying)

/-- The sender has let go of packet `n`: given up after all its retransmissions, or never
registered because the table was full and could not grow. -/
def Link.Abandoned (s : Link) (n : ℕ) : Prop :=
  (∃ e ∈ s.lost, e.payload = n ∧ e.Exhausted) ∨ n ∈ s.unregistered

def Channel.Got (s : Channel) (n : ℕ) : Prop := n < s.cursor ∨ s.receiver.Holds n

/-- No packet is handled half the number space away from where the receiver stands, and no reply
while another pending packet has the 32 bits of the packet it answers. -/
def Link.Near (s : Link) : LinkEvent → Prop
  | .arrive n => s.chan.cursor ≤ n + 2 ^ 31 ∧ n < s.chan.cursor + 2 ^ 31
  | .reply _ a => ∀ i < s.sender.table.capacity, ∀ e ∈ s.sender.table.slot i,
    e.seq = wire a.1 → e.payload = a.1
  | _ => True

instance Link.decidableNear (s : Link) : (e : LinkEvent) → Decidable (s.Near e)
  | .arrive _ => inferInstanceAs (Decidable (_ ∧ _))
  | .reply _ a =>
    inferInstanceAs (Decidable (∀ i < s.sender.table.capacity, ∀ e ∈ s.sender.table.slot i,
      e.seq = wire a.1 → e.payload = a.1))
  | .send _ _ => .isTrue trivial
  | .timer _ => .isTrue trivial
  | .lose _ => .isTrue trivial
  | .copy _ => .isTrue trivial
  | .loseReply _ => .isTrue trivial
  | .copyReply _ => .isTrue trivial

theorem cursor_fresh {s : Channel} (h : s.Ordered) (hs : s.receiver.started = false) :
    s.cursor = 0 := by
  have hd := (h.idle hs).1
  simp [Channel.cursor, Channel.first, hd]

theorem cursor_of_same {s t : Channel} (hd : t.delivered = s.delivered) : t.cursor = s.cursor := by
  rw [Channel.cursor, Channel.first, hd, Channel.cursor, Channel.first]

theorem cursor_of_append {s t : Channel} (hne : s.delivered ≠ [])
    (hd : t.delivered = s.delivered ++ out) : t.cursor = s.cursor + out.length := by
  rw [Channel.cursor, first_of_append hne hd, hd, List.length_append, Channel.cursor,
    Nat.add_assoc]

theorem got_arrive {s t : Channel} (h : s.Ordered) (harr : s.Arrival n t) (hm : s.Got m) :
    t.Got m := by
  cases harr with
  | first hs =>
    cases hm with
    | inl hlt =>
      rw [cursor_fresh h hs] at hlt
      omega
    | inr hholds => exact absurd hholds (h.not_holds hs m)
  | late _ _ _ hr hd =>
    have hcursor := cursor_of_same hd
    rwa [Channel.Got, hcursor, hr]
  | next k hs _ hd hh =>
    have hcursor := cursor_of_append (h.started hs).2 hd
    rw [List.length_map, List.length_range'] at hcursor
    rw [Channel.Got, hcursor, hh]
    cases hm with
    | inl hlt => exact Or.inl (by omega)
    | inr hholds =>
      rcases Nat.lt_or_ge m (s.cursor + k + 1) with hlt | hge
      · exact Or.inl hlt
      · exact Or.inr ⟨hholds, hge⟩
  | ahead _ _ _ hd hh =>
    have hcursor := cursor_of_same hd
    rw [Channel.Got, hcursor, hh]
    exact hm.imp id Or.inl
  | drop _ ht => rwa [ht]

theorem replyTo_got {s : Channel} (h : s.Ordered) (harr : s.Arrival n (s.arrive n))
    (ha : a ∈ s.replyTo n) : a.1 = n ∧ a.2.seq = wire n ∧ (s.arrive n).Got n := by
  have hsplit : (s.arrive n).emitted = s.emitted ++ s.replyTo n := rfl
  have hone : ∀ reply : Reply, (s.arrive n).emitted = s.emitted ++ [(n, reply)] →
      a = (n, reply) := by
    intro reply he
    rw [hsplit] at he
    rw [List.append_cancel_left he] at ha
    exact List.mem_singleton.mp ha
  generalize s.arrive n = t at harr hsplit hone ⊢
  cases harr with
  | first hs hd _ he =>
    rw [hone _ he]
    refine ⟨rfl, rfl, Or.inl ?_⟩
    simp [Channel.cursor, Channel.first, hd]
  | late hs hn _ hr hd he =>
    rw [hone _ he]
    refine ⟨rfl, rfl, got_arrive h (.late hs hn ‹_› hr hd he) (Or.inl hn)⟩
  | next k hs hn hd hh hrun he =>
    rw [hone _ he]
    have hcursor := cursor_of_append (h.started hs).2 hd
    rw [List.length_map, List.length_range'] at hcursor
    exact ⟨rfl, rfl, Or.inl (by omega)⟩
  | ahead hs hlt hw hd hh he =>
    rw [hone _ he]
    exact ⟨rfl, rfl, Or.inr ((hh n).mpr (Or.inr rfl))⟩
  | drop hs ht =>
    rw [ht] at hsplit
    have hnil := List.append_cancel_left (hsplit.symm.trans (List.append_nil _).symm)
    rw [hnil] at ha
    simp at ha

theorem next_eq_cursor {s : Channel} (h : s.Ordered) : s.receiver.next = wire s.cursor := by
  cases hs : s.receiver.started with
  | false =>
    rw [(h.idle hs).2.2, cursor_fresh h hs]
    rfl
  | true => exact (h.started hs).1.next

theorem not_got_cursor {s : Channel} (h : s.Ordered) : ¬ s.Got s.cursor := by
  rintro (hlt | hholds)
  · exact Nat.lt_irrefl _ hlt
  · cases hs : s.receiver.started with
    | false => exact h.not_holds hs _ hholds
    | true => exact (h.started hs).1.drained hholds

structure Link.Inv (ch : BitVec 8) (s : Link) : Prop where
  ordered : s.chan.Ordered
  capacity : 0 < s.sender.table.capacity
  pending : ∀ k, s.sender.Pending k → ∃ n < s.chan.sent, k = packetKey ch n
  flying : ∀ d ∈ s.flying, ∃ n < s.chan.sent, d = packet n
  replies : ∀ a ∈ s.replies, a.2.seq = wire a.1 ∧ a.1 < s.chan.sent ∧ s.chan.Got a.1
  exhausted : ∀ e ∈ s.lost, e.Exhausted
  accounted : ∀ n < s.chan.sent,
    s.sender.Pending (packetKey ch n) ∨ s.chan.Got n ∨ s.Abandoned n

theorem Link.inv_fresh (timeout maxRetransmits : ℕ) (ch : BitVec 8) :
    (Link.fresh timeout maxRetransmits).Inv ch where
  ordered := Channel.inv_fresh.ordered
  capacity := Nat.zero_lt_succ _
  pending k hk := by
    obtain ⟨e, he, _⟩ := hk
    exact absurd he (ProbeTable.not_mem_empty _)
  flying := by simp [Link.fresh]
  replies := by simp [Link.fresh]
  exhausted := by simp [Link.fresh]
  accounted := by simp [Link.fresh, Channel.fresh]

theorem ordered_sent {s : Channel} (h : s.Ordered) (n : ℕ) :
    ({ s with sent := n } : Channel).Ordered :=
  ⟨h.idle, h.started, h.delivered⟩

namespace Link.Inv

variable {ch : BitVec 8} {s : Link}

theorem send (h : s.Inv ch) (now : ℕ) (grows : Bool) : (s.send ch now grows).Inv ch := by
  have hkey : (s.nextEntry ch now).key = packetKey ch s.chan.sent := rfl
  have hothers := fun k => @workerReliableAdd_others _ (s.nextEntry ch now) _ h.capacity grows k
  refine ⟨ordered_sent h.ordered _, workerReliableAdd_capacity h.capacity _ _, ?_, ?_, ?_,
    h.exhausted, ?_⟩
  · intro k hk
    cases (hothers k).1 hk with
    | inl hk =>
      obtain ⟨n, hn, rfl⟩ := h.pending k hk
      exact ⟨n, Nat.lt_succ_of_lt hn, rfl⟩
    | inr hk => exact ⟨s.chan.sent, Nat.lt_succ_self _, hk.trans hkey⟩
  · intro d hd
    cases List.mem_cons.mp hd with
    | inl hd => exact ⟨s.chan.sent, Nat.lt_succ_self _, hd⟩
    | inr hd =>
      obtain ⟨n, hn, rfl⟩ := h.flying d hd
      exact ⟨n, Nat.lt_succ_of_lt hn, rfl⟩
  · intro a ha
    obtain ⟨hseq, hlt, hgot⟩ := h.replies a ha
    exact ⟨hseq, Nat.lt_succ_of_lt hlt, hgot⟩
  · intro n hn
    rcases Nat.lt_succ_iff_lt_or_eq.mp hn with hlt | rfl
    · rcases h.accounted n hlt with hp | hg | ⟨e, he, hex⟩ | hun
      · exact Or.inl ((hothers _).2 hp)
      · exact Or.inr (Or.inl hg)
      · exact Or.inr (Or.inr (Or.inl ⟨e, he, hex⟩))
      · refine Or.inr (Or.inr (Or.inr ?_))
        simp only [Link.send]
        split
        · exact List.mem_cons_of_mem _ hun
        · exact hun
    · by_cases hroom : grows = true ∨ s.sender.tryAdd (s.nextEntry ch now) ≠ none
      · exact Or.inl ((workerReliableAdd_pending h.capacity hroom _).mpr (Or.inr hkey.symm))
      · simp only [not_or, Bool.not_eq_true, not_not] at hroom
        refine Or.inr (Or.inr (Or.inr ?_))
        simp [Link.send, hroom]

theorem flush (h : s.Inv ch) {w w' : Sending ℕ} (hw : w.Keeps w') (hlost : w.lost = [])
    (hdeferred : w.deferred = []) (hsize : w.state.table.capacity = s.sender.table.capacity)
    (hold : ∀ k, w.state.Pending k → s.sender.Pending k)
    (hacked : ∀ k, s.sender.Pending k → w.state.Pending k ∨
      ∃ n, k = packetKey ch n ∧ s.chan.Got n) : (s.flush w').Inv ch := by
  refine ⟨h.ordered, ?_, fun k hk => h.pending k (hold k (hw.old k hk)), ?_, h.replies, ?_, ?_⟩
  · have hpos := h.capacity
    rwa [← hsize, ← hw.size] at hpos
  · intro d hd
    cases List.mem_append.mp hd with
    | inl hd =>
      obtain ⟨e, he, rfl⟩ := List.mem_map.mp hd
      have hk := (hw.deferred e he).resolve_left (by simp [hdeferred])
      obtain ⟨n, hn, hkey⟩ := h.pending _ (hold _ hk)
      refine ⟨n, hn, ?_⟩
      have hseq : e.seq = wire n := congrArg Prod.fst hkey
      have hpay : e.payload = n := congrArg (fun k => k.2.2.2) hkey
      rw [hseq, hpay]
    | inr hd => exact h.flying d hd
  · intro e he
    cases List.mem_append.mp he with
    | inl he => exact (hw.exhausted e he).resolve_left (by simp [hlost])
    | inr he => exact h.exhausted e he
  · intro n hn
    rcases h.accounted n hn with hp | hg | ⟨e, he, hex⟩ | hun
    · cases hacked _ hp with
      | inl hp =>
        cases hw.kept _ hp with
        | inl hp => exact Or.inl hp
        | inr hgone =>
          obtain ⟨e, he, hkey⟩ := hgone
          have hpay : e.payload = n := congrArg (fun k => k.2.2.2) hkey
          have hex := (hw.exhausted e he).resolve_left (by simp [hlost])
          exact Or.inr (Or.inr (Or.inl ⟨e, List.mem_append_left _ he, hpay, hex⟩))
      | inr hgot =>
        obtain ⟨m, hkey, hgot⟩ := hgot
        obtain rfl : n = m := congrArg (fun k => k.2.2.2) hkey
        exact Or.inr (Or.inl hgot)
    · exact Or.inr (Or.inl hg)
    · exact Or.inr (Or.inr (Or.inl ⟨e, List.mem_append_right _ he, hex⟩))
    · exact Or.inr (Or.inr (Or.inr hun))

theorem timer (h : s.Inv ch) (now : ℕ) :
    (s.flush (workerReliableRetransmit s.sender now)).Inv ch :=
  h.flush (workerReliableRetransmit_keeps _ _) rfl rfl rfl (fun _ => id) (fun _ => Or.inl)

theorem reply (h : s.Inv ch) (ha : a ∈ s.replies) (hnear : s.Near (.reply now a)) :
    (s.flush (workerRecvAck s.sender now ch a.2)).Inv ch := by
  obtain ⟨hseq, _, hgot⟩ := h.replies a ha
  have hack := fun k => workerReliableAck_pending s.sender a.2.seq ch false k
  have hsize := workerReliableAck_capacity s.sender a.2.seq ch false
  have hacked : ∀ k, s.sender.Pending k →
      (workerReliableAck s.sender a.2.seq ch false).Pending k ∨
        ∃ n, k = packetKey ch n ∧ s.chan.Got n := by
    intro k hk
    cases (hack k).2 hk with
    | inl hk => exact Or.inl hk
    | inr hmatch =>
      obtain ⟨n, _, rfl⟩ := h.pending k hk
      obtain ⟨e, he, hkey⟩ := hk
      have heseq : e.seq = wire n := congrArg Prod.fst hkey
      have hepay : e.payload = n := congrArg (fun k => k.2.2.2) hkey
      have hn : wire n = wire a.1 := hmatch.1.trans hseq
      obtain ⟨i, hi, hslot⟩ := he
      have hown := hnear i hi e hslot (heseq.trans hn)
      rw [hepay] at hown
      exact Or.inr ⟨n, rfl, hown ▸ hgot⟩
  have hold := fun k => (hack k).1
  cases hreply : a.2 with
  | ack seq =>
    rw [hreply] at hold hacked hsize
    exact h.flush (.refl ⟨workerReliableAck s.sender seq ch false, [], []⟩) rfl rfl hsize hold hacked
  | sack seq cumulative bitmap =>
    rw [hreply] at hold hacked hsize
    exact h.flush (workerHandleSack_keeps _ _ _ _ _) rfl rfl hsize hold hacked

theorem arrive (h : s.Inv ch) (hin : packet n ∈ s.flying) (hnear : s.Near (.arrive n)) :
    (s.next ch (.arrive n)).Inv ch := by
  obtain ⟨hord, harr⟩ := h.ordered.arrive (Channel.placed_of_near h.ordered hnear.1 hnear.2)
  have hsent : (s.chan.arrive n).sent = s.chan.sent := rfl
  refine ⟨hord, h.capacity, h.pending, fun d hd => h.flying d (List.mem_of_mem_erase hd), ?_,
    h.exhausted, ?_⟩
  · intro a ha
    cases List.mem_append.mp ha with
    | inl ha =>
      obtain ⟨rfl, hseq, hgot⟩ := replyTo_got h.ordered harr ha
      obtain ⟨m, hm, heq⟩ := h.flying _ hin
      obtain rfl : a.1 = m := congrArg Prod.snd heq
      exact ⟨hseq, hm, hgot⟩
    | inr ha =>
      obtain ⟨hseq, hlt, hgot⟩ := h.replies a ha
      exact ⟨hseq, hlt, got_arrive h.ordered harr hgot⟩
  · intro m hm
    rcases h.accounted m hm with hp | hg | hab
    · exact Or.inl hp
    · exact Or.inr (Or.inl (got_arrive h.ordered harr hg))
    · exact Or.inr (Or.inr hab)

theorem next (h : s.Inv ch) (hnear : s.Near e) (hen : s.Enabled e) : (s.next ch e).Inv ch := by
  cases e with
  | send now grows => exact h.send now grows
  | timer now => exact h.timer now
  | arrive n => exact h.arrive hen hnear
  | reply now a =>
    have h' := h.reply hen hnear
    exact ⟨h'.ordered, h'.capacity, h'.pending, h'.flying,
      fun b hb => h'.replies b (List.mem_of_mem_erase hb), h'.exhausted, h'.accounted⟩
  | lose d =>
    exact ⟨h.ordered, h.capacity, h.pending, fun d hd => h.flying d (List.mem_of_mem_erase hd),
      h.replies, h.exhausted, h.accounted⟩
  | copy d =>
    refine ⟨h.ordered, h.capacity, h.pending, fun d' hd => ?_, h.replies, h.exhausted, h.accounted⟩
    cases List.mem_cons.mp hd with
    | inl hd => exact h.flying d' (hd ▸ hen)
    | inr hd => exact h.flying d' hd
  | loseReply a =>
    exact ⟨h.ordered, h.capacity, h.pending, h.flying,
      fun b hb => h.replies b (List.mem_of_mem_erase hb), h.exhausted, h.accounted⟩
  | copyReply a =>
    refine ⟨h.ordered, h.capacity, h.pending, h.flying, fun b hb => ?_, h.exhausted, h.accounted⟩
    cases List.mem_cons.mp hb with
    | inl hb => exact h.replies b (hb ▸ hen)
    | inr hb => exact h.replies b hb

theorem moving_or_abandoned (h : s.Inv ch) : s.Moving ch ∨ s.Abandoned s.chan.cursor := by
  have hnext := next_eq_cursor h.ordered
  rcases Nat.lt_or_ge s.chan.cursor s.chan.sent with hlt | hge
  · rcases h.accounted _ hlt with hp | hg | hab
    · exact Or.inl ⟨hnext, Or.inr (Or.inl hp)⟩
    · exact absurd hg (not_got_cursor h.ordered)
    · exact Or.inr hab
  · exact Or.inl ⟨hnext, Or.inl hge⟩

end Link.Inv

/-- The receiver never waits for a packet that nobody sends any more, except one that the sender
has abandoned. -/
theorem awaited_moving_or_abandoned
    (h : ((linkSystem timeout maxRetransmits ch).restrict Link.Near).Reachable s) :
    s.Moving ch ∨ s.Abandoned s.chan.cursor := by
  suffices s.Inv ch from this.moving_or_abandoned
  refine h.invariant ?_ ?_
  · rintro s rfl
    exact Link.inv_fresh _ _ _
  · rintro s e t _ hinv ⟨hnear, hen, rfl⟩
    exact hinv.next hnear hen

theorem awaited_moving_or_abandoned_two :
    Link.Moving 2 (([.send 0 true, .send 0 true, .arrive 1, .arrive 0, .send 200 true] :
      List LinkEvent).foldl (Link.next 2) (.fresh 200000 5)) ∨
    Link.Abandoned (([.send 0 true, .send 0 true, .arrive 1, .arrive 0, .send 200 true] :
      List LinkEvent).foldl (Link.next 2) (.fresh 200000 5)) 2 := by
  apply @awaited_moving_or_abandoned 200000 5 2 _
  rw [linkSystem, System.machine_restrict]
  exact System.reachable_foldl _ (by decide +kernel)

/-- A packet that is sent finds one of the slots `used`. -/
def Link.SendsInto (ch : BitVec 8) (used : List ℕ) (s : Link) : LinkEvent → Prop
  | .send now _ => ∃ idx ∈ used,
    (ProbeTable.insert entryHash s.sender.table (s.nextEntry ch now)).map Prod.snd = some idx
  | _ => True

instance Link.decidableSendsInto (ch : BitVec 8) (used : List ℕ) (s : Link) :
    (e : LinkEvent) → Decidable (s.SendsInto ch used e)
  | .send now _ => inferInstanceAs (Decidable (∃ idx ∈ used,
      (ProbeTable.insert entryHash s.sender.table (s.nextEntry ch now)).map Prod.snd = some idx))
  | .timer _ => .isTrue trivial
  | .arrive _ => .isTrue trivial
  | .reply _ _ => .isTrue trivial
  | .lose _ => .isTrue trivial
  | .copy _ => .isTrue trivial
  | .loseReply _ => .isTrue trivial
  | .copyReply _ => .isTrue trivial

theorem next_free {s : Link} (hfree : ∀ i ∉ used, s.sender.table.slot i = none)
    (h : s.SendsInto ch used e) : ∀ i ∉ used, (s.next ch e).sender.table.slot i = none := by
  intro i hi
  cases e with
  | send now grows =>
    obtain ⟨_, hidx, hsnd⟩ := h
    obtain ⟨⟨t, idx⟩, hins, rfl⟩ := Option.map_eq_some_iff.mp hsnd
    have hadd : (s.next ch (.send now grows)).sender.table = t := by
      simp only [Link.next, Link.send, workerReliableAdd, Reliable.tryAdd, hins,
        Option.map_some]
    obtain ⟨_, _, rfl⟩ := ProbeTable.insert_slot hins
    have hne : i ≠ idx := fun heq => hi (heq ▸ hidx)
    rw [hadd, ProbeTable.slot_set_of_ne _ hne]
    exact hfree i hi
  | timer now => exact (workerReliableRetransmit_keeps _ _).free i (hfree i hi)
  | reply now a => exact workerRecvAck_free (hfree i hi) _ _ _
  | arrive n => exact hfree i hi
  | lose d => exact hfree i hi
  | copy d => exact hfree i hi
  | loseReply a => exact hfree i hi
  | copyReply a => exact hfree i hi

theorem run_free (ch : BitVec 8) (used : List ℕ) (es : List LinkEvent) {s : Link}
    (hfree : ∀ i ∉ used, s.sender.table.slot i = none)
    (h : System.Enables (Link.SendsInto ch used) (Link.next ch) s es) :
    ∀ i ∉ used, (es.foldl (Link.next ch) s).sender.table.slot i = none := by
  induction es generalizing s with
  | nil => exact hfree
  | cons e es ih => exact ih (next_free hfree h.1) h.2

def lossyRun : List LinkEvent :=
  [.send 0 true, .send 0 true, .arrive 0, .lose (packet 1), .reply 100 (0, .ack 0),
   .timer 200000, .lose (packet 1), .timer 400000, .lose (packet 1), .timer 600000,
   .lose (packet 1), .timer 800000, .lose (packet 1), .timer 1000000, .lose (packet 1),
   .timer 1200000]

-- The sender gives packet 1 up after five retransmissions, and the receiver waits for it.
theorem awaited_given_up : ¬ ∀ timeout maxRetransmits ch s,
    (linkSystem timeout maxRetransmits ch).Reachable s → s.Moving ch := by
  intro h
  have hrun := h 200000 5 2 _ (System.reachable_foldl lossyRun (by decide +kernel))
  have hfree := @run_free 2 [74, 75] lossyRun (.fresh 200000 5) (fun _ _ => rfl) (by decide +kernel)
  rcases hrun.2 with hsent | ⟨e, ⟨i, _, hslot⟩, _⟩ | hflying
  · revert hsent
    decide +kernel
  · by_cases hi : i ∈ [74, 75]
    · have hempty : ∀ j ∈ [74, 75],
          (lossyRun.foldl (Link.next 2) (.fresh 200000 5)).sender.table.slot j = none := by
        decide +kernel
      exact absurd ((hempty i hi).symm.trans hslot) (by simp)
    · exact absurd ((hfree i hi).symm.trans hslot) (by simp)
  · revert hflying
    decide +kernel

end YumiBrowser.Udp
