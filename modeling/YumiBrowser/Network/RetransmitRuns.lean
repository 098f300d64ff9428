import Mathlib.Algebra.Ring.Defs
import YumiBrowser.Network.RetransmitBooks

universe u

namespace YumiBrowser.Udp

open Transition

variable {α : Type u} {span limit now time : ℕ}

section Progress

variable {w w' : Sending α} {e : ReliableEntry α} {idx : ℕ}

theorem Round.progress (h : Round now w w') (hpos : 0 < span) (hs : w.state.Scheduled span limit now)
    (hle : time ≤ now) :
    w'.state.heap.dueBy time + w'.deferred.length ≤ w.state.heap.dueBy time + w.deferred.length ∨
      w'.state.heap.dueBy time = 0 := by
  obtain ⟨top, htop, _, hdue⟩ := h.dueBy hpos hs
  have hless := hdue time hle
  have hlength : w'.deferred.length ≤ w.deferred.length + 1 := by
    cases h with
    | stale => exact Nat.le_succ _
    | later => exact Nat.le_succ _
    | giveUp => exact Nat.le_succ _
    | resend top e => exact (List.length_append ..).le
  split at hless
  · exact Or.inl (by omega)
  · next hlater =>
    have hzero : w.state.heap.dueBy time = 0 := by
      refine RetxHeap.Ordered.dueBy_eq_zero hs.ordered fun top' htop' => ?_
      rw [htop] at htop'
      exact Option.some.inj htop' ▸ Nat.lt_of_not_le hlater
    exact Or.inr (by omega)

theorem Round.dueBy_le (h : Round now w w') (hpos : 0 < span) (hs : w.state.Scheduled span limit now)
    (hle : time ≤ now) : w'.state.heap.dueBy time ≤ w.state.heap.dueBy time := by
  obtain ⟨_, _, _, hdue⟩ := h.dueBy hpos hs
  have hless := hdue time hle
  omega

theorem Rounds.progress (h : Rounds now w w') (hpos : 0 < span) (hs : w.state.Scheduled span limit now)
    (hle : time ≤ now) : w'.state.Scheduled span limit now ∧
      (w'.state.heap.dueBy time + w'.deferred.length ≤ w.state.heap.dueBy time + w.deferred.length ∨
        w'.state.heap.dueBy time = 0) := by
  induction h with
  | refl => exact ⟨hs, Or.inl (Nat.le_refl _)⟩
  | tail _ hround ih =>
    refine ⟨hround.scheduled ih.1, ?_⟩
    have hnext := hround.progress hpos ih.1 hle
    have hless := hround.dueBy_le hpos ih.1 hle
    have hprev := ih.2
    omega

theorem Round.exhausted (h : Round now w w') (hex : e.Exhausted) (hget : w.state.table.get idx = some e) :
    w'.state.table.get idx = some e ∨ e ∈ w'.lost := by
  cases h with
  | stale => exact Or.inl hget
  | later => exact Or.inl hget
  | giveUp top e' hfound =>
    by_cases hidx : idx = top.tableIdx
    · subst hidx
      obtain rfl := Option.some.inj (hget.symm.trans hfound.get)
      exact Or.inr (List.mem_append_right _ (List.mem_singleton_self _))
    · exact Or.inl ((ProbeTable.get_set_of_ne _ hidx _).trans hget)
  | resend top e' hfound _ hnot =>
    have hidx : idx ≠ top.tableIdx := by
      rintro rfl
      obtain rfl := Option.some.inj (hget.symm.trans hfound.get)
      exact hnot hex
    exact Or.inl ((ProbeTable.get_set_of_ne _ hidx _).trans hget)

theorem Round.lost (h : Round now w w') (hlost : e ∈ w.lost) : e ∈ w'.lost := by
  cases h with
  | stale => exact hlost
  | later => exact hlost
  | giveUp => exact List.mem_append_left _ hlost
  | resend => exact hlost

theorem Rounds.exhausted (h : Rounds now w w') (hex : e.Exhausted) (hget : w.state.table.get idx = some e) :
    w'.state.table.get idx = some e ∨ e ∈ w'.lost := by
  induction h with
  | refl => exact Or.inl hget
  | tail _ hround ih =>
    cases ih with
    | inl hget => exact hround.exhausted hex hget
    | inr hlost => exact Or.inr (hround.lost hlost)

end Progress

section Timer

variable {s : Reliable α} {e : ReliableEntry α}

theorem workerReliableRetransmit_serves (hpos : 0 < span) (hs : s.Scheduled span limit now)
    (hroom : (workerReliableRetransmit s now).deferred.length < deferredSendMax) :
    (∀ e ∈ (workerReliableRetransmit s now).state.table, now < e.sendTime + e.timeout) ∧
    ∀ e ∈ s.table, e.sendTime + e.timeout ≤ now → e.Exhausted →
      e ∈ (workerReliableRetransmit s now).lost := by
  obtain ⟨w, hrounds, hhalt⟩ :=
    retransmitLoop_halts (w := ⟨s, [], []⟩) hpos hs Array.countP_le_size
  obtain ⟨hw, _⟩ := hrounds.progress hpos hs (Nat.le_refl now)
  have hend : workerReliableRetransmit s now = w ∧
      ∀ top, w.state.heap[0]? = some top → now < top.expiry := by
    unfold workerReliableRetransmit at hroom ⊢
    generalize retransmitLoop now (Array.size s.heap) ⟨s, [], []⟩ = w' at hhalt hroom ⊢
    cases hhalt with
    | idle hidle => exact ⟨rfl, hidle⟩
    | full top e _ hfull => exact absurd hroom (Nat.not_lt_of_le hfull)
  obtain ⟨hend, hidle⟩ := hend
  have hzero := RetxHeap.Ordered.dueBy_eq_zero hw.ordered hidle
  have hserved : ∀ e ∈ w.state.table, now < e.sendTime + e.timeout := by
    intro e he
    by_contra hdue
    have hcount := hw.countP_le_dueBy now
    have hmem := ProbeTable.mem_elements.mpr he
    have hsome : 0 < w.state.table.elements.countP (ReliableEntry.dueBy now) :=
      List.countP_pos_iff.mpr ⟨e, hmem, by simpa [ReliableEntry.dueBy] using Nat.le_of_not_lt hdue⟩
    omega
  rw [hend]
  refine ⟨hserved, fun e he hdue hex => ?_⟩
  obtain ⟨idx, hidx, hslot⟩ := he
  have hget : s.table.get idx = some e := by rw [ProbeTable.get, if_pos hidx, hslot]
  refine (hrounds.exhausted hex hget).resolve_left fun hkept => ?_
  have := hserved e ⟨idx, ProbeTable.get_eq_some hkept⟩
  omega

theorem workerReliableRetransmit_progress (hpos : 0 < span) (hs : s.Scheduled span limit now)
    (hle : time ≤ now) :
    (workerReliableRetransmit s now).state.heap.dueBy time +
        (workerReliableRetransmit s now).deferred.length ≤ s.heap.dueBy time ∨
      (workerReliableRetransmit s now).state.heap.dueBy time = 0 := by
  obtain ⟨w, hrounds, hhalt⟩ :=
    retransmitLoop_halts (w := ⟨s, [], []⟩) hpos hs Array.countP_le_size
  obtain ⟨_, hprogress⟩ := hrounds.progress hpos hs hle
  have hdeferred : (workerReliableRetransmit s now).deferred = w.deferred := by
    unfold workerReliableRetransmit
    generalize retransmitLoop now (Array.size s.heap) ⟨s, [], []⟩ = w' at hhalt ⊢
    cases hhalt with
    | idle => rfl
    | full => rfl
  have hdue : (workerReliableRetransmit s now).state.heap.dueBy time = w.state.heap.dueBy time := hhalt.dueBy time
  rw [hdeferred, hdue]
  exact hprogress

end Timer

section Backlog

variable {s s' : Reliable α} {e : ReliableEntry α}

theorem tryAdd_dueBy (hadd : s.tryAdd e = some s') (hlater : time < e.sendTime + e.timeout) :
    s'.heap.dueBy time = s.heap.dueBy time := by
  obtain ⟨⟨t, i⟩, hins, rfl⟩ := Option.map_eq_some_iff.mp hadd
  apply (RetxHeap.dueBy_insert time).trans
  have hexpiry : ¬ (retxOf e (e.sendTime + e.timeout) i).expiry ≤ time := Nat.not_le_of_lt hlater
  rw [if_neg hexpiry, Nat.add_zero]

theorem workerReliableAdd_dueBy (hs : s.Scheduled span limit now) (hlater : time < e.sendTime + e.timeout) :
    (workerReliableAdd s true e).heap.dueBy time ≤ s.heap.dueBy time := by
  cases workerReliableAdd_cases hs.room e with
  | inl hadd => exact (tryAdd_dueBy hadd hlater).le
  | inr hadd => exact (tryAdd_dueBy hadd hlater).le.trans (hs.dueBy_resize time)

theorem workerReliableAck_heap (s : Reliable α) (seq : BitVec 32) (channel : BitVec 8) (probe : Bool) :
    (workerReliableAck s seq channel probe).heap = s.heap := by
  unfold workerReliableAck
  cases workerReliableFind s channel probe seq with
  | none => rfl
  | some idx => rfl

theorem workerHandleSack_heap (s : Reliable α) (now : ℕ) (channel : BitVec 8) (cumulative bitmap : BitVec 32) :
    (workerHandleSack s now channel cumulative bitmap).state.heap = s.heap := by
  have hall : ∀ (is : List ℕ) (w : Sending α),
      (is.foldl (sackBit now channel cumulative bitmap) w).state.heap = w.state.heap := by
    intro is
    induction is with
    | nil => exact fun _ => rfl
    | cons i is ih =>
      intro w
      apply (ih _).trans
      cases sackBit_cases now channel cumulative bitmap w i with
      | inl hsame => rw [hsame]
      | inr hsent =>
        obtain ⟨idx, e, _, hsent⟩ := hsent
        rw [hsent]
        rfl
  exact hall _ _

end Backlog

namespace Pending

variable {cfgTimeout cfgRetransmits : ℕ} {s t : Pending α} {e : ReliableEntry (ℕ × α)}

def Event.isTimer : Event α → Bool
  | .timer _ => true
  | _ => false

theorem Inv.backlog_step (h : s.Inv span limit) (hpos : 0 < span) {event : Event α} (hen : Enabled s event)
    (hdue : e.sendTime + e.timeout ≤ s.clock) (hkept : e ∈ (s.next event).rel.table) :
    (s.next event).rel.heap.dueBy (e.sendTime + e.timeout) + (if event.isTimer then deferredSendMax else 0) ≤
      s.rel.heap.dueBy (e.sendTime + e.timeout) := by
  cases event with
  | add now channel probe seq payload =>
    refine workerReliableAdd_dueBy h.scheduled (lt_of_le_of_lt (hdue.trans hen) ?_)
    have htimeout : 0 < s.rel.timeout := h.scheduled.timeout.symm ▸ hpos
    exact Nat.lt_add_of_pos_right htimeout
  | ack now seq channel probe => exact (congrArg (RetxHeap.dueBy · _) (workerReliableAck_heap _ _ _ _)).le
  | sack now channel cumulative bitmap =>
    exact (congrArg (RetxHeap.dueBy · _) (workerHandleSack_heap _ _ _ _ _)).le
  | resize => exact h.scheduled.dueBy_resize _
  | timer now =>
    have hs := h.scheduled.mono hen
    have hs' := (h.timer hpos hen).scheduled
    have hfull : deferredSendMax ≤ (workerReliableRetransmit s.rel now).deferred.length := by
      by_contra hroom
      have hserved := (workerReliableRetransmit_serves hpos hs (Nat.lt_of_not_le hroom)).1 e hkept
      exact absurd (hdue.trans hen) (Nat.not_le_of_lt hserved)
    have hcount := hs'.countP_le_dueBy (e.sendTime + e.timeout)
    have hsome : 0 < (s.timer now).rel.table.elements.countP (ReliableEntry.dueBy (e.sendTime + e.timeout)) :=
      List.countP_pos_iff.mpr ⟨e, ProbeTable.mem_elements.mpr hkept, by simp [ReliableEntry.dueBy]⟩
    have hle : e.sendTime + e.timeout ≤ now := hdue.trans hen
    have hprogress := workerReliableRetransmit_progress hpos hs hle
    change (workerReliableRetransmit s.rel now).state.heap.dueBy _ + deferredSendMax ≤ _
    change _ ≤ (workerReliableRetransmit s.rel now).state.heap.dueBy _ at hcount
    change 0 < (workerReliableRetransmit s.rel now).state.table.elements.countP _ at hsome
    change (workerReliableRetransmit s.rel now).state.table.elements.countP _ ≤ _ at hcount
    omega

theorem clock_le (event : Event α) (hen : Enabled s event) : s.clock ≤ (s.next event).clock := by
  cases event with
  | add => exact hen
  | ack => exact hen
  | sack => exact hen
  | timer => exact hen
  | resize => exact Nat.le_refl _

theorem backlog_bound {xs : List (System.Step (Pending α) (Event α))}
    (hwalk : (pendingSystem cfgTimeout cfgRetransmits).Walk s xs t)
    (hreach : (pendingSystem cfgTimeout cfgRetransmits).Reachable s)
    (hdue : e.sendTime + e.timeout ≤ s.clock) (hkept : ∀ x ∈ xs, e ∈ x.after.rel.table) :
    deferredSendMax * xs.countP (·.event.isTimer) ≤ s.rel.heap.dueBy (e.sendTime + e.timeout) := by
  induction hwalk with
  | nil => exact Nat.zero_le _
  | @cons s event s' xs t hstep _ ih =>
    have hreach' := hreach.step hstep
    obtain ⟨hen, rfl⟩ := hstep
    have hstep' := (reachable_inv hreach).backlog_step (reliableTimeoutUs_pos cfgTimeout) hen hdue
      (hkept _ (List.mem_cons_self ..))
    have hrest := ih hreach' (hdue.trans (clock_le event hen)) fun x hx => hkept x (List.mem_cons_of_mem _ hx)
    have hcase : deferredSendMax * (if event.isTimer = true then 1 else 0) =
        if event.isTimer = true then deferredSendMax else 0 := by
      rw [mul_ite, Nat.mul_one, Nat.mul_zero]
    rw [List.countP_cons, Nat.mul_add, hcase]
    omega

/-- Everything that holds of pending packets, whatever the sender does. -/
structure Sound (cfgTimeout cfgRetransmits : ℕ) (s : Pending α) : Prop where
  indexed : ∀ idx < s.rel.table.capacity, ∀ e, s.rel.table.slot idx = some e →
    ∃ node ∈ s.rel.heap, node.Tracks idx e
  ordered : s.rel.heap.Ordered
  probes : s.probeInflight = probes s.rel.table.elements
  resized : (s.next .resize).rel.table.elements.Perm s.rel.table.elements
  added : ∀ now channel probe seq payload, s.clock ≤ now →
    (s.add now channel probe seq payload).rel.table.elements.Perm
      (s.rel.newEntry now channel probe seq (s.added, payload) :: s.rel.table.elements)
  terminates : ∀ now rounds, s.clock ≤ now → s.rel.heap.size ≤ rounds →
    retransmitLoop now rounds ⟨s.rel, [], []⟩ = workerReliableRetransmit s.rel now
  /-- A packet is pending, acknowledged or lost, and is so once. -/
  accounts : ∀ n, (s.rel.table.elements.map number).count n + s.acked.count n + s.lost.count n =
    if n < s.added then 1 else 0
  limited : ∀ n, s.retransmitted.count n ≤ maxRetransmits cfgRetransmits
  last : ∀ n ∈ s.lost, s.retransmitted.count n = maxRetransmits cfgRetransmits
  /-- A timer run that has not sent all it may has left nothing that is due, and has reported what
  cannot be sent again. -/
  served : ∀ now, s.clock ≤ now → (workerReliableRetransmit s.rel now).deferred.length < deferredSendMax →
    (∀ e ∈ (s.timer now).rel.table, now < e.sendTime + e.timeout) ∧
    ∀ e ∈ s.rel.table, e.sendTime + e.timeout ≤ now →
      s.retransmitted.count (number e) = maxRetransmits cfgRetransmits → number e ∈ (s.timer now).lost
  /-- Other timer runs cannot pass over a packet for ever. -/
  patience : ∀ e ∈ s.rel.table, e.sendTime + e.timeout ≤ s.clock → ∀ xs t,
    (pendingSystem cfgTimeout cfgRetransmits).Walk s xs t → (∀ x ∈ xs, e ∈ x.after.rel.table) →
      deferredSendMax * xs.countP (·.event.isTimer) ≤ s.rel.heap.dueBy (e.sendTime + e.timeout)

theorem retransmit_sound (h : (pendingSystem cfgTimeout cfgRetransmits).Reachable s) :
    s.Sound cfgTimeout cfgRetransmits := by
  have hinv := reachable_inv h
  have hpos := reliableTimeoutUs_pos cfgTimeout
  have hs := hinv.scheduled
  exact {
    indexed := fun idx hidx e hslot =>
      hs.indexed idx e (by rw [ProbeTable.get, if_pos hidx, hslot])
    ordered := hs.ordered
    probes := hinv.books.probes
    resized := resize_perm s.rel
    added := fun now channel probe seq payload hnow =>
      ((hs.mono hnow).add hs.timeout hs.maxRetransmits (Nat.le_refl _)).2
    terminates := fun now rounds hnow hrounds =>
      retransmitLoop_terminates hpos (hs.mono hnow) hrounds
    accounts := hinv.books.accounts
    limited := hinv.books.limited
    last := hinv.books.last
    served := fun now hnow hroom => by
      obtain ⟨hserved, hlost⟩ := workerReliableRetransmit_serves hpos (hs.mono hnow) hroom
      refine ⟨hserved, fun e he hdue hcount => ?_⟩
      have hex : e.Exhausted := by
        have hself := hinv.books.counts e (ProbeTable.mem_elements.mpr he)
        have hlimit := (hs.uniform e he).2.1
        unfold ReliableEntry.Exhausted
        omega
      exact List.mem_append_left _ (List.mem_map_of_mem (hlost e he hdue hex))
    patience := fun e _ hdue xs t hwalk hkept => backlog_bound hwalk h hdue hkept }

def answered : List (Event Unit) := [.add 10 1 true 7 (), .add 20 1 false 8 (), .ack 30 7 1 true, .timer 200020]

theorem retransmit_sound_answered :
    (answered.foldl next (fresh 0 0 : Pending Unit)).acked = [0] ∧
      (answered.foldl next (fresh 0 0 : Pending Unit)).retransmitted = [1] ∧
      (answered.foldl next (fresh 0 0 : Pending Unit)).Sound 0 0 := by
  refine ⟨by decide +kernel, by decide +kernel, retransmit_sound (System.reachable_foldl answered ?_)⟩
  refine ⟨Nat.zero_le _, ?_, ?_, ?_, trivial⟩
  · change 10 ≤ 20
    decide
  · change 20 ≤ 30
    decide
  · change 30 ≤ 200020
    decide

end Pending

end YumiBrowser.Udp
