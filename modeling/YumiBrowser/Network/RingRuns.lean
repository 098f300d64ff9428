import Mathlib.Algebra.Group.Nat.Defs
import YumiBrowser.Network.RingInvariant

universe u v

namespace YumiBrowser.Udp

open Transition

namespace WorkRing

variable {ι : Type v} {α : Type u} [DecidableEq ι] {s t : WorkRing ι α} {e : Event ι} {blank x : α} {i : ι} {n : ℕ}

theorem Inv.step (h : s.Inv) (hstep : Step s e t) (hwrap : ¬ s.Wraps e) : t.Inv := by
  cases hstep with
  | call i op => exact h.toHead i op
  | room i hp hroom => exact h.toRoom hp hroom
  | full i => exact h.onFull i _
  | retry i => exact h.toHead i _
  | giveUp i => exact h.idle i
  | exchange i hp => exact h.reserve hp hwrap
  | contend i => exact h.onContention i _
  | write i x hp => exact h.write hp x
  | commit i hp => exact h.commit hp
  | look how hc =>
    have hfits := h.consumer
    rw [hc] at hfits
    exact h.setConsumer ⟨rfl, hfits⟩ (by simp [hc])
  | empty hc =>
    have hfits := h.consumer
    rw [hc] at hfits
    exact h.setConsumer hfits.2 (by simp [hc])
  | filled hc hlt =>
    have hfits := h.consumer
    rw [hc] at hfits
    refine h.setConsumer ⟨hfits.1, hfits.2, ?_⟩ (by simp [hc])
    rw [hfits.1, BitVec.lt_def, h.head] at hlt
    exact hlt
  | uncommitted hc =>
    have hfits := h.consumer
    rw [hc] at hfits
    exact h.setConsumer hfits.2.1 (by simp [hc])
  | found hc hready =>
    have hfits := h.consumer
    rw [hc] at hfits
    obtain ⟨rfl, hlength, hlt⟩ := hfits
    refine h.setConsumer ⟨rfl, hlength, ?_⟩ (by simp [hc])
    cases hnone : s.committed s.tail.toNat with
    | some x => rfl
    | none =>
      have hunready := h.unready _ (Nat.le_refl _) (Nat.lt_of_lt_of_le hlt h.room) hnone
      exact absurd hready (by simp [slotOf, hunready])
  | leave hc =>
    have hfits := h.consumer
    rw [hc] at hfits
    exact h.setConsumer hfits.2.1 (by simp [hc])
  | pop hc =>
    have hfits := h.consumer
    rw [hc] at hfits
    obtain ⟨rfl, _⟩ := hfits
    exact h.take hc
  | process hc => exact h.take hc
  | clear hc => exact h.clear hc
  | advance hc => exact h.advance hc

/-- What a ring of work items is for: every committed item comes out once, in the order of the
reservations and as it was committed, and stays in its slot until then. -/
structure Sound (s : WorkRing ι α) : Prop where
  bounded : s.tail.toNat ≤ s.head.toNat ∧ s.head.toNat ≤ s.tail.toNat + ringCapacity
  taken : s.tail.toNat ≤ s.consumed.length ∧ s.consumed.length ≤ s.tail.toNat + 1
  ordered : ∀ n x, s.consumed[n]? = some x → s.committed n = some x
  kept : ∀ n x, s.tail.toNat ≤ n → s.committed n = some x → s.slots (n % ringCapacity) = x
  apart : ∀ i op idx n w, s.producers i = .holding op idx n w → s.committed n = none ∧
    ∀ m, m ≠ n → s.tail.toNat ≤ m → m < s.reserved → m % ringCapacity ≠ idx
  available : s.consumer = .idle → ∀ x, s.committed s.consumed.length = some x → s.peek = some x

omit [DecidableEq ι] in
theorem Inv.sound (h : s.Inv) : s.Sound where
  bounded := h.head ▸ ⟨h.tail, h.room⟩
  taken := by
    have hfits := h.consumer
    cases hc : s.consumer <;> rw [hc] at hfits <;> simp only [Fits] at hfits <;> omega
  ordered := h.contents
  kept := h.slots
  apart i op idx n w hp := by
    obtain ⟨rfl, hn, hlt, hnone⟩ := h.holding i op idx n w hp
    refine ⟨hnone, fun m hne hm hres heq => hne ?_⟩
    exact slot_inj hm (Nat.lt_of_lt_of_le hres h.room) hn (Nat.lt_of_lt_of_le hlt h.room) heq
  available hc x hx := by
    have hfits := h.consumer
    rw [hc] at hfits
    rw [hfits] at hx
    have hlt : s.tail.toNat < s.reserved := by
      by_contra hge
      simp [h.unknown _ (Nat.le_of_not_lt hge)] at hx
    have hready := (h.ready _ x (Nat.le_refl _) hx).resolve_right (by simp [hc])
    have hhead : ¬ s.head ≤ s.tail := by
      rw [BitVec.le_def, h.head]
      exact Nat.not_le_of_lt hlt
    unfold peek
    rw [if_neg hhead, slotOf, if_pos hready, h.slots _ x (Nat.le_refl _) hx]

theorem peek_path (hc : s.consumer = .idle) (hpeek : s.peek = some x) :
    ∃ t : WorkRing ι α, (ringSystem blank).Path s t ∧ t.consumer = .found .peek s.tail ∧
      t.slots (slotOf s.tail) = x := by
  unfold peek at hpeek
  split at hpeek
  · simp at hpeek
  · next hhead =>
    split at hpeek
    · next hready =>
      have hlook : Step s .look (s.setConsumer (.sawTail .peek s.tail)) := .look .peek hc
      have hfilled := Step.filled (s := s.setConsumer (.sawTail .peek s.tail)) rfl (BitVec.not_le.mp hhead)
      have hfound := Step.found (s := s.setConsumer (.sawHead .peek s.tail)) rfl hready
      exact ⟨_, .tail (.tail (.tail .refl hlook) hfilled) hfound, rfl, Option.some.inj hpeek⟩
    · simp at hpeek

/-- Until the head wraps, the ring keeps what it promises. -/
theorem ring_sound (h : ((ringSystem blank).restrict fun s e => ¬ Wraps s e).Reachable s) : s.Sound := by
  refine Inv.sound (System.Reachable.invariant (I := Inv) ?_ ?_ h)
  · rintro s rfl
    exact inv_create blank
  · intro s e t _ hinv hstep
    exact hinv.step hstep.2 hstep.1

theorem unwrapped_step (hs : ((ringSystem blank).restrict fun s e => ¬ Wraps s e).Reachable s)
    (hstep : Step s e t) (hwrap : ¬ s.Wraps e) :
    ((ringSystem blank).restrict fun s e => ¬ Wraps s e).Reachable t := hs.step ⟨hwrap, hstep⟩

-- The second producer's exchange finds the head moved, and it commits before the first does.
theorem ring_sound_overtaken : ∃ s : WorkRing Bool ℕ, s.consumed = [7] ∧ s.peek = some 8 ∧ s.Sound := by
  have hfirst : (0 : BitVec 64) ≠ BitVec.allOnes 64 := by decide
  have hsecond : (0 + 1 : BitVec 64) ≠ BitVec.allOnes 64 := by decide
  have hcreate : ((ringSystem 0).restrict fun s e => ¬ Wraps s e).Reachable (create 0 : WorkRing Bool ℕ) :=
    .init rfl
  have hcall := unwrapped_step hcreate (Step.call false (.push 7) rfl) id
  have hcall' := unwrapped_step hcall (Step.call true (.push 8) rfl) id
  have hroom := unwrapped_step hcall' (Step.room false rfl (by decide)) id
  have hroom' := unwrapped_step hroom (Step.room true rfl (by decide)) id
  have hexchange := unwrapped_step hroom' (Step.exchange false rfl) hfirst
  have hcontend := unwrapped_step hexchange (Step.contend true rfl (.inl (by decide))) id
  have hretried := unwrapped_step hcontend (Step.room true rfl (by decide)) id
  have hexchange' := unwrapped_step hretried (Step.exchange true rfl) hsecond
  have hwrite' := unwrapped_step hexchange' (Step.write true 8 rfl ⟨rfl, rfl⟩) id
  have hcommit' := unwrapped_step hwrite' (Step.commit true rfl rfl) id
  have hlook := unwrapped_step hcommit' (Step.look .pop rfl) id
  have hfilled := unwrapped_step hlook (Step.filled rfl (by decide)) id
  have huncommitted := unwrapped_step hfilled (Step.uncommitted rfl rfl) id
  have hwrite := unwrapped_step huncommitted (Step.write false 7 rfl ⟨rfl, rfl⟩) id
  have hcommit := unwrapped_step hwrite (Step.commit false rfl rfl) id
  have hagain := unwrapped_step hcommit (Step.look .pop rfl) id
  have hsaw := unwrapped_step hagain (Step.filled rfl (by decide)) id
  have hfound := unwrapped_step hsaw (Step.found rfl rfl) id
  have hpop := unwrapped_step hfound (Step.pop rfl) id
  have hclear := unwrapped_step hpop (Step.clear rfl) id
  have hadvance := unwrapped_step hclear (Step.advance rfl) id
  exact ⟨_, rfl, rfl, ring_sound hadvance⟩

section Wrap

structure Rested (s : WorkRing ι α) (n : ℕ) : Prop where
  head : s.head = BitVec.ofNat 64 n
  tail : s.tail = BitVec.ofNat 64 n
  ready : ∀ idx, s.ready idx = false
  producers : ∀ i, s.producers i = .idle
  consumer : s.consumer = .idle
  consumed : s.consumed.length = n
  reserved : s.reserved = n

theorem reachable_step (hs : (ringSystem blank).Reachable s) (hstep : Step s e t) :
    (ringSystem blank).Reachable t := hs.step hstep

theorem Rested.push (h : s.Rested n) (hs : (ringSystem blank).Reachable s) (i : ι) (x : α) :
    ∃ t : WorkRing ι α, (ringSystem blank).Reachable t ∧ t.head = s.head + 1 ∧ t.tail = s.tail ∧
      t.ready = Function.update s.ready (slotOf s.head) true ∧ (∀ i, t.producers i = .idle) ∧
      t.consumer = .idle ∧ t.consumed = s.consumed ∧ t.reserved = s.reserved + 1 ∧
      t.committed s.reserved = some x := by
  have hroom : (s.head - s.tail).toNat < ringCapacity := by
    rw [h.head, h.tail, BitVec.sub_self]
    decide
  have hcall := reachable_step hs (Step.call i (.push x) (h.producers i))
  have hsaw := reachable_step hcall (Step.room i (Function.update_self ..) hroom)
  have hexchange := reachable_step hsaw (Step.exchange i (Function.update_self ..))
  have hwrite := reachable_step hexchange (Step.write i x (Function.update_self ..) ⟨rfl, rfl⟩)
  have hcommit := reachable_step hwrite (Step.commit i (Function.update_self ..) rfl)
  refine ⟨_, hcommit, rfl, rfl, rfl, fun j => ?_, h.consumer, rfl, rfl, ?_⟩
  · by_cases hj : j = i
    · exact hj ▸ Function.update_self ..
    · simp [commit, write, reserve, setProducer, hj, h.producers]
  · simp [commit, write, reserve, setProducer]

theorem Rested.cycle (h : s.Rested n) (hs : (ringSystem blank).Reachable s) (hn : n + 1 < 2 ^ 64) (i : ι) (x : α) :
    ∃ t : WorkRing ι α, (ringSystem blank).Reachable t ∧ t.Rested (n + 1) := by
  obtain ⟨t, ht, hhead, htail, hready, hproducers, hconsumer, hconsumed, hreserved, _⟩ := h.push hs i x
  have hone : BitVec.ofNat 64 n + 1 = BitVec.ofNat 64 (n + 1) := (BitVec.ofNat_add n 1).symm
  have hnext : t.head = BitVec.ofNat 64 (n + 1) := by
    rw [hhead, h.head, hone]
  have hfilled : t.tail < t.head := by
    rw [htail, hnext, h.tail, BitVec.lt_def, BitVec.toNat_ofNat, BitVec.toNat_ofNat,
      Nat.mod_eq_of_lt (by omega), Nat.mod_eq_of_lt hn]
    exact Nat.lt_succ_self n
  have hslot : t.ready (slotOf t.tail) = true := by
    rw [hready, htail, h.tail, h.head, Function.update_self]
  have hlook := reachable_step ht (Step.look .pop hconsumer)
  have hsaw := reachable_step hlook (Step.filled rfl hfilled)
  have hfound := reachable_step hsaw (Step.found rfl hslot)
  have hpop := reachable_step hfound (Step.pop rfl)
  have hclear := reachable_step hpop (Step.clear rfl)
  have hadvance := reachable_step hclear (Step.advance rfl)
  refine ⟨_, hadvance, ⟨hnext, ?_, fun idx => ?_, hproducers, rfl, ?_, ?_⟩⟩
  · change t.tail + 1 = _
    rw [htail, h.tail, hone]
  · change Function.update t.ready (slotOf t.tail) false idx = false
    rw [hready, htail, h.tail, h.head]
    by_cases hidx : idx = slotOf (BitVec.ofNat 64 n)
    · rw [hidx, Function.update_self]
    · rw [Function.update_of_ne hidx, Function.update_of_ne hidx, h.ready]
  · change (t.consumed ++ [_]).length = n + 1
    rw [List.length_append, hconsumed, h.consumed]
    rfl
  · change t.reserved = n + 1
    rw [hreserved, h.reserved]

theorem rested_reachable (i : ι) (blank : α) (hn : n < 2 ^ 64) :
    ∃ s : WorkRing ι α, (ringSystem blank).Reachable s ∧ s.Rested n := by
  induction n with
  | zero => exact ⟨create blank, .init rfl, ⟨rfl, rfl, fun _ => rfl, fun _ => rfl, rfl, rfl, rfl⟩⟩
  | succ n ih =>
    obtain ⟨s, hs, hrested⟩ := ih (Nat.lt_of_succ_lt hn)
    exact hrested.cycle hs hn i blank

theorem ring_wrapped : ¬ ∀ s : WorkRing Unit Bool, (ringSystem false).Reachable s → s.Sound := by
  intro hsound
  obtain ⟨s, hs, hrested⟩ := rested_reachable (n := 2 ^ 64 - 1) () false (by decide)
  obtain ⟨t, ht, hhead, htail, _, _, hconsumer, hconsumed, _, hcommitted⟩ := hrested.push hs () true
  have havailable := (hsound t ht).available hconsumer true (by
    rw [hconsumed, hrested.consumed, ← hrested.reserved]
    exact hcommitted)
  have hhead : t.head ≤ t.tail := by
    rw [hhead, htail, hrested.head, hrested.tail]
    decide
  unfold peek at havailable
  rw [if_pos hhead] at havailable
  simp at havailable

end Wrap

end WorkRing

end YumiBrowser.Udp
