import Mathlib.Data.Fintype.Card
import Mathlib.Data.Finset.Card
import YumiBrowser.Library.System
import YumiBrowser.Library.Serial

universe u

namespace YumiBrowser.Udp

open Transition

def reorderWindow : ℕ := 32

/-- The reliable receive state of one channel: `slots i = none` is a slot that is not occupied. -/
structure Receiver (α : Type u) where
  started : Bool
  next : BitVec 32
  slots : Fin 32 → Option (BitVec 32 × α)

def Receiver.fresh : Receiver α where
  started := false
  next := 0
  slots _ := none

/-- `seq & YUMI_REORDER_MASK` -/
def slotIndex (seq : BitVec 32) : Fin 32 := ⟨seq.toNat % 32, Nat.mod_lt _ (by decide)⟩

def Receiver.get (r : Receiver α) (seq : BitVec 32) : Option α :=
  match r.slots (slotIndex seq) with
  | some (s, data) => if s = seq then some data else none
  | none => none

/-- Hand over the slot of `next` and go on to the number after it. -/
def Receiver.pop (r : Receiver α) : Receiver α :=
  { r with
    next := r.next + 1
    slots := Function.update r.slots (slotIndex r.next) none }

@[simp] theorem Receiver.pop_next (r : Receiver α) : r.pop.next = r.next + 1 := rfl

@[simp] theorem Receiver.pop_slots (r : Receiver α) :
    r.pop.slots = Function.update r.slots (slotIndex r.next) none := rfl

-- Every round empties a slot, so as many rounds as there are slots are enough.
def drainLoop : ℕ → Receiver α → Receiver α × List (BitVec 32 × α)
  | 0, r => (r, [])
  | rounds + 1, r =>
    match r.get r.next with
    | none => (r, [])
    | some data =>
      let rest := drainLoop rounds r.pop
      (rest.1, (r.next, data) :: rest.2)

def workerReorderDrain (r : Receiver α) : Receiver α × List (BitVec 32 × α) :=
  drainLoop reorderWindow r

inductive Reply
  | ack (seq : BitVec 32)
  | sack (seq cumulative bitmap : BitVec 32)
  deriving DecidableEq

def sackBitmap (r : Receiver α) : BitVec 32 :=
  (List.range reorderWindow).foldl (fun bitmap i =>
    if (r.get (r.next + BitVec.ofNat 32 i)).isSome then bitmap ||| BitVec.twoPow 32 i else bitmap) 0

/-- What one datagram does: the new state, the calls of `recv_cb` and the reply. -/
structure Received (α : Type u) where
  receiver : Receiver α
  delivered : List (BitVec 32 × α)
  reply : Option Reply

def Receiver.start (r : Receiver α) (seq : BitVec 32) : Receiver α :=
  if r.started then r else { r with started := true, next := seq }

def Receiver.store (r : Receiver α) (seq : BitVec 32) (data : α) : Receiver α :=
  { r with
    slots := if (r.slots (slotIndex seq)).isNone then
        Function.update r.slots (slotIndex seq) (some (seq, data))
      else r.slots }

@[simp] theorem Receiver.store_next (r : Receiver α) (seq : BitVec 32) (data : α) :
    (r.store seq data).next = r.next := rfl

theorem Receiver.store_slots (r : Receiver α) (seq : BitVec 32) (data : α) :
    (r.store seq data).slots = if (r.slots (slotIndex seq)).isNone then
      Function.update r.slots (slotIndex seq) (some (seq, data)) else r.slots := rfl

def receiveStarted (r : Receiver α) (seq : BitVec 32) (data : α) : Received α :=
  let dist := Serial.dist seq r.next
  if dist < 0 then ⟨r, [], some (.ack seq)⟩
  else if dist = 0 then
    let drained := workerReorderDrain { r with next := seq + 1 }
    ⟨drained.1, (seq, data) :: drained.2, some (.ack seq)⟩
  else if dist < reorderWindow then
    let r := r.store seq data
    ⟨r, [], some (.sack seq r.next (sackBitmap r))⟩
  else ⟨r, [], none⟩

/-- The reliable path of `worker_recv`. -/
def workerRecv (r : Receiver α) (seq : BitVec 32) (data : α) : Received α :=
  receiveStarted (r.start seq) seq data

section Map

variable {β : Type*} (f : α → β) (r : Receiver α)

def Receiver.map : Receiver β where
  started := r.started
  next := r.next
  slots i := (r.slots i).map (Prod.map id f)

theorem Receiver.get_map (seq : BitVec 32) : (r.map f).get seq = (r.get seq).map f := by
  unfold Receiver.get Receiver.map
  dsimp only
  cases r.slots (slotIndex seq) with
  | none => rfl
  | some x =>
    by_cases hx : x.1 = seq
    · simp [hx]
    · simp [hx]

theorem Receiver.map_update (i : Fin 32) (x : Option (BitVec 32 × α)) :
    (fun j => (Function.update r.slots i x j).map (Prod.map id f)) =
      Function.update (r.map f).slots i (x.map (Prod.map id f)) := by
  funext j
  by_cases hj : j = i
  · subst hj
    rw [Function.update_self, Function.update_self]
  · rw [Function.update_of_ne hj, Function.update_of_ne hj]
    rfl

theorem Receiver.pop_map : (r.map f).pop = r.pop.map f := by
  have hslots := Receiver.map_update f r (slotIndex r.next) none
  exact congrArg (Receiver.mk r.started (r.next + 1)) hslots.symm

theorem drainLoop_map (rounds : ℕ) : drainLoop rounds (r.map f) =
    ((drainLoop rounds r).1.map f, (drainLoop rounds r).2.map (Prod.map id f)) := by
  induction rounds generalizing r with
  | zero => rfl
  | succ rounds ih =>
    have hget : (r.map f).get (r.map f).next = (r.get r.next).map f := Receiver.get_map f r r.next
    rw [drainLoop, drainLoop, hget]
    cases r.get r.next with
    | none => rfl
    | some data =>
      rw [Option.map_some]
      dsimp only
      rw [Receiver.pop_map, ih]
      rfl

theorem sackBitmap_map : sackBitmap (r.map f) = sackBitmap r := by
  have hget : ∀ seq, ((r.map f).get seq).isSome = (r.get seq).isSome := fun seq => by
    rw [Receiver.get_map, Option.isSome_map]
  unfold sackBitmap
  simp only [hget]
  rfl

theorem Receiver.store_map (seq : BitVec 32) (data : α) :
    (r.map f).store seq (f data) = (r.store seq data).map f := by
  have hnone : ((r.map f).slots (slotIndex seq)).isNone = (r.slots (slotIndex seq)).isNone :=
    Option.isNone_map
  have hslots := Receiver.map_update f r (slotIndex seq) (some (seq, data))
  unfold Receiver.store
  rw [hnone]
  by_cases h : (r.slots (slotIndex seq)).isNone = true
  · rw [if_pos h, if_pos h]
    exact congrArg (Receiver.mk r.started r.next) hslots.symm
  · rw [if_neg h, if_neg h]

theorem workerRecv_map (seq : BitVec 32) (data : α) : workerRecv (r.map f) seq (f data) =
    ⟨(workerRecv r seq data).receiver.map f, (workerRecv r seq data).delivered.map (Prod.map id f),
      (workerRecv r seq data).reply⟩ := by
  have hstart : (r.map f).start seq = (r.start seq).map f := by
    have hstarted : (r.map f).started = r.started := rfl
    unfold Receiver.start
    rw [hstarted]
    split <;> rfl
  rw [workerRecv, workerRecv, hstart]
  generalize r.start seq = r
  have hnext : (r.map f).next = r.next := rfl
  unfold receiveStarted
  rw [hnext]
  dsimp only
  split
  · rfl
  · split
    · have hdrain := drainLoop_map f { r with next := seq + 1 } reorderWindow
      change Received.mk (drainLoop reorderWindow (Receiver.map f { r with next := seq + 1 })).1 _ _ = _
      rw [workerReorderDrain, workerReorderDrain]
      change Received.mk (drainLoop reorderWindow (Receiver.map f { r with next := seq + 1 })).1
        ((seq, f data) :: (drainLoop reorderWindow (Receiver.map f { r with next := seq + 1 })).2) _ = _
      rw [hdrain]
      rfl
    · split
      · rw [Receiver.store_map, sackBitmap_map]
        rfl
      · rfl

end Map

abbrev wire (n : ℕ) : BitVec 32 := BitVec.ofNat 32 n

abbrev packet (n : ℕ) : BitVec 32 × ℕ := (wire n, n)

theorem slotIndex_wire (n : ℕ) : (slotIndex (wire n)).val = n % 32 := by
  simp only [slotIndex, BitVec.toNat_ofNat]
  omega

def Receiver.Holds (r : Receiver ℕ) (n : ℕ) : Prop := r.slots (slotIndex (wire n)) = some (packet n)

/-- What the slots hold lies in the window that starts at `cursor`. -/
structure Receiver.Window (r : Receiver ℕ) (cursor : ℕ) : Prop where
  next : r.next = wire cursor
  slot : ∀ i seq n, r.slots i = some (seq, n) →
    seq = wire n ∧ i = slotIndex seq ∧ cursor ≤ n ∧ n < cursor + 32

namespace Receiver.Window

variable {r : Receiver ℕ} {cursor : ℕ}

theorem mem (h : r.Window cursor) (hn : r.Holds n) : cursor ≤ n ∧ n < cursor + 32 :=
  (h.slot _ _ _ hn).2.2

theorem get_iff (h : r.Window cursor) (hle : cursor ≤ n) (hlt : n < cursor + 32) :
    r.get (wire n) = some m ↔ m = n ∧ r.Holds n := by
  unfold Receiver.get Receiver.Holds
  cases hs : r.slots (slotIndex (wire n)) with
  | none => simp
  | some p =>
    obtain ⟨seq, m'⟩ := p
    obtain ⟨hseq, _, hle', hlt'⟩ := h.slot _ _ _ hs
    by_cases hmn : m' = n
    · subst hmn
      simp [hseq, eq_comm]
    · have hne : seq ≠ wire n := by
        intro heq
        rw [hseq] at heq
        rcases Nat.le_total m' n with hm | hm
        · exact hmn (Serial.ofNat_inj heq.symm hm (by omega)).symm
        · exact hmn (Serial.ofNat_inj heq hm (by omega))
      simp [hne]

theorem get_none (h : r.Window cursor) (hle : cursor ≤ n) (hlt : n < cursor + 32) :
    r.get (wire n) = none ↔ ¬ r.Holds n := by
  constructor
  · intro hnone hn
    have := (h.get_iff hle hlt).mpr ⟨rfl, hn⟩
    simp [hnone] at this
  · intro hn
    cases hg : r.get (wire n) with
    | none => rfl
    | some m => exact absurd ((h.get_iff hle hlt).mp hg).2 hn

theorem index_ne (hle : cursor ≤ n) (hlt : n < cursor + 32) (hne : n ≠ cursor) :
    slotIndex (wire n) ≠ slotIndex (wire cursor) := by
  intro heq
  have := congrArg Fin.val heq
  rw [slotIndex_wire, slotIndex_wire] at this
  omega

theorem pop (h : r.Window cursor) : r.pop.Window (cursor + 1) where
  next := by simp [h.next, wire, BitVec.ofNat_add]
  slot i seq n hs := by
    rw [pop_slots] at hs
    by_cases hi : i = slotIndex r.next
    · simp [hi] at hs
    · rw [Function.update_of_ne hi] at hs
      obtain ⟨hseq, hidx, hle, hlt⟩ := h.slot _ _ _ hs
      refine ⟨hseq, hidx, ?_, by omega⟩
      have : n ≠ cursor := by
        rintro rfl
        exact hi (by rw [hidx, hseq, h.next])
      omega

theorem holds_pop (h : r.Window cursor) (n : ℕ) : r.pop.Holds n ↔ r.Holds n ∧ cursor + 1 ≤ n := by
  constructor
  · intro hn
    refine ⟨?_, (h.pop.mem hn).1⟩
    rw [Receiver.Holds, pop_slots, Function.update_of_ne] at hn
    · exact hn
    · intro hi
      simp [hi] at hn
  · rintro ⟨hn, hle⟩
    obtain ⟨_, hlt⟩ := h.mem hn
    rw [Receiver.Holds, pop_slots, Function.update_of_ne]
    · exact hn
    · rw [h.next]
      exact index_ne (by omega) hlt (by omega)

theorem drainLoop (h : r.Window cursor) (rounds : ℕ) : ∃ k,
    (drainLoop rounds r).2 = (List.range' cursor k).map packet ∧
    (Udp.drainLoop rounds r).1.Window (cursor + k) ∧
    (∀ n, (Udp.drainLoop rounds r).1.Holds n ↔ r.Holds n ∧ cursor + k ≤ n) ∧
    ∀ n, cursor ≤ n → n < cursor + k → r.Holds n := by
  induction rounds generalizing r cursor with
  | zero => exact ⟨0, rfl, h, fun n => ⟨fun hn => ⟨hn, (h.mem hn).1⟩, And.left⟩, by omega⟩
  | succ rounds ih =>
    unfold Udp.drainLoop
    cases hg : r.get r.next with
    | none => exact ⟨0, rfl, h, fun n => ⟨fun hn => ⟨hn, (h.mem hn).1⟩, And.left⟩, by omega⟩
    | some m =>
      rw [h.next] at hg
      obtain ⟨rfl, hcursor⟩ := (h.get_iff (Nat.le_refl _) (by omega)).mp hg
      obtain ⟨k, hout, hwin, hholds, hrun⟩ := ih h.pop
      refine ⟨k + 1, ?_, ?_, ?_, ?_⟩
      · simp [hout, h.next, List.range'_succ]
      · simpa [Nat.add_assoc, Nat.add_comm 1 k] using hwin
      · intro n
        rw [hholds, h.holds_pop]
        constructor
        · rintro ⟨⟨hn, _⟩, hle⟩
          exact ⟨hn, by omega⟩
        · rintro ⟨hn, hle⟩
          exact ⟨⟨hn, by omega⟩, by omega⟩
      · intro n hle hlt
        rcases Nat.eq_or_lt_of_le hle with rfl | hgt
        · exact hcursor
        · exact ((h.holds_pop n).mp (hrun n hgt (by omega))).1

end Receiver.Window

def Receiver.occupied (r : Receiver α) : ℕ := (Finset.univ.filter fun i => (r.slots i).isSome).card

theorem Receiver.occupied_le (r : Receiver α) : r.occupied ≤ reorderWindow := by
  apply Nat.le_trans (Finset.card_le_univ _)
  simp [reorderWindow]

theorem Receiver.occupied_pop {r : Receiver α} (h : r.get r.next = some data) :
    r.pop.occupied + 1 = r.occupied := by
  have hsome : (r.slots (slotIndex r.next)).isSome := by
    unfold Receiver.get at h
    cases hs : r.slots (slotIndex r.next) with
    | none => simp [hs] at h
    | some p => rfl
  have herase : (Finset.univ.filter fun i => (r.pop.slots i).isSome) =
      (Finset.univ.filter fun i => (r.slots i).isSome).erase (slotIndex r.next) := by
    ext i
    rw [Finset.mem_erase, Finset.mem_filter, Finset.mem_filter, pop_slots]
    by_cases hi : i = slotIndex r.next
    · simp [hi]
    · simp [hi]
  unfold Receiver.occupied
  rw [herase]
  exact Finset.card_erase_add_one (by simpa using hsome)

theorem drainLoop_done (r : Receiver α) (h : r.occupied ≤ rounds) :
    (drainLoop rounds r).1.get (drainLoop rounds r).1.next = none := by
  induction rounds generalizing r with
  | zero =>
    cases hg : r.get r.next with
    | none => exact hg
    | some data =>
      have := Receiver.occupied_pop hg
      omega
  | succ rounds ih =>
    unfold drainLoop
    cases hg : r.get r.next with
    | none => exact hg
    | some data =>
      have := Receiver.occupied_pop hg
      exact ih r.pop (by omega)

structure Receiver.Settled (r : Receiver ℕ) (cursor : ℕ) : Prop extends r.Window cursor where
  drained : ¬ r.Holds cursor

namespace Receiver.Settled

variable {r : Receiver ℕ} {cursor : ℕ}

theorem lt (h : r.Settled cursor) (hn : r.Holds n) : cursor < n := by
  obtain ⟨hle, _⟩ := h.mem hn
  rcases Nat.eq_or_lt_of_le hle with rfl | hlt
  · exact absurd hn h.drained
  · exact hlt

theorem dist_eq (h : r.Settled cursor) (hle : cursor ≤ n) (hlt : n < cursor + 32) :
    Serial.dist (wire n) r.next = (n : ℤ) - cursor := by
  rw [h.next]
  apply Serial.dist_of_near
  · omega
  · omega

theorem drained_of_done (hwin : r.Window cursor) (hdone : r.get r.next = none) :
    r.Settled cursor where
  toWindow := hwin
  drained := by
    rw [hwin.next] at hdone
    exact (hwin.get_none (Nat.le_refl _) (by omega)).mp hdone

end Receiver.Settled

theorem receive_late (data : α) (h : Serial.dist seq r.next < 0) :
    receiveStarted r seq data = ⟨r, [], some (.ack seq)⟩ := by
  simp [receiveStarted, h]

theorem receive_far (data : α) (h : reorderWindow ≤ Serial.dist seq r.next) :
    receiveStarted r seq data = ⟨r, [], none⟩ := by
  unfold reorderWindow at h
  have h0 : ¬ Serial.dist seq r.next < 0 := by omega
  have h1 : ¬ Serial.dist seq r.next = 0 := by omega
  have h2 : ¬ Serial.dist seq r.next < 32 := by omega
  simp [receiveStarted, h0, h1, h2, reorderWindow]

theorem receive_next (h : Receiver.Settled r cursor) : ∃ k,
    (receiveStarted r (wire cursor) cursor).delivered =
      (List.range' cursor (k + 1)).map packet ∧
    (receiveStarted r (wire cursor) cursor).reply = some (.ack (wire cursor)) ∧
    (receiveStarted r (wire cursor) cursor).receiver.Settled (cursor + k + 1) ∧
    (∀ n, (receiveStarted r (wire cursor) cursor).receiver.Holds n ↔
      r.Holds n ∧ cursor + k + 1 ≤ n) ∧
    ∀ n, cursor < n → n < cursor + k + 1 → r.Holds n := by
  have hdist : Serial.dist (wire cursor) r.next = 0 := by
    rw [h.dist_eq (Nat.le_refl _) (by omega)]
    omega
  have hwin : Receiver.Window { r with next := wire cursor + 1 } (cursor + 1) := by
    refine ⟨by simp [wire, BitVec.ofNat_add], fun i seq n hs => ?_⟩
    obtain ⟨rfl, rfl, hle, hlt⟩ := h.slot i seq n hs
    have : cursor < n := h.lt hs
    exact ⟨rfl, rfl, this, by omega⟩
  obtain ⟨k, hout, hwin', hholds, hrun⟩ := hwin.drainLoop reorderWindow
  have hdone := drainLoop_done { r with next := wire cursor + 1 } (Receiver.occupied_le _)
  have heq : receiveStarted r (wire cursor) cursor =
      ⟨(workerReorderDrain { r with next := wire cursor + 1 }).1,
        packet cursor :: (workerReorderDrain { r with next := wire cursor + 1 }).2,
        some (.ack (wire cursor))⟩ := by
    simp [receiveStarted, hdist]
  have hshift : cursor + 1 + k = cursor + k + 1 := by omega
  rw [hshift] at hwin' hholds hrun
  rw [heq]
  refine ⟨k, ?_, rfl, Receiver.Settled.drained_of_done hwin' hdone, hholds, hrun⟩
  rw [workerReorderDrain, hout, List.range'_succ, List.map_cons]

theorem holds_store (h : Receiver.Settled r cursor) (hlt : cursor < n) (hwin : n < cursor + 32)
    (m : ℕ) : (r.store (wire n) n).Holds m ↔ r.Holds m ∨ m = n := by
  rw [Receiver.Holds, Receiver.store_slots]
  cases hs : r.slots (slotIndex (wire n)) with
  | none =>
    simp only [Option.isNone_none, ↓reduceIte, Receiver.Holds]
    by_cases hi : slotIndex (wire m) = slotIndex (wire n)
    · rw [hi, Function.update_self, hs]
      constructor
      · intro heq
        exact Or.inr (congrArg Prod.snd (Option.some.inj heq)).symm
      · rintro (hnone | rfl)
        · simp at hnone
        · rfl
    · have hne : m ≠ n := fun hm => hi (by rw [hm])
      rw [Function.update_of_ne hi]
      simp [hne]
  | some p =>
    -- the slot can only be taken by the same packet
    obtain ⟨seq, m'⟩ := p
    have hslot := hs
    obtain ⟨rfl, hidx, _, hlt'⟩ := h.slot _ _ _ hs
    rw [hidx] at hslot
    have hgt : cursor < m' := h.lt hslot
    have heq : n = m' := by
      have := congrArg Fin.val hidx
      rw [slotIndex_wire, slotIndex_wire] at this
      omega
    subst heq
    simp only [Option.isNone_some, Bool.false_eq_true, ↓reduceIte]
    exact ⟨Or.inl, fun hor => hor.elim id fun hm => hm ▸ hslot⟩

theorem settled_store (h : Receiver.Settled r cursor) (hlt : cursor < n)
    (hwin : n < cursor + 32) : (r.store (wire n) n).Settled cursor where
  next := h.next
  slot i seq m hs := by
    rw [Receiver.store_slots] at hs
    split at hs
    · by_cases hi : i = slotIndex (wire n)
      · subst hi
        rw [Function.update_self] at hs
        obtain ⟨rfl, rfl⟩ := Prod.mk.inj (Option.some.inj hs)
        exact ⟨rfl, rfl, Nat.le_of_lt hlt, hwin⟩
      · rw [Function.update_of_ne hi] at hs
        exact h.slot i seq m hs
    · exact h.slot i seq m hs
  drained := by
    rw [holds_store h hlt hwin]
    rintro (hc | rfl)
    · exact h.drained hc
    · exact Nat.lt_irrefl _ hlt

theorem getLsbD_foldl_twoPow (p : ℕ → Bool) (k : ℕ) (hi : i < 32) :
    ((List.range k).foldl (fun b j => if p j then b ||| BitVec.twoPow 32 j else b) 0).getLsbD i =
      (decide (i < k) && p i) := by
  induction k with
  | zero => simp
  | succ k ih =>
    rw [List.range_succ, List.foldl_append, List.foldl_cons, List.foldl_nil]
    have hbit : ∀ b : BitVec 32, (if p k then b ||| BitVec.twoPow 32 k else b).getLsbD i =
        (b.getLsbD i || (decide (k = i) && p k)) := by
      intro b
      cases p k with
      | false => simp
      | true => simp only [↓reduceIte, BitVec.getLsbD_or, BitVec.getLsbD_twoPow]; grind
    rw [hbit, ih]
    rcases Nat.lt_trichotomy i k with hlt | rfl | hgt
    · have hle : i < k + 1 := by omega
      have hne : k ≠ i := by omega
      simp [hlt, hle, hne]
    · simp
    · have hnot : ¬ i < k + 1 := by omega
      have hnot' : ¬ i < k := by omega
      have hne : k ≠ i := by omega
      simp [hnot, hnot', hne]

theorem getLsbD_sackBitmap (r : Receiver α) (hi : i < 32) :
    (sackBitmap r).getLsbD i = (r.get (r.next + BitVec.ofNat 32 i)).isSome := by
  have := getLsbD_foldl_twoPow (fun j => (r.get (r.next + BitVec.ofNat 32 j)).isSome)
    reorderWindow hi
  unfold sackBitmap
  rw [this]
  simp [reorderWindow, hi]

theorem receive_ahead (h : Receiver.Settled r cursor) (hlt : cursor < n)
    (hwin : n < cursor + 32) :
    receiveStarted r (wire n) n = ⟨r.store (wire n) n, [],
      some (.sack (wire n) (wire cursor) (sackBitmap (r.store (wire n) n)))⟩ := by
  have hdist := h.dist_eq (Nat.le_of_lt hlt) hwin
  have h0 : ¬ Serial.dist (wire n) r.next < 0 := by omega
  have h1 : ¬ Serial.dist (wire n) r.next = 0 := by omega
  have h2 : Serial.dist (wire n) r.next < 32 := by omega
  simp [receiveStarted, h0, h1, h2, reorderWindow]
  exact h.next

theorem getLsbD_sackBitmap_iff (h : Receiver.Settled r cursor) (hi : i < 32) :
    (sackBitmap r).getLsbD i = true ↔ r.Holds (cursor + i) := by
  rw [getLsbD_sackBitmap r hi, h.next, show wire cursor + BitVec.ofNat 32 i = wire (cursor + i) by
    simp [wire, BitVec.ofNat_add]]
  rw [← not_iff_not, ← h.get_none (by omega) (by omega)]
  simp

/-- The packets a reply to packet `n` tells the sender it may forget: `n` itself, for a SACK also
everything below the cumulative number and the numbers marked in the bitmap. -/
def Reply.Covers (n : ℕ) : Reply → ℕ → Prop
  | .ack _, m => m = n
  | .sack seq cumulative bitmap, m =>
    m = n ∨ m + (seq - cumulative).toNat < n ∨
      ∃ i < 32, bitmap.getLsbD i = true ∧ m + (seq - cumulative).toNat = n + i

/-- One reliable channel: how many packets the sender has numbered, and the receiver with what it
has handed over and replied. -/
structure Channel where
  sent : ℕ
  receiver : Receiver ℕ
  delivered : List (BitVec 32 × ℕ)
  emitted : List (ℕ × Reply)

def Channel.fresh : Channel where
  sent := 0
  receiver := .fresh
  delivered := []
  emitted := []

def Channel.arrive (s : Channel) (n : ℕ) : Channel :=
  let out := workerRecv s.receiver (wire n) n
  { s with
    receiver := out.receiver
    delivered := s.delivered ++ out.delivered
    emitted := s.emitted ++ out.reply.toList.map (n, ·) }

inductive ChannelEvent
  | send
  | arrive (n : ℕ)

def Channel.next (s : Channel) : ChannelEvent → Channel
  | .send => { s with sent := s.sent + 1 }
  | .arrive n => s.arrive n

def Channel.Enabled (s : Channel) : ChannelEvent → Prop
  | .send => True
  | .arrive n => n < s.sent

instance Channel.decidableEnabled (s : Channel) : (e : ChannelEvent) → Decidable (s.Enabled e)
  | .send => .isTrue trivial
  | .arrive n => inferInstanceAs (Decidable (n < s.sent))

def channelSystem : System Channel ChannelEvent :=
  System.machine .fresh Channel.Enabled Channel.next

def Receiver.Waits (r : Receiver ℕ) (n : ℕ) : Prop :=
  r.Holds n ∧ 0 < Serial.dist (wire n) r.next ∧ Serial.dist (wire n) r.next < reorderWindow

def Channel.Kept (s : Channel) (n : ℕ) : Prop := packet n ∈ s.delivered ∨ s.receiver.Waits n

/-- Nothing the receiver has acknowledged is lost. -/
def Channel.Lossless (s : Channel) : Prop :=
  ∀ a ∈ s.emitted, ∀ n, a.2.Covers a.1 n → s.Kept n

def Channel.first (s : Channel) : ℕ := (s.delivered.head?.map Prod.snd).getD 0

def Channel.cursor (s : Channel) : ℕ := s.first + s.delivered.length

/-- The 32-bit distance places packet `n` where it belongs: behind the cursor only what has been
handed over, at the cursor the expected packet, inside the window the packet of that distance,
and that only on a channel whose first packet to arrive was packet 0. -/
def Channel.OnTrack (s : Channel) (n : ℕ) : Prop :=
  s.receiver.started = true →
    let d := Serial.dist (wire n) s.receiver.next
    (d < 0 → s.first ≤ n ∧ n < s.cursor) ∧
    (d = 0 → n = s.cursor) ∧
    (0 < d → d < reorderWindow → (n : ℤ) = s.cursor + d ∧ s.first = 0)

/-- What was handed over is a run of numbers, and the window starts behind it. -/
structure Channel.Ordered (s : Channel) : Prop where
  idle : s.receiver.started = false →
    s.delivered = [] ∧ (∀ i, s.receiver.slots i = none) ∧ s.receiver.next = 0
  started : s.receiver.started = true → s.receiver.Settled s.cursor ∧ s.delivered ≠ []
  delivered : s.delivered = (List.range' s.first s.delivered.length).map packet

def Channel.Placed (s : Channel) (n : ℕ) : Prop :=
  s.receiver.started = true →
    let d := Serial.dist (wire n) s.receiver.next
    (d < 0 → n < s.cursor) ∧ (d = 0 → n = s.cursor) ∧
    (0 < d → d < reorderWindow → (n : ℤ) = s.cursor + d)

instance (s : Channel) (n : ℕ) : Decidable (s.OnTrack n) := inferInstanceAs (Decidable (_ → _))

theorem Channel.OnTrack.placed {s : Channel} (h : s.OnTrack n) : s.Placed n := by
  intro hs
  obtain ⟨hlate, hnext, hahead⟩ := h hs
  exact ⟨fun hd => (hlate hd).2, hnext, fun h0 hd => (hahead h0 hd).1⟩

theorem Channel.placed_of_near {s : Channel} (h : s.Ordered) (hle : s.cursor ≤ n + 2 ^ 31)
    (hlt : n < s.cursor + 2 ^ 31) : s.Placed n := by
  intro hs
  have hdist : Serial.dist (wire n) s.receiver.next = (n : ℤ) - s.cursor := by
    rw [(h.started hs).1.next]
    apply Serial.dist_of_near
    · omega
    · omega
  simp only [hdist]
  omega

/-- What an arriving packet does to a channel. -/
inductive Channel.Arrival (s : Channel) (n : ℕ) (t : Channel) : Prop
  | first (hs : s.receiver.started = false) (hd : t.delivered = [packet n])
      (hh : ∀ m, ¬ t.receiver.Holds m) (he : t.emitted = s.emitted ++ [(n, .ack (wire n))])
  | late (hs : s.receiver.started = true) (hn : n < s.cursor)
      (hdist : Serial.dist (wire n) s.receiver.next < 0) (hr : t.receiver = s.receiver)
      (hd : t.delivered = s.delivered) (he : t.emitted = s.emitted ++ [(n, .ack (wire n))])
  | next (k : ℕ) (hs : s.receiver.started = true) (hn : n = s.cursor)
      (hd : t.delivered = s.delivered ++ (List.range' s.cursor (k + 1)).map packet)
      (hh : ∀ m, t.receiver.Holds m ↔ s.receiver.Holds m ∧ s.cursor + k + 1 ≤ m)
      (hrun : ∀ m, s.cursor < m → m < s.cursor + k + 1 → s.receiver.Holds m)
      (he : t.emitted = s.emitted ++ [(n, .ack (wire n))])
  | ahead (hs : s.receiver.started = true) (hn : s.cursor < n) (hw : n < s.cursor + 32)
      (hd : t.delivered = s.delivered)
      (hh : ∀ m, t.receiver.Holds m ↔ s.receiver.Holds m ∨ m = n)
      (he : t.emitted =
        s.emitted ++ [(n, .sack (wire n) (wire s.cursor) (sackBitmap t.receiver))])
  | drop (hs : s.receiver.started = true) (ht : t = s)

theorem drainLoop_started (rounds : ℕ) (r : Receiver α) :
    (drainLoop rounds r).1.started = r.started := by
  induction rounds generalizing r with
  | zero => rfl
  | succ rounds ih =>
    unfold drainLoop
    cases r.get r.next with
    | none => rfl
    | some data => exact ih r.pop

theorem receiveStarted_started (r : Receiver α) (seq : BitVec 32) (data : α) :
    (receiveStarted r seq data).receiver.started = r.started := by
  simp only [receiveStarted]
  split
  · rfl
  · split
    · exact drainLoop_started _ _
    · split <;> rfl

theorem start_started (r : Receiver α) (seq : BitVec 32) : (r.start seq).started = true := by
  unfold Receiver.start
  split
  · assumption
  · rfl

theorem arrive_started (s : Channel) (n : ℕ) : (s.arrive n).receiver.started = true :=
  (receiveStarted_started _ _ _).trans (start_started _ _)

theorem first_of_append {s t : Channel} (hne : s.delivered ≠ [])
    (ht : t.delivered = s.delivered ++ out) : t.first = s.first := by
  unfold Channel.first
  rw [ht, List.head?_append_of_ne_nil _ hne]

theorem settled_start {r : Receiver ℕ} (hidle : r.started = false) (hs : ∀ i, r.slots i = none) :
    (r.start (wire n)).Settled n ∧ ∀ m, ¬ (r.start (wire n)).Holds m := by
  have hholds : ∀ m, ¬ (r.start (wire n)).Holds m := by
    simp [Receiver.Holds, Receiver.start, hidle, hs]
  refine ⟨⟨⟨by simp [Receiver.start, hidle], ?_⟩, hholds n⟩, hholds⟩
  intro i seq m hslot
  simp [Receiver.start, hidle, hs] at hslot

theorem start_of_started {r : Receiver α} (hs : r.started = true) (seq : BitVec 32) :
    r.start seq = r := by
  simp [Receiver.start, hs]

theorem arrive_first {s : Channel} (h : s.Ordered) (hs : s.receiver.started = false) :
    s.Arrival n (s.arrive n) ∧ (s.arrive n).receiver.Settled (n + 1) := by
  obtain ⟨hnil, hslots, _⟩ := h.idle hs
  obtain ⟨hset, hnone⟩ := settled_start (n := n) hs hslots
  obtain ⟨k, hout, hreply, hset', hholds, hrun⟩ := receive_next hset
  have hk : k = 0 := by
    by_contra hk
    exact hnone (n + 1) (hrun (n + 1) (by omega) (by omega))
  subst hk
  refine ⟨.first hs ?_ ?_ ?_, hset'⟩
  · simp [Channel.arrive, workerRecv, hnil, hout]
  · intro m hm
    exact hnone m ((hholds m).mp hm).1
  · simp [Channel.arrive, workerRecv, hreply]

theorem arrive_next {s : Channel} (hset : s.receiver.Settled s.cursor)
    (hs : s.receiver.started = true) : ∃ k,
    (s.arrive s.cursor).delivered =
      s.delivered ++ (List.range' s.cursor (k + 1)).map packet ∧
    s.Arrival s.cursor (s.arrive s.cursor) ∧
    (s.arrive s.cursor).receiver.Settled (s.cursor + (k + 1)) := by
  obtain ⟨k, hout, hreply, hset', hholds, hrun⟩ := receive_next hset
  have hd : (s.arrive s.cursor).delivered =
      s.delivered ++ (List.range' s.cursor (k + 1)).map packet := by
    simp [Channel.arrive, workerRecv, start_of_started hs, hout]
  refine ⟨k, hd, .next k hs rfl hd ?_ hrun ?_, ?_⟩
  · intro m
    simp only [Channel.arrive, workerRecv, start_of_started hs]
    exact hholds m
  · simp [Channel.arrive, workerRecv, start_of_started hs, hreply]
  · simp only [Channel.arrive, workerRecv, start_of_started hs]
    exact hset'

theorem arrive_same {s : Channel} (h : s.Ordered) (hs : s.receiver.started = true)
    (hset : (s.arrive n).receiver.Settled s.cursor)
    (hd : (s.arrive n).delivered = s.delivered) : (s.arrive n).Ordered := by
  have hfirst : (s.arrive n).first = s.first := by rw [Channel.first, hd, Channel.first]
  have hcursor : (s.arrive n).cursor = s.cursor := by
    rw [Channel.cursor, hfirst, hd, Channel.cursor]
  refine ⟨fun hidle => ?_, fun _ => ?_, ?_⟩
  · rw [arrive_started] at hidle
    exact absurd hidle (by decide)
  · rw [hcursor, hd]
    exact ⟨hset, (h.started hs).2⟩
  · rw [hfirst, hd]
    exact h.delivered

theorem Channel.Ordered.arrive {s : Channel} (h : s.Ordered) (hp : s.Placed n) :
    (s.arrive n).Ordered ∧ s.Arrival n (s.arrive n) := by
  cases hs : s.receiver.started with
  | false =>
    obtain ⟨harr, hset⟩ := arrive_first (n := n) h hs
    refine ⟨?_, harr⟩
    have hd : (s.arrive n).delivered = [packet n] := by
      cases harr with
      | first _ hd => exact hd
      | late hs' => exact absurd (hs'.symm.trans hs) (by decide)
      | next _ hs' => exact absurd (hs'.symm.trans hs) (by decide)
      | ahead hs' => exact absurd (hs'.symm.trans hs) (by decide)
      | drop hs' => exact absurd (hs'.symm.trans hs) (by decide)
    have hfirst : (s.arrive n).first = n := by simp [Channel.first, hd]
    refine ⟨fun hidle => ?_, fun _ => ⟨?_, by simp [hd]⟩, by simp [hd, hfirst]⟩
    · rw [arrive_started] at hidle
      exact absurd hidle (by decide)
    · simpa [Channel.cursor, hfirst, hd] using hset
  | true =>
    obtain ⟨hset, hne⟩ := h.started hs
    obtain ⟨hlate, hnext, hahead⟩ := hp hs
    have hrecv : workerRecv s.receiver (wire n) n = receiveStarted s.receiver (wire n) n := by
      rw [workerRecv, start_of_started hs]
    rcases Int.lt_trichotomy (Serial.dist (wire n) s.receiver.next) 0 with hlt | heq | hgt
    · have hout := hrecv.trans (receive_late n hlt)
      have hr : (s.arrive n).receiver = s.receiver := by simp [Channel.arrive, hout]
      have hd : (s.arrive n).delivered = s.delivered := by simp [Channel.arrive, hout]
      refine ⟨arrive_same h hs (hr ▸ hset) hd, .late hs (hlate hlt) hlt hr hd ?_⟩
      simp [Channel.arrive, hout]
    · have hn : n = s.cursor := hnext heq
      subst hn
      obtain ⟨k, hd, harr, hset'⟩ := arrive_next hset hs
      have hfirst := first_of_append hne hd
      have hlen : (s.arrive s.cursor).delivered.length = s.delivered.length + (k + 1) := by
        simp [hd]
      refine ⟨⟨fun hidle => ?_, fun _ => ⟨?_, by simp [hd]⟩, ?_⟩, harr⟩
      · rw [arrive_started] at hidle
        exact absurd hidle (by decide)
      · have hcursor : (s.arrive s.cursor).cursor = s.cursor + (k + 1) := by
          change (s.arrive s.cursor).first + (s.arrive s.cursor).delivered.length = _
          rw [hfirst, hlen, ← Nat.add_assoc]
          rfl
        rw [hcursor]
        exact hset'
      · rw [hfirst, hlen, hd]
        conv_lhs => rw [h.delivered]
        rw [← List.map_append, Channel.cursor, List.range'_append_1]
    · by_cases hin : Serial.dist (wire n) s.receiver.next < reorderWindow
      · have hn : (n : ℤ) = s.cursor + Serial.dist (wire n) s.receiver.next := hahead hgt hin
        have hlt : s.cursor < n := by omega
        have hw : n < s.cursor + 32 := by
          unfold reorderWindow at hin
          omega
        have hout := hrecv.trans (receive_ahead hset hlt hw)
        have hr : (s.arrive n).receiver = s.receiver.store (wire n) n := by
          simp [Channel.arrive, hout]
        have hd : (s.arrive n).delivered = s.delivered := by simp [Channel.arrive, hout]
        refine ⟨arrive_same h hs (hr ▸ settled_store hset hlt hw) hd,
          .ahead hs hlt hw hd ?_ ?_⟩
        · rw [hr]
          exact holds_store hset hlt hw
        · rw [hr]
          simp [Channel.arrive, hout]
      · have hout := hrecv.trans (receive_far n (Int.not_lt.mp hin))
        have ht : s.arrive n = s := by simp [Channel.arrive, hout]
        refine ⟨?_, .drop hs ht⟩
        rw [ht]
        exact h

theorem waits_iff {s : Channel} (hset : s.receiver.Settled s.cursor) (n : ℕ) :
    s.receiver.Waits n ↔ s.receiver.Holds n := by
  refine ⟨And.left, fun hn => ⟨hn, ?_⟩⟩
  have hlt := hset.lt hn
  have hw := (hset.mem hn).2
  rw [hset.dist_eq (Nat.le_of_lt hlt) hw]
  unfold reorderWindow
  omega

theorem mem_delivered_iff {s : Channel} (h : s.Ordered) (n : ℕ) :
    packet n ∈ s.delivered ↔ s.first ≤ n ∧ n < s.cursor := by
  rw [h.delivered]
  constructor
  · intro hn
    obtain ⟨m, hm, heq⟩ := List.mem_map.mp hn
    obtain rfl : m = n := congrArg Prod.snd heq
    simpa [List.mem_range'_1, Channel.cursor] using hm
  · intro hn
    exact List.mem_map.mpr ⟨n, by simpa [List.mem_range'_1, Channel.cursor] using hn, rfl⟩

theorem Channel.Ordered.not_holds {s : Channel} (h : s.Ordered)
    (hs : s.receiver.started = false) (n : ℕ) : ¬ s.receiver.Holds n := by
  simp [Receiver.Holds, (h.idle hs).2.1]

theorem kept_iff {s : Channel} (h : s.Ordered) (n : ℕ) :
    s.Kept n ↔ packet n ∈ s.delivered ∨ s.receiver.Holds n := by
  cases hs : s.receiver.started with
  | false =>
    have hn := h.not_holds hs n
    simp [Channel.Kept, Receiver.Waits, hn]
  | true => rw [Channel.Kept, waits_iff (h.started hs).1]

theorem kept_arrive {s t : Channel} (h : s.Ordered) (ht : t.Ordered) (harr : s.Arrival n t) :
    s.Kept m → t.Kept m := by
  rw [kept_iff h, kept_iff ht]
  intro hm
  cases harr with
  | first hs =>
    rcases hm with hm | hm
    · rw [(h.idle hs).1] at hm
      simp at hm
    · exact absurd hm (h.not_holds hs m)
  | late _ _ _ hr hd => rwa [hr, hd]
  | next k hs _ hd hh =>
    rcases hm with hm | hm
    · exact Or.inl (hd ▸ List.mem_append_left _ hm)
    · have hlt := (h.started hs).1.lt hm
      rcases Nat.lt_or_ge m (s.cursor + k + 1) with hin | hout
      · refine Or.inl (hd ▸ List.mem_append_right _ (List.mem_map.mpr ⟨m, ?_, rfl⟩))
        rw [List.mem_range'_1]
        omega
      · exact Or.inr ((hh m).mpr ⟨hm, hout⟩)
  | ahead _ _ _ hd hh =>
    rcases hm with hm | hm
    · exact Or.inl (hd ▸ hm)
    · exact Or.inr ((hh m).mpr (Or.inl hm))
  | drop _ ht => rwa [ht]

theorem toNat_wire_sub (hle : m ≤ n) (hlt : n < m + 32) : (wire n - wire m).toNat = n - m := by
  simp only [BitVec.toNat_sub, BitVec.toNat_ofNat]
  omega

theorem sack_kept {s t : Channel} (ht : t.Ordered) (hcursor : t.cursor = s.cursor)
    (hzero : t.first = 0) (hlt : s.cursor < n) (hw : n < s.cursor + 32) (hn : t.receiver.Holds n)
    (hs : t.receiver.started = true)
    (hcov : (Reply.sack (wire n) (wire s.cursor) (sackBitmap t.receiver)).Covers n m) :
    t.Kept m := by
  rw [kept_iff ht]
  simp only [Reply.Covers, toNat_wire_sub (Nat.le_of_lt hlt) hw] at hcov
  rcases hcov with rfl | hbelow | ⟨i, hi, hbit, heq⟩
  · exact Or.inr hn
  · rw [mem_delivered_iff ht]
    omega
  · have hset := (ht.started hs).1
    have hm : m = t.cursor + i := by omega
    rw [hm]
    exact Or.inr ((getLsbD_sackBitmap_iff hset hi).mp hbit)

theorem covered_kept {s t : Channel} (h : s.Ordered) (ht : t.Ordered) (hon : s.OnTrack n)
    (harr : s.Arrival n t) (a : ℕ × Reply) (ha : a ∈ t.emitted) :
    a ∈ s.emitted ∨ ∀ m, a.2.Covers a.1 m → t.Kept m := by
  have hnew : ∀ reply, t.emitted = s.emitted ++ [(n, reply)] →
      (∀ m, reply.Covers n m → t.Kept m) →
      a ∈ s.emitted ∨ ∀ m, a.2.Covers a.1 m → t.Kept m := by
    intro reply he hcov
    rw [he, List.mem_append, List.mem_singleton] at ha
    rcases ha with ha | rfl
    · exact Or.inl ha
    · exact Or.inr hcov
  have hack : t.Kept n → ∀ m, (Reply.ack (wire n)).Covers n m → t.Kept m := by
    rintro hn m rfl
    exact hn
  cases harr with
  | first _ hd _ he =>
    apply hnew _ he
    apply hack
    rw [kept_iff ht, hd]
    exact Or.inl (List.mem_singleton_self _)
  | late hs _ hdist _ hd he =>
    apply hnew _ he
    apply hack
    rw [kept_iff ht, hd, mem_delivered_iff h]
    exact Or.inl ((hon hs).1 hdist)
  | next k _ hn hd _ _ he =>
    apply hnew _ he
    apply hack
    rw [kept_iff ht, hd]
    refine Or.inl (List.mem_append_right _ (List.mem_map.mpr ⟨n, ?_, rfl⟩))
    rw [List.mem_range'_1]
    omega
  | ahead hs hlt hw hd hh he =>
    apply hnew _ he
    intro m hcov
    have hzero : s.first = 0 := by
      have hdist := (h.started hs).1.dist_eq (Nat.le_of_lt hlt) hw
      refine ((hon hs).2.2 ?_ ?_).2
      · omega
      · unfold reorderWindow
        omega
    have hfirst : t.first = s.first := by rw [Channel.first, hd, Channel.first]
    have hcursor : t.cursor = s.cursor := by rw [Channel.cursor, hfirst, hd, Channel.cursor]
    refine sack_kept ht hcursor (hfirst.trans hzero) hlt hw ((hh n).mpr (Or.inr rfl)) ?_ hcov
    cases hts : t.receiver.started with
    | true => rfl
    | false =>
      rw [(ht.idle hts).1] at hd
      exact absurd hd.symm (h.started hs).2
  | drop _ heq =>
    rw [heq] at ha
    exact Or.inl ha

structure Channel.Inv (s : Channel) : Prop where
  ordered : s.Ordered
  lossless : s.Lossless

theorem Channel.inv_fresh : Channel.fresh.Inv where
  ordered := ⟨fun _ => ⟨rfl, fun _ => rfl, rfl⟩, by simp [Channel.fresh, Receiver.fresh], rfl⟩
  lossless := by simp [Channel.Lossless, Channel.fresh]

theorem Channel.Inv.arrive {s : Channel} (h : s.Inv) (hon : s.OnTrack n) : (s.arrive n).Inv := by
  obtain ⟨hord, harr⟩ := h.ordered.arrive hon.placed
  refine ⟨hord, fun a ha m hcov => ?_⟩
  rcases covered_kept h.ordered hord hon harr a ha with hold | hnew
  · exact kept_arrive h.ordered hord harr (h.lossless a hold m hcov)
  · exact hnew m hcov

def Channel.EventOnTrack (s : Channel) : ChannelEvent → Prop
  | .send => True
  | .arrive n => s.OnTrack n

instance Channel.decidableEventOnTrack (s : Channel) :
    (e : ChannelEvent) → Decidable (s.EventOnTrack e)
  | .send => .isTrue trivial
  | .arrive n => inferInstanceAs (Decidable (s.OnTrack n))

/-- While every packet arrives on track, nothing that was acknowledged is lost. -/
theorem acknowledged_kept (h : (channelSystem.restrict Channel.EventOnTrack).Reachable s) :
    s.Lossless := by
  suffices s.Inv from this.lossless
  refine h.invariant ?_ ?_
  · rintro s rfl
    exact Channel.inv_fresh
  · rintro s e t _ hinv ⟨hon, _, rfl⟩
    cases e with
    | send => exact ⟨⟨hinv.ordered.idle, hinv.ordered.started, hinv.ordered.delivered⟩, hinv.lossless⟩
    | arrive n => exact hinv.arrive hon

theorem lossless_arrive_iff {s : Channel} (h : s.Inv) (hle : s.cursor ≤ n + 2 ^ 31)
    (hlt : n < s.cursor + 2 ^ 31) : (s.arrive n).Lossless ↔ s.OnTrack n := by
  have hplaced := Channel.placed_of_near h.ordered hle hlt
  obtain ⟨hord, harr⟩ := h.ordered.arrive hplaced
  refine ⟨fun hloss hs => ?_, fun hon => (h.arrive hon).lossless⟩
  obtain ⟨hlate, hnext, hahead⟩ := hplaced hs
  have hset := (h.ordered.started hs).1
  refine ⟨fun hd => ⟨?_, hlate hd⟩, hnext, fun h0 hd => ⟨hahead h0 hd, ?_⟩⟩
  · have hout : (s.arrive n).receiver = s.receiver ∧ (s.arrive n).delivered = s.delivered ∧
        (s.arrive n).emitted = s.emitted ++ [(n, .ack (wire n))] := by
      simp [Channel.arrive, workerRecv, start_of_started hs, receive_late n hd]
    obtain ⟨hr, hdel, he⟩ := hout
    have hkept := hloss (n, .ack (wire n)) (he ▸ List.mem_append_right _ (by simp)) n rfl
    rw [kept_iff hord, hr, hdel, mem_delivered_iff h.ordered] at hkept
    rcases hkept with hin | hholds
    · exact hin.1
    · have := hset.lt hholds
      have := hlate hd
      omega
  · have hn := hahead h0 hd
    have hd' : Serial.dist (wire n) s.receiver.next < 32 := hd
    have hgt : s.cursor < n := by omega
    have hw : n < s.cursor + 32 := by omega
    have hout : (s.arrive n).receiver = s.receiver.store (wire n) n ∧
        (s.arrive n).delivered = s.delivered ∧ (s.arrive n).emitted = s.emitted ++
          [(n, .sack (wire n) (wire s.cursor) (sackBitmap (s.receiver.store (wire n) n)))] := by
      simp [Channel.arrive, workerRecv, start_of_started hs, receive_ahead hset hgt hw]
    obtain ⟨hr, hdel, he⟩ := hout
    by_contra hzero
    -- the SACK covers the packet before the first that arrived
    have hcov : (Reply.sack (wire n) (wire s.cursor)
        (sackBitmap (s.receiver.store (wire n) n))).Covers n (s.first - 1) := by
      refine Or.inr (Or.inl ?_)
      have hcursor : s.cursor = s.first + s.delivered.length := rfl
      rw [toNat_wire_sub (Nat.le_of_lt hgt) hw]
      omega
    have hkept := hloss (n, _) (he ▸ List.mem_append_right _ (List.mem_singleton_self _))
      (s.first - 1) hcov
    rw [kept_iff hord, hr, hdel, mem_delivered_iff h.ordered, holds_store hset hgt hw] at hkept
    have hfirst : s.first ≤ s.cursor := Nat.le_add_right _ _
    rcases hkept with hin | hholds | heq
    · omega
    · have := hset.lt hholds
      omega
    · omega

theorem acknowledged_kept_three : (([.send, .send, .send, .arrive 0, .arrive 2, .arrive 1] :
    List ChannelEvent).foldl Channel.next .fresh).Lossless := by
  apply acknowledged_kept
  rw [channelSystem, System.machine_restrict]
  exact System.reachable_foldl _ (by decide)

-- Packet 1 arrives first; packet 0 is then acknowledged and dropped.
theorem acknowledged_lost : ¬ ∀ s, channelSystem.Reachable s → s.Lossless := by
  intro h
  have hrun := h _ (System.reachable_foldl [.send, .send, .arrive 1, .arrive 0] (by decide))
  have hkept := hrun (0, .ack 0) (by decide) 0 rfl
  rcases hkept with hdel | hwait
  · revert hdel
    decide
  · have hslot := hwait.1
    revert hslot
    unfold Receiver.Holds
    decide

section Answers

def Channel.Reached (s : Channel) (n : ℕ) : Prop :=
  s.Placed n ∧ (s.receiver.started = true → Serial.dist (wire n) s.receiver.next < 0 → s.first ≤ n)

instance (s : Channel) (n : ℕ) : Decidable (s.Placed n) := inferInstanceAs (Decidable (_ → _))

instance (s : Channel) (n : ℕ) : Decidable (s.Reached n) := inferInstanceAs (Decidable (_ ∧ _))

theorem answered_kept {s t : Channel} (h : s.Ordered) (ht : t.Ordered) (hn : s.Reached n)
    (harr : s.Arrival n t) : ∀ a ∈ t.emitted, a ∈ s.emitted ∨ a.1 = n ∧ t.Kept n := by
  intro a ha
  have hlast : ∀ reply, t.emitted = s.emitted ++ [(n, reply)] → a ∈ s.emitted ∨ a.1 = n := by
    intro reply he
    rw [he] at ha
    cases List.mem_append.mp ha with
    | inl ha => exact .inl ha
    | inr ha => exact .inr (congrArg Prod.fst (List.mem_singleton.mp ha))
  cases harr with
  | first _ hd _ he =>
    refine (hlast _ he).imp_right fun heq => ⟨heq, .inl ?_⟩
    rw [hd]
    exact List.mem_singleton_self _
  | late hs hlt hdist _ hd he =>
    refine (hlast _ he).imp_right fun heq => ⟨heq, .inl ?_⟩
    rw [hd]
    exact (mem_delivered_iff h n).mpr ⟨hn.2 hs hdist, hlt⟩
  | next k _ hcur hd _ _ he =>
    refine (hlast _ he).imp_right fun heq => ⟨heq, .inl ?_⟩
    rw [hd, hcur]
    refine List.mem_append_right _ (List.mem_map.mpr ⟨s.cursor, ?_, rfl⟩)
    exact List.mem_range'_1.mpr ⟨le_rfl, by omega⟩
  | ahead _ _ _ _ hh he =>
    refine (hlast _ he).imp_right fun heq => ⟨heq, ?_⟩
    exact (kept_iff ht n).mpr (.inr ((hh n).mpr (.inr rfl)))
  | drop _ heq => exact .inl (heq ▸ ha)

end Answers

section Slots

variable {α : Type*} {r : Receiver α}

theorem slot_of_get {data : α} (h : r.get seq = some data) :
    r.slots (slotIndex seq) = some (seq, data) := by
  unfold Receiver.get at h
  cases hs : r.slots (slotIndex seq) with
  | none =>
    rw [hs] at h
    cases h
  | some x =>
    rw [hs] at h
    dsimp only at h
    split at h
    · rename_i hx
      rw [← hx, ← Option.some.inj h]
    · cases h

theorem mem_drainLoop (rounds : ℕ) (r : Receiver α) :
    (∀ x ∈ (drainLoop rounds r).2, ∃ i, r.slots i = some x) ∧
      ∀ i x, (drainLoop rounds r).1.slots i = some x → r.slots i = some x := by
  induction rounds generalizing r with
  | zero => exact ⟨nofun, fun _ _ h => h⟩
  | succ rounds ih =>
    rw [drainLoop]
    cases hget : r.get r.next with
    | none => exact ⟨nofun, fun _ _ h => h⟩
    | some data =>
      obtain ⟨hout, hleft⟩ := ih r.pop
      have hpop : ∀ i x, r.pop.slots i = some x → r.slots i = some x := by
        intro i x hx
        rw [Receiver.pop_slots, Function.update_apply] at hx
        split at hx
        · cases hx
        · exact hx
      constructor
      · intro x hx
        cases List.mem_cons.mp hx with
        | inl hx =>
          rw [hx]
          exact ⟨_, slot_of_get hget⟩
        | inr hx =>
          obtain ⟨i, hi⟩ := hout x hx
          exact ⟨i, hpop i x hi⟩
      · exact fun i x hx => hpop i x (hleft i x hx)

theorem mem_workerRecv (r : Receiver α) (seq : BitVec 32) (data : α) :
    (∀ x ∈ (workerRecv r seq data).delivered, x = (seq, data) ∨ ∃ i, r.slots i = some x) ∧
      ∀ i x, (workerRecv r seq data).receiver.slots i = some x → x = (seq, data) ∨ r.slots i = some x := by
  have hslots : (r.start seq).slots = r.slots := by
    unfold Receiver.start
    split <;> rfl
  rw [← hslots, workerRecv]
  generalize r.start seq = r
  unfold receiveStarted
  dsimp only
  split
  · exact ⟨nofun, fun _ _ h => .inr h⟩
  · split
    · obtain ⟨hout, hleft⟩ := mem_drainLoop reorderWindow { r with next := seq + 1 }
      refine ⟨?_, fun i x hx => .inr (hleft i x hx)⟩
      intro x hx
      exact (List.mem_cons.mp hx).imp id (hout x)
    · split
      · refine ⟨nofun, ?_⟩
        intro i x hx
        change (r.store seq data).slots i = some x at hx
        rw [Receiver.store_slots] at hx
        split at hx
        · rw [Function.update_apply] at hx
          split at hx
          · exact .inl (Option.some.inj hx).symm
          · exact .inr hx
        · exact .inr hx
      · exact ⟨nofun, fun _ _ h => .inr h⟩

end Slots

end YumiBrowser.Udp
