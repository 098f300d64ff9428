import Mathlib.Algebra.Group.Nat.Defs
import Mathlib.Data.List.Basic
import YumiBrowser.Library.System

namespace YumiBrowser.Dashboard

open Transition

/-- The capacity is the length of `slotDirty`. -/
structure DamageTracker where
  slotDirty : List Bool
  uiDirty : Bool
  fullRedraw : Bool
  deriving DecidableEq

namespace DamageTracker

def damageTrackerInit : DamageTracker := ⟨[], true, true⟩

/-- The doubling of `damage_tracker_reserve`, in 32 bits. -/
def doubled (want newCap : ℕ) : Option ℕ :=
  if newCap < want then
    if newCap * 2 % 2 ^ 32 ≤ newCap then none else doubled want (newCap * 2 % 2 ^ 32)
  else some newCap
termination_by want - newCap

/-- The shift of `damage_tracker_remove_slot`. -/
def shiftDown (oldSlotCount : ℕ) (bits : List Bool) (i : ℕ) : List Bool :=
  if h : i + 1 < oldSlotCount ∧ i + 1 < bits.length then
    shiftDown oldSlotCount (bits.set i (bits.get ⟨i + 1, h.2⟩)) (i + 1)
  else bits
termination_by oldSlotCount - i

/-- The loop that writes `b` to the entries of the first `slotCount` slots. -/
def fill (slotCount : ℕ) (b : Bool) (bits : List Bool) : List Bool :=
  List.replicate (min slotCount bits.length) b ++ bits.drop (min slotCount bits.length)

variable (t : DamageTracker)

/-- `granted` tells whether `realloc` finds room; the new entries are dirty. -/
def damageTrackerReserve (want : ℕ) (granted : Bool) : Option DamageTracker :=
  if want ≤ t.slotDirty.length then some t
  else
    (doubled want (if t.slotDirty.length = 0 then 8 else t.slotDirty.length)).bind fun newCap =>
      if granted then
        some { t with slotDirty := t.slotDirty ++ List.replicate (newCap - t.slotDirty.length) true }
      else none

def damageTrackerMarkSlot (slotIndex : ℕ) : DamageTracker :=
  { t with slotDirty := t.slotDirty.set slotIndex true }

def damageTrackerMarkUi : DamageTracker := { t with uiDirty := true }

def damageTrackerMarkAll (slotCount : ℕ) : DamageTracker :=
  { slotDirty := fill slotCount true t.slotDirty, uiDirty := true, fullRedraw := true }

def damageTrackerSlotDirty (slotIndex : ℕ) : Bool :=
  if t.fullRedraw then true else t.slotDirty.getD slotIndex false

def damageTrackerShouldRender (slotCount : ℕ) : Bool :=
  if t.fullRedraw || t.uiDirty then true else (t.slotDirty.take (min slotCount t.slotDirty.length)).any id

def damageTrackerClear (slotCount : ℕ) : DamageTracker :=
  { slotDirty := fill slotCount false t.slotDirty, uiDirty := false, fullRedraw := false }

def damageTrackerRemoveSlot (removedIndex oldSlotCount : ℕ) : DamageTracker :=
  if oldSlotCount ≤ removedIndex then t
  else
    { t with slotDirty := (shiftDown oldSlotCount t.slotDirty removedIndex).set (oldSlotCount - 1) false }

end DamageTracker

open DamageTracker

structure Damage where
  tracker : DamageTracker
  marked : List Bool
  ui : Bool
  full : Bool
  deriving DecidableEq

inductive DamageCall
  | addSlot (granted : Bool)
  | markSlot (slotIndex : ℕ)
  | markUi
  | markAll
  | clear
  | removeSlot (removedIndex : ℕ)
  deriving DecidableEq

namespace Damage

def start : Damage := ⟨damageTrackerInit, [], true, true⟩

def next (s : Damage) : DamageCall → Damage
  | .addSlot granted =>
    (s.tracker.damageTrackerReserve (s.marked.length + 1) granted).elim s fun t =>
      { s with tracker := t, marked := s.marked ++ [true] }
  | .markSlot i => { s with tracker := s.tracker.damageTrackerMarkSlot i, marked := s.marked.set i true }
  | .markUi => { s with tracker := s.tracker.damageTrackerMarkUi, ui := true }
  | .markAll => { s with tracker := s.tracker.damageTrackerMarkAll s.marked.length, ui := true, full := true }
  | .clear =>
    ⟨s.tracker.damageTrackerClear s.marked.length, List.replicate s.marked.length false, false, false⟩
  | .removeSlot i =>
    { s with tracker := s.tracker.damageTrackerRemoveSlot i s.marked.length, marked := s.marked.eraseIdx i }

/-- The tracker answers what it should. -/
structure Exact (s : Damage) : Prop where
  slot : ∀ i < s.marked.length, s.tracker.damageTrackerSlotDirty i = (s.full || s.marked.getD i false)
  render : s.tracker.damageTrackerShouldRender s.marked.length = (s.ui || s.marked.any id || s.full)

/-- A slot that is added without a full redraw pending gets an entry that is set, one that growth appends
or one below the capacity that has not been vacated. -/
def Fresh (s : Damage) : DamageCall → Prop
  | .addSlot _ =>
    s.tracker.fullRedraw = false → s.marked.length < s.tracker.slotDirty.length →
      s.tracker.slotDirty.getD s.marked.length false = true
  | _ => True

end Damage

section Loops

variable {oldSlotCount i n : ℕ} {bits : List Bool} {b : Bool}

theorem DamageTracker.le_doubled {want newCap c : ℕ} (h : doubled want newCap = some c) : want ≤ c := by
  fun_induction doubled want newCap with
  | case1 => cases h
  | case2 _ _ _ ih => exact ih h
  | case3 newCap hle =>
    cases h
    exact Nat.le_of_not_lt hle

theorem DamageTracker.length_shiftDown : (shiftDown oldSlotCount bits i).length = bits.length := by
  fun_induction shiftDown oldSlotCount bits i with
  | case1 bits i h ih => rw [ih, List.length_set]
  | case2 => rfl

theorem DamageTracker.getElem?_shiftDown (hn : oldSlotCount ≤ bits.length) (j : ℕ) :
    (shiftDown oldSlotCount bits i)[j]? = if i ≤ j ∧ j + 1 < oldSlotCount then bits[j + 1]? else bits[j]? := by
  fun_induction shiftDown oldSlotCount bits i with
  | case1 bits i h ih =>
    rw [ih (by rwa [List.length_set])]
    have hget : bits[i + 1]? = some (bits.get ⟨i + 1, h.2⟩) := List.getElem?_eq_getElem h.2
    simp only [List.getElem?_set]
    grind
  | case2 bits i h =>
    rw [if_neg]
    omega

theorem DamageTracker.take_fill (hn : n ≤ bits.length) : (fill n b bits).take n = List.replicate n b := by
  simp [fill, hn]

theorem DamageTracker.length_fill : (fill n b bits).length = bits.length := by
  simp only [fill, List.length_append, List.length_replicate, List.length_drop]
  omega

theorem DamageTracker.take_shiftDown (hn : oldSlotCount ≤ bits.length) (hi : i < oldSlotCount) :
    ((shiftDown oldSlotCount bits i).set (oldSlotCount - 1) false).take (oldSlotCount - 1) =
      (bits.take oldSlotCount).eraseIdx i := by
  apply List.ext_getElem?
  intro j
  rw [List.getElem?_take, List.getElem?_set, getElem?_shiftDown hn, List.getElem?_eraseIdx]
  simp only [List.getElem?_take]
  grind

end Loops

namespace Damage

structure Kept (s : Damage) : Prop where
  live : s.marked.length ≤ s.tracker.slotDirty.length
  ui : s.tracker.uiDirty = s.ui
  full : s.tracker.fullRedraw = s.full

theorem kept_start : Kept start := ⟨Nat.le_refl _, rfl, rfl⟩

theorem exact_iff {s : Damage} (hs : Kept s) :
    Exact s ↔ (s.full = false → s.tracker.slotDirty.take s.marked.length = s.marked) := by
  have hfull := hs.full
  constructor
  · intro hexact hnot
    rw [hnot] at hfull
    apply List.ext_getElem (List.length_take_of_le hs.live)
    intro i _ hi
    have hslot := hexact.slot i hi
    simp only [damageTrackerSlotDirty, hfull, hnot, List.getD_eq_getElem?_getD, Bool.false_eq_true, if_false,
      Bool.false_or, List.getElem?_eq_getElem hi, List.getElem?_eq_getElem (Nat.lt_of_lt_of_le hi hs.live),
      Option.getD_some] at hslot
    rw [List.getElem_take, hslot]
  · intro hsame
    cases hpending : s.full with
    | true =>
      rw [hpending] at hfull
      exact ⟨fun i _ => by simp [damageTrackerSlotDirty, hfull, hpending],
        by simp [damageTrackerShouldRender, hfull, hpending]⟩
    | false =>
      rw [hpending] at hfull
      have htake := hsame hpending
      refine ⟨fun i hi => ?_, ?_⟩
      · simp only [damageTrackerSlotDirty, hfull, hpending, Bool.false_eq_true, if_false, Bool.false_or,
          List.getD_eq_getElem?_getD]
        conv_rhs => rw [← htake, List.getElem?_take_of_lt hi]
      · simp only [damageTrackerShouldRender, hfull, hpending, Bool.false_or, Bool.or_false, hs.ui,
          Nat.min_eq_left hs.live, htake]
        cases s.ui <;> rfl

theorem reserve_cases (t : DamageTracker) (want : ℕ) (granted : Bool) :
    t.damageTrackerReserve want granted = none ∧ t.slotDirty.length < want ∨
      ∃ k, t.damageTrackerReserve want granted =
        some { t with slotDirty := t.slotDirty ++ List.replicate k true } ∧
        want ≤ t.slotDirty.length + k ∧ (want ≤ t.slotDirty.length → k = 0) := by
  unfold damageTrackerReserve
  split
  · exact .inr ⟨0, by simp, by omega, fun _ => rfl⟩
  · rename_i hlt
    cases hc : doubled want (if t.slotDirty.length = 0 then 8 else t.slotDirty.length) with
    | none => exact .inl ⟨rfl, by omega⟩
    | some c =>
      have hle := le_doubled hc
      cases granted with
      | false => exact .inl ⟨rfl, by omega⟩
      | true => exact .inr ⟨c - t.slotDirty.length, rfl, by omega, fun h => absurd h hlt⟩

theorem Kept.next {s : Damage} (hs : Kept s) (e : DamageCall) : Kept (s.next e) := by
  obtain ⟨hlive, hui, hfull⟩ := hs
  cases e with
  | addSlot granted =>
    obtain ⟨hnone, -⟩ | ⟨k, hsome, hwant, -⟩ := reserve_cases s.tracker (s.marked.length + 1) granted
    · simp only [Damage.next, hnone]
      exact ⟨hlive, hui, hfull⟩
    · simp only [Damage.next, hsome]
      exact ⟨by simpa using hwant, hui, hfull⟩
  | markSlot i => exact ⟨by simpa [Damage.next, damageTrackerMarkSlot] using hlive, hui, hfull⟩
  | markUi => exact ⟨hlive, rfl, hfull⟩
  | markAll => exact ⟨by simpa [Damage.next, damageTrackerMarkAll, length_fill] using hlive, rfl, rfl⟩
  | clear => exact ⟨by simpa [Damage.next, damageTrackerClear, length_fill] using hlive, rfl, rfl⟩
  | removeSlot i =>
    simp only [Damage.next, damageTrackerRemoveSlot]
    split
    · exact ⟨by rwa [List.eraseIdx_of_length_le ‹_›], hui, hfull⟩
    · refine ⟨?_, hui, hfull⟩
      rw [List.length_set, length_shiftDown, List.length_eraseIdx]
      split
      · omega
      · exact hlive

theorem exact_next_iff {s : Damage} (hs : Kept s) (hexact : Exact s) (e : DamageCall) :
    Exact (s.next e) ↔ Fresh s e := by
  have hsame := (exact_iff hs).mp hexact
  rw [exact_iff (hs.next e)]
  obtain ⟨hlive, hui, hfull⟩ := hs
  cases e with
  | addSlot granted =>
    unfold Fresh
    rw [hfull]
    obtain ⟨hnone, hlt⟩ | ⟨k, hsome, hwant, hk⟩ := reserve_cases s.tracker (s.marked.length + 1) granted
    · simp only [Damage.next, hnone, Option.elim_none]
      exact iff_of_true hsame fun _ hroom => absurd hlt (by omega)
    · simp only [Damage.next, hsome, Option.elim_some]
      refine forall_congr' fun hnot => ?_
      have hentry : (s.tracker.slotDirty ++ List.replicate k true).take (s.marked.length + 1) =
          s.marked ++ [(s.tracker.slotDirty ++ List.replicate k true).getD s.marked.length false] := by
        rw [List.take_add_one, List.take_append_of_le_length hlive, hsame hnot]
        congr 1
        have hin : s.marked.length < (s.tracker.slotDirty ++ List.replicate k true).length := by
          simpa using Nat.lt_of_succ_le hwant
        rw [List.getD_eq_getElem?_getD, List.getElem?_eq_getElem hin]
        rfl
      simp only [List.length_append, List.length_singleton, hentry, List.append_cancel_left_eq, List.cons.injEq,
        and_true]
      constructor
      · intro hset hroom
        rwa [hk hroom, List.replicate_zero, List.append_nil] at hset
      · intro hset
        by_cases hroom : s.marked.length < s.tracker.slotDirty.length
        · rw [hk hroom, List.replicate_zero, List.append_nil]
          exact hset hroom
        · rw [List.getD_eq_getElem?_getD, List.getElem?_append_right (by omega), List.getElem?_replicate,
            if_pos (by omega)]
          rfl
  | markSlot i =>
    refine iff_of_true (fun hnot => ?_) trivial
    simp only [Damage.next, damageTrackerMarkSlot, List.length_set]
    rw [List.take_set, hsame hnot]
  | markUi => exact iff_of_true hsame trivial
  | markAll => exact iff_of_true (fun hnot => absurd hnot (by simp [Damage.next])) trivial
  | clear =>
    refine iff_of_true (fun _ => ?_) trivial
    simp only [Damage.next, damageTrackerClear, List.length_replicate]
    exact take_fill hlive
  | removeSlot i =>
    refine iff_of_true (fun hnot => ?_) trivial
    simp only [Damage.next, damageTrackerRemoveSlot]
    split
    · rw [List.eraseIdx_of_length_le ‹_›]
      exact hsame hnot
    · have hi : i < s.marked.length := Nat.lt_of_not_le ‹_›
      simp only [List.length_eraseIdx_of_lt hi]
      rw [take_shiftDown hlive hi, hsame hnot]

/-- At every point of a run the tracker tells exactly what there is to render, if and only if each slot
that was added until then found its entry set. -/
theorem exact_along_iff (es : List DamageCall) :
    (∀ xs ys, es = xs ++ ys → Exact (xs.foldl next start)) ↔
      ∀ xs e ys, es = xs ++ e :: ys → Fresh (xs.foldl next start) e :=
  System.holds_along_iff (I := Exact) (C := Fresh) (fun _ e hs => hs.next e)
    (fun _ e hs hexact => exact_next_iff hs hexact e) kept_start ((exact_iff kept_start).mpr fun _ => rfl) es

theorem reused_not_dirty :
    ¬ ∀ es : List DamageCall, Exact (es.foldl next start) := by
  intro h
  have hslot := (h [.addSlot true, .addSlot true, .clear, .removeSlot 0, .addSlot true]).slot 1
  simp [next, start, damageTrackerInit, damageTrackerReserve, doubled, damageTrackerClear,
    damageTrackerRemoveSlot, shiftDown, fill, damageTrackerSlotDirty] at hslot

end Damage

end YumiBrowser.Dashboard
