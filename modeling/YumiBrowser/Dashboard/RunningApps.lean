import Mathlib.Data.List.Chain
import YumiBrowser.Dashboard.Nesting
import YumiBrowser.Dashboard.Storage

namespace YumiBrowser.Dashboard

open Wire Transition

section Slots

variable {groupIndex : BitVec 32}

theorem closeSlots_slots (n : ℕ) (d : DashboardRuntime) (hn : n ≤ d.slots.length) :
    (DashboardRuntime.closeSlots groupIndex n d).slots =
      (d.slots.take n).filter (·.groupIndex ≠ groupIndex) ++ d.slots.drop n := by
  induction n generalizing d with
  | zero => rfl
  | succ i ih =>
    obtain ⟨slot, hslot⟩ : ∃ slot, d.slots[i]? = some slot := ⟨_, List.getElem?_eq_getElem hn⟩
    have htake : d.slots.take (i + 1) = d.slots.take i ++ [slot] := by
      rw [List.take_add_one, hslot]
      rfl
    have hdrop : d.slots.drop i = slot :: d.slots.drop (i + 1) := by
      rw [List.drop_eq_getElem?_toList_append, hslot]
      rfl
    unfold DashboardRuntime.closeSlots
    rw [hslot, htake, List.filter_append]
    split
    · rename_i hgroup
      have hsame : slot.groupIndex = groupIndex := Option.some_inj.mp hgroup
      have hslots : (d.dashboardRemoveSlot i).slots = d.slots.take i ++ d.slots.drop (i + 1) := by
        rw [DashboardRuntime.dashboardRemoveSlot, if_neg (Nat.not_le.mpr hn), List.eraseIdx_eq_take_drop_succ]
      have hlength : (d.slots.take i).length = i := List.length_take_of_le (Nat.le_of_succ_le hn)
      rw [ih _ (by rw [hslots, List.length_append, hlength]; exact Nat.le_add_right _ _), hslots,
        List.take_left' hlength, List.drop_left' hlength]
      simp [hsame]
    · rename_i hgroup
      have hother : slot.groupIndex ≠ groupIndex := fun h => hgroup (congrArg some h)
      rw [ih d (Nat.le_of_succ_le hn), hdrop]
      simp [hother]

theorem disconnectGroup_slots (d : DashboardRuntime) (h : groupIndex.toNat < d.groups.length) :
    (d.dashboardDisconnectGroup groupIndex).slots = d.slots.filter (·.groupIndex ≠ groupIndex) := by
  rw [DashboardRuntime.dashboardDisconnectGroup, if_neg (Nat.not_le.mpr h)]
  change (DashboardRuntime.closeSlots groupIndex d.slots.length d).slots = _
  rw [closeSlots_slots _ d le_rfl, List.take_length, List.drop_length, List.append_nil]

end Slots

namespace DashboardRuntime

variable {d : DashboardRuntime} {i : ℕ} {slot : WebAppSlot}

theorem rt_of_rtAt {rt : WebAppRuntime} (h : d.rtAt i = some rt) : ∃ slot ∈ d.slots, slot.rt = some rt := by
  obtain ⟨slot, hslot, hrt⟩ := Option.bind_eq_some_iff.mp h
  exact ⟨slot, List.mem_of_getElem? hslot, hrt⟩

theorem map_rt_modify (slots : List WebAppSlot) (f : WebAppSlot → WebAppSlot) (hf : ∀ slot, (f slot).rt = slot.rt) :
    (slots.modify i f).map WebAppSlot.rt = slots.map WebAppSlot.rt := by
  apply List.ext_getElem?
  intro j
  rw [List.getElem?_map, List.getElem?_map, List.getElem?_modify]
  cases slots[j]? with
  | none => rfl
  | some slot =>
    change some (if i = j then f slot else slot).rt = _
    split
    · exact congrArg some (hf slot)
    · rfl

theorem runtimes_setFocused (focused : Bool) :
    (d.setFocused i focused).slots.map WebAppSlot.rt = d.slots.map WebAppSlot.rt := map_rt_modify _ _ fun _ => rfl

theorem runtimes_visit (l : SlotLoop) :
    (d.visit i slot l).1.slots.map WebAppSlot.rt = d.slots.map WebAppSlot.rt ∧
      (d.visit i slot l).1.allocated = d.allocated := by
  unfold visit setViewport
  cases l with
  | layout => exact ⟨map_rt_modify _ _ fun _ => rfl, rfl⟩
  | fullscreen slotIndex =>
    dsimp only
    split <;> exact ⟨map_rt_modify _ _ fun _ => rfl, rfl⟩
  | _ => exact ⟨rfl, rfl⟩

theorem rt_of_visit {rt : WebAppRuntime} (l : SlotLoop) (h : (d.visit i slot l).2 = some rt) : slot.rt = some rt := by
  unfold visit at h
  cases l with
  | layout => exact h
  | _ =>
    dsimp only at h
    split at h
    all_goals first | exact h | cases h

end DashboardRuntime

namespace Frame

def uses : Frame → Option WebAppRuntime
  | .guest rt | .chars rt _ | .resize rt => some rt
  | _ => none

def awaits : Frame → Option WebAppRuntime
  | .chars rt _ | .resize rt => some rt
  | _ => none

def pending : Frame → Option WebAppSlot
  | .adding slot _ => some slot
  | _ => none

def Over (f g : Frame) : Prop := f.pending = none ∧ ∀ rt, g.awaits = some rt → f = .guest rt

end Frame

namespace Nesting

def Alive (s : Nesting) (rt : WebAppRuntime) : Prop :=
  (∃ slot ∈ s.dash.slots, slot.rt = some rt) ∨ ∃ f ∈ s.stack, ∃ slot, f.pending = some slot ∧ slot.rt = some rt

/-- The web apps that are called on the stack are there, and so are the slots that a loop goes on with. -/
structure Safe (s : Nesting) : Prop where
  running : ∀ f ∈ s.stack, ∀ rt, f.uses = some rt → s.Alive rt
  visited : ∀ groupIndex i, .switchedCall groupIndex i ∈ s.stack → i < s.dash.slots.length

/-- No group is closed that has a web app on the stack, or slots that leave too few to a loop in the middle of
one. -/
def Careful (s : Nesting) : NestEvent → Prop
  | .groupClose groupIndex => s.Privileged → groupIndex.toNat < s.dash.groups.length →
    (∀ slot ∈ s.dash.slots, slot.groupIndex = groupIndex → ∀ rt, slot.rt = some rt → .guest rt ∉ s.stack) ∧
      ∀ groupIndex' i, .switchedCall groupIndex' i ∈ s.stack →
        i < (s.dash.slots.filter (·.groupIndex ≠ groupIndex)).length
  | _ => True

structure Inv (s : Nesting) : Prop where
  distinct : s.dash.slots.Pairwise fun a b => ∀ rt, a.rt = some rt → b.rt ≠ some rt
  serials : ∀ rt, s.Alive rt → rt.serial < s.dash.allocated
  apart : ∀ f ∈ s.stack, ∀ slot, f.pending = some slot → ∀ slot' ∈ s.dash.slots, ∀ rt, slot.rt = some rt →
    slot'.rt ≠ some rt
  ordered : s.stack.IsChain Frame.Over

structure Quiet (s s' : Nesting) : Prop where
  runtimes : s'.dash.slots.map WebAppSlot.rt = s.dash.slots.map WebAppSlot.rt
  allocated : s.dash.allocated ≤ s'.dash.allocated
  ordered : s'.stack.IsChain Frame.Over
  pending : ∀ f slot, f.pending = some slot → (f ∈ s'.stack ↔ f ∈ s.stack)
  uses : ∀ f ∈ s'.stack, ∀ rt, f.uses = some rt →
    (∃ slot ∈ s.dash.slots, slot.rt = some rt) ∨ ∃ g ∈ s.stack, g.uses = some rt
  visited : ∀ groupIndex i, .switchedCall groupIndex i ∈ s'.stack →
    .switchedCall groupIndex i ∈ s.stack ∨ i < s.dash.slots.length

variable {s s' : Nesting}

theorem exists_slot_congr {slots slots' : List WebAppSlot} (h : slots'.map WebAppSlot.rt = slots.map WebAppSlot.rt)
    (rt : WebAppRuntime) : (∃ slot ∈ slots', slot.rt = some rt) ↔ ∃ slot ∈ slots, slot.rt = some rt := by
  rw [← List.mem_map, ← List.mem_map, h]

namespace Quiet

theorem alive_iff (h : Quiet s s') (rt : WebAppRuntime) : s'.Alive rt ↔ s.Alive rt := by
  unfold Alive
  refine or_congr (exists_slot_congr h.runtimes rt) (exists_congr fun f => ?_)
  constructor
  · rintro ⟨hmem, slot, hslot, hrt⟩
    exact ⟨(h.pending f slot hslot).mp hmem, slot, hslot, hrt⟩
  · rintro ⟨hmem, slot, hslot, hrt⟩
    exact ⟨(h.pending f slot hslot).mpr hmem, slot, hslot, hrt⟩

theorem safe (h : Quiet s s') (hs : s.Safe) : s'.Safe := by
  constructor
  · intro f hf rt hrt
    rw [h.alive_iff]
    rcases h.uses f hf rt hrt with hslot | ⟨g, hg, hgrt⟩
    · exact .inl hslot
    · exact hs.running g hg rt hgrt
  · intro groupIndex i hmem
    have hlength := congrArg List.length h.runtimes
    rw [List.length_map, List.length_map] at hlength
    rw [hlength]
    cases h.visited groupIndex i hmem with
    | inl hold => exact hs.visited groupIndex i hold
    | inr hlt => exact hlt

theorem inv (h : Quiet s s') (hs : s.Inv) : s'.Inv := by
  constructor
  · have hpairs : (s'.dash.slots.map WebAppSlot.rt).Pairwise fun a b => ∀ rt, a = some rt → b ≠ some rt := by
      rw [h.runtimes]
      exact List.pairwise_map.mpr hs.distinct
    exact List.pairwise_map.mp hpairs
  · intro rt hrt
    exact (hs.serials rt ((h.alive_iff rt).mp hrt)).trans_le h.allocated
  · intro f hf slot hslot slot' hslot' rt hrt hrt'
    obtain ⟨slot'', hmem, hsame⟩ := (exists_slot_congr h.runtimes rt).mp ⟨slot', hslot', hrt'⟩
    exact hs.apart f ((h.pending f slot hslot).mp hf) slot hslot slot'' hmem rt hrt hsame
  · exact h.ordered

theorem refl (h : s.stack.IsChain Frame.Over) : Quiet s s :=
  ⟨rfl, le_rfl, h, fun _ _ _ => Iff.rfl, fun f hf _ hrt => .inr ⟨f, hf, hrt⟩, fun _ _ h => .inl h⟩

theorem pop {f : Frame} {rest : List Frame} (h : s.stack.IsChain Frame.Over) (hstack : s.stack = f :: rest)
    (hf : f.pending = none) : Quiet s { s with stack := rest } := by
  have hsubset : rest ⊆ s.stack := by
    rw [hstack]
    exact List.subset_cons_self _ _
  refine ⟨rfl, le_rfl, (hstack ▸ h).tail, fun g slot hg => ⟨fun hmem => hsubset hmem, fun hmem => ?_⟩,
    fun g hg _ hrt => .inr ⟨g, hsubset hg, hrt⟩, fun _ _ hmem => .inl (hsubset hmem)⟩
  rw [hstack] at hmem
  cases List.mem_cons.mp hmem with
  | inl hhead =>
    rw [hhead, hf] at hg
    cases hg
  | inr htail => exact htail

theorem withDash (h : Quiet s s') (d : DashboardRuntime)
    (hruntimes : d.slots.map WebAppSlot.rt = s'.dash.slots.map WebAppSlot.rt)
    (hallocated : s'.dash.allocated ≤ d.allocated) : Quiet s { s' with dash := d } :=
  { h with
    runtimes := hruntimes.trans h.runtimes
    allocated := h.allocated.trans hallocated }

theorem cons (h : Quiet s s') (f : Frame) (hpending : f.pending = none)
    (hover : ∀ g ∈ s'.stack.head?, ∀ rt, g.awaits = some rt → f = .guest rt)
    (huses : ∀ rt, f.uses = some rt → (∃ slot ∈ s.dash.slots, slot.rt = some rt) ∨ ∃ g ∈ s.stack, g.uses = some rt)
    (hvisited : ∀ groupIndex i, f = .switchedCall groupIndex i → i < s.dash.slots.length) :
    Quiet s { s' with stack := f :: s'.stack } := by
  refine ⟨h.runtimes, h.allocated, List.isChain_cons.mpr ⟨fun g hg => ⟨hpending, hover g hg⟩, h.ordered⟩,
    fun g slot hg => ?_, fun g hg rt hrt => ?_, fun groupIndex i hmem => ?_⟩
  · rw [← h.pending g slot hg, List.mem_cons]
    refine or_iff_right fun heq => ?_
    rw [heq, hpending] at hg
    cases hg
  · cases List.mem_cons.mp hg with
    | inl heq => exact huses rt (heq ▸ hrt)
    | inr hmem => exact h.uses g hmem rt hrt
  · cases List.mem_cons.mp hmem with
    | inl heq => exact .inr (hvisited groupIndex i heq.symm)
    | inr hmem => exact h.visited groupIndex i hmem

theorem call (h : Quiet s s') (rt? : Option WebAppRuntime)
    (hslot : ∀ rt, rt? = some rt → ∃ slot ∈ s.dash.slots, slot.rt = some rt)
    (hcalm : ∀ g ∈ s'.stack.head?, g.awaits = none) : Quiet s (s'.call rt?) := by
  cases rt? with
  | none => exact h
  | some rt =>
    refine h.cons (.guest rt) rfl (fun g hg _ hawaits => ?_) (fun _ hrt => .inl ?_) fun _ _ heq => by cases heq
    · cases (hcalm g hg).symm.trans hawaits
    · cases hrt
      exact hslot rt rfl

theorem loop (h : Quiet s s') (l : SlotLoop) (i : ℕ) (hcalm : ∀ g ∈ s'.stack.head?, g.awaits = none) :
    Quiet s { s' with stack := .loop l i :: s'.stack } := by
  refine h.cons (.loop l i) rfl (fun g hg _ hawaits => ?_) (fun _ hrt => ?_) fun _ _ heq => by cases heq
  · cases (hcalm g hg).symm.trans hawaits
  · cases hrt

end Quiet

/-- The innermost frame waits for none above it. -/
def Calm (s : Nesting) : Prop := ∀ g ∈ s.stack.head?, g.awaits = none

theorem Idle.calm (h : s.Idle) : s.Calm := by
  intro g hg
  rw [h] at hg
  cases hg

theorem running_eq {rt : WebAppRuntime} (h : s.running = some rt) : ∃ rest, s.stack = .guest rt :: rest := by
  unfold running at h
  split at h
  · rename_i rt' rest hstack
    cases h
    exact ⟨rest, hstack⟩
  · cases h

theorem calm_of_running {rt : WebAppRuntime} (h : s.running = some rt) : s.Calm := by
  obtain ⟨rest, hstack⟩ := running_eq h
  intro g hg
  rw [hstack] at hg
  cases hg
  rfl

theorem Privileged.calm (h : s.Privileged) : s.Calm := by
  rcases h with hidle | ⟨rt, hrt, _⟩
  · exact hidle.calm
  · exact calm_of_running hrt

theorem calm_below {f : Frame} {rest : List Frame} {d : DashboardRuntime} (h : s.stack.IsChain Frame.Over)
    (hstack : s.stack = f :: rest) (hf : ∀ rt, f ≠ .guest rt) : Calm ⟨d, rest⟩ := by
  intro g hg
  rw [hstack] at h
  have hover := (List.isChain_cons.mp h).1 g hg
  by_contra hne
  obtain ⟨rt, hrt⟩ := Option.ne_none_iff_exists'.mp hne
  exact hf rt (hover.2 rt hrt)

namespace Quiet

theorem setBackground (h : Quiet s s') (hcalm : s'.Calm) (groupIndex : BitVec 32) (background : Bool) :
    Quiet s (s'.dashboardGroupSetBackground groupIndex background) := by
  unfold dashboardGroupSetBackground
  split
  · exact h
  · split
    · exact h
    · refine (h.loop (.background groupIndex background) 0 hcalm).withDash _ ?_ ?_
      · dsimp only
        split <;> rfl
      · dsimp only
        split <;> exact le_rfl

theorem switchGroup (h : Quiet s s') (hcalm : s'.Calm) (groupIndex : BitVec 32) :
    Quiet s (s'.dashboardSwitchGroup groupIndex) := by
  have hswitch : Quiet s (s'.push [.switchTo groupIndex]) := by
    refine h.cons (.switchTo groupIndex) rfl (fun g hg _ hawaits => ?_) (fun _ hrt => ?_) fun _ _ heq => by cases heq
    · cases (hcalm g hg).symm.trans hawaits
    · cases hrt
  unfold dashboardSwitchGroup
  split
  · exact h
  · split
    · exact h
    · dsimp only
      split
      · refine hswitch.setBackground (fun g hg => ?_) _ _
        cases hg
        rfl
      · exact hswitch

theorem setFocus (h : Quiet s s) (hcalm : s.Calm) (slotIndex : ℤ) : Quiet s (s.setFocus slotIndex) := by
  have hfocus : Quiet s (s.push [.focusNew slotIndex]) := by
    refine h.cons (.focusNew slotIndex) rfl (fun g hg _ hawaits => ?_) (fun _ hrt => ?_) fun _ _ heq => by cases heq
    · cases (hcalm g hg).symm.trans hawaits
    · cases hrt
  unfold Nesting.setFocus
  split
  · exact h
  · dsimp only
    split
    · exact hfocus
    · rename_i k hk
      refine (hfocus.withDash _ (DashboardRuntime.runtimes_setFocused false) le_rfl).call _
        (fun _ hrt => DashboardRuntime.rt_of_rtAt hrt) fun g hg => ?_
      cases hg
      rfl

theorem visit (h : s.stack.IsChain Frame.Over) {l : SlotLoop} {i : ℕ} {rest : List Frame} {slot : WebAppSlot}
    (hstack : s.stack = .loop l i :: rest) (hslot : s.dash.slots[i]? = some slot) (f : Frame)
    (hf : f = .loop l (i + 1) ∨ ∃ groupIndex, f = .switchedCall groupIndex i) :
    Quiet s (Nesting.call ⟨(s.dash.visit i slot l).1, f :: rest⟩ (s.dash.visit i slot l).2) := by
  obtain ⟨hruntimes, hallocated⟩ := @DashboardRuntime.runtimes_visit s.dash i slot l
  have hcalm : Calm ⟨s.dash, rest⟩ := calm_below h hstack fun _ heq => by cases heq
  have hpop := (pop h hstack rfl).cons f (by rcases hf with rfl | ⟨_, rfl⟩ <;> rfl)
    (fun g hg _ hawaits => by cases (hcalm g hg).symm.trans hawaits)
    (fun _ hrt => by rcases hf with rfl | ⟨_, rfl⟩ <;> cases hrt) fun groupIndex j heq => by
      rcases hf with rfl | ⟨_, rfl⟩
      · cases heq
      · cases heq
        exact (List.getElem?_eq_some_iff.mp hslot).1
  refine (hpop.withDash _ hruntimes hallocated.ge).call _ (fun rt hrt => ?_) fun g hg => ?_
  · exact ⟨slot, List.mem_of_getElem? hslot, DashboardRuntime.rt_of_visit l hrt⟩
  · cases hg
    rcases hf with rfl | ⟨_, rfl⟩ <;> rfl

theorem resume (h : s.stack.IsChain Frame.Over) (hadding : ∀ slot idx rest, s.stack ≠ .adding slot idx :: rest) :
    Quiet s s.resume := by
  unfold Nesting.resume
  split
  · rename_i l i rest hstack
    split
    · exact pop h hstack rfl
    · rename_i slot hslot
      apply visit h hstack hslot _
      split
      · split
        · exact .inr ⟨_, rfl⟩
        · exact .inl rfl
      · exact .inl rfl
  · rename_i groupIndex i rest hstack
    have hcalm : Calm ⟨s.dash, rest⟩ := calm_below h hstack fun _ heq => by cases heq
    refine ((pop h hstack rfl).loop (.switched groupIndex) (i + 1) hcalm).call _
      (fun _ hrt => DashboardRuntime.rt_of_rtAt hrt) fun g hg => ?_
    cases hg
    rfl
  · rename_i groupIndex rest hstack
    have hcalm : Calm ⟨s.dash, rest⟩ := calm_below h hstack fun _ heq => by cases heq
    exact ((pop h hstack rfl).loop (.switched groupIndex) 0 hcalm).withDash _ rfl le_rfl
  · rename_i rt rest hstack
    exact pop h hstack rfl
  · rename_i rt left rest hstack
    have hcalm : Calm ⟨s.dash, rest⟩ := calm_below h hstack fun _ heq => by cases heq
    have hmem : ∃ g ∈ s.stack, g.uses = some rt := ⟨.chars rt (left + 1), hstack ▸ List.mem_cons_self, rfl⟩
    refine ((pop h hstack rfl).cons (.chars rt left) rfl (fun g hg _ hawaits => ?_) (fun _ hrt => .inr ?_)
      fun _ _ heq => by cases heq).cons (.guest rt) rfl (fun g hg _ hawaits => ?_) (fun _ hrt => .inr ?_)
        fun _ _ heq => by cases heq
    · cases (hcalm g hg).symm.trans hawaits
    · cases hrt
      exact hmem
    · cases hg
      cases hawaits
      rfl
    · cases hrt
      exact hmem
  · rename_i slotIndex rest hstack
    have hpop := pop h hstack rfl
    dsimp only
    split
    · exact hpop.withDash _ rfl le_rfl
    · rename_i k hk
      refine (hpop.withDash (DashboardRuntime.setFocused { s.dash with focusedSlot := slotIndex } k true)
        (DashboardRuntime.runtimes_setFocused true) le_rfl).call _ (fun _ hrt => DashboardRuntime.rt_of_rtAt hrt) ?_
      exact calm_below h hstack fun _ heq => by cases heq
  · rename_i rt rest hstack
    have hcalm : Calm ⟨s.dash, rest⟩ := calm_below h hstack fun _ heq => by cases heq
    refine (pop h hstack rfl).cons (.guest rt) rfl (fun g hg _ hawaits => ?_) (fun _ hrt => .inr ?_)
      fun _ _ heq => by cases heq
    · cases (hcalm g hg).symm.trans hawaits
    · cases hrt
      exact ⟨.resize rt, hstack ▸ List.mem_cons_self, rfl⟩
  · rename_i slot idx rest hstack
    exact absurd hstack (hadding slot idx rest)
  · exact refl h

end Quiet

theorem dashboardAddSlot_cases (h : s.stack.IsChain Frame.Over) (dataDir : List Byte) (groupIndex : BitVec 32)
    (wasmPath : List Byte) (vp : WebAppViewport) (isDashboard : Bool) (a : Attempt) :
    Quiet s (s.dashboardAddSlot dataDir groupIndex wasmPath vp isDashboard a) ∨
      ∃ slot rt, slot.rt = some rt ∧ rt.serial = s.dash.allocated ∧
        s.dashboardAddSlot dataDir groupIndex wasmPath vp isDashboard a =
          { dash := { s.dash with allocated := s.dash.allocated + 1 }
            stack := .guest rt :: .resize rt :: .adding slot s.dash.slots.length :: s.stack } := by
  unfold dashboardAddSlot
  rcases @Storage.dashboardAddSlot_eq dataDir s.dash groupIndex wasmPath vp isDashboard a with
    ⟨_, heq⟩ | ⟨_, allocated, hle, heq⟩
  · right
    refine ⟨s.dash.newSlot dataDir groupIndex wasmPath vp isDashboard, _, rfl, ?_, ?_⟩
    rotate_left
    · simp only [heq, List.getElem?_concat_length]
      rfl
    · rfl
  · left
    simp only [heq, List.getElem?_eq_none le_rfl]
    exact (Quiet.refl h).withDash { s.dash with allocated } rfl hle

theorem next_cases (h : s.stack.IsChain Frame.Over) (e : NestEvent) :
    (Quiet s (s.next e) ∧ s.Careful e) ∨
    (∃ groupIndex, e = .groupClose groupIndex ∧ s.Privileged ∧ groupIndex.toNat < s.dash.groups.length ∧
      s.next e = { s with dash := s.dash.dashboardDisconnectGroup groupIndex }) ∨
    (s.Careful e ∧ s.stack = [] ∧ ∃ slot rt, slot.rt = some rt ∧ rt.serial = s.dash.allocated ∧ s.next e =
      { dash := { s.dash with allocated := s.dash.allocated + 1 }
        stack := [.guest rt, .resize rt, .adding slot s.dash.slots.length] }) ∨
    (s.Careful e ∧ ∃ slot idx rest, s.stack = .adding slot idx :: rest ∧ s.next e =
      ⟨{ s.dash with slots := s.dash.slots ++ [if s.dash.slots.length = idx then slot else .zero] }, rest⟩) := by
  have hrefl := Quiet.refl h
  cases e with
  | frame =>
    refine .inl ⟨?_, trivial⟩
    rw [next]
    split
    · rename_i hidle
      exact hrefl.loop .frame 0 hidle.calm
    · exact hrefl
  | layoutRecalc ww wh =>
    refine .inl ⟨?_, trivial⟩
    rw [next]
    split
    · rename_i hidle
      unfold dashboardLayoutRecalc
      dsimp only
      split
      · exact hrefl
      · exact hrefl.loop _ 0 hidle.calm
    · exact hrefl
  | layoutFullscreen slotIndex ww wh =>
    refine .inl ⟨?_, trivial⟩
    rw [next]
    split
    · rename_i hidle
      exact hrefl.loop _ 0 hidle.1.calm
    · exact hrefl
  | textInput codepoints =>
    refine .inl ⟨?_, trivial⟩
    rw [next]
    split
    · rename_i hidle
      split
      · exact hrefl
      · rename_i rt hrt
        obtain ⟨k, _, hk⟩ := Option.bind_eq_some_iff.mp hrt
        refine hrefl.cons (.chars rt codepoints) rfl (fun g hg _ hawaits => ?_) (fun _ heq => .inl ?_)
          fun _ _ heq => by cases heq
        · cases (hidle.calm g hg).symm.trans hawaits
        · cases heq
          exact DashboardRuntime.rt_of_rtAt hk
    · exact hrefl
  | setFocus slotIndex =>
    refine .inl ⟨?_, trivial⟩
    rw [next]
    split
    · rename_i hidle
      exact hrefl.setFocus hidle.calm slotIndex
    · exact hrefl
  | addSlot dataDir groupIndex wasmPath vp isDashboard a =>
    rw [next]
    split
    · rename_i hidle
      rcases dashboardAddSlot_cases h dataDir groupIndex wasmPath vp isDashboard a with
        hquiet | ⟨slot, rt, hrt, hserial, heq⟩
      · exact .inl ⟨hquiet, trivial⟩
      · refine .inr (.inr (.inl ⟨trivial, hidle, slot, rt, hrt, hserial, ?_⟩))
        rw [heq, show s.stack = [] from hidle]
    · exact .inl ⟨hrefl, trivial⟩
  | dispatch slotIndex =>
    refine .inl ⟨?_, trivial⟩
    rw [next]
    split
    · rename_i hcan
      refine hrefl.call _ (fun _ hrt => DashboardRuntime.rt_of_rtAt hrt) ?_
      rcases hcan with hidle | hsome
      · exact hidle.calm
      · obtain ⟨rt, hrt⟩ := Option.isSome_iff_exists.mp hsome
        exact calm_of_running hrt
    · exact hrefl
  | groupClose groupIndex =>
    by_cases hpriv : s.Privileged
    · by_cases hgroup : groupIndex.toNat < s.dash.groups.length
      · exact .inr (.inl ⟨groupIndex, rfl, hpriv, hgroup, if_pos hpriv⟩)
      · refine .inl ⟨?_, fun _ hlt => absurd hlt hgroup⟩
        rw [next, if_pos hpriv, DashboardRuntime.dashboardDisconnectGroup, if_pos (Nat.not_lt.mp hgroup)]
        exact hrefl
    · refine .inl ⟨?_, fun hp => absurd hp hpriv⟩
      rw [next, if_neg hpriv]
      exact hrefl
  | switchGroup groupIndex =>
    refine .inl ⟨?_, trivial⟩
    rw [next]
    split
    · rename_i hpriv
      exact hrefl.switchGroup hpriv.calm groupIndex
    · exact hrefl
  | setBackground groupIndex background =>
    refine .inl ⟨?_, trivial⟩
    rw [next]
    split
    · rename_i hpriv
      exact hrefl.setBackground hpriv.calm groupIndex background
    · exact hrefl
  | resume =>
    by_cases hadding : ∃ slot idx rest, s.stack = .adding slot idx :: rest
    · obtain ⟨slot, idx, rest, hstack⟩ := hadding
      refine .inr (.inr (.inr ⟨trivial, slot, idx, rest, hstack, ?_⟩))
      rw [next, Nesting.resume, hstack]
    · exact .inl ⟨.resume h fun slot idx rest heq => hadding ⟨slot, idx, rest, heq⟩, trivial⟩
  | ret =>
    refine .inl ⟨?_, trivial⟩
    rw [next]
    split
    · rename_i rt rest hstack
      exact .pop h hstack rfl
    · exact hrefl

theorem rest_of_adding {slot : WebAppSlot} {idx : ℕ} {rest : List Frame} (h : s.stack.IsChain Frame.Over)
    (hstack : s.stack = .adding slot idx :: rest) : rest = [] := by
  rw [hstack] at h
  cases rest with
  | nil => rfl
  | cons g rest => cases (List.isChain_cons_cons.mp h).1.1

theorem Inv.next (h : s.Inv) (e : NestEvent) : (s.next e).Inv := by
  rcases next_cases h.ordered e with ⟨hquiet, _⟩ | ⟨groupIndex, rfl, _, hgroup, heq⟩ |
    ⟨_, hstack, slot, rt, hrt, hserial, heq⟩ | ⟨_, slot, idx, rest, hstack, heq⟩
  · exact hquiet.inv h
  · rw [heq]
    obtain ⟨hsublist, hallocated⟩ := Storage.disconnectGroup_eq s.dash groupIndex
    have hsubset : (s.dash.dashboardDisconnectGroup groupIndex).slots ⊆ s.dash.slots := hsublist.subset
    refine ⟨h.distinct.sublist hsublist, fun rt hrt => ?_, fun f hf slot hslot slot' hslot' =>
      h.apart f hf slot hslot slot' (hsubset hslot'), h.ordered⟩
    rw [show (s.dash.dashboardDisconnectGroup groupIndex).allocated = s.dash.allocated from hallocated]
    refine h.serials rt (hrt.imp_left ?_)
    rintro ⟨slot, hslot, hslotRt⟩
    exact ⟨slot, hsubset hslot, hslotRt⟩
  · rw [heq]
    have hfresh : ∀ slot' ∈ s.dash.slots, slot'.rt ≠ some rt := fun slot' hslot' hsame =>
      (h.serials rt (.inl ⟨slot', hslot', hsame⟩)).ne hserial
    have hadding : ∀ f ∈ [Frame.guest rt, .resize rt, .adding slot s.dash.slots.length], ∀ slot',
        f.pending = some slot' → slot' = slot := by
      intro f hf slot' hslot'
      simp only [List.mem_cons, List.not_mem_nil, or_false] at hf
      rcases hf with rfl | rfl | rfl <;> cases hslot'
      rfl
    refine ⟨h.distinct, fun rt' hrt' => ?_, fun f hf slot' hslot' slot'' hmem rt' hsame => ?_, ?_⟩
    · rcases hrt' with hslot | ⟨f, hf, slot', hslot', hsame⟩
      · exact Nat.lt_succ_of_lt (h.serials rt' (.inl hslot))
      · rw [hadding f hf slot' hslot', hrt] at hsame
        cases hsame
        exact hserial ▸ Nat.lt_succ_self _
    · rw [hadding f hf slot' hslot', hrt] at hsame
      cases hsame
      exact hfresh slot'' hmem
    · refine .cons_cons ⟨rfl, fun _ hawaits => ?_⟩ (.cons_cons ⟨rfl, fun _ hawaits => ?_⟩ (.singleton _))
      · cases hawaits
        rfl
      · cases hawaits
  · rw [heq, rest_of_adding h.ordered hstack]
    have hpending := h.apart (.adding slot idx) (hstack ▸ List.mem_cons_self) slot rfl
    have hnew : ∀ rt, (if s.dash.slots.length = idx then slot else .zero).rt = some rt → slot.rt = some rt := by
      intro rt hrt
      split at hrt
      · exact hrt
      · cases hrt
    refine ⟨List.pairwise_append.mpr ⟨h.distinct, List.pairwise_singleton _ _, fun slot' hslot' new hmem rt hrt => ?_⟩,
      fun rt hrt => ?_, fun f hf => absurd hf List.not_mem_nil, .nil⟩
    · obtain rfl := List.mem_singleton.mp hmem
      exact fun hsame => hpending slot' hslot' rt (hnew rt hsame) hrt
    · apply h.serials rt
      rcases hrt with ⟨slot', hslot', hsame⟩ | ⟨f, hf, _⟩
      · cases List.mem_append.mp hslot' with
        | inl hold => exact .inl ⟨slot', hold, hsame⟩
        | inr hmem =>
          obtain rfl := List.mem_singleton.mp hmem
          exact .inr ⟨.adding slot idx, hstack ▸ List.mem_cons_self, slot, rfl, hnew rt hsame⟩
      · exact absurd hf List.not_mem_nil

theorem guest_of_awaits (h : s.stack.IsChain Frame.Over) (hcalm : s.Calm) {f : Frame} {rt : WebAppRuntime}
    (hf : f ∈ s.stack) (hrt : f.awaits = some rt) : .guest rt ∈ s.stack := by
  obtain ⟨i, hi, rfl⟩ := List.mem_iff_getElem.mp hf
  cases i with
  | zero => cases (hcalm _ (by rw [List.head?_eq_getElem?]; exact List.getElem?_eq_getElem hi)).symm.trans hrt
  | succ j =>
    have hover := (List.isChain_iff_getElem.mp h j hi).2 rt hrt
    exact hover ▸ List.getElem_mem _

theorem safe_next_iff (h : s.Inv) (hs : s.Safe) (e : NestEvent) : (s.next e).Safe ↔ s.Careful e := by
  rcases next_cases h.ordered e with ⟨hquiet, hcareful⟩ | ⟨groupIndex, rfl, hpriv, hgroup, heq⟩ |
    ⟨hcareful, hstack, slot, rt, hrt, hserial, heq⟩ | ⟨hcareful, slot, idx, rest, hstack, heq⟩
  · exact iff_of_true (hquiet.safe hs) hcareful
  · have hslots := disconnectGroup_slots s.dash hgroup
    rw [heq]
    constructor
    · intro hnext _ _
      refine ⟨fun slot hslot hsame rt hrt hguest => ?_, fun groupIndex' i hmem => ?_⟩
      · rcases hnext.running (.guest rt) hguest rt rfl with ⟨slot', hslot', hrt'⟩ | ⟨f, hf, slot', hslot', hrt'⟩
        · rw [show (s.dash.dashboardDisconnectGroup groupIndex).slots = _ from hslots, List.mem_filter] at hslot'
          have hne : slot ≠ slot' := by
            rintro rfl
            exact of_decide_eq_true hslot'.2 hsame
          have : Std.Symm fun a b : WebAppSlot => ∀ rt, a.rt = some rt → b.rt ≠ some rt :=
            ⟨fun _ _ hab rt hb ha => hab rt ha hb⟩
          exact h.distinct.forall hslot hslot'.1 hne rt hrt hrt'
        · exact h.apart f hf slot' hslot' slot hslot rt hrt' hrt
      · rw [← hslots]
        exact hnext.visited groupIndex' i hmem
    · intro hcareful
      obtain ⟨hidle, hleft⟩ := hcareful hpriv hgroup
      refine ⟨fun f hf rt hrt => ?_, fun groupIndex' i hmem => ?_⟩
      · rcases hs.running f hf rt hrt with ⟨slot, hslot, hsame⟩ | hpending
        · have hother : slot.groupIndex ≠ groupIndex := by
            intro hgi
            apply hidle slot hslot hgi rt hsame
            by_cases hawaits : f.awaits = some rt
            · exact guest_of_awaits h.ordered hpriv.calm hf hawaits
            · cases f with
              | guest => cases hrt; exact hf
              | chars => exact absurd hrt hawaits
              | resize => exact absurd hrt hawaits
              | _ => cases hrt
          refine .inl ⟨slot, ?_, hsame⟩
          rw [show (s.dash.dashboardDisconnectGroup groupIndex).slots = _ from hslots]
          exact List.mem_filter.mpr ⟨hslot, decide_eq_true hother⟩
        · exact .inr hpending
      · change i < (s.dash.dashboardDisconnectGroup groupIndex).slots.length
        rw [hslots]
        exact hleft groupIndex' i hmem
  · refine iff_of_true ?_ hcareful
    rw [heq]
    refine ⟨fun f hf rt' hrt' => ?_, fun groupIndex i hmem => ?_⟩
    · refine .inr ⟨.adding slot s.dash.slots.length, by simp, slot, rfl, ?_⟩
      simp only [List.mem_cons, List.not_mem_nil, or_false] at hf
      rcases hf with rfl | rfl | rfl <;> cases hrt' <;> exact hrt
    · simp at hmem
  · refine iff_of_true ?_ hcareful
    rw [heq, rest_of_adding h.ordered hstack]
    exact ⟨fun f hf => absurd hf List.not_mem_nil, fun _ _ hmem => absurd hmem List.not_mem_nil⟩

def start (groups : List DashboardGroup) : Nesting := ⟨⟨groups, [], -1, 0xffffffff, 0⟩, []⟩

/-- No running web app is destroyed throughout a run, and no slot is called that is gone, exactly when the
groups are closed with care. -/
theorem safe_throughout_iff (groups : List DashboardGroup) (es : List NestEvent) :
    (∀ xs ys, es = xs ++ ys → (xs.foldl next (start groups)).Safe) ↔
      ∀ xs e ys, es = xs ++ e :: ys → (xs.foldl next (start groups)).Careful e := by
  refine System.holds_along_iff (J := Inv) (I := Safe) (fun _ e h => h.next e) (fun _ e h hs => safe_next_iff h hs e)
    ⟨.nil, fun rt hrt => ?_, fun _ hf => absurd hf List.not_mem_nil, .nil⟩
    ⟨fun _ hf => absurd hf List.not_mem_nil, fun _ _ hmem => absurd hmem List.not_mem_nil⟩ es
  rcases hrt with ⟨_, hslot, _⟩ | ⟨_, hf, _⟩
  · exact absurd hslot List.not_mem_nil
  · exact absurd hf List.not_mem_nil

/-- A dashboard app is added to a group: `init` runs, and then the handler of its size. -/
def launched (groupIndex : BitVec 32) : List NestEvent :=
  [.addSlot [] groupIndex [97] ⟨0, 0, 640, 480⟩ true ⟨true, true, true, true, true⟩, .ret, .resume, .ret, .resume]

def twoGroups : List DashboardGroup := [⟨true, .connected, true⟩, ⟨true, .connected, true⟩]

theorem destroyed_running :
    (¬ ∀ xs ys, launched 0 ++ [.dispatch 0, .groupClose 0] = xs ++ ys → (xs.foldl next (start twoGroups)).Safe) ∧
    ¬ ∀ xs ys, launched 0 ++ launched 1 ++
        [.dispatch 1, .switchGroup 1, .resume, .resume, .resume, .groupClose 0] = xs ++ ys →
      (xs.foldl next (start twoGroups)).Safe := by
  constructor
  · intro h
    have hsafe := h _ [] (List.append_nil _).symm
    rcases hsafe.running _ List.mem_cons_self _ rfl with ⟨_, hslot, _⟩ | ⟨_, hf, _, hpending, _⟩
    · exact absurd hslot List.not_mem_nil
    · cases List.mem_singleton.mp hf
      cases hpending
  · intro h
    have hsafe := h _ [] (List.append_nil _).symm
    exact absurd (hsafe.visited 1 1 (List.mem_cons_of_mem _ List.mem_cons_self)) (by decide)

end Nesting

end YumiBrowser.Dashboard
