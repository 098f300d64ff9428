import YumiBrowser.Library.SharedStacks
import YumiBrowser.Memory.StaticHeap
import Mathlib.Data.Fintype.Defs

universe u v

namespace YumiBrowser.RecoveryStacks

open Transition Links
open StaticHeap (maxThreads maxThreads_pos)
open StaticHeap.Heap (slotAt)

/-- Between two calls, at a step of `recovery_pop_any`, or at one of `recovery_push`. -/
inductive Phase (ν : Type u)
  | idle
  | probing (probe : ℕ)
  | holding (probe : ℕ) (head : ν)
  | swapping (probe : ℕ) (head : ν) (next : Option ν)
  | loading (item : ν)
  | linking (item : ν) (expected : Option ν)
  | publishing (item : ν) (expected : Option ν)
  deriving DecidableEq

def Phase.carried {ν : Type u} : Phase ν → Option ν
  | idle | probing _ | holding _ _ | swapping _ _ _ => none
  | loading item | linking item _ | publishing item _ => some item

inductive Move (ν : Type u)
  | pushed (node : ν)
  | popped (node : ν)
  deriving DecidableEq

/-- The recovery slots and the links, the threads at work, and all that was pushed and popped, the last first. -/
structure Stacks (τ : Type v) (ν : Type u) where
  next : ν → Option ν
  slots : Fin maxThreads → Option ν
  phase : τ → Phase ν
  history : List (Move ν)

inductive Event (τ : Type v) (ν : Type u)
  | push (t : τ) (item : ν)
  | popAny (t : τ)
  | advance (t : τ) (spurious : Bool)
  | relink (node : ν) (next : Option ν)

variable {τ : Type v} {ν : Type u} [DecidableEq τ] [DecidableEq ν]

def standing : List (Move ν) → ν → Bool
  | [], _ => false
  | .pushed a :: h, b => if a = b then true else standing h b
  | .popped a :: h, b => if a = b then false else standing h b

namespace Stacks

variable (s : Stacks τ ν) (t : τ) (recoveryIndex : τ → Fin maxThreads)

def setPhase (phase : Phase ν) : Stacks τ ν := { s with phase := Function.update s.phase t phase }

def look (probe : ℕ) : Option ν → Stacks τ ν
  | some head => s.setPhase t (.holding probe head)
  | none => s.setPhase t (if probe + 1 < maxThreads then .probing (probe + 1) else .idle)

def popSlot (k : Fin maxThreads) (head : ν) (next : Option ν) : Stacks τ ν :=
  { s.setPhase t .idle with
    slots := Function.update s.slots k next
    history := .popped head :: s.history }

def pushSlot (k : Fin maxThreads) (item : ν) : Stacks τ ν :=
  { s.setPhase t .idle with
    slots := Function.update s.slots k (some item)
    history := .pushed item :: s.history }

def setNext (node : ν) (next : Option ν) : Stacks τ ν := { s with next := Function.update s.next node next }

/-- A step of `recovery_push` or `recovery_pop_any`. -/
def advance (spurious : Bool) : Stacks τ ν :=
  match s.phase t with
  | .idle => s
  | .probing probe => s.look t probe (s.slots (slotAt recoveryIndex t probe))
  | .holding probe head => s.setPhase t (.swapping probe head (s.next head))
  | .swapping probe head next =>
    let k := slotAt recoveryIndex t probe
    if s.slots k = some head ∧ spurious = false then s.popSlot t k head next else s.look t probe (s.slots k)
  | .loading item => s.setPhase t (.linking item (s.slots (recoveryIndex t)))
  | .linking item expected => (s.setNext item expected).setPhase t (.publishing item expected)
  | .publishing item expected =>
    let k := recoveryIndex t
    if s.slots k = expected ∧ spurious = false then s.pushSlot t k item
    else s.setPhase t (.linking item (s.slots k))

def step : Event τ ν → Stacks τ ν
  | .push t item => s.setPhase t (.loading item)
  | .popAny t => s.setPhase t (.probing 0)
  | .advance t spurious => s.advance t recoveryIndex spurious
  | .relink node next => s.setNext node next

def Outside (a : ν) : Prop := standing s.history a = false ∧ ∀ t, (s.phase t).carried ≠ some a

def Start : Prop := (∀ k, s.slots k = none) ∧ (∀ t, s.phase t = .idle) ∧ s.history = []

/-- No node is popped twice unless it was pushed in between, and what was pushed and not popped since can be reached
from a slot. -/
structure Safe : Prop where
  once : ∀ a later between earlier, s.history = later ++ .popped a :: (between ++ .popped a :: earlier) →
    .pushed a ∈ between
  kept : ∀ a later earlier, s.history = later ++ .pushed a :: earlier → .popped a ∉ later →
    ∃ k, Reaches s.next (s.slots k) a

end Stacks

def Event.Enabled (s : Stacks τ ν) : Event τ ν → Prop
  | push t item => s.phase t = .idle ∧ s.Outside item
  | popAny t => s.phase t = .idle
  | advance t _ => s.phase t ≠ .idle
  | relink node _ => s.Outside node

omit [DecidableEq τ] [DecidableEq ν] in
/-- An exchange of a pop that takes the head of a slot finds the link of the head as it was read. -/
def Phase.Fresh (recoveryIndex : τ → Fin maxThreads) (s : Stacks τ ν) (t : τ) : Phase ν → Prop
  | swapping probe head next => s.slots (slotAt recoveryIndex t probe) = some head → s.next head = next
  | _ => True

omit [DecidableEq τ] [DecidableEq ν] in
def Event.Fresh (recoveryIndex : τ → Fin maxThreads) (s : Stacks τ ν) : Event τ ν → Prop
  | advance t false => (s.phase t).Fresh recoveryIndex s t
  | _ => True

def stackSystem (τ : Type v) (ν : Type u) [DecidableEq τ] [DecidableEq ν] (recoveryIndex : τ → Fin maxThreads) :
    System (Stacks τ ν) (Event τ ν) where
  init := Stacks.Start
  step s e s' := e.Enabled s ∧ s' = s.step recoveryIndex e

section Decide

instance [Fintype τ] (s : Stacks τ ν) (a : ν) : Decidable (s.Outside a) :=
  inferInstanceAs (Decidable (_ ∧ ∀ _, _))

instance [Fintype τ] (s : Stacks τ ν) : (e : Event τ ν) → Decidable (e.Enabled s)
  | .push t item => inferInstanceAs (Decidable (s.phase t = .idle ∧ s.Outside item))
  | .popAny t => inferInstanceAs (Decidable (s.phase t = .idle))
  | .advance t _ => inferInstanceAs (Decidable (s.phase t ≠ .idle))
  | .relink node _ => inferInstanceAs (Decidable (s.Outside node))

instance (recoveryIndex : τ → Fin maxThreads) (s : Stacks τ ν) (t : τ) :
    (phase : Phase ν) → Decidable (phase.Fresh recoveryIndex s t)
  | .swapping probe head next =>
    inferInstanceAs (Decidable (s.slots (slotAt recoveryIndex t probe) = some head → s.next head = next))
  | .idle | .probing _ | .holding _ _ | .loading _ | .linking _ _ | .publishing _ _ => .isTrue trivial

instance (recoveryIndex : τ → Fin maxThreads) (s : Stacks τ ν) : (e : Event τ ν) → Decidable (e.Fresh recoveryIndex s)
  | .advance t false => inferInstanceAs (Decidable ((s.phase t).Fresh recoveryIndex s t))
  | .advance _ true | .push _ _ | .popAny _ | .relink _ _ => .isTrue trivial

end Decide

section History

variable {h later between earlier : List (Move ν)} {a : ν}

def Lawful : List (Move ν) → Prop
  | [] => True
  | .pushed _ :: h => Lawful h
  | .popped a :: h => standing h a = true ∧ Lawful h

theorem standing_append (hpopped : .popped a ∉ later) :
    standing (later ++ .pushed a :: earlier) a = true := by
  induction later with
  | nil => exact if_pos rfl
  | cons m later ih =>
    rw [List.mem_cons, not_or] at hpopped
    obtain ⟨hm, hlater⟩ := hpopped
    cases m with
    | pushed b =>
      rw [List.cons_append, standing]
      split
      · rfl
      · exact ih hlater
    | popped b =>
      have hb : b ≠ a := fun hb => hm (congrArg Move.popped hb.symm)
      rw [List.cons_append, standing, if_neg hb]
      exact ih hlater

theorem pushed_of_standing (h : standing (between ++ .popped a :: earlier) a = true) : .pushed a ∈ between := by
  induction between with
  | nil => simp [standing] at h
  | cons m between ih =>
    rw [List.mem_cons]
    cases m with
    | pushed b =>
      by_cases hb : b = a
      · exact .inl (hb ▸ rfl)
      · rw [List.cons_append, standing, if_neg hb] at h
        exact .inr (ih h)
    | popped b =>
      rw [List.cons_append, standing] at h
      split at h
      · cases h
      · exact .inr (ih h)

theorem Lawful.of_append (h : Lawful (later ++ earlier)) : Lawful earlier := by
  induction later with
  | nil => exact h
  | cons m later ih =>
    cases m with
    | pushed b => exact ih h
    | popped b => exact ih h.2

theorem Lawful.once (h : Lawful (later ++ .popped a :: (between ++ .popped a :: earlier))) : .pushed a ∈ between :=
  pushed_of_standing h.of_append.1

end History

structure Inv (s : Stacks τ ν) : Prop where
  stacked : ∃ cells, Stacked s.next s.slots cells ∧ ∀ a, standing s.history a = true ↔ ∃ k, a ∈ cells k
  lawful : Lawful s.history
  carried : ∀ t a, (s.phase t).carried = some a → standing s.history a = false
  alone : ∀ t t' a, (s.phase t).carried = some a → (s.phase t').carried = some a → t = t'
  linked : ∀ t a o, s.phase t = .publishing a o → s.next a = o

section Steps

variable {s : Stacks τ ν} {t : τ} {recoveryIndex : τ → Fin maxThreads} {phase : Phase ν} {a : ν} {o : Option ν}
  {k : Fin maxThreads}

omit [DecidableEq τ] in
theorem Inv.safe (h : Inv s) : s.Safe where
  once a later between earlier hs := by
    have hlawful := h.lawful
    rw [hs] at hlawful
    exact hlawful.once
  kept a later earlier hs hpopped := by
    obtain ⟨cells, hstacked, hcells⟩ := h.stacked
    obtain ⟨k, hk⟩ := (hcells a).mp (hs ▸ standing_append hpopped)
    exact ⟨k, hstacked.reaches hk⟩

omit [DecidableEq ν] in
theorem phase_update (s : Stacks τ ν) (t : τ) (w : Phase ν) (t' : τ) :
    t' = t ∧ Function.update s.phase t w t' = w ∨ t' ≠ t ∧ Function.update s.phase t w t' = s.phase t' := by
  by_cases ht : t' = t
  · exact .inl ⟨ht, by rw [ht, Function.update_self]⟩
  · exact .inr ⟨ht, Function.update_of_ne ht ..⟩

theorem Inv.setPhase (h : Inv s) (hcarried : ∀ a, phase.carried = some a → (s.phase t).carried = some a ∨ s.Outside a)
    (hlinked : ∀ a o, phase = .publishing a o → s.next a = o) : Inv (s.setPhase t phase) where
  stacked := h.stacked
  lawful := h.lawful
  carried t' a ha := by
    obtain ⟨-, hw⟩ | ⟨-, hw⟩ := phase_update s t phase t'
    · obtain hold | hout := hcarried a (hw ▸ ha)
      · exact h.carried t a hold
      · exact hout.1
    · exact h.carried t' a (hw ▸ ha)
  alone t₁ t₂ a h₁ h₂ := by
    have hmine (t' : τ) (hne : t' ≠ t) (hnew : phase.carried = some a) (hold : (s.phase t').carried = some a) :
        False := by
      obtain hsame | hout := hcarried a hnew
      · exact hne (h.alone t' t a hold hsame)
      · exact hout.2 t' hold
    obtain ⟨ht₁, hw₁⟩ | ⟨hne₁, hw₁⟩ := phase_update s t phase t₁
    · obtain ⟨ht₂, -⟩ | ⟨hne₂, hw₂⟩ := phase_update s t phase t₂
      · rw [ht₁, ht₂]
      · exact (hmine t₂ hne₂ (hw₁ ▸ h₁) (hw₂ ▸ h₂)).elim
    · obtain ⟨-, hw₂⟩ | ⟨-, hw₂⟩ := phase_update s t phase t₂
      · exact (hmine t₁ hne₁ (hw₂ ▸ h₂) (hw₁ ▸ h₁)).elim
      · exact h.alone t₁ t₂ a (hw₁ ▸ h₁) (hw₂ ▸ h₂)
  linked t' a o hpub := by
    obtain ⟨-, hw⟩ | ⟨-, hw⟩ := phase_update s t phase t'
    · exact hlinked a o (hw ▸ hpub)
    · exact h.linked t' a o (hw ▸ hpub)

theorem Inv.idle (h : Inv s) (hphase : phase.carried = none) : Inv (s.setPhase t phase) := by
  refine h.setPhase (fun a ha => ?_) fun a o hpub => ?_
  · rw [hphase] at ha
    cases ha
  · rw [hpub] at hphase
    cases hphase

theorem Inv.look (h : Inv s) (probe : ℕ) (o : Option ν) : Inv (s.look t probe o) := by
  unfold Stacks.look
  cases o with
  | some head => exact h.idle rfl
  | none =>
    refine h.idle ?_
    split
    · rfl
    · rfl

omit [DecidableEq τ] in
theorem Inv.setNext (h : Inv s) (hout : standing s.history a = false) (hfree : ∀ t o, s.phase t ≠ .publishing a o) :
    Inv (s.setNext a o) where
  stacked := by
    obtain ⟨cells, hstacked, hcells⟩ := h.stacked
    refine ⟨cells, hstacked.relink fun k hk => ?_, hcells⟩
    rw [(hcells a).mpr ⟨k, hk⟩] at hout
    cases hout
  lawful := h.lawful
  carried := h.carried
  alone := h.alone
  linked t b o' hpub := by
    have hne : b ≠ a := fun hba => hfree t o' (hba ▸ hpub)
    exact (Function.update_of_ne hne ..).trans (h.linked t b o' hpub)

theorem Inv.link (h : Inv s) (hphase : s.phase t = .linking a o) :
    Inv ((s.setNext a o).setPhase t (.publishing a o)) := by
  have hmine : (s.phase t).carried = some a := by rw [hphase]; rfl
  refine (h.setNext (h.carried t a hmine) fun t' o' hpub => ?_).setPhase (fun b hb => .inl ?_) fun b o' hpub => ?_
  · obtain rfl := h.alone t t' a hmine (by rw [hpub]; rfl)
    rw [hphase] at hpub
    cases hpub
  · exact hmine.trans hb
  · cases hpub
    exact Function.update_self ..

theorem standing_ne {m : Move ν} {b : ν} {h : List (Move ν)} (hm : m = .pushed a ∨ m = .popped a) (hb : a ≠ b) :
    standing (m :: h) b = standing h b := by
  obtain rfl | rfl := hm
  · exact if_neg hb
  · exact if_neg hb

theorem Inv.pushSlot (h : Inv s) (hphase : s.phase t = .publishing a o) (hslot : s.slots k = o) :
    Inv (s.pushSlot t k a) := by
  obtain ⟨cells, hstacked, hcells⟩ := h.stacked
  have hmine : (s.phase t).carried = some a := by rw [hphase]; rfl
  have hout : ∀ k, a ∉ cells k := fun k hk => by
    have hin := (hcells a).mpr ⟨k, hk⟩
    rw [h.carried t a hmine] at hin
    cases hin
  have hidle : Inv (s.setPhase t .idle) := h.idle rfl
  refine ⟨⟨_, hstacked.push hout ((h.linked t a o hphase).trans hslot.symm), fun b => ?_⟩, h.lawful, ?_, hidle.alone,
    hidle.linked⟩
  · change standing (.pushed a :: s.history) b = true ↔ _
    by_cases hb : a = b
    · subst hb
      refine ⟨fun _ => ⟨k, ?_⟩, fun _ => if_pos rfl⟩
      rw [Function.update_self]
      exact List.mem_cons_self
    · rw [standing_ne (.inl rfl) hb, hcells b]
      constructor
      · rintro ⟨j, hj⟩
        refine ⟨j, ?_⟩
        by_cases hjk : j = k
        · subst hjk
          rw [Function.update_self]
          exact List.mem_cons_of_mem _ hj
        · rwa [Function.update_of_ne hjk]
      · rintro ⟨j, hj⟩
        by_cases hjk : j = k
        · subst hjk
          rw [Function.update_self, List.mem_cons] at hj
          exact ⟨j, hj.resolve_left (Ne.symm hb)⟩
        · rw [Function.update_of_ne hjk] at hj
          exact ⟨j, hj⟩
  · intro t' b hb
    obtain ⟨-, hw⟩ | ⟨hne, hw⟩ := phase_update s t .idle t'
    · have hnone : (Phase.idle : Phase ν).carried = some b := hw ▸ hb
      cases hnone
    · have hold : (s.phase t').carried = some b := hw ▸ hb
      have hab : a ≠ b := by
        rintro rfl
        exact hne (h.alone t' t a hold hmine)
      exact (standing_ne (.inl rfl) hab).trans (h.carried t' b hold)

theorem Inv.popSlot (h : Inv s) (hslot : s.slots k = some a) (hnext : s.next a = o) : Inv (s.popSlot t k a o) := by
  obtain ⟨cells, hstacked, hcells⟩ := h.stacked
  obtain ⟨rest, hk, hpopped⟩ := hstacked.pop hslot
  rw [hnext] at hpopped
  have hstood : standing s.history a = true := (hcells a).mpr ⟨k, hk ▸ List.mem_cons_self⟩
  have hidle : Inv (s.setPhase t .idle) := h.idle rfl
  refine ⟨⟨_, hpopped, fun b => ?_⟩, ⟨hstood, h.lawful⟩, fun t' b hb => ?_, hidle.alone, hidle.linked⟩
  · change standing (.popped a :: s.history) b = true ↔ _
    by_cases hb : a = b
    · subst hb
      refine ⟨fun hstands => ?_, fun ⟨j, hj⟩ => ?_⟩
      · rw [standing, if_pos rfl] at hstands
        cases hstands
      · by_cases hjk : j = k
        · subst hjk
          rw [Function.update_self] at hj
          have hnodup := hstacked.nodup j
          rw [hk] at hnodup
          exact absurd hj (List.nodup_cons.mp hnodup).1
        · rw [Function.update_of_ne hjk] at hj
          exact absurd (hstacked.apart j k a hj (hk ▸ List.mem_cons_self)) hjk
    · rw [standing_ne (.inr rfl) hb, hcells b]
      constructor
      · rintro ⟨j, hj⟩
        refine ⟨j, ?_⟩
        by_cases hjk : j = k
        · subst hjk
          rw [hk, List.mem_cons] at hj
          rw [Function.update_self]
          exact hj.resolve_left (Ne.symm hb)
        · rwa [Function.update_of_ne hjk]
      · rintro ⟨j, hj⟩
        by_cases hjk : j = k
        · subst hjk
          rw [Function.update_self] at hj
          exact ⟨j, hk ▸ List.mem_cons_of_mem _ hj⟩
        · rw [Function.update_of_ne hjk] at hj
          exact ⟨j, hj⟩
  · change standing (.popped a :: s.history) b = false
    rw [standing]
    split
    · rfl
    · exact hidle.carried t' b hb

theorem Inv.advance {spurious : Bool} (h : Inv s) (hfresh : (Event.advance t spurious).Fresh recoveryIndex s) :
    Inv (s.advance t recoveryIndex spurious) := by
  unfold Stacks.advance
  cases hphase : s.phase t with
  | idle => exact h
  | probing probe => exact h.look probe _
  | holding probe head => exact h.idle rfl
  | swapping probe head next =>
    dsimp only
    split
    · next htaken =>
      obtain ⟨hslot, rfl⟩ := htaken
      rw [Event.Fresh, hphase] at hfresh
      exact h.popSlot hslot (hfresh hslot)
    · exact h.look probe _
  | loading item =>
    refine h.setPhase (fun b hb => .inl ?_) fun _ _ hpub => by cases hpub
    rw [hphase]
    exact hb
  | linking item expected => exact h.link hphase
  | publishing item expected =>
    dsimp only
    split
    · next htaken => exact h.pushSlot hphase htaken.1
    · refine h.setPhase (fun b hb => .inl ?_) fun _ _ hpub => by cases hpub
      rw [hphase]
      exact hb

theorem Inv.step {e : Event τ ν} (h : Inv s) (henabled : e.Enabled s) (hfresh : e.Fresh recoveryIndex s) :
    Inv (s.step recoveryIndex e) := by
  cases e with
  | push t item =>
    refine h.setPhase (fun b hb => .inr ?_) fun _ _ hpub => by cases hpub
    obtain rfl := Option.some.inj hb
    exact henabled.2
  | popAny t => exact h.idle rfl
  | advance t spurious => exact h.advance hfresh
  | relink node o =>
    refine h.setNext henabled.1 fun t o' hpub => henabled.2 t ?_
    rw [hpub]
    rfl

omit [DecidableEq τ] in
theorem inv_init (hinit : s.Start) : Inv s := by
  obtain ⟨hslots, hphase, hhistory⟩ := hinit
  have hnone : ∀ t a, (s.phase t).carried ≠ some a := by
    intro t a ha
    rw [hphase t] at ha
    cases ha
  refine ⟨⟨fun _ => [], ?_, fun a => ?_⟩, ?_, ?_, ?_, ?_⟩
  · rw [show s.slots = fun _ => none from funext hslots]
    exact stacked_empty
  · rw [hhistory]
    refine ⟨fun hstands => ?_, fun ⟨_, ha⟩ => absurd ha List.not_mem_nil⟩
    cases hstands
  · rw [hhistory]
    trivial
  · exact fun t a ha => absurd ha (hnone t a)
  · exact fun t _ a ha => absurd ha (hnone t a)
  · intro t a o hpub
    rw [hphase t] at hpub
    cases hpub

end Steps

/-- In a run in which every pop that takes a head finds its link as it was read, no node is popped twice without a push
in between, and none is lost. -/
theorem safe_of_fresh {recoveryIndex : τ → Fin maxThreads} {s : Stacks τ ν}
    (h : ((stackSystem τ ν recoveryIndex).restrict fun s e => e.Fresh recoveryIndex s).Reachable s) : s.Safe := by
  refine Inv.safe (System.Reachable.invariant (fun _ => inv_init) ?_ h)
  rintro s e s' - hs ⟨hfresh, henabled, rfl⟩
  exact hs.step henabled hfresh

section Recycled

def firstSlot : Bool → Fin maxThreads := fun _ => ⟨0, maxThreads_pos⟩

def emptied : Stacks Bool ℕ where
  next _ := none
  slots _ := none
  phase _ := .idle
  history := []

def after (es : List (Event Bool ℕ)) : Stacks Bool ℕ :=
  es.foldl (fun s e => s.step firstSlot e) emptied

def pushes (t : Bool) (item : ℕ) : List (Event Bool ℕ) :=
  [.push t item, .advance t false, .advance t false, .advance t false]

def pops (t : Bool) : List (Event Bool ℕ) :=
  [.popAny t, .advance t false, .advance t false, .advance t false]

-- Each exchange that fails finds a head that another thread has put there, and is tried again.
def contendedRun : List (Event Bool ℕ) :=
  pushes false 0 ++ pushes false 1 ++ [.popAny false, .advance false false, .advance false false] ++ pops true ++
    [.advance false false, .push true 1, .advance true false, .advance false false] ++
    [.advance true false, .advance true false, .advance false false, .advance false false, .advance false false] ++
    pops true

def recycledRun : List (Event Bool ℕ) :=
  pushes false 1 ++ pushes false 0 ++ [.popAny false, .advance false false, .advance false false] ++
    pops true ++ pops true ++ pushes true 0 ++ [.advance false false] ++ pops false

theorem start_emptied : emptied.Start := ⟨fun _ => rfl, fun _ => rfl, rfl⟩

theorem recycledRun_reachable : (stackSystem Bool ℕ firstSlot).Reachable (after recycledRun) :=
  System.Reachable.run (S := stackSystem Bool ℕ firstSlot) (fun _ _ he => ⟨he, rfl⟩) recycledRun (by decide)
    (.init start_emptied)

theorem contendedRun_reachable : ((stackSystem Bool ℕ firstSlot).restrict
    fun s e => e.Fresh firstSlot s).Reachable (after contendedRun) := by
  have henabled : System.Enables (fun s e => e.Fresh firstSlot s ∧ e.Enabled s) (fun s e => s.step firstSlot e)
      emptied contendedRun := by decide
  exact System.Reachable.run (S := (stackSystem Bool ℕ firstSlot).restrict fun s e => e.Fresh firstSlot s)
    (fun _ _ he => ⟨he.1, he.2, rfl⟩) contendedRun henabled (.init start_emptied)

theorem safe_of_fresh_contended :
    (after contendedRun).history = [.popped 0, .popped 1, .pushed 1, .popped 1, .pushed 1, .pushed 0] ∧
      (after contendedRun).Safe :=
  ⟨by decide, safe_of_fresh contendedRun_reachable⟩

-- The exchange puts the second node back, which the other thread has.
theorem popped_twice : ¬ ∀ (τ ν : Type) [DecidableEq τ] [DecidableEq ν] (recoveryIndex : τ → Fin maxThreads)
    (s : Stacks τ ν), (stackSystem τ ν recoveryIndex).Reachable s → s.Safe := by
  intro h
  have hsafe := h Bool ℕ firstSlot _ recycledRun_reachable
  have hpushed := hsafe.once 1 [] [.popped 0, .pushed 0] [.popped 0, .pushed 0, .pushed 1] rfl
  revert hpushed
  decide

end Recycled

end YumiBrowser.RecoveryStacks
