import YumiBrowser.Library.Simulation
import YumiBrowser.Memory.Conservation
import YumiBrowser.Memory.RecoveryStacks

universe u v

namespace YumiBrowser.StaticHeap

open Transition Links RecoveryStacks

variable {τ : Type v} {ν : Type u}

def Phase.recovery : StaticHeap.Phase ν → RecoveryStacks.Phase ν
  | .idle | .gone => .idle
  | .probing probe => .probing probe
  | .holding probe head => .holding probe head
  | .swapping probe head next => .swapping probe head next
  | .pushing _ item => .loading item
  | .linking _ item expected => .linking item expected
  | .publishing _ item expected => .publishing item expected

def Heap.recovery (s : Heap τ ν) (history : List (Move ν)) : Stacks τ ν where
  next := s.next
  slots := s.recoverySlots
  phase t := (s.thread t).phase.recovery
  history := history

section Projection

variable {s s' : Heap τ ν} {t : τ} {history : List (Move ν)} {w : Thread ν} {a : ν}

theorem carried_recovery (s : Heap τ ν) (t : τ) (history : List (Move ν)) :
    ((s.recovery history).phase t).carried = (s.thread t).carried?.map Prod.snd := by
  change (s.thread t).phase.recovery.carried = _
  rw [Thread.carried?]
  cases (s.thread t).phase with
  | _ => rfl

theorem recovery_congr (hnext : s'.next = s.next) (hslots : s'.recoverySlots = s.recoverySlots)
    (hphase : ∀ t, (s'.thread t).phase.recovery = (s.thread t).phase.recovery) :
    s'.recovery history = s.recovery history := by
  unfold Heap.recovery
  rw [hnext, hslots, funext hphase]

variable [DecidableEq τ]

theorem phase_setThread (s : Heap τ ν) (t : τ) (w : Thread ν) :
    (fun t' => ((s.setThread t w).thread t').phase.recovery) =
      Function.update (fun t' => (s.thread t').phase.recovery) t w.phase.recovery := by
  funext t'
  by_cases ht : t' = t
  · subst ht
    rw [setThread_self, Function.update_self]
  · rw [Function.update_of_ne ht]
    have hother : (s.setThread t w).thread t' = s.thread t' := Function.update_of_ne ht ..
    rw [hother]

theorem recovery_setThread (s : Heap τ ν) (t : τ) (w : Thread ν) (history : List (Move ν)) :
    (s.setThread t w).recovery history = (s.recovery history).setPhase t w.phase.recovery := by
  unfold Heap.recovery Stacks.setPhase
  rw [phase_setThread]
  rfl

theorem recovery_setThread_same (hphase : w.phase.recovery = (s.thread t).phase.recovery) :
    (s.setThread t w).recovery history = s.recovery history := by
  refine recovery_congr rfl rfl fun t' => ?_
  have hall := congrFun (phase_setThread s t w) t'
  rw [hall]
  by_cases ht : t' = t
  · subst ht
    rw [Function.update_self, hphase]
  · rw [Function.update_of_ne ht]

end Projection

section Outside

variable [DecidableEq τ] [DecidableEq ν] {s : Heap τ ν} {t : τ} {history : List (Move ν)} {a : ν}

omit [DecidableEq τ] in
theorem standing_iff {free : List ν} {recovered : Fin maxThreads → List ν} (h : Inv (s.recovery history))
    (hc : Conserved s free recovered) : standing history a = true ↔ ∃ k, a ∈ recovered k := by
  obtain ⟨cells, hstacked, hcells⟩ := h.stacked
  have hsame : cells = recovered := funext fun k => (hstacked.linked k).unique (hc.slots k)
  rw [← hsame]
  exact hcells a

omit [DecidableEq τ] in
theorem not_standing (h : Inv (s.recovery history)) (hs : Sound s)
    (ha : (∃ t, a ∈ (s.thread t).stack) ∨ a ∈ s.leased) : standing history a = false := by
  obtain ⟨free, recovered, hc⟩ := hs.conserved
  rw [← Bool.not_eq_true, standing_iff h hc]
  obtain ⟨t, ha⟩ | ha := ha
  · have hplace : a ∈ s.cells free recovered (.stack t) := ha
    exact not_exists.mpr (hc.outside hplace nofun nofun).2
  · have hplace : a ∈ s.cells free recovered .leased := ha
    exact not_exists.mpr (hc.outside hplace nofun nofun).2

omit [DecidableEq τ] in
theorem outside_of (h : Inv (s.recovery history)) (hs : Sound s)
    (ha : (∃ t, a ∈ (s.thread t).stack) ∨ a ∈ s.leased) (hfree : ∀ t f, (s.thread t).carried? ≠ some (f, a)) :
    (s.recovery history).Outside a := by
  refine ⟨not_standing h hs ha, fun t hcarried => ?_⟩
  rw [carried_recovery] at hcarried
  obtain ⟨⟨f, b⟩, hb, rfl⟩ := Option.map_eq_some_iff.mp hcarried
  exact hfree t f hb

omit [DecidableEq τ] [DecidableEq ν] in
theorem stack_free (hs : Sound s) (hnone : ∀ f, (s.thread t).carried? ≠ some (f, a)) (ha : a ∈ (s.thread t).stack)
    (t' : τ) (f : Bool) : (s.thread t').carried? ≠ some (f, a) := by
  intro hcarried
  obtain ⟨free, recovered, hc⟩ := hs.conserved
  have hheld : a ∈ s.cells free recovered (if f then .stack t' else .leased) := hs.carried.held hcarried
  have hmine : a ∈ s.cells free recovered (.stack t) := ha
  have hplace := hc.placed.apart hheld hmine
  cases f with
  | true =>
    obtain rfl := Place.stack.inj hplace
    exact hnone true hcarried
  | false => cases hplace

omit [DecidableEq τ] [DecidableEq ν] in
theorem idle_free (hidle : (s.thread t).phase = .idle) (f : Bool) : (s.thread t).carried? ≠ some (f, a) := by
  rw [carried_idle hidle]
  exact (Option.some_ne_none _).symm

end Outside

section Paths

variable [DecidableEq τ] [DecidableEq ν] {recoveryIndex : τ → Fin maxThreads} {s : Heap τ ν} {t : τ}
  {history : List (Move ν)} {a : ν} {o : Option ν}

abbrev freshSystem (recoveryIndex : τ → Fin maxThreads) : System (Stacks τ ν) (RecoveryStacks.Event τ ν) :=
  (stackSystem τ ν recoveryIndex).restrict fun r e => e.Fresh recoveryIndex r

theorem inv_of_fresh {r : Stacks τ ν} (h : (freshSystem recoveryIndex).Reachable r) : Inv r := by
  refine System.Reachable.invariant (fun _ => inv_init) ?_ h
  rintro r e r' - hr ⟨hfresh, henabled, rfl⟩
  exact hr.step henabled hfresh

theorem path_linkUp (r : Stacks τ ν) (l : List ν) (hout : ∀ a ∈ l, r.Outside a) :
    (freshSystem recoveryIndex).Path r { r with next := linkUp r.next l o } := by
  induction l with
  | nil => exact .refl
  | cons a l ih =>
    have ha : r.Outside a := hout a List.mem_cons_self
    refine .tail (ih fun b hb => hout b (List.mem_cons_of_mem a hb)) (e := .relink a (l.head?.or o)) ?_
    exact ⟨trivial, ha, rfl⟩

theorem path_push {r : Stacks τ ν} (hidle : r.phase t = .idle) (hout : r.Outside a) :
    (freshSystem recoveryIndex).Path r (r.setPhase t (.loading a)) :=
  .tail .refl (e := RecoveryStacks.Event.push t a) ⟨trivial, ⟨hidle, hout⟩, rfl⟩

theorem path_popAny {r : Stacks τ ν} (hidle : r.phase t = .idle) :
    (freshSystem recoveryIndex).Path r (r.setPhase t (.probing 0)) :=
  .tail .refl (e := RecoveryStacks.Event.popAny t) ⟨trivial, hidle, rfl⟩

end Paths

section Steps

variable [DecidableEq τ] [DecidableEq ν] {recoveryIndex : τ → Fin maxThreads} {s s' u : Heap τ ν} {t : τ}
  {history : List (Move ν)} {item : ν} {tssOk lockOk spurious : Bool} {e : StaticHeap.Event τ ν}

def Follows (recoveryIndex : τ → Fin maxThreads) (s s' : Heap τ ν) : Prop :=
  ∀ history, (freshSystem recoveryIndex).Reachable (s.recovery history) →
    ∃ history', (freshSystem recoveryIndex).Path (s.recovery history) (s'.recovery history')

theorem Follows.same (h : ∀ history, s'.recovery history = s.recovery history) : Follows recoveryIndex s s' := by
  intro history _
  refine ⟨history, ?_⟩
  rw [h history]
  exact .refl

theorem Follows.path (h : ∀ history, (freshSystem recoveryIndex).Reachable (s.recovery history) →
    (freshSystem recoveryIndex).Path (s.recovery history) (s'.recovery history)) : Follows recoveryIndex s s' :=
  fun history hreach => ⟨history, h history hreach⟩

omit [DecidableEq ν] in
theorem recovery_ensureTls (htls : s.ensureTls t tssOk = some s') (history : List (Move ν)) :
    s'.recovery history = s.recovery history := by
  rw [ensureTls_eq htls]
  exact recovery_setThread_same rfl

omit [DecidableEq τ] [DecidableEq ν] in
theorem phase_recovery (hphase : (s.thread t).phase = .idle) : (s.recovery history).phase t = .idle := by
  change (s.thread t).phase.recovery = .idle
  rw [hphase]
  rfl

theorem follows_lease (hidle : (s.thread t).phase = .idle) :
    Follows recoveryIndex s (s.lease t tssOk lockOk).1 := by
  unfold Heap.lease
  cases (s.thread t).stack.getLast? with
  | some item => exact .same fun _ => recovery_setThread_same (s := s) rfl
  | none =>
    obtain hfail | ⟨s', htls, ⟨head, -, htake⟩ | ⟨-, hprobe⟩⟩ := refill_cases s t tssOk lockOk
    · simp only [hfail]
      exact .same fun _ => rfl
    · simp only [htake]
      refine .same fun history => ?_
      rw [← recovery_ensureTls htls history]
      exact recovery_setThread_same (s := s') rfl
    · simp only [hprobe]
      refine .path fun history _ => ?_
      have hgo : (s'.setPhase t (.probing 0)).recovery history = (s.recovery history).setPhase t (.probing 0) := by
        rw [Heap.setPhase, recovery_setThread, recovery_ensureTls htls]
        rfl
      rw [hgo]
      exact path_popAny (phase_recovery hidle)

theorem path_relink (hs : Sound s) (hreach : (freshSystem recoveryIndex).Reachable (s.recovery history))
    (hidle : (s.thread t).phase = .idle) {l : List ν} (hl : ∀ a ∈ l, a ∈ (s.thread t).stack) {w : Thread ν}
    (hw : w.phase.recovery = .idle) {o : Option ν} (hnext : s'.next = linkUp s.next l o)
    (hslots : s'.recoverySlots = s.recoverySlots) (hthread : s'.thread = Function.update s.thread t w) :
    (freshSystem recoveryIndex).Path (s.recovery history) (s'.recovery history) := by
  have hsame : s'.recovery history = { s.recovery history with next := linkUp s.next l o } := by
    have hphase : (s.setThread t w).recovery history = s.recovery history := by
      refine recovery_setThread_same ?_
      rw [hw, hidle]
      rfl
    have hrest : s'.recovery history = { (s.setThread t w).recovery history with next := linkUp s.next l o } := by
      unfold Heap.recovery
      rw [hnext, hslots, hthread]
      rfl
    rw [hrest, hphase]
  rw [hsame]
  refine path_linkUp (s.recovery history) l fun a ha => ?_
  exact outside_of (inv_of_fresh hreach) hs (.inl ⟨t, hl a ha⟩) (stack_free hs (idle_free hidle) (hl a ha))

theorem follows_releasePtr (hs : Sound s) (hidle : (s.thread t).phase = .idle) (hitem : item ∈ s.leased)
    (hfree : ∀ t' f, (s.thread t').carried? ≠ some (f, item)) :
    Follows recoveryIndex s (s.releasePtr t item lockOk).1 := by
  unfold Heap.releasePtr Heap.spillToGlobal
  split
  · exact .same fun _ => recovery_setThread_same (s := s) rfl
  · split
    · refine .path fun history hreach => ?_
      exact path_relink hs hreach hidle (fun a ha => List.mem_of_mem_take ha) (by rw [hidle]; rfl) rfl rfl rfl
    · refine .path fun history hreach => ?_
      dsimp only
      rw [Heap.setPhase, recovery_setThread]
      exact path_push (phase_recovery hidle) (outside_of (inv_of_fresh hreach) hs (.inr hitem) hfree)

theorem follows_release (hs : Sound s) (hidle : (s.thread t).phase = .idle) (hitem : item ∈ s.leased)
    (hfree : ∀ t' f, (s.thread t').carried? ≠ some (f, item)) :
    Follows recoveryIndex s (s.release t item tssOk lockOk).1 := by
  unfold Heap.release
  cases htls : s.ensureTls t tssOk with
  | none => exact .same fun _ => rfl
  | some s' =>
    obtain ⟨hs', hleased, hidle', -, hcarried⟩ := hs.ensureTls hidle htls
    have hrest : Follows recoveryIndex s' (s'.releasePtr t item lockOk).1 :=
      follows_releasePtr hs' hidle' (hleased ▸ hitem) fun t' f => hcarried t' ▸ hfree t' f
    intro history hreach
    rw [← recovery_ensureTls htls history] at hreach ⊢
    exact hrest history hreach

omit [DecidableEq ν] in
theorem recovery_look (s : Heap τ ν) (t : τ) (history : List (Move ν)) (probe : ℕ) (o : Option ν) :
    (s.look t probe o).1.recovery history = (s.recovery history).look t probe o := by
  unfold Heap.look Stacks.look
  cases o with
  | some head => exact recovery_setThread ..
  | none =>
    unfold Heap.probeNext
    by_cases hmore : probe + 1 < maxThreads
    · simp only [if_pos hmore]
      exact recovery_setThread ..
    · simp only [if_neg hmore]
      exact recovery_setThread ..

theorem path_advance {r : Stacks τ ν} (hphase : r.phase t ≠ .idle)
    (hfresh : (RecoveryStacks.Event.advance t spurious).Fresh recoveryIndex r) :
    (freshSystem recoveryIndex).Path r (r.advance t recoveryIndex spurious) :=
  .tail .refl (e := RecoveryStacks.Event.advance t spurious) ⟨hfresh, hphase, rfl⟩

omit [DecidableEq τ] [DecidableEq ν] in
theorem fresh_of_clean (hclean : (StaticHeap.Event.advance t spurious).Clean recoveryIndex s) :
    (RecoveryStacks.Event.advance t spurious).Fresh recoveryIndex (s.recovery history) := by
  cases spurious with
  | true => exact trivial
  | false =>
    change ((s.thread t).phase.recovery).Fresh recoveryIndex (s.recovery history) t
    cases hphase : (s.thread t).phase with
    | swapping probe head next => exact fun hslot => (hclean probe head next hphase rfl hslot).symm
    | _ => exact trivial

omit [DecidableEq ν] in
theorem recovery_slot (s : Heap τ ν) (t : τ) (w : Thread ν) (k : Fin maxThreads) (o : Option ν) (leased : List ν)
    (m : Move ν) (history : List (Move ν)) :
    Heap.recovery { s.setThread t w with
      recoverySlots := Function.update s.recoverySlots k o
      leased } (m :: history) =
      { (s.recovery history).setPhase t w.phase.recovery with
        slots := Function.update s.recoverySlots k o
        history := m :: history } := by
  rw [← recovery_setThread]
  rfl

theorem follows_pushFlushed {o : Option ν} (hs : Sound s) (hphase : (s.thread t).phase = .publishing true item o)
    (hclean : (StaticHeap.Event.advance t false).Clean recoveryIndex s)
    (hslot : s.recoverySlots (recoveryIndex t) = o) :
    Follows recoveryIndex s (s.pushFlushed t (recoveryIndex t) item) := by
  intro history hreach
  have hbusy : (s.recovery history).phase t = .publishing item o := by
    change (s.thread t).phase.recovery = _
    rw [hphase]
    rfl
  have hpush : (freshSystem recoveryIndex).Path (s.recovery history)
      ((s.recovery history).pushSlot t (recoveryIndex t) item) := by
    have hfresh : (RecoveryStacks.Event.advance t false).Fresh recoveryIndex (s.recovery history) :=
      fresh_of_clean hclean
    have hpath := path_advance (r := s.recovery history) (t := t) (by rw [hbusy]; exact nofun) hfresh
    have hgo : (s.recovery history).advance t recoveryIndex false =
        (s.recovery history).pushSlot t (recoveryIndex t) item := by
      unfold Stacks.advance
      rw [hbusy]
      exact if_pos ⟨hslot, rfl⟩
    rwa [hgo] at hpath
  refine ⟨.pushed item :: history, hpush.trans ?_⟩
  obtain ⟨rest, hstack⟩ : ∃ rest, (s.thread t).stack = item :: rest := by
    have hbottom := (hs.carried.own t).bottom item (by rw [Thread.carried?, hphase])
    exact List.head?_eq_some_iff.mp hbottom
  have hgo : (s.pushFlushed t (recoveryIndex t) item).recovery (.pushed item :: history) =
      ((s.recovery history).pushSlot t (recoveryIndex t) item).setPhase t
        ((rest.head?.map (Phase.pushing true)).getD .gone).recovery := by
    refine (recovery_slot s t { s.thread t with
      stack := (s.thread t).stack.tail
      phase := ((s.thread t).stack.tail.head?.map (Phase.pushing true)).getD .gone } _ _ s.leased _ history).trans ?_
    unfold Stacks.setPhase Stacks.pushSlot Stacks.setPhase
    rw [Function.update_idem, hstack]
    rfl
  rw [hgo]
  cases rest with
  | nil =>
    have hstay : ((s.recovery history).pushSlot t (recoveryIndex t) item).setPhase t .idle =
        (s.recovery history).pushSlot t (recoveryIndex t) item := by
      unfold Stacks.setPhase Stacks.pushSlot Stacks.setPhase
      rw [Function.update_idem]
    change (freshSystem recoveryIndex).Path _
      (((s.recovery history).pushSlot t (recoveryIndex t) item).setPhase t .idle)
    rw [hstay]
    exact .refl
  | cons b rest =>
    obtain ⟨free, recovered, hc⟩ := hs.conserved
    have hnodup : (item :: b :: rest).Nodup := hstack ▸ hc.placed.nodup (.stack t)
    have hb : b ∈ (s.thread t).stack := hstack ▸ List.mem_cons_of_mem item List.mem_cons_self
    have hne : item ≠ b := fun heq => (List.nodup_cons.mp hnodup).1 (heq ▸ List.mem_cons_self)
    have hfree (f : Bool) : (s.thread t).carried? ≠ some (f, b) := by
      rw [Thread.carried?, hphase]
      exact fun hcarried => hne (congrArg Prod.snd (Option.some.inj hcarried))
    have hout := outside_of (inv_of_fresh hreach) hs (.inl ⟨t, hb⟩) (stack_free hs hfree hb)
    refine path_push (Function.update_self ..) ⟨?_, fun t' hcarried => ?_⟩
    · exact (standing_ne (.inl rfl) hne).trans hout.1
    · obtain ⟨-, hw⟩ | ⟨-, hw⟩ := phase_update (s.recovery history) t .idle t'
      · have hnone : (RecoveryStacks.Phase.idle : RecoveryStacks.Phase ν).carried = some b := hw ▸ hcarried
        cases hnone
      · exact hout.2 t' (hw ▸ hcarried)

theorem follows_advance (hs : Sound s) (henabled : (StaticHeap.Event.advance t spurious).Enabled s)
    (hclean : (StaticHeap.Event.advance t spurious).Clean recoveryIndex s) :
    Follows recoveryIndex s (s.advance t recoveryIndex spurious).1 := by
  have hstep (history history' : List (Move ν)) (hne : (s.recovery history).phase t ≠ .idle)
      (hsame : (s.advance t recoveryIndex spurious).1.recovery history' =
        (s.recovery history).advance t recoveryIndex spurious) :
      ∃ history', (freshSystem recoveryIndex).Path (s.recovery history)
        ((s.advance t recoveryIndex spurious).1.recovery history') := by
    refine ⟨history', ?_⟩
    rw [hsame]
    exact path_advance hne (fresh_of_clean hclean)
  have hat (history : List (Move ν)) : (s.recovery history).phase t = (s.thread t).phase.recovery := rfl
  cases hphase : (s.thread t).phase with
  | idle => exact absurd hphase henabled.1
  | gone => exact absurd hphase henabled.2
  | probing probe =>
    intro history _
    refine hstep history history (by rw [hat, hphase]; exact nofun) ?_
    unfold Heap.advance Stacks.advance
    rw [hat, hphase]
    exact recovery_look ..
  | holding probe head =>
    intro history _
    refine hstep history history (by rw [hat, hphase]; exact nofun) ?_
    unfold Heap.advance Stacks.advance
    rw [hat, hphase]
    exact recovery_setThread ..
  | swapping probe head next =>
    intro history _
    have hne : (s.recovery history).phase t ≠ .idle := by
      rw [hat, hphase]
      exact nofun
    by_cases htaken : s.recoverySlots (Heap.slotAt recoveryIndex t probe) = some head ∧ spurious = false
    · refine hstep history (.popped head :: history) hne ?_
      unfold Heap.advance Stacks.advance
      rw [hat, hphase]
      dsimp only [Phase.recovery]
      rw [if_pos htaken]
      refine (recovery_slot s t { s.thread t with phase := .idle } _ _ (head :: s.leased) _ history).trans ?_
      exact (if_pos htaken).symm
    · refine hstep history history hne ?_
      unfold Heap.advance Stacks.advance
      rw [hat, hphase]
      dsimp only [Phase.recovery]
      rw [if_neg htaken]
      refine (recovery_look ..).trans ?_
      exact (if_neg htaken).symm
  | pushing flush item =>
    intro history _
    refine hstep history history (by rw [hat, hphase]; exact nofun) ?_
    unfold Heap.advance Stacks.advance
    rw [hat, hphase]
    exact recovery_setThread ..
  | linking flush item expected =>
    intro history _
    refine hstep history history (by rw [hat, hphase]; exact nofun) ?_
    unfold Heap.advance Stacks.advance
    rw [hat, hphase]
    have hphases := recovery_setThread s t { s.thread t with phase := .publishing flush item expected } history
    unfold Heap.recovery at hphases ⊢
    exact congrArg (fun r : Stacks τ ν => r.setNext item expected) hphases
  | publishing flush item expected =>
    by_cases htaken : s.recoverySlots (recoveryIndex t) = expected ∧ spurious = false
    · obtain ⟨hslot, rfl⟩ := htaken
      have hgo : (s.advance t recoveryIndex false).1 =
          if flush then s.pushFlushed t (recoveryIndex t) item else s.pushReleased t (recoveryIndex t) item := by
        unfold Heap.advance
        rw [hphase]
        dsimp only
        rw [if_pos ⟨hslot, rfl⟩]
        split
        · rfl
        · rfl
      cases flush with
      | true =>
        rw [hgo]
        exact follows_pushFlushed hs hphase hclean hslot
      | false =>
        intro history _
        refine hstep history (.pushed item :: history) (by rw [hat, hphase]; exact nofun) ?_
        unfold Stacks.advance
        rw [hgo, hat, hphase]
        refine (recovery_slot s t { s.thread t with phase := .idle } _ _ (s.leased.erase item) _ history).trans ?_
        exact (if_pos ⟨hslot, rfl⟩).symm
    · intro history _
      refine hstep history history (by rw [hat, hphase]; exact nofun) ?_
      unfold Heap.advance Stacks.advance
      rw [hat, hphase]
      dsimp only [Phase.recovery]
      rw [if_neg htaken]
      refine (recovery_setThread ..).trans ?_
      exact (if_neg htaken).symm

theorem follows_exit (hs : Sound s) (hidle : (s.thread t).phase = .idle)
    (hclean : (StaticHeap.Event.exit t lockOk).Clean recoveryIndex s) : Follows recoveryIndex s (s.exit t lockOk) := by
  unfold Heap.exit
  cases hbottom : (s.thread t).stack.head? with
  | none =>
    exact .same fun _ => recovery_setThread_same (s := s) (by rw [hidle]; rfl)
  | some item =>
    have hitem : item ∈ (s.thread t).stack := List.mem_of_mem_head? hbottom
    have hregistered : (s.thread t).registered = true := by
      refine hclean.resolve_right fun hnil => ?_
      rw [hnil] at hitem
      exact List.not_mem_nil hitem
    dsimp only
    rw [if_pos hregistered]
    split
    · exact .path fun history hreach => path_relink hs hreach hidle (fun a ha => ha) rfl rfl rfl rfl
    · refine .path fun history hreach => ?_
      let linked : Heap τ ν :=
        { s with next := linkUp s.next (s.thread t).stack ((s.thread t).stack.getLast?.bind s.next) }
      have hlinked : (freshSystem recoveryIndex).Path (s.recovery history) (linked.recovery history) :=
        path_relink hs hreach hidle (fun a ha => ha) (by rw [hidle]; rfl) rfl rfl
          (Function.update_eq_self t s.thread).symm
      have hout : (linked.recovery history).Outside item :=
        outside_of (s := s) (inv_of_fresh hreach) hs (.inl ⟨t, hitem⟩) (stack_free hs (idle_free hidle) hitem)
      refine hlinked.trans ?_
      have hgo : (s.flushByPush t item).recovery history = (linked.recovery history).setPhase t (.loading item) :=
        recovery_setThread linked t { s.thread t with phase := .pushing true item } history
      rw [hgo]
      exact path_push (phase_recovery hidle) hout

theorem follows_step (hs : Sound s) (henabled : e.Enabled s) (hclean : e.Clean recoveryIndex s) :
    Follows recoveryIndex s (s.step recoveryIndex e).1 := by
  cases e with
  | lease t tssOk lockOk => exact follows_lease henabled
  | release t item checked tssOk lockOk =>
    obtain ⟨hidle, hitem, hfree⟩ := henabled
    simp only [Heap.step]
    split
    · exact follows_release hs hidle hitem hfree
    · exact follows_releasePtr hs hidle hitem hfree
  | advance t spurious => exact follows_advance hs henabled hclean
  | exit t lockOk => exact follows_exit hs henabled hclean

end Steps

section Run

variable [DecidableEq τ] {recoveryIndex : τ → Fin maxThreads} {y : ℕ} {s : Heap τ (Fin y)}

/-- In a run of clean steps the pool does with its recovery slots what their functions do, called from any threads:
no node is taken from them twice unless it was put there in between, and just what was put there and not taken since
can be reached from a slot, while it is neither leased nor in the stack of a thread. -/
theorem recovery_refines (h : ((heapSystem recoveryIndex y).restrict fun s e => e.Clean recoveryIndex s).Reachable s) :
    ∃ history, (freshSystem recoveryIndex).Reachable (s.recovery history) ∧ (s.recovery history).Safe ∧
      ∀ a, (standing history a = true ↔ ∃ k, Reaches s.next (s.recoverySlots k) a) ∧
        (standing history a = true → a ∉ s.leased ∧ ∀ t, a ∉ (s.thread t).stack) := by
  have hinit (s : Heap τ (Fin y)) (hs : s = initStaticHeap y) :
      ∃ r, (freshSystem recoveryIndex).init r ∧ ∃ history, r = s.recovery history := by
    refine ⟨s.recovery [], ?_, [], rfl⟩
    rw [hs]
    exact ⟨fun _ => rfl, fun _ => rfl, rfl⟩
  obtain ⟨r, hr, history, rfl⟩ := System.Reachable.simulates hinit (T := freshSystem recoveryIndex)
    (R := fun s r => ∃ history, r = s.recovery history)
    (fun s e s' r hs hr ⟨history, hrel⟩ ⟨hclean, henabled, hstep⟩ => by
      obtain ⟨history', hpath⟩ := follows_step (sound_reachable hs) henabled hclean history (hrel ▸ hr)
      exact ⟨_, hrel ▸ hstep ▸ hpath, history', rfl⟩) h
  have hinv := inv_of_fresh hr
  have hs := sound_reachable h
  refine ⟨history, hr, hinv.safe, fun a => ⟨?_, fun hstands => ⟨fun ha => ?_, fun t ha => ?_⟩⟩⟩
  · obtain ⟨free, recovered, hc⟩ := hs.conserved
    rw [standing_iff hinv hc]
    constructor
    · rintro ⟨k, hk⟩
      exact ⟨k, (hc.slots k).reaches hk⟩
    · rintro ⟨k, hk⟩
      exact ⟨k, (hc.slots k).mem_of_reaches hk⟩
  · rw [not_standing hinv hs (.inr ha)] at hstands
    cases hstands
  · rw [not_standing hinv hs (.inl ⟨t, ha⟩)] at hstands
    cases hstands

end Run

section Rescued

def onlyNode : Fin 1 := ⟨0, Nat.zero_lt_one⟩

def rescuedRun : List (StaticHeap.Event Bool (Fin 1)) :=
  [.lease true true true, .release true onlyNode true true true, .exit true false, .advance true false,
    .advance true false, .advance true false, .lease false true true, .advance false false, .advance false false,
    .advance false false]

theorem advances {s : Heap Bool (Fin 1)} {t : Bool} (phase : StaticHeap.Phase (Fin 1))
    (hphase : (s.thread t).phase = phase) (hbusy : phase ≠ .idle ∧ phase ≠ .gone)
    (hfresh : ∀ probe head next, phase = .swapping probe head next → next = s.next head) :
    (StaticHeap.Event.advance t false).Clean StaticHeap.firstSlot s ∧
      (StaticHeap.Event.advance t false).Enabled s := by
  subst hphase
  exact ⟨fun probe head next hswap _ _ => hfresh probe head next hswap, hbusy⟩

theorem rescuedRun_reachable : ((heapSystem StaticHeap.firstSlot 1).restrict
    fun s e => e.Clean StaticHeap.firstSlot s).Reachable (StaticHeap.after rescuedRun) := by
  rw [heapSystem, System.machine_restrict]
  refine System.reachable_foldl rescuedRun ⟨⟨trivial, rfl⟩, ⟨trivial, rfl, List.mem_singleton_self _, leased_once⟩,
    ⟨.inl rfl, rfl⟩, advances (.pushing true onlyNode) rfl (by simp) (by simp),
    advances (.linking true onlyNode none) rfl (by simp) (by simp),
    advances (.publishing true onlyNode none) rfl (by simp) (by simp), ⟨trivial, rfl⟩,
    advances (.probing 0) rfl (by simp) (by simp),
    advances (.holding 0 onlyNode) rfl (by simp) (by simp),
    advances (.swapping 0 onlyNode none) rfl (by simp) ?_, trivial⟩
  intro probe head next hswap
  cases hswap
  rfl

theorem recovery_refines_rescued :
    ∃ history, (freshSystem StaticHeap.firstSlot).Reachable ((StaticHeap.after rescuedRun).recovery history) ∧
      ((StaticHeap.after rescuedRun).recovery history).Safe ∧
      ∀ a, (standing history a = true ↔
          ∃ k, Reaches (StaticHeap.after rescuedRun).next ((StaticHeap.after rescuedRun).recoverySlots k) a) ∧
        (standing history a = true → a ∉ (StaticHeap.after rescuedRun).leased ∧
          ∀ t, a ∉ ((StaticHeap.after rescuedRun).thread t).stack) :=
  recovery_refines rescuedRun_reachable

end Rescued

end YumiBrowser.StaticHeap
