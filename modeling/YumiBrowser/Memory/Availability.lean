import YumiBrowser.Memory.Conservation

universe u v

namespace YumiBrowser.StaticHeap

open Transition Links

def Event.thread {τ : Type v} {ν : Type u} : Event τ ν → τ
  | lease t _ _ | release t _ _ _ _ | advance t _ | exit t _ => t

/-- The mutex can be locked where the event needs it. -/
def Event.Locks {τ : Type v} {ν : Type u} : Event τ ν → Prop
  | lease _ _ lockOk | release _ _ _ _ lockOk | exit _ lockOk => lockOk = true
  | advance _ _ => True

structure Heap.Only {τ : Type v} {ν : Type u} (s : Heap τ ν) (t : τ) (s' : Heap τ ν) : Prop where
  thread : ∀ t', t' ≠ t → s'.thread t' = s.thread t'
  globalMtxOk : s'.globalMtxOk = s.globalMtxOk

section Only

variable {τ : Type v} {ν : Type u} [DecidableEq τ] [DecidableEq ν] {s s' u : Heap τ ν} {t : τ}
  {recoveryIndex : τ → Fin maxThreads} {item : ν} {tssOk lockOk : Bool} {w : Thread ν}

omit [DecidableEq τ] [DecidableEq ν] in
theorem Heap.Only.refl (s : Heap τ ν) (t : τ) : s.Only t s := ⟨fun _ _ => rfl, rfl⟩

omit [DecidableEq τ] [DecidableEq ν] in
theorem Heap.Only.trans (h : s.Only t s') (h' : s'.Only t u) : s.Only t u :=
  ⟨fun t' ht => (h'.thread t' ht).trans (h.thread t' ht), h'.globalMtxOk.trans h.globalMtxOk⟩

omit [DecidableEq ν] in
theorem only_setThread : s.Only t (s.setThread t w) := ⟨fun _ => thread_ne, rfl⟩

omit [DecidableEq ν] in
theorem only_ensureTls (h : s.ensureTls t tssOk = some s') : s.Only t s' := by
  obtain rfl := ensureTls_eq h
  exact only_setThread

omit [DecidableEq ν] in
theorem only_lease : s.Only t (s.lease t tssOk lockOk).1 := by
  unfold Heap.lease
  split
  · exact ⟨fun _ => thread_ne, rfl⟩
  · cases refill_cases s t tssOk lockOk with
    | inl hfailed =>
      rw [hfailed]
      exact .refl s t
    | inr hcases =>
      obtain ⟨s', htls, hcases⟩ := hcases
      apply (only_ensureTls htls).trans
      cases hcases with
      | inl htake =>
        obtain ⟨head, _, heq⟩ := htake
        rw [heq]
        exact ⟨fun _ => thread_ne, rfl⟩
      | inr hprobe =>
        rw [hprobe.2]
        exact only_setThread

end Only

section Probes

variable {τ : Type v} {ν : Type u} [DecidableEq τ] [DecidableEq ν] {s s' : Heap τ ν} {t : τ}
  {recoveryIndex : τ → Fin maxThreads} {item : ν} {tssOk lockOk spurious : Bool} {e : Event τ ν}
  {p q : ℕ} {o : Option ν} {w : Thread ν}

end Probes

def Heap.Exhausted {τ : Type v} {ν : Type u} (s : Heap τ ν) (t : τ) : Prop :=
  ∀ n, n ∈ s.leased ∨ ∃ t', t' ≠ t ∧ n ∈ (s.thread t').stack

section Walks

variable {τ : Type v} [DecidableEq τ] {recoveryIndex : τ → Fin maxThreads} {y : ℕ}
  {s : Heap τ (Fin y)} {xs : List (System.Step (Heap τ (Fin y)) (Event τ (Fin y)))} {t : τ} {q : ℕ}
  {lockOk : Bool}

end Walks

structure Calm {τ : Type v} {ν : Type u} (s : Heap τ ν) : Prop where
  slots : ∀ k, s.recoverySlots k = none
  carried : ∀ t, (s.thread t).carried? = none
  globalMtxOk : s.globalMtxOk = true

section Calm

variable {τ : Type v} {ν : Type u} [DecidableEq τ] [DecidableEq ν] {s s' : Heap τ ν} {t : τ}
  {recoveryIndex : τ → Fin maxThreads} {item : ν} {tssOk spurious : Bool} {e : Event τ ν}

omit [DecidableEq τ] [DecidableEq ν] in
theorem Calm.only (h : Calm s) (honly : s.Only t s') (hslots : s'.recoverySlots = s.recoverySlots)
    (hcarried : (s'.thread t).carried? = none) : Calm s' := by
  refine ⟨fun k => hslots ▸ h.slots k, ?_, honly.globalMtxOk.trans h.globalMtxOk⟩
  intro t'
  by_cases ht : t' = t
  · exact ht ▸ hcarried
  · rw [honly.thread t' ht]
    exact h.carried t'

omit [DecidableEq ν] in
theorem Calm.setThread {w : Thread ν} (h : Calm s) (hcarried : w.carried? = none) :
    Calm (s.setThread t w) :=
  h.only only_setThread rfl (by rw [setThread_self]; exact hcarried)

omit [DecidableEq ν] in
theorem Calm.ensureTls (h : Calm s) (htls : s.ensureTls t tssOk = some s') : Calm s' := by
  obtain rfl := ensureTls_eq htls
  exact h.setThread (h.carried t)

omit [DecidableEq ν] in
theorem Calm.lease (h : Calm s) : Calm (s.lease t tssOk true).1 := by
  have hpop := @only_lease τ ν _ s t tssOk true
  unfold Heap.lease at hpop ⊢
  cases htop : (s.thread t).stack.getLast? with
  | some item =>
    rw [htop] at hpop
    apply h.only hpop rfl
    change ((s.setThread t _).thread t).carried? = none
    rw [setThread_self]
    exact h.carried t
  | none =>
    cases refill_cases s t tssOk true with
    | inl hfailed =>
      simp only [hfailed]
      exact h
    | inr hcases =>
      obtain ⟨s', htls, hcases⟩ := hcases
      have hs' := h.ensureTls htls
      cases hcases with
      | inl htake =>
        obtain ⟨head, _, heq⟩ := htake
        simp only [heq]
        refine hs'.only (t := t) ⟨fun _ => thread_ne, rfl⟩ rfl ?_
        change ((s'.setThread t _).thread t).carried? = none
        rw [setThread_self]
        exact hs'.carried t
      | inr hprobe =>
        simp only [hprobe.2]
        exact hs'.setThread rfl

theorem Calm.releasePtr (h : Calm s) : Calm (s.releasePtr t item true).1 := by
  have hlock : s.lockGlobal true = true := by
    rw [Heap.lockGlobal, h.globalMtxOk]
    rfl
  unfold Heap.releasePtr
  split
  · refine h.only (t := t) ⟨fun _ => thread_ne, rfl⟩ rfl ?_
    change ((s.setThread t _).thread t).carried? = none
    rw [setThread_self]
    exact h.carried t
  · rw [Heap.spillToGlobal, if_pos hlock]
    refine h.only (t := t) ⟨fun _ => thread_ne, rfl⟩ rfl ?_
    change ((s.setThread t _).thread t).carried? = none
    rw [setThread_self]
    exact h.carried t

omit [DecidableEq ν] in
theorem Calm.look (h : Calm s) (p : ℕ) (o : Option ν) : Calm (s.look t p o).1 := by
  unfold Heap.look
  cases o with
  | some head => exact h.setThread rfl
  | none =>
    simp only [Heap.probeNext]
    by_cases hmore : p + 1 < maxThreads
    · rw [if_pos hmore]
      exact h.setThread rfl
    · rw [if_neg hmore]
      exact h.setThread rfl

theorem Calm.advance (h : Calm s) : Calm (s.advance t recoveryIndex spurious).1 := by
  have hquiet := h.carried t
  unfold Heap.advance
  cases hphase : (s.thread t).phase with
  | idle => exact h
  | gone => exact h
  | probing p => exact h.look _ _
  | holding p head => exact h.setThread rfl
  | swapping p head next =>
    have hempty : ¬ (s.recoverySlots (Heap.slotAt recoveryIndex t p) = some head ∧ spurious = false) := by
      rw [h.slots]
      simp
    simp only [if_neg hempty]
    exact h.look _ _
  | pushing f item =>
    rw [Thread.carried?, hphase] at hquiet
    cases hquiet
  | linking f item expected =>
    rw [Thread.carried?, hphase] at hquiet
    cases hquiet
  | publishing f item expected =>
    rw [Thread.carried?, hphase] at hquiet
    cases hquiet

theorem Calm.exit (h : Calm s) : Calm (s.exit t true) := by
  have hlock : s.lockGlobal true = true := by
    rw [Heap.lockGlobal, h.globalMtxOk]
    rfl
  unfold Heap.exit
  split
  · rw [if_pos hlock]
    split
    · refine h.only (t := t) ⟨fun _ => thread_ne, rfl⟩ rfl ?_
      change ((s.setThread t _).thread t).carried? = none
      rw [setThread_self]
      rfl
    · exact h.setThread rfl
  · exact h.setThread rfl

theorem Calm.step (h : Calm s) (hlocks : e.Locks) : Calm (s.step recoveryIndex e).1 := by
  cases e with
  | lease t tssOk lockOk =>
    obtain rfl : lockOk = true := hlocks
    exact h.lease
  | release t item checked tssOk lockOk =>
    obtain rfl : lockOk = true := hlocks
    simp only [Heap.step, Heap.release]
    split
    · split
      · exact h
      · next s' htls => exact (h.ensureTls htls).releasePtr
    · exact h.releasePtr
  | advance t spurious => exact h.advance
  | exit t lockOk =>
    obtain rfl : lockOk = true := hlocks
    exact h.exit

end Calm

section Answer

variable {τ : Type v} [DecidableEq τ] {recoveryIndex : τ → Fin maxThreads} {y : ℕ}
  {s : Heap τ (Fin y)} {x : System.Step (Heap τ (Fin y)) (Event τ (Fin y))}
  {xs : List (System.Step (Heap τ (Fin y)) (Event τ (Fin y)))} {t : τ}

end Answer

section Hoarded

end Hoarded

end YumiBrowser.StaticHeap
