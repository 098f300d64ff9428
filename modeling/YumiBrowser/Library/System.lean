import Mathlib.Data.List.Induction
import Mathlib.Logic.Relation

universe u v

namespace Transition

/-- A labelled transition system with a set of initial states. -/
structure System (σ : Type u) (ε : Type v) where
  init : σ → Prop
  step : σ → ε → σ → Prop

namespace System

variable {σ : Type u} {ε : Type v} {S : System σ ε} {I J : σ → Prop}

inductive Reachable (S : System σ ε) : σ → Prop
  | init : S.init s → Reachable S s
  | step : Reachable S s → S.step s e t → Reachable S t

/-- The runs that take a step only where `ok` allows it. -/
def restrict (S : System σ ε) (ok : σ → ε → Prop) : System σ ε where
  init := S.init
  step s e t := ok s e ∧ S.step s e t

def Initially (S : System σ ε) (I : σ → Prop) : Prop := ∀ s, S.init s → I s

/-- One step preserves `I`, `J` being known of the state it starts from. -/
def Preserves (S : System σ ε) (J I : σ → Prop) : Prop :=
  ∀ s e t, J s → I s → S.step s e t → I t

theorem Reachable.invariant (h0 : S.Initially I) (hs : S.Preserves (fun _ => True) I) :
    S.Reachable s → I s := by
  intro h
  induction h with
  | init h => exact h0 _ h
  | step _ hstep ih => exact hs _ _ _ trivial ih hstep

theorem Reachable.invariant_under (hJ : ∀ s, S.Reachable s → J s)
    (h0 : S.Initially I) (hs : S.Preserves J I) : S.Reachable s → I s := by
  intro h
  induction h with
  | init h => exact h0 _ h
  | step h hstep ih => exact hs _ _ _ (hJ _ h) ih hstep

theorem Reachable.of_restrict {ok : σ → ε → Prop} :
    (S.restrict ok).Reachable s → S.Reachable s := by
  intro h
  induction h with
  | init h => exact .init h
  | step _ hstep ih => exact .step ih hstep.2

theorem Reachable.restrict_mono {ok ok' : σ → ε → Prop} (himp : ∀ s e, ok s e → ok' s e) :
    (S.restrict ok).Reachable s → (S.restrict ok').Reachable s := by
  intro h
  induction h with
  | init h => exact .init h
  | step _ hstep ih => exact .step ih ⟨himp _ _ hstep.1, hstep.2⟩

/-- `t` can be reached from `s`. -/
inductive Path (S : System σ ε) : σ → σ → Prop
  | refl : Path S s s
  | tail : Path S s t → S.step t e u → Path S s u

theorem Path.reachable (h : S.Path s t) : S.Reachable s → S.Reachable t := by
  intro hs
  induction h with
  | refl => exact hs
  | tail _ hstep ih => exact .step ih hstep

theorem Path.keeps (hJ : ∀ s, S.Reachable s → J s) (hs : S.Preserves J I)
    (hr : S.Reachable s) (hp : S.Path s t) : I s → I t := by
  intro hI
  induction hp with
  | refl => exact hI
  | tail hp hstep ih => exact hs _ _ _ (hJ _ (hp.reachable hr)) ih hstep

theorem Path.invariant (hs : S.Preserves (fun _ => True) I) (hp : S.Path s t) : I s → I t := by
  intro hI
  induction hp with
  | refl => exact hI
  | tail _ hstep ih => exact hs _ _ _ trivial ih hstep

/-- A step of a run, with the states around it. -/
structure Step (σ : Type u) (ε : Type v) where
  before : σ
  event : ε
  after : σ

/-- A run from `s` to `t`, by its steps. -/
inductive Walk (S : System σ ε) : σ → List (Step σ ε) → σ → Prop
  | nil : Walk S s [] s
  | cons : S.step s e t → Walk S t xs u → Walk S s (⟨s, e, t⟩ :: xs) u

theorem Walk.append (h : S.Walk s (xs ++ ys) u) : ∃ t, S.Walk s xs t ∧ S.Walk t ys u := by
  induction xs generalizing s with
  | nil => exact ⟨s, .nil, h⟩
  | cons x xs ih =>
    cases h with
    | cons hstep hrest =>
      obtain ⟨t, hleft, hright⟩ := ih hrest
      exact ⟨t, .cons hstep hleft, hright⟩

theorem Walk.trans (h : S.Walk s xs t) (h' : S.Walk t ys u) : S.Walk s (xs ++ ys) u := by
  induction h with
  | nil => exact h'
  | cons hstep _ ih => exact .cons hstep (ih h')

theorem Walk.of_restrict {ok : σ → ε → Prop} (h : (S.restrict ok).Walk s xs t) : S.Walk s xs t := by
  induction h with
  | nil => exact .nil
  | cons hstep _ ih => exact .cons hstep.2 ih

theorem Walk.reachable (hs : S.Reachable s) (h : S.Walk s xs t) : S.Reachable t := by
  induction h with
  | nil => exact hs
  | cons hstep _ ih => exact ih (.step hs hstep)

theorem Walk.step (h : S.Walk s xs t) (hx : x ∈ xs) : S.step x.before x.event x.after := by
  induction h with
  | nil => exact nomatch hx
  | cons hstep _ ih =>
    cases hx with
    | head => exact hstep
    | tail _ hx => exact ih hx

theorem Walk.mem (hs : S.Reachable s) (h : S.Walk s xs t) (hx : x ∈ xs) : S.Reachable x.before := by
  induction h with
  | nil => exact nomatch hx
  | cons hstep _ ih =>
    cases hx with
    | head => exact hs
    | tail _ hx => exact ih (.step hs hstep) hx

theorem Walk.keeps (hkeep : ∀ x ∈ xs, I x.before → I x.after) (h : S.Walk s xs t) (hs : I s) :
    ∀ x ∈ xs, I x.after := by
  induction h with
  | nil => exact fun _ hx => nomatch hx
  | cons _ _ ih =>
    have hnext := hkeep _ (List.mem_cons_self ..) hs
    intro x hx
    cases hx with
    | head => exact hnext
    | tail _ hx => exact ih (fun y hy => hkeep y (List.mem_cons_of_mem _ hy)) hnext x hx

/-- The system of a function: `next` is what an event does where it is enabled. -/
def machine (start : σ) (enabled : σ → ε → Prop) (next : σ → ε → σ) : System σ ε where
  init s := s = start
  step s e t := enabled s e ∧ t = next s e

variable {start : σ} {enabled ok : σ → ε → Prop} {next : σ → ε → σ}

theorem machine_restrict : (machine start enabled next).restrict ok =
    machine start (fun s e => ok s e ∧ enabled s e) next := by
  simp only [restrict, machine, and_assoc]

/-- Every event of the list is enabled where it happens. -/
def Enables (enabled : σ → ε → Prop) (next : σ → ε → σ) : σ → List ε → Prop
  | _, [] => True
  | s, e :: es => enabled s e ∧ Enables enabled next (next s e) es

instance Enables.decidable [∀ s e, Decidable (enabled s e)] :
    (s : σ) → (es : List ε) → Decidable (Enables enabled next s es)
  | _, [] => .isTrue trivial
  | s, e :: es =>
    have := Enables.decidable (next s e) es
    inferInstanceAs (Decidable (_ ∧ _))

theorem Enables.along (es : List ε) (h : Enables enabled next s es) :
    ∀ xs e ys, es = xs ++ e :: ys → enabled (xs.foldl next s) e := by
  induction es generalizing s with
  | nil =>
    intro xs e ys heq
    exact absurd heq.symm (List.append_ne_nil_of_right_ne_nil xs (List.cons_ne_nil e ys))
  | cons e es ih =>
    intro xs f ys heq
    cases xs with
    | nil =>
      obtain ⟨rfl, -⟩ := List.cons.inj heq
      exact h.1
    | cons x xs =>
      obtain ⟨rfl, hrest⟩ := List.cons.inj heq
      exact ih h.2 xs f ys hrest

theorem Reachable.run {S : System σ ε} (hstep : ∀ s e, enabled s e → S.step s e (next s e))
    (es : List ε) (h : Enables enabled next s es) : S.Reachable s → S.Reachable (es.foldl next s) := by
  intro hs
  induction es generalizing s with
  | nil => exact hs
  | cons e es ih => exact ih h.2 (.step hs (hstep s e h.1))

theorem holds_along {C : σ → ε → Prop} (hI : ∀ s e, I s → C s e → I (next s e)) (hi : I s) (es : List ε)
    (hes : ∀ xs e ys, es = xs ++ e :: ys → C (xs.foldl next s) e) :
    ∀ xs ys, es = xs ++ ys → I (xs.foldl next s) := by
  intro xs
  induction xs using List.reverseRecOn with
  | nil => exact fun _ _ => hi
  | append_singleton xs e ih =>
    intro ys heq
    rw [List.append_assoc] at heq
    rw [List.foldl_append]
    exact hI _ e (ih (e :: ys) heq) (hes xs e ys heq)

theorem holds_along_iff {C : σ → ε → Prop} (hJ : ∀ s e, J s → J (next s e))
    (hI : ∀ s e, J s → I s → (I (next s e) ↔ C s e)) (hj : J s) (hi : I s) (es : List ε) :
    (∀ xs ys, es = xs ++ ys → I (xs.foldl next s)) ↔
      ∀ xs e ys, es = xs ++ e :: ys → C (xs.foldl next s) e := by
  have hkeeps (xs : List ε) : J (xs.foldl next s) :=
    holds_along (C := fun _ _ => True) (fun s e hs _ => hJ s e hs) hj xs (fun _ _ _ _ => trivial) xs []
      (List.append_nil xs).symm
  constructor
  · intro hall xs e ys heq
    have hnext := hall (xs ++ [e]) ys (by rw [heq, List.append_assoc]; rfl)
    rw [List.foldl_append] at hnext
    exact (hI _ e (hkeeps xs) (hall xs (e :: ys) heq)).mp hnext
  · intro hall xs ys heq
    have hboth := holds_along (I := fun s => J s ∧ I s)
      (fun s e hs hC => ⟨hJ s e hs.1, (hI s e hs.1 hs.2).mpr hC⟩) ⟨hj, hi⟩ es hall xs ys heq
    exact hboth.2

def worked (next : σ → ε → σ) (busy : σ → ε → Bool) : σ → List ε → ℕ
  | _, [] => 0
  | s, e :: es => (if busy s e then 1 else 0) + worked next busy (next s e) es

theorem worked_le {busy : σ → ε → Bool} {μ : σ → ℕ} {C : σ → ε → Prop}
    (hle : ∀ s e, C s e → μ (next s e) ≤ μ s) (hlt : ∀ s e, C s e → busy s e = true → μ (next s e) < μ s)
    (s : σ) (es : List ε) (hes : ∀ xs e ys, es = xs ++ e :: ys → C (xs.foldl next s) e) :
    worked next busy s es ≤ μ s := by
  induction es generalizing s with
  | nil => exact Nat.zero_le _
  | cons e es ih =>
    have hC : C s e := hes [] e es rfl
    have hrest := ih (next s e) fun xs f ys heq => hes (e :: xs) f ys (by rw [heq]; rfl)
    have hstep := hle s e hC
    unfold worked
    split
    · have hwork := hlt s e hC ‹_›
      omega
    · omega

def stepsOf (next : σ → ε → σ) : σ → List ε → List (Step σ ε)
  | _, [] => []
  | s, e :: es => ⟨s, e, next s e⟩ :: stepsOf next (next s e) es

theorem related_stepsOf {K : σ → Prop} {C : ε → Prop} {R : Step σ ε → Prop} (hJ : ∀ s e, J s → J (next s e))
    (hkeep : ∀ s e, J s → C e → K s → K (next s e)) (hR : ∀ s e, J s → C e → K s → R ⟨s, e, next s e⟩)
    (hs : J s) (hk : K s) (es : List ε) (hes : ∀ e ∈ es, C e) : ∀ y ∈ stepsOf next s es, R y := by
  induction es generalizing s with
  | nil => exact fun _ hy => absurd hy List.not_mem_nil
  | cons e es ih =>
    have he : C e := hes e List.mem_cons_self
    intro y hy
    rcases List.mem_cons.mp hy with rfl | hy
    · exact hR s e hs he hk
    · exact ih (hJ s e hs) (hkeep s e hs he hk) (fun e he => hes e (List.mem_cons_of_mem _ he)) y hy

theorem pairwise_stepsOf {K : Step σ ε → σ → Prop} {C : ε → ε → Prop} {R : Step σ ε → Step σ ε → Prop}
    (hJ : ∀ s e, J s → J (next s e)) (hset : ∀ s e, J s → K ⟨s, e, next s e⟩ (next s e))
    (hkeep : ∀ x s e, J s → C x.event e → K x s → K x (next s e))
    (hR : ∀ x s e, J s → C x.event e → K x s → R x ⟨s, e, next s e⟩) (hs : J s) (es : List ε)
    (hes : es.Pairwise C) : (stepsOf next s es).Pairwise R := by
  induction es generalizing s with
  | nil => exact .nil
  | cons e es ih =>
    obtain ⟨he, hes⟩ := List.pairwise_cons.mp hes
    refine .cons ?_ (ih (hJ s e hs) hes)
    exact related_stepsOf hJ (fun t f => hkeep ⟨s, e, next s e⟩ t f) (fun t f => hR ⟨s, e, next s e⟩ t f)
      (hJ s e hs) (hset s e hs) es he

theorem Walk.run {S : System σ ε} (hstep : ∀ s e, enabled s e → S.step s e (next s e))
    (es : List ε) (h : Enables enabled next s es) :
    S.Walk s (stepsOf next s es) (es.foldl next s) := by
  induction es generalizing s with
  | nil => exact .nil
  | cons e es ih => exact .cons (hstep s e h.1) (ih h.2)

theorem reachable_foldl (es : List ε) (h : Enables enabled next start es) :
    (machine start enabled next).Reachable (es.foldl next start) :=
  Reachable.run (S := machine start enabled next) (fun _ _ he => ⟨he, rfl⟩) es h (.init rfl)

end System

end Transition
