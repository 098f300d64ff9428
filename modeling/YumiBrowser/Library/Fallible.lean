import Mathlib.Logic.Basic

namespace Fallible

variable {ε σ τ α β : Type}

def after (x : EStateM ε σ α) (s : σ) : σ :=
  match x.run s with
  | .ok _ s' => s'
  | .error _ s' => s'

/-- Whatever comes of the run, `view` shows what it showed before. -/
def Leaves (view : σ → τ) (x : EStateM ε σ α) : Prop := ∀ s, view (after x s) = view s

/-- From a state in `P` a run returns into `Q` or throws into `E`. -/
def Ensures (P : σ → Prop) (x : EStateM ε σ α) (Q : α → σ → Prop) (E : σ → Prop) : Prop :=
  ∀ s, P s → (∀ a s', x.run s = .ok a s' → Q a s') ∧ (∀ e s', x.run s = .error e s' → E s')

/-- A run that throws leaves what `view` shows. -/
def AtomicAt (view : σ → τ) (x : EStateM ε σ α) (s : σ) : Prop :=
  ∀ e s', x.run s = .error e s' → view s' = view s

theorem run_bind_ok {x : EStateM ε σ α} {f : α → EStateM ε σ β} (h : x.run s = .ok a s') :
    (x >>= f).run s = (f a).run s' := by
  rw [EStateM.run_bind, h]

theorem run_bind_error {x : EStateM ε σ α} {f : α → EStateM ε σ β} (h : x.run s = .error e s') :
    (x >>= f).run s = .error e s' := by
  rw [EStateM.run_bind, h]

theorem run_tryCatch_ok {x : EStateM ε σ α} {handle : ε → EStateM ε σ α}
    (h : x.run s = .ok a s') : (tryCatch x handle).run s = .ok a s' := by
  have h : x s = .ok a s' := h
  change EStateM.tryCatch (fun _ => x s) handle s = _
  rw [h]
  rfl

theorem run_tryCatch_error {x : EStateM ε σ α} {handle : ε → EStateM ε σ α}
    (h : x.run s = .error e s') : (tryCatch x handle).run s = (handle e).run s' := by
  have h : x s = .error e s' := h
  change EStateM.tryCatch (fun _ => x s) handle s = _
  rw [h]
  rfl

theorem after_ok {x : EStateM ε σ α} (h : x.run s = .ok a s') : after x s = s' := by
  unfold after
  rw [h]

theorem after_error {x : EStateM ε σ α} (h : x.run s = .error e s') : after x s = s' := by
  unfold after
  rw [h]

theorem after_bind {x : EStateM ε σ α} {f : α → EStateM ε σ β} {p : σ → Prop} {s : σ}
    (hx : p (after x s)) (hf : ∀ a s', p s' → p (after (f a) s')) : p (after (x >>= f) s) := by
  cases h : x.run s with
  | error e s' =>
    rw [after_error h] at hx
    rw [after_error (run_bind_error h)]
    exact hx
  | ok a s' =>
    rw [after_ok h] at hx
    have hrest := hf a s' hx
    unfold after at hrest ⊢
    rwa [run_bind_ok h]

section Leaves

variable {view : σ → τ} {x : EStateM ε σ α} {f : α → EStateM ε σ β}

theorem Leaves.ok (h : Leaves view x) (hx : x.run s = .ok a s') : view s' = view s := by
  have hs := h s
  rwa [after_ok hx] at hs

theorem Leaves.error (h : Leaves view x) (hx : x.run s = .error e s') : view s' = view s := by
  have hs := h s
  rwa [after_error hx] at hs

theorem leaves_pure (a : α) : Leaves view (pure a : EStateM ε σ α) := fun _ => rfl

theorem leaves_throw (e : ε) : Leaves view (throw e : EStateM ε σ α) := fun _ => rfl

theorem leaves_get : Leaves view (get : EStateM ε σ σ) := fun _ => rfl

theorem leaves_modify {g : σ → σ} (h : ∀ s, view (g s) = view s) :
    Leaves view (modify g : EStateM ε σ PUnit) := h

theorem Leaves.bind (hx : Leaves view x) (hf : ∀ a, Leaves view (f a)) :
    Leaves view (x >>= f) := by
  intro s
  unfold after
  rw [EStateM.run_bind]
  cases h : x.run s with
  | error e s' => exact hx.error h
  | ok a s' => exact (hf a s').trans (hx.ok h)

theorem leaves_ite {p : Prop} [Decidable p] {y : EStateM ε σ α} (hx : p → Leaves view x)
    (hy : ¬ p → Leaves view y) : Leaves view (if p then x else y) := by
  split
  · exact hx ‹_›
  · exact hy ‹_›

theorem leaves_foldlM {step : β → α → EStateM ε σ β} (h : ∀ b a, Leaves view (step b a)) :
    ∀ (l : List α) b, Leaves view (l.foldlM step b) := by
  intro l
  induction l with
  | nil => exact leaves_pure
  | cons a l ih =>
    intro b
    rw [List.foldlM_cons]
    exact (h b a).bind ih

theorem Leaves.mono {view' : σ → ρ} (h : Leaves view x) (g : τ → ρ) (hg : ∀ s, view' s = g (view s)) :
    Leaves view' x := by
  intro s
  rw [hg, hg, h s]

end Leaves

section Ensures

variable {P : σ → Prop} {x : EStateM ε σ α} {Q : α → σ → Prop} {E : σ → Prop}

theorem Ensures.bind {R : β → σ → Prop} {f : α → EStateM ε σ β} (hx : Ensures P x Q E)
    (hf : ∀ a, Ensures (Q a) (f a) R E) : Ensures P (x >>= f) R E := by
  intro s hs
  rw [EStateM.run_bind]
  cases h : x.run s with
  | error e s' =>
    refine ⟨nofun, ?_⟩
    intro e' t ht
    cases ht
    exact (hx s hs).2 e s' h
  | ok a s' => exact hf a s' ((hx s hs).1 a s' h)

theorem Ensures.after (h : Ensures P x (fun _ => E) E) (hs : P s) : E (after x s) := by
  obtain ⟨hok, herr⟩ := h s hs
  cases hrun : x.run s with
  | ok a t =>
    rw [after_ok hrun]
    exact hok a t hrun
  | error e t =>
    rw [after_error hrun]
    exact herr e t hrun

theorem ensures_trivial (x : EStateM ε σ α) : Ensures P x (fun _ _ => True) fun _ => True :=
  fun _ _ => ⟨fun _ _ _ => trivial, fun _ _ _ => trivial⟩

theorem Ensures.get_bind {R : β → σ → Prop} {f : σ → EStateM ε σ β}
    (h : ∀ s, P s → Ensures P (f s) R E) : Ensures P (get >>= f) R E := by
  intro s hs
  exact h s hs s hs

theorem ensures_pure {a : α} (h : ∀ s, P s → Q a s) : Ensures P (pure a : EStateM ε σ α) Q E := by
  intro s hs
  refine ⟨?_, nofun⟩
  intro b t ht
  cases ht
  exact h s hs

theorem ensures_throw {e : ε} (h : ∀ s, P s → E s) :
    Ensures P (throw e : EStateM ε σ α) Q E := by
  intro s hs
  refine ⟨nofun, ?_⟩
  intro e' t ht
  cases ht
  exact h s hs

theorem Ensures.fact {p : Prop} (h : p → Ensures P x Q E) :
    Ensures (fun s => P s ∧ p) x (fun a s => Q a s ∧ p) E := by
  rintro s ⟨hs, hp⟩
  obtain ⟨hok, herr⟩ := h hp s hs
  exact ⟨fun a s' ha => ⟨hok a s' ha, hp⟩, herr⟩

theorem Ensures.of_fact {p : Prop} (h : p → Ensures P x Q E) :
    Ensures (fun s => P s ∧ p) x Q E := by
  rintro s ⟨hs, hp⟩
  exact h hp s hs

theorem Ensures.weaken {P' : σ → Prop} {Q' : α → σ → Prop} {E' : σ → Prop} (h : Ensures P x Q E)
    (hP : ∀ s, P' s → P s) (hQ : ∀ a s, Q a s → Q' a s) (hE : ∀ s, E s → E' s) :
    Ensures P' x Q' E' := by
  intro s hs
  obtain ⟨hok, herr⟩ := h s (hP s hs)
  exact ⟨fun a s' ha => hQ a s' (hok a s' ha), fun e s' he => hE s' (herr e s' he)⟩

theorem ensures_of_leaves {view : σ → τ} {p : τ → Prop} (h : Leaves view x) :
    Ensures (fun s => p (view s)) x (fun _ s => p (view s)) (fun s => p (view s)) := by
  intro s hs
  constructor
  · intro a s' ha
    rwa [h.ok ha]
  · intro e s' he
    rwa [h.error he]

theorem Ensures.keeping {view : σ → τ} {p : τ → Prop} (h : Ensures P x Q E) (hx : Leaves view x) :
    Ensures (fun s => P s ∧ p (view s)) x (fun a s => Q a s ∧ p (view s)) E := by
  rintro s ⟨hs, hp⟩
  obtain ⟨hok, herr⟩ := h s hs
  refine ⟨fun a s' ha => ⟨hok a s' ha, ?_⟩, herr⟩
  rwa [hx.ok ha]

theorem ensures_ite {p : Prop} [Decidable p] {y : EStateM ε σ α} (hx : p → Ensures P x Q E)
    (hy : ¬ p → Ensures P y Q E) : Ensures P (if p then x else y) Q E := by
  split
  · exact hx ‹_›
  · exact hy ‹_›

theorem ensures_modify {g : σ → σ} {Q : PUnit → σ → Prop} (h : ∀ s, P s → Q ⟨⟩ (g s)) :
    Ensures P (modify g : EStateM ε σ PUnit) Q E := by
  intro s hs
  refine ⟨?_, nofun⟩
  intro a t ht
  cases ht
  exact h s hs

theorem ensures_modifyGet {g : σ → α × σ} (h : ∀ s, P s → Q (g s).1 (g s).2) :
    Ensures P (modifyGet g : EStateM ε σ α) Q E := by
  intro s hs
  refine ⟨?_, nofun⟩
  intro a t ht
  cases ht
  exact h s hs

theorem ensures_tryCatch {R : σ → Prop} {handle : ε → EStateM ε σ α} (hx : Ensures P x Q R)
    (hh : ∀ e, Ensures R (handle e) Q E) : Ensures P (tryCatch x handle) Q E := by
  intro s hs
  cases h : x.run s with
  | ok a t =>
    rw [run_tryCatch_ok h]
    refine ⟨?_, nofun⟩
    intro a' t' ht
    cases ht
    exact (hx s hs).1 a t h
  | error e t =>
    rw [run_tryCatch_error h]
    exact hh e t ((hx s hs).2 e t h)

theorem ensures_foldlM {I : β → σ → Prop} {step : β → α → EStateM ε σ β}
    (h : ∀ b a, Ensures (I b) (step b a) I E) :
    ∀ (l : List α) b, Ensures (I b) (l.foldlM step b) I E := by
  intro l
  induction l with
  | nil => exact fun _ => ensures_pure fun _ hs => hs
  | cons a l ih =>
    intro b
    rw [List.foldlM_cons]
    exact (h b a).bind ih

end Ensures

section Atomic

variable {view : σ → τ} {x : EStateM ε σ α} {f : α → EStateM ε σ β} {s : σ}

theorem Leaves.atomicAt (h : Leaves view x) : AtomicAt view x s := fun _ _ he => h.error he

theorem AtomicAt.bind_leaves (hx : Leaves view x)
    (hf : ∀ a s', x.run s = .ok a s' → AtomicAt view (f a) s') : AtomicAt view (x >>= f) s := by
  intro e t ht
  rw [EStateM.run_bind] at ht
  cases h : x.run s with
  | error e' s' =>
    rw [h] at ht
    cases ht
    exact hx.error h
  | ok a s' =>
    rw [h] at ht
    exact (hf a s' h e t ht).trans (hx.ok h)

/-- A run that cannot throw. -/
def NeverThrows (x : EStateM ε σ α) : Prop :=
  Ensures (fun _ => True) x (fun _ _ => True) fun _ => False

theorem neverThrows_pure (a : α) : NeverThrows (pure a : EStateM ε σ α) := ensures_pure fun _ _ => trivial

theorem NeverThrows.bind (hx : NeverThrows x) (hf : ∀ a, NeverThrows (f a)) : NeverThrows (x >>= f) :=
  Ensures.bind hx hf

theorem AtomicAt.bind_neverThrows (hx : AtomicAt view x s) (hf : ∀ a, NeverThrows (f a)) :
    AtomicAt view (x >>= f) s := by
  intro e t ht
  cases h : x.run s with
  | error e' s' =>
    rw [run_bind_error h] at ht
    cases ht
    exact hx _ _ h
  | ok a s' =>
    rw [run_bind_ok h] at ht
    exact ((hf a s' trivial).2 e t ht).elim

end Atomic

section Throws

variable {E : ε → Prop} {x : EStateM ε σ α} {f : α → EStateM ε σ β}

/-- Whatever a run throws is in `E`. -/
def Throws (E : ε → Prop) (x : EStateM ε σ α) : Prop := ∀ s e s', x.run s = .error e s' → E e

theorem NeverThrows.throws (h : NeverThrows x) : Throws E x :=
  fun s e s' he => ((h s trivial).2 e s' he).elim

theorem throws_pure (a : α) : Throws E (pure a : EStateM ε σ α) := nofun

theorem throws_get : Throws E (get : EStateM ε σ σ) := nofun

theorem throws_modify (g : σ → σ) : Throws E (modify g : EStateM ε σ PUnit) := nofun

theorem throws_modifyGet (g : σ → α × σ) : Throws E (modifyGet g : EStateM ε σ α) := nofun

theorem throws_throw {e : ε} (h : E e) : Throws E (throw e : EStateM ε σ α) := by
  intro s e' s' he
  cases he
  exact h

theorem Throws.bind (hx : Throws E x) (hf : ∀ a, Throws E (f a)) : Throws E (x >>= f) := by
  intro s e s' he
  cases h : x.run s with
  | error e' t =>
    rw [run_bind_error h] at he
    cases he
    exact hx _ _ _ h
  | ok a t =>
    rw [run_bind_ok h] at he
    exact hf a _ _ _ he

theorem throws_ite {p : Prop} [Decidable p] {y : EStateM ε σ α} (hx : p → Throws E x)
    (hy : ¬ p → Throws E y) : Throws E (if p then x else y) := by
  split
  · exact hx ‹_›
  · exact hy ‹_›

theorem throws_tryCatch {handle : ε → EStateM ε σ α} (hx : Throws E x)
    (hh : ∀ e, E e → Throws E (handle e)) : Throws E (tryCatch x handle) := by
  intro s e s' he
  cases h : x.run s with
  | error e' t =>
    rw [run_tryCatch_error h] at he
    exact hh e' (hx _ _ _ h) _ _ _ he
  | ok a t =>
    rw [run_tryCatch_ok h] at he
    cases he

end Throws

end Fallible
