import YumiBrowser.Library.System

universe u v w x

/-! Steps of one system that are matched by paths of another. -/

namespace Transition.System

variable {σ : Type u} {ε : Type v} {σ' : Type w} {ε' : Type x} {S : System σ ε} {T : System σ' ε'} {R : σ → σ' → Prop}

theorem Path.trans (h : S.Path s t) (h' : S.Path t u) : S.Path s u := by
  induction h' with
  | refl => exact h
  | tail _ hstep ih => exact .tail ih hstep

theorem Reachable.simulates (hinit : ∀ s, S.init s → ∃ r, T.init r ∧ R s r)
    (hstep : ∀ s e t r, S.Reachable s → T.Reachable r → R s r → S.step s e t → ∃ r', T.Path r r' ∧ R t r') :
    S.Reachable s → ∃ r, T.Reachable r ∧ R s r := by
  intro h
  induction h with
  | init h =>
    obtain ⟨r, hr, hrel⟩ := hinit _ h
    exact ⟨r, .init hr, hrel⟩
  | step h he ih =>
    obtain ⟨r, hr, hrel⟩ := ih
    obtain ⟨r', hpath, hrel'⟩ := hstep _ _ _ r h hr hrel he
    exact ⟨r', hpath.reachable hr, hrel'⟩

end Transition.System
