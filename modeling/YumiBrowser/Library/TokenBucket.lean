import Mathlib.Algebra.BigOperators.Group.List.Basic
import Mathlib.Algebra.Order.Ring.Defs
import Mathlib.Tactic.Linarith

universe u v

namespace TokenBucket

/-- The tokens after the last call. -/
structure Level (T : Type u) (A : Type v) where
  time : T
  tokens : A

section Calls

variable {T : Type u} [LinearOrder T] {A : Type v} [CommRing A] [LinearOrder A]

/-- What is credited between two times. -/
structure Accrual (gain : T → T → A) : Prop where
  nonneg : ∀ t t', t ≤ t' → 0 ≤ gain t t'
  add_le : ∀ t t' t'', t ≤ t' → t' ≤ t'' → gain t t' + gain t' t'' ≤ gain t t''

/-- A call for which something is granted, or nothing: it is paid from what there was and what has been credited since,
as far as these do not exceed the capacity. -/
structure Pays (cap : A) (gain : T → T → A) (b : Level T A) (granted : A) (b' : Level T A) : Prop where
  time_le : b.time ≤ b'.time
  nonneg : 0 ≤ granted
  left : 0 ≤ b'.tokens
  capped : b'.tokens + granted ≤ cap
  paid : b'.tokens + granted ≤ b.tokens + gain b.time b'.time

/-- Calls one after the other, with the time of each and what is granted for it. -/
inductive Run (cap : A) (gain : T → T → A) : Level T A → List (T × A) → Prop
  | nil (b : Level T A) : Run cap gain b []
  | cons {b b' : Level T A} {granted : A} {calls : List (T × A)} (h : Pays cap gain b granted b')
      (rest : Run cap gain b' calls) : Run cap gain b ((b'.time, granted) :: calls)

def spent (t₀ t₁ : T) (calls : List (T × A)) : A :=
  (calls.map fun c => if t₀ ≤ c.1 ∧ c.1 ≤ t₁ then c.2 else 0).sum

variable {cap : A} {gain : T → T → A} {b : Level T A} {calls : List (T × A)} {t₀ t₁ : T}

omit [LinearOrder A] in
theorem spent_cons (c : T × A) (calls : List (T × A)) :
    spent t₀ t₁ (c :: calls) = (if t₀ ≤ c.1 ∧ c.1 ≤ t₁ then c.2 else 0) + spent t₀ t₁ calls := by
  rw [spent, List.map_cons, List.sum_cons]
  rfl

theorem Run.time_le (h : Run cap gain b calls) : ∀ c ∈ calls, b.time ≤ c.1 := by
  induction h with
  | nil => exact fun c hc => absurd hc List.not_mem_nil
  | cons hpays _ ih =>
    intro c hc
    cases hc with
    | head => exact hpays.time_le
    | tail _ hc => exact hpays.time_le.trans (ih c hc)

theorem Run.spent_late (h : Run cap gain b calls) (hlate : t₁ < b.time) : spent t₀ t₁ calls = 0 := by
  refine List.sum_eq_zero fun x hx => ?_
  obtain ⟨c, hc, rfl⟩ := List.mem_map.mp hx
  exact if_neg fun hin => absurd (h.time_le c hc) (not_le.mpr (hin.2.trans_lt hlate))

end Calls

section Potential

variable {T : Type u} [LinearOrder T] {A : Type v} [CommRing A] [LinearOrder A] [IsStrictOrderedRing A]
variable {cap : A} {gain : T → T → A} {b : Level T A} {calls : List (T × A)} {t₀ t₁ : T}

theorem Run.spent_le (h : Run cap gain b calls) (hgain : Accrual gain) (hleft : 0 ≤ b.tokens) (h₁ : b.time ≤ t₁) :
    spent t₀ t₁ calls ≤ b.tokens + gain b.time t₁ := by
  induction h with
  | nil b => exact add_nonneg hleft (hgain.nonneg _ _ h₁)
  | @cons b b' granted calls hpays hrun ih =>
    rw [spent_cons]
    by_cases hlate : b'.time ≤ t₁
    · have hrest := ih hpays.left hlate
      have hcredit := hgain.add_le _ _ _ hpays.time_le hlate
      have hpaid := hpays.paid
      have hnonneg := hpays.nonneg
      split
      · linarith
      · linarith
    · rw [if_neg fun hin => hlate hin.2, hrun.spent_late (not_le.mp hlate), add_zero]
      exact add_nonneg hleft (hgain.nonneg _ _ h₁)

theorem Run.spent_window_le (h : Run cap gain b calls) (hgain : Accrual gain) (hcap : 0 ≤ cap) (h₀₁ : t₀ ≤ t₁) :
    spent t₀ t₁ calls ≤ cap + gain t₀ t₁ := by
  have hwindow := hgain.nonneg t₀ t₁ h₀₁
  induction h with
  | nil => exact add_nonneg hcap hwindow
  | @cons b b' granted calls hpays hrun ih =>
    rw [spent_cons]
    split
    · next hin =>
      have hrest := @Run.spent_le _ _ _ _ _ _ cap gain b' calls t₀ t₁ hrun hgain hpays.left hin.2
      have hcredit := hgain.add_le _ _ _ hin.1 hin.2
      have hbefore := hgain.nonneg _ _ hin.1
      have hcapped := hpays.capped
      linarith
    · rw [zero_add]
      exact ih

end Potential

end TokenBucket
