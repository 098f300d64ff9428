import YumiBrowser.Library.TokenBucket

universe u v

namespace TokenBucket

/-- A bucket that pays for all of what it is asked for while anything is in it, and then owes the rest. -/
structure Account (T : Type u) (A : Type v) where
  -- of the last refill
  time : T
  credit : A
  spent : A

namespace Account

section Runs

variable {T : Type u} [LinearOrder T] {A : Type v} [CommRing A] [LinearOrder A]

/-- What can happen to an account at a time. No more than `most` is asked for at once. -/
inductive Move (cap most : A) (gain : T → T → A) (now : T) : Account T A → Account T A → Prop
  | spend (x : A) : 0 < a.credit → 0 ≤ x → x ≤ most →
      Move cap most gain now a { a with credit := a.credit - x, spent := a.spent + x }
  | refill (c : A) : a.time ≤ now → c ≤ a.credit + gain a.time now → c ≤ cap → min a.credit 0 ≤ c →
      Move cap most gain now a { a with time := now, credit := c }

/-- Time passes, and the account is used. -/
inductive Run (cap most : A) (gain : T → T → A) (t₀ : T) (a : Account T A) : T → Account T A → Prop
  | start : Run cap most gain t₀ a t₀ a
  | pass : Run cap most gain t₀ a t b → t ≤ t' → Run cap most gain t₀ a t' b
  | move : Run cap most gain t₀ a t b → Move cap most gain t b b' → Run cap most gain t₀ a t b'

/-- The account is within its limits, and was not refilled in the future. -/
structure Solvent (cap most : A) (now : T) (a : Account T A) : Prop where
  time_le : a.time ≤ now
  owed : -most ≤ a.credit
  capped : a.credit ≤ cap

/-- How the spendings from a time on are covered: by what there was, or since the first refill by a full bucket and
what has been credited. -/
structure Covered (cap most : A) (gain : T → T → A) (t₀ : T) (a : Account T A) (t : T) (b : Account T A) : Prop where
  solvent : b.Solvent cap most t
  spent : b.spent + b.credit = a.spent + a.credit ∨
    t₀ ≤ b.time ∧ b.spent + b.credit ≤ a.spent + a.credit + most + cap + gain t₀ b.time

variable {cap most : A} {gain : T → T → A} {t₀ t : T} {a b : Account T A}

theorem Run.time_le (h : Run cap most gain t₀ a t b) : t₀ ≤ t := by
  induction h with
  | start => exact le_rfl
  | pass _ hle ih => exact ih.trans hle
  | move _ _ ih => exact ih

end Runs

section Bound

variable {T : Type u} [LinearOrder T] {A : Type v} [CommRing A] [LinearOrder A] [IsStrictOrderedRing A]
variable {cap most : A} {gain : T → T → A} {t₀ t : T} {a b : Account T A}

theorem Solvent.room (h : a.Solvent cap most t) : 0 ≤ cap + most := by
  have howed := h.owed
  have hcapped := h.capped
  linarith

theorem Solvent.move (h : a.Solvent cap most t) (hmost : 0 ≤ most) (hmove : Move cap most gain t a b) :
    b.Solvent cap most t := by
  have howed := h.owed
  have hcapped := h.capped
  cases hmove with
  | spend x hpos hx hle => exact ⟨h.time_le, by linarith, by linarith⟩
  | refill c _ _ hcap hlow => exact ⟨le_rfl, (le_min howed (neg_nonpos.mpr hmost)).trans hlow, hcap⟩

theorem Covered.move (h : Covered cap most gain t₀ a t b) (hgain : Accrual gain) (hmost : 0 ≤ most) (ht : t₀ ≤ t)
    (hmove : Move cap most gain t b b') : Covered cap most gain t₀ a t b' := by
  refine ⟨h.solvent.move hmost hmove, ?_⟩
  cases hmove with
  | spend x =>
    refine h.spent.imp (fun heq => ?_) fun hle => ⟨hle.1, ?_⟩
    · dsimp only
      linarith
    · have hspent := hle.2
      dsimp only
      linarith
  | refill c htime hgained hcap =>
    refine .inr ⟨ht, ?_⟩
    dsimp only
    obtain heq | ⟨hlate, hspent⟩ := h.spent
    · have howed := h.solvent.owed
      have hwindow := hgain.nonneg t₀ t ht
      linarith
    · have hwindow := hgain.add_le t₀ b.time t hlate htime
      linarith

theorem Run.covered (h : Run cap most gain t₀ a t b) (hgain : Accrual gain) (hmost : 0 ≤ most)
    (hs : a.Solvent cap most t₀) : Covered cap most gain t₀ a t b := by
  induction h with
  | start => exact ⟨hs, .inl rfl⟩
  | pass _ hle ih => exact ⟨⟨ih.solvent.time_le.trans hle, ih.solvent.owed, ih.solvent.capped⟩, ih.spent⟩
  | move hrun hmove ih => exact ih.move hgain hmost hrun.time_le hmove

theorem Run.spent_le (h : Run cap most gain t₀ a t b) (hgain : Accrual gain) (hmost : 0 ≤ most)
    (hs : a.Solvent cap most t₀) : b.spent ≤ a.spent + 2 * (cap + most) + gain t₀ t := by
  obtain ⟨hsolvent, hspent⟩ := h.covered hgain hmost hs
  have hroom := hs.room
  have hcapped := hs.capped
  have howed := hsolvent.owed
  have hwindow := hgain.nonneg t₀ t h.time_le
  obtain heq | ⟨hlate, hle⟩ := hspent
  · linarith
  · have hcredited := hgain.add_le t₀ b.time t hlate hsolvent.time_le
    have hrest := hgain.nonneg b.time t hsolvent.time_le
    linarith

end Bound

end Account

end TokenBucket
