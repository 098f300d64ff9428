import YumiBrowser.Client.Threads

universe u

namespace YumiBrowser.Client

open Wire Transition
open YumiBrowser.Group (PeerId)

def Task.Calls (task : Task) : Prop := ∃ cb, task = .entered cb ∨ task = .wanting cb

def Task.resting : Task → Bool
  | .destroying .. | .entered _ | .wanting _ => false
  | _ => true

theorem Task.not_calls_of_resting {task : Task} (h : task.resting = true) : ¬ task.Calls := by
  rintro ⟨cb, rfl | rfl⟩
  · exact nomatch h
  · exact nomatch h

namespace Threads

variable {ι : Type u} [DecidableEq ι] {s t : Threads ι} {event : ThreadEvent ι}

def Joins (s : Threads ι) (T : Thread ι) (n : ℕ) : Prop :=
  s.lock = some T ∧ ∃ who k, s.tasks T = .destroying who k n

/-- Whoever holds the lock waits for a worker that waits for the lock. -/
def Deadlocked (s : Threads ι) : Prop :=
  ∃ T n w cb, s.Joins T n ∧ s.tasks (.worker n w) = .wanting cb

/-- No session is destroyed under the lock while a worker of it is in a callback that takes the lock,
and none gets into one while that goes on. -/
def Quiet (s : Threads ι) : ThreadEvent ι → Prop
  | .teardown T k => s.lock = some T → ∀ n w, (s.slots k).sudp = some n → ¬ (s.tasks (.worker n w)).Calls
  | .callback n _ _ => ∀ T, ¬ s.Joins T n
  | _ => True

def Unblocked (s : Threads ι) : Prop := ∀ T n w, s.Joins T n → ¬ (s.tasks (.worker n w)).Calls

namespace Unblocked

variable {T : Thread ι} {task : Task} {k : Fin maxPeers} {n w : ℕ}

omit [DecidableEq ι] in
theorem congr (h : s.Unblocked) (hlock : t.lock = s.lock) (htasks : t.tasks = s.tasks) : t.Unblocked := by
  intro T n w hjoins
  unfold Joins at hjoins
  rw [hlock, htasks] at hjoins
  rw [htasks]
  exact h T n w hjoins

theorem setTask (h : s.Unblocked) (hrest : task.resting = true) : (s.setTask T task).Unblocked := by
  rintro T' n w ⟨hlock, who, k, htask⟩
  change Function.update s.tasks T task T' = _ at htask
  change ¬ (Function.update s.tasks T task (.worker n w)).Calls
  by_cases hT : T' = T
  · rw [hT, Function.update_self] at htask
    exact nomatch htask ▸ hrest
  · rw [Function.update_of_ne hT] at htask
    by_cases hw : Thread.worker n w = T
    · rw [hw, Function.update_self]
      exact Task.not_calls_of_resting hrest
    · rw [Function.update_of_ne hw]
      exact h T' n w ⟨hlock, who, k, htask⟩

theorem call (h : s.Unblocked) (hcalls : task.Calls) (hfree : ∀ T, ¬ s.Joins T n) :
    (s.setTask (.worker n w) task).Unblocked := by
  rintro T' m w' ⟨hlock, who, k, htask⟩
  change Function.update s.tasks (.worker n w) task T' = _ at htask
  change ¬ (Function.update s.tasks (.worker n w) task (.worker m w')).Calls
  by_cases hT : T' = .worker n w
  · rw [hT, Function.update_self] at htask
    obtain ⟨cb, hcb | hcb⟩ := hcalls <;> exact nomatch hcb.symm.trans htask
  · rw [Function.update_of_ne hT] at htask
    have hjoins : s.Joins T' m := ⟨hlock, who, k, htask⟩
    by_cases hw : (.worker m w' : Thread ι) = .worker n w
    · cases hw
      exact absurd hjoins (hfree T')
    · rw [Function.update_of_ne hw]
      exact h T' m w' hjoins

theorem destroy (h : s.Unblocked) (who : Destroyer)
    (hquiet : s.lock = some T → ∀ w, ¬ (s.tasks (.worker n w)).Calls) : (s.destroy T who k n).Unblocked := by
  rintro T' m w ⟨hlock, who', k', htask⟩
  change s.lock = some T' at hlock
  change Function.update s.tasks T (.destroying who k n) T' = _ at htask
  change ¬ (Function.update s.tasks T (.destroying who k n) (.worker m w)).Calls
  by_cases hw : Thread.worker m w = T
  · rw [hw, Function.update_self]
    rintro ⟨cb, hcb | hcb⟩ <;> exact nomatch hcb
  · rw [Function.update_of_ne hw]
    by_cases hT : T' = T
    · rw [hT, Function.update_self] at htask
      cases htask
      exact hquiet (hT ▸ hlock) w
    · rw [Function.update_of_ne hT] at htask
      exact h T' m w ⟨hlock, who', k', htask⟩

theorem locked (hrest : task.resting = true) : (s.locked T task).Unblocked := by
  rintro T' n w ⟨hlock, who, k, htask⟩
  cases hlock
  change Function.update s.tasks T task T = _ at htask
  rw [Function.update_self] at htask
  exact nomatch htask ▸ hrest

theorem unlocked : (s.unlocked T task).Unblocked := by
  rintro T' n w ⟨hlock, _⟩
  exact nomatch hlock

theorem destroyed (h : s.Unblocked) (who : Destroyer) : (s.destroyed T who k n).Unblocked := by
  cases who with
  | connect => exact setTask (h.congr rfl rfl) rfl
  | slotFree => exact setTask (h.congr rfl rfl) rfl
  | sweep => exact setTask (h.congr rfl rfl) rfl

theorem want (h : s.Unblocked) {cb : Callback} (hentered : s.tasks (.worker n w) = .entered cb) :
    (s.setTask (.worker n w) (.wanting cb)).Unblocked :=
  h.call ⟨cb, .inr rfl⟩ fun T hjoins => h T n w hjoins ⟨cb, .inl hentered⟩

theorem step (h : s.Unblocked) (hquiet : s.Quiet event) (hstep : Step s event t) : t.Unblocked := by
  cases hstep with
  | claim => exact setTask (h.congr rfl rfl) rfl
  | abandon => exact h.setTask rfl
  | create => exact setTask (h.congr rfl rfl) rfl
  | store => exact setTask (h.congr rfl rfl) rfl
  | connect => exact h.setTask rfl
  | connectNull => exact h.setTask rfl
  | accepted => exact h.setTask rfl
  | refused => exact h.setTask rfl
  | scrap T k n _ hsudp => exact h.destroy _ fun hlock w => hquiet hlock n w hsudp
  | scrapNull => exact h.setTask rfl
  | discard T k n _ hsudp => exact h.destroy _ fun hlock w => hquiet hlock n w hsudp
  | discardNull => exact setTask (h.congr rfl rfl) rfl
  | destroyed T who => exact h.destroyed who
  | lock => exact locked rfl
  | call => exact h.setTask rfl
  | called => exact h.setTask rfl
  | unlock => exact unlocked
  | sweep => exact locked rfl
  | sweepDestroy T kind k rest n _ _ hsudp => exact h.destroy _ fun hlock w => hquiet hlock n w hsudp
  | sweepClear => exact setTask (h.congr rfl rfl) rfl
  | sweepSkip => exact h.setTask rfl
  | swept => exact unlocked
  | pick => exact h.setTask rfl
  | send => exact h.setTask rfl
  | sent => exact h.setTask rfl
  | sendFailed => exact h.congr rfl rfl
  | enter n w cb => exact h.call ⟨cb, .inl rfl⟩ hquiet
  | wantForward n w hentered => exact h.want hentered
  | wantEstablished n w hentered => exact (h.congr rfl rfl).want hentered
  | forward => exact locked rfl
  | established => exact h.setTask rfl
  | duplicate => exact setTask (h.congr rfl rfl) rfl
  | failed => exact h.congr rfl rfl
  | reply => exact h.setTask rfl
  | greeted => exact h.setTask rfl
  | stop => exact setTask (h.congr rfl rfl) rfl
  | sweepAll => exact locked rfl
  | close => exact unlocked

end Unblocked

section Deadlock

variable {T : Thread ι} {n w : ℕ}

theorem deadlock_of_joins (hjoins : s.Joins T n) (hcalls : (s.tasks (.worker n w)).Calls) :
    ∃ u, (threads ι).Path s u ∧ u.Deadlocked := by
  obtain ⟨cb, hcb | hcb⟩ := hcalls
  · obtain ⟨hlock, who, k, htask⟩ := hjoins
    have hT : T ≠ .worker n w := fun heq => nomatch (heq ▸ htask).symm.trans hcb
    have hwait {s' : Threads ι} (hlock' : s'.lock = s.lock) (htasks : s'.tasks = s.tasks) :
        (s'.setTask (.worker n w) (.wanting cb)).Deadlocked := by
      refine ⟨T, n, w, cb, ⟨hlock'.trans hlock, who, k, ?_⟩, Function.update_self ..⟩
      change Function.update s'.tasks _ _ T = _
      rw [Function.update_of_ne hT, htasks, htask]
    cases cb with
    | forward => exact ⟨_, .tail .refl (Step.wantForward n w hcb), hwait rfl rfl⟩
    | established => exact ⟨_, .tail .refl (Step.wantEstablished n w hcb), hwait rfl rfl⟩
  · exact ⟨s, .refl, T, n, w, cb, hjoins, hcb⟩

theorem deadlock_of_destroy (who : Destroyer) (k : Fin maxPeers) (hlock : s.lock = some T)
    (hT : ¬ (s.tasks T).Calls) (hcalls : (s.tasks (.worker n w)).Calls) :
    ∃ u, (threads ι).Path (s.destroy T who k n) u ∧ u.Deadlocked := by
  have hne : (.worker n w : Thread ι) ≠ T := by
    rintro rfl
    exact hT hcalls
  have hstays : ((s.destroy T who k n).tasks (.worker n w)).Calls := by
    change (Function.update s.tasks T _ (.worker n w)).Calls
    rwa [Function.update_of_ne hne]
  exact deadlock_of_joins ⟨hlock, who, k, Function.update_self ..⟩ hstays

omit [DecidableEq ι] in
theorem not_quiet_teardown {k : Fin maxPeers} (h : ¬ s.Quiet (.teardown T k)) :
    s.lock = some T ∧ ∃ n w, (s.slots k).sudp = some n ∧ (s.tasks (.worker n w)).Calls := by
  unfold Quiet at h
  push Not at h
  exact h

theorem deadlock_of_not_quiet (hstep : Step s event t) (hloud : ¬ s.Quiet event) :
    ∃ u, (threads ι).Path t u ∧ u.Deadlocked := by
  have hdestroy {T : Thread ι} {k : Fin maxPeers} {n : ℕ} {task : Task} (who : Destroyer)
      (hloud : ¬ s.Quiet (.teardown T k)) (hsudp : (s.slots k).sudp = some n) (htask : s.tasks T = task)
      (hrest : task.resting = true) : ∃ u, (threads ι).Path (s.destroy T who k n) u ∧ u.Deadlocked := by
    obtain ⟨hlock, m, w, hm, hcalls⟩ := not_quiet_teardown hloud
    cases hsudp.symm.trans hm
    exact deadlock_of_destroy who k hlock (htask ▸ Task.not_calls_of_resting hrest) hcalls
  have hnull {T : Thread ι} {k : Fin maxPeers} (hloud : ¬ s.Quiet (.teardown T k))
      (hsudp : (s.slots k).sudp = none) : False := by
    obtain ⟨_, m, _, hm, _⟩ := not_quiet_teardown hloud
    exact nomatch hsudp.symm.trans hm
  cases hstep with
  | scrap T k n htask hsudp => exact hdestroy _ hloud hsudp htask rfl
  | discard T k n htask hsudp => exact hdestroy _ hloud hsudp htask rfl
  | sweepDestroy T kind k rest n htask _ hsudp => exact hdestroy _ hloud hsudp htask rfl
  | scrapNull T k _ hsudp => exact (hnull hloud hsudp).elim
  | discardNull T k _ hsudp => exact (hnull hloud hsudp).elim
  | sweepClear T kind k rest _ _ hsudp => exact (hnull hloud hsudp).elim
  | enter n w cb _ hidle =>
    unfold Quiet at hloud
    push Not at hloud
    obtain ⟨T, hlock, who, k, htask⟩ := hloud
    have hT : T ≠ .worker n w := fun heq => nomatch (heq ▸ htask).symm.trans hidle
    have hcalls : ((s.setTask (.worker n w) (.entered cb)).tasks (.worker n w)).Calls :=
      ⟨cb, .inl (Function.update_self ..)⟩
    exact deadlock_of_joins ⟨hlock, who, k, (Function.update_of_ne hT ..).trans htask⟩ hcalls
  | _ => exact absurd trivial hloud

/-- A lock holder never waits for a worker that waits for the lock, in every run in which no session
is destroyed under the lock while its workers are about to take it; and wherever one is, the two of
them can get stuck. -/
theorem lock_join_sound (s : Threads ι) :
    (((threads ι).restrict Quiet).Reachable s → ¬ s.Deadlocked) ∧
    ∀ event t, (threads ι).step s event t → ¬ s.Quiet event → ∃ u, (threads ι).Path t u ∧ u.Deadlocked := by
  refine ⟨fun h => ?_, fun _ _ hstep hloud => deadlock_of_not_quiet hstep hloud⟩
  have hfree : s.Unblocked := by
    refine System.Reachable.invariant ?_ ?_ h
    · rintro s rfl T n w ⟨hlock, _⟩
      exact nomatch hlock
    · rintro s event t - hs ⟨hquiet, hstep⟩
      exact hs.step hquiet hstep
  rintro ⟨T, n, w, cb, hjoins, hcb⟩
  exact hfree T n w hjoins ⟨cb, .inr hcb⟩

end Deadlock

section Stuck

open YumiBrowser.Group (member)

theorem lock_join_stuck : ¬ ∀ s : Threads Unit, (threads Unit).Reachable s → ¬ s.Deadlocked := by
  intro hall
  have hfree : Free fun (_ : Threads Unit) _ => True :=
    fun _ _ => ⟨fun _ => trivial, fun _ _ => trivial, fun _ _ _ => trivial⟩
  have hdialed := (dialed_reachable hfree (member 1).peerId).1.of_restrict
  have henter := hdialed.step (Step.enter 0 0 .forward ⟨Nat.zero_lt_one, rfl⟩ rfl)
  have hsweep := henter.step (Step.sweep .silent ⟨rfl, rfl⟩ rfl Sweep.noConfusion)
  have hdestroy := hsweep.step (Step.sweepDestroy .sync .silent 0 _ 0 rfl ⟨rfl, rfl⟩ rfl)
  obtain ⟨s, hs, hjoins, hcalls⟩ : ∃ s : Threads Unit, (threads Unit).Reachable s ∧ s.Joins .sync 0 ∧
      (s.tasks (.worker 0 0)).Calls := ⟨_, hdestroy, ⟨rfl, _, _, rfl⟩, .forward, .inl rfl⟩
  obtain ⟨u, hpath, hstuck⟩ := deadlock_of_joins hjoins hcalls
  exact hall u (hpath.reachable hs) hstuck

end Stuck

end Threads

end YumiBrowser.Client
