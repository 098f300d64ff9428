import YumiBrowser.Client.Threads

universe u

namespace YumiBrowser.Client

open Wire Transition
open YumiBrowser.Group (PeerId zeroBytes)

/-- The slot that a thread has for itself: in `peer_connect`, and while its session is destroyed. -/
def Task.slot? : Task → Option (Fin maxPeers)
  | .claimed k | .creating k _ | .created k | .connecting k _ | .refused k | .scrapped k => some k
  | .destroying _ k _ => some k
  | _ => none

def Task.session? : Task → Option ℕ
  | .connecting _ n | .picked n | .sending n | .calling n => some n
  | _ => none

def Task.steady : Task → Bool
  | .creating .. | .destroying .. => false
  | _ => true

def Task.ofWorker : Task → Bool
  | .idle | .calls | .calling _ | .sending _ | .entered _ | .wanting _ | .greeting => true
  | _ => false

/-- In a call on a session, other than `yumi_sudp_client_destroy`. -/
def Task.Inside (n : ℕ) : Task → Prop
  | .creating _ m | .connecting _ m | .sending m | .calling m => m = n
  | _ => False

def Thread.WorksFor {ι : Type u} (n : ℕ) : Thread ι → Prop
  | .worker m _ => m = n
  | _ => False

namespace Threads

variable {ι : Type u} [DecidableEq ι] {s t : Threads ι} {event : ThreadEvent ι}

/-- What the life of the sessions in the slots is to be. -/
structure Lawful (s : Threads ι) : Prop where
  once : ∀ n, s.destroys n ≤ 1
  -- the workers of a session may still be in a call on it while `yumi_sudp_client_destroy` joins them
  unused : ∀ T n, (s.tasks T).Inside n → ¬ T.WorksFor n → s.destroys n = 0
  lasting : ∀ T n, (s.tasks T).Inside n → s.freed n = false
  free : ∀ k, (s.slots k).state = .free → (s.slots k).sudp = none
  apart : ∀ k l, k ≠ l → (s.slots k).state ≠ .free → (s.slots l).state ≠ .free →
    (s.slots k).peerId ≠ (s.slots l).peerId

/-- A slot is freed, and its session destroyed, only while no other thread has the slot for itself
or is using the session, and a session is not taken out of its slot while it is being destroyed. -/
def Mannered (s : Threads ι) : ThreadEvent ι → Prop
  | .teardown T k => ∀ T', T' ≠ T → (s.tasks T').slot? ≠ some k ∧
      ∀ n, (s.slots k).sudp = some n → (s.tasks T').session? = some n → T'.WorksFor n
  | .take T n => ¬ T.WorksFor n → ∀ T' who k, s.tasks T' ≠ .destroying who k n
  | _ => True

def Fits (s : Threads ι) : Task → Prop
  | .claimed k | .scrapped k => (s.slots k).sudp = none
  | .creating k n => (s.slots k).sudp = none ∧ s.Live n ∧ s.slotOf n = k ∧ s.destroys n = 0
  | .created k | .refused k => ∃ n, (s.slots k).sudp = some n ∧ s.destroys n = 0
  | .connecting k n => (s.slots k).sudp = some n ∧ s.destroys n = 0
  | .destroying _ k n => (s.slots k).sudp = some n ∧ s.destroys n = 1
  | _ => True

structure Owned (s : Threads ι) : Prop where
  apart : ∀ T T' k, (s.tasks T).slot? = some k → (s.tasks T').slot? = some k → T = T'
  occupied : ∀ T k, (s.tasks T).slot? = some k → (s.slots k).state ≠ .free
  fits : ∀ T, s.Fits (s.tasks T)
  held : ∀ k n, (s.slots k).sudp = some n → s.Live n ∧ s.slotOf n = k ∧ (s.slots k).state ≠ .free
  live : ∀ n, s.Live n → (s.slots (s.slotOf n)).sudp = some n ∨ ∃ T, s.tasks T = .creating (s.slotOf n) n
  fresh : ∀ n, s.made ≤ n → s.destroys n = 0 ∧ s.freed n = false
  destroyed : ∀ n, s.destroys n ≠ 0 →
    s.destroys n = 1 ∧ (s.freed n = true ∨ ∃ T who k, s.tasks T = .destroying who k n)
  freed : ∀ n, s.freed n = true → s.destroys n ≠ 0
  users : ∀ T n, (s.tasks T).session? = some n → n < s.made ∧ (T.WorksFor n ∨ s.destroys n = 0)
  workers : ∀ n w, s.tasks (.worker n w) ≠ .idle → s.Live n
  names : ∀ k l, k ≠ l → (s.slots k).state ≠ .free → (s.slots l).state ≠ .free →
    (s.slots k).peerId ≠ (s.slots l).peerId

section Fits

variable {task : Task}

omit [DecidableEq ι] in
theorem fits_of_slotless (h : task.slot? = none) : s.Fits task := by
  cases task <;> simp_all [Task.slot?, Fits]

omit [DecidableEq ι] in
theorem Fits.frame (h : s.Fits task) (hsudp : ∀ k, task.slot? = some k → (t.slots k).sudp = (s.slots k).sudp)
    (hnew : ∀ k n, task = .creating k n → t.Live n ∧ t.slotOf n = k ∧ t.destroys n = 0)
    (hold : ∀ k n, task.slot? = some k → (s.slots k).sudp = some n → t.destroys n = s.destroys n) :
    t.Fits task := by
  cases task <;> grind [Fits, Task.slot?]

end Fits

namespace Owned

variable {T : Thread ι} {k : Fin maxPeers} {n w : ℕ} {task old : Task}

omit [DecidableEq ι] in
theorem relock (h : s.Owned) (lock : Option (Thread ι)) (running closed : Bool) :
    { s with lock, running, closed }.Owned :=
  ⟨h.apart, h.occupied, h.fits, h.held, h.live, h.fresh, h.destroyed, h.freed, h.users, h.workers, h.names⟩

theorem setTask (h : s.Owned)
    (hslot : ∀ k, task.slot? = some k →
      (∀ T', T' ≠ T → (s.tasks T').slot? ≠ some k) ∧ (s.slots k).state ≠ .free)
    (hfits : s.Fits task) (htask : s.tasks T = old) (hold : old.steady = true)
    (huser : ∀ n, task.session? = some n → n < s.made ∧ (T.WorksFor n ∨ s.destroys n = 0))
    (hworker : ∀ n w, T = .worker n w → task ≠ .idle → s.Live n) : (s.setTask T task).Owned where
  apart T₁ T₂ k h₁ h₂ := by grind [h.apart]
  occupied T' k h' := by grind [h.occupied]
  fits T' := by
    have hfits' : s.Fits ((s.setTask T task).tasks T') := by grind [h.fits]
    exact hfits'
  held := h.held
  live n hn := (h.live n hn).imp_right fun ⟨T', hT'⟩ => ⟨T', by grind [Task.steady]⟩
  fresh := h.fresh
  destroyed n hn := (h.destroyed n hn).imp_right
    (Or.imp_right fun ⟨T', who, k, hT'⟩ => ⟨T', who, k, by grind [Task.steady]⟩)
  freed := h.freed
  users T' n h' := by grind [h.users]
  workers n w h' := by
    have hlive : s.Live n := by grind [h.workers]
    exact hlive
  names := h.names

theorem turn (h : s.Owned) (htask : s.tasks T = old) (hold : old.steady = true) (hslot : task.slot? = none)
    (hsession : task.session? = none) (hbusy : old ≠ .idle ∨ ∀ n w, T ≠ .worker n w) : (s.setTask T task).Owned := by
  refine h.setTask (fun k hk => nomatch hslot.symm.trans hk) (fits_of_slotless hslot) htask hold
    (fun n hn => nomatch hsession.symm.trans hn) fun n w hT _ => ?_
  cases hbusy with
  | inl hbusy =>
    subst hT
    exact h.workers n w (htask ▸ hbusy)
  | inr hworker => exact absurd hT (hworker n w)

omit [DecidableEq ι] in
theorem setSlot (h : s.Owned) {slot : SlotView ℕ} (hsudp : slot.sudp = (s.slots k).sudp)
    (hfree : slot.state = .free → (s.slots k).sudp = none ∧ ∀ T, (s.tasks T).slot? ≠ some k)
    (hname : slot.state ≠ .free → ∀ j, j ≠ k → (s.slots j).state ≠ .free → (s.slots j).peerId ≠ slot.peerId) :
    (s.setSlot k slot).Owned := by
  have hsame (j : Fin maxPeers) : ((s.setSlot k slot).slots j).sudp = (s.slots j).sudp := by grind
  exact {
    apart := h.apart
    occupied T' j h' := by grind [h.occupied]
    fits T' := (h.fits T').frame (fun j _ => hsame j)
      (fun j n hnew => by
        have hfits := h.fits T'
        rw [hnew] at hfits
        exact hfits.2)
      (fun _ _ _ _ => rfl)
    held j n hn := by
      obtain ⟨hlive, hslot, hstate⟩ := h.held j n (hsame j ▸ hn)
      exact ⟨hlive, hslot, by grind⟩
    live n hn := (h.live n hn).imp_left fun hn => (hsame _).trans hn
    fresh := h.fresh
    destroyed := h.destroyed
    freed := h.freed
    users := h.users
    workers := h.workers
    names j l hne hj hl := by grind [h.names] }

omit [DecidableEq ι] in
theorem setState (h : s.Owned) {state : SlotState} (hstate : state ≠ .free) (hused : (s.slots k).state ≠ .free) :
    (s.setState k state).Owned :=
  h.setSlot rfl (fun hfree => absurd hfree hstate) fun _ j hne hj => h.names j k hne hj hused

omit [DecidableEq ι] in
theorem other (h : s.Owned) {T' : Thread ι} {j : Fin maxPeers} (hT : (s.tasks T).slot? = some k) (hne : T' ≠ T)
    (hT' : (s.tasks T').slot? = some j) : j ≠ k := by
  rintro rfl
  exact hne (h.apart T' T _ hT' hT)

omit [DecidableEq ι] in
theorem clear (h : s.Owned) (hsudp : (s.slots k).sudp = none) (halone : ∀ T, (s.tasks T).slot? ≠ some k) :
    (s.clear k).Owned :=
  h.setSlot hsudp.symm (fun _ => ⟨hsudp, halone⟩) fun hused => absurd rfl hused

theorem claim (h : s.Owned) {peerId : PeerId} (htask : s.tasks T = .idle) (hfree : (s.slots k).state = .free)
    (hnew : ∀ j, (s.slots j).state ≠ .free → (s.slots j).peerId ≠ peerId)
    (hworker : ∀ n w, T ≠ .worker n w) : (s.claim T k peerId).Owned := by
  have hempty : (s.slots k).sudp = none := by
    cases hsudp : (s.slots k).sudp with
    | none => rfl
    | some n => exact absurd hfree (h.held k n hsudp).2.2
  have hslot : (s.setSlot k { s.slots k with peerId, state := .connecting }).Owned :=
    h.setSlot rfl (fun hnot => nomatch hnot) fun _ j _ hj => hnew j hj
  refine hslot.setTask (fun j hj => ?_) ?_ htask rfl (fun _ hn => nomatch hn) fun n w hT => absurd hT (hworker n w)
  · cases hj
    refine ⟨fun T' _ hT' => h.occupied T' k hT' hfree, ?_⟩
    rw [slots_setSlot, if_pos rfl]
    exact SlotState.noConfusion
  · change ((s.setSlot k _).slots k).sudp = none
    rw [slots_setSlot, if_pos rfl]
    exact hempty

theorem create (h : s.Owned) (htask : s.tasks T = .claimed k) (hworker : ∀ n w, T ≠ .worker n w) :
    (s.create T k).Owned := by
  have hempty : (s.slots k).sudp = none := by
    have hfits := h.fits T
    rwa [htask] at hfits
  have hown : (s.tasks T).slot? = some k := htask ▸ rfl
  have hfresh := h.fresh s.made le_rfl
  have hlive {n : ℕ} (hn : s.Live n) : (s.create T k).Live n ∧ (s.create T k).slotOf n = s.slotOf n :=
    ⟨⟨Nat.lt_succ_of_lt hn.1, hn.2⟩, Function.update_of_ne (Nat.ne_of_lt hn.1) ..⟩
  have htasks (T' : Thread ι) :
      (s.create T k).tasks T' = if T' = T then .creating k s.made else s.tasks T' := tasks_setTask
  constructor
  · grind [h.apart, Task.slot?]
  · intro T' j h'
    have hused : (s.slots j).state ≠ .free := by grind [h.occupied, Task.slot?]
    exact hused
  · intro T'
    rw [htasks]
    split
    · exact ⟨hempty, ⟨Nat.lt_succ_self _, hfresh.2⟩, Function.update_self .., hfresh.1⟩
    · refine (h.fits T').frame (fun _ _ => rfl) (fun j n hnew => ?_) (fun _ _ _ _ => rfl)
      have hfits := h.fits T'
      rw [hnew] at hfits
      exact ⟨(hlive hfits.2.1).1, (hlive hfits.2.1).2.trans hfits.2.2.1, hfits.2.2.2⟩
  · intro j n hn
    obtain ⟨hn, hslot, hstate⟩ := h.held j n hn
    exact ⟨(hlive hn).1, (hlive hn).2.trans hslot, hstate⟩
  · rintro n ⟨hlt, hfreed⟩
    rcases Nat.lt_succ_iff_lt_or_eq.mp hlt with hlt | rfl
    · rw [(hlive ⟨hlt, hfreed⟩).2]
      exact (h.live n ⟨hlt, hfreed⟩).imp_right fun ⟨T', hT'⟩ => ⟨T', by grind⟩
    · refine .inr ⟨T, (htasks T).trans ?_⟩
      rw [if_pos rfl]
      have hslot : (s.create T k).slotOf s.made = k := Function.update_self ..
      rw [hslot]
  · exact fun n hn => h.fresh n (Nat.le_of_succ_le hn)
  · exact fun n hn => (h.destroyed n hn).imp_right
      (Or.imp_right fun ⟨T', who, j, hT'⟩ => ⟨T', who, j, by grind⟩)
  · exact h.freed
  · intro T' n h'
    rw [htasks] at h'
    split at h'
    · exact nomatch h'
    · exact (h.users T' n h').imp_left Nat.lt_succ_of_lt
  · exact fun n w h' => (hlive (h.workers n w (by grind))).1
  · exact h.names

theorem store (h : s.Owned) (htask : s.tasks T = .creating k n) (hworker : ∀ n w, T ≠ .worker n w) :
    ((s.setSession k (some n)).setTask T (.created k)).Owned := by
  obtain ⟨hempty, hlive, hslot, hwhole⟩ : (s.slots k).sudp = none ∧ s.Live n ∧ s.slotOf n = k ∧ s.destroys n = 0 := by
    have hfits := h.fits T
    rwa [htask] at hfits
  have hown : (s.tasks T).slot? = some k := htask ▸ rfl
  have hsudp (j : Fin maxPeers) : (((s.setSession k (some n)).setTask T (.created k)).slots j).sudp =
      if j = k then some n else (s.slots j).sudp := by grind [Threads.setSession]
  constructor
  · grind [h.apart, Threads.setSession, Task.slot?]
  · intro T' j h'
    grind [h.occupied, Threads.setSession, Task.slot?]
  · intro T'
    rw [tasks_setTask]
    split
    · exact ⟨n, (hsudp k).trans (if_pos rfl), hwhole⟩
    · rename_i hT
      have hother (j : Fin maxPeers) (hj : (s.tasks T').slot? = some j) : j ≠ k := h.other hown hT hj
      refine (h.fits T').frame (fun j hj => (hsudp j).trans (if_neg (hother j hj))) (fun j m hnew => ?_)
        (fun _ _ _ _ => rfl)
      have hfits := h.fits T'
      rw [hnew] at hfits
      exact hfits.2
  · intro j m hm
    rw [hsudp] at hm
    have hstate : (((s.setSession k (some n)).setTask T (.created k)).slots j).state = (s.slots j).state := by
      grind [Threads.setSession]
    rw [hstate]
    split at hm
    · rename_i hj
      cases hm
      exact ⟨hlive, hslot.trans hj.symm, hj ▸ h.occupied T k hown⟩
    · exact h.held j m hm
  · intro m hm
    rw [hsudp]
    change (if s.slotOf m = k then _ else _) = _ ∨ _
    by_cases hmn : m = n
    · rw [hmn, if_pos hslot]
      exact .inl rfl
    · cases h.live m hm with
      | inl hsome =>
        refine .inl ((if_neg fun heq => ?_).trans hsome)
        rw [heq, hempty] at hsome
        cases hsome
      | inr hcreating =>
        obtain ⟨T', hT'⟩ := hcreating
        refine .inr ⟨T', ?_⟩
        rw [tasks_setTask, if_neg]
        · exact hT'
        · rintro rfl
          exact hmn (Task.creating.inj (htask.symm.trans hT')).2.symm
  · exact h.fresh
  · intro m hm
    obtain ⟨hmade, hfreed | ⟨T', who, j, hT'⟩⟩ := h.destroyed m hm
    · exact ⟨hmade, .inl hfreed⟩
    · exact ⟨hmade, .inr ⟨T', who, j, by grind [Threads.setSession]⟩⟩
  · exact h.freed
  · intro T' m h'
    rw [tasks_setTask] at h'
    split at h'
    · cases h'
    · exact h.users T' m h'
  · exact fun m w h' => h.workers m w (by grind [Threads.setSession])
  · intro j l hne hj hl
    grind [h.names, Threads.setSession]

omit [DecidableEq ι] in
theorem untouched (h : s.Owned) (hsudp : (s.slots k).sudp = some n)
    (hnobody : ∀ T who j, s.tasks T ≠ .destroying who j n) : s.destroys n = 0 := by
  by_contra hdestroys
  obtain ⟨_, hfreed | ⟨T, who, j, hT⟩⟩ := h.destroyed n hdestroys
  · exact Bool.false_ne_true ((h.held k n hsudp).1.2.symm.trans hfreed)
  · exact hnobody T who j hT

theorem destroy (h : s.Owned) (who : Destroyer) (hsudp : (s.slots k).sudp = some n)
    (hslot : (s.tasks T).slot? = some k ∨ (s.tasks T).slot? = none) (htask : s.tasks T = old)
    (hold : old.steady = true)
    (hother : ∀ T', T' ≠ T → (s.tasks T').slot? ≠ some k ∧ ((s.tasks T').session? = some n → T'.WorksFor n))
    (hworker : ∀ n w, T ≠ .worker n w) : (s.destroy T who k n).Owned := by
  obtain ⟨hlive, hslotOf, hstate⟩ := h.held k n hsudp
  have hwhole : s.destroys n = 0 := by
    refine h.untouched hsudp fun T' who' j hT' => ?_
    have hne : T' ≠ T := by
      rintro rfl
      exact nomatch (htask.symm.trans hT') ▸ hold
    have hfits := h.fits T'
    rw [hT'] at hfits
    have hj : j = k := (h.held j n hfits.1).2.1.symm.trans hslotOf
    exact (hother T' hne).1 (hT' ▸ hj ▸ rfl)
  have hcount (m : ℕ) : (s.destroy T who k n).destroys m = if m = n then 1 else s.destroys m := by
    change Function.update s.destroys n (s.destroys n + 1) m = _
    rw [Function.update_apply, hwhole]
  have htasks (T' : Thread ι) :
      (s.destroy T who k n).tasks T' = if T' = T then .destroying who k n else s.tasks T' := tasks_setTask
  have helse (j : Fin maxPeers) (m : ℕ) (hm : (s.slots j).sudp = some m) (hj : j ≠ k) : m ≠ n := by
    rintro rfl
    exact hj ((h.held j m hm).2.1.symm.trans hslotOf)
  constructor
  · grind [h.apart, Task.slot?]
  · intro T' j h'
    rw [htasks] at h'
    split at h'
    · cases h'
      exact hstate
    · exact h.occupied T' j h'
  · intro T'
    rw [htasks]
    split
    · exact ⟨hsudp, (hcount n).trans (if_pos rfl)⟩
    · rename_i hT
      have hj (j : Fin maxPeers) (h' : (s.tasks T').slot? = some j) : j ≠ k := by
        rintro rfl
        exact (hother T' hT).1 h'
      refine (h.fits T').frame (fun _ _ => rfl) (fun j m hnew => ?_) (fun j m h' hm => ?_)
      · have hfits := h.fits T'
        rw [hnew] at hfits
        refine ⟨hfits.2.1, hfits.2.2.1, (hcount m).trans ?_⟩
        rw [if_neg, hfits.2.2.2]
        rintro rfl
        exact hj j (hnew ▸ rfl) (hfits.2.2.1.symm.trans hslotOf)
      · exact (hcount m).trans (if_neg (helse j m hm (hj j h')))
  · exact h.held
  · refine fun m hm => (h.live m hm).imp_right fun ⟨T', hT'⟩ => ⟨T', (htasks T').trans ?_⟩
    rw [if_neg]
    · exact hT'
    · rintro rfl
      exact nomatch (htask.symm.trans hT') ▸ hold
  · intro m hm
    rw [hcount, if_neg (Nat.ne_of_gt (Nat.lt_of_lt_of_le hlive.1 hm))]
    exact h.fresh m hm
  · intro m hm
    rw [hcount] at hm ⊢
    split
    · rename_i hmn
      exact ⟨rfl, .inr ⟨T, who, k, (htasks T).trans (hmn ▸ if_pos rfl)⟩⟩
    · rename_i hmn
      rw [if_neg hmn] at hm
      exact (h.destroyed m hm).imp_right (Or.imp_right fun ⟨T', who', j, hT'⟩ => ⟨T', who', j, by grind [Task.steady]⟩)
  · intro m hm
    rw [hcount]
    split
    · exact Nat.one_ne_zero
    · exact h.freed m hm
  · intro T' m h'
    rw [htasks] at h'
    split at h'
    · exact nomatch h'
    · rename_i hT
      refine ⟨(h.users T' m h').1, ?_⟩
      rw [hcount]
      split
      · rename_i hmn
        exact .inl (hmn ▸ (hother T' hT).2 (hmn ▸ h'))
      · exact (h.users T' m h').2
  · exact fun m w h' => h.workers m w (by grind)
  · exact h.names

end Owned

/-- `yumi_sudp_client_destroy` has returned, and the slot is emptied. -/
def emptied (s : Threads ι) (T : Thread ι) (task : Task) (k : Fin maxPeers) (n : ℕ) : Threads ι :=
  ({ s with freed := Function.update s.freed n true }.setSession k none).setTask T task

section Emptied

variable {T T' : Thread ι} {task : Task} {k j : Fin maxPeers} {n m : ℕ}

theorem tasks_emptied : (s.emptied T task k n).tasks T' = if T' = T then task else s.tasks T' := tasks_setTask

theorem slots_emptied :
    (s.emptied T task k n).slots j = if j = k then { s.slots k with sudp := none } else s.slots j :=
  Function.update_apply ..

theorem freed_emptied : (s.emptied T task k n).freed m = if m = n then true else s.freed m :=
  Function.update_apply ..

theorem state_emptied : ((s.emptied T task k n).slots j).state = (s.slots j).state := by
  rw [slots_emptied]
  split
  · rename_i hj
    rw [hj]
  · rfl

theorem peerId_emptied : ((s.emptied T task k n).slots j).peerId = (s.slots j).peerId := by
  rw [slots_emptied]
  split
  · rename_i hj
    rw [hj]
  · rfl

theorem sudp_emptied : ((s.emptied T task k n).slots j).sudp = if j = k then none else (s.slots j).sudp := by
  rw [slots_emptied]
  split <;> rfl

theorem live_emptied (hm : s.Live m) (hne : m ≠ n) : (s.emptied T task k n).Live m :=
  ⟨hm.1, freed_emptied.trans ((if_neg hne).trans hm.2)⟩

theorem Owned.emptied (h : s.Owned) {who : Destroyer} (htask : s.tasks T = .destroying who k n)
    (hidle : ∀ w, s.tasks (.worker n w) = .idle) (hworker : ∀ n w, T ≠ .worker n w)
    (hnext : task = .scrapped k ∨ task.slot? = none) (hsession : task.session? = none) :
    (s.emptied T task k n).Owned := by
  obtain ⟨hsudp, honce⟩ : (s.slots k).sudp = some n ∧ s.destroys n = 1 := by
    have hfits := h.fits T
    rwa [htask] at hfits
  have hown : (s.tasks T).slot? = some k := htask ▸ rfl
  obtain ⟨hlive, hslotOf, hstate⟩ := h.held k n hsudp
  have hnew : ∀ j, task.slot? = some j → j = k := by
    rcases hnext with rfl | hnone
    · exact fun j hj => (Option.some.inj hj).symm
    · exact fun j hj => nomatch hnone.symm.trans hj
  have helse (j : Fin maxPeers) (m : ℕ) (hm : (s.slots j).sudp = some m) (hj : j ≠ k) : m ≠ n := by
    rintro rfl
    exact hj ((h.held j m hm).2.1.symm.trans hslotOf)
  constructor
  · intro T₁ T₂ j h₁ h₂
    rw [tasks_emptied] at h₁ h₂
    grind [h.apart]
  · intro T' j h'
    rw [tasks_emptied] at h'
    rw [state_emptied]
    split at h'
    · exact hnew j h' ▸ hstate
    · exact h.occupied T' j h'
  · intro T'
    rw [tasks_emptied]
    split
    · rcases hnext with rfl | hnone
      · exact sudp_emptied.trans (if_pos rfl)
      · exact fits_of_slotless hnone
    · rename_i hT
      have hj (j : Fin maxPeers) (h' : (s.tasks T').slot? = some j) : j ≠ k := h.other hown hT h'
      refine (h.fits T').frame (fun j h' => sudp_emptied.trans (if_neg (hj j h'))) (fun j m hcreating => ?_)
        (fun _ _ _ _ => rfl)
      have hfits := h.fits T'
      rw [hcreating] at hfits
      refine ⟨live_emptied hfits.2.1 ?_, hfits.2.2⟩
      rintro rfl
      exact hj j (hcreating ▸ rfl) (hfits.2.2.1.symm.trans hslotOf)
  · intro j m hm
    rw [sudp_emptied] at hm
    rw [state_emptied]
    split at hm
    · exact nomatch hm
    · rename_i hj
      obtain ⟨hmlive, hmslot, hmstate⟩ := h.held j m hm
      exact ⟨live_emptied hmlive (helse j m hm hj), hmslot, hmstate⟩
  · rintro m ⟨hlt, hfreed⟩
    rw [freed_emptied] at hfreed
    split at hfreed
    · exact nomatch hfreed
    · rename_i hmn
      change ((s.emptied T task k n).slots (s.slotOf m)).sudp = _ ∨ ∃ T', _ = Task.creating (s.slotOf m) m
      rw [sudp_emptied]
      cases h.live m ⟨hlt, hfreed⟩ with
      | inl hsome =>
        refine .inl ((if_neg fun heq => ?_).trans hsome)
        exact hmn (Option.some.inj (hsome.symm.trans (heq ▸ hsudp)))
      | inr hcreating =>
        obtain ⟨T', hT'⟩ := hcreating
        refine .inr ⟨T', tasks_emptied.trans ((if_neg ?_).trans hT')⟩
        rintro rfl
        exact nomatch htask.symm.trans hT'
  · intro m hm
    refine ⟨(h.fresh m hm).1, freed_emptied.trans ((if_neg ?_).trans (h.fresh m hm).2)⟩
    exact Nat.ne_of_gt (Nat.lt_of_lt_of_le hlive.1 hm)
  · intro m hm
    refine ⟨(h.destroyed m hm).1, ?_⟩
    rw [freed_emptied]
    by_cases hmn : m = n
    · exact .inl (if_pos hmn)
    · rw [if_neg hmn]
      refine (h.destroyed m hm).2.imp_right fun ⟨T', who', j, hT'⟩ => ⟨T', who', j, ?_⟩
      refine tasks_emptied.trans ((if_neg ?_).trans hT')
      rintro rfl
      cases htask.symm.trans hT'
      exact hmn rfl
  · intro m hm
    rw [freed_emptied] at hm
    change s.destroys m ≠ 0
    split at hm
    · rename_i hmn
      rw [hmn, honce]
      exact Nat.one_ne_zero
    · exact h.freed m hm
  · intro T' m h'
    rw [tasks_emptied] at h'
    split at h'
    · exact nomatch hsession.symm.trans h'
    · exact h.users T' m h'
  · intro m w h'
    rw [tasks_emptied, if_neg (hworker m w).symm] at h'
    apply live_emptied (h.workers m w h')
    rintro rfl
    exact h' (hidle w)
  · intro j l hne hj hl
    rw [state_emptied] at hj hl
    rw [peerId_emptied, peerId_emptied]
    exact h.names j l hne hj hl

end Emptied

omit [DecidableEq ι] in
theorem Starts.not_worker {T : Thread ι} (h : s.Starts T) (n w : ℕ) : T ≠ .worker n w := by
  rintro rfl
  exact h.2

def Staffed (s : Threads ι) : Prop := ∀ n w, (s.tasks (.worker n w)).ofWorker = true

section Steps

variable {T : Thread ι} {task old : Task} {k : Fin maxPeers} {n : ℕ}

omit [DecidableEq ι] in
theorem Staffed.not_worker (h : s.Staffed) (htask : s.tasks T = old) (hold : old.ofWorker = false) (n w : ℕ) :
    T ≠ .worker n w := by
  rintro rfl
  exact nomatch (htask ▸ h n w).symm.trans hold

theorem Staffed.setTask (h : s.Staffed) (htasks : t.tasks = s.tasks)
    (htask : task.ofWorker = true ∨ ∀ n w, T ≠ .worker n w) : (t.setTask T task).Staffed := by
  intro n w
  rw [tasks_setTask, htasks]
  split
  · rename_i hT
    exact htask.resolve_right fun hworker => hworker n w hT.symm
  · exact h n w

theorem Staffed.step (h : s.Staffed) (hstep : Step s event t) : t.Staffed := by
  cases hstep with
  | claim T k peerId hloops =>
    refine h.setTask rfl (.inr fun n w hT => ?_)
    subst hT
    exact hloops.elim (nomatch ·) (nomatch ·)
  | abandon T k htask => exact h.setTask rfl (.inr (h.not_worker htask rfl))
  | create T k htask => exact h.setTask rfl (.inr (h.not_worker htask rfl))
  | store T k n htask => exact h.setTask rfl (.inr (h.not_worker htask rfl))
  | connect T k n htask => exact h.setTask rfl (.inr (h.not_worker htask rfl))
  | connectNull T k htask => exact h.setTask rfl (.inr (h.not_worker htask rfl))
  | refused T k n htask => exact h.setTask rfl (.inr (h.not_worker htask rfl))
  | scrap T k n htask => exact h.setTask rfl (.inr (h.not_worker htask rfl))
  | scrapNull T k htask => exact h.setTask rfl (.inr (h.not_worker htask rfl))
  | discard T k n htask => exact h.setTask rfl (.inr (h.not_worker htask rfl))
  | destroyed T who k n htask =>
    have hworker := h.not_worker htask rfl
    cases who with
    | connect => exact h.setTask rfl (.inr hworker)
    | slotFree => exact h.setTask rfl (.inr hworker)
    | sweep => exact h.setTask rfl (.inr hworker)
  | sweep => exact h.setTask rfl (.inr fun _ _ hT => nomatch hT)
  | sweepDestroy T kind k rest n htask => exact h.setTask rfl (.inr (h.not_worker htask rfl))
  | sweepClear T kind k rest htask => exact h.setTask rfl (.inr (h.not_worker htask rfl))
  | sweepSkip T kind k rest htask => exact h.setTask rfl (.inr (h.not_worker htask rfl))
  | pick => exact h.setTask rfl (.inr fun _ _ hT => nomatch hT)
  | sendFailed => exact h
  | failed => exact h
  | stop => exact h.setTask rfl (.inr fun _ _ hT => nomatch hT)
  | sweepAll => exact h.setTask rfl (.inr fun _ _ hT => nomatch hT)
  | _ => exact h.setTask rfl (.inl rfl)

omit [DecidableEq ι] in
theorem free_of_slotAlloc (h : slotAlloc s.slots = some k) : (s.slots k).state = .free := by
  simpa using List.find?_some h

omit [DecidableEq ι] in
theorem new_of_slotFind {peerId : PeerId} (h : slotFind s.slots peerId = none) (j : Fin maxPeers)
    (hj : (s.slots j).state ≠ .free) : (s.slots j).peerId ≠ peerId := by
  have hnot := List.find?_eq_none.mp h j (List.mem_finRange j)
  simpa [hj] using hnot

omit [DecidableEq ι] in
theorem slot_of_sessionOf {peerId : PeerId} (h : sessionOf s.slots peerId = some n) :
    ∃ k, (s.slots k).sudp = some n := by
  obtain ⟨k, _, hk⟩ := Option.bind_eq_some_iff.mp h
  split at hk
  · exact ⟨k, hk⟩
  · exact nomatch hk

namespace Owned

omit [DecidableEq ι] in
theorem used_of_live (h : s.Owned) (hlive : s.Live n) : (s.slots (s.slotOf n)).state ≠ .free := by
  cases h.live n hlive with
  | inl hsudp => exact (h.held _ n hsudp).2.2
  | inr hcreating =>
    obtain ⟨T, hT⟩ := hcreating
    exact h.occupied T _ (hT ▸ rfl)

omit [DecidableEq ι] in
theorem live_of_user (h : s.Owned) (huser : (s.tasks T).session? = some n) : s.Live n := by
  obtain ⟨hmade, hworks | hwhole⟩ := h.users T n huser
  · cases T with
    | worker m w =>
      cases hworks
      refine h.workers n w fun hidle => ?_
      rw [hidle] at huser
      exact nomatch huser
    | sync => exact hworks.elim
    | boot => exact hworks.elim
    | caller i => exact hworks.elim
  · refine ⟨hmade, ?_⟩
    cases hfreed : s.freed n with
    | false => rfl
    | true => exact absurd hwhole (h.freed n hfreed)

omit [DecidableEq ι] in
theorem taken (h : s.Owned) (hsudp : (s.slots k).sudp = some n) (hmannered : s.Mannered (.take T n)) :
    n < s.made ∧ (T.WorksFor n ∨ s.destroys n = 0) := by
  refine ⟨(h.held k n hsudp).1.1, ?_⟩
  by_cases hworks : T.WorksFor n
  · exact .inl hworks
  · exact .inr (h.untouched hsudp (hmannered hworks))

omit [DecidableEq ι] in
theorem keeps (h : s.Owned) (hown : (s.tasks T).slot? = some k) :
    (∀ T', T' ≠ T → (s.tasks T').slot? ≠ some k) ∧ (s.slots k).state ≠ .free :=
  ⟨fun T' hne hT' => hne (h.apart T' T k hT' hown), h.occupied T k hown⟩

theorem goOn (h : s.Owned) (htask : s.tasks T = old) (hold : old.steady = true) (hown : old.slot? = some k)
    (hslot : task.slot? = some k) (hfits : s.Fits task) (hworker : ∀ n w, T ≠ .worker n w)
    (huser : ∀ n, task.session? = some n → n < s.made ∧ (T.WorksFor n ∨ s.destroys n = 0)) :
    (s.setTask T task).Owned := by
  refine h.setTask (fun j hj => ?_) hfits htask hold huser fun n w hT => absurd hT (hworker n w)
  cases hslot.symm.trans hj
  exact h.keeps (htask ▸ hown)

theorem freed_slot (h : s.Owned) {who : Destroyer} (htask : s.tasks T = .destroying who k n)
    (hidle : ∀ w, s.tasks (.worker n w) = .idle) (hworker : ∀ n w, T ≠ .worker n w)
    (hslot : task.slot? = none) (hsession : task.session? = none) :
    (({ s with freed := Function.update s.freed n true }.clear k).setTask T task).Owned := by
  have hrest := h.emptied htask hidle hworker (.inr hslot) hsession
  have hsame : ({ s with freed := Function.update s.freed n true }.clear k).setTask T task =
      (s.emptied T task k n).clear k := by
    simp [Threads.emptied, Threads.clear, Threads.setSession, Threads.setSlot, Threads.setTask]
  rw [hsame]
  refine hrest.clear (sudp_emptied.trans (if_pos rfl)) fun T' hT' => ?_
  rw [tasks_emptied] at hT'
  split at hT'
  · cases hslot.symm.trans hT'
  · rename_i hne
    exact (h.keeps (htask ▸ rfl)).1 T' hne hT'

theorem step (h : s.Owned) (hstaff : s.Staffed) (hmannered : s.Mannered event) (hstep : Step s event t) :
    t.Owned := by
  have hknows {T : Thread ι} {task : Task} (htask : s.tasks T = task) : s.Fits task := htask ▸ h.fits T
  cases hstep with
  | claim T k peerId hloops hstarts _ hfind halloc =>
    refine h.claim hstarts.1 (free_of_slotAlloc halloc) (new_of_slotFind hfind) fun n w hT => ?_
    subst hT
    exact hloops.elim (nomatch ·) (nomatch ·)
  | abandon T k htask =>
    have hempty : (s.slots k).sudp = none := hknows htask
    exact h.goOn htask rfl rfl rfl hempty (hstaff.not_worker htask rfl) fun _ hn => nomatch hn
  | create T k htask => exact h.create htask (hstaff.not_worker htask rfl)
  | store T k n htask => exact h.store htask (hstaff.not_worker htask rfl)
  | connect T k n htask hsudp =>
    obtain ⟨m, hm, hwhole⟩ := hknows htask
    cases hsudp.symm.trans hm
    refine h.goOn htask rfl rfl rfl ⟨hsudp, hwhole⟩ (hstaff.not_worker htask rfl) fun m hm => ?_
    cases hm
    exact ⟨(h.held k n hsudp).1.1, .inr hwhole⟩
  | connectNull T k htask hsudp =>
    obtain ⟨m, hm, _⟩ := hknows htask
    exact nomatch hsudp.symm.trans hm
  | accepted T k n htask => exact h.turn htask rfl rfl rfl (.inl Task.noConfusion)
  | refused T k n htask =>
    exact h.goOn htask rfl rfl rfl ⟨n, hknows htask⟩ (hstaff.not_worker htask rfl) fun _ hn => nomatch hn
  | scrap T k n htask hsudp =>
    exact h.destroy _ hsudp (.inl (htask ▸ rfl)) htask rfl
      (fun T' hne => ⟨(hmannered T' hne).1, (hmannered T' hne).2 n hsudp⟩) (hstaff.not_worker htask rfl)
  | scrapNull T k htask hsudp =>
    obtain ⟨m, hm, _⟩ := hknows htask
    exact nomatch hsudp.symm.trans hm
  | discard T k n htask hsudp => exact nomatch (hknows htask).symm.trans hsudp
  | discardNull T k htask hsudp =>
    have hrest : (s.setTask T .idle).Owned := h.turn htask rfl rfl rfl (.inl Task.noConfusion)
    refine hrest.clear hsudp fun T' hT' => ?_
    rw [tasks_setTask] at hT'
    split at hT'
    · exact nomatch hT'
    · rename_i hne
      exact (h.keeps (htask ▸ rfl)).1 T' hne hT'
  | destroyed T who k n htask hidle =>
    have hworker := hstaff.not_worker htask rfl
    cases who with
    | connect => exact h.emptied htask hidle hworker (.inl rfl) rfl
    | slotFree => exact h.freed_slot htask hidle hworker rfl rfl
    | sweep kind rest => exact h.freed_slot htask hidle hworker rfl rfl
  | lock T _ hstarts =>
    exact (h.relock (some T) s.running s.closed).turn hstarts.1 rfl rfl rfl (.inr hstarts.not_worker)
  | call T k n htask _ hsudp =>
    refine h.setTask (fun _ hk => nomatch hk) trivial htask rfl (fun m hm => ?_) fun n w hT _ => ?_
    · cases hm
      exact h.taken hsudp hmannered
    · subst hT
      exact h.workers n w (htask ▸ Task.noConfusion)
  | called T n htask => exact h.turn htask rfl rfl rfl (.inl Task.noConfusion)
  | unlock T htask => exact (h.relock none s.running s.closed).turn htask rfl rfl rfl (.inl Task.noConfusion)
  | sweep kind hstarts =>
    exact (h.relock (some .sync) s.running s.closed).turn hstarts.1 rfl rfl rfl (.inr hstarts.not_worker)
  | sweepDestroy T kind k rest n htask _ hsudp =>
    exact h.destroy _ hsudp (.inr (htask ▸ rfl)) htask rfl
      (fun T' hne => ⟨(hmannered T' hne).1, (hmannered T' hne).2 n hsudp⟩) (hstaff.not_worker htask rfl)
  | sweepClear T kind k rest htask _ hsudp =>
    have hrest : (s.setTask T (.sweeping kind rest)).Owned := h.turn htask rfl rfl rfl (.inl Task.noConfusion)
    refine hrest.clear hsudp fun T' hT' => ?_
    rw [tasks_setTask] at hT'
    split at hT'
    · exact nomatch hT'
    · rename_i hne
      exact (hmannered T' hne).1 hT'
  | sweepSkip T kind k rest htask => exact h.turn htask rfl rfl rfl (.inl Task.noConfusion)
  | swept T kind htask => exact (h.relock none s.running s.closed).turn htask rfl rfl rfl (.inl Task.noConfusion)
  | pick i peerId n hstarts _ hsession =>
    obtain ⟨k, hsudp⟩ := slot_of_sessionOf hsession
    refine h.setTask (fun _ hk => nomatch hk) trivial hstarts.1 rfl (fun m hm => ?_) fun _ _ hT => nomatch hT
    cases hm
    exact h.taken hsudp hmannered
  | send T n htask =>
    refine h.setTask (fun _ hk => nomatch hk) trivial htask rfl (fun m hm => ?_) fun n w hT => ?_
    · cases hm
      exact h.users T n (htask ▸ rfl)
    · exact absurd hT (hstaff.not_worker htask rfl n w)
  | sent T n htask => exact h.turn htask rfl rfl rfl (.inl Task.noConfusion)
  | sendFailed T n htask =>
    have huser : (s.tasks T).session? = some n := by
      cases htask with
      | inl htask => exact htask ▸ rfl
      | inr htask => exact htask ▸ rfl
    exact h.setState SlotState.noConfusion (h.used_of_live (h.live_of_user huser))
  | enter n w cb hlive hidle =>
    refine h.setTask (fun _ hk => nomatch hk) trivial hidle rfl (fun _ hm => nomatch hm) fun m v hT _ => ?_
    cases hT
    exact hlive
  | wantForward n w htask => exact h.turn htask rfl rfl rfl (.inl Task.noConfusion)
  | wantEstablished n w htask =>
    have hlive := h.workers n w (htask ▸ Task.noConfusion)
    exact (h.setState SlotState.noConfusion (h.used_of_live hlive)).turn htask rfl rfl rfl (.inl Task.noConfusion)
  | forward n w htask =>
    exact (h.relock (some (.worker n w)) s.running s.closed).turn htask rfl rfl rfl (.inl Task.noConfusion)
  | established n w htask => exact h.turn htask rfl rfl rfl (.inl Task.noConfusion)
  | duplicate n w htask =>
    have hlive := h.workers n w (htask ▸ Task.noConfusion)
    exact (h.setState SlotState.noConfusion (h.used_of_live hlive)).turn htask rfl rfl rfl (.inl Task.noConfusion)
  | failed n w hlive => exact h.setState SlotState.noConfusion (h.used_of_live hlive)
  | reply n w m hlive htask _ hsudp =>
    have hown : m = n := by
      cases h.live n hlive with
      | inl hn => exact Option.some.inj (hsudp.symm.trans hn)
      | inr hcreating =>
        obtain ⟨T, hT⟩ := hcreating
        exact nomatch (hknows hT).1.symm.trans hsudp
    obtain ⟨old, hold, hsteady⟩ : ∃ old, s.tasks (.worker n w) = old ∧ old.steady = true := by
      cases htask with
      | inl hidle => exact ⟨_, hidle, rfl⟩
      | inr hgreeting => exact ⟨_, hgreeting, rfl⟩
    refine h.setTask (fun _ hk => nomatch hk) trivial hold hsteady (fun j hj => ?_) fun j v hT _ => ?_
    · cases hj
      exact ⟨hown ▸ hlive.1, .inl hown.symm⟩
    · cases hT
      exact hlive
  | greeted n w htask => exact h.turn htask rfl rfl rfl (.inl Task.noConfusion)
  | stop i hstarts =>
    exact (h.relock s.lock false s.closed).turn hstarts.1 rfl rfl rfl (.inr fun _ _ hT => nomatch hT)
  | sweepAll i htask =>
    exact (h.relock (some (.caller i)) s.running s.closed).turn htask rfl rfl rfl (.inl Task.noConfusion)
  | close i htask => exact (h.relock none s.running true).turn htask rfl rfl rfl (.inl Task.noConfusion)

omit [DecidableEq ι] in
theorem used (h : s.Owned) (hsession : (s.tasks T).session? = some n) :
    s.Live n ∧ (T.WorksFor n ∨ s.destroys n = 0) :=
  ⟨h.live_of_user hsession, (h.users T n hsession).2⟩

omit [DecidableEq ι] in
theorem inside (h : s.Owned) (hinside : (s.tasks T).Inside n) :
    s.Live n ∧ (T.WorksFor n ∨ s.destroys n = 0) := by
  cases htask : s.tasks T with
  | creating k m =>
    rw [htask] at hinside
    cases hinside
    have hfits := h.fits T
    rw [htask] at hfits
    exact ⟨hfits.2.1, .inr hfits.2.2.2⟩
  | connecting k m =>
    rw [htask] at hinside
    cases hinside
    exact h.used (htask ▸ rfl)
  | sending m =>
    rw [htask] at hinside
    cases hinside
    exact h.used (htask ▸ rfl)
  | calling m =>
    rw [htask] at hinside
    cases hinside
    exact h.used (htask ▸ rfl)
  | _ =>
    rw [htask] at hinside
    exact hinside.elim

omit [DecidableEq ι] in
theorem lawful (h : s.Owned) : s.Lawful where
  once n := by
    by_cases hn : s.destroys n = 0
    · exact hn ▸ Nat.zero_le 1
    · exact Nat.le_of_eq (h.destroyed n hn).1
  unused T n hinside hother := (h.inside hinside).2.resolve_left hother
  lasting T n hinside := (h.inside hinside).1.2
  free k hk := by
    cases hsudp : (s.slots k).sudp with
    | none => rfl
    | some n => exact absurd hk (h.held k n hsudp).2.2
  apart := h.names

end Owned

omit [DecidableEq ι] in
theorem owned_started : (started : Threads ι).Owned where
  apart _ _ _ h := nomatch h
  occupied _ _ h := nomatch h
  fits _ := trivial
  held _ _ h := nomatch h
  live _ h := absurd h.1 (Nat.not_lt_zero _)
  fresh _ _ := ⟨rfl, rfl⟩
  destroyed _ h := absurd rfl h
  freed _ h := nomatch h
  users _ _ h := nomatch h
  workers _ _ h := absurd rfl h
  names _ _ _ h := absurd rfl h

/-- The sessions and slots of a client live as they should, in every run in which nobody frees a slot
or destroys its session while another thread is at it. -/
theorem slots_lawful (h : ((threads ι).restrict Mannered).Reachable s) : s.Lawful := by
  have hinv : s.Staffed ∧ s.Owned := by
    refine System.Reachable.invariant (I := fun s => s.Staffed ∧ s.Owned) ?_ ?_ h
    · rintro s rfl
      exact ⟨fun _ _ => rfl, owned_started⟩
    · rintro s event t - ⟨hstaff, howned⟩ ⟨hmannered, hstep⟩
      exact ⟨hstaff.step hstep, howned.step hstaff hmannered hstep⟩
  exact hinv.2.lawful

end Steps

section Dialed

open YumiBrowser.Group (member)

theorem tasks_create {T T' : Thread ι} {k : Fin maxPeers} :
    (s.create T k).tasks T' = if T' = T then .creating k s.made else s.tasks T' :=
  tasks_setTask

theorem tasks_locked {T T' : Thread ι} {task : Task} :
    (s.locked T task).tasks T' = if T' = T then task else s.tasks T' :=
  tasks_setTask

theorem dialed_idle (peerId : PeerId) (T : Thread ι) : (dialed peerId).tasks T = .idle := by
  simp only [dialed, establishing, connecting, dialing, Threads.setState, Threads.setSession, Threads.claim,
    tasks_setTask, tasks_setSlot, tasks_create]
  by_cases hsync : T = .sync
  · simp [hsync]
  · by_cases hworker : T = .worker 0 0
    · simp [hworker]
    · simp [hsync, hworker, started]

theorem slots_lawful_swept : ∃ s : Threads Unit, s.destroys 0 = 1 ∧ s.freed 0 = true ∧ s.Lawful := by
  have hfree : Free (Mannered (ι := Unit)) := fun s hcalm =>
    ⟨fun _ => trivial, fun _ n _ T' who k => hcalm T' who k n, fun _ _ _ => trivial⟩
  have hdialed := (dialed_reachable hfree (member 1).peerId).1
  have hsweep := @reachable_next _ _ _ _ _ hdialed (.act .sync) trivial
    (Step.sweep .silent ⟨rfl, rfl⟩ rfl Sweep.noConfusion)
  have hidle (T : Thread Unit) (hT : T ≠ .sync) :
      ((dialed (member 1).peerId).locked .sync (.sweeping .silent (List.finRange maxPeers))).tasks T = .idle :=
    tasks_locked.trans ((if_neg hT).trans (dialed_idle _ T))
  have hmannered : ((dialed (ι := Unit) (member 1).peerId).locked .sync
      (.sweeping .silent (List.finRange maxPeers))).Mannered (.teardown .sync 0) := by
    intro T hT
    rw [hidle T hT]
    exact ⟨(nomatch ·), fun _ _ h => nomatch h⟩
  have hdestroy := reachable_next hsweep hmannered (Step.sweepDestroy .sync .silent 0 _ 0 rfl ⟨rfl, rfl⟩ rfl)
  have hdestroyed := @reachable_next _ _ _ _ _ hdestroy (.act .sync) trivial
    (Step.destroyed .sync _ 0 0 rfl fun w => hidle (.worker 0 w) fun h => nomatch h)
  exact ⟨_, rfl, rfl, slots_lawful hdestroyed⟩

theorem session_destroyed_in_use : ¬ ∀ s : Threads Unit, (threads Unit).Reachable s → s.Lawful := by
  intro hall
  have hfree : Free fun (_ : Threads Unit) _ => True :=
    fun _ _ => ⟨fun _ => trivial, fun _ _ => trivial, fun _ _ _ => trivial⟩
  have hdialed := (dialed_reachable hfree (member 1).peerId).1.of_restrict
  have hpick := hdialed.step (Step.pick () (member 1).peerId 0 ⟨rfl, rfl⟩ rfl (by decide +kernel))
  have hsend := hpick.step (Step.send (.caller ()) 0 rfl)
  have hsweep := hsend.step (Step.sweep .silent ⟨rfl, rfl⟩ rfl Sweep.noConfusion)
  have hdestroy := hsweep.step (Step.sweepDestroy .sync .silent 0 _ 0 rfl ⟨rfl, rfl⟩ rfl)
  exact nomatch (hall _ hdestroy).unused (.caller ()) 0 rfl id

end Dialed

end Threads

end YumiBrowser.Client
