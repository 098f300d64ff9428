import YumiBrowser.Memory.StaticHeap

universe u v

namespace YumiBrowser.StaticHeap

open Transition Links

inductive Place (τ : Type v)
  | global
  | slot (k : Fin maxThreads)
  | stack (t : τ)
  | leased

section Places

variable {τ : Type v} {ν : Type u}

def Heap.cells (s : Heap τ ν) (free : List ν) (recovered : Fin maxThreads → List ν) :
    Place τ → List ν
  | .global => free
  | .slot k => recovered k
  | .stack t => (s.thread t).stack
  | .leased => s.leased

/-- The lists of the pool, with each node in one place. -/
structure Conserved (s : Heap τ ν) (free : List ν) (recovered : Fin maxThreads → List ν) :
    Prop where
  global : Linked s.next s.head free
  slots : ∀ k, Linked s.next (s.recoverySlots k) (recovered k)
  count : s.globalCount = free.length
  depth : ∀ t, (s.thread t).stack.length ≤ tlsCacheSize
  placed : Partitioned (s.cells free recovered)

structure Carries (s : Heap τ ν) (t : τ) : Prop where
  lent : ∀ a, (s.thread t).carried? = some (false, a) → a ∈ s.leased
  bottom : ∀ a, (s.thread t).carried? = some (true, a) → (s.thread t).stack.head? = some a
  written : ∀ flush a expected, (s.thread t).phase = .publishing flush a expected →
    s.next a = expected

structure Carried (s : Heap τ ν) : Prop where
  own : ∀ t, Carries s t
  apart : ∀ t t' f f' a, (s.thread t).carried? = some (f, a) → (s.thread t').carried? = some (f', a) →
    t = t'

end Places

section Steps

variable {τ : Type v} {ν : Type u} [DecidableEq τ] [DecidableEq ν] {s : Heap τ ν} {t t' : τ}
  {free rest l : List ν} {recovered : Fin maxThreads → List ν} {a b item : ν} {o : Option ν}
  {k : Fin maxThreads} {p : Place τ} {w : Thread ν} {f : Bool}

omit [DecidableEq τ] [DecidableEq ν] in
theorem Carried.held (h : Carried s) (hitem : (s.thread t).carried? = some (f, a)) :
    a ∈ s.cells free recovered (if f then .stack t else .leased) := by
  cases f with
  | true => exact List.mem_of_mem_head? ((h.own t).bottom a hitem)
  | false => exact (h.own t).lent a hitem

omit [DecidableEq τ] [DecidableEq ν] in
theorem Conserved.outside (h : Conserved s free recovered) (ha : a ∈ s.cells free recovered p)
    (hglobal : p ≠ .global) (hslot : ∀ k, p ≠ .slot k) : a ∉ free ∧ ∀ k, a ∉ recovered k := by
  constructor
  · intro hmem
    have hcell : a ∈ s.cells free recovered .global := hmem
    exact hglobal (h.placed.apart ha hcell)
  · intro k hmem
    have hcell : a ∈ s.cells free recovered (.slot k) := hmem
    exact hslot k (h.placed.apart ha hcell)

omit [DecidableEq τ] [DecidableEq ν] in
theorem Carried.outside (hc : Carried s) (h : Conserved s free recovered)
    (hitem : (s.thread t).carried? = some (f, a)) : a ∉ free ∧ ∀ k, a ∉ recovered k := by
  refine h.outside (hc.held hitem) ?_ ?_
  · split <;> exact nofun
  · intro k
    split <;> exact nofun

omit [DecidableEq ν] in
theorem stack_update (hstack : w.stack = (s.thread t).stack) (t' : τ) :
    (Function.update s.thread t w t').stack = (s.thread t').stack := by
  by_cases ht : t' = t
  · rw [ht, Function.update_self, hstack]
  · rw [Function.update_of_ne ht]

omit [DecidableEq ν] in
theorem stack_ne (ht : Place.stack t' ≠ .stack t) :
    (Function.update s.thread t w t').stack = (s.thread t').stack :=
  congrArg Thread.stack (Function.update_of_ne (fun heq => ht (congrArg _ heq)) _ _)

omit [DecidableEq ν] in
theorem depth_update (hdepth : ∀ t, (s.thread t).stack.length ≤ tlsCacheSize)
    (hth : w.stack.length ≤ tlsCacheSize) (t' : τ) :
    (Function.update s.thread t w t').stack.length ≤ tlsCacheSize := by
  by_cases ht : t' = t
  · rw [ht, Function.update_self]
    exact hth
  · rw [Function.update_of_ne ht]
    exact hdepth t'

omit [DecidableEq τ] [DecidableEq ν] in
theorem cells_congr {s' : Heap τ ν} {free' : List ν} {recovered' : Fin maxThreads → List ν}
    (hglobal : p = .global → free' = free) (hslot : ∀ k, p = .slot k → recovered' k = recovered k)
    (hstack : ∀ t, p = .stack t → (s'.thread t).stack = (s.thread t).stack)
    (hleased : p = .leased → s'.leased = s.leased) :
    s'.cells free' recovered' p = s.cells free recovered p := by
  cases p with
  | global => exact hglobal rfl
  | slot k => exact hslot k rfl
  | stack t => exact hstack t rfl
  | leased => exact hleased rfl

omit [DecidableEq τ] [DecidableEq ν] in
theorem Conserved.keeps {s' : Heap τ ν} (h : Conserved s free recovered)
    (hnext : ∀ a, (a ∈ free ∨ ∃ k, a ∈ recovered k) → s'.next a = s.next a)
    (hhead : s'.head = s.head) (hslots : s'.recoverySlots = s.recoverySlots)
    (hcount : s'.globalCount = s.globalCount) (hleased : s'.leased = s.leased)
    (hstack : ∀ t, (s'.thread t).stack = (s.thread t).stack) : Conserved s' free recovered := by
  constructor
  · rw [hhead]
    exact h.global.congr fun a ha => hnext a (.inl ha)
  · intro k
    rw [hslots]
    exact (h.slots k).congr fun a ha => hnext a (.inr ⟨k, ha⟩)
  · rw [hcount, h.count]
  · exact fun t => hstack t ▸ h.depth t
  · have hcells : s'.cells free recovered = s.cells free recovered :=
      funext fun p => cells_congr (fun _ => rfl) (fun _ _ => rfl) (fun t _ => hstack t) fun _ => hleased
    rw [hcells]
    exact h.placed

omit [DecidableEq ν] in
theorem Conserved.setThread (h : Conserved s free recovered) (hstack : w.stack = (s.thread t).stack) :
    Conserved (s.setThread t w) free recovered :=
  h.keeps (fun _ _ => rfl) rfl rfl rfl rfl (stack_update hstack)

theorem Conserved.setNext (h : Conserved s free recovered) (hc : Carried s)
    (hitem : (s.thread t).carried? = some (f, a)) : Conserved (s.setNext t f a o) free recovered := by
  obtain ⟨hfree, hrec⟩ := hc.outside h hitem
  refine h.keeps ?_ rfl rfl rfl rfl (stack_update rfl)
  intro b hb
  refine Function.update_of_ne ?_ _ _
  rintro rfl
  cases hb with
  | inl hb => exact hfree hb
  | inr hb =>
    obtain ⟨k, hk⟩ := hb
    exact hrec k hk

omit [DecidableEq ν] in
theorem Conserved.pop (h : Conserved s free recovered) (hstack : (s.thread t).stack = l ++ [a])
    (hth : w.stack = l) :
    Conserved { s.setThread t w with leased := a :: s.leased } free recovered := by
  have hdepth := h.depth t
  rw [hstack, List.length_append] at hdepth
  refine ⟨h.global, h.slots, h.count, depth_update h.depth ?_, ?_⟩
  · rw [hth]
    exact Nat.le_of_add_right_le hdepth
  · refine h.placed.move (p := .stack t) (q := .leased) (m := [a]) nofun ?_ (.refl _) ?_
    · change (s.thread t).stack.Perm ([a] ++ (Function.update s.thread t w t).stack)
      rw [hstack, Function.update_self, hth]
      exact List.perm_append_comm
    · intro r hr hr'
      refine cells_congr (fun _ => rfl) (fun _ _ => rfl) ?_ fun heq => absurd heq hr'
      exact fun t' heq => stack_ne (heq ▸ hr)

theorem Conserved.keep (h : Conserved s free recovered) (ha : a ∈ s.leased)
    (hth : w.stack = (s.thread t).stack ++ [a]) (hroom : (s.thread t).stack.length < tlsCacheSize) :
    Conserved { s.setThread t w with leased := s.leased.erase a } free recovered := by
  refine ⟨h.global, h.slots, h.count, depth_update h.depth ?_, ?_⟩
  · rw [hth, List.length_append]
    exact hroom
  · refine h.placed.move (p := .leased) (q := .stack t) (m := [a]) nofun
      (List.perm_cons_erase ha) ?_ ?_
    · change (Function.update s.thread t w t).stack.Perm ([a] ++ (s.thread t).stack)
      rw [Function.update_self, hth]
      exact List.perm_append_comm
    · intro r hr hr'
      refine cells_congr (fun _ => rfl) (fun _ _ => rfl) ?_ fun heq => absurd heq hr
      exact fun t' heq => stack_ne (heq ▸ hr')

theorem Conserved.give (h : Conserved s free recovered) (hstack : (s.thread t).stack = l ++ rest)
    (hth : w.stack = rest) :
    Conserved
      { s.setThread t w with
        next := linkUp s.next l s.head
        head := l.head?.or s.head
        globalCount := s.globalCount + l.length } (l ++ free) recovered := by
  have hcell : ∀ a ∈ l, a ∈ s.cells free recovered (.stack t) := by
    intro a ha
    change a ∈ (s.thread t).stack
    rw [hstack]
    exact List.mem_append_left _ ha
  have hout : ∀ a ∈ l, a ∉ free ∧ ∀ k, a ∉ recovered k :=
    fun a ha => h.outside (hcell a ha) nofun nofun
  have hnodup : (l ++ rest).Nodup := hstack ▸ h.placed.nodup (.stack t)
  have hdepth := h.depth t
  rw [hstack, List.length_append] at hdepth
  constructor
  · exact h.global.linkUp (List.nodup_append.mp hnodup).1 fun a ha hmem => (hout a hmem).1 ha
  · intro k
    exact (h.slots k).congr_linkUp fun a ha hmem => (hout a hmem).2 k ha
  · change s.globalCount + l.length = (l ++ free).length
    rw [h.count, List.length_append, Nat.add_comm]
  · apply depth_update h.depth
    rw [hth]
    exact Nat.le_trans (Nat.le_add_left _ _) hdepth
  · refine h.placed.move (p := .stack t) (q := .global) (m := l) nofun ?_ (.refl _) ?_
    · change (s.thread t).stack.Perm (l ++ (Function.update s.thread t w t).stack)
      rw [hstack, Function.update_self, hth]
    · intro r hr hr'
      refine cells_congr (fun heq => absurd heq hr') (fun _ _ => rfl) ?_ fun _ => rfl
      exact fun t' heq => stack_ne (heq ▸ hr)

omit [DecidableEq ν] in
theorem Conserved.draw (h : Conserved s (l ++ rest) recovered) (hrest : Linked s.next o rest)
    (hstack : (s.thread t).stack = []) (hth : w.stack = l) (hlen : l.length ≤ tlsCacheSize) :
    Conserved { s.setThread t w with head := o, globalCount := s.globalCount - l.length } rest
      recovered := by
  refine ⟨hrest, h.slots, ?_, depth_update h.depth (hth ▸ hlen), ?_⟩
  · change s.globalCount - l.length = rest.length
    rw [h.count, List.length_append, Nat.add_sub_cancel_left]
  · refine h.placed.move (p := .global) (q := .stack t) (m := l) nofun (.refl _) ?_ ?_
    · change (Function.update s.thread t w t).stack.Perm (l ++ (s.thread t).stack)
      rw [hstack, Function.update_self, hth, List.append_nil]
    · intro r hr hr'
      refine cells_congr (fun heq => absurd heq hr) (fun _ _ => rfl) ?_ fun _ => rfl
      exact fun t' heq => stack_ne (heq ▸ hr')

omit [DecidableEq τ] [DecidableEq ν] in
theorem Conserved.lend (h : Conserved s (a :: rest) recovered) :
    Conserved
      { s with head := s.next a, globalCount := s.globalCount - 1, leased := a :: s.leased } rest
      recovered := by
  refine ⟨h.global.2, h.slots, ?_, h.depth, ?_⟩
  · change s.globalCount - 1 = rest.length
    rw [h.count]
    rfl
  · refine h.placed.move (p := .global) (q := .leased) (m := [a]) nofun (.refl _) (.refl _) ?_
    intro r hr hr'
    exact cells_congr (fun heq => absurd heq hr) (fun _ _ => rfl) (fun _ _ => rfl)
      fun heq => absurd heq hr'

omit [DecidableEq τ] [DecidableEq ν] in
theorem Conserved.recover (h : Conserved s free recovered) (hk : recovered k = a :: rest) :
    Conserved
      { s with
        recoverySlots := Function.update s.recoverySlots k (s.next a)
        leased := a :: s.leased } free (Function.update recovered k rest) := by
  refine ⟨h.global, ?_, h.count, h.depth, ?_⟩
  · intro k'
    by_cases hkk : k' = k
    · have hlist := h.slots k
      rw [hk] at hlist
      rw [hkk, Function.update_self]
      change Linked s.next (Function.update s.recoverySlots k (s.next a) k) rest
      rw [Function.update_self]
      exact hlist.2
    · rw [Function.update_of_ne hkk]
      change Linked s.next (Function.update s.recoverySlots k (s.next a) k') (recovered k')
      rw [Function.update_of_ne hkk]
      exact h.slots k'
  · refine h.placed.move (p := .slot k) (q := .leased) (m := [a]) nofun ?_ (.refl _) ?_
    · change (recovered k).Perm ([a] ++ Function.update recovered k rest k)
      rw [hk, Function.update_self]
      exact .refl _
    · intro r hr hr'
      refine cells_congr (fun _ => rfl) ?_ (fun _ _ => rfl) fun heq => absurd heq hr'
      exact fun k' heq => Function.update_of_ne (fun hkk => hr (heq.trans (congrArg _ hkk))) _ _

omit [DecidableEq τ] [DecidableEq ν] in
theorem Conserved.publish {s' : Heap τ ν} (h : Conserved s free recovered)
    (hnext : s.next a = s.recoverySlots k) (hslot : ∀ k, p ≠ .slot k)
    (hp : (s.cells free recovered p).Perm (a :: s'.cells free recovered p))
    (hrest : ∀ r, r ≠ p → s'.cells free recovered r = s.cells free recovered r)
    (hdepth : ∀ t, (s'.thread t).stack.length ≤ tlsCacheSize) (hsame : s'.next = s.next)
    (hhead : s'.head = s.head) (hcount : s'.globalCount = s.globalCount)
    (hslots : s'.recoverySlots = Function.update s.recoverySlots k (some a)) :
    Conserved s' free (Function.update recovered k (a :: recovered k)) := by
  refine ⟨?_, ?_, hcount ▸ h.count, hdepth, ?_⟩
  · rw [hsame, hhead]
    exact h.global
  · intro k'
    rw [hsame, hslots]
    by_cases hkk : k' = k
    · rw [hkk, Function.update_self, Function.update_self]
      exact ⟨rfl, hnext ▸ h.slots k⟩
    · rw [Function.update_of_ne hkk, Function.update_of_ne hkk]
      exact h.slots k'
  · have hother : ∀ r, r ≠ .slot k → s'.cells free (Function.update recovered k (a :: recovered k)) r =
        s'.cells free recovered r := by
      intro r hr
      refine cells_congr (fun _ => rfl) ?_ (fun _ _ => rfl) fun _ => rfl
      exact fun k' heq => Function.update_of_ne (fun hkk => hr (heq.trans (congrArg _ hkk))) _ _
    refine h.placed.move (p := p) (q := .slot k) (m := [a]) (hslot k) ?_ ?_ ?_
    · rw [hother p (hslot k)]
      exact hp
    · change (Function.update recovered k (a :: recovered k) k).Perm _
      rw [Function.update_self]
      exact .refl _
    · intro r hr hr'
      rw [hother r hr']
      exact hrest r hr

end Steps

structure Sound {τ : Type v} {ν : Type u} (s : Heap τ ν) : Prop where
  carried : Carried s
  conserved : ∃ free recovered, Conserved s free recovered

section Threads

variable {τ : Type v} {ν : Type u} [DecidableEq τ] [DecidableEq ν] {s s' : Heap τ ν} {t : τ}
  {w : Thread ν} {a item : ν} {f : Bool} {l : List ν} {o : Option ν} {k : Fin maxThreads}

omit [DecidableEq τ] [DecidableEq ν] in
theorem Carries.of_none (h : (s.thread t).carried? = none) : Carries s t := by
  constructor
  · intro a ha
    rw [h] at ha
    cases ha
  · intro a ha
    rw [h] at ha
    cases ha
  · intro f a o hphase
    simp [Thread.carried?, hphase] at h

omit [DecidableEq τ] [DecidableEq ν] in
theorem Carried.step (h : Carried s) (hother : ∀ t', t' ≠ t → s'.thread t' = s.thread t')
    (hleased : ∀ t', t' ≠ t → ∀ a, (s.thread t').carried? = some (false, a) → a ∈ s'.leased)
    (hnext : ∀ t', t' ≠ t → ∀ f a, (s.thread t').carried? = some (f, a) → s'.next a = s.next a)
    (hself : Carries s' t) (hapart : ∀ f a, (s'.thread t).carried? = some (f, a) →
      ∀ t', t' ≠ t → ∀ f', (s.thread t').carried? ≠ some (f', a)) : Carried s' := by
  constructor
  · intro t'
    by_cases ht : t' = t
    · exact ht ▸ hself
    · have hsame := hother t' ht
      constructor
      · intro a ha
        exact hleased t' ht a (hsame ▸ ha)
      · intro a ha
        rw [hsame] at ha ⊢
        exact (h.own t').bottom a ha
      · intro f a o hphase
        rw [hsame] at hphase
        rw [hnext t' ht f a (by simp [Thread.carried?, hphase])]
        exact (h.own t').written f a o hphase
  · intro t₁ t₂ f₁ f₂ a h₁ h₂
    by_cases ht₁ : t₁ = t
    · by_cases ht₂ : t₂ = t
      · rw [ht₁, ht₂]
      · rw [hother t₂ ht₂] at h₂
        exact absurd h₂ (hapart f₁ a (ht₁ ▸ h₁) t₂ ht₂ f₂)
    · rw [hother t₁ ht₁] at h₁
      by_cases ht₂ : t₂ = t
      · exact absurd h₁ (hapart f₂ a (ht₂ ▸ h₂) t₁ ht₁ f₁)
      · rw [hother t₂ ht₂] at h₂
        exact h.apart t₁ t₂ f₁ f₂ a h₁ h₂

omit [DecidableEq τ] [DecidableEq ν] in
theorem Carried.step_none (h : Carried s) (hother : ∀ t', t' ≠ t → s'.thread t' = s.thread t')
    (hleased : ∀ t', t' ≠ t → ∀ a, (s.thread t').carried? = some (false, a) → a ∈ s'.leased)
    (hnext : ∀ t', t' ≠ t → ∀ f a, (s.thread t').carried? = some (f, a) → s'.next a = s.next a)
    (hnone : (s'.thread t).carried? = none) : Carried s' := by
  apply h.step hother hleased hnext (.of_none hnone)
  intro f a ha
  rw [hnone] at ha
  cases ha

omit [DecidableEq ν] in
theorem thread_ne {t' : τ} (ht : t' ≠ t) : Function.update s.thread t w t' = s.thread t' :=
  Function.update_of_ne ht _ _

omit [DecidableEq ν] in
theorem Sound.setThread (h : Sound s) (hstack : w.stack = (s.thread t).stack)
    (hcarried : w.carried? = none ∨ w.carried? = (s.thread t).carried?)
    (hphase : ∀ f a o, w.phase ≠ .publishing f a o) : Sound (s.setThread t w) := by
  obtain ⟨free, recovered, hc⟩ := h.conserved
  refine ⟨?_, free, recovered, hc.setThread hstack⟩
  have hself : (s.setThread t w).thread t = w := Function.update_self ..
  have hlent : ∀ t' a, (s.thread t').carried? = some (false, a) → a ∈ s.leased :=
    fun t' a ha => (h.carried.own t').lent a ha
  cases hcarried with
  | inl hnone =>
    exact h.carried.step_none (fun _ => thread_ne) (fun t' _ => hlent t') (fun _ _ _ _ _ => rfl)
      (by rw [hself]; exact hnone)
  | inr hsame =>
    refine h.carried.step (fun _ => thread_ne) (fun t' _ => hlent t') (fun _ _ _ _ _ => rfl) ?_ ?_
    · constructor
      · intro a ha
        rw [hself, hsame] at ha
        exact hlent t a ha
      · intro a ha
        rw [hself, hsame] at ha
        rw [hself, hstack]
        exact (h.carried.own t).bottom a ha
      · intro f a o hpub
        rw [hself] at hpub
        exact absurd hpub (hphase f a o)
    · intro f a ha t' ht f' ha'
      rw [hself, hsame] at ha
      exact ht (h.carried.apart t' t f' f a ha' ha)

omit [DecidableEq ν] in
theorem Sound.setPhase {phase : Phase ν} (h : Sound s)
    (hnone : ({ s.thread t with phase } : Thread ν).carried? = none) : Sound (s.setPhase t phase) := by
  refine h.setThread rfl (.inl hnone) ?_
  rintro f a o rfl
  cases hnone

omit [DecidableEq ν] in
theorem Sound.pop (h : Sound s) (hstack : (s.thread t).stack = l ++ [a]) (hth : w.stack = l)
    (hnone : w.carried? = none) : Sound { s.setThread t w with leased := a :: s.leased } := by
  obtain ⟨free, recovered, hc⟩ := h.conserved
  refine ⟨h.carried.step_none (fun _ => thread_ne) ?_ (fun _ _ _ _ _ => rfl) ?_, free, recovered,
    hc.pop hstack hth⟩
  · exact fun t' _ b hb => List.mem_cons_of_mem _ ((h.carried.own t').lent b hb)
  · change (Function.update s.thread t w t).carried? = none
    rw [Function.update_self]
    exact hnone

theorem Sound.keep (h : Sound s) (ha : a ∈ s.leased) (hfree : ∀ t' f, (s.thread t').carried? ≠ some (f, a))
    (hth : w.stack = (s.thread t).stack ++ [a]) (hroom : (s.thread t).stack.length < tlsCacheSize)
    (hnone : w.carried? = none) :
    Sound { s.setThread t w with leased := s.leased.erase a } := by
  obtain ⟨free, recovered, hc⟩ := h.conserved
  refine ⟨h.carried.step_none (fun _ => thread_ne) ?_ (fun _ _ _ _ _ => rfl) ?_, free, recovered,
    hc.keep ha hth hroom⟩
  · intro t' _ b hb
    refine (List.mem_erase_of_ne ?_).mpr ((h.carried.own t').lent b hb)
    rintro rfl
    exact hfree t' false hb
  · change (Function.update s.thread t w t).carried? = none
    rw [Function.update_self]
    exact hnone

omit [DecidableEq τ] [DecidableEq ν] in
theorem Sound.not_mine (h : Sound s) {t' : τ} (ht : t' ≠ t) (hitem : (s.thread t').carried? = some (f, a)) :
    a ∉ (s.thread t).stack := by
  obtain ⟨free, recovered, hc⟩ := h.conserved
  intro hmem
  have hcell : a ∈ s.cells free recovered (.stack t) := hmem
  have hsame := hc.placed.apart (h.carried.held hitem) hcell
  cases f with
  | true => exact ht (Place.stack.inj hsame)
  | false => cases hsame

theorem Sound.give (h : Sound s) {rest : List ν} (hstack : (s.thread t).stack = l ++ rest)
    (hth : w.stack = rest) (hnone : w.carried? = none) :
    Sound
      { s.setThread t w with
        next := linkUp s.next l s.head
        head := l.head?.or s.head
        globalCount := s.globalCount + l.length } := by
  obtain ⟨free, recovered, hc⟩ := h.conserved
  refine ⟨h.carried.step_none (fun _ => thread_ne) ?_ ?_ ?_, _, recovered, hc.give hstack hth⟩
  · exact fun t' _ b hb => (h.carried.own t').lent b hb
  · intro t' ht f b hb
    refine linkUp_of_not_mem fun hmem => h.not_mine ht hb ?_
    rw [hstack]
    exact List.mem_append_left _ hmem
  · change (Function.update s.thread t w t).carried? = none
    rw [Function.update_self]
    exact hnone

omit [DecidableEq ν] in
theorem Sound.takeBatch (h : Sound s) (hhead : s.head = some a) (hstack : (s.thread t).stack = [])
    (hidle : (s.thread t).carried? = none) : Sound (s.takeBatch t a).1 := by
  obtain ⟨free, recovered, hc⟩ := h.conserved
  generalize hwant : max 1 (min refillBatch ((s.globalCount + 1) / 2)) - 1 = want
  have hshort : want ≤ tlsCacheSize := by
    simp only [refillBatch, tlsCacheSize] at hwant ⊢
    omega
  obtain ⟨rest, rfl, hrest, hlen⟩ := (hhead ▸ hc.global).walk want
  have hdrawn : Conserved { s.setThread t { s.thread t with stack := passed s.next want a } with
      head := some (stop s.next want a)
      globalCount := s.globalCount - (passed s.next want a).length }
      (stop s.next want a :: rest) recovered :=
    hc.draw ⟨rfl, hrest⟩ hstack rfl (Nat.le_trans hlen hshort)
  rw [Heap.takeBatch, hwant]
  refine ⟨h.carried.step_none (fun _ => thread_ne) ?_ (fun _ _ _ _ _ => rfl) ?_, rest, recovered,
    hdrawn.lend⟩
  · exact fun t' _ b hb => List.mem_cons_of_mem _ ((h.carried.own t').lent b hb)
  · change (Function.update s.thread t _ t).carried? = none
    rw [Function.update_self]
    exact hidle

omit [DecidableEq ν] in
theorem Sound.popSlot (h : Sound s) (hslot : s.recoverySlots k = some a) (hnext : o = s.next a) :
    Sound (s.popSlot t k a o) := by
  obtain ⟨free, recovered, hc⟩ := h.conserved
  have hlist := hc.slots k
  rw [hslot] at hlist
  cases hrec : recovered k with
  | nil =>
    rw [hrec] at hlist
    cases hlist
  | cons b rest =>
    rw [hrec] at hlist
    obtain rfl : a = b := Option.some.inj hlist.1
    have hpopped := (hc.setThread (t := t) (w := { s.thread t with phase := .idle }) rfl).recover hrec
    subst hnext
    refine ⟨h.carried.step_none (fun _ => thread_ne) ?_ (fun _ _ _ _ _ => rfl) ?_, _, _, hpopped⟩
    · exact fun t' _ b hb => List.mem_cons_of_mem _ ((h.carried.own t').lent b hb)
    · change (Function.update s.thread t _ t).carried? = none
      rw [Function.update_self]
      rfl

theorem Sound.setNext (h : Sound s) (hphase : (s.thread t).phase = .linking f a o) :
    Sound (s.setNext t f a o) := by
  obtain ⟨free, recovered, hc⟩ := h.conserved
  have hitem : (s.thread t).carried? = some (f, a) := by
    rw [Thread.carried?, hphase]
  have hself : (s.setNext t f a o).thread t = { s.thread t with phase := .publishing f a o } :=
    Function.update_self ..
  refine ⟨h.carried.step (fun _ => thread_ne) ?_ ?_ ?_ ?_, free, recovered,
    hc.setNext h.carried hitem⟩
  · exact fun t' _ b hb => (h.carried.own t').lent b hb
  · intro t' ht f' b hb
    refine Function.update_of_ne ?_ _ _
    rintro rfl
    exact ht (h.carried.apart t' t f' f b hb hitem)
  · constructor
    · intro b hb
      rw [hself] at hb
      cases hb
      exact (h.carried.own t).lent a hitem
    · intro b hb
      rw [hself] at hb
      cases hb
      rw [hself]
      exact (h.carried.own t).bottom a hitem
    · intro f' b o' hpub
      rw [hself] at hpub
      cases hpub
      exact Function.update_self ..
  · intro f' b hb t' ht f'' hb'
    rw [hself] at hb
    cases hb
    exact ht (h.carried.apart t' t f'' f a hb' hitem)

theorem Sound.pushReleased (h : Sound s) (hphase : (s.thread t).phase = .publishing false a o)
    (hslot : s.recoverySlots k = o) : Sound (s.pushReleased t k a) := by
  obtain ⟨free, recovered, hc⟩ := h.conserved
  have hitem : (s.thread t).carried? = some (false, a) := by
    rw [Thread.carried?, hphase]
  have hlent := (h.carried.own t).lent a hitem
  have hnext := (h.carried.own t).written false a o hphase
  refine ⟨h.carried.step_none (fun _ => thread_ne) ?_ (fun _ _ _ _ _ => rfl) ?_, free, _,
    hc.publish (p := .leased) (hnext.trans hslot.symm) nofun (List.perm_cons_erase hlent) ?_
      (fun t' => ?_) rfl rfl rfl rfl⟩
  · intro t' ht b hb
    refine (List.mem_erase_of_ne ?_).mpr ((h.carried.own t').lent b hb)
    rintro rfl
    exact ht (h.carried.apart t' t false false b hb hitem)
  · change (Function.update s.thread t _ t).carried? = none
    rw [Function.update_self]
    rfl
  · intro r hr
    refine cells_congr (fun _ => rfl) (fun _ _ => rfl) ?_ fun heq => absurd heq hr
    exact fun t' _ => stack_update (w := { s.thread t with phase := .idle }) rfl t'
  · exact depth_update (w := { s.thread t with phase := .idle }) hc.depth (hc.depth t) t'

omit [DecidableEq ν] in
theorem Sound.startPush (h : Sound s) (ha : a ∈ s.leased)
    (hfree : ∀ t' f, (s.thread t').carried? ≠ some (f, a)) :
    Sound (s.setPhase t (.pushing false a)) := by
  obtain ⟨free, recovered, hc⟩ := h.conserved
  have hself : (s.setPhase t (.pushing false a)).thread t =
      { s.thread t with phase := .pushing false a } := Function.update_self ..
  refine ⟨h.carried.step (fun _ => thread_ne) ?_ (fun _ _ _ _ _ => rfl) ?_ ?_, free, recovered,
    hc.setThread rfl⟩
  · exact fun t' _ b hb => (h.carried.own t').lent b hb
  · constructor
    · intro b hb
      rw [hself] at hb
      cases hb
      exact ha
    · intro b hb
      rw [hself] at hb
      cases hb
    · intro f b o hpub
      rw [hself] at hpub
      cases hpub
  · intro f b hb t' _ f'
    rw [hself] at hb
    cases hb
    exact hfree t' f'

theorem Sound.flushByPush (h : Sound s) (hbottom : (s.thread t).stack.head? = some a) :
    Sound (s.flushByPush t a) := by
  obtain ⟨free, recovered, hc⟩ := h.conserved
  have hmem : a ∈ (s.thread t).stack := List.mem_of_mem_head? hbottom
  have hself : (s.flushByPush t a).thread t = { s.thread t with phase := .pushing true a } :=
    Function.update_self ..
  have hout : ∀ b ∈ (s.thread t).stack, b ∉ free ∧ ∀ k, b ∉ recovered k := by
    intro b hb
    have hcell : b ∈ s.cells free recovered (.stack t) := hb
    exact hc.outside hcell nofun nofun
  refine ⟨h.carried.step (fun _ => thread_ne) ?_ ?_ ?_ ?_, free, recovered,
    hc.keeps ?_ rfl rfl rfl rfl (stack_update (w := { s.thread t with phase := .pushing true a }) rfl)⟩
  · exact fun t' _ b hb => (h.carried.own t').lent b hb
  · exact fun t' ht f b hb => linkUp_of_not_mem (h.not_mine ht hb)
  · constructor
    · intro b hb
      rw [hself] at hb
      cases hb
    · intro b hb
      rw [hself] at hb ⊢
      cases hb
      exact hbottom
    · intro f b o hpub
      rw [hself] at hpub
      cases hpub
  · intro f b hb t' ht f' hb'
    rw [hself] at hb
    cases hb
    exact h.not_mine ht hb' hmem
  · intro b hb
    refine linkUp_of_not_mem fun hin => ?_
    cases hb with
    | inl hb => exact (hout b hin).1 hb
    | inr hb =>
      obtain ⟨k, hk⟩ := hb
      exact (hout b hin).2 k hk

omit [DecidableEq ν] in
theorem Sound.pushFlushed (h : Sound s) (hphase : (s.thread t).phase = .publishing true a o)
    (hslot : s.recoverySlots k = o) : Sound (s.pushFlushed t k a) := by
  obtain ⟨free, recovered, hc⟩ := h.conserved
  have hitem : (s.thread t).carried? = some (true, a) := by
    rw [Thread.carried?, hphase]
  have hbottom := (h.carried.own t).bottom a hitem
  have hnext := (h.carried.own t).written true a o hphase
  have hstack : (s.thread t).stack = a :: (s.thread t).stack.tail :=
    (List.eq_cons_of_mem_head? hbottom)
  have hself : (s.pushFlushed t k a).thread t = { s.thread t with
      stack := (s.thread t).stack.tail
      phase := ((s.thread t).stack.tail.head?.map (Phase.pushing true)).getD .gone } :=
    Function.update_self ..
  have hcarried : ∀ f b, ((s.pushFlushed t k a).thread t).carried? = some (f, b) →
      f = true ∧ (s.thread t).stack.tail.head? = some b := by
    intro f b hb
    rw [hself, Thread.carried?] at hb
    cases hhead : (s.thread t).stack.tail.head? with
    | none =>
      rw [hhead] at hb
      cases hb
    | some c =>
      rw [hhead] at hb
      cases hb
      exact ⟨rfl, rfl⟩
  refine ⟨h.carried.step (fun _ => thread_ne) ?_ (fun _ _ _ _ _ => rfl) ?_ ?_, free, _,
    hc.publish (p := .stack t) (hnext.trans hslot.symm) nofun ?_ ?_ ?_ rfl rfl rfl rfl⟩
  · exact fun t' _ b hb => (h.carried.own t').lent b hb
  · constructor
    · exact fun b hb => absurd (hcarried false b hb).1 Bool.false_ne_true
    · intro b hb
      rw [hself]
      exact (hcarried true b hb).2
    · intro f b o' hpub
      rw [hself] at hpub
      cases hhead : (s.thread t).stack.tail.head? with
      | none =>
        rw [hhead] at hpub
        cases hpub
      | some c =>
        rw [hhead] at hpub
        cases hpub
  · intro f b hb t' ht f' hb'
    apply h.not_mine ht hb'
    rw [hstack]
    exact List.mem_cons_of_mem _ (List.mem_of_mem_head? (hcarried f b hb).2)
  · change (s.thread t).stack.Perm (a :: ((s.pushFlushed t k a).thread t).stack)
    rw [hself, hstack]
    exact .refl _
  · intro r hr
    refine cells_congr (fun _ => rfl) (fun _ _ => rfl) ?_ fun _ => rfl
    exact fun t' heq => stack_ne (heq ▸ hr)
  · apply depth_update hc.depth
    have hdepth := hc.depth t
    exact Nat.le_trans (List.length_tail ▸ Nat.sub_le _ _) hdepth

end Threads

/-- The exit finds the thread registered or its stack empty, and an exchange that takes a node out of
a slot puts what follows it now in its place. -/
def Event.Clean {τ : Type v} {ν : Type u} (recoveryIndex : τ → Fin maxThreads) (s : Heap τ ν) :
    Event τ ν → Prop
  | exit t _ => (s.thread t).registered = true ∨ (s.thread t).stack = []
  | advance t spurious => ∀ probe head next, (s.thread t).phase = .swapping probe head next →
    spurious = false → s.recoverySlots (Heap.slotAt recoveryIndex t probe) = some head →
      next = s.next head
  | _ => True

section Run

variable {τ : Type v} {ν : Type u} [DecidableEq τ] [DecidableEq ν] {s s' : Heap τ ν} {t : τ}
  {recoveryIndex : τ → Fin maxThreads} {item : ν} {tssOk lockOk spurious : Bool} {e : Event τ ν}

omit [DecidableEq τ] [DecidableEq ν] in
theorem carried_idle (h : (s.thread t).phase = .idle) : (s.thread t).carried? = none := by
  rw [Thread.carried?, h]

omit [DecidableEq ν] in
theorem Sound.ensureTls (h : Sound s) (hidle : (s.thread t).phase = .idle)
    (htls : s.ensureTls t tssOk = some s') : Sound s' ∧
      s'.leased = s.leased ∧ (s'.thread t).phase = .idle ∧ (s'.thread t).stack = (s.thread t).stack ∧
      ∀ t', (s'.thread t').carried? = (s.thread t').carried? := by
  obtain rfl := ensureTls_eq htls
  refine ⟨h.setThread rfl (.inl (carried_idle hidle)) ?_, rfl, ?_, ?_, ?_⟩
  · rintro f a o hpub
    rw [hidle] at hpub
    cases hpub
  · rw [setThread_self]
    exact hidle
  · rw [setThread_self]
  · intro t'
    by_cases ht : t' = t
    · rw [ht, setThread_self]
      rfl
    · exact congrArg Thread.carried? (thread_ne ht)

omit [DecidableEq ν] in
theorem Sound.lease (h : Sound s) (hidle : (s.thread t).phase = .idle) :
    Sound (s.lease t tssOk lockOk).1 := by
  unfold Heap.lease
  cases htop : (s.thread t).stack.getLast? with
  | some item =>
    obtain ⟨l, hl⟩ := List.getLast?_eq_some_iff.mp htop
    refine h.pop (l := l) hl ?_ (carried_idle hidle)
    rw [hl, List.dropLast_concat]
  | none =>
    have hempty : (s.thread t).stack = [] := List.getLast?_eq_none_iff.mp htop
    cases refill_cases s t tssOk lockOk with
    | inl hfailed =>
      rw [hfailed]
      exact h
    | inr hcases =>
      obtain ⟨s', htls, hcases⟩ := hcases
      obtain ⟨hs', _, hidle', hstack, _⟩ := h.ensureTls hidle htls
      cases hcases with
      | inl htake =>
        obtain ⟨head, hhead, heq⟩ := htake
        rw [heq]
        exact hs'.takeBatch hhead (hstack.trans hempty) (carried_idle hidle')
      | inr hprobe =>
        rw [hprobe.2]
        exact hs'.setPhase rfl

theorem Sound.spill (h : Sound s) (hidle : (s.thread t).phase = .idle) (hitem : item ∈ s.leased)
    (hfree : ∀ t' f, (s.thread t').carried? ≠ some (f, item))
    (hfull : (s.thread t).stack.length = tlsCacheSize) : Sound (s.spill t item) := by
  simp only [Heap.spill, Heap.setThread]
  generalize hlower : (s.thread t).stack.take (tlsCacheSize / 2) = lower
  generalize hupper : (s.thread t).stack.drop (tlsCacheSize / 2) = upper
  have hstack : (s.thread t).stack = lower ++ upper := by
    rw [← hlower, ← hupper, List.take_append_drop]
  have hlen : lower.length = tlsCacheSize / 2 := by
    rw [← hlower, List.length_take, hfull]
    rfl
  have hroom : upper.length < tlsCacheSize := by
    rw [← hupper, List.length_drop, hfull]
    decide
  have hgiven := h.give (w := { s.thread t with stack := upper }) hstack rfl (carried_idle hidle)
  have hself : Function.update s.thread t { s.thread t with stack := upper } t =
      { s.thread t with stack := upper } := Function.update_self ..
  have hkept := hgiven.keep (t := t) (w := { s.thread t with stack := upper ++ [item] }) hitem ?_ ?_ ?_
    (carried_idle hidle)
  · have hhead : lower.head?.or s.head = lower.head? := by
      cases lower with
      | nil => exact absurd hlen (by simp [tlsCacheSize])
      | cons => rfl
    simp only [Heap.setThread, Function.update_idem, hhead, hlen] at hkept
    exact hkept
  · intro t' f
    by_cases ht : t' = t
    · change (Function.update s.thread t { s.thread t with stack := upper } t').carried? ≠ _
      rw [ht, hself]
      exact hfree t f
    · change (Function.update s.thread t { s.thread t with stack := upper } t').carried? ≠ _
      rw [Function.update_of_ne ht]
      exact hfree t' f
  · change _ = (Function.update s.thread t { s.thread t with stack := upper } t).stack ++ [item]
    rw [hself]
  · change (Function.update s.thread t { s.thread t with stack := upper } t).stack.length < _
    rw [hself]
    exact hroom

theorem Sound.releasePtr (h : Sound s) (hidle : (s.thread t).phase = .idle) (hitem : item ∈ s.leased)
    (hfree : ∀ t' f, (s.thread t').carried? ≠ some (f, item)) :
    Sound (s.releasePtr t item lockOk).1 := by
  unfold Heap.releasePtr
  split
  · next hroom => exact h.keep hitem hfree rfl hroom (carried_idle hidle)
  · next hfull =>
    unfold Heap.spillToGlobal
    split
    · obtain ⟨_, _, hc⟩ := h.conserved
      exact h.spill hidle hitem hfree (Nat.le_antisymm (hc.depth t) (Nat.not_lt.mp hfull))
    · exact h.startPush hitem hfree

theorem Sound.release (h : Sound s) (hidle : (s.thread t).phase = .idle) (hitem : item ∈ s.leased)
    (hfree : ∀ t' f, (s.thread t').carried? ≠ some (f, item)) :
    Sound (s.release t item tssOk lockOk).1 := by
  unfold Heap.release
  cases htls : s.ensureTls t tssOk with
  | none => exact h
  | some s' =>
    obtain ⟨hs', hleased, hidle', _, hcarried⟩ := h.ensureTls hidle htls
    apply hs'.releasePtr hidle' (hleased ▸ hitem)
    intro t' f
    rw [hcarried]
    exact hfree t' f

omit [DecidableEq ν] in
theorem Sound.look (h : Sound s) (probe : ℕ) (o : Option ν) : Sound (s.look t probe o).1 := by
  unfold Heap.look
  cases o with
  | some head => exact h.setPhase rfl
  | none =>
    unfold Heap.probeNext
    by_cases hmore : probe + 1 < maxThreads
    · rw [if_pos hmore]
      exact h.setPhase rfl
    · rw [if_neg hmore]
      exact h.setPhase rfl

theorem Sound.advance (h : Sound s) (hclean : (Event.advance t spurious).Clean recoveryIndex s) :
    Sound (s.advance t recoveryIndex spurious).1 := by
  unfold Heap.advance
  cases hphase : (s.thread t).phase with
  | idle => exact h
  | gone => exact h
  | probing probe => exact h.look _ _
  | holding probe head =>
    change Sound (s.setPhase t (.swapping probe head (s.next head)))
    exact h.setPhase rfl
  | swapping probe head next =>
    simp only
    split
    · next hswap => exact h.popSlot hswap.1 (hclean probe head next hphase hswap.2 hswap.1)
    · exact h.look _ _
  | pushing f item =>
    refine h.setThread rfl (.inr ?_) nofun
    simp only [Thread.carried?, hphase]
  | linking f item expected => exact h.setNext hphase
  | publishing f item expected =>
    simp only
    split
    · next hswap =>
      cases f with
      | true => exact h.pushFlushed hphase hswap.1
      | false => exact h.pushReleased hphase hswap.1
    · refine h.setThread rfl (.inr ?_) nofun
      simp only [Thread.carried?, hphase]

theorem Sound.exit (h : Sound s)
    (hclean : (Event.exit t lockOk).Clean recoveryIndex s) : Sound (s.exit t lockOk) := by
  unfold Heap.exit
  cases hbottom : (s.thread t).stack.head? with
  | none => exact h.setPhase rfl
  | some item =>
    have hne : (s.thread t).stack ≠ [] := by
      intro hnil
      rw [hnil] at hbottom
      cases hbottom
    simp only
    rw [if_pos (hclean.resolve_right hne)]
    split
    · exact h.give (List.append_nil _).symm rfl rfl
    · exact h.flushByPush hbottom

theorem Sound.step (h : Sound s) (henabled : e.Enabled s) (hclean : e.Clean recoveryIndex s) :
    Sound (s.step recoveryIndex e).1 := by
  cases e with
  | lease t tssOk lockOk => exact h.lease henabled
  | release t item checked tssOk lockOk =>
    obtain ⟨hidle, hitem, hfree⟩ := henabled
    simp only [Heap.step]
    split
    · exact h.release hidle hitem hfree
    · exact h.releasePtr hidle hitem hfree
  | advance t spurious => exact h.advance hclean
  | exit t lockOk => exact h.exit hclean

omit [DecidableEq τ] in
theorem sound_init (y : ℕ) : Sound (initStaticHeap y : Heap τ (Fin y)) := by
  have hnone : ∀ t, ((initStaticHeap y : Heap τ (Fin y)).thread t).carried? = none := fun _ => rfl
  refine ⟨⟨fun t => .of_none (hnone t), ?_⟩, List.finRange y, fun _ => [], ?_⟩
  · intro t t' f f' a ha
    rw [hnone] at ha
    cases ha
  · have hlinked : Linked (fun _ : Fin y => none) none [] := rfl
    have hchain := hlinked.linkUp (List.nodup_finRange y) fun a ha => absurd ha List.not_mem_nil
    rw [Option.or_none, List.append_nil] at hchain
    refine ⟨hchain, fun _ => rfl, List.length_finRange.symm, fun _ => Nat.zero_le _, ?_, ?_⟩
    · intro p
      cases p with
      | global => exact List.nodup_finRange y
      | _ => exact List.nodup_nil
    · intro a
      refine ⟨.global, List.mem_finRange a, ?_⟩
      intro p hp
      cases p with
      | global => rfl
      | _ => exact absurd hp List.not_mem_nil

theorem sound_reachable {y : ℕ} {s : Heap τ (Fin y)} (h : ((heapSystem recoveryIndex y).restrict
    fun s e => e.Clean recoveryIndex s).Reachable s) : Sound s := by
  refine System.Reachable.invariant ?_ ?_ h
  · rintro _ rfl
    exact sound_init y
  · rintro s e _ _ hs ⟨hclean, henabled, rfl⟩
    exact hs.step henabled hclean

/-- In a run of clean steps every node stays in one place. -/
theorem conserved_of_clean {y : ℕ} {s : Heap τ (Fin y)} (h : ((heapSystem recoveryIndex y).restrict
    fun s e => e.Clean recoveryIndex s).Reachable s) :
    ∃ free recovered, Conserved s free recovered :=
  (sound_reachable h).conserved

end Run

section Lost

def lostRun : List (Event Bool (Fin 1)) :=
  [.lease true true true, .release false 0 false true true, .exit false true]

def keptRun : List (Event Bool (Fin 1)) :=
  [.lease true true true, .release false 0 true true true, .exit false true]

def firstSlot : Bool → Fin maxThreads := fun _ => ⟨0, maxThreads_pos⟩

def after (es : List (Event Bool (Fin 1))) : Heap Bool (Fin 1) :=
  es.foldl (fun s e => (s.step firstSlot e).1) (initStaticHeap 1)

theorem leased_once (t : Bool) (f : Bool) :
    ((after [.lease true true true]).thread t).carried? ≠ some (f, 0) := by
  cases t with
  | true => exact (Option.some_ne_none _).symm
  | false => exact (Option.some_ne_none _).symm

theorem lostRun_reachable : (heapSystem firstSlot 1).Reachable (after lostRun) :=
  System.reachable_foldl lostRun
    ⟨rfl, ⟨rfl, List.mem_singleton_self _, leased_once⟩, rfl, trivial⟩

theorem keptRun_reachable : ((heapSystem firstSlot 1).restrict
    fun s e => e.Clean firstSlot s).Reachable (after keptRun) := by
  rw [heapSystem, System.machine_restrict]
  exact System.reachable_foldl keptRun
    ⟨⟨trivial, rfl⟩, ⟨trivial, rfl, List.mem_singleton_self _, leased_once⟩, ⟨.inl rfl, rfl⟩, trivial⟩

theorem conserved_of_clean_kept : ∃ free recovered, Conserved (after keptRun) free recovered :=
  conserved_of_clean keptRun_reachable

-- The thread that only releases is not registered, and the node goes with it.
theorem node_lost : ¬ ∀ (τ : Type) [DecidableEq τ] (recoveryIndex : τ → Fin maxThreads) (y : ℕ),
    0 < y → ∀ s, (heapSystem recoveryIndex y).Reachable s →
      ∃ free recovered, Conserved s free recovered := by
  intro h
  obtain ⟨free, recovered, hc⟩ := h Bool firstSlot 1 Nat.one_pos _ lostRun_reachable
  have hhead : (after lostRun).head = none := rfl
  have hslots : ∀ k, (after lostRun).recoverySlots k = none := fun _ => rfl
  have hnil : Linked (after lostRun).next none [] := rfl
  obtain ⟨p, hp, _⟩ := hc.placed.unique 0
  cases p with
  | global =>
    have hfree : free = [] := (hhead ▸ hc.global).unique hnil
    rw [Heap.cells, hfree] at hp
    cases hp
  | slot k =>
    have hrec : recovered k = [] := (hslots k ▸ hc.slots k).unique hnil
    rw [Heap.cells, hrec] at hp
    cases hp
  | stack t =>
    cases t with
    | true => exact absurd hp List.not_mem_nil
    | false => exact absurd hp List.not_mem_nil
  | leased => exact absurd hp List.not_mem_nil

end Lost

end YumiBrowser.StaticHeap
