import YumiBrowser.Network.SendPool

universe u

namespace YumiBrowser.Udp

open Transition Wire

def Sent.Reliable {ι : Type u} (e : Sent ι) : Prop := e.ticket.work.type = .sendReliable

/-- `a` goes before `b` on a channel, by the thread that enqueued them. -/
structure Sent.Before {ι : Type u} (a b : Sent ι) : Prop where
  reliable : a.Reliable ∧ b.Reliable
  thread : a.ticket.thread = b.ticket.thread
  dest : a.ticket.work.dest = b.ticket.work.dest
  channel : a.ticket.work.channel = b.ticket.work.channel
  number : a.ticket.number < b.ticket.number

namespace SendPool

variable {ι : Type u} {workers maxPayload : ℕ} {s t : SendPool ι} {e : Event ι} {i : ι} {w n : ℕ}
  {work : WorkItem} {x y : Ticket ι}

/-- The reliable messages of a thread on a channel have their sequence numbers in the order of their calls. -/
def InOrder (s : SendPool ι) : Prop := ∀ a ∈ s.sent, ∀ b ∈ s.sent, a.Before b → a.seq < b.seq

structure Inv (s : SendPool ι) : Prop where
  bounded : ∀ w, (s.rings w).Bounded
  numbered : ∀ w n x, (s.rings w).filled n = some x → x.number < s.enqueued x.thread
  holding : ∀ i w n work, s.callers i = .holding w n work → n < (s.rings w).reserved ∧
    (s.rings w).filled n = none ∧ ∀ m x, (s.rings w).filled m = some x → x.thread = i → m < n
  apart : ∀ i j w n work work', s.callers i = .holding w n work → s.callers j = .holding w n work' → i = j
  sorted : ∀ w m n x y, m < n → (s.rings w).filled m = some x → (s.rings w).filled n = some y →
    x.thread = y.thread → x.number < y.number

structure Logged (workers : ℕ) (s : SendPool ι) : Prop where
  worker : ∀ e ∈ s.sent, e.worker < workers
  sent : ∀ e ∈ s.sent, ∃ n < (s.rings e.worker).taken, (s.rings e.worker).filled n = some e.ticket
  taken : s.sent.Pairwise fun a b => a.worker = b.worker → a.ticket.thread = b.ticket.thread →
    a.ticket.number < b.ticket.number
  counted : ∀ e ∈ s.sent, e.Reliable → e.seq < s.relSeq e.ticket.work.channel
  rising : s.sent.Pairwise fun a b => a.Reliable → b.Reliable →
    a.ticket.work.channel = b.ticket.work.channel → a.seq < b.seq

theorem inv_create (sendRr : BitVec 64) : (create sendRr : SendPool ι).Inv where
  bounded _ := ReservedQueue.bounded_empty
  numbered _ _ _ h := by cases h
  holding _ _ _ _ h := by cases h
  apart _ _ _ _ _ _ h := by cases h
  sorted _ _ _ _ _ _ h := by cases h

theorem logged_create (sendRr : BitVec 64) : (create sendRr : SendPool ι).Logged workers where
  worker _ h := absurd h List.not_mem_nil
  sent _ h := absurd h List.not_mem_nil
  taken := .nil
  counted _ h := absurd h List.not_mem_nil
  rising := .nil

theorem rings_setRing_self (q : ReservedQueue (Ticket ι)) : (s.setRing w q).rings w = q := Function.update_self ..

theorem rings_setRing_of_ne {v : ℕ} (h : v ≠ w) (q : ReservedQueue (Ticket ι)) :
    (s.setRing w q).rings v = s.rings v := Function.update_of_ne h ..

theorem bounded_setRing (h : ∀ v, (s.rings v).Bounded) {q : ReservedQueue (Ticket ι)}
    (hmove : ReservedQueue.Move (s.rings w) q) (v : ℕ) : ((s.setRing w q).rings v).Bounded := by
  by_cases hv : v = w
  · subst hv
    rw [rings_setRing_self]
    exact (h v).move hmove
  · rw [rings_setRing_of_ne hv]
    exact h v

section Threads

variable [DecidableEq ι]

theorem setCaller_cases {c c' : Caller} {j : ι} (h : (s.setCaller i c).callers j = c') :
    j = i ∧ c = c' ∨ j ≠ i ∧ s.callers j = c' := by
  by_cases hj : j = i
  · subst hj
    exact .inl ⟨rfl, (Function.update_self ..).symm.trans h⟩
  · exact .inr ⟨hj, (Function.update_of_ne hj ..).symm.trans h⟩

namespace Inv

theorem setCaller (h : s.Inv) (i : ι) {c : Caller} (hc : ∀ w n work, c ≠ .holding w n work) :
    (s.setCaller i c).Inv :=
  { h with
    holding := fun j w n work hj => by
      cases setCaller_cases hj with
      | inl heq => exact absurd heq.2 (hc w n work)
      | inr hj => exact h.holding j w n work hj.2
    apart := fun j k w n work work' hj hk => by
      cases setCaller_cases hj with
      | inl heq => exact absurd heq.2 (hc w n work)
      | inr hj =>
        cases setCaller_cases hk with
        | inl heq => exact absurd heq.2 (hc w n work')
        | inr hk => exact h.apart j k w n work work' hj.2 hk.2 }

theorem reserve (h : s.Inv) (i : ι) (w : ℕ) (work : WorkItem) :
    ((s.setRing w (s.rings w).reserve).setCaller i (.holding w (s.rings w).reserved work)).Inv := by
  have hfilled : ∀ v, ((s.setRing w (s.rings w).reserve).rings v).filled = (s.rings v).filled := by
    intro v
    by_cases hv : v = w
    · rw [hv, rings_setRing_self]
      rfl
    · rw [rings_setRing_of_ne hv]
  have hreserved : ∀ v, (s.rings v).reserved ≤ ((s.setRing w (s.rings w).reserve).rings v).reserved := by
    intro v
    by_cases hv : v = w
    · rw [hv, rings_setRing_self]
      exact Nat.le_succ _
    · rw [rings_setRing_of_ne hv]
  have hnew : ∀ v m x, (s.rings v).filled m = some x → m < (s.rings v).reserved := fun v m x => h.bounded v m x
  have hself : ((s.setRing w (s.rings w).reserve).rings w).reserved = (s.rings w).reserved + 1 := by
    rw [rings_setRing_self]
    rfl
  exact {
    bounded := bounded_setRing h.bounded .reserve
    numbered := fun v m x hx => h.numbered v m x (hfilled v ▸ hx)
    holding := fun j v m work' hj => by
      change m < ((s.setRing w (s.rings w).reserve).rings v).reserved ∧
        ((s.setRing w (s.rings w).reserve).rings v).filled m = none ∧
        ∀ k x, ((s.setRing w (s.rings w).reserve).rings v).filled k = some x → x.thread = j → k < m
      rw [hfilled]
      cases setCaller_cases hj with
      | inl heq =>
        obtain ⟨rfl, rfl, -⟩ := Caller.holding.inj heq.2
        refine ⟨hself ▸ Nat.lt_succ_self _, ?_, fun k x hx _ => hnew w k x hx⟩
        cases hfree : (s.rings w).filled (s.rings w).reserved with
        | none => rfl
        | some x => exact absurd (hnew w _ x hfree) (Nat.lt_irrefl _)
      | inr hj =>
        obtain ⟨hlt, hrest⟩ := h.holding j v m work' hj.2
        exact ⟨Nat.lt_of_lt_of_le hlt (hreserved v), hrest⟩
    apart := fun j k v m work₁ work₂ hj hk => by
      cases setCaller_cases hj with
      | inl heq =>
        obtain ⟨rfl, rfl, -⟩ := Caller.holding.inj heq.2
        cases setCaller_cases hk with
        | inl heq' => exact heq.1.trans heq'.1.symm
        | inr hk => exact absurd (h.holding k w _ work₂ hk.2).1 (Nat.lt_irrefl _)
      | inr hj =>
        cases setCaller_cases hk with
        | inl heq =>
          obtain ⟨rfl, rfl, -⟩ := Caller.holding.inj heq.2
          exact absurd (h.holding j w _ work₁ hj.2).1 (Nat.lt_irrefl _)
        | inr hk => exact h.apart j k v m work₁ work₂ hj.2 hk.2
    sorted := fun v m n x y hlt hx hy => h.sorted v m n x y hlt (hfilled v ▸ hx) (hfilled v ▸ hy) }

theorem commit (h : s.Inv) (hi : s.callers i = .holding w n work) : (s.commit i w n work).Inv := by
  obtain ⟨hlt, hnone, hlast⟩ := h.holding i w n work hi
  have hfilled : ∀ {v m x}, ((s.commit i w n work).rings v).filled m = some x →
      (v = w ∧ m = n ∧ x = ⟨i, s.enqueued i, work⟩) ∨ (s.rings v).filled m = some x := by
    intro v m x hx
    by_cases hv : v = w
    · subst hv
      change ((s.setRing v ((s.rings v).fill n _)).rings v).filled m = some x at hx
      rw [rings_setRing_self] at hx
      cases ReservedQueue.filled_fill_cases hx with
      | inl heq => exact .inl ⟨rfl, heq.1, heq.2.symm⟩
      | inr hx => exact .inr hx.2
    · change ((s.setRing w ((s.rings w).fill n _)).rings v).filled m = some x at hx
      rw [rings_setRing_of_ne hv] at hx
      exact .inr hx
  have hreserved : ∀ v, ((s.commit i w n work).rings v).reserved = (s.rings v).reserved := by
    intro v
    change ((s.setRing w ((s.rings w).fill n _)).rings v).reserved = _
    by_cases hv : v = w
    · rw [hv, rings_setRing_self]
      rfl
    · rw [rings_setRing_of_ne hv]
  have hold : ∀ {v m x}, (s.rings v).filled m = some x → x.thread = i → x.number < s.enqueued i :=
    fun hx hthread => hthread ▸ h.numbered _ _ _ hx
  exact {
    bounded := bounded_setRing h.bounded (.fill n _ hlt hnone)
    numbered := fun v m x hx => by
      change x.number < Function.update s.enqueued i (s.enqueued i + 1) x.thread
      rcases hfilled hx with ⟨-, -, rfl⟩ | hx
      · rw [Function.update_self]
        exact Nat.lt_succ_self _
      · by_cases hthread : x.thread = i
        · rw [hthread, Function.update_self]
          exact Nat.lt_succ_of_lt (hold hx hthread)
        · rw [Function.update_of_ne hthread]
          exact h.numbered v m x hx
    holding := fun j v m work' hj => by
      rcases setCaller_cases hj with heq | ⟨hji, hj⟩
      · cases heq.2
      · obtain ⟨hm, hfree, hbehind⟩ := h.holding j v m work' hj
        have hne : ¬ (v = w ∧ m = n) := by
          rintro ⟨rfl, rfl⟩
          exact hji (h.apart j i v m work' work hj hi)
        refine ⟨(hreserved v).symm ▸ hm, ?_, fun k x hx hthread => ?_⟩
        · cases hx : ((s.commit i w n work).rings v).filled m with
          | none => rfl
          | some x =>
            rcases hfilled hx with ⟨rfl, rfl, -⟩ | hx
            · exact absurd ⟨rfl, rfl⟩ hne
            · rw [hfree] at hx
              cases hx
        · rcases hfilled hx with ⟨-, -, rfl⟩ | hx
          · exact absurd hthread.symm hji
          · exact hbehind k x hx hthread
    apart := fun j k v m work₁ work₂ hj hk => by
      rcases setCaller_cases hj with heq | ⟨-, hj⟩
      · cases heq.2
      · rcases setCaller_cases hk with heq | ⟨-, hk⟩
        · cases heq.2
        · exact h.apart j k v m work₁ work₂ hj hk
    sorted := fun v m k x y hmk hx hy hthread => by
      rcases hfilled hx with ⟨rfl, rfl, rfl⟩ | hx
      · rcases hfilled hy with ⟨-, rfl, -⟩ | hy
        · exact absurd hmk (Nat.lt_irrefl _)
        · exact absurd (hlast k y hy hthread.symm) (Nat.lt_asymm hmk)
      · rcases hfilled hy with ⟨-, -, rfl⟩ | hy
        · exact hold hx hthread
        · exact h.sorted v m k x y hmk hx hy hthread }

end Inv

end Threads

theorem Inv.congr (h : s.Inv) (hrings : ∀ v, (t.rings v).filled = (s.rings v).filled ∧
    (t.rings v).reserved = (s.rings v).reserved) (hcallers : t.callers = s.callers)
    (henqueued : t.enqueued = s.enqueued) : t.Inv where
  bounded v n x hx := by
    rw [(hrings v).2]
    exact h.bounded v n x ((hrings v).1 ▸ hx)
  numbered v n x hx := by
    rw [henqueued]
    exact h.numbered v n x ((hrings v).1 ▸ hx)
  holding i v n work hi := by
    rw [(hrings v).1, (hrings v).2]
    exact h.holding i v n work (hcallers ▸ hi)
  apart i j v n work work' hi hj := h.apart i j v n work work' (hcallers ▸ hi) (hcallers ▸ hj)
  sorted v m n x y hlt hx hy := h.sorted v m n x y hlt ((hrings v).1 ▸ hx) ((hrings v).1 ▸ hy)

theorem filled_setRing_take (s : SendPool ι) (w v : ℕ) :
    ((s.setRing w (s.rings w).take).rings v).filled = (s.rings v).filled ∧
      ((s.setRing w (s.rings w).take).rings v).reserved = (s.rings v).reserved := by
  by_cases hv : v = w
  · rw [hv, rings_setRing_self]
    exact ⟨rfl, rfl⟩
  · rw [rings_setRing_of_ne hv]
    exact ⟨rfl, rfl⟩

theorem sendWorkerProcessItem_sends (s : SendPool ι) (w : ℕ) (x : Ticket ι) :
    (s.sendWorkerProcessItem w x).rings = s.rings ∧ ∃ seq,
      (s.sendWorkerProcessItem w x).sent = s.sent ++ [⟨w, x, seq⟩] ∧
      (x.work.type = .sendReliable → seq = s.relSeq x.work.channel ∧
        (s.sendWorkerProcessItem w x).relSeq =
          Function.update s.relSeq x.work.channel (s.relSeq x.work.channel + 1)) ∧
      (x.work.type ≠ .sendReliable → (s.sendWorkerProcessItem w x).relSeq = s.relSeq) := by
  unfold sendWorkerProcessItem
  split
  · rename_i hrel
    exact ⟨rfl, _, rfl, fun _ => ⟨rfl, rfl⟩, fun hne => absurd hrel hne⟩
  · rename_i hrel
    exact ⟨rfl, _, rfl, fun h => absurd h hrel, fun _ => rfl⟩

theorem relSeq_le_process (s : SendPool ι) (w : ℕ) (x : Ticket ι) (ch : BitVec 8) :
    s.relSeq ch ≤ (s.sendWorkerProcessItem w x).relSeq ch := by
  obtain ⟨_, _, _, hrel, hother⟩ := s.sendWorkerProcessItem_sends w x
  by_cases hx : x.work.type = .sendReliable
  · rw [(hrel hx).2]
    by_cases hch : ch = x.work.channel
    · rw [hch, Function.update_self]
      exact Nat.le_succ _
    · rw [Function.update_of_ne hch]
  · rw [hother hx]

theorem Inv.drain (h : s.Inv) (w : ℕ) (x : Ticket ι) : (s.drain w x).Inv := by
  have hprocess : (s.sendWorkerProcessItem w x).Inv := by
    unfold sendWorkerProcessItem
    split <;> exact h.congr (fun _ => ⟨rfl, rfl⟩) rfl rfl
  unfold SendPool.drain
  split
  · exact h.congr (fun _ => ⟨rfl, rfl⟩) rfl rfl
  · exact h.congr (filled_setRing_take s w) rfl rfl
  all_goals
    rw [← (s.sendWorkerProcessItem_sends w x).1]
    exact hprocess.congr (filled_setRing_take _ w) rfl rfl

theorem Inv.step [DecidableEq ι] (h : s.Inv) (hstep : Step workers maxPayload s e t) : t.Inv := by
  cases hstep with
  | call i work =>
    unfold enqueueWork
    split
    · exact h
    · exact (h.congr (t := { s with sendRr := s.sendRr + 1 }) (fun _ => ⟨rfl, rfl⟩) rfl rfl).setCaller i
        (by simp)
  | elsewhere => exact h.congr (fun _ => ⟨rfl, rfl⟩) rfl rfl
  | post i => exact h.setCaller i (by simp)
  | destroy i => exact h.setCaller i (by simp)
  | reserve i => exact h.reserve i _ _
  | giveUp i => exact h.setCaller i (by simp)
  | commit i hi => exact h.commit hi
  | drain w => exact h.drain w _

namespace Logged

theorem mono (h : s.Logged workers) (hsent : t.sent = s.sent) (hrel : t.relSeq = s.relSeq)
    (htaken : ∀ v, (s.rings v).taken ≤ (t.rings v).taken)
    (hfilled : ∀ v n x, (s.rings v).filled n = some x → (t.rings v).filled n = some x) : t.Logged workers where
  worker e he := h.worker e (hsent ▸ he)
  sent e he := by
    obtain ⟨n, hn, hx⟩ := h.sent e (hsent ▸ he)
    exact ⟨n, Nat.lt_of_lt_of_le hn (htaken _), hfilled _ _ _ hx⟩
  taken := hsent ▸ h.taken
  counted e he := by
    rw [hrel]
    exact h.counted e (hsent ▸ he)
  rising := hsent ▸ h.rising

theorem setRing (h : s.Logged workers) (w : ℕ) {q : ReservedQueue (Ticket ι)}
    (htaken : (s.rings w).taken ≤ q.taken)
    (hfilled : ∀ n x, (s.rings w).filled n = some x → q.filled n = some x) : (s.setRing w q).Logged workers := by
  refine h.mono rfl rfl (fun v => ?_) fun v n x hx => ?_
  · by_cases hv : v = w
    · rw [hv, rings_setRing_self]
      exact htaken
    · rw [rings_setRing_of_ne hv]
  · by_cases hv : v = w
    · subst hv
      rw [rings_setRing_self]
      exact hfilled n x hx
    · rw [rings_setRing_of_ne hv]
      exact hx

theorem process (h : s.Logged workers) (hinv : s.Inv) (hw : w < workers) (hx : (s.rings w).front = some x) :
    ((s.sendWorkerProcessItem w x).setRing w (s.rings w).take).Logged workers := by
  obtain ⟨hsame, seq, hsent, hseq⟩ := s.sendWorkerProcessItem_sends w x
  have hsent : ((s.sendWorkerProcessItem w x).setRing w (s.rings w).take).sent = s.sent ++ [⟨w, x, seq⟩] := hsent
  have hrings : ∀ v, ((s.rings v).taken ≤ (((s.sendWorkerProcessItem w x).setRing w (s.rings w).take).rings v).taken) ∧
      (((s.sendWorkerProcessItem w x).setRing w (s.rings w).take).rings v).filled = (s.rings v).filled := by
    intro v
    by_cases hv : v = w
    · rw [hv, rings_setRing_self]
      exact ⟨Nat.le_succ _, rfl⟩
    · rw [rings_setRing_of_ne hv, hsame]
      exact ⟨Nat.le_refl _, rfl⟩
  have hself : (((s.sendWorkerProcessItem w x).setRing w (s.rings w).take).rings w).taken = (s.rings w).taken + 1 := by
    rw [rings_setRing_self]
    rfl
  have hlast : ∀ e ∈ s.sent, e.worker = w → e.ticket.thread = x.thread → e.ticket.number < x.number := by
    rintro e he rfl hthread
    obtain ⟨n, hn, hfilled⟩ := h.sent e he
    exact hinv.sorted _ n _ _ _ hn hfilled hx hthread
  exact {
    worker := fun e he => by
      rw [hsent, List.mem_append, List.mem_singleton] at he
      rcases he with he | rfl
      · exact h.worker e he
      · exact hw
    sent := fun e he => by
      rw [hsent, List.mem_append, List.mem_singleton] at he
      rcases he with he | rfl
      · obtain ⟨n, hn, hfilled⟩ := h.sent e he
        exact ⟨n, Nat.lt_of_lt_of_le hn (hrings _).1, (hrings _).2 ▸ hfilled⟩
      · exact ⟨(s.rings w).taken, hself ▸ Nat.lt_succ_self _, (hrings w).2 ▸ hx⟩
    taken := by
      rw [hsent, List.pairwise_append]
      refine ⟨h.taken, List.pairwise_singleton .., fun e he e' he' hworker hthread => ?_⟩
      obtain rfl := List.mem_singleton.mp he'
      exact hlast e he hworker hthread
    counted := fun e he hrel => by
      change e.seq < (s.sendWorkerProcessItem w x).relSeq e.ticket.work.channel
      rw [hsent, List.mem_append, List.mem_singleton] at he
      rcases he with he | rfl
      · exact Nat.lt_of_lt_of_le (h.counted e he hrel) (s.relSeq_le_process w x _)
      · rw [(hseq.1 hrel).1, (hseq.1 hrel).2, Function.update_self]
        exact Nat.lt_succ_self _
    rising := by
      rw [hsent, List.pairwise_append]
      refine ⟨h.rising, List.pairwise_singleton .., fun e he e' he' hrel hrel' hch => ?_⟩
      obtain rfl := List.mem_singleton.mp he'
      have hcount := h.counted e he hrel
      rw [hch] at hcount
      exact (hseq.1 hrel').1 ▸ hcount }

theorem step [DecidableEq ι] (h : s.Logged workers) (hinv : s.Inv) (hstep : Step workers maxPayload s e t) :
    t.Logged workers := by
  cases hstep with
  | call i work =>
    unfold enqueueWork
    split
    · exact h
    · exact h.mono rfl rfl (fun _ => Nat.le_refl _) fun _ _ _ hx => hx
  | elsewhere => exact h.mono rfl rfl (fun _ => Nat.le_refl _) fun _ _ _ hx => hx
  | post i => exact h.mono rfl rfl (fun _ => Nat.le_refl _) fun _ _ _ hx => hx
  | destroy i => exact h.mono rfl rfl (fun _ => Nat.le_refl _) fun _ _ _ hx => hx
  | reserve i =>
    exact (h.setRing _ (q := (s.rings _).reserve) (Nat.le_refl _) fun _ _ hx => hx).mono rfl rfl
      (fun _ => Nat.le_refl _) fun _ _ _ hx => hx
  | giveUp i => exact h.mono rfl rfl (fun _ => Nat.le_refl _) fun _ _ _ hx => hx
  | commit i hi =>
    obtain ⟨hlt, hnone, -⟩ := hinv.holding _ _ _ _ hi
    exact (h.setRing _ (q := (s.rings _).fill _ _) (Nat.le_refl _) fun _ _ hx =>
      (ReservedQueue.Move.fill _ _ hlt hnone).keeps hx).mono rfl rfl (fun _ => Nat.le_refl _) fun _ _ _ hx => hx
  | drain w hw _ hx =>
    unfold SendPool.drain
    split
    · exact h.mono rfl rfl (fun _ => Nat.le_refl _) fun _ _ _ hx => hx
    · exact h.setRing w (Nat.le_succ _) fun _ _ hx => hx
    · exact h.process hinv hw hx
    · exact h.process hinv hw hx

theorem inOrder (h : s.Logged workers) {a b : Sent ι} (ha : a ∈ s.sent) (hb : b ∈ s.sent)
    (hworker : a.worker = b.worker) (hbefore : a.Before b) : a.seq < b.seq := by
  obtain ⟨i, hi, rfl⟩ := List.getElem_of_mem ha
  obtain ⟨j, hj, rfl⟩ := List.getElem_of_mem hb
  have htaken := List.pairwise_iff_getElem.mp h.taken
  rcases Nat.lt_trichotomy i j with hlt | rfl | hgt
  · exact List.pairwise_iff_getElem.mp h.rising i j hi hj hlt hbefore.reliable.1 hbefore.reliable.2 hbefore.channel
  · exact absurd hbefore.number (Nat.lt_irrefl _)
  · exact absurd (htaken j i hj hi hgt hworker.symm hbefore.thread.symm) (Nat.lt_asymm hbefore.number)

end Logged

theorem reachable_inv [DecidableEq ι] (h : (sendSystem ι workers maxPayload).Reachable s) :
    s.Inv ∧ s.Logged workers := by
  refine System.Reachable.invariant (I := fun s => s.Inv ∧ s.Logged workers) ?_ ?_ h
  · rintro s ⟨sendRr, rfl⟩
    exact ⟨inv_create sendRr, logged_create sendRr⟩
  · intro s e t _ hinv hstep
    exact ⟨hinv.1.step hstep, hinv.2.step hinv.1 hstep⟩

section Overtaking

variable [DecidableEq ι]

def reliableItem (data : List Byte) : WorkItem := ⟨.sendReliable, 0, none, data⟩

theorem enqueue_path (i : ι) (data : List Byte) (hidle : s.callers i = .idle)
    (hlen : data.length ≤ maxPayload) (hw : s.sendRr.toNat % workers = w)
    (hroom : (s.rings w).reserved < (s.rings w).taken + ringCapacity) :
    ∃ t : SendPool ι, (sendSystem ι workers maxPayload).Path s t ∧ t.sendRr = s.sendRr + 1 ∧
      t.callers i = .idle ∧ t.enqueued i = s.enqueued i + 1 ∧ t.relSeq = s.relSeq ∧ t.stopped = s.stopped ∧
      t.sent = s.sent ∧
      t.rings = Function.update s.rings w ((s.rings w).reserve.fill (s.rings w).reserved
        ⟨i, s.enqueued i, reliableItem data⟩) := by
  have hcall : (sendSystem ι workers maxPayload).step s (.call i) (s.enqueueWork workers maxPayload i
      (reliableItem data)) := Step.call i (reliableItem data) hidle (.inl rfl)
  have hfits : ¬ maxPayload < (reliableItem data).data.length := Nat.not_lt.mpr hlen
  rw [enqueueWork, if_neg hfits, hw] at hcall
  have hreserve : (sendSystem ι workers maxPayload).step _ (.reserve i) _ := Step.reserve i
    (s := { s with sendRr := s.sendRr + 1 }.setCaller i (.picked w (reliableItem data)))
    (Function.update_self ..) hroom
  have hcommit : (sendSystem ι workers maxPayload).step _ (.commit i) _ := Step.commit i
    (s := (({ s with sendRr := s.sendRr + 1 }.setCaller i (.picked w (reliableItem data))).setRing w
      (s.rings w).reserve).setCaller i (.holding w (s.rings w).reserved (reliableItem data)))
    (Function.update_self ..)
  refine ⟨_, .tail (.tail (.tail .refl hcall) hreserve) hcommit, rfl, Function.update_self .., ?_, rfl, rfl, rfl, ?_⟩
  · exact Function.update_self ..
  · change Function.update (Function.update s.rings w (s.rings w).reserve) w
      ((Function.update s.rings w (s.rings w).reserve w).fill (s.rings w).reserved
        ⟨i, s.enqueued i, reliableItem data⟩) = _
    rw [Function.update_idem, Function.update_self]

theorem drain_path (hw : w < workers) (hrunning : s.stopped w = false) (hx : (s.rings w).front = some x)
    (hrel : x.work.type = .sendReliable) :
    ∃ t : SendPool ι, (sendSystem ι workers maxPayload).Path s t ∧
      t.rings = Function.update s.rings w (s.rings w).take ∧ t.stopped = s.stopped ∧
      t.relSeq = Function.update s.relSeq x.work.channel (s.relSeq x.work.channel + 1) ∧
      t.sent = s.sent ++ [⟨w, x, s.relSeq x.work.channel⟩] := by
  have hdrain : (sendSystem ι workers maxPayload).step s (.drain w) (s.drain w x) := Step.drain w hw hrunning hx
  rw [SendPool.drain, hrel] at hdrain
  have hsent : s.sendWorkerProcessItem w x = { s with
      relSeq := Function.update s.relSeq x.work.channel (s.relSeq x.work.channel + 1)
      sent := s.sent ++ [⟨w, x, s.relSeq x.work.channel⟩] } := if_pos hrel
  rw [hsent] at hdrain
  exact ⟨_, .tail .refl hdrain, rfl, rfl, rfl, rfl⟩

theorem overtaken (i : ι) (maxPayload : ℕ) (hworkers : 2 ≤ workers) :
    ∃ s : SendPool ι, (sendSystem ι workers maxPayload).Reachable s ∧ ¬ s.InOrder := by
  have hstart : (sendSystem ι workers maxPayload).Reachable (create 0) := .init ⟨0, rfl⟩
  have hone : (0 + 1 : BitVec 64).toNat % workers = 1 := Nat.mod_eq_of_lt hworkers
  obtain ⟨s, hpath, hrr, hidle, henq, hrel, hrun, hsent, hrings⟩ :
      ∃ t : SendPool ι, (sendSystem ι workers maxPayload).Path (create 0) t ∧ _ :=
    enqueue_path i [] rfl (Nat.zero_le maxPayload) (Nat.zero_mod workers) (Nat.zero_lt_succ 4095)
  obtain ⟨s', hpath', -, -, -, hrel', hrun', hsent', hrings'⟩ :
      ∃ t : SendPool ι, (sendSystem ι workers maxPayload).Path s t ∧ _ :=
    enqueue_path i [] hidle (Nat.zero_le maxPayload) (hrr ▸ hone) (by
      rw [hrings, Function.update_of_ne (by decide)]
      exact Nat.zero_lt_succ 4095)
  have hfirst : (s'.rings 0).front = some ⟨i, 0, reliableItem []⟩ := by
    rw [hrings', Function.update_of_ne (by decide), hrings, Function.update_self]
    exact ReservedQueue.filled_fill_self
  have hsecond : (s'.rings 1).front = some ⟨i, 1, reliableItem []⟩ := by
    rw [hrings', Function.update_self, henq, hrings, Function.update_of_ne (by decide)]
    exact ReservedQueue.filled_fill_self
  have hrunning : ∀ w, s'.stopped w = false := by
    intro w
    rw [hrun', hrun]
    rfl
  obtain ⟨t, hdrain, hringsₜ, hrunₜ, hrelₜ, hsentₜ⟩ : ∃ t : SendPool ι,
      (sendSystem ι workers maxPayload).Path s' t ∧ _ := drain_path hworkers (hrunning 1) hsecond rfl
  have hstill : (t.rings 0).front = some ⟨i, 0, reliableItem []⟩ := by
    rw [hringsₜ, Function.update_of_ne (by decide)]
    exact hfirst
  obtain ⟨t', hdrain', -, -, -, hsentₜ'⟩ : ∃ t' : SendPool ι,
      (sendSystem ι workers maxPayload).Path t t' ∧ _ :=
    drain_path (Nat.lt_of_succ_lt hworkers) (hrunₜ ▸ hrunning 0) hstill rfl
  refine ⟨t', hdrain'.reachable (hdrain.reachable (hpath'.reachable (hpath.reachable hstart))), fun hall => ?_⟩
  have hlog : t'.sent = [⟨1, ⟨i, 1, reliableItem []⟩, 0⟩, ⟨0, ⟨i, 0, reliableItem []⟩, 1⟩] := by
    rw [hsentₜ', hrelₜ, hsentₜ, hsent', hsent, hrel', hrel]
    rfl
  have hlt := hall ⟨0, ⟨i, 0, reliableItem []⟩, 1⟩ (by simp [hlog]) ⟨1, ⟨i, 1, reliableItem []⟩, 0⟩
    (by simp [hlog]) ⟨⟨rfl, rfl⟩, rfl, rfl, rfl, Nat.zero_lt_one⟩
  exact absurd hlt (Nat.not_lt_zero 1)

end Overtaking

/-- The order of the calls is kept, however the threads and the workers take turns, if and only if there is
one worker. -/
theorem inOrder_iff (configured maxPayload : ℕ) :
    (∀ s, (sendSystem ℕ (numSendWorkers configured) maxPayload).Reachable s → s.InOrder) ↔
      numSendWorkers configured = 1 := by
  constructor
  · intro hall
    by_contra hne
    have hpos : 0 < numSendWorkers configured := by
      unfold numSendWorkers
      split
      · assumption
      · exact Nat.zero_lt_one
    obtain ⟨s, hs, hnot⟩ := overtaken 0 maxPayload (Nat.lt_of_le_of_ne hpos (Ne.symm hne))
    exact hnot (hall s hs)
  · intro hone s hs a ha b hb hbefore
    obtain ⟨-, hlogged⟩ := reachable_inv hs
    have hworker : ∀ e ∈ s.sent, e.worker = 0 := fun e he =>
      Nat.lt_one_iff.mp (hone ▸ hlogged.worker e he)
    exact hlogged.inOrder ha hb ((hworker a ha).trans (hworker b hb).symm) hbefore

theorem overtaken_two : ¬ ∀ workers, 1 ≤ workers → ∀ maxPayload (s : SendPool ℕ),
    (sendSystem ℕ workers maxPayload).Reachable s → s.InOrder := by
  intro hall
  obtain ⟨s, hs, hnot⟩ : ∃ s : SendPool ℕ, (sendSystem ℕ 2 0).Reachable s ∧ ¬ s.InOrder :=
    overtaken 0 0 (Nat.le_refl 2)
  exact hnot (hall 2 (by decide) 0 s hs)

end SendPool

end YumiBrowser.Udp
