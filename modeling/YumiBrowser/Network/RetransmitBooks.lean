import YumiBrowser.Network.RetransmitLoop

universe u

namespace YumiBrowser.Udp

open Pending (number probes)

variable {α : Type u} {span limit now : ℕ}

structure Books (limit : ℕ) (es : List (ReliableEntry (ℕ × α))) (s : Pending α) : Prop where
  probes : s.probeInflight = probes es
  accounts : ∀ n, (es.map number).count n + s.acked.count n + s.lost.count n = if n < s.added then 1 else 0
  counts : ∀ e ∈ es, s.retransmitted.count (number e) = e.retransmitCount
  known : ∀ n ∈ s.retransmitted, n < s.added
  limited : ∀ n, s.retransmitted.count n ≤ limit
  last : ∀ n ∈ s.lost, s.retransmitted.count n = limit

namespace Books

variable {s s' : Pending α} {es es' : List (ReliableEntry (ℕ × α))} {e e' : ReliableEntry (ℕ × α)}

theorem congr (h : Books limit es s) (hes : es.Perm es') (hprobes : s'.probeInflight = s.probeInflight)
    (hadded : s'.added = s.added) (hretx : s'.retransmitted.Perm s.retransmitted)
    (hacked : s'.acked.Perm s.acked) (hlost : s'.lost.Perm s.lost) : Books limit es' s' where
  probes := by
    rw [hprobes, h.probes, Pending.probes, Pending.probes, hes.countP_eq]
  accounts n := by
    rw [← (hes.map number).count_eq, hacked.count_eq, hlost.count_eq, hadded]
    exact h.accounts n
  counts x hx := by
    rw [hretx.count_eq]
    exact h.counts x (hes.mem_iff.mpr hx)
  known n hn := hadded ▸ h.known n (hretx.mem_iff.mp hn)
  limited n := hretx.count_eq n ▸ h.limited n
  last n hn := by
    rw [hretx.count_eq]
    exact h.last n (hlost.mem_iff.mp hn)

theorem perm (h : Books limit es s) (hes : es.Perm es') : Books limit es' s :=
  h.congr hes rfl rfl (.refl _) (.refl _) (.refl _)

theorem probes_cons (e : ReliableEntry (ℕ × α)) (es : List (ReliableEntry (ℕ × α))) :
    (Pending.probes (e :: es) : ℤ) = Pending.probes es + if e.probe then 1 else 0 := by
  rw [Pending.probes, Pending.probes, List.countP_cons]
  split <;> simp

theorem others (h : Books limit (e :: es) s) (hx : x ∈ es) : number x ≠ number e := by
  intro heq
  have hcount := h.accounts (number e)
  have hpos : 0 < (es.map number).count (number e) :=
    List.count_pos_iff.mpr (List.mem_map.mpr ⟨x, hx, heq⟩)
  rw [List.map_cons, List.count_cons_self] at hcount
  split at hcount <;> omega

theorem add (h : Books limit es s) (hnumber : number e = s.added) (hcount : e.retransmitCount = 0) :
    Books limit (e :: es) { s with
      probeInflight := s.probeInflight + if e.probe then 1 else 0
      added := s.added + 1 } where
  probes := by rw [probes_cons, ← h.probes]
  accounts n := by
    have hn := h.accounts n
    simp only [List.map_cons, List.count_cons, hnumber, beq_iff_eq]
    split at hn <;> split <;> split <;> omega
  counts x hx := by
    cases hx with
    | head =>
      rw [hcount, hnumber, List.count_eq_zero]
      exact fun hmem => Nat.lt_irrefl _ (h.known _ hmem)
    | tail _ hx => exact h.counts x hx
  known n hn := (h.known n hn).trans (Nat.lt_succ_self _)
  limited := h.limited
  last := h.last

theorem leave (h : Books limit (e :: es) s) (hprobes : s'.probeInflight = s.probeInflight - if e.probe then 1 else 0)
    (hadded : s'.added = s.added) (hretx : s'.retransmitted = s.retransmitted)
    (hleft : ∀ n, s'.acked.count n + s'.lost.count n =
      s.acked.count n + s.lost.count n + if number e == n then 1 else 0)
    (hlast : ∀ n ∈ s'.lost, s.retransmitted.count n = limit) : Books limit es s' where
  probes := by
    rw [hprobes, h.probes, probes_cons]
    exact Int.add_sub_cancel _ _
  accounts n := by
    have hn := h.accounts n
    have hleft := hleft n
    rw [List.map_cons, List.count_cons] at hn
    rw [hadded]
    omega
  counts x hx := hretx ▸ h.counts x (List.mem_cons_of_mem _ hx)
  known n hn := hadded ▸ h.known n (hretx ▸ hn)
  limited n := hretx ▸ h.limited n
  last n hn := hretx ▸ hlast n hn

theorem ack (h : Books limit (e :: es) s) :
    Books limit es { s with
      probeInflight := s.probeInflight - if e.probe then 1 else 0
      acked := number e :: s.acked } := by
  refine h.leave rfl rfl rfl (fun n => ?_) h.last
  rw [List.count_cons]
  exact Nat.add_right_comm _ _ _

theorem giveUp (h : Books limit (e :: es) s) (hlimit : e.maxRetransmits = limit) (hex : e.Exhausted) :
    Books limit es { s with
      probeInflight := s.probeInflight - if e.probe then 1 else 0
      lost := number e :: s.lost } := by
  refine h.leave rfl rfl rfl (fun n => ?_) fun n hn => ?_
  · rw [List.count_cons]
    exact (Nat.add_assoc _ _ _).symm
  · cases hn with
    | head =>
      have hcount := h.counts e (List.mem_cons_self ..)
      have hle := h.limited (number e)
      unfold ReliableEntry.Exhausted at hex
      omega
    | tail _ hn => exact h.last n hn

theorem replace (h : Books limit (e :: es) s) (hnumber : number e' = number e) (hprobe : e'.probe = e.probe)
    (hcount : e'.retransmitCount = e.retransmitCount) : Books limit (e' :: es) s where
  probes := by rw [h.probes, probes_cons, probes_cons, hprobe]
  accounts n := by
    rw [List.map_cons, hnumber, ← List.map_cons]
    exact h.accounts n
  counts x hx := by
    cases hx with
    | head => exact hnumber ▸ hcount ▸ h.counts e (List.mem_cons_self ..)
    | tail _ hx => exact h.counts x (List.mem_cons_of_mem _ hx)
  known := h.known
  limited := h.limited
  last := h.last

theorem resend (h : Books limit (e :: es) s) (hlimit : e.maxRetransmits = limit) (hex : ¬ e.Exhausted)
    (hnumber : number e' = number e) (hprobe : e'.probe = e.probe)
    (hcount : e'.retransmitCount = e.retransmitCount + 1) :
    Books limit (e' :: es) { s with retransmitted := number e :: s.retransmitted } where
  probes := by rw [h.probes, probes_cons, probes_cons, hprobe]
  accounts n := by
    rw [List.map_cons, hnumber, ← List.map_cons]
    exact h.accounts n
  counts x hx := by
    have hself := h.counts e (List.mem_cons_self ..)
    cases hx with
    | head => rw [hnumber, List.count_cons_self, hself, hcount]
    | tail _ hx =>
      rw [List.count_cons_of_ne (Ne.symm (h.others hx))]
      exact h.counts x (List.mem_cons_of_mem _ hx)
  known n hn := by
    cases hn with
    | head =>
      have hacc := h.accounts (number e)
      rw [List.map_cons, List.count_cons_self] at hacc
      by_contra hle
      rw [if_neg hle] at hacc
      omega
    | tail _ hn => exact h.known n hn
  limited n := by
    rw [List.count_cons]
    split
    · next heq =>
      obtain rfl := eq_of_beq heq
      have hself := h.counts e (List.mem_cons_self ..)
      unfold ReliableEntry.Exhausted at hex
      omega
    · exact h.limited n
  last n hn := by
    have hacc := h.accounts (number e)
    have hne : number e ≠ n := by
      rintro rfl
      have hpos := List.count_pos_iff.mpr hn
      rw [List.map_cons, List.count_cons_self] at hacc
      dsimp only at hpos
      split at hacc <;> omega
    rw [List.count_cons_of_ne hne]
    exact h.last n hn

end Books

namespace Pending

structure Inv (span limit : ℕ) (s : Pending α) : Prop where
  scheduled : s.rel.Scheduled span limit s.clock
  books : Books limit s.rel.table.elements s

def timed (s : Pending α) (now : ℕ) (w : Sending (ℕ × α)) : Pending α :=
  { s.during now w with retransmitted := w.deferred.map number ++ s.retransmitted }

variable {s : Pending α} {w w' : Sending (ℕ × α)}

theorem probes_append (es : List (ReliableEntry (ℕ × α))) (e : ReliableEntry (ℕ × α)) :
    (probes (es ++ [e]) : ℤ) = probes es + if e.probe then 1 else 0 := by
  rw [probes, probes, List.countP_append, List.countP_singleton]
  split <;> simp

theorem numbers_append (es : List (ReliableEntry (ℕ × α))) (e : ReliableEntry (ℕ × α)) (ns : List ℕ) :
    ((es ++ [e]).map number ++ ns).Perm (number e :: (es.map number ++ ns)) := by
  rw [List.map_append, List.append_assoc]
  exact List.perm_middle

theorem Round.books (h : Round now w w') (hs : w.state.Scheduled span limit now)
    (hb : Books limit w.state.table.elements (s.timed now w)) :
    Books limit w'.state.table.elements (s.timed now w') := by
  have same (heap : RetxHeap) : Books limit w.state.table.elements
      (s.timed now { w with state := { w.state with heap := heap } }) :=
    hb.congr (.refl _) rfl rfl (.refl _) (.refl _) (.refl _)
  cases h with
  | stale => exact same _
  | later => exact same _
  | giveUp top e hfound _ hex =>
    have hu := hs.uniform e ⟨_, ProbeTable.get_eq_some hfound.get⟩
    refine ((hb.perm (ProbeTable.perm_elements_take hfound.get)).giveUp hu.2.1 hex).congr
      (.refl _) ?_ rfl (.refl _) (.refl _) (numbers_append _ _ _)
    change s.probeInflight - (probes (w.lost ++ [e]) : ℤ) = s.probeInflight - probes w.lost - _
    rw [probes_append, Int.sub_sub]
  | resend top e hfound _ hex _ =>
    have hu := hs.uniform e ⟨_, ProbeTable.get_eq_some hfound.get⟩
    have hsent : Books limit ({ e with sendTime := now, retransmitCount := e.retransmitCount + 1 } :: _) _ :=
      (hb.perm (ProbeTable.perm_elements_take hfound.get)).resend hu.2.1 hex rfl rfl rfl
    exact hsent.congr (ProbeTable.perm_elements_put hfound.get _).symm rfl rfl (numbers_append _ _ _)
      (.refl _) (.refl _)

theorem Halt.books (h : Halt now w w') (hb : Books limit w.state.table.elements (s.timed now w)) :
    Books limit w'.state.table.elements (s.timed now w') := by
  cases h with
  | idle _ => exact hb
  | full top e _ _ => exact hb.congr (.refl _) rfl rfl (.refl _) (.refl _) (.refl _)

theorem Rounds.inv (h : Rounds now w w') (hs : w.state.Scheduled span limit now)
    (hb : Books limit w.state.table.elements (s.timed now w)) :
    w'.state.Scheduled span limit now ∧ Books limit w'.state.table.elements (s.timed now w') := by
  induction h with
  | refl => exact ⟨hs, hb⟩
  | tail _ hround ih => exact ⟨hround.scheduled ih.1, Round.books hround ih.1 ih.2⟩

theorem Inv.timer (h : s.Inv span limit) (hpos : 0 < span) (hnow : s.clock ≤ now) :
    (s.timer now).Inv span limit := by
  have hs := h.scheduled.mono hnow
  have hb : Books limit s.rel.table.elements (s.timed now ⟨s.rel, [], []⟩) :=
    h.books.congr (.refl _) (Int.sub_zero _) rfl (.refl _) (.refl _) (.refl _)
  obtain ⟨w', hrounds, hhalt⟩ := retransmitLoop_halts (w := ⟨s.rel, [], []⟩) hpos hs (Array.countP_le_size)
  obtain ⟨hs', hb'⟩ := Rounds.inv hrounds hs hb
  exact ⟨hhalt.scheduled hs', Halt.books hhalt hb'⟩

theorem Inv.sack (h : s.Inv span limit) (hnow : s.clock ≤ now) (channel : BitVec 8)
    (cumulative bitmap : BitVec 32) :
    (s.during now (workerHandleSack s.rel now channel cumulative bitmap)).Inv span limit := by
  have hall : ∀ (is : List ℕ) (w : Sending (ℕ × α)), (s.during now w).Inv span limit →
      (s.during now (is.foldl (sackBit now channel cumulative bitmap) w)).Inv span limit := by
    intro is
    induction is with
    | nil => exact fun _ hw => hw
    | cons i is ih =>
      intro w hw
      apply ih _
      cases sackBit_cases now channel cumulative bitmap w i with
      | inl hsame => rwa [hsame]
      | inr hsent =>
        obtain ⟨idx, e, hget, hsent⟩ := hsent
        rw [hsent]
        refine ⟨hw.scheduled.touch hget, ?_⟩
        refine Books.congr (s := s.during now w) ?_ (ProbeTable.perm_elements_put hget _).symm rfl rfl
          (.refl _) (.refl _) (.refl _)
        exact (hw.books.perm (ProbeTable.perm_elements_take hget)).replace rfl rfl rfl
  refine hall _ _ ⟨h.scheduled.mono hnow, ?_⟩
  exact h.books.congr (.refl _) (Int.sub_zero _) rfl (.refl _) (.refl _) (.refl _)

theorem Inv.add (h : s.Inv span limit) (hnow : s.clock ≤ now) (channel : BitVec 8) (probe : Bool)
    (seq : BitVec 32) (payload : α) : (s.add now channel probe seq payload).Inv span limit := by
  have hs := h.scheduled.mono hnow
  have hnew : ∃ e, s.rel.newEntry now channel probe seq (s.added, payload) = e ∧ number e = s.added ∧
      e.probe = probe ∧ e.retransmitCount = 0 ∧ e.timeout = span ∧ e.maxRetransmits = limit ∧ e.sendTime ≤ now :=
    ⟨_, rfl, rfl, rfl, rfl, hs.timeout, hs.maxRetransmits, Nat.le_refl _⟩
  obtain ⟨e, he, hnumber, rfl, hcount, htimeout, hlimit, hsent⟩ := hnew
  have haccepts : accepts s.rel e = true := by
    unfold accepts
    cases workerReliableAdd_cases hs.room e with
    | inl hadd => simp [hadd]
    | inr hadd => simp [hadd]
  obtain ⟨hs', hperm⟩ := hs.add htimeout hlimit hsent
  unfold Pending.add
  rw [he]
  refine ⟨hs', (h.books.add hnumber hcount).congr hperm.symm ?_ rfl (.refl _) (.refl _) (.refl _)⟩
  simp only [haccepts, true_and]
  split <;> simp

theorem Inv.ack (h : s.Inv span limit) (hnow : s.clock ≤ now) (seq : BitVec 32) (channel : BitVec 8)
    (probe : Bool) : (s.ack now seq channel probe).Inv span limit := by
  have hs := h.scheduled.mono hnow
  unfold Pending.ack workerReliableAck
  cases hfind : workerReliableFind s.rel channel probe seq with
  | none =>
    refine ⟨hs, h.books.congr (.refl _) ?_ rfl (.refl _) (.refl _) (.refl _)⟩
    simp
  | some idx =>
    obtain ⟨e, hget, hslot, rfl⟩ := workerReliableFind_get hfind
    refine ⟨hs.clear idx, (h.books.perm (ProbeTable.perm_elements_take hget)).ack.congr (.refl _) ?_ rfl
      (.refl _) ?_ (.refl _)⟩
    · simp only [Option.bind_some, hslot, Option.isSome_some, true_and]
      split <;> simp
    · simp [hslot]

theorem Inv.resize (h : s.Inv span limit) :
    ({ s with rel := workerReliableResize s.rel } : Pending α).Inv span limit :=
  ⟨h.scheduled.resize, h.books.congr (resize_perm _).symm rfl rfl (.refl _) (.refl _) (.refl _)⟩

theorem inv_fresh (cfgTimeout cfgRetransmits : ℕ) :
    (fresh cfgTimeout cfgRetransmits : Pending α).Inv (reliableTimeoutUs cfgTimeout)
      (maxRetransmits cfgRetransmits) where
  scheduled :=
    { room := (by decide : 0 < reliableInitSlots)
      timeout := rfl
      maxRetransmits := rfl
      uniform := fun _ he => absurd he (ProbeTable.not_mem_empty _)
      ordered := HeapOrder.isHeap_zero _
      indexed := fun idx e hget => by
        obtain ⟨_, hslot⟩ := ProbeTable.get_eq_some hget
        exact absurd hslot (by simp [fresh, Reliable.fresh, ProbeTable.empty]) }
  books := by
    have hnone : (fresh cfgTimeout cfgRetransmits : Pending α).rel.table.elements = [] :=
      ProbeTable.elements_empty _
    rw [hnone]
    refine ⟨rfl, fun n => ?_, fun e he => absurd he List.not_mem_nil, fun n hn => absurd hn List.not_mem_nil,
      fun n => Nat.zero_le _, fun n hn => absurd hn List.not_mem_nil⟩
    simp [fresh]

theorem reachable_inv {cfgTimeout cfgRetransmits : ℕ}
    (h : (pendingSystem cfgTimeout cfgRetransmits).Reachable s) :
    s.Inv (reliableTimeoutUs cfgTimeout) (maxRetransmits cfgRetransmits) := by
  have hpos := reliableTimeoutUs_pos cfgTimeout
  induction h with
  | init h =>
    obtain rfl := h
    exact inv_fresh _ _
  | @step s event t _ hstep ih =>
    obtain ⟨hen, rfl⟩ := hstep
    cases event with
    | add now channel probe seq payload => exact ih.add hen channel probe seq payload
    | ack now seq channel probe => exact ih.ack hen seq channel probe
    | sack now channel cumulative bitmap => exact ih.sack hen channel cumulative bitmap
    | timer now => exact ih.timer hpos hen
    | resize => exact ih.resize

end Pending

end YumiBrowser.Udp
