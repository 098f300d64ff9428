import Mathlib.Logic.Relation
import YumiBrowser.Network.RetransmitSchedule

universe u

namespace YumiBrowser.Udp

variable {α : Type u}

structure Found (now : ℕ) (w : Sending α) (top : RetxEntry) (e : ReliableEntry α) : Prop where
  root : w.state.heap[0]? = some top
  expired : top.expiry ≤ now
  get : w.state.table.get top.tableIdx = some e
  seq : e.seq = top.seq
  probe : e.probe = top.probe

inductive Round (now : ℕ) (w : Sending α) : Sending α → Prop
  | stale (top : RetxEntry) : w.state.heap[0]? = some top → top.expiry ≤ now →
      (∀ e, ¬ Found now w top e) → Round now w w.popTop
  | later (top : RetxEntry) (e : ReliableEntry α) : Found now w top e → now < e.sendTime + e.timeout →
      Round now w (w.popTop.push { top with expiry := e.sendTime + e.timeout })
  | giveUp (top : RetxEntry) (e : ReliableEntry α) : Found now w top e → e.sendTime + e.timeout ≤ now →
      e.Exhausted → Round now w (w.popTop.giveUp top.tableIdx e)
  | resend (top : RetxEntry) (e : ReliableEntry α) : Found now w top e → e.sendTime + e.timeout ≤ now →
      ¬ e.Exhausted → w.deferred.length < deferredSendMax →
      Round now w ((w.popTop.resend top.tableIdx e
        { e with sendTime := now, retransmitCount := e.retransmitCount + 1 }).push
          { top with expiry := now + e.timeout })

inductive Halt (now : ℕ) (w : Sending α) : Sending α → Prop
  | idle : (∀ top, w.state.heap[0]? = some top → now < top.expiry) → Halt now w w
  | full (top : RetxEntry) (e : ReliableEntry α) : Found now w top e →
      deferredSendMax ≤ w.deferred.length → Halt now w (w.popTop.push top)

theorem retransmitLoop_cases (now : ℕ) (w : Sending α) :
    (∃ w', Halt now w w' ∧ ∀ rounds, retransmitLoop now (rounds + 1) w = w') ∨
    ∃ w', Round now w w' ∧ ∀ rounds, retransmitLoop now (rounds + 1) w = retransmitLoop now rounds w' := by
  simp only [retransmitLoop]
  cases htop : w.state.heap[0]? with
  | none => exact Or.inl ⟨w, .idle fun top h => by simp [htop] at h, fun _ => rfl⟩
  | some top =>
    simp only
    split
    · next hlt =>
      refine Or.inl ⟨w, .idle fun top' h => ?_, fun _ => rfl⟩
      rw [htop] at h
      exact Option.some.inj h ▸ hlt
    · next hexpired =>
      have hle := Nat.le_of_not_lt hexpired
      cases hget : w.state.table.get top.tableIdx with
      | none =>
        refine Or.inr ⟨_, .stale top htop hle fun e hfound => ?_, fun _ => rfl⟩
        have := hfound.get
        simp [hget] at this
      | some e =>
        simp only
        split
        · next hother =>
          refine Or.inr ⟨_, .stale top htop hle fun e' hfound => ?_, fun _ => rfl⟩
          obtain rfl : e = e' := Option.some.inj (hget.symm.trans hfound.get)
          cases hother with
          | inl hseq => exact hseq hfound.seq
          | inr hprobe => exact hprobe hfound.probe
        · next hsame =>
          rw [not_or, not_not, not_not] at hsame
          have hfound : Found now w top e := ⟨htop, hle, hget, hsame.1, hsame.2⟩
          split
          · next hlater => exact Or.inr ⟨_, .later top e hfound hlater, fun _ => rfl⟩
          · next hdue =>
            have hdue := Nat.le_of_not_lt hdue
            split
            · next hex => exact Or.inr ⟨_, .giveUp top e hfound hdue hex, fun _ => rfl⟩
            · next hex =>
              split
              · next hfull => exact Or.inl ⟨_, .full top e hfound hfull, fun _ => rfl⟩
              · next hroom =>
                exact Or.inr ⟨_, .resend top e hfound hdue hex (Nat.lt_of_not_le hroom), fun _ => rfl⟩

section Rounds

variable {span limit now time rounds : ℕ} {w w' w'' : Sending α}

theorem Round.scheduled (h : Round now w w') (hs : w.state.Scheduled span limit now) :
    w'.state.Scheduled span limit now := by
  have hpop : w.popTop.state.heap.Ordered := RetxHeap.ordered_removeTop hs.ordered
  -- a node that was popped is missed only by the packet it is for
  have hothers : ∀ top, w.state.heap[0]? = some top → ∀ idx e, w.state.table.get idx = some e →
      (∃ node ∈ w.popTop.state.heap, node.Tracks idx e) ∨ top.Tracks idx e := by
    intro top htop idx e hget
    obtain ⟨node, hnode, htracks⟩ := hs.indexed idx e hget
    cases (RetxHeap.mem_removeTop htop).mp hnode with
    | inl hnode => exact Or.inl ⟨node, hnode, htracks⟩
    | inr heq => exact Or.inr (heq ▸ htracks)
  cases h with
  | stale top htop hexpired hnone =>
    refine hs.heap hpop fun idx e hget => ?_
    refine (hothers top htop idx e hget).resolve_right fun htracks => ?_
    exact hnone e ⟨htop, hexpired, htracks.tableIdx ▸ hget, htracks.seq.symm, htracks.probe.symm⟩
  | later top e hfound hlater =>
    refine hs.heap (RetxHeap.ordered_insert hpop _) fun idx e' hget => ?_
    cases hothers top hfound.root idx e' hget with
    | inl hnode =>
      obtain ⟨node, hnode, htracks⟩ := hnode
      exact ⟨node, RetxHeap.mem_insert.mpr (Or.inl hnode), htracks⟩
    | inr htracks =>
      have hget' := hfound.get
      rw [htracks.tableIdx, hget] at hget'
      obtain rfl := Option.some.inj hget'
      exact ⟨_, RetxHeap.mem_insert.mpr (Or.inr rfl), ⟨htracks.tableIdx, htracks.seq, htracks.probe, Nat.le_refl _⟩⟩
  | giveUp top e hfound hdue hex =>
    refine ((hs.clear top.tableIdx).heap hpop fun idx e' hget => ?_)
    have hne : idx ≠ top.tableIdx := by
      rintro rfl
      rw [ProbeTable.get_set_self] at hget
      simp at hget
    rw [ProbeTable.get_set_of_ne _ hne] at hget
    exact (hothers top hfound.root idx e' hget).resolve_right fun htracks => hne htracks.tableIdx.symm
  | resend top e hfound hdue hex hroom =>
    obtain ⟨hidx, hslot⟩ := ProbeTable.get_eq_some hfound.get
    refine ⟨hs.room, hs.timeout, hs.maxRetransmits, fun x hx => ?_, RetxHeap.ordered_insert hpop _, ?_⟩
    · cases (ProbeTable.mem_set_replace hidx hslot _).1 hx with
      | inl hx => exact hs.uniform x hx
      | inr heq =>
        have hu := hs.uniform e ⟨_, hidx, hslot⟩
        exact heq ▸ ⟨hu.1, hu.2.1, Nat.le_refl _⟩
    · intro idx e' hget
      by_cases hi : idx = top.tableIdx
      · subst hi
        change (w.state.table.set _ _).get _ = _ at hget
        rw [ProbeTable.get_set_self, if_pos hidx] at hget
        obtain rfl := Option.some.inj hget
        exact ⟨_, RetxHeap.mem_insert.mpr (Or.inr rfl), ⟨rfl, hfound.seq.symm, hfound.probe.symm, Nat.le_refl _⟩⟩
      · change (w.state.table.set _ _).get _ = _ at hget
        rw [ProbeTable.get_set_of_ne _ hi] at hget
        obtain ⟨node, hnode, htracks⟩ :=
          (hothers top hfound.root idx e' hget).resolve_right fun htracks => hi htracks.tableIdx.symm
        exact ⟨node, RetxHeap.mem_insert.mpr (Or.inl hnode), htracks⟩

theorem Round.dueBy (h : Round now w w') (hpos : 0 < span) (hs : w.state.Scheduled span limit now) :
    ∃ top, w.state.heap[0]? = some top ∧ top.expiry ≤ now ∧ ∀ time ≤ now,
      w.state.heap.dueBy time = w'.state.heap.dueBy time + if top.expiry ≤ time then 1 else 0 := by
  cases h with
  | stale top htop hexpired _ => exact ⟨top, htop, hexpired, fun time _ => RetxHeap.dueBy_removeTop htop time⟩
  | later top e hfound hlater =>
    refine ⟨top, hfound.root, hfound.expired, fun time hle => ?_⟩
    have hpush : (w.popTop.push { top with expiry := e.sendTime + e.timeout }).state.heap.dueBy time =
        w.state.heap.removeTop.dueBy time := by
      apply (RetxHeap.dueBy_insert time).trans
      rw [if_neg (by simpa using hle.trans_lt hlater)]
      rfl
    rw [hpush]
    exact RetxHeap.dueBy_removeTop hfound.root time
  | giveUp top e hfound _ _ =>
    exact ⟨top, hfound.root, hfound.expired, fun time _ => RetxHeap.dueBy_removeTop hfound.root time⟩
  | resend top e hfound hdue hex hroom =>
    refine ⟨top, hfound.root, hfound.expired, fun time hle => ?_⟩
    have htimeout := (hs.uniform e ⟨_, ProbeTable.get_eq_some hfound.get⟩).1
    have hnext : time < now + e.timeout := by omega
    rw [RetxHeap.dueBy_removeTop hfound.root time]
    congr 1
    refine (Eq.trans (RetxHeap.dueBy_insert time) ?_).symm
    rw [if_neg (by simpa using hnext)]
    rfl

theorem Halt.scheduled (h : Halt now w w') (hs : w.state.Scheduled span limit now) :
    w'.state.Scheduled span limit now := by
  cases h with
  | idle _ => exact hs
  | full top e hfound _ =>
    refine hs.heap (RetxHeap.ordered_insert (RetxHeap.ordered_removeTop hs.ordered) _) fun idx e' hget => ?_
    obtain ⟨node, hnode, htracks⟩ := hs.indexed idx e' hget
    exact ⟨node, RetxHeap.mem_insert.mpr ((RetxHeap.mem_removeTop hfound.root).mp hnode), htracks⟩

theorem Halt.dueBy (h : Halt now w w') (time : ℕ) : w'.state.heap.dueBy time = w.state.heap.dueBy time := by
  cases h with
  | idle _ => rfl
  | full top e hfound _ =>
    rw [RetxHeap.dueBy_removeTop hfound.root time]
    exact RetxHeap.dueBy_insert time

def Rounds (now : ℕ) : Sending α → Sending α → Prop := Relation.ReflTransGen (Round now)

theorem retransmitLoop_halts (hpos : 0 < span) (hs : w.state.Scheduled span limit now)
    (hrounds : w.state.heap.dueBy now ≤ rounds) :
    ∃ w', Rounds now w w' ∧ Halt now w' (retransmitLoop now rounds w) := by
  induction rounds generalizing w with
  | zero =>
    refine ⟨w, .refl, .idle fun top htop => ?_⟩
    have hroot := RetxHeap.dueBy_removeTop htop now
    by_contra hle
    rw [if_pos (Nat.le_of_not_lt hle)] at hroot
    omega
  | succ rounds ih =>
    rcases retransmitLoop_cases now w with ⟨w', hhalt, hloop⟩ | ⟨w', hround, hloop⟩
    · exact ⟨w, .refl, (hloop rounds).symm ▸ hhalt⟩
    · obtain ⟨top, _, hexpired, hdue⟩ := hround.dueBy hpos hs
      have hless := hdue now (Nat.le_refl _)
      rw [if_pos hexpired] at hless
      obtain ⟨w'', hrest, hhalt⟩ := ih (hround.scheduled hs) (by omega)
      exact ⟨w'', .head hround hrest, (hloop rounds).symm ▸ hhalt⟩

theorem retransmitLoop_more (hpos : 0 < span) (hs : w.state.Scheduled span limit now)
    (hrounds : w.state.heap.dueBy now ≤ rounds) :
    retransmitLoop now (rounds + 1) w = retransmitLoop now rounds w := by
  induction rounds generalizing w with
  | zero =>
    rcases retransmitLoop_cases now w with ⟨w', hhalt, hloop⟩ | ⟨w', hround, _⟩
    · cases hhalt with
      | idle _ => exact hloop 0
      | full top e hfound _ =>
        have hroot := RetxHeap.dueBy_removeTop hfound.root now
        rw [if_pos hfound.expired] at hroot
        omega
    · obtain ⟨top, _, hexpired, hdue⟩ := hround.dueBy hpos hs
      have hless := hdue now (Nat.le_refl _)
      rw [if_pos hexpired] at hless
      omega
  | succ rounds ih =>
    rcases retransmitLoop_cases now w with ⟨w', hhalt, hloop⟩ | ⟨w', hround, hloop⟩
    · exact (hloop _).trans (hloop _).symm
    · obtain ⟨top, _, hexpired, hdue⟩ := hround.dueBy hpos hs
      have hless := hdue now (Nat.le_refl _)
      rw [if_pos hexpired] at hless
      rw [hloop, hloop]
      exact ih (hround.scheduled hs) (by omega)

theorem retransmitLoop_terminates (hpos : 0 < span) (hs : w.state.Scheduled span limit now)
    (hrounds : w.state.heap.size ≤ rounds) :
    retransmitLoop now rounds w = retransmitLoop now w.state.heap.size w := by
  have hle : w.state.heap.dueBy now ≤ w.state.heap.size := Array.countP_le_size
  induction rounds, hrounds using Nat.le_induction with
  | base => rfl
  | succ rounds hsize ih => exact (retransmitLoop_more hpos hs (hle.trans hsize)).trans ih

end Rounds

theorem sackBit_cases (now : ℕ) (channel : BitVec 8) (cumulative bitmap : BitVec 32) (w : Sending α) (i : ℕ) :
    sackBit now channel cumulative bitmap w i = w ∨ ∃ idx e, w.state.table.get idx = some e ∧
      sackBit now channel cumulative bitmap w i = w.resend idx e { e with sendTime := now } := by
  unfold sackBit
  split
  · exact Or.inl rfl
  · split
    · exact Or.inl rfl
    · split
      · exact Or.inl rfl
      · next idx _ _ e he =>
        split
        · exact Or.inl rfl
        · split
          · exact Or.inl rfl
          · exact Or.inr ⟨idx, e, he, rfl⟩

end YumiBrowser.Udp
