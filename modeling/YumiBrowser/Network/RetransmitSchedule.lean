import YumiBrowser.Network.Retransmit

universe u

namespace YumiBrowser.Udp

variable {α : Type u}

/-- The node is for the packet of the slot, and comes up no later than the packet is due. -/
structure RetxEntry.Tracks (node : RetxEntry) (idx : ℕ) (e : ReliableEntry α) : Prop where
  tableIdx : node.tableIdx = idx
  seq : node.seq = e.seq
  probe : node.probe = e.probe
  expiry : node.expiry ≤ e.sendTime + e.timeout

theorem retxOf_tracks (e : ReliableEntry α) (idx : ℕ) : (retxOf e (e.sendTime + e.timeout) idx).Tracks idx e :=
  ⟨rfl, rfl, rfl, Nat.le_refl _⟩

def ReliableEntry.dueBy (time : ℕ) (e : ReliableEntry α) : Bool := e.sendTime + e.timeout ≤ time

structure Reliable.Scheduled (span limit now : ℕ) (s : Reliable α) : Prop where
  room : 0 < s.table.capacity
  timeout : s.timeout = span
  maxRetransmits : s.maxRetransmits = limit
  uniform : ∀ e ∈ s.table, e.timeout = span ∧ e.maxRetransmits = limit ∧ e.sendTime ≤ now
  ordered : s.heap.Ordered
  indexed : ∀ idx e, s.table.get idx = some e → ∃ node ∈ s.heap, node.Tracks idx e

namespace Reliable.Scheduled

variable {span limit now : ℕ} {s : Reliable α}

theorem mono (h : s.Scheduled span limit now) {now' : ℕ} (hle : now ≤ now') :
    s.Scheduled span limit now' where
  room := h.room
  timeout := h.timeout
  maxRetransmits := h.maxRetransmits
  uniform e he :=
    have hu := h.uniform e he
    ⟨hu.1, hu.2.1, hu.2.2.trans hle⟩
  ordered := h.ordered
  indexed := h.indexed

theorem heap (h : s.Scheduled span limit now) {nodes : RetxHeap} (hordered : nodes.Ordered)
    (hindexed : ∀ idx e, s.table.get idx = some e → ∃ node ∈ nodes, node.Tracks idx e) :
    ({ s with heap := nodes } : Reliable α).Scheduled span limit now where
  room := h.room
  timeout := h.timeout
  maxRetransmits := h.maxRetransmits
  uniform := h.uniform
  ordered := hordered
  indexed := hindexed

theorem clear (h : s.Scheduled span limit now) (idx : ℕ) :
    ({ s with table := s.table.set idx none } : Reliable α).Scheduled span limit now where
  room := h.room
  timeout := h.timeout
  maxRetransmits := h.maxRetransmits
  uniform e he := by
    apply h.uniform e
    exact (ProbeTable.mem_or_eq_of_mem_set he).resolve_right (by simp)
  ordered := h.ordered
  indexed i e hget := by
    have hne : i ≠ idx := by
      rintro rfl
      rw [ProbeTable.get_set_self] at hget
      simp at hget
    rw [ProbeTable.get_set_of_ne _ hne] at hget
    exact h.indexed i e hget

end Reliable.Scheduled

section Updates

variable {span limit now : ℕ} {s s' : Reliable α} {e : ReliableEntry α}

theorem rebuildHeap_fold (t : ProbeTable (ReliableEntry α)) (idxs : List ℕ) (h : RetxHeap) (hh : h.Ordered) :
    let h' := idxs.foldl (fun h idx => match t.slot idx with
      | some e => h.insert (retxOf e (e.sendTime + e.timeout) idx)
      | none => h) h
    h'.Ordered ∧ (∀ node ∈ h, node ∈ h') ∧
      (∀ idx ∈ idxs, ∀ e, t.slot idx = some e → ∃ node ∈ h', node.Tracks idx e) ∧
      ∀ time, h'.dueBy time = h.dueBy time + (idxs.filterMap t.slot).countP (ReliableEntry.dueBy time) := by
  induction idxs generalizing h with
  | nil => exact ⟨hh, fun _ hnode => hnode, fun _ hidx => absurd hidx List.not_mem_nil, fun _ => rfl⟩
  | cons i idxs ih =>
    cases hslot : t.slot i with
    | none =>
      obtain ⟨hordered, hkept, htracked, hdue⟩ := ih h hh
      simp only [List.foldl_cons, hslot]
      refine ⟨hordered, hkept, fun idx hidx e he => ?_, fun time => ?_⟩
      · cases hidx with
        | head => simp [hslot] at he
        | tail _ hidx => exact htracked idx hidx e he
      · rw [hdue, List.filterMap_cons_none hslot]
    | some x =>
      obtain ⟨hordered, hkept, htracked, hdue⟩ :=
        ih _ (RetxHeap.ordered_insert hh (retxOf x (x.sendTime + x.timeout) i))
      simp only [List.foldl_cons, hslot]
      refine ⟨hordered, fun node hnode => hkept node (RetxHeap.mem_insert.mpr (Or.inl hnode)),
        fun idx hidx e he => ?_, fun time => ?_⟩
      · cases hidx with
        | head =>
          rw [hslot] at he
          obtain rfl := Option.some.inj he
          exact ⟨_, hkept _ (RetxHeap.mem_insert.mpr (Or.inr rfl)), retxOf_tracks x i⟩
        | tail _ hidx => exact htracked idx hidx e he
      · have hnode : (if (retxOf x (x.sendTime + x.timeout) i).expiry ≤ time then 1 else 0) =
            if ReliableEntry.dueBy time x then 1 else 0 := by
          simp only [retxOf, ReliableEntry.dueBy, decide_eq_true_eq]
          congr
        rw [hdue, RetxHeap.dueBy_insert, List.filterMap_cons_some hslot, List.countP_cons, hnode]
        omega

theorem Reliable.Scheduled.resize (hs : s.Scheduled span limit now) :
    (workerReliableResize s).Scheduled span limit now := by
  have hle : s.table.capacity ≤ s.table.capacity * 2 := by omega
  have hcap : (workerReliableResize s).table.capacity = s.table.capacity * 2 := ProbeTable.capacity_rehash _
  obtain ⟨hordered, _, htracked, _⟩ := rebuildHeap_fold (workerReliableResize s).table
    (List.range (workerReliableResize s).table.capacity) #[] (HeapOrder.isHeap_zero _)
  have hroom := hs.room
  refine ⟨by omega, hs.timeout, hs.maxRetransmits, fun e he => ?_, hordered, fun idx e hget => ?_⟩
  · exact hs.uniform e ((ProbeTable.mem_rehash hle).mp he)
  · obtain ⟨hidx, hslot⟩ := ProbeTable.get_eq_some hget
    exact htracked idx (List.mem_range.mpr hidx) e hslot

theorem resize_perm (s : Reliable α) : (workerReliableResize s).table.elements.Perm s.table.elements :=
  ProbeTable.perm_rehash (by omega)

theorem Reliable.Scheduled.countP_le_dueBy (hs : s.Scheduled span limit now) (time : ℕ) :
    s.table.elements.countP (ReliableEntry.dueBy time) ≤ s.heap.dueBy time := by
  let due := (List.range s.table.capacity).filter fun idx =>
    ((s.table.slot idx).map (ReliableEntry.dueBy time)).getD false
  let nodes := s.heap.toList.filter fun node => node.expiry ≤ time
  have hsub : due ⊆ nodes.map RetxEntry.tableIdx := by
    intro idx hidx
    obtain ⟨hlt, hdue⟩ := List.mem_filter.mp hidx
    cases hslot : s.table.slot idx with
    | none => simp [hslot] at hdue
    | some e =>
      have hget : s.table.get idx = some e := by rw [ProbeTable.get, if_pos (List.mem_range.mp hlt), hslot]
      obtain ⟨node, hnode, htracks⟩ := hs.indexed idx e hget
      have hle : e.sendTime + e.timeout ≤ time := by simpa [hslot, ReliableEntry.dueBy] using hdue
      refine List.mem_map.mpr ⟨node, ?_, htracks.tableIdx⟩
      exact List.mem_filter.mpr ⟨Array.mem_toList_iff.mpr hnode, by simpa using htracks.expiry.trans hle⟩
  have hnodup : due.Nodup := List.nodup_range.filter _
  calc s.table.elements.countP (ReliableEntry.dueBy time)
    _ = due.length := by rw [ProbeTable.elements, List.countP_filterMap, List.countP_eq_length_filter]
    _ ≤ (nodes.map RetxEntry.tableIdx).length := (List.subperm_of_subset hnodup hsub).length_le
    _ = s.heap.dueBy time := by
      rw [List.length_map, ← List.countP_eq_length_filter, Array.countP_toList, RetxHeap.dueBy]

theorem Reliable.Scheduled.dueBy_resize (hs : s.Scheduled span limit now) (time : ℕ) :
    (workerReliableResize s).heap.dueBy time ≤ s.heap.dueBy time := by
  obtain ⟨_, _, _, hdue⟩ := rebuildHeap_fold (workerReliableResize s).table
    (List.range (workerReliableResize s).table.capacity) #[] (HeapOrder.isHeap_zero _)
  have hempty : RetxHeap.dueBy #[] time = 0 := rfl
  calc (workerReliableResize s).heap.dueBy time
    _ = (workerReliableResize s).table.elements.countP (ReliableEntry.dueBy time) := by
      apply (hdue time).trans
      rw [hempty, Nat.zero_add]
      rfl
    _ = s.table.elements.countP (ReliableEntry.dueBy time) := (resize_perm s).countP_eq _
    _ ≤ s.heap.dueBy time := hs.countP_le_dueBy time

theorem Reliable.Scheduled.tryAdd (hs : s.Scheduled span limit now) (htimeout : e.timeout = span)
    (hlimit : e.maxRetransmits = limit) (hsent : e.sendTime ≤ now) (hadd : s.tryAdd e = some s') :
    s'.Scheduled span limit now ∧ s'.table.elements.Perm (e :: s.table.elements) := by
  obtain ⟨⟨t, i⟩, hins, rfl⟩ := Option.map_eq_some_iff.mp hadd
  refine ⟨⟨?_, hs.timeout, hs.maxRetransmits, fun x hx => ?_, RetxHeap.ordered_insert hs.ordered _, ?_⟩, ?_⟩
  · exact (ProbeTable.capacity_insert hins).symm ▸ hs.room
  · cases (ProbeTable.mem_insert hins).mp hx with
    | inl hx => exact hs.uniform x hx
    | inr heq => exact heq ▸ ⟨htimeout, hlimit, hsent⟩
  · intro idx x hget
    obtain ⟨hi, hfree, rfl⟩ := ProbeTable.insert_slot hins
    by_cases hidx : idx = i
    · subst hidx
      change (s.table.set _ _).get _ = _ at hget
      rw [ProbeTable.get_set_self, if_pos hi] at hget
      obtain rfl := Option.some.inj hget
      exact ⟨_, RetxHeap.mem_insert.mpr (Or.inr rfl), retxOf_tracks e idx⟩
    · change (s.table.set _ _).get _ = _ at hget
      rw [ProbeTable.get_set_of_ne _ hidx] at hget
      obtain ⟨node, hnode, htracks⟩ := hs.indexed idx x hget
      exact ⟨node, RetxHeap.mem_insert.mpr (Or.inl hnode), htracks⟩
  · exact ProbeTable.perm_insert hins

theorem workerReliableAdd_cases (hroom : 0 < s.table.capacity) (e : ReliableEntry α) :
    s.tryAdd e = some (workerReliableAdd s true e) ∨
    (workerReliableResize s).tryAdd e = some (workerReliableAdd s true e) := by
  unfold workerReliableAdd
  cases h : s.tryAdd e with
  | some s' => exact Or.inl rfl
  | none =>
    obtain ⟨s', hs'⟩ := resize_tryAdd hroom e
    exact Or.inr (by simp [hs'])

theorem Reliable.Scheduled.add (hs : s.Scheduled span limit now) (htimeout : e.timeout = span)
    (hlimit : e.maxRetransmits = limit) (hsent : e.sendTime ≤ now) :
    (workerReliableAdd s true e).Scheduled span limit now ∧
      (workerReliableAdd s true e).table.elements.Perm (e :: s.table.elements) := by
  cases workerReliableAdd_cases hs.room e with
  | inl hadd => exact hs.tryAdd htimeout hlimit hsent hadd
  | inr hadd =>
    obtain ⟨hs', hperm⟩ := hs.resize.tryAdd htimeout hlimit hsent hadd
    exact ⟨hs', hperm.trans ((resize_perm s).cons e)⟩

theorem workerReliableFind_get {channel : BitVec 8} {probe : Bool} {seq : BitVec 32} {idx : ℕ}
    (h : workerReliableFind s channel probe seq = some idx) :
    ∃ e, s.table.get idx = some e ∧ s.table.slot idx = some e ∧ e.probe = probe := by
  obtain ⟨e, hidx, hslot, hmatch⟩ := ProbeTable.find_some_mem h rfl
  simp only [Reliable.matching, Bool.and_eq_true, beq_iff_eq] at hmatch
  exact ⟨e, by rw [ProbeTable.get, if_pos hidx, hslot], hslot, hmatch.2⟩

theorem Reliable.Scheduled.touch {idx : ℕ} (hs : s.Scheduled span limit now) (hget : s.table.get idx = some e) :
    ({ s with table := s.table.set idx (some { e with sendTime := now }) } : Reliable α).Scheduled
      span limit now := by
  obtain ⟨hidx, hslot⟩ := ProbeTable.get_eq_some hget
  have hu := hs.uniform e ⟨_, hidx, hslot⟩
  refine ⟨hs.room, hs.timeout, hs.maxRetransmits, fun x hx => ?_, hs.ordered, fun i x hx => ?_⟩
  · cases (ProbeTable.mem_set_replace hidx hslot _).1 hx with
    | inl hx => exact hs.uniform x hx
    | inr heq => exact heq ▸ ⟨hu.1, hu.2.1, Nat.le_refl _⟩
  · by_cases hi : i = idx
    · subst hi
      rw [ProbeTable.get_set_self, if_pos hidx] at hx
      obtain rfl := Option.some.inj hx
      obtain ⟨node, hnode, htracks⟩ := hs.indexed i e hget
      exact ⟨node, hnode, htracks.tableIdx, htracks.seq, htracks.probe,
        htracks.expiry.trans (Nat.add_le_add_right hu.2.2 _)⟩
    · rw [ProbeTable.get_set_of_ne _ hi] at hx
      exact hs.indexed i x hx

end Updates

end YumiBrowser.Udp
