import YumiBrowser.Library.ProbeTable
import YumiBrowser.Network.ReliableReceive

universe u

namespace YumiBrowser.Udp

structure ReliableEntry (α : Type u) where
  seq : BitVec 32
  channel : BitVec 8
  probe : Bool
  sendTime : ℕ
  timeout : ℕ
  retransmitCount : ℕ
  maxRetransmits : ℕ
  payload : α
  deriving DecidableEq

structure RetxEntry where
  expiry : ℕ
  tableIdx : ℕ
  seq : BitVec 32
  probe : Bool
  channel : BitVec 8
  deriving DecidableEq

abbrev RetxHeap := Array RetxEntry

namespace RetxHeap

def expiryAt (h : RetxHeap) (i : ℕ) : ℕ := (h[i]?.map RetxEntry.expiry).getD 0

def siftUp : ℕ → RetxHeap → ℕ → RetxHeap
  | 0, h, _ => h
  | depth + 1, h, i =>
    if i = 0 then h
    else if h.expiryAt ((i - 1) / 2) ≤ h.expiryAt i then h
    else siftUp depth (h.swapIfInBounds ((i - 1) / 2) i) ((i - 1) / 2)

def smallerOf (h : RetxHeap) (child smallest : ℕ) : ℕ :=
  if child < h.size ∧ h.expiryAt child < h.expiryAt smallest then child else smallest

def siftDown : ℕ → RetxHeap → ℕ → RetxHeap
  | 0, h, _ => h
  | depth + 1, h, i =>
    let smallest := h.smallerOf (2 * i + 2) (h.smallerOf (2 * i + 1) i)
    if smallest = i then h else siftDown depth (h.swapIfInBounds smallest i) smallest

def insert (h : RetxHeap) (e : RetxEntry) : RetxHeap := siftUp (h.size + 1) (h.push e) h.size

def removeTop (h : RetxHeap) : RetxHeap :=
  match h.back? with
  | none => h
  | some last => siftDown h.size (h.pop.setIfInBounds 0 last) 0

end RetxHeap

structure Reliable (α : Type u) where
  table : ProbeTable (ReliableEntry α)
  heap : RetxHeap
  timeout : ℕ
  maxRetransmits : ℕ

def reliableInitSlots : ℕ := 4096

def Reliable.fresh (timeout maxRetransmits : ℕ) : Reliable α where
  table := .empty reliableInitSlots
  heap := #[]
  timeout := timeout
  maxRetransmits := maxRetransmits

-- The capacity is a power of two, so masking with `capacity - 1` is the remainder.
def reliableHash (channel : BitVec 8) (probe : Bool) (seq : BitVec 32) (capacity : ℕ) : ℕ :=
  (seq + channel.setWidth 32 * 37 + if probe then 131 else 0).toNat % capacity

def entryHash (e : ReliableEntry α) (capacity : ℕ) : ℕ :=
  reliableHash e.channel e.probe e.seq capacity

def retxOf (e : ReliableEntry α) (expiry idx : ℕ) : RetxEntry where
  expiry := expiry
  tableIdx := idx
  seq := e.seq
  probe := e.probe
  channel := e.channel

def rebuildHeap (t : ProbeTable (ReliableEntry α)) : RetxHeap :=
  (List.range t.capacity).foldl (fun h idx => match t.slot idx with
    | some e => h.insert (retxOf e (e.sendTime + e.timeout) idx)
    | none => h) #[]

def workerReliableResize (s : Reliable α) : Reliable α :=
  let table := ProbeTable.rehash entryHash (s.table.capacity * 2) s.table
  { s with table := table, heap := rebuildHeap table }

def Reliable.tryAdd (s : Reliable α) (e : ReliableEntry α) : Option (Reliable α) :=
  (ProbeTable.insert entryHash s.table e).map fun p =>
    { s with table := p.1, heap := s.heap.insert (retxOf e (e.sendTime + e.timeout) p.2) }

def Reliable.newEntry (s : Reliable α) (now : ℕ) (channel : BitVec 8) (probe : Bool)
    (seq : BitVec 32) (payload : α) : ReliableEntry α where
  seq := seq
  channel := channel
  probe := probe
  sendTime := now
  timeout := s.timeout
  retransmitCount := 0
  maxRetransmits := s.maxRetransmits
  payload := payload

/-- `grows` says whether memory for a larger table could be had; without it the packet goes
unregistered. -/
def workerReliableAdd (s : Reliable α) (grows : Bool) (e : ReliableEntry α) : Reliable α :=
  match s.tryAdd e with
  | some s' => s'
  | none =>
    if grows then
      let s' := workerReliableResize s
      (s'.tryAdd e).getD s'
    else s

def Reliable.matching (seq : BitVec 32) (channel : BitVec 8) (probe : Bool) :
    Option (ReliableEntry α) → Bool
  | some e => e.seq == seq && e.channel == channel && e.probe == probe
  | none => false

def workerReliableFind (s : Reliable α) (channel : BitVec 8) (probe : Bool) (seq : BitVec 32) :
    Option ℕ :=
  ProbeTable.find (Reliable.matching seq channel probe) s.table
    (reliableHash channel probe seq s.table.capacity)

def workerReliableAck (s : Reliable α) (seq : BitVec 32) (channel : BitVec 8) (probe : Bool) :
    Reliable α :=
  match workerReliableFind s channel probe seq with
  | some idx => { s with table := s.table.set idx none }
  | none => s

def deferredSendMax : ℕ := 32

/-- A timer run or a SACK at work: the state, the datagrams to send once the lock is released and
the packets that were given up. -/
structure Sending (α : Type u) where
  state : Reliable α
  deferred : List (ReliableEntry α)
  lost : List (ReliableEntry α)

def Sending.popTop (w : Sending α) : Sending α :=
  { w with state := { w.state with heap := w.state.heap.removeTop } }

def Sending.push (w : Sending α) (e : RetxEntry) : Sending α :=
  { w with state := { w.state with heap := w.state.heap.insert e } }

def Sending.giveUp (w : Sending α) (idx : ℕ) (e : ReliableEntry α) : Sending α :=
  { w with
    state := { w.state with table := w.state.table.set idx none }
    lost := w.lost ++ [e] }

def Sending.resend (w : Sending α) (idx : ℕ) (e e' : ReliableEntry α) : Sending α :=
  { w with
    state := { w.state with table := w.state.table.set idx (some e') }
    deferred := w.deferred ++ [e] }

-- Each round takes an expired entry off the heap and puts none back that has expired, so as many
-- rounds as there are entries are enough.
def retransmitLoop (now : ℕ) : ℕ → Sending α → Sending α
  | 0, w => w
  | rounds + 1, w =>
    match w.state.heap[0]? with
    | none => w
    | some top =>
      if now < top.expiry then w
      else match w.state.table.get top.tableIdx with
        | none => retransmitLoop now rounds w.popTop
        | some e =>
          if e.seq ≠ top.seq ∨ e.probe ≠ top.probe then retransmitLoop now rounds w.popTop
          else if now < e.sendTime + e.timeout then
            retransmitLoop now rounds
              (w.popTop.push { top with expiry := e.sendTime + e.timeout })
          else if e.retransmitCount ≥ e.maxRetransmits then
            retransmitLoop now rounds (w.popTop.giveUp top.tableIdx e)
          else if w.deferred.length ≥ deferredSendMax then w.popTop.push top
          else
            retransmitLoop now rounds ((w.popTop.resend top.tableIdx e
              { e with sendTime := now, retransmitCount := e.retransmitCount + 1 }).push
                { top with expiry := now + e.timeout })

def workerReliableRetransmit (s : Reliable α) (now : ℕ) : Sending α :=
  retransmitLoop now s.heap.size ⟨s, [], []⟩

def sackBit (now : ℕ) (channel : BitVec 8) (cumulative bitmap : BitVec 32) (w : Sending α)
    (i : ℕ) : Sending α :=
  if bitmap.getLsbD i then w
  else match workerReliableFind w.state channel false (cumulative + BitVec.ofNat 32 i) with
    | none => w
    | some idx => match w.state.table.get idx with
      | none => w
      | some e =>
        if now - e.sendTime < e.timeout / 2 then w
        else if w.deferred.length ≥ deferredSendMax then w
        else w.resend idx e { e with sendTime := now }

def workerHandleSack (s : Reliable α) (now : ℕ) (channel : BitVec 8)
    (cumulative bitmap : BitVec 32) : Sending α :=
  (List.range reorderWindow).foldl (sackBit now channel cumulative bitmap) ⟨s, [], []⟩

def workerRecvAck (s : Reliable α) (now : ℕ) (channel : BitVec 8) : Reply → Sending α
  | .ack seq => ⟨workerReliableAck s seq channel false, [], []⟩
  | .sack seq cumulative bitmap =>
    workerHandleSack (workerReliableAck s seq channel false) now channel cumulative bitmap

def ReliableEntry.key (e : ReliableEntry α) : BitVec 32 × BitVec 8 × Bool × α :=
  (e.seq, e.channel, e.probe, e.payload)

def Reliable.Pending (s : Reliable α) (k : BitVec 32 × BitVec 8 × Bool × α) : Prop :=
  ∃ e ∈ s.table, e.key = k

def ReliableEntry.Exhausted (e : ReliableEntry α) : Prop := e.maxRetransmits ≤ e.retransmitCount

structure Sending.Keeps (w w' : Sending α) : Prop where
  size : w'.state.table.capacity = w.state.table.capacity
  free : ∀ i, w.state.table.slot i = none → w'.state.table.slot i = none
  old : ∀ k, w'.state.Pending k → w.state.Pending k
  kept : ∀ k, w.state.Pending k → w'.state.Pending k ∨ ∃ e ∈ w'.lost, e.key = k
  lost : ∀ e ∈ w.lost, e ∈ w'.lost
  exhausted : ∀ e ∈ w'.lost, e ∈ w.lost ∨ e.Exhausted
  deferred : ∀ e ∈ w'.deferred, e ∈ w.deferred ∨ w.state.Pending e.key

namespace Sending.Keeps

variable {w w' w'' : Sending α} {e e' : ReliableEntry α}

theorem refl (w : Sending α) : w.Keeps w where
  size := rfl
  free _ h := h
  old _ h := h
  kept _ h := Or.inl h
  lost _ h := h
  exhausted _ h := Or.inl h
  deferred _ h := Or.inl h

theorem trans (h : w.Keeps w') (h' : w'.Keeps w'') : w.Keeps w'' where
  size := h'.size.trans h.size
  free i hi := h'.free i (h.free i hi)
  old k hk := h.old k (h'.old k hk)
  kept k hk := by
    cases h.kept k hk with
    | inl hk => exact h'.kept k hk
    | inr hlost =>
      obtain ⟨e, he, hkey⟩ := hlost
      exact Or.inr ⟨e, h'.lost e he, hkey⟩
  lost e he := h'.lost e (h.lost e he)
  exhausted e he := by
    cases h'.exhausted e he with
    | inl he => exact h.exhausted e he
    | inr hex => exact Or.inr hex
  deferred e he := by
    cases h'.deferred e he with
    | inl he => exact h.deferred e he
    | inr hk => exact Or.inr (h.old _ hk)

theorem heap (w : Sending α) (heap : RetxHeap) :
    w.Keeps { w with state := { w.state with heap := heap } } where
  size := rfl
  free _ h := h
  old _ h := h
  kept _ h := Or.inl h
  lost _ h := h
  exhausted _ h := Or.inl h
  deferred _ h := Or.inl h

theorem popTop (w : Sending α) : w.Keeps w.popTop := heap w _

theorem push (w : Sending α) (e : RetxEntry) : w.Keeps (w.push e) := heap w _

theorem giveUp (hget : w.state.table.get idx = some e) (hex : e.Exhausted) : w.Keeps (w.giveUp idx e) where
  size := rfl
  free i hi := ProbeTable.slot_set_free hi
  old k hk := by
    obtain ⟨x, hx, hkey⟩ := hk
    exact ⟨x, (ProbeTable.mem_set_none (ProbeTable.get_eq_some hget).2).1 hx, hkey⟩
  kept k hk := by
    obtain ⟨x, hx, hkey⟩ := hk
    cases (ProbeTable.mem_set_none (ProbeTable.get_eq_some hget).2).2 hx with
    | inl heq => exact Or.inr ⟨x, by simp [Sending.giveUp, heq], hkey⟩
    | inr hx => exact Or.inl ⟨x, hx, hkey⟩
  lost x hx := List.mem_append_left _ hx
  exhausted x hx := by
    cases List.mem_append.mp hx with
    | inl hx => exact Or.inl hx
    | inr hx =>
      obtain rfl := List.mem_singleton.mp hx
      exact Or.inr hex
  deferred _ hx := Or.inl hx

theorem resend (hget : w.state.table.get idx = some e) (hkey : e'.key = e.key) :
    w.Keeps (w.resend idx e e') where
  size := rfl
  free i hi := by
    have hne : i ≠ idx := by
      rintro rfl
      rw [(ProbeTable.get_eq_some hget).2] at hi
      simp at hi
    exact (ProbeTable.slot_set_of_ne _ hne _).trans hi
  old k hk := by
    obtain ⟨x, hx, rfl⟩ := hk
    obtain ⟨hidx, h⟩ := ProbeTable.get_eq_some hget
    cases (ProbeTable.mem_set_replace hidx h e').1 hx with
    | inl hx => exact ⟨x, hx, rfl⟩
    | inr heq => exact ⟨e, ⟨idx, hidx, h⟩, by rw [heq, hkey]⟩
  kept k hk := by
    obtain ⟨x, hx, rfl⟩ := hk
    obtain ⟨hidx, h⟩ := ProbeTable.get_eq_some hget
    obtain ⟨_, hold, hnew⟩ := @ProbeTable.mem_set_replace _ _ _ x _ hidx h e'
    cases hold hx with
    | inl heq => exact Or.inl ⟨e', hnew, by rw [hkey, heq]⟩
    | inr hx => exact Or.inl ⟨x, hx, rfl⟩
  lost _ hx := hx
  exhausted _ hx := Or.inl hx
  deferred x hx := by
    cases List.mem_append.mp hx with
    | inl hx => exact Or.inl hx
    | inr hx =>
      obtain rfl := List.mem_singleton.mp hx
      exact Or.inr ⟨_, ⟨idx, ProbeTable.get_eq_some hget⟩, rfl⟩

end Sending.Keeps

theorem retransmitLoop_keeps (now rounds : ℕ) (w : Sending α) :
    w.Keeps (retransmitLoop now rounds w) := by
  induction rounds generalizing w with
  | zero => exact .refl w
  | succ rounds ih =>
    have hpop : w.Keeps w.popTop := .popTop w
    unfold retransmitLoop
    cases w.state.heap[0]? with
    | none => exact .refl w
    | some top =>
      simp only
      split
      · exact .refl w
      · cases he : w.state.table.get top.tableIdx with
        | none => exact hpop.trans (ih _)
        | some e =>
          simp only
          split
          · exact hpop.trans (ih _)
          · split
            · exact (hpop.trans (.push _ _)).trans (ih _)
            · split
              · rename_i hex
                exact (hpop.trans (Sending.Keeps.giveUp he hex)).trans (ih _)
              · split
                · exact hpop.trans (.push _ _)
                · have hsend : w.popTop.Keeps (w.popTop.resend top.tableIdx e
                      { e with sendTime := now, retransmitCount := e.retransmitCount + 1 }) :=
                    Sending.Keeps.resend he rfl
                  exact ((hpop.trans hsend).trans (.push _ _)).trans (ih _)

theorem sackBit_keeps (now : ℕ) (channel : BitVec 8) (cumulative bitmap : BitVec 32)
    (w : Sending α) (i : ℕ) : w.Keeps (sackBit now channel cumulative bitmap w i) := by
  unfold sackBit
  split
  · exact .refl w
  · split
    · exact .refl w
    · split
      · exact .refl w
      · rename_i idx _ _ e he
        split
        · exact .refl w
        · split
          · exact .refl w
          · exact Sending.Keeps.resend he rfl

theorem foldl_keeps {f : Sending α → ℕ → Sending α} (hf : ∀ w i, Sending.Keeps w (f w i)) (l : List ℕ)
    (w : Sending α) : w.Keeps (l.foldl f w) := by
  induction l generalizing w with
  | nil => exact .refl w
  | cons i l ih => exact (hf w i).trans (ih _)

theorem workerReliableRetransmit_keeps (s : Reliable α) (now : ℕ) :
    Sending.Keeps ⟨s, [], []⟩ (workerReliableRetransmit s now) :=
  retransmitLoop_keeps _ _ _

theorem workerHandleSack_keeps (s : Reliable α) (now : ℕ) (channel : BitVec 8)
    (cumulative bitmap : BitVec 32) :
    Sending.Keeps ⟨s, [], []⟩ (workerHandleSack s now channel cumulative bitmap) :=
  foldl_keeps (fun w i => sackBit_keeps _ _ _ _ w i) _ _

theorem tryAdd_pending {s s' : Reliable α} (h : s.tryAdd e = some s')
    (k : BitVec 32 × BitVec 8 × Bool × α) : s'.Pending k ↔ s.Pending k ∨ k = e.key := by
  obtain ⟨⟨t, idx⟩, hins, rfl⟩ := Option.map_eq_some_iff.mp h
  unfold Reliable.Pending
  constructor
  · rintro ⟨x, hx, rfl⟩
    cases (ProbeTable.mem_insert hins).mp hx with
    | inl hx => exact Or.inl ⟨x, hx, rfl⟩
    | inr hxe => exact Or.inr (congrArg _ hxe)
  · intro hk
    cases hk with
    | inl hk =>
      obtain ⟨x, hx, hkey⟩ := hk
      exact ⟨x, (ProbeTable.mem_insert hins).mpr (Or.inl hx), hkey⟩
    | inr hk => exact ⟨e, (ProbeTable.mem_insert hins).mpr (Or.inr rfl), hk.symm⟩

theorem resize_pending (s : Reliable α) (k : BitVec 32 × BitVec 8 × Bool × α) :
    (workerReliableResize s).Pending k ↔ s.Pending k := by
  have hmem : ∀ e, e ∈ (workerReliableResize s).table ↔ e ∈ s.table := fun e =>
    ProbeTable.mem_rehash (Nat.le_mul_of_pos_right s.table.capacity Nat.zero_lt_two)
  simp only [Reliable.Pending, hmem]

theorem resize_tryAdd {s : Reliable α} (hpos : 0 < s.table.capacity) (e : ReliableEntry α) :
    ∃ s', (workerReliableResize s).tryAdd e = some s' := by
  have hlt : s.table.capacity < s.table.capacity * 2 := by omega
  obtain ⟨p, hp⟩ := ProbeTable.insert_rehash entryHash hlt e
  exact ⟨_, by rw [Reliable.tryAdd, workerReliableResize, hp]; rfl⟩

theorem workerReliableAdd_pending {s : Reliable α} (hpos : 0 < s.table.capacity)
    (hroom : grows = true ∨ s.tryAdd e ≠ none) (k : BitVec 32 × BitVec 8 × Bool × α) :
    (workerReliableAdd s grows e).Pending k ↔ s.Pending k ∨ k = e.key := by
  unfold workerReliableAdd
  cases h : s.tryAdd e with
  | some s' => exact tryAdd_pending h k
  | none =>
    have hgrows := hroom.resolve_right (fun hne => hne h)
    obtain ⟨s', hs'⟩ := resize_tryAdd hpos e
    simp only [hgrows, ↓reduceIte, hs', Option.getD_some]
    rw [tryAdd_pending hs', resize_pending]

theorem workerReliableAdd_unregistered {s : Reliable α} (h : s.tryAdd e = none) :
    workerReliableAdd s false e = s := by
  simp [workerReliableAdd, h]

theorem workerReliableAdd_others {s : Reliable α} (hpos : 0 < s.table.capacity) (grows : Bool)
    (k : BitVec 32 × BitVec 8 × Bool × α) :
    ((workerReliableAdd s grows e).Pending k → s.Pending k ∨ k = e.key) ∧
    (s.Pending k → (workerReliableAdd s grows e).Pending k) := by
  by_cases hroom : grows = true ∨ s.tryAdd e ≠ none
  · have hiff := workerReliableAdd_pending hpos hroom k
    exact ⟨hiff.mp, fun hk => hiff.mpr (Or.inl hk)⟩
  · simp only [not_or, Bool.not_eq_true, not_not] at hroom
    obtain ⟨rfl, hnone⟩ := hroom
    rw [workerReliableAdd_unregistered hnone]
    exact ⟨Or.inl, id⟩

theorem workerReliableAck_pending (s : Reliable α) (seq : BitVec 32) (channel : BitVec 8)
    (probe : Bool) (k : BitVec 32 × BitVec 8 × Bool × α) :
    ((workerReliableAck s seq channel probe).Pending k → s.Pending k) ∧
    (s.Pending k → (workerReliableAck s seq channel probe).Pending k ∨
      k.1 = seq ∧ k.2.1 = channel ∧ k.2.2.1 = probe) := by
  unfold workerReliableAck
  cases h : workerReliableFind s channel probe seq with
  | none => exact ⟨id, Or.inl⟩
  | some idx =>
    obtain ⟨e, _, hslot, hmatch⟩ := ProbeTable.find_some_mem h rfl
    simp only [Reliable.matching, Bool.and_eq_true, beq_iff_eq] at hmatch
    obtain ⟨⟨hseq, hch⟩, hprobe⟩ := hmatch
    constructor
    · rintro ⟨x, hx, hkey⟩
      exact ⟨x, (ProbeTable.mem_set_none hslot).1 hx, hkey⟩
    · rintro ⟨x, hx, rfl⟩
      cases (ProbeTable.mem_set_none hslot).2 hx with
      | inl heq =>
        subst heq
        exact Or.inr ⟨hseq, hch, hprobe⟩
      | inr hx => exact Or.inl ⟨x, hx, rfl⟩

theorem workerReliableAck_capacity (s : Reliable α) (seq : BitVec 32) (channel : BitVec 8)
    (probe : Bool) :
    (workerReliableAck s seq channel probe).table.capacity = s.table.capacity := by
  unfold workerReliableAck
  cases workerReliableFind s channel probe seq with
  | none => rfl
  | some idx => rfl

theorem workerReliableAck_free {s : Reliable α} (h : s.table.slot i = none) (seq : BitVec 32)
    (channel : BitVec 8) (probe : Bool) :
    (workerReliableAck s seq channel probe).table.slot i = none := by
  unfold workerReliableAck
  cases workerReliableFind s channel probe seq with
  | none => exact h
  | some idx => exact ProbeTable.slot_set_free h

theorem workerRecvAck_free {s : Reliable α} (h : s.table.slot i = none) (now : ℕ)
    (channel : BitVec 8) (reply : Reply) :
    (workerRecvAck s now channel reply).state.table.slot i = none := by
  cases reply with
  | ack seq => exact workerReliableAck_free h _ _ _
  | sack seq cumulative bitmap =>
    exact (workerHandleSack_keeps _ _ _ _ _).free i (workerReliableAck_free h _ _ _)

theorem tryAdd_capacity {s s' : Reliable α} (h : s.tryAdd e = some s') :
    s'.table.capacity = s.table.capacity := by
  obtain ⟨⟨t, idx⟩, hins, rfl⟩ := Option.map_eq_some_iff.mp h
  exact ProbeTable.capacity_insert hins

theorem workerReliableAdd_capacity {s : Reliable α} (hpos : 0 < s.table.capacity) (grows : Bool)
    (e : ReliableEntry α) : 0 < (workerReliableAdd s grows e).table.capacity := by
  unfold workerReliableAdd
  cases h : s.tryAdd e with
  | some s' => rwa [tryAdd_capacity h]
  | none =>
    cases grows with
    | false => exact hpos
    | true =>
      obtain ⟨s', hs'⟩ := resize_tryAdd hpos e
      have hsize : (workerReliableResize s).table.capacity = s.table.capacity * 2 :=
        ProbeTable.capacity_rehash _
      simp only [↓reduceIte, hs', Option.getD_some]
      rw [tryAdd_capacity hs', hsize]
      omega

end YumiBrowser.Udp
