import Mathlib.Data.BitVec
import Mathlib.Data.Finset.Card
import Mathlib.Data.List.Nodup
import YumiBrowser.Library.System

universe u

namespace YumiBrowser.Handles

open Transition

variable {α : Type u}

/-- `none` is NULL, and the free slots are a stack with its top at the end. -/
structure HandleTable (α : Type u) where
  slots : List (Option α)
  generations : List (BitVec 32)
  capacity : BitVec 32
  freelist : List (BitVec 32)

/-- The `n` slots below `top`, the lowest one on top of the stack. -/
def freeStack (top : BitVec 32) (n : ℕ) : List (BitVec 32) :=
  (List.range n).map fun i => top - 1 - BitVec.ofNat 32 i

def htableInit (initialCap : BitVec 32) : HandleTable α where
  slots := List.replicate initialCap.toNat none
  generations := List.replicate initialCap.toNat 0
  capacity := initialCap
  freelist := freeStack initialCap initialCap.toNat

/-- `realloc`, with what is new set to `d`. -/
def resize {β : Type*} (xs : List β) (n : ℕ) (d : β) : List β :=
  xs.take n ++ List.replicate (n - xs.length) d

/-- The first half of `htable_insert`, for a table without a free slot. -/
def HandleTable.grow (t : HandleTable α) : HandleTable α :=
  let newCap := t.capacity * 2
  { slots := resize t.slots newCap.toNat none
    generations := resize t.generations newCap.toNat 0
    capacity := newCap
    freelist := freeStack newCap (newCap - t.capacity).toNat }

def HandleTable.ready (t : HandleTable α) : HandleTable α :=
  if t.freelist = [] then t.grow else t

def HandleTable.put (t : HandleTable α) (idx : BitVec 32) (ptr : Option α) (freelist : List (BitVec 32)) :
    HandleTable α :=
  { t with slots := t.slots.set idx.toNat ptr, freelist }

-- A table that was made with a slot has one to give after it has grown.
def htableInsert (t : HandleTable α) : Option α → HandleTable α × BitVec 32
  | none => (t, 0)
  | some ptr =>
    match t.ready.freelist.getLast? with
    | none => (t.ready, 0)
    | some idx => (t.ready.put idx (some ptr) t.ready.freelist.dropLast, idx + 1)

def HandleTable.slot (t : HandleTable α) (idx : BitVec 32) : Option α := t.slots.getD idx.toNat none

def htableGet (t : HandleTable α) (handle : BitVec 32) : Option α :=
  if handle = 0 ∨ t.capacity < handle then none else t.slot (handle - 1)

def htableRemove (t : HandleTable α) (handle : BitVec 32) : HandleTable α :=
  if handle = 0 ∨ t.capacity < handle then t
  else
    { t.put (handle - 1) none (t.freelist ++ [handle - 1]) with
      generations := t.generations.modify (handle - 1).toNat (· + 1) }

inductive Call (α : Type u)
  | insert (ptr : Option α)
  | get (handle : BitVec 32)
  | remove (handle : BitVec 32)

/-- A table in use: which handles were given out and not removed, with their pointers, and which were
removed while they were live. -/
structure InUse (α : Type u) where
  table : HandleTable α
  live : List (BitVec 32 × α)
  removed : List (BitVec 32)

namespace InUse

def start (initialCap : BitVec 32) : InUse α := ⟨htableInit initialCap, [], []⟩

def next (s : InUse α) : Call α → InUse α
  | .insert ptr =>
    let r := htableInsert s.table ptr
    { s with table := r.1, live := (ptr.map (r.2, ·)).toList ++ s.live }
  | .get _ => s
  | .remove handle =>
    { table := htableRemove s.table handle
      live := s.live.filter (·.1 ≠ handle)
      removed := if (htableGet s.table handle).isSome then handle :: s.removed else s.removed }

/-- The free list is the NULL slots, each once, and every slot has one owner. -/
structure Represented (s : InUse α) : Prop where
  nonempty : 0 < s.table.capacity
  length : s.table.slots.length = s.table.capacity.toNat
  distinct : s.table.freelist.Nodup
  free : ∀ idx, idx ∈ s.table.freelist ↔
    idx < s.table.capacity ∧ s.table.slot idx = none
  count : s.table.freelist.length ≤ s.table.capacity.toNat
  owners : (s.live.map Prod.fst).Nodup
  resolves : ∀ x ∈ s.live, htableGet s.table x.1 = some x.2

/-- Only live handles are removed, and the table does not outgrow its numbers. -/
def Tidy (s : InUse α) : Call α → Prop
  | .insert none => True
  | .insert (some _) => s.table.freelist = [] → s.table.capacity < 0x80000000
  | .get _ => True
  | .remove handle =>
    handle = 0 ∨ s.table.capacity < handle ∨ (htableGet s.table handle).isSome

instance (s : InUse α) : (call : Call α) → Decidable (s.Tidy call)
  | .insert none => .isTrue trivial
  | .insert (some _) => inferInstanceAs (Decidable (_ → _))
  | .get _ => .isTrue trivial
  | .remove _ => inferInstanceAs (Decidable (_ ∨ _))

end InUse

section Slots

variable {t : HandleTable α} {idx idx' : BitVec 32}

theorem getD_resize (xs : List (Option α)) (n j : ℕ) :
    (resize xs n none).getD j none = if j < n then xs.getD j none else none := by
  unfold resize
  simp only [List.getD_eq_getElem?_getD, List.getElem?_append, List.getElem?_take, List.getElem?_replicate,
    List.length_take]
  by_cases hn : j < n
  · rw [if_pos hn]
    by_cases hlen : j < xs.length
    · rw [if_pos (lt_min hn hlen), if_pos hn]
    · rw [if_neg (by omega), List.getElem?_eq_none (Nat.le_of_not_lt hlen)]
      split <;> rfl
  · rw [if_neg hn, if_neg (by omega), if_neg (by omega), if_neg hn]
    rfl

theorem length_le_capacity {xs : List (BitVec 32)} {capacity : BitVec 32} (hnodup : xs.Nodup)
    (hlt : ∀ idx ∈ xs, idx < capacity) : xs.length ≤ capacity.toNat := by
  have hnodup' : (xs.map BitVec.toNat).Nodup := hnodup.map fun a b => BitVec.eq_of_toNat_eq
  have hsub : (xs.map BitVec.toNat).toFinset ⊆ Finset.range capacity.toNat := by
    intro n hn
    obtain ⟨idx, hidx, rfl⟩ := List.mem_map.mp (List.mem_toFinset.mp hn)
    exact Finset.mem_range.mpr (hlt idx hidx)
  have hcard := Finset.card_le_card hsub
  rw [List.toFinset_card_of_nodup hnodup', Finset.card_range, List.length_map] at hcard
  exact hcard

theorem mem_freeStack {top : BitVec 32} {n : ℕ} (hn : n ≤ top.toNat) (idx : BitVec 32) :
    idx ∈ freeStack top n ↔ top.toNat ≤ idx.toNat + n ∧ idx < top := by
  unfold freeStack
  rw [List.mem_map]
  constructor
  · rintro ⟨i, hi, rfl⟩
    have hi := List.mem_range.mp hi
    constructor <;> bv_omega
  · rintro ⟨hle, hlt⟩
    refine ⟨(top - 1 - idx).toNat, List.mem_range.mpr (by bv_omega), ?_⟩
    rw [BitVec.ofNat_toNat, BitVec.setWidth_eq]
    bv_omega

theorem nodup_freeStack {top : BitVec 32} {n : ℕ} (hn : n ≤ 2 ^ 32) : (freeStack top n).Nodup := by
  refine List.Nodup.map_on (fun i hi j hj heq => ?_) List.nodup_range
  have hi := List.mem_range.mp hi
  have hj := List.mem_range.mp hj
  have hsame : BitVec.ofNat 32 i = BitVec.ofNat 32 j := sub_right_injective heq
  have hnat := congrArg BitVec.toNat hsame
  rw [BitVec.toNat_ofNat, BitVec.toNat_ofNat, Nat.mod_eq_of_lt (by omega), Nat.mod_eq_of_lt (by omega)] at hnat
  exact hnat

theorem htableGet_succ (t : HandleTable α) (h : idx < t.capacity) : htableGet t (idx + 1) = t.slot idx := by
  have hrange : ¬ (idx + 1 = 0 ∨ t.capacity < idx + 1) := by bv_omega
  have hidx : idx + 1 - 1 = idx := by bv_omega
  rw [htableGet, if_neg hrange, hidx]

theorem slot_of_get {handle : BitVec 32} (h : htableGet t handle = some ptr) :
    handle - 1 < t.capacity ∧ handle - 1 + 1 = handle ∧ t.slot (handle - 1) = some ptr := by
  unfold htableGet at h
  split at h
  · exact nomatch h
  · next hrange => exact ⟨by bv_omega, by bv_omega, h⟩

theorem slot_put (hlen : t.slots.length = t.capacity.toNat) (hidx : idx < t.capacity) (ptr : Option α)
    (freelist : List (BitVec 32)) :
    (t.put idx ptr freelist).slot idx' = if idx = idx' then ptr else t.slot idx' := by
  have hlt : idx.toNat < t.slots.length := by
    rw [hlen]
    exact hidx
  simp only [HandleTable.slot, HandleTable.put, List.getD_eq_getElem?_getD, List.getElem?_set]
  split
  · next heq =>
    obtain rfl := BitVec.eq_of_toNat_eq heq
    rw [if_pos rfl]
    rfl
  · next hne => rw [if_neg fun heq => hne (congrArg BitVec.toNat heq)]

end Slots

namespace InUse.Represented

variable {s : InUse α}

theorem take (h : s.Represented) {idx : BitVec 32} {rest : List (BitVec 32)}
    (hfree : s.table.freelist = rest ++ [idx]) (ptr : α) :
    ({ s with table := s.table.put idx (some ptr) rest, live := (idx + 1, ptr) :: s.live } :
      InUse α).Represented := by
  have hmem : idx ∈ s.table.freelist := by
    rw [hfree]
    exact List.mem_append_right _ (List.mem_singleton_self _)
  obtain ⟨hlt, hnull⟩ := (h.free idx).mp hmem
  have hslot (j : BitVec 32) : (s.table.put idx (some ptr) rest).slot j =
      if idx = j then some ptr else s.table.slot j := slot_put h.length hlt _ _
  have hget (j : BitVec 32) (hj : j < s.table.capacity) :
      htableGet (s.table.put idx (some ptr) rest) (j + 1) =
        if idx = j then some ptr else s.table.slot j :=
    (@htableGet_succ _ j (s.table.put idx (some ptr) rest) hj).trans (hslot j)
  have hdistinct := h.distinct
  rw [hfree] at hdistinct
  obtain ⟨hrest, _, hnotin⟩ := List.nodup_append.mp hdistinct
  have hother : ∀ x ∈ s.live, x.1 - 1 ≠ idx := by
    intro x hx heq
    obtain ⟨_, _, hsome⟩ := slot_of_get (h.resolves x hx)
    rw [heq] at hsome
    exact nomatch hnull.symm.trans hsome
  refine ⟨h.nonempty, (List.length_set ..).trans h.length, hrest, fun j => ?_, ?_, ?_, fun x hx => ?_⟩
  · rw [hslot j]
    have hold := h.free j
    rw [hfree, List.mem_append, List.mem_singleton] at hold
    constructor
    · intro hj
      have hne : idx ≠ j := fun heq => hnotin j hj idx (List.mem_singleton_self _) heq.symm
      rw [if_neg hne]
      exact hold.mp (.inl hj)
    · rintro ⟨hj, hnone⟩
      split at hnone
      · exact nomatch hnone
      · next hne => exact (hold.mpr ⟨hj, hnone⟩).resolve_right fun heq => hne heq.symm
  · have hcount := h.count
    rw [hfree, List.length_append] at hcount
    exact Nat.le_of_add_right_le hcount
  · refine List.nodup_cons.mpr ⟨fun hin => ?_, h.owners⟩
    obtain ⟨x, hx, heq⟩ := List.mem_map.mp hin
    apply hother x hx
    rw [heq]
    exact BitVec.add_sub_cancel idx 1
  · cases hx with
    | head => exact (hget idx hlt).trans (if_pos rfl)
    | tail _ hx =>
      obtain ⟨hrange, hhandle, hsome⟩ := slot_of_get (h.resolves x hx)
      rw [← hhandle]
      exact (hget _ hrange).trans ((if_neg (hother x hx).symm).trans hsome)

theorem mem_freelist_grow {t : HandleTable α} (hcap : t.capacity < 0x80000000) (idx : BitVec 32) :
    idx ∈ t.grow.freelist ↔ t.capacity ≤ idx ∧ idx < t.grow.capacity := by
  have hadded : (t.capacity * 2 - t.capacity).toNat = t.capacity.toNat := by bv_omega
  change idx ∈ freeStack (t.capacity * 2) (t.capacity * 2 - t.capacity).toNat ↔ _ ∧ idx < t.capacity * 2
  rw [hadded, mem_freeStack (by bv_omega)]
  constructor
  · rintro ⟨hge, hlt⟩
    exact ⟨by bv_omega, hlt⟩
  · rintro ⟨hge, hlt⟩
    exact ⟨by bv_omega, hlt⟩

theorem grow (h : s.Represented) (hfull : s.table.freelist = []) (hcap : s.table.capacity < 0x80000000) :
    ({ s with table := s.table.grow } : InUse α).Represented ∧ s.table.grow.freelist ≠ [] := by
  have hdouble : (s.table.capacity * 2).toNat = s.table.capacity.toNat * 2 := by bv_omega
  have hle : s.table.capacity < s.table.grow.capacity := by
    have hpos := h.nonempty
    change s.table.capacity < s.table.capacity * 2
    bv_omega
  have hslot (j : BitVec 32) : s.table.grow.slot j = s.table.slot j := by
    change (resize s.table.slots (s.table.capacity * 2).toNat none).getD j.toNat none = _
    rw [getD_resize]
    split
    · rfl
    · next hge =>
      rw [HandleTable.slot, List.getD_eq_getElem?_getD, List.getElem?_eq_none]
      · rfl
      · rw [h.length]
        omega
  have hfilled (j : BitVec 32) (hj : j < s.table.capacity) : s.table.slot j ≠ none := by
    intro hnone
    have hin := (h.free j).mpr ⟨hj, hnone⟩
    rw [hfull] at hin
    exact nomatch hin
  have hbeyond (j : BitVec 32) (hj : s.table.capacity ≤ j) : s.table.slot j = none := by
    rw [HandleTable.slot, List.getD_eq_getElem?_getD, List.getElem?_eq_none]
    · rfl
    · rw [h.length]
      exact hj
  have hfree (idx : BitVec 32) : idx ∈ s.table.grow.freelist ↔
      idx < s.table.grow.capacity ∧ s.table.grow.slot idx = none := by
    rw [mem_freelist_grow hcap, hslot]
    constructor
    · rintro ⟨hge, hlt⟩
      exact ⟨hlt, hbeyond idx hge⟩
    · rintro ⟨hlt, hnone⟩
      refine ⟨?_, hlt⟩
      by_contra hlow
      exact hfilled idx (by bv_omega) hnone
  have hdistinct : s.table.grow.freelist.Nodup := nodup_freeStack (BitVec.isLt _).le
  refine ⟨⟨BitVec.lt_trans h.nonempty hle, ?_, hdistinct, hfree, ?_, h.owners, fun x hx => ?_⟩, ?_⟩
  · change (resize s.table.slots (s.table.capacity * 2).toNat none).length = (s.table.capacity * 2).toNat
    rw [resize, List.length_append, List.length_take, List.length_replicate, h.length]
    omega
  · exact length_le_capacity hdistinct fun idx hidx => ((hfree idx).mp hidx).1
  · obtain ⟨hrange, hhandle, hsome⟩ := slot_of_get (h.resolves x hx)
    rw [← hhandle]
    apply (htableGet_succ _ (BitVec.lt_trans hrange hle)).trans
    rw [hslot]
    exact hsome
  · exact List.ne_nil_of_mem ((mem_freelist_grow hcap s.table.capacity).mpr ⟨BitVec.le_refl _, hle⟩)

theorem start {initialCap : BitVec 32} (h : 0 < initialCap) :
    (InUse.start initialCap : InUse α).Represented := by
  have hslot (idx : BitVec 32) : (htableInit initialCap : HandleTable α).slot idx = none := by
    unfold HandleTable.slot htableInit
    rw [List.getD_eq_getElem?_getD, List.getElem?_replicate]
    split <;> rfl
  have hfree (idx : BitVec 32) : idx ∈ freeStack initialCap initialCap.toNat ↔
      idx < initialCap ∧ (htableInit initialCap : HandleTable α).slot idx = none := by
    rw [mem_freeStack (Nat.le_refl _), hslot]
    constructor
    · rintro ⟨_, hlt⟩
      exact ⟨hlt, rfl⟩
    · rintro ⟨hlt, _⟩
      exact ⟨Nat.le_add_left .., hlt⟩
  refine ⟨h, List.length_replicate, nodup_freeStack (BitVec.isLt _).le, hfree, ?_, List.nodup_nil,
    fun _ hx => nomatch hx⟩
  exact length_le_capacity (nodup_freeStack (BitVec.isLt _).le) fun idx hidx => ((hfree idx).mp hidx).1

theorem release (h : s.Represented) (handle : BitVec 32) (removed : List (BitVec 32)) :
    ({ s with live := s.live.filter (·.1 ≠ handle), removed } : InUse α).Represented := by
  refine ⟨h.nonempty, h.length, h.distinct, h.free, h.count, ?_, fun x hx => ?_⟩
  · exact h.owners.sublist (List.filter_sublist.map Prod.fst)
  · exact h.resolves x (List.mem_of_mem_filter hx)

theorem give (h : s.Represented) {idx : BitVec 32} (hlt : idx < s.table.capacity)
    (hsome : s.table.slot idx ≠ none) (generations : List (BitVec 32)) (removed : List (BitVec 32)) :
    ({ table := { s.table.put idx none (s.table.freelist ++ [idx]) with generations }
       live := s.live.filter (·.1 ≠ idx + 1), removed } : InUse α).Represented := by
  have hslot (j : BitVec 32) : (s.table.put idx none (s.table.freelist ++ [idx])).slot j =
      if idx = j then none else s.table.slot j := slot_put h.length hlt _ _
  have hnotin : idx ∉ s.table.freelist := fun hin => hsome ((h.free idx).mp hin).2
  have hfree (j : BitVec 32) : j ∈ s.table.freelist ++ [idx] ↔ j < s.table.capacity ∧
      (s.table.put idx none (s.table.freelist ++ [idx])).slot j = none := by
    rw [List.mem_append, List.mem_singleton, h.free, hslot]
    by_cases hj : idx = j
    · subst hj
      rw [if_pos rfl]
      exact ⟨fun _ => ⟨hlt, rfl⟩, fun _ => .inr rfl⟩
    · rw [if_neg hj]
      exact ⟨fun hor => hor.resolve_right fun heq => hj heq.symm, .inl⟩
  have hdistinct : (s.table.freelist ++ [idx]).Nodup := by
    refine List.nodup_append.mpr ⟨h.distinct, List.nodup_singleton _, fun j hj k hk heq => ?_⟩
    rw [List.mem_singleton.mp hk] at heq
    exact hnotin (heq ▸ hj)
  refine ⟨h.nonempty, (List.length_set ..).trans h.length, hdistinct, hfree, ?_, ?_, fun x hx => ?_⟩
  · exact length_le_capacity hdistinct fun j hj => ((hfree j).mp hj).1
  · exact h.owners.sublist (List.filter_sublist.map Prod.fst)
  · obtain ⟨hx, hne⟩ := List.mem_filter.mp hx
    obtain ⟨hrange, hhandle, hptr⟩ := slot_of_get (h.resolves x hx)
    have hother : idx ≠ x.1 - 1 := by
      intro heq
      rw [heq, hhandle] at hne
      simp at hne
    rw [← hhandle]
    have hget := @htableGet_succ _ (x.1 - 1) (s.table.put idx none (s.table.freelist ++ [idx])) hrange
    exact hget.trans ((hslot _).trans ((if_neg hother).trans hptr))

theorem next_insert {idx : BitVec 32} (ptr : α) (hlast : s.table.ready.freelist.getLast? = some idx) :
    s.next (.insert (some ptr)) =
      { s with
        table := s.table.ready.put idx (some ptr) s.table.ready.freelist.dropLast
        live := (idx + 1, ptr) :: s.live } := by
  simp only [InUse.next, htableInsert, hlast]
  rfl

theorem not_grown (h : s.Represented) (hfull : s.table.freelist = []) (hcap : ¬ s.table.capacity < 0x80000000)
    (ptr : α) : ¬ (s.next (.insert (some ptr))).Represented := by
  intro hnext
  have hready : s.table.ready = s.table.grow := if_pos hfull
  have hadded : (s.table.capacity * 2 - s.table.capacity).toNat = s.table.capacity.toNat := by bv_omega
  have hlist : s.table.ready.freelist = freeStack (s.table.capacity * 2) s.table.capacity.toNat := by
    rw [hready, ← hadded]
    rfl
  have hne : s.table.ready.freelist ≠ [] := by
    rw [hlist]
    exact List.ne_nil_of_length_pos (by rw [freeStack, List.length_map, List.length_range]; bv_omega)
  have hlast := List.getLast?_eq_some_getLast hne
  generalize s.table.ready.freelist.getLast hne = idx at hlast
  rw [next_insert ptr hlast] at hnext
  -- The slot below the new capacity is still on the stack, and it had an owner before.
  have hmem : s.table.capacity * 2 - 1 ∈ s.table.ready.freelist.dropLast := by
    rw [hlist, freeStack, ← List.map_dropLast, List.mem_map]
    refine ⟨0, ?_, by simp⟩
    rw [List.dropLast_eq_take, List.length_range, List.take_range, List.mem_range]
    bv_omega
  obtain ⟨hlt, hnull⟩ := (hnext.free _).mp hmem
  rw [hready] at hlt hnull
  have hlt : s.table.capacity * 2 - 1 < s.table.capacity * 2 := hlt
  have hbelow : s.table.capacity * 2 - 1 < s.table.capacity := by bv_omega
  have hfilled : s.table.slot (s.table.capacity * 2 - 1) ≠ none := by
    intro hnone
    have hin := (h.free _).mpr ⟨hbelow, hnone⟩
    rw [hfull] at hin
    exact nomatch hin
  have hkept : s.table.grow.slot (s.table.capacity * 2 - 1) ≠ none := by
    change (resize s.table.slots (s.table.capacity * 2).toNat none).getD _ none ≠ none
    rw [getD_resize, if_pos (BitVec.lt_def.mp hlt)]
    exact hfilled
  apply hkept
  simp only [HandleTable.slot, HandleTable.put, List.getD_eq_getElem?_getD, List.getElem?_set] at hnull ⊢
  split at hnull
  · next heq =>
    split at hnull
    · exact nomatch hnull
    · next hge =>
      rw [← heq, List.getElem?_eq_none (Nat.le_of_not_lt hge)]
      rfl
  · exact hnull

theorem next_iff (h : s.Represented) (call : Call α) : (s.next call).Represented ↔ s.Tidy call := by
  cases call with
  | insert ptr =>
    cases ptr with
    | none => exact ⟨fun _ => trivial, fun _ => h⟩
    | some ptr =>
      have hinsert (hready : ({ s with table := s.table.ready } : InUse α).Represented)
          (hne : s.table.ready.freelist ≠ []) : (s.next (.insert (some ptr))).Represented := by
        have hlast := List.getLast?_eq_some_getLast hne
        have htake := hready.take (List.dropLast_append_getLast hne).symm ptr
        rw [next_insert ptr hlast]
        exact htake
      by_cases hfull : s.table.freelist = []
      · have hready : s.table.ready = s.table.grow := if_pos hfull
        constructor
        · intro hnext _
          by_contra hcap
          exact h.not_grown hfull hcap ptr hnext
        · intro htidy
          obtain ⟨hgrown, hne⟩ := h.grow hfull (htidy hfull)
          rw [← hready] at hgrown hne
          exact hinsert hgrown hne
      · have hready : s.table.ready = s.table := if_neg hfull
        refine ⟨fun _ hempty => absurd hempty hfull, fun _ => hinsert ?_ ?_⟩
        · rw [hready]
          exact h
        · rw [hready]
          exact hfull
  | get handle => exact ⟨fun _ => trivial, fun _ => h⟩
  | remove handle =>
    unfold InUse.next InUse.Tidy htableRemove
    dsimp only
    split
    · next hout => exact ⟨fun _ => hout.imp_right .inl, fun _ => h.release handle _⟩
    · next hin =>
      have hlt : handle - 1 < s.table.capacity := by bv_omega
      have hhandle : handle - 1 + 1 = handle := by bv_omega
      have hget : htableGet s.table handle = s.table.slot (handle - 1) := by
        rw [htableGet, if_neg hin]
      constructor
      · intro hnext
        refine .inr (.inr ?_)
        by_contra hnone
        rw [hget, Option.not_isSome_iff_eq_none] at hnone
        have hmem := (h.free _).mpr ⟨hlt, hnone⟩
        exact (List.nodup_append.mp hnext.distinct).2.2 _ hmem _ (List.mem_singleton_self _) rfl
      · rintro (h0 | hgt | hsome)
        · exact absurd (.inl h0) hin
        · exact absurd (.inr hgt) hin
        · have hgive := h.give hlt (Option.isSome_iff_ne_none.mp (hget ▸ hsome))
            (s.table.generations.modify (handle - 1).toNat (· + 1))
            (if (htableGet s.table handle).isSome then handle :: s.removed else s.removed)
          rw [hhandle] at hgive
          exact hgive

end InUse.Represented

section Runs

/-- The representation holds all along exactly if only live handles are removed, and the table does not
outgrow its numbers. -/
theorem represented_iff_tidy {initialCap : BitVec 32} (h : 0 < initialCap) (calls : List (Call α)) :
    (∀ done rest, calls = done ++ rest → (done.foldl InUse.next (.start initialCap)).Represented) ↔
      ∀ done call rest, calls = done ++ call :: rest →
        (done.foldl InUse.next (.start initialCap)).Tidy call :=
  System.holds_along_iff (J := fun _ => True) (fun _ _ _ => trivial) (fun _ call _ hs => hs.next_iff call)
    trivial (.start h) calls

def exchanged : List (Call Char) :=
  [.insert (some 'a'), .insert (some 'b'), .remove 1, .get 2, .insert (some 'c'), .remove 2, .insert none]

theorem represented_exchanged : (exchanged.foldl InUse.next (.start 1)).live = [(1, 'c')] ∧
    (exchanged.foldl InUse.next (.start 1)).Represented := by
  have htidy : System.Enables InUse.Tidy InUse.next (.start 1) exchanged := by decide
  refine ⟨by decide, ?_⟩
  exact (represented_iff_tidy (by decide) exchanged).mpr (htidy.along exchanged) _ [] (List.append_nil _).symm

-- The second remove of a handle lets it be given out twice.
theorem removed_twice : ¬ ∀ (initialCap : BitVec 32) (calls : List (Call Char)), 0 < initialCap →
    (calls.foldl InUse.next (.start initialCap)).Represented := by
  intro h
  have howners := (h 1 [.insert (some 'a'), .remove 1, .remove 1, .insert (some 'b'), .insert (some 'c')]
    (by decide)).owners
  exact absurd howners (by decide)

end Runs

section Stale

variable {s : InUse α} {t : HandleTable α}

namespace InUse

/-- No handle that was removed denotes anything. -/
def NeverResolves (s : InUse α) : Prop := ∀ handle ∈ s.removed, htableGet s.table handle = none

/-- An insert whose slot, the last one of the free list, was that of a removed handle. -/
def Reuses (s : InUse α) : Call α → Prop
  | .insert (some _) => ∃ idx, s.table.ready.freelist.getLast? = some idx ∧
      idx < s.table.ready.capacity ∧ idx + 1 ∈ s.removed
  | _ => False

end InUse

theorem length_ready (h : t.slots.length = t.capacity.toNat) :
    t.ready.slots.length = t.ready.capacity.toNat := by
  unfold HandleTable.ready
  split
  · change (resize t.slots (t.capacity * 2).toNat none).length = (t.capacity * 2).toNat
    rw [resize, List.length_append, List.length_take, List.length_replicate]
    omega
  · exact h

theorem htableGet_put (h : t.slots.length = t.capacity.toNat) (idx : BitVec 32) (ptr : Option α)
    (freelist : List (BitVec 32)) (handle : BitVec 32) :
    htableGet (t.put idx ptr freelist) handle =
      if idx < t.capacity ∧ handle = idx + 1 then ptr else htableGet t handle := by
  by_cases hrange : handle = 0 ∨ t.capacity < handle
  · have hput : htableGet (t.put idx ptr freelist) handle = none := if_pos hrange
    have hget : htableGet t handle = none := if_pos hrange
    rw [hput, hget, if_neg]
    rintro ⟨hlt, rfl⟩
    bv_omega
  · have hput : htableGet (t.put idx ptr freelist) handle = (t.put idx ptr freelist).slot (handle - 1) :=
      if_neg hrange
    have hget : htableGet t handle = t.slot (handle - 1) := if_neg hrange
    rw [hput, hget]
    by_cases hlt : idx < t.capacity
    · rw [slot_put h hlt]
      by_cases heq : idx = handle - 1
      · rw [if_pos heq, if_pos ⟨hlt, by bv_omega⟩]
      · rw [if_neg heq, if_neg]
        rintro ⟨_, rfl⟩
        exact heq (by bv_omega)
    · rw [if_neg fun hand => hlt hand.1]
      have hbeyond : t.slots.length ≤ idx.toNat := by
        rw [h]
        exact Nat.le_of_not_lt hlt
      simp only [HandleTable.slot, HandleTable.put, List.set_eq_of_length_le hbeyond]

theorem htableGet_of_ready (h : t.slots.length = t.capacity.toNat) {handle : BitVec 32} {ptr : α}
    (hget : htableGet t.ready handle = some ptr) : htableGet t handle = some ptr := by
  unfold HandleTable.ready at hget
  split at hget
  · obtain ⟨_, hhandle, hslot⟩ := slot_of_get hget
    change (resize t.slots (t.capacity * 2).toNat none).getD _ none = _ at hslot
    rw [getD_resize] at hslot
    split at hslot
    · have hlt : handle - 1 < t.capacity := by
        by_contra hge
        rw [List.getD_eq_getElem?_getD, List.getElem?_eq_none (by rw [h]; exact Nat.le_of_not_lt hge)] at hslot
        exact nomatch hslot
      rw [← hhandle]
      exact (htableGet_succ t hlt).trans hslot
    · exact nomatch hslot
  · exact hget

theorem htableGet_ready (h : t.slots.length = t.capacity.toNat) {handle : BitVec 32}
    (hnone : htableGet t handle = none) : htableGet t.ready handle = none := by
  cases hget : htableGet t.ready handle with
  | none => rfl
  | some ptr => exact nomatch hnone.symm.trans (htableGet_of_ready h hget)

theorem length_insert (h : t.slots.length = t.capacity.toNat) (ptr : Option α) :
    (htableInsert t ptr).1.slots.length = (htableInsert t ptr).1.capacity.toNat := by
  cases ptr with
  | none => exact h
  | some ptr =>
    unfold htableInsert
    dsimp only
    split
    · exact length_ready h
    · exact (List.length_set ..).trans (length_ready h)

theorem length_remove (h : t.slots.length = t.capacity.toNat) (handle : BitVec 32) :
    (htableRemove t handle).slots.length = (htableRemove t handle).capacity.toNat := by
  unfold htableRemove
  split
  · exact h
  · exact (List.length_set ..).trans h

theorem htableGet_of_insert (h : t.slots.length = t.capacity.toNat) {handle : BitVec 32} {ptr ptr' : α}
    (hget : htableGet (htableInsert t (some ptr)).1 handle = some ptr') :
    handle = (htableInsert t (some ptr)).2 ∧ ptr' = ptr ∨ htableGet t handle = some ptr' := by
  unfold htableInsert at hget ⊢
  dsimp only at hget ⊢
  cases hlast : t.ready.freelist.getLast? with
  | none =>
    simp only [hlast] at hget
    exact .inr (htableGet_of_ready h hget)
  | some idx =>
    simp only [hlast] at hget ⊢
    rw [htableGet_put (length_ready h)] at hget
    split at hget
    · next hnew => exact .inl ⟨hnew.2, (Option.some.inj hget).symm⟩
    · exact .inr (htableGet_of_ready h hget)

theorem htableGet_of_remove (h : t.slots.length = t.capacity.toNat) {handle other : BitVec 32} {ptr : α}
    (hget : htableGet (htableRemove t handle) other = some ptr) : other ≠ handle ∧ htableGet t other = some ptr := by
  unfold htableRemove at hget
  split at hget
  · next hout =>
    refine ⟨fun heq => ?_, hget⟩
    rw [heq, htableGet, if_pos hout] at hget
    exact nomatch hget
  · next hin =>
    have hput := htableGet_put h (handle - 1) none (t.freelist ++ [handle - 1]) other
    have hget := hput.symm.trans hget
    split at hget
    · exact nomatch hget
    · next hne =>
      refine ⟨fun heq => hne ⟨by bv_omega, ?_⟩, hget⟩
      rw [heq]
      bv_omega

theorem length_next (h : s.table.slots.length = s.table.capacity.toNat) (call : Call α) :
    (s.next call).table.slots.length = (s.next call).table.capacity.toNat := by
  cases call with
  | insert ptr => exact length_insert h ptr
  | get handle => exact h
  | remove handle => exact length_remove h handle

theorem neverResolves_next_iff (hlen : s.table.slots.length = s.table.capacity.toNat)
    (h : s.NeverResolves) (call : Call α) : (s.next call).NeverResolves ↔ ¬ s.Reuses call := by
  cases call with
  | insert ptr =>
    cases ptr with
    | none => exact ⟨fun _ hreuses => hreuses, fun _ => h⟩
    | some ptr =>
      have hready : ∀ handle ∈ s.removed, htableGet s.table.ready handle = none :=
        fun handle hin => htableGet_ready hlen (h handle hin)
      cases hlast : s.table.ready.freelist.getLast? with
      | none =>
        have hnext : (s.next (.insert (some ptr))).table = s.table.ready := by
          simp only [InUse.next, htableInsert, hlast]
        constructor
        · rintro _ ⟨idx, hidx, _⟩
          exact nomatch hlast.symm.trans hidx
        · intro _ handle hin
          rw [hnext]
          exact hready handle hin
      | some idx =>
        rw [InUse.Represented.next_insert ptr hlast]
        have hget := htableGet_put (length_ready hlen) idx (some ptr) s.table.ready.freelist.dropLast
        constructor
        · rintro hnext ⟨idx', hidx', hlt, hin⟩
          cases hlast.symm.trans hidx'
          have hsome := hget (idx + 1)
          rw [if_pos ⟨hlt, rfl⟩] at hsome
          exact nomatch hsome.symm.trans (hnext (idx + 1) hin)
        · intro hfresh handle hin
          apply (hget handle).trans
          rw [if_neg]
          · exact hready handle hin
          · rintro ⟨hlt, rfl⟩
            exact hfresh ⟨idx, hlast, hlt, hin⟩
  | get handle => exact ⟨fun _ hreuses => hreuses, fun _ => h⟩
  | remove handle =>
    refine ⟨fun _ hreuses => hreuses, fun _ => ?_⟩
    have hgone : ∀ other, htableGet s.table other = none ∨ other = handle →
        htableGet (htableRemove s.table handle) other = none := by
      intro other hother
      cases hget : htableGet (htableRemove s.table handle) other with
      | none => rfl
      | some ptr =>
        obtain ⟨hne, hold⟩ := htableGet_of_remove hlen hget
        exact nomatch (hother.resolve_right hne).symm.trans hold
    intro other hin
    apply hgone other
    change other ∈ (if (htableGet s.table handle).isSome then handle :: s.removed else s.removed) at hin
    split at hin
    · cases hin with
      | head => exact .inr rfl
      | tail _ hin => exact .inl (h other hin)
    · exact .inl (h other hin)

/-- A removed handle stays dead exactly as long as no insert takes its slot. -/
theorem stale_dead_iff (initialCap : BitVec 32) (calls : List (Call α)) :
    (∀ done rest, calls = done ++ rest → (done.foldl InUse.next (.start initialCap)).NeverResolves) ↔
      ∀ done call rest, calls = done ++ call :: rest →
        ¬ (done.foldl InUse.next (.start initialCap)).Reuses call :=
  System.holds_along_iff (J := fun s : InUse α => s.table.slots.length = s.table.capacity.toNat)
    (fun _ call hs => length_next hs call) (fun _ call hlen hs => neverResolves_next_iff hlen hs call)
    List.length_replicate (fun _ hin => absurd hin List.not_mem_nil) calls

-- The next insert gives the same handle out again, with the generation counted up.
theorem handle_reused : ¬ ∀ (initialCap : BitVec 32) (calls : List (Call Char)),
    (calls.foldl InUse.next (.start initialCap)).NeverResolves := by
  intro h
  have hdead := h 1 [.insert (some 'a'), .remove 1, .insert (some 'b')] 1 (by decide)
  exact absurd hdead (by decide)

end Stale

section Filling

variable {t : HandleTable α} {handle : BitVec 32} {ptr other : α}

namespace HandleTable

def Sound (t : HandleTable α) : Prop := (⟨t, [], []⟩ : InUse α).Represented

/-- `n` more fit in before the slots outgrow their numbers. -/
def Roomy (t : HandleTable α) (n : ℕ) : Prop := t.capacity.toNat + n ≤ 2 ^ 31 + t.freelist.length

instance (t : HandleTable α) (n : ℕ) : Decidable (t.Roomy n) := inferInstanceAs (Decidable (_ ≤ _))

theorem Roomy.mono (h : t.Roomy n) (hle : m ≤ n) : t.Roomy m := (Nat.add_le_add_left hle _).trans h

theorem Roomy.tidy (h : t.Roomy (n + 1)) (hfull : t.freelist = []) : t.capacity < 0x80000000 := by
  unfold Roomy at h
  rw [hfull, List.length_nil] at h
  bv_omega

theorem Roomy.insert (h : t.Roomy (n + 1)) : (htableInsert t (some ptr)).1.Roomy n := by
  have hready : t.ready.Roomy (n + 1) := by
    unfold ready
    split
    · next hfull =>
      have hcap := h.tidy hfull
      have hadded : (t.capacity * 2 - t.capacity).toNat = t.capacity.toNat := by bv_omega
      have hdouble : (t.capacity * 2).toNat = t.capacity.toNat * 2 := by bv_omega
      unfold Roomy at h ⊢
      rw [hfull, List.length_nil] at h
      change (t.capacity * 2).toNat + _ ≤ _ + (freeStack (t.capacity * 2) (t.capacity * 2 - t.capacity).toNat).length
      rw [freeStack, List.length_map, List.length_range, hadded, hdouble]
      omega
    · exact h
  unfold htableInsert
  dsimp only
  split
  · exact hready.mono (Nat.le_succ n)
  · unfold Roomy at hready ⊢
    change t.ready.capacity.toNat + n ≤ _ + t.ready.freelist.dropLast.length
    rw [List.length_dropLast]
    omega

namespace Sound

theorem init {initialCap : BitVec 32} (h : 0 < initialCap) : (htableInit initialCap : HandleTable α).Sound :=
  InUse.Represented.start h

theorem of_represented {s : InUse α} (h : s.Represented) : s.table.Sound :=
  ⟨h.nonempty, h.length, h.distinct, h.free, h.count, List.nodup_nil, fun _ hx => absurd hx List.not_mem_nil⟩

theorem holding (h : t.Sound) (hget : htableGet t handle = some ptr) :
    (⟨t, [(handle, ptr)], []⟩ : InUse α).Represented := by
  refine ⟨h.nonempty, h.length, h.distinct, h.free, h.count, List.nodup_singleton _, fun x hx => ?_⟩
  rw [List.mem_singleton.mp hx]
  exact hget

theorem insert (h : t.Sound) (hroom : t.Roomy (n + 1)) (ptr : α) : (htableInsert t (some ptr)).1.Sound :=
  of_represented ((InUse.Represented.next_iff h (.insert (some ptr))).mpr hroom.tidy)

theorem get_inserted (h : t.Sound) (hroom : t.Roomy (n + 1)) (ptr : α) :
    htableGet (htableInsert t (some ptr)).1 (htableInsert t (some ptr)).2 = some ptr :=
  ((InUse.Represented.next_iff h (.insert (some ptr))).mpr hroom.tidy).resolves (_, ptr) List.mem_cons_self

theorem get_insert (h : t.Sound) (hroom : t.Roomy (n + 1)) (ptr : α) (hget : htableGet t handle = some other) :
    htableGet (htableInsert t (some ptr)).1 handle = some other :=
  ((InUse.Represented.next_iff (h.holding hget) (.insert (some ptr))).mpr hroom.tidy).resolves (handle, other)
    (List.mem_cons_of_mem _ List.mem_cons_self)

theorem remove (h : t.Sound) (hget : htableGet t handle = some ptr) : (htableRemove t handle).Sound :=
  of_represented ((InUse.Represented.next_iff h (.remove handle)).mpr
    (.inr (.inr (Option.isSome_of_eq_some hget))))

end Sound

end HandleTable

@[simp] theorem htableGet_zero (t : HandleTable α) : htableGet t 0 = none := if_pos (.inl rfl)

theorem ne_zero_of_get (h : htableGet t handle = some ptr) : handle ≠ 0 := by
  rintro rfl
  rw [htableGet_zero] at h
  cases h

end Filling

end YumiBrowser.Handles
