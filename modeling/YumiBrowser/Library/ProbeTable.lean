import Mathlib.Data.Finset.Card
import Mathlib.Data.Finset.Range

universe u

/-! Open addressing: a table of slots that is searched from a hashed slot on, all the way round. -/

/-- The slots of an array of `capacity` elements; a slot may be free. -/
structure ProbeTable (ε : Type u) where
  capacity : ℕ
  slot : ℕ → Option ε

namespace ProbeTable

variable {ε : Type u}

def empty (capacity : ℕ) : ProbeTable ε where
  capacity := capacity
  slot _ := none

def set (t : ProbeTable ε) (idx : ℕ) (o : Option ε) : ProbeTable ε :=
  { t with slot := Function.update t.slot idx o }

@[simp] theorem capacity_set (t : ProbeTable ε) (idx : ℕ) (o : Option ε) :
    (t.set idx o).capacity = t.capacity := rfl

@[simp] theorem slot_set_self (t : ProbeTable ε) (idx : ℕ) (o : Option ε) :
    (t.set idx o).slot idx = o := by
  simp [set]

theorem slot_set_of_ne (t : ProbeTable ε) (h : i ≠ idx) (o : Option ε) :
    (t.set idx o).slot i = t.slot i := by
  simp [set, h]

theorem slot_set_free {t : ProbeTable ε} (h : t.slot i = none) : (t.set idx none).slot i = none := by
  by_cases hi : i = idx
  · subst hi
    exact slot_set_self _ _ _
  · exact (slot_set_of_ne _ hi _).trans h

def get (t : ProbeTable ε) (idx : ℕ) : Option ε := if idx < t.capacity then t.slot idx else none

theorem get_eq_some {t : ProbeTable ε} (h : t.get idx = some x) :
    idx < t.capacity ∧ t.slot idx = some x := by
  unfold get at h
  split at h
  · exact ⟨‹_›, h⟩
  · simp at h

theorem get_set_of_ne (t : ProbeTable ε) (h : i ≠ idx) (o : Option ε) : (t.set idx o).get i = t.get i := by
  rw [get, get, slot_set_of_ne t h o, capacity_set]

theorem get_set_self (t : ProbeTable ε) (idx : ℕ) (o : Option ε) :
    (t.set idx o).get idx = if idx < t.capacity then o else none := by
  rw [get, slot_set_self, capacity_set]

instance : Membership ε (ProbeTable ε) where
  mem t x := ∃ i < t.capacity, t.slot i = some x

theorem mem_iff {t : ProbeTable ε} : x ∈ t ↔ ∃ i < t.capacity, t.slot i = some x := Iff.rfl

/-- The slot that is looked at when `left` slots of the round remain after it. -/
def probe (t : ProbeTable ε) (base left : ℕ) : ℕ := (base + (t.capacity - (left + 1))) % t.capacity

def scan (p : Option ε → Bool) (t : ProbeTable ε) (base : ℕ) : ℕ → Option ℕ
  | 0 => none
  | left + 1 =>
    if p (t.slot (t.probe base left)) then some (t.probe base left) else scan p t base left

def find (p : Option ε → Bool) (t : ProbeTable ε) (base : ℕ) : Option ℕ := scan p t base t.capacity

variable {p : Option ε → Bool} {t t' : ProbeTable ε} {x y : ε} {base idx : ℕ}

theorem scan_some (hle : left ≤ t.capacity) (h : scan p t base left = some idx) :
    idx < t.capacity ∧ p (t.slot idx) = true := by
  induction left with
  | zero => simp [scan] at h
  | succ left ih =>
    unfold scan at h
    split at h
    · rename_i hp
      obtain rfl := Option.some.inj h
      exact ⟨Nat.mod_lt _ (by omega), hp⟩
    · exact ih (by omega) h

theorem scan_none (hle : left ≤ t.capacity) (h : scan p t base left = none) :
    ∀ i, t.capacity - left ≤ i → i < t.capacity →
      p (t.slot ((base + i) % t.capacity)) = false := by
  induction left with
  | zero => omega
  | succ left ih =>
    unfold scan at h
    split at h
    · simp at h
    · rename_i hp
      intro i hlo hhi
      rcases Nat.eq_or_lt_of_le hlo with heq | hlt
      · rw [← heq]
        simpa [probe] using hp
      · exact ih (by omega) h i (by omega) hhi

theorem find_some (h : find p t base = some idx) : idx < t.capacity ∧ p (t.slot idx) = true :=
  scan_some (Nat.le_refl _) h

theorem find_none (h : find p t base = none) (hidx : idx < t.capacity) :
    p (t.slot idx) = false := by
  have hpos : 0 < t.capacity := by omega
  have hmod : base % t.capacity < t.capacity := Nat.mod_lt _ hpos
  have hvisit := scan_none (Nat.le_refl _) h
    ((idx + (t.capacity - base % t.capacity)) % t.capacity) (by omega) (Nat.mod_lt _ hpos)
  have hround :
      (base + (idx + (t.capacity - base % t.capacity)) % t.capacity) % t.capacity = idx := by
    rw [Nat.add_mod_mod]
    have hbase := Nat.div_add_mod base t.capacity
    have : base + (idx + (t.capacity - base % t.capacity)) =
        idx + t.capacity * (base / t.capacity + 1) := by
      rw [Nat.mul_add]
      omega
    rw [this, Nat.add_mul_mod_self_left]
    exact Nat.mod_eq_of_lt hidx
  rwa [hround] at hvisit

theorem find_some_mem (h : find p t base = some idx) (hp : p none = false) :
    ∃ x, idx < t.capacity ∧ t.slot idx = some x ∧ p (some x) = true := by
  obtain ⟨hidx, hpx⟩ := find_some h
  cases hx : t.slot idx with
  | none => simp [hx, hp] at hpx
  | some x => exact ⟨x, hidx, rfl, by rwa [hx] at hpx⟩

theorem mem_set_of_ne (hy : y ∈ t) (hne : t.slot idx ≠ some y) (o : Option ε) :
    y ∈ t.set idx o := by
  obtain ⟨i, hi, hget⟩ := hy
  refine ⟨i, hi, ?_⟩
  rw [slot_set_of_ne]
  · exact hget
  · rintro rfl
    exact hne hget

theorem mem_or_eq_of_mem_set (hy : y ∈ t.set idx o) : y ∈ t ∨ o = some y := by
  obtain ⟨i, hi, hget⟩ := hy
  by_cases hidx : i = idx
  · subst hidx
    rw [slot_set_self] at hget
    exact Or.inr hget
  · rw [slot_set_of_ne _ hidx] at hget
    exact Or.inl ⟨i, hi, hget⟩

theorem mem_set_self (hidx : idx < t.capacity) : x ∈ t.set idx (some x) :=
  ⟨idx, hidx, slot_set_self _ _ _⟩

theorem mem_set_some (hidx : idx < t.capacity) (h : t.slot idx = none) :
    y ∈ t.set idx (some x) ↔ y ∈ t ∨ y = x := by
  constructor
  · intro hy
    exact (mem_or_eq_of_mem_set hy).imp id fun heq => (Option.some.inj heq).symm
  · intro hy
    cases hy with
    | inl hy => exact mem_set_of_ne hy (by simp [h]) _
    | inr hy =>
      subst hy
      exact mem_set_self hidx

theorem mem_set_none (h : t.slot idx = some x) :
    (y ∈ t.set idx none → y ∈ t) ∧ (y ∈ t → y = x ∨ y ∈ t.set idx none) := by
  constructor
  · intro hy
    exact (mem_or_eq_of_mem_set hy).resolve_right (by simp)
  · intro hy
    by_cases hyx : y = x
    · exact Or.inl hyx
    · exact Or.inr (mem_set_of_ne hy (by simpa [h] using Ne.symm hyx) _)

theorem mem_set_replace (hidx : idx < t.capacity) (h : t.slot idx = some x) (x' : ε) :
    (y ∈ t.set idx (some x') → y ∈ t ∨ y = x') ∧
    (y ∈ t → y = x ∨ y ∈ t.set idx (some x')) ∧ x' ∈ t.set idx (some x') := by
  refine ⟨fun hy => ?_, fun hy => ?_, mem_set_self hidx⟩
  · exact (mem_or_eq_of_mem_set hy).imp id fun heq => (Option.some.inj heq).symm
  · by_cases hyx : y = x
    · exact Or.inl hyx
    · exact Or.inr (mem_set_of_ne hy (by simpa [h] using Ne.symm hyx) _)

def insert (hash : ε → ℕ → ℕ) (t : ProbeTable ε) (x : ε) : Option (ProbeTable ε × ℕ) :=
  (find Option.isNone t (hash x t.capacity)).map fun idx => (t.set idx (some x), idx)

variable {hash : ε → ℕ → ℕ}

theorem insert_slot (h : insert hash t x = some (t', idx)) :
    idx < t.capacity ∧ t.slot idx = none ∧ t' = t.set idx (some x) := by
  obtain ⟨i, hfind, heq⟩ := Option.map_eq_some_iff.mp h
  obtain ⟨rfl, rfl⟩ := Prod.mk.inj heq
  obtain ⟨hidx, hfree⟩ := find_some hfind
  exact ⟨hidx, by simpa using hfree, rfl⟩

theorem capacity_insert (h : insert hash t x = some (t', idx)) : t'.capacity = t.capacity := by
  rw [(insert_slot h).2.2, capacity_set]

theorem mem_insert (h : insert hash t x = some (t', idx)) : y ∈ t' ↔ y ∈ t ∨ y = x := by
  obtain ⟨hidx, hfree, rfl⟩ := insert_slot h
  exact mem_set_some hidx hfree

def taken (t : ProbeTable ε) : Finset ℕ := (Finset.range t.capacity).filter fun i => (t.slot i).isSome

theorem mem_taken : i ∈ t.taken ↔ i < t.capacity ∧ (t.slot i).isSome := by
  simp [taken]

theorem insert_none (h : insert hash t x = none) : t.taken.card = t.capacity := by
  have hall : t.taken = Finset.range t.capacity := by
    apply Finset.filter_true_of_mem
    intro i hi
    have := find_none (Option.map_eq_none_iff.mp h) (Finset.mem_range.mp hi)
    simpa using this
  rw [hall, Finset.card_range]

theorem card_taken_set (hidx : idx < t.capacity) (h : t.slot idx = none) :
    (t.set idx (some x)).taken.card = t.taken.card + 1 := by
  have hcons : (t.set idx (some x)).taken = Insert.insert idx t.taken := by
    ext i
    rw [Finset.mem_insert, mem_taken, mem_taken]
    by_cases hi : i = idx
    · subst hi
      simp [hidx]
    · simp [slot_set_of_ne _ hi, hi]
  rw [hcons, Finset.card_insert_of_notMem]
  simp [mem_taken, h]

def elements (t : ProbeTable ε) : List ε := (List.range t.capacity).filterMap t.slot

theorem mem_elements : x ∈ t.elements ↔ x ∈ t := by
  simp [elements, mem_iff]

theorem length_elements_le (t : ProbeTable ε) : t.elements.length ≤ t.capacity := by
  have := List.length_filterMap_le t.slot (List.range t.capacity)
  simpa [elements] using this

def insertAll (hash : ε → ℕ → ℕ) (t : ProbeTable ε) (xs : List ε) : ProbeTable ε :=
  xs.foldl (fun t x => ((insert hash t x).map Prod.fst).getD t) t

theorem insertAll_cons (hash : ε → ℕ → ℕ) (h : t.taken.card + (x :: xs).length ≤ t.capacity) :
    ∃ t' idx, insert hash t x = some (t', idx) ∧ insertAll hash t (x :: xs) = insertAll hash t' xs ∧
      t'.taken.card + xs.length ≤ t'.capacity := by
  rw [List.length_cons] at h
  cases hins : insert hash t x with
  | none =>
    have := insert_none hins
    omega
  | some p =>
    obtain ⟨t', idx⟩ := p
    obtain ⟨hidx, hfree, rfl⟩ := insert_slot hins
    have hcard := @card_taken_set _ _ x _ hidx hfree
    refine ⟨_, idx, rfl, ?_, ?_⟩
    · simp only [insertAll, List.foldl_cons, hins, Option.map_some, Option.getD_some]
    · rw [hcard, capacity_set]
      omega

theorem mem_insertAll (xs : List ε) (h : t.taken.card + xs.length ≤ t.capacity) :
    y ∈ insertAll hash t xs ↔ y ∈ t ∨ y ∈ xs := by
  induction xs generalizing t with
  | nil => simp [insertAll]
  | cons x xs ih =>
    obtain ⟨t', idx, hins, hall, hroom⟩ := insertAll_cons hash h
    obtain ⟨hidx, hfree, rfl⟩ := insert_slot hins
    rw [hall, ih hroom, mem_set_some hidx hfree, List.mem_cons, or_assoc]

theorem capacity_insertAll (t : ProbeTable ε) (xs : List ε) :
    (insertAll hash t xs).capacity = t.capacity ∧
    (insertAll hash t xs).taken.card ≤ t.taken.card + xs.length := by
  induction xs generalizing t with
  | nil => exact ⟨rfl, Nat.le_refl _⟩
  | cons x xs ih =>
    simp only [insertAll, List.foldl_cons, List.length_cons] at ih ⊢
    cases hins : insert hash t x with
    | none =>
      obtain ⟨hcap, hle⟩ := ih t
      exact ⟨hcap, Nat.le_trans hle (by omega)⟩
    | some p =>
      obtain ⟨t', idx⟩ := p
      obtain ⟨hidx, hfree, rfl⟩ := insert_slot hins
      have hcard := @card_taken_set _ _ x _ hidx hfree
      obtain ⟨hcap, hle⟩ := ih (t.set idx (some x))
      exact ⟨hcap, Nat.le_trans hle (by omega)⟩

def rehash (hash : ε → ℕ → ℕ) (size : ℕ) (t : ProbeTable ε) : ProbeTable ε :=
  insertAll hash (empty size) t.elements

theorem card_taken_empty (size : ℕ) : (empty size : ProbeTable ε).taken.card = 0 := by
  simp [taken, empty]

theorem not_mem_empty (size : ℕ) : ¬ x ∈ (empty size : ProbeTable ε) := by
  simp [mem_iff, empty]

theorem mem_rehash (h : t.capacity ≤ size) : y ∈ rehash hash size t ↔ y ∈ t := by
  have hle := length_elements_le t
  have hroom : (empty size : ProbeTable ε).taken.card + t.elements.length ≤ size := by
    rw [card_taken_empty]
    omega
  rw [rehash, mem_insertAll _ hroom, mem_elements]
  exact or_iff_right (not_mem_empty _)

theorem capacity_rehash (t : ProbeTable ε) : (rehash hash size t).capacity = size :=
  (capacity_insertAll _ _).1

theorem insert_rehash (hash : ε → ℕ → ℕ) (h : t.capacity < size) (x : ε) :
    ∃ p, insert hash (rehash hash size t) x = some p := by
  have hle := length_elements_le t
  have hcount := (@capacity_insertAll _ hash (empty size) t.elements).2
  rw [card_taken_empty, ← rehash] at hcount
  cases hins : insert hash (rehash hash size t) x with
  | some p => exact ⟨p, rfl⟩
  | none =>
    have hfull := insert_none hins
    rw [capacity_rehash] at hfull
    omega

section Perm

theorem slot_of_mem_erase {o : Option ε} (hi : i ∈ (List.range t.capacity).erase idx) :
    (t.set idx o).slot i = t.slot i := by
  refine slot_set_of_ne t ?_ o
  rintro rfl
  exact (List.nodup_range.not_mem_erase) hi

theorem perm_elements_set (hidx : idx < t.capacity) (o : Option ε) :
    (o.toList ++ t.elements).Perm ((t.slot idx).toList ++ (t.set idx o).elements) := by
  have hsplit (t' : ProbeTable ε) (hcap : t'.capacity = t.capacity)
      (hsame : ∀ i ∈ (List.range t.capacity).erase idx, t'.slot i = t.slot i) :
      t'.elements.Perm ((t'.slot idx).toList ++ ((List.range t.capacity).erase idx).filterMap t.slot) := by
    have hperm := (List.perm_cons_erase (List.mem_range.mpr hidx)).filterMap t'.slot
    have hrest := List.filterMap_congr hsame
    rw [elements, hcap]
    rw [List.filterMap_cons, hrest] at hperm
    cases hslot : t'.slot idx with
    | none => simpa [hslot] using hperm
    | some x => simpa [hslot] using hperm
  have hold := hsplit t rfl fun _ _ => rfl
  have hnew := hsplit (t.set idx o) rfl fun _ hi => slot_of_mem_erase hi
  rw [slot_set_self] at hnew
  apply (hold.append_left _).trans
  refine List.Perm.trans ?_ (hnew.append_left _).symm
  rw [← List.append_assoc, ← List.append_assoc]
  exact List.perm_append_comm.append_right _

theorem perm_elements_take (hget : t.get idx = some x) : t.elements.Perm (x :: (t.set idx none).elements) := by
  obtain ⟨hidx, hslot⟩ := get_eq_some hget
  have hperm := perm_elements_set hidx none
  rw [hslot] at hperm
  exact hperm

theorem perm_elements_put (hget : t.get idx = some x) (y : ε) :
    (t.set idx (some y)).elements.Perm (y :: (t.set idx none).elements) := by
  obtain ⟨hidx, hslot⟩ := get_eq_some hget
  have hperm := perm_elements_set hidx (some y)
  rw [hslot] at hperm
  have htake := (perm_elements_take hget).cons y
  exact ((hperm.symm.trans htake).trans (.swap _ _ _)).cons_inv

theorem perm_insert (h : insert hash t x = some (t', idx)) : t'.elements.Perm (x :: t.elements) := by
  obtain ⟨hidx, hfree, rfl⟩ := insert_slot h
  have hperm := perm_elements_set hidx (some x)
  rw [hfree] at hperm
  exact hperm.symm

theorem perm_insertAll (xs : List ε) (h : t.taken.card + xs.length ≤ t.capacity) :
    (insertAll hash t xs).elements.Perm (xs ++ t.elements) := by
  induction xs generalizing t with
  | nil => exact .refl _
  | cons x xs ih =>
    obtain ⟨t', idx, hins, hall, hroom⟩ := insertAll_cons hash h
    rw [hall]
    apply (ih hroom).trans
    apply ((perm_insert hins).append_left xs).trans
    exact List.perm_middle

theorem elements_empty (size : ℕ) : (empty size : ProbeTable ε).elements = [] := by
  simp [elements, empty]

theorem perm_rehash (h : t.capacity ≤ size) : (rehash hash size t).elements.Perm t.elements := by
  have hle := length_elements_le t
  have hroom : (empty size : ProbeTable ε).taken.card + t.elements.length ≤ size := by
    rw [card_taken_empty]
    omega
  have hperm : (rehash hash size t).elements.Perm (t.elements ++ (empty size).elements) :=
    perm_insertAll t.elements hroom
  rw [elements_empty, List.append_nil] at hperm
  exact hperm

end Perm

end ProbeTable
