import Mathlib.Data.List.Induction
import Mathlib.Data.List.Nodup
import Mathlib.Data.List.Perm.Basic
import Mathlib.Order.Lattice

universe u v

namespace Paging

variable {α : Type u} {β : Type v} [LinearOrder β] {rank : α → β} {l l' : List α} {j k : ℕ}

/-- The order of a query: rows of one rank stand in any order. -/
def Ordered (rank : α → β) (l : List α) : Prop := l.Pairwise fun a b => rank a ≤ rank b

theorem ordered_mergeSort (rank : α → β) (l : List α) : Ordered rank (l.mergeSort fun a b => rank a ≤ rank b) := by
  have htrans : ∀ a b c : α, decide (rank a ≤ rank b) = true → decide (rank b ≤ rank c) = true →
      decide (rank a ≤ rank c) = true := by
    intro a b c hab hbc
    exact decide_eq_true ((of_decide_eq_true hab).trans (of_decide_eq_true hbc))
  have htotal : ∀ a b : α, (decide (rank a ≤ rank b) || decide (rank b ≤ rank a)) = true := by
    intro a b
    simpa using le_total (rank a) (rank b)
  exact (List.pairwise_mergeSort htrans htotal l).imp of_decide_eq_true

/-- No rank stands on both sides. -/
def Parted (rank : α → β) (l : List α) (k : ℕ) : Prop := ∀ a ∈ l.take k, ∀ b ∈ l.drop k, rank a < rank b

theorem Ordered.take_countP (h : Ordered rank l) (b : β) :
    l.take (l.countP fun a => rank a < b) = l.filter fun a => rank a < b := by
  induction l with
  | nil => rfl
  | cons a l ih =>
    obtain ⟨hle, hrest⟩ := List.pairwise_cons.mp h
    by_cases hlt : rank a < b
    · have hcount : (a :: l).countP (fun a => rank a < b) = l.countP (fun a => rank a < b) + 1 :=
        List.countP_cons_of_pos (decide_eq_true hlt)
      rw [hcount, List.take_succ_cons, ih hrest]
      exact (List.filter_cons_of_pos (p := fun a => decide (rank a < b)) (decide_eq_true hlt)).symm
    · have hnone : ∀ a' ∈ a :: l, ¬ decide (rank a' < b) = true := by
        intro a' ha' hlt'
        obtain rfl | ha' := List.mem_cons.mp ha'
        · exact hlt (of_decide_eq_true hlt')
        · exact hlt ((hle a' ha').trans_lt (of_decide_eq_true hlt'))
      rw [List.countP_eq_zero.mpr hnone, List.take_zero, List.filter_eq_nil_iff.mpr hnone]

theorem Parted.countP (h : Parted rank l k) (hl : Ordered rank l) (hk : k < l.length) :
    ∃ b, (l.countP fun a => rank a < b) = k := by
  obtain ⟨b, ys, hdrop⟩ := List.exists_cons_of_ne_nil (List.drop_eq_nil_iff.not.mpr (Nat.not_le.mpr hk))
  have hold : (l.take k).countP (fun a => rank a < rank b) = k := by
    have hall : ∀ a ∈ l.take k, decide (rank a < rank b) = true := by
      intro a ha
      exact decide_eq_true (h a ha b (hdrop ▸ List.mem_cons_self))
    rw [List.countP_eq_length.mpr hall, List.length_take, Nat.min_eq_left (Nat.le_of_lt hk)]
  have hnew : (l.drop k).countP (fun a => rank a < rank b) = 0 := by
    have hsorted : Ordered rank (l.drop k) := hl.sublist (List.drop_sublist ..)
    rw [hdrop] at hsorted ⊢
    refine List.countP_eq_zero.mpr fun a ha hlt => ?_
    obtain rfl | ha := List.mem_cons.mp ha
    · exact lt_irrefl _ (of_decide_eq_true hlt)
    · exact absurd (of_decide_eq_true hlt) ((List.pairwise_cons.mp hsorted).1 a ha).not_gt
  refine ⟨rank b, ?_⟩
  calc (l.countP fun a => rank a < rank b)
      = (l.take k ++ l.drop k).countP fun a => rank a < rank b := by rw [List.take_append_drop]
    _ = k := by rw [List.countP_append, hold, hnew, Nat.add_zero]

theorem Parted.take_perm (h : Parted rank l k) (hl : Ordered rank l) (hl' : Ordered rank l') (hperm : l.Perm l') :
    (l.take k).Perm (l'.take k) := by
  by_cases hk : k < l.length
  · obtain ⟨b, hcount⟩ := h.countP hl hk
    have htake : l.take k = l.filter fun a => rank a < b := by rw [← hl.take_countP, hcount]
    have htake' : l'.take k = l'.filter fun a => rank a < b := by
      rw [← hl'.take_countP, ← hperm.countP_eq, hcount]
    rw [htake, htake']
    exact hperm.filter _
  · have hlen := Nat.not_lt.mp hk
    rw [List.take_of_length_le hlen, List.take_of_length_le (hperm.length_eq ▸ hlen)]
    exact hperm

theorem page_perm (hj : Parted rank l j) (hk : Parted rank l (j + k)) (hl : Ordered rank l) (hl' : Ordered rank l')
    (hperm : l.Perm l') : ((l.drop j).take k).Perm ((l'.drop j).take k) := by
  have hbefore := hj.take_perm hl hl' hperm
  have hupto := hk.take_perm hl hl' hperm
  rw [List.take_add, List.take_add] at hupto
  exact (List.perm_append_left_iff _).mp (hupto.trans (hbefore.symm.append_right _))

def pages (size count : ℕ) (answer : ℕ → List α) : List α :=
  (List.range count).flatMap fun i => ((answer (i * size)).drop (i * size)).take size

theorem pages_const (l : List α) (size count : ℕ) : pages size count (fun _ => l) = l.take (count * size) := by
  induction count with
  | zero =>
    rw [Nat.zero_mul, List.take_zero]
    rfl
  | succ count ih =>
    rw [pages] at ih ⊢
    rw [List.range_succ, List.flatMap_append, ih, List.flatMap_singleton, Nat.succ_mul, List.take_add]

theorem length_pages {size count : ℕ} {answer : ℕ → List α} (h : ∀ offset, (answer offset).length = l.length)
    (hcount : l.length ≤ count * size) : (pages size count answer).length = l.length := by
  have hpages : (pages size count answer).length = (pages size count fun _ => l).length := by
    rw [pages, pages, List.length_flatMap, List.length_flatMap]
    refine congrArg List.sum (List.map_congr_left fun i _ => ?_)
    rw [List.length_take, List.length_take, List.length_drop, List.length_drop, h]
  rw [hpages, pages_const, List.take_of_length_le hcount]

/-- An answer is any order of the rows that the query allows. -/
def Answers (rank : α → β) (l : List α) (answer : ℕ → List α) : Prop :=
  ∀ offset, (answer offset).Perm l ∧ Ordered rank (answer offset)

theorem Ordered.not_parted (h : Ordered rank l) (hk : ¬ Parted rank l k) :
    ∃ xs a b ys, l = xs ++ a :: b :: ys ∧ xs.length + 1 = k ∧ rank a = rank b := by
  simp only [Parted, not_forall, not_lt] at hk
  obtain ⟨a, ha, b, hb, hle⟩ := hk
  have hsplit := List.take_append_drop k l
  have hlength : (l.take k).length = k := by
    rw [List.length_take, Nat.min_eq_left]
    have hpos := List.length_pos_of_mem hb
    rw [List.length_drop] at hpos
    omega
  rw [← hsplit] at h
  obtain ⟨hold, hnew, hcross⟩ := List.pairwise_append.mp h
  cases htake : l.take k using List.reverseRecOn with
  | nil =>
    rw [htake] at ha
    cases ha
  | append_singleton xs a' =>
    cases hdrop : l.drop k with
    | nil =>
      rw [hdrop] at hb
      cases hb
    | cons b' ys =>
      rw [htake] at ha hold hcross hlength hsplit
      rw [hdrop] at hb hnew hcross hsplit
      refine ⟨xs, a', b', ys, by rw [← hsplit, List.append_assoc]; rfl, by rw [← hlength, List.length_append]; rfl, ?_⟩
      apply le_antisymm (hcross a' (by simp) b' List.mem_cons_self)
      have hfirst : rank b' ≤ rank b := by
        obtain rfl | hb := List.mem_cons.mp hb
        · exact le_rfl
        · exact (List.pairwise_cons.mp hnew).1 b hb
      have hlast : rank a ≤ rank a' := by
        obtain ha | ha := List.mem_append.mp ha
        · exact (List.pairwise_append.mp hold).2.2 a ha a' List.mem_cons_self
        · rw [List.mem_singleton.mp ha]
      exact hfirst.trans (hle.trans hlast)

theorem Ordered.swap {xs ys : List α} {a b : α} (h : Ordered rank (xs ++ a :: b :: ys)) (heq : rank a = rank b) :
    Ordered rank (xs ++ b :: a :: ys) := by
  unfold Ordered at h ⊢
  simp only [List.pairwise_append, List.pairwise_cons, List.mem_cons, forall_eq_or_imp] at h ⊢
  obtain ⟨hxs, ⟨⟨-, ha⟩, hb, hys⟩, hcross⟩ := h
  exact ⟨hxs, ⟨⟨heq.ge, hb⟩, ha, hys⟩, fun x hx => ⟨(hcross x hx).2.1, (hcross x hx).1, (hcross x hx).2.2⟩⟩

theorem pages_iff (hl : Ordered rank l) (hnodup : l.Nodup) {size count : ℕ} (hsize : 0 < size)
    (hcount : l.length ≤ count * size) :
    (∀ answer, Answers rank l answer → (pages size count answer).Perm l) ↔ ∀ i, Parted rank l (i * size) := by
  constructor
  · intro hall i
    by_contra hparted
    obtain ⟨xs, a, b, ys, rfl, hlen, heq⟩ := hl.not_parted hparted
    obtain ⟨n, rfl⟩ : ∃ n, i = n + 1 := Nat.exists_eq_succ_of_ne_zero fun hzero => by simp [hzero] at hlen
    let answer (offset : ℕ) := if offset = (n + 1) * size then xs ++ b :: a :: ys else xs ++ a :: b :: ys
    have hanswer : Answers rank (xs ++ a :: b :: ys) answer := by
      intro offset
      change (ite _ _ _ : List α).Perm _ ∧ Ordered rank (ite _ _ _)
      split
      · exact ⟨(List.Perm.swap ..).append_left xs, hl.swap heq⟩
      · exact ⟨.refl _, hl⟩
    have hlast : n + 1 < count := by
      rw [List.length_append, List.length_cons, List.length_cons] at hcount
      by_contra hge
      have hmul := Nat.mul_le_mul_right size (Nat.not_lt.mp hge)
      omega
    have hpages := (hall answer hanswer).nodup_iff.mpr hnodup
    have hdisjoint := List.pairwise_iff_getElem.mp (List.nodup_flatMap.mp hpages).2 n (n + 1)
      (by simpa using Nat.lt_of_succ_lt hlast) (by simpa using hlast) (Nat.lt_succ_self n)
    rw [List.getElem_range, List.getElem_range] at hdisjoint
    change ((answer (n * size)).drop (n * size)).take size |>.Disjoint
      (((answer ((n + 1) * size)).drop ((n + 1) * size)).take size) at hdisjoint
    refine hdisjoint (a := a) ?_ ?_
    · have hother : answer (n * size) = xs ++ a :: b :: ys := if_neg (by rw [Nat.succ_mul]; omega)
      rw [Nat.succ_mul] at hlen
      have hdrop : (xs ++ a :: b :: ys).drop (n * size) = xs.drop (n * size) ++ a :: b :: ys :=
        List.drop_append_of_le_length (by omega)
      rw [hother, hdrop, List.take_append]
      refine List.mem_append_right _ ?_
      obtain ⟨m, hm⟩ : ∃ m, size - (xs.drop (n * size)).length = m + 1 :=
        Nat.exists_eq_succ_of_ne_zero (by rw [List.length_drop]; omega)
      rw [hm]
      exact List.mem_cons_self
    · have hswapped : answer ((n + 1) * size) = (xs ++ [b]) ++ a :: ys := by
        rw [List.append_assoc]
        exact if_pos rfl
      have hdrop : ((xs ++ [b]) ++ a :: ys).drop ((n + 1) * size) = a :: ys := by
        rw [← hlen]
        exact List.drop_left' (by rw [List.length_append]; rfl)
      obtain ⟨m, rfl⟩ := Nat.exists_eq_succ_of_ne_zero (Nat.pos_iff_ne_zero.mp hsize)
      rw [hswapped, hdrop]
      exact List.mem_cons_self
  · intro hparted answer hanswer
    rw [← List.take_of_length_le hcount, ← pages_const, pages, pages]
    refine List.Perm.flatMap_left _ fun i _ => ?_
    obtain ⟨hperm, hordered⟩ := hanswer (i * size)
    have hnext := hparted (i + 1)
    rw [Nat.succ_mul] at hnext
    exact (page_perm (hparted i) hnext hl hordered hperm.symm).symm

end Paging
