import Mathlib.Data.List.Nodup
import Mathlib.Data.List.Perm.Basic
import Mathlib.Tactic.Common

universe u v

namespace Grouped

/-- Rows of one key. -/
structure Group (κ : Type u) (α : Type v) where
  key : κ
  rows : List α

variable {κ : Type u} {α : Type v} {key : α → κ} {gs : List (Group κ α)}

def rowsOf (gs : List (Group κ α)) : List α := gs.flatMap Group.rows

@[simp] theorem rowsOf_nil : rowsOf ([] : List (Group κ α)) = [] := rfl

@[simp] theorem rowsOf_cons (g : Group κ α) (gs : List (Group κ α)) : rowsOf (g :: gs) = g.rows ++ rowsOf gs :=
  List.flatMap_cons

theorem rowsOf_concat (gs : List (Group κ α)) (g : Group κ α) : rowsOf (gs ++ [g]) = rowsOf gs ++ g.rows := by
  rw [rowsOf, List.flatMap_append, List.flatMap_singleton]
  rfl

/-- Every key has one group, and every group a row. -/
structure Grouping (key : α → κ) (gs : List (Group κ α)) : Prop where
  rows_ne_nil : ∀ g ∈ gs, g.rows ≠ []
  key_eq : ∀ g ∈ gs, ∀ a ∈ g.rows, key a = g.key
  nodup : (gs.map Group.key).Nodup

theorem Grouping.init {g : Group κ α} (h : Grouping key (gs ++ [g])) : Grouping key gs where
  rows_ne_nil g' hg' := h.rows_ne_nil g' (List.mem_append_left _ hg')
  key_eq g' hg' := h.key_eq g' (List.mem_append_left _ hg')
  nodup := by
    have hnodup := h.nodup
    rw [List.map_append] at hnodup
    exact hnodup.of_append_left

theorem Grouping.fresh {g : Group κ α} (h : Grouping key (gs ++ [g])) : g.key ∉ gs.map Group.key := by
  have hnodup := h.nodup
  rw [List.map_append] at hnodup
  intro hmem
  exact (List.disjoint_of_nodup_append hnodup) hmem List.mem_cons_self

theorem Grouping.tail {g : Group κ α} (h : Grouping key (g :: gs)) : Grouping key gs where
  rows_ne_nil g' hg' := h.rows_ne_nil g' (List.mem_cons_of_mem g hg')
  key_eq g' hg' := h.key_eq g' (List.mem_cons_of_mem g hg')
  nodup := (List.nodup_cons.mp h.nodup).2

theorem Grouping.head_fresh {g : Group κ α} (h : Grouping key (g :: gs)) : g.key ∉ gs.map Group.key :=
  (List.nodup_cons.mp h.nodup).1

def Group.first (n : ℕ) (g : Group κ α) : Group κ α := { g with rows := g.rows.take n }

def clip : ℕ → List (Group κ α) → List (Group κ α)
  | _, [] => []
  | n, g :: gs => if n = 0 then [] else g.first n :: clip (n - g.rows.length) gs

theorem rowsOf_clip (n : ℕ) (gs : List (Group κ α)) : rowsOf (clip n gs) = (rowsOf gs).take n := by
  induction gs generalizing n with
  | nil => exact List.take_nil.symm
  | cons g gs ih =>
    rw [clip, rowsOf_cons, List.take_append]
    split
    · next hn =>
      subst hn
      rw [List.take_zero, Nat.zero_sub, List.take_zero]
      rfl
    · rw [rowsOf_cons, ih]
      rfl

theorem clip_keys (n : ℕ) (gs : List (Group κ α)) : (clip n gs).map Group.key <+: gs.map Group.key := by
  induction gs generalizing n with
  | nil => exact List.prefix_rfl
  | cons g gs ih =>
    rw [clip]
    split
    · exact List.nil_prefix
    · exact List.prefix_cons_inj g.key |>.mpr (ih _)

theorem mem_clip {n : ℕ} {g : Group κ α} (hg : g ∈ clip n gs) : ∃ g' ∈ gs, ∃ m ≠ 0, g = g'.first m := by
  induction gs generalizing n with
  | nil => cases hg
  | cons g₀ gs ih =>
    rw [clip] at hg
    split at hg
    · cases hg
    · next hn =>
      cases hg with
      | head => exact ⟨g₀, List.mem_cons_self, n, hn, rfl⟩
      | tail _ hg =>
        obtain ⟨g', hg', hfirst⟩ := ih hg
        exact ⟨g', List.mem_cons_of_mem g₀ hg', hfirst⟩

theorem Grouping.clip (h : Grouping key gs) (n : ℕ) : Grouping key (clip n gs) where
  rows_ne_nil g hg := by
    obtain ⟨g', hg', m, hm, rfl⟩ := mem_clip hg
    rw [Group.first, Ne, List.take_eq_nil_iff, not_or]
    exact ⟨hm, h.rows_ne_nil g' hg'⟩
  key_eq g hg a ha := by
    obtain ⟨g', hg', m, -, rfl⟩ := mem_clip hg
    exact h.key_eq g' hg' a (List.mem_of_mem_take ha)
  nodup := h.nodup.sublist (clip_keys n gs).sublist

def reach (c k : ℕ) (gs : List (Group κ α)) : ℕ :=
  (rowsOf (gs.take k)).length + min c ((gs.map fun g => g.rows.length).getD k 0)

theorem reach_zero (c : ℕ) (g : Group κ α) (gs : List (Group κ α)) :
    reach c 0 (g :: gs) = min c g.rows.length := by
  rw [reach, List.take_zero, rowsOf_nil, List.length_nil, Nat.zero_add]
  rfl

theorem reach_succ (c k : ℕ) (g : Group κ α) (gs : List (Group κ α)) :
    reach c (k + 1) (g :: gs) = g.rows.length + reach c k gs := by
  rw [reach, List.take_succ_cons, rowsOf_cons, List.length_append, Nat.add_assoc]
  rfl

theorem reach_pos {c k : ℕ} (hc : 0 < c) (hrows : ∀ g ∈ gs, g.rows ≠ []) (hk : k < gs.length) :
    0 < reach c k gs := by
  have hget : (gs.map fun g => g.rows.length).getD k 0 = gs[k].rows.length := by
    rw [List.getD_eq_getElem?_getD, List.getElem?_map, List.getElem?_eq_getElem hk]
    rfl
  have hpos : 0 < gs[k].rows.length := List.length_pos_iff.mpr (hrows _ (List.getElem_mem hk))
  rw [reach, hget]
  omega

theorem first_eq_first {c n : ℕ} (g : Group κ α) :
    (g.first n).first c = g.first c ↔ min c g.rows.length ≤ n := by
  have htake : (g.rows.take n).take c = g.rows.take c ↔ min c g.rows.length ≤ n := by
    rw [List.take_take, List.take_eq_take_iff]
    omega
  rw [← htake]
  constructor
  · intro h
    exact congrArg Group.rows h
  · intro h
    rw [Group.first, Group.first, Group.first, h]

theorem clip_first_iff {c n m : ℕ} (hc : 0 < c) (hrows : ∀ g ∈ gs, g.rows ≠ []) :
    ((clip n gs).map (Group.first c)).take m = (gs.map (Group.first c)).take m ↔
      ∀ k < min m gs.length, reach c k gs ≤ n := by
  induction gs generalizing n m with
  | nil => exact iff_of_true rfl fun k hk => absurd (Nat.lt_of_lt_of_le hk (Nat.min_le_right ..)) (Nat.not_lt_zero k)
  | cons g gs ih =>
    cases m with
    | zero => exact iff_of_true rfl fun k hk => absurd (Nat.lt_of_lt_of_le hk (Nat.min_le_left ..)) (Nat.not_lt_zero k)
    | succ m =>
      have hpos : 0 < min c g.rows.length :=
        Nat.lt_min.mpr ⟨hc, List.length_pos_iff.mpr (hrows g List.mem_cons_self)⟩
      have hall : (∀ k < min (m + 1) (g :: gs).length, reach c k (g :: gs) ≤ n) ↔
          min c g.rows.length ≤ n ∧ ∀ k < min m gs.length, g.rows.length + reach c k gs ≤ n := by
        rw [List.length_cons, Nat.add_min_add_right, Nat.forall_lt_succ_left, reach_zero]
        simp only [reach_succ]
      rw [hall, clip]
      split
      · next hn => exact iff_of_false (fun h => by cases h) fun h => by omega
      · rw [List.map_cons, List.map_cons, List.take_succ_cons, List.take_succ_cons, List.cons.injEq,
          first_eq_first, ih fun g' hg' => hrows g' (List.mem_cons_of_mem g hg')]
        refine and_congr_right fun hfirst => forall₂_congr fun k hk => ?_
        have hreach := reach_pos hc (fun g' hg' => hrows g' (List.mem_cons_of_mem g hg'))
          (Nat.lt_of_lt_of_le hk (Nat.min_le_right ..))
        omega

end Grouped
