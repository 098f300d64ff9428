import Mathlib.Data.List.Basic
import Mathlib.Data.List.Range
import Mathlib.Data.Nat.Notation

universe u v

/-! Taking in a stream block by block, where a block waits until something comes after it. -/

namespace Absorbing

variable {α : Type u} {σ : Type v} (size : ℕ) (step : σ → List α → σ)

def absorb (s : σ) (l : List α) : σ × List α :=
  if 0 < size ∧ size < l.length then absorb (step s (l.take size)) (l.drop size) else (s, l)
termination_by l.length
decreasing_by
  rw [List.length_drop]
  omega

def blocks (s : σ) (l : List α) (n : ℕ) : σ :=
  (List.range n).foldl (fun s j => step s ((l.drop (size * j)).take size)) s

variable {size step} {s : σ} {l m : List α}

theorem absorb_short (h : l.length ≤ size) : absorb size step s l = (s, l) := by
  rw [absorb, if_neg fun hlong => absurd hlong.2 (Nat.not_lt.mpr h)]

theorem absorb_long (hsize : 0 < size) (h : size < l.length) :
    absorb size step s l = absorb size step (step s (l.take size)) (l.drop size) := by
  rw [absorb, if_pos ⟨hsize, h⟩]

variable (step s l) in
theorem length_absorb (hsize : 0 < size) : (absorb size step s l).2.length ≤ size := by
  induction s, l using absorb.induct size step with
  | case1 s l hlong ih =>
    rw [absorb_long hlong.1 hlong.2]
    exact ih
  | case2 s l hshort =>
    have hle : l.length ≤ size := Nat.not_lt.mp fun h => hshort ⟨hsize, h⟩
    rw [absorb_short hle]
    exact hle

theorem absorb_append (hsize : 0 < size) (s : σ) (l m : List α) :
    absorb size step s (l ++ m) = absorb size step (absorb size step s l).1 ((absorb size step s l).2 ++ m) := by
  induction s, l using absorb.induct size step with
  | case1 s l hlong ih =>
    have hmore : size < (l ++ m).length := by
      rw [List.length_append]
      omega
    rw [absorb_long hlong.1 hmore, absorb_long hlong.1 hlong.2, List.take_append_of_le_length hlong.2.le,
      List.drop_append_of_le_length hlong.2.le]
    exact ih
  | case2 s l hshort => rw [absorb_short (Nat.not_lt.mp fun h => hshort ⟨hsize, h⟩)]

theorem foldl_absorb (hsize : 0 < size) (chunks : List (List α)) (s : σ) (l : List α) :
    chunks.foldl (fun st m => absorb size step st.1 (st.2 ++ m)) (absorb size step s l) =
      absorb size step s (l ++ chunks.flatten) := by
  induction chunks generalizing l with
  | nil => rw [List.flatten_nil, List.append_nil, List.foldl_nil]
  | cons m chunks ih => rw [List.foldl_cons, ← absorb_append hsize, ih, List.flatten_cons, List.append_assoc]

theorem blocks_succ (s : σ) (l : List α) (n : ℕ) :
    blocks size step s l (n + 1) = blocks size step (step s (l.take size)) (l.drop size) n := by
  unfold blocks
  rw [List.range_succ_eq_map, List.foldl_cons, List.foldl_map, Nat.mul_zero, List.drop_zero]
  simp only [List.drop_drop, Nat.mul_succ, Nat.add_comm]

theorem blocks_add (s : σ) (l : List α) (m n : ℕ) :
    blocks size step s l (m + n) = blocks size step (blocks size step s l m) (l.drop (size * m)) n := by
  induction m generalizing s l with
  | zero => rw [Nat.zero_add, Nat.mul_zero, List.drop_zero]; rfl
  | succ m ih => rw [Nat.succ_add, blocks_succ, ih, blocks_succ, List.drop_drop, Nat.mul_succ, Nat.add_comm size]

theorem absorb_eq_blocks (hsize : 0 < size) (s : σ) (l : List α) :
    absorb size step s l =
      (blocks size step s l ((l.length - 1) / size), l.drop (size * ((l.length - 1) / size))) := by
  induction s, l using absorb.induct size step with
  | case1 s l hlong ih =>
    have hcount : (l.length - 1) / size = ((l.drop size).length - 1) / size + 1 := by
      have hsum : l.length - 1 = (l.drop size).length - 1 + size := by
        rw [List.length_drop]
        omega
      rw [hsum, Nat.add_div_right _ hsize]
    rw [absorb_long hlong.1 hlong.2, ih, hcount, blocks_succ, List.drop_drop, Nat.mul_succ, Nat.add_comm size]
  | case2 s l hshort =>
    have hle : l.length ≤ size := Nat.not_lt.mp fun h => hshort ⟨hsize, h⟩
    have hzero : (l.length - 1) / size = 0 := Nat.div_eq_of_lt (by omega)
    rw [absorb_short hle, hzero, Nat.mul_zero, List.drop_zero]
    rfl

end Absorbing
