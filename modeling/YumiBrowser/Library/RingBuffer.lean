import Mathlib.Data.List.Basic
import Mathlib.Data.Nat.Notation
import Mathlib.Logic.Function.Basic

universe u

namespace RingBuffer

variable {α : Type u} {cells : List (Option α)} {head count i j n : ℕ} {x : α}

def contents (cells : List (Option α)) (head count : ℕ) : List (Option α) :=
  (List.range count).map fun i => cells.getD ((head + i) % cells.length) none

@[simp] theorem contents_zero : contents cells head 0 = [] := rfl

theorem mod_ne (hlt : i < j) (hround : j < i + n) : (head + i) % n ≠ (head + j) % n := by
  intro h
  have hdvd : n ∣ (head + j) - (head + i) := Nat.dvd_of_mod_eq_zero (Nat.sub_mod_eq_zero_of_mod_eq h.symm)
  have hle := Nat.le_of_dvd (by omega) hdvd
  omega

theorem getD_set_of_ne (h : i ≠ j) (o : Option α) : (cells.set j o).getD i none = cells.getD i none := by
  rw [List.getD_eq_getElem?_getD, List.getElem?_set_ne h.symm, List.getD_eq_getElem?_getD]

theorem contents_push (head : ℕ) (x : α) (hcount : count < cells.length) :
    contents (cells.set ((head + count) % cells.length) (some x)) head (count + 1) =
      contents cells head count ++ [some x] := by
  have hplace : (head + count) % cells.length < cells.length := Nat.mod_lt _ (Nat.zero_lt_of_lt hcount)
  rw [contents, List.length_set, List.range_succ, List.map_append]
  congr 1
  · apply List.map_congr_left
    intro i hi
    have hi := List.mem_range.mp hi
    exact getD_set_of_ne (mod_ne hi (by omega)) _
  · simp [List.getD_eq_getElem?_getD, List.getElem?_set_self hplace]

theorem contents_pop (hhead : head < cells.length) (hcount : count < cells.length) :
    contents cells head (count + 1) =
      cells.getD head none :: contents (cells.set head none) ((head + 1) % cells.length) count := by
  rw [contents, List.range_succ_eq_map, List.map_cons, List.map_map, Nat.add_zero, Nat.mod_eq_of_lt hhead, contents,
    List.length_set]
  congr 1
  apply List.map_congr_left
  intro i hi
  have hi := List.mem_range.mp hi
  have hplace : ((head + 1) % cells.length + i) % cells.length = (head + (i + 1)) % cells.length := by
    rw [Nat.mod_add_mod, Nat.add_assoc, Nat.add_comm 1 i]
  have hne : (head + (i + 1)) % cells.length ≠ head := by
    have hne : (head + 0) % cells.length ≠ (head + (i + 1)) % cells.length := mod_ne (Nat.succ_pos i) (by omega)
    rw [Nat.add_zero, Nat.mod_eq_of_lt hhead] at hne
    exact hne.symm
  rw [hplace, getD_set_of_ne hne]
  rfl

end RingBuffer

/-- A queue whose places are reserved in turn, filled in any order, and taken in turn. -/
structure ReservedQueue (α : Type u) where
  reserved : ℕ
  filled : ℕ → Option α
  taken : ℕ

namespace ReservedQueue

variable {α : Type u}

def empty : ReservedQueue α := ⟨0, fun _ => none, 0⟩

def reserve (q : ReservedQueue α) : ReservedQueue α := { q with reserved := q.reserved + 1 }

def fill (q : ReservedQueue α) (n : ℕ) (x : α) : ReservedQueue α :=
  { q with filled := Function.update q.filled n (some x) }

def front (q : ReservedQueue α) : Option α := q.filled q.taken

def take (q : ReservedQueue α) : ReservedQueue α := { q with taken := q.taken + 1 }

/-- What can happen to a queue. -/
inductive Move : ReservedQueue α → ReservedQueue α → Prop
  | stay : Move q q
  | reserve : Move q q.reserve
  | fill (n : ℕ) (x : α) : n < q.reserved → q.filled n = none → Move q (q.fill n x)
  | take (x : α) : q.front = some x → Move q q.take

variable {q q' : ReservedQueue α} {n m : ℕ} {x y : α}

theorem filled_fill_self : (q.fill n x).filled n = some x := Function.update_self ..

theorem filled_fill_of_ne (h : m ≠ n) : (q.fill n x).filled m = q.filled m := Function.update_of_ne h ..

theorem filled_fill_cases (h : (q.fill n x).filled m = some y) : m = n ∧ x = y ∨ m ≠ n ∧ q.filled m = some y := by
  by_cases hm : m = n
  · subst hm
    rw [filled_fill_self] at h
    exact .inl ⟨rfl, Option.some.inj h⟩
  · rw [filled_fill_of_ne hm] at h
    exact .inr ⟨hm, h⟩

/-- Only reserved places are filled. -/
def Bounded (q : ReservedQueue α) : Prop := ∀ n x, q.filled n = some x → n < q.reserved

theorem bounded_empty : (empty : ReservedQueue α).Bounded := by
  intro n x h
  cases h

theorem Bounded.move (h : q.Bounded) (hmove : Move q q') : q'.Bounded := by
  cases hmove with
  | stay => exact h
  | reserve => exact fun n x hx => Nat.lt_succ_of_lt (h n x hx)
  | fill n x hn _ =>
    intro m y hy
    cases filled_fill_cases hy with
    | inl heq => exact heq.1 ▸ hn
    | inr hy => exact h m y hy.2
  | take => exact h

theorem Move.keeps (hmove : Move q q') (h : q.filled n = some x) : q'.filled n = some x := by
  cases hmove with
  | stay => exact h
  | reserve => exact h
  | fill m y _ hnone =>
    rw [filled_fill_of_ne, h]
    rintro rfl
    exact absurd (hnone.symm.trans h) (by simp)
  | take => exact h

end ReservedQueue
