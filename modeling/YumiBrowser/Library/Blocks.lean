import YumiBrowser.Library.ByteCodec
import Mathlib.Algebra.BigOperators.Group.List.Basic
import Mathlib.Algebra.GroupWithZero.Nat
import Mathlib.Algebra.Order.BigOperators.Group.List
import Mathlib.Algebra.Order.Group.Nat

universe u v

/-! Programs that read and write blocks of memory, and that stop at the first access outside of one. -/

namespace Blocks

inductive Fault
  | read (off len size : ℕ)
  | write (off len size : ℕ)
  -- a loop that has had all of its rounds
  | stuck
  deriving DecidableEq

abbrev Checked (α : Type u) : Type u := Except Fault α

/-- An array of a fixed size. -/
structure Block (α : Type u) (n : ℕ) where
  cells : List α
  size : cells.length = n

section Access

variable {α : Type u} {n : ℕ}

def readAt (buf : List α) (off : ℕ) : Checked α :=
  if h : off < buf.length then .ok (buf.get ⟨off, h⟩) else .error (.read off 1 buf.length)

def readMany (buf : List α) (off len : ℕ) : Checked (List α) :=
  if off + len ≤ buf.length then .ok ((buf.drop off).take len) else .error (.read off len buf.length)

def readArray (buf : List α) (off n : ℕ) : Checked (Block α n) :=
  if h : off + n ≤ buf.length then
    .ok ⟨(buf.drop off).take n, by rw [List.length_take, List.length_drop]; omega⟩
  else .error (.read off n buf.length)

def readPtr (ptr : Option (List α)) (len : ℕ) : Checked (List α) := readMany (ptr.getD []) 0 len

def writeAt (buf : List α) (off : ℕ) (a : α) : Checked (List α) :=
  if off < buf.length then .ok (buf.set off a) else .error (.write off 1 buf.length)

/-- The cells from `off` on become those of `src`. -/
def splice (buf : List α) (off : ℕ) (src : List α) : List α :=
  buf.take off ++ (src ++ buf.drop (off + src.length))

def memcpy (buf : List α) (off : ℕ) (src : List α) : Checked (List α) :=
  if off + src.length ≤ buf.length then .ok (splice buf off src) else .error (.write off src.length buf.length)

/-- `if (len > 0) memcpy(buf + off, src, len);` -/
def copyNonempty (buf : List α) (off : ℕ) (src : List α) : Checked (List α) :=
  if src.length = 0 then .ok buf else memcpy buf off src

theorem length_splice {buf src : List α} (h : off + src.length ≤ buf.length) :
    (splice buf off src).length = buf.length := by
  rw [splice, List.length_append, List.length_append, List.length_take, List.length_drop]
  omega

theorem take_splice {buf src : List α} (h : off ≤ buf.length) :
    (splice buf off src).take (off + src.length) = buf.take off ++ src := by
  have hlen : (buf.take off).length = off := by rw [List.length_take, Nat.min_eq_left h]
  rw [splice, ← List.append_assoc]
  exact List.take_left' (by rw [List.length_append, hlen])

theorem take_splice_start (buf src : List α) : (splice buf 0 src).take src.length = src := by
  rw [splice, List.take_zero, List.nil_append]
  exact List.take_left' rfl

theorem splice_append (front back src : List α) :
    splice (front ++ back) front.length src = front ++ (src ++ back.drop src.length) := by
  rw [splice, List.take_left' rfl, List.drop_append, List.drop_of_length_le (Nat.le_add_right _ _), List.nil_append,
    Nat.add_sub_cancel_left]

theorem take_set_succ {buf : List α} {a : α} (h : off < buf.length) :
    (buf.set off a).take (off + 1) = buf.take off ++ [a] := by
  rw [List.take_succ_eq_append_getElem (by rwa [List.length_set]), List.getElem_set_self,
    List.take_set_of_le (Nat.le_refl _)]

theorem splice_whole {buf src : List α} (h : src.length = buf.length) : splice buf 0 src = src := by
  rw [splice, List.take_zero, List.nil_append, Nat.zero_add, h, List.drop_length, List.append_nil]

theorem getElem?_splice {buf src : List α} (h : off + src.length ≤ buf.length) (i : ℕ) :
    (splice buf off src)[i]? = if off ≤ i ∧ i < off + src.length then src[i - off]? else buf[i]? := by
  have hfront : (buf.take off).length = off := by rw [List.length_take, Nat.min_eq_left (by omega)]
  rw [splice, List.getElem?_append, hfront]
  by_cases hi : i < off
  · rw [if_pos hi, if_neg (by omega), List.getElem?_take_of_lt hi]
  · rw [if_neg hi, List.getElem?_append]
    by_cases hsrc : i - off < src.length
    · rw [if_pos hsrc, if_pos (by omega)]
    · rw [if_neg hsrc, if_neg (by omega), List.getElem?_drop]
      congr 1
      omega

namespace Block

def fill (n : ℕ) (a : α) : Block α n := ⟨List.replicate n a, List.length_replicate⟩

def set (b : Block α n) (off : ℕ) (a : α) : Block α n := ⟨b.cells.set off a, by rw [List.length_set, b.size]⟩

def writeAt (b : Block α n) (off : ℕ) (a : α) : Checked (Block α n) :=
  if off < n then .ok (b.set off a) else .error (.write off 1 n)

def memcpy (b : Block α n) (off : ℕ) (src : List α) : Checked (Block α n) :=
  if h : off + src.length ≤ n then
    .ok ⟨splice b.cells off src, by rw [length_splice (by rw [b.size]; exact h), b.size]⟩
  else .error (.write off src.length n)

theorem getElem?_set {b : Block α n} {a : α} (h : off < n) (i : ℕ) :
    (b.set off a).cells[i]? = if off = i then some a else b.cells[i]? := by
  rw [set, List.getElem?_set, b.size, if_pos h]

theorem take_splice {b b' : Block α n} {src : List α} (hoff : off + src.length ≤ n)
    (h : b'.cells = splice b.cells off src) : b'.cells.take (off + src.length) = b.cells.take off ++ src := by
  rw [h, Blocks.take_splice (by rw [b.size]; omega)]

def toBytes {n : ℕ} (b : Block Wire.Byte n) : Wire.Bytes n := ⟨b.cells, b.size⟩

end Block

end Access

/-- The program ends, and without a fault, in a result that satisfies `Q`. -/
def Safe {α : Type u} (x : Checked α) (Q : α → Prop) : Prop := ∃ a, x = .ok a ∧ Q a

namespace Safe

variable {α β : Type u} {x y : Checked α} {f : α → Checked β} {P Q : α → Prop} {R : β → Prop} {a : α}

theorem ok (h : Q a) : Safe (.ok a) Q := ⟨a, rfl, h⟩

theorem mono (h : Safe x P) (hPQ : ∀ a, P a → Q a) : Safe x Q := by
  obtain ⟨a, hx, ha⟩ := h
  exact ⟨a, hx, hPQ a ha⟩

theorem bind (h : Safe x P) (hf : ∀ a, P a → Safe (f a) R) : Safe (x >>= f) R := by
  obtain ⟨a, rfl, ha⟩ := h
  exact hf a ha

theorem ite {c : Prop} [Decidable c] (hx : c → Safe x Q) (hy : ¬ c → Safe y Q) :
    Safe (if c then x else y) Q := by
  by_cases hc : c
  · rw [if_pos hc]
    exact hx hc
  · rw [if_neg hc]
    exact hy hc

theorem foldlM {γ : Type v} {step : α → γ → Checked α} (I : ℕ → α → Prop) (xs : List γ)
    (hstep : ∀ i a c, xs[i]? = some c → I i a → Safe (step a c) (I (i + 1))) (h : I 0 a) :
    Safe (xs.foldlM step a) (I xs.length) := by
  induction xs generalizing a I with
  | nil => exact ok h
  | cons c xs ih =>
    rw [List.foldlM_cons]
    refine bind (hstep 0 a c rfl h) fun b hb => ?_
    exact ih (fun i => I (i + 1)) (fun i a c hc ha => hstep (i + 1) a c hc ha) hb

theorem forRange {step : α → ℕ → Checked α} (I : ℕ → α → Prop) (k : ℕ)
    (hstep : ∀ i a, i < k → I i a → Safe (step a i) (I (i + 1))) (h : I 0 a) :
    Safe ((List.range k).foldlM step a) (I k) := by
  have hloop := foldlM I (List.range k) (fun i a c hc ha => by
    obtain ⟨hi, rfl⟩ := List.getElem?_eq_some_iff.mp hc
    rw [List.getElem_range]
    rw [List.length_range] at hi
    exact hstep i a hi ha) h
  rwa [List.length_range] at hloop

variable {γ : Type u} {n off len : ℕ} {buf src : List γ}

theorem readAt {f : γ → Checked β} (h : off < buf.length) (hf : Safe (f (buf.get ⟨off, h⟩)) R) :
    Safe (Blocks.readAt buf off >>= f) R := by
  rw [Blocks.readAt, dif_pos h]
  exact hf

theorem readCell {f : γ → Checked β} {a : γ} (h : buf[off]? = some a) (hf : Safe (f a) R) :
    Safe (Blocks.readAt buf off >>= f) R := by
  obtain ⟨hoff, rfl⟩ := List.getElem?_eq_some_iff.mp h
  exact readAt hoff hf

theorem readMany {f : List γ → Checked β} (h : off + len ≤ buf.length)
    (hf : Safe (f ((buf.drop off).take len)) R) : Safe (Blocks.readMany buf off len >>= f) R := by
  rw [Blocks.readMany, if_pos h]
  exact hf

theorem readPtr {ptr : Option (List γ)} {f : List γ → Checked β} (h : len ≤ (ptr.getD []).length)
    (hf : Safe (f ((ptr.getD []).take len)) R) : Safe (Blocks.readPtr ptr len >>= f) R := by
  refine readMany (by rwa [Nat.zero_add]) ?_
  rwa [List.drop_zero]

theorem readArray {f : Block γ n → Checked β} (h : off + n ≤ buf.length)
    (hf : ∀ b : Block γ n, b.cells = (buf.drop off).take n → Safe (f b) R) :
    Safe (Blocks.readArray buf off n >>= f) R := by
  rw [Blocks.readArray, dif_pos h]
  exact hf _ rfl

theorem writeAt {f : List γ → Checked β} {a : γ} (h : off < buf.length) (hf : Safe (f (buf.set off a)) R) :
    Safe (Blocks.writeAt buf off a >>= f) R := by
  rw [Blocks.writeAt, if_pos h]
  exact hf

theorem memcpy {f : List γ → Checked β} (h : off + src.length ≤ buf.length)
    (hf : Safe (f (splice buf off src)) R) : Safe (Blocks.memcpy buf off src >>= f) R := by
  rw [Blocks.memcpy, if_pos h]
  exact hf

theorem extend {f : List γ → Checked β} (h : off + src.length ≤ buf.length)
    (hf : ∀ buf' : List γ, buf'.length = buf.length → buf'.take (off + src.length) = buf.take off ++ src →
      Safe (f buf') R) :
    Safe (Blocks.memcpy buf off src >>= f) R :=
  memcpy h (hf _ (length_splice h) (take_splice (Nat.le_of_add_right_le h)))

theorem extendNonempty {f : List γ → Checked β} (h : off + src.length ≤ buf.length)
    (hf : ∀ buf' : List γ, buf'.length = buf.length → buf'.take (off + src.length) = buf.take off ++ src →
      Safe (f buf') R) :
    Safe (copyNonempty buf off src >>= f) R := by
  by_cases hempty : src.length = 0
  · have hnil := List.length_eq_zero_iff.mp hempty
    rw [copyNonempty, if_pos hempty]
    refine hf buf rfl ?_
    rw [hnil, List.append_nil]
    rfl
  · rw [copyNonempty, if_neg hempty]
    exact extend h hf

theorem extendCell {f : List γ → Checked β} {a : γ} (h : off < buf.length)
    (hf : ∀ buf' : List γ, buf'.length = buf.length → buf'.take (off + 1) = buf.take off ++ [a] → Safe (f buf') R) :
    Safe (Blocks.writeAt buf off a >>= f) R :=
  writeAt h (hf _ List.length_set (take_set_succ h))

theorem writeBlock {b : Block γ n} {f : Block γ n → Checked β} {a : γ} (h : off < n)
    (hf : Safe (f (b.set off a)) R) : Safe (b.writeAt off a >>= f) R := by
  rw [Block.writeAt, if_pos h]
  exact hf

theorem copyBlock {b : Block γ n} {f : Block γ n → Checked β} (h : off + src.length ≤ n)
    (hf : ∀ b' : Block γ n, b'.cells = splice b.cells off src → Safe (f b') R) :
    Safe (b.memcpy off src >>= f) R := by
  rw [Block.memcpy, dif_pos h]
  exact hf _ rfl

end Safe

def weight {α : Type u} (w : α → ℕ) (cells : List α) : ℕ := (cells.map w).sum

def sumLen {α : Type u} (bufs : List (List α)) : ℕ := weight List.length bufs

section Weight

variable {α : Type u} (w : α → ℕ) {cells : List α} {a b : α} {i j : ℕ}

theorem weight_append (xs ys : List α) : weight w (xs ++ ys) = weight w xs + weight w ys := by
  rw [weight, List.map_append, List.sum_append]
  rfl

theorem weight_singleton (x : α) : weight w [x] = w x := by
  rw [weight, List.map_singleton, List.sum_singleton]

theorem weight_cons (x : α) (xs : List α) : weight w (x :: xs) = w x + weight w xs := by
  rw [weight, List.map_cons, List.sum_cons]
  rfl

theorem weight_eq_zero (h : ∀ x ∈ cells, w x = 0) : weight w cells = 0 := by
  refine List.sum_eq_zero fun n hn => ?_
  obtain ⟨x, hx, rfl⟩ := List.mem_map.mp hn
  exact h x hx

theorem weight_le_length (h : ∀ x, w x ≤ 1) (cells : List α) : weight w cells ≤ cells.length := by
  induction cells with
  | nil => exact Nat.le_refl _
  | cons x xs ih =>
    have hx := h x
    rw [weight_cons, List.length_cons]
    omega

theorem weight_set (h : cells[i]? = some a) : weight w (cells.set i b) + w a = weight w cells + w b := by
  induction cells generalizing i with
  | nil => cases h
  | cons x xs ih =>
    cases i with
    | zero =>
      obtain rfl := Option.some.inj h
      rw [List.set_cons_zero, weight_cons, weight_cons]
      omega
    | succ i =>
      have hrest := ih (i := i) h
      rw [List.set_cons_succ, weight_cons, weight_cons]
      omega

theorem weight_take_succ (h : cells[i]? = some a) : weight w (cells.take (i + 1)) = weight w (cells.take i) + w a := by
  rw [List.take_add_one, h, weight_append]
  exact congrArg _ (weight_singleton w a)

theorem weight_take_mono (h : i ≤ j) : weight w (cells.take i) ≤ weight w (cells.take j) := by
  obtain ⟨k, rfl⟩ := Nat.exists_eq_add_of_le h
  rw [List.take_add, weight_append]
  exact Nat.le_add_right _ _

theorem weight_take_le (cells : List α) (i : ℕ) : weight w (cells.take i) ≤ weight w cells := by
  have hsplit := weight_append w (cells.take i) (cells.drop i)
  rw [List.take_append_drop] at hsplit
  omega

theorem sumLen_append (xs ys : List (List α)) : sumLen (xs ++ ys) = sumLen xs + sumLen ys :=
  weight_append _ xs ys

theorem sumLen_singleton (x : List α) : sumLen [x] = x.length := weight_singleton _ x

@[simp] theorem sumLen_nil : sumLen ([] : List (List α)) = 0 := rfl

end Weight

def sub32 (a b : ℕ) : ℕ := (BitVec.ofNat 32 a - BitVec.ofNat 32 b).toNat

theorem sub32_of_le {a b : ℕ} (h : b ≤ a) (ha : a < 2 ^ 32) : sub32 a b = a - b := by
  rw [sub32, BitVec.toNat_sub, BitVec.toNat_ofNat, BitVec.toNat_ofNat]
  omega

end Blocks
