import Mathlib.Data.List.Basic
import Mathlib.Order.Lattice
import Mathlib.Logic.Function.Basic

universe u v

namespace Keyed

/-- A table of rows with a primary key. -/
structure Table {α : Type u} {κ : Type v} (key : α → κ) where
  rows : List α
  nodup : (rows.map key).Nodup

namespace Table

variable {α : Type u} {κ : Type v} {key : α → κ} [DecidableEq κ]
variable {t : Table key} {a b : α} {k : κ}

def empty : Table key := ⟨[], List.nodup_nil⟩

def find? (t : Table key) (k : κ) : Option α := t.rows.find? fun a => key a = k

theorem key_of_find? (h : t.find? k = some a) : key a = k := by
  simpa using List.find?_some h

theorem mem_of_find? (h : t.find? k = some a) : a ∈ t.rows := List.mem_of_find?_eq_some h

theorem find?_eq_none : t.find? k = none ↔ ∀ a ∈ t.rows, key a ≠ k := by
  simp [find?]

theorem find?_of_mem (h : a ∈ t.rows) : t.find? (key a) = some a := by
  obtain ⟨rows, hnodup⟩ := t
  simp only [find?] at h ⊢
  induction rows with
  | nil => cases h
  | cons b rows ih =>
    simp only [List.map_cons, List.nodup_cons] at hnodup
    rw [List.find?_cons]
    by_cases hab : key b = key a
    · rcases List.mem_cons.mp h with rfl | h
      · simp
      · exact absurd (List.mem_map.mpr ⟨a, h, hab.symm⟩) hnodup.1
    · rcases List.mem_cons.mp h with rfl | h
      · exact absurd rfl hab
      · simpa [hab] using ih hnodup.2 h

theorem find?_eq_some : t.find? k = some a ↔ a ∈ t.rows ∧ key a = k := by
  constructor
  · intro h
    exact ⟨mem_of_find? h, key_of_find? h⟩
  · rintro ⟨h, rfl⟩
    exact find?_of_mem h

theorem find?_perm {l : List α} (h : l.Perm t.rows) :
    l.find? (fun a => key a = k) = t.find? k := by
  have hnodup : (l.map key).Nodup := (h.map key).nodup_iff.mpr t.nodup
  change find? (⟨l, hnodup⟩ : Table key) k = _
  apply Option.ext
  intro a
  rw [find?_eq_some, find?_eq_some, h.mem_iff]

theorem filter_key (t : Table key) (k : κ) :
    t.rows.filter (fun a => key a = k) = (t.find? k).toList := by
  obtain ⟨rows, hnodup⟩ := t
  unfold find?
  induction rows with
  | nil => rfl
  | cons a rows ih =>
    rw [List.map_cons, List.nodup_cons] at hnodup
    by_cases hk : key a = k
    · have hrest : rows.filter (fun b => key b = k) = [] := by
        apply List.filter_eq_nil_iff.mpr
        intro b hb hkb
        rw [decide_eq_true_eq] at hkb
        exact hnodup.1 (List.mem_map.mpr ⟨b, hb, hkb.trans hk.symm⟩)
      simp [hk, hrest]
    · simpa [hk] using ih hnodup.2

@[simp] theorem find?_empty : (empty : Table key).find? k = none := rfl

/-- The rows `p` keeps. -/
def filter (t : Table key) (p : α → Bool) : Table key where
  rows := t.rows.filter p
  nodup := t.nodup.sublist (List.filter_sublist.map key)

theorem find?_filter (p : α → Bool) : (t.filter p).find? k = (t.find? k).filter p := by
  apply Option.ext
  intro a
  simp only [find?_eq_some, Option.filter_eq_some_iff, filter, List.mem_filter]
  tauto

/-- `INSERT`: refused when the key is taken. -/
def insert? (t : Table key) (a : α) : Option (Table key) :=
  if h : t.find? (key a) = none then
    some ⟨t.rows ++ [a], by
      rw [List.map_append, List.nodup_append]
      refine ⟨t.nodup, by simp, ?_⟩
      rintro k hk _ hk' rfl
      obtain ⟨b, hb, rfl⟩ := List.mem_map.mp hk
      have hab : key b = key a := by simpa using hk'
      exact find?_eq_none.mp h b hb hab⟩
  else none

theorem insert?_eq_none : t.insert? a = none ↔ t.find? (key a) ≠ none := by
  unfold insert?
  split <;> simp_all

theorem rows_insert? (h : t.insert? a = some t') : t'.rows = t.rows ++ [a] := by
  unfold insert? at h
  split at h
  · obtain rfl := Option.some.inj h
    rfl
  · cases h

theorem find?_insert? (h : t.insert? a = some t') :
    t'.find? = Function.update t.find? (key a) (some a) := by
  funext k
  have hfree : t.find? (key a) = none := by
    by_contra hne
    rw [insert?_eq_none.mpr hne] at h
    cases h
  rw [find?, rows_insert? h, List.find?_append]
  by_cases hk : k = key a
  · subst hk
    have : t.rows.find? (fun b => decide (key b = key a)) = none := hfree
    simp [this]
  · simp [hk, Ne.symm hk, find?]

/-- `INSERT OR REPLACE`. -/
def upsert (t : Table key) (a : α) : Table key where
  rows := t.rows.filter (fun b => key b ≠ key a) ++ [a]
  nodup := by
    rw [List.map_append, List.nodup_append]
    refine ⟨t.nodup.sublist (List.filter_sublist.map key), by simp, ?_⟩
    rintro k hk _ hk' rfl
    obtain ⟨b, hb, rfl⟩ := List.mem_map.mp hk
    have hne : key b ≠ key a := by simpa using (List.mem_filter.mp hb).2
    exact hne (by simpa using hk')

theorem find?_upsert : (t.upsert a).find? = Function.update t.find? (key a) (some a) := by
  funext k
  by_cases hk : k = key a
  · subst hk
    rw [Function.update_self]
    exact find?_eq_some.mpr ⟨by simp [upsert], rfl⟩
  · rw [Function.update_of_ne hk]
    apply Option.ext
    intro b
    simp only [find?_eq_some, upsert, List.mem_append, List.mem_filter, List.mem_singleton]
    constructor
    · rintro ⟨⟨hb, _⟩ | rfl, rfl⟩
      · exact ⟨hb, rfl⟩
      · exact absurd rfl hk
    · rintro ⟨hb, rfl⟩
      exact ⟨Or.inl ⟨hb, by simpa using hk⟩, rfl⟩

/-- `INSERT OR IGNORE`. -/
def insertIgnore (t : Table key) (a : α) : Table key := (t.insert? a).getD t

theorem insertIgnore_of_free (h : t.find? (key a) = none) :
    t.insert? a = some (t.insertIgnore a) := by
  unfold insertIgnore
  cases hi : t.insert? a with
  | none => exact absurd h (insert?_eq_none.mp hi)
  | some t' => rfl

theorem rows_insertIgnore (h : t.find? (key a) = none) :
    (t.insertIgnore a).rows = t.rows ++ [a] := rows_insert? (insertIgnore_of_free h)

theorem length_insertIgnore_le : (t.insertIgnore a).rows.length ≤ t.rows.length + 1 := by
  unfold insertIgnore
  cases h : t.insert? a with
  | none => exact Nat.le_succ _
  | some t' => simp [rows_insert? h]

theorem find?_insertIgnore :
    (t.insertIgnore a).find? k = (t.find? k).or (if key a = k then some a else none) := by
  unfold insertIgnore
  cases h : t.insert? a with
  | none =>
    have hne := insert?_eq_none.mp h
    by_cases hk : key a = k
    · subst hk
      cases hf : t.find? (key a) with
      | none => exact absurd hf hne
      | some b => simp [hf]
    · simp [hk]
  | some t' =>
    have hfree : t.find? (key a) = none := by
      by_contra hne
      rw [insert?_eq_none.mpr hne] at h
      cases h
    simp only [Option.getD_some, find?_insert? h]
    by_cases hk : key a = k
    · subst hk
      simp [hfree]
    · simp [hk, Ne.symm hk]

theorem mem_insertIgnore (h : b ∈ (t.insertIgnore a).rows) : b ∈ t.rows ∨ b = a := by
  unfold insertIgnore at h
  cases hi : t.insert? a with
  | none =>
    rw [hi] at h
    exact .inl h
  | some t' =>
    rw [hi] at h
    change b ∈ t'.rows at h
    rw [rows_insert? hi, List.mem_append, List.mem_singleton] at h
    exact h

theorem mem_insertIgnore_of_mem (a : α) (h : b ∈ t.rows) : b ∈ (t.insertIgnore a).rows := by
  unfold insertIgnore
  cases hi : t.insert? a with
  | none => exact h
  | some t' =>
    change b ∈ t'.rows
    rw [rows_insert? hi]
    exact List.mem_append_left _ h

theorem insertIgnore_ne_nil (t : Table key) (a : α) : (t.insertIgnore a).rows ≠ [] := by
  intro hnil
  have hfind : (t.insertIgnore a).find? (key a) = none := by
    rw [find?, hnil]
    rfl
  rw [find?_insertIgnore, if_pos rfl] at hfind
  cases hold : t.find? (key a) with
  | none => rw [hold] at hfind; cases hfind
  | some _ => rw [hold] at hfind; cases hfind

/-- `UPDATE … WHERE p`, of columns other than the key. -/
def modify (t : Table key) (p : α → Bool) (f : α → α) (hf : ∀ a, key (f a) = key a) :
    Table key where
  rows := t.rows.map fun a => if p a then f a else a
  nodup := by
    have hkeys : (t.rows.map fun a => if p a then f a else a).map key = t.rows.map key := by
      rw [List.map_map]
      refine List.map_congr_left fun a _ => ?_
      simp only [Function.comp_apply]
      split
      · exact hf a
      · rfl
    rw [hkeys]
    exact t.nodup

theorem find?_modify {p : α → Bool} {f : α → α} (hf : ∀ a, key (f a) = key a) :
    (t.modify p f hf).find? k = (t.find? k).map fun a => if p a then f a else a := by
  have hkey : ∀ a, key (if p a then f a else a) = key a := fun a => by
    split
    · exact hf a
    · rfl
  apply Option.ext
  intro b
  simp only [find?_eq_some, Option.map_eq_some_iff, modify, List.mem_map]
  constructor
  · rintro ⟨⟨a, ha, rfl⟩, rfl⟩
    exact ⟨a, ⟨ha, (hkey a).symm⟩, rfl⟩
  · rintro ⟨a, ⟨ha, rfl⟩, rfl⟩
    exact ⟨⟨a, ha, rfl⟩, hkey a⟩

def insertAll? (t : Table key) : List α → Option (Table key)
  | [] => some t
  | a :: l => (t.insert? a).bind fun t => t.insertAll? l

def insertMissing (t : Table key) (l : List α) : Table key := l.foldl insertIgnore t

theorem length_insertMissing_le (l : List α) :
    (t.insertMissing l).rows.length ≤ t.rows.length + l.length := by
  induction l generalizing t with
  | nil => exact Nat.le_refl _
  | cons a l ih =>
    have hrest : ((t.insertIgnore a).insertMissing l).rows.length ≤ _ := ih
    have hfirst : (t.insertIgnore a).rows.length ≤ t.rows.length + 1 := length_insertIgnore_le
    rw [List.length_cons]
    change ((t.insertIgnore a).insertMissing l).rows.length ≤ _
    omega

theorem find?_insertMissing (l : List α) : (t.insertMissing l).find? k =
    (t.find? k).or (l.find? fun a => key a = k) := by
  unfold insertMissing
  induction l generalizing t with
  | nil => simp
  | cons a l ih =>
    rw [List.foldl_cons, ih, find?_insertIgnore, List.find?_cons, Option.or_assoc]
    by_cases hk : key a = k <;> simp [hk]

theorem find?_insertMissing_twice (l : List α) :
    ((t.insertMissing l).insertMissing l).find? = (t.insertMissing l).find? := by
  funext k
  rw [find?_insertMissing, find?_insertMissing, Option.or_assoc, Option.or_self]

theorem find?_foldl_upsert (l : List α) : (l.foldl upsert t).find? k =
    (l.reverse.find? fun a => key a = k).or (t.find? k) := by
  induction l generalizing t with
  | nil => rfl
  | cons a l ih =>
    rw [List.foldl_cons, ih, List.reverse_cons, List.find?_append, Option.or_assoc, find?_upsert]
    by_cases hk : key a = k
    · subst hk
      simp
    · simp [hk, Function.update_of_ne (Ne.symm hk)]

theorem find?_foldl_upsert_twice (l : List α) :
    (l.foldl upsert (l.foldl upsert t)).find? = (l.foldl upsert t).find? := by
  funext k
  rw [find?_foldl_upsert, find?_foldl_upsert, ← Option.or_assoc, Option.or_self]

theorem rows_insertAll? (l : List α) : t.insertAll? l = some t' → t'.rows = t.rows ++ l := by
  intro h
  induction l generalizing t with
  | nil =>
    obtain rfl := Option.some.inj h
    simp
  | cons a l ih =>
    obtain ⟨t₁, h₁, h⟩ := Option.bind_eq_some_iff.mp h
    rw [ih h, rows_insert? h₁]
    simp

theorem insertAll?_of_rows (l : List α) (h : t'.rows = t.rows ++ l) : t.insertAll? l = some t' := by
  induction l generalizing t with
  | nil =>
    cases t
    cases t'
    simp_all [insertAll?]
  | cons a l ih =>
    have hfree : t.find? (key a) = none := by
      rw [find?_eq_none]
      intro b hb hab
      have hnodup := t'.nodup
      rw [h, List.map_append, List.nodup_append] at hnodup
      exact hnodup.2.2 _ (List.mem_map_of_mem hb) _ (List.mem_map_of_mem List.mem_cons_self) hab
    rw [insertAll?, insertIgnore_of_free hfree, Option.bind_some]
    apply ih
    rw [h, rows_insertIgnore hfree]
    simp

theorem insertAll?_empty (l : List α) :
    (empty : Table key).insertAll? l = some t' ↔ t'.rows = l := by
  constructor
  · intro h
    simpa [empty] using rows_insertAll? l h
  · intro h
    exact insertAll?_of_rows l (by simpa [empty] using h)

section LastWriter

variable {τ : Type*} [LinearOrder τ] {stamp : α → τ}

def write (stamp : α → τ) (t : Table key) (a : α) : Table key :=
  match t.find? (key a) with
  | some b => if stamp a ≤ stamp b then t else t.upsert a
  | none => t.upsert a

def merge (stamp : α → τ) (t : Table key) (l : List α) : Table key := l.foldl (write stamp) t

def later (stamp : α → τ) : Option α → Option α → Option α
  | some b, some a => if stamp a ≤ stamp b then some b else some a
  | some b, none => some b
  | none, w => w

/-- The row of a list that wins the key `k`. -/
def winner (key : α → κ) (stamp : α → τ) (k : κ) : List α → Option α
  | [] => none
  | a :: l => later stamp (if key a = k then some a else none) (winner key stamp k l)

@[simp] theorem later_none (w : Option α) : later stamp w none = w := by
  cases w <;> rfl

@[simp] theorem none_later (w : Option α) : later stamp none w = w := rfl

theorem later_assoc (x y z : Option α) :
    later stamp (later stamp x y) z = later stamp x (later stamp y z) := by
  cases x with
  | none => rfl
  | some a =>
    cases y with
    | none => rfl
    | some b =>
      cases z with
      | none => simp
      | some c =>
        simp only [later]
        rcases le_or_gt (stamp b) (stamp a) with hab | hab
        · rcases le_or_gt (stamp c) (stamp b) with hbc | hbc
          · simp [hab, hbc, hbc.trans hab]
          · simp [hab, not_le.mpr hbc]
        · rcases le_or_gt (stamp c) (stamp b) with hbc | hbc
          · simp [not_le.mpr hab, hbc]
          · simp [not_le.mpr hab, not_le.mpr hbc, not_le.mpr (hab.trans hbc)]

theorem find?_write : (t.write stamp a).find? k =
    later stamp (t.find? k) (if key a = k then some a else none) := by
  unfold write
  by_cases hk : key a = k
  · subst hk
    cases h : t.find? (key a) with
    | none => simp [find?_upsert]
    | some b =>
      by_cases hle : stamp a ≤ stamp b
      · simp [hle, later, h]
      · simp [hle, later, find?_upsert]
  · have hstay : (t.upsert a).find? k = t.find? k := by
      rw [find?_upsert, Function.update_of_ne (Ne.symm hk)]
    cases h : t.find? (key a) with
    | none => simp [hk, hstay]
    | some b =>
      by_cases hle : stamp a ≤ stamp b
      · simp [hle, hk]
      · simp [hle, hk, hstay]

theorem find?_merge (l : List α) :
    (t.merge stamp l).find? k = later stamp (t.find? k) (winner key stamp k l) := by
  unfold merge
  induction l generalizing t with
  | nil => simp [winner]
  | cons a l ih => rw [List.foldl_cons, ih, find?_write, winner, later_assoc]

@[simp] theorem later_self (w : Option α) : later stamp w w = w := by
  cases w with
  | none => rfl
  | some a => exact if_pos (le_refl _)

theorem find?_merge_twice (l : List α) :
    ((t.merge stamp l).merge stamp l).find? = (t.merge stamp l).find? := by
  funext k
  rw [find?_merge, find?_merge, later_assoc, later_self]

theorem winner_of_nodup (l : List α) (h : (l.map key).Nodup) :
    winner key stamp k l = l.find? fun a => key a = k := by
  induction l with
  | nil => rfl
  | cons a l ih =>
    simp only [List.map_cons, List.nodup_cons] at h
    rw [winner, ih h.2, List.find?_cons]
    by_cases hk : key a = k
    · have : l.find? (fun b => key b = k) = none := by
        rw [List.find?_eq_none]
        intro b hb
        simpa [hk] using fun hbk : key b = k => h.1 (List.mem_map.mpr ⟨b, hb, hbk.trans hk.symm⟩)
      simp [hk, this]
    · simp [hk]

end LastWriter

section Exchange

/-- How two sides take over each other's rows: at the same time, or one after the other. -/
inductive Turn
  | crossing
  | inTurn

def Turn.sent {α : Type*} : Turn → α → α → α
  | crossing, x, _ => x
  | inTurn, _, x' => x'

/-- Two sides that merge by a rule hold the same row afterwards. -/
def Meets (f : Option α → Option α → Option α) (turn : Turn) (x y : Option α) : Prop :=
  f x y = f y (turn.sent x (f x y))

theorem meets_iff {σ : Type*} {f : Option α → Option α → Option α} {turn : Turn} {s s' : σ} {y y' : Option α}
    (row : σ → Option α) (hfirst : row s' = f (row s) y) (hsecond : y' = f y (row (turn.sent s s'))) :
    row s' = y' ↔ Meets f turn (row s) y := by
  have hsent : row (turn.sent s s') = turn.sent (row s) (row s') := by
    cases turn <;> rfl
  rw [hsecond, hsent, Meets, ← hfirst]

def overwrite (p : α → Bool) (x y : Option α) : Option α := (y.filter p).or x

variable {τ : Type*} [LinearOrder τ] {stamp : α → τ} {x y : Option α}

theorem meets_later_iff (turn : Turn) : Meets (later stamp) turn x y ↔
    ∀ a ∈ x, ∀ b ∈ y, stamp a = stamp b → a = b := by
  cases x with
  | none => cases y <;> cases turn <;> simp [Meets, Turn.sent]
  | some a =>
    cases y with
    | none => cases turn <;> simp [Meets, Turn.sent]
    | some b =>
      rcases lt_trichotomy (stamp a) (stamp b) with hlt | heq | hlt
      · cases turn <;> simp [Meets, Turn.sent, later, not_le.mpr hlt, hlt.ne, hlt.le]
      · cases turn <;> simp [Meets, Turn.sent, later, heq]
      · cases turn <;> simp [Meets, Turn.sent, later, not_le.mpr hlt, hlt.ne', hlt.le]

theorem meets_or_iff (turn : Turn) : Meets Option.or turn x y ↔ ∀ a ∈ x, ∀ b ∈ y, a = b := by
  cases x <;> cases y <;> cases turn <;> simp [Meets, Turn.sent]

@[simp] theorem overwrite_none (p : α → Bool) (x : Option α) : overwrite p x none = x := rfl

theorem overwrite_some (p : α → Bool) (x : Option α) (b : α) :
    overwrite p x (some b) = if p b then some b else x := by
  cases hb : p b with
  | true =>
    rw [overwrite, Option.filter_some_pos hb]
    rfl
  | false =>
    rw [overwrite, Option.filter_some_neg hb]
    rfl

theorem meets_overwrite_iff (p : α → Bool) (turn : Turn) : Meets (overwrite p) turn x y ↔
    (∀ a ∈ x, p a = false → y ≠ none) ∧ (∀ b ∈ y, p b = false → x ≠ none) ∧
      ∀ a ∈ x, ∀ b ∈ y, p a = p b → (turn = .inTurn → p a = false) → a = b := by
  cases x with
  | none =>
    cases y with
    | none => cases turn <;> simp [Meets, Turn.sent]
    | some b => cases turn <;> cases hb : p b <;> simp [Meets, Turn.sent, overwrite_some, hb]
  | some a =>
    cases y with
    | none => cases turn <;> cases ha : p a <;> simp [Meets, Turn.sent, overwrite_some, ha]
    | some b =>
      have hflip : b = a ↔ a = b := eq_comm
      cases turn <;> cases ha : p a <;> cases hb : p b <;>
        simp [Meets, Turn.sent, overwrite_some, ha, hb, hflip]

end Exchange

end Table

end Keyed
