import Mathlib.Data.BitVec
import Mathlib.Logic.Function.Basic

universe u v

/-! A cache of slots that are searched from a hashed one on for a bounded number of probes. What finds no
room there takes its home slot from the entry that is in it. -/

namespace ProbeCache

def probes (home mask : BitVec w) (n : ℕ) : List (BitVec w) :=
  (List.range n).map fun probe => (home + BitVec.ofNat w probe) &&& mask

variable {σ : Type u} {ε : Type v} {slot : σ → Option ε} {hit : ε → Bool} {is : List σ}

def search (slot : σ → Option ε) (hit : ε → Bool) : List σ → Option ε
  | [] => none
  | i :: is =>
    match slot i with
    | none => none
    | some e => if hit e then some e else search slot hit is

def place (slot : σ → Option ε) (hit : ε → Bool) (home : σ) : List σ → σ
  | [] => home
  | i :: is =>
    match slot i with
    | none => i
    | some e => if hit e then i else place slot hit home is

def insert [DecidableEq σ] (slot : σ → Option ε) (hit : ε → Bool) (home : σ) (is : List σ) (e : ε) :
    σ → Option ε :=
  Function.update slot (place slot hit home is) (some e)

theorem search_some (h : search slot hit is = some e) : hit e = true ∧ ∃ i, slot i = some e := by
  induction is with
  | nil => cases h
  | cons i is ih =>
    unfold search at h
    cases hslot : slot i with
    | none =>
      rw [hslot] at h
      cases h
    | some e' =>
      simp only [hslot] at h
      split at h
      · cases h
        exact ⟨‹_›, i, hslot⟩
      · exact ih h

/-- What is true of every entry. -/
def Stores (P : ε → Prop) (slot : σ → Option ε) : Prop := ∀ i e, slot i = some e → P e

namespace Stores

variable {P Q : ε → Prop}

theorem empty : Stores P fun _ : σ => none := fun _ _ h => absurd h (Option.some_ne_none _).symm

theorem mono (h : Stores P slot) (himp : ∀ e, P e → Q e) : Stores Q slot := fun i e he => himp e (h i e he)

theorem insert [DecidableEq σ] (h : Stores P slot) {home : σ} (he : P e) :
    Stores P (insert slot hit home is e) := by
  intro i e' he'
  unfold ProbeCache.insert at he'
  rw [Function.update_apply] at he'
  split at he'
  · cases he'
    exact he
  · exact h i e' he'

theorem of_search (h : Stores P slot) (hsearch : search slot hit is = some e) : hit e = true ∧ P e := by
  obtain ⟨hhit, i, hslot⟩ := search_some hsearch
  exact ⟨hhit, h i e hslot⟩

end Stores

end ProbeCache
