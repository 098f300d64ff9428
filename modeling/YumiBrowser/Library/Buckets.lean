import Mathlib.Data.Finset.Card
import Mathlib.Data.List.Nodup

universe u v w

namespace Buckets

variable {κ : Type u} {α : Type v} {σ : Type w} [DecidableEq κ]

def see (cap : ℕ) (seen : List κ) (k : κ) : List κ :=
  if k ∈ seen then seen else if seen.length < cap then seen ++ [k] else seen

variable (key : α → κ) (zero : σ) (add : σ → α → σ) (cap : ℕ)

def total (as : List α) (k : κ) : σ := (as.filter fun a => key a = k).foldl add zero

def put (bs : List (κ × σ)) (a : α) : List (κ × σ) :=
  if key a ∈ bs.map Prod.fst then bs.map fun b => if b.1 = key a then (b.1, add b.2 a) else b
  else if bs.length < cap then bs ++ [(key a, add zero a)]
  else bs

def gather (as : List α) : List (κ × σ) := as.foldl (put key zero add cap) []

variable {key zero add cap} {as : List α}

theorem keys_put (bs : List (κ × σ)) (a : α) :
    (put key zero add cap bs a).map Prod.fst = see cap (bs.map Prod.fst) (key a) := by
  unfold put see
  split
  · rw [List.map_map]
    apply List.map_congr_left
    intro b _
    simp only [Function.comp_apply]
    split <;> rfl
  · rw [List.length_map]
    split
    · rw [List.map_append]
      rfl
    · rfl

theorem keys_gather (key : α → κ) (zero : σ) (add : σ → α → σ) (cap : ℕ) (as : List α) :
    (gather key zero add cap as).map Prod.fst = (as.map key).foldl (see cap) [] := by
  induction as using List.reverseRecOn with
  | nil => rfl
  | append_singleton as a ih =>
    rw [gather, List.foldl_append, List.map_append, List.foldl_append, ← ih]
    exact keys_put _ a

theorem foldl_see {ks : List κ} (hroom : ks.toFinset.card ≤ cap) :
    (ks.foldl (see cap) []).Nodup ∧ ∀ k, k ∈ ks.foldl (see cap) [] ↔ k ∈ ks := by
  induction ks using List.reverseRecOn with
  | nil => exact ⟨List.nodup_nil, fun k => Iff.rfl⟩
  | append_singleton ks x ih =>
    have hsub : ks.toFinset ⊆ (ks ++ [x]).toFinset := by
      intro k hk
      simp only [List.mem_toFinset, List.mem_append] at hk ⊢
      exact .inl hk
    obtain ⟨hnodup, hmem⟩ := ih ((Finset.card_le_card hsub).trans hroom)
    rw [List.foldl_append, List.foldl_cons, List.foldl_nil, see]
    split
    · rename_i hold
      refine ⟨hnodup, fun k => ?_⟩
      rw [hmem, List.mem_append, List.mem_singleton]
      refine ⟨.inl, fun h => h.elim id fun hk => ?_⟩
      exact hk ▸ (hmem x).mp hold
    · rename_i hnew
      have hfull : (ks.foldl (see cap) []).length < cap := by
        have hsame : (ks.foldl (see cap) []).toFinset = ks.toFinset := by
          ext k
          rw [List.mem_toFinset, List.mem_toFinset, hmem]
        have hcard : (ks ++ [x]).toFinset.card = ks.toFinset.card + 1 := by
          rw [List.toFinset_append, List.toFinset_cons, List.toFinset_nil, insert_empty_eq, Finset.union_comm,
            ← Finset.insert_eq, Finset.card_insert_of_notMem]
          rwa [List.mem_toFinset, ← hmem]
        rw [← List.toFinset_card_of_nodup hnodup, hsame]
        omega
      rw [if_pos hfull]
      refine ⟨List.nodup_append.mpr ⟨hnodup, List.nodup_singleton x, ?_⟩, fun k => ?_⟩
      · intro k hk y hy heq
        rw [List.mem_singleton] at hy
        exact hnew (hy ▸ heq ▸ hk)
      · rw [List.mem_append, List.mem_append, hmem]

theorem total_concat (as : List α) (a : α) (k : κ) :
    total key zero add (as ++ [a]) k =
      if key a = k then add (total key zero add as k) a else total key zero add as k := by
  unfold total
  rw [List.filter_append, List.foldl_append, List.filter_singleton]
  by_cases hk : key a = k <;> simp [hk]

theorem total_of_notMem {k : κ} (h : k ∉ as.map key) : total key zero add as k = zero := by
  have hnone : (as.filter fun a => key a = k) = [] := by
    refine List.filter_eq_nil_iff.mpr fun a ha hk => h ?_
    exact List.mem_map.mpr ⟨a, ha, of_decide_eq_true hk⟩
  rw [total, hnone, List.foldl_nil]

theorem mem_keys_gather (hroom : (as.map key).toFinset.card ≤ cap) {k : κ} :
    k ∈ (gather key zero add cap as).map Prod.fst ↔ k ∈ as.map key := by
  rw [keys_gather]
  exact (foldl_see hroom).2 k

theorem total_of_mem_gather (hroom : (as.map key).toFinset.card ≤ cap) {b : κ × σ}
    (hb : b ∈ gather key zero add cap as) : b.2 = total key zero add as b.1 := by
  induction as using List.reverseRecOn generalizing b with
  | nil => cases hb
  | append_singleton as a ih =>
    have hsub : (as.map key).toFinset ⊆ ((as ++ [a]).map key).toFinset := by
      rw [List.map_append, List.toFinset_append]
      exact Finset.subset_union_left
    have hroom' := (Finset.card_le_card hsub).trans hroom
    rw [gather, List.foldl_append] at hb
    change b ∈ put key zero add cap (gather key zero add cap as) a at hb
    rw [total_concat]
    unfold put at hb
    split at hb
    · obtain ⟨b', hb', rfl⟩ := List.mem_map.mp hb
      have hold := ih hroom' hb'
      split
      · rename_i hkey
        rw [if_pos hkey.symm, hold]
      · rename_i hkey
        rw [if_neg (Ne.symm hkey), hold]
    · rename_i hnew
      have hother : ∀ b ∈ gather key zero add cap as, key a ≠ b.1 := by
        intro b hb hkey
        exact hnew (hkey ▸ List.mem_map_of_mem hb)
      split at hb
      · obtain hb | hb := List.mem_append.mp hb
        · rw [if_neg (hother b hb), ih hroom' hb]
        · obtain rfl := List.mem_singleton.mp hb
          rw [if_pos rfl, total_of_notMem (mt (mem_keys_gather hroom').mpr hnew)]
      · rw [if_neg (hother b hb), ih hroom' hb]

theorem mem_gather (hroom : (as.map key).toFinset.card ≤ cap) {b : κ × σ} :
    b ∈ gather key zero add cap as ↔ b.1 ∈ as.map key ∧ b.2 = total key zero add as b.1 := by
  constructor
  · intro hb
    exact ⟨(mem_keys_gather hroom).mp (List.mem_map_of_mem hb), total_of_mem_gather hroom hb⟩
  · rintro ⟨hkey, htotal⟩
    have hmem : b.1 ∈ (gather key zero add cap as).map Prod.fst := (mem_keys_gather hroom).mpr hkey
    obtain ⟨b', hb', hsame⟩ := List.mem_map.mp hmem
    have htotal' := total_of_mem_gather hroom hb'
    rw [hsame, ← htotal] at htotal'
    exact Prod.ext hsame htotal' ▸ hb'

theorem length_foldl_see {ks : List κ} (hroom : ks.toFinset.card ≤ cap) :
    (ks.foldl (see cap) []).length = ks.toFinset.card := by
  obtain ⟨hnodup, hmem⟩ := foldl_see hroom
  rw [← List.toFinset_card_of_nodup hnodup]
  congr 1
  ext k
  rw [List.mem_toFinset, List.mem_toFinset, hmem]

theorem total_perm [RightCommutative add] {bs : List α} (h : as.Perm bs) (k : κ) :
    total key zero add as k = total key zero add bs k :=
  (h.filter _).foldl_eq zero

end Buckets
