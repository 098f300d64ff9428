import YumiBrowser.Library.LinkedLists

universe u v

/-! Several linked stacks in one memory of `next` fields. -/

namespace Links

/-- Following `next` from `o` one meets `a`. -/
inductive Reaches {ν : Type u} (next : ν → Option ν) : Option ν → ν → Prop
  | here : Reaches next (some a) a
  | there : Reaches next (next a) b → Reaches next (some a) b

section Stacks

variable {ν : Type u} {ι : Type v} {next : ν → Option ν} {heads : ι → Option ν} {cells : ι → List ν}
  {a b : ν} {o : Option ν} {k : ι} {l : List ν}

theorem Linked.reaches (h : Linked next o l) (ha : a ∈ l) : Reaches next o a := by
  induction l generalizing o with
  | nil => cases ha
  | cons b l ih =>
    obtain ⟨rfl, hrest⟩ := h
    cases ha with
    | head => exact .here
    | tail _ ha => exact .there (ih hrest ha)

theorem Linked.mem_of_reaches (h : Linked next o l) (ha : Reaches next o a) : a ∈ l := by
  induction ha generalizing l with
  | here =>
    cases l with
    | nil => cases h
    | cons b l =>
      obtain rfl := Option.some.inj h.1
      exact List.mem_cons_self
  | there _ ih =>
    cases l with
    | nil => cases h
    | cons b l =>
      obtain ⟨hb, hrest⟩ := h
      obtain rfl := Option.some.inj hb
      exact List.mem_cons_of_mem _ (ih hrest)

/-- The stacks with these heads have these nodes, each node in one of them and there once. -/
structure Stacked (next : ν → Option ν) (heads : ι → Option ν) (cells : ι → List ν) : Prop where
  linked : ∀ k, Linked next (heads k) (cells k)
  nodup : ∀ k, (cells k).Nodup
  apart : ∀ j k a, a ∈ cells j → a ∈ cells k → j = k

theorem stacked_empty : Stacked next (fun _ : ι => none) fun _ => [] where
  linked _ := rfl
  nodup _ := .nil
  apart _ _ _ ha := absurd ha List.not_mem_nil

theorem Stacked.reaches (h : Stacked next heads cells) (ha : a ∈ cells k) : Reaches next (heads k) a :=
  (h.linked k).reaches ha

theorem Stacked.relink [DecidableEq ν] (h : Stacked next heads cells) (ha : ∀ k, a ∉ cells k) :
    Stacked (Function.update next a o) heads cells where
  linked k := (h.linked k).update (ha k)
  nodup := h.nodup
  apart := h.apart

variable [DecidableEq ι]

theorem Stacked.push (h : Stacked next heads cells) (ha : ∀ k, a ∉ cells k) (hnext : next a = heads k) :
    Stacked next (Function.update heads k (some a)) (Function.update cells k (a :: cells k)) where
  linked j := by
    by_cases hj : j = k
    · subst hj
      rw [Function.update_self, Function.update_self]
      refine ⟨rfl, ?_⟩
      rw [hnext]
      exact h.linked j
    · rw [Function.update_of_ne hj, Function.update_of_ne hj]
      exact h.linked j
  nodup j := by
    by_cases hj : j = k
    · subst hj
      rw [Function.update_self]
      exact List.nodup_cons.mpr ⟨ha j, h.nodup j⟩
    · rw [Function.update_of_ne hj]
      exact h.nodup j
  apart i j b hi hj := by
    have hwhere (i : ι) (hb : b ∈ Function.update cells k (a :: cells k) i) : b ∈ cells i ∨ b = a ∧ i = k := by
      by_cases hik : i = k
      · subst hik
        rw [Function.update_self, List.mem_cons] at hb
        exact hb.symm.imp_right fun hb => ⟨hb, rfl⟩
      · rw [Function.update_of_ne hik] at hb
        exact .inl hb
    obtain hi | ⟨hba, hik⟩ := hwhere i hi
    · obtain hj | ⟨hba, -⟩ := hwhere j hj
      · exact h.apart i j b hi hj
      · exact absurd (hba ▸ hi) (ha i)
    · obtain hj | ⟨-, hjk⟩ := hwhere j hj
      · exact absurd (hba ▸ hj) (ha j)
      · rw [hik, hjk]

theorem Stacked.pop (h : Stacked next heads cells) (hhead : heads k = some a) :
    ∃ rest, cells k = a :: rest ∧
      Stacked next (Function.update heads k (next a)) (Function.update cells k rest) := by
  have hlinked := h.linked k
  have hnodup := h.nodup k
  cases hcells : cells k with
  | nil =>
    rw [hcells, hhead] at hlinked
    cases hlinked
  | cons b rest =>
    rw [hcells, hhead] at hlinked
    obtain ⟨hab, hrest⟩ := hlinked
    obtain rfl := Option.some.inj hab
    rw [hcells] at hnodup
    refine ⟨rest, rfl, ?_, ?_, ?_⟩
    · intro j
      by_cases hj : j = k
      · subst hj
        rw [Function.update_self, Function.update_self]
        exact hrest
      · rw [Function.update_of_ne hj, Function.update_of_ne hj]
        exact h.linked j
    · intro j
      by_cases hj : j = k
      · subst hj
        rw [Function.update_self]
        exact (List.nodup_cons.mp hnodup).2
      · rw [Function.update_of_ne hj]
        exact h.nodup j
    · have hsub (i : ι) (c : ν) (hc : c ∈ Function.update cells k rest i) : c ∈ cells i := by
        by_cases hik : i = k
        · subst hik
          rw [Function.update_self] at hc
          rw [hcells]
          exact List.mem_cons_of_mem _ hc
        · rwa [Function.update_of_ne hik] at hc
      exact fun i j c hi hj => h.apart i j c (hsub i c hi) (hsub j c hj)

end Stacks

end Links
