import Mathlib.Data.List.DropRight
import Mathlib.Order.BoundedOrder.Basic
import Mathlib.Order.Lattice

universe u v w

namespace WindowedMax

variable {σ : Type u} {α : Type v} {τ : Type w} {val : σ → α} {stamp : σ → τ} {x f : σ} {xs q : List σ} {a : α}

section Trim

variable [LinearOrder α]

/-- What is left once the samples at the end whose values are at most `a` are gone. -/
def trim (val : σ → α) (a : α) (q : List σ) : List σ := q.rdropWhile fun f => val f ≤ a

theorem trim_initial (val : σ → α) (a : α) (q : List σ) : trim val a q <+: q := List.rdropWhile_prefix _ q

theorem lt_of_mem_trim (h : q.Pairwise fun f g => val g < val f) (hf : f ∈ trim val a q) : a < val f := by
  have hkept := h.sublist (trim_initial val a q).sublist
  have hne : trim val a q ≠ [] := List.ne_nil_of_mem hf
  have hlast : a < val ((trim val a q).getLast hne) := by
    have hnot := List.rdropWhile_last_not _ q hne
    rwa [decide_eq_true_eq, not_le] at hnot
  rw [← List.dropLast_append_getLast hne] at hf hkept
  rcases List.mem_append.mp hf with hf | hf
  · exact hlast.trans ((List.pairwise_append.mp hkept).2.2 f hf _ (List.mem_singleton_self _))
  · rw [List.mem_singleton.mp hf]
    exact hlast

theorem mem_trim_or (a : α) (hf : f ∈ q) : f ∈ trim val a q ∨ val f ≤ a := by
  rw [← @List.rdropWhile_append_rtakeWhile _ (fun f => decide (val f ≤ a)) q] at hf
  rcases List.mem_append.mp hf with hf | hf
  · exact .inl hf
  · have hle := List.mem_rtakeWhile_imp hf
    exact .inr (of_decide_eq_true hle)

end Trim

section Max

variable [LinearOrder α] [OrderBot α] {fresh : τ → τ → Bool} {now later : τ}

/-- The greatest value of the window, `⊥` where nothing counts. -/
def windowMax (val : σ → α) (stamp : σ → τ) (fresh : τ → τ → Bool) (now : τ) (xs : List σ) : α :=
  ((xs.filter fun x => fresh now (stamp x)).map val).foldr max ⊥

theorem foldr_max_le {l : List α} : l.foldr max ⊥ ≤ a ↔ ∀ b ∈ l, b ≤ a := by
  induction l with
  | nil => simp
  | cons b l ih => simp [ih]

theorem windowMax_le :
    windowMax val stamp fresh now xs ≤ a ↔ ∀ x ∈ xs, fresh now (stamp x) → val x ≤ a := by
  simp only [windowMax, foldr_max_le, List.mem_map, List.mem_filter, forall_exists_index, and_imp]
  constructor
  · intro h x hx hfresh
    exact h (val x) x hx hfresh rfl
  · rintro h _ x hx hfresh rfl
    exact h x hx hfresh

theorem le_windowMax (hx : x ∈ xs) (hfresh : fresh now (stamp x)) : val x ≤ windowMax val stamp fresh now xs :=
  windowMax_le.mp le_rfl x hx hfresh

def peak (val : σ → α) (q : List σ) : α := (q.head?.map val).getD ⊥

variable [LinearOrder τ]

/-- `fresh now t`: a sample of time `t` still counts at time `now`. -/
structure Window (fresh : τ → τ → Bool) : Prop where
  self : ∀ now, fresh now now
  older : ∀ {now s t}, s ≤ t → t ≤ now → fresh now s → fresh now t
  sooner : ∀ {now later s}, s ≤ now → now ≤ later → fresh later s → fresh now s

/-- The queue `q` answers for the samples `xs` at time `now`, and at any later one. -/
structure Answers (val : σ → α) (stamp : σ → τ) (fresh : τ → τ → Bool) (now : τ) (xs q : List σ) : Prop where
  past : ∀ x ∈ xs, stamp x ≤ now
  known : ∀ f ∈ q, f ∈ xs
  live : ∀ f ∈ q, fresh now (stamp f)
  falling : q.Pairwise fun f g => val g < val f
  rising : q.Pairwise fun f g => stamp f ≤ stamp g
  covers : ∀ x ∈ xs, val x ≠ ⊥ → ∀ later ≥ now, fresh later (stamp x) →
    ∃ f ∈ q, val x ≤ val f ∧ fresh later (stamp f)

namespace Answers

theorem nil (now : τ) : Answers val stamp fresh now [] [] where
  past _ hx := absurd hx List.not_mem_nil
  known _ hf := absurd hf List.not_mem_nil
  live _ hf := absurd hf List.not_mem_nil
  falling := .nil
  rising := .nil
  covers _ hx := absurd hx List.not_mem_nil

theorem le_peak (h : Answers val stamp fresh now xs q) (hf : f ∈ q) : val f ≤ peak val q := by
  cases q with
  | nil => exact absurd hf List.not_mem_nil
  | cons g q =>
    have hfalling := List.pairwise_cons.mp h.falling
    rcases List.mem_cons.mp hf with rfl | hf
    · exact le_rfl
    · exact (hfalling.1 f hf).le

theorem peak_eq (h : Answers val stamp fresh now xs q) : peak val q = windowMax val stamp fresh now xs := by
  apply le_antisymm
  · cases q with
    | nil => exact bot_le
    | cons f q =>
      have hf : f ∈ f :: q := List.mem_cons_self
      exact le_windowMax (h.known f hf) (h.live f hf)
  · apply windowMax_le.mpr
    intro x hx hfresh
    by_cases hbot : val x = ⊥
    · rw [hbot]
      exact bot_le
    · obtain ⟨f, hf, hval, -⟩ := h.covers x hx hbot now le_rfl hfresh
      exact hval.trans (h.le_peak hf)

theorem expire (hw : Window fresh) (h : Answers val stamp fresh now xs q) (hlater : now ≤ later) :
    Answers val stamp fresh later xs (q.filter fun f => fresh later (stamp f)) where
  past x hx := (h.past x hx).trans hlater
  known f hf := h.known f (List.mem_of_mem_filter hf)
  live f hf := (List.mem_filter.mp hf).2
  falling := h.falling.filter _
  rising := h.rising.filter _
  covers x hx hbot t ht hfresh := by
    obtain ⟨f, hf, hval, hcounts⟩ := h.covers x hx hbot t (hlater.trans ht) hfresh
    have hpast : stamp f ≤ later := (h.past f (h.known f hf)).trans hlater
    exact ⟨f, List.mem_filter.mpr ⟨hf, hw.sooner hpast ht hcounts⟩, hval, hcounts⟩

theorem restart (hw : Window fresh) (h : Answers val stamp fresh now xs q) (hlater : now ≤ stamp x)
    (hpeak : peak val q ≤ val x) : Answers val stamp fresh (stamp x) (xs ++ [x]) [x] where
  past y hy := by
    rcases List.mem_append.mp hy with hy | hy
    · exact (h.past y hy).trans hlater
    · rw [List.mem_singleton.mp hy]
  known f hf := List.mem_append_right xs hf
  live f hf := by
    rw [List.mem_singleton.mp hf]
    exact hw.self (stamp x)
  falling := List.pairwise_singleton _ _
  rising := List.pairwise_singleton _ _
  covers y hy hbot t ht hfresh := by
    refine ⟨x, List.mem_singleton_self x, ?_⟩
    rcases List.mem_append.mp hy with hy | hy
    · obtain ⟨f, hf, hval, hcounts⟩ := h.covers y hy hbot t (hlater.trans ht) hfresh
      have hpast : stamp f ≤ stamp x := (h.past f (h.known f hf)).trans hlater
      exact ⟨hval.trans ((h.le_peak hf).trans hpeak), hw.older hpast ht hcounts⟩
    · rw [List.mem_singleton.mp hy] at hfresh ⊢
      exact ⟨le_rfl, hfresh⟩

theorem push (hw : Window fresh) (h : Answers val stamp fresh (stamp x) xs q) :
    Answers val stamp fresh (stamp x) (xs ++ [x]) (trim val (val x) q ++ [x]) := by
  have hkept : ∀ f ∈ trim val (val x) q, f ∈ q := fun f hf => (trim_initial val (val x) q).subset hf
  refine ⟨?_, ?_, ?_, ?_, ?_, ?_⟩
  · intro y hy
    rcases List.mem_append.mp hy with hy | hy
    · exact h.past y hy
    · rw [List.mem_singleton.mp hy]
  · intro f hf
    rcases List.mem_append.mp hf with hf | hf
    · exact List.mem_append_left _ (h.known f (hkept f hf))
    · exact List.mem_append_right _ hf
  · intro f hf
    rcases List.mem_append.mp hf with hf | hf
    · exact h.live f (hkept f hf)
    · rw [List.mem_singleton.mp hf]
      exact hw.self (stamp x)
  · refine List.pairwise_append.mpr ⟨h.falling.sublist (trim_initial val (val x) q).sublist,
      List.pairwise_singleton _ _, ?_⟩
    intro f hf g hg
    rw [List.mem_singleton.mp hg]
    exact lt_of_mem_trim h.falling hf
  · refine List.pairwise_append.mpr ⟨h.rising.sublist (trim_initial val (val x) q).sublist,
      List.pairwise_singleton _ _, ?_⟩
    intro f hf g hg
    rw [List.mem_singleton.mp hg]
    exact h.past f (h.known f (hkept f hf))
  · intro y hy hbot t ht hfresh
    rcases List.mem_append.mp hy with hy | hy
    · obtain ⟨f, hf, hval, hcounts⟩ := h.covers y hy hbot t ht hfresh
      rcases mem_trim_or (val x) hf with hkeep | hle
      · exact ⟨f, List.mem_append_left _ hkeep, hval, hcounts⟩
      · have hpast : stamp f ≤ stamp x := h.past f (h.known f hf)
        exact ⟨x, by simp, hval.trans hle, hw.older hpast ht hcounts⟩
    · rw [List.mem_singleton.mp hy] at hfresh ⊢
      exact ⟨x, by simp, le_rfl, hfresh⟩

theorem skip (h : Answers val stamp fresh (stamp x) xs q)
    (hcovered : val x ≠ ⊥ → ∀ later ≥ stamp x, fresh later (stamp x) → ∃ f ∈ q, val x ≤ val f ∧ fresh later (stamp f)) :
    Answers val stamp fresh (stamp x) (xs ++ [x]) q where
  past y hy := by
    rcases List.mem_append.mp hy with hy | hy
    · exact h.past y hy
    · rw [List.mem_singleton.mp hy]
  known f hf := List.mem_append_left _ (h.known f hf)
  live := h.live
  falling := h.falling
  rising := h.rising
  covers y hy hbot := by
    rcases List.mem_append.mp hy with hy | hy
    · exact h.covers y hy hbot
    · rw [List.mem_singleton.mp hy] at hbot ⊢
      exact hcovered hbot

theorem peak_eq_concat (h : Answers val stamp fresh (stamp x) xs q) (hle : val x ≤ peak val q) :
    peak val q = windowMax val stamp fresh (stamp x) (xs ++ [x]) := by
  rw [h.peak_eq] at hle ⊢
  apply le_antisymm
  · refine windowMax_le.mpr fun y hy hfresh => ?_
    exact le_windowMax (List.mem_append_left _ hy) hfresh
  · refine windowMax_le.mpr fun y hy hfresh => ?_
    rcases List.mem_append.mp hy with hy | hy
    · exact le_windowMax hy hfresh
    · rwa [List.mem_singleton.mp hy]

end Answers

end Max

end WindowedMax
