import Mathlib.Algebra.Group.Nat.Defs
import Mathlib.Order.Fin.Basic
import Mathlib.Order.Nat
import YumiBrowser.Library.System
import YumiBrowser.Library.WindowedMax

namespace YumiBrowser.Udp

open Transition WindowedMax

def bbrFilterLen : ℕ := 10
def bbrBtlbwFilterRounds : BitVec 64 := 10

/-- `bbr_filter_sample_t` -/
structure FilterSample where
  val : BitVec 64
  stamp : BitVec 64
  deriving DecidableEq

/-- `bbr_max_filter_t`, by the samples that count. -/
structure MaxFilter where
  samples : List FilterSample
  bounded : samples.length ≤ bbrFilterLen
  deriving DecidableEq

def maxFilterReset : MaxFilter := ⟨[], Nat.zero_le _⟩

/-- The samples that are left when `s` is to be added. -/
def MaxFilter.kept (f : MaxFilter) (s : FilterSample) : List FilterSample :=
  (f.samples.filter fun old => s.stamp - old.stamp < bbrBtlbwFilterRounds).rdropWhile fun old => old.val ≤ s.val

theorem MaxFilter.length_kept (f : MaxFilter) (s : FilterSample) : (f.kept s).length ≤ bbrFilterLen :=
  calc (f.kept s).length
    _ ≤ (f.samples.filter _).length := (List.rdropWhile_prefix _ _).length_le
    _ ≤ f.samples.length := List.length_filter_le _ _
    _ ≤ bbrFilterLen := f.bounded

def maxFilterUpdate (f : MaxFilter) (s : FilterSample) : MaxFilter :=
  if f.samples.head?.all fun first => first.val ≤ s.val then ⟨[s], Nat.succ_le_of_lt (Nat.succ_pos 9)⟩
  else if h : (f.kept s).length < bbrFilterLen then ⟨f.kept s ++ [s], by rwa [List.length_append]⟩
  else ⟨f.kept s, f.length_kept s⟩

def maxFilterGet (f : MaxFilter) : BitVec 64 := (f.samples.head?.map (·.val)).getD 0

namespace FilterSample

def value (s : FilterSample) : ℕ := s.val.toNat

def round (s : FilterSample) : Fin (2 ^ 64) := s.stamp.toFin

def recent (now stamp : Fin (2 ^ 64)) : Bool := now.val - stamp.val < 10

end FilterSample

open FilterSample

def lastRound (xs : List FilterSample) : Fin (2 ^ 64) := (xs.getLast?.map round).getD 0

def lastRoundsMax (xs : List FilterSample) : ℕ := windowMax value round recent (lastRound xs) xs

section Windows

variable {f : MaxFilter} {s x : FilterSample} {xs : List FilterSample} {now : Fin (2 ^ 64)}

theorem window_recent : Window recent where
  self now := by simp [recent]
  older h _ hfresh := by
    simp only [recent, decide_eq_true_eq] at hfresh ⊢
    have := Fin.le_def.mp h
    omega
  sooner _ h hfresh := by
    simp only [recent, decide_eq_true_eq] at hfresh ⊢
    have := Fin.le_def.mp h
    omega

theorem kept_eq (hpast : ∀ old ∈ f.samples, old.round ≤ s.round) :
    f.kept s = trim value s.value (f.samples.filter fun old => recent s.round old.round) := by
  have hlive : ∀ old ∈ f.samples,
      decide (s.stamp - old.stamp < bbrBtlbwFilterRounds) = recent s.round old.round := by
    intro old hold
    have hle : old.stamp.toNat ≤ s.stamp.toNat := hpast old hold
    have hsub : (s.stamp - old.stamp).toNat = s.stamp.toNat - old.stamp.toNat := BitVec.toNat_sub_of_le hle
    have hiff : s.stamp - old.stamp < bbrBtlbwFilterRounds ↔ s.stamp.toNat - old.stamp.toNat < 10 := by
      rw [BitVec.lt_def, hsub]
      rfl
    exact decide_eq_decide.mpr hiff
  rw [MaxFilter.kept, List.filter_congr hlive]
  rfl

def MaxFilter.Serves (f : MaxFilter) (now : Fin (2 ^ 64)) (xs : List FilterSample) : Prop :=
  Answers value round recent now xs f.samples

/-- There is room for the new sample, or nothing is lost with it: it is zero, or the last sample of the
filter is of the same round, or no round comes after those in which that one counts. -/
def MaxFilter.Room (f : MaxFilter) (s : FilterSample) : Prop :=
  (f.kept s).length < bbrFilterLen ∨ s.val = 0 ∨
    ∃ last, (f.kept s).getLast? = some last ∧ (s.round ≤ last.round ∨ 2 ^ 64 ≤ last.stamp.toNat + 10)

theorem maxFilterGet_eq (f : MaxFilter) : (maxFilterGet f).toNat = peak value f.samples := by
  obtain ⟨samples, _⟩ := f
  cases samples with
  | nil => rfl
  | cons first rest => rfl

theorem maxFilterUpdate_cases (f : MaxFilter) (s : FilterSample) :
    (peak value f.samples ≤ s.value ∧ (maxFilterUpdate f s).samples = [s]) ∨
    (s.value < peak value f.samples ∧ (f.kept s).length < bbrFilterLen ∧
      (maxFilterUpdate f s).samples = f.kept s ++ [s]) ∨
    (s.value < peak value f.samples ∧ (f.kept s).length = bbrFilterLen ∧
      (maxFilterUpdate f s).samples = f.kept s) := by
  have hfirst : (f.samples.head?.all fun first => decide (first.val ≤ s.val)) = true ↔
      peak value f.samples ≤ s.value := by
    obtain ⟨samples, _⟩ := f
    cases samples with
    | nil => exact iff_of_true rfl (Nat.zero_le _)
    | cons first rest => exact decide_eq_true_iff
  unfold maxFilterUpdate
  split
  · rename_i hall
    exact .inl ⟨hfirst.mp hall, rfl⟩
  · rename_i hall
    have hlt : s.value < peak value f.samples := Nat.lt_of_not_le fun hle => hall (hfirst.mpr hle)
    split
    · rename_i hroom
      exact .inr (.inl ⟨hlt, hroom, rfl⟩)
    · rename_i hfull
      exact .inr (.inr ⟨hlt, (f.length_kept s).antisymm (Nat.le_of_not_lt hfull), rfl⟩)

theorem kept_full (h : f.Serves now xs) (hlater : now ≤ s.round) (hfull : (f.kept s).length = bbrFilterLen) :
    Answers value round recent s.round xs (f.kept s) ∧ (∀ old ∈ f.kept s, s.value < old.value) := by
  have hexpired := h.expire window_recent hlater
  rw [kept_eq fun old hold => (h.past old (h.known old hold)).trans hlater] at hfull ⊢
  have hprefix := trim_initial value s.value (f.samples.filter fun old => recent s.round old.round)
  have hlength : (f.samples.filter fun old => recent s.round old.round).length ≤ bbrFilterLen :=
    (List.length_filter_le _ _).trans f.bounded
  have heq := hprefix.eq_of_length_le (by rwa [hfull])
  refine ⟨?_, fun old hold => lt_of_mem_trim hexpired.falling hold⟩
  rw [heq]
  exact hexpired

theorem MaxFilter.Room.covered (hroom : f.Room s) (hfull : (f.kept s).length = bbrFilterLen)
    (hgreater : ∀ old ∈ f.kept s, s.value < old.value) (hpos : s.value ≠ 0) (later : Fin (2 ^ 64))
    (_ : later ≥ s.round) (hfresh : recent later s.round) :
    ∃ old ∈ f.kept s, s.value ≤ old.value ∧ recent later old.round := by
  rcases hroom with hlt | hzero | ⟨last, hlast, hround⟩
  · exact absurd hfull hlt.ne
  · exact absurd (congrArg BitVec.toNat hzero) hpos
  · have hmem := List.mem_of_getLast? hlast
    refine ⟨last, hmem, (hgreater last hmem).le, ?_⟩
    rcases hround with hround | hend
    · by_cases hle : last.round ≤ later
      · exact window_recent.older hround hle hfresh
      · simp only [recent, decide_eq_true_eq]
        have := Fin.lt_def.mp (not_le.mp hle)
        omega
    · have hbound := later.isLt
      have hval : last.round.val = last.stamp.toNat := rfl
      simp only [recent, decide_eq_true_eq]
      omega

theorem MaxFilter.Serves.update (h : f.Serves now xs) (hlater : now ≤ s.round) :
    (maxFilterGet (maxFilterUpdate f s)).toNat = windowMax value round recent s.round (xs ++ [s]) ∧
      (f.Room s → (maxFilterUpdate f s).Serves s.round (xs ++ [s])) := by
  rw [maxFilterGet_eq]
  rcases maxFilterUpdate_cases f s with ⟨hle, hsamples⟩ | ⟨-, -, hsamples⟩ | ⟨-, hfull, hsamples⟩
  · have hnext : (maxFilterUpdate f s).Serves s.round (xs ++ [s]) := by
      rw [MaxFilter.Serves, hsamples]
      exact h.restart window_recent hlater hle
    exact ⟨hnext.peak_eq, fun _ => hnext⟩
  · have hnext : (maxFilterUpdate f s).Serves s.round (xs ++ [s]) := by
      rw [MaxFilter.Serves, hsamples, kept_eq fun old hold => (h.past old (h.known old hold)).trans hlater]
      exact (h.expire window_recent hlater).push window_recent
    exact ⟨hnext.peak_eq, fun _ => hnext⟩
  · obtain ⟨hkept, hgreater⟩ := kept_full h hlater hfull
    constructor
    · rw [hsamples]
      have hne : f.kept s ≠ [] := by
        intro hnil
        rw [hnil] at hfull
        cases hfull
      obtain ⟨first, hfirst⟩ := List.exists_mem_of_ne_nil _ hne
      exact hkept.peak_eq_concat ((hgreater first hfirst).le.trans (hkept.le_peak hfirst))
    · intro hroom
      rw [MaxFilter.Serves, hsamples]
      exact hkept.skip fun hpos later => hroom.covered hfull hgreater hpos later

theorem samples_of_full (h : f.Serves now xs) (hlater : now ≤ s.round) (hfull : (f.kept s).length = bbrFilterLen) :
    (maxFilterUpdate f s).samples = f.kept s := by
  rcases maxFilterUpdate_cases f s with ⟨hle, -⟩ | ⟨-, hroom, -⟩ | ⟨-, -, hsamples⟩
  · have hne : f.kept s ≠ [] := by
      intro hnil
      rw [hnil] at hfull
      cases hfull
    obtain ⟨first, hfirst⟩ := List.exists_mem_of_ne_nil _ hne
    have hknown : first ∈ f.samples := List.mem_of_mem_filter ((List.rdropWhile_prefix _ _).subset hfirst)
    have hgreater := (kept_full h hlater hfull).2 first hfirst
    exact absurd ((h.le_peak hknown).trans hle) (Nat.not_le.mpr hgreater)
  · exact absurd hfull hroom.ne
  · exact hsamples

theorem samples_of_expired (hpast : ∀ old ∈ f.samples, old.round ≤ x.round)
    (hexpired : ∀ old ∈ f.samples, recent x.round old.round = false) : (maxFilterUpdate f x).samples = [x] := by
  have hkept : f.kept x = [] := by
    rw [kept_eq hpast, List.filter_eq_nil_iff.mpr]
    · rfl
    · intro old hold
      rw [hexpired old hold]
      exact Bool.false_ne_true
  rcases maxFilterUpdate_cases f x with ⟨-, hnext⟩ | ⟨-, -, hnext⟩ | ⟨-, hlength, -⟩
  · exact hnext
  · rw [hnext, hkept, List.nil_append]
  · rw [hkept] at hlength
    cases hlength

theorem MaxFilter.Serves.missed (h : f.Serves now xs) (hlater : now ≤ s.round) (hfull : ¬ f.Room s) :
    ∃ x : FilterSample, s.round ≤ x.round ∧
      (maxFilterGet (maxFilterUpdate (maxFilterUpdate f s) x)).toNat ≠
        windowMax value round recent x.round (xs ++ [s] ++ [x]) := by
  obtain ⟨hlength, hpos, hlast⟩ : (f.kept s).length = bbrFilterLen ∧ s.val ≠ 0 ∧
      ∀ last, (f.kept s).getLast? = some last → last.round < s.round ∧ last.stamp.toNat + 10 < 2 ^ 64 := by
    unfold MaxFilter.Room at hfull
    push Not at hfull
    exact ⟨(f.length_kept s).antisymm hfull.1, hfull.2.1, fun last heq => hfull.2.2 last heq⟩
  obtain ⟨hkept, hgreater⟩ := kept_full h hlater hlength
  obtain ⟨q, last, hq⟩ : ∃ q last, f.kept s = q ++ [last] := by
    cases hq : f.kept s using List.reverseRecOn with
    | nil =>
      rw [hq] at hlength
      cases hlength
    | append_singleton q last => exact ⟨q, last, rfl⟩
  have hmem : last ∈ f.kept s := by simp [hq]
  obtain ⟨hround, hbound⟩ := hlast last (by rw [hq, List.getLast?_concat])
  -- the update that comes just as the last of the others expires
  have hstamp : (last.stamp + 10).toNat = last.stamp.toNat + 10 := BitVec.toNat_add_of_lt hbound
  obtain ⟨x, hval, hx⟩ : ∃ x : FilterSample, x.val = 0 ∧ x.round.val = last.round.val + 10 :=
    ⟨⟨0, last.stamp + 10⟩, rfl, hstamp⟩
  have hold : ∀ old ∈ f.kept s, old.round ≤ last.round := by
    intro old hold
    have hrising := hkept.rising
    rw [hq] at hold hrising
    rcases List.mem_append.mp hold with hold | hold
    · exact (List.pairwise_append.mp hrising).2.2 old hold last (List.mem_singleton_self last)
    · rw [List.mem_singleton.mp hold]
  have hnear : s.round.val - last.round.val < 10 := by
    have hlive := hkept.live last hmem
    simpa [recent] using hlive
  have hsx : s.round.val < x.round.val ∧ x.round.val - s.round.val < 10 := by
    have := Fin.lt_def.mp hround
    omega
  have halone : (maxFilterUpdate (maxFilterUpdate f s) x).samples = [x] := by
    have hsamples := samples_of_full h hlater hlength
    apply samples_of_expired
    · intro old hin
      rw [hsamples] at hin
      have := Fin.le_def.mp (hold old hin)
      exact Fin.le_def.mpr (by omega)
    · intro old hin
      rw [hsamples] at hin
      have := Fin.le_def.mp (hold old hin)
      simp only [recent, decide_eq_false_iff_not]
      omega
  refine ⟨x, Fin.le_def.mpr hsx.1.le, ?_⟩
  have hleast : s.value ≤ windowMax value round recent x.round (xs ++ [s] ++ [x]) := by
    apply le_windowMax (by simp)
    simpa [recent] using hsx.2
  have hzero : (maxFilterGet (maxFilterUpdate (maxFilterUpdate f s) x)).toNat = 0 := by
    rw [maxFilterGet_eq, halone]
    exact congrArg BitVec.toNat hval
  rw [hzero]
  have hsome : s.value ≠ 0 := fun heq => hpos (BitVec.eq_of_toNat_eq heq)
  omega

end Windows

section Updates

variable {e : FilterSample} {es xs ys : List FilterSample}

/-- The rounds do not decrease. -/
def Rising (es : List FilterSample) : Prop := es.Pairwise fun s t => s.stamp ≤ t.stamp

instance : DecidablePred Rising := fun es => inferInstanceAs (Decidable (es.Pairwise _))

def updates (es : List FilterSample) : MaxFilter := es.foldl maxFilterUpdate maxFilterReset

theorem updates_append (xs ys : List FilterSample) : updates (xs ++ ys) = ys.foldl maxFilterUpdate (updates xs) :=
  List.foldl_append

@[simp] theorem lastRound_concat (es : List FilterSample) (e : FilterSample) : lastRound (es ++ [e]) = e.round := by
  simp [lastRound]

theorem Rising.init (h : Rising (xs ++ ys)) : Rising xs := (List.pairwise_append.mp h).1

theorem Rising.lastRound_le (h : Rising (es ++ [e])) : lastRound es ≤ e.round := by
  induction es using List.reverseRecOn with
  | nil => exact Fin.zero_le _
  | append_singleton es last =>
    rw [lastRound_concat]
    exact (List.pairwise_append.mp h).2.2 last (by simp) e (List.mem_singleton_self e)

theorem serves_updates (hes : Rising es) (hroom : ∀ xs e ys, es = xs ++ e :: ys → (updates xs).Room e) :
    (updates es).Serves (lastRound es) es := by
  induction es using List.reverseRecOn with
  | nil => exact Answers.nil _
  | append_singleton es e ih =>
    have hserves := ih hes.init fun xs e' ys heq => hroom xs e' (ys ++ [e]) (by simp [heq])
    rw [updates_append, lastRound_concat]
    exact (hserves.update hes.lastRound_le).2 (hroom es e [] rfl)

/-- The filter gives the greatest value of the last ten rounds, after every prefix of the updates and one
more of any kind, if and only if there is room for each of them. -/
theorem maxFilterGet_updates_iff (hes : Rising es) :
    (∀ xs ys, es = xs ++ ys → ∀ e, Rising (xs ++ [e]) →
      (maxFilterGet (updates (xs ++ [e]))).toNat = lastRoundsMax (xs ++ [e])) ↔
    ∀ xs e ys, es = xs ++ e :: ys → (updates xs).Room e := by
  constructor
  · induction es using List.reverseRecOn with
    | nil =>
      intro _ xs e ys heq
      simp at heq
    | append_singleton es e ih =>
      intro hall
      have hroom := ih hes.init fun xs ys heq => hall xs (ys ++ [e]) (by simp [heq])
      intro xs e' ys heq
      cases ys using List.reverseRecOn with
      | nil =>
        obtain ⟨rfl, hlast⟩ := List.append_inj' heq rfl
        obtain rfl := List.singleton_inj.mp hlast
        by_contra hfull
        obtain ⟨x, hx, hmissed⟩ := (serves_updates hes.init hroom).missed hes.lastRound_le hfull
        have hrising : Rising (es ++ [e] ++ [x]) := by
          refine List.pairwise_append.mpr ⟨hes, List.pairwise_singleton _ _, fun old hold y hy => ?_⟩
          rw [List.mem_singleton.mp hy]
          rcases List.mem_append.mp hold with hold | hold
          · have hle : old.round ≤ e.round := (List.pairwise_append.mp hes).2.2 old hold e (by simp)
            exact hle.trans hx
          · rw [List.mem_singleton.mp hold]
            exact hx
        have hright := hall (es ++ [e]) [] (by simp) x hrising
        rw [updates_append, updates_append, lastRoundsMax, lastRound_concat] at hright
        exact hmissed hright
      | append_singleton ys last =>
        have hinit : es ++ [e] = (xs ++ e' :: ys) ++ [last] := by simp [heq]
        exact hroom xs e' ys (List.append_inj_left' hinit rfl)
  · intro hroom xs ys heq e he
    have hserves := serves_updates (heq ▸ hes).init fun zs e' ws hzs => hroom zs e' (ws ++ ys) (by simp [heq, hzs])
    rw [updates_append, lastRoundsMax, lastRound_concat]
    exact (hserves.update he.lastRound_le).1

def settling : List FilterSample := [⟨7, 1⟩, ⟨5, 2⟩, ⟨9, 4⟩, ⟨3, 8⟩, ⟨2, 13⟩, ⟨6, 15⟩, ⟨1, 20⟩]

theorem maxFilterGet_updates_settling : maxFilterGet (updates settling) = 6 ∧
    ∀ xs ys, settling = xs ++ ys → ∀ e, Rising (xs ++ [e]) →
      (maxFilterGet (updates (xs ++ [e]))).toNat = lastRoundsMax (xs ++ [e]) := by
  have hroom : System.Enables (fun f s => (MaxFilter.kept f s).length < bbrFilterLen) maxFilterUpdate maxFilterReset
      settling := by decide +kernel
  refine ⟨by decide +kernel, (maxFilterGet_updates_iff (by decide)).mpr fun xs e ys heq => .inl ?_⟩
  exact hroom.along settling xs e ys heq

def crowded : List FilterSample :=
  [⟨20, 0⟩, ⟨19, 0⟩, ⟨18, 0⟩, ⟨17, 0⟩, ⟨16, 0⟩, ⟨15, 0⟩, ⟨14, 0⟩, ⟨13, 0⟩, ⟨12, 0⟩, ⟨11, 0⟩, ⟨5, 5⟩, ⟨0, 10⟩]

theorem crowded_missed : Rising crowded ∧ maxFilterGet (updates crowded) = 0 ∧ lastRoundsMax crowded = 5 := by
  decide +kernel

end Updates

end YumiBrowser.Udp
