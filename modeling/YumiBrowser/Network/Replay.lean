import Mathlib.Tactic.IntervalCases
import YumiBrowser.Library.System
import YumiBrowser.Library.SlidingWindow

namespace YumiBrowser.Sudp

open SlidingWindow Transition

def replayWindow : ℕ := 256

/-- `sudp_replay_t`: `bitmap[0]` holds the newest 64 positions. -/
structure Replay where
  maxSeq : BitVec 64
  bitmap : Vector (BitVec 64) 4
  deriving DecidableEq

def Replay.zero : Replay where
  maxSeq := 0
  bitmap := Vector.replicate 4 0

def wordAt (bitmap : Vector (BitVec 64) 4) (i : ℕ) : BitVec 64 := bitmap[i]?.getD 0

-- The loops of the source read each word before they overwrite it.
def moveWords (bitmap : Vector (BitVec 64) 4) (wordShift : ℕ) : Vector (BitVec 64) 4 :=
  if wordShift > 0 then Vector.ofFn fun i => wordAt bitmap (i + wordShift) else bitmap

def carryBits (bitmap : Vector (BitVec 64) 4) (bitShift : ℕ) : Vector (BitVec 64) 4 :=
  if bitShift > 0 then
    Vector.ofFn fun i =>
      wordAt bitmap i <<< bitShift ||| wordAt bitmap (i + 1) >>> (64 - bitShift)
  else bitmap

def replayShiftBitmap (r : Replay) (shift : ℕ) : Replay :=
  if shift ≥ replayWindow then
    { r with bitmap := Vector.replicate 4 0 }
  else
    { r with bitmap := carryBits (moveWords r.bitmap (shift / 64)) (shift % 64) }

def bitMask (k : ℕ) : BitVec 64 := 1#64 <<< (k % 64)

/-- `bitmap[word] |= mask` -/
def setBit (bitmap : Vector (BitVec 64) 4) (k : ℕ) : Vector (BitVec 64) 4 :=
  bitmap.setIfInBounds (k / 64) (wordAt bitmap (k / 64) ||| bitMask k)

def replayCheck (r : Replay) (seq : BitVec 64) : Bool × Replay :=
  if seq > r.maxSeq then
    let shifted := replayShiftBitmap r (seq - r.maxSeq).toNat
    (true, { maxSeq := seq, bitmap := setBit shifted.bitmap 0 })
  else
    let diff := (r.maxSeq - seq).toNat
    if diff ≥ replayWindow then (false, r)
    else if wordAt r.bitmap (diff / 64) &&& bitMask diff ≠ 0 then (false, r)
    else (true, { r with bitmap := setBit r.bitmap diff })

/-- Position `k` of the window stands for the counter `maxSeq - k`. -/
def Replay.marked (r : Replay) (k : ℕ) : Prop := (wordAt r.bitmap (k / 64)).getLsbD (k % 64) = true

instance (r : Replay) (k : ℕ) : Decidable (r.marked k) := inferInstanceAs (Decidable (_ = true))

theorem wordAt_ge (bitmap : Vector (BitVec 64) 4) (h : 4 ≤ i) : wordAt bitmap i = 0 := by
  simp [wordAt, h]

theorem wordAt_ofFn (f : Fin 4 → BitVec 64) (h : i < 4) :
    wordAt (Vector.ofFn f) i = f ⟨i, h⟩ := by
  simp [wordAt, h]

@[simp] theorem wordAt_zero (i : ℕ) : wordAt (Vector.replicate 4 0#64) i = 0#64 := by
  rcases Nat.lt_or_ge i 4 with h | h <;> simp [wordAt, h]

theorem wordAt_moveWords (bitmap : Vector (BitVec 64) 4) (ws i : ℕ) :
    wordAt (moveWords bitmap ws) i = wordAt bitmap (i + ws) := by
  unfold moveWords
  split
  · rcases Nat.lt_or_ge i 4 with h | h
    · rw [wordAt_ofFn _ h]
    · rw [wordAt_ge _ h, wordAt_ge _ (by omega)]
  · have : ws = 0 := by omega
    simp [this]

theorem wordAt_carryBits (bitmap : Vector (BitVec 64) 4) (b i : ℕ) :
    wordAt (carryBits bitmap b) i =
      wordAt bitmap i <<< b ||| wordAt bitmap (i + 1) >>> (64 - b) := by
  unfold carryBits
  split
  · rcases Nat.lt_or_ge i 4 with h | h
    · rw [wordAt_ofFn _ h]
    · simp [wordAt_ge _ h, wordAt_ge _ (show 4 ≤ i + 1 by omega)]
  · have : b = 0 := by omega
    simp [this, BitVec.ushiftRight_eq_zero]

theorem marked_shift (r : Replay) (hd : d < replayWindow) (k : ℕ) :
    (replayShiftBitmap r d).marked k ↔
      d % 64 ≤ k % 64 ∧ r.marked (k + 64 * (d / 64) - d % 64) ∨
      k % 64 < d % 64 ∧ r.marked (k + 64 * (d / 64) + 128 - d % 64) := by
  have hlt : ¬ d ≥ replayWindow := Nat.not_le.mpr hd
  simp only [replayShiftBitmap, hlt, ↓reduceIte, Replay.marked, wordAt_carryBits,
    wordAt_moveWords, BitVec.getLsbD_or, BitVec.getLsbD_shiftLeft, BitVec.getLsbD_ushiftRight]
  rcases Nat.lt_or_ge (k % 64) (d % 64) with h | h
  · have hword : k / 64 + 1 + d / 64 = (k + 64 * (d / 64) + 128 - d % 64) / 64 := by omega
    have hbit : 64 - d % 64 + k % 64 = (k + 64 * (d / 64) + 128 - d % 64) % 64 := by omega
    rw [hword, hbit]
    simp [h, Nat.not_le.mpr h]
  · have hword : k / 64 + d / 64 = (k + 64 * (d / 64) - d % 64) / 64 := by omega
    have hbit : k % 64 - d % 64 = (k + 64 * (d / 64) - d % 64) % 64 := by omega
    have hout : 64 ≤ 64 - d % 64 + k % 64 := by omega
    rw [hword, hbit, BitVec.getLsbD_of_ge _ _ hout]
    simp [h, Nat.not_lt.mpr h, Nat.mod_lt]

theorem marked_out (r : Replay) (hk : replayWindow ≤ k) : ¬ r.marked k := by
  have : 4 ≤ k / 64 := by unfold replayWindow at hk; omega
  simp [Replay.marked, wordAt_ge _ this]

theorem wordAt_setBit (bitmap : Vector (BitVec 64) 4) (hn : n < replayWindow) (i : ℕ) :
    wordAt (setBit bitmap n) i =
      if i = n / 64 then wordAt bitmap i ||| bitMask n else wordAt bitmap i := by
  have hword : n / 64 < 4 := by unfold replayWindow at hn; omega
  rcases Nat.lt_or_ge i 4 with h | h
  · by_cases hi : i = n / 64
    · subst hi
      simp [setBit, wordAt, hword]
    · simp [setBit, wordAt, h, hi, Ne.symm hi]
  · have hi : i ≠ n / 64 := by omega
    simp [wordAt_ge _ h, hi]

theorem getLsbD_bitMask (n : ℕ) (hword : k / 64 = n / 64) :
    (bitMask n).getLsbD (k % 64) = decide (k = n) := by
  have hn : n % 64 < 64 := Nat.mod_lt _ (by decide)
  rw [bitMask, ← BitVec.twoPow_eq, BitVec.getLsbD_twoPow]
  simp only [hn, decide_true, Bool.true_and, decide_eq_decide]
  omega

theorem marked_setBit (m m' : BitVec 64) (bitmap : Vector (BitVec 64) 4) (hn : n < replayWindow)
    (k : ℕ) : (Replay.mk m (setBit bitmap n)).marked k ↔ k = n ∨ (Replay.mk m' bitmap).marked k := by
  simp only [Replay.marked, wordAt_setBit _ hn]
  by_cases hword : k / 64 = n / 64
  · simp [hword, getLsbD_bitMask _ hword, or_comm]
  · have hne : k ≠ n := fun h => hword (by rw [h])
    simp [hword, hne]

theorem and_bitMask_ne_zero (x : BitVec 64) (k : ℕ) :
    x &&& bitMask k ≠ 0 ↔ x.getLsbD (k % 64) = true := by
  have hk : k % 64 < 64 := Nat.mod_lt _ (by decide)
  rw [bitMask, ← BitVec.twoPow_eq, BitVec.and_twoPow]
  split
  · rename_i h
    simp only [h, iff_true]
    intro h0
    have := congrArg (fun y : BitVec 64 => y.getLsbD (k % 64)) h0
    simp [hk] at this
  · rename_i h
    simp [h]

def Replay.CleanJump (r : Replay) (d : ℕ) : Prop :=
  (∀ k < replayWindow, ¬ r.marked k) ∨
  d < 64 ∧ (∀ k < replayWindow, 64 - d < k % 64 → ¬ r.marked k) ∧
    ¬ r.marked (64 - d) ∧ ¬ r.marked (192 - d) ∧ (r.marked (128 - d) ↔ r.marked (256 - d))

instance (r : Replay) (d : ℕ) : Decidable (r.CleanJump d) :=
  inferInstanceAs (Decidable (_ ∨ _))

def Replay.Shifts (r : Replay) (d : ℕ) : Prop :=
  ∀ k < replayWindow, k ≠ 0 →
    ((replayShiftBitmap r d).marked k ↔ d ≤ k ∧ r.marked (k - d))

variable {r : Replay} {d : ℕ}

theorem shifts_of_empty (hr : ∀ k < replayWindow, ¬ r.marked k) (hd : d < replayWindow) :
    r.Shifts d := by
  have hempty : ∀ k, ¬ r.marked k := fun k => by
    rcases Nat.lt_or_ge k replayWindow with h | h
    · exact hr k h
    · exact marked_out r h
  intro k _ _
  simp [marked_shift r hd, hempty]

theorem marked_shift_word (r : Replay) (hd : d < 64) (k : ℕ) :
    (replayShiftBitmap r d).marked k ↔
      d ≤ k % 64 ∧ r.marked (k - d) ∨ k % 64 < d ∧ r.marked (k + 128 - d) := by
  have hdiv : d / 64 = 0 := Nat.div_eq_of_lt hd
  have hmod : d % 64 = d := Nat.mod_eq_of_lt hd
  have hlt : d < replayWindow := Nat.lt_trans hd (by decide)
  rw [marked_shift r hlt k, hdiv, hmod]
  simp

-- Only the positions that cross into the next word can go wrong.
theorem shifts_iff_carried (r : Replay) (hd : d < 64) :
    r.Shifts d ↔ ∀ k < replayWindow, k ≠ 0 → k % 64 < d →
      (r.marked (k + 128 - d) ↔ d ≤ k ∧ r.marked (k - d)) := by
  constructor
  · intro h k hk h0 hcarry
    rw [← h k hk h0, marked_shift_word r hd]
    simp [hcarry, Nat.not_le.mpr hcarry]
  · intro h k hk h0
    rw [marked_shift_word r hd]
    rcases Nat.lt_or_ge (k % 64) d with hcarry | hsame
    · rw [← h k hk h0 hcarry]
      simp [hcarry, Nat.not_le.mpr hcarry]
    · have hdk : d ≤ k := Nat.le_trans hsame (Nat.mod_le k 64)
      simp [hsame, Nat.not_lt.mpr hsame, hdk]

theorem shifts_of_clean (h : r.CleanJump d) (hpos : 0 < d) (hd : d < replayWindow) :
    r.Shifts d := by
  rcases h with hempty | ⟨hd, hclear, h0, h2, h13⟩
  · exact shifts_of_empty hempty hd
  · have hclear' : ∀ k, 64 - d < k % 64 → ¬ r.marked k := by
      intro k hk
      rcases Nat.lt_or_ge k replayWindow with h | h
      · exact hclear k h hk
      · exact marked_out r h
    rw [shifts_iff_carried r hd]
    intro k hk hne hcarry
    unfold replayWindow at hk
    rcases Nat.eq_zero_or_pos (k % 64) with hj | hj
    · have hk' : k = 64 ∨ k = 128 ∨ k = 192 := by omega
      have hout : ¬ r.marked (320 - d) := marked_out r (by unfold replayWindow; omega)
      rcases hk' with rfl | rfl | rfl
      · simp [h0, h2]
      · have : d ≤ 128 := by omega
        simp [h13, this]
      · simp [h2, hout]
    · have hnext : ¬ r.marked (k + 128 - d) := hclear' _ (by omega)
      have hback : d ≤ k → ¬ r.marked (k - d) := fun hdk => hclear' _ (by omega)
      simpa [hnext] using hback

theorem clean_of_shifts_word (hd : d < 64) (h : r.Shifts d) (hpos : 0 < d) : r.CleanJump d := by
  have hcarry := (shifts_iff_carried r hd).mp h
  have word3 : ∀ j < d, ¬ r.marked (192 - d + j) := by
    intro j hj
    have := hcarry (192 + j) (by unfold replayWindow; omega) (by omega) (by omega)
    rw [show 192 + j - d = 192 - d + j by omega] at this
    have hout : ¬ r.marked (192 + j + 128 - d) := marked_out r (by unfold replayWindow; omega)
    intro hm
    exact hout (this.mpr ⟨by omega, hm⟩)
  have word1 : ∀ j < d, ¬ r.marked (64 - d + j) := by
    intro j hj hm
    have := hcarry (64 + j) (by unfold replayWindow; omega) (by omega) (by omega)
    rw [show 64 + j + 128 - d = 192 - d + j by omega, show 64 + j - d = 64 - d + j by omega] at this
    exact word3 j hj (this.mpr ⟨by omega, hm⟩)
  have word4 : ∀ j < d, (r.marked (128 - d + j) ↔ r.marked (256 - d + j)) := by
    intro j hj
    have := hcarry (128 + j) (by unfold replayWindow; omega) (by omega) (by omega)
    rw [show 128 + j + 128 - d = 256 - d + j by omega,
      show 128 + j - d = 128 - d + j by omega] at this
    rw [this]
    exact ⟨fun hm => ⟨by omega, hm⟩, fun hm => hm.2⟩
  have word2 : ∀ j < d, 0 < j → ¬ r.marked (128 - d + j) := by
    intro j hj h0 hm
    have := hcarry j (by unfold replayWindow; omega) (by omega) (by omega)
    rw [show j + 128 - d = 128 - d + j by omega] at this
    have := this.mp hm
    omega
  refine Or.inr ⟨hd, ?_, word1 0 hpos, word3 0 hpos, word4 0 hpos⟩
  intro k hk hj
  unfold replayWindow at hk
  have hjd : k % 64 - (64 - d) < d := by omega
  have hk' : k / 64 = 0 ∨ k / 64 = 1 ∨ k / 64 = 2 ∨ k / 64 = 3 := by omega
  rcases hk' with hw | hw | hw | hw
  · rw [show k = 64 - d + (k % 64 - (64 - d)) by omega]
    exact word1 _ hjd
  · rw [show k = 128 - d + (k % 64 - (64 - d)) by omega]
    exact word2 _ hjd (by omega)
  · rw [show k = 192 - d + (k % 64 - (64 - d)) by omega]
    exact word3 _ hjd
  · rw [show k = 256 - d + (k % 64 - (64 - d)) by omega, ← word4 _ hjd]
    exact word2 _ hjd (by omega)

theorem clean_of_shifts (hnew : r.marked 0) (hpos : 0 < d) (hd : d < replayWindow)
    (h : r.Shifts d) : r.CleanJump d := by
  rcases Nat.lt_or_ge d 64 with hlt | hge
  · exact clean_of_shifts_word hlt h hpos
  · -- the newest mark would have to come from position 128, and that one from outside
    exfalso
    unfold replayWindow at hd
    have h0 := (h d hd (by omega)).mpr ⟨Nat.le_refl d, by simpa using hnew⟩
    rw [marked_shift r hd] at h0
    simp only [Nat.le_refl, true_and, Nat.lt_irrefl, false_and, or_false] at h0
    have hin : 64 * (d / 64) + d - d % 64 < replayWindow := by
      by_contra hout
      exact marked_out r (Nat.le_of_not_lt hout) (by rwa [Nat.add_comm (64 * (d / 64)) d])
    unfold replayWindow at hin
    have hone : d / 64 = 1 := by omega
    rw [show d + 64 * (d / 64) - d % 64 = 128 by omega] at h0
    have h1 := (h (d + 128) (by unfold replayWindow; omega) (by omega)).mpr
      ⟨by omega, by simpa using h0⟩
    rw [marked_shift r hd] at h1
    have hmod : (d + 128) % 64 = d % 64 := by omega
    simp only [hmod, Nat.le_refl, true_and, Nat.lt_irrefl, false_and, or_false, hone] at h1
    exact marked_out r (by unfold replayWindow; omega) h1

theorem shifts_iff_clean (hnew : (∀ k < replayWindow, ¬ r.marked k) ∨ r.marked 0) (hpos : 0 < d)
    (hd : d < replayWindow) : r.Shifts d ↔ r.CleanJump d := by
  rcases hnew with hempty | hnew
  · exact ⟨fun _ => Or.inl hempty, fun _ => shifts_of_empty hempty hd⟩
  · exact ⟨clean_of_shifts hnew hpos hd, fun h => shifts_of_clean h hpos hd⟩

/-- What the window says about the counters accepted so far. -/
structure Replay.Tracks (r : Replay) (seen : Set ℕ) : Prop where
  window : Represents replayWindow r.maxSeq.toNat r.marked seen
  newest : seen = ∅ ∧ r.maxSeq = 0 ∨ r.maxSeq.toNat ∈ seen

theorem Replay.tracks_zero : Replay.zero.Tracks ∅ where
  window := represents_empty _ (by simp [Replay.marked, Replay.zero])
  newest := Or.inl ⟨rfl, rfl⟩

theorem Replay.Tracks.empty_or_newest (h : r.Tracks seen) :
    (∀ k < replayWindow, ¬ r.marked k) ∨ r.marked 0 := by
  rcases h.newest with ⟨rfl, _⟩ | hmem
  · refine Or.inl fun k hk => ?_
    rw [h.window.mark k hk]
    simp
  · apply Or.inr
    rw [h.window.mark 0 (by decide)]
    simpa using hmem

def Replay.jump (r : Replay) (seq : BitVec 64) : ℕ := seq.toNat - r.maxSeq.toNat

/-- The counters the window can take in: late ones, jumps past the whole window, clean jumps. -/
def Replay.CleanFor (r : Replay) (seq : BitVec 64) : Prop :=
  0 < r.jump seq → r.jump seq < replayWindow → r.CleanJump (r.jump seq)

instance (r : Replay) (seq : BitVec 64) : Decidable (r.CleanFor seq) :=
  inferInstanceAs (Decidable (_ → _))

theorem replayCheck_newer (h : r.maxSeq < seq) :
    replayCheck r seq = (true,
      { maxSeq := seq, bitmap := setBit (replayShiftBitmap r (r.jump seq)).bitmap 0 }) := by
  have hj : (seq - r.maxSeq).toNat = r.jump seq := by
    unfold Replay.jump
    bv_omega
  simp [replayCheck, h, hj]

theorem replayCheck_late (h : ¬ r.maxSeq < seq) :
    replayCheck r seq =
      if replayWindow ≤ r.maxSeq.toNat - seq.toNat then (false, r)
      else if r.marked (r.maxSeq.toNat - seq.toNat) then (false, r)
      else (true, { r with bitmap := setBit r.bitmap (r.maxSeq.toNat - seq.toNat) }) := by
  have hd : (r.maxSeq - seq).toNat = r.maxSeq.toNat - seq.toNat := by bv_omega
  simp only [replayCheck, gt_iff_lt, h, ↓reduceIte, hd, ge_iff_le, and_bitMask_ne_zero,
    Replay.marked]
  rfl

theorem marked_newer (seq : BitVec 64) (k : ℕ) :
    (Replay.mk seq (setBit (replayShiftBitmap r d).bitmap 0)).marked k ↔
      k = 0 ∨ (replayShiftBitmap r d).marked k :=
  marked_setBit _ _ _ (by decide) k

theorem marked_shift_far (hd : replayWindow ≤ d) (k : ℕ) : ¬ (replayShiftBitmap r d).marked k := by
  simp [replayShiftBitmap, hd, Replay.marked]

theorem Replay.Tracks.newer_iff (h : r.Tracks seen) (hnew : r.maxSeq < seq) :
    (replayCheck r seq).2.Tracks (insert seq.toNat seen) ↔ r.CleanFor seq := by
  have hpos : 0 < r.jump seq := by
    unfold Replay.jump
    bv_omega
  have hseq : seq.toNat = r.maxSeq.toNat + r.jump seq := by
    unfold Replay.jump
    bv_omega
  have hwindow : (replayCheck r seq).2.Tracks (insert seq.toNat seen) ↔
      ∀ k < replayWindow, k ≠ 0 →
        ((replayShiftBitmap r (r.jump seq)).marked k ↔
          r.jump seq ≤ k ∧ r.marked (k - r.jump seq)) := by
    rw [replayCheck_newer hnew]
    constructor
    · intro ht k hk h0
      have hrep := ht.window
      simp only [hseq] at hrep
      have := (h.window.advance_iff hpos).mp hrep k hk
      simpa [marked_newer, h0] using this
    · intro hs
      refine ⟨?_, Or.inr (Set.mem_insert _ _)⟩
      simp only [hseq]
      refine (h.window.advance_iff hpos).mpr fun k hk => ?_
      rw [marked_newer]
      rcases Nat.eq_zero_or_pos k with rfl | hk0
      · simp
      · rw [hs k hk (by omega)]
  rw [hwindow]
  rcases Nat.lt_or_ge (r.jump seq) replayWindow with hd | hd
  · rw [show r.CleanFor seq ↔ r.CleanJump (r.jump seq) from
      ⟨fun hc => hc hpos hd, fun hc _ _ => hc⟩]
    exact shifts_iff_clean h.empty_or_newest hpos hd
  · have hfar : r.CleanFor seq := fun _ hlt => absurd hlt (Nat.not_lt.mpr hd)
    refine ⟨fun _ => hfar, fun _ k hk _ => ?_⟩
    have hk' : ¬ r.jump seq ≤ k := by omega
    simp [marked_shift_far hd, hk']

theorem Replay.Tracks.late_iff (h : r.Tracks seen) (hlate : ¬ r.maxSeq < seq) :
    (replayCheck r seq).1 = true ↔
      r.maxSeq.toNat - seq.toNat < replayWindow ∧ seq.toNat ∉ seen := by
  have hle : seq.toNat ≤ r.maxSeq.toNat := by bv_omega
  rw [replayCheck_late hlate]
  split
  · rename_i hout
    simp [Nat.not_lt.mpr hout]
  · rename_i hin
    rw [h.window.mem_iff hle (Nat.lt_of_not_le hin)]
    split <;> simp_all

theorem Replay.Tracks.late (h : r.Tracks seen) (hlate : ¬ r.maxSeq < seq) :
    (replayCheck r seq).2.Tracks
      (if (replayCheck r seq).1 then insert seq.toNat seen else seen) := by
  have hle : seq.toNat ≤ r.maxSeq.toNat := by bv_omega
  rw [replayCheck_late hlate]
  split
  · exact h
  · rename_i hin
    split
    · exact h
    · refine ⟨h.window.late hle fun k _ => marked_setBit _ _ _ (Nat.lt_of_not_le hin) k, ?_⟩
      rcases h.newest with ⟨_, hzero⟩ | hmem
      · have heq : r.maxSeq.toNat = seq.toNat := by
          rw [hzero] at hle ⊢
          simpa using (Nat.le_zero.mp (by simpa using hle)).symm
        exact Or.inr (heq ▸ Set.mem_insert _ _)
      · exact Or.inr (Set.mem_insert_of_mem _ hmem)

structure ReplayRun where
  window : Replay
  log : List Verdict
  deriving DecidableEq

def ReplayRun.present (s : ReplayRun) (seq : BitVec 64) : ReplayRun where
  window := (replayCheck s.window seq).2
  log := ⟨seq.toNat, s.window.maxSeq.toNat, (replayCheck s.window seq).1⟩ :: s.log

@[simp] theorem ReplayRun.present_window (s : ReplayRun) (seq : BitVec 64) :
    (s.present seq).window = (replayCheck s.window seq).2 := rfl

@[simp] theorem ReplayRun.present_log (s : ReplayRun) (seq : BitVec 64) : (s.present seq).log =
    ⟨seq.toNat, s.window.maxSeq.toNat, (replayCheck s.window seq).1⟩ :: s.log := rfl

def ReplayRun.fresh : ReplayRun where
  window := Replay.zero
  log := []

def replaySystem : System ReplayRun (BitVec 64) :=
  System.machine .fresh (fun _ _ => True) ReplayRun.present

structure ReplayRun.Inv (s : ReplayRun) : Prop where
  tracks : s.window.Tracks (accepted s.log)
  sound : Sound replayWindow s.log

theorem ReplayRun.Inv.present (h : ReplayRun.Inv s) (hclean : s.window.CleanFor seq) :
    (s.present seq).Inv := by
  by_cases hnew : s.window.maxSeq < seq
  · have hfst : (replayCheck s.window seq).1 = true := by rw [replayCheck_newer hnew]
    have hfresh : seq.toNat ∉ accepted s.log := h.tracks.window.not_mem (by bv_omega)
    constructor
    · rw [present_window, present_log, accepted_cons, hfst]
      exact (h.tracks.newer_iff hnew).mpr hclean
    · rw [present_log, hfst]
      refine h.sound.cons (fun _ => by simp [hfresh]) fun hout => ?_
      exact absurd (Or.inl (by bv_omega)) hout
  · have hle : ¬ s.window.maxSeq.toNat < seq.toNat := by bv_omega
    have hverdict := h.tracks.late_iff hnew
    constructor
    · rw [present_window, present_log, accepted_cons]
      exact h.tracks.late hnew
    · rw [present_log]
      generalize (replayCheck s.window seq).1 = verdict at hverdict
      refine h.sound.cons (fun hin => ?_) fun hout => ?_
      · rw [hverdict]
        exact and_iff_right (hin.resolve_left hle)
      · rw [← Bool.not_eq_true, hverdict]
        exact fun hin => hout (Or.inr hin.1)

/-- On the runs whose jumps are all clean the window accepts no counter twice and refuses no new
counter inside it. -/
theorem replay_sound_of_clean
    (h : (replaySystem.restrict fun s seq => s.window.CleanFor seq).Reachable s) :
    Sound replayWindow s.log := by
  suffices ReplayRun.Inv s from this.sound
  refine h.invariant ?_ ?_
  · rintro s rfl
    exact ⟨by simpa [ReplayRun.fresh, accepted] using Replay.tracks_zero, trivial⟩
  · rintro s seq t _ hinv ⟨hclean, _, rfl⟩
    exact hinv.present hclean

theorem replay_sound_of_clean_three :
    Sound replayWindow (([1, 3, 2] : List (BitVec 64)).foldl ReplayRun.present .fresh).log := by
  apply replay_sound_of_clean
  rw [replaySystem, System.machine_restrict]
  exact System.reachable_foldl _ (by decide +kernel)

-- The jump from 1 to 65 drops the mark of 1, so 1 is accepted again.
theorem replay_not_sound : ¬ ∀ s, replaySystem.Reachable s → Sound replayWindow s.log := by
  intro h
  have hrun := h _ (System.reachable_foldl [1, 65, 1] (by decide))
  have htwice : ¬ Sound replayWindow
      (([1, 65, 1] : List (BitVec 64)).foldl ReplayRun.present .fresh).log := by decide
  exact htwice hrun

end YumiBrowser.Sudp
