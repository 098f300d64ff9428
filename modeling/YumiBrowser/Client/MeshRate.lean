import YumiBrowser.Client.Mesh
import YumiBrowser.Library.TokenBucket

namespace YumiBrowser.Client

open YumiBrowser.Group (I64)
open TokenBucket

def meshRateBytesSec : I64 := 10240

/-- The rate limiter of a `peer_slot_t`, in its 64-bit fields. -/
structure SlotBucket where
  meshTokens : I64
  meshLastRefill : I64

/-- A call of `mesh_bucket_allow`, with the time that it reads. -/
structure RateCall where
  now : I64
  nbytes : BitVec 32

namespace SlotBucket

def created : SlotBucket := ⟨0, 0⟩

/-- What `slot_free` leaves behind. -/
def freed : SlotBucket := ⟨meshRateBytesSec, 0⟩

def refilledAt (s : SlotBucket) (now : I64) : I64 := if s.meshLastRefill = 0 then now else s.meshLastRefill

def elapsed (s : SlotBucket) (now : I64) : I64 := now - s.refilledAt now

def credit (s : SlotBucket) (now : I64) : I64 := (meshRateBytesSec * s.elapsed now).sdiv 1000

def refill (s : SlotBucket) (now : I64) : SlotBucket :=
  if 0 < (s.elapsed now).toInt then
    let tokens := s.meshTokens + s.credit now
    { meshTokens := if meshRateBytesSec.toInt < tokens.toInt then meshRateBytesSec else tokens
      meshLastRefill := now }
  else { s with meshLastRefill := s.refilledAt now }

/-- `mesh_bucket_allow` -/
def meshBucketAllow (s : SlotBucket) (c : RateCall) : SlotBucket × Bool :=
  let s := s.refill c.now
  if s.meshTokens.toInt < c.nbytes.toNat then (s, false)
  else ({ s with meshTokens := s.meshTokens - c.nbytes.zeroExtend 64 }, true)

/-- None of the operations of a call wraps. -/
structure Exact (s : SlotBucket) (c : RateCall) : Prop where
  elapsed : (s.elapsed c.now).toInt = c.now.toInt - (s.refilledAt c.now).toInt
  product : (meshRateBytesSec * s.elapsed c.now).toInt = 10240 * (s.elapsed c.now).toInt
  sum : (s.meshTokens + s.credit c.now).toInt = s.meshTokens.toInt + 10240 * (s.elapsed c.now).toInt / 1000
  rest : c.nbytes.toNat ≤ (s.refill c.now).meshTokens.toInt →
    ((s.refill c.now).meshTokens - c.nbytes.zeroExtend 64).toInt = (s.refill c.now).meshTokens.toInt - c.nbytes.toNat

def InRange (s : SlotBucket) : Prop := 0 ≤ s.meshTokens.toInt ∧ s.meshTokens.toInt ≤ 10240

def trace : SlotBucket → List RateCall → List (SlotBucket × RateCall)
  | _, [] => []
  | s, c :: calls => (s, c) :: trace (s.meshBucketAllow c).1 calls

def granted (s : SlotBucket) (c : RateCall) : ℤ × ℤ :=
  (c.now.toInt, if (s.meshBucketAllow c).2 then (c.nbytes.toNat : ℤ) else 0)

section Arithmetic

variable {x y : I64}

theorem toInt_sub_of (hlow : -2 ^ 63 ≤ x.toInt - y.toInt) (hhigh : x.toInt - y.toInt < 2 ^ 63) :
    (x - y).toInt = x.toInt - y.toInt := by
  rw [BitVec.toInt_sub, Int.bmod_eq_of_le]
  · exact hlow
  · exact hhigh

theorem toInt_add_of (hlow : -2 ^ 63 ≤ x.toInt + y.toInt) (hhigh : x.toInt + y.toInt < 2 ^ 63) :
    (x + y).toInt = x.toInt + y.toInt := by
  rw [BitVec.toInt_add, Int.bmod_eq_of_le]
  · exact hlow
  · exact hhigh

theorem toInt_mul_of (hlow : -2 ^ 63 ≤ x.toInt * y.toInt) (hhigh : x.toInt * y.toInt < 2 ^ 63) :
    (x * y).toInt = x.toInt * y.toInt := by
  rw [BitVec.toInt_mul, Int.bmod_eq_of_le]
  · exact hlow
  · exact hhigh

theorem toInt_sdiv_thousand (hx : 0 ≤ x.toInt) : (x.sdiv 1000).toInt = x.toInt / 1000 := by
  have hlt := x.toInt_lt
  have hthousand : (1000 : I64).toInt = 1000 := by decide
  rw [BitVec.toInt_sdiv, hthousand, Int.tdiv_eq_ediv_of_nonneg hx, Int.bmod_eq_of_le]
  · omega
  · omega

theorem toInt_zeroExtend (n : BitVec 32) : (n.zeroExtend 64).toInt = n.toNat := by
  have hlt := n.isLt
  rw [BitVec.toInt_eq_toNat_of_lt, BitVec.toNat_setWidth, Nat.mod_eq_of_lt]
  · omega
  · rw [BitVec.toNat_setWidth, Nat.mod_eq_of_lt]
    · omega
    · omega

end Arithmetic

def maxElapsed : ℤ := 900719925474099

/-- A call comes after another, and not too long after it. -/
def Follows (c c' : RateCall) : Prop :=
  c.now.toInt ≤ c'.now.toInt ∧ c'.now.toInt - c.now.toInt ≤ maxElapsed

def gain (t t' : ℤ) : ℤ := 10240 * (t' - t) / 1000

theorem accrual_gain : Accrual gain where
  nonneg t t' h := by
    unfold gain
    omega
  add_le t t' t'' h h' := by
    unfold gain
    omega

section Call

variable {s : SlotBucket} {c : RateCall}

structure Due (s : SlotBucket) (c : RateCall) : Prop where
  range : s.InRange
  low : 0 ≤ c.now.toInt - (s.refilledAt c.now).toInt
  high : c.now.toInt - (s.refilledAt c.now).toInt ≤ maxElapsed

theorem Due.elapsed (h : s.Due c) : (s.elapsed c.now).toInt = c.now.toInt - (s.refilledAt c.now).toInt := by
  obtain ⟨-, hlow, hhigh⟩ := h
  unfold maxElapsed at hhigh
  exact toInt_sub_of (by omega) (by omega)

theorem Due.product (h : s.Due c) :
    (meshRateBytesSec * s.elapsed c.now).toInt = 10240 * (s.elapsed c.now).toInt := by
  have helapsed := h.elapsed
  obtain ⟨-, hlow, hhigh⟩ := h
  unfold maxElapsed at hhigh
  have hrate : meshRateBytesSec.toInt = 10240 := by decide
  rw [toInt_mul_of, hrate]
  · rw [hrate, helapsed]
    omega
  · rw [hrate, helapsed]
    omega

theorem Due.sum (h : s.Due c) : (s.meshTokens + s.credit c.now).toInt =
    s.meshTokens.toInt + 10240 * (s.elapsed c.now).toInt / 1000 := by
  have helapsed := h.elapsed
  have hproduct := h.product
  obtain ⟨⟨htokens, hfull⟩, hlow, hhigh⟩ := h
  unfold maxElapsed at hhigh
  have hcredit : (s.credit c.now).toInt = 10240 * (s.elapsed c.now).toInt / 1000 := by
    rw [credit, toInt_sdiv_thousand (by omega), hproduct]
  rw [toInt_add_of, hcredit]
  · omega
  · omega

theorem Due.refill_tokens (h : s.Due c) : (s.refill c.now).meshTokens.toInt =
    min (s.meshTokens.toInt + 10240 * (s.elapsed c.now).toInt / 1000) 10240 := by
  have hsum := h.sum
  have hrate : meshRateBytesSec.toInt = 10240 := by decide
  unfold refill
  split
  · dsimp only
    rw [apply_ite BitVec.toInt, hsum, hrate]
    omega
  · next hnow =>
    have helapsed := h.elapsed
    obtain ⟨⟨htokens, hfull⟩, hlow, -⟩ := h
    dsimp only
    omega

theorem Due.refill_last (h : s.Due c) : (s.refill c.now).meshLastRefill = c.now := by
  unfold refill
  split
  · rfl
  · next hnow =>
    have helapsed := h.elapsed
    have hlow := h.low
    exact BitVec.eq_of_toInt_eq (by dsimp only; omega)

theorem Due.exact (h : s.Due c) : s.Exact c where
  elapsed := h.elapsed
  product := h.product
  sum := h.sum
  rest hroom := by
    have htokens := h.refill_tokens
    have hbytes := toInt_zeroExtend c.nbytes
    rw [toInt_sub_of, hbytes]
    · omega
    · omega

theorem Due.call (h : s.Due c) : (s.meshBucketAllow c).1.meshLastRefill = c.now ∧
    0 ≤ (granted s c).2 ∧ 0 ≤ (s.meshBucketAllow c).1.meshTokens.toInt ∧
      (s.meshBucketAllow c).1.meshTokens.toInt + (granted s c).2 =
        min (s.meshTokens.toInt + 10240 * (s.elapsed c.now).toInt / 1000) 10240 := by
  have htokens := h.refill_tokens
  have hlast := h.refill_last
  have hexact := h.exact
  obtain ⟨⟨hempty, hfull⟩, hlow, -⟩ := h
  have helapsed := hexact.elapsed
  unfold granted meshBucketAllow
  dsimp only
  split
  · refine ⟨hlast, le_rfl, ?_, ?_⟩
    · dsimp only
      omega
    · rw [← htokens]
      exact add_zero _
  · next hroom =>
    have hrest := hexact.rest (not_lt.mp hroom)
    dsimp only
    rw [hrest, if_pos rfl]
    refine ⟨hlast, ?_, ?_, ?_⟩
    · omega
    · omega
    · omega

theorem Due.bucket (h : s.Due c) (fwdBytes : ℕ) :
    Bucket.meshBucketAllow ⟨s.meshTokens.toInt, s.meshLastRefill.toInt, fwdBytes⟩ c.now.toInt c.nbytes.toNat =
      (⟨(s.meshBucketAllow c).1.meshTokens.toInt, (s.meshBucketAllow c).1.meshLastRefill.toInt, fwdBytes⟩,
        (s.meshBucketAllow c).2) := by
  have htokens := h.refill_tokens
  have hlast := h.refill_last
  have hrefill : Bucket.refill ⟨s.meshTokens.toInt, s.meshLastRefill.toInt, fwdBytes⟩ c.now.toInt =
      ⟨(s.refill c.now).meshTokens.toInt, c.now.toInt, fwdBytes⟩ := by
    rw [htokens, h.elapsed]
    obtain ⟨⟨-, hfull⟩, hlow, -⟩ := h
    unfold Bucket.refill
    by_cases hunset : s.meshLastRefill = 0
    · have hat : s.refilledAt c.now = c.now := if_pos hunset
      have hzero : s.meshLastRefill.toInt = 0 := by rw [hunset]; rfl
      simp [hat, hzero, hfull]
    · have hat : s.refilledAt c.now = s.meshLastRefill := if_neg hunset
      have hset : s.meshLastRefill.toInt ≠ 0 := fun hzero => hunset (BitVec.eq_of_toInt_eq hzero)
      rw [hat] at hlow ⊢
      dsimp only
      rw [if_neg hset]
      split
      · rfl
      · next hnow =>
        dsimp only at hnow
        have heq : c.now.toInt = s.meshLastRefill.toInt := by omega
        simp [heq, hfull]
  have hrest := h.exact.rest
  unfold Bucket.meshBucketAllow meshBucketAllow
  rw [hrefill]
  dsimp only
  split
  · rw [hlast]
  · next hroom => rw [hrest (not_lt.mp hroom), hlast]

end Call

section Calls

variable {s : SlotBucket} {prev : RateCall} {calls : List RateCall}

theorem due_of_follows {c : RateCall} (hrange : s.InRange)
    (hlast : s.meshLastRefill = 0 ∨ s.meshLastRefill = prev.now) (h : Follows prev c) :
    s.Due c ∧ c.now.toInt - (s.refilledAt c.now).toInt ≤ c.now.toInt - prev.now.toInt := by
  obtain ⟨hle, hmax⟩ := h
  by_cases hunset : s.meshLastRefill = 0
  · have hat : s.refilledAt c.now = c.now := if_pos hunset
    have hlow : 0 ≤ maxElapsed := by decide
    refine ⟨⟨hrange, ?_, ?_⟩, ?_⟩ <;> rw [hat] <;> omega
  · have hat : s.refilledAt c.now = prev.now := (if_neg hunset).trans (hlast.resolve_left hunset)
    refine ⟨⟨hrange, ?_, ?_⟩, ?_⟩ <;> rw [hat]
    · omega
    · omega

theorem pays_refill {t t' b b' amount elapsed : ℤ} (htime : t ≤ t') (hamount : 0 ≤ amount) (hleft : 0 ≤ b')
    (hpaid : b' + amount = min (b + 10240 * elapsed / 1000) 10240) (helapsed : elapsed ≤ t' - t) :
    Pays 10240 gain ⟨t, b⟩ amount ⟨t', b'⟩ where
  time_le := htime
  nonneg := hamount
  left := hleft
  capped := hpaid.trans_le (min_le_right _ _)
  paid := by
    rw [hpaid]
    unfold gain
    dsimp only
    omega

theorem trace_run (hrange : s.InRange) (hlast : s.meshLastRefill = 0 ∨ s.meshLastRefill = prev.now)
    (hcalls : (prev :: calls).IsChain Follows) :
    Run 10240 gain ⟨prev.now.toInt, s.meshTokens.toInt⟩ ((trace s calls).map fun p => granted p.1 p.2) ∧
      ∀ p ∈ trace s calls, p.1.InRange ∧ p.1.Exact p.2 ∧ (p.1.meshBucketAllow p.2).1.InRange := by
  induction calls generalizing s prev with
  | nil => exact ⟨.nil _, fun p hp => absurd hp List.not_mem_nil⟩
  | cons c calls ih =>
    obtain ⟨hfollows, hrest⟩ := List.isChain_cons_cons.mp hcalls
    obtain ⟨hdue, helapsed⟩ := due_of_follows hrange hlast hfollows
    obtain ⟨hnext, hgranted, hleft, hpaid⟩ := hdue.call
    have hpays := pays_refill hfollows.1 hgranted hleft hpaid (hdue.elapsed.trans_le helapsed)
    have hrange' : (s.meshBucketAllow c).1.InRange :=
      ⟨hleft, (le_add_of_nonneg_right hgranted).trans (hpaid.trans_le (min_le_right _ _))⟩
    obtain ⟨hrun, hall⟩ := ih hrange' (.inr hnext) hrest
    refine ⟨.cons hpays hrun, fun p hp => ?_⟩
    obtain rfl | hp := List.mem_cons.mp hp
    · exact ⟨hrange, hdue.exact, hrange'⟩
    · exact hall p hp

/-- A limiter that starts as `slot_free` leaves it, or unused, allows no more in any interval than the rate for its
length and one second more. -/
theorem mesh_rate_limited (hs : s = created ∨ s = freed) (hcalls : calls.IsChain Follows) :
    (∀ p ∈ trace s calls, p.1.InRange ∧ p.1.Exact p.2 ∧ (p.1.meshBucketAllow p.2).1.InRange) ∧
      ∀ t₀ t₁, t₀ ≤ t₁ →
        spent t₀ t₁ ((trace s calls).map fun p => granted p.1 p.2) ≤ 10240 + 10240 * (t₁ - t₀) / 1000 := by
  have hstart : s.InRange ∧ s.meshLastRefill = 0 := by
    obtain rfl | rfl := hs
    · exact ⟨⟨by decide, by decide⟩, rfl⟩
    · exact ⟨⟨by decide, by decide⟩, rfl⟩
  cases calls with
  | nil =>
    refine ⟨fun p hp => absurd hp List.not_mem_nil, fun t₀ t₁ h => ?_⟩
    change (0 : ℤ) ≤ _
    omega
  | cons c calls =>
    have hself : Follows c c := ⟨le_rfl, by rw [sub_self]; decide⟩
    obtain ⟨hrun, hall⟩ := trace_run hstart.1 (.inl hstart.2) (List.isChain_cons_cons.mpr ⟨hself, hcalls⟩)
    exact ⟨hall, fun t₀ t₁ h => hrun.spent_window_le accrual_gain (by decide) h⟩

theorem mesh_rate_limited_twice :
    (∀ p ∈ trace freed [⟨1, 4096⟩, ⟨500, 8192⟩], p.1.InRange ∧ p.1.Exact p.2 ∧ (p.1.meshBucketAllow p.2).1.InRange) ∧
      ∀ t₀ t₁, t₀ ≤ t₁ → spent t₀ t₁ ((trace freed [⟨1, 4096⟩, ⟨500, 8192⟩]).map fun p => granted p.1 p.2) ≤
        10240 + 10240 * (t₁ - t₀) / 1000 :=
  mesh_rate_limited (.inr rfl) (List.isChain_pair.mpr ⟨by decide, by decide⟩)

end Calls

section Wrap

theorem freed_wraps : ¬ ∀ calls : List RateCall, (calls.Pairwise fun c c' => c.now.toInt ≤ c'.now.toInt) →
    ∀ p ∈ trace freed calls, p.1.Exact p.2 ∧ (p.1.meshBucketAllow p.2).1.InRange := by
  intro hall
  have hordered : [RateCall.mk 1 0, RateCall.mk 900719925474101 0].Pairwise fun c c' => c.now.toInt ≤ c'.now.toInt :=
    List.pairwise_pair.mpr (by decide)
  have hlate := hall _ hordered ((freed.meshBucketAllow ⟨1, 0⟩).1, ⟨900719925474101, 0⟩)
    (List.mem_cons_of_mem _ List.mem_cons_self)
  exact absurd hlate.2.1 (by decide)

end Wrap

end SlotBucket

end YumiBrowser.Client
