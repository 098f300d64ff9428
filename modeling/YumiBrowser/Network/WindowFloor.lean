import Mathlib.Algebra.Order.Floor.Div
import YumiBrowser.Library.System
import YumiBrowser.Network.LossWatchdog

universe u

namespace YumiBrowser.Udp

open Transition
open Double (ofU64 toU64)

variable {F : Type u}

/-- What the caller may set before the first send. -/
structure CcTuning (F : Type u) where
  tdsRateFactor : F
  tdsSlotTargetUs : BitVec 64
  reprobeIntervalUs : BitVec 64
  lossReprobeThresh : F

/-- A call of the controller. -/
inductive CcCall
  | send (pkt : CcPacket) (nowUs : BitVec 64)
  | ack (pkt : CcPacket) (ackedBytes rttUs nowUs : BitVec 64)
  | loss (lostBytes : BitVec 64)
  | reprobe (nowUs : BitVec 64)
  deriving DecidableEq

namespace BbrProbe

variable [Double F] (p : BbrProbe F) (rateFactor : F) (slotUs : BitVec 64)

def burst : BitVec 64 :=
  let burst := toU64 (ofU64 (toU64 (ofU64 p.btlBw * rateFactor)) * ofU64 slotUs / (1e6 : F))
  if burst = 0 then 1 else burst

def roundBytes : ℕ := (p.burst rateFactor slotUs).toNat * (p.rtpropUs.toNat / max 1 slotUs.toNat)

structure Spans (least : ℕ) : Prop where
  long : p.roundBytes rateFactor slotUs < 2 ^ 64 →
    (least ⌈/⌉ (p.burst rateFactor slotUs).toNat) * max 1 slotUs.toNat ≤ p.rtpropUs.toNat
  counted : 2 ^ 64 ≤ p.roundBytes rateFactor slotUs → least ≤ p.roundBytes rateFactor slotUs % 2 ^ 64

variable {p rateFactor slotUs}

theorem burst_pos : 0 < (p.burst rateFactor slotUs).toNat := by
  unfold burst
  dsimp only
  split
  · decide
  · rename_i hne
    exact Nat.pos_of_ne_zero fun hzero => hne (BitVec.eq_of_toNat_eq hzero)

theorem spans_iff {least : ℕ} :
    p.Spans rateFactor slotUs least ↔ least ≤ p.roundBytes rateFactor slotUs % 2 ^ 64 := by
  have hlong : (least ⌈/⌉ (p.burst rateFactor slotUs).toNat) * max 1 slotUs.toNat ≤ p.rtpropUs.toNat ↔
      least ≤ p.roundBytes rateFactor slotUs := by
    rw [← Nat.le_div_iff_mul_le (by omega), ceilDiv_le_iff_le_mul burst_pos]
    rfl
  constructor
  · intro h
    by_cases hfits : p.roundBytes rateFactor slotUs < 2 ^ 64
    · rw [Nat.mod_eq_of_lt hfits]
      exact hlong.mp (h.long hfits)
    · exact h.counted (by omega)
  · intro h
    refine ⟨fun hfits => ?_, fun _ => h⟩
    rw [Nat.mod_eq_of_lt hfits] at h
    exact hlong.mpr h

end BbrProbe

namespace Cc

def limits (cc : Cc F) : BitVec 64 × BitVec 64 × BitVec 64 × F :=
  (cc.minCwnd, cc.initialCwnd, cc.tdsSlotTargetUs, cc.tdsRateFactor)

variable [Double F] (cc : Cc F)

def call : CcCall → Cc F
  | .send pkt nowUs => (cc.onSend pkt nowUs).1
  | .ack pkt ackedBytes rttUs nowUs => cc.onAck pkt nowUs ackedBytes rttUs
  | .loss lostBytes => cc.onLoss lostBytes
  | .reprobe nowUs => cc.forceReprobe nowUs

def tuned (t : CcTuning F) : Cc F :=
  { cc with
    tdsRateFactor := t.tdsRateFactor
    tdsSlotTargetUs := t.tdsSlotTargetUs
    reprobeIntervalUs := t.reprobeIntervalUs
    lossReprobeThresh := t.lossReprobeThresh }

def calls (mss : BitVec 64) (t : CcTuning F) (cs : List CcCall) : Cc F := cs.foldl call ((init mss).tuned t)

def graduates : CcCall → Option (BbrProbe F)
  | .ack pkt ackedBytes rttUs nowUs =>
    let p := (cc.probe.deliver pkt nowUs ackedBytes).estimate pkt cc.initialCwnd cc.minCwnd nowUs rttUs
    if cc.mode = .probe ∧ p.shouldGraduateToTds then some p else none
  | _ => none

variable {cc} {pkt : CcPacket} {nowUs : BitVec 64} {c : CcCall}

theorem getCwnd_enterTds : (cc.enterTds nowUs).getCwnd.toNat =
    cc.probe.roundBytes cc.tdsRateFactor cc.tdsSlotTargetUs % 2 ^ 64 := by
  have hslot : (if cc.tdsSlotTargetUs = 0 then 1 else cc.tdsSlotTargetUs).toNat = max 1 cc.tdsSlotTargetUs.toNat := by
    split
    · rename_i hzero
      rw [hzero]
      rfl
    · rename_i hne
      have hpos : cc.tdsSlotTargetUs.toNat ≠ 0 := fun hzero => hne (BitVec.eq_of_toNat_eq hzero)
      omega
  rw [BbrProbe.roundBytes, ← hslot, ← BitVec.toNat_udiv, ← BitVec.toNat_mul]
  rfl

theorem getCwnd_enterProbe : (cc.enterProbe nowUs).getCwnd = cc.initialCwnd := by
  unfold enterProbe getCwnd
  dsimp only
  split
  · rfl
  · rfl

theorem minCwnd_le_setCwnd (p : BbrProbe F) (initialCwnd minCwnd : BitVec 64) :
    minCwnd ≤ (p.setCwnd initialCwnd minCwnd).cwnd := by
  have hraised (cwnd : BitVec 64) : minCwnd ≤ if cwnd < minCwnd then minCwnd else cwnd := by
    split
    · exact BitVec.le_refl _
    · rename_i hge
      exact BitVec.not_lt.mp hge
  unfold BbrProbe.setCwnd
  dsimp only
  split
  · exact BitVec.le_refl _
  · exact hraised _

theorem onAck_cases (cc : Cc F) (pkt : CcPacket) (nowUs ackedBytes rttUs : BitVec 64) :
    (∃ p, cc.graduates (.ack pkt ackedBytes rttUs nowUs) = some p ∧
      cc.onAck pkt nowUs ackedBytes rttUs = { cc with probe := p }.enterTds nowUs) ∨
    cc.graduates (.ack pkt ackedBytes rttUs nowUs) = none ∧
      ((∃ p : BbrProbe F, cc.mode = .probe ∧ cc.minCwnd ≤ p.cwnd ∧
          cc.onAck pkt nowUs ackedBytes rttUs = { cc with probe := p }) ∨
        ∃ t : TdsState, cc.mode = .tds ∧ t.window = cc.tds.window ∧
          (cc.onAck pkt nowUs ackedBytes rttUs = { cc with tds := t } ∨
            cc.onAck pkt nowUs ackedBytes rttUs = { cc with tds := t }.enterProbe nowUs)) := by
  unfold graduates onAck
  cases hmode : cc.mode with
  | probe =>
    have hmin : cc.minCwnd ≤ ((cc.probe.deliver pkt nowUs ackedBytes).estimate pkt cc.initialCwnd cc.minCwnd
        nowUs rttUs).cwnd := minCwnd_le_setCwnd _ _ _
    dsimp only
    generalize (cc.probe.deliver pkt nowUs ackedBytes).estimate pkt cc.initialCwnd cc.minCwnd nowUs rttUs = p
      at hmin ⊢
    cases hgraduate : p.shouldGraduateToTds with
    | true => exact .inl ⟨p, by simp, by simp⟩
    | false => exact .inr ⟨by simp, .inl ⟨p, rfl, hmin, by simp⟩⟩
  | tds =>
    have hwindow (t : TdsState) : (t.rotateWindow nowUs).window = t.window := by
      unfold TdsState.rotateWindow
      split
      · rfl
      · rfl
    let t := { cc.tds with totalAcked := cc.tds.totalAcked + ackedBytes }
    refine .inr ⟨if_neg fun h => CcMode.noConfusion h.1, .inr ⟨t.rotateWindow nowUs, rfl, hwindow t, ?_⟩⟩
    dsimp only
    split
    · exact .inr rfl
    · split
      · exact .inr rfl
      · exact .inl rfl

theorem getCwnd_call_cases (cc : Cc F) (c : CcCall) :
    (∃ p, cc.graduates c = some p ∧
      (cc.call c).getCwnd.toNat = p.roundBytes cc.tdsRateFactor cc.tdsSlotTargetUs % 2 ^ 64) ∨
    cc.graduates c = none ∧ ((cc.call c).getCwnd = cc.getCwnd ∨ (cc.call c).getCwnd = cc.initialCwnd ∨
      cc.minCwnd ≤ (cc.call c).getCwnd) := by
  cases c with
  | send pkt nowUs =>
    refine .inr ⟨rfl, .inl ?_⟩
    unfold call onSend getCwnd
    cases cc.mode with
    | probe => rfl
    | tds => rfl
  | loss lostBytes =>
    refine .inr ⟨rfl, .inl ?_⟩
    unfold call onLoss getCwnd
    cases cc.mode with
    | probe => rfl
    | tds => rfl
  | reprobe nowUs => exact .inr ⟨rfl, .inr (.inl getCwnd_enterProbe)⟩
  | ack pkt ackedBytes rttUs nowUs =>
    obtain ⟨p, hp, hack⟩ | ⟨hnone, ⟨p, hmode, hmin, hack⟩ | ⟨t, hmode, ht, hack | hack⟩⟩ :=
      onAck_cases cc pkt nowUs ackedBytes rttUs
    · refine .inl ⟨p, hp, ?_⟩
      rw [call, hack]
      exact getCwnd_enterTds
    · refine .inr ⟨hnone, .inr (.inr ?_)⟩
      rw [call, hack, getCwnd, hmode]
      exact hmin
    · refine .inr ⟨hnone, .inl ?_⟩
      rw [call, hack, getCwnd, getCwnd, hmode]
      exact ht
    · refine .inr ⟨hnone, .inr (.inl ?_)⟩
      rw [call, hack]
      exact getCwnd_enterProbe

theorem limits_call (c : CcCall) : (cc.call c).limits = cc.limits := by
  cases c with
  | send pkt nowUs =>
    change (cc.onSend pkt nowUs).1.limits = cc.limits
    unfold onSend
    cases cc.mode with
    | probe => rfl
    | tds => rfl
  | loss lostBytes =>
    change (cc.onLoss lostBytes).limits = cc.limits
    unfold onLoss
    cases cc.mode with
    | probe => rfl
    | tds => rfl
  | reprobe nowUs => rfl
  | ack pkt ackedBytes rttUs nowUs =>
    change (cc.onAck pkt nowUs ackedBytes rttUs).limits = cc.limits
    obtain ⟨p, -, hack⟩ | ⟨-, ⟨p, -, -, hack⟩ | ⟨t, -, -, hack | hack⟩⟩ :=
      onAck_cases cc pkt nowUs ackedBytes rttUs
    · rw [hack]
      rfl
    · rw [hack]
      rfl
    · rw [hack]
      rfl
    · rw [hack]
      rfl

/-- The window is not less than `BBR_MIN_CWND_PACKETS` packets. -/
def HasFloor (mss : BitVec 64) (cc : Cc F) : Prop :=
  bbrMinCwndPackets.toNat * mss.toNat ≤ cc.getCwnd.toNat

/-- Where the call ends the probe, the round trip it has found spans the least window. -/
def EntersSpanned (mss : BitVec 64) (cc : Cc F) (c : CcCall) : Prop :=
  ∀ p, cc.graduates c = some p →
    p.Spans cc.tdsRateFactor cc.tdsSlotTargetUs (bbrMinCwndPackets.toNat * mss.toNat)

/-- The window with which a probe starts can be counted, and is not less than the least one. -/
def StartsWide (mss : BitVec 64) : Prop :=
  bbrMinCwndPackets.toNat * mss.toNat ≤ 10 * mss.toNat % 2 ^ 64

theorem StartsWide.toNat {mss : BitVec 64} (h : StartsWide mss) :
    (bbrMinCwndPackets * mss).toNat = bbrMinCwndPackets.toNat * mss.toNat := by
  rw [BitVec.toNat_mul]
  exact Nat.mod_eq_of_lt (lt_of_le_of_lt h (Nat.mod_lt _ (by decide)))

theorem hasFloor_call {mss : BitVec 64} (hwide : StartsWide mss)
    (hmin : cc.minCwnd = bbrMinCwndPackets * mss) (hinitial : cc.initialCwnd = 10 * mss) (hfloor : cc.HasFloor mss) :
    (cc.call c).HasFloor mss ↔ cc.EntersSpanned mss c := by
  obtain ⟨p, hp, hwindow⟩ | ⟨hnone, hwindow⟩ := getCwnd_call_cases cc c
  · have hone : cc.EntersSpanned mss c ↔
        p.Spans cc.tdsRateFactor cc.tdsSlotTargetUs (bbrMinCwndPackets.toNat * mss.toNat) := by
      constructor
      · intro h
        exact h p hp
      · intro h q hq
        obtain rfl := Option.some.inj (hp.symm.trans hq)
        exact h
    rw [hone, BbrProbe.spans_iff, HasFloor, hwindow]
  · have hspanned : cc.EntersSpanned mss c := by
      intro p hp
      cases hnone.symm.trans hp
    refine iff_of_true ?_ hspanned
    obtain hsame | hstart | hleast := hwindow
    · rw [HasFloor, hsame]
      exact hfloor
    · rw [HasFloor, hstart, hinitial, BitVec.toNat_mul]
      exact hwide
    · rw [HasFloor, ← hwide.toNat, ← hmin]
      exact hleast

/-- The window keeps its floor in every state of a run if and only if a probe starts above it and every round
trip with which one ends spans it. -/
theorem hasFloor_calls_iff (mss : BitVec 64) (t : CcTuning F) (cs : List CcCall) :
    (∀ xs ys, cs = xs ++ ys → (calls mss t xs).HasFloor mss) ↔
      StartsWide mss ∧ ∀ xs c ys, cs = xs ++ c :: ys → (calls mss t xs).EntersSpanned mss c := by
  let start : Cc F := (init mss).tuned t
  have hstart : start.HasFloor mss ↔ StartsWide mss := by
    change _ ≤ (10 * mss).toNat ↔ _
    rw [BitVec.toNat_mul]
    rfl
  by_cases hwide : StartsWide mss
  · have hkeeps (cc : Cc F) (c : CcCall) (h : cc.limits = start.limits) : (cc.call c).limits = start.limits :=
      (limits_call c).trans h
    have hstep (cc : Cc F) (c : CcCall) (h : cc.limits = start.limits) (hfloor : cc.HasFloor mss) :
        (cc.call c).HasFloor mss ↔ cc.EntersSpanned mss c := by
      obtain ⟨hmin, hinitial, -⟩ := Prod.mk.inj h |>.imp id Prod.mk.inj
      exact hasFloor_call hwide hmin hinitial hfloor
    have hrun := System.holds_along_iff hkeeps hstep rfl (hstart.mpr hwide) cs
    rw [and_iff_right hwide]
    exact hrun
  · constructor
    · intro h
      exact absurd (hstart.mp (h [] cs rfl)) hwide
    · intro h
      exact absurd h.1 hwide

end Cc

/-- What the header suggests for the caller, and `yumi_cc_init` sets. -/
def CcTuning.default : CcTuning Exact := ⟨0.90, 1000, 30000000, 0.05⟩

def shortTrips (n : ℕ) : List CcCall :=
  (List.range n).flatMap fun i =>
    let sendTimeUs := BitVec.ofNat 64 (1000 * i + 700)
    let pkt := ⟨sendTimeUs, 1200, BitVec.ofNat 64 (1200 * i), BitVec.ofNat 64 (1000 * i),
      BitVec.ofNat 64 (1000 * i - 300), false, true⟩
    [.send (.unsent 1200) sendTimeUs, .ack pkt 1200 300 (sendTimeUs + 300)]

theorem shortTrips_closes :
    (Cc.calls 1200 .default (shortTrips 16)).getCwnd = 0 ∧
      ¬ (Cc.calls 1200 .default (shortTrips 16)).HasFloor 1200 := by
  have hclosed : (Cc.calls 1200 .default (shortTrips 16)).getCwnd = 0 := by decide +kernel
  refine ⟨hclosed, fun hfloor => ?_⟩
  rw [Cc.HasFloor, hclosed] at hfloor
  exact absurd hfloor (by decide)

end YumiBrowser.Udp
