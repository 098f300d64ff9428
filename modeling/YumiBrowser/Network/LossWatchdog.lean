import Mathlib.Data.Rat.Floor
import YumiBrowser.Network.Bbr

universe u

namespace YumiBrowser.Udp

variable {F : Type u}

section Watchdog

/-- The ack ends a window of the watchdog in which too much was lost, the loss and its bound compared exactly. -/
structure EndsLossyWindow (value : F → ℚ) (cc : Cc F) (nowUs : BitVec 64) : Prop where
  tds : cc.mode = .tds
  ends : tdsLossWindowUs ≤ nowUs - cc.tds.windowStart
  sent : 0 < cc.tds.windowSent
  lossy : value cc.lossReprobeThresh * cc.tds.windowSent.toNat < cc.tds.windowLost.toNat

variable [Double F] {cc : Cc F} {nowUs : BitVec 64}

-- A window that has run long enough to be judged is the one that has just been started again.
theorem lossExceeded_rotateWindow (t : TdsState) (thresh : F) :
    (t.rotateWindow nowUs).lossExceeded nowUs thresh = false := by
  have hyoung : nowUs - (t.rotateWindow nowUs).windowStart < tdsLossWindowUs := by
    unfold TdsState.rotateWindow
    split
    · rw [BitVec.sub_self]
      decide
    · rename_i hyoung
      exact BitVec.not_le.mp hyoung
  rw [TdsState.lossExceeded, if_pos hyoung]

theorem mode_onAck_tds (hmode : cc.mode = .tds) (pkt : CcPacket) (ackedBytes rttUs : BitVec 64) :
    (cc.onAck pkt nowUs ackedBytes rttUs).mode = .probe ↔ cc.reprobeIntervalUs < nowUs - cc.lastProbeTime := by
  rw [Cc.onAck, hmode]
  dsimp only
  rw [lossExceeded_rotateWindow]
  constructor
  · intro hprobe
    by_contra htimer
    rw [if_neg htimer, if_neg Bool.false_ne_true] at hprobe
    cases hprobe
  · intro htimer
    rw [if_pos htimer]
    rfl

/-- The watchdog never ends the cruise: only the timer of the next probe does. -/
theorem onAck_probes_iff {value : F → ℚ} (h : EndsLossyWindow value cc nowUs) (pkt : CcPacket)
    (ackedBytes rttUs : BitVec 64) :
    (cc.onAck pkt nowUs ackedBytes rttUs).mode = .probe ↔ cc.reprobeIntervalUs < nowUs - cc.lastProbeTime :=
  mode_onAck_tds h.tds pkt ackedBytes rttUs

def Exact : Type := ℚ

def Exact.value (x : Exact) : ℚ := x

instance : Double Exact where
  mul := Rat.mul
  div := Rat.div
  lt := Rat.instLT.lt
  ofScientific := Rat.ofScientific
  ofU64 n := mkRat n.toNat 1
  toU64 x := BitVec.ofNat 64 (Rat.floor x).toNat
  decidableLt := (inferInstance : DecidableLT ℚ)

def lossyCruise : Cc Exact :=
  { Cc.init 1000 with
    mode := .tds
    tds := { TdsState.zero with windowSent := 1000, windowLost := 1000, windowStart := 1000000 }
    lastProbeTime := 1000000 }

theorem lossyCruise_ends : EndsLossyWindow Exact.value lossyCruise 2000000 where
  tds := rfl
  ends := by decide
  sent := by decide
  lossy := by decide +kernel

theorem onAck_probes_iff_lossy :
    (lossyCruise.onAck (.unsent 100) 2000000 100 10).mode = .probe ↔ (30000000 : BitVec 64) < 1000000 :=
  onAck_probes_iff lossyCruise_ends (.unsent 100) 100 10

theorem lossyCruise_goes_on :
    EndsLossyWindow Exact.value lossyCruise 2000000 ∧
      (lossyCruise.onAck (.unsent 100) 2000000 100 10).mode = .tds :=
  ⟨lossyCruise_ends, by decide +kernel⟩

end Watchdog

end YumiBrowser.Udp
