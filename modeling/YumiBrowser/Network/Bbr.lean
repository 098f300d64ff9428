import YumiBrowser.Network.MaxFilter

universe u

namespace YumiBrowser.Udp

/-- What the controller uses of `double`. -/
class Double (F : Type u) extends Mul F, Div F, LT F, OfScientific F where
  ofU64 : BitVec 64 → F
  toU64 : F → BitVec 64
  decidableLt : DecidableLT F

instance Double.instDecidableLT [Double F] : DecidableLT F := Double.decidableLt

open Double (ofU64 toU64)

def Double.over [Double F] (x : F) (n : BitVec 64) (_ : n ≠ 0) : F := x / ofU64 n

inductive CcMode
  | probe
  | tds
  deriving DecidableEq

inductive BbrState
  | startup
  | drain
  | probeBw
  | probeRtt
  deriving DecidableEq

/-- `yumi_packet_t` -/
structure CcPacket where
  sendTimeUs : BitVec 64
  size : BitVec 64
  delivered : BitVec 64
  deliveredTime : BitVec 64
  firstSentTime : BitVec 64
  isAppLimited : Bool
  isProbe : Bool
  deriving DecidableEq

/-- A packet as the callers set it up, `{ .seq = seq, .size = size }`. -/
def CcPacket.unsent (size : BitVec 64) : CcPacket := ⟨0, size, 0, 0, 0, false, false⟩

/-- `bbr_probe_t` -/
structure BbrProbe (F : Type u) where
  state : BbrState
  btlBwFilter : MaxFilter
  btlBw : BitVec 64
  rtpropUs : BitVec 64
  rtpropStamp : BitVec 64
  nextRoundDelivered : BitVec 64
  roundCount : BitVec 64
  roundStart : Bool
  delivered : BitVec 64
  deliveredTime : BitVec 64
  pacingGain : F
  pacingRate : BitVec 64
  cwndGain : F
  cwnd : BitVec 64
  inflight : BitVec 64
  fullBw : BitVec 64
  fullBwCount : ℕ
  cycleIndex : ℕ
  cycleStamp : BitVec 64
  probeRttDone : Bool
  probeRttDoneStamp : BitVec 64
  rtpropExpired : Bool
  isAppLimited : Bool
  firstSentTime : BitVec 64
  startupBytesSent : BitVec 64
  startupBytesLost : BitVec 64

/-- `tds_state_t` -/
structure TdsState where
  sendRate : BitVec 64
  rtpropUs : BitVec 64
  slotIntervalUs : BitVec 64
  burstBytes : BitVec 64
  lastSlotTime : BitVec 64
  totalSent : BitVec 64
  totalAcked : BitVec 64
  totalLost : BitVec 64
  windowSent : BitVec 64
  windowLost : BitVec 64
  windowStart : BitVec 64

def TdsState.zero : TdsState := ⟨0, 0, 0, 0, 0, 0, 0, 0, 0, 0, 0⟩

/-- `yumi_cc_t` -/
structure Cc (F : Type u) where
  mode : CcMode
  mss : BitVec 64
  minCwnd : BitVec 64
  initialCwnd : BitVec 64
  probe : BbrProbe F
  tds : TdsState
  lastProbeTime : BitVec 64
  reprobeIntervalUs : BitVec 64
  tdsRateFactor : F
  tdsSlotTargetUs : BitVec 64
  lossReprobeThresh : F

def u64Max : BitVec 64 := BitVec.allOnes 64

def bbrRtpropFilterUs : BitVec 64 := 10000000
def bbrProbeRttDurationUs : BitVec 64 := 200000
def bbrFullBwCount : ℕ := 3
def bbrMinCwndPackets : BitVec 64 := 4
def probeBwSettleCycles : BitVec 64 := 16
def tdsLossWindowUs : BitVec 64 := 1000000

variable {F : Type u} [Double F]

def bbrStartupGain : F := 2.885
def bbrDrainPacingGain : F := 1.0 / bbrStartupGain

def bbrPacingGainCycle (i : ℕ) : F :=
  if i = 0 then 1.25 else if i = 1 then 0.75 else 1.0

namespace BbrProbe

variable (p : BbrProbe F) (pkt : CcPacket) (initialCwnd minCwnd nowUs : BitVec 64)

def bdp : BitVec 64 :=
  if p.rtpropUs = u64Max ∨ p.btlBw = 0 then initialCwnd
  else toU64 (ofU64 p.btlBw * ofU64 p.rtpropUs / (1e6 : F))

def interval : BitVec 64 :=
  let ackElapsed := p.deliveredTime - pkt.deliveredTime
  let sendElapsed := if pkt.sendTimeUs > pkt.firstSentTime then pkt.sendTimeUs - pkt.firstSentTime else 0
  if ackElapsed > sendElapsed then ackElapsed else sendElapsed

def deliveryRate : BitVec 64 :=
  let dBytes := p.delivered - pkt.delivered
  if h : p.interval pkt = 0 then 0
  else toU64 (Double.over (ofU64 dBytes * (1e6 : F)) (p.interval pkt) h)

def updateRound : BbrProbe F :=
  if pkt.delivered ≥ p.nextRoundDelivered then
    { p with nextRoundDelivered := p.delivered, roundCount := p.roundCount + 1, roundStart := true }
  else { p with roundStart := false }

def updateBtlBw (rate : BitVec 64) : BbrProbe F :=
  if rate = 0 then p
  else if pkt.isAppLimited ∧ rate ≤ p.btlBw then p
  else
    let btlBwFilter := maxFilterUpdate p.btlBwFilter ⟨rate, p.roundCount⟩
    { p with btlBwFilter, btlBw := maxFilterGet btlBwFilter }

def updateRtprop (rttUs : BitVec 64) : BbrProbe F :=
  let rtpropExpired : Bool := nowUs - p.rtpropStamp > bbrRtpropFilterUs
  if rttUs ≤ p.rtpropUs ∨ rtpropExpired then { p with rtpropExpired, rtpropUs := rttUs, rtpropStamp := nowUs }
  else { p with rtpropExpired }

def filledPipe : Bool := bbrFullBwCount ≤ p.fullBwCount

def checkFullBw : BbrProbe F :=
  if ¬ p.roundStart then p
  else if p.btlBw ≥ toU64 (ofU64 p.fullBw * (1.25 : F)) then { p with fullBw := p.btlBw, fullBwCount := 0 }
  else { p with fullBwCount := p.fullBwCount + 1 }

def setPacingRate : BbrProbe F :=
  let rate := toU64 (p.pacingGain * ofU64 p.btlBw)
  if p.filledPipe ∨ rate > p.pacingRate then { p with pacingRate := rate } else p

def setCwnd : BbrProbe F :=
  let target := toU64 (p.cwndGain * ofU64 (p.bdp initialCwnd))
  if p.state = .probeRtt then { p with cwnd := minCwnd }
  else
    let cwnd := if p.state = .startup then (if target > p.cwnd then target else p.cwnd) else target
    { p with cwnd := if cwnd < minCwnd then minCwnd else cwnd }

def enterDrain : BbrProbe F :=
  { p with state := .drain, pacingGain := bbrDrainPacingGain, cwndGain := bbrStartupGain }

def enterProbeBw : BbrProbe F :=
  let cycleIndex := 1 + nowUs.toNat % 7
  { p with
    state := .probeBw
    cwndGain := 2.0
    cycleIndex
    pacingGain := bbrPacingGainCycle cycleIndex
    cycleStamp := nowUs }

def enterProbeRtt : BbrProbe F :=
  { p with state := .probeRtt, pacingGain := 1.0, cwndGain := 1.0, probeRttDone := false }

def enterStartup : BbrProbe F :=
  { p with state := .startup, pacingGain := bbrStartupGain, cwndGain := bbrStartupGain }

def advanceCycle : BbrProbe F :=
  if nowUs - p.cycleStamp > p.rtpropUs then
    let cycleIndex := (p.cycleIndex + 1) % 8
    { p with cycleIndex, pacingGain := bbrPacingGainCycle cycleIndex, cycleStamp := nowUs }
  else p

def settleRtt : BbrProbe F :=
  if p.probeRttDone = false ∧ p.inflight ≤ minCwnd then
    { p with probeRttDone := true, probeRttDoneStamp := nowUs }
  else p

def leaveRtt : BbrProbe F :=
  if p.probeRttDone ∧ nowUs - p.probeRttDoneStamp > bbrProbeRttDurationUs then
    let p := { p with rtpropStamp := nowUs }
    if p.filledPipe then p.enterProbeBw nowUs else p.enterStartup
  else p

def updateState : BbrProbe F :=
  match p.state with
  | .startup =>
    let p := p.checkFullBw
    if p.filledPipe then p.enterDrain else p
  | .drain => if p.inflight ≤ p.bdp initialCwnd then p.enterProbeBw nowUs else p
  | .probeBw =>
    let p := p.advanceCycle nowUs
    if p.rtpropExpired then p.enterProbeRtt else p
  | .probeRtt => (p.settleRtt minCwnd nowUs).leaveRtt nowUs

/-- `probe_init` -/
def init : BbrProbe F where
  state := .startup
  btlBwFilter := maxFilterReset
  btlBw := 0
  rtpropUs := u64Max
  rtpropStamp := 0
  nextRoundDelivered := 0
  roundCount := 0
  roundStart := false
  delivered := 0
  deliveredTime := 0
  pacingGain := bbrStartupGain
  pacingRate := toU64 (ofU64 initialCwnd * (1e6 : F) / 1000.0)
  cwndGain := bbrStartupGain
  cwnd := initialCwnd
  inflight := 0
  fullBw := 0
  fullBwCount := 0
  cycleIndex := 0
  cycleStamp := 0
  probeRttDone := false
  probeRttDoneStamp := 0
  rtpropExpired := false
  isAppLimited := false
  firstSentTime := 0
  startupBytesSent := 0
  startupBytesLost := 0

def shouldGraduateToTds : Bool :=
  p.state = .probeBw ∧ ¬ (p.btlBw = 0 ∨ p.rtpropUs = u64Max) ∧ ¬ p.roundCount < probeBwSettleCycles

/-- What is in flight goes down by `bytes`, but not below zero. -/
def land (bytes : BitVec 64) : BbrProbe F :=
  { p with inflight := if p.inflight ≥ bytes then p.inflight - bytes else 0 }

def deliver (ackedBytes : BitVec 64) : BbrProbe F :=
  { p with
    delivered := p.delivered + ackedBytes
    deliveredTime := nowUs
    firstSentTime := pkt.sendTimeUs }.land ackedBytes

def estimate (rttUs : BitVec 64) : BbrProbe F :=
  let p := p.updateRound pkt
  let p := p.updateBtlBw pkt (p.deliveryRate pkt)
  let p := p.updateRtprop nowUs rttUs
  let p := p.updateState initialCwnd minCwnd nowUs
  p.setPacingRate.setCwnd initialCwnd minCwnd

end BbrProbe

namespace TdsState

variable (t : TdsState) (nowUs : BitVec 64)

def initFromProbe (p : BbrProbe F) (rateFactor : F) (slotUs : BitVec 64) : TdsState :=
  let sendRate := toU64 (ofU64 p.btlBw * rateFactor)
  let burst := toU64 (ofU64 sendRate * ofU64 slotUs / (1e6 : F))
  { TdsState.zero with
    sendRate
    rtpropUs := p.rtpropUs
    slotIntervalUs := slotUs
    burstBytes := if burst = 0 then 1 else burst
    lastSlotTime := nowUs
    windowStart := nowUs }

def lossExceeded (thresh : F) : Bool :=
  if nowUs - t.windowStart < tdsLossWindowUs then false
  else if h : t.windowSent = 0 then false
  else thresh < Double.over (ofU64 t.windowLost) t.windowSent h

def rotateWindow : TdsState :=
  if nowUs - t.windowStart ≥ tdsLossWindowUs then { t with windowSent := 0, windowLost := 0, windowStart := nowUs }
  else t

def window : BitVec 64 :=
  let slot := if t.slotIntervalUs = 0 then 1 else t.slotIntervalUs
  t.burstBytes * (t.rtpropUs / slot)

end TdsState

namespace Cc

variable (cc : Cc F) (pkt : CcPacket) (nowUs : BitVec 64)

def enterTds : Cc F :=
  { cc with
    tds := TdsState.initFromProbe nowUs cc.probe cc.tdsRateFactor cc.tdsSlotTargetUs
    mode := .tds
    lastProbeTime := nowUs }

def enterProbe : Cc F :=
  let probe := BbrProbe.init cc.initialCwnd
  { cc with
    mode := .probe
    probe :=
      if cc.tds.rtpropUs ≠ 0 ∧ cc.tds.rtpropUs ≠ u64Max then
        { probe with rtpropUs := cc.tds.rtpropUs, rtpropStamp := nowUs }
      else probe }

/-- `yumi_cc_init` -/
def init (mss : BitVec 64) : Cc F where
  mode := .probe
  mss := mss
  minCwnd := bbrMinCwndPackets * mss
  initialCwnd := 10 * mss
  probe := BbrProbe.init (10 * mss)
  tds := .zero
  lastProbeTime := 0
  reprobeIntervalUs := 30000000
  tdsRateFactor := 0.90
  tdsSlotTargetUs := 1000
  lossReprobeThresh := 0.05

/-- `yumi_cc_on_send`: the packet with what is recorded for it, and the pause before the next one. -/
def onSend : Cc F × CcPacket × BitVec 64 :=
  let p := cc.probe
  match cc.mode with
  | .probe =>
    ({ cc with probe :=
        { p with inflight := p.inflight + pkt.size, startupBytesSent := p.startupBytesSent + pkt.size } },
      { pkt with
        sendTimeUs := nowUs
        delivered := p.delivered
        deliveredTime := p.deliveredTime
        firstSentTime := p.firstSentTime
        isAppLimited := p.isAppLimited
        isProbe := true },
      if h : p.pacingRate = 0 then 0 else toU64 (Double.over (ofU64 pkt.size * (1e6 : F)) p.pacingRate h))
  | .tds =>
    ({ cc with tds :=
        { cc.tds with
          totalSent := cc.tds.totalSent + pkt.size
          windowSent := cc.tds.windowSent + pkt.size } },
      { pkt with sendTimeUs := nowUs, isProbe := false },
      cc.tds.slotIntervalUs)

/-- `yumi_cc_on_ack` -/
def onAck (ackedBytes rttUs : BitVec 64) : Cc F :=
  match cc.mode with
  | .probe =>
    let p := (cc.probe.deliver pkt nowUs ackedBytes).estimate pkt cc.initialCwnd cc.minCwnd nowUs rttUs
    if p.shouldGraduateToTds then { cc with probe := p }.enterTds nowUs else { cc with probe := p }
  | .tds =>
    let t := { cc.tds with totalAcked := cc.tds.totalAcked + ackedBytes }.rotateWindow nowUs
    if nowUs - cc.lastProbeTime > cc.reprobeIntervalUs then { cc with tds := t }.enterProbe nowUs
    else if t.lossExceeded nowUs cc.lossReprobeThresh then { cc with tds := t }.enterProbe nowUs
    else { cc with tds := t }

/-- `yumi_cc_on_loss` -/
def onLoss (lostBytes : BitVec 64) : Cc F :=
  match cc.mode with
  | .probe =>
    { cc with probe :=
      { cc.probe with startupBytesLost := cc.probe.startupBytesLost + lostBytes }.land lostBytes }
  | .tds =>
    { cc with tds :=
      { cc.tds with
        totalLost := cc.tds.totalLost + lostBytes
        windowLost := cc.tds.windowLost + lostBytes } }

/-- `yumi_cc_get_cwnd` -/
def getCwnd : BitVec 64 :=
  match cc.mode with
  | .probe => cc.probe.cwnd
  | .tds => cc.tds.window

/-- `yumi_cc_force_reprobe` -/
def forceReprobe : Cc F := cc.enterProbe nowUs

end Cc

end YumiBrowser.Udp
