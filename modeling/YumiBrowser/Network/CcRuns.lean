import YumiBrowser.Library.System
import YumiBrowser.Network.LossWatchdog

universe u

namespace YumiBrowser.Udp

open Transition

variable {F : Type u}

namespace BbrProbe

variable (p : BbrProbe F) (pkt : CcPacket) (initialCwnd minCwnd nowUs : BitVec 64)

def counters : BitVec 64 × BitVec 64 × BitVec 64 := (p.delivered, p.deliveredTime, p.inflight)

theorem counters_eq {p : BbrProbe F} {d t i : BitVec 64} :
    p.counters = (d, t, i) ↔ p.delivered = d ∧ p.deliveredTime = t ∧ p.inflight = i := by
  simp only [counters, Prod.mk.injEq]

@[simp] theorem counters_updateRound : (p.updateRound pkt).counters = p.counters := by
  unfold updateRound
  split <;> rfl

@[simp] theorem counters_updateBtlBw (rate : BitVec 64) : (p.updateBtlBw pkt rate).counters = p.counters := by
  unfold updateBtlBw
  split
  · rfl
  · split <;> rfl

@[simp] theorem counters_updateRtprop (rttUs : BitVec 64) :
    (p.updateRtprop nowUs rttUs).counters = p.counters := by
  unfold updateRtprop
  dsimp only
  split <;> rfl

@[simp] theorem counters_settleRtt : (p.settleRtt minCwnd nowUs).counters = p.counters := by
  unfold settleRtt
  split <;> rfl

variable [Double F]

@[simp] theorem counters_checkFullBw : p.checkFullBw.counters = p.counters := by
  unfold checkFullBw
  split
  · rfl
  · split <;> rfl

@[simp] theorem counters_advanceCycle : (p.advanceCycle nowUs).counters = p.counters := by
  unfold advanceCycle
  split <;> rfl

@[simp] theorem counters_leaveRtt : (p.leaveRtt nowUs).counters = p.counters := by
  unfold leaveRtt
  split
  · dsimp only
    split <;> rfl
  · rfl

@[simp] theorem counters_updateState :
    (p.updateState initialCwnd minCwnd nowUs).counters = p.counters := by
  unfold updateState
  split
  · dsimp only
    split
    · exact p.counters_checkFullBw
    · exact p.counters_checkFullBw
  · split <;> rfl
  · dsimp only
    split
    · exact p.counters_advanceCycle nowUs
    · exact p.counters_advanceCycle nowUs
  · rw [counters_leaveRtt, counters_settleRtt]

@[simp] theorem counters_setPacingRate : p.setPacingRate.counters = p.counters := by
  unfold setPacingRate
  dsimp only
  split <;> rfl

@[simp] theorem counters_setCwnd : (p.setCwnd initialCwnd minCwnd).counters = p.counters := by
  unfold setCwnd
  dsimp only
  split <;> rfl

theorem counters_estimate (rttUs : BitVec 64) :
    (p.estimate pkt initialCwnd minCwnd nowUs rttUs).counters = p.counters := by
  simp only [estimate, counters_setCwnd, counters_setPacingRate, counters_updateState, counters_updateRtprop,
    counters_updateBtlBw, counters_updateRound]

end BbrProbe

namespace Cc

variable {cc : Cc F}

def landed (inflight bytes : BitVec 64) : BitVec 64 := if inflight ≥ bytes then inflight - bytes else 0

theorem onLoss_probe (hmode : cc.mode = .probe) (lostBytes : BitVec 64) :
    (cc.onLoss lostBytes).mode = .probe ∧ (cc.onLoss lostBytes).probe.counters =
      (cc.probe.delivered, cc.probe.deliveredTime, landed cc.probe.inflight lostBytes) := by
  unfold onLoss
  rw [hmode]
  exact ⟨rfl, rfl⟩

theorem onLoss_tds (hmode : cc.mode = .tds) (lostBytes : BitVec 64) :
    (cc.onLoss lostBytes).mode = .tds ∧ (cc.onLoss lostBytes).probe = cc.probe := by
  unfold onLoss
  rw [hmode]
  exact ⟨rfl, rfl⟩

variable [Double F] (pkt : CcPacket) (nowUs : BitVec 64)

theorem counters_enterProbe : (cc.enterProbe nowUs).probe.counters = (0, 0, 0) := by
  unfold enterProbe
  dsimp only
  split <;> rfl

theorem onSend_probe (hmode : cc.mode = .probe) :
    (cc.onSend pkt nowUs).1.mode = .probe ∧
      (cc.onSend pkt nowUs).1.probe.counters =
        (cc.probe.delivered, cc.probe.deliveredTime, cc.probe.inflight + pkt.size) ∧
      (cc.onSend pkt nowUs).2.1.delivered = cc.probe.delivered ∧
      (cc.onSend pkt nowUs).2.1.deliveredTime = cc.probe.deliveredTime := by
  unfold onSend
  rw [hmode]
  exact ⟨rfl, rfl, rfl, rfl⟩

theorem onSend_tds (hmode : cc.mode = .tds) :
    (cc.onSend pkt nowUs).1.mode = .tds ∧ (cc.onSend pkt nowUs).1.probe = cc.probe ∧
      (cc.onSend pkt nowUs).2.1.delivered = pkt.delivered ∧
      (cc.onSend pkt nowUs).2.1.deliveredTime = pkt.deliveredTime := by
  unfold onSend
  rw [hmode]
  exact ⟨rfl, rfl, rfl, rfl⟩

theorem size_onSend : (cc.onSend pkt nowUs).2.1.size = pkt.size := by
  unfold onSend
  split <;> rfl

theorem onAck_probe (hmode : cc.mode = .probe) (ackedBytes rttUs : BitVec 64) :
    (cc.onAck pkt nowUs ackedBytes rttUs).probe.counters =
      (cc.probe.delivered + ackedBytes, nowUs, landed cc.probe.inflight ackedBytes) := by
  have hcounters := (cc.probe.deliver pkt nowUs ackedBytes).counters_estimate pkt cc.initialCwnd cc.minCwnd nowUs rttUs
  unfold onAck
  rw [hmode]
  dsimp only
  split
  · exact hcounters
  · exact hcounters

theorem onAck_tds (hmode : cc.mode = .tds) (ackedBytes rttUs : BitVec 64) :
    (cc.onAck pkt nowUs ackedBytes rttUs).mode = .tds ∧
        (cc.onAck pkt nowUs ackedBytes rttUs).probe = cc.probe ∨
      (cc.onAck pkt nowUs ackedBytes rttUs).mode = .probe ∧
        (cc.onAck pkt nowUs ackedBytes rttUs).probe.counters = (0, 0, 0) := by
  unfold onAck
  rw [hmode]
  dsimp only
  split
  · exact .inr ⟨rfl, counters_enterProbe nowUs⟩
  · split
    · exact .inr ⟨rfl, counters_enterProbe nowUs⟩
    · exact .inl ⟨rfl, rfl⟩

end Cc

structure Flight where
  pkt : CcPacket
  phase : Option ℕ
  before : ℕ
  deriving DecidableEq

/-- The controller, with the packets its caller keeps for it. -/
structure CcRun (F : Type u) where
  cc : Cc F
  clock : BitVec 64
  flights : List Flight
  /-- the number of the last PROBE phase, and what has been acknowledged in it -/
  phase : ℕ
  acked : ℕ

inductive CcEvent
  | send (size nowUs : BitVec 64)
  | ack (k : ℕ) (rttUs nowUs : BitVec 64)
  | loss (k : ℕ)
  | reprobe (nowUs : BitVec 64)
  deriving DecidableEq

namespace CcRun

section Calls

variable [Double F] (s : CcRun F)

def start (mss : BitVec 64) : CcRun F := ⟨Cc.init mss, 0, [], 0, 0⟩

def send (size nowUs : BitVec 64) : CcRun F :=
  let sent := s.cc.onSend (.unsent size) nowUs
  let flight : Flight :=
    match s.cc.mode with
    | .probe => ⟨sent.2.1, some s.phase, s.acked⟩
    | .tds => ⟨sent.2.1, none, 0⟩
  { s with cc := sent.1, clock := nowUs, flights := s.flights ++ [flight] }

def ack (k : ℕ) (f : Flight) (rttUs nowUs : BitVec 64) : CcRun F :=
  let t := { s with
    cc := s.cc.onAck f.pkt nowUs f.pkt.size rttUs
    clock := nowUs
    flights := s.flights.eraseIdx k }
  match s.cc.mode with
  | .probe => { t with acked := s.acked + f.pkt.size.toNat }
  | .tds => if t.cc.mode = .probe then { t with phase := s.phase + 1, acked := 0 } else t

def loss (k : ℕ) (f : Flight) : CcRun F :=
  { s with cc := s.cc.onLoss f.pkt.size, flights := s.flights.eraseIdx k }

def reprobe (nowUs : BitVec 64) : CcRun F :=
  { s with cc := s.cc.forceReprobe nowUs, clock := nowUs, phase := s.phase + 1, acked := 0 }

def next (s : CcRun F) : CcEvent → CcRun F
  | .send size nowUs => if s.clock ≤ nowUs then s.send size nowUs else s
  | .ack k rttUs nowUs =>
    match s.flights[k]? with
    | some f => if s.clock ≤ nowUs then s.ack k f rttUs nowUs else s
    | none => s
  | .loss k =>
    match s.flights[k]? with
    | some f => s.loss k f
    | none => s
  | .reprobe nowUs => if s.clock ≤ nowUs then s.reprobe nowUs else s

def run (mss : BitVec 64) (es : List CcEvent) : CcRun F := es.foldl next (start mss)

end Calls

section Acks

variable [Double F] {s : CcRun F} {f : Flight} {k : ℕ} {rttUs nowUs : BitVec 64}

theorem ack_probe (hmode : s.cc.mode = .probe) : s.ack k f rttUs nowUs =
    { s with
      cc := s.cc.onAck f.pkt nowUs f.pkt.size rttUs
      clock := nowUs
      flights := s.flights.eraseIdx k
      acked := s.acked + f.pkt.size.toNat } := by
  rw [ack, hmode]

theorem ack_tds (hmode : s.cc.mode = .tds) :
    (s.ack k f rttUs nowUs = { s with
        cc := s.cc.onAck f.pkt nowUs f.pkt.size rttUs
        clock := nowUs
        flights := s.flights.eraseIdx k } ∧
      (s.cc.onAck f.pkt nowUs f.pkt.size rttUs).mode = .tds ∧
      (s.cc.onAck f.pkt nowUs f.pkt.size rttUs).probe = s.cc.probe) ∨
    (s.ack k f rttUs nowUs = { s with
        cc := s.cc.onAck f.pkt nowUs f.pkt.size rttUs
        clock := nowUs
        flights := s.flights.eraseIdx k
        phase := s.phase + 1
        acked := 0 } ∧
      (s.cc.onAck f.pkt nowUs f.pkt.size rttUs).probe.counters = (0, 0, 0)) := by
  have hack : s.ack k f rttUs nowUs =
      if (s.cc.onAck f.pkt nowUs f.pkt.size rttUs).mode = .probe then
        { s with
          cc := s.cc.onAck f.pkt nowUs f.pkt.size rttUs
          clock := nowUs
          flights := s.flights.eraseIdx k
          phase := s.phase + 1
          acked := 0 }
      else { s with
        cc := s.cc.onAck f.pkt nowUs f.pkt.size rttUs
        clock := nowUs
        flights := s.flights.eraseIdx k } := by
    rw [ack, hmode]
  rcases Cc.onAck_tds f.pkt nowUs hmode f.pkt.size rttUs with ⟨htds, hprobe⟩ | ⟨hprobe, hcounters⟩
  · refine .inl ⟨?_, htds, hprobe⟩
    rw [hack, if_neg]
    rw [htds]
    exact CcMode.noConfusion
  · refine .inr ⟨?_, hcounters⟩
    rw [hack, if_pos hprobe]

end Acks

end CcRun

end YumiBrowser.Udp
