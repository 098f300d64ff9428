import YumiBrowser.Network.CcRuns

universe u

namespace YumiBrowser.Udp

open Transition

variable {F : Type u}

namespace CcRun

variable (s : CcRun F)

def ackedInProbe : CcEvent → Option (Flight × BitVec 64)
  | .ack k _ nowUs =>
    if s.cc.mode = .probe ∧ s.clock ≤ nowUs then s.flights[k]?.map fun f => (f, nowUs) else none
  | _ => none

structure TrueSample (p : BbrProbe F) (pkt : CcPacket) : Prop where
  delivered : pkt.delivered ≤ p.delivered
  deliveredTime : pkt.deliveredTime ≤ p.deliveredTime
  bytes : ((p.delivered - pkt.delivered).toNat : ℤ) = p.delivered.toNat - pkt.delivered.toNat
  elapsed : ((p.deliveredTime - pkt.deliveredTime).toNat : ℤ) = p.deliveredTime.toNat - pkt.deliveredTime.toNat

def Sampled (e : CcEvent) : Prop :=
  ∀ f nowUs, s.ackedInProbe e = some (f, nowUs) →
    TrueSample (s.cc.probe.deliver f.pkt nowUs f.pkt.size) f.pkt

/-- The packet is of the phase that its acknowledgement falls in, or of none; or at least no more had been
acknowledged in its phase when it was sent than is in this one. -/
def Timely (e : CcEvent) : Prop :=
  ∀ f nowUs, s.ackedInProbe e = some (f, nowUs) →
    f.phase = none ∨ f.phase = some s.phase ∨ f.before ≤ s.acked + f.pkt.size.toNat

/-- The bytes of a phase can be counted. -/
def Countable (e : CcEvent) : Prop :=
  ∀ f nowUs, s.ackedInProbe e = some (f, nowUs) → s.acked + f.pkt.size.toNat < 2 ^ 64

instance (e : CcEvent) : Decidable (s.Timely e) :=
  decidable_of_iff (∀ x ∈ s.ackedInProbe e, x.1.phase = none ∨ x.1.phase = some s.phase ∨
    x.1.before ≤ s.acked + x.1.pkt.size.toNat) Prod.forall

instance (e : CcEvent) : Decidable (s.Countable e) :=
  decidable_of_iff (∀ x ∈ s.ackedInProbe e, s.acked + x.1.pkt.size.toNat < 2 ^ 64) Prod.forall

structure Recorded (f : Flight) : Prop where
  delivered : f.pkt.delivered.toNat = f.before
  deliveredTime : f.pkt.deliveredTime ≤ s.clock
  unphased : f.phase = none → f.before = 0
  phase : ∀ n, f.phase = some n → n ≤ s.phase
  before : f.phase = some s.phase → f.before ≤ s.acked

structure Counts : Prop where
  delivered : s.cc.probe.delivered.toNat = s.acked
  deliveredTime : s.cc.probe.deliveredTime ≤ s.clock
  flights : ∀ f ∈ s.flights, s.Recorded f

variable {s} {t : CcRun F} {f : Flight} {e : CcEvent} {k : ℕ} {size rttUs nowUs : BitVec 64}

theorem Recorded.later (h : s.Recorded f) (hclock : s.clock ≤ t.clock)
    (hphase : t.phase = s.phase ∧ s.acked ≤ t.acked ∨ s.phase < t.phase) : t.Recorded f where
  delivered := h.delivered
  deliveredTime := BitVec.le_trans h.deliveredTime hclock
  unphased := h.unphased
  phase n hn := by
    have := h.phase n hn
    omega
  before hf := by
    have hle := h.phase _ hf
    rcases hphase with ⟨hsame, hacked⟩ | hnew
    · rw [hsame] at hf
      exact (h.before hf).trans hacked
    · omega

theorem Counts.renew (h : s.Counts) (hcounters : t.cc.probe.counters = (0, 0, 0)) (hclock : s.clock ≤ t.clock)
    (hphase : t.phase = s.phase + 1) (hacked : t.acked = 0) (hflights : ∀ f ∈ t.flights, f ∈ s.flights) :
    t.Counts := by
  obtain ⟨hdelivered, htime, -⟩ := BbrProbe.counters_eq.mp hcounters
  refine ⟨?_, ?_, fun f hf => ?_⟩
  · rw [hdelivered, hacked]
    rfl
  · rw [htime]
    exact BitVec.le_def.mpr (Nat.zero_le _)
  · exact (h.flights f (hflights f hf)).later hclock (.inr (by omega))

theorem trueSample_iff {p : BbrProbe F} {pkt : CcPacket} :
    TrueSample p pkt ↔ pkt.delivered ≤ p.delivered ∧ pkt.deliveredTime ≤ p.deliveredTime := by
  constructor
  · intro h
    exact ⟨h.delivered, h.deliveredTime⟩
  · rintro ⟨hdelivered, htime⟩
    refine ⟨hdelivered, htime, ?_, ?_⟩
    · rw [BitVec.toNat_sub_of_le hdelivered, Int.ofNat_sub hdelivered]
    · rw [BitVec.toNat_sub_of_le htime, Int.ofNat_sub htime]

theorem Counts.sampled_of (h : s.Counts) (hcount : s.Countable e) : s.Sampled e ↔ s.Timely e := by
  refine forall_congr' fun f => forall_congr' fun nowUs => forall_congr' fun hacked => ?_
  obtain ⟨hf, hclock⟩ : f ∈ s.flights ∧ s.clock ≤ nowUs := by
    cases e with
    | ack k rttUs t =>
      rw [ackedInProbe] at hacked
      split at hacked
      · rename_i hprobe
        obtain ⟨g, hg, heq⟩ := Option.map_eq_some_iff.mp hacked
        obtain ⟨rfl, rfl⟩ := Prod.mk.inj heq
        exact ⟨List.mem_of_getElem? hg, hprobe.2⟩
      · cases hacked
    | send size t => cases hacked
    | loss k => cases hacked
    | reprobe t => cases hacked
  have hrecorded := h.flights f hf
  have hdelivered : (s.cc.probe.deliver f.pkt nowUs f.pkt.size).delivered.toNat = s.acked + f.pkt.size.toNat := by
    have hadd := BitVec.toNat_add_of_lt (h.delivered ▸ hcount f nowUs hacked)
    exact hadd.trans (by rw [h.delivered])
  have hle : f.pkt.delivered ≤ (s.cc.probe.deliver f.pkt nowUs f.pkt.size).delivered ↔
      f.before ≤ s.acked + f.pkt.size.toNat := by
    rw [BitVec.le_def, hdelivered, hrecorded.delivered]
  have htime : f.pkt.deliveredTime ≤ (s.cc.probe.deliver f.pkt nowUs f.pkt.size).deliveredTime :=
    BitVec.le_trans hrecorded.deliveredTime hclock
  rw [trueSample_iff, hle]
  constructor
  · rintro ⟨hbefore, -⟩
    exact .inr (.inr hbefore)
  · rintro (hnone | hsame | hbefore)
    · rw [hrecorded.unphased hnone]
      exact ⟨Nat.zero_le _, htime⟩
    · exact ⟨(hrecorded.before hsame).trans (Nat.le_add_right _ _), htime⟩
    · exact ⟨hbefore, htime⟩

theorem Counts.loss (h : s.Counts) : (s.loss k f).Counts := by
  have hflights : ∀ g ∈ (s.loss k f).flights, (s.loss k f).Recorded g := by
    intro g hg
    exact (h.flights g (List.mem_of_mem_eraseIdx hg)).later (BitVec.le_refl _) (.inl ⟨rfl, le_rfl⟩)
  cases hmode : s.cc.mode with
  | probe =>
    obtain ⟨-, hcounters⟩ := Cc.onLoss_probe hmode f.pkt.size
    obtain ⟨hd, ht, -⟩ := BbrProbe.counters_eq.mp hcounters
    exact ⟨(congrArg BitVec.toNat hd).trans h.delivered, BitVec.le_trans (BitVec.le_of_eq ht) h.deliveredTime, hflights⟩
  | tds =>
    obtain ⟨-, hprobe⟩ := Cc.onLoss_tds hmode f.pkt.size
    exact ⟨(congrArg (fun p => p.delivered.toNat) hprobe).trans h.delivered,
      BitVec.le_trans (BitVec.le_of_eq (congrArg BbrProbe.deliveredTime hprobe)) h.deliveredTime, hflights⟩

variable [Double F]

theorem Counts.start (mss : BitVec 64) : (start mss : CcRun F).Counts where
  delivered := rfl
  deliveredTime := BitVec.le_refl _
  flights _ hf := absurd hf List.not_mem_nil

theorem Counts.send (h : s.Counts) (hclock : s.clock ≤ nowUs) : (s.send size nowUs).Counts := by
  have hold : ∀ f ∈ s.flights, (s.send size nowUs).Recorded f := by
    intro f hf
    exact (h.flights f hf).later hclock (.inl ⟨rfl, le_rfl⟩)
  cases hmode : s.cc.mode with
  | probe =>
    obtain ⟨-, hcounters, hdelivered, htime⟩ := Cc.onSend_probe (.unsent size) nowUs hmode
    obtain ⟨hd, ht, -⟩ := BbrProbe.counters_eq.mp hcounters
    refine ⟨(congrArg BitVec.toNat hd).trans h.delivered, ?_, fun f hf => ?_⟩
    · exact BitVec.le_trans (BitVec.le_of_eq ht) (BitVec.le_trans h.deliveredTime hclock)
    · rcases List.mem_append.mp hf with hf | hf
      · exact hold f hf
      · rw [hmode] at hf
        obtain rfl := List.mem_singleton.mp hf
        refine ⟨(congrArg BitVec.toNat hdelivered).trans h.delivered, ?_, fun hnone => ?_, fun n hn => ?_,
          fun _ => le_rfl⟩
        · exact BitVec.le_trans (BitVec.le_of_eq htime) (BitVec.le_trans h.deliveredTime hclock)
        · cases hnone
        · exact (Option.some.inj hn).ge
  | tds =>
    obtain ⟨-, hprobe, hdelivered, htime⟩ := Cc.onSend_tds (.unsent size) nowUs hmode
    refine ⟨?_, ?_, fun f hf => ?_⟩
    · exact (congrArg (fun p => p.delivered.toNat) hprobe).trans h.delivered
    · exact BitVec.le_trans (BitVec.le_of_eq (congrArg BbrProbe.deliveredTime hprobe))
        (BitVec.le_trans h.deliveredTime hclock)
    · rcases List.mem_append.mp hf with hf | hf
      · exact hold f hf
      · rw [hmode] at hf
        obtain rfl := List.mem_singleton.mp hf
        refine ⟨congrArg BitVec.toNat hdelivered, ?_, fun _ => rfl, fun n hn => ?_, fun _ => Nat.zero_le _⟩
        · rw [htime]
          exact BitVec.le_def.mpr (Nat.zero_le _)
        · cases hn

theorem Counts.ack (h : s.Counts) (hclock : s.clock ≤ nowUs)
    (hcount : s.cc.mode = .probe → s.acked + f.pkt.size.toNat < 2 ^ 64) : (s.ack k f rttUs nowUs).Counts := by
  cases hmode : s.cc.mode with
  | probe =>
    obtain ⟨hd, ht, -⟩ := BbrProbe.counters_eq.mp (Cc.onAck_probe f.pkt nowUs hmode f.pkt.size rttUs)
    rw [ack_probe hmode]
    refine ⟨?_, BitVec.le_of_eq ht, fun g hg => ?_⟩
    · have hadd := BitVec.toNat_add_of_lt (h.delivered ▸ hcount hmode)
      exact (congrArg BitVec.toNat hd).trans (hadd.trans (by rw [h.delivered]))
    · exact (h.flights g (List.mem_of_mem_eraseIdx hg)).later hclock (.inl ⟨rfl, Nat.le_add_right _ _⟩)
  | tds =>
    rcases ack_tds hmode with ⟨hack, -, hprobe⟩ | ⟨hack, hcounters⟩
    · rw [hack]
      refine ⟨(congrArg (fun p => p.delivered.toNat) hprobe).trans h.delivered, ?_, fun g hg => ?_⟩
      · exact BitVec.le_trans (BitVec.le_of_eq (congrArg BbrProbe.deliveredTime hprobe))
          (BitVec.le_trans h.deliveredTime hclock)
      · exact (h.flights g (List.mem_of_mem_eraseIdx hg)).later hclock (.inl ⟨rfl, le_rfl⟩)
    · rw [hack]
      exact h.renew hcounters hclock rfl rfl fun g hg => List.mem_of_mem_eraseIdx hg

theorem Counts.next (h : s.Counts) (hcount : s.Countable e) : (s.next e).Counts := by
  cases e with
  | send size nowUs =>
    rw [CcRun.next]
    split
    · rename_i hclock
      exact h.send hclock
    · exact h
  | ack k rttUs nowUs =>
    rw [CcRun.next]
    split
    · rename_i f hf
      split
      · rename_i hclock
        refine h.ack hclock fun hmode => hcount f nowUs ?_
        rw [ackedInProbe, if_pos ⟨hmode, hclock⟩, hf]
        rfl
      · exact h
    · exact h
  | loss k =>
    rw [CcRun.next]
    split
    · exact h.loss
    · exact h
  | reprobe nowUs =>
    rw [CcRun.next]
    split
    · rename_i hclock
      exact h.renew (Cc.counters_enterProbe nowUs) hclock rfl rfl fun _ hf => hf
    · exact h

theorem counts_run (mss : BitVec 64) (es : List CcEvent)
    (hcount : ∀ xs e ys, es = xs ++ e :: ys → (run mss xs : CcRun F).Countable e) :
    (run mss es : CcRun F).Counts :=
  System.holds_along (fun _ _ h hc => h.next hc) (Counts.start mss) es hcount es [] (by simp)

/-- In every run in which the bytes of a phase can be counted, the samples are true if and only if every
packet is acknowledged in PROBE in its own phase, or had not recorded more than this one has counted. -/
theorem sampled_iff (mss : BitVec 64) (es : List CcEvent)
    (hcount : ∀ xs e ys, es = xs ++ e :: ys → (run mss xs : CcRun F).Countable e) :
    (∀ xs e ys, es = xs ++ e :: ys → (run mss xs : CcRun F).Sampled e) ↔
      ∀ xs e ys, es = xs ++ e :: ys → (run mss xs : CcRun F).Timely e := by
  refine forall_congr' fun xs => forall_congr' fun e => forall_congr' fun ys => forall_congr' fun heq => ?_
  refine Counts.sampled_of (counts_run mss xs fun zs e' ws hzs => ?_) (hcount xs e ys heq)
  exact hcount zs e' (ws ++ e :: ys) (by simp [heq, hzs])

def overlapping : List CcEvent :=
  [.send 100 1, .send 200 2, .ack 0 10 3, .send 300 4, .reprobe 5, .send 50 6, .ack 0 10 7, .ack 0 10 8, .ack 0 10 9]

theorem sampled_iff_overlapping : (run 1200 overlapping : CcRun Exact).acked = 550 ∧
    ∀ xs e ys, overlapping = xs ++ e :: ys → (run 1200 xs : CcRun Exact).Sampled e := by
  have hcount : System.Enables Countable next (CcRun.start 1200 : CcRun Exact) overlapping := by decide +kernel
  have htimely : System.Enables Timely next (CcRun.start 1200 : CcRun Exact) overlapping := by decide +kernel
  exact ⟨by decide +kernel, (sampled_iff 1200 overlapping (hcount.along overlapping)).mpr (htimely.along overlapping)⟩

theorem stale_sample :
    ¬ (run 1200 [.send 100 1, .ack 0 10 2, .send 50 3, .reprobe 4] : CcRun Exact).Sampled (.ack 0 10 5) := by
  intro h
  have hle := (h ⟨⟨3, 50, 100, 2, 1, false, true⟩, some 0, 100⟩ 5 (by decide +kernel)).delivered
  exact absurd hle (by decide +kernel)

end CcRun

end YumiBrowser.Udp
