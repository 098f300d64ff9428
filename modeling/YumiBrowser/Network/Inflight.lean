import YumiBrowser.Network.CcRuns

universe u

namespace YumiBrowser.Udp

open Transition

variable {F : Type u}

/-- What a packet counts for in phase `n`. -/
def Flight.weight (n : ℕ) (f : Flight) : ℕ := if f.phase = some n then f.pkt.size.toNat else 0

namespace CcRun

variable {s : CcRun F} {f : Flight} {e : CcEvent} {k : ℕ} {size rttUs nowUs : BitVec 64}

def outstanding (s : CcRun F) : ℕ := (s.flights.map (Flight.weight s.phase)).sum

structure Balanced (s : CcRun F) : Prop where
  phases : ∀ f ∈ s.flights, ∀ n, f.phase = some n → n ≤ s.phase
  inflight : s.cc.mode = .probe → s.cc.probe.inflight.toNat = s.outstanding

def Leaves (s : CcRun F) (k : ℕ) : Prop :=
  s.cc.mode = .probe → ∀ f, s.flights[k]? = some f → f.phase = some s.phase ∨ f.pkt.size = 0 ∨ s.outstanding = 0

def Settles (s : CcRun F) : CcEvent → Prop
  | .send size _ => s.cc.mode = .probe → s.outstanding + size.toNat < 2 ^ 64
  | .ack k _ _ => s.Leaves k
  | .loss k => s.Leaves k
  | .reprobe _ => True

instance (s : CcRun F) (k : ℕ) : Decidable (s.Leaves k) :=
  inferInstanceAs (Decidable (_ → ∀ f ∈ s.flights[k]?, _))

instance (s : CcRun F) : (e : CcEvent) → Decidable (s.Settles e)
  | .send _ _ => inferInstanceAs (Decidable (_ → _))
  | .ack k _ _ => inferInstanceAs (Decidable (s.Leaves k))
  | .loss k => inferInstanceAs (Decidable (s.Leaves k))
  | .reprobe _ => .isTrue trivial

theorem toNat_landed (inflight bytes : BitVec 64) :
    (Cc.landed inflight bytes).toNat = inflight.toNat - bytes.toNat := by
  unfold Cc.landed
  split
  · rename_i hle
    exact BitVec.toNat_sub_of_le hle
  · rename_i hlt
    exact (Nat.sub_eq_zero_of_le (Nat.le_of_lt (BitVec.not_le.mp hlt))).symm

theorem sum_eraseIdx {w : Flight → ℕ} {fs : List Flight} (hf : fs[k]? = some f) :
    w f + ((fs.eraseIdx k).map w).sum = (fs.map w).sum := by
  obtain ⟨hk, rfl⟩ := List.getElem?_eq_some_iff.mp hf
  exact ((List.getElem_cons_eraseIdx_perm hk).map w).sum_nat

theorem Balanced.leave (h : s.Balanced) (hmode : s.cc.mode = .probe) (hf : s.flights[k]? = some f) (hk : s.Leaves k) :
    (Cc.landed s.cc.probe.inflight f.pkt.size).toNat = ((s.flights.eraseIdx k).map (Flight.weight s.phase)).sum := by
  have hsum : f.weight s.phase + _ = s.outstanding := sum_eraseIdx hf
  rw [toNat_landed, h.inflight hmode]
  rcases hk hmode f hf with hown | hzero | hnone
  · rw [Flight.weight, if_pos hown] at hsum
    omega
  · have hweight : f.weight s.phase = 0 := by
      rw [Flight.weight, hzero]
      exact ite_self 0
    have hnone : f.pkt.size.toNat = 0 := congrArg BitVec.toNat hzero
    omega
  · omega

theorem outstanding_renewed {fs : List Flight} (h : ∀ f ∈ fs, ∀ n, f.phase = some n → n ≤ s.phase) :
    (fs.map (Flight.weight (s.phase + 1))).sum = 0 := by
  refine List.sum_eq_zero fun n hn => ?_
  obtain ⟨f, hf, rfl⟩ := List.mem_map.mp hn
  refine if_neg fun hnew => ?_
  exact absurd (h f hf _ hnew) (Nat.not_succ_le_self _)

theorem Balanced.renew {t : CcRun F} (h : s.Balanced) (hcounters : t.cc.probe.counters = (0, 0, 0))
    (hphase : t.phase = s.phase + 1) (hflights : ∀ f ∈ t.flights, f ∈ s.flights) : t.Balanced where
  phases f hf n hn := by
    have := h.phases f (hflights f hf) n hn
    omega
  inflight _ := by
    obtain ⟨-, -, hinflight⟩ := BbrProbe.counters_eq.mp hcounters
    rw [hinflight, outstanding, hphase, outstanding_renewed fun f hf => h.phases f (hflights f hf)]
    rfl

theorem Balanced.loss (h : s.Balanced) (hf : s.flights[k]? = some f) (hk : s.Leaves k) : (s.loss k f).Balanced where
  phases g hg := h.phases g (List.mem_of_mem_eraseIdx hg)
  inflight hprobe := by
    cases hmode : s.cc.mode with
    | probe =>
      obtain ⟨-, -, hinflight⟩ := BbrProbe.counters_eq.mp (Cc.onLoss_probe hmode f.pkt.size).2
      exact (congrArg BitVec.toNat hinflight).trans (h.leave hmode hf hk)
    | tds => exact CcMode.noConfusion ((Cc.onLoss_tds hmode f.pkt.size).1.symm.trans hprobe)

variable [Double F]

theorem Balanced.start (mss : BitVec 64) : (start mss : CcRun F).Balanced where
  phases _ hf := absurd hf List.not_mem_nil
  inflight _ := rfl

theorem Balanced.send (h : s.Balanced) (hfits : s.cc.mode = .probe → s.outstanding + size.toNat < 2 ^ 64) :
    (s.send size nowUs).Balanced := by
  cases hmode : s.cc.mode with
  | probe =>
    have hsend : (s.send size nowUs).flights =
        s.flights ++ [⟨(s.cc.onSend (.unsent size) nowUs).2.1, some s.phase, s.acked⟩] := by
      rw [CcRun.send, hmode]
    refine ⟨fun f hf n hn => ?_, fun _ => ?_⟩
    · rw [hsend] at hf
      rcases List.mem_append.mp hf with hf | hf
      · exact h.phases f hf n hn
      · obtain rfl := List.mem_singleton.mp hf
        exact (Option.some.inj hn).ge
    · obtain ⟨-, -, hinflight⟩ := BbrProbe.counters_eq.mp (Cc.onSend_probe (.unsent size) nowUs hmode).2.1
      have hsize : (s.cc.onSend (.unsent size) nowUs).2.1.size = size := Cc.size_onSend (.unsent size) nowUs
      have hadd := BitVec.toNat_add_of_lt ((h.inflight hmode).symm ▸ hfits hmode)
      rw [outstanding, hsend, List.map_append, List.sum_append]
      refine (congrArg BitVec.toNat hinflight).trans (hadd.trans ?_)
      rw [h.inflight hmode]
      simp [CcRun.send, Flight.weight, hsize, outstanding]
  | tds =>
    have hsend : (s.send size nowUs).flights = s.flights ++ [⟨(s.cc.onSend (.unsent size) nowUs).2.1, none, 0⟩] := by
      rw [CcRun.send, hmode]
    refine ⟨fun f hf n hn => ?_, fun hprobe => ?_⟩
    · rw [hsend] at hf
      rcases List.mem_append.mp hf with hf | hf
      · exact h.phases f hf n hn
      · obtain rfl := List.mem_singleton.mp hf
        cases hn
    · exact CcMode.noConfusion ((Cc.onSend_tds (.unsent size) nowUs hmode).1.symm.trans hprobe)

theorem Balanced.ack (h : s.Balanced) (hf : s.flights[k]? = some f) (hk : s.Leaves k) :
    (s.ack k f rttUs nowUs).Balanced := by
  cases hmode : s.cc.mode with
  | probe =>
    rw [ack_probe hmode]
    refine ⟨fun g hg => h.phases g (List.mem_of_mem_eraseIdx hg), fun _ => ?_⟩
    obtain ⟨-, -, hinflight⟩ := BbrProbe.counters_eq.mp (Cc.onAck_probe f.pkt nowUs hmode f.pkt.size rttUs)
    exact (congrArg BitVec.toNat hinflight).trans (h.leave hmode hf hk)
  | tds =>
    rcases ack_tds hmode with ⟨hack, htds, -⟩ | ⟨hack, hcounters⟩
    · rw [hack]
      refine ⟨fun g hg => h.phases g (List.mem_of_mem_eraseIdx hg), fun hprobe => ?_⟩
      exact CcMode.noConfusion (htds.symm.trans hprobe)
    · rw [hack]
      exact h.renew hcounters rfl fun g hg => List.mem_of_mem_eraseIdx hg

theorem Balanced.next (h : s.Balanced) (hsettles : s.Settles e) : (s.next e).Balanced := by
  cases e with
  | send size nowUs =>
    rw [CcRun.next]
    split
    · exact h.send hsettles
    · exact h
  | ack k rttUs nowUs =>
    rw [CcRun.next]
    split
    · rename_i f hf
      split
      · exact h.ack hf hsettles
      · exact h
    · exact h
  | loss k =>
    rw [CcRun.next]
    split
    · rename_i f hf
      exact h.loss hf hsettles
    · exact h
  | reprobe nowUs =>
    rw [CcRun.next]
    split
    · exact h.renew (Cc.counters_enterProbe nowUs) rfl fun _ hf => hf
    · exact h

/-- What the controller takes for in flight is what is, as long as only packets of the current phase are
acknowledged or lost in PROBE. -/
theorem inflight_eq (mss : BitVec 64) (es : List CcEvent)
    (hsettles : ∀ xs e ys, es = xs ++ e :: ys → (run mss xs : CcRun F).Settles e) :
    ∀ xs ys, es = xs ++ ys → (run mss xs : CcRun F).cc.mode = .probe →
      (run mss xs : CcRun F).cc.probe.inflight.toNat = (run mss xs : CcRun F).outstanding := by
  intro xs ys heq
  have hbalanced := System.holds_along (fun _ _ h hc => h.next hc) (Balanced.start mss) es hsettles xs ys heq
  exact hbalanced.inflight

def settling : List CcEvent :=
  [.send 100 1, .send 200 2, .ack 0 10 3, .send 300 4, .loss 0, .ack 0 10 5, .reprobe 6, .send 50 7, .send 70 8,
    .loss 0]

theorem inflight_eq_settling : (run 1200 settling : CcRun Exact).outstanding = 70 ∧
    ∀ xs ys, settling = xs ++ ys → (run 1200 xs : CcRun Exact).cc.mode = .probe →
      (run 1200 xs : CcRun Exact).cc.probe.inflight.toNat = (run 1200 xs : CcRun Exact).outstanding := by
  have hsettles : System.Enables Settles next (CcRun.start 1200 : CcRun Exact) settling := by decide +kernel
  exact ⟨by decide +kernel, inflight_eq 1200 settling (hsettles.along settling)⟩

theorem lost_across_phases :
    (run 1200 [.send 100 1, .reprobe 2, .send 50 3, .loss 0] : CcRun Exact).cc.mode = .probe ∧
    (run 1200 [.send 100 1, .reprobe 2, .send 50 3, .loss 0] : CcRun Exact).cc.probe.inflight = 0 ∧
    (run 1200 [.send 100 1, .reprobe 2, .send 50 3, .loss 0] : CcRun Exact).outstanding = 50 := by
  decide +kernel

end CcRun

end YumiBrowser.Udp
