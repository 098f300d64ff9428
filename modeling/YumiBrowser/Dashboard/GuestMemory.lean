import YumiBrowser.Dashboard.HostCalls

namespace YumiBrowser.Dashboard

open Guest Wire

/-- A range lies in a memory of that size, and what is staged lies in the buffer. -/
def Access.Contained (memSize : ℕ) : Access → Prop
  | .read ptr len | .write ptr len | .handed ptr len => ptr + len ≤ memSize
  | .staged capacity ptr len => ptr + len ≤ capacity

def Wraps (n size : BitVec 32) : Prop := 4294967296 ≤ n.toNat * size.toNat

theorem toNat_mul_of_not_wraps {n size : BitVec 32} (h : ¬ Wraps n size) :
    (n * size).toNat = n.toNat * size.toNat := by
  rw [BitVec.toNat_mul, Nat.mod_eq_of_lt (Nat.lt_of_not_le h)]

theorem records_contained {out size n m : ℕ} :
    (∀ a ∈ records out size n, a.Contained m) ↔ n = 0 ∨ out + size * n ≤ m := by
  simp only [records, List.forall_mem_map, List.mem_range]
  constructor
  · intro h
    cases n with
    | zero => exact .inl rfl
    | succ n =>
      have hlast : out + n * size + size ≤ m := h n n.lt_succ_self
      right
      rw [Nat.mul_succ, Nat.mul_comm size]
      omega
  · rintro h i hi
    have hbound : (i + 1) * size ≤ n * size := Nat.mul_le_mul_right size hi
    have hend : out + size * n ≤ m := h.resolve_left (Nat.ne_zero_of_lt hi)
    change out + i * size + size ≤ m
    rw [Nat.succ_mul] at hbound
    rw [Nat.mul_comm size] at hend
    omega

section Forks

variable {maxForks : ℕ}

theorem forkRows_of_full {r : ℕ × Option (List Byte)} (hfull : ¬ r.1 < maxForks) (rows : List (List Byte)) :
    forkRows maxForks r rows = r := by
  cases rows with
  | nil => rfl
  | cons prevHash rows => exact if_neg hfull

theorem forkRows_first {forkIdx : ℕ} (hlt : forkIdx < maxForks) (prevHash : List Byte) (rows : List (List Byte)) :
    forkRows maxForks (forkIdx, none) (prevHash :: rows) = forkRows maxForks (forkIdx, some prevHash) rows := by
  simp [forkRows, hlt]

theorem forkRows_append (r : ℕ × Option (List Byte)) (rows rest : List (List Byte)) :
    forkRows maxForks r (rows ++ rest) = forkRows maxForks (forkRows maxForks r rows) rest := by
  induction rows generalizing r with
  | nil => rfl
  | cons prevHash rows ih =>
    obtain ⟨forkIdx, current⟩ := r
    simp only [List.cons_append, forkRows]
    generalize (if current.isSome then forkIdx + 1 else forkIdx) = begun
    split
    · split
      · exact ih _
      · split
        · exact ih _
        · next hfull => exact (forkRows_of_full hfull rest).symm
    · next hfull => exact (forkRows_of_full hfull rest).symm

theorem forkChunks_eq (r : ℕ × Option (List Byte)) (chunks : List (List (List Byte))) :
    forkChunks maxForks r chunks = forkRows maxForks r chunks.flatten := by
  induction chunks generalizing r with
  | nil => rfl
  | cons chunk rest ih =>
    rw [List.flatten_cons, forkRows_append]
    unfold forkChunks
    split
    · exact ih _
    · next hfull =>
      rw [forkRows_of_full hfull]
      exact (forkRows_of_full hfull _).symm

def forksAfter (r : ℕ × Option (List Byte)) (rows : List (List Byte)) : ℕ :=
  r.1 + match r.2 with
    | none => (rows.destutter (· ≠ ·)).length
    | some prevHash => (rows.destutter' (· ≠ ·) prevHash).length

theorem closing_forkRows (r : ℕ × Option (List Byte)) (hle : r.1 ≤ maxForks) (rows : List (List Byte)) :
    (if (forkRows maxForks r rows).2.isSome ∧ (forkRows maxForks r rows).1 < maxForks then
      (forkRows maxForks r rows).1 + 1 else (forkRows maxForks r rows).1) = min maxForks (forksAfter r rows) := by
  induction rows generalizing r with
  | nil =>
    obtain ⟨forkIdx, current⟩ := r
    cases current with
    | none => simpa [forkRows, forksAfter] using hle
    | some prevHash =>
      simp only [forkRows, forksAfter, Option.isSome_some, true_and, List.destutter'_nil, List.length_singleton]
      split <;> omega
  | cons prevHash rows ih =>
    obtain ⟨forkIdx, current⟩ := r
    by_cases hlt : forkIdx < maxForks
    · cases current with
      | none =>
        rw [forkRows_first hlt]
        exact ih (forkIdx, some prevHash) hle
      | some last =>
        by_cases hsame : last = prevHash
        · subst hsame
          simp only [forkRows, if_pos hlt, if_pos]
          rw [ih _ hle]
          simp [forksAfter]
        · have hnew : ¬ some last = some prevHash := fun h => hsame (Option.some.inj h)
          have hlength : forksAfter (forkIdx, some last) (prevHash :: rows) =
              forksAfter (forkIdx + 1, some prevHash) rows := by
            have hcons := List.destutter'_cons_pos (R := (· ≠ ·)) rows hsame
            simp only [forksAfter, hcons, List.length_cons]
            omega
          simp only [forkRows, if_pos hlt, if_neg hnew, Option.isSome_some, if_true]
          rw [hlength]
          by_cases hlt' : forkIdx + 1 < maxForks
          · rw [if_pos hlt']
            exact ih _ hlt'.le
          · rw [if_neg hlt', if_neg (fun h => hlt' h.2)]
            simp only [forksAfter]
            omega
    · rw [forkRows_of_full hlt, if_neg (fun h => hlt h.2)]
      have hmore : forkIdx ≤ forksAfter (forkIdx, current) (prevHash :: rows) := Nat.le_add_right _ _
      simp only at hle ⊢
      omega

theorem grAuditListForks_eq (chunks : List (List (List Byte))) :
    grAuditListForks maxForks chunks = min maxForks (chunks.flatten.destutter (· ≠ ·)).length := by
  unfold grAuditListForks
  rw [forkChunks_eq]
  have hclosing := closing_forkRows (0, none) (Nat.zero_le maxForks) chunks.flatten
  simpa [forksAfter] using hclosing

end Forks

theorem listed_eq {maxCount count : ℕ} (hle : count ≤ maxCount) (chunks : List ℕ) :
    listed maxCount count chunks = min maxCount (count + chunks.sum) := by
  induction chunks generalizing count with
  | nil => simpa [listed] using hle
  | cons rows rest ih =>
    rw [listed, List.sum_cons]
    split
    · rw [ih (min_le_right _ _)]
      omega
    · omega

def rowsOf (q : Query) (reg : Option Registry) (cap : BitVec 32) : ℕ :=
  match reg with
  | none => 0
  | some reg =>
    match reg.count q with
    | none => 0
    | some total =>
      let toCopy := if cap < total then cap else total
      match reg.select q toCopy with
      | .error _ => 0
      | .ok chunks => min toCopy.toNat chunks.sum

def forksOf (reg : Option Registry) (cap : BitVec 32) : ℕ :=
  match reg with
  | none => 0
  | some reg =>
    match reg.forks cap with
    | .error _ => 0
    | .ok chunks => min cap.toNat (chunks.flatten.destutter (· ≠ ·)).length

def stalePeersOf (staleMs : BitVec 64) (reg : Option Registry) (cap : BitVec 32) : ℕ :=
  match reg.bind (·.stalePeers staleMs) with
  | some chunks => if staleMs.sle 0 then 0 else min cap.toNat chunks.sum
  | none => 0

structure Lists (list : Option Registry → BitVec 32 → BitVec 32 → Reply) (size : ℕ)
    (rows : Option Registry → BitVec 32 → ℕ) : Prop where
  none : ∀ reg out cap, out = 0 ∨ cap = 0 → (list reg out cap).accesses = []
  some : ∀ reg out cap, out ≠ 0 → cap ≠ 0 → (list reg out cap).accesses = records out.toNat size (rows reg cap)
  rows_le : ∀ reg cap, rows reg cap ≤ cap.toNat

theorem lists_grList (q : Query) (size : BitVec 32) (value : BitVec 32 → BitVec 32 → BitVec 32) :
    Lists (fun reg out cap => grList reg q size out cap value) size.toNat (rowsOf q) where
  none reg out cap h := by
    unfold grList
    split
    · rfl
    · split
      · rfl
      · rw [if_pos h]
  some reg out cap hout hcap := by
    unfold grList rowsOf
    cases reg with
    | none => rfl
    | some reg =>
      dsimp only
      cases reg.count q with
      | none => rfl
      | some total =>
        simp only [if_neg (not_or.mpr ⟨hout, hcap⟩)]
        cases reg.select q (if cap < total then cap else total) with
        | error e => rfl
        | ok chunks => simp only [listed_eq (Nat.zero_le _), Nat.zero_add]
  rows_le reg cap := by
    unfold rowsOf
    split
    · exact Nat.zero_le _
    · split
      · exact Nat.zero_le _
      · dsimp only
        split
        · exact Nat.zero_le _
        · apply (min_le_left _ _).trans
          split
          · exact le_rfl
          · next hlt => exact BitVec.not_lt.mp hlt

theorem lists_forks : Lists dashboardGrAuditListForks 1544 forksOf where
  none reg out cap h := by
    unfold dashboardGrAuditListForks
    split
    · rfl
    · split
      · rfl
      · next hout => rw [if_pos (h.resolve_left hout)]
  some reg out cap hout hcap := by
    unfold dashboardGrAuditListForks forksOf
    cases reg with
    | none => rfl
    | some reg =>
      simp only [if_neg hout, if_neg hcap]
      cases reg.forks cap with
      | error e => rfl
      | ok chunks => simp only [grAuditListForks_eq]
  rows_le reg cap := by
    unfold forksOf
    split
    · exact Nat.zero_le _
    · split
      · exact Nat.zero_le _
      · exact min_le_left _ _

theorem lists_stalePeers (staleMs : BitVec 64) :
    Lists (fun reg => dashboardGrBehaviorStalePeers reg staleMs) 32 (stalePeersOf staleMs) where
  none reg out cap h := by
    unfold dashboardGrBehaviorStalePeers
    split
    · rfl
    · split
      · rfl
      · next reg hout =>
        obtain rfl := h.resolve_left fun hnull => hout (.inl hnull)
        split
        · rfl
        · simp [listed_eq, records]
  some reg out cap hout hcap := by
    unfold dashboardGrBehaviorStalePeers stalePeersOf
    cases reg with
    | none => rfl
    | some reg =>
      simp only [hout, false_or, Option.bind_some]
      cases reg.stalePeers staleMs with
      | none => split <;> rfl
      | some chunks =>
        dsimp only
        split
        · rfl
        · simp only [listed_eq (Nat.zero_le _), Nat.zero_add]
  rows_le reg cap := by
    unfold stalePeersOf
    split
    · split
      · exact Nat.zero_le _
      · exact min_le_left _ _
    · exact Nat.zero_le _

namespace Guest

variable (g : Guest)

section Lists

variable (gid size out cap : BitVec 32)

def ListEscapes (rows : Option Registry → BitVec 32 → ℕ) : Prop :=
  (g.resolveGroupArg gid).1 ≠ 0xffffffff ∧ out ≠ 0 ∧ Wraps cap size ∧ g.ipcMemCheck out (cap * size) ∧
    g.memSize < out.toNat + size.toNat * rows (g.grResolve (g.resolveGroupArg gid).1) cap

def FillEscapes (total : BitVec 32) : Prop :=
  let toCopy := if cap < total then cap else total
  out ≠ 0 ∧ Wraps toCopy size ∧ g.ipcMemCheck out (toCopy * size) ∧ g.memSize < out.toNat + size.toNat * toCopy.toNat

variable {g gid size out cap}

theorem ipcMemCheck_iff {ptr len : BitVec 32} :
    g.ipcMemCheck ptr len = true ↔ g.memory.isSome ∧ ptr.toNat + len.toNat ≤ g.memSize := decide_eq_true_iff

theorem resolveGroupArg_contained : ∀ a ∈ (g.resolveGroupArg gid).2, a.Contained g.memSize := by
  unfold resolveGroupArg
  split
  · exact fun _ ha => absurd ha List.not_mem_nil
  · split
    · next hcheck =>
      intro a ha
      obtain rfl := List.mem_singleton.mp ha
      exact (ipcMemCheck_iff.mp hcheck).2
    · exact fun _ ha => absurd ha List.not_mem_nil

theorem fits_of_check {n : ℕ} (hn : n ≤ cap.toNat) (hcheck : g.ipcMemCheck out (cap * size) = true) :
    (n = 0 ∨ out.toNat + size.toNat * n ≤ g.memSize) ↔
      ¬ (Wraps cap size ∧ g.memSize < out.toNat + size.toNat * n) := by
  obtain ⟨_, hchecked⟩ := ipcMemCheck_iff.mp hcheck
  constructor
  · rintro (rfl | hfits) ⟨_, hout⟩
    · rw [Nat.mul_zero] at hout
      omega
    · omega
  · intro h
    by_cases hwraps : Wraps cap size
    · exact .inr (Nat.le_of_not_lt fun hout => h ⟨hwraps, hout⟩)
    · have hsize := Nat.mul_le_mul_left size.toNat hn
      rw [toNat_mul_of_not_wraps hwraps, Nat.mul_comm] at hchecked
      exact .inr (by omega)

theorem ne_zero_of_wraps (h : Wraps cap size) : cap ≠ 0 := by
  rintro rfl
  simp [Wraps] at h

theorem hostList_contained {list : Option Registry → BitVec 32 → BitVec 32 → Reply}
    {rows : Option Registry → BitVec 32 → ℕ} (hlists : Lists list size.toNat rows) :
    (∀ a ∈ (g.hostList gid size out cap list).accesses, a.Contained g.memSize) ↔
      ¬ g.ListEscapes gid size out cap rows := by
  unfold hostList
  dsimp only
  split
  · next hguard =>
    rw [List.forall_mem_append, iff_true_intro resolveGroupArg_contained, true_and]
    by_cases hnull : out = 0 ∨ cap = 0
    · rw [hlists.none _ _ _ hnull]
      refine iff_of_true (fun _ ha => absurd ha List.not_mem_nil) fun h => ?_
      exact hnull.elim h.2.1 (ne_zero_of_wraps h.2.2.1)
    · obtain ⟨hout, hcap⟩ := not_or.mp hnull
      have hcheck := (hguard.2.resolve_left hout).resolve_left hcap
      rw [hlists.some _ _ _ hout hcap, records_contained, fits_of_check (hlists.rows_le _ _) hcheck]
      exact not_congr ⟨fun h => ⟨hguard.1, hout, h.1, hcheck, h.2⟩, fun h => ⟨h.2.2.1, h.2.2.2.2⟩⟩
  · next hguard =>
    refine iff_of_true resolveGroupArg_contained fun h => hguard ⟨h.1, .inr (.inr h.2.2.2.1)⟩

theorem fillInfo_contained {total : BitVec 32} :
    (∀ a ∈ (g.fillInfo total size out cap).accesses, a.Contained g.memSize) ↔ ¬ g.FillEscapes size out cap total := by
  unfold fillInfo FillEscapes
  dsimp only
  generalize (if cap < total then cap else total) = toCopy
  split
  · next hnull =>
    refine iff_of_true (fun _ ha => absurd ha List.not_mem_nil) fun h => ?_
    exact hnull.elim h.1 (ne_zero_of_wraps h.2.1)
  · next hnull =>
    obtain ⟨hout, hcopy⟩ := not_or.mp hnull
    split
    · next hcheck =>
      rw [List.forall_mem_cons, records_contained]
      have hwhole : (Access.write out.toNat (toCopy.toNat * size.toNat)).Contained g.memSize ↔
          out.toNat + size.toNat * toCopy.toNat ≤ g.memSize := by
        rw [Nat.mul_comm size.toNat]
        rfl
      have hfits := fits_of_check (le_refl toCopy.toNat) hcheck
      have hpos : toCopy.toNat ≠ 0 := fun h => hcopy (BitVec.eq_of_toNat_eq h)
      rw [hwhole]
      rw [or_iff_right hpos] at hfits ⊢
      rw [and_self, hfits]
      exact not_congr ⟨fun h => ⟨hout, h.1, hcheck, h.2⟩, fun h => ⟨h.2.1, h.2.2.2⟩⟩
    · next hcheck => exact iff_of_true (fun _ ha => absurd ha List.not_mem_nil) fun h => hcheck h.2.2.1

theorem hostDashboardListWebapps_contained :
    (∀ a ∈ (g.hostDashboardListWebapps gid out cap).accesses, a.Contained g.memSize) ↔
      ¬ ((g.resolveGroupArg gid).1 ≠ 0xffffffff ∧ (g.resolveGroupArg gid).1.toNat < g.groups.length ∧
        g.FillEscapes 104 out cap (g.dashboardCountWebappsInGroup (g.resolveGroupArg gid).1)) := by
  unfold hostDashboardListWebapps
  dsimp only
  split
  · next hgroup =>
    rw [List.forall_mem_append, iff_true_intro resolveGroupArg_contained, true_and, dashboardFillWebappInfo]
    split
    · next hover =>
      exact iff_of_true (fun _ ha => absurd ha List.not_mem_nil) fun h => absurd h.2.1 (Nat.not_lt.mpr hover)
    · next hthere =>
      rw [fillInfo_contained]
      exact not_congr ⟨fun h => ⟨hgroup, Nat.lt_of_not_le hthere, h⟩, fun h => h.2.2⟩
  · next hgroup => exact iff_of_true resolveGroupArg_contained fun h => hgroup h.1

end Lists

section Buffers

def NetEscapes (peersPtr peerCount dataPtr len : BitVec 32) : Prop :=
  len ≠ 0 ∧ len ≤ maxPayload ∧ Wraps peerCount 32 ∧ g.ipcMemCheck peersPtr (peerCount * 32) ∧
    g.ipcMemCheck dataPtr len ∧ g.memSize < peersPtr.toNat + peerCount.toNat * 32

/-- A text whose length is a negative `int` is copied to the guest. -/
def ClipboardGetEscapes (outPtr maxLen : BitVec 32) : Prop :=
  g.clipboardRange outPtr maxLen ∧ g.clipboardText ≠ [] ∧ (BitVec.ofNat 32 g.clipboardText.length).msb = true

def ClipboardSetEscapes (ptr len : BitVec 32) : Prop :=
  g.clipboardRange ptr len ∧ g.clipboardLease ∧ len = clipboardMaxSize

/-- A bitmap is copied whose size is a negative `int32_t`, and no more than the guest asked for. -/
def GlyphEscapes (h gid ps oip opp mb : BitVec 32) : Prop :=
  ∃ font size, g.fonts h = some font ∧
    (g.memory.isSome ∧ BitVec.sle 0 mb ∧ oip.toNat + 24 ≤ g.memSize ∧ opp.toNat + mb.toNat ≤ g.memSize) ∧
    (if BitVec.slt 0 ps then font.rasterize gid ps else font.bitmap gid) = some size ∧
    (size.1 * size.2 * 4).msb = true ∧ g.memSize < opp.toNat + (size.1 * size.2 * 4).toNat

variable {g}

theorem toInt_of_lt {x : BitVec 32} (h : x.toNat < 2147483648) : x.toInt = x.toNat :=
  BitVec.toInt_eq_toNat_of_lt (by omega)

theorem msb_iff {x : BitVec 32} : x.msb = true ↔ 2147483648 ≤ x.toNat := by
  rw [BitVec.msb_eq_decide, decide_eq_true_iff]

theorem toNat_signExtend {x : BitVec 32} :
    (x.signExtend 64).toNat = x.toNat + if x.msb then 18446744069414584320 else 0 := by
  rw [BitVec.toNat_signExtend, BitVec.toNat_setWidth_of_le (by decide)]

theorem nonneg_iff {x : BitVec 32} : BitVec.sle 0 x = true ↔ x.toNat < 2147483648 := by
  rw [BitVec.sle_iff_toInt_le]
  change (0 : ℤ) ≤ _ ↔ _
  rw [BitVec.toInt_eq_toNat_cond]
  have hlt := x.isLt
  split <;> omega

theorem memSize_le : g.memSize ≤ 4294967296 := by
  unfold memSize
  cases hmemory : g.memory with
  | none => exact Nat.zero_le _
  | some m => exact g.small m hmemory

theorem clipboardRange_bounds {ptr len : BitVec 32} (h : g.clipboardRange ptr len = true) :
    0 < len.toNat ∧ len.toNat ≤ 1048577 ∧ ptr.toNat + len.toNat ≤ g.memSize := by
  obtain ⟨_, hpos, hle, hfits⟩ := of_decide_eq_true h
  rw [BitVec.slt_iff_toInt_lt] at hpos
  have hnonneg : len.toNat < 2147483648 := nonneg_iff.mp (BitVec.sle_iff_toInt_le.mpr hpos.le)
  rw [toInt_of_lt hnonneg] at hpos
  rw [BitVec.sle_iff_toInt_le, toInt_of_lt hnonneg] at hle
  exact ⟨Int.natCast_pos.mp hpos, Int.ofNat_le.mp hle, hfits⟩

theorem fnNetSendRangeCommon_contained {peersPtr peerCount dataPtr len : BitVec 32} :
    (∀ a ∈ (g.fnNetSendRangeCommon peersPtr peerCount dataPtr len).accesses, a.Contained g.memSize) ↔
      ¬ g.NetEscapes peersPtr peerCount dataPtr len := by
  have hbytes : BitVec.ofNat 32 (peerCount.toNat * 32) = peerCount * 32 := by
    apply BitVec.eq_of_toNat_eq
    simp [BitVec.toNat_mul]
  unfold fnNetSendRangeCommon
  split
  · next hlen =>
    refine iff_of_true (fun _ ha => absurd ha List.not_mem_nil) fun h => ?_
    exact hlen.elim h.1 fun hlong => absurd hlong (BitVec.not_lt.mpr h.2.1)
  · next hlen =>
    obtain ⟨hlen, hshort⟩ := not_or.mp hlen
    split
    · next hnone =>
      exact iff_of_true (fun _ ha => absurd ha List.not_mem_nil) fun h => ne_zero_of_wraps h.2.2.1 hnone
    · next hsome =>
      dsimp only
      rw [if_neg (not_not.mpr (Nat.mul_div_cancel _ (by decide))), hbytes]
      split
      · next hcheck =>
        have hdata : dataPtr.toNat + len.toNat ≤ g.memSize := (ipcMemCheck_iff.mp hcheck.2).2
        have hfits := fits_of_check (le_refl peerCount.toNat) hcheck.1
        have hpos : peerCount.toNat ≠ 0 := fun h => hsome (BitVec.eq_of_toNat_eq h)
        rw [or_iff_right hpos] at hfits
        have hpeers : (∀ a ∈ [Access.handed peersPtr.toNat (peerCount.toNat * 32), .handed dataPtr.toNat len.toNat],
            a.Contained g.memSize) ↔ peersPtr.toNat + (32 : BitVec 32).toNat * peerCount.toNat ≤ g.memSize := by
          rw [Nat.mul_comm]
          simpa [Access.Contained] using fun _ => hdata
        rw [hpeers, hfits, Nat.mul_comm]
        refine not_congr ⟨fun h => ?_, fun h => ⟨h.2.2.1, h.2.2.2.2.2⟩⟩
        exact ⟨hlen, BitVec.not_lt.mp hshort, h.1, hcheck.1, hcheck.2, h.2⟩
      · next hcheck =>
        exact iff_of_true (fun _ ha => absurd ha List.not_mem_nil) fun h => hcheck ⟨h.2.2.2.1, h.2.2.2.2.1⟩

theorem fnClipboardSet_contained {ptr len : BitVec 32} :
    (∀ a ∈ (g.fnClipboardSet ptr len).accesses, a.Contained g.memSize) ↔ ¬ g.ClipboardSetEscapes ptr len := by
  unfold fnClipboardSet
  split
  · next hset =>
    obtain ⟨hrange, hlease⟩ := hset
    obtain ⟨_, hle, hfits⟩ := clipboardRange_bounds hrange
    have hfull : len = clipboardMaxSize ↔ len.toNat = 1048577 :=
      ⟨congrArg BitVec.toNat, fun h => BitVec.eq_of_toNat_eq h⟩
    have hstaged : (∀ a ∈ [Access.read ptr.toNat len.toNat, .staged clipboardMaxSize.toNat 0 len.toNat,
        .staged clipboardMaxSize.toNat len.toNat 1], a.Contained g.memSize) ↔ len.toNat + 1 ≤ 1048577 := by
      simpa [Access.Contained, clipboardMaxSize, hfits] using fun _ => hle
    rw [hstaged, ClipboardSetEscapes, hfull]
    constructor
    · rintro hroom ⟨_, _, heq⟩
      omega
    · intro h
      have hne : len.toNat ≠ 1048577 := fun heq => h ⟨hrange, hlease, heq⟩
      omega
  · next hset => exact iff_of_true (fun _ ha => absurd ha List.not_mem_nil) fun h => hset ⟨h.1, h.2.1⟩

theorem fnClipboardGet_contained {outPtr maxLen : BitVec 32} :
    (∀ a ∈ (g.fnClipboardGet outPtr maxLen).accesses, a.Contained g.memSize) ↔
      ¬ g.ClipboardGetEscapes outPtr maxLen := by
  unfold fnClipboardGet
  split
  · next hrange =>
    obtain ⟨hpos, hle, hfits⟩ := clipboardRange_bounds hrange
    split
    · next hempty =>
      refine iff_of_true (fun a ha => ?_) fun h => h.2.1 hempty
      obtain rfl := List.mem_singleton.mp ha
      change outPtr.toNat + 1 ≤ g.memSize
      omega
    · next htext =>
      dsimp only
      generalize hlength : BitVec.ofNat 32 g.clipboardText.length = strlen
      have hmax := toInt_of_lt (x := maxLen) (by omega)
      by_cases hmsb : strlen.msb = true
      · have hneg : ¬ maxLen.sle strlen = true := by
          rw [BitVec.sle_iff_toInt_le, hmax]
          have := BitVec.toInt_neg_iff.mpr (show 2 ^ 32 ≤ 2 * strlen.toNat by have := msb_iff.mp hmsb; omega)
          omega
        refine iff_of_false (fun h => ?_) (not_not.mpr ⟨hrange, htext, hlength ▸ hmsb⟩)
        rw [if_neg hneg] at h
        have hcopied : outPtr.toNat + (strlen.signExtend 64).toNat ≤ g.memSize := h _ List.mem_cons_self
        have hsize := g.memSize_le
        rw [toNat_signExtend, if_pos hmsb] at hcopied
        omega
      · have hnonneg : strlen.toNat < 2147483648 := Nat.lt_of_not_le fun h => hmsb (msb_iff.mpr h)
        have hshort : (if maxLen.sle strlen then maxLen - 1 else strlen).toNat < maxLen.toNat := by
          split
          · bv_omega
          · next hless =>
            rw [BitVec.sle_iff_toInt_le, hmax, toInt_of_lt hnonneg] at hless
            omega
        refine iff_of_true ?_ fun h => hmsb (hlength ▸ h.2.2)
        generalize (if maxLen.sle strlen then maxLen - 1 else strlen) = len at hshort ⊢
        have hsize := g.memSize_le
        have hplain : ¬ len.msb = true := fun h => by have := msb_iff.mp h; omega
        have hend : (outPtr + len).toNat = outPtr.toNat + len.toNat := by
          rw [BitVec.toNat_add, Nat.mod_eq_of_lt]
          omega
        simp only [List.forall_mem_cons, Access.Contained, toNat_signExtend, if_neg hplain, hend]
        exact ⟨by omega, by omega, fun _ ha => absurd ha List.not_mem_nil⟩
  · next hrange => exact iff_of_true (fun _ ha => absurd ha List.not_mem_nil) fun h => hrange h.1

theorem copyBitmap_contained {oip opp mb : BitVec 32} {size : BitVec 32 × BitVec 32} (hmb : mb.toNat < 2147483648)
    (hinfo : oip.toNat + 24 ≤ g.memSize) (hpixels : opp.toNat + mb.toNat ≤ g.memSize) :
    (∀ a ∈ (copyBitmap oip opp mb size).accesses, a.Contained g.memSize) ↔
      ¬ ((size.1 * size.2 * 4).msb = true ∧ g.memSize < opp.toNat + (size.1 * size.2 * 4).toNat) := by
  unfold copyBitmap
  dsimp only
  generalize size.1 * size.2 * 4 = rsz
  have hslt : mb.slt rsz = true ↔ mb.toNat < rsz.toNat ∧ ¬ rsz.msb = true := by
    rw [BitVec.slt_iff_toInt_lt, toInt_of_lt hmb, msb_iff, BitVec.toInt_eq_toNat_cond]
    split <;> omega
  split
  · next hlarge =>
    exact iff_of_true (fun _ ha => absurd ha List.not_mem_nil) fun h => (hslt.mp hlarge).2 h.1
  · next hsmall =>
    have hwritten : (∀ a ∈ [Access.write oip.toNat 24, .write opp.toNat rsz.toNat], a.Contained g.memSize) ↔
        opp.toNat + rsz.toNat ≤ g.memSize := by
      simpa [Access.Contained] using fun _ => hinfo
    rw [hwritten]
    by_cases hmsb : rsz.msb = true
    · simp [hmsb]
    · have hle : rsz.toNat ≤ mb.toNat := Nat.le_of_not_lt fun hlt => hsmall (hslt.mpr ⟨hlt, hmsb⟩)
      exact iff_of_true (by omega) fun h => hmsb h.1

theorem fnFontGetGlyphBitmap_contained {h gid ps oip opp mb : BitVec 32} :
    (∀ a ∈ (g.fnFontGetGlyphBitmap h gid ps oip opp mb).accesses, a.Contained g.memSize) ↔
      ¬ g.GlyphEscapes h gid ps oip opp mb := by
  unfold fnFontGetGlyphBitmap
  cases hfont : g.fonts h with
  | none =>
    refine iff_of_true (fun _ ha => absurd ha List.not_mem_nil) ?_
    rintro ⟨font, _, hsome, _⟩
    cases hfont.symm.trans hsome
  | some font =>
    dsimp only
    split
    · next hguard =>
      obtain ⟨_, hmb, hinfo, hpixels⟩ := id hguard
      cases hsize : if BitVec.slt 0 ps then font.rasterize gid ps else font.bitmap gid with
      | none =>
        refine iff_of_true (fun a ha => ?_) ?_
        · obtain rfl := List.mem_singleton.mp ha
          exact hinfo
        · rintro ⟨font', _, hsome, _, hmade, _⟩
          cases hfont.symm.trans hsome
          cases hsize.symm.trans hmade
      | some size =>
        have hescapes : g.GlyphEscapes h gid ps oip opp mb ↔ (size.1 * size.2 * 4).msb = true ∧
            g.memSize < opp.toNat + (size.1 * size.2 * 4).toNat := by
          constructor
          · rintro ⟨font', size', hsome, _, hmade, hescapes⟩
            cases hfont.symm.trans hsome
            cases hsize.symm.trans hmade
            exact hescapes
          · exact fun h => ⟨font, size, hfont, hguard, hsize, h⟩
        rw [hescapes]
        exact copyBitmap_contained (nonneg_iff.mp hmb) hinfo hpixels
    · next hguard =>
      refine iff_of_true (fun _ ha => absurd ha List.not_mem_nil) ?_
      rintro ⟨_, _, _, hguard', _⟩
      exact hguard hguard'

end Buffers

end Guest

/-- The call makes the host leave the memory of the guest, or its own buffer. -/
def Guest.Escapes (g : Guest) : HostCall → Prop
  | .listGroups outPtr outCap => g.FillEscapes 112 outPtr outCap (BitVec.ofNat 32 g.groups.length)
  | .listWebapps gid outPtr outCap =>
    (g.resolveGroupArg gid).1 ≠ 0xffffffff ∧ (g.resolveGroupArg gid).1.toNat < g.groups.length ∧
      g.FillEscapes 104 outPtr outCap (g.dashboardCountWebappsInGroup (g.resolveGroupArg gid).1)
  | .peerList gid statusFilter out cap => g.ListEscapes gid 280 out cap (rowsOf (.peers statusFilter))
  | .roleList gid out cap => g.ListEscapes gid 152 out cap (rowsOf .roles)
  | .groupWebappList gid out cap => g.ListEscapes gid 304 out cap (rowsOf .webapps)
  | .serverList gid type out cap => g.ListEscapes gid 4480 out cap (rowsOf (.servers type))
  | .inviteList gid out cap => g.ListEscapes gid 216 out cap (rowsOf .invites)
  | .auditList gid since out cap => g.ListEscapes gid 600 out cap (rowsOf (.audit since))
  | .auditListForks gid out cap => g.ListEscapes gid 1544 out cap forksOf
  | .behaviorStalePeers gid staleMs out cap => g.ListEscapes gid 32 out cap (stalePeersOf staleMs)
  | .netSendRange peersPtr peerCount dataPtr len | .netSendRangeUnreliable peersPtr peerCount dataPtr len =>
    g.NetEscapes peersPtr peerCount dataPtr len
  | .clipboardGet outPtr maxLen => g.ClipboardGetEscapes outPtr maxLen
  | .clipboardSet ptr len => g.ClipboardSetEscapes ptr len
  | .fontGetGlyphBitmap h gid ps oip opp mb => g.GlyphEscapes h gid ps oip opp mb

/-- Each range lies in the guest's memory, and what is staged in the buffer, but where the call escapes. -/
theorem contained_iff (g : Guest) (call : HostCall) :
    (∀ a ∈ (g.hostCall call).accesses, a.Contained g.memSize) ↔ ¬ g.Escapes call := by
  cases call with
  | listGroups outPtr outCap => exact fillInfo_contained
  | listWebapps gid outPtr outCap => exact hostDashboardListWebapps_contained
  | peerList gid statusFilter out cap => exact hostList_contained (lists_grList (.peers statusFilter) 280 _)
  | roleList gid out cap => exact hostList_contained (lists_grList .roles 152 _)
  | groupWebappList gid out cap => exact hostList_contained (lists_grList .webapps 304 _)
  | serverList gid type out cap => exact hostList_contained (lists_grList (.servers type) 4480 _)
  | inviteList gid out cap => exact hostList_contained (lists_grList .invites 216 _)
  | auditList gid since out cap => exact hostList_contained (lists_grList (.audit since) 600 _)
  | auditListForks gid out cap => exact hostList_contained lists_forks
  | behaviorStalePeers gid staleMs out cap => exact hostList_contained (lists_stalePeers staleMs)
  | netSendRange peersPtr peerCount dataPtr len => exact fnNetSendRangeCommon_contained
  | netSendRangeUnreliable peersPtr peerCount dataPtr len => exact fnNetSendRangeCommon_contained
  | clipboardGet outPtr maxLen => exact fnClipboardGet_contained
  | clipboardSet ptr len => exact fnClipboardSet_contained
  | fontGetGlyphBitmap h gid ps oip opp mb => exact fnFontGetGlyphBitmap_contained

def lonely : Guest where
  memory := some (List.replicate 1114112 0)
  small m h := by
    cases h
    rw [List.length_replicate]
    decide
  groupIndex := 0
  groups := [⟨Bytes.fill 32 0, some
    { count _ := some 1
      select _ _ := .ok [1]
      forks _ := .ok []
      stalePeers _ := some [] }⟩]
  slots := [0]
  transport := false
  clipboardText := []
  clipboardLease := true
  fonts _ := none

theorem memSize_lonely : lonely.memSize = 1114112 := List.length_replicate

theorem marshalled_outside :
    (¬ ∀ a ∈ (lonely.hostCall (.peerList 0 0xffffffff 1114112 536870912)).accesses, a.Contained lonely.memSize) ∧
      ¬ ∀ a ∈ (lonely.hostCall (.clipboardSet 0 1048577)).accesses, a.Contained lonely.memSize := by
  constructor
  · change ¬ ∀ a ∈ (lonely.hostDashboardPeerList _ _ _ _).accesses, _
    refine mt (hostList_contained (lists_grList (.peers 0xffffffff) 280 _)).mp (not_not.mpr ?_)
    refine ⟨by decide, by decide, by unfold Wraps; decide, ipcMemCheck_iff.mpr ⟨rfl, ?_⟩, ?_⟩
    · rw [memSize_lonely]
      decide
    · rw [memSize_lonely]
      decide
  · change ¬ ∀ a ∈ (lonely.fnClipboardSet _ _).accesses, _
    rw [fnClipboardSet_contained, not_not]
    refine ⟨decide_eq_true ⟨rfl, by decide, by decide, ?_⟩, rfl, rfl⟩
    rw [memSize_lonely]
    decide

end YumiBrowser.Dashboard
