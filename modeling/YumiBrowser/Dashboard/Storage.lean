import YumiBrowser.Dashboard.Slots

namespace YumiBrowser.Dashboard

open Wire Transition

section Paths

variable {dataDir : List Byte} {groupIndex groupIndex' : BitVec 32} {idx idx' : ℕ}

theorem toNat_of_mem_toDigits {n : ℕ} {c : Char} (h : c ∈ Nat.toDigits 10 n) : 48 ≤ c.toNat ∧ c.toNat ≤ 57 :=
  Char.isDigit_iff_toNat.mp (Nat.isDigit_of_mem_toDigits (by decide) le_rfl h)

theorem decode_decimal (n : ℕ) : (decimal n).map (fun b => Char.ofNat b.toNat) = Nat.toDigits 10 n := by
  rw [decimal, List.map_map]
  refine (List.map_congr_left fun c hc => ?_).trans (List.map_id _)
  have hlt : c.toNat < 256 := (toNat_of_mem_toDigits hc).2.trans_lt (by decide)
  change Char.ofNat (BitVec.ofNat 8 c.toNat).toNat = c
  rw [BitVec.toNat_ofNat, Nat.mod_eq_of_lt hlt, Char.ofNat_toNat]

theorem decimal_inj {m n : ℕ} (h : decimal m = decimal n) : m = n := by
  have hdigits := congrArg (List.map fun b : Byte => Char.ofNat b.toNat) h
  rw [decode_decimal, decode_decimal] at hdigits
  have hvalue := congrArg (Nat.ofDigitChars 10 · 0) hdigits
  simpa using hvalue

theorem digit_of_mem_decimal {n : ℕ} {b : Byte} (h : b ∈ decimal n) : 48 ≤ b.toNat ∧ b.toNat ≤ 57 := by
  obtain ⟨c, hc, rfl⟩ := List.mem_map.mp h
  have hdigit := toNat_of_mem_toDigits hc
  rw [BitVec.toNat_ofNat, Nat.mod_eq_of_lt (by omega)]
  exact hdigit

theorem fileName_inj (h : fileName groupIndex idx = fileName groupIndex' idx') :
    groupIndex = groupIndex' ∧ idx = idx' := by
  have hgroup : (95 : Byte) ∉ decimal groupIndex.toNat := fun hmem => absurd (digit_of_mem_decimal hmem).2 (by decide)
  have hidx : (95 : Byte) ∉ decimal idx ++ [46, 100, 98] := by
    intro hmem
    cases List.mem_append.mp hmem with
    | inl hdigit => exact absurd (digit_of_mem_decimal hdigit).2 (by decide)
    | inr hend => exact absurd hend (by decide)
  obtain ⟨hg, _, hi⟩ := (List.append_cons_inj_of_notMem hgroup hidx).mp (List.append_cancel_left h)
  exact ⟨BitVec.eq_of_toNat_eq (decimal_inj hg), decimal_inj (List.append_cancel_right hi)⟩

def SharesFile (dataDir : List Byte) (groupIndex : BitVec 32) (idx : ℕ) (groupIndex' : BitVec 32) (idx' : ℕ) : Prop :=
  let room := 4095 - dataDir.length
  (groupIndex = groupIndex' ∧ idx = idx') ∨
    (fileName groupIndex idx).take room = (fileName groupIndex' idx').take room ∧
      (room < (fileName groupIndex idx).length ∨ room < (fileName groupIndex' idx').length)

theorem dbPath_eq_iff :
    dbPath dataDir groupIndex idx = dbPath dataDir groupIndex' idx' ↔
      SharesFile dataDir groupIndex idx groupIndex' idx' := by
  unfold dbPath SharesFile
  rw [List.take_append, List.take_append, List.append_right_inj]
  constructor
  · intro h
    by_cases hcut : 4095 - dataDir.length < (fileName groupIndex idx).length ∨
        4095 - dataDir.length < (fileName groupIndex' idx').length
    · exact .inr ⟨h, hcut⟩
    · obtain ⟨hfits, hfits'⟩ := not_or.mp hcut
      rw [List.take_of_length_le (Nat.le_of_not_lt hfits), List.take_of_length_le (Nat.le_of_not_lt hfits')] at h
      exact .inl (fileName_inj h)
  · rintro (⟨rfl, rfl⟩ | ⟨h, _⟩)
    · rfl
    · exact h

end Paths

structure Birth where
  slot : WebAppSlot
  idx : ℕ

inductive SlotOp
  | add (groupIndex : BitVec 32) (wasmPath : List Byte) (vp : WebAppViewport) (isDashboard : Bool) (a : Attempt)
  | remove (index : ℕ)
  | disconnect (groupIndex : BitVec 32)

structure Storage where
  dash : DashboardRuntime
  births : List Birth

def Attempt.Makes (a : Attempt) (d : DashboardRuntime) (groupIndex : BitVec 32) : Prop :=
  groupIndex.toNat < d.groups.length ∧ a.reserved = true ∧ a.textured = true ∧ a.allocated = true ∧
    a.initialised = true ∧ a.loaded = true

instance (a : Attempt) (d : DashboardRuntime) (groupIndex : BitVec 32) : Decidable (a.Makes d groupIndex) :=
  inferInstanceAs (Decidable (_ ∧ _))

def WebAppSlot.file? (slot : WebAppSlot) : Option (List Byte) := slot.rt.map WebAppRuntime.dbPath

namespace Storage

variable (dataDir : List Byte) (s : Storage)

def next : SlotOp → Storage
  | .add groupIndex wasmPath vp isDashboard a =>
    { dash := (s.dash.dashboardAddSlot dataDir groupIndex wasmPath vp isDashboard a).1
      births :=
        if a.Makes s.dash groupIndex then
          s.births ++ [⟨s.dash.newSlot dataDir groupIndex wasmPath vp isDashboard, s.dash.slots.length⟩]
        else s.births }
  | .remove index => { s with dash := s.dash.dashboardRemoveSlot index }
  | .disconnect groupIndex => { s with dash := s.dash.dashboardDisconnectGroup groupIndex }

/-- No two slots have the same database, and none has one that a slot of another app had before it. -/
structure Isolated : Prop where
  live : s.dash.slots.Pairwise fun a b => ∀ file, a.file? = some file → b.file? ≠ some file
  once : s.births.Pairwise fun a b => a.slot.file? = b.slot.file? → a.slot.appId = b.slot.appId

/-- A slot is added to a group at a number of slots at which only its own app was added to the group before,
and is not there any more. -/
def Fresh : SlotOp → Prop
  | .add groupIndex wasmPath _ _ a => a.Makes s.dash groupIndex →
    ∀ b ∈ s.births, SharesFile dataDir b.slot.groupIndex b.idx groupIndex s.dash.slots.length →
      b.slot.appId = appId wasmPath ∧ ∀ slot ∈ s.dash.slots, slot.rt ≠ b.slot.rt
  | _ => True

structure Inv : Prop where
  born : ∀ slot ∈ s.dash.slots, ∃ b ∈ s.births, slot.rt = b.slot.rt
  named : ∀ b ∈ s.births, ∃ rt, b.slot.rt = some rt ∧ rt.dbPath = dbPath dataDir b.slot.groupIndex b.idx ∧
    rt.serial < s.dash.allocated
  distinct : s.births.Pairwise fun a b => a.slot.rt ≠ b.slot.rt

variable {dataDir s}

theorem dashboardAddSlot_eq (d : DashboardRuntime) (groupIndex : BitVec 32) (wasmPath : List Byte)
    (vp : WebAppViewport) (isDashboard : Bool) (a : Attempt) :
    (a.Makes d groupIndex ∧ (d.dashboardAddSlot dataDir groupIndex wasmPath vp isDashboard a).1 =
      { d with
        slots := d.slots ++ [d.newSlot dataDir groupIndex wasmPath vp isDashboard]
        allocated := d.allocated + 1 }) ∨
    (¬ a.Makes d groupIndex ∧ ∃ allocated, d.allocated ≤ allocated ∧
      (d.dashboardAddSlot dataDir groupIndex wasmPath vp isDashboard a).1 = { d with allocated }) := by
  unfold DashboardRuntime.dashboardAddSlot
  by_cases hmakes : a.Makes d groupIndex
  · obtain ⟨hgroup, hreserved, htextured, hallocated, hinitialised, hloaded⟩ := id hmakes
    refine .inl ⟨hmakes, ?_⟩
    rw [if_neg (not_not.mpr hreserved), if_neg (Nat.not_le.mpr hgroup), if_neg (not_not.mpr htextured),
      if_neg (not_not.mpr hallocated), if_neg (not_not.mpr hinitialised), if_neg (not_not.mpr hloaded)]
  · refine .inr ⟨hmakes, ?_⟩
    split
    · exact ⟨_, le_rfl, rfl⟩
    · split
      · exact ⟨_, le_rfl, rfl⟩
      · split
        · exact ⟨_, le_rfl, rfl⟩
        · split
          · exact ⟨_, le_rfl, rfl⟩
          · split
            · exact ⟨_, Nat.le_succ _, rfl⟩
            · split
              · exact ⟨_, Nat.le_succ _, rfl⟩
              · simp only [not_not, not_le] at *
                exact absurd ⟨‹_›, ‹_›, ‹_›, ‹_›, ‹_›, ‹_›⟩ hmakes

theorem slots_removeSlot (d : DashboardRuntime) (index : ℕ) :
    ((d.dashboardRemoveSlot index).slots).Sublist d.slots := by
  unfold DashboardRuntime.dashboardRemoveSlot
  split
  · exact .refl _
  · exact List.eraseIdx_sublist _ _

theorem allocated_removeSlot (d : DashboardRuntime) (index : ℕ) :
    (d.dashboardRemoveSlot index).allocated = d.allocated := by
  unfold DashboardRuntime.dashboardRemoveSlot
  split <;> rfl

theorem closeSlots_eq (groupIndex : BitVec 32) (n : ℕ) (d : DashboardRuntime) :
    ((DashboardRuntime.closeSlots groupIndex n d).slots).Sublist d.slots ∧
      (DashboardRuntime.closeSlots groupIndex n d).allocated = d.allocated := by
  induction n generalizing d with
  | zero => exact ⟨.refl _, rfl⟩
  | succ i ih =>
    unfold DashboardRuntime.closeSlots
    split
    · obtain ⟨hslots, hallocated⟩ := ih (d.dashboardRemoveSlot i)
      exact ⟨hslots.trans (slots_removeSlot d i), hallocated.trans (allocated_removeSlot d i)⟩
    · exact ih d

theorem disconnectGroup_eq (d : DashboardRuntime) (groupIndex : BitVec 32) :
    ((d.dashboardDisconnectGroup groupIndex).slots).Sublist d.slots ∧
      (d.dashboardDisconnectGroup groupIndex).allocated = d.allocated := by
  unfold DashboardRuntime.dashboardDisconnectGroup
  split
  · exact ⟨.refl _, rfl⟩
  · exact closeSlots_eq groupIndex _ d

theorem Inv.shrink {d : DashboardRuntime} (h : s.Inv dataDir) (hslots : d.slots.Sublist s.dash.slots)
    (hallocated : s.dash.allocated ≤ d.allocated) : Inv dataDir { s with dash := d } := by
  refine ⟨fun slot hslot => h.born slot (hslots.subset hslot), fun b hb => ?_, h.distinct⟩
  obtain ⟨rt, hrt, hpath, hserial⟩ := h.named b hb
  exact ⟨rt, hrt, hpath, hserial.trans_le hallocated⟩

theorem Isolated.shrink {d : DashboardRuntime} (h : s.Isolated) (hslots : d.slots.Sublist s.dash.slots) :
    Isolated { s with dash := d } :=
  ⟨h.live.sublist hslots, h.once⟩

theorem next_cases (s : Storage) (op : SlotOp) :
    (∃ d : DashboardRuntime, d.slots.Sublist s.dash.slots ∧ s.dash.allocated ≤ d.allocated ∧
      s.next dataDir op = { s with dash := d } ∧ s.Fresh dataDir op) ∨
    ∃ groupIndex wasmPath vp isDashboard a, op = .add groupIndex wasmPath vp isDashboard a ∧
      a.Makes s.dash groupIndex ∧
      let slot := s.dash.newSlot dataDir groupIndex wasmPath vp isDashboard
      s.next dataDir op =
        { dash := { s.dash with slots := s.dash.slots ++ [slot], allocated := s.dash.allocated + 1 }
          births := s.births ++ [⟨slot, s.dash.slots.length⟩] } := by
  cases op with
  | add groupIndex wasmPath vp isDashboard a =>
    rcases @dashboardAddSlot_eq dataDir s.dash groupIndex wasmPath vp isDashboard a with
      ⟨hmakes, hadd⟩ | ⟨hmakes, allocated, hle, hadd⟩
    · refine .inr ⟨groupIndex, wasmPath, vp, isDashboard, a, rfl, hmakes, ?_⟩
      simp only [next, hadd, if_pos hmakes]
    · refine .inl ⟨{ s.dash with allocated }, .refl _, hle, ?_, fun h => absurd h hmakes⟩
      simp only [next, hadd, if_neg hmakes]
  | remove index =>
    exact .inl ⟨_, slots_removeSlot s.dash index, (allocated_removeSlot s.dash index).ge, rfl, trivial⟩
  | disconnect groupIndex =>
    obtain ⟨hslots, hallocated⟩ := disconnectGroup_eq s.dash groupIndex
    exact .inl ⟨_, hslots, hallocated.ge, rfl, trivial⟩

theorem Inv.next (h : s.Inv dataDir) (op : SlotOp) : (s.next dataDir op).Inv dataDir := by
  rcases @next_cases dataDir s op with
    ⟨d, hslots, hallocated, heq, _⟩ | ⟨groupIndex, wasmPath, vp, isDashboard, a, _, _, heq⟩
  · rw [heq]
    exact h.shrink hslots hallocated
  · rw [heq]
    constructor
    · intro slot hslot
      cases List.mem_append.mp hslot with
      | inl hold =>
        obtain ⟨b, hb, hrt⟩ := h.born slot hold
        exact ⟨b, List.mem_append_left _ hb, hrt⟩
      | inr hnew =>
        obtain rfl := List.mem_singleton.mp hnew
        exact ⟨_, List.mem_append_right _ (List.mem_singleton_self _), rfl⟩
    · intro b hb
      cases List.mem_append.mp hb with
      | inl hold =>
        obtain ⟨rt, hrt, hpath, hserial⟩ := h.named b hold
        exact ⟨rt, hrt, hpath, Nat.lt_succ_of_lt hserial⟩
      | inr hnew =>
        obtain rfl := List.mem_singleton.mp hnew
        exact ⟨_, rfl, rfl, Nat.lt_succ_self _⟩
    · refine List.pairwise_append.mpr ⟨h.distinct, List.pairwise_singleton _ _, fun b hb b' hb' heq => ?_⟩
      obtain rfl := List.mem_singleton.mp hb'
      obtain ⟨rt, hrt, _, hserial⟩ := h.named b hb
      cases hrt.symm.trans heq
      exact Nat.lt_irrefl _ hserial

theorem isolated_next_iff (h : s.Inv dataDir) (hs : s.Isolated) (op : SlotOp) :
    (s.next dataDir op).Isolated ↔ s.Fresh dataDir op := by
  rcases @next_cases dataDir s op with
    ⟨d, hslots, _, heq, hfresh⟩ | ⟨groupIndex, wasmPath, vp, isDashboard, a, rfl, hmakes, heq⟩
  · rw [heq]
    exact iff_of_true (hs.shrink hslots) hfresh
  · rw [heq]
    have hfile (b : Birth) (hb : b ∈ s.births) :
        b.slot.file? = some (dbPath dataDir groupIndex s.dash.slots.length) ↔
          SharesFile dataDir b.slot.groupIndex b.idx groupIndex s.dash.slots.length := by
      obtain ⟨rt, hrt, hpath, _⟩ := h.named b hb
      rw [WebAppSlot.file?, hrt, ← dbPath_eq_iff, ← hpath]
      exact Option.some_inj
    constructor
    · intro hnext _ b hb hshares
      obtain ⟨_, _, honce⟩ := List.pairwise_append.mp hnext.once
      obtain ⟨_, _, hlive⟩ := List.pairwise_append.mp hnext.live
      have hsame := (hfile b hb).mpr hshares
      refine ⟨honce b hb _ (List.mem_singleton_self _) hsame, fun slot hslot hrt => ?_⟩
      have hslotFile : slot.file? = some (dbPath dataDir groupIndex s.dash.slots.length) := by
        rw [WebAppSlot.file?, hrt]
        exact hsame
      exact hlive slot hslot _ (List.mem_singleton_self _) _ hslotFile rfl
    · intro hfresh
      constructor
      · refine List.pairwise_append.mpr ⟨hs.live, List.pairwise_singleton _ _, fun slot hslot slot' hslot' => ?_⟩
        obtain rfl := List.mem_singleton.mp hslot'
        intro file hold hnew
        obtain ⟨b, hb, hrt⟩ := h.born slot hslot
        have hbirth : b.slot.file? = some (dbPath dataDir groupIndex s.dash.slots.length) := by
          rw [WebAppSlot.file?, ← hrt]
          exact hold.trans hnew.symm
        exact (hfresh hmakes b hb ((hfile b hb).mp hbirth)).2 slot hslot hrt
      · refine List.pairwise_append.mpr ⟨hs.once, List.pairwise_singleton _ _, fun b hb b' hb' hsame => ?_⟩
        obtain rfl := List.mem_singleton.mp hb'
        exact (hfresh hmakes b hb ((hfile b hb).mp hsame)).1

def start (groups : List DashboardGroup) : Storage where
  dash := ⟨groups, [], -1, 0xffffffff, 0⟩
  births := []

/-- Storage stays isolated throughout a run exactly when each slot is added at a fresh number. -/
theorem isolated_throughout_iff (dataDir : List Byte) (groups : List DashboardGroup) (ops : List SlotOp) :
    (∀ xs ys, ops = xs ++ ys → (xs.foldl (next dataDir) (start groups)).Isolated) ↔
      ∀ xs op ys, ops = xs ++ op :: ys → (xs.foldl (next dataDir) (start groups)).Fresh dataDir op :=
  System.holds_along_iff (J := Inv dataDir) (I := Isolated) (fun _ op h => h.next op)
    (fun _ op h hs => isolated_next_iff h hs op)
    ⟨fun _ h => absurd h List.not_mem_nil, fun _ h => absurd h List.not_mem_nil, .nil⟩ ⟨.nil, .nil⟩ ops

def opened (wasmPath : List Byte) : SlotOp := .add 0 wasmPath ⟨0, 0, 640, 480⟩ false ⟨true, true, true, true, true⟩

theorem database_reused :
    (¬ ∀ xs ys, [opened [97], .remove 0, opened [98]] = xs ++ ys →
      (xs.foldl (next []) (start [⟨false, .connected, false⟩])).Isolated) ∧
    ¬ ∀ xs ys, [opened [97], opened [98], .remove 0, opened [98]] = xs ++ ys →
      (xs.foldl (next []) (start [⟨false, .connected, false⟩])).Isolated := by
  constructor
  · intro h
    have honce := (h _ [] (List.append_nil _).symm).once
    have hsame := (List.pairwise_cons.mp honce).1 _ (List.mem_singleton_self _) rfl
    exact absurd hsame (by decide)
  · intro h
    have hlive := (h _ [] (List.append_nil _).symm).live
    exact (List.pairwise_cons.mp hlive).1 _ (List.mem_singleton_self _) _ rfl rfl

end Storage

end YumiBrowser.Dashboard
