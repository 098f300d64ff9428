import Mathlib.Data.List.Perm.Subperm
import YumiBrowser.Registrar.Lineage

namespace YumiBrowser.Group

open Wire Keyed Transition

inductive RegistrarEvent
  | call (m : Mutation) (clk : Clock)
  | merge (data : List Byte) (now : I64)

def RegistrarEvent.Takes (crypto : Crypto) (reg reg' : Registrar) : RegistrarEvent → Prop
  | call m clk => m.run crypto reg clk = .ok reg'
  | merge data now => ∃ result, applyDelta crypto reg data now = .ok (reg', result)

def registrarSystem (crypto : Crypto) : System Registrar RegistrarEvent where
  init reg := ∃ name type owner key clk, grCreate crypto name type owner key clk = .ok reg
  step reg e reg' := e.Takes crypto reg reg'

/-- The column orders the entries, and the versions a delta can start from, as the header counts
them. -/
structure ColumnAgrees (reg : Registrar) : Prop where
  since : ∀ v ≤ reg.header.version, ∀ e ∈ reg.auditLog.rows,
    v.toInt < e.registrarVersion.toInt ↔ v < e.registrarVersion
  order : ∀ a ∈ reg.auditLog.rows, ∀ b ∈ reg.auditLog.rows,
    a.registrarVersion.toInt < b.registrarVersion.toInt ↔ a.registrarVersion < b.registrarVersion

def Delta.Brings (crypto : Crypto) (reg : Registrar) (d : Delta) (e : AuditEntry) : Prop :=
  ∃ earlier later, d.entries = earlier ++ e :: later ∧ reg.auditLog.find? e.entryHash = none ∧
    admissible crypto reg d.state e = true ∧
      ∀ a ∈ earlier, a.entryHash = e.entryHash → ¬ admissible crypto reg d.state a = true

/-- The event brings no version in that the column takes for a negative one. -/
def RegistrarEvent.BelowSign (crypto : Crypto) (reg : Registrar) : RegistrarEvent → Prop
  | call m _ => (m.record reg).isSome → reg.header.version.toNat + 1 < 2 ^ 31
  | merge data now => ∀ d, Accepts crypto reg data now d → ∀ e, d.Brings crypto reg e →
    e.registrarVersion.toNat < 2 ^ 31

/-- A step that does not take the version back, after which the column agrees with the header. -/
structure Ordered (x : System.Step Registrar RegistrarEvent) : Prop where
  forward : x.before.header.version ≤ x.after.header.version
  column : ColumnAgrees x.after

structure VersionsBelow (reg : Registrar) : Prop where
  nonempty : reg.auditLog.rows ≠ []
  header : reg.header.version.toNat < 2 ^ 31
  entries : ∀ e ∈ reg.auditLog.rows, e.registrarVersion ≤ reg.header.version

section Column

variable {reg : Registrar} {a b : BitVec 32}

theorem toInt_below (h : a.toNat < 2 ^ 31) : a.toInt = a.toNat :=
  BitVec.toInt_eq_toNat_of_lt (by omega)

theorem toInt_lt_iff (ha : a.toNat < 2 ^ 31) (hb : b.toNat < 2 ^ 31) : a.toInt < b.toInt ↔ a < b := by
  rw [toInt_below ha, toInt_below hb, Int.ofNat_lt, BitVec.lt_def]

theorem VersionsBelow.agrees (h : VersionsBelow reg) : ColumnAgrees reg := by
  have hentry : ∀ e ∈ reg.auditLog.rows, e.registrarVersion.toNat < 2 ^ 31 :=
    fun e he => Nat.lt_of_le_of_lt (BitVec.le_def.mp (h.entries e he)) h.header
  constructor
  · intro v hv e he
    exact toInt_lt_iff (Nat.lt_of_le_of_lt (BitVec.le_def.mp hv) h.header) (hentry e he)
  · exact fun a ha b hb => toInt_lt_iff (hentry a ha) (hentry b hb)

theorem toInt_above (h : 2 ^ 31 ≤ a.toNat) : a.toInt < 0 := by
  have hlt := a.isLt
  rw [BitVec.toInt_eq_toNat_cond, if_neg (by omega)]
  omega

theorem ColumnAgrees.below (h : ColumnAgrees reg) (hlog : reg.auditLog.rows ≠ []) :
    reg.header.version.toNat < 2 ^ 31 := by
  obtain ⟨e, he⟩ := List.exists_mem_of_ne_nil _ hlog
  by_contra hbig
  have hmin : 0x80000000#32 ≤ reg.header.version := BitVec.le_def.mpr (Nat.not_lt.mp hbig)
  cases Nat.lt_or_ge e.registrarVersion.toNat (2 ^ 31) with
  | inl hlow =>
    have hsigned : (0x80000000#32).toInt < e.registrarVersion.toInt := by
      rw [toInt_below hlow]
      exact Int.lt_of_lt_of_le (by decide) (Int.natCast_nonneg _)
    have hlt := BitVec.lt_def.mp ((h.since _ hmin e he).mp hsigned)
    exact absurd hlt (Nat.not_lt.mpr (Nat.le_of_lt hlow))
  | inr hhigh =>
    have hpos : 0#32 < e.registrarVersion := BitVec.lt_def.mpr (Nat.lt_of_lt_of_le (by decide) hhigh)
    have hsigned := (h.since 0#32 (BitVec.le_def.mpr (Nat.zero_le _)) e he).mpr hpos
    exact absurd hsigned (Int.not_lt.mpr (Int.le_of_lt (toInt_above hhigh)))

end Column

section Cut

variable {log : AuditLog}

theorem length_le_auditPrune (n : ℕ) : log.rows.length ≤ (auditPrune log n).rows.length + n := by
  unfold auditPrune
  generalize hold : List.take n _ = oldest
  let kept (e : AuditEntry) : Bool := oldest.all fun o => o.entryHash ≠ e.entryHash
  have hlen : oldest.length ≤ n := by
    rw [← hold]
    exact List.length_take_le ..
  have hhash : ((log.rows.filter fun e => !kept e).map AuditEntry.entryHash) ⊆
      oldest.map AuditEntry.entryHash := by
    intro k hk
    obtain ⟨e, he, rfl⟩ := List.mem_map.mp hk
    have hcut := (List.mem_filter.mp he).2
    simp only [kept, Bool.not_eq_true', List.all_eq_false, decide_eq_true_eq, not_not] at hcut
    obtain ⟨o, ho, heq⟩ := hcut
    exact List.mem_map.mpr ⟨o, ho, heq⟩
  have hnodup := log.nodup.sublist ((List.filter_sublist (p := fun e => !kept e)).map AuditEntry.entryHash)
  have hcut := (List.subperm_of_subset hnodup hhash).length_le
  rw [List.length_map, List.length_map] at hcut
  have hsplit := List.length_eq_length_filter_add (l := log.rows) kept
  change _ ≤ (log.rows.filter kept).length + n
  omega

theorem enforceRetention_ne_nil (h : log.rows ≠ []) : (enforceRetention log).rows ≠ [] := by
  unfold enforceRetention
  split
  · exact h
  · next hlong =>
    have hlen := @length_le_auditPrune log (log.rows.length - auditMaxRows)
    have hmax : 0 < auditMaxRows := by decide
    exact List.ne_nil_of_length_pos (by omega)

end Cut

theorem length_grownLog_le {crypto : Crypto} {reg : Registrar} {d : Delta} :
    (grownLog crypto reg d).rows.length ≤ reg.auditLog.rows.length + d.entries.length :=
  (Table.length_insertMissing_le _).trans (Nat.add_le_add_left (List.length_filter_le ..) _)

theorem auditLog_applied_of_short {crypto : Crypto} {reg : Registrar} {d : Delta}
    (hshort : reg.auditLog.rows.length + d.entries.length ≤ auditMaxRows) :
    (applied crypto reg d).auditLog = grownLog crypto reg d := by
  have huncut : enforceRetention (grownLog crypto reg d) = grownLog crypto reg d :=
    if_pos (length_grownLog_le.trans hshort)
  rw [auditLog_applied, keptLog, huncut, ite_self]

section Step

variable {crypto : Crypto} {reg reg' : Registrar} {e : AuditEntry} {ev : RegistrarEvent}
  {m : Mutation} {clk : Clock} {data : List Byte} {now : I64} {result : MergeResult}

theorem Writes.nonempty (h : Writes reg reg' e) : reg'.auditLog.rows ≠ [] := by
  rw [h.log]
  exact enforceRetention_ne_nil (Table.insertIgnore_ne_nil _ _)

theorem Writes.version_toNat (h : Writes reg reg' e) (hbelow : reg.header.version.toNat < 2 ^ 31) :
    reg'.header.version.toNat = reg.header.version.toNat + 1 := by
  rw [h.header, h.version, BitVec.toNat_add]
  exact Nat.mod_eq_of_lt (by simp; omega)

theorem VersionsBelow.write (h : VersionsBelow reg) (hw : Writes reg reg' e)
    (hroom : reg.header.version.toNat + 1 < 2 ^ 31) :
    reg.header.version ≤ reg'.header.version ∧ VersionsBelow reg' := by
  have hnat := hw.version_toNat h.header
  have hle : reg.header.version ≤ reg'.header.version := by
    rw [BitVec.le_def, hnat]
    exact Nat.le_succ _
  refine ⟨hle, hw.nonempty, ?_, ?_⟩
  · rw [hnat]
    exact hroom
  · intro a ha
    rw [hw.log] at ha
    cases Table.mem_insertIgnore (enforceRetention_subset ha) with
    | inl hold => exact BitVec.le_trans (h.entries a hold) hle
    | inr hnew =>
      rw [hnew, hw.header]
      exact BitVec.le_refl _

theorem merged (h : applyDelta crypto reg data now = .ok (reg', result)) :
    ∃ d, Accepts crypto reg data now d ∧
      reg'.header.version = (mergeEntries crypto reg d).version ∧
      reg'.auditLog.rows ⊆ reg.auditLog.rows ++ (mergeEntries crypto reg d).inserted ∧
      (reg.auditLog.rows ≠ [] → reg'.auditLog.rows ≠ []) := by
  obtain ⟨d, hacc, heq⟩ := applyDelta_eq_ok.mp h
  obtain ⟨rfl, rfl⟩ := Prod.mk.inj heq
  refine ⟨d, hacc, ?_, ?_, ?_⟩
  · rw [header_cutLog]
    rfl
  · intro a ha
    rw [← rows_mergeEntries]
    unfold cutLog at ha
    split at ha
    · exact enforceRetention_subset ha
    · exact ha
  · intro hlog
    have hmerged : (mergeEntries crypto reg d).log.rows ≠ [] := by
      rw [rows_mergeEntries]
      exact List.append_ne_nil_of_left_ne_nil hlog _
    unfold cutLog
    split
    · exact enforceRetention_ne_nil hmerged
    · exact hmerged

theorem VersionsBelow.merge (h : VersionsBelow reg)
    (htake : applyDelta crypto reg data now = .ok (reg', result)) :
    reg.header.version ≤ reg'.header.version ∧ reg'.auditLog.rows ≠ [] ∧
      ((RegistrarEvent.merge data now).BelowSign crypto reg → VersionsBelow reg') ∧
      (reg'.header.version.toNat < 2 ^ 31 → (RegistrarEvent.merge data now).BelowSign crypto reg) := by
  obtain ⟨d, hacc, hversion, hrows, hlog⟩ := merged htake
  obtain ⟨hle, hnew, hfrom⟩ := version_mergeEntries crypto reg d
  have hbrings : ∀ e, d.Brings crypto reg e ↔ e ∈ (mergeEntries crypto reg d).inserted :=
    fun e => (mem_inserted d e).symm
  refine ⟨hversion ▸ hle, hlog h.nonempty, ?_, ?_⟩
  · intro hsafe
    refine ⟨hlog h.nonempty, ?_, ?_⟩
    · rw [hversion]
      cases hfrom with
      | inl hsame => rw [hsame]; exact h.header
      | inr hentry =>
        obtain ⟨e, he, hsame⟩ := hentry
        rw [hsame]
        exact hsafe d hacc e ((hbrings e).mpr he)
    · intro a ha
      rw [hversion]
      cases List.mem_append.mp (hrows ha) with
      | inl hold => exact BitVec.le_trans (h.entries a hold) hle
      | inr hin => exact hnew a hin
  · intro hbelow d' hacc' e he
    rw [hacc'.unique hacc, hbrings] at he
    rw [hversion] at hbelow
    exact Nat.lt_of_le_of_lt (BitVec.le_def.mp (hnew e he)) hbelow

theorem VersionsBelow.call (h : VersionsBelow reg) (hcall : m.run crypto reg clk = .ok reg') :
    reg'.auditLog.rows ≠ [] ∧
      ((RegistrarEvent.call m clk).BelowSign crypto reg →
        reg.header.version ≤ reg'.header.version ∧ VersionsBelow reg') ∧
      (reg'.header.version.toNat < 2 ^ 31 → (RegistrarEvent.call m clk).BelowSign crypto reg) := by
  cases m.records crypto reg clk reg' hcall with
  | inl hquiet =>
    obtain ⟨hnone, hview⟩ := hquiet
    obtain ⟨hlog, hversion⟩ := Prod.mk.inj hview
    refine ⟨hlog ▸ h.nonempty, fun _ => ⟨BitVec.le_of_eq hversion.symm, ?_⟩, ?_⟩
    · constructor
      · rw [hlog]; exact h.nonempty
      · rw [hversion]; exact h.header
      · rw [hlog, hversion]; exact h.entries
    · intro _ hsome
      rw [hnone] at hsome
      cases hsome
  | inr hwrite =>
    obtain ⟨c, hrecord, hw⟩ := hwrite
    refine ⟨hw.nonempty, fun hroom => ?_, fun hbelow _ => ?_⟩
    · exact h.write hw (hroom (by rw [hrecord]; rfl))
    · rwa [hw.version_toNat h.header] at hbelow

theorem VersionsBelow.step (h : VersionsBelow reg) (htake : ev.Takes crypto reg reg') :
    (Ordered ⟨reg, ev, reg'⟩ ↔ ev.BelowSign crypto reg) ∧
      (ev.BelowSign crypto reg → VersionsBelow reg') := by
  cases ev with
  | call m clk =>
    obtain ⟨hlog, hkeep, hback⟩ := h.call htake
    refine ⟨⟨fun ho => hback (ho.column.below hlog), fun hsafe => ?_⟩, fun hsafe => (hkeep hsafe).2⟩
    exact ⟨(hkeep hsafe).1, (hkeep hsafe).2.agrees⟩
  | merge data now =>
    obtain ⟨result, htaken⟩ := htake
    obtain ⟨hle, hlog, hkeep, hback⟩ := h.merge htaken
    exact ⟨⟨fun ho => hback (ho.column.below hlog), fun hsafe => ⟨hle, (hkeep hsafe).agrees⟩⟩, hkeep⟩

theorem versionsBelow_grCreate (h : grCreate crypto name type owner key clk = .ok reg) :
    VersionsBelow reg := by
  obtain ⟨e, hrows, hentry, hheader, _⟩ := log_grCreate h
  constructor
  · rw [hrows]
    exact List.cons_ne_nil _ _
  · rw [hheader]
    decide
  · intro a ha
    rw [hrows, List.mem_singleton] at ha
    rw [ha, hentry, hheader]
    exact BitVec.le_refl _

end Step

section Run

variable {crypto : Crypto} {start reg : Registrar} {xs : List (System.Step Registrar RegistrarEvent)}

theorem VersionsBelow.walk (h : VersionsBelow start)
    (hwalk : (registrarSystem crypto).Walk start xs reg) :
    (∀ x ∈ xs, Ordered x) ↔ ∀ x ∈ xs, x.event.BelowSign crypto x.before := by
  induction hwalk with
  | nil => exact ⟨fun _ _ hx => absurd hx List.not_mem_nil, fun _ _ hx => absurd hx List.not_mem_nil⟩
  | cons htake _ ih =>
    obtain ⟨hstep, hnext⟩ := h.step htake
    rw [List.forall_mem_cons, List.forall_mem_cons, hstep]
    exact and_congr_right fun hsafe => ih (hnext hsafe)

/-- The version and the column keep their order as long as no version reaches the sign bit. -/
theorem versions_ordered_iff (hstart : (registrarSystem crypto).init start)
    (hwalk : (registrarSystem crypto).Walk start xs reg) :
    (ColumnAgrees start ∧ ∀ x ∈ xs, Ordered x) ↔ ∀ x ∈ xs, x.event.BelowSign crypto x.before := by
  obtain ⟨_, _, _, _, _, hcreate⟩ := hstart
  have hbelow := versionsBelow_grCreate hcreate
  rw [← hbelow.walk hwalk]
  exact and_iff_right hbelow.agrees

end Run

section Leap

def leap : AuditEntry where
  entryHash := zeroBytes 128
  timestamp := 4
  timestampNs := 4000000
  changeType := ChangeType.peerAddress.code
  actorId := (member 1).peerId
  targetId := (member 1).peerId
  signature := zeroBytes 4627
  registrarVersion := 0xffffffff
  detail := CString.empty 256 detailCap_pos
  prevHash := zeroBytes 128

def leapEntry : AuditEntry := { leap with entryHash := lengthHash leap.hashed }

theorem hashed_entryHash (e : AuditEntry) (key : Hash) : { e with entryHash := key }.hashed = e.hashed :=
  rfl

theorem hashed_leapEntry : leapEntry.hashed = leap.hashed := hashed_entryHash leap _

def leapDelta : Delta := ⟨0, some memberState, [leapEntry]⟩

theorem leapDelta_accepted : Accepts (onlySigner lengthHash (member 1)) (createdGroup lengthHash)
    (writeDelta 0 memberState [leapEntry]) 4 leapDelta := by
  have hlen := length_writeDelta_le 0 memberState [leapEntry] rfl rfl rfl
  have hc : Counted memberState [leapEntry] := by constructor <;> simp [memberState]
  have hkey : memberState.header.signerSignKey = (member 1).publicKey := rfl
  exact ⟨tooLarge_of_le (hlen.trans (by decide)), [],
    readDelta_writeDelta 0 hc (by simp [onlySigner, hkey]) rfl⟩

theorem ownersEntry_brought {e : AuditEntry} {state : Option DeltaState}
    (hactor : e.actorId = (member 1).peerId) (htype : e.changeType = ChangeType.peerAddress.code)
    (hhash : e.entryHash = lengthHash e.hashed) (hlen : e.hashed.length = 208) :
    Delta.Brings (onlySigner lengthHash (member 1)) (createdGroup lengthHash) ⟨0, state, [e]⟩ e := by
  have hrow : (createdGroup lengthHash).peers.find? e.actorId = some (ownerPeer (member 1) 1) := by
    rw [hactor]
    rfl
  have hkey : (ownerPeer (member 1) 1).signKey = (member 1).publicKey := rfl
  have hsigned : signedByActor (onlySigner lengthHash (member 1)) (createdGroup lengthHash) e := by
    rw [signedByActor, hrow]
    simp only [onlySigner, hkey, decide_true]
  have hintact : intact (onlySigner lengthHash (member 1)) e := decide_eq_true hhash.symm
  refine ⟨[], [], rfl, ?_, ?_, fun _ he => absurd he List.not_mem_nil⟩
  · exact createdGroup_lacks hhash (by rw [hlen]; decide) (by rw [hlen]; decide)
  · rw [admissible, hintact, hsigned]
    unfold authorized
    rw [htype, ChangeType.ofCode_code]
    rfl

theorem leapEntry_brought :
    leapDelta.Brings (onlySigner lengthHash (member 1)) (createdGroup lengthHash) leapEntry :=
  ownersEntry_brought rfl rfl (congrArg lengthHash hashed_leapEntry).symm (length_hashed leapEntry)

def leaptGroup : Registrar :=
  applied (onlySigner lengthHash (member 1)) (createdGroup lengthHash) leapDelta

theorem version_leaptGroup : leaptGroup.header.version = 0xffffffff#32 := by
  have hversion : leaptGroup.header.version = (mergeEntries (onlySigner lengthHash (member 1))
      (createdGroup lengthHash) leapDelta).version := by
    rw [leaptGroup, applied, header_cutLog, mergeDelta]
  have hle := (version_mergeEntries (onlySigner lengthHash (member 1)) (createdGroup lengthHash)
    leapDelta).2.1 leapEntry ((mem_inserted leapDelta leapEntry).mpr leapEntry_brought)
  rw [hversion]
  exact BitVec.le_antisymm (BitVec.le_def.mpr (Nat.le_of_lt_succ (BitVec.isLt _))) hle

def wrappedGroup : Registrar :=
  Mutation.close (onlySigner lengthHash (member 1)) leaptGroup
    (updateAddr leaptGroup (member 1).peerId [] 0 5) ⟨5, 5000000⟩ (.peerUpdateAddress [] 0 (member 1))

def leapSteps : List (System.Step Registrar RegistrarEvent) :=
  [⟨createdGroup lengthHash, .merge (writeDelta 0 memberState [leapEntry]) 4, leaptGroup⟩,
    ⟨leaptGroup, .call (.peerUpdateAddress [] 0 (member 1)) ⟨5, 5000000⟩, wrappedGroup⟩]

theorem createdGroup_init : (registrarSystem (onlySigner lengthHash (member 1))).init
    (createdGroup lengthHash) := ⟨_, _, _, _, _, grCreate_createdGroup⟩

theorem leapSteps_walk : (registrarSystem (onlySigner lengthHash (member 1))).Walk
    (createdGroup lengthHash) leapSteps wrappedGroup := by
  have hedit : Edit (onlySigner lengthHash (member 1)) leaptGroup ⟨5, 5000000⟩
      (.peerUpdateAddress [] 0 (member 1)) (updateAddr leaptGroup (member 1).peerId [] 0 5) :=
    .addressUpdated
  exact .cons ⟨_, applyDelta_eq_ok.mpr ⟨leapDelta, leapDelta_accepted, rfl⟩⟩ (.cons hedit.run .nil)

theorem version_wrappedGroup : wrappedGroup.header.version = 0#32 := by
  have hedit : Edit (onlySigner lengthHash (member 1)) leaptGroup ⟨5, 5000000⟩
      (.peerUpdateAddress [] 0 (member 1)) (updateAddr leaptGroup (member 1).peerId [] 0 5) :=
    .addressUpdated
  cases Mutation.records _ _ _ _ _ hedit.run with
  | inl hquiet => exact absurd hquiet.1 (by simp [Mutation.record])
  | inr hwrite =>
    obtain ⟨_, _, hw⟩ := hwrite
    rw [wrappedGroup, hw.header, hw.version, version_leaptGroup]
    rfl

theorem versions_ordered_iff_leap : (ColumnAgrees (createdGroup lengthHash) ∧ ∀ x ∈ leapSteps, Ordered x) ↔
    ∀ x ∈ leapSteps, x.event.BelowSign (onlySigner lengthHash (member 1)) x.before :=
  versions_ordered_iff createdGroup_init leapSteps_walk

-- An entry signed with the last version is taken, and the next local call starts over at 0.
theorem version_wraps : ¬ ∀ (crypto : Crypto) (start reg : Registrar)
    (xs : List (System.Step Registrar RegistrarEvent)), (registrarSystem crypto).init start →
    (registrarSystem crypto).Walk start xs reg →
    ∀ x ∈ xs, x.before.header.version ≤ x.after.header.version := by
  intro h
  have hall := h _ _ _ _ createdGroup_init leapSteps_walk
  simp only [leapSteps, List.forall_mem_cons, version_leaptGroup, version_wrappedGroup] at hall
  exact absurd hall.2.1 (by decide)

end Leap

end YumiBrowser.Group
