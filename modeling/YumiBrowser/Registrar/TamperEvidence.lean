import Mathlib.Data.Finset.Card
import YumiBrowser.Registrar.LocalChain

namespace YumiBrowser.Group

open Wire Keyed

/-- What is done to the rows of the log from outside. -/
inductive Tampering
  | delete (e : AuditEntry)
  | relink (e : AuditEntry) (prev : Hash)

namespace Tampering

def log (log : AuditLog) : Tampering → AuditLog
  | delete e => log.filter fun a => a.entryHash ≠ e.entryHash
  | relink e prev => log.modify (fun a => a.entryHash = e.entryHash)
      (fun a => { a with prevHash := prev }) fun _ => rfl

def registrar (t : Tampering) (reg : Registrar) : Registrar :=
  { reg with auditLog := t.log reg.auditLog }

/-- An entry between others is deleted, or one gets another predecessor. -/
def Applies (log : AuditLog) : Tampering → Prop
  | delete e => e ∈ log.rows ∧ (∃ a ∈ log.rows, a.place < e.place) ∧ ∃ b ∈ log.rows, e.place < b.place
  | relink e prev => e ∈ log.rows ∧ prev ≠ e.prevHash

/-- The new link does not happen to give the old hash. -/
def NoCollision (crypto : Crypto) : Tampering → Prop
  | delete _ => True
  | relink e prev => crypto.skein { e with prevHash := prev }.hashed = crypto.skein e.hashed →
      { e with prevHash := prev }.hashed = e.hashed

/-- The link is changed, or what a deletion leaves fails by itself: an entry that no peer vouches
for, or two that follow the same entry. -/
def Noticeable (crypto : Crypto) (reg : Registrar) : Tampering → Prop
  | delete e => (∃ a ∈ reg.auditLog.rows, a ≠ e ∧ ¬ Vouched crypto reg a) ∨
      ∃ a ∈ reg.auditLog.rows, ∃ b ∈ reg.auditLog.rows, a ≠ e ∧ b ≠ e ∧ a ≠ b ∧
        a.prevHash = b.prevHash
  | relink _ _ => True

end Tampering

section Log

variable {crypto : Crypto} {start reg : Registrar} {log : AuditLog} {a e : AuditEntry}
  {steps : List LocalStep} {prev : Hash}

theorem hashed_run (hcreate : grCreate crypto groupName groupType owner epochKey clk = .ok start)
    (hrun : LocalRun crypto start steps reg) :
    ∀ e ∈ reg.auditLog.rows, e.entryHash = crypto.skein e.hashed := by
  induction hrun with
  | nil =>
    intro e he
    exact (grown_grCreate hcreate).hashed e (List.mem_reverse.mpr he)
  | @snoc steps reg reg' m clk hrun hcall ih =>
    intro e he
    rcases m.records crypto reg clk reg' hcall with ⟨_, hview⟩ | ⟨c, _, hwrites⟩
    · rw [(Prod.mk.inj hview).1] at he
      exact ih e he
    · rw [hwrites.log] at he
      cases Table.mem_insertIgnore (enforceRetention_subset he) with
      | inl hold => exact ih e hold
      | inr hnew => rw [hnew]; rfl

theorem one_lt_countPrev {prev : Hash} : 1 < countPrev log prev ↔
    ∃ a ∈ log.rows, ∃ b ∈ log.rows, a.prevHash = prev ∧ b.prevHash = prev ∧ a ≠ b := by
  have hnodup : (log.rows.filter fun e => e.prevHash = prev).Nodup := (nodup_rows log).filter _
  rw [countPrev, List.countP_eq_length_filter, ← List.toFinset_card_of_nodup hnodup,
    Finset.one_lt_card]
  simp only [List.mem_toFinset, List.mem_filter, decide_eq_true_eq]
  constructor
  · rintro ⟨a, ⟨ha, hprev⟩, b, ⟨hb, hprev'⟩, hne⟩
    exact ⟨a, ha, b, hb, hprev, hprev', hne⟩
  · rintro ⟨a, ha, b, hb, hprev, hprev', hne⟩
    exact ⟨a, ⟨ha, hprev⟩, b, ⟨hb, hprev'⟩, hne⟩

theorem mem_delete (he : e ∈ log.rows) : a ∈ ((Tampering.delete e).log log).rows ↔
    a ∈ log.rows ∧ a ≠ e := by
  change a ∈ log.rows.filter _ ↔ _
  rw [List.mem_filter, decide_eq_true_iff]
  refine and_congr_right fun ha => not_congr ⟨fun h => ?_, fun h => congrArg _ h⟩
  exact List.inj_on_of_nodup_map log.nodup ha he h

theorem delete_defect_iff (hhash : ∀ a ∈ reg.auditLog.rows, a.entryHash = crypto.skein a.hashed)
    (he : e ∈ reg.auditLog.rows) :
    (auditVerifyChain crypto ((Tampering.delete e).registrar reg)).Defect ↔
      (Tampering.delete e).Noticeable crypto reg := by
  have hvouched : ∀ a, Vouched crypto ((Tampering.delete e).registrar reg) a ↔ Vouched crypto reg a :=
    fun _ => Iff.rfl
  rw [defect_iff]
  change (∃ a ∈ ((Tampering.delete e).log reg.auditLog).rows, _) ∨
    (∃ a ∈ ((Tampering.delete e).log reg.auditLog).rows, _) ↔ _
  simp only [Tampering.Noticeable, mem_delete he]
  refine or_congr ?_ ?_
  · constructor
    · rintro ⟨a, ⟨ha, hne⟩, hv⟩
      refine ⟨a, ha, hne, fun hvouch => hv ?_⟩
      exact examine_eq_verified.mpr ⟨(hhash a ha).symm, (hvouched a).mpr hvouch⟩
    · rintro ⟨a, ha, hne, hv⟩
      exact ⟨a, ⟨ha, hne⟩, fun hverified => hv (examine_eq_verified.mp hverified).2⟩
  · constructor
    · rintro ⟨a, _, hcount⟩
      obtain ⟨b, hb, c, hc, hprev, hprev', hne⟩ := one_lt_countPrev.mp hcount
      obtain ⟨hb, hbe⟩ := (mem_delete he).mp hb
      obtain ⟨hc, hce⟩ := (mem_delete he).mp hc
      exact ⟨b, hb, c, hc, hbe, hce, hne, hprev.trans hprev'.symm⟩
    · rintro ⟨b, hb, c, hc, hbe, hce, hne, hprev⟩
      refine ⟨b, ⟨hb, hbe⟩, one_lt_countPrev.mpr ?_⟩
      exact ⟨b, (mem_delete he).mpr ⟨hb, hbe⟩, c, (mem_delete he).mpr ⟨hc, hce⟩, rfl, hprev.symm, hne⟩

theorem relink_defect (hhash : ∀ a ∈ reg.auditLog.rows, a.entryHash = crypto.skein a.hashed)
    (happlies : (Tampering.relink e prev).Applies reg.auditLog)
    (hnew : (Tampering.relink e prev).NoCollision crypto) :
    (auditVerifyChain crypto ((Tampering.relink e prev).registrar reg)).Defect := by
  obtain ⟨he, hne⟩ := happlies
  refine defect_iff.mpr (.inl ⟨{ e with prevHash := prev }, ?_, ?_⟩)
  · refine List.mem_map.mpr ⟨e, he, ?_⟩
    rw [if_pos (decide_eq_true rfl)]
  · intro hverified
    have hsame := (examine_eq_verified.mp hverified).1
    exact hne (AuditEntry.hashed_inj (hnew (hsame.trans (hhash e he)))).prevHash

end Log

/-- Every change of a link in a local log is noticed; a deletion is noticed exactly where something
else in the log fails to verify. -/
theorem tampering_noticed_iff {crypto : Crypto} {start reg : Registrar} {steps : List LocalStep}
    {t : Tampering} (hcreate : grCreate crypto groupName groupType owner epochKey clk = .ok start)
    (hrun : LocalRun crypto start steps reg) (happlies : t.Applies reg.auditLog)
    (hnew : t.NoCollision crypto) :
    (auditVerifyChain crypto (t.registrar reg)).Defect ↔ t.Noticeable crypto reg := by
  have hhash := hashed_run hcreate hrun
  cases t with
  | delete e => exact delete_defect_iff hhash happlies.1
  | relink e prev => exact ⟨fun _ => trivial, fun _ => relink_defect hhash happlies hnew⟩

section Deletion

def limit : LocalStep where
  before := (announce (member 1)).after
  call := .retentionSet retentionDefaults (member 1)
  clk := ⟨3, 3000000⟩
  after := auditAppend (onlySigner lengthHash (member 1))
    { (announce (member 1)).after with
      header := { (announce (member 1)).after.header with retention := retentionDefaults } }
    .retentionSet (member 1) none (ascii "retention policy updated") 3000000

def ownerSteps : List LocalStep := [announce (member 1), limit]

theorem ownerSteps_run : LocalRun (onlySigner lengthHash (member 1)) (createdGroup lengthHash)
    ownerSteps limit.after := by
  have howner : (announce (member 1)).after.header.ownerId = (member 1).peerId := rfl
  have hnz : Perm.editRetention ≠ 0 := by decide
  exact (announce_run (member 1)).snoc (.retentionSet retentionDefaults (member 1)) ⟨3, 3000000⟩
    (mutate_eq_ok.mpr ⟨rfl, checkPerm_owner howner hnz, _, rfl, rfl⟩)

theorem ownerSteps_written : (written (onlySigner lengthHash (member 1)) (createdGroup lengthHash)
    ownerSteps).map (fun e => (e.detail.val.length, e.registrarVersion)) =
      [(13, 2), (15, 3), (24, 4)] := by
  rw [written, List.map_append, rows_grCreate grCreate_createdGroup]
  rfl

theorem ownerSteps_grown : Grown (onlySigner lengthHash (member 1))
    (written (onlySigner lengthHash (member 1)) (createdGroup lengthHash) ownerSteps).reverse
    limit.after := by
  have hdetails := congrArg (List.map Prod.fst) ownerSteps_written
  have hlen := congrArg List.length ownerSteps_written
  rw [List.map_map] at hdetails
  rw [List.length_map] at hlen
  refine grown_run grCreate_createdGroup ownerSteps_run
    (collisionFree_of_details rfl hdetails (by decide) (by decide)) ?_
  rw [hlen]
  decide

theorem ownerSteps_signed : ∀ s ∈ ownerSteps, s.SignedByPeer onlyOwner := by
  have hkey : (announce (member 1)).call.keyOf (createdGroup lengthHash) (member 1).peerId =
      some (member 1).publicKey := signKey_grCreate (@grCreate_createdGroup lengthHash)
  have hkept : limit.call.keyOf (announce (member 1)).after (member 1).peerId =
      some (member 1).publicKey :=
    (signKey_run ((announce_run (member 1)).step _ (List.mem_singleton_self _)) _).trans hkey
  intro s hs c hc
  simp only [ownerSteps, List.mem_cons, List.not_mem_nil, or_false] at hs
  rcases hs with rfl | rfl
  · obtain rfl := Option.some.inj hc
    exact ⟨_, hkey, rfl⟩
  · obtain rfl := Option.some.inj hc
    exact ⟨_, hkept, rfl⟩

theorem ownerSteps_interior : ∃ e, (Tampering.delete e).Applies limit.after.auditLog := by
  have hrows := ownerSteps_grown.rows
  rw [List.reverse_reverse] at hrows
  have hwritten := ownerSteps_written
  rw [← hrows] at hwritten
  obtain ⟨a, l, hl, ha, hwritten⟩ := List.map_eq_cons_iff.mp hwritten
  obtain ⟨e, l', hl', he, hwritten⟩ := List.map_eq_cons_iff.mp hwritten
  obtain ⟨b, l'', hl'', hb, _⟩ := List.map_eq_cons_iff.mp hwritten
  subst hl' hl''
  refine ⟨e, ?_⟩
  unfold Tampering.Applies
  rw [hl]
  have hversion := (Prod.mk.inj ha).2
  have hversion' := (Prod.mk.inj he).2
  have hversion'' := (Prod.mk.inj hb).2
  refine ⟨by simp, ⟨a, by simp, Prod.Lex.lt_iff.mpr (.inl ?_)⟩, b, by simp, Prod.Lex.lt_iff.mpr (.inl ?_)⟩
  · change a.registrarVersion.toInt < e.registrarVersion.toInt
    rw [hversion, hversion']
    decide
  · change e.registrarVersion.toInt < b.registrarVersion.toInt
    rw [hversion', hversion'']
    decide

theorem ownerSteps_unnoticeable (e : AuditEntry) :
    ¬ (Tampering.delete e).Noticeable (onlySigner lengthHash (member 1)) limit.after := by
  have hvouched := vouched_run onlyOwner_signs ownerSteps_run
    ((vouched_founding onlyOwner_signs grCreate_createdGroup).mpr rfl) ownerSteps_signed
  have hmem : ∀ a ∈ limit.after.auditLog.rows, a ∈ (written (onlySigner lengthHash (member 1))
      (createdGroup lengthHash) ownerSteps).reverse := by
    intro a ha
    rwa [ownerSteps_grown.rows, List.mem_reverse] at ha
  have hlinear : Linear limit.after.auditLog.rows := ownerSteps_grown.lineage.linear hmem
  rintro (⟨a, ha, _, hv⟩ | ⟨a, ha, b, hb, _, _, hne, hprev⟩)
  · exact hv (hvouched a (List.mem_reverse.mp (hmem a ha)))
  · exact hne (hlinear.preds a ha b hb hprev)

theorem tampering_noticed_iff_deleted : ∃ e,
    (auditVerifyChain (onlySigner lengthHash (member 1))
      ((Tampering.delete e).registrar limit.after)).Defect ↔
      (Tampering.delete e).Noticeable (onlySigner lengthHash (member 1)) limit.after := by
  obtain ⟨e, happlies⟩ := ownerSteps_interior
  exact ⟨e, tampering_noticed_iff grCreate_createdGroup ownerSteps_run happlies trivial⟩

theorem deletion_unnoticed : ¬ ∀ (crypto : Crypto) (name : List Byte) (type : BitVec 32)
    (owner : Identity) (key : EpochKey) (clk : Clock) (start reg : Registrar)
    (steps : List LocalStep) (t : Tampering), grCreate crypto name type owner key clk = .ok start →
    LocalRun crypto start steps reg → t.Applies reg.auditLog → t.NoCollision crypto →
    (auditVerifyChain crypto (t.registrar reg)).Defect := by
  intro h
  obtain ⟨e, happlies⟩ := ownerSteps_interior
  have hdefect := h _ _ _ _ _ _ _ _ _ _ grCreate_createdGroup ownerSteps_run happlies trivial
  exact ownerSteps_unnoticeable e
    ((delete_defect_iff (hashed_run grCreate_createdGroup ownerSteps_run) happlies.1).mp hdefect)

end Deletion

end YumiBrowser.Group
