import YumiBrowser.Registrar.FaultFree
import YumiBrowser.Registrar.Join

namespace YumiBrowser.Group

open Wire Keyed Fallible

def Call.isGovernance : Call → Bool
  | peerUpdateAddress .. => false
  | peerObservedAddress .. => false
  | peerTouch .. => false
  | deserialize .. => false
  | applyDelta .. => false
  | _ => true

def Call.closesInvite : Call → Bool
  | inviteInvalidate .. => true
  | inviteMarkUsed .. => true
  | _ => false

/-- Refused as unverified, with nothing changed. -/
def Gated (crypto : Crypto) (clk : Clock) (c : Call) (s : Session) : Prop :=
  ∃ s', (c.run crypto clk).run s = .error .joinUnverified s' ∧ s'.header = s.header ∧
    s'.tables = s.tables

theorem run_guardTrusted_refused (h : s.untrusted = true) :
    guardTrusted.run s = .error .joinUnverified s := by
  have hget : (get : Db Session).run s = .ok s s := rfl
  unfold guardTrusted
  rw [run_bind_ok hget, if_pos h]
  rfl

theorem gated_of_guard {k : PUnit → Db PUnit} (h : s.untrusted = true) :
    ∃ s', (guardTrusted >>= k).run s = .error .joinUnverified s' ∧ s'.header = s.header ∧
      s'.tables = s.tables :=
  ⟨s, run_bind_error (run_guardTrusted_refused h), rfl, rfl⟩

section Unguarded

abbrev PastGuard (x : Db α) : Prop := Throws (fun e => e ≠ .joinUnverified) x

variable {crypto : Crypto}

theorem pastGuard_statement (edit : Session → Option Tables) : PastGuard (statement edit) :=
  neverThrows_execute.throws.bind fun _ =>
    throws_ite (fun _ => throws_pure _) fun _ => throws_throw (by decide)

theorem pastGuard_guardThat {e : GrError} (ok : Bool) (h : e ≠ .joinUnverified) :
    PastGuard (guardThat ok e) :=
  throws_ite (fun _ => throws_pure _) fun _ => throws_throw h

theorem pastGuard_guardPerm (signer : Identity) (perm : Perms) :
    PastGuard (guardPerm signer perm) := by
  have hperms : PastGuard (permissionsDb signer.peerId) :=
    throws_get.bind fun _ => throws_ite (fun _ => throws_pure _) fun _ =>
      (neverThrows_query _).throws.bind fun _ => throws_pure _
  exact hperms.bind fun _ => throws_ite (fun _ => throws_throw (by decide)) fun _ => throws_pure _

theorem pastGuard_hitting (hit : Session → Bool) (edit : Session → Tables) :
    PastGuard (Db.hitting hit edit) :=
  throws_get.bind fun _ => (pastGuard_statement _).bind fun _ => pastGuard_guardThat _ (by decide)

theorem throws_txnCommit {E : GrError → Prop} : Throws E txnCommit := throws_modifyGet _

theorem throws_takeSave {E : GrError → Prop} : Throws E takeSave := throws_modifyGet _

theorem throws_answer {E : GrError → Prop} : Throws E answer := throws_modifyGet _

theorem pastGuard_headerSave : PastGuard headerSave := by
  have hdb : PastGuard (throw .db : Db PUnit) := throws_throw (by decide)
  have hend : PastGuard (txnRollback >>= fun _ => (throw .db : Db PUnit)) :=
    (throws_modify _).bind fun _ => hdb
  refine (throws_modify _).bind fun _ => throws_takeSave.bind fun f => throws_ite ?_ ?_
  · intro _
    refine (throws_modify _).bind fun _ => ?_
    exact throws_ite (fun _ => (throws_modify _).bind fun _ => hdb) fun _ => hdb
  · intro _
    refine (throws_modify _).bind fun _ => (throws_modify _).bind fun _ => ?_
    refine throws_ite (fun _ => hdb) fun _ => throws_ite (fun _ => hend) fun _ => ?_
    refine (throws_modify _).bind fun _ => throws_txnCommit.bind fun _ => ?_
    exact throws_ite (fun _ => throws_pure _) fun _ => hend

theorem pastGuard_appendDb (change : ChangeType) (actor : Identity) (target : Option PeerId)
    (detail : List Byte) (ns : I64) : PastGuard (appendDb crypto change actor target detail ns) := by
  have hretention : PastGuard enforceRetentionDb := neverThrows_enforceRetentionDb.throws
  refine (neverThrows_query _).throws.bind fun _ => throws_get.bind fun _ =>
    (throws_modify _).bind fun _ => throws_ite (fun _ => throws_throw (by decide)) fun _ => ?_
  exact (throws_modify _).bind fun _ => (throws_modify _).bind fun _ =>
    pastGuard_headerSave.bind fun _ => hretention

theorem pastGuard_audited {change : ChangeType} {signer : Identity} {target : Option PeerId}
    {detail : List Byte} {ns : I64} {edit : Db PUnit} (h : PastGuard edit) :
    PastGuard (audited crypto change signer target detail ns edit) := by
  refine (throws_modify _).bind fun _ => throws_tryCatch ?_ ?_
  · refine (h.bind fun _ => pastGuard_appendDb _ _ _ _ _).bind fun _ => ?_
    exact throws_txnCommit.bind fun _ => throws_ite (fun _ => throws_pure _) fun _ =>
      throws_throw (by decide)
  · intro e he
    exact (throws_modify _).bind fun _ => throws_throw he

theorem pastGuard_of_closesInvite (clk : Clock) {c : Call} (h : c.closesInvite = true) :
    PastGuard (c.run crypto clk) := by
  cases c
  case inviteInvalidate token admin =>
    exact (pastGuard_guardPerm _ _).bind fun _ => pastGuard_audited (pastGuard_hitting _ _)
  case inviteMarkUsed token peerId signer =>
    exact throws_answer.bind fun _ => throws_get.bind fun _ =>
      (pastGuard_guardThat _ (by decide)).bind fun _ =>
        (pastGuard_guardThat _ (by decide)).bind fun _ => pastGuard_audited (pastGuard_statement _)
  all_goals cases h

end Unguarded

/-- While a join is not verified, every call that decides about the group is refused, but for those
that end an invitation: these are never refused for that reason. -/
theorem provisional_gated_iff (crypto : Crypto) (clk : Clock) (js : JoinVerify)
    (hjs : js.state = .provisional ∨ js.state = .failed) (s : Session)
    (hs : s.untrusted = joinIsUntrusted (some js)) (c : Call) (hc : c.isGovernance = true) :
    Gated crypto clk c s ↔ c.closesInvite = false := by
  have huntrusted : s.untrusted = true := by
    rcases hjs with h | h <;> simp [hs, joinIsUntrusted, h]
  constructor
  · rintro ⟨s', hrun, _⟩
    by_contra hclose
    rw [Bool.not_eq_false] at hclose
    exact pastGuard_of_closesInvite clk hclose _ _ _ hrun rfl
  · intro hclose
    cases c
    case inviteInvalidate => cases hclose
    case inviteMarkUsed => cases hclose
    case peerUpdateAddress => cases hc
    case peerObservedAddress => cases hc
    case peerTouch => cases hc
    case deserialize => cases hc
    case applyDelta => cases hc
    all_goals exact gated_of_guard huntrusted

section Joining

def openInvite : Invite where
  verificationToken := zeroBytes 128
  createdAt := 0
  expiresAt := 0
  createdBy := (member 1).peerId
  invalidated := false
  used := false
  usedBy := zeroBytes 32

def openInvites : Table Invite.verificationToken where
  rows := [openInvite]
  nodup := List.nodup_singleton _

def invited : Session where
  header := initialHeader (onlySigner flatHash (member 1)) (ascii "pair") groupPrivate (member 1) 1
  tables := ⟨Table.empty, Table.empty, Table.empty, Table.empty, Table.empty, Table.empty,
    openInvites, []⟩
  before := none
  savedHeader := initialHeader (onlySigner flatHash (member 1)) (ascii "pair") groupPrivate (member 1) 1
  txnDepth := 0
  bound := none
  untrusted := true
  deltaAnomaly := none
  faults := .none

theorem invited_quiet : invited.Quiet := ⟨⟨rfl, rfl⟩, rfl⟩

def openJoin : JoinVerify := JoinVerify.opened
  { groupId := zeroBytes 128, groupName := invited.header.groupName, groupType := groupPrivate,
    ownerSignKey := (member 1).publicKey, registrarHash := zeroBytes 128,
    verificationToken := zeroBytes 128, inviterSignPk := (member 1).publicKey,
    inviterKemPk := (member 1).kemPk, expiresAt := 0 } (zeroBytes 32) 1

theorem provisional_gated_invited :
    Gated (onlySigner flatHash (member 1)) ⟨1, 1000000⟩ (.peerLeave outsider) invited ↔
      (Call.peerLeave outsider).closesInvite = false :=
  provisional_gated_iff _ _ openJoin (.inl rfl) invited rfl (.peerLeave outsider) rfl

theorem run_markUsed (crypto : Crypto) : ∃ s',
    ((Call.inviteMarkUsed (zeroBytes 128) outsider.peerId outsider).run crypto ⟨1, 1000000⟩).run
      invited = .ok ⟨⟩ s' ∧
    s'.tables.invites.rows = [{ openInvite with used := true, usedBy := outsider.peerId }] ∧
    s'.header.version = invited.header.version + 1 := by
  have hget : (get : Db Session).run invited = .ok invited invited := rfl
  have hvalid : (guardThat ((invited.tables.invites.find? (zeroBytes 128)).any fun i =>
      Db.Invite.valid i 1) .inviteExpired).run invited = .ok ⟨⟩ invited := rfl
  have htaken : (guardThat true .db).run invited = .ok ⟨⟩ invited := rfl
  have hf : invited.begin.faults = .none := rfl
  obtain ⟨s', hrun, _, hreg, hinvites⟩ := run_audited_quiet invited_quiet
    (run_statement_quiet hf (fun s => some { s.tables with
      invites := s.tables.invites.modify (fun i => i.verificationToken = zeroBytes 128)
        (fun i => { i with used := true, usedBy := outsider.peerId }) fun _ => rfl }) rfl)
    crypto .inviteUsed outsider (some outsider.peerId) (ascii "invite redeemed") 1000000
  refine ⟨s', ?_, ?_, ?_⟩
  · change (Db.inviteMarkUsed crypto ⟨1, 1000000⟩ (zeroBytes 128) outsider.peerId outsider).run
      invited = _
    unfold Db.inviteMarkUsed
    rw [run_bind_ok (run_answer_quiet invited_quiet.faults), run_bind_ok hget, run_bind_ok htaken,
      run_bind_ok hvalid]
    exact hrun
  · rw [hinvites]
    rfl
  · have hheader := congrArg (fun r : Registrar => r.header.version) hreg
    exact hheader

theorem markUsed_not_gated : ¬ ∀ (crypto : Crypto) (clk : Clock) (js : JoinVerify) (s : Session)
    (c : Call), js.state = .provisional ∨ js.state = .failed →
    s.untrusted = joinIsUntrusted (some js) → c.isGovernance = true → Gated crypto clk c s := by
  intro h
  obtain ⟨s', hrun, _⟩ := run_markUsed (onlySigner flatHash (member 1))
  obtain ⟨t, ht, _⟩ := h _ _ openJoin invited
    (.inviteMarkUsed (zeroBytes 128) outsider.peerId outsider) (.inl rfl) rfl rfl
  rw [hrun] at ht
  cases ht

end Joining

end YumiBrowser.Group
