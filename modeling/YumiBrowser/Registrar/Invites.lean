import YumiBrowser.Library.System
import YumiBrowser.Registrar.Gating

namespace YumiBrowser.Group

open Wire Keyed Fallible Transition

abbrev Invites := Table Invite.verificationToken

namespace Db

/-- `gr_invite_check` -/
def inviteCheck (clk : Clock) (token : Hash) : Db Bool := do
  let taken ← answer
  let s ← get
  guardThat taken .db
  return (s.tables.invites.find? token).any fun i => Invite.valid i clk.ms

theorem inviteMarkUsed_eq (crypto : Crypto) (clk : Clock) (token : Hash) (peerId : PeerId) (signer : Identity) :
    inviteMarkUsed crypto clk token peerId signer = (do
      let valid ← inviteCheck clk token
      guardThat valid .inviteExpired
      audited crypto .inviteUsed signer (some peerId) (ascii "invite redeemed") clk.ns
        (statement fun s => some { s.tables with
          invites := s.tables.invites.modify (fun i => i.verificationToken = token)
            (fun i => { i with used := true, usedBy := peerId }) fun _ => rfl })) := by
  unfold inviteMarkUsed inviteCheck
  simp only [bind_assoc, pure_bind]

end Db

def Session.invites (s : Session) : Invites × Option Tables := (s.tables.invites, s.before)

/-- The invitations are `I`; a rollback leaves some that `P` allows. -/
def Session.Shows (P : Invites → Prop) (I : Invites) (s : Session) : Prop :=
  s.tables.invites = I ∧ ∀ t, s.before = some t → P t.invites

/-- Whether the transaction is rolled back or not, the invitations are some that `P` allows. -/
def Session.Covered (P : Invites → Prop) (s : Session) : Prop :=
  P s.tables.invites ∧ ∀ t, s.before = some t → P t.invites

section Statements

variable {α : Type} {x : Db α} {P : Invites → Prop} {I J : Invites} {s : Session}

theorem Session.Shows.covered (hI : P I) (h : s.Shows P I) : s.Covered P := ⟨h.1 ▸ hI, h.2⟩

theorem invites_reads (h : Leaves Session.frame x) : Leaves Session.invites x :=
  h.mono (fun s => (s.tables.invites, s.before)) fun _ => rfl

theorem shows_of_leaves (hI : P I) (hx : Leaves Session.invites x) :
    Ensures (Session.Shows P I) x (fun _ => Session.Shows P I) (Session.Covered P) := by
  have hkeep := ensures_of_leaves (p := fun v => v.1 = I ∧ ∀ t, v.2 = some t → P t.invites) hx
  exact hkeep.weaken (fun _ hs => hs) (fun _ _ hs => hs) fun _ hs => Session.Shows.covered hI hs

theorem shows_execute (hI : P I) {edit : Session → Option Tables}
    (h : ∀ s tables, s.tables.invites = I → edit s = some tables → tables.invites = J) :
    Ensures (Session.Shows P I) (execute edit) (fun taken s => if taken then s.Shows P J else s.Shows P I)
      (Session.Covered P) := by
  refine (shows_of_leaves hI (invites_reads reads_answer)).bind fun taken => ?_
  refine Ensures.get_bind fun s hs => ?_
  cases taken with
  | false => exact ensures_pure fun _ ht => ht
  | true =>
    cases hedit : edit s with
    | none => exact ensures_pure fun _ ht => ht
    | some tables =>
      have hset : Ensures (Session.Shows P I) (modify fun s => { s with tables } : Db PUnit)
          (fun _ => Session.Shows P J) (Session.Covered P) :=
        ensures_modify fun t ht => ⟨h s tables hs.1 hedit, ht.2⟩
      exact hset.bind fun _ => ensures_pure fun _ ht => ht

theorem shows_statement (hI : P I) {edit : Session → Option Tables}
    (h : ∀ s tables, s.tables.invites = I → edit s = some tables → tables.invites = J) :
    Ensures (Session.Shows P I) (statement edit) (fun _ => Session.Shows P J) (Session.Covered P) := by
  refine (shows_execute hI h).bind fun taken => ?_
  cases taken with
  | false => exact ensures_throw fun _ ht => ht.covered hI
  | true => exact ensures_pure fun _ ht => ht

theorem shows_guardThat (hI : P I) (ok : Bool) (e : GrError) : Ensures (Session.Shows P I) (guardThat ok e)
    (fun _ s => s.Shows P I ∧ ok = true) (Session.Covered P) :=
  ensures_ite (fun hok => ensures_pure fun _ hs => ⟨hs, hok⟩) fun _ => ensures_throw fun _ hs => hs.covered hI

theorem shows_txnBegin (hI : P I) : Ensures (Session.Shows P I) txnBegin (fun _ => Session.Shows P I)
    (Session.Covered P) := by
  refine ensures_modify fun s hs => ?_
  unfold Session.begin
  split
  · refine ⟨hs.1, fun t ht => ?_⟩
    obtain rfl := Option.some.inj ht
    exact hs.1 ▸ hI
  · exact hs

theorem covered_txnRollback : Ensures (Session.Covered P) txnRollback (fun _ => Session.Covered P)
    (Session.Covered P) := by
  refine ensures_modify fun s hs => ?_
  unfold Session.rollback
  split
  · exact hs
  · refine ⟨?_, nofun⟩
    cases hb : s.before with
    | none => exact hs.1
    | some t => exact hs.2 t hb

theorem shows_txnCommit (hI : P I) : Ensures (Session.Shows P I) txnCommit
    (fun taken s => if taken then s.Shows P I else s.Covered P) (Session.Covered P) := by
  refine ensures_modifyGet fun s hs => ?_
  unfold Session.commit
  split
  · exact hs.covered hI
  · split
    · exact hs
    · cases hb : s.before with
      | none => exact ⟨hs.1 ▸ hI, nofun⟩
      | some t =>
        dsimp only
        split
        · exact ⟨hs.2 t hb, nofun⟩
        · exact ⟨hs.1, nofun⟩

theorem covered_reads (hx : Leaves Session.invites x) :
    Ensures (Session.Covered P) x (fun _ => Session.Covered P) (Session.Covered P) :=
  @ensures_of_leaves _ _ _ _ _ Session.invites (fun v => P v.1 ∧ ∀ t, v.2 = some t → P t.invites) hx

theorem covered_abandon (e : GrError) {Q : PUnit → Session → Prop} :
    Ensures (Session.Covered P) (do txnRollback; throw e : Db PUnit) Q (Session.Covered P) :=
  covered_txnRollback.bind fun _ => ensures_throw fun _ hs => hs

theorem invites_setHeader (f : Header → Header) : Leaves Session.invites (setHeader f) := leaves_modify fun _ => rfl

theorem invites_setTables (edit : Session → Tables) (h : ∀ s, (edit s).invites = s.tables.invites) :
    Leaves Session.invites (modify fun s => { s with tables := edit s } : Db PUnit) :=
  leaves_modify fun s => congrArg (·, s.before) (h s)

theorem invites_setHeaders (edit : Session → List Header) : Leaves Session.invites (setHeaders edit) :=
  leaves_modify fun _ => rfl

theorem invites_takeSave : Leaves Session.invites takeSave := fun _ => rfl

theorem invites_bindHeader (ok : Bool) : Leaves Session.invites (bindHeader ok) := leaves_modify fun _ => rfl

theorem shows_headerSave (hI : P I) : Ensures (Session.Shows P I) headerSave (fun _ => Session.Shows P I)
    (Session.Covered P) := by
  refine (shows_txnBegin hI).bind fun _ => ?_
  refine (shows_of_leaves hI invites_takeSave).bind fun f => ?_
  refine ensures_ite (fun _ => ?_) fun _ => ?_
  · have hback : Ensures (Session.Shows P I) txnRollback (fun _ => Session.Covered P) (Session.Covered P) :=
      covered_txnRollback.weaken (fun _ hs => hs.covered hI) (fun _ _ hs => hs) fun _ hs => hs
    refine hback.bind fun _ => ensures_ite (fun _ => ?_) fun _ => ensures_throw fun _ hs => hs
    exact (covered_reads (invites_setHeaders _)).bind fun _ => ensures_throw fun _ hs => hs
  · refine (shows_of_leaves hI (invites_setHeaders _)).bind fun _ => ?_
    refine (shows_of_leaves hI (invites_bindHeader _)).bind fun _ => ?_
    refine ensures_ite (fun _ => ensures_throw fun _ hs => hs.covered hI) fun _ => ensures_ite (fun _ => ?_) fun _ => ?_
    · exact (covered_abandon .db).weaken (fun _ hs => hs.covered hI) (fun _ _ hs => hs) fun _ hs => hs
    · refine (shows_of_leaves hI (invites_setHeaders _)).bind fun _ => (shows_txnCommit hI).bind fun taken => ?_
      cases taken with
      | true => exact ensures_pure fun _ hs => hs
      | false => exact covered_abandon .db

theorem shows_enforceRetentionDb (hI : P I) : Ensures (Session.Shows P I) enforceRetentionDb
    (fun _ => Session.Shows P I) (Session.Covered P) := by
  refine (shows_of_leaves hI (invites_reads (reads_query _))).bind fun count => ?_
  cases count with
  | none => exact ensures_pure fun _ hs => hs
  | some n =>
    refine ensures_ite (fun _ => ?_) fun _ => ensures_pure fun _ hs => hs
    have hprune := @shows_execute P I I hI
      (fun s => some { s.tables with auditLog := auditPrune s.tables.auditLog (n - auditMaxRows) })
      fun s tables hs heq => by
        obtain rfl := Option.some.inj heq
        exact hs
    refine hprune.bind fun taken => ensures_pure fun s hs => ?_
    cases taken <;> exact hs

theorem shows_appendDb (hI : P I) (crypto : Crypto) (change : ChangeType) (actor : Identity)
    (target : Option PeerId) (detail : List Byte) (ns : I64) :
    Ensures (Session.Shows P I) (appendDb crypto change actor target detail ns) (fun _ => Session.Shows P I)
      (Session.Covered P) := by
  refine (shows_of_leaves hI (invites_reads (reads_query id))).bind fun seen => ?_
  refine Ensures.get_bind fun s _ => ?_
  refine (shows_of_leaves hI (invites_setHeader _)).bind fun _ => ?_
  refine ensures_ite (fun _ => ensures_throw fun _ hs => hs.covered hI) fun _ => ?_
  refine (shows_of_leaves hI (invites_setTables _ (by intro; rfl))).bind fun _ => ?_
  refine (shows_of_leaves hI (invites_setHeader _)).bind fun _ => ?_
  exact (shows_headerSave hI).bind fun _ => shows_enforceRetentionDb hI

theorem shows_audited (hI : P I) (hJ : P J) {edit : Db PUnit} {p : Prop}
    (hedit : Ensures (Session.Shows P I) edit (fun _ s => s.Shows P J ∧ p) (Session.Covered P))
    (crypto : Crypto) (change : ChangeType) (signer : Identity) (target : Option PeerId) (detail : List Byte)
    (ns : I64) :
    Ensures (Session.Shows P I) (audited crypto change signer target detail ns edit)
      (fun _ s => s.Shows P J ∧ p) (Session.Covered P) := by
  refine (shows_txnBegin hI).bind fun _ => ensures_tryCatch ?_ fun e => covered_abandon e
  refine (hedit.bind fun _ => Ensures.fact fun _ =>
    shows_appendDb hJ crypto change signer target detail ns).bind fun _ => ?_
  refine (Ensures.fact fun _ => shows_txnCommit hJ).bind fun taken => Ensures.of_fact fun hp => ?_
  cases taken with
  | true => exact ensures_pure fun _ hs => ⟨hs, hp⟩
  | false => exact ensures_throw fun _ hs => hs

end Statements

inductive InviteCall
  | create (token : Hash) (expiresAt : I64) (inviter : Identity)
  | invalidate (token : Hash) (admin : Identity)
  | markUsed (token : Hash) (peerId : PeerId) (signer : Identity)
  | check (token : Hash)

namespace InviteCall

variable (crypto : Crypto) (clk : Clock)

def run : InviteCall → Db Bool
  | create token expiresAt inviter => do
    Db.inviteCreate crypto clk token expiresAt inviter
    return true
  | invalidate token admin => do
    Db.inviteInvalidate crypto clk token admin
    return true
  | markUsed token peerId signer => do
    Db.inviteMarkUsed crypto clk token peerId signer
    return true
  | check token => Db.inviteCheck clk token

def draws (token : Hash) : InviteCall → Prop
  | create t _ _ => t = token
  | _ => False

def names (token : Hash) : InviteCall → Prop
  | create t _ _ => t = token
  | invalidate t _ => t = token
  | markUsed t _ _ => t = token
  | check t => t = token

variable (I : Invites)

theorem token_invalidated (i : Invite) : { i with invalidated := true }.verificationToken = i.verificationToken := rfl

theorem token_used (peerId : PeerId) (i : Invite) :
    { i with used := true, usedBy := peerId }.verificationToken = i.verificationToken := rfl

def edit : InviteCall → Invites
  | create token expiresAt inviter => (I.insert?
      { verificationToken := token, createdAt := clk.ms, expiresAt, createdBy := inviter.peerId,
        invalidated := false, used := false, usedBy := zeroBytes 32 }).getD I
  | invalidate token _ => I.modify (fun i => i.verificationToken = token)
      (fun i => { i with invalidated := true }) token_invalidated
  | markUsed token peerId _ => I.modify (fun i => i.verificationToken = token)
      (fun i => { i with used := true, usedBy := peerId }) (token_used peerId)
  | check _ => I

def valid (token : Hash) : Bool := (I.find? token).any fun i => Db.Invite.valid i clk.ms

def Allowed : InviteCall → Prop
  | markUsed token _ _ => valid clk I token = true
  | _ => True

def Tells (told : Bool) : InviteCall → Prop
  | create .. => True
  | invalidate token _ => (I.find? token).isSome = true
  | markUsed token _ _ => valid clk I token = true
  | check token => told = valid clk I token

end InviteCall

section Calls

variable {P : Invites → Prop} {I : Invites} {s : Session} {crypto : Crypto} {clk : Clock}

theorem shows_inviteCheck (hI : P I) (token : Hash) : Ensures (Session.Shows P I) (Db.inviteCheck clk token)
    (fun valid s => s.Shows P I ∧ valid = InviteCall.valid clk I token) (Session.Covered P) := by
  refine (shows_of_leaves hI (invites_reads reads_answer)).bind fun taken => ?_
  refine Ensures.get_bind fun s hs => ?_
  refine (shows_guardThat hI taken .db).bind fun _ => Ensures.of_fact fun _ => ensures_pure fun t ht => ⟨ht, ?_⟩
  rw [InviteCall.valid, hs.1]

theorem shows_hitting (hI : P I) {J : Invites} (hJ : P J) (hit : Session → Bool) (edit : Session → Tables)
    (h : ∀ s, s.tables.invites = I → (edit s).invites = J) :
    Ensures (Session.Shows P I) (Db.hitting hit edit)
      (fun _ s => s.Shows P J ∧ ∃ t : Session, t.tables.invites = I ∧ hit t = true) (Session.Covered P) := by
  refine Ensures.get_bind fun s hs => ?_
  have hwrite := @shows_statement P I J hI (fun s => some (edit s)) fun t tables ht heq => by
    obtain rfl := Option.some.inj heq
    exact h t ht
  refine hwrite.bind fun _ => (shows_guardThat hJ (hit s) .notFound).weaken (fun _ ht => ht) ?_ fun _ ht => ht
  exact fun _ t ht => ⟨ht.1, s, hs.1, ht.2⟩

theorem shows_run (hI : P I) (c : InviteCall) (hJ : c.Allowed clk I → P (c.edit clk I)) :
    Ensures (Session.Shows P I) (c.run crypto clk)
      (fun told s => s.Shows P (c.edit clk I) ∧ c.Tells clk I told) (Session.Covered P) := by
  cases c with
  | create token expiresAt inviter =>
    have hnew := hJ trivial
    refine Ensures.bind ?_ fun _ => ensures_pure fun _ hs => hs
    refine (shows_of_leaves hI (invites_reads reads_guardTrusted)).bind fun _ => ?_
    refine (shows_of_leaves hI (invites_reads (reads_guardPerm _ _))).bind fun _ => ?_
    refine shows_audited hI hnew ?_ crypto _ _ _ _ _
    refine (shows_statement hI fun s tables hs heq => ?_).bind fun _ =>
      (shows_of_leaves hnew (invites_reads reads_readBootstrap)).bind fun _ =>
        (shows_of_leaves hnew (invites_reads reads_readSignaling)).weaken (fun _ hs => hs)
          (fun _ _ hs => ⟨hs, trivial⟩) fun _ hs => hs
    obtain ⟨invites, hinsert, rfl⟩ := Option.map_eq_some_iff.mp heq
    rw [hs] at hinsert
    rw [InviteCall.edit, hinsert]
    rfl
  | invalidate token admin =>
    have hnew := hJ trivial
    refine Ensures.bind ?_ fun _ => ensures_pure fun _ hs => hs
    refine (shows_of_leaves hI (invites_reads (reads_guardPerm _ _))).bind fun _ => ?_
    refine shows_audited hI hnew ?_ crypto _ _ _ _ _
    refine (shows_hitting hI hnew _ _ fun s hs => ?_).weaken (fun _ hs => hs) ?_ fun _ hs => hs
    · rw [InviteCall.edit, hs]
    · rintro _ s ⟨hs, t, ht, hhit⟩
      exact ⟨hs, ht ▸ hhit⟩
  | markUsed token peerId signer =>
    refine Ensures.bind ?_ fun _ => ensures_pure fun _ hs => hs
    rw [Db.inviteMarkUsed_eq]
    refine (shows_inviteCheck hI token).bind fun valid => Ensures.of_fact fun hvalid => ?_
    refine (shows_guardThat hI valid .inviteExpired).bind fun _ => Ensures.of_fact fun hok => ?_
    have hallowed : InviteCall.valid clk I token = true := hvalid ▸ hok
    refine shows_audited hI (hJ hallowed) ?_ crypto _ _ _ _ _
    refine (shows_statement hI fun s tables hs heq => ?_).weaken (fun _ hs => hs) (fun _ _ hs => ⟨hs, hallowed⟩)
      fun _ hs => hs
    obtain rfl := Option.some.inj heq
    rw [InviteCall.edit, hs]
  | check token => exact shows_inviteCheck hI token

theorem InviteCall.Tells.allowed {c : InviteCall} {told : Bool} (h : c.Tells clk I told) : c.Allowed clk I := by
  cases c with
  | markUsed token peerId signer => exact h
  | _ => exact trivial

theorem idle_inviteCall (c : InviteCall) (hs : s.Idle) : (after (c.run crypto clk) s).Idle := by
  have htrue : ∀ (b : Bool) (t : Session), t.Idle → (after (pure b : Db Bool) t).Idle := fun _ _ ht => ht
  cases c with
  | create token expiresAt inviter =>
    exact after_bind (idle_run crypto clk (.inviteCreate token expiresAt inviter) hs) fun _ => htrue true
  | invalidate token admin =>
    exact after_bind (idle_run crypto clk (.inviteInvalidate token admin) hs) fun _ => htrue true
  | markUsed token peerId signer =>
    exact after_bind (idle_run crypto clk (.inviteMarkUsed token peerId signer) hs) fun _ => htrue true
  | check token =>
    have hframe : Leaves Session.frame (Db.inviteCheck clk token) :=
      reads_answer.bind fun _ => leaves_get.bind fun _ => (reads_guardThat _ _).bind fun _ => leaves_pure _
    exact (congrArg Session.Idle (hframe s)).mpr hs

end Calls

/-- A call at its time, with what the database refuses it. -/
structure InviteEvent where
  clk : Clock
  faults : Faults
  call : InviteCall

namespace InviteEvent

variable (crypto : Crypto) (s : Session) (e : InviteEvent)

def next : Session := after (e.call.run crypto e.clk) { s with faults := e.faults }

def answer : Option Bool :=
  match (e.call.run crypto e.clk).run { s with faults := e.faults } with
  | .ok told _ => some told
  | .error _ _ => none

end InviteEvent

def Session.invite (s : Session) (token : Hash) : Option Invite := s.tables.invites.find? token

inductive Invite.Advance (now : I64) (drawn : Prop) : Option Invite → Option Invite → Prop
  | same : Advance now drawn r r
  | created (i : Invite) : drawn → Advance now drawn none (some i)
  | invalidated (i : Invite) : Advance now drawn (some i) (some { i with invalidated := true })
  | used (i : Invite) (peerId : PeerId) : Db.Invite.valid i now = true →
      Advance now drawn (some i) (some { i with used := true, usedBy := peerId })

section Steps

variable {crypto : Crypto} {s : Session} {e : InviteEvent} {I : Invites} {token : Hash}

theorem advance_edit (c : InviteCall) (clk : Clock) (hc : c.Allowed clk I) (token : Hash) :
    Invite.Advance clk.ms (c.draws token) (I.find? token) ((c.edit clk I).find? token) := by
  cases c with
  | create t expiresAt inviter =>
    rw [InviteCall.edit]
    cases hinsert : I.insert? _ with
    | none => exact .same
    | some invites =>
      have hfree : I.find? t = none := by
        by_contra hne
        rw [Table.insert?_eq_none.mpr hne] at hinsert
        cases hinsert
      rw [Option.getD_some, Table.find?_insert? hinsert]
      by_cases ht : token = t
      · rw [ht, Function.update_self, hfree]
        exact .created _ rfl
      · rw [Function.update_of_ne ht]
        exact .same
  | invalidate t admin =>
    rw [InviteCall.edit, Table.find?_modify]
    cases hrow : I.find? token with
    | none => exact .same
    | some i =>
      rw [Option.map_some]
      split
      · exact .invalidated i
      · exact .same
  | markUsed t peerId signer =>
    rw [InviteCall.edit, Table.find?_modify]
    cases hrow : I.find? token with
    | none => exact .same
    | some i =>
      rw [Option.map_some]
      split
      · rename_i ht
        refine .used i peerId ?_
        have htoken : token = t := (Table.key_of_find? hrow).symm.trans (of_decide_eq_true ht)
        have hvalid : InviteCall.valid clk I t = true := hc
        rw [InviteCall.valid, ← htoken, hrow] at hvalid
        exact hvalid
      · exact .same
  | check t => exact .same

theorem idle_next (hs : s.Idle) : (e.next crypto s).Idle := idle_inviteCall e.call hs

theorem next_cases (hs : s.Idle) (e : InviteEvent) :
    ((e.next crypto s).tables.invites = s.tables.invites ∨
      e.call.Allowed e.clk s.tables.invites ∧
        (e.next crypto s).tables.invites = e.call.edit e.clk s.tables.invites) ∧
    ∀ told, e.answer crypto s = some told →
      (e.next crypto s).tables.invites = e.call.edit e.clk s.tables.invites ∧
        e.call.Tells e.clk s.tables.invites told := by
  have hspec := @shows_run (fun K => K = s.tables.invites ∨
    e.call.Allowed e.clk s.tables.invites ∧ K = e.call.edit e.clk s.tables.invites) s.tables.invites crypto e.clk
    (.inl rfl) e.call fun h => .inr ⟨h, rfl⟩
  obtain ⟨hok, herr⟩ := hspec { s with faults := e.faults }
    ⟨rfl, fun t ht => absurd (hs.2.symm.trans ht) (Option.some_ne_none t).symm⟩
  unfold InviteEvent.next InviteEvent.answer after
  cases hrun : (e.call.run crypto e.clk).run { s with faults := e.faults } with
  | error err t =>
    refine ⟨(herr err t hrun).1, fun told htold => ?_⟩
    cases htold
  | ok told t =>
    obtain ⟨⟨hedit, -⟩, htells⟩ := hok told t hrun
    refine ⟨.inr ⟨htells.allowed, hedit⟩, fun told' htold => ?_⟩
    cases htold
    exact ⟨hedit, htells⟩

theorem advance_next (hs : s.Idle) (e : InviteEvent) (token : Hash) :
    Invite.Advance e.clk.ms (e.call.draws token) (s.invite token) ((e.next crypto s).invite token) := by
  unfold Session.invite
  rcases (next_cases hs e).1 with hsame | ⟨hallowed, hedit⟩
  · rw [hsame]
    exact .same
  · rw [hedit]
    exact advance_edit e.call e.clk hallowed token

end Steps

/-- An invitation that no time from `now` on makes valid. -/
def Invite.Spent (now : I64) (r : Option Invite) : Prop := ∃ i, r = some i ∧
  (i.used = true ∨ i.invalidated = true ∨ i.expiresAt ≠ 0 ∧ i.expiresAt.toInt ≤ now.toInt)

section Invitation

variable {now t : I64} {drawn : Prop} {r r' : Option Invite} {i : Invite}

theorem valid_eq_false_iff : Db.Invite.valid i now = false ↔ Invite.Spent now (some i) := by
  have hsome : Invite.Spent now (some i) ↔
      i.used = true ∨ i.invalidated = true ∨ i.expiresAt ≠ 0 ∧ i.expiresAt.toInt ≤ now.toInt := by
    constructor
    · rintro ⟨j, hj, h⟩
      obtain rfl := Option.some.inj hj
      exact h
    · exact fun h => ⟨i, rfl, h⟩
  rw [hsome, Db.Invite.valid]
  cases i.used <;> cases i.invalidated <;> simp

theorem Invite.Spent.later (h : Invite.Spent now r) (hle : now.toInt ≤ t.toInt) : Invite.Spent t r := by
  obtain ⟨i, rfl, hused | hinvalidated | ⟨hdeadline, hpast⟩⟩ := h
  · exact ⟨i, rfl, .inl hused⟩
  · exact ⟨i, rfl, .inr (.inl hinvalidated)⟩
  · exact ⟨i, rfl, .inr (.inr ⟨hdeadline, hpast.trans hle⟩)⟩

theorem Invite.Spent.advance (h : Invite.Spent now r) (hadv : Invite.Advance t drawn r r') :
    Invite.Spent now r' := by
  obtain ⟨i, rfl, hspent⟩ := h
  cases hadv with
  | same => exact ⟨i, rfl, hspent⟩
  | invalidated => exact ⟨_, rfl, .inr (.inl rfl)⟩
  | used peerId => exact ⟨_, rfl, .inl rfl⟩

theorem spent_or_none_advance (h : r = none ∨ Invite.Spent now r) (hadv : Invite.Advance t drawn r r')
    (hdrawn : ¬ drawn) : r' = none ∨ Invite.Spent now r' := by
  rcases h with rfl | h
  · cases hadv with
    | same => exact .inl rfl
    | created i hdraw => exact absurd hdraw hdrawn
  · exact .inr (h.advance hadv)

theorem usedBy_advance (hadv : Invite.Advance now drawn r r') (hr : r = some i) (hused : i.used = true) :
    ∃ j, r' = some j ∧ j.used = true ∧ j.usedBy = i.usedBy := by
  cases hadv with
  | same => exact ⟨i, hr, hused, rfl⟩
  | created j => cases hr
  | invalidated j =>
    obtain rfl := Option.some.inj hr
    exact ⟨_, rfl, hused, rfl⟩
  | used j peerId hvalid =>
    obtain rfl := Option.some.inj hr
    rw [Db.Invite.valid, hused] at hvalid
    simp at hvalid

end Invitation

section Laws

abbrev InviteStep := System.Step Session InviteEvent

variable (crypto : Crypto) (token : Hash)

def InviteStep.Redeems (x : InviteStep) : Prop :=
  ∃ peerId signer, x.event.call = .markUsed token peerId signer ∧ x.event.answer crypto x.before = some true

def InviteStep.Invalidates (x : InviteStep) : Prop :=
  ∃ admin, x.event.call = .invalidate token admin ∧ x.event.answer crypto x.before = some true

def InviteStep.Reports (valid : Bool) (x : InviteStep) : Prop :=
  x.event.call = .check token ∧ x.event.answer crypto x.before = some valid

def InviteStep.Expired (x : InviteStep) : Prop :=
  ∃ i, x.before.invite token = some i ∧ i.expiresAt ≠ 0 ∧ i.expiresAt.toInt ≤ x.event.clk.ms.toInt

def Fresh (es : List InviteEvent) : Prop := es.Pairwise fun a b => b.call.draws token → ¬ a.call.names token

/-- An invitation can be used once: along the calls `es` from `s` on, no use goes through after another, after the
invitation was invalidated or after its deadline; who used it is never changed, and what was reported invalid
is not reported valid later. -/
structure OneShot (s : Session) (es : List InviteEvent) : Prop where
  once : (System.stepsOf (InviteEvent.next crypto) s es).Pairwise fun a b =>
    InviteStep.Redeems crypto token a → ¬ InviteStep.Redeems crypto token b
  invalidated : (System.stepsOf (InviteEvent.next crypto) s es).Pairwise fun a b =>
    InviteStep.Invalidates crypto token a → ¬ InviteStep.Redeems crypto token b
  expired : (System.stepsOf (InviteEvent.next crypto) s es).Pairwise fun a b =>
    InviteStep.Expired token a → ¬ InviteStep.Redeems crypto token b
  inTime : ∀ a ∈ System.stepsOf (InviteEvent.next crypto) s es,
    InviteStep.Redeems crypto token a → ¬ InviteStep.Expired token a
  usedBy : ∀ xs ys, es = xs ++ ys → ∀ i, (xs.foldl (InviteEvent.next crypto) s).invite token = some i →
    i.used = true → ∃ j, (es.foldl (InviteEvent.next crypto) s).invite token = some j ∧ j.used = true ∧
      j.usedBy = i.usedBy
  reported : Fresh token es → (System.stepsOf (InviteEvent.next crypto) s es).Pairwise fun a b =>
    InviteStep.Reports crypto token false a → ¬ InviteStep.Reports crypto token true b

variable {crypto : Crypto} {token : Hash} {s : Session} {x : InviteStep} {e : InviteEvent}

theorem InviteStep.Redeems.valid (h : InviteStep.Redeems crypto token ⟨s, e, e.next crypto s⟩) (hs : s.Idle) :
    ∃ i, s.invite token = some i ∧ Db.Invite.valid i e.clk.ms = true := by
  obtain ⟨peerId, signer, hcall, hanswer⟩ := h
  have htells := ((next_cases hs e).2 true hanswer).2
  rw [hcall] at htells
  exact (Option.any_eq_true _ _).mp htells

theorem not_redeems_of_spent {now : I64} (h : Invite.Spent now (s.invite token)) (hs : s.Idle)
    (hle : now.toInt ≤ e.clk.ms.toInt) : ¬ InviteStep.Redeems crypto token ⟨s, e, e.next crypto s⟩ := by
  intro hredeems
  obtain ⟨i, hi, hvalid⟩ := hredeems.valid hs
  have hspent := h.later hle
  rw [hi] at hspent
  exact Bool.false_ne_true ((valid_eq_false_iff.mpr hspent).symm.trans hvalid)

theorem spent_of_redeems (h : InviteStep.Redeems crypto token ⟨s, e, e.next crypto s⟩) (hs : s.Idle) :
    Invite.Spent e.clk.ms ((e.next crypto s).invite token) := by
  obtain ⟨i, hi, -⟩ := h.valid hs
  obtain ⟨peerId, signer, hcall, hanswer⟩ := h
  have hedit := ((next_cases hs e).2 true hanswer).1
  unfold Session.invite at hi ⊢
  rw [hedit, hcall, InviteCall.edit, Table.find?_modify, hi, Option.map_some,
    if_pos (decide_eq_true (Table.key_of_find? hi))]
  exact ⟨_, rfl, .inl rfl⟩

theorem spent_of_invalidates (h : InviteStep.Invalidates crypto token ⟨s, e, e.next crypto s⟩) (hs : s.Idle) :
    Invite.Spent e.clk.ms ((e.next crypto s).invite token) := by
  obtain ⟨admin, hcall, hanswer⟩ := h
  obtain ⟨hedit, htells⟩ := (next_cases hs e).2 true hanswer
  rw [hcall] at htells
  obtain ⟨i, hi⟩ := Option.isSome_iff_exists.mp htells
  unfold Session.invite
  rw [hedit, hcall, InviteCall.edit, Table.find?_modify, hi, Option.map_some,
    if_pos (decide_eq_true (Table.key_of_find? hi))]
  exact ⟨_, rfl, .inr (.inl rfl)⟩

theorem reports_iff (hs : s.Idle) {valid : Bool} (h : InviteStep.Reports crypto token valid ⟨s, e, e.next crypto s⟩) :
    valid = (s.invite token).any (fun i => Db.Invite.valid i e.clk.ms) ∧
      (e.next crypto s).invite token = s.invite token := by
  obtain ⟨hcall, hanswer⟩ := h
  obtain ⟨hedit, htells⟩ := (next_cases hs e).2 valid hanswer
  rw [hcall] at htells
  refine ⟨htells, ?_⟩
  unfold Session.invite
  rw [hedit, hcall]
  rfl

theorem names_of_reports (h : InviteStep.Reports crypto token valid x) : x.event.call.names token := by
  rw [h.1]
  exact rfl

theorem gone_of_reports (hs : s.Idle) (h : InviteStep.Reports crypto token false ⟨s, e, e.next crypto s⟩) :
    (e.next crypto s).invite token = none ∨ Invite.Spent e.clk.ms ((e.next crypto s).invite token) := by
  obtain ⟨hvalid, hsame⟩ := reports_iff hs h
  rw [hsame]
  cases hrow : s.invite token with
  | none => exact .inl rfl
  | some i =>
    rw [hrow] at hvalid
    exact .inr (valid_eq_false_iff.mp hvalid.symm)

theorem not_reports_of_gone {now : I64} (h : s.invite token = none ∨ Invite.Spent now (s.invite token))
    (hs : s.Idle) (hle : now.toInt ≤ e.clk.ms.toInt) :
    ¬ InviteStep.Reports crypto token true ⟨s, e, e.next crypto s⟩ := by
  intro hreports
  have hvalid := (reports_iff hs hreports).1
  rcases h with hnone | hspent
  · rw [hnone] at hvalid
    cases hvalid
  · have hlater := hspent.later hle
    obtain ⟨i, hi, -⟩ := id hspent
    rw [hi] at hvalid hlater
    exact Bool.false_ne_true ((valid_eq_false_iff.mpr hlater).symm.trans hvalid.symm)

/-- An invitation can be used once, whatever the database refuses and whoever makes the calls. -/
theorem invites_oneShot (crypto : Crypto) (token : Hash) (s : Session) (hs : s.Idle) (es : List InviteEvent)
    (hclock : es.Pairwise fun a b => a.clk.ms.toInt ≤ b.clk.ms.toInt) : OneShot crypto token s es where
  once := System.pairwise_stepsOf
    (K := fun x t => InviteStep.Redeems crypto token x → Invite.Spent x.event.clk.ms (t.invite token))
    (fun _ _ ht => idle_next ht) (fun _ _ ht h => spent_of_redeems h ht)
    (fun _ _ e ht _ hk h => (hk h).advance (advance_next ht e token))
    (fun _ _ _ ht hle hk h => not_redeems_of_spent (hk h) ht hle) hs es hclock
  invalidated := System.pairwise_stepsOf
    (K := fun x t => InviteStep.Invalidates crypto token x → Invite.Spent x.event.clk.ms (t.invite token))
    (fun _ _ ht => idle_next ht) (fun _ _ ht h => spent_of_invalidates h ht)
    (fun _ _ e ht _ hk h => (hk h).advance (advance_next ht e token))
    (fun _ _ _ ht hle hk h => not_redeems_of_spent (hk h) ht hle) hs es hclock
  expired := System.pairwise_stepsOf
    (K := fun x t => InviteStep.Expired token x → Invite.Spent x.event.clk.ms (t.invite token))
    (fun _ _ ht => idle_next ht)
    (fun t e ht h => by
      obtain ⟨i, hi, hpast⟩ := h
      exact Invite.Spent.advance ⟨i, hi, .inr (.inr hpast)⟩ (advance_next ht e token))
    (fun _ _ e ht _ hk h => (hk h).advance (advance_next ht e token))
    (fun _ _ _ ht hle hk h => not_redeems_of_spent (hk h) ht hle) hs es hclock
  inTime := System.related_stepsOf (K := fun _ => True) (C := fun _ => True)
    (fun _ _ ht => idle_next ht) (fun _ _ _ _ _ => trivial)
    (fun t e ht _ _ hredeems hexpired => by
      obtain ⟨i, hi, hpast⟩ := hexpired
      exact not_redeems_of_spent ⟨i, hi, .inr (.inr hpast)⟩ ht (Int.le_refl _) hredeems)
    hs trivial es fun _ _ => trivial
  usedBy := by
    intro xs ys heq i hi hused
    rw [heq, List.foldl_append]
    have hidle : ∀ (zs : List InviteEvent) (t : Session), t.Idle → (zs.foldl (InviteEvent.next crypto) t).Idle := by
      intro zs
      induction zs with
      | nil => exact fun _ ht => ht
      | cons e zs ih => exact fun t ht => ih _ (idle_next ht)
    have hxs := hidle xs s hs
    generalize xs.foldl (InviteEvent.next crypto) s = t at hi hxs
    clear heq
    induction ys generalizing t i with
    | nil => exact ⟨i, hi, hused, rfl⟩
    | cons e ys ih =>
      obtain ⟨j, hj, hjused, hjby⟩ := usedBy_advance (advance_next hxs e token) hi hused
      rw [← hjby]
      exact ih j hjused _ hj (idle_next hxs)
  reported hfresh := System.pairwise_stepsOf
    (K := fun x t => InviteStep.Reports crypto token false x →
      t.invite token = none ∨ Invite.Spent x.event.clk.ms (t.invite token))
    (fun _ _ ht => idle_next ht) (fun _ _ ht h => gone_of_reports ht h)
    (fun _ _ e ht hok hk h => spent_or_none_advance (hk h) (advance_next ht e token) fun hdraw =>
      hok.2 hdraw (names_of_reports h))
    (fun _ _ _ ht hok hk h hb => not_reports_of_gone (hk h) ht hok.1 hb) hs es (hclock.and hfresh)

def usedTwice : List InviteEvent :=
  [⟨⟨1, 1000000⟩, .none, .markUsed (zeroBytes 128) outsider.peerId outsider⟩,
    ⟨⟨2, 2000000⟩, .none, .markUsed (zeroBytes 128) outsider.peerId outsider⟩,
    ⟨⟨2, 2000000⟩, .none, .check (zeroBytes 128)⟩]

theorem invites_oneShot_usedTwice :
    (usedTwice.head?.bind fun e => e.answer (onlySigner flatHash (member 1)) invited) = some true ∧
      OneShot (onlySigner flatHash (member 1)) (zeroBytes 128) invited usedTwice := by
  refine ⟨?_, invites_oneShot (onlySigner flatHash (member 1)) (zeroBytes 128) invited invited_quiet.idle usedTwice ?_⟩
  · obtain ⟨s', hrun, -, -⟩ := run_markUsed (onlySigner flatHash (member 1))
    have hanswer : ((InviteCall.markUsed (zeroBytes 128) outsider.peerId outsider).run
        (onlySigner flatHash (member 1)) ⟨1, 1000000⟩).run invited = .ok true s' := run_bind_ok hrun
    change InviteEvent.answer (onlySigner flatHash (member 1)) invited
      ⟨⟨1, 1000000⟩, .none, .markUsed (zeroBytes 128) outsider.peerId outsider⟩ = some true
    unfold InviteEvent.answer
    rw [show ({ invited with faults := Faults.none } : Session) = invited from rfl, hanswer]
  · decide

end Laws

end YumiBrowser.Group
