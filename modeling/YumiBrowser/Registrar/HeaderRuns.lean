import YumiBrowser.Registrar.Durability

namespace YumiBrowser.Group

open Wire Keyed Fallible Transition

def iconMaxDim : ℕ := 512
def iconMaxBytes : ℕ := 10 * 1024 * 1024

structure GroupIcon where
  data : List Byte
  mimeType : List Byte
  width : BitVec 16
  height : BitVec 16
  isVideo : Bool
  staticFrame : Option (List Byte)

def isVideoMime (mime : List Byte) : Bool := mime = ascii "video/mp4" ∨ mime = ascii "video/webm"

def isValidMime (mime : List Byte) : Bool :=
  mime = ascii "image/png" ∨ mime = ascii "image/jpeg" ∨ mime = ascii "image/webp" ∨ isVideoMime mime

/-- What `gr_group_icon_set` asks of an icon, in its order. -/
def GroupIcon.check (i : GroupIcon) : Option GrError :=
  if i.width = 0 ∨ i.height = 0 then some .invalidParam
  else if iconMaxDim < i.width.toNat ∨ iconMaxDim < i.height.toNat then some .sizeExceeded
  else if i.data.length = 0 ∨ iconMaxBytes < i.data.length then some .sizeExceeded
  else if ¬ isValidMime i.mimeType then some .invalidParam
  else if ¬ i.isVideo then none
  else if ¬ isVideoMime i.mimeType then some .invalidParam
  else
    let frame := i.staticFrame.getD []
    if frame.length = 0 then some .invalidParam
    else if iconMaxBytes < frame.length then some .sizeExceeded
    else none

def GroupIcon.detail (i : GroupIcon) : List Byte :=
  (ascii "icon set (" ++ i.mimeType ++ ascii ", " ++ decimal i.width.toNat ++ ascii "x" ++
    decimal i.height.toNat ++ ascii ", " ++ decimal i.data.length ++ ascii " bytes)").take 127

namespace Db

variable (crypto : Crypto) (clk : Clock)

-- The rows of `gr_group_icon` are read by nothing else, so the tables are as they were.
def groupIconSet (icon : GroupIcon) (signer : Identity) : Db PUnit := do
  guardTrusted
  guardPerm signer Perm.setGroupIcon
  match icon.check with
  | some e => throw e
  | none =>
    audited crypto .groupIconSet signer none icon.detail clk.ns do
      let _ ← execute fun s => some s.tables
      statement fun s => some s.tables

def groupIconRemove (signer : Identity) : Db PUnit := do
  guardTrusted
  guardPerm signer Perm.setGroupIcon
  audited crypto .groupIconRemoved signer none (ascii "icon removed") clk.ns do
    let _ ← execute fun s => some s.tables

end Db

/-- The public calls on an open registrar; only `auditAppend` changes it outside of a transaction. -/
inductive Operation
  | call (c : Call)
  | auditAppend (change : ChangeType) (actor : Identity) (target : Option PeerId) (detail : List Byte)
  | auditEnforceRetention
  | groupIconSet (icon : GroupIcon) (signer : Identity)
  | groupIconRemove (signer : Identity)

def Operation.run (crypto : Crypto) (clk : Clock) : Operation → Db PUnit
  | call c => c.run crypto clk
  | auditAppend change actor target detail => appendDb crypto change actor target detail clk.ns
  | auditEnforceRetention => enforceRetentionDb
  | groupIconSet icon signer => Db.groupIconSet crypto clk icon signer
  | groupIconRemove signer => Db.groupIconRemove crypto clk signer

def Call.signer : Call → Option Identity
  | peerAdd _ signer => some signer
  | peerKick _ _ signer => some signer
  | peerBan _ _ signer => some signer
  | peerLeave peer => some peer
  | peerUpdateAddress _ _ peer => some peer
  | peerObservedAddress _ _ _ observer => some observer
  | peerTouch _ => none
  | peerSetRole _ _ signer => some signer
  | roleAdd _ _ _ signer => some signer
  | roleRemove _ signer => some signer
  | roleSetPermissions _ _ signer => some signer
  | webappAdd _ signer => some signer
  | webappRemove _ signer => some signer
  | webappUpdatePermData _ _ signer => some signer
  | webappUpdateRoleMask _ _ signer => some signer
  | serverAdd _ signer => some signer
  | serverRemove _ signer => some signer
  | retentionSet _ signer => some signer
  | epochRotate _ signer => some signer
  | inviteCreate _ _ inviter => some inviter
  | inviteInvalidate _ admin => some admin
  | inviteMarkUsed _ _ signer => some signer
  | sign signer => some signer
  | deserialize _ => none
  | applyDelta _ => none

def Operation.signer : Operation → Option Identity
  | call c => c.signer
  | auditAppend _ actor _ _ => some actor
  | auditEnforceRetention => none
  | groupIconSet _ signer => some signer
  | groupIconRemove signer => some signer

/-- An operation with what it meets: the secret keys `yumi_mldsa_sign` signs with, and whether a join or a
callback has been set since the last one. -/
structure Request where
  crypto : Crypto
  clk : Clock
  signs : SecretKey → Bool
  untrusted : Bool
  deltaAnomaly : Option (ℕ → I64 → DeltaAction)
  op : Operation

namespace Request

/-- An entry that cannot be signed ends `gr_audit_append` where a refused insert does: its version is
counted, and the session is otherwise as it was. -/
def faults (r : Request) : Faults :=
  { Faults.none with appendFails := r.op.signer.any fun actor => !r.signs actor.secretKey }

def begin (r : Request) (s : Session) : Session :=
  { s with faults := r.faults, untrusted := r.untrusted, deltaAnomaly := r.deltaAnomaly }

def next (s : Session) (r : Request) : Session := after (r.op.run r.crypto r.clk) (r.begin s)

def Signed (r : Request) : Prop :=
  match r.op with
  | .auditAppend _ actor _ _ => r.signs actor.secretKey = true
  | _ => True

theorem safe_faults (r : Request) : r.faults.Safe :=
  ⟨rfl, fun h => Bool.false_ne_true h.1, fun _ => ⟨rfl, fun _ h => Bool.false_ne_true h.1⟩⟩

end Request

/-- What happens to a registrar: an operation, or it is closed and opened again. -/
inductive HandleEvent
  | request (r : Request)
  | reopen

namespace HandleEvent

def next (s : Session) : HandleEvent → Session
  | request r => r.next s
  | reopen =>
    match grOpen s.tables s.header.groupId with
    | .ok s' => s'
    | .error _ => s

def Signed : HandleEvent → Prop
  | request r => r.Signed
  | reopen => True

end HandleEvent

def Session.Calm (s : Session) : Prop := s.Idle ∧ s.faults.placed = .none

section Calm

variable {α : Type} {x : Db α} {s : Session}

theorem connected_calm (t : Tables) : (Session.connected t).Calm := ⟨⟨rfl, rfl⟩, rfl⟩

theorem ensures_calm (hx : Leaves Session.base x) :
    Ensures Session.Calm x (fun _ => Session.Calm) fun _ => True := by
  have hkeep := ensures_of_leaves (p := fun b => (b.2.2.1 = 0 ∧ b.1 = none) ∧ b.2.2.2 = .none) hx
  exact hkeep.weaken (fun _ hs => hs) (fun _ _ hs => hs) fun _ _ => trivial

theorem run_headerSave_calm (hs : s.Calm) : headerSave.run s =
    .ok ⟨⟩ { s with
      tables := { s.tables with headers := [s.header] }, savedHeader := s.header, bound := some s.header } := by
  obtain ⟨header, tables, before, savedHeader, txnDepth, bound, untrusted, deltaAnomaly, faults⟩ := s
  obtain ⟨beginFails, appendFails, commitFails, saves, stmts⟩ := faults
  obtain ⟨⟨hd, hb⟩, hp⟩ := hs
  obtain rfl : txnDepth = 0 := hd
  obtain rfl : before = none := hb
  obtain rfl : beginFails = false := congrArg Faults.beginFails hp
  obtain rfl : commitFails = false := congrArg Faults.commitFails hp
  obtain rfl : saves = [] := congrArg Faults.saves hp
  rfl

theorem ensures_headerSave_calm :
    Ensures Session.Calm headerSave (fun _ s => s.Calm ∧ s.Durable) fun _ => False := by
  intro s hs
  rw [run_headerSave_calm hs]
  constructor
  · intro a t ht
    cases ht
    exact ⟨hs, rfl⟩
  · intro e t ht
    cases ht

theorem ensures_appendDb_calm (crypto : Crypto) (change : ChangeType) (actor : Identity)
    (target : Option PeerId) (detail : List Byte) (ns : I64) :
    Ensures Session.Calm (appendDb crypto change actor target detail ns) (fun _ s => s.Calm ∧ s.Durable)
      fun _ => False := by
  intro s hs
  have happend : s.faults.appendFails = false := congrArg Faults.appendFails hs.2
  obtain ⟨h, log, _, hrun⟩ := run_appendDb crypto change actor target detail ns happend
  have hsaved : Ensures Session.Calm (do headerSave; enforceRetentionDb : Db PUnit)
      (fun _ s => s.Calm ∧ s.Durable) fun _ => False := by
    refine ensures_headerSave_calm.bind fun _ t ht => ⟨fun a u hu => ⟨?_, ?_⟩, fun e u hu => ?_⟩
    · exact (ensures_calm (apart_enforceRetentionDb apart_base) t ht.1).1 a u hu
    · exact (ensures_durable_enforceRetentionDb t ht.2).1 a u hu
    · exact (neverThrows_enforceRetentionDb t trivial).2 e u hu
  have hcalm : Session.Calm { s.asked with header := h, tables := { s.tables with auditLog := log } } := hs
  rw [hrun]
  exact hsaved _ hcalm

theorem ensures_create (crypto : Crypto) (groupName : List Byte) (groupType : BitVec 32) (owner : Identity)
    (epochKey : EpochKey) (clk : Clock) :
    Ensures Session.Calm (Db.create crypto groupName groupType owner epochKey clk)
      (fun _ s => s.Calm ∧ s.Durable) fun _ => True := by
  refine (ensures_calm (around_base (reads_around (reads_guardThat _ _)))).bind fun _ => ?_
  refine (ensures_calm (around_base (reads_around (reads_guardThat _ _)))).bind fun _ => ?_
  refine (ensures_calm (base_setHeader _)).bind fun _ => ?_
  refine (ensures_headerSave_calm.weaken (fun _ hs => hs) (fun _ _ hs => hs.1) fun _ _ => trivial).bind fun _ => ?_
  refine (ensures_calm (base_insert _)).bind fun _ => (ensures_calm (base_insert _)).bind fun _ => ?_
  exact (ensures_appendDb_calm _ _ _ _ _ _).weaken (fun _ hs => hs) (fun _ _ hs => hs) fun _ _ => trivial

end Calm

section Runs

variable {s : Session}

theorem bracketed_groupIconSet (crypto : Crypto) (clk : Clock) (icon : GroupIcon) (signer : Identity) :
    Bracketed crypto (Db.groupIconSet crypto clk icon signer) := by
  apply Bracketed.permitted
  cases icon.check with
  | some e => exact .reads (leaves_throw e)
  | none =>
    exact bracketed_audited ((around_base around_execute).bind fun _ => around_base around_statement)

theorem bracketed_groupIconRemove (crypto : Crypto) (clk : Clock) (signer : Identity) :
    Bracketed crypto (Db.groupIconRemove crypto clk signer) := by
  apply Bracketed.permitted
  exact bracketed_audited ((around_base around_execute).bind fun _ => leaves_pure _)

theorem grOpen_durable (hs : s.Durable) :
    grOpen s.tables s.header.groupId = .ok { Session.connected s.tables with header := s.header } := by
  have hload : s.tables.loadHeader = .ok s.header := by
    unfold Tables.loadHeader
    rw [hs]
    exact readHeader_bindHeaderFields s.header
  unfold grOpen
  rw [hload]
  exact if_neg fun hne => hne rfl

theorem idle_grOpen (h : grOpen tables groupId = .ok s) : s.Idle := by
  unfold grOpen at h
  cases hload : tables.loadHeader with
  | error e =>
    rw [hload] at h
    cases h
  | ok header =>
    rw [hload] at h
    change (if header.groupId ≠ groupId then _ else _ : Except GrError Session) = _ at h
    split at h
    · cases h
    · cases h
      exact ⟨rfl, rfl⟩

theorem after_unsigned (crypto : Crypto) (change : ChangeType) (actor : Identity) (target : Option PeerId)
    (detail : List Byte) (ns : I64) (hf : s.faults.appendFails = true) :
    ((after (appendDb crypto change actor target detail ns) s).Idle ↔ s.Idle) ∧
      (s.Durable → ¬ (after (appendDb crypto change actor target detail ns) s).Durable) := by
  obtain ⟨h, hversion, hrun⟩ := run_appendDb_refused crypto change actor target detail ns hf
  rw [after_error hrun]
  refine ⟨.rfl, fun hs hdurable => ?_⟩
  have hrows : s.tables.headers = [h] := hdurable
  rw [hs] at hrows
  have hhead : s.header = h := List.cons.inj hrows |>.1
  rw [← hhead] at hversion
  bv_omega

theorem Request.next_spec (r : Request) (hs : s.Idle) :
    (r.next s).Idle ∧ (s.Durable → ((r.next s).Durable ↔ r.Signed)) := by
  have hbegin : (r.begin s).Idle := hs
  have hbracketed : ∀ {x : Db PUnit}, Bracketed r.crypto x → (after x (r.begin s)).Idle ∧
      (s.Durable → (after x (r.begin s)).Durable) :=
    fun h => ⟨h.idle _ hbegin, fun hd => h.durable_after r.safe_faults hbegin rfl hd⟩
  unfold Request.next Request.Signed
  cases hop : r.op with
  | call c =>
    obtain ⟨hidle, hdurable⟩ := hbracketed (@bracketed_run r.crypto r.clk c)
    exact ⟨hidle, fun hd => iff_true_intro (hdurable hd)⟩
  | groupIconSet icon signer =>
    obtain ⟨hidle, hdurable⟩ := hbracketed (bracketed_groupIconSet r.crypto r.clk icon signer)
    exact ⟨hidle, fun hd => iff_true_intro (hdurable hd)⟩
  | groupIconRemove signer =>
    obtain ⟨hidle, hdurable⟩ := hbracketed (bracketed_groupIconRemove r.crypto r.clk signer)
    exact ⟨hidle, fun hd => iff_true_intro (hdurable hd)⟩
  | auditEnforceRetention =>
    refine ⟨idle_around around_enforceRetentionDb hbegin, fun hd => iff_true_intro ?_⟩
    have hdurable : (r.begin s).Durable := hd
    exact durable_of_leaves (header_around around_enforceRetentionDb) (apart_enforceRetentionDb apart_headers) hdurable
  | auditAppend change actor target detail =>
    have hfails : (r.begin s).faults.appendFails = !r.signs actor.secretKey := by
      change (r.op.signer.any fun actor => !r.signs actor.secretKey) = _
      rw [hop]
      rfl
    cases hsigns : r.signs actor.secretKey with
    | false =>
      rw [hsigns] at hfails
      obtain ⟨hidle, hlost⟩ := after_unsigned r.crypto change actor target detail r.clk.ns hfails
      refine ⟨hidle.mpr hbegin, fun hd => iff_of_false (hlost hd) fun hsigned => ?_⟩
      exact Bool.false_ne_true (hsigns.symm.trans hsigned)
    | true =>
      rw [hsigns] at hfails
      have hcalm : (r.begin s).Calm := ⟨hbegin, by
        change ({ Faults.none with appendFails := (r.begin s).faults.appendFails } : Faults) = .none
        rw [hfails]
        rfl⟩
      obtain ⟨hok, herr⟩ := ensures_appendDb_calm r.crypto change actor target detail r.clk.ns _ hcalm
      unfold Operation.run after
      cases hrun : (appendDb r.crypto change actor target detail r.clk.ns).run (r.begin s) with
      | error e t => exact (herr e t hrun).elim
      | ok a t =>
        obtain ⟨hidle, hdurable⟩ := hok a t hrun
        exact ⟨hidle.1, fun _ => iff_of_true hdurable hsigns⟩

theorem HandleEvent.next_spec (e : HandleEvent) (hs : s.Idle) :
    (e.next s).Idle ∧ (s.Durable → ((e.next s).Durable ↔ e.Signed)) := by
  cases e with
  | request r => exact r.next_spec hs
  | reopen =>
    unfold HandleEvent.next HandleEvent.Signed
    constructor
    · cases hopen : grOpen s.tables s.header.groupId with
      | ok s' => exact idle_grOpen hopen
      | error e => exact hs
    · intro hd
      rw [grOpen_durable hd]
      exact iff_true_intro hd

/-- From `gr_create` on the header is stored after every call, and reopening the registrar shows it, if and
only if every entry that is appended on its own has its signature. -/
theorem header_durable_iff (h : (Db.create crypto groupName groupType owner epochKey clk).run (.connected file) =
    .ok ⟨⟩ s) (es : List HandleEvent) :
    (∀ xs ys, es = xs ++ ys →
      let t := xs.foldl HandleEvent.next s
      t.tables.headers = [t.header] ∧
        Session.header <$> grOpen t.tables t.header.groupId = .ok t.header) ↔
      ∀ e ∈ es, e.Signed := by
  have hcreated := ensures_create crypto groupName groupType owner epochKey clk _ (connected_calm file)
  obtain ⟨⟨hidle, _⟩, hdurable⟩ := hcreated.1 _ _ h
  have halong := System.holds_along_iff (J := Session.Idle) (I := Session.Durable) (C := fun _ e => e.Signed)
    (fun t e ht => (e.next_spec ht).1) (fun t e ht hd => (e.next_spec ht).2 hd) hidle hdurable es
  constructor
  · intro hall e he
    obtain ⟨xs, ys, heq⟩ := List.append_of_mem he
    exact halong.mp (fun xs ys heq => (hall xs ys heq).1) xs e ys heq
  · intro hall xs ys heq
    have hd := halong.mpr (fun xs e ys heq => hall e (by simp [heq])) xs ys heq
    refine ⟨hd, ?_⟩
    rw [grOpen_durable hd]
    rfl

end Runs

section Created

variable {s : Session}

def Tables.blank : Tables :=
  ⟨Table.empty, Table.empty, Table.empty, Table.empty, Table.empty, Table.empty, Table.empty, []⟩

theorem run_insert_quiet (hf : s.faults = .none) {edit : Registrar → Option Registrar} (h : edit s.reg = some reg) :
    (insert edit).run s = .ok ⟨⟩ { s with tables := s.tables.store reg } :=
  run_statement_quiet hf _ (congrArg (Option.map s.tables.store) h)

theorem run_found (crypto : Crypto) (owner : Identity) (epochKey : EpochKey) (clk : Clock) (s : Session)
    (hq : s.Quiet) (hpeers : s.tables.peers = Table.empty) (hepochs : s.tables.epochs = Table.empty) :
    ∃ t, (do
      insert fun reg => (reg.peers.insert? (ownerPeer owner clk.ms)).map fun peers => { reg with peers }
      insert fun reg => (reg.epochs.insert? (firstEpoch owner epochKey clk.ms)).map fun epochs =>
        { reg with epochs }
      appendDb crypto .peerAdded owner (some owner.peerId) (ascii "group created") clk.ns : Db PUnit).run s =
      .ok ⟨⟩ t := by
  have hempty : ∀ {α κ : Type} [DecidableEq κ] {key : α → κ} (a : α),
      ∃ t : Table key, (Table.empty : Table key).insert? a = some t := by
    intro α κ _ key a
    exact ⟨_, dif_pos rfl⟩
  obtain ⟨peers, hp⟩ := @hempty _ _ _ Peer.peerId (ownerPeer owner clk.ms)
  obtain ⟨epochs, he⟩ := @hempty _ _ _ Epoch.epochId (firstEpoch owner epochKey clk.ms)
  have howner : (s.reg.peers.insert? (ownerPeer owner clk.ms)).map (fun peers => { s.reg with peers }) =
      some { s.reg with peers } := by
    change (s.tables.peers.insert? _).map _ = _
    rw [hpeers, hp]
    rfl
  rw [run_bind_ok (run_insert_quiet hq.faults howner)]
  generalize hs₁ : ({ s with tables := s.tables.store { s.reg with peers } } : Session) = s₁
  have hepoch : (s₁.reg.epochs.insert? (firstEpoch owner epochKey clk.ms)).map
      (fun epochs => { s₁.reg with epochs }) = some { s₁.reg with epochs } := by
    subst hs₁
    change (s.tables.epochs.insert? _).map _ = _
    rw [hepochs, he]
    rfl
  have hf : s₁.faults = .none := by
    subst hs₁
    exact hq.faults
  rw [run_bind_ok (run_insert_quiet hf hepoch)]
  have hcalm : Session.Calm { s₁ with tables := s₁.tables.store { s₁.reg with epochs } } := by
    subst hs₁
    exact ⟨hq.idle, congrArg Faults.placed hq.faults⟩
  have happend := ensures_appendDb_calm crypto .peerAdded owner (some owner.peerId) (ascii "group created") clk.ns
    _ hcalm
  cases hrun : (appendDb crypto .peerAdded owner (some owner.peerId) (ascii "group created") clk.ns).run
      { s₁ with tables := s₁.tables.store { s₁.reg with epochs } } with
  | ok a t => exact ⟨t, rfl⟩
  | error e t => exact (happend.2 e t hrun).elim

theorem run_create_blank (crypto : Crypto) (owner : Identity) (epochKey : EpochKey) (clk : Clock)
    (hname : untilZero groupName ≠ []) (htype : groupType = groupPrivate ∨ groupType = groupPublic) :
    ∃ s, (Db.create crypto groupName groupType owner epochKey clk).run (.connected .blank) = .ok ⟨⟩ s := by
  have hguard : ∀ {ok : Bool} {e : GrError} {s : Session}, ok = true →
      (guardThat ok e).run s = .ok ⟨⟩ s := by
    rintro _ e s rfl
    rfl
  have hcalm : Session.Calm { Session.connected .blank with
      header := initialHeader crypto groupName groupType owner clk.ms } := connected_calm .blank
  unfold Db.create
  rw [run_bind_ok (hguard (decide_eq_true hname)), run_bind_ok (hguard (decide_eq_true htype)),
    run_bind_ok (run_setHeader _), run_bind_ok (run_headerSave_calm hcalm)]
  exact run_found crypto owner epochKey clk _ ⟨⟨rfl, rfl⟩, rfl⟩ rfl rfl

def createPair : Db PUnit :=
  Db.create (onlySigner flatHash (member 1)) (ascii "pair") groupPrivate (member 1) (zeroBytes 128) ⟨1, 1000000⟩

def createdSession : Session := after createPair (.connected .blank)

theorem run_createPair : createPair.run (.connected .blank) = .ok ⟨⟩ createdSession := by
  have hname : untilZero (ascii "pair") ≠ [] := by decide
  obtain ⟨s, hs⟩ := run_create_blank (onlySigner flatHash (member 1)) (member 1) (zeroBytes 128) ⟨1, 1000000⟩
    hname (.inl rfl)
  change createPair.run (.connected .blank) = _ at hs
  unfold createdSession
  rw [after_ok hs, hs]

def appendAlone (signs : SecretKey → Bool) : HandleEvent :=
  .request
    { crypto := onlySigner flatHash (member 1)
      clk := ⟨2, 2000000⟩
      signs
      untrusted := false
      deltaAnomaly := none
      op := .auditAppend .bootIpBlocked (member 1) none (ascii "blocked") }

theorem header_durable_pair :
    let t := [appendAlone fun _ => true, HandleEvent.reopen].foldl HandleEvent.next createdSession
    t.tables.headers = [t.header] ∧ Session.header <$> grOpen t.tables t.header.groupId = .ok t.header :=
  (header_durable_iff run_createPair [appendAlone fun _ => true, .reopen]).mpr
    (List.forall_mem_cons.mpr ⟨rfl, List.forall_mem_singleton.mpr trivial⟩) _ [] rfl

theorem header_not_durable : ¬ ∀ (file : Tables) (s : Session) (es : List HandleEvent),
    createPair.run (.connected file) = .ok ⟨⟩ s →
      (es.foldl HandleEvent.next s).tables.headers = [(es.foldl HandleEvent.next s).header] := by
  intro hall
  have hrows := hall .blank createdSession [appendAlone fun _ => false] run_createPair
  have hcreated := ensures_create (onlySigner flatHash (member 1)) (ascii "pair") groupPrivate (member 1)
    (zeroBytes 128) ⟨1, 1000000⟩ _ (connected_calm .blank)
  obtain ⟨⟨hidle, _⟩, hdurable⟩ := hcreated.1 _ _ run_createPair
  have hsigned := ((appendAlone fun _ => false).next_spec hidle).2 hdurable |>.mp hrows
  exact Bool.false_ne_true hsigned

end Created

end YumiBrowser.Group
