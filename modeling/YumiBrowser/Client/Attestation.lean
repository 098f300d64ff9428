import Mathlib.Data.Finset.Card
import YumiBrowser.Registrar.InviteBlob

namespace YumiBrowser.Client.Attest

open Wire YumiBrowser.Group

section Wire

def putBe (n : ℕ) (v : BitVec w) : List Byte := (toLe n v.toNat).reverse

def getBe (n w : ℕ) : Reader (BitVec w) := do
  let b ← readBytes n
  return BitVec.ofNat w (ofLe b.val.reverse)

abbrev putU32 (v : BitVec 32) : List Byte := putBe 4 v
abbrev putI64 (v : I64) : List Byte := putBe 8 v
abbrev getU32 : Reader (BitVec 32) := getBe 4 32
abbrev getI64 : Reader I64 := getBe 8 64

def nameArray (c : Name) : List Byte := c.val ++ List.replicate (128 - c.val.length) 0

-- A name without a zero in it is not looked at afterwards.
def readName : Reader Name := do
  let b ← readBytes 128
  return .stored 128 (Nat.succ_pos 127) b.val

def serHeader (h : Header) : List Byte :=
  h.groupId.val ++ putU32 h.groupType ++ nameArray h.groupName ++ putU32 h.version ++ putI64 h.createdAt ++
    putI64 h.updatedAt ++ putU32 h.epochId ++ putI64 h.retention.messageRetentionMs ++
    putI64 h.retention.fileRetentionMs ++ putI64 h.retention.registrarMaxBytes ++ h.ownerId.val ++
    h.ownerSignKey.val ++ h.signerId.val ++ h.signerSignKey.val ++ h.signature.val ++ h.hash.val

def deHeader : Reader Header := do
  let groupId ← readBytes 128
  let groupType ← getU32
  let groupName ← readName
  let version ← getU32
  let createdAt ← getI64
  let updatedAt ← getI64
  let epochId ← getU32
  let messageRetentionMs ← getI64
  let fileRetentionMs ← getI64
  let registrarMaxBytes ← getI64
  let ownerId ← readBytes 32
  let ownerSignKey ← readBytes 2592
  let signerId ← readBytes 32
  let signerSignKey ← readBytes 2592
  let signature ← readBytes 4627
  let hash ← readBytes 128
  return { groupId, groupType, groupName, version, createdAt, updatedAt, epochId,
           retention := { messageRetentionMs, fileRetentionMs, registrarMaxBytes },
           ownerId, ownerSignKey, signerId, signerSignKey, signature, hash }

/-- What an `ATT_HEADER` has in it. -/
structure Attested where
  header : Header
  peerId : PeerId
  signKey : PublicKey
  signature : Signature

def serAttested (a : Attested) : List Byte :=
  serHeader a.header ++ a.peerId.val ++ a.signKey.val ++ a.signature.val

def deAttested : Reader Attested := do
  let header ← deHeader
  let peerId ← readBytes 32
  let signKey ← readBytes 2592
  let signature ← readBytes 4627
  return { header, peerId, signKey, signature }

def hdrWireLen : ℕ := 128 + 4 + 128 + 4 + 8 + 8 + 4 + 8 + 8 + 8 + 32 + 2592 + 32 + 2592 + 4627 + 128
def attWireLen : ℕ := hdrWireLen + 32 + 2592 + 4627

@[simp] theorem length_putBe (n : ℕ) (v : BitVec w) : (putBe n v).length = n := by
  rw [putBe, List.length_reverse, length_toLe]

theorem getBe_bind {α : Type} (v : BitVec w) (s : List Byte) (f : BitVec w → Reader α) (h : 2 ^ w ≤ 256 ^ n) :
    (getBe n w >>= f).run (putBe n v ++ s) = (f v).run s := by
  have hread := readBytes_append ⟨putBe n v, length_putBe n v⟩ s
  have hvalue : BitVec.ofNat w (ofLe (putBe n v).reverse) = v := by
    rw [putBe, List.reverse_reverse, ofLe_toLe, Nat.mod_eq_of_lt (v.isLt.trans_le h)]
    rw [BitVec.ofNat_toNat, BitVec.setWidth_eq]
  rw [getBe, bind_assoc, run_bind_of _ hread, pure_bind, hvalue]

@[simp] theorem getU32_bind {α : Type} (v : BitVec 32) (s : List Byte) (f : BitVec 32 → Reader α) :
    (getU32 >>= f).run (putU32 v ++ s) = (f v).run s := getBe_bind v s f (by norm_num)

@[simp] theorem getI64_bind {α : Type} (v : I64) (s : List Byte) (f : I64 → Reader α) :
    (getI64 >>= f).run (putI64 v ++ s) = (f v).run s := getBe_bind v s f (by norm_num)

@[simp] theorem length_nameArray (c : Name) : (nameArray c).length = 128 := by
  have hshort := c.short
  rw [nameArray, List.length_append, List.length_replicate]
  omega

theorem stored_nameArray (c : Name) : CString.stored 128 (by decide) (nameArray c) = c := by
  have huntil : untilZero (nameArray c) = c.val := by
    have hpos : 128 - c.val.length = (128 - c.val.length - 1) + 1 := by
      have hshort := c.short
      omega
    rw [nameArray, hpos, List.replicate_succ, untilZero_append_zero, untilZero_eq c.nonzero]
  have hfits : (untilZero (nameArray c)).length < 128 := huntil ▸ c.short
  exact CString.ext (((CString.val_stored _ _).mpr hfits).trans huntil)

@[simp] theorem readName_bind {α : Type} (c : Name) (s : List Byte) (f : Name → Reader α) :
    (readName >>= f).run (nameArray c ++ s) = (f c).run s := by
  have hread := readBytes_append ⟨nameArray c, length_nameArray c⟩ s
  rw [readName, bind_assoc, run_bind_of _ hread, pure_bind, stored_nameArray]

theorem deHeader_bind {α : Type} (h : Header) (s : List Byte) (f : Header → Reader α) :
    (deHeader >>= f).run (serHeader h ++ s) = (f h).run s := by
  refine run_bind_of f ?_
  simp only [serHeader, List.append_assoc, deHeader, readBytes_bind, readName_bind, getU32_bind, getI64_bind]
  rfl

theorem deAttested_serAttested (a : Attested) (s : List Byte) :
    deAttested.run (serAttested a ++ s) = some (a, s) := by
  simp only [serAttested, List.append_assoc, deAttested, deHeader_bind, readBytes_bind]
  rfl

theorem length_serAttested (a : Attested) : (serAttested a).length = attWireLen := by
  simp only [serAttested, serHeader, List.length_append, length_putBe, length_nameArray, Bytes.length_eq]
  rfl

end Wire

section Authority

variable {ι : Type}

structure Answer (ι : Type) where
  member : ι
  nonce : JoinNonce
  header : Header

def Answer.data (a : Answer ι) : List Byte :=
  buildAttestationData a.header.groupId a.header.ownerId a.header.ownerSignKey a.header.version a.nonce

def authority (h : Header) : Hash × PeerId × PublicKey := (h.groupId, h.ownerId, h.ownerSignKey)

def voted (v : JoinVote) : Hash × PeerId × PublicKey := (v.groupId, v.ownerId, v.ownerSignKey)

theorem headersAgreeOnAuthority_iff {p q : Header} :
    headersAgreeOnAuthority p q = true ↔ authority p = authority q := by
  simp [headersAgreeOnAuthority, authority]

theorem length_data (a : Answer ι) : a.data.length = 2788 := by
  simp only [Answer.data, buildAttestationData, List.length_append, Bytes.length_eq, length_toLe]

theorem data_inj {a b : Answer ι} (h : a.data = b.data) :
    authority a.header = authority b.header ∧ a.header.version = b.header.version ∧ a.nonce = b.nonce := by
  obtain ⟨h, hnonce⟩ := List.append_inj' h (by rw [a.nonce.length_eq, b.nonce.length_eq])
  obtain ⟨h, hversion⟩ := List.append_inj' h (by rw [length_toLe, length_toLe])
  obtain ⟨h, hkey⟩ := List.append_inj' h (by rw [Bytes.length_eq, Bytes.length_eq])
  obtain ⟨hgroup, howner⟩ := List.append_inj' h (by rw [Bytes.length_eq, Bytes.length_eq])
  refine ⟨?_, toLe_inj (by decide) hversion, Bytes.ext hnonce⟩
  rw [authority, authority, Bytes.ext hgroup, Bytes.ext howner, Bytes.ext hkey]

end Authority

section Messages

variable (dsa : MlDsa)

/-- `gr_join_export_header_attestation` -/
def joinExportHeaderAttestation (reg : Registrar) (self : Identity) (joinerNonce : JoinNonce) :
    Except GrError (Header × Signature) :=
  match dsa.sign self.secretKey (buildAttestationData reg.header.groupId reg.header.ownerId reg.header.ownerSignKey
      reg.header.version joinerNonce) with
  | some signature => .ok (reg.header, signature)
  | none => .error .crypto

/-- The message that `attest_respond` sends, where there is memory for it. -/
def attestRespond (granted : Bool) (reg : Registrar) (self : Identity) (joinerNonce : JoinNonce) :
    Option (List Byte) :=
  match joinExportHeaderAttestation dsa reg self joinerNonce with
  | .error _ => none
  | .ok (header, signature) =>
    if granted then some (serAttested ⟨header, self.peerId, self.publicKey, signature⟩) else none

inductive ClientEvent
  | verified
  | verificationFailed
  deriving DecidableEq

def ClientEvent.ofState : JoinState → Option ClientEvent
  | .verified => some verified
  | .failed => some verificationFailed
  | _ => none

def attestProcess (reg : Registrar) (data : List Byte) (now : I64) (js : Option JoinVerify) :
    Option JoinVerify × Option ClientEvent :=
  if data.length < attWireLen then (js, none)
  else
    match deAttested.run data with
    | none => (js, none)
    | some (a, _) =>
      match joinSubmitPeerHeader dsa.verify reg a.header a.peerId a.signKey a.signature now js with
      | (.error _, js) => (js, none)
      | (.ok _, js) => ((joinEvaluate reg js).2, ClientEvent.ofState (joinEvaluate reg js).1.state)

variable {dsa} {reg : Registrar} {data : List Byte} {now : I64}

theorem attestRespond_signed {self : Identity} {nonce : JoinNonce} {signature : Signature}
    (h : dsa.sign self.secretKey (buildAttestationData reg.header.groupId reg.header.ownerId reg.header.ownerSignKey
      reg.header.version nonce) = some signature) :
    attestRespond dsa true reg self nonce =
      some (serAttested ⟨reg.header, self.peerId, self.publicKey, signature⟩) := by
  unfold attestRespond joinExportHeaderAttestation
  rw [h]
  rfl

variable (dsa reg data now) in
theorem attestProcess_cases (js : Option JoinVerify) :
    attestProcess dsa reg data now js = (js, none) ∨
      ∃ a rest js₀, deAttested.run data = some (a, rest) ∧ js = some js₀ ∧
        js₀.refuses dsa.verify reg a.header a.peerId a.signKey a.signature = none ∧
        attestProcess dsa reg data now js =
          (some ((js₀.record (JoinVote.make reg a.header a.peerId now)).judged reg),
            ClientEvent.ofState ((js₀.record (JoinVote.make reg a.header a.peerId now)).judged reg).state) := by
  unfold attestProcess
  split
  · exact .inl rfl
  cases hread : deAttested.run data with
  | none => exact .inl rfl
  | some r =>
    obtain ⟨a, rest⟩ := r
    cases js with
    | none => exact .inl rfl
    | some js =>
      dsimp only
      cases hrefuse : js.refuses dsa.verify reg a.header a.peerId a.signKey a.signature with
      | some e =>
        refine .inl ?_
        rw [joinSubmitPeerHeader, hrefuse]
      | none =>
        refine .inr ⟨a, rest, js, rfl, rfl, hrefuse, ?_⟩
        have hstate : (js.record (JoinVote.make reg a.header a.peerId now)).state = .provisional :=
          (js.record_eq _).2.2.2.1.trans (JoinVerify.accepts now hrefuse).1
        rw [joinSubmitPeerHeader, hrefuse]
        dsimp only
        rw [joinEvaluate, if_neg (not_not.mpr hstate)]
        rfl

end Messages

section Completion

variable {dsa : MlDsa} {reg : Registrar} {js : JoinVerify} {told : List ClientEvent}

def receiveAll (dsa : MlDsa) (reg : Registrar) (st : Option JoinVerify × List ClientEvent)
    (msgs : List (List Byte × I64)) : Option JoinVerify × List ClientEvent :=
  msgs.foldl (fun st m => ((attestProcess dsa reg m.1 m.2 st.1).1,
    st.2 ++ (attestProcess dsa reg m.1 m.2 st.1).2.toList)) st

/-- A member whose answer the joiner counts, and who knows the same owner. -/
structure Answers (dsa : MlDsa) (reg : Registrar) (js : JoinVerify) (x : Identity × Registrar) (data : List Byte) :
    Prop where
  message : attestRespond dsa true x.2 x.1 js.nonce = some data
  known : ∃ peer, reg.peers.find? x.1.peerId = some peer ∧ peer.status = PeerStatus.active ∧
    peer.signKey = x.1.publicKey
  inviter : x.1.peerId ≠ js.inviterPeerId
  pair : dsa.Pair x.1.secretKey x.1.publicKey
  agrees : authority x.2.header = authority reg.header

structure Tallied (js : JoinVerify) : Prop where
  state : js.state = .provisional
  distinct : (js.votes.map JoinVote.peerId).Nodup
  agreed : js.agreeCount = js.votes.length
  dissent : js.disagreeCount = 0
  short : js.votes.length < js.requiredAttestations
  few : js.requiredAttestations ≤ joinMaxTrackedPeers

theorem Answers.congr {js' : JoinVerify} {x : Identity × Registrar} {data : List Byte} (h : Answers dsa reg js x data)
    (hnonce : js'.nonce = js.nonce) (hinviter : js'.inviterPeerId = js.inviterPeerId) :
    Answers dsa reg js' x data where
  message := hnonce ▸ h.message
  known := h.known
  inviter := hinviter ▸ h.inviter
  pair := h.pair
  agrees := h.agrees

theorem attestProcess_done (hdone : js.state ≠ .provisional) (data : List Byte) (now : I64) :
    attestProcess dsa reg data now (some js) = (some js, none) := by
  cases attestProcess_cases dsa reg data now (some js) with
  | inl hsame => exact hsame
  | inr hvote =>
    obtain ⟨a, rest, js', -, hjs, hok, -⟩ := hvote
    obtain rfl := Option.some.inj hjs
    exact absurd (JoinVerify.accepts now hok).1 hdone

theorem receiveAll_done (hdone : js.state ≠ .provisional) (msgs : List (List Byte × I64)) :
    receiveAll dsa reg (some js, told) msgs = (some js, told) := by
  induction msgs with
  | nil => rfl
  | cons m msgs ih =>
    unfold receiveAll at ih ⊢
    rw [List.foldl_cons, attestProcess_done hdone]
    simpa using ih

variable {x : Identity × Registrar} {data : List Byte} {now : I64}

theorem Answers.refuses (h : Answers dsa reg js x data) (ht : Tallied js) :
    ∃ signature, deAttested.run data = some (⟨x.2.header, x.1.peerId, x.1.publicKey, signature⟩, []) ∧
      data.length = attWireLen ∧
      js.refuses dsa.verify reg x.2.header x.1.peerId x.1.publicKey signature =
        if js.hasVoted x.1.peerId then some .alreadyExists else none := by
  obtain ⟨peer, hpeer, hactive, hkey⟩ := h.known
  have hmessage := h.message
  unfold attestRespond joinExportHeaderAttestation at hmessage
  cases hsign : dsa.sign x.1.secretKey (buildAttestationData x.2.header.groupId x.2.header.ownerId
      x.2.header.ownerSignKey x.2.header.version js.nonce) with
  | none =>
    rw [hsign] at hmessage
    cases hmessage
  | some signature =>
    rw [hsign] at hmessage
    obtain rfl := Option.some.inj hmessage
    have hread := deAttested_serAttested ⟨x.2.header, x.1.peerId, x.1.publicKey, signature⟩ []
    rw [List.append_nil] at hread
    refine ⟨signature, hread, length_serAttested _, ?_⟩
    have hroom : ¬ joinMaxTrackedPeers ≤ js.votes.length := Nat.not_le.mpr (ht.short.trans_le ht.few)
    rw [JoinVerify.refuses, if_neg (not_not.mpr ht.state), if_neg h.inviter, hpeer]
    dsimp only
    rw [if_neg (not_not.mpr hactive), if_neg (not_not.mpr hkey), if_neg (not_not.mpr (h.pair _ _ hsign)), if_neg hroom]

theorem Answers.again (h : Answers dsa reg js x data) (ht : Tallied js) (hvoted : js.hasVoted x.1.peerId = true) :
    attestProcess dsa reg data now (some js) = (some js, none) := by
  obtain ⟨signature, hread, hlen, hrefuse⟩ := h.refuses ht
  rw [attestProcess, if_neg (Nat.not_lt.mpr hlen.ge), hread]
  dsimp only
  rw [joinSubmitPeerHeader, hrefuse, if_pos hvoted]

theorem judged_agreed (hdissent : js.disagreeCount = 0) (reg : Registrar) :
    js.judged reg = if js.requiredAttestations ≤ js.agreeCount then { js with state := .verified } else js := by
  rw [JoinVerify.judged, if_neg (fun hd => absurd hd.1 (Nat.not_lt.mpr hdissent.le))]
  by_cases henough : js.requiredAttestations ≤ js.agreeCount
  · rw [if_pos ⟨henough, hdissent⟩, if_pos henough]
  · rw [if_neg (fun hboth => henough hboth.1), if_neg henough]

theorem Answers.first (h : Answers dsa reg js x data) (now : I64) (ht : Tallied js) (hvoted : js.hasVoted x.1.peerId = false) :
    ∃ js', js'.votes.map JoinVote.peerId = js.votes.map JoinVote.peerId ++ [x.1.peerId] ∧
      js'.requiredAttestations = js.requiredAttestations ∧ js'.nonce = js.nonce ∧
      js'.inviterPeerId = js.inviterPeerId ∧
      if js.requiredAttestations ≤ js.votes.length + 1 then
        js'.state = .verified ∧ attestProcess dsa reg data now (some js) = (some js', some .verified)
      else Tallied js' ∧ attestProcess dsa reg data now (some js) = (some js', none) := by
  obtain ⟨signature, hread, hlen, hrefuse⟩ := h.refuses ht
  rw [hvoted, if_neg Bool.false_ne_true] at hrefuse
  have hagrees : (JoinVote.make reg x.2.header x.1.peerId now).agrees = true :=
    headersAgreeOnAuthority_iff.mpr h.agrees.symm
  obtain ⟨hvotes, hnonce, hinviter, hstate, hrequired⟩ := js.record_eq (JoinVote.make reg x.2.header x.1.peerId now)
  obtain ⟨hagree, hcount⟩ := js.record_counts (JoinVote.make reg x.2.header x.1.peerId now)
  rw [hagrees, if_pos rfl, ht.agreed] at hagree
  rw [hagree, ht.agreed, ht.dissent] at hcount
  have hids := congrArg (List.map JoinVote.peerId) hvotes
  rw [List.map_append] at hids
  have hprocess : attestProcess dsa reg data now (some js) =
      (some ((js.record (JoinVote.make reg x.2.header x.1.peerId now)).judged reg),
        ClientEvent.ofState ((js.record (JoinVote.make reg x.2.header x.1.peerId now)).judged reg).state) := by
    rw [attestProcess, if_neg (Nat.not_lt.mpr hlen.ge), hread]
    dsimp only
    rw [joinSubmitPeerHeader, hrefuse]
    dsimp only
    rw [joinEvaluate, if_neg (not_not.mpr (hstate.trans ht.state))]
    rfl
  generalize js.record (JoinVote.make reg x.2.header x.1.peerId now) = js₁ at *
  have hdissent : js₁.disagreeCount = 0 := by omega
  have henough : js₁.requiredAttestations ≤ js₁.agreeCount ↔ js.requiredAttestations ≤ js.votes.length + 1 := by
    rw [hrequired, hagree]
  refine ⟨js₁.judged reg, ?_⟩
  rw [hprocess, judged_agreed hdissent]
  by_cases hquorum : js.requiredAttestations ≤ js.votes.length + 1
  · rw [if_pos (henough.mpr hquorum), if_pos hquorum]
    exact ⟨hids, hrequired, hnonce, hinviter, rfl, rfl⟩
  · rw [if_neg (henough.not.mpr hquorum), if_neg hquorum]
    have hnot : x.1.peerId ∉ js.votes.map JoinVote.peerId := by
      simpa [JoinVerify.hasVoted] using hvoted
    have hlength : js₁.votes.length = js.votes.length + 1 := by
      rw [hvotes, List.length_append]
      rfl
    refine ⟨hids, hrequired, hnonce, hinviter,
      ⟨hstate.trans ht.state, ?_, hagree.trans hlength.symm, hdissent, ?_, ?_⟩, ?_⟩
    · rw [hids, List.nodup_append]
      refine ⟨ht.distinct, List.nodup_singleton _, fun a ha b hb heq => hnot ?_⟩
      obtain rfl := List.mem_singleton.mp hb
      have hsame : a = x.1.peerId := heq
      exact hsame ▸ ha
    · rw [hlength, hrequired]
      exact Nat.not_le.mp hquorum
    · rw [hrequired]
      exact ht.few
    · rw [hstate, ht.state]
      rfl

theorem receiveAll_answers (xs : List ((Identity × Registrar) × List Byte × I64)) (ht : Tallied js)
    (hanswers : ∀ y ∈ xs, Answers dsa reg js y.1 y.2.1) :
    ∃ js', receiveAll dsa reg (some js, told) (xs.map Prod.snd) = (some js',
        if js.requiredAttestations ≤ (js.votes.map JoinVote.peerId ++ xs.map fun y => y.1.1.peerId).toFinset.card
        then told ++ [.verified] else told) ∧
      js'.state =
        if js.requiredAttestations ≤ (js.votes.map JoinVote.peerId ++ xs.map fun y => y.1.1.peerId).toFinset.card
        then .verified else .provisional := by
  induction xs generalizing js with
  | nil =>
    have hcard : (js.votes.map JoinVote.peerId ++ []).toFinset.card = js.votes.length := by
      rw [List.append_nil, List.toFinset_card_of_nodup ht.distinct, List.length_map]
    refine ⟨js, ?_, ?_⟩
    · rw [List.map_nil, List.map_nil, hcard, if_neg (Nat.not_le.mpr ht.short)]
      rfl
    · rw [List.map_nil, hcard, if_neg (Nat.not_le.mpr ht.short), ht.state]
  | cons y xs ih =>
    have hy := hanswers y List.mem_cons_self
    have hxs : ∀ z ∈ xs, Answers dsa reg js z.1 z.2.1 := fun z hz => hanswers z (List.mem_cons_of_mem _ hz)
    cases hvoted : js.hasVoted y.1.1.peerId with
    | true =>
      have hmem : y.1.1.peerId ∈ js.votes.map JoinVote.peerId := by
        simpa [JoinVerify.hasVoted] using hvoted
      have hsame : (js.votes.map JoinVote.peerId ++ (y :: xs).map fun y => y.1.1.peerId).toFinset =
          (js.votes.map JoinVote.peerId ++ xs.map fun y => y.1.1.peerId).toFinset := by
        ext id
        simp only [List.mem_toFinset, List.mem_append, List.map_cons, List.mem_cons]
        constructor
        · rintro (h | rfl | h)
          · exact .inl h
          · exact .inl hmem
          · exact .inr h
        · rintro (h | h)
          · exact .inl h
          · exact .inr (.inr h)
      obtain ⟨js', hrun, hstate⟩ := ih ht hxs
      refine ⟨js', ?_, ?_⟩
      · rw [hsame, ← hrun, List.map_cons]
        unfold receiveAll
        rw [List.foldl_cons, hy.again ht hvoted, Option.toList_none, List.append_nil]
      · rw [hsame, hstate]
    | false =>
      have hnot : y.1.1.peerId ∉ js.votes.map JoinVote.peerId := by
        simpa [JoinVerify.hasVoted] using hvoted
      obtain ⟨js₁, hids, hrequired, hnonce, hinviter, hprocess⟩ := hy.first y.2.2 ht hvoted
      have hall : js.votes.map JoinVote.peerId ++ (y :: xs).map (fun y => y.1.1.peerId) =
          js₁.votes.map JoinVote.peerId ++ xs.map fun y => y.1.1.peerId := by
        rw [hids, List.append_assoc]
        rfl
      by_cases hquorum : js.requiredAttestations ≤ js.votes.length + 1
      · rw [if_pos hquorum] at hprocess
        have hmore : js.requiredAttestations ≤
            (js.votes.map JoinVote.peerId ++ (y :: xs).map fun y => y.1.1.peerId).toFinset.card := by
          have hnodup : (y.1.1.peerId :: js.votes.map JoinVote.peerId).Nodup := List.nodup_cons.mpr ⟨hnot, ht.distinct⟩
          have hcard := List.toFinset_card_of_nodup hnodup
          rw [List.length_cons, List.length_map] at hcard
          refine hquorum.trans (hcard.symm.le.trans (Finset.card_le_card fun id hid => ?_))
          rw [List.mem_toFinset] at hid ⊢
          rw [List.map_cons]
          cases List.mem_cons.mp hid with
          | inl heq => exact List.mem_append_right _ (heq ▸ List.mem_cons_self)
          | inr hmem => exact List.mem_append_left _ hmem
        refine ⟨js₁, ?_, ?_⟩
        · have hdone : js₁.state ≠ .provisional := by
            rw [hprocess.1]
            exact JoinState.noConfusion
          rw [if_pos hmore, List.map_cons]
          have hrest : receiveAll dsa reg (some js₁, told ++ [.verified]) (xs.map Prod.snd) = _ :=
            receiveAll_done hdone _
          unfold receiveAll at hrest ⊢
          rw [List.foldl_cons, hprocess.2]
          exact hrest
        · rw [if_pos hmore, hprocess.1]
      · rw [if_neg hquorum] at hprocess
        obtain ⟨js', hrun, hstate⟩ := ih hprocess.1 fun z hz => (hxs z hz).congr hnonce hinviter
        rw [hall, ← hrequired]
        refine ⟨js', ?_, hstate⟩
        rw [← hrun, List.map_cons]
        unfold receiveAll
        rw [List.foldl_cons, hprocess.2, Option.toList_none, List.append_nil]

variable {crypto : Crypto} {ticket : InviteTicket} {nonce : Option JoinNonce}

/-- `gr_join_list_unattested_peers`: the active peers that may still attest, in the order of the table. -/
def joinListUnattestedPeers (granted : Bool) (reg : Registrar) (maxCount : ℕ) :
    Option JoinVerify → Except GrError (List PeerId)
  | none => .error .invalidParam
  | some js =>
    if js.state ≠ .provisional then .error .invalidParam
    else
      let total := peerCount reg PeerStatus.active
      if total = 0 then .ok []
      else if granted = false then .error .outOfMemory
      else
        let all := (reg.peers.rows.filter fun p => p.status = PeerStatus.active).take total.toNat
        let asked := all.filter fun p => ¬ (p.peerId = js.inviterPeerId ∨ js.hasVoted p.peerId)
        .ok ((asked.map Peer.peerId).take maxCount)

theorem joinMinQuorum_le (n : BitVec 32) : joinMinQuorum ≤ computeQuorum n := by
  unfold computeQuorum
  split
  · exact Nat.le_refl _
  · exact Nat.le_min.mpr ⟨by decide, Nat.le_max_left _ _⟩

theorem computeQuorum_le_max (n : BitVec 32) : computeQuorum n ≤ joinMaxTrackedPeers := by
  unfold computeQuorum
  split
  · decide
  · exact (Nat.min_le_left _ _).trans (by decide)

theorem tallied_begin (hrun : (joinBegin crypto reg ticket nonce now none).2 = some js)
    (hstate : js.state = .provisional) : Tallied js ∧
      js.requiredAttestations ≤ (peerCount reg PeerStatus.active).toNat - 2 := by
  obtain ⟨hvotes, hagree, hdisagree, hfailed | ⟨-, hsize⟩⟩ := joinBegin_cases hrun
  · rw [hstate] at hfailed
    cases hfailed
  split at hsize
  · rw [hstate] at hsize
    cases hsize.1
  next hlarge =>
  refine ⟨⟨hstate, ?_, ?_, hdisagree, ?_, ?_⟩, ?_⟩
  · rw [hvotes]
    exact List.nodup_nil
  · rw [hvotes]
    exact hagree
  · rw [hvotes, hsize.1]
    exact Nat.lt_of_lt_of_le (by decide) (joinMinQuorum_le _)
  · rw [hsize.1]
    exact computeQuorum_le_max _
  · rw [hsize.1]
    exact computeQuorum_le (BitVec.not_lt.mp hlarge)

theorem unattested_eq (ht : Tallied js) (hvotes : js.votes = []) (hsize : reg.peers.rows.length < 2 ^ 31)
    {ids : List PeerId} {maxCount : ℕ} (hmax : reg.peers.rows.length ≤ maxCount)
    (hlist : joinListUnattestedPeers true reg maxCount (some js) = .ok ids) :
    ids.Nodup ∧ (peerCount reg PeerStatus.active).toNat - 1 ≤ ids.length := by
  let active := reg.peers.rows.filter fun p => p.status = PeerStatus.active
  have htotal : (peerCount reg PeerStatus.active).toNat = active.length := by
    have hcount : reg.peers.rows.countP (fun p => p.status = PeerStatus.active) = active.length :=
      List.countP_eq_length_filter
    have hle : active.length ≤ reg.peers.rows.length := List.length_filter_le _ _
    rw [peerCount, hcount, BitVec.toNat_ofNat]
    exact Nat.mod_eq_of_lt (by omega)
  have hdistinct : (active.map Peer.peerId).Nodup := reg.peers.nodup.sublist (List.filter_sublist.map _)
  rw [joinListUnattestedPeers, if_neg (not_not.mpr ht.state)] at hlist
  dsimp only at hlist
  split at hlist
  · next hzero =>
    obtain rfl := Except.ok.inj hlist
    rw [hzero]
    exact ⟨List.nodup_nil, Nat.zero_le _⟩
  have hids := Except.ok.inj hlist
  have hwhole : active.take (peerCount reg PeerStatus.active).toNat = active := List.take_of_length_le htotal.ge
  have hshort : ((active.filter fun p => ¬ (p.peerId = js.inviterPeerId ∨ js.hasVoted p.peerId)).map
      Peer.peerId).length ≤ maxCount := by
    rw [List.length_map]
    exact ((List.length_filter_le _ _).trans (List.length_filter_le _ _)).trans hmax
  rw [hwhole, List.take_of_length_le hshort] at hids
  have hnodup : ids.Nodup := hids ▸ hdistinct.sublist (List.filter_sublist.map _)
  have hset : ids.toFinset = (active.map Peer.peerId).toFinset.erase js.inviterPeerId := by
    ext id
    have hnone : js.hasVoted id = false := by rw [JoinVerify.hasVoted, hvotes, List.any_nil]
    rw [← hids, List.mem_toFinset, Finset.mem_erase, List.mem_toFinset, List.mem_map, List.mem_map]
    constructor
    · rintro ⟨p, hp, rfl⟩
      obtain ⟨hactive, hother⟩ := List.mem_filter.mp hp
      exact ⟨fun heq => of_decide_eq_true hother (.inl heq), p, hactive, rfl⟩
    · rintro ⟨hother, p, hactive, rfl⟩
      refine ⟨p, List.mem_filter.mpr ⟨hactive, decide_eq_true ?_⟩, rfl⟩
      rw [hnone]
      exact fun hor => hor.elim hother Bool.false_ne_true
  refine ⟨hnodup, ?_⟩
  rw [htotal, ← List.toFinset_card_of_nodup hnodup, hset, ← List.length_map Peer.peerId,
    ← List.toFinset_card_of_nodup hdistinct]
  exact Finset.pred_card_le_card_erase

/-- However often and in whatever order the members answer, the join is verified by the answer with which the quorum
is reached, and it is said once. The peers that may attest are enough for it, even if one of them is silent. -/
theorem attestation_completes (hrun : (joinBegin crypto reg ticket nonce now none).2 = some js)
    (hstate : js.state = .provisional) (hsize : reg.peers.rows.length < 2 ^ 31)
    (xs : List ((Identity × Registrar) × List Byte × I64)) (hanswers : ∀ y ∈ xs, Answers dsa reg js y.1 y.2.1) :
    (∃ js', receiveAll dsa reg (some js, told) (xs.map Prod.snd) = (some js',
        if js.requiredAttestations ≤ (xs.map fun y => y.1.1.peerId).toFinset.card then told ++ [.verified] else told) ∧
      js'.state =
        if js.requiredAttestations ≤ (xs.map fun y => y.1.1.peerId).toFinset.card then .verified else .provisional) ∧
      ∀ ids maxCount silent, reg.peers.rows.length ≤ maxCount →
        joinListUnattestedPeers true reg maxCount (some js) = .ok ids →
        (∀ id ∈ ids, id ≠ silent → ∃ y ∈ xs, y.1.1.peerId = id) →
        js.requiredAttestations ≤ (xs.map fun y => y.1.1.peerId).toFinset.card := by
  obtain ⟨ht, hrequired⟩ := tallied_begin hrun hstate
  have hvotes := (joinBegin_cases hrun).1
  refine ⟨?_, fun ids maxCount silent hmax hlist hall => ?_⟩
  · have hall : ∃ js', receiveAll dsa reg (some js, told) (xs.map Prod.snd) = (some js', _) ∧ _ :=
      receiveAll_answers xs ht hanswers
    rwa [hvotes, List.map_nil, List.nil_append] at hall
  · obtain ⟨hnodup, hlength⟩ := unattested_eq ht hvotes hsize hmax hlist
    have hsub : ids.toFinset.erase silent ⊆ (xs.map fun y => y.1.1.peerId).toFinset := by
      intro id hid
      obtain ⟨hne, hmem⟩ := Finset.mem_erase.mp hid
      obtain ⟨y, hy, rfl⟩ := hall id (List.mem_toFinset.mp hmem) hne
      exact List.mem_toFinset.mpr (List.mem_map_of_mem hy)
    have hcard := Finset.pred_card_le_card_erase.trans (Finset.card_le_card hsub)
    rw [List.toFinset_card_of_nodup hnodup] at hcard
    omega

end Completion

section Five

def headHash (l : List Byte) : Hash := Bytes.fill 128 (l.headD 0)

abbrev headCrypto : Crypto := onlySigner headHash (member 1)

def shown (m : List Byte) (key : Byte) (h : m.length = 2788) : Signature :=
  ⟨m ++ (List.replicate 1838 0 ++ [key]), by
    rw [List.length_append, h, List.length_append, List.length_replicate, List.length_singleton]⟩

def shownDsa : MlDsa where
  sign sk m := if h : m.length = 2788 then some (shown m (sk.val.headD 0) h) else none
  verify sig m pk := if h : m.length = 2788 then sig = shown m (pk.val.headD 0) h else false

theorem headD_fill (n : ℕ) (b : Byte) : (Bytes.fill (n + 1) b).val.headD 0 = b := rfl

theorem headD_member (b : Byte) :
    (member b).publicKey.val.headD 0 = b ∧ (member b).secretKey.val.headD 0 = b :=
  ⟨headD_fill 2591 b, headD_fill 4895 b⟩

theorem shownDsa_pair (b : Byte) : shownDsa.Pair (member b).secretKey (member b).publicKey := by
  intro m sig hsig
  unfold shownDsa at hsig ⊢
  dsimp only at hsig ⊢
  rw [(headD_member b).2] at hsig
  rw [(headD_member b).1]
  split at hsig
  · next hlen =>
    rw [dif_pos hlen]
    exact decide_eq_true (Option.some.inj hsig).symm
  · cases hsig

theorem deriveId_member (b : Byte) : deriveId headCrypto (member b).publicKey = (member b).peerId := by
  have hskein : headCrypto.skein (member b).publicKey.val = Bytes.fill 128 b := by
    rw [← (headD_member b).1]
    rfl
  refine Bytes.ext ?_
  dsimp only [deriveId]
  rw [hskein]
  exact List.take_replicate ..

def fiveGroup : Registrar :=
  { founded headCrypto (ascii "five") groupPrivate (member 1) (zeroBytes 128) 1 with
    peers :=
      { rows := [1, 2, 3, 4, 5].map fun b => ownerPeer (member b) 1
        nodup := by
          rw [List.map_map]
          exact List.Nodup.map (fun _ _ h => peerId_inj.mp h) (by decide : [(1 : Byte), 2, 3, 4, 5].Nodup) } }

def fiveTicket : InviteTicket where
  groupId := fiveGroup.header.groupId
  groupName := fiveGroup.header.groupName
  groupType := fiveGroup.header.groupType
  ownerSignKey := fiveGroup.header.ownerSignKey
  registrarHash := fiveGroup.header.hash
  verificationToken := zeroBytes 128
  inviterSignPk := (member 1).publicKey
  inviterKemPk := (member 1).kemPk
  expiresAt := 0

def fiveJoin : JoinVerify :=
  { JoinVerify.opened fiveTicket (zeroBytes 32) 7 with
    inviterPeerId := (member 1).peerId, requiredAttestations := 3 }

theorem computeQuorum_five : computeQuorum 5 = 3 := by
  have hroot : ceilSqrt (5 - 2 : BitVec 32).toNat ≤ 3 := ceilSqrt_le (by decide)
  have hmax : max joinMinQuorum (ceilSqrt (5 - 2 : BitVec 32).toNat) = joinMinQuorum := Nat.max_eq_left hroot
  rw [computeQuorum, if_neg (by decide), hmax]
  rfl

theorem peerCount_fiveGroup : peerCount fiveGroup PeerStatus.active = 5 := rfl

theorem inviterAuthorized_fiveGroup : inviterAuthorized fiveGroup (member 1).peerId = true := rfl

theorem fiveJoin_begins :
    (joinBegin headCrypto fiveGroup fiveTicket (some (zeroBytes 32)) 7 none).2 = some fiveJoin := by
  have hmatch : (JoinVerify.opened fiveTicket (zeroBytes 32) 7).ticketMatchesHeader fiveGroup.header = true :=
    decide_eq_true ⟨rfl, rfl⟩
  unfold joinBegin
  dsimp only
  rw [Option.isSome_none, if_neg Bool.false_ne_true, if_neg (not_not.mpr hmatch)]
  have hinviter : deriveId headCrypto fiveTicket.inviterSignPk = (member 1).peerId := deriveId_member 1
  rw [hinviter, if_neg (not_not.mpr inviterAuthorized_fiveGroup), JoinVerify.started, peerCount_fiveGroup,
    if_neg (by decide), computeQuorum_five]
  rfl

def fiveAnswer (b : Byte) : Answer Byte := ⟨b, zeroBytes 32, fiveGroup.header⟩

def fiveSignature (b : Byte) : Signature := shown (fiveAnswer b).data b (length_data _)

def fiveAttested (b : Byte) : Attested := ⟨fiveGroup.header, (member b).peerId, (member b).publicKey, fiveSignature b⟩

def fiveMessages : List ((Identity × Registrar) × List Byte × I64) :=
  [2, 3, 4].map fun b => ((member b, fiveGroup), serAttested (fiveAttested b), 8)

theorem fiveMessages_answer : ∀ y ∈ fiveMessages, Answers shownDsa fiveGroup fiveJoin y.1 y.2.1 := by
  intro y hy
  obtain ⟨b, hb, rfl⟩ := List.mem_map.mp hy
  refine ⟨?_, ⟨ownerPeer (member b) 1, ?_, rfl, rfl⟩, ?_, shownDsa_pair b, rfl⟩
  · have hsign : shownDsa.sign (member b).secretKey (fiveAnswer b).data = some (fiveSignature b) := by
      unfold shownDsa fiveSignature
      dsimp only
      rw [dif_pos (length_data _), (headD_member b).2]
    exact attestRespond_signed hsign
  · have hrow : ownerPeer (member b) 1 ∈ fiveGroup.peers.rows := by
      refine List.mem_map_of_mem ?_
      exact List.mem_cons_of_mem _ (List.mem_append_left [5] hb)
    exact Keyed.Table.find?_of_mem hrow
  · intro heq
    have hone : b = 1 := peerId_inj.mp (heq.trans rfl : (member b).peerId = (member 1).peerId)
    rw [hone] at hb
    exact absurd hb (by decide)

theorem fiveMessages_enough :
    fiveJoin.requiredAttestations ≤ (fiveMessages.map fun y => y.1.1.peerId).toFinset.card := by
  have hids : (fiveMessages.map fun y => y.1.1.peerId) = [2, 3, 4].map fun b => (member b).peerId := rfl
  have hnodup : ([2, 3, 4].map fun b => (member b).peerId).Nodup :=
    List.Nodup.map (fun _ _ h => peerId_inj.mp h) (by decide : [(2 : Byte), 3, 4].Nodup)
  rw [hids, List.toFinset_card_of_nodup hnodup]
  exact Nat.le_refl 3

theorem attestation_completes_five :
    ∃ js', receiveAll shownDsa fiveGroup (some fiveJoin, []) (fiveMessages.map Prod.snd) = (some js', [.verified]) ∧
      js'.state = .verified := by
  have h : ∃ js', receiveAll shownDsa fiveGroup (some fiveJoin, []) (fiveMessages.map Prod.snd) = (some js', _) ∧ _ :=
    (attestation_completes fiveJoin_begins rfl (by decide : 5 < 2 ^ 31) fiveMessages fiveMessages_answer).1
  rwa [if_pos fiveMessages_enough, if_pos fiveMessages_enough] at h

end Five

end YumiBrowser.Client.Attest
