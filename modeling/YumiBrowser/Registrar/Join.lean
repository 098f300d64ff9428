import Mathlib.Data.List.Nodup
import Mathlib.Data.Nat.Sqrt
import YumiBrowser.Library.System
import YumiBrowser.Registrar.Mutators

namespace YumiBrowser.Group

open Wire Keyed Transition

abbrev JoinNonce := Bytes 32

inductive JoinState
  | none
  | provisional
  | verified
  | failed
  deriving DecidableEq

structure InviteTicket where
  groupId : Hash
  groupName : Name
  groupType : BitVec 32
  ownerSignKey : PublicKey
  registrarHash : Hash
  verificationToken : Hash
  inviterSignPk : PublicKey
  inviterKemPk : KemPublicKey
  expiresAt : I64

structure JoinVote where
  peerId : PeerId
  ownerId : PeerId
  ownerSignKey : PublicKey
  groupId : Hash
  registrarHash : Hash
  version : BitVec 32
  receivedAt : I64
  agrees : Bool

structure JoinResult where
  state : JoinState
  startedAt : I64
  peersChecked : ℕ
  peersAgreed : ℕ
  peersDisagreed : ℕ
  requiredAttestations : ℕ
  provisionalOwnerId : PeerId
  provisionalOwnerKey : PublicKey
  dissentPeerId : PeerId
  dissentOwnerId : PeerId
  dissentOwnerKey : PublicKey
  smallGroupBypass : Bool
  userOverride : Bool

/-- `gr_join_verify_state_t`; `vote_count` is the length of `votes`. -/
structure JoinVerify where
  state : JoinState
  startedAt : I64
  nonce : JoinNonce
  inviterPeerId : PeerId
  requiredAttestations : ℕ
  ticketOwnerKey : PublicKey
  ticketGroupId : Hash
  ticketRegistrarHash : Hash
  votes : List JoinVote
  agreeCount : ℕ
  disagreeCount : ℕ
  hasDissent : Bool
  dissentCallbackFired : Bool
  dissentPeerId : PeerId
  dissentOwnerId : PeerId
  dissentOwnerKey : PublicKey
  smallGroupBypass : Bool
  userOverride : Bool
  dissentCallback : Option (JoinResult → Bool)

def joinMinQuorum : ℕ := 3
def joinMaxQuorum : ℕ := 10
def joinMaxTrackedPeers : ℕ := 64
def joinSmallGroupThreshold : BitVec 32 := 5

def joinIsUntrusted : Option JoinVerify → Bool
  | none => false
  | some js => js.state ≠ .verified

/-- `gr_peer_count` with a status, as the caller gets it. -/
def peerCount (reg : Registrar) (status : PeerStatus) : BitVec 32 :=
  BitVec.ofNat 32 (reg.peers.rows.countP fun p => p.status = status)

-- `ceil(sqrt(n))` in doubles is exact: the root of a 32-bit integer that is no square is far from one.
def ceilSqrt (n : ℕ) : ℕ := if n.sqrt * n.sqrt = n then n.sqrt else n.sqrt + 1

def computeQuorum (activePeers : BitVec 32) : ℕ :=
  if activePeers ≤ 2 then joinMinQuorum
  else min joinMaxQuorum (max joinMinQuorum (ceilSqrt (activePeers - 2).toNat))

def JoinVerify.hasVoted (js : JoinVerify) (peerId : PeerId) : Bool :=
  js.votes.any fun v => v.peerId = peerId

def headersAgreeOnAuthority (provisional peerHeader : Header) : Bool :=
  provisional.groupId = peerHeader.groupId ∧ provisional.ownerId = peerHeader.ownerId ∧
    provisional.ownerSignKey = peerHeader.ownerSignKey

def JoinVerify.ticketMatchesHeader (js : JoinVerify) (header : Header) : Bool :=
  js.ticketGroupId = header.groupId ∧ js.ticketOwnerKey = header.ownerSignKey

def buildAttestationData (groupId : Hash) (ownerId : PeerId) (ownerSignKey : PublicKey)
    (version : BitVec 32) (nonce : JoinNonce) : List Byte :=
  groupId.val ++ ownerId.val ++ ownerSignKey.val ++ writeU32 version ++ nonce.val

/-- The state `gr_join_begin` allocates, before its checks. -/
def JoinVerify.opened (ticket : InviteTicket) (nonce : JoinNonce) (now : I64) : JoinVerify where
  state := .provisional
  startedAt := now
  nonce := nonce
  inviterPeerId := zeroBytes 32
  requiredAttestations := 0
  ticketOwnerKey := ticket.ownerSignKey
  ticketGroupId := ticket.groupId
  ticketRegistrarHash := ticket.registrarHash
  votes := []
  agreeCount := 0
  disagreeCount := 0
  hasDissent := false
  dissentCallbackFired := false
  dissentPeerId := zeroBytes 32
  dissentOwnerId := zeroBytes 32
  dissentOwnerKey := zeroBytes 2592
  smallGroupBypass := false
  userOverride := false
  dissentCallback := none

def JoinVerify.fail (js : JoinVerify) : JoinVerify := { js with state := .failed }

def inviterAuthorized (reg : Registrar) (inviter : PeerId) : Bool :=
  match reg.peers.find? inviter with
  | none => false
  | some peer =>
    peer.status = PeerStatus.active ∧ getPeerPermissions reg inviter &&& Perm.inviteMember ≠ 0

/-- The last part of `gr_join_begin`: small groups skip the attestations. -/
def JoinVerify.started (js : JoinVerify) (activeCount : BitVec 32) : JoinVerify :=
  if activeCount < joinSmallGroupThreshold then
    { js with state := .verified, smallGroupBypass := true, requiredAttestations := 0 }
  else { js with requiredAttestations := computeQuorum activeCount }

def joinBegin (crypto : Crypto) (reg : Registrar) (ticket : InviteTicket)
    (nonce : Option JoinNonce) (now : I64) (js : Option JoinVerify) :
    Except GrError Unit × Option JoinVerify :=
  if js.isSome then (.error .alreadyExists, js)
  else
    match nonce with
    | none => (.error .crypto, js)
    | some nonce =>
      let js := JoinVerify.opened ticket nonce now
      if ¬ js.ticketMatchesHeader reg.header then (.error .joinFailed, some js.fail)
      else
        let js := { js with inviterPeerId := deriveId crypto ticket.inviterSignPk }
        if ¬ inviterAuthorized reg js.inviterPeerId then (.error .joinFailed, some js.fail)
        else (.ok (), some (js.started (peerCount reg PeerStatus.active)))

def joinSetDissentCallback (callback : Option (JoinResult → Bool)) :
    Option JoinVerify → Except GrError Unit × Option JoinVerify
  | none => (.error .invalidParam, none)
  | some js => (.ok (), some { js with dissentCallback := callback })

def JoinVote.make (reg : Registrar) (peerHeader : Header) (peerId : PeerId) (now : I64) :
    JoinVote where
  peerId := peerId
  ownerId := peerHeader.ownerId
  ownerSignKey := peerHeader.ownerSignKey
  groupId := peerHeader.groupId
  registrarHash := peerHeader.hash
  version := peerHeader.version
  receivedAt := now
  agrees := headersAgreeOnAuthority reg.header peerHeader

def JoinVerify.record (js : JoinVerify) (vote : JoinVote) : JoinVerify :=
  if vote.agrees then
    { js with votes := js.votes ++ [vote], agreeCount := js.agreeCount + 1 }
  else if js.hasDissent then
    { js with votes := js.votes ++ [vote], disagreeCount := js.disagreeCount + 1 }
  else
    { js with
      votes := js.votes ++ [vote]
      disagreeCount := js.disagreeCount + 1
      hasDissent := true
      dissentPeerId := vote.peerId
      dissentOwnerId := vote.ownerId
      dissentOwnerKey := vote.ownerSignKey }

section Attestation

-- ML-DSA verification over a message of any length.
variable (verify : Signature → List Byte → PublicKey → Bool)

/-- What `gr_join_submit_peer_header` checks, in its order. -/
def JoinVerify.refuses (js : JoinVerify) (reg : Registrar) (peerHeader : Header) (peerId : PeerId)
    (peerPk : PublicKey) (signature : Signature) : Option GrError :=
  if js.state ≠ .provisional then some .invalidParam
  else if peerId = js.inviterPeerId then some .joinInviterExcluded
  else if js.hasVoted peerId then some .alreadyExists
  else
    match reg.peers.find? peerId with
    | none => some .notFound
    | some peer =>
      if peer.status ≠ PeerStatus.active then some .notFound
      else if peer.signKey ≠ peerPk then some .signatureInvalid
      else if ¬ verify signature (buildAttestationData peerHeader.groupId peerHeader.ownerId
          peerHeader.ownerSignKey peerHeader.version js.nonce) peerPk then some .signatureInvalid
      else if joinMaxTrackedPeers ≤ js.votes.length then some .sizeExceeded
      else none

def joinSubmitPeerHeader (reg : Registrar) (peerHeader : Header) (peerId : PeerId)
    (peerPk : PublicKey) (signature : Signature) (now : I64) :
    Option JoinVerify → Except GrError Unit × Option JoinVerify
  | none => (.error .invalidParam, none)
  | some js =>
    match js.refuses verify reg peerHeader peerId peerPk signature with
    | some e => (.error e, some js)
    | none => (.ok (), some (js.record (JoinVote.make reg peerHeader peerId now)))

def JoinVerify.result (js : JoinVerify) : JoinResult where
  state := js.state
  startedAt := js.startedAt
  peersChecked := js.votes.length
  peersAgreed := js.agreeCount
  peersDisagreed := js.disagreeCount
  requiredAttestations := js.requiredAttestations
  provisionalOwnerId := zeroBytes 32
  provisionalOwnerKey := zeroBytes 2592
  dissentPeerId := zeroBytes 32
  dissentOwnerId := zeroBytes 32
  dissentOwnerKey := zeroBytes 2592
  smallGroupBypass := js.smallGroupBypass
  userOverride := js.userOverride

def JoinVerify.fullResult (js : JoinVerify) (reg : Registrar) : JoinResult :=
  { js.result with
    provisionalOwnerId := reg.header.ownerId
    provisionalOwnerKey := reg.header.ownerSignKey
    dissentPeerId := js.dissentPeerId
    dissentOwnerId := js.dissentOwnerId
    dissentOwnerKey := js.dissentOwnerKey }

def JoinVerify.dissentResult (js : JoinVerify) (reg : Registrar) : JoinResult :=
  { js.fullResult reg with smallGroupBypass := false, userOverride := false }

def JoinVerify.dissented (js : JoinVerify) (reg : Registrar) : JoinVerify :=
  match js.dissentCallback with
  | none => js.fail
  | some callback =>
    if callback (js.dissentResult reg) then { js with state := .verified, userOverride := true }
    else js.fail

def JoinVerify.judged (js : JoinVerify) (reg : Registrar) : JoinVerify :=
  if 0 < js.disagreeCount ∧ js.dissentCallbackFired = false then
    { js with dissentCallbackFired := true }.dissented reg
  else if js.requiredAttestations ≤ js.agreeCount ∧ js.disagreeCount = 0 then
    { js with state := .verified }
  else js

def JoinResult.empty : JoinResult where
  state := .none
  startedAt := 0
  peersChecked := 0
  peersAgreed := 0
  peersDisagreed := 0
  requiredAttestations := 0
  provisionalOwnerId := zeroBytes 32
  provisionalOwnerKey := zeroBytes 2592
  dissentPeerId := zeroBytes 32
  dissentOwnerId := zeroBytes 32
  dissentOwnerKey := zeroBytes 2592
  smallGroupBypass := false
  userOverride := false

def joinEvaluate (reg : Registrar) : Option JoinVerify → JoinResult × Option JoinVerify
  | none => (.empty, none)
  | some js =>
    if js.state ≠ .provisional then (js.result, some js)
    else ((js.judged reg).fullResult reg, some (js.judged reg))

inductive JoinCall
  | begin (ticket : InviteTicket) (nonce : Option JoinNonce) (now : I64)
  | setDissentCallback (callback : Option (JoinResult → Bool))
  | submitPeerHeader (peerHeader : Header) (peerId : PeerId) (peerPk : PublicKey)
    (signature : Signature) (now : I64)
  | evaluate

def JoinCall.run (crypto : Crypto) (reg : Registrar) (js : Option JoinVerify) :
    JoinCall → Option JoinVerify
  | begin ticket nonce now => (joinBegin crypto reg ticket nonce now js).2
  | setDissentCallback callback => (joinSetDissentCallback callback js).2
  | submitPeerHeader peerHeader peerId peerPk signature now =>
    (joinSubmitPeerHeader verify reg peerHeader peerId peerPk signature now js).2
  | evaluate => (joinEvaluate reg js).2

def runJoin (crypto : Crypto) (calls : List (Registrar × JoinCall)) : Option JoinVerify :=
  calls.foldl (fun js c => c.2.run verify crypto c.1 js) none

def JoinVote.Cast (reg : Registrar) (nonce : JoinNonce) (vote : JoinVote) : Prop :=
  ∃ peer signature, reg.peers.find? vote.peerId = some peer ∧ peer.status = PeerStatus.active ∧
    verify signature (buildAttestationData vote.groupId vote.ownerId vote.ownerSignKey vote.version
      nonce) peer.signKey = true

/-- The books of a verification; `seen` are the registrars its calls have read. -/
structure JoinVerify.Sound (seen : List Registrar) (js : JoinVerify) : Prop where
  distinct : (js.votes.map JoinVote.peerId).Nodup
  inviter : ∀ v ∈ js.votes, v.peerId ≠ js.inviterPeerId
  cast : ∀ v ∈ js.votes, ∃ reg ∈ seen, v.Cast verify reg js.nonce
  agreed : js.agreeCount = js.votes.countP JoinVote.agrees
  counted : js.agreeCount + js.disagreeCount = js.votes.length
  bounded : js.votes.length ≤ joinMaxTrackedPeers
  quorum : js.state = .provisional → ∃ reg ∈ seen,
    joinSmallGroupThreshold ≤ peerCount reg PeerStatus.active ∧
      js.requiredAttestations = computeQuorum (peerCount reg PeerStatus.active)

/-- Why a call may leave a verification verified that was not. -/
inductive JoinGrounds (reg : Registrar) (js' : JoinVerify) : Option JoinVerify → JoinCall → Prop
  | smallGroup : peerCount reg PeerStatus.active < joinSmallGroupThreshold →
      inviterAuthorized reg js'.inviterPeerId → js'.smallGroupBypass = true →
      JoinGrounds reg js' none (.begin ticket nonce now)
  | override : js.state = .provisional → 0 < js.disagreeCount → js.dissentCallback = some callback →
      callback (js.dissentResult reg) = true → js'.userOverride = true →
      JoinGrounds reg js' (some js) .evaluate
  | quorum : js.state = .provisional → js'.requiredAttestations ≤ js'.agreeCount →
      js'.disagreeCount = 0 → JoinGrounds reg js' (some js) .evaluate

theorem ceilSqrt_le (h : 1 < n) : ceilSqrt n ≤ n := by
  have := Nat.sqrt_lt_self h
  unfold ceilSqrt
  split <;> omega

theorem computeQuorum_le {n : BitVec 32} (h : joinSmallGroupThreshold ≤ n) :
    computeQuorum n ≤ n.toNat - 2 := by
  have hn : 5 ≤ n.toNat := BitVec.le_def.mp h
  have htwo : ¬ n ≤ 2 := by
    rw [BitVec.le_def]
    exact Nat.not_le.mpr (lt_of_lt_of_le (by decide) hn)
  have hsub : (n - 2).toNat = n.toNat - 2 := BitVec.toNat_sub_of_le (BitVec.le_of_lt (BitVec.not_le.mp htwo))
  rw [computeQuorum, if_neg htwo, hsub]
  have hroot : ceilSqrt (n.toNat - 2) ≤ n.toNat - 2 := ceilSqrt_le (by omega)
  have hmin : joinMinQuorum ≤ n.toNat - 2 := by
    unfold joinMinQuorum
    omega
  exact (Nat.min_le_right _ _).trans (Nat.max_le.mpr ⟨hmin, hroot⟩)

section Sound

variable {verify : Signature → List Byte → PublicKey → Bool} {crypto : Crypto}
  {seen : List Registrar} {js js' : JoinVerify}

theorem JoinVerify.Sound.of_no_votes (hvotes : js.votes = []) (hagree : js.agreeCount = 0)
    (hdisagree : js.disagreeCount = 0)
    (hquorum : js.state = .provisional → ∃ reg ∈ seen,
      joinSmallGroupThreshold ≤ peerCount reg PeerStatus.active ∧
        js.requiredAttestations = computeQuorum (peerCount reg PeerStatus.active)) :
    js.Sound verify seen where
  distinct := by simp [hvotes]
  inviter := by simp [hvotes]
  cast := by simp [hvotes]
  agreed := by simp [hvotes, hagree]
  counted := by simp [hvotes, hagree, hdisagree]
  bounded := by simp [hvotes]
  quorum := hquorum

theorem JoinVerify.Sound.later (h : js.Sound verify seen) (reg : Registrar) :
    js.Sound verify (seen ++ [reg]) where
  distinct := h.distinct
  inviter := h.inviter
  cast v hv := by
    obtain ⟨r, hr, hcast⟩ := h.cast v hv
    exact ⟨r, List.mem_append_left _ hr, hcast⟩
  agreed := h.agreed
  counted := h.counted
  bounded := h.bounded
  quorum hs := by
    obtain ⟨r, hr, hq⟩ := h.quorum hs
    exact ⟨r, List.mem_append_left _ hr, hq⟩

theorem JoinVerify.Sound.of_verdict (h : js.Sound verify seen) (hnonce : js'.nonce = js.nonce)
    (hinviter : js'.inviterPeerId = js.inviterPeerId) (hvotes : js'.votes = js.votes)
    (hagree : js'.agreeCount = js.agreeCount) (hdisagree : js'.disagreeCount = js.disagreeCount)
    (hrequired : js'.requiredAttestations = js.requiredAttestations)
    (hstate : js'.state = .provisional → js.state = .provisional) : js'.Sound verify seen where
  distinct := hvotes ▸ h.distinct
  inviter := by
    rw [hvotes, hinviter]
    exact h.inviter
  cast := by
    rw [hvotes, hnonce]
    exact h.cast
  agreed := by rw [hagree, hvotes, h.agreed]
  counted := by rw [hagree, hdisagree, hvotes, h.counted]
  bounded := hvotes ▸ h.bounded
  quorum hs := by
    rw [hrequired]
    exact h.quorum (hstate hs)

theorem JoinVerify.record_eq (js : JoinVerify) (vote : JoinVote) :
    (js.record vote).votes = js.votes ++ [vote] ∧ (js.record vote).nonce = js.nonce ∧
      (js.record vote).inviterPeerId = js.inviterPeerId ∧ (js.record vote).state = js.state ∧
      (js.record vote).requiredAttestations = js.requiredAttestations := by
  unfold JoinVerify.record
  split
  · exact ⟨rfl, rfl, rfl, rfl, rfl⟩
  · split <;> exact ⟨rfl, rfl, rfl, rfl, rfl⟩

theorem JoinVerify.record_counts (js : JoinVerify) (vote : JoinVote) :
    (js.record vote).agreeCount = js.agreeCount + (if vote.agrees then 1 else 0) ∧
      (js.record vote).agreeCount + (js.record vote).disagreeCount =
        js.agreeCount + js.disagreeCount + 1 := by
  cases hv : vote.agrees with
  | true =>
    simp only [JoinVerify.record, hv, ↓reduceIte]
    exact ⟨trivial, Nat.add_right_comm ..⟩
  | false =>
    cases hd : js.hasDissent with
    | true =>
      simp only [JoinVerify.record, hv, hd, Bool.false_eq_true, ↓reduceIte]
      exact ⟨rfl, (Nat.add_assoc ..).symm⟩
    | false =>
      simp only [JoinVerify.record, hv, hd, Bool.false_eq_true, ↓reduceIte]
      exact ⟨rfl, (Nat.add_assoc ..).symm⟩

theorem JoinVerify.accepts (now : I64)
    (h : js.refuses verify reg peerHeader peerId peerPk signature = none) :
    js.state = .provisional ∧ peerId ≠ js.inviterPeerId ∧ js.hasVoted peerId = false ∧
      js.votes.length < joinMaxTrackedPeers ∧
      (JoinVote.make reg peerHeader peerId now).Cast verify reg js.nonce := by
  unfold JoinVerify.refuses at h
  split at h
  · cases h
  next hstate =>
  split at h
  · cases h
  next hinviter =>
  split at h
  · cases h
  next hvoted =>
  cases hpeer : reg.peers.find? peerId with
  | none => simp [hpeer] at h
  | some peer =>
    simp only [hpeer] at h
    split at h
    · cases h
    next hstatus =>
    split at h
    · cases h
    next hkey =>
    split at h
    · cases h
    next hverify =>
    split at h
    · cases h
    next hfull =>
    obtain rfl := not_not.mp hkey
    exact ⟨not_not.mp hstate, hinviter, Bool.eq_false_of_not_eq_true hvoted, Nat.not_le.mp hfull,
      peer, signature, hpeer, not_not.mp hstatus, not_not.mp hverify⟩

theorem JoinVerify.Sound.record (h : js.Sound verify seen)
    (hok : js.refuses verify reg peerHeader peerId peerPk signature = none) :
    (js.record (JoinVote.make reg peerHeader peerId now)).Sound verify (seen ++ [reg]) := by
  obtain ⟨hstate, hinviter, hvoted, hfull, hcast⟩ := JoinVerify.accepts now hok
  obtain ⟨hvotes, hnonce, hinv, hst, hreq⟩ :=
    js.record_eq (JoinVote.make reg peerHeader peerId now)
  obtain ⟨hagree, hcount⟩ := js.record_counts (JoinVote.make reg peerHeader peerId now)
  have hfresh : ∀ v ∈ js.votes, v.peerId ≠ peerId := by
    simpa [JoinVerify.hasVoted] using hvoted
  constructor
  case distinct =>
    rw [hvotes, List.map_append, List.nodup_append]
    refine ⟨h.distinct, List.nodup_singleton _, ?_⟩
    intro a ha b hb
    obtain ⟨v, hv, rfl⟩ := List.mem_map.mp ha
    obtain rfl := List.mem_singleton.mp hb
    exact hfresh v hv
  case inviter =>
    rw [hvotes, hinv]
    intro v hv
    rcases List.mem_append.mp hv with hv | hv
    · exact h.inviter v hv
    · obtain rfl := List.mem_singleton.mp hv
      exact hinviter
  case cast =>
    rw [hvotes, hnonce]
    intro v hv
    rcases List.mem_append.mp hv with hv | hv
    · exact (h.later reg).cast v hv
    · obtain rfl := List.mem_singleton.mp hv
      exact ⟨reg, List.mem_append_right _ (List.mem_singleton_self _), hcast⟩
  case agreed =>
    rw [hagree, hvotes, List.countP_append, List.countP_singleton, h.agreed]
  case counted =>
    rw [hcount, hvotes, h.counted, List.length_append]
    rfl
  case bounded =>
    rw [hvotes, List.length_append]
    exact hfull
  case quorum =>
    rw [hst, hreq]
    exact (h.later reg).quorum

theorem joinBegin_cases (h : (joinBegin crypto reg ticket nonce now none).2 = some js) :
    js.votes = [] ∧ js.agreeCount = 0 ∧ js.disagreeCount = 0 ∧ (js.state = .failed ∨
      inviterAuthorized reg js.inviterPeerId ∧
        if peerCount reg PeerStatus.active < joinSmallGroupThreshold then
          js.state = .verified ∧ js.smallGroupBypass = true
        else js.requiredAttestations = computeQuorum (peerCount reg PeerStatus.active) ∧
          js.state = .provisional) := by
  cases nonce with
  | none => cases h
  | some nonce =>
    unfold joinBegin at h
    simp only [Option.isSome_none, Bool.false_eq_true, ↓reduceIte] at h
    split at h
    · obtain rfl := Option.some.inj h
      exact ⟨rfl, rfl, rfl, .inl rfl⟩
    · split at h
      · obtain rfl := Option.some.inj h
        exact ⟨rfl, rfl, rfl, .inl rfl⟩
      · next hinviter =>
        obtain rfl := Option.some.inj h
        unfold JoinVerify.started
        split
        · exact ⟨rfl, rfl, rfl, .inr ⟨not_not.mp hinviter, rfl, rfl⟩⟩
        · exact ⟨rfl, rfl, rfl, .inr ⟨not_not.mp hinviter, rfl, rfl⟩⟩

theorem JoinVerify.judged_eq (js : JoinVerify) (reg : Registrar) :
    (js.judged reg).nonce = js.nonce ∧ (js.judged reg).inviterPeerId = js.inviterPeerId ∧
      (js.judged reg).votes = js.votes ∧ (js.judged reg).agreeCount = js.agreeCount ∧
      (js.judged reg).disagreeCount = js.disagreeCount ∧
      (js.judged reg).requiredAttestations = js.requiredAttestations := by
  unfold JoinVerify.judged
  split
  · unfold JoinVerify.dissented
    split
    · exact ⟨rfl, rfl, rfl, rfl, rfl, rfl⟩
    · split <;> exact ⟨rfl, rfl, rfl, rfl, rfl, rfl⟩
  · split <;> exact ⟨rfl, rfl, rfl, rfl, rfl, rfl⟩

theorem JoinVerify.judged_verified (hstate : js.state = .provisional)
    (h : (js.judged reg).state = .verified) :
    (0 < js.disagreeCount ∧ (js.judged reg).userOverride = true ∧
      ∃ callback, js.dissentCallback = some callback ∧ callback (js.dissentResult reg) = true) ∨
      js.requiredAttestations ≤ js.agreeCount ∧ js.disagreeCount = 0 := by
  by_cases hd : 0 < js.disagreeCount ∧ js.dissentCallbackFired = false
  · rw [JoinVerify.judged, if_pos hd] at h ⊢
    cases hcall : js.dissentCallback with
    | none =>
      simp only [JoinVerify.dissented, hcall] at h
      cases h
    | some callback =>
      simp only [JoinVerify.dissented, hcall] at h ⊢
      split at h
      · next hstay =>
        rw [if_pos hstay]
        exact .inl ⟨hd.1, rfl, callback, rfl, hstay⟩
      · cases h
  · rw [JoinVerify.judged, if_neg hd] at h
    split at h
    · next hq => exact .inr hq
    · rw [hstate] at h
      cases h

theorem JoinCall.run_some (call : JoinCall) (hrun : call.run verify crypto reg (some js) = some js') :
    js' = js ∨
      (∃ callback, call = .setDissentCallback callback ∧ js' = { js with dissentCallback := callback }) ∨
      (∃ peerHeader peerId peerPk signature now, call = .submitPeerHeader peerHeader peerId peerPk signature now ∧
        js.refuses verify reg peerHeader peerId peerPk signature = none ∧
        js' = js.record (JoinVote.make reg peerHeader peerId now)) ∨
      call = .evaluate ∧ js.state = .provisional ∧ js' = js.judged reg := by
  cases call with
  | «begin» ticket nonce now => exact .inl (Option.some.inj hrun).symm
  | setDissentCallback callback => exact .inr (.inl ⟨callback, rfl, (Option.some.inj hrun).symm⟩)
  | submitPeerHeader peerHeader peerId peerPk signature now =>
    rw [JoinCall.run, joinSubmitPeerHeader] at hrun
    split at hrun
    · exact .inl (Option.some.inj hrun).symm
    · next hok => exact .inr (.inr (.inl ⟨_, _, _, _, _, rfl, hok, (Option.some.inj hrun).symm⟩))
  | evaluate =>
    rw [JoinCall.run, joinEvaluate] at hrun
    split at hrun
    · exact .inl (Option.some.inj hrun).symm
    · next hstate => exact .inr (.inr (.inr ⟨rfl, not_not.mp hstate, (Option.some.inj hrun).symm⟩))

theorem JoinCall.run_none (call : JoinCall) (hrun : call.run verify crypto reg none = some js') :
    ∃ ticket nonce now, call = .begin ticket nonce now := by
  cases call with
  | «begin» ticket nonce now => exact ⟨ticket, nonce, now, rfl⟩
  | setDissentCallback => cases hrun
  | submitPeerHeader => cases hrun
  | evaluate => cases hrun

theorem JoinVerify.Sound.call {before : Option JoinVerify} (call : JoinCall)
    (h : ∀ js, before = some js → js.Sound verify seen)
    (hrun : call.run verify crypto reg before = some js') : js'.Sound verify (seen ++ [reg]) := by
  have hseen : reg ∈ seen ++ [reg] := List.mem_append_right _ (List.mem_singleton_self _)
  cases before with
  | none =>
    obtain ⟨ticket, nonce, now, rfl⟩ := call.run_none hrun
    obtain ⟨hvotes, hagree, hdisagree, hstate⟩ := joinBegin_cases hrun
    refine .of_no_votes hvotes hagree hdisagree ?_
    intro hp
    rcases hstate with hf | ⟨_, hsize⟩
    · rw [hp] at hf
      cases hf
    · split at hsize
      · rw [hp] at hsize
        cases hsize.1
      · next hlarge => exact ⟨reg, hseen, BitVec.not_lt.mp hlarge, hsize.1⟩
  | some js =>
    obtain rfl | ⟨callback, rfl, rfl⟩ | ⟨peerHeader, peerId, peerPk, signature, now, rfl, hok, rfl⟩ |
      ⟨rfl, hstate, rfl⟩ := call.run_some hrun
    · exact (h _ rfl).later reg
    · exact ((h _ rfl).later reg).of_verdict rfl rfl rfl rfl rfl rfl id
    · exact (h _ rfl).record hok
    · obtain ⟨hnonce, hinv, hvotes, hagree, hdisagree, hreq⟩ := js.judged_eq reg
      exact ((h _ rfl).later reg).of_verdict hnonce hinv hvotes hagree hdisagree hreq fun _ => hstate

theorem JoinVerify.final (call : JoinCall) (hdone : js.state = .verified ∨ js.state = .failed) :
    ∃ js', call.run verify crypto reg (some js) = some js' ∧ js'.state = js.state ∧
      js'.votes = js.votes := by
  have hp : js.state ≠ .provisional := by
    intro hp
    rw [hp] at hdone
    rcases hdone with h | h <;> cases h
  cases call with
  | «begin» ticket nonce now => exact ⟨js, rfl, rfl, rfl⟩
  | setDissentCallback callback => exact ⟨_, rfl, rfl, rfl⟩
  | submitPeerHeader peerHeader peerId peerPk signature now =>
    refine ⟨js, ?_, rfl, rfl⟩
    rw [JoinCall.run, joinSubmitPeerHeader, JoinVerify.refuses, if_pos hp]
  | evaluate =>
    refine ⟨js, ?_, rfl, rfl⟩
    rw [JoinCall.run, joinEvaluate, if_pos hp]

theorem JoinVerify.grounds {before : Option JoinVerify} (call : JoinCall)
    (hrun : call.run verify crypto reg before = some js') (hverified : js'.state = .verified)
    (hbefore : ∀ js, before = some js → js.state ≠ .verified) : JoinGrounds reg js' before call := by
  cases before with
  | none =>
    obtain ⟨ticket, nonce, now, rfl⟩ := call.run_none hrun
    obtain ⟨_, _, _, hf | ⟨hinviter, hsize⟩⟩ := joinBegin_cases hrun
    · rw [hverified] at hf
      cases hf
    · split at hsize
      · next hsmall => exact .smallGroup hsmall hinviter hsize.2
      · rw [hverified] at hsize
        cases hsize.2
  | some js =>
    obtain rfl | ⟨callback, rfl, rfl⟩ | ⟨peerHeader, peerId, peerPk, signature, now, rfl, _, rfl⟩ |
      ⟨rfl, hstate, rfl⟩ := call.run_some hrun
    · exact absurd hverified (hbefore _ rfl)
    · exact absurd hverified (hbefore js rfl)
    · rw [(js.record_eq _).2.2.2.1] at hverified
      exact absurd hverified (hbefore js rfl)
    · obtain ⟨_, _, _, hagree, hdisagree, hreq⟩ := js.judged_eq reg
      rcases js.judged_verified hstate hverified with ⟨hd, hover, callback, hcall, hstay⟩ | ⟨hq, hnone⟩
      · exact .override hstate hd hcall hstay hover
      · exact .quorum hstate (by rw [hagree, hreq]; exact hq) (hdisagree.trans hnone)

theorem runJoin_append (calls : List (Registrar × JoinCall)) (c : Registrar × JoinCall) :
    runJoin verify crypto (calls ++ [c]) = c.2.run verify crypto c.1 (runJoin verify crypto calls) := by
  rw [runJoin, List.foldl_append]
  rfl

theorem JoinVerify.Sound.run (calls : List (Registrar × JoinCall))
    (h : runJoin verify crypto calls = some js) : js.Sound verify (calls.map Prod.fst) := by
  induction calls using List.reverseRecOn generalizing js with
  | nil => cases h
  | append_singleton calls c ih =>
    rw [runJoin_append] at h
    rw [List.map_append]
    exact JoinVerify.Sound.call c.2 (fun _ hjs => ih hjs) h

theorem JoinVerify.final_run (calls more : List (Registrar × JoinCall))
    (h : runJoin verify crypto calls = some js) (hdone : js.state = .verified ∨ js.state = .failed) :
    ∃ js', runJoin verify crypto (calls ++ more) = some js' ∧ js'.state = js.state ∧
      js'.votes = js.votes := by
  induction more using List.reverseRecOn with
  | nil => exact ⟨js, (List.append_nil calls).symm ▸ h, rfl, rfl⟩
  | append_singleton more c ih =>
    obtain ⟨js₁, hjs₁, hstate, hvotes⟩ := ih
    obtain ⟨js₂, hjs₂, hstate', hvotes'⟩ := JoinVerify.final c.2 (hstate.symm ▸ hdone)
    rw [← List.append_assoc, runJoin_append, hjs₁]
    exact ⟨js₂, hjs₂, hstate'.trans hstate, hvotes'.trans hvotes⟩

end Sound

/-- The books of a join are in order after every sequence of calls, no verdict comes without its
grounds or is taken back, and a quorum never needs the inviter or the joiner. -/
theorem join_verification (crypto : Crypto) (calls : List (Registrar × JoinCall)) :
    (∀ js, runJoin verify crypto calls = some js → js.Sound verify (calls.map Prod.fst)) ∧
      (∀ reg call js', runJoin verify crypto (calls ++ [(reg, call)]) = some js' →
        js'.state = .verified →
        (∀ js, runJoin verify crypto calls = some js → js.state ≠ .verified) →
        JoinGrounds reg js' (runJoin verify crypto calls) call) ∧
      (∀ js more, runJoin verify crypto calls = some js →
        js.state = .verified ∨ js.state = .failed →
        ∃ js', runJoin verify crypto (calls ++ more) = some js' ∧ js'.state = js.state ∧
          js'.votes = js.votes) ∧
      ∀ n, joinSmallGroupThreshold ≤ n → computeQuorum n ≤ n.toNat - 2 := by
  refine ⟨fun _ => JoinVerify.Sound.run calls, ?_, fun _ more => JoinVerify.final_run calls more,
    fun _ => computeQuorum_le⟩
  intro reg call js' hrun hverified hbefore
  rw [runJoin_append] at hrun
  exact JoinVerify.grounds call hrun hverified hbefore

end Attestation

end YumiBrowser.Group
