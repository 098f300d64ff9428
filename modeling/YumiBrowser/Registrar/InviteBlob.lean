import YumiBrowser.Library.LocalParsers
import YumiBrowser.Registrar.EpochAdoption
import YumiBrowser.Registrar.Join

namespace YumiBrowser.Group

open Wire Keyed

def inviteMagic : List Byte := ascii "GRINV"
def inviteVersion : BitVec 32 := 3
def inviteMaxBootstrap : ℕ := 5

/-- `gr_bootstrap_peer_t` -/
structure BootstrapPeer where
  peerId : PeerId
  ip : Ip
  port : BitVec 16
  signKey : PublicKey
  deriving DecidableEq

/-- `gr_invite_ticket_t`; `bootstrap_count` is the length of `bootstrapPeers`. -/
structure Ticket extends InviteTicket where
  bootstrapPeers : List BootstrapPeer
  signalingCount : BitVec 32

/-- `yumi_mldsa_sign` and `yumi_mldsa_verify`, of bytes of any length. -/
structure MlDsa where
  sign : SecretKey → List Byte → Option Signature
  verify : Signature → List Byte → PublicKey → Bool

/-- What the key signs is verified under the other one. -/
def MlDsa.Pair (dsa : MlDsa) (secretKey : SecretKey) (publicKey : PublicKey) : Prop :=
  ∀ m sig, dsa.sign secretKey m = some sig → dsa.verify sig m publicKey = true

/-- The memory that `gr_invite_create` asks for. -/
inductive InviteMemory
  | peers
  | candidates
  | blob
  | servers
  | signature
  deriving DecidableEq

section Create

def swapAt (l : List Peer) (i j : ℕ) : List Peer :=
  match l[i]?, l[j]? with
  | some a, some b => (l.set i b).set j a
  | _, _ => l

def shuffle (random : ℕ → BitVec 32) : ℕ → List Peer → List Peer
  | i + 2, candidates => shuffle random (i + 1) (swapAt candidates (i + 1) ((random (i + 2)).toNat % (i + 2)))
  | _, candidates => candidates

def BootstrapPeer.ofPeer (p : Peer) : BootstrapPeer := ⟨p.peerId, p.ip, p.port, p.signKey⟩

variable (granted : InviteMemory → Bool) (random : ℕ → BitVec 32) (reg : Registrar)

def selectBootstrapPeers (inviterId : PeerId) : Except GrError (List BootstrapPeer) :=
  let all := reg.peers.rows.filter fun p => p.status = PeerStatus.active
  if all = [] then .ok []
  else if granted .peers = false then .error .outOfMemory
  else if granted .candidates = false then .error .outOfMemory
  else
    let candidates := all.filter fun p => ¬ (p.peerId = inviterId ∨ isOwner reg p.peerId ∨ p.ip.val = [])
    .ok (((shuffle random candidates.length candidates).take inviteMaxBootstrap).map .ofPeer)

def serBootstrap (p : BootstrapPeer) : List Byte :=
  p.peerId.val ++ writeStr p.ip ++ writeU16 p.port ++ p.signKey.val

def serSignaling (s : Server) : List Byte :=
  s.idHash.val ++ writeStr s.ip ++ writeU16 s.port ++ s.signKey.val

def signalingCount : BitVec 32 := BitVec.ofNat 32 (serverList reg serverSignaling).length

def inviteServers : List Server :=
  if granted .servers then (serverList reg serverSignaling).take (signalingCount reg).toNat else []

def inviteBody (inviter : Identity) (expiresAt : I64) (token : Hash) (bootstrap : List BootstrapPeer) : List Byte :=
  inviteMagic ++ writeU32 inviteVersion ++ reg.header.groupId.val ++ writeStr reg.header.groupName ++
    writeU32 reg.header.groupType ++ reg.header.ownerSignKey.val ++ reg.header.hash.val ++ token.val ++
    inviter.publicKey.val ++ inviter.kemPk.val ++ writeI64 expiresAt ++
    writeU32 (BitVec.ofNat 32 bootstrap.length) ++ bootstrap.flatMap serBootstrap ++
    writeU32 (signalingCount reg) ++ (inviteServers granted reg).flatMap serSignaling

/-- The blob of `gr_invite_create`, which goes out without the signature if the buffer cannot grow for it. -/
def grInviteCreate (dsa : MlDsa) (inviter : Identity) (expiresAt : I64) (token : Hash) : Except GrError (List Byte) :=
  if reg.untrusted then .error .joinUnverified
  else if ¬ checkPerm reg inviter Perm.inviteMember then .error .unauthorized
  else
    match selectBootstrapPeers granted random reg inviter.peerId with
    | .error e => .error e
    | .ok bootstrap =>
      if granted .blob then
        let body := inviteBody granted reg inviter expiresAt token bootstrap
        match dsa.sign inviter.secretKey body with
        | none => .error .crypto
        | some sig => .ok (body ++ if granted .signature then sig.val else [])
      else .error .outOfMemory

end Create

section Parse

def deBootstrap : Reader BootstrapPeer := do
  let peerId ← readBytes 32
  let ip ← readStr 46
  let port ← readU16
  let signKey ← readBytes 2592
  return { peerId, ip, port, signKey }

def skipSignaling : Reader PUnit := do
  let _ ← readBytes 128
  let _ ← readStr 46
  let _ ← readU16
  let _ ← readBytes 2592
  return ⟨⟩

def parseInvite (r : Reader α) : Parse α := orThrow .inviteInvalid r

def refuseIf (p : Prop) [Decidable p] (e : GrError) : Parse PUnit := if p then throw e else pure ⟨⟩

/-- `gr_invite_parse`, up to the end of what is signed. -/
def readTicket (now : I64) : Parse Ticket := do
  let magic ← parseInvite (readBytes 5)
  refuseIf (magic.val ≠ inviteMagic) .inviteInvalid
  let version ← parseInvite readU32
  refuseIf (inviteVersion < version) .inviteInvalid
  let groupId ← parseInvite (readBytes 128)
  let groupName ← parseInvite (readStr 128)
  let groupType ← parseInvite readU32
  let ownerSignKey ← parseInvite (readBytes 2592)
  let registrarHash ← parseInvite (readBytes 128)
  let verificationToken ← parseInvite (readBytes 128)
  let inviterSignPk ← parseInvite (readBytes 2592)
  let inviterKemPk ← parseInvite (readBytes 1568)
  let expiresAt ← parseInvite readI64
  refuseIf (0 < expiresAt.toInt ∧ expiresAt.toInt ≤ now.toInt) .inviteExpired
  let bootstrapCount ← parseInvite readU32
  refuseIf (inviteMaxBootstrap < bootstrapCount.toNat) .inviteInvalid
  let bootstrapPeers ← parseInvite (readMany deBootstrap bootstrapCount.toNat)
  let signalingCount ← parseInvite readU32
  let _ ← parseInvite (readMany skipSignaling signalingCount.toNat)
  return {
    groupId, groupName, groupType, ownerSignKey, registrarHash, verificationToken, inviterSignPk, inviterKemPk,
    expiresAt, bootstrapPeers, signalingCount }

/-- `gr_invite_parse` -/
def grInviteParse (dsa : MlDsa) (now : I64) (data : List Byte) : Except GrError Ticket :=
  match (readTicket now).run data with
  | .error e => .error e
  | .ok (ticket, rest) =>
    match (readBytes 4627).run rest with
    | none => .error .inviteInvalid
    | some (sig, _) =>
      if dsa.verify sig (data.take (data.length - rest.length)) ticket.inviterSignPk then .ok ticket
      else .error .signatureInvalid

end Parse

section Reading

theorem local_deBootstrap : deBootstrap.Local :=
  (local_readBytes 32).bind fun _ => (local_readStr 46).bind fun _ => (local_readLe 2 16).bind fun _ =>
    (local_readBytes 2592).bind fun _ => local_pure _

theorem local_skipSignaling : skipSignaling.Local :=
  (local_readBytes 128).bind fun _ => (local_readStr 46).bind fun _ => (local_readLe 2 16).bind fun _ =>
    (local_readBytes 2592).bind fun _ => local_pure _

theorem local_refuseIf (p : Prop) [Decidable p] (e : GrError) : Parser.Local (refuseIf p e) := by
  unfold refuseIf
  split
  · exact Parser.local_throw e
  · exact Parser.local_pure _

theorem local_readTicket (now : I64) : Parser.Local (readTicket now) := by
  have hbytes (n : ℕ) : Parser.Local (parseInvite (readBytes n)) := (local_readBytes n).orThrow _
  have hu32 : Parser.Local (parseInvite readU32) := (local_readLe 4 32).orThrow _
  unfold readTicket
  refine (hbytes 5).bind fun magic => (local_refuseIf _ _).bind fun _ => ?_
  refine hu32.bind fun version => (local_refuseIf _ _).bind fun _ => ?_
  refine (hbytes 128).bind fun groupId => ((local_readStr 128).orThrow _).bind fun groupName => ?_
  refine hu32.bind fun groupType => (hbytes 2592).bind fun ownerSignKey => ?_
  refine (hbytes 128).bind fun registrarHash => (hbytes 128).bind fun token => ?_
  refine (hbytes 2592).bind fun inviterSignPk => (hbytes 1568).bind fun inviterKemPk => ?_
  refine ((local_readLe 8 64).orThrow _).bind fun expiresAt => (local_refuseIf _ _).bind fun _ => ?_
  refine hu32.bind fun bootstrapCount => (local_refuseIf _ _).bind fun _ => ?_
  refine ((local_readMany local_deBootstrap _).orThrow _).bind fun bootstrap => ?_
  refine hu32.bind fun signalingCount => ((local_readMany local_skipSignaling _).orThrow _).bind fun _ => ?_
  exact Parser.local_pure _

theorem grInviteParse_eq_ok {dsa : MlDsa} {now : I64} {data : List Byte} {ticket : Ticket} :
    grInviteParse dsa now data = .ok ticket ↔ ∃ body tail, ∃ sig : Signature, data = body ++ sig.val ++ tail ∧
      (∀ rest, (readTicket now).run (body ++ rest) = .ok (ticket, rest)) ∧
        dsa.verify sig body ticket.inviterSignPk = true := by
  unfold grInviteParse
  constructor
  · intro h
    split at h
    · cases h
    · rename_i t rest hread
      obtain ⟨body, rfl, hbody⟩ := local_readTicket now _ _ _ hread
      split at h
      · cases h
      · rename_i sig tail hsig
        split at h
        · rename_i hverify
          obtain rfl := Except.ok.inj h
          rw [List.length_append, Nat.add_sub_cancel, List.take_left] at hverify
          exact ⟨body, tail, sig, by rw [readBytes_eq_some hsig, List.append_assoc], hbody, hverify⟩
        · cases h
  · rintro ⟨body, tail, sig, rfl, hbody, hverify⟩
    rw [List.append_assoc, hbody]
    dsimp only
    rw [readBytes_append, List.length_append, Nat.add_sub_cancel, List.take_left]
    exact if_pos hverify

theorem deBootstrap_append (p : BootstrapPeer) (s : List Byte) :
    deBootstrap.run (serBootstrap p ++ s) = some (p, s) := by
  simp [deBootstrap, serBootstrap]

theorem skipSignaling_append (v : Server) (s : List Byte) :
    skipSignaling.run (serSignaling v ++ s) = some (⟨⟩, s) := by
  simp [skipSignaling, serSignaling]

theorem parseInvite_bind {r : Reader α} (f : α → Parse β) (h : r.run s = some (a, s')) :
    (parseInvite r >>= f).run s = (f a).run s' := orThrow_bind f h

theorem refuseIf_bind {p : Prop} [Decidable p] {e : GrError} (f : PUnit → Parse α) (h : ¬ p) :
    (refuseIf p e >>= f).run s = (f ⟨⟩).run s := by
  rw [refuseIf, if_neg h, pure_bind]

section Issued

variable (granted : InviteMemory → Bool) (random : ℕ → BitVec 32) (reg : Registrar) (inviter : Identity)
variable (expiresAt : I64) (token : Hash) (bootstrap : List BootstrapPeer)

def inviteTicket : Ticket where
  groupId := reg.header.groupId
  groupName := reg.header.groupName
  groupType := reg.header.groupType
  ownerSignKey := reg.header.ownerSignKey
  registrarHash := reg.header.hash
  verificationToken := token
  inviterSignPk := inviter.publicKey
  inviterKemPk := inviter.kemPk
  expiresAt := expiresAt
  bootstrapPeers := bootstrap
  signalingCount := signalingCount reg

theorem readTicket_inviteBody (now : I64) (hgranted : granted .servers = true)
    (hcount : bootstrap.length ≤ inviteMaxBootstrap) (rest : List Byte) :
    (readTicket now).run (inviteBody granted reg inviter expiresAt token bootstrap ++ rest) =
      if 0 < expiresAt.toInt ∧ expiresAt.toInt ≤ now.toInt then .error .inviteExpired
      else .ok (inviteTicket reg inviter expiresAt token bootstrap, rest) := by
  have hlen : (BitVec.ofNat 32 bootstrap.length).toNat = bootstrap.length := by
    rw [BitVec.toNat_ofNat]
    exact Nat.mod_eq_of_lt (lt_of_le_of_lt hcount (by decide))
  have hservers : (inviteServers granted reg).length = (signalingCount reg).toNat := by
    have hle : (signalingCount reg).toNat ≤ (serverList reg serverSignaling).length := by
      rw [signalingCount, BitVec.toNat_ofNat]
      exact Nat.mod_le _ _
    rw [inviteServers, if_pos hgranted, List.length_take, Nat.min_eq_left hle]
  have hmagic (s : List Byte) : (readBytes 5).run (inviteMagic ++ s) = some (⟨inviteMagic, by decide⟩, s) :=
    readBytes_append ⟨inviteMagic, by decide⟩ s
  have hpeers (s : List Byte) : (readMany deBootstrap bootstrap.length).run (bootstrap.flatMap serBootstrap ++ s) =
      some (bootstrap, s) := by
    have hmany := readMany_append id bootstrap s deBootstrap_append
    rwa [List.map_id] at hmany
  have hskip (s : List Byte) : (readMany skipSignaling (signalingCount reg).toNat).run
      ((inviteServers granted reg).flatMap serSignaling ++ s) =
        some ((inviteServers granted reg).map fun _ => PUnit.unit, s) := by
    rw [← hservers]
    exact readMany_append (fun _ => PUnit.unit) (inviteServers granted reg) s skipSignaling_append
  simp only [readTicket, inviteBody, List.append_assoc]
  rw [parseInvite_bind _ (hmagic _), refuseIf_bind _ fun hne => hne rfl,
    parseInvite_bind _ (readLe_append inviteVersion _ (by norm_num)), refuseIf_bind _ (BitVec.lt_irrefl _),
    parseInvite_bind _ (readBytes_append reg.header.groupId _),
    parseInvite_bind _ (readStr_append reg.header.groupName _ (by norm_num)),
    parseInvite_bind _ (readLe_append reg.header.groupType _ (by norm_num)),
    parseInvite_bind _ (readBytes_append reg.header.ownerSignKey _),
    parseInvite_bind _ (readBytes_append reg.header.hash _), parseInvite_bind _ (readBytes_append token _),
    parseInvite_bind _ (readBytes_append inviter.publicKey _), parseInvite_bind _ (readBytes_append inviter.kemPk _),
    parseInvite_bind _ (readLe_append expiresAt _ (by norm_num))]
  split
  · rename_i hexpired
    rw [refuseIf, if_pos hexpired]
    rfl
  · rename_i hlive
    rw [refuseIf_bind _ hlive, parseInvite_bind _ (readLe_append (BitVec.ofNat 32 bootstrap.length) _ (by norm_num)),
      hlen, refuseIf_bind _ (Nat.not_lt.mpr hcount), parseInvite_bind _ (hpeers _),
      parseInvite_bind _ (readLe_append (signalingCount reg) _ (by norm_num)), parseInvite_bind _ (hskip _)]
    rfl

variable {granted random reg inviter expiresAt token bootstrap} {dsa : MlDsa} {blob : List Byte}

theorem length_selectBootstrapPeers_le {inviterId : PeerId}
    (h : selectBootstrapPeers granted random reg inviterId = .ok bootstrap) :
    bootstrap.length ≤ inviteMaxBootstrap := by
  unfold selectBootstrapPeers at h
  dsimp only at h
  split at h
  · rw [← Except.ok.inj h]
    exact Nat.zero_le _
  · split at h
    · cases h
    · split at h
      · cases h
      · rw [← Except.ok.inj h, List.length_map]
        exact List.length_take_le _ _

theorem grInviteCreate_cases (h : grInviteCreate granted random reg dsa inviter expiresAt token = .ok blob) :
    ∃ bootstrap sig, selectBootstrapPeers granted random reg inviter.peerId = .ok bootstrap ∧
      dsa.sign inviter.secretKey (inviteBody granted reg inviter expiresAt token bootstrap) = some sig ∧
      blob = inviteBody granted reg inviter expiresAt token bootstrap ++
        if granted .signature then sig.val else [] := by
  unfold grInviteCreate at h
  split at h
  · cases h
  · split at h
    · cases h
    · split at h
      · cases h
      · rename_i bootstrap hpeers
        split at h
        · dsimp only at h
          split at h
          · cases h
          · rename_i sig hsig
            exact ⟨bootstrap, sig, hpeers, hsig, (Except.ok.inj h).symm⟩
        · cases h

theorem grInviteParse_cut {now : I64} (hgranted : granted .servers = true)
    (hcount : bootstrap.length ≤ inviteMaxBootstrap) (sig : Signature) {p q : List Byte} (hq : q ≠ [])
    (hcut : inviteBody granted reg inviter expiresAt token bootstrap ++ sig.val = p ++ q) :
    ∃ err, grInviteParse dsa now p = .error err := by
  cases hparse : grInviteParse dsa now p with
  | error err => exact ⟨err, rfl⟩
  | ok ticket =>
    obtain ⟨body, tail, sig', rfl, hbody, -⟩ := grInviteParse_eq_ok.mp hparse
    have hwhole := readTicket_inviteBody granted reg inviter expiresAt token bootstrap now hgranted hcount sig.val
    rw [hcut, List.append_assoc, List.append_assoc, hbody] at hwhole
    split at hwhole
    · cases hwhole
    · obtain ⟨-, hrest⟩ := Prod.mk.inj (Except.ok.inj hwhole)
      have hlen := congrArg List.length hrest
      rw [List.length_append, List.length_append, sig.length_eq, sig'.length_eq] at hlen
      have hpos := List.length_pos_iff.mpr hq
      omega

/-- An invite that is issued is parsed to its ticket until it expires, and not when it is cut off; what is parsed
starts with a signed body and its signature, and what follows these is not looked at. -/
theorem invite_format (now : I64) (hpair : dsa.Pair inviter.secretKey inviter.publicKey)
    (hservers : granted .servers = true) (hsignature : granted .signature = true)
    (hblob : grInviteCreate granted random reg dsa inviter expiresAt token = .ok blob) :
    (∃ bootstrap, selectBootstrapPeers granted random reg inviter.peerId = .ok bootstrap ∧
      grInviteParse dsa now blob =
        if 0 < expiresAt.toInt ∧ expiresAt.toInt ≤ now.toInt then .error .inviteExpired
        else .ok (inviteTicket reg inviter expiresAt token bootstrap)) ∧
    (∀ p, p <+: blob → p ≠ blob → ∃ err, grInviteParse dsa now p = .error err) ∧
    ∀ data ticket, grInviteParse dsa now data = .ok ticket →
      ∃ body tail, ∃ sig : Signature, data = body ++ sig.val ++ tail ∧
        dsa.verify sig body ticket.inviterSignPk = true ∧
        ∀ tail', grInviteParse dsa now (body ++ sig.val ++ tail') = .ok ticket := by
  obtain ⟨bootstrap, sig, hpeers, hsig, rfl⟩ := grInviteCreate_cases hblob
  rw [if_pos hsignature]
  have hcount := length_selectBootstrapPeers_le hpeers
  refine ⟨⟨bootstrap, hpeers, ?_⟩, fun p hp hne => ?_, fun data ticket hparse => ?_⟩
  · have hread := readTicket_inviteBody granted reg inviter expiresAt token bootstrap now hservers hcount
    split
    · rename_i hexpired
      rw [grInviteParse, hread, if_pos hexpired]
    · rename_i hlive
      rw [← List.append_nil (_ ++ _)]
      refine grInviteParse_eq_ok.mpr ⟨_, [], sig, rfl, fun rest => ?_, hpair _ _ hsig⟩
      rw [hread, if_neg hlive]
  · obtain ⟨q, hq⟩ := hp
    refine grInviteParse_cut hservers hcount sig (fun hnil => hne ?_) hq.symm
    rw [← hq, hnil, List.append_nil]
  · obtain ⟨body, tail, sig', rfl, hbody, hverify⟩ := grInviteParse_eq_ok.mp hparse
    refine ⟨body, tail, sig', rfl, hverify, fun tail' => ?_⟩
    exact grInviteParse_eq_ok.mpr ⟨body, tail', sig', rfl, hbody, hverify⟩

end Issued

section OwnerInvite

def plainDsa : MlDsa where
  sign _ _ := some (zeroBytes 4627)
  verify sig _ _ := sig = zeroBytes 4627

theorem plainDsa_verify {sig : Signature} {m : List Byte} {pk : PublicKey} :
    plainDsa.verify sig m pk = true ↔ sig = zeroBytes 4627 := decide_eq_true_iff

theorem plainDsa_pair : plainDsa.Pair (member 1).secretKey (member 1).publicKey := by
  intro m sig hsig
  exact plainDsa_verify.mpr (Option.some.inj hsig).symm

def ownerInvite : List Byte :=
  inviteBody (fun _ => true) (signedGroup flatHash) (member 1) 0 (zeroBytes 128) [] ++ (zeroBytes 4627).val

theorem ipCap_pos : 0 < 46 := by decide

def reachablePeer (b : Byte) : Peer :=
  { ownerPeer (member b) 1 with ip := CString.stored 46 ipCap_pos (ascii "10.0.0.2"), port := 7000 }

def reachableGroup : Registrar :=
  { signedGroup flatHash with
    peers := ((signedGroup flatHash).peers.upsert (reachablePeer 2)).upsert (reachablePeer 3) }

def reachablePeers : List BootstrapPeer :=
  (selectBootstrapPeers (fun _ => true) (fun _ => 0) reachableGroup (member 1).peerId).toOption.getD []

theorem length_reachablePeers : reachablePeers.length = 2 := by decide +kernel

theorem reachablePeers_selected :
    selectBootstrapPeers (fun _ => true) (fun _ => 0) reachableGroup (member 1).peerId = .ok reachablePeers := by
  have hlength := length_reachablePeers
  unfold reachablePeers at hlength ⊢
  cases hpeers : selectBootstrapPeers (fun _ => true) (fun _ => 0) reachableGroup (member 1).peerId with
  | ok peers => rfl
  | error err =>
    rw [hpeers] at hlength
    cases hlength

def reachableInvite : List Byte :=
  inviteBody (fun _ => true) reachableGroup (member 1) 2000 (zeroBytes 128) reachablePeers ++ (zeroBytes 4627).val

theorem reachableInvite_created :
    grInviteCreate (fun _ => true) (fun _ => 0) reachableGroup plainDsa (member 1) 2000 (zeroBytes 128) =
      .ok reachableInvite := by
  have hperm : checkPerm reachableGroup (member 1) Perm.inviteMember = true := checkPerm_owner rfl (by decide)
  rw [grInviteCreate, if_neg (by decide), if_neg (not_not.mpr hperm), reachablePeers_selected]
  rfl

theorem invite_format_reachable :
    grInviteParse plainDsa 1000 reachableInvite =
      .ok (inviteTicket reachableGroup (member 1) 2000 (zeroBytes 128) reachablePeers) ∧
    (∀ p, p <+: reachableInvite → p ≠ reachableInvite → ∃ err, grInviteParse plainDsa 1000 p = .error err) ∧
    ∀ data ticket, grInviteParse plainDsa 1000 data = .ok ticket →
      ∃ body tail, ∃ sig : Signature, data = body ++ sig.val ++ tail ∧
        plainDsa.verify sig body ticket.inviterSignPk = true ∧
        ∀ tail', grInviteParse plainDsa 1000 (body ++ sig.val ++ tail') = .ok ticket := by
  obtain ⟨⟨bootstrap, hpeers, hparse⟩, hcut, hread⟩ := invite_format 1000 plainDsa_pair rfl rfl reachableInvite_created
  obtain rfl := Except.ok.inj (reachablePeers_selected.symm.trans hpeers)
  rw [if_neg (by decide)] at hparse
  exact ⟨hparse, hcut, hread⟩

theorem ownerInvite_followed :
    grInviteParse plainDsa 0 (ownerInvite ++ [1]) =
      .ok (inviteTicket (signedGroup flatHash) (member 1) 0 (zeroBytes 128) []) ∧
    ¬ ∃ body, ∃ sig : Signature, ownerInvite ++ [1] = body ++ sig.val ∧
      plainDsa.verify sig body (member 1).publicKey = true := by
  constructor
  · refine grInviteParse_eq_ok.mpr ⟨_, [1], zeroBytes 4627, rfl, fun rest => ?_, plainDsa_verify.mpr rfl⟩
    rw [readTicket_inviteBody _ _ _ _ _ _ _ rfl (Nat.zero_le _)]
    exact if_neg (fun hexpired => absurd hexpired.1 (by decide))
  · rintro ⟨body, sig, hsplit, hverify⟩
    obtain rfl : sig = zeroBytes 4627 := plainDsa_verify.mp hverify
    have hlast := congrArg List.getLast? hsplit
    have hzero : (zeroBytes 4627).val.getLast? = some 0 := List.getLast?_replicate.trans (if_neg (by decide))
    rw [List.getLast?_concat, List.getLast?_append, hzero] at hlast
    exact absurd (Option.some.inj hlast) (by decide)

end OwnerInvite

end Reading

end YumiBrowser.Group
