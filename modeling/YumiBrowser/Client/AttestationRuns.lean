import Mathlib.Data.List.Perm.Subperm
import YumiBrowser.Client.Attestation

namespace YumiBrowser.Client.Attest

open Wire YumiBrowser.Group Transition

section Protocol

/-- The honest members with their registrars, and one who joins. What he has `seen` are the registrars he had so far,
and `begun` is the number of answers that were there when he began. -/
structure World (ι : Type) where
  member : ι → Registrar
  answers : List (Answer ι)
  reg : Registrar
  seen : List Registrar
  js : Option JoinVerify
  begun : ℕ
  told : List ClientEvent

inductive Event (ι : Type)
  | write (i : ι) (reg : Registrar)
  -- Anyone may ask, with any nonce.
  | answer (i : ι) (nonce : JoinNonce)
  | sync (reg : Registrar)
  | begin (ticket : InviteTicket) (nonce : Option JoinNonce) (now : I64)
  | setDissentCallback (callback : Option (JoinResult → Bool))
  | receive (data : List Byte) (now : I64)
  | evaluate

variable {ι : Type} [DecidableEq ι] (crypto : Crypto) (dsa : MlDsa) (ident : ι → Identity)

namespace World

def next (s : World ι) : Event ι → World ι
  | .write i reg => { s with member := Function.update s.member i reg }
  | .answer i nonce => { s with answers := s.answers ++ [⟨i, nonce, (s.member i).header⟩] }
  | .sync reg => { s with reg, seen := s.seen ++ [reg] }
  | .begin ticket nonce now =>
    { s with
      js := (joinBegin crypto s.reg ticket nonce now s.js).2
      begun := if s.js.isSome then s.begun else s.answers.length }
  | .setDissentCallback callback => { s with js := (joinSetDissentCallback callback s.js).2 }
  | .receive data now =>
    { s with
      js := (attestProcess dsa s.reg data now s.js).1
      told := s.told ++ (attestProcess dsa s.reg data now s.js).2.toList }
  | .evaluate => { s with js := (joinEvaluate s.reg s.js).2 }

inductive Signed (s : World ι) (i : ι) : List Byte → Prop
  | hash (h : Hash) : Signed s i h.val
  | invite (granted : InviteMemory → Bool) (r : Registrar) (expiresAt : I64) (token : Hash)
      (bootstrap : List BootstrapPeer) : Signed s i (inviteBody granted r (ident i) expiresAt token bootstrap)
  | answer : a ∈ s.answers → a.member = i → Signed s i a.data

def Enabled (s : World ι) : Event ι → Prop
  | .begin _ nonce _ => ∀ a ∈ s.answers, some a.nonce ≠ nonce
  | .receive data _ => ∀ a rest, deAttested.run data = some (a, rest) → ∀ i m,
      dsa.verify a.signature m (ident i).publicKey = true → s.Signed ident i m
  | _ => True

structure Starts (s : World ι) : Prop where
  answers : s.answers = []
  seen : s.seen = [s.reg]
  js : s.js = none
  begun : s.begun = 0
  told : s.told = []

end World

end Protocol

section Safety

variable {ι : Type} {crypto : Crypto} {dsa : MlDsa} {ident : ι → Identity}

theorem lt_length_inviteBody (granted : InviteMemory → Bool) (reg : Registrar) (inviter : Identity) (expiresAt : I64)
    (token : Hash) (bootstrap : List BootstrapPeer) :
    2788 < (inviteBody granted reg inviter expiresAt token bootstrap).length := by
  simp only [inviteBody, List.length_append, Bytes.length_eq]
  omega

theorem World.Signed.answered {s : World ι} {i : ι} {a : Answer ι} (h : s.Signed ident i a.data) :
    ∃ b ∈ s.answers, b.member = i ∧ b.nonce = a.nonce ∧ authority b.header = authority a.header ∧
      b.header.version = a.header.version := by
  generalize hdata : a.data = m at h
  have hlen := length_data a
  rw [hdata] at hlen
  cases h with
  | hash h =>
    rw [h.length_eq] at hlen
    cases hlen
  | invite granted r expiresAt token bootstrap =>
    exact absurd hlen (Nat.ne_of_gt (lt_length_inviteBody ..))
  | @answer b hb hmember =>
    obtain ⟨hauth, hversion, hnonce⟩ := data_inj hdata
    exact ⟨b, hb, hmember, hnonce.symm, hauth.symm, hversion.symm⟩

variable {s s' : World ι} {js : JoinVerify} {v : JoinVote}

def World.Vouched (ident : ι → Identity) (s : World ι) (nonce : JoinNonce) (v : JoinVote) : Prop :=
  ∃ reg ∈ s.seen, ∃ peer, reg.peers.find? v.peerId = some peer ∧
    (v.agrees = true → authority reg.header = voted v) ∧
    ∀ i, peer.signKey = (ident i).publicKey →
      ∃ a ∈ s.answers.drop s.begun, a.member = i ∧ a.nonce = nonce ∧ authority a.header = voted v

structure World.Quorate (s : World ι) (js : JoinVerify) : Prop where
  enough : js.requiredAttestations ≤ js.agreeCount
  agreed : js.disagreeCount = 0
  quorum : ∃ reg ∈ s.seen, joinSmallGroupThreshold ≤ peerCount reg PeerStatus.active ∧
    js.requiredAttestations = computeQuorum (peerCount reg PeerStatus.active)

structure World.Books (dsa : MlDsa) (ident : ι → Identity) (s : World ι) (js : JoinVerify) : Prop where
  sound : js.Sound dsa.verify s.seen
  early : ∀ a ∈ s.answers, a.nonce = js.nonce → a ∈ s.answers.drop s.begun
  vouched : ∀ v ∈ js.votes, s.Vouched ident js.nonce v
  plain : js.state = .provisional → js.smallGroupBypass = false
  grounds : js.state = .verified → js.smallGroupBypass = true ∨ js.userOverride = true ∨ s.Quorate js

structure World.Inv (dsa : MlDsa) (ident : ι → Identity) (s : World ι) : Prop where
  reg : s.reg ∈ s.seen
  begun : s.begun ≤ s.answers.length
  books : ∀ js, s.js = some js → s.Books dsa ident js
  told : .verified ∈ s.told → ∃ js, s.js = some js ∧ js.state = .verified ∧ js.smallGroupBypass = false

theorem sound_mono {seen seen' : List Registrar} (h : js.Sound dsa.verify seen) (hsub : seen ⊆ seen') :
    js.Sound dsa.verify seen' where
  distinct := h.distinct
  inviter := h.inviter
  cast v hv := by
    obtain ⟨reg, hreg, hcast⟩ := h.cast v hv
    exact ⟨reg, hsub hreg, hcast⟩
  agreed := h.agreed
  counted := h.counted
  bounded := h.bounded
  quorum hstate := by
    obtain ⟨reg, hreg, hquorum⟩ := h.quorum hstate
    exact ⟨reg, hsub hreg, hquorum⟩

namespace World

theorem Vouched.mono {nonce : JoinNonce} (h : s.Vouched ident nonce v) (hseen : s.seen ⊆ s'.seen)
    (hanswers : s.answers.drop s.begun ⊆ s'.answers.drop s'.begun) : s'.Vouched ident nonce v := by
  obtain ⟨reg, hreg, peer, hpeer, hagrees, hanswered⟩ := h
  refine ⟨reg, hseen hreg, peer, hpeer, hagrees, fun i hi => ?_⟩
  obtain ⟨a, ha, hmatch⟩ := hanswered i hi
  exact ⟨a, hanswers ha, hmatch⟩

theorem Quorate.mono (h : s.Quorate js) (hseen : s.seen ⊆ s'.seen) : s'.Quorate js := by
  obtain ⟨reg, hreg, hquorum⟩ := h.quorum
  exact ⟨h.enough, h.agreed, reg, hseen hreg, hquorum⟩

theorem Books.mono (h : s.Books dsa ident js) (hseen : s.seen ⊆ s'.seen) (hbegun : s'.begun = s.begun)
    (hle : s.begun ≤ s.answers.length) {more : List (Answer ι)} (hanswers : s'.answers = s.answers ++ more) :
    s'.Books dsa ident js := by
  have hdrop : s'.answers.drop s'.begun = s.answers.drop s.begun ++ more := by
    rw [hanswers, hbegun, List.drop_append_of_le_length hle]
  have hsub : s.answers.drop s.begun ⊆ s'.answers.drop s'.begun := by
    rw [hdrop]
    exact List.subset_append_left _ _
  refine ⟨sound_mono h.sound hseen, fun a ha hnonce => ?_, fun v hv => (h.vouched v hv).mono hseen hsub, h.plain,
    fun hstate => (h.grounds hstate).imp_right fun hrest => hrest.imp_right fun hq => hq.mono hseen⟩
  rw [hanswers] at ha
  rw [hdrop]
  exact (List.mem_append.mp ha).elim (fun hold => List.mem_append_left _ (h.early a hold hnonce))
    (List.mem_append_right _)

theorem Books.setCallback (h : s.Books dsa ident js) (callback : Option (JoinResult → Bool)) :
    s.Books dsa ident { js with dissentCallback := callback } where
  sound := h.sound.of_verdict rfl rfl rfl rfl rfl rfl id
  early := h.early
  vouched := h.vouched
  plain := h.plain
  grounds hstate :=
    (h.grounds hstate).imp_right fun hrest => hrest.imp_right fun hq => ⟨hq.enough, hq.agreed, hq.quorum⟩

theorem judged_bypass (js : JoinVerify) (reg : Registrar) :
    (js.judged reg).smallGroupBypass = js.smallGroupBypass := by
  unfold JoinVerify.judged
  split
  · unfold JoinVerify.dissented
    split
    · rfl
    · split
      · rfl
      · rfl
  · split
    · rfl
    · rfl

theorem record_bypass (js : JoinVerify) (v : JoinVote) :
    (js.record v).smallGroupBypass = js.smallGroupBypass := by
  unfold JoinVerify.record
  split
  · rfl
  · split
    · rfl
    · rfl

theorem Books.judged (h : s.Books dsa ident js) (hstate : js.state = .provisional) (reg : Registrar) :
    s.Books dsa ident (js.judged reg) := by
  obtain ⟨hnonce, hinviter, hvotes, hagree, hdisagree, hrequired⟩ := js.judged_eq reg
  refine ⟨h.sound.of_verdict hnonce hinviter hvotes hagree hdisagree hrequired fun _ => hstate, ?_, ?_,
    fun _ => (judged_bypass js reg).trans (h.plain hstate), fun hverified => ?_⟩
  · rw [hnonce]
    exact h.early
  · rw [hnonce, hvotes]
    exact h.vouched
  · cases JoinVerify.judged_verified hstate hverified with
    | inl hover => exact .inr (.inl hover.2.1)
    | inr hquorum =>
      refine .inr (.inr ⟨?_, hdisagree.trans hquorum.2, ?_⟩)
      · rw [hrequired, hagree]
        exact hquorum.1
      · rw [hrequired]
        exact h.sound.quorum hstate

theorem refuses_none {reg : Registrar} {header : Header} {peerId : PeerId} {peerPk : PublicKey}
    {signature : Signature} (h : js.refuses dsa.verify reg header peerId peerPk signature = none) :
    ∃ peer, reg.peers.find? peerId = some peer ∧
      dsa.verify signature (buildAttestationData header.groupId header.ownerId header.ownerSignKey header.version
        js.nonce) peer.signKey = true := by
  obtain ⟨-, -, -, -, peer, -, hpeer, -⟩ := JoinVerify.accepts 0 h
  have hfind : reg.peers.find? peerId = some peer := hpeer
  refine ⟨peer, hfind, ?_⟩
  unfold JoinVerify.refuses at h
  simp only [hfind] at h
  split at h
  · cases h
  split at h
  · cases h
  split at h
  · cases h
  split at h
  · cases h
  split at h
  · cases h
  next hkey =>
  split at h
  · cases h
  next hverify =>
  rw [not_not.mp hkey]
  exact not_not.mp hverify

theorem Books.record (h : s.Books dsa ident js) (hreg : s.reg ∈ s.seen) (now : I64) {a : Attested}
    (hok : js.refuses dsa.verify s.reg a.header a.peerId a.signKey a.signature = none)
    (hunforged : ∀ i m, dsa.verify a.signature m (ident i).publicKey = true → s.Signed ident i m) :
    s.Books dsa ident (js.record (JoinVote.make s.reg a.header a.peerId now)) := by
  obtain ⟨hvotes, hnonce, -, hstate, -⟩ := js.record_eq (JoinVote.make s.reg a.header a.peerId now)
  have hprovisional := (JoinVerify.accepts now hok).1
  refine ⟨sound_mono (h.sound.record hok) ?_, ?_, ?_, fun _ => ?_, fun hverified => ?_⟩
  · exact List.append_subset.mpr ⟨fun _ hmem => hmem, List.cons_subset.mpr ⟨hreg, List.nil_subset _⟩⟩
  · rw [hnonce]
    exact h.early
  · rw [hvotes, hnonce]
    intro v hv
    cases List.mem_append.mp hv with
    | inl hold => exact h.vouched v hold
    | inr hnew =>
      rw [List.mem_singleton.mp hnew]
      obtain ⟨peer, hpeer, hverify⟩ := refuses_none hok
      refine ⟨s.reg, hreg, peer, hpeer, headersAgreeOnAuthority_iff.mp, fun i hkey => ?_⟩
      rw [hkey] at hverify
      have hsigned : s.Signed ident i (Answer.data ⟨i, js.nonce, a.header⟩) := hunforged i _ hverify
      obtain ⟨b, hb, hmember, hbnonce, hauth, -⟩ := hsigned.answered
      exact ⟨b, h.early b hb hbnonce, hmember, hbnonce, hauth⟩
  · exact (record_bypass js _).trans (h.plain hprovisional)
  · rw [hstate, hprovisional] at hverified
    cases hverified

theorem joinBegin_opened {reg : Registrar} {ticket : InviteTicket} {nonce : Option JoinNonce} {now : I64}
    (h : (joinBegin crypto reg ticket nonce now none).2 = some js) :
    nonce = some js.nonce ∧ (js.state = .provisional → js.smallGroupBypass = false) ∧
      (js.state = .verified → js.smallGroupBypass = true) := by
  cases nonce with
  | none => cases h
  | some nonce =>
    unfold joinBegin at h
    simp only [Option.isSome_none, Bool.false_eq_true, ↓reduceIte] at h
    split at h
    · obtain rfl := Option.some.inj h
      exact ⟨rfl, JoinState.noConfusion, JoinState.noConfusion⟩
    · split at h
      · obtain rfl := Option.some.inj h
        exact ⟨rfl, JoinState.noConfusion, JoinState.noConfusion⟩
      · obtain rfl := Option.some.inj h
        unfold JoinVerify.started
        split
        · exact ⟨rfl, JoinState.noConfusion, fun _ => rfl⟩
        · exact ⟨rfl, fun _ => rfl, JoinState.noConfusion⟩

theorem Books.begin {ticket : InviteTicket} {nonce : Option JoinNonce} {now : I64} (hreg : s.reg ∈ s.seen)
    (hfresh : ∀ a ∈ s.answers, some a.nonce ≠ nonce) (hrun : (joinBegin crypto s.reg ticket nonce now none).2 = some js)
    (hseen : s'.seen = s.seen) (hanswers : s'.answers = s.answers) : s'.Books dsa ident js := by
  obtain ⟨rfl, hplain, hsmall⟩ := joinBegin_opened hrun
  have hcall : (JoinCall.begin ticket (some js.nonce) now).run dsa.verify crypto s.reg none = some js := hrun
  have hsound : js.Sound dsa.verify ([] ++ [s.reg]) := .call _ (fun _ hnone => by cases hnone) hcall
  refine ⟨sound_mono hsound ?_, fun a ha hnonce => ?_, fun v hv => ?_, hplain, fun hverified => .inl (hsmall hverified)⟩
  · rw [hseen]
    exact List.cons_subset.mpr ⟨hreg, List.nil_subset _⟩
  · rw [hanswers] at ha
    exact absurd (congrArg some hnonce) (hfresh a ha)
  · rw [(joinBegin_cases hrun).1] at hv
    cases hv

theorem Inv.start (h : s.Starts) : s.Inv dsa ident where
  reg := by
    rw [h.seen]
    exact List.mem_singleton_self _
  begun := by
    rw [h.begun]
    exact Nat.zero_le _
  books js hjs := by
    rw [h.js] at hjs
    cases hjs
  told htold := by
    rw [h.told] at htold
    cases htold

theorem Inv.keep (h : s.Inv dsa ident) (hseen : s.seen ⊆ s'.seen) (hreg : s'.reg ∈ s'.seen)
    (hbegun : s'.begun = s.begun) {more : List (Answer ι)} (hanswers : s'.answers = s.answers ++ more)
    (hjs : s'.js = s.js) (htold : s'.told = s.told) :
    s'.Inv dsa ident where
  reg := hreg
  begun := by
    rw [hbegun, hanswers, List.length_append]
    exact h.begun.trans (Nat.le_add_right _ _)
  books js hsome := (h.books js (hjs ▸ hsome)).mono hseen hbegun h.begun hanswers
  told htell := by
    rw [hjs]
    exact h.told (htold ▸ htell)

theorem Inv.adopt (h : s.Inv dsa ident) {told : List ClientEvent} (hbooks : s.Books dsa ident js)
    (htold : .verified ∈ told → js.state = .verified ∧ js.smallGroupBypass = false) :
    { s with js := some js, told }.Inv dsa ident where
  reg := h.reg
  begun := h.begun
  books js' hjs' := by
    obtain rfl := Option.some.inj hjs'
    exact hbooks.mono (fun _ hmem => hmem) rfl h.begun (List.append_nil _).symm
  told htell := ⟨js, rfl, htold htell⟩

variable [DecidableEq ι]

theorem Inv.receive {data : List Byte} {now : I64} (h : s.Inv dsa ident)
    (hen : s.Enabled dsa ident (.receive data now)) : (s.next crypto dsa (.receive data now)).Inv dsa ident := by
  dsimp only [World.next]
  cases attestProcess_cases dsa s.reg data now s.js with
  | inl hsame =>
    rw [hsame]
    exact h.keep (fun _ hmem => hmem) h.reg rfl (List.append_nil _).symm rfl (List.append_nil _)
  | inr hvote =>
    obtain ⟨a, rest, js, hread, hjs, hok, heq⟩ := hvote
    have hbooks := (h.books js hjs).record h.reg now hok (hen a rest hread)
    have hprovisional := (JoinVerify.accepts now hok).1
    have hstate := (js.record_eq (JoinVote.make s.reg a.header a.peerId now)).2.2.2.1.trans hprovisional
    rw [heq]
    refine h.adopt (hbooks.judged hstate s.reg) fun htell => ?_
    cases List.mem_append.mp htell with
    | inl hold =>
      obtain ⟨js', hjs', hverified, -⟩ := h.told hold
      obtain rfl := Option.some.inj (hjs.symm.trans hjs')
      rw [hprovisional] at hverified
      cases hverified
    | inr hnew =>
      refine ⟨?_, (judged_bypass _ _).trans (hbooks.plain hstate)⟩
      unfold ClientEvent.ofState at hnew
      split at hnew
      · assumption
      · cases List.mem_singleton.mp hnew
      · cases hnew

theorem Inv.next (h : s.Inv dsa ident) {e : Event ι} (hen : s.Enabled dsa ident e) :
    (s.next crypto dsa e).Inv dsa ident := by
  cases e with
  | write i reg => exact h.keep (fun _ hmem => hmem) h.reg rfl (List.append_nil _).symm rfl rfl
  | answer i nonce => exact h.keep (fun _ hmem => hmem) h.reg rfl rfl rfl rfl
  | sync reg =>
    exact h.keep (List.subset_append_left _ _) (List.mem_append_right _ (List.mem_singleton_self _)) rfl
      (List.append_nil _).symm rfl rfl
  | «begin» ticket nonce now =>
    cases hjs : s.js with
    | some js =>
      have hrun : joinBegin crypto s.reg ticket nonce now (some js) = (.error .alreadyExists, some js) := rfl
      dsimp only [World.next]
      rw [hjs, hrun]
      exact h.keep (fun _ hmem => hmem) h.reg rfl (List.append_nil _).symm hjs.symm rfl
    | none =>
      dsimp only [World.next]
      rw [hjs]
      refine ⟨h.reg, Nat.le_refl _, fun js hrun => ?_, fun htell => ?_⟩
      · exact Books.begin h.reg hen hrun rfl rfl
      · obtain ⟨js, hsome, -⟩ := h.told htell
        cases hjs.symm.trans hsome
  | setDissentCallback callback =>
    dsimp only [World.next]
    cases hjs : s.js with
    | none => exact h.keep (fun _ hmem => hmem) h.reg rfl (List.append_nil _).symm hjs.symm rfl
    | some js =>
      refine h.adopt ((h.books js hjs).setCallback callback) fun htell => ?_
      obtain ⟨js', hjs', hverified⟩ := h.told htell
      obtain rfl := Option.some.inj (hjs.symm.trans hjs')
      exact hverified
  | receive data now => exact h.receive hen
  | evaluate =>
    dsimp only [World.next]
    cases hjs : s.js with
    | none => exact h.keep (fun _ hmem => hmem) h.reg rfl (List.append_nil _).symm hjs.symm rfl
    | some js =>
      have htold : .verified ∈ s.told → js.state = .verified ∧ js.smallGroupBypass = false := by
        intro htell
        obtain ⟨js', hjs', hverified⟩ := h.told htell
        obtain rfl := Option.some.inj (hjs.symm.trans hjs')
        exact hverified
      by_cases hstate : js.state = .provisional
      · rw [joinEvaluate, if_neg (not_not.mpr hstate)]
        refine h.adopt ((h.books js hjs).judged hstate s.reg) fun htell => ?_
        rw [hstate] at htold
        cases (htold htell).1
      · rw [joinEvaluate, if_pos hstate]
        exact h.adopt (h.books js hjs) htold

end World

end Safety

section Deliveries

variable {dsa : MlDsa} {ι : Type} [DecidableEq ι] {crypto : Crypto} {ident : ι → Identity}

end Deliveries

section Five

end Five

end YumiBrowser.Client.Attest
