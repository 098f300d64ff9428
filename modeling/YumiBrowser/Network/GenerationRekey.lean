import YumiBrowser.Network.EpochRekey

namespace YumiBrowser.Sudp

open Wire Ideal
open YumiBrowser.Group (Registrar EpochKey Epoch epochGetCurrent)

variable {ι : Type}

structure Client.OnceKeyed (c : Client ι) : Prop where
  derived : c.Derived
  epochSubkeys : ∃ key, c.epochSubkeys = .epoch key
  settled : c.state ≠ .handshaking

/-- The two ends of a session, when they have the same keys and know the same epoch. -/
structure Ends (c₁ c₂ : Client ι) : Prop where
  keyed₁ : c₁.OnceKeyed
  keyed₂ : c₂.OnceKeyed
  role : c₁.isInitiator = !c₂.isInitiator
  seed : c₁.rekeySeed = c₂.rekeySeed
  epochId : c₁.epochId = c₂.epochId

section Window

variable {r : Replay} {seq : BitVec 64}

/-- No further behind the newest counter than the window reaches. -/
def Replay.InWindow (r : Replay) (seq : BitVec 64) : Prop := r.maxSeq.toNat < seq.toNat + replayWindow

/-- The window has a mark at the counter's place. -/
def Replay.MarkedAt (r : Replay) (seq : BitVec 64) : Prop :=
  seq.toNat ≤ r.maxSeq.toNat ∧ r.marked (r.maxSeq.toNat - seq.toNat)

theorem replayCheck_inWindow (h : r.InWindow seq) : (replayCheck r seq).1 = true ↔ ¬ r.MarkedAt seq := by
  unfold Replay.MarkedAt
  by_cases hnew : r.maxSeq < seq
  · have hlt : ¬ seq.toNat ≤ r.maxSeq.toNat := Nat.not_le_of_lt hnew
    simp [replayCheck_newer hnew, hlt]
  · have hle : seq.toNat ≤ r.maxSeq.toNat := Nat.le_of_not_lt hnew
    have hin : ¬ replayWindow ≤ r.maxSeq.toNat - seq.toNat := by
      unfold Replay.InWindow at h
      omega
    rw [replayCheck_late hnew, if_neg hin]
    split <;> simp_all

theorem replayCheck_refused (h : (replayCheck r seq).1 = false) : (replayCheck r seq).2 = r := by
  by_cases hnew : r.maxSeq < seq
  · simp [replayCheck_newer hnew] at h
  · rw [replayCheck_late hnew] at h ⊢
    split
    · rfl
    · split
      · rfl
      · simp_all

theorem Replay.Tracks.not_markedAt {seen : Set ℕ} (h : r.Tracks seen) (hin : r.InWindow seq)
    (hunseen : seq.toNat ∉ seen) : ¬ r.MarkedAt seq := by
  rintro ⟨hle, hmarked⟩
  unfold Replay.InWindow at hin
  exact hunseen ((h.window.mem_iff hle (by omega)).mpr hmarked)

theorem Replay.Tracks.accept {seen : Set ℕ} (h : r.Tracks seen) (hclean : r.CleanFor seq)
    (haccepted : (replayCheck r seq).1 = true) : (replayCheck r seq).2.Tracks (insert seq.toNat seen) := by
  by_cases hnew : r.maxSeq < seq
  · exact (h.newer_iff hnew).mpr hclean
  · have hlate := h.late hnew
    rwa [if_pos haccepted] at hlate

end Window

variable [DecidableEq ι] {c : Client ι} {d : Datagram ι} {e : Around ι}

section Opening

def SealedUnder (d : Datagram ι) (seed : Seed ι) (initDirection : Bool) : Prop :=
  d.key = deriveGenKey seed (genOf d.counter) initDirection

omit [DecidableEq ι] in
theorem sendRekey_sendSubkeys (h : c.Derived) :
    (sendRekey c).sendSubkeys = deriveGenKey c.rekeySeed (genOf c.nonceCounter) c.isInitiator := by
  unfold sendRekey
  by_cases hgen : genOf c.nonceCounter = c.sendRekeyGen
  · rw [if_neg fun hnew => hnew.2 hgen, hgen]
    exact h.send
  · rw [if_pos ⟨h.ready, hgen⟩]

omit [DecidableEq ι] in
theorem sealWith_sealed (h : c.Derived) (pt : List Byte) :
    SealedUnder (sealWith c true pt).2 c.rekeySeed c.isInitiator := by
  simp only [SealedUnder, sealWith, ↓reduceIte]
  exact sendRekey_sendSubkeys h

omit [DecidableEq ι] in
theorem pktEncrypt_sealed (h : c.Derived) {pt : List Byte} (hdata : usesSendSubkeys c pt = true)
    (hd : (pktEncrypt e c pt).2 = some d) : SealedUnder d (pktEncrypt e c pt).1.1.rekeySeed c.isInitiator := by
  unfold pktEncrypt at hd ⊢
  split at hd
  · simp at hd
  · next hout =>
    rw [if_neg hout]
    simp only [hdata, and_true] at hd ⊢
    obtain rfl := Option.some.inj hd
    split
    · have hfollows := follows_refreshEpoch e c pt
      have hseed : (sealWith (refreshEpoch e c pt).1 true (refreshEpoch e c pt).2).1.rekeySeed =
          (refreshEpoch e c pt).1.rekeySeed := (follows_sealWith _ true _).seed
      rw [hseed, ← hfollows.role]
      exact sealWith_sealed (hfollows.derived h) _
    · have hseed : (sealWith c true pt).1.rekeySeed = c.rekeySeed := (follows_sealWith _ true _).seed
      rw [hseed]
      exact sealWith_sealed h pt

omit [DecidableEq ι] in
theorem accept_some : (accept c d).2 = some d.packet ↔ (replayCheck c.replay d.counter).1 = true := by
  simp [accept]

omit [DecidableEq ι] in
theorem accept_isSome : (accept c d).2.isSome = (replayCheck c.replay d.counter).1 := by
  unfold accept
  dsimp only
  split <;> simp_all

theorem openSession_sealed (h : c.Derived) {seed : Seed ι} (hsealed : SealedUnder d seed (!c.isInitiator)) :
    (seed = c.rekeySeed → ∃ c', openSession c d = some c' ∧ c'.replay = c.replay) ∧
    (seed ≠ c.rekeySeed → openSession c d = none) := by
  unfold SealedUnder at hsealed
  unfold openSession
  dsimp only
  rw [if_neg (not_not.mpr h.ready)]
  by_cases hgen : genOf d.counter = c.recvRekeyGen
  · rw [if_pos hgen, h.recv, hsealed, hgen]
    constructor
    · rintro rfl
      exact ⟨c, if_pos rfl, rfl⟩
    · intro hne
      exact if_neg fun heq => hne (Key.gen.inj heq).1
  · rw [if_neg hgen, hsealed]
    constructor
    · rintro rfl
      exact ⟨_, if_pos rfl, rfl⟩
    · intro hne
      exact if_neg fun heq => hne (Key.gen.inj heq).1

theorem openDatagram_sealed_iff (h : c.OnceKeyed) {seed : Seed ι} (hsealed : SealedUnder d seed (!c.isInitiator)) :
    (openDatagram e c d).2 = some d.packet ↔ (replayCheck c.replay d.counter).1 = true ∧
      (seed = c.rekeySeed ∨ ∃ epoch, rotatedEpoch e.reg c = some epoch ∧
        seed = c.rekeySeed.rekey epoch.epochKey ∧ genOf d.counter = 0) := by
  obtain ⟨hsame, hother⟩ := openSession_sealed h.derived hsealed
  have hgen : ∀ key, d.key ≠ .epoch key := by
    intro key heq
    rw [hsealed] at heq
    simp [deriveGenKey] at heq
  unfold openDatagram
  by_cases hseed : seed = c.rekeySeed
  · obtain ⟨c', hopen, hreplay⟩ := hsame hseed
    rw [hopen]
    simp only [hseed, true_or, and_true, accept_some, hreplay]
  · rw [hother hseed]
    obtain ⟨key, hkey⟩ := h.epochSubkeys
    simp only
    rw [hkey, if_neg (hgen key)]
    cases hepoch : rotatedEpoch e.reg c with
    | none => simp [hseed]
    | some epoch =>
      simp only [epochRekey, hgen epoch.epochKey, or_false]
      by_cases hnext : seed = c.rekeySeed.rekey epoch.epochKey ∧ genOf d.counter = 0
      · have hopens : d.key = deriveGenKey (c.rekeySeed.rekey epoch.epochKey) 0 (!c.isInitiator) := by
          rw [hsealed, hnext.1, hnext.2]
        rw [if_pos hopens, accept_some]
        simp [hnext]
      · have hfails : d.key ≠ deriveGenKey (c.rekeySeed.rekey epoch.epochKey) 0 (!c.isInitiator) := by
          intro heq
          rw [hsealed] at heq
          obtain ⟨hs, hg, _⟩ := Key.gen.inj heq
          exact hnext ⟨hs, hg⟩
        rw [if_neg hfails]
        apply iff_of_false (by simp)
        rintro ⟨_, hsame | hnew⟩
        · exact hseed hsame
        · obtain ⟨epoch', heq, hnew⟩ := hnew
          obtain rfl := Option.some.inj heq
          exact hnext hnew

end Opening

section Uses

variable {us : List (Use ι)} {seen : Set ℕ}

structure Progresses (c c' : Client ι) : Prop where
  state : c.state ≠ .handshaking → c'.state ≠ .handshaking
  epochSubkeys : (∃ key, c.epochSubkeys = .epoch key) → ∃ key, c'.epochSubkeys = .epoch key

omit [DecidableEq ι] in
theorem Progresses.refl (c : Client ι) : Progresses c c := ⟨id, id⟩

omit [DecidableEq ι] in
theorem Progresses.trans {c' c'' : Client ι} (h : Progresses c c') (h' : Progresses c' c'') : Progresses c c'' :=
  ⟨fun hc => h'.state (h.state hc), fun hc => h'.epochSubkeys (h.epochSubkeys hc)⟩

omit [DecidableEq ι] in
theorem settles_refreshEpoch (pt : List Byte) :
    Progresses c (refreshEpoch e c pt).1 ∧ (refreshEpoch e c pt).1.replay = c.replay := by
  unfold refreshEpoch
  split
  · dsimp only
    split
    · next epoch _ =>
      split
      · exact ⟨⟨id, fun _ => ⟨epoch.epochKey, rfl⟩⟩, rfl⟩
      · exact ⟨⟨id, id⟩, rfl⟩
    · exact ⟨⟨id, id⟩, rfl⟩
  · exact ⟨⟨id, id⟩, rfl⟩

omit [DecidableEq ι] in
theorem settles_sealWith (session : Bool) (pt : List Byte) :
    Progresses c (sealWith c session pt).1 ∧ (sealWith c session pt).1.replay = c.replay := by
  unfold sealWith sendRekey
  dsimp only
  split
  · split <;> exact ⟨⟨id, id⟩, rfl⟩
  · exact ⟨⟨id, id⟩, rfl⟩

theorem openDatagram_cases (e : Around ι) (c : Client ι) (d : Datagram ι) :
    ∃ c', (openDatagram e c d = accept c' d ∨ openDatagram e c d = (c', none)) ∧ c'.replay = c.replay ∧
      Progresses c c' := by
  unfold openDatagram
  cases hopen : openSession c d with
  | some c' =>
    refine ⟨c', Or.inl rfl, ?_⟩
    unfold openSession at hopen
    dsimp only at hopen
    split at hopen
    · cases hopen
    · split at hopen
      · split at hopen
        · cases hopen
          exact ⟨rfl, .refl _⟩
        · cases hopen
      · split at hopen
        · cases hopen
          exact ⟨rfl, ⟨id, id⟩⟩
        · cases hopen
  | none =>
    simp only
    split
    · exact ⟨c, Or.inl rfl, rfl, .refl _⟩
    · split
      · exact ⟨c, Or.inr rfl, rfl, .refl _⟩
      · next epoch _ =>
        split
        · exact ⟨_, Or.inl rfl, rfl, ⟨id, fun _ => ⟨epoch.epochKey, rfl⟩⟩⟩
        · exact ⟨_, Or.inr rfl, rfl, ⟨id, fun _ => ⟨epoch.epochKey, rfl⟩⟩⟩

def Client.accepts (c : Client ι) : Use ι → Option (BitVec 64)
  | .decrypt (some d) e => if (pktDecrypt e c (some d)).2.isSome then some d.counter else none
  | _ => none

def afterAccepting (seen : Set ℕ) : Option (BitVec 64) → Set ℕ
  | some seq => insert seq.toNat seen
  | none => seen

def Client.seenAfter (seen : Set ℕ) : Client ι → List (Use ι) → Set ℕ
  | _, [] => seen
  | c, u :: us => Client.seenAfter (afterAccepting seen (c.accepts u)) (c.use u) us

/-- Every datagram that was delivered moved the replay window by a clean jump. -/
def Client.Clean : Client ι → List (Use ι) → Prop
  | _, [] => True
  | c, u :: us => (∀ seq, c.accepts u = some seq → c.replay.CleanFor seq) ∧ (c.use u).Clean us

theorem pktDecrypt_settled (h : c.state ≠ .handshaking) (d : Datagram ι) :
    pktDecrypt e c (some d) = (((openDatagram e c d).1, []), (openDatagram e c d).2) := by
  have hout : ¬ c.timedOut e.now = true := by simp [Client.timedOut, h]
  unfold pktDecrypt
  rw [if_neg hout]

structure Presents (c : Client ι) (seq : Option (BitVec 64)) (c' : Client ι) : Prop where
  accepted : ∀ n, seq = some n → (replayCheck c.replay n).1 = true ∧ c'.replay = (replayCheck c.replay n).2
  refused : seq = none → c'.replay = c.replay

theorem use_settles (h : c.state ≠ .handshaking) (u : Use ι) :
    Progresses c (c.use u) ∧ Presents c (c.accepts u) (c.use u) := by
  have quiet {c' : Client ι} (hs : Progresses c c' ∧ c'.replay = c.replay) : Progresses c c' ∧ Presents c none c' :=
    ⟨hs.1, fun _ hn => absurd hn (by simp), fun _ => hs.2⟩
  cases u with
  | encrypt pt e =>
    apply quiet
    have hout : ¬ c.timedOut e.now = true := by simp [Client.timedOut, h]
    simp only [Client.use, pktEncrypt]
    rw [if_neg hout]
    obtain ⟨hseal, hreplay⟩ := settles_sealWith (c := (refreshEpoch e c pt).1) (usesSendSubkeys c pt)
      (refreshEpoch e c pt).2
    obtain ⟨hrefresh, hsame⟩ := settles_refreshEpoch (c := c) (e := e) pt
    by_cases hdata : udpHdrSize + 4 < pt.length ∧ usesSendSubkeys c pt = true
    · rw [if_pos hdata]
      exact ⟨hrefresh.trans hseal, hreplay.trans hsame⟩
    · rw [if_neg hdata]
      exact settles_sealWith (usesSendSubkeys c pt) pt
  | decrypt d e =>
    cases d with
    | none =>
      apply quiet
      have hout : ¬ c.timedOut e.now = true := by simp [Client.timedOut, h]
      simp only [Client.use, pktDecrypt]
      rw [if_neg hout]
      exact ⟨.refl c, rfl⟩
    | some d =>
      obtain ⟨c', hopen, hreplay, hsettles⟩ := openDatagram_cases e c d
      simp only [Client.use, Client.accepts, pktDecrypt_settled h]
      cases hopen with
      | inr hnone =>
        rw [hnone]
        exact quiet ⟨hsettles, hreplay⟩
      | inl haccept =>
        rw [haccept]
        refine ⟨hsettles.trans ⟨id, id⟩, ?_⟩
        have hnext : (accept c' d).1.replay = (replayCheck c.replay d.counter).2 := by rw [← hreplay]; rfl
        simp only [accept_isSome, hreplay]
        by_cases hcheck : (replayCheck c.replay d.counter).1 = true
        · rw [if_pos hcheck]
          refine ⟨fun n hn => ?_, fun hn => absurd hn (by simp)⟩
          obtain rfl := Option.some.inj hn
          exact ⟨hcheck, hnext⟩
        · rw [if_neg hcheck]
          refine ⟨fun n hn => absurd hn (by simp), fun _ => ?_⟩
          exact hnext.trans (replayCheck_refused (by simpa using hcheck))
  | send maxPayload channel data reliable =>
    apply quiet
    simp only [Client.use, encryptSend]
    split
    · exact ⟨.refl c, rfl⟩
    · split
      · exact ⟨⟨fun _ => by simp [setState], id⟩, rfl⟩
      · split <;> exact ⟨.refl c, rfl⟩
  | recv pkt reliable =>
    apply quiet
    simp only [Client.use, innerRecvData]
    split
    · exact ⟨.refl c, rfl⟩
    · split
      · exact ⟨⟨fun _ => by simp [setState], id⟩, rfl⟩
      · split <;> exact ⟨.refl c, rfl⟩
  | kick reg =>
    apply quiet
    simp only [Client.use, notifyKick]
    split
    · exact ⟨.refl c, rfl⟩
    · split
      · exact ⟨.refl c, rfl⟩
      · split
        · exact ⟨⟨fun _ => by simp [setState], id⟩, rfl⟩
        · exact ⟨.refl c, rfl⟩

theorem Client.OnceKeyed.use (h : c.OnceKeyed) (u : Use ι) : (c.use u).OnceKeyed where
  derived := (follows_use c u).derived h.derived
  epochSubkeys := (use_settles h.settled u).1.epochSubkeys h.epochSubkeys
  settled := (use_settles h.settled u).1.state h.settled

theorem Client.OnceKeyed.uses (h : c.OnceKeyed) (us : List (Use ι)) : (us.foldl (·.use ·) c).OnceKeyed := by
  induction us generalizing c with
  | nil => exact h
  | cons u us ih => exact ih (h.use u)

theorem Client.OnceKeyed.tracks (h : c.OnceKeyed) (htracks : c.replay.Tracks seen) (hclean : c.Clean us) :
    (us.foldl (·.use ·) c).replay.Tracks (c.seenAfter seen us) := by
  induction us generalizing c seen with
  | nil => exact htracks
  | cons u us ih =>
    obtain ⟨hstep, hrest⟩ := hclean
    have hpresents := (use_settles h.settled u).2
    refine ih (h.use u) ?_ hrest
    cases hseq : c.accepts u with
    | none => exact (hpresents.refused hseq).symm ▸ htracks
    | some seq =>
      obtain ⟨hcheck, hreplay⟩ := hpresents.accepted seq hseq
      exact hreplay.symm ▸ htracks.accept (hstep seq hseq) hcheck

end Uses

section Decryptability

variable {c₁ c₂ : Client ι} {us₁ us₂ : List (Use ι)} {seen : Set ℕ}

/-- The other end decrypts a datagram if it has met the same rotations, or if it is one behind and the
datagram is of the first generation: the registrar's new epoch is tried with the keys of that
generation only. -/
theorem decrypt_sealed_iff (h : Ends c₁ c₂) {e₁ e₂ : Around ι} {pt : List Byte}
    (hdata : usesSendSubkeys (us₁.foldl (·.use ·) c₁) pt = true)
    (hd : (pktEncrypt e₁ (us₁.foldl (·.use ·) c₁) pt).2 = some d)
    (htracks : c₂.replay.Tracks seen)
    (hunseen : d.counter.toNat ∉ c₂.seenAfter seen us₂)
    (hin : (us₂.foldl (·.use ·) c₂).replay.InWindow d.counter) :
    ((pktDecrypt e₂ (us₂.foldl (·.use ·) c₂) (some d)).2 = some d.packet ↔
      ¬ (us₂.foldl (·.use ·) c₂).replay.MarkedAt d.counter ∧
        (rotations c₁.epochId (c₁.observes (us₁ ++ [.encrypt pt e₁])) = rotations c₂.epochId (c₂.observes us₂) ∨
          ∃ epoch, rotatedEpoch e₂.reg (us₂.foldl (·.use ·) c₂) = some epoch ∧
            rotations c₁.epochId (c₁.observes (us₁ ++ [.encrypt pt e₁])) =
              rotations c₂.epochId (c₂.observes us₂) ++ [epoch.epochKey] ∧ genOf d.counter = 0)) ∧
    (c₂.Clean us₂ → ¬ (us₂.foldl (·.use ·) c₂).replay.MarkedAt d.counter) := by
  have hf₁ := follows_uses c₁ us₁
  have hf₂ := follows_uses c₂ us₂
  have hall := follows_uses c₁ (us₁ ++ [.encrypt pt e₁])
  have hkeyed₂ := h.keyed₂.uses us₂
  have hsealed := pktEncrypt_sealed (hf₁.derived h.keyed₁.derived) hdata hd
  have hrole : (us₁.foldl (·.use ·) c₁).isInitiator = !(us₂.foldl (·.use ·) c₂).isInitiator := by
    rw [hf₁.role, hf₂.role, h.role]
  have hseed := hall.seed
  rw [List.foldl_append] at hseed
  rw [hrole] at hsealed
  refine ⟨?_, fun hclean => (h.keyed₂.tracks htracks hclean).not_markedAt hin hunseen⟩
  rw [pktDecrypt_settled hkeyed₂.settled, openDatagram_sealed_iff hkeyed₂ hsealed, replayCheck_inWindow hin]
  refine and_congr_right fun _ => ?_
  have hown : (pktEncrypt e₁ (us₁.foldl (·.use ·) c₁) pt).1.1.rekeySeed =
      c₂.rekeySeed.rekeyAll (rotations c₁.epochId (c₁.observes (us₁ ++ [.encrypt pt e₁]))) := h.seed ▸ hseed
  rw [hown, hf₂.seed, Seed.rekeyAll_inj]
  refine or_congr_right (exists_congr fun epoch => and_congr_right fun _ => and_congr_left fun _ => ?_)
  have hrekeyed : c₂.rekeySeed.rekeyAll (rotations c₁.epochId (c₁.observes (us₁ ++ [.encrypt pt e₁]))) =
      c₂.rekeySeed.rekeyAll (rotations c₂.epochId (c₂.observes us₂) ++ [epoch.epochKey]) ↔ _ := Seed.rekeyAll_inj
  rw [← hrekeyed, Seed.rekeyAll_append]
  rfl

open YumiBrowser.Group (flatHash rotatedGroup createdGroup)

def fullGeneration : Client Bool := { pairEnd true with nonceCounter := 1048576#64 }

def dataPacket : List Byte := List.replicate udpHdrSize 0 ++ [0, 0, 0, 1, 7, 7]

def aroundAt (reg : Registrar) (now : ℕ) : Around Bool := ⟨reg, now, fun _ => false, .other 0⟩

theorem fullGeneration_ends : Ends fullGeneration (pairEnd false) where
  keyed₁ := ⟨⟨rfl, rfl, rfl⟩, ⟨_, rfl⟩, by decide⟩
  keyed₂ := ⟨pairEnd_derived false, ⟨_, rfl⟩, by decide⟩
  role := rfl
  seed := rfl
  epochId := rfl

theorem dataPacket_uses : usesSendSubkeys fullGeneration dataPacket = true := by decide

theorem secondGeneration_inWindow : Replay.zero.InWindow 1048576#64 := by
  unfold Replay.InWindow
  decide

theorem decrypt_sealed_iff_generation :
    ∃ d, (pktEncrypt (aroundAt (createdGroup flatHash) 0) fullGeneration dataPacket).2 = some d ∧
      genOf d.counter = 1 ∧
      (pktDecrypt (aroundAt (createdGroup flatHash) 0) (pairEnd false) (some d)).2 = some d.packet := by
  obtain ⟨d, hd, hcounter⟩ : ∃ d, (pktEncrypt (aroundAt (createdGroup flatHash) 0)
      fullGeneration dataPacket).2 = some d ∧ d.counter = 1048576#64 := ⟨_, rfl, rfl⟩
  have hunseen : d.counter.toNat ∉ (pairEnd false).seenAfter ∅ [] := Set.notMem_empty _
  have hin : (List.foldl (·.use ·) (pairEnd false) []).replay.InWindow d.counter :=
    hcounter ▸ secondGeneration_inWindow
  have h := @decrypt_sealed_iff _ _ d _ _ [] [] ∅ fullGeneration_ends _ (aroundAt (createdGroup flatHash) 0) _
    dataPacket_uses hd Replay.tracks_zero hunseen hin
  exact ⟨d, hd, hcounter ▸ rfl, h.1.mpr ⟨h.2 trivial, Or.inl rfl⟩⟩

theorem rotated_generation_lost :
    ¬ ∀ (c₁ c₂ : Client Bool) (us₁ us₂ : List (Use Bool)) (e₁ e₂ : Around Bool) (pt : List Byte)
      (d : Datagram Bool) (seen : Set ℕ), Ends c₁ c₂ → usesSendSubkeys (us₁.foldl (·.use ·) c₁) pt = true →
      (pktEncrypt e₁ (us₁.foldl (·.use ·) c₁) pt).2 = some d → c₂.replay.Tracks seen →
      d.counter.toNat ∉ c₂.seenAfter seen us₂ → (us₂.foldl (·.use ·) c₂).replay.InWindow d.counter →
      (rotations c₁.epochId (c₁.observes (us₁ ++ [.encrypt pt e₁])) = rotations c₂.epochId (c₂.observes us₂) ∨
        ∃ epoch, rotatedEpoch e₂.reg (us₂.foldl (·.use ·) c₂) = some epoch ∧
          rotations c₁.epochId (c₁.observes (us₁ ++ [.encrypt pt e₁])) =
            rotations c₂.epochId (c₂.observes us₂) ++ [epoch.epochKey]) →
      (pktDecrypt e₂ (us₂.foldl (·.use ·) c₂) (some d)).2 = some d.packet := by
  intro h
  obtain ⟨d, hd, hcounter⟩ : ∃ d, (pktEncrypt (aroundAt (rotatedGroup flatHash) epochCheckIntervalUs)
      fullGeneration dataPacket).2 = some d ∧ d.counter = 1048576#64 := ⟨_, rfl, rfl⟩
  have hlost := h fullGeneration (pairEnd false) [] [] (aroundAt (rotatedGroup flatHash) epochCheckIntervalUs)
    (aroundAt (rotatedGroup flatHash) epochCheckIntervalUs) dataPacket d ∅ fullGeneration_ends dataPacket_uses hd
    Replay.tracks_zero (Set.notMem_empty _) (hcounter ▸ secondGeneration_inWindow)
    (Or.inr ⟨_, rfl, rfl⟩)
  have hkeyed := fullGeneration_ends.keyed₂
  have hsealed := pktEncrypt_sealed fullGeneration_ends.keyed₁.derived dataPacket_uses hd
  simp only [List.foldl_nil] at hlost
  rw [pktDecrypt_settled hkeyed.settled, openDatagram_sealed_iff hkeyed hsealed, hcounter] at hlost
  cases hlost.2 with
  | inl hsame => exact absurd (congrArg Seed.depth hsame) (by decide)
  | inr hnew =>
    obtain ⟨_, _, _, hgen⟩ := hnew
    exact absurd hgen (by decide)

end Decryptability

end YumiBrowser.Sudp
