import YumiBrowser.Network.GenerationRekey

namespace YumiBrowser.Sudp

open Ideal
open YumiBrowser.Group (Registrar Epoch flatHash rotatedGroup)

variable {ι : Type} {c c' : Client ι} {d : Datagram ι} {e : Around ι}

structure Keying (ι : Type) where
  rekeySeed : Seed ι
  sendSubkeys : Key ι
  recvSubkeys : Key ι
  epochSubkeys : Key ι
  sendRekeyGen : BitVec 32
  recvRekeyGen : BitVec 32
  epochId : BitVec 32
  replay : Replay

def Client.keying (c : Client ι) : Keying ι where
  rekeySeed := c.rekeySeed
  sendSubkeys := c.sendSubkeys
  recvSubkeys := c.recvSubkeys
  epochSubkeys := c.epochSubkeys
  sendRekeyGen := c.sendRekeyGen
  recvRekeyGen := c.recvRekeyGen
  epochId := c.epochId
  replay := c.replay

def Client.Fresh (c : Client ι) (d : Datagram ι) : Prop := (replayCheck c.replay d.counter).1 = true

def Client.OpensElsewhere (c : Client ι) (d : Datagram ι) : Prop :=
  c.transportKeyReady = true ∧ genOf d.counter ≠ c.recvRekeyGen ∧
    d.key = deriveGenKey c.rekeySeed (genOf d.counter) (!c.isInitiator)

def Client.OpensAtHand (c : Client ι) (d : Datagram ι) : Prop :=
  (c.transportKeyReady = true ∧ genOf d.counter = c.recvRekeyGen ∧ d.key = c.recvSubkeys) ∨
    d.key = c.epochSubkeys

def Client.OpensAfter (c : Client ι) (epoch : Epoch) (d : Datagram ι) : Prop :=
  d.key = deriveGenKey (c.rekeySeed.rekey epoch.epochKey) 0 (!c.isInitiator) ∨ d.key = .epoch epoch.epochKey

structure Client.Earns (e : Around ι) (c : Client ι) (d : Datagram ι) : Prop where
  elsewhere : c.OpensElsewhere d → c.Fresh d
  after : ¬ c.OpensElsewhere d → ¬ c.OpensAtHand d → ∀ epoch, rotatedEpoch e.reg c = some epoch →
    c.OpensAfter epoch d ∧ c.Fresh d

def Client.Spares (e : Around ι) (c : Client ι) (d : Option (Datagram ι)) : Prop :=
  c.timedOut e.now = true ∨ ∀ sealed ∈ d, c.Earns e sealed

theorem Seed.rekey_ne (seed : Seed ι) (key : YumiBrowser.Group.EpochKey) : seed.rekey key ≠ seed := by
  intro h
  have hdepth : seed.depth + 1 = seed.depth := congrArg Seed.depth h
  omega

theorem accept_rejected (h : (accept c d).2 = none) : (accept c d).1 = c := by
  have hrefused : (replayCheck c.replay d.counter).1 = false := by
    rw [← accept_isSome, h]
    rfl
  simp only [accept, replayCheck_refused hrefused]

theorem accept_eq_none : (accept c d).2 = none ↔ ¬ c.Fresh d := by
  rw [← Option.not_isSome_iff_eq_none, accept_isSome]
  rfl

section Openings

variable [DecidableEq ι]

theorem openSession_elsewhere (h : c.OpensElsewhere d) :
    openSession c d = some { c with recvSubkeys := d.key, recvRekeyGen := genOf d.counter } := by
  obtain ⟨hready, hgen, hkey⟩ := h
  unfold openSession
  dsimp only
  rw [if_neg (not_not.mpr hready), if_neg hgen, if_pos hkey, hkey]

theorem openSession_here (h : ¬ c.OpensElsewhere d) :
    openSession c d = if c.transportKeyReady = true ∧ genOf d.counter = c.recvRekeyGen ∧ d.key = c.recvSubkeys
      then some c else none := by
  unfold openSession
  dsimp only
  by_cases hready : c.transportKeyReady = true
  · rw [if_neg (not_not.mpr hready)]
    by_cases hgen : genOf d.counter = c.recvRekeyGen
    · rw [if_pos hgen]
      simp only [hready, hgen, true_and]
    · rw [if_neg hgen, if_neg fun hkey => h ⟨hready, hgen, hkey⟩, if_neg fun hall => hgen hall.2.1]
  · rw [if_pos hready, if_neg fun hall => hready hall.1]

theorem openDatagram_elsewhere (h : c.OpensElsewhere d) : openDatagram e c d =
    accept { c with recvSubkeys := d.key, recvRekeyGen := genOf d.counter } d := by
  unfold openDatagram
  rw [openSession_elsewhere h]

theorem openDatagram_atHand (h : ¬ c.OpensElsewhere d) (hhand : c.OpensAtHand d) :
    openDatagram e c d = accept c d := by
  unfold openDatagram
  rw [openSession_here h]
  cases hhand with
  | inl hrecv => rw [if_pos hrecv]
  | inr hepoch =>
    split
    · next c' hsome =>
      obtain rfl : c = c' := by
        split at hsome
        · exact Option.some.inj hsome
        · cases hsome
      rfl
    · rw [if_pos hepoch]

theorem openDatagram_after (h : ¬ c.OpensElsewhere d) (hhand : ¬ c.OpensAtHand d) :
    (rotatedEpoch e.reg c = none → openDatagram e c d = (c, none)) ∧
    (∀ epoch, rotatedEpoch e.reg c = some epoch →
      (c.OpensAfter epoch d → openDatagram e c d = accept (epochRekey e.reg c epoch) d) ∧
      (¬ c.OpensAfter epoch d → openDatagram e c d = (epochRekey e.reg c epoch, none))) := by
  unfold openDatagram
  rw [openSession_here h, if_neg fun hrecv => hhand (.inl hrecv)]
  simp only [if_neg fun hepoch => hhand (.inr hepoch)]
  constructor
  · intro hnone
    rw [hnone]
  · intro epoch hepoch
    rw [hepoch]
    exact ⟨fun hopens => if_pos hopens, fun hopens => if_neg hopens⟩

theorem rejected_elsewhere_iff (h : c.OpensElsewhere d) :
    ((openDatagram e c d).2 = none → (openDatagram e c d).1.keying = c.keying) ↔ c.Fresh d := by
  rw [openDatagram_elsewhere h, accept_eq_none]
  constructor
  · intro hkeeps
    by_contra hstale
    exact h.2.1 (congrArg Keying.recvRekeyGen (hkeeps hstale))
  · intro hfresh hstale
    exact absurd hfresh hstale

theorem rejected_atHand (h : ¬ c.OpensElsewhere d) (hhand : c.OpensAtHand d)
    (hnone : (openDatagram e c d).2 = none) : (openDatagram e c d).1.keying = c.keying := by
  rw [openDatagram_atHand h hhand] at hnone ⊢
  rw [accept_rejected hnone]

theorem rejected_after_iff (h : ¬ c.OpensElsewhere d) (hhand : ¬ c.OpensAtHand d) {epoch : Epoch}
    (hepoch : rotatedEpoch e.reg c = some epoch) :
    ((openDatagram e c d).2 = none → (openDatagram e c d).1.keying = c.keying) ↔
      c.OpensAfter epoch d ∧ c.Fresh d := by
  obtain ⟨hopened, hfailed⟩ := (openDatagram_after h hhand).2 epoch hepoch
  by_cases hopens : c.OpensAfter epoch d
  · rw [hopened hopens, accept_eq_none]
    constructor
    · intro hkeeps
      refine ⟨hopens, ?_⟩
      by_contra hstale
      exact c.rekeySeed.rekey_ne epoch.epochKey (congrArg Keying.rekeySeed (hkeeps hstale))
    · intro hearned hstale
      exact absurd hearned.2 hstale
  · rw [hfailed hopens]
    constructor
    · intro hkeeps
      exact absurd (congrArg Keying.rekeySeed (hkeeps rfl)) (c.rekeySeed.rekey_ne epoch.epochKey)
    · intro hearned
      exact absurd hearned.1 hopens

theorem openDatagram_untouched_iff (e : Around ι) (c : Client ι) (d : Datagram ι) :
    ((openDatagram e c d).2 = none → (openDatagram e c d).1.keying = c.keying) ↔ c.Earns e d := by
  by_cases helse : c.OpensElsewhere d
  · rw [rejected_elsewhere_iff helse]
    exact ⟨fun hfresh => ⟨fun _ => hfresh, fun hnot => absurd helse hnot⟩, fun h => h.elsewhere helse⟩
  · by_cases hhand : c.OpensAtHand d
    · exact iff_of_true (rejected_atHand helse hhand)
        ⟨fun h => absurd h helse, fun _ hnot => absurd hhand hnot⟩
    · cases hepoch : rotatedEpoch e.reg c with
      | none =>
        refine iff_of_true ?_ ⟨fun h => absurd h helse, fun _ _ epoch hsome => ?_⟩
        · rw [(openDatagram_after helse hhand).1 hepoch]
          intro _
          rfl
        · cases hepoch.symm.trans hsome
      | some epoch =>
        rw [rejected_after_iff helse hhand hepoch]
        constructor
        · intro hearned
          refine ⟨fun h => absurd h helse, fun _ _ epoch' hsome => ?_⟩
          obtain rfl := Option.some.inj (hepoch.symm.trans hsome)
          exact hearned
        · intro h
          exact h.after helse hhand epoch hepoch

/-- A rejected datagram leaves the keys as they were exactly when it did not make the session take
over keys before it was rejected. -/
theorem rejected_untouched_iff (e : Around ι) (c : Client ι) (d : Option (Datagram ι)) :
    ((pktDecrypt e c d).2 = none → (pktDecrypt e c d).1.1.keying = c.keying) ↔ c.Spares e d := by
  unfold pktDecrypt Client.Spares
  by_cases hout : c.timedOut e.now = true
  · rw [if_pos hout]
    exact iff_of_true (fun _ => rfl) (.inl hout)
  · rw [if_neg hout]
    cases d with
    | none => exact iff_of_true (fun _ => rfl) (.inr fun _ hsealed => by cases hsealed)
    | some d =>
      dsimp only
      rw [openDatagram_untouched_iff]
      constructor
      · intro h
        refine .inr fun sealed hsealed => ?_
        obtain rfl := Option.some.inj hsealed
        exact h
      · intro h
        exact (h.resolve_left hout) d rfl

end Openings

-- Nobody of the session has sealed this datagram, and it does not open.
theorem garbage_rekeys :
    ¬ ∀ (e : Around Bool) (c : Client Bool) (d : Option (Datagram Bool)),
      (pktDecrypt e c d).2 = none → (pktDecrypt e c d).1.1.keying = c.keying := by
  intro h
  have hkeeps := h (aroundAt (rotatedGroup flatHash) 0) (pairEnd true) (some ⟨0, 0, .foreign 0, []⟩) rfl
  exact absurd (congrArg (fun k => k.rekeySeed.depth) hkeeps) (by decide)

end YumiBrowser.Sudp
