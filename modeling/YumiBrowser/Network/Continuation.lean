import YumiBrowser.Network.EpochRekey
import YumiBrowser.Network.Handshake

namespace YumiBrowser.Sudp

open Wire Ideal Transition
open YumiBrowser.Group (Registrar Identity PeerId Epoch epochGetCurrent)

variable {ι : Type}

def Client.fixed (c : Client ι) : Client ι :=
  { c with
    state := .disconnected
    sendSubkeys := .zero
    recvSubkeys := .zero
    epochSubkeys := .zero
    nonceCounter := 0
    epochId := 0
    epochCheckLastUs := 0
    rekeySeed := .zero
    sendRekeyGen := 0
    recvRekeyGen := 0
    replay := .zero
    peerActive := false }

structure Continues (c c' : Client ι) : Prop where
  fixed : c'.fixed = c.fixed
  root : c'.root? = c.root?
  state : c'.state = c.state ∨ c'.state = .failed
  active : c'.peerActive = true → c.peerActive = true
  unkeyed : c.transportKeyReady = false → c'.sendSubkeys = c.sendSubkeys

namespace Continues

variable {c c' c'' : Client ι}

theorem refl (c : Client ι) : Continues c c := ⟨rfl, rfl, .inl rfl, id, fun _ => rfl⟩

theorem ready (h : Continues c c') : c'.transportKeyReady = c.transportKeyReady := by
  have hfixed := congrArg Client.transportKeyReady h.fixed
  exact hfixed

theorem role (h : Continues c c') : c'.isInitiator = c.isInitiator := by
  have hfixed := congrArg Client.isInitiator h.fixed
  exact hfixed

theorem trans (h : Continues c c') (h' : Continues c' c'') : Continues c c'' where
  fixed := h'.fixed.trans h.fixed
  root := h'.root.trans h.root
  state := by
    cases h'.state with
    | inl heq =>
      rw [heq]
      exact h.state
    | inr hfailed => exact .inr hfailed
  active ha := h.active (h'.active ha)
  unkeyed hready := (h'.unkeyed (h.ready.trans hready)).trans (h.unkeyed hready)

theorem hs (h : Continues c c') : c'.hs = c.hs := by
  have hfixed := congrArg Client.hs h.fixed
  exact hfixed

theorem deadline (h : Continues c c') : c'.hsDeadlineUs = c.hsDeadlineUs := by
  have hfixed := congrArg Client.hsDeadlineUs h.fixed
  exact hfixed

theorem epochRekey (reg : Registrar) {c : Client ι} (epoch : Epoch) (hready : c.transportKeyReady = true) :
    Continues c (epochRekey reg c epoch) where
  fixed := rfl
  root := rfl
  state := .inl rfl
  active ha := by
    unfold Sudp.epochRekey at ha
    dsimp only at ha
    split at ha
    · split at ha
      · cases ha
      · exact ha
    · exact ha
  unkeyed hunready := absurd (hunready.symm.trans hready) Bool.false_ne_true

end Continues

section Uses

variable (e : Around ι) (c : Client ι)

theorem continues_setState_failed : Continues c (setState c .failed).1 := ⟨rfl, rfl, .inr rfl, id, fun _ => rfl⟩

theorem continues_refreshEpoch (pt : List Byte) : Continues c (refreshEpoch e c pt).1 := by
  unfold refreshEpoch
  split
  · next hdue =>
    have hchecked : Continues c { c with epochCheckLastUs := e.now } := ⟨rfl, rfl, .inl rfl, id, fun _ => rfl⟩
    dsimp only
    split
    · split
      · exact hchecked.trans (Continues.epochRekey e.reg _ hdue.1)
      · exact hchecked
    · exact hchecked
  · exact Continues.refl c

theorem continues_sealWith (session : Bool) (pt : List Byte) :
    Continues c (sealWith c session pt).1 := by
  unfold sealWith sendRekey
  dsimp only
  split
  · split
    · next hgen =>
      exact ⟨rfl, rfl, .inl rfl, id, fun hunready => absurd (hunready.symm.trans hgen.1) Bool.false_ne_true⟩
    · exact ⟨rfl, rfl, .inl rfl, id, fun _ => rfl⟩
  · exact ⟨rfl, rfl, .inl rfl, id, fun _ => rfl⟩

theorem continues_accept (d : Datagram ι) : Continues c (accept c d).1 := ⟨rfl, rfl, .inl rfl, id, fun _ => rfl⟩

variable [DecidableEq ι]

theorem continues_openSession {c c' : Client ι} {d : Datagram ι} (h : openSession c d = some c') :
    Continues c c' := by
  unfold openSession at h
  dsimp only at h
  split at h
  · cases h
  · split at h
    · split at h
      · cases h
        exact Continues.refl c
      · cases h
    · split at h
      · cases h
        exact ⟨rfl, rfl, .inl rfl, id, fun _ => rfl⟩
      · cases h

theorem continues_openDatagram (d : Datagram ι) : Continues c (openDatagram e c d).1 := by
  unfold openDatagram
  split
  · next c' hopen => exact (continues_openSession hopen).trans (continues_accept c' d)
  · split
    · exact continues_accept c d
    · split
      · exact Continues.refl c
      · next epoch hepoch =>
        have hready : c.transportKeyReady = true := by
          have hrotated := (Option.filter_eq_some_iff.mp hepoch).2
          rw [decide_eq_true_eq] at hrotated
          exact hrotated.1
        have hrekeyed := Continues.epochRekey e.reg epoch hready
        dsimp only
        split
        · exact hrekeyed.trans (continues_accept _ d)
        · exact hrekeyed

theorem continues_use (u : Use ι) : Continues c (c.use u) := by
  cases u with
  | encrypt pt e =>
    simp only [Client.use, pktEncrypt]
    split
    · exact continues_setState_failed c
    · dsimp only
      split
      · exact (continues_refreshEpoch e c pt).trans (continues_sealWith ..)
      · exact continues_sealWith ..
  | decrypt d e =>
    simp only [Client.use, pktDecrypt]
    split
    · exact continues_setState_failed c
    · cases d with
      | none => exact Continues.refl c
      | some d => exact continues_openDatagram e c d
  | send maxPayload channel data reliable =>
    simp only [Client.use, encryptSend]
    split
    · exact Continues.refl c
    · split
      · exact continues_setState_failed c
      · split <;> exact Continues.refl c
  | recv pkt reliable =>
    simp only [Client.use, innerRecvData]
    split
    · exact Continues.refl c
    · split
      · exact continues_setState_failed c
      · split <;> exact Continues.refl c
  | kick reg =>
    simp only [Client.use, notifyKick]
    split
    · exact Continues.refl c
    · split
      · exact Continues.refl c
      · split
        · exact ⟨rfl, rfl, .inr rfl, fun ha => (Bool.false_ne_true ha).elim, fun _ => rfl⟩
        · exact Continues.refl c

theorem Kept.of_continues {P : Client ι → Prop}
    (hconnect : ∀ e c peerId, P c → P (workerConnect e c peerId).1)
    (hhandshake : ∀ e c msg, P c → P (processHandshakeMsg e c msg).1)
    (huse : ∀ c c', Continues c c' → P c → P c') : Kept P where
  connect := hconnect
  handshake := hhandshake
  send maxPayload c channel data reliable :=
    huse _ _ (continues_use c (.send maxPayload channel data reliable))
  encrypt e c pt := huse _ _ (continues_use c (.encrypt pt e))
  decrypt e c d := huse _ _ (continues_use c (.decrypt d e))
  deliver c pkt reliable := huse _ _ (continues_use c (.recv pkt reliable))
  kick reg c := huse _ _ (continues_use c (.kick reg))

theorem client_absorb_self (s : World ι) (i : ι) (o : Outcome ι) : (s.absorb i o).client i = o.1 := by
  rw [client_absorb, Function.update_self]

theorem continues_absorb (s : World ι) {i : ι} {o : Outcome ι} (ho : Continues (s.client i) o.1)
    (j : ι) : Continues (s.client j) ((s.absorb i o).client j) := by
  rw [client_absorb, Function.update_apply]
  split
  · next hj => exact hj ▸ ho
  · exact Continues.refl _

theorem client_next (s : World ι) (event : Event ι) (i : ι) :
    (∃ peerId e, event = .connect i peerId e ∧
      (s.next event).client i = (workerConnect e (s.client i) peerId).1) ∨
    (∃ msg e, event = .handshake i msg e ∧
      (s.next event).client i = (processHandshakeMsg e (s.client i) msg).1) ∨
    Continues (s.client i) ((s.next event).client i) := by
  have hother {j : ι} (o : Outcome ι) (hj : j ≠ i) :
      Continues (s.client i) ((s.absorb j o).client i) := by
    rw [client_absorb, Function.update_of_ne hj.symm]
    exact Continues.refl _
  cases event with
  | connect j peerId e =>
    by_cases hj : j = i
    · subst hj
      exact .inl ⟨peerId, e, rfl, client_absorb_self ..⟩
    · exact .inr (.inr (hother _ hj))
  | handshake j msg e =>
    by_cases hj : j = i
    · subst hj
      exact .inr (.inl ⟨msg, e, rfl, client_absorb_self ..⟩)
    · exact .inr (.inr (hother _ hj))
  | send j maxPayload channel data reliable =>
    exact .inr (.inr (continues_absorb s (continues_use _ (.send maxPayload channel data reliable)) i))
  | encrypt j flags channel seq payload e =>
    exact .inr (.inr (continues_absorb s
      (continues_use _ (.encrypt (buildPacket flags channel seq payload) e)) i))
  | inject d => exact .inr (.inr (Continues.refl _))
  | decrypt j d e =>
    have hcont := continues_absorb s (continues_use _ (.decrypt d e)) (i := j) i
    refine .inr (.inr ?_)
    unfold World.next
    dsimp only
    split <;> exact hcont
  | deliver j d reliable =>
    exact .inr (.inr (continues_absorb s (continues_use _ (.recv (payloadOf d.packet) reliable)) i))
  | kick j e => exact .inr (.inr (continues_absorb s (continues_use _ (.kick e.reg)) i))

end Uses

end YumiBrowser.Sudp
