import YumiBrowser.Network.DialedPeer

namespace YumiBrowser.Sudp

open Wire Ideal Transition
open YumiBrowser.Group (Registrar Identity PeerId)

variable {ι : Type} [DecidableEq ι]

def World.outputs (s : World ι) : Event ι → List (Output ι)
  | .connect i peerId e => (workerConnect e (s.client i) peerId).2
  | .handshake i msg e => (processHandshakeMsg e (s.client i) msg).2
  | .send i maxPayload channel data reliable =>
    (encryptSend maxPayload (s.client i) channel data reliable).2
  | .encrypt i flags channel seq payload e =>
    (pktEncrypt e (s.client i) (buildPacket flags channel seq payload)).1.2
  | .inject _ => []
  | .decrypt i d e => (pktDecrypt e (s.client i) d).1.2
  | .deliver i d reliable => (innerRecvData (s.client i) (payloadOf d.packet) reliable).2
  | .kick i e => (notifyKick e.reg (s.client i)).2

def Event.actor : Event ι → Option ι
  | .connect i _ _ | .handshake i _ _ | .send i _ _ _ _ | .encrypt i _ _ _ _ _ | .decrypt i _ _
  | .deliver i _ _ | .kick i _ => some i
  | .inject _ => none

def Output.isEstablished : Output ι → Bool
  | .state .established => true
  | _ => false

def Output.isQueued : Output ι → Bool
  | .queued _ _ => true
  | _ => false

structure Passes (s t : World ι) : Prop where
  established : t.established = s.established
  signed : t.signed = s.signed
  received : ∀ r ∈ s.received, r ∈ t.received

variable {s : World ι} {i : ι}

omit [DecidableEq ι] in
theorem Passes.trans {s t u : World ι} (h : Passes s t) (h' : Passes t u) : Passes s u :=
  ⟨h'.established.trans h.established, h'.signed.trans h.signed,
    fun r hr => h'.received r (h.received r hr)⟩

def Output.Passing : Output ι → Prop
  | .queued _ _ | .received _ _ _ | .state .failed => True
  | _ => False

theorem passes_log {out : Output ι} (h : out.Passing) : Passes s (s.log i out) := by
  cases out with
  | state new =>
    cases new with
    | failed => exact ⟨rfl, rfl, fun _ hr => hr⟩
    | _ => exact h.elim
  | queued payload reliable => exact ⟨rfl, rfl, fun _ hr => hr⟩
  | received channel data reliable => exact ⟨rfl, rfl, fun _ hr => List.mem_cons_of_mem _ hr⟩
  | _ => exact h.elim

theorem passes_absorb {o : Outcome ι} (h : ∀ out ∈ o.2, out.Passing) : Passes s (s.absorb i o) := by
  have hlogs : ∀ (outs : List (Output ι)) (t : World ι), (∀ out ∈ outs, out.Passing) →
      Passes t (outs.foldl (World.log i) t) := by
    intro outs
    induction outs with
    | nil => exact fun t _ => ⟨rfl, rfl, fun _ hr => hr⟩
    | cons out outs ih =>
      intro t hall
      exact (passes_log (hall out (List.mem_cons_self ..))).trans
        (ih _ fun o ho => hall o (List.mem_cons_of_mem _ ho))
  obtain ⟨hest, hsigned, hreceived⟩ := hlogs o.2 { s with client := Function.update s.client i o.1 } h
  exact ⟨hest, hsigned, hreceived⟩

def Event.IsUse : Event ι → Prop
  | .connect _ _ _ | .handshake _ _ _ => False
  | _ => True

structure Uses (s t : World ι) : Prop extends Passes s t where
  continues : ∀ j, Continues (s.client j) (t.client j)

omit [DecidableEq ι] in
theorem passing_encryptSend (maxPayload : ℕ) (c : Client ι) (channel : BitVec 8) (data : List Byte)
    (reliable : Bool) : ∀ out ∈ (encryptSend maxPayload c channel data reliable).2, out.Passing := by
  unfold encryptSend
  split
  · simp
  · split
    · simp [setState, Output.Passing]
    · split <;> simp [Output.Passing]

omit [DecidableEq ι] in
theorem passing_innerRecvData (c : Client ι) (pkt : List Byte) (reliable : Bool) :
    ∀ out ∈ (innerRecvData c pkt reliable).2, out.Passing := by
  unfold innerRecvData
  split
  · simp
  · split
    · simp [setState, Output.Passing]
    · split <;> simp [Output.Passing]

omit [DecidableEq ι] in
theorem passing_notifyKick (reg : Registrar) (c : Client ι) :
    ∀ out ∈ (notifyKick reg c).2, out.Passing := by
  unfold notifyKick
  split
  · simp
  · split
    · simp
    · split <;> simp [setState, Output.Passing]

theorem passing_outputs {event : Event ι} (h : event.IsUse) : ∀ out ∈ s.outputs event, out.Passing := by
  cases event with
  | connect i peerId e => exact h.elim
  | handshake i msg e => exact h.elim
  | send i maxPayload channel data reliable => exact passing_encryptSend _ _ _ _ _
  | encrypt i flags channel seq payload e =>
    exact fun out hout => outputs_pktEncrypt _ _ _ out hout ▸ trivial
  | inject d => exact fun _ hout => nomatch hout
  | decrypt i d e => exact fun out hout => outputs_pktDecrypt _ _ _ out hout ▸ trivial
  | deliver i d reliable => exact passing_innerRecvData _ _ _
  | kick i e => exact passing_notifyKick _ _

theorem uses_absorb (u : Use ι) {o : Outcome ι} (ho : o.1 = (s.client i).use u)
    (houts : ∀ out ∈ o.2, out.Passing) : Uses s (s.absorb i o) where
  toPasses := passes_absorb houts
  continues := continues_absorb s (ho ▸ continues_use _ u)

theorem uses_next {event : Event ι} (h : event.IsUse) : Uses s (s.next event) := by
  have houts := passing_outputs (s := s) h
  cases event with
  | connect i peerId e => exact h.elim
  | handshake i msg e => exact h.elim
  | send i maxPayload channel data reliable =>
    exact uses_absorb (.send maxPayload channel data reliable) rfl houts
  | encrypt i flags channel seq payload e =>
    have huse := uses_absorb (s := s) (i := i) (.encrypt (buildPacket flags channel seq payload) e) rfl houts
    exact ⟨⟨huse.established, huse.signed, huse.received⟩, huse.continues⟩
  | inject d => exact ⟨⟨rfl, rfl, fun _ hr => hr⟩, fun _ => .refl _⟩
  | decrypt i d e =>
    have huse := uses_absorb (s := s) (i := i) (.decrypt d e) rfl houts
    unfold World.next
    dsimp only
    split
    · exact ⟨⟨huse.established, huse.signed, huse.received⟩, huse.continues⟩
    · exact huse
  | deliver i d reliable => exact uses_absorb (.recv (payloadOf d.packet) reliable) rfl houts
  | kick i e => exact uses_absorb (.kick e.reg) rfl houts

structure Frames (s t : World ι) (j : ι) : Prop where
  client : t.client j = s.client j
  established : t.established j = s.established j

theorem established_log_ne {j : ι} (hj : j ≠ i) (out : Output ι) :
    (s.log i out).established j = s.established j := by
  cases out with
  | state new =>
    cases new with
    | established => exact Function.update_of_ne hj ..
    | _ => rfl
  | _ => rfl

theorem frames_absorb {j : ι} (hj : j ≠ i) (o : Outcome ι) : Frames s (s.absorb i o) j where
  client := by rw [client_absorb, Function.update_of_ne hj]
  established := by
    have hlogs : ∀ (outs : List (Output ι)) (t : World ι),
        (outs.foldl (World.log i) t).established j = t.established j := by
      intro outs
      induction outs with
      | nil => exact fun t => rfl
      | cons out outs ih => exact fun t => (ih (t.log i out)).trans (established_log_ne hj out)
    exact hlogs o.2 _

theorem frames_next {event : Event ι} {j : ι} (hj : ∀ i ∈ event.actor, j ≠ i) :
    Frames s (s.next event) j := by
  cases event with
  | inject d => exact ⟨rfl, rfl⟩
  | connect i peerId e => exact frames_absorb (hj i rfl) _
  | handshake i msg e => exact frames_absorb (hj i rfl) _
  | send i maxPayload channel data reliable => exact frames_absorb (hj i rfl) _
  | encrypt i flags channel seq payload e =>
    have hframes := frames_absorb (s := s) (hj i rfl)
      (pktEncrypt e (s.client i) (buildPacket flags channel seq payload)).1
    exact ⟨hframes.client, hframes.established⟩
  | decrypt i d e =>
    have hframes := frames_absorb (s := s) (hj i rfl) (pktDecrypt e (s.client i) d).1
    unfold World.next
    dsimp only
    split
    · exact ⟨hframes.client, hframes.established⟩
    · exact hframes
  | deliver i d reliable => exact frames_absorb (hj i rfl) _
  | kick i e => exact frames_absorb (hj i rfl) _

theorem received_log (out : Output ι) : ∀ r ∈ s.received, r ∈ (s.log i out).received := by
  cases out with
  | state new => cases new <;> exact fun _ hr => hr
  | received channel data reliable => exact fun _ hr => List.mem_cons_of_mem _ hr
  | _ => exact fun _ hr => hr

theorem received_absorb (o : Outcome ι) : ∀ r ∈ s.received, r ∈ (s.absorb i o).received := by
  have hlogs : ∀ (outs : List (Output ι)) (t : World ι),
      ∀ r ∈ t.received, r ∈ (outs.foldl (World.log i) t).received := by
    intro outs
    induction outs with
    | nil => exact fun t r hr => hr
    | cons out outs ih => exact fun t r hr => ih (t.log i out) r (received_log out r hr)
  exact hlogs o.2 { s with client := Function.update s.client i o.1 }

theorem received_next (event : Event ι) : ∀ r ∈ s.received, r ∈ (s.next event).received := by
  by_cases huse : event.IsUse
  · exact (uses_next huse).received
  · cases event with
    | connect i peerId e => exact received_absorb _
    | handshake i msg e => exact received_absorb _
    | _ => exact absurd trivial huse

variable {ident : ι → Identity}

theorem reachable_presentable (h : (sudpSystem ident).Reachable s) : ∀ i, ∀ signature ∈ s.established i,
    Presentable (· ∈ s.signed) (IsHonest ident) signature := by
  refine System.Reachable.invariant (I := fun s => ∀ i, ∀ signature ∈ s.established i,
    Presentable (· ∈ s.signed) (IsHonest ident) signature) ?_ ?_ h
  · intro s hs i signature hsig
    rw [(hs.2.1 i).2] at hsig
    exact nomatch hsig
  · rintro s event t _ hall ⟨hen, rfl⟩ j signature hsig
    have hgrown (i : ι) (o : Outcome ι) : ∀ signature, Presentable (· ∈ s.signed) (IsHonest ident) signature →
        Presentable (· ∈ (s.absorb i o).signed) (IsHonest ident) signature :=
      fun signature hp => hp.imp_left fun hin => (signed_absorb s i o).mpr (.inr hin)
    by_cases huse : event.IsUse
    · have huses := uses_next (s := s) huse
      rw [huses.established] at hsig
      rw [huses.signed]
      exact hall j signature hsig
    · cases event with
      | connect i peerId e =>
        have hest := (absorb_plain s i (plain_workerConnect (e := e) (c := s.client i) peerId)).1
        exact hgrown _ _ _ (hall j signature (congrFun hest j ▸ hsig))
      | handshake i msg e =>
        cases outputs_message e (s.client i) msg with
        | inl hplain =>
          have hest := (absorb_plain s i hplain).1
          exact hgrown _ _ _ (hall j signature (congrFun hest j ▸ hsig))
        | inr hconcluded =>
          obtain ⟨new, hnew⟩ := hconcluded
          have hest := (absorb_establishes s i hnew.outputs).1
          change signature ∈ (s.absorb i _).established j at hsig
          rw [hest, Function.update_apply] at hsig
          split at hsig
          · cases hsig
            exact hgrown _ _ _ (hen _ hnew.message)
          · exact hgrown _ _ _ (hall j signature hsig)
      | _ => exact absurd trivial huse


end YumiBrowser.Sudp
