import YumiBrowser.Registrar.Replicas
import YumiBrowser.Registrar.DeltaAuthorization

namespace YumiBrowser.Group

open Wire Keyed Transition

def Registrar.Removed (reg : Registrar) (p : PeerId) : Prop :=
  ∃ row, reg.peers.find? p = some row ∧ row.status ≠ PeerStatus.active

def Registrar.Banned (reg : Registrar) (p : PeerId) : Prop :=
  ∃ row, reg.peers.find? p = some row ∧ row.status = PeerStatus.banned

def Registrar.Active (reg : Registrar) (p : PeerId) : Prop :=
  ∃ row, reg.peers.find? p = some row ∧ row.status = PeerStatus.active

theorem Registrar.Banned.removed (h : Registrar.Banned reg p) : reg.Removed p := by
  obtain ⟨row, hrow, hstatus⟩ := h
  refine ⟨row, hrow, ?_⟩
  rw [hstatus]
  decide

theorem Registrar.Removed.not_active (h : Registrar.Removed reg p) : ¬ reg.Active p := by
  rintro ⟨row', hrow', hactive⟩
  obtain ⟨row, hrow, hne⟩ := h
  obtain rfl := Option.some.inj (hrow.symm.trans hrow')
  exact hne hactive

/-- The calls the moderation of a peer competes with. -/
def Moderation : Mutation → Prop
  | .peerBan .. | .peerTouch .. | .peerUpdateAddress .. | .peerObservedAddress .. => True
  | _ => False

/-- No delta is merged at the replica whose row for the peer is active and fresher than the row the
replica has. -/
def StaysRemoved (crypto : Crypto) (i : ι) (p : PeerId) (s : Replicas ι) : ReplicaEvent ι → Prop
  | .apply j data now => j = i → ∀ d, Accepts crypto (s.reg i) data now d →
    ∀ st ∈ d.state, ∀ row w, (s.reg i).peers.find? p = some row →
      Table.winner Peer.peerId Peer.stamp p st.peers = some w →
      w.status = PeerStatus.active → w.stamp ≤ row.stamp
  | _ => True

section Rows

variable {reg : Registrar} {p : PeerId}

theorem Removed.modify {q : Peer → Bool} {f : Peer → Peer} (hf : ∀ a, (f a).peerId = a.peerId)
    (hstatus : ∀ a, a.status ≠ PeerStatus.active → (f a).status ≠ PeerStatus.active)
    (h : reg.Removed p) : Registrar.Removed { reg with peers := reg.peers.modify q f hf } p := by
  obtain ⟨row, hrow, hne⟩ := h
  refine ⟨if q row then f row else row, ?_, ?_⟩
  · rw [Table.find?_modify, hrow]
    rfl
  · split
    · exact hstatus row hne
    · exact hne

theorem Removed.auditAppend (h : reg.Removed p) :
    (auditAppend crypto reg change actor target detail ns).Removed p := h

theorem Removed.moderation {m : Mutation} (hm : Moderation m)
    (hrun : m.run crypto reg clk = .ok reg') (h : reg.Removed p) : reg'.Removed p := by
  cases m
  case peerBan peerId reason signer =>
    obtain ⟨_, _, mid, hmid, rfl⟩ := mutate_eq_ok.mp hrun
    cases hrow : reg.peers.find? peerId with
    | none =>
      rw [hrow] at hmid
      cases hmid
    | some row =>
      simp only [hrow] at hmid
      split at hmid
      · cases hmid
      · obtain rfl := Except.ok.inj hmid
        have hbanned : PeerStatus.banned ≠ PeerStatus.active := by decide
        exact Removed.auditAppend (Removed.modify _ (fun _ _ => hbanned) h)
  case peerTouch peerId =>
    obtain rfl := Except.ok.inj hrun
    exact Removed.modify _ (fun _ hne => hne) h
  case peerUpdateAddress ip port peer =>
    obtain rfl := Except.ok.inj hrun
    exact Removed.auditAppend (Removed.modify _ (fun _ hne => hne) h)
  case peerObservedAddress peerId ip port observer =>
    simp only [Mutation.run, peerObservedAddress] at hrun
    split at hrun
    · cases hrun
    · split at hrun
      · cases hrun
      · obtain rfl := Except.ok.inj hrun
        exact Removed.auditAppend (Removed.modify _ (fun _ hne => hne) h)
  all_goals cases hm

theorem removed_merge_iff (h : reg.Removed p) (d : Delta) :
    (cutLog (mergeDelta crypto reg d).1 (mergeDelta crypto reg d).2).Removed p ↔
      ∀ st ∈ d.state, ∀ row w, reg.peers.find? p = some row →
        Table.winner Peer.peerId Peer.stamp p st.peers = some w →
        w.status = PeerStatus.active → w.stamp ≤ row.stamp := by
  obtain ⟨row, hrow, hne⟩ := h
  have hpeers : (cutLog (mergeDelta crypto reg d).1 (mergeDelta crypto reg d).2).peers =
      (mergeStateOf reg d.state).peers := peers_cutLog _ _
  unfold Registrar.Removed
  rw [hpeers]
  cases d.state with
  | none =>
    refine ⟨?_, fun _ => ⟨row, hrow, hne⟩⟩
    intro _ st hst
    cases hst
  | some st =>
    simp only [mergeStateOf, find?_peers_mergeTables, hrow, Option.mem_some_iff, forall_eq',
      Option.some.injEq]
    cases Table.winner Peer.peerId Peer.stamp p st.peers with
    | none =>
      refine ⟨?_, fun _ => ⟨row, rfl, hne⟩⟩
      intro _ row' w _ hw
      cases hw
    | some w =>
      rw [Table.later]
      by_cases hle : w.stamp ≤ row.stamp
      · rw [if_pos hle]
        refine ⟨?_, fun _ => ⟨row, rfl, hne⟩⟩
        rintro _ _ _ rfl ⟨⟩ _
        exact hle
      · rw [if_neg hle]
        constructor
        · rintro ⟨_, ⟨⟩, hw⟩ _ _ rfl ⟨⟩ hactive
          exact absurd hactive hw
        · intro hall
          exact ⟨w, rfl, fun hactive => hle (hall row w rfl rfl hactive)⟩

end Rows

variable {ι : Type} [DecidableEq ι] {crypto : Crypto} {s t : Replicas ι} {i : ι} {p : PeerId}

theorem removed_next_iff {e : ReplicaEvent ι} (hallowed : s.Enabled Moderation e)
    (h : (s.reg i).Removed p) :
    ((s.next crypto e).reg i).Removed p ↔ StaysRemoved crypto i p s e := by
  cases e with
  | mutate j m clk =>
    refine ⟨fun _ => trivial, fun _ => ?_⟩
    rcases reg_next_mutate crypto s j i m clk with hsame | ⟨rfl, hrun⟩
    · rw [hsame]
      exact h
    · exact Removed.moderation hallowed hrun h
  | serialize j since => exact ⟨fun _ => trivial, fun _ => h⟩
  | apply j data now =>
    constructor
    · rintro hafter rfl d hacc
      rw [next_apply_ok rfl hacc] at hafter
      exact (removed_merge_iff h d).mp hafter
    · intro hcond
      rcases reg_next_apply crypto s j i data now with hsame | ⟨rfl, d, hacc, hreg⟩
      · rw [hsame]
        exact h
      · rw [hreg]
        exact (removed_merge_iff h d).mpr (hcond rfl d hacc)

/-- After a ban, as long as no merge brings a fresher active row, the peer stays out. -/
theorem never_active_after_ban {start : (ι → Registrar) → Prop}
    (hban : (s.reg i).Banned p)
    (hpath : ((replicaSystem crypto start Moderation).restrict (StaysRemoved crypto i p)).Path s t) :
    ¬ (t.reg i).Active p := by
  have hkeeps : ((replicaSystem crypto start Moderation).restrict (StaysRemoved crypto i p)).Preserves
      (fun _ => True) fun s => (s.reg i).Removed p := by
    rintro s e t _ hremoved ⟨hcond, hallowed, rfl⟩
    exact (removed_next_iff hallowed hremoved).mpr hcond
  exact (hpath.invariant hkeeps hban.removed).not_active

section Undone

variable {skein : List Byte → Hash}

def banEvent : ReplicaEvent Bool :=
  .mutate false (.peerBan (member 2).peerId none (member 1)) ⟨5, 5000000⟩

def touchEvent (now : I64) : ReplicaEvent Bool := .mutate true (.peerTouch (member 2).peerId) ⟨now, 0⟩

def pairStart (skein : List Byte → Hash) : Replicas Bool := ⟨fun _ => signedPair skein, []⟩

theorem signedPair_member :
    (signedPair skein).peers.find? (member 2).peerId = some (ownerPeer (member 2) 1) :=
  pairGroup_member

def bannedRow : Peer :=
  { ownerPeer (member 2) 1 with
    status := PeerStatus.banned, removedAt := 5, removedBy := (member 1).peerId }

def touchedRow (now : I64) : Peer := { ownerPeer (member 2) 1 with lastSeen := now }

def touchedPair (skein : List Byte → Hash) (now : I64) : Registrar :=
  { signedPair skein with
    peers := (signedPair skein).peers.modify (fun p => p.peerId = (member 2).peerId)
      (fun p => { p with lastSeen := now }) fun _ => rfl }

def bannedPair (skein : List Byte → Hash) : Registrar :=
  auditAppend (onlySigner skein (member 1))
    (updateStatus (signedPair skein) (member 2).peerId PeerStatus.banned 5 [] (member 1).peerId)
    .peerBanned (member 1) (some (member 2).peerId) (ascii "banned") 5000000

theorem peerBan_signedPair : peerBan (onlySigner skein (member 1)) (signedPair skein)
    (member 2).peerId none (member 1) ⟨5, 5000000⟩ = .ok (bannedPair skein) := by
  have hne : ¬ (member 1).peerId = (member 2).peerId := by
    rw [peerId_inj]
    decide
  refine mutate_eq_ok.mpr ⟨rfl, checkPerm_owner rfl (by decide), _, ?_, rfl⟩
  have howner : isOwner (signedPair skein) (member 2).peerId = false := by
    exact decide_eq_false hne
  simp only [signedPair_member, howner]
  rfl

theorem bannedPair_member :
    (bannedPair skein).peers.find? (member 2).peerId = some bannedRow := by
  have hpeers : (bannedPair skein).peers = (updateStatus (signedPair skein) (member 2).peerId
    PeerStatus.banned 5 [] (member 1).peerId).peers := rfl
  rw [hpeers, updateStatus, Table.find?_modify, signedPair_member]
  rfl

theorem touchedPair_member :
    (touchedPair skein now).peers.find? (member 2).peerId = some (touchedRow now) := by
  rw [touchedPair, Table.find?_modify, signedPair_member]
  rfl

theorem touched_accepted : Accepts (onlySigner skein (member 1)) (bannedPair skein)
    (serializeDelta (touchedPair skein now) 0) 7
    { sinceVersion := 0, state := some (stateOf (touchedPair skein now)).received, entries := [] } := by
  have hentries : auditDelta (touchedPair skein now) 0 = [] := by
    simp [auditDelta, touchedPair, signedPair, pairGroup, founded, Table.empty]
  have hlists : (stateOf (touchedPair skein now)).peers.length = 2 ∧
      (stateOf (touchedPair skein now)).roles = [] ∧ (stateOf (touchedPair skein now)).webapps = [] ∧
      (stateOf (touchedPair skein now)).signaling = [] ∧
      (stateOf (touchedPair skein now)).rebroadcast = [] ∧
      (stateOf (touchedPair skein now)).epochs.length = 1 := by
    simp [stateOf, serverList, touchedPair, signedPair, pairGroup, founded, Table.upsert,
      Table.empty, Table.modify, ownerPeer, peerId_inj]
  obtain ⟨hpeers, hroles, hweb, hsig, hreb, hepochs⟩ := hlists
  have hlen := length_writeDelta_le 0 (stateOf (touchedPair skein now)) [] hweb hsig hreb
  rw [hpeers, hroles, hepochs] at hlen
  rw [serializeDelta, hentries]
  refine ⟨tooLarge_of_le (hlen.trans (by decide)), [], readDelta_writeDelta 0 ?_ ?_ rfl⟩
  · constructor <;> simp [hpeers, hroles, hweb, hsig, hreb, hepochs]
  · simp [onlySigner, stateOf, touchedPair, signedPair, Header.signed]

theorem touchedPair_winner : Table.winner Peer.peerId Peer.stamp (member 2).peerId
    (stateOf (touchedPair skein now)).received.peers = some (touchedRow now) := by
  rw [← @touchedPair_member skein now]
  exact Table.winner_of_nodup _ (touchedPair skein now).peers.nodup

theorem unbanned : (cutLog (mergeDelta crypto (bannedPair skein)
      ⟨0, some (stateOf (touchedPair skein 6)).received, []⟩).1
      (mergeDelta crypto (bannedPair skein)
      ⟨0, some (stateOf (touchedPair skein 6)).received, []⟩).2).peers.find? (member 2).peerId =
    some (touchedRow 6) := by
  have hlt : ¬ (touchedRow 6).stamp ≤ bannedRow.stamp := by decide
  rw [peers_cutLog]
  change (mergeTables (bannedPair skein) (stateOf (touchedPair skein 6)).received).peers.find? _ = _
  rw [find?_peers_mergeTables, bannedPair_member, touchedPair_winner, Table.later, if_neg hlt]

theorem next_banEvent : (pairStart skein).next (onlySigner skein (member 1)) banEvent =
    ⟨Function.update (fun _ => signedPair skein) false (bannedPair skein), []⟩ := by
  have hrun : (Mutation.peerBan (member 2).peerId none (member 1)).run (onlySigner skein (member 1))
      (signedPair skein) ⟨5, 5000000⟩ = .ok (bannedPair skein) := peerBan_signedPair
  simp only [banEvent, Replicas.next, pairStart, hrun]
  rfl

theorem bannedPair_banned : ((((pairStart skein).next (onlySigner skein (member 1)) banEvent)).reg
    false).Banned (member 2).peerId := by
  rw [next_banEvent]
  exact ⟨bannedRow, bannedPair_member, rfl⟩

/-- One replica bans the member, the other one touches it and serializes a delta. -/
def touchedReplicas (skein : List Byte → Hash) (now : I64) : Replicas Bool :=
  ([banEvent, touchEvent now, .serialize true 0].foldl (Replicas.next (onlySigner skein (member 1)))
    (pairStart skein))

theorem touchedReplicas_reg : (touchedReplicas skein now).reg =
    fun i => if i then touchedPair skein now else bannedPair skein := by
  rw [touchedReplicas, List.foldl_cons, next_banEvent]
  funext i
  cases i <;> rfl

theorem touched_delta : serializeDelta (touchedPair skein now) 0 ∈ (touchedReplicas skein now).deltas := by
  rw [touchedReplicas, List.foldl_cons, next_banEvent]
  exact List.mem_cons_self

theorem touched_applied : (touchedReplicas skein now).Enabled Moderation
    (.apply false (serializeDelta (touchedPair skein now) 0) 7) := touched_delta

-- The touch at 4 is older than the ban at 5 when its delta is merged.
theorem never_active_after_ban_merged :
    ¬ (((touchedReplicas flatHash 4).next (onlySigner flatHash (member 1))
      (.apply false (serializeDelta (touchedPair flatHash 4) 0) 7)).reg false).Active (member 2).peerId := by
  let crypto := onlySigner flatHash (member 1)
  let S := (replicaSystem crypto (· = (pairStart flatHash).reg) Moderation).restrict
    (StaysRemoved crypto false (member 2).peerId)
  let s₁ := (pairStart flatHash).next crypto banEvent
  let s₂ := s₁.next crypto (touchEvent 4)
  have htouch : S.step s₁ (touchEvent 4) s₂ := ⟨trivial, trivial, rfl⟩
  have hserialize : S.step s₂ (.serialize true 0) (touchedReplicas flatHash 4) := ⟨trivial, trivial, rfl⟩
  have hstays : StaysRemoved crypto false (member 2).peerId (touchedReplicas flatHash 4)
      (.apply false (serializeDelta (touchedPair flatHash 4) 0) 7) := by
    have hbanned : (touchedReplicas flatHash 4).reg false = bannedPair flatHash := by
      rw [touchedReplicas_reg]
      rfl
    intro _ d hacc st hst row w hrow hw _
    rw [hbanned] at hacc hrow
    rw [hacc.unique touched_accepted] at hst
    obtain rfl := Option.some.inj hst
    obtain rfl := Option.some.inj (bannedPair_member.symm.trans hrow)
    obtain rfl := Option.some.inj (touchedPair_winner.symm.trans hw)
    decide
  have happly : S.step (touchedReplicas flatHash 4) (.apply false (serializeDelta (touchedPair flatHash 4) 0) 7)
      ((touchedReplicas flatHash 4).next crypto (.apply false (serializeDelta (touchedPair flatHash 4) 0) 7)) :=
    ⟨hstays, touched_applied, rfl⟩
  exact never_active_after_ban bannedPair_banned (((System.Path.refl.tail htouch).tail hserialize).tail happly)

-- A ban at 5 at one replica, a touch at 6 at the other, whose delta then reaches the first.
theorem ban_undone :
    ¬ ∃ skein : List Byte → Hash, ∀ (s t : Replicas Bool) (i : Bool) (p : PeerId),
      (replicaSystem (onlySigner skein (member 1)) (· = (pairStart skein).reg) Moderation).Reachable s →
      (replicaSystem (onlySigner skein (member 1)) (· = (pairStart skein).reg) Moderation).Path s t →
      (s.reg i).Banned p → ¬ (t.reg i).Active p := by
  rintro ⟨skein, h⟩
  let crypto := onlySigner skein (member 1)
  let S := replicaSystem crypto (· = (pairStart skein).reg) Moderation
  let s₁ := (pairStart skein).next crypto banEvent
  let s₂ := s₁.next crypto (touchEvent 6)
  let s₄ := (touchedReplicas skein 6).next crypto (.apply false (serializeDelta (touchedPair skein 6) 0) 7)
  have hban : S.step (pairStart skein) banEvent s₁ := ⟨trivial, rfl⟩
  have htouch : S.step s₁ (touchEvent 6) s₂ := ⟨trivial, rfl⟩
  have hserialize : S.step s₂ (.serialize true 0) (touchedReplicas skein 6) := ⟨trivial, rfl⟩
  have happly : S.step (touchedReplicas skein 6) (.apply false (serializeDelta (touchedPair skein 6) 0) 7) s₄ :=
    ⟨touched_applied, rfl⟩
  have hreach : S.Reachable s₁ := .step (.init ⟨rfl, rfl⟩) hban
  have hpath : S.Path s₁ s₄ := ((System.Path.refl.tail htouch).tail hserialize).tail happly
  have hlast : (s₄.reg false).Active (member 2).peerId := by
    have hbanned : (touchedReplicas skein 6).reg false = bannedPair skein := by
      rw [touchedReplicas_reg]
      rfl
    refine ⟨touchedRow 6, ?_, rfl⟩
    rw [next_apply_ok hbanned touched_accepted]
    exact unbanned
  exact h s₁ s₄ false _ hreach hpath bannedPair_banned hlast

end Undone

end YumiBrowser.Group
