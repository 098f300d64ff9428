import YumiBrowser.Client.Sync
import YumiBrowser.Registrar.Convergence
import YumiBrowser.Registrar.Lineage

namespace YumiBrowser.Client

open Wire Keyed YumiBrowser.Group Transition

structure Fits (reg : Registrar) : Prop where
  peers : reg.peers.rows.length < 2 ^ 32
  roles : reg.roles.rows.length < 2 ^ 32
  webapps : reg.webapps.rows.length < 2 ^ 32
  servers : reg.servers.rows.length < 2 ^ 32
  epochs : reg.epochs.rows.length < 2 ^ 32

structure MayWrite (s : Pair) (i : Bool) (e : AuditEntry) : Prop where
  ahead : (s.client (!i)).version ≤ (s.client i).version
  signed : (s.client i).version.toNat + 1 < 2 ^ 31
  fresh : ∀ a ∈ s.made, a.entryHash ≠ zeroBytes 128 ∧ a.entryHash ≠ e.entryHash

/-- The clients write in turn, and merges leave no gap. -/
def Orderly (crypto : Crypto) (s : Pair) : SyncEvent → Prop
  | .mutate i m clk => ∀ reg' e, m.run crypto (s.client i).reg clk = .ok reg' →
    Writes (s.client i).reg reg' e → MayWrite s i e
  | .handle i now => Fits (s.client i).reg ∧
    ∀ data rest d, s.inbox i = .delta data :: rest → Accepts crypto (s.client i).reg data now d →
      Taken crypto (s.client i).reg d
  | .poll i => Fits (s.client i).reg
  | _ => True

namespace Pair

def Sound (s : Pair) (i : Bool) : SyncMsg → Prop
  | .version v => v ≤ (s.client (!i)).version
  | .deltaReq since => since ≤ (s.client (!i)).version
  | .delta data => ∃ reg since, data = serializeDelta reg since ∧ Fits reg ∧
    since ≤ (s.client i).version ∧ reg.header.version ≤ (s.client (!i)).version ∧
    Holds s.made reg.header.version reg.auditLog

structure Inv (s : Pair) : Prop where
  lineage : Lineage s.made
  newest : ∃ e older, s.made = e :: older ∧ (∀ i, (s.client i).version ≤ e.registrarVersion) ∧
    ∃ i, (s.client i).version = e.registrarVersion
  held : ∀ i, Holds s.made (s.client i).version (s.client i).reg.auditLog
  sound : ∀ i, ∀ msg ∈ s.inbox i, s.Sound i msg
  remote : ∀ i, (s.client i).remoteVersion ≤ (s.client (!i)).version

variable {crypto : Crypto} {s : Pair} {c : SyncEnd} {i : Bool} {since v : BitVec 32} {msg : SyncMsg}

theorem Inv.mem_iff (h : s.Inv) (hsame : (s.client true).version = (s.client false).version) (e : AuditEntry) :
    e ∈ (s.client true).reg.auditLog.rows ↔ e ∈ (s.client false).reg.auditLog.rows := by
  obtain ⟨top, older, hmade, hbound, k, hk⟩ := h.newest
  have hall : ∀ i, ∀ e ∈ s.made, e.registrarVersion ≤ (s.client i).version := by
    intro i e he
    have htop : top.registrarVersion = (s.client i).version := by
      rw [← hk]
      cases i <;> cases k <;> simp [hsame]
    have hlin := h.lineage
    rw [hmade] at he hlin
    rw [← htop]
    cases List.mem_cons.mp he with
    | inl heq => rw [heq]; exact BitVec.le_refl _
    | inr hold => exact BitVec.le_of_lt ((List.pairwise_cons.mp hlin.later).1 e hold)
  rw [(h.held true).mem_iff h.lineage (hall true), (h.held false).mem_iff h.lineage (hall false)]

theorem Inv.agrees (h : s.Inv) : s.Agrees := fun _ => h.mem_iff

theorem Sound.grow {s' : Pair} (hsound : s.Sound i msg) (hgrow : ∀ j, (s.client j).version ≤ (s'.client j).version)
    (hkeeps : ∀ v log, v ≤ (s.client (!i)).version → Holds s.made v log → Holds s'.made v log) : s'.Sound i msg := by
  cases msg with
  | version v => exact BitVec.le_trans hsound (hgrow (!i))
  | deltaReq since => exact BitVec.le_trans hsound (hgrow (!i))
  | delta data =>
    obtain ⟨reg, since, hdata, hfits, hsince, hreg, hholds⟩ := hsound
    exact ⟨reg, since, hdata, hfits, BitVec.le_trans hsince (hgrow i), BitVec.le_trans hreg (hgrow (!i)),
      hkeeps _ _ hreg hholds⟩

theorem Inv.setClient (h : s.Inv) (hle : (s.client i).version ≤ c.version)
    (hbound : c.version = (s.client i).version ∨ c.version ≤ (s.client (!i)).version)
    (hheld : Holds s.made c.version c.reg.auditLog)
    (hremote : c.remoteVersion ≤ (s.client (!i)).version) : (s.setClient i c).Inv := by
  have hother : ∀ j, j ≠ i → (s.setClient i c).client j = s.client j := fun j hj =>
    Function.update_of_ne hj ..
  have hself : (s.setClient i c).client i = c := Function.update_self ..
  have hgrow : ∀ j, (s.client j).version ≤ ((s.setClient i c).client j).version := by
    intro j
    by_cases hj : j = i
    · rw [hj, hself]
      exact hle
    · rw [hother j hj]
      exact BitVec.le_refl _
  constructor
  · exact h.lineage
  · obtain ⟨top, older, hmade, htop, k, hk⟩ := h.newest
    have hc : c.version ≤ top.registrarVersion := by
      cases hbound with
      | inl heq => rw [heq]; exact htop i
      | inr hle => exact BitVec.le_trans hle (htop (!i))
    have hall : ∀ j, ((s.setClient i c).client j).version ≤ top.registrarVersion := by
      intro j
      by_cases hj : j = i
      · rw [hj, hself]
        exact hc
      · rw [hother j hj]
        exact htop j
    refine ⟨top, older, hmade, hall, k, ?_⟩
    exact BitVec.le_antisymm (hall k) (hk ▸ hgrow k)
  · intro j
    by_cases hj : j = i
    · rw [hj, hself]
      exact hheld
    · rw [hother j hj]
      exact h.held j
  · intro j msg hmsg
    exact (h.sound j msg hmsg).grow hgrow fun _ _ _ hholds => hholds
  · intro j
    by_cases hj : j = i
    · rw [hj, hself]
      exact BitVec.le_trans hremote (hgrow (!i))
    · rw [hother j hj]
      exact BitVec.le_trans (h.remote j) (hgrow (!j))

theorem Inv.setInbox (h : s.Inv) (msgs : List SyncMsg) (hsound : ∀ msg ∈ msgs, s.Sound i msg) :
    (s.setInbox i msgs).Inv := by
  refine ⟨h.lineage, h.newest, h.held, ?_, h.remote⟩
  intro j msg hmsg
  by_cases hj : j = i
  · subst hj
    have hself : (s.setInbox j msgs).inbox j = msgs := Function.update_self ..
    rw [hself] at hmsg
    exact hsound msg hmsg
  · have hother : (s.setInbox i msgs).inbox j = s.inbox j := Function.update_of_ne hj ..
    rw [hother] at hmsg
    exact h.sound j msg hmsg

theorem Inv.send (h : s.Inv) (msgs : List SyncMsg) (hsound : ∀ msg ∈ msgs, s.Sound (!i) msg) :
    (s.setInbox (!i) (s.inbox (!i) ++ msgs)).Inv := by
  apply h.setInbox _
  intro msg hmsg
  cases List.mem_append.mp hmsg with
  | inl hold => exact h.sound _ msg hold
  | inr hnew => exact hsound msg hnew

theorem version_le (s : Pair) (i : Bool) : (s.client i).version ≤ (s.client (!!i)).version := by
  rw [Bool.not_not]
  exact BitVec.le_refl _

theorem sound_sendVersion (s : Pair) (i : Bool) :
    ∀ msg ∈ (s.client i).sendVersion, s.Sound (!i) msg := by
  intro msg hmsg
  unfold SyncEnd.sendVersion at hmsg
  split at hmsg
  · rw [List.mem_singleton.mp hmsg]
    exact s.version_le i
  · cases hmsg

theorem sound_requestDelta (s : Pair) (i : Bool) :
    ∀ msg ∈ (s.client i).requestDelta, s.Sound (!i) msg := by
  intro msg hmsg
  unfold SyncEnd.requestDelta at hmsg
  split at hmsg
  · rw [List.mem_singleton.mp hmsg]
    exact s.version_le i
  · cases hmsg

theorem Inv.sound_sendDeltaTo (h : s.Inv) (hfits : Fits (s.client i).reg)
    (hsince : since ≤ (s.client (!i)).version) :
    ∀ msg ∈ (s.client i).sendDeltaTo since, s.Sound (!i) msg := by
  intro msg hmsg
  unfold SyncEnd.sendDeltaTo at hmsg
  split at hmsg
  · rw [List.mem_singleton.mp hmsg]
    exact ⟨(s.client i).reg, since, rfl, hfits, hsince, s.version_le i, h.held i⟩
  · cases hmsg

theorem Inv.act (h : s.Inv) (hreg : c.reg = (s.client i).reg)
    (hremote : c.remoteVersion ≤ (s.client (!i)).version)
    (hsound : (s.setClient i c).Inv → ∀ msg ∈ msgs, (s.setClient i c).Sound (!i) msg) :
    (s.act i (c, msgs)).Inv := by
  have hversion : c.version = (s.client i).version := congrArg (fun reg => reg.header.version) hreg
  have hset : (s.setClient i c).Inv := by
    refine h.setClient (BitVec.le_of_eq hversion.symm) (.inl hversion) ?_ hremote
    rw [hversion, hreg]
    exact h.held i
  exact hset.send msgs (hsound hset)

theorem counted_of_fits {reg : Registrar} (h : Fits reg) (hshort : reg.auditLog.rows.length ≤ auditMaxRows)
    (since : BitVec 32) : Counted (stateOf reg) (auditDelta reg since) := by
  have hmax : auditMaxRows < 2 ^ 32 := by decide
  constructor
  · exact h.peers
  · rw [stateOf, List.length_mergeSort]
    exact h.roles
  · exact h.webapps
  · exact (List.length_filter_le ..).trans_lt h.servers
  · exact (List.length_filter_le ..).trans_lt h.servers
  · rw [stateOf, List.length_mergeSort]
    exact h.epochs
  · rw [auditDelta, List.length_mergeSort]
    exact (List.length_filter_le ..).trans_lt (hshort.trans_lt hmax)

theorem Inv.apply {data : List Byte} {reg : Registrar} {result : MergeResult} (h : s.Inv)
    (hsound : s.Sound i (.delta data))
    (htaken : ∀ d, Accepts crypto (s.client i).reg data now d → Taken crypto (s.client i).reg d)
    (hok : applyDelta crypto (s.client i).reg data now = .ok (reg, result)) (ver : BitVec 32) :
    (s.setClient i { s.client i with reg, lastBroadcastVer := ver }).Inv := by
  obtain ⟨sender, since, rfl, hfits, hsince, hle, hheld⟩ := hsound
  obtain ⟨d, hacc, heq⟩ := applyDelta_eq_ok.mp hok
  obtain ⟨rest, hread⟩ := hacc.2
  obtain ⟨hverify, howner⟩ := signed_of_readDelta hread
  have hd : d.entries = auditDelta sender since := by
    rw [serializeDelta, readDelta_writeDelta since (counted_of_fits hfits hheld.short since) hverify howner]
      at hread
    rw [← (Prod.mk.inj (Except.ok.inj hread)).1]
  obtain ⟨hgrow, hbound, hholds⟩ := (h.held i).merge h.lineage hheld hsince hd (htaken d hacc)
  obtain ⟨rfl, _⟩ := Prod.mk.inj heq
  exact h.setClient hgrow (hbound.imp id fun hreach => BitVec.le_trans hreach hle) hholds (h.remote i)

theorem handle_delta_error {err : GrError} {data : List Byte}
    (h : applyDelta crypto c.reg data now = .error err) :
    c.handle crypto now (.delta data) = (c, []) := by
  simp only [SyncEnd.handle, h]

theorem handle_delta_ok {reg : Registrar} {result : MergeResult} {data : List Byte}
    (h : applyDelta crypto c.reg data now = .ok (reg, result)) : c.handle crypto now (.delta data) =
    ({ c with reg, lastBroadcastVer :=
        if 0 < result.entriesNew then reg.header.version else c.lastBroadcastVer }, []) := by
  simp only [SyncEnd.handle, h]

theorem Inv.handle (h : s.Inv) (hmsg : s.Sound i msg) (hfits : Fits (s.client i).reg)
    (htaken : ∀ data d, msg = .delta data → Accepts crypto (s.client i).reg data now d →
      Taken crypto (s.client i).reg d) : (s.act i ((s.client i).handle crypto now msg)).Inv := by
  cases msg with
  | version v =>
    apply h.act (c := { s.client i with remoteVersion := v }) rfl hmsg
    intro hset msg hin
    have hself : (s.setClient i { s.client i with remoteVersion := v }).client i =
      { s.client i with remoteVersion := v } := Function.update_self ..
    have hother : (s.setClient i { s.client i with remoteVersion := v }).client (!i) = s.client (!i) :=
      Function.update_of_ne (by cases i <;> decide) ..
    split at hin
    · have hsound := sound_requestDelta (s.setClient i { s.client i with remoteVersion := v }) i
      rw [hself] at hsound
      exact hsound msg hin
    · split at hin
      · have hsound := @Inv.sound_sendDeltaTo _ i v hset (by rw [hself]; exact hfits)
          (by rw [hother]; exact hmsg)
        rw [hself] at hsound
        exact hsound msg hin
      · cases hin
  | deltaReq since =>
    apply h.act (c := s.client i) rfl (h.remote i)
    intro hset
    have hsame : s.setClient i (s.client i) = s := by
      rw [Pair.setClient, Function.update_eq_self]
    rw [hsame]
    exact h.sound_sendDeltaTo hfits hmsg
  | delta data =>
    cases hok : applyDelta crypto (s.client i).reg data now with
    | error e =>
      rw [handle_delta_error hok]
      apply h.act (c := s.client i) rfl (h.remote i)
      intro _ _ hin
      cases hin
    | ok r =>
      obtain ⟨reg, result⟩ := r
      rw [handle_delta_ok hok]
      have hset := h.apply hmsg (fun d => htaken data d rfl) hok
        (if 0 < result.entriesNew then reg.header.version else (s.client i).lastBroadcastVer)
      apply hset.send []
      intro _ hin
      cases hin

theorem Inv.write {reg' : Registrar} {e : AuditEntry} (h : s.Inv)
    (hw : Writes (s.client i).reg reg' e) (hmay : MayWrite s i e) : (s.adopt i reg').Inv := by
  obtain ⟨top, older, hmade, htop, k, hk⟩ := h.newest
  have hv : (s.client i).reg.header.version = top.registrarVersion := by
    apply BitVec.le_antisymm (htop i)
    rw [← hk]
    by_cases hki : k = i
    · rw [hki]
      exact BitVec.le_refl _
    · rw [Bool.eq_not_of_ne hki]
      exact hmay.ahead
  have hlin := h.lineage
  have hheld := h.held i
  have hfresh := hmay.fresh
  rw [hmade] at hlin hheld hfresh
  obtain ⟨hlt, hlin', hholds, hnew⟩ := hheld.write hlin hv hw hmay.signed hfresh
  have hbefore : ∀ j, (s.client j).version < e.registrarVersion := by
    intro j
    rw [BitVec.lt_def] at hlt ⊢
    rw [hv] at hlt
    exact Nat.lt_of_le_of_lt (htop j) hlt
  rw [Pair.adopt, hnew, hmade, List.singleton_append]
  let s' : Pair := { s.setClient i { s.client i with reg := reg' } with made := e :: top :: older }
  have hself : s'.client i = { s.client i with reg := reg' } := Function.update_self ..
  have hother : ∀ j, j ≠ i → s'.client j = s.client j := fun j hj => Function.update_of_ne hj ..
  have hversion : (s'.client i).version = e.registrarVersion := by
    rw [hself]
    exact hw.header
  have hgrow : ∀ j, (s.client j).version ≤ (s'.client j).version := by
    intro j
    by_cases hj : j = i
    · rw [hj, hversion]
      exact BitVec.le_of_lt (hbefore i)
    · rw [hother j hj]
      exact BitVec.le_refl _
  change s'.Inv
  constructor
  · exact hlin'
  · refine ⟨e, top :: older, rfl, ?_, i, hversion⟩
    intro j
    by_cases hj : j = i
    · rw [hj, hversion]
      exact BitVec.le_refl _
    · rw [hother j hj]
      exact BitVec.le_of_lt (hbefore j)
  · intro j
    by_cases hj : j = i
    · rw [hj, hself]
      exact hholds
    · rw [hother j hj]
      have hheld := h.held j
      rw [hmade] at hheld
      exact hheld.grow (hbefore j)
  · intro j msg hmsg
    refine (h.sound j msg hmsg).grow hgrow fun v log hv hholds => ?_
    rw [hmade] at hholds
    exact hholds.grow (BitVec.lt_def.mpr (Nat.lt_of_le_of_lt hv (hbefore (!j))))
  · intro j
    have hremote : (s'.client j).remoteVersion = (s.client j).remoteVersion := by
      by_cases hj : j = i
      · rw [hj, hself]
      · rw [hother j hj]
    rw [hremote]
    exact BitVec.le_trans (h.remote j) (hgrow (!j))

theorem Inv.mutate {reg' : Registrar} (h : s.Inv)
    (hlogs : reg'.logView = (s.client i).reg.logView ∨ ∃ e, Writes (s.client i).reg reg' e)
    (hmay : ∀ e, Writes (s.client i).reg reg' e → MayWrite s i e) : (s.adopt i reg').Inv := by
  cases hlogs with
  | inl hview =>
    obtain ⟨hlog, hversion⟩ := Prod.mk.inj hview
    have hnone : (reg'.auditLog.rows.filter fun a => a ∉ (s.client i).reg.auditLog.rows) = [] := by
      apply List.filter_eq_nil_iff.mpr
      intro a ha hnew
      rw [hlog] at ha
      exact of_decide_eq_true hnew ha
    have hheld : Holds s.made reg'.header.version reg'.auditLog := by
      rw [hversion, hlog]
      exact h.held i
    rw [Pair.adopt, hnone, List.nil_append]
    exact h.setClient (c := { s.client i with reg := reg' }) (BitVec.le_of_eq hversion.symm)
      (.inl hversion) hheld (h.remote i)
  | inr hwrites =>
    obtain ⟨e, hw⟩ := hwrites
    exact h.write hw (hmay e hw)

theorem Inv.next (h : s.Inv) {e : SyncEvent} (ho : Orderly crypto s e) : (s.next crypto e).Inv := by
  cases e with
  | mutate i m clk =>
    cases hrun : m.run crypto (s.client i).reg clk with
    | error err =>
      rw [next_mutate_error hrun]
      exact h
    | ok reg =>
      rw [next_mutate_ok hrun]
      exact h.mutate (m.logs hrun) fun e hw => ho reg e hrun hw
  | establish i =>
    apply h.act (c := { s.client i with connected := true }) rfl (h.remote i)
    intro _
    have hsound := sound_sendVersion (s.setClient i { s.client i with connected := true }) i
    have hself : (s.setClient i { s.client i with connected := true }).client i =
      { s.client i with connected := true } := Function.update_self ..
    rw [hself] at hsound
    exact hsound
  | handle i now =>
    cases hin : s.inbox i with
    | nil =>
      rw [next_handle_nil hin]
      exact h
    | cons msg rest =>
      rw [next_handle_cons hin]
      have hmsgs := h.sound i
      rw [hin] at hmsgs
      have hpop : (s.setInbox i rest).Inv :=
        h.setInbox rest fun m hm => hmsgs m (List.mem_cons_of_mem _ hm)
      apply hpop.handle (hmsgs msg List.mem_cons_self) ho.1
      intro data d heq hacc
      exact ho.2 data rest d (by rw [hin, heq]) hacc
  | poll i =>
    change (s.act i (s.client i).poll).Inv
    unfold SyncEnd.poll
    split
    · apply h.act (c := { s.client i with lastBroadcastVer := (s.client i).version }) rfl (h.remote i)
      intro hset
      unfold SyncEnd.broadcastDelta
      split
      · have hself : (s.setClient i { s.client i with lastBroadcastVer := (s.client i).version }).client i =
          { s.client i with lastBroadcastVer := (s.client i).version } := Function.update_self ..
        have hsound := @Inv.sound_sendDeltaTo _ i (s.client i).remoteVersion hset
          (by rw [hself]; exact ho) (by
            rw [← congrArg SyncEnd.remoteVersion hself]
            exact hset.remote i)
        rw [hself] at hsound
        exact hsound
      · intro _ hin
        cases hin
    · apply h.act (c := s.client i) rfl (h.remote i)
      intro _ _ hin
      cases hin
  | lose i => exact h.setInbox _ fun msg hmsg => h.sound i msg (List.mem_of_mem_tail hmsg)
  | disconnect =>
    refine ⟨h.lineage, h.newest, h.held, ?_, ?_⟩
    · intro i msg hmsg
      cases hmsg
    · exact fun i => BitVec.le_def.mpr (Nat.zero_le _)

theorem Inv.start (h : s.Starts crypto) : s.Inv := by
  obtain ⟨_, _, _, _, _, reg, hreg, hclients⟩ := h.created
  obtain ⟨e, hrows, hver, hversion, hprev⟩ := log_grCreate hreg
  have hclient : ∀ i, (s.client i).reg = reg := congrFun hclients
  have hv : ∀ i, (s.client i).version = e.registrarVersion := by
    intro i
    rw [SyncEnd.version, hclient, hversion, hver]
  have hmade : s.made = [e] := by
    rw [h.made, hclient, hrows]
  constructor
  · rw [hmade]
    refine ⟨?_, List.pairwise_singleton _ _, List.nodup_singleton _, ?_, ?_⟩
    · intro a ha
      rw [List.mem_singleton.mp ha, hver]
      decide
    · rw [List.map_singleton, hprev]
      rfl
    · intro a ha
      cases ha
  · exact ⟨e, [], hmade, fun i => BitVec.le_of_eq (hv i), true, hv true⟩
  · intro i
    rw [hmade, hclient, hv]
    constructor
    · intro a ha
      rw [hrows] at ha
      rw [List.mem_singleton.mp ha]
      exact ⟨List.mem_singleton_self e, BitVec.le_refl _⟩
    · intro a ha _
      rw [hrows]
      exact List.mem_of_mem_take ha
    · rw [hrows]
      exact (by decide : 1 ≤ auditMaxRows)
  · intro i msg hmsg
    rw [h.idle] at hmsg
    cases hmsg
  · intro i
    rw [(h.apart i).2]
    exact BitVec.le_def.mpr (Nat.zero_le _)

end Pair

/-- As long as the clients write in turn, equal versions mean equal logs. -/
theorem sync_agrees_of_orderly
    (h : ((syncSystem crypto).restrict (Orderly crypto)).Reachable s) : s.Agrees := by
  suffices s.Inv from this.agrees
  apply h.invariant
  · intro s hs
    exact Pair.Inv.start hs
  · intro s e t _ hinv hstep
    obtain ⟨ho, _, rfl⟩ := hstep
    exact hinv.next ho

section Concurrent

abbrev ownerSigns : Crypto := onlySigner lengthHash (member 1)

def pairAlone : Pair where
  client _ := ⟨createdGroup lengthHash, 2, false, 0⟩
  inbox _ := []
  made := (createdGroup lengthHash).auditLog.rows

def pairMeets : List SyncEvent :=
  [.establish true, .establish false, .handle true 1, .handle false 1]

def signEntry : AuditEntry :=
  newEntry ownerSigns (createdGroup lengthHash) .registrarSigned (member 1) none
    (ascii "registrar signed") 2000000

def moveEntry : AuditEntry :=
  newEntry ownerSigns (createdGroup lengthHash) .peerAddress (member 1) (some (member 1).peerId)
    (ascii "address updated") 2000000

def movedGroup : Registrar :=
  auditAppend ownerSigns (updateAddr (createdGroup lengthHash) (member 1).peerId [] 0 2) .peerAddress
    (member 1) (some (member 1).peerId) (ascii "address updated") 2000000

theorem pairAlone_starts : pairAlone.Starts ownerSigns :=
  ⟨⟨_, _, _, _, _, _, grCreate_createdGroup, rfl⟩, fun _ => rfl, fun _ => ⟨rfl, rfl⟩, fun _ => rfl, rfl⟩

theorem createdGroup_rows : (createdGroup lengthHash).auditLog.rows = [createdEntry] := by
  have hw := @Writes.append ownerSigns _ _ 1000000
    ⟨.peerAdded, member 1, some (member 1).peerId, ascii "group created"⟩
    (Eq.refl (founded ownerSigns (ascii "pair") groupPrivate (member 1) (zeroBytes 128) 1).logView)
  apply hw.rows (show 0 < auditMaxRows by decide)
  intro a ha
  cases ha

theorem writes_signedGroup (skein : List Byte → Hash) :
    Writes (createdGroup skein) (signedGroup skein)
      (newEntry (onlySigner skein (member 1)) (createdGroup skein) .registrarSigned (member 1) none
        (ascii "registrar signed") 2000000) := by
  unfold signedGroup
  generalize createdGroup skein = reg
  exact (Writes.append ⟨.registrarSigned, member 1, none, ascii "registrar signed"⟩ rfl).congr rfl rfl

theorem signs_writes : Writes (createdGroup lengthHash) (signedGroup lengthHash) signEntry :=
  writes_signedGroup lengthHash

theorem moves_writes : Writes (createdGroup lengthHash) movedGroup moveEntry :=
  .append ⟨.peerAddress, member 1, some (member 1).peerId, ascii "address updated"⟩ rfl

theorem createdGroup_writes {reg : Registrar} {e : AuditEntry} (hw : Writes (createdGroup lengthHash) reg e)
    (hne : createdEntry.entryHash ≠ e.entryHash) : reg.auditLog.rows = [createdEntry] ++ [e] := by
  rw [← createdGroup_rows]
  refine hw.rows ?_ ?_
  · rw [createdGroup_rows]
    exact (by decide : 1 < auditMaxRows)
  · rw [createdGroup_rows]
    intro a ha
    rw [List.mem_singleton.mp ha]
    exact hne

theorem entryHash_ne {e e' : AuditEntry} (he : e.entryHash = lengthHash e.hashed)
    (he' : e'.entryHash = lengthHash e'.hashed) (hne : e.detail.val.length ≠ e'.detail.val.length)
    (hshort : e.detail.val.length < 48) (hshort' : e'.detail.val.length < 48) :
    e.entryHash ≠ e'.entryHash := by
  rw [he, he']
  apply lengthHash_ne
  · rw [length_hashed, length_hashed]
    omega
  · rw [length_hashed]
    omega
  · rw [length_hashed]
    omega

theorem entry_hashes : createdEntry.entryHash ≠ signEntry.entryHash ∧
    createdEntry.entryHash ≠ moveEntry.entryHash ∧ signEntry.entryHash ≠ moveEntry.entryHash := by
  have hcreated : createdEntry.entryHash = lengthHash createdEntry.hashed := entryHash_newEntry ownerSigns ..
  have hsign : signEntry.entryHash = lengthHash signEntry.hashed := entryHash_newEntry ownerSigns ..
  have hmove : moveEntry.entryHash = lengthHash moveEntry.hashed := entryHash_newEntry ownerSigns ..
  have hlen : createdEntry.detail.val.length = 13 ∧ signEntry.detail.val.length = 16 ∧
    moveEntry.detail.val.length = 15 := ⟨rfl, rfl, rfl⟩
  refine ⟨entryHash_ne hcreated hsign ?_ ?_ ?_, entryHash_ne hcreated hmove ?_ ?_ ?_,
    entryHash_ne hsign hmove ?_ ?_ ?_⟩
  all_goals omega

theorem reachable_adopt (i : Bool) {m : Mutation} (h : (syncSystem crypto).Reachable s)
    (hm : m.run crypto (s.client i).reg clk = .ok reg) : (syncSystem crypto).Reachable (s.adopt i reg) :=
  .step (e := SyncEvent.mutate i m clk) h ⟨trivial, (Pair.next_mutate_ok hm).symm⟩

theorem reachable_run (es : List SyncEvent)
    (h : System.Enables Pair.Enabled (Pair.next crypto) s es) : (syncSystem crypto).Reachable s →
    (syncSystem crypto).Reachable (es.foldl (Pair.next crypto) s) :=
  System.Reachable.run (S := syncSystem crypto) (fun _ _ he => ⟨he, rfl⟩) es h

theorem meets (crypto : Crypto) {reg : Registrar} {v : BitVec 32} (hv : reg.header.version = v)
    (made : List AuditEntry) :
    pairMeets.foldl (Pair.next crypto) ⟨fun _ => ⟨reg, v, false, 0⟩, fun _ => [], made⟩ =
      ⟨fun _ => ⟨reg, v, true, v⟩, fun _ => [], made⟩ := by
  have hirrefl : ¬ v < v := BitVec.lt_irrefl v
  simp only [pairMeets, List.foldl_cons, List.foldl_nil, Pair.next, Pair.act, Pair.setClient,
    Pair.setInbox, SyncEnd.establish, SyncEnd.sendVersion, SyncEnd.version, SyncEnd.handle, hv, hirrefl,
    ↓reduceIte, Function.update_self, List.nil_append, List.append_nil, Bool.not_true,
    Bool.not_false, Function.update_of_ne, ne_eq, Bool.true_eq_false, Bool.false_eq_true,
    not_false_eq_true]
  congr 1
  · funext i
    cases i <;> rfl
  · funext i
    cases i <;> rfl

theorem pairMet_reachable : (syncSystem ownerSigns).Reachable
    ⟨fun _ => ⟨createdGroup lengthHash, 2, true, 2⟩, fun _ => [], (createdGroup lengthHash).auditLog.rows⟩ := by
  have hversion : (createdGroup lengthHash).header.version = 2 := rfl
  rw [← meets ownerSigns hversion]
  exact reachable_run pairMeets ⟨rfl, rfl, trivial, trivial, trivial⟩ (.init pairAlone_starts)

theorem fits_createdGroup : Fits (createdGroup lengthHash) :=
  ⟨(by decide : 1 < 2 ^ 32), (by decide : 0 < 2 ^ 32), (by decide : 0 < 2 ^ 32), (by decide : 0 < 2 ^ 32),
    (by decide : 1 < 2 ^ 32)⟩

theorem signs_fresh {e : AuditEntry} (hw : Writes (createdGroup lengthHash) (signedGroup lengthHash) e) :
    ∀ a ∈ (createdGroup lengthHash).auditLog.rows,
      a.entryHash ≠ zeroBytes 128 ∧ a.entryHash ≠ e.entryHash := by
  intro a ha
  rw [createdGroup_rows] at ha
  rw [List.mem_singleton.mp ha]
  constructor
  · have hlen : createdEntry.hashed.length = 221 := length_hashed createdEntry
    have hhash : createdEntry.entryHash = lengthHash createdEntry.hashed := entryHash_newEntry ownerSigns ..
    have hzero : zeroBytes 128 = lengthHash [] := by decide
    rw [hhash, hzero]
    apply lengthHash_ne
    · rw [hlen]
      decide
    · rw [hlen]
      decide
    · decide
  · intro heq
    have hfresh : ∀ a ∈ (createdGroup lengthHash).auditLog.rows, a.entryHash ≠ signEntry.entryHash := by
      intro a ha
      rw [createdGroup_rows] at ha
      rw [List.mem_singleton.mp ha]
      exact entry_hashes.1
    have hrows := signs_writes.rows (by rw [createdGroup_rows]; exact (by decide : 1 < auditMaxRows)) hfresh
    have hstay : (createdGroup lengthHash).auditLog.insertIgnore e = (createdGroup lengthHash).auditLog := by
      unfold Table.insertIgnore
      rw [Table.insert?_eq_none.mpr]
      · rfl
      · rw [ne_eq, Table.find?_eq_none, createdGroup_rows]
        exact fun hnone => hnone createdEntry (List.mem_singleton_self _) heq
    have hlen := congrArg List.length hrows
    rw [hw.log, hstay, List.length_append] at hlen
    have hcut := length_enforceRetention_le (createdGroup lengthHash).auditLog
    rw [hlen] at hcut
    exact absurd hcut (Nat.not_succ_le_self _)

theorem concurrent (crypto : Crypto) {reg reg₁ reg₂ : Registrar} {v w : BitVec 32}
    (h₁ : reg₁.header.version = w) (h₂ : reg₂.header.version = w) (hlt : v < w) (hzero : v ≠ 0)
    (made : List AuditEntry) :
    ((((⟨fun _ => ⟨reg, v, true, v⟩, fun _ => [], made⟩ : Pair).adopt true reg₁).adopt false reg₂).next
        crypto (.poll true)).next crypto (.poll false) =
      ⟨fun i => ⟨if i then reg₁ else reg₂, w, true, v⟩, fun _ => [],
        (reg₂.auditLog.rows.filter fun e => e ∉ reg.auditLog.rows) ++
          ((reg₁.auditLog.rows.filter fun e => e ∉ reg.auditLog.rows) ++ made)⟩ := by
  have hirrefl : ¬ v < v := BitVec.lt_irrefl v
  simp only [Pair.adopt, Pair.next, Pair.act, Pair.setClient, Pair.setInbox, SyncEnd.poll,
    SyncEnd.version, SyncEnd.broadcastDelta, hirrefl, hzero, h₁, h₂, hlt, or_self, ↓reduceIte,
    Function.update_self, List.append_nil, Bool.not_true, Bool.not_false, Function.update_of_ne, ne_eq,
    Bool.true_eq_false, Bool.false_eq_true, not_false_eq_true]
  congr 1
  · funext i
    cases i <;> rfl
  · funext i
    cases i <;> rfl

-- Both devices are at version 3 and think the other is at 2; the entries of version 3 stay apart.
theorem sync_disagrees : ¬ ∀ (crypto : Crypto) (s : Pair), (s.made.map AuditEntry.entryHash).Nodup →
    (syncSystem crypto).Reachable s → s.Agrees := by
  intro h
  obtain ⟨hsign, hmove, hboth⟩ := entry_hashes
  have hrows₁ : (signedGroup lengthHash).auditLog.rows = [createdEntry] ++ [signEntry] :=
    createdGroup_writes signs_writes hsign
  have hrows₂ : movedGroup.auditLog.rows = [createdEntry] ++ [moveEntry] :=
    createdGroup_writes moves_writes hmove
  have hne₁ : signEntry ≠ createdEntry := fun heq => hsign (congrArg _ heq.symm)
  have hne₂ : moveEntry ≠ createdEntry := fun heq => hmove (congrArg _ heq.symm)
  have hmet : (syncSystem ownerSigns).Reachable
      ⟨fun _ => ⟨createdGroup lengthHash, 2, true, 2⟩, fun _ => [], [createdEntry]⟩ := by
    rw [← createdGroup_rows]
    exact pairMet_reachable
  have hversion₁ : (signedGroup lengthHash).header.version = 3 := rfl
  have hversion₂ : movedGroup.header.version = 3 := rfl
  have hrun₁ : Mutation.run ownerSigns (createdGroup lengthHash) ⟨2, 2000000⟩ (.sign (member 1)) =
    .ok (signedGroup lengthHash) := grSign_createdGroup
  have hrun₂ : Mutation.run ownerSigns (createdGroup lengthHash) ⟨2, 2000000⟩
    (.peerUpdateAddress [] 0 (member 1)) = .ok movedGroup := rfl
  have hwritten := reachable_adopt false (reachable_adopt true hmet hrun₁) hrun₂
  have hpolled := reachable_run [.poll true, .poll false] ⟨trivial, trivial, trivial⟩ hwritten
  rw [List.foldl_cons, List.foldl_cons, List.foldl_nil,
    concurrent ownerSigns hversion₁ hversion₂ (by decide : (2 : BitVec 32) < 3) (by decide)] at hpolled
  have hagree := h ownerSigns _ ?_ hpolled ⟨fun _ => rfl, fun _ => rfl, ?_⟩ rfl signEntry
  · change signEntry ∈ (signedGroup lengthHash).auditLog.rows ↔ signEntry ∈ movedGroup.auditLog.rows at hagree
    rw [hrows₁, hrows₂] at hagree
    have hmem := hagree.mp (by simp)
    have hsame : signEntry = moveEntry := by simpa [hne₁] using hmem
    exact hboth (congrArg _ hsame)
  · rw [createdGroup_rows, hrows₁, hrows₂]
    simp [hne₁, hne₂, hsign.symm, hmove.symm, hboth.symm]
  · intro i
    cases i with
    | false => exact BitVec.le_of_eq hversion₂
    | true => exact BitVec.le_of_eq hversion₁

end Concurrent

end YumiBrowser.Client
