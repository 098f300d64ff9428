import YumiBrowser.Client.PeerBinding
import YumiBrowser.Network.KeyAgreement

namespace YumiBrowser.Client

open Wire YumiBrowser.Group
open Sudp (pairRegistrar rotatedPair World Event Output)

variable {ι : Type}

namespace Desk

section Frame

variable [DecidableEq ι] (s : Desk ι) {k j : Fin maxPeers} (maxPayload : ℕ)

theorem peers_stateCb (hj : j ≠ k) (i : ι) (out : Output ι) : (s.stateCb k i out).peers j = s.peers j := by
  cases out with
  | state new =>
    cases new with
    | established => exact Function.update_of_ne hj _ _
    | failed => exact Function.update_of_ne hj _ _
    | _ => rfl
  | _ => rfl

theorem peers_act (hj : j ≠ k) (i : ι) (event : Event ι) : (s.act k i event).peers j = s.peers j := by
  have hfold : ∀ (outs : List (Output ι)) (t : Desk ι),
      (outs.foldl (fun s out => s.stateCb k i out) t).peers j = t.peers j := by
    intro outs
    induction outs with
    | nil => exact fun t => rfl
    | cons out outs ih => exact fun t => (ih _).trans (t.peers_stateCb hj i out)
  exact hfold _ _

theorem peers_sendAll (hj : j ≠ k) (channel : BitVec 8) (pkts : List (List Byte)) :
    (s.sendAll k maxPayload channel pkts).1.peers j = s.peers j := by
  induction pkts generalizing s with
  | nil => rfl
  | cons pkt rest ih =>
    have hsent : (s.sendChannel k maxPayload channel pkt true).1.peers j = s.peers j := by
      unfold sendChannel
      split
      · rfl
      · exact s.peers_act hj _ _
    unfold sendAll
    dsimp only
    split
    · exact (ih _).trans hsent
    · exact hsent

theorem peers_syncSend (hj : j ≠ k) (msgType : Byte) (data : List Byte) :
    (s.syncSend k maxPayload msgType data).1.peers j = s.peers j := by
  unfold syncSend
  split
  · exact s.peers_sendAll maxPayload hj syncCh _
  · rfl

end Frame

/-- A slot that `sync_broadcast_delta` has something for. -/
def Due (s : Desk ι) (since : BitVec 32) (k : Fin maxPeers) : Prop :=
  ((s.peers k).state = .connected ∧ (s.peers k).sudp.isSome) ∧
    ((s.peers k).remoteVersion < since ∨ (s.peers k).remoteVersion = 0)

instance (s : Desk ι) (since : BitVec 32) (k : Fin maxPeers) : Decidable (s.Due since k) :=
  inferInstanceAs (Decidable ((_ ∧ _) ∧ (_ ∨ _)))

/-- The deltas that a round of `sync_worker` sends, by their slots and the versions they start from. -/
def broadcasts (s : Desk ι) : List (Fin maxPeers × BitVec 32) :=
  if s.lastBroadcastVer < s.reg.header.version then
    ((List.finRange maxPeers).filter fun k => s.Due s.lastBroadcastVer k).map fun k =>
      (k, (s.peers k).remoteVersion)
  else []

theorem mem_broadcasts {s : Desk ι} {k : Fin maxPeers} {since : BitVec 32} : (k, since) ∈ s.broadcasts ↔
    s.lastBroadcastVer < s.reg.header.version ∧ s.Due s.lastBroadcastVer k ∧ since = (s.peers k).remoteVersion := by
  unfold broadcasts
  split
  · next hahead =>
    rw [List.mem_map]
    constructor
    · rintro ⟨k', hk', heq⟩
      obtain ⟨rfl, rfl⟩ := Prod.mk.inj heq
      exact ⟨hahead, of_decide_eq_true (List.mem_filter.mp hk').2, rfl⟩
    · rintro ⟨-, hdue, rfl⟩
      exact ⟨k, List.mem_filter.mpr ⟨List.mem_finRange k, decide_eq_true hdue⟩, rfl⟩
  · next hahead => exact iff_of_false List.not_mem_nil fun h => hahead h.1

section Round

variable [DecidableEq ι] (s : Desk ι) (maxPayload : ℕ)

theorem peers_syncSendDeltaTo {k j : Fin maxPeers} (hj : j ≠ k) (since : BitVec 32) :
    (s.syncSendDeltaTo k maxPayload since).peers j = s.peers j := by
  have hkept := s.peers_syncSend maxPayload hj syncDelta (serializeDelta s.reg since)
  unfold syncSendDeltaTo
  dsimp only
  split
  · exact hkept
  · exact hkept

theorem broadcastTo_eq (since : BitVec 32) (k : Fin maxPeers) : s.broadcastTo k maxPayload since =
    if s.Due since k then s.syncSendDeltaTo k maxPayload (s.peers k).remoteVersion else s := by
  by_cases hdue : s.Due since k
  · rw [if_pos hdue, broadcastTo, if_pos hdue.1, if_pos hdue.2]
  · rw [if_neg hdue, broadcastTo]
    split
    · next hconnected => exact if_neg fun hbehind => hdue ⟨hconnected, hbehind⟩
    · rfl

theorem foldl_broadcastTo (since : BitVec 32) {slots : List (Fin maxPeers)} (hnodup : slots.Nodup) {t : Desk ι}
    (hpeers : ∀ k ∈ slots, t.peers k = s.peers k) :
    slots.foldl (fun t k => t.broadcastTo k maxPayload since) t =
      ((slots.filter fun k => s.Due since k).map fun k => (k, (s.peers k).remoteVersion)).foldl
        (fun t p => t.syncSendDeltaTo p.1 maxPayload p.2) t := by
  induction slots generalizing t with
  | nil => rfl
  | cons k slots ih =>
    obtain ⟨hk, hnodup⟩ := List.nodup_cons.mp hnodup
    have hslot := hpeers k List.mem_cons_self
    have hrest := fun j hj => hpeers j (List.mem_cons_of_mem _ hj)
    have hdue : t.Due since k ↔ s.Due since k := by
      unfold Due
      rw [hslot]
    rw [List.foldl_cons, broadcastTo_eq, hslot, List.filter_cons]
    by_cases h : s.Due since k
    · rw [if_pos (hdue.mpr h), if_pos (decide_eq_true h), List.map_cons, List.foldl_cons]
      refine ih hnodup fun j hj => ?_
      have hne : j ≠ k := fun heq => hk (heq ▸ hj)
      exact (t.peers_syncSendDeltaTo maxPayload hne _).trans (hrest j hj)
    · rw [if_neg fun ht => h (hdue.mp ht), if_neg fun ht => h (of_decide_eq_true ht)]
      exact ih hnodup hrest

theorem poll_broadcasts : s.poll maxPayload =
    s.broadcasts.foldl (fun t p => t.syncSendDeltaTo p.1 maxPayload p.2)
      { s with lastBroadcastVer := if s.lastBroadcastVer < s.reg.header.version then s.reg.header.version
          else s.lastBroadcastVer } := by
  unfold poll broadcasts
  split
  · exact foldl_broadcastTo s maxPayload s.lastBroadcastVer (List.nodup_finRange maxPeers) fun _ _ => rfl
  · rfl

end Round

theorem broadcasts_syncApply {crypto : Crypto} {s : Desk ι} {k : Fin maxPeers} {now : I64} {data : List Byte}
    {reg : Registrar} {result : MergeResult} (happly : applyDelta crypto s.reg data now = .ok (reg, result))
    (hnew : 0 < result.entriesNew) : (s.syncApply crypto k now data).broadcasts = [] := by
  unfold syncApply
  rw [happly]
  simp only [hnew, ↓reduceIte, broadcasts]
  exact if_neg (BitVec.lt_irrefl _)

end Desk

/-- The delta from `v` on has every entry of the log from after `since` up to `new`. -/
def CarriesSince (reg : Registrar) (since new v : BitVec 32) : Prop :=
  ∀ e ∈ reg.auditLog.rows, since < e.registrarVersion → e.registrarVersion ≤ new → e ∈ auditDelta reg v

/-- When the version has gone from `old` to what it is, every CONNECTED slot that is behind is sent what
it lacks. -/
def Desk.CoversAdvance (s : Desk ι) (old : BitVec 32) : Prop :=
  old < s.reg.header.version → ∀ k, (s.peers k).state = .connected →
    (s.peers k).remoteVersion < s.reg.header.version → ∃ v, (k, v) ∈ s.broadcasts ∧
      CarriesSince s.reg (s.peers k).remoteVersion s.reg.header.version v

theorem mem_auditDelta {reg : Registrar} {v : BitVec 32} {e : AuditEntry} :
    e ∈ auditDelta reg v ↔ e ∈ reg.auditLog.rows ∧ v.toInt < e.registrarVersion.toInt := by
  rw [auditDelta, List.mem_mergeSort, List.mem_filter, decide_eq_true_iff]

theorem signed_iff {v w : BitVec 32} (h : v < w) : v.toInt < w.toInt ↔ w.toNat < 2 ^ 31 ∨ 2 ^ 31 ≤ v.toNat := by
  rw [BitVec.lt_def] at h
  rw [BitVec.toInt_eq_toNat_cond, BitVec.toInt_eq_toNat_cond]
  have hv := v.isLt
  have hw := w.isLt
  split <;> split <;> omega

theorem carriesSince_iff {reg : Registrar} {since new : BitVec 32} : CarriesSince reg since new since ↔
    ∀ e ∈ reg.auditLog.rows, since < e.registrarVersion → e.registrarVersion ≤ new →
      e.registrarVersion.toNat < 2 ^ 31 ∨ 2 ^ 31 ≤ since.toNat := by
  constructor
  · intro h e he hafter hle
    exact (signed_iff hafter).mp (mem_auditDelta.mp (h e he hafter hle)).2
  · intro h e he hafter hle
    exact mem_auditDelta.mpr ⟨he, (signed_iff hafter).mpr (h e he hafter hle)⟩

/-- A slot that the round serves: it has a session, the marker is behind the version, and the slot is
behind the marker or has told nothing. -/
structure Desk.Served (s : Desk ι) (k : Fin maxPeers) : Prop where
  session : (s.peers k).sudp.isSome
  ahead : s.lastBroadcastVer < s.reg.header.version
  behind : (s.peers k).remoteVersion < s.lastBroadcastVer ∨ (s.peers k).remoteVersion = 0
  unsigned : ∀ e ∈ s.reg.auditLog.rows, (s.peers k).remoteVersion < e.registrarVersion →
    e.registrarVersion ≤ s.reg.header.version →
    e.registrarVersion.toNat < 2 ^ 31 ∨ 2 ^ 31 ≤ (s.peers k).remoteVersion.toNat

theorem coversAdvance_iff (s : Desk ι) (old : BitVec 32) : s.CoversAdvance old ↔
    (old < s.reg.header.version → ∀ k, (s.peers k).state = .connected →
      (s.peers k).remoteVersion < s.reg.header.version → s.Served k) := by
  unfold Desk.CoversAdvance
  refine imp_congr_right fun _ => forall_congr' fun k => imp_congr_right fun hconnected => imp_congr_right fun _ => ?_
  constructor
  · rintro ⟨v, hmem, hcarries⟩
    obtain ⟨hahead, ⟨⟨-, hsession⟩, hbehind⟩, rfl⟩ := Desk.mem_broadcasts.mp hmem
    exact ⟨hsession, hahead, hbehind, carriesSince_iff.mp hcarries⟩
  · intro h
    exact ⟨_, Desk.mem_broadcasts.mpr ⟨h.ahead, ⟨⟨hconnected, h.session⟩, h.behind⟩, rfl⟩,
      carriesSince_iff.mpr h.unsigned⟩

def advancedCall : Desk Bool :=
  { (callAt 5).modify 0 (.setVersion 1) with reg := rotatedPair, lastBroadcastVer := 1 }

theorem version_rotatedPair : rotatedPair.header.version = 2 := by decide +kernel

theorem connected_advancedCall : (advancedCall.peers 0).state = .connected := by decide +kernel

-- The slot is where the marker is, so it is not behind the marker.
theorem upToDate_not_told : ¬ ∀ (s : Desk Bool) (old : BitVec 32), s.CoversAdvance old := by
  intro h
  have hversion : advancedCall.reg.header.version = 2 := version_rotatedPair
  have hold : (1 : BitVec 32) < advancedCall.reg.header.version := hversion ▸ (by decide)
  obtain ⟨v, hmem, -⟩ := h advancedCall 1 hold 0 connected_advancedCall hold
  obtain ⟨-, ⟨-, hbehind⟩, -⟩ := Desk.mem_broadcasts.mp hmem
  exact absurd (show (1 : BitVec 32) < 1 ∨ (1 : BitVec 32) = 0 from hbehind) (by decide)

end YumiBrowser.Client
