import Mathlib.Algebra.Order.Field.Basic
import Mathlib.Algebra.Order.Field.Rat
import Mathlib.Data.List.Perm.Basic
import YumiBrowser.Library.Buckets
import YumiBrowser.Registrar.EpochAdoption
import YumiBrowser.Registrar.Join

namespace YumiBrowser.Group

open Wire Keyed Buckets

def behMaxActors : ℕ := 65536

/-- `gr_behavior_config_t`, as far as the analyses of the snapshot read it. -/
structure BehaviorConfig where
  swarmMutationsPerMin : ℚ
  abuseDestructiveRatio : ℚ
  abuseMinActions : BitVec 32
  epochMaxPerHour : ℚ
  churnAttentionThreshold : ℚ
  scaleByGroupSize : Bool

/-- `gr_behavior_config_defaults` -/
def behaviorConfigDefaults : BehaviorConfig where
  swarmMutationsPerMin := 60
  abuseDestructiveRatio := 6 / 10
  abuseMinActions := 10
  epochMaxPerHour := 1
  churnAttentionThreshold := 2
  scaleByGroupSize := true

inductive Ratio
  | num (q : ℚ)
  | infinity
  | nan
  deriving DecidableEq

namespace Ratio

def ofCounts (n d : BitVec 32) : Ratio :=
  if d = 0 then if n = 0 then nan else infinity else num (n.toNat / d.toNat)

def exceeds : Ratio → Ratio → Bool
  | num q, num r => r < q
  | infinity, num _ => true
  | _, _ => false

end Ratio

/-- The order in which a query without one gives its rows. -/
structure RowOrder where
  arrange : List AuditEntry → List AuditEntry
  perm : ∀ rows, (arrange rows).Perm rows

section Statements

variable (reg : Registrar) (o : RowOrder) (cutoff : I64)

def auditWindow : List AuditEntry := reg.auditLog.rows.filter fun e => cutoff.slt e.timestamp

def psBehWindowAll : List AuditEntry := o.arrange (auditWindow reg cutoff)

def psBehActorActions (actorId : PeerId) : List AuditEntry :=
  o.arrange (reg.auditLog.rows.filter fun e => e.actorId = actorId ∧ cutoff.slt e.timestamp)

def psBehStaleCount : BitVec 32 :=
  BitVec.ofNat 32 (reg.peers.rows.countP fun p => p.status = 0 ∧ p.lastSeen.slt cutoff)

def psBehEpochWindow : BitVec 32 :=
  BitVec.ofNat 32 (reg.epochs.rows.countP fun e =>
    cutoff.slt e.createdAt ∧ reg.epochs.rows.any fun f => f.epochId.slt e.epochId)

def bigintSub (a b : I64) : Option ℤ :=
  if -2 ^ 63 ≤ a.toInt - b.toInt ∧ a.toInt - b.toInt < 2 ^ 63 then some (a.toInt - b.toInt) else none

def psBehEpochAvg (now : I64) : Option ℤ :=
  match reg.epochs.rows.mapM fun e =>
      if (0 : I64).slt e.expiredAt then bigintSub e.expiredAt e.createdAt else bigintSub now e.createdAt with
  | none => none
  | some [] => none
  | some lifetimes => some (lifetimes.sum.tdiv lifetimes.length)

def psBehPeerJoined : BitVec 32 := BitVec.ofNat 32 (reg.peers.rows.countP fun p => cutoff.slt p.joinedAt)

def psBehPeerRemoved : BitVec 32 :=
  BitVec.ofNat 32 (reg.peers.rows.countP fun p => cutoff.slt p.removedAt ∧ (0 : I64).slt p.removedAt)

def psBehEntryTimespan : ℤ × ℤ × ℕ :=
  let times := reg.auditLog.rows.map fun e => e.timestamp.toInt
  (times.min?.getD 0, times.max?.getD 0, times.length)

def grAuditCount : BitVec 32 := BitVec.ofNat 32 reg.auditLog.rows.length

def grServerCount (type : BitVec 32) : BitVec 32 :=
  BitVec.ofNat 32 (reg.servers.rows.countP fun s => s.type = type)

/-- `sizeof(gr_header_t)` -/
def sizeofHeader : ℕ := 10320

def grEstimateSize : ℕ :=
  sizeofHeader + (BitVec.ofNat 32 reg.peers.rows.length).toNat * 300 +
    (BitVec.ofNat 32 reg.roles.rows.length).toNat * 200 + (BitVec.ofNat 32 reg.webapps.rows.length).toNat * 200 +
    (grServerCount reg serverSignaling).toNat * 250 + (grServerCount reg serverRebroadcast).toNat * 250 +
    (BitVec.ofNat 32 reg.epochs.rows.length).toNat * 80 + (grAuditCount reg).toNat * 500

end Statements

/-- `actor_stats_t` -/
structure ActorStats where
  total : BitVec 32
  kicks : BitVec 32
  bans : BitVec 32
  removes : BitVec 32
  roleMods : BitVec 32
  permEscalations : BitVec 32
  invites : BitVec 32
  epochs : BitVec 32
  deriving DecidableEq

namespace ActorStats

def zero : ActorStats := ⟨0, 0, 0, 0, 0, 0, 0, 0⟩

def tick (c : Bool) (n : BitVec 32) : BitVec 32 := if c then n + 1 else n

def count (s : ActorStats) (e : AuditEntry) : ActorStats where
  total := s.total + 1
  kicks := tick (e.changeType = ChangeType.peerKicked.code) s.kicks
  bans := tick (e.changeType = ChangeType.peerBanned.code) s.bans
  removes := tick (e.changeType = ChangeType.peerRemoved.code) s.removes
  roleMods := tick (e.changeType = ChangeType.roleAdded.code ∨ e.changeType = ChangeType.roleRemoved.code ∨
    e.changeType = ChangeType.roleModified.code) s.roleMods
  permEscalations := tick (e.changeType = ChangeType.peerRoleChanged.code) s.permEscalations
  invites := tick (e.changeType = ChangeType.inviteCreated.code) s.invites
  epochs := tick (e.changeType = ChangeType.epochRotated.code) s.epochs

def destructive (s : ActorStats) : BitVec 32 := s.kicks + s.bans + s.removes

def ratio (s : ActorStats) : Ratio := .ofCounts s.destructive s.total

end ActorStats

structure MutationRate where
  totalMutations : BitVec 32
  distinctActors : BitVec 32
  mutationsPerMinute : ℚ
  mutationsPerActor : ℚ
  swarmDetected : Bool

structure AdminScore where
  totalAdminActions : BitVec 32
  kicks : BitVec 32
  bans : BitVec 32
  removes : BitVec 32
  roleModifications : BitVec 32
  permissionEscalations : BitVec 32
  destructiveRatio : Ratio
  abuseSuspected : Bool
  deriving DecidableEq

structure PeerChurn where
  activePeers : BitVec 32
  kickedPeers : BitVec 32
  bannedPeers : BitVec 32
  leftPeers : BitVec 32
  joinedInWindow : BitVec 32
  removedInWindow : BitVec 32
  churnRate : ℚ
  staleCount : BitVec 32

structure EpochPattern where
  rotationsInWindow : BitVec 32
  avgEpochLifetimeMs : I64
  excessiveRotation : Bool

structure NetworkScore where
  lastUpdateMs : I64
  timeSinceUpdateMs : I64
  estimatedRegistrarBytes : ℕ
  totalAuditEntries : BitVec 32
  avgEntryIntervalMs : ℚ

/-- `gr_behavior_snapshot_t` -/
structure BehaviorSnapshot where
  churn : PeerChurn
  mutationRate : MutationRate
  epochPattern : EpochPattern
  network : NetworkScore
  worstAdmin : AdminScore
  worstAdminId : PeerId
  hasWorstAdmin : Bool
  estimatedSize : ℕ
  needsAttention : Bool

section Analyses

variable (sqrtf : ℚ → ℚ) (cfg : BehaviorConfig) (reg : Registrar) (o : RowOrder) (now windowMs : I64)

def groupScale (activePeers : BitVec 32) : ℚ :=
  if cfg.scaleByGroupSize = false ∨ activePeers ≤ 10 then 1
  else
    let s := sqrtf (activePeers.toNat / 10)
    if 1 < s then s else 1

def queryActorStats (actorId : PeerId) (cutoff : I64) : ActorStats :=
  (psBehActorActions reg o cutoff actorId).foldl ActorStats.count ActorStats.zero

def grBehaviorMutationRate : Except GrError MutationRate :=
  if windowMs.sle 0 then .error .invalidParam
  else
    let rows := psBehWindowAll reg o (now - windowMs)
    let seenActors := (rows.map AuditEntry.actorId).foldl (see behMaxActors) []
    let total := BitVec.ofNat 32 rows.length
    let distinct := BitVec.ofNat 32 seenActors.length
    let windowMin : ℚ := windowMs.toInt / 60000
    let perMinute := if 0 < windowMin then total.toNat / windowMin else 0
    let scale := groupScale sqrtf cfg (peerCount reg PeerStatus.active)
    .ok
      { totalMutations := total
        distinctActors := distinct
        mutationsPerMinute := perMinute
        mutationsPerActor := if 0 < distinct then total.toNat / distinct.toNat else 0
        swarmDetected := cfg.swarmMutationsPerMin * scale < perMinute }

def grBehaviorAdminScore (adminId : PeerId) : Except GrError AdminScore :=
  if windowMs.sle 0 then .error .invalidParam
  else
    let s := queryActorStats reg o adminId (now - windowMs)
    let ratio := if 0 < s.total then s.ratio else .num 0
    .ok
      { totalAdminActions := s.total
        kicks := s.kicks
        bans := s.bans
        removes := s.removes
        roleModifications := s.roleMods
        permissionEscalations := s.permEscalations
        destructiveRatio := ratio
        abuseSuspected := ratio.exceeds (.num cfg.abuseDestructiveRatio) && cfg.abuseMinActions ≤ s.total }

def grBehaviorPeerChurn : Except GrError PeerChurn :=
  if windowMs.sle 0 then .error .invalidParam
  else
    let cutoff := now - windowMs
    let active := peerCount reg PeerStatus.active
    let joined := psBehPeerJoined reg cutoff
    let removed := psBehPeerRemoved reg cutoff
    .ok
      { activePeers := active
        kickedPeers := peerCount reg PeerStatus.kicked
        bannedPeers := peerCount reg PeerStatus.banned
        leftPeers := peerCount reg PeerStatus.left
        joinedInWindow := joined
        removedInWindow := removed
        churnRate := if 0 < active then (joined + removed).toNat / active.toNat else 0
        staleCount := psBehStaleCount reg (now - windowMs.sdiv 2) }

def grBehaviorEpochPattern : Except GrError EpochPattern :=
  if windowMs.sle 0 then .error .invalidParam
  else
    let rotations := psBehEpochWindow reg (now - windowMs)
    let scale := groupScale sqrtf cfg (peerCount reg PeerStatus.active)
    let windowHours : ℚ := windowMs.toInt / 3600000
    .ok
      { rotationsInWindow := rotations
        avgEpochLifetimeMs := BitVec.ofInt 64 ((psBehEpochAvg reg now).getD 0)
        excessiveRotation := decide (0 < windowHours ∧ cfg.epochMaxPerHour * scale < rotations.toNat / windowHours) }

def grBehaviorNetworkScore : NetworkScore :=
  let (minTs, maxTs, cnt) := psBehEntryTimespan reg
  { lastUpdateMs := reg.header.updatedAt
    timeSinceUpdateMs := now - reg.header.updatedAt
    estimatedRegistrarBytes := grEstimateSize reg
    totalAuditEntries := grAuditCount reg
    avgEntryIntervalMs :=
      if 1 < cnt then (BitVec.ofInt 64 (maxTs - minTs)).toInt / (cnt - 1) else 0 }

end Analyses

section Snapshot

structure WorstAdmin where
  ratio : Ratio
  actor : Option (PeerId × ActorStats)

def WorstAdmin.step (cfg : BehaviorConfig) (w : WorstAdmin) (a : PeerId × ActorStats) : WorstAdmin :=
  if a.2.total < cfg.abuseMinActions then w
  else if a.2.ratio.exceeds w.ratio then ⟨a.2.ratio, some a⟩
  else w

variable (sqrtf : ℚ → ℚ) (cfg : BehaviorConfig) (reg : Registrar) (o : RowOrder) (now windowMs : I64)

def grBehaviorSnapshot : Except GrError BehaviorSnapshot :=
  if windowMs.sle 0 then .error .invalidParam
  else
    let cutoff := now - windowMs
    let active := peerCount reg PeerStatus.active
    let joined := psBehPeerJoined reg cutoff
    let removed := psBehPeerRemoved reg cutoff
    let churn : PeerChurn :=
      { activePeers := active
        kickedPeers := peerCount reg PeerStatus.kicked
        bannedPeers := peerCount reg PeerStatus.banned
        leftPeers := peerCount reg PeerStatus.left
        joinedInWindow := joined
        removedInWindow := removed
        churnRate := if 0 < active then (joined + removed).toNat / active.toNat else 0
        staleCount := psBehStaleCount reg (now - windowMs.sdiv 2) }
    let scale := groupScale sqrtf cfg churn.activePeers
    let rows := psBehWindowAll reg o cutoff
    let actors := gather AuditEntry.actorId ActorStats.zero ActorStats.count behMaxActors rows
    let totalRows := rows.foldl (fun n _ => n + 1) (0 : BitVec 32)
    let actorCount := BitVec.ofNat 32 actors.length
    let windowMin : ℚ := windowMs.toInt / 60000
    let perMinute := if 0 < windowMin then totalRows.toNat / windowMin else 0
    let mutationRate : MutationRate :=
      { totalMutations := totalRows
        distinctActors := actorCount
        mutationsPerMinute := perMinute
        mutationsPerActor := if 0 < actorCount then totalRows.toNat / actorCount.toNat else 0
        swarmDetected := cfg.swarmMutationsPerMin * scale < perMinute }
    let worst := actors.foldl (WorstAdmin.step cfg) ⟨.num 0, none⟩
    let found := worst.actor.filter fun _ => worst.ratio.exceeds (.num cfg.abuseDestructiveRatio)
    let rotations := psBehEpochWindow reg cutoff
    let windowHours : ℚ := windowMs.toInt / 3600000
    let epochPattern : EpochPattern :=
      { rotationsInWindow := rotations
        avgEpochLifetimeMs := BitVec.ofInt 64 ((psBehEpochAvg reg now).getD 0)
        excessiveRotation := decide (0 < windowHours ∧ cfg.epochMaxPerHour * scale < rotations.toNat / windowHours) }
    let (minTs, maxTs, cnt) := psBehEntryTimespan reg
    let network : NetworkScore :=
      { lastUpdateMs := reg.header.updatedAt
        timeSinceUpdateMs := now - reg.header.updatedAt
        estimatedRegistrarBytes := grEstimateSize reg
        totalAuditEntries := grAuditCount reg
        avgEntryIntervalMs :=
          if 1 < cnt then (BitVec.ofInt 64 (maxTs - minTs)).toInt / (cnt - 1) else 0 }
    .ok
      { churn
        mutationRate
        epochPattern
        network
        worstAdmin := found.elim ⟨0, 0, 0, 0, 0, 0, .num 0, false⟩ fun a =>
          { totalAdminActions := a.2.total
            kicks := a.2.kicks
            bans := a.2.bans
            removes := a.2.removes
            roleModifications := a.2.roleMods
            permissionEscalations := a.2.permEscalations
            destructiveRatio := worst.ratio
            abuseSuspected := true }
        worstAdminId := found.elim (zeroBytes 32) Prod.fst
        hasWorstAdmin := found.isSome
        estimatedSize := network.estimatedRegistrarBytes
        needsAttention := mutationRate.swarmDetected || epochPattern.excessiveRotation ||
          decide (cfg.churnAttentionThreshold < churn.churnRate) || found.isSome }

end Snapshot

section Agreement

variable (sqrtf : ℚ → ℚ) (cfg : BehaviorConfig) (reg : Registrar) (o o' : RowOrder) (now windowMs : I64)

def windowActors : List PeerId := (auditWindow reg (now - windowMs)).map AuditEntry.actorId

def windowStats (id : PeerId) : ActorStats :=
  total AuditEntry.actorId ActorStats.zero ActorStats.count (auditWindow reg (now - windowMs)) id

/-- An actor that `gr_behavior_admin_score` suspects, with what it says of it. -/
def Suspected (id : PeerId) (score : AdminScore) : Prop :=
  id ∈ windowActors reg now windowMs ∧ grBehaviorAdminScore cfg reg o now windowMs id = .ok score ∧
    score.abuseSuspected = true

/-- The snapshot says what the analyses say that are asked one by one. -/
structure SnapshotAgrees (snap : BehaviorSnapshot) : Prop where
  mutationRate : grBehaviorMutationRate sqrtf cfg reg o now windowMs = .ok snap.mutationRate
  churn : grBehaviorPeerChurn reg now windowMs = .ok snap.churn
  epochPattern : grBehaviorEpochPattern sqrtf cfg reg now windowMs = .ok snap.epochPattern
  network : grBehaviorNetworkScore reg now = snap.network
  hasWorst : snap.hasWorstAdmin = true ↔ ∃ id score, Suspected cfg reg o now windowMs id score
  worst : snap.hasWorstAdmin = true →
    Suspected cfg reg o now windowMs snap.worstAdminId snap.worstAdmin ∧
      ∀ id score, Suspected cfg reg o now windowMs id score →
        score.destructiveRatio.exceeds snap.worstAdmin.destructiveRatio = false

/-- Of the actors that have done this no one is suspected who has done nothing destructive, unless someone has; and
no count has gone around to 0 where any number of actions is enough. -/
structure WorstFound (cfg : BehaviorConfig) (actors : List PeerId) (stats : PeerId → ActorStats) : Prop where
  threshold : 0 ≤ cfg.abuseDestructiveRatio ∨ (∀ id ∈ actors, (stats id).total < cfg.abuseMinActions) ∨
    ∃ id ∈ actors, cfg.abuseMinActions ≤ (stats id).total ∧ (stats id).destructive ≠ 0
  counted : ∀ id ∈ actors, (stats id).total = 0 → cfg.abuseMinActions = 0 → (stats id).destructive = 0

end Agreement

section Scores

namespace Ratio

variable {q r t : Ratio} {n d : BitVec 32} {x : ℚ}

theorem exceeds_trans (hqr : q.exceeds r = true) (hrt : r.exceeds t = true) : q.exceeds t = true := by
  cases t with
  | num z =>
    cases r with
    | num y =>
      cases q with
      | num x => exact decide_eq_true (lt_trans (of_decide_eq_true hrt) (of_decide_eq_true hqr))
      | infinity => rfl
      | nan => cases hqr
    | infinity => cases q <;> cases hqr
    | nan => cases hrt
  | infinity => cases r <;> cases hrt
  | nan => cases r <;> cases hrt

theorem exceeds_of_below (hqt : q.exceeds t = false) (hrt : r.exceeds t = true) : q.exceeds r = false := by
  refine Bool.eq_false_iff.mpr fun hqr => ?_
  exact Bool.eq_false_iff.mp hqt (exceeds_trans hqr hrt)

theorem exceeds_self : q.exceeds q = false := by
  cases q with
  | num x => exact decide_eq_false (lt_irrefl x)
  | infinity => rfl
  | nan => rfl

theorem exceeds_of_best {x : ℚ} (hq : q.exceeds (num x) = true) (hr : r ≠ nan) (hqr : q.exceeds r = false) :
    r.exceeds (num x) = true := by
  cases r with
  | num z =>
    cases q with
    | num y => exact decide_eq_true (lt_of_lt_of_le (of_decide_eq_true hq) (not_lt.mp (of_decide_eq_false hqr)))
    | infinity => cases hqr
    | nan => cases hq
  | infinity => rfl
  | nan => exact absurd rfl hr

theorem ofCounts_of_ne (hd : d ≠ 0) : ofCounts n d = num (n.toNat / d.toNat) := if_neg hd

theorem toNat_pos_iff : 0 < n.toNat ↔ n ≠ 0 := by
  rw [Nat.pos_iff_ne_zero, Ne, Ne, ← BitVec.toNat_inj]
  rfl

theorem exceeds_zero_iff : (ofCounts n d).exceeds (.num 0) = true ↔ n ≠ 0 := by
  unfold ofCounts
  split
  · split
    · rename_i hn
      exact iff_of_false (by simp [exceeds]) fun h => h hn
    · rename_i hn
      exact iff_of_true rfl hn
  · rename_i hd
    have hpos : (0 : ℚ) < d.toNat := by
      rw [Nat.cast_pos]
      exact toNat_pos_iff.mpr hd
    rw [exceeds, decide_eq_true_eq, div_pos_iff_of_pos_right hpos, Nat.cast_pos]
    exact toNat_pos_iff

end Ratio

open Ratio

theorem worst_cases (cfg : BehaviorConfig) (actors : List (PeerId × ActorStats)) :
    (∀ a ∈ actors, cfg.abuseMinActions ≤ a.2.total → a.2.ratio.exceeds (.num 0) = false) ∧
        actors.foldl (WorstAdmin.step cfg) ⟨.num 0, none⟩ = ⟨.num 0, none⟩ ∨
      ∃ a ∈ actors, cfg.abuseMinActions ≤ a.2.total ∧ a.2.ratio.exceeds (.num 0) = true ∧
        (∀ b ∈ actors, cfg.abuseMinActions ≤ b.2.total → b.2.ratio.exceeds a.2.ratio = false) ∧
        actors.foldl (WorstAdmin.step cfg) ⟨.num 0, none⟩ = ⟨a.2.ratio, some a⟩ := by
  induction actors using List.reverseRecOn with
  | nil => exact .inl ⟨fun _ ha => absurd ha List.not_mem_nil, rfl⟩
  | append_singleton actors x ih =>
    have hall {p : PeerId × ActorStats → Prop} (hp : ∀ a ∈ actors, p a) (hx : p x) :
        ∀ a ∈ actors ++ [x], p a := by
      intro a ha
      obtain ha | ha := List.mem_append.mp ha
      · exact hp a ha
      · exact List.mem_singleton.mp ha ▸ hx
    have hlast : x ∈ actors ++ [x] := List.mem_append_right _ List.mem_cons_self
    rw [List.foldl_append, List.foldl_cons, List.foldl_nil]
    obtain ⟨hnone, hfold⟩ | ⟨a, ha, hmin, hpos, hbest, hfold⟩ := ih
    · rw [hfold, WorstAdmin.step]
      split
      · rename_i hfew
        exact .inl ⟨hall hnone fun hmin => absurd hfew (BitVec.not_lt.mpr hmin), rfl⟩
      · rename_i hmany
        split
        · rename_i hpos
          refine .inr ⟨x, hlast, BitVec.not_lt.mp hmany, hpos, hall (fun b hb hmin => ?_) fun _ => exceeds_self, rfl⟩
          exact exceeds_of_below (hnone b hb hmin) hpos
        · rename_i hzero
          exact .inl ⟨hall hnone fun _ => Bool.eq_false_iff.mpr hzero, rfl⟩
    · rw [hfold, WorstAdmin.step]
      have ha' : a ∈ actors ++ [x] := List.mem_append_left _ ha
      split
      · rename_i hfew
        exact .inr ⟨a, ha', hmin, hpos, hall hbest fun hmin => absurd hfew (BitVec.not_lt.mpr hmin), rfl⟩
      · rename_i hmany
        split
        · rename_i habove
          refine .inr ⟨x, hlast, BitVec.not_lt.mp hmany, exceeds_trans habove hpos, hall (fun b hb hmin => ?_)
            fun _ => exceeds_self, rfl⟩
          exact exceeds_of_below (hbest b hb hmin) habove
        · rename_i hbelow
          exact .inr ⟨a, ha', hmin, hpos, hall hbest fun _ => Bool.eq_false_iff.mpr hbelow, rfl⟩

end Scores

section Counts

variable {cfg : BehaviorConfig} {reg : Registrar} {o o' : RowOrder} {now windowMs : I64} {id : PeerId}

theorem tick_comm (c d : Bool) (n : BitVec 32) :
    ActorStats.tick c (ActorStats.tick d n) = ActorStats.tick d (ActorStats.tick c n) := by
  cases c <;> cases d <;> rfl

instance : RightCommutative ActorStats.count where
  right_comm s e e' := by
    unfold ActorStats.count
    congr 1
    all_goals exact tick_comm ..

theorem queryActorStats_eq : queryActorStats reg o id (now - windowMs) = windowStats reg now windowMs id := by
  have hperm := (o.perm (reg.auditLog.rows.filter fun e => e.actorId = id ∧ (now - windowMs).slt e.timestamp))
  rw [queryActorStats, psBehActorActions, hperm.foldl_eq, windowStats, total, auditWindow, List.filter_filter]
  congr 2
  funext e
  simp

theorem perm_window (reg : Registrar) (o : RowOrder) (now windowMs : I64) :
    (psBehWindowAll reg o (now - windowMs)).Perm (auditWindow reg (now - windowMs)) :=
  o.perm _

theorem length_seen (hroom : (windowActors reg now windowMs).toFinset.card ≤ behMaxActors) :
    (((psBehWindowAll reg o (now - windowMs)).map AuditEntry.actorId).foldl (see behMaxActors) []).length =
      (windowActors reg now windowMs).toFinset.card := by
  have hsame := List.toFinset_eq_of_perm _ _ ((perm_window reg o now windowMs).map AuditEntry.actorId)
  rw [length_foldl_see (by rwa [hsame]), hsame]
  rfl

theorem foldl_succ (rows : List AuditEntry) :
    rows.foldl (fun n _ => n + 1) (0 : BitVec 32) = BitVec.ofNat 32 rows.length := by
  induction rows using List.reverseRecOn with
  | nil => rfl
  | append_singleton rows e ih =>
    rw [List.foldl_append, ih, List.length_append, BitVec.ofNat_add]
    rfl

theorem mem_buckets (hroom : (windowActors reg now windowMs).toFinset.card ≤ behMaxActors)
    {a : PeerId × ActorStats} :
    a ∈ gather AuditEntry.actorId ActorStats.zero ActorStats.count behMaxActors
        (psBehWindowAll reg o (now - windowMs)) ↔
      a.1 ∈ windowActors reg now windowMs ∧ a.2 = windowStats reg now windowMs a.1 := by
  have hperm := perm_window reg o now windowMs
  have hactors := hperm.map AuditEntry.actorId
  rw [mem_gather (by rwa [List.toFinset_eq_of_perm _ _ hactors]), hactors.mem_iff, total_perm hperm]
  rfl

end Counts

section Agreement

variable {sqrtf : ℚ → ℚ} {cfg : BehaviorConfig} {reg : Registrar} {o o' : RowOrder} {now windowMs : I64} {id : PeerId}
  {score : AdminScore}

/-- What `gr_behavior_admin_score` says of an actor that has done this. -/
def ActorStats.adminScore (cfg : BehaviorConfig) (s : ActorStats) : AdminScore :=
  let ratio := if 0 < s.total then s.ratio else .num 0
  ⟨s.total, s.kicks, s.bans, s.removes, s.roleMods, s.permEscalations, ratio,
    ratio.exceeds (.num cfg.abuseDestructiveRatio) && cfg.abuseMinActions ≤ s.total⟩

theorem not_sle_zero (hwindow : 0 < windowMs.toInt) : ¬ windowMs.sle 0 = true := by
  simpa [BitVec.sle] using hwindow

theorem grBehaviorAdminScore_eq (hwindow : 0 < windowMs.toInt) :
    grBehaviorAdminScore cfg reg o now windowMs id = .ok ((windowStats reg now windowMs id).adminScore cfg) := by
  rw [grBehaviorAdminScore, if_neg (not_sle_zero hwindow), queryActorStats_eq]
  rfl

theorem suspected_iff (hwindow : 0 < windowMs.toInt) : Suspected cfg reg o now windowMs id score ↔
    id ∈ windowActors reg now windowMs ∧ (windowStats reg now windowMs id).adminScore cfg = score ∧
      score.abuseSuspected = true := by
  rw [Suspected, grBehaviorAdminScore_eq hwindow, Except.ok.injEq]

section Scores

variable {s : ActorStats}

theorem abuseSuspected_iff : (s.adminScore cfg).abuseSuspected = true ↔
    (s.adminScore cfg).destructiveRatio.exceeds (.num cfg.abuseDestructiveRatio) = true ∧
      cfg.abuseMinActions ≤ s.total := by
  rw [ActorStats.adminScore, Bool.and_eq_true, decide_eq_true_eq]

theorem destructiveRatio_of_ne (h : s.total ≠ 0) : (s.adminScore cfg).destructiveRatio = s.ratio :=
  if_pos (show 0#32 < s.total from BitVec.lt_def.mpr (Ratio.toNat_pos_iff.mpr h))

theorem destructiveRatio_of_zero (h : s.total = 0) : (s.adminScore cfg).destructiveRatio = .num 0 :=
  if_neg (by rw [h]; decide)

theorem destructiveRatio_ne_infinity : (s.adminScore cfg).destructiveRatio ≠ .infinity := by
  by_cases h : s.total = 0
  · rw [destructiveRatio_of_zero h]
    exact fun h => nomatch h
  · rw [destructiveRatio_of_ne h, ActorStats.ratio, Ratio.ofCounts_of_ne h]
    exact fun h => nomatch h

theorem destructiveRatio_of_harmless (h : s.destructive = 0) : (s.adminScore cfg).destructiveRatio = .num 0 := by
  by_cases htotal : s.total = 0
  · exact destructiveRatio_of_zero htotal
  · rw [destructiveRatio_of_ne htotal, ActorStats.ratio, Ratio.ofCounts_of_ne htotal, h]
    exact congrArg Ratio.num (by simp)

end Scores

def WorstAdmin.found (cfg : BehaviorConfig) (w : WorstAdmin) : Option (PeerId × AdminScore) :=
  (w.actor.filter fun _ => w.ratio.exceeds (.num cfg.abuseDestructiveRatio)).map fun a =>
    (a.1, ⟨a.2.total, a.2.kicks, a.2.bans, a.2.removes, a.2.roleMods, a.2.permEscalations, w.ratio, true⟩)

structure FoundRight (cfg : BehaviorConfig) (actors : List PeerId) (stats : PeerId → ActorStats)
    (found : Option (PeerId × AdminScore)) : Prop where
  isSome : found.isSome = true ↔ ∃ id ∈ actors, ((stats id).adminScore cfg).abuseSuspected = true
  best : ∀ x, found = some x → x.1 ∈ actors ∧ (stats x.1).adminScore cfg = x.2 ∧ x.2.abuseSuspected = true ∧
    ∀ id ∈ actors, ((stats id).adminScore cfg).abuseSuspected = true →
      ((stats id).adminScore cfg).destructiveRatio.exceeds x.2.destructiveRatio = false

section Worst

variable {actors : List PeerId} {stats : PeerId → ActorStats}

theorem foundRight_none_iff
    (hnone : ∀ id ∈ actors, cfg.abuseMinActions ≤ (stats id).total → (stats id).destructive = 0) :
    FoundRight cfg actors stats none ↔ WorstFound cfg actors stats := by
  constructor
  · intro hright
    refine ⟨?_, fun id hid htotal hmin => hnone id hid (by rw [htotal, hmin]; exact BitVec.le_refl 0)⟩
    by_cases hthr : 0 ≤ cfg.abuseDestructiveRatio
    · exact .inl hthr
    · refine .inr (.inl fun id hid => ?_)
      by_contra hmin
      have hmin := BitVec.not_lt.mp hmin
      refine absurd (hright.isSome.mpr ⟨id, hid, abuseSuspected_iff.mpr ⟨?_, hmin⟩⟩) (by decide)
      rw [destructiveRatio_of_harmless (hnone id hid hmin)]
      exact decide_eq_true (lt_of_not_ge hthr)
  · intro hfound
    refine ⟨iff_of_false (by decide) ?_, fun x hx => nomatch hx⟩
    rintro ⟨id, hid, hsuspected⟩
    obtain ⟨hratio, hmin⟩ := abuseSuspected_iff.mp hsuspected
    rw [destructiveRatio_of_harmless (hnone id hid hmin)] at hratio
    obtain hthr | hfew | ⟨j, hj, hmin', hharm⟩ := hfound.threshold
    · exact absurd (of_decide_eq_true hratio) (not_lt_of_ge hthr)
    · exact absurd (hfew id hid) (BitVec.not_lt.mpr hmin)
    · exact hharm (hnone j hj hmin')

theorem zero_below {r : Ratio} (h : r.exceeds (.num 0) = true) : (Ratio.num 0).exceeds r = false :=
  Ratio.exceeds_of_below Ratio.exceeds_self h

theorem foundRight_some_iff {id : PeerId} (hid : id ∈ actors) (hmin : cfg.abuseMinActions ≤ (stats id).total)
    (hharm : (stats id).destructive ≠ 0)
    (hbest : ∀ j ∈ actors, cfg.abuseMinActions ≤ (stats j).total →
      (stats j).ratio.exceeds (stats id).ratio = false) :
    FoundRight cfg actors stats ((⟨(stats id).ratio, some (id, stats id)⟩ : WorstAdmin).found cfg) ↔
      WorstFound cfg actors stats := by
  have hpos : (stats id).ratio.exceeds (.num 0) = true := Ratio.exceeds_zero_iff.mpr hharm
  have hbelow : ∀ j ∈ actors, cfg.abuseMinActions ≤ (stats j).total →
      ((stats j).adminScore cfg).destructiveRatio.exceeds (stats id).ratio = false := by
    intro j hj hmin
    by_cases htotal : (stats j).total = 0
    · rw [destructiveRatio_of_zero htotal]
      exact zero_below hpos
    · rw [destructiveRatio_of_ne htotal]
      exact hbest j hj hmin
  constructor
  · intro hright
    refine ⟨.inr (.inr ⟨id, hid, hmin, hharm⟩), fun j hj htotal hzero => ?_⟩
    -- a bucket that has gone around to 0 has no ratio that a score can have
    by_contra hharm'
    have hinf : (stats j).ratio = .infinity := (if_pos htotal).trans (if_neg hharm')
    have hsame := hbest j hj (by rw [hzero]; exact BitVec.le_def.mpr (Nat.zero_le _))
    rw [hinf] at hsame
    have hworst : (stats id).ratio = .infinity := by
      cases hratio : (stats id).ratio with
      | num q => rw [hratio] at hsame; cases hsame
      | infinity => rfl
      | nan => rw [hratio] at hpos; cases hpos
    rw [hworst] at hright
    exact destructiveRatio_ne_infinity (congrArg AdminScore.destructiveRatio (hright.best _ rfl).2.1)
  · intro hfound
    have htotal : (stats id).total ≠ 0 := by
      intro htotal
      refine hharm (hfound.counted id hid htotal ?_)
      rw [htotal] at hmin
      exact BitVec.le_zero_iff.mp hmin
    have hscore : ((stats id).adminScore cfg).destructiveRatio = (stats id).ratio := destructiveRatio_of_ne htotal
    by_cases habove : (stats id).ratio.exceeds (.num cfg.abuseDestructiveRatio) = true
    · have hsuspected : ((stats id).adminScore cfg).abuseSuspected = true :=
        abuseSuspected_iff.mpr ⟨by rwa [hscore], hmin⟩
      have hfind : (⟨(stats id).ratio, some (id, stats id)⟩ : WorstAdmin).found cfg =
          some (id, (stats id).adminScore cfg) := by
        rw [WorstAdmin.found, Option.filter_some, if_pos habove, Option.map_some, ← hscore, ← hsuspected]
        rfl
      rw [hfind]
      refine ⟨iff_of_true rfl ⟨id, hid, hsuspected⟩, fun x hx => ?_⟩
      cases hx
      refine ⟨hid, rfl, hsuspected, fun j hj hj' => ?_⟩
      rw [hscore]
      exact hbelow j hj (abuseSuspected_iff.mp hj').2
    · have hfind : (⟨(stats id).ratio, some (id, stats id)⟩ : WorstAdmin).found cfg = none := by
        simp [WorstAdmin.found, habove]
      rw [hfind]
      refine ⟨iff_of_false (by decide) ?_, fun x hx => nomatch hx⟩
      rintro ⟨j, hj, hsuspected⟩
      obtain ⟨hratio, hmin'⟩ := abuseSuspected_iff.mp hsuspected
      refine habove (Ratio.exceeds_of_best hratio (fun hnan => ?_) (hbelow j hj hmin'))
      rw [hnan] at hpos
      cases hpos

end Worst

theorem foundRight_iff (cfg : BehaviorConfig) {buckets : List (PeerId × ActorStats)} {actors : List PeerId}
    {stats : PeerId → ActorStats} (hbuckets : ∀ a, a ∈ buckets ↔ a.1 ∈ actors ∧ a.2 = stats a.1) :
    FoundRight cfg actors stats ((buckets.foldl (WorstAdmin.step cfg) ⟨.num 0, none⟩).found cfg) ↔
      WorstFound cfg actors stats := by
  obtain ⟨hnone, hfold⟩ | ⟨a, ha, hmin, hpos, hbest, hfold⟩ := worst_cases cfg buckets
  · rw [hfold]
    refine foundRight_none_iff fun id hid hmin => ?_
    by_contra hharm
    have hzero := hnone _ ((hbuckets (id, stats id)).mpr ⟨hid, rfl⟩) hmin
    exact Bool.eq_false_iff.mp hzero (Ratio.exceeds_zero_iff.mpr hharm)
  · obtain ⟨id, s⟩ := a
    obtain ⟨hid, hs⟩ := (hbuckets (id, s)).mp ha
    obtain rfl : s = stats id := hs
    rw [hfold]
    refine foundRight_some_iff hid hmin (Ratio.exceeds_zero_iff.mp hpos) fun j hj hmin => ?_
    exact hbest (j, stats j) ((hbuckets (j, stats j)).mpr ⟨hj, rfl⟩) hmin

theorem foundRight_iff_suspected (hwindow : 0 < windowMs.toInt) (ratio : Ratio) (f : Option (PeerId × ActorStats)) :
    FoundRight cfg (windowActors reg now windowMs) (windowStats reg now windowMs)
        (f.map fun a =>
          (a.1, ⟨a.2.total, a.2.kicks, a.2.bans, a.2.removes, a.2.roleMods, a.2.permEscalations, ratio, true⟩)) ↔
      (f.isSome = true ↔ ∃ id score, Suspected cfg reg o now windowMs id score) ∧
        ∀ a, f = some a →
          Suspected cfg reg o now windowMs a.1
              ⟨a.2.total, a.2.kicks, a.2.bans, a.2.removes, a.2.roleMods, a.2.permEscalations, ratio, true⟩ ∧
            ∀ id score, Suspected cfg reg o now windowMs id score → score.destructiveRatio.exceeds ratio = false := by
  have hsome : (∃ id score, Suspected cfg reg o now windowMs id score) ↔
      ∃ id ∈ windowActors reg now windowMs,
        ((windowStats reg now windowMs id).adminScore cfg).abuseSuspected = true := by
    simp only [suspected_iff hwindow]
    exact exists_congr fun id => ⟨fun ⟨_, hid, hscore, h⟩ => ⟨hid, hscore ▸ h⟩, fun ⟨hid, h⟩ => ⟨_, hid, rfl, h⟩⟩
  have hall : (∀ id score, Suspected cfg reg o now windowMs id score → score.destructiveRatio.exceeds ratio = false) ↔
      ∀ id ∈ windowActors reg now windowMs, ((windowStats reg now windowMs id).adminScore cfg).abuseSuspected = true →
        ((windowStats reg now windowMs id).adminScore cfg).destructiveRatio.exceeds ratio = false := by
    simp only [suspected_iff hwindow]
    exact forall_congr' fun id =>
      ⟨fun h hid hs => h _ ⟨hid, rfl, hs⟩, fun h score ⟨hid, hscore, hs⟩ => hscore ▸ h hid (hscore ▸ hs)⟩
  rw [hsome, hall]
  constructor
  · intro hright
    refine ⟨by rw [← hright.isSome, Option.isSome_map], fun a ha => ?_⟩
    subst ha
    obtain ⟨hid, hscore, hsuspected, hbest⟩ := hright.best _ rfl
    exact ⟨(suspected_iff hwindow).mpr ⟨hid, hscore, hsuspected⟩, hbest⟩
  · rintro ⟨hisSome, hbest⟩
    refine ⟨by rw [← hisSome, Option.isSome_map], fun x hx => ?_⟩
    obtain ⟨a, ha, rfl⟩ := Option.map_eq_some_iff.mp hx
    obtain ⟨hs, hbelow⟩ := hbest a ha
    obtain ⟨hid, hscore, hsuspected⟩ := (suspected_iff hwindow).mp hs
    exact ⟨hid, hscore, hsuspected, hbelow⟩

theorem grBehaviorSnapshot_isOk (hwindow : 0 < windowMs.toInt) :
    ∃ snap, grBehaviorSnapshot sqrtf cfg reg o now windowMs = .ok snap := by
  rw [grBehaviorSnapshot, if_neg (not_sle_zero hwindow)]
  exact ⟨_, rfl⟩

theorem agrees_iff {snap : BehaviorSnapshot} (hwindow : 0 < windowMs.toInt)
    (hroom : (windowActors reg now windowMs).toFinset.card ≤ behMaxActors)
    (hsnap : grBehaviorSnapshot sqrtf cfg reg o now windowMs = .ok snap) :
    SnapshotAgrees sqrtf cfg reg o' now windowMs snap ↔
      WorstFound cfg (windowActors reg now windowMs) (windowStats reg now windowMs) := by
  have hsle := not_sle_zero hwindow
  have hbuckets := foundRight_iff cfg fun a => mem_buckets (o := o) (a := a) hroom
  have hlen : (psBehWindowAll reg o' (now - windowMs)).length = (psBehWindowAll reg o (now - windowMs)).length :=
    (perm_window reg o' now windowMs).length_eq.trans (perm_window reg o now windowMs).length_eq.symm
  have hseen := (length_seen (o := o') hroom).trans (length_seen (o := o) hroom).symm
  have hactors := congrArg List.length (keys_gather AuditEntry.actorId ActorStats.zero ActorStats.count behMaxActors
    (psBehWindowAll reg o (now - windowMs)))
  rw [List.length_map] at hactors
  rw [grBehaviorSnapshot, if_neg hsle, Except.ok.injEq] at hsnap
  subst hsnap
  rw [← hbuckets, WorstAdmin.found, foundRight_iff_suspected (o := o') hwindow]
  constructor
  · intro hagrees
    refine ⟨hagrees.hasWorst, fun a ha => ?_⟩
    have hworst := hagrees.worst
    simp only [ha] at hworst
    exact hworst rfl
  · rintro ⟨hsome, hbest⟩
    refine ⟨?_, ?_, ?_, ?_, hsome, fun h => ?_⟩
    · rw [grBehaviorMutationRate, if_neg hsle]
      simp only [foldl_succ, hlen, hseen, hactors]
    · rw [grBehaviorPeerChurn, if_neg hsle]
    · rw [grBehaviorEpochPattern, if_neg hsle]
    · rfl
    · obtain ⟨a, ha⟩ := Option.isSome_iff_exists.mp h
      simp only [ha]
      exact hbest a ha

/-- The snapshot agrees with the analyses that are asked one by one exactly where the worst actor is found. -/
theorem snapshot_agrees_iff (sqrtf : ℚ → ℚ) (cfg : BehaviorConfig) (reg : Registrar) (o o' : RowOrder)
    (now windowMs : I64) (hwindow : 0 < windowMs.toInt)
    (hroom : (windowActors reg now windowMs).toFinset.card ≤ behMaxActors) :
    ∃ snap, grBehaviorSnapshot sqrtf cfg reg o now windowMs = .ok snap ∧
      (SnapshotAgrees sqrtf cfg reg o' now windowMs snap ↔
        WorstFound cfg (windowActors reg now windowMs) (windowStats reg now windowMs)) := by
  obtain ⟨snap, hsnap⟩ := grBehaviorSnapshot_isOk hwindow
  exact ⟨snap, hsnap, agrees_iff hwindow hroom hsnap⟩

end Agreement

section Sample

def inOrder : RowOrder := ⟨id, fun _ => .refl _⟩

def strictConfig : BehaviorConfig :=
  { behaviorConfigDefaults with abuseDestructiveRatio := -1 / 10, abuseMinActions := 1 }

theorem windowActors_created : windowActors (createdGroup fun _ => zeroBytes 128) 2 10 = [(member 1).peerId] := by
  rfl

theorem windowStats_created :
    windowStats (createdGroup fun _ => zeroBytes 128) 2 10 (member 1).peerId = { ActorStats.zero with total := 1 } := by
  rfl

theorem room_created :
    (windowActors (createdGroup fun _ => zeroBytes 128) 2 10).toFinset.card ≤ behMaxActors := by
  rw [windowActors_created]
  decide

theorem snapshot_agrees_iff_created : ∃ snap,
    grBehaviorSnapshot id behaviorConfigDefaults (createdGroup fun _ => zeroBytes 128) inOrder 2 10 = .ok snap ∧
      (SnapshotAgrees id behaviorConfigDefaults (createdGroup fun _ => zeroBytes 128) inOrder 2 10 snap ↔
        WorstFound behaviorConfigDefaults (windowActors (createdGroup fun _ => zeroBytes 128) 2 10)
          (windowStats (createdGroup fun _ => zeroBytes 128) 2 10)) :=
  snapshot_agrees_iff id behaviorConfigDefaults _ inOrder inOrder 2 10 (by decide) room_created

theorem harmless_missed : ¬ ∀ snap,
    grBehaviorSnapshot id strictConfig (createdGroup fun _ => zeroBytes 128) inOrder 2 10 = .ok snap →
      SnapshotAgrees id strictConfig (createdGroup fun _ => zeroBytes 128) inOrder 2 10 snap := by
  intro hall
  obtain ⟨snap, hsnap⟩ : ∃ snap,
      grBehaviorSnapshot id strictConfig (createdGroup fun _ => zeroBytes 128) inOrder 2 10 = .ok snap :=
    grBehaviorSnapshot_isOk (by decide)
  have hfound := (agrees_iff (by decide) room_created hsnap).mp (hall snap hsnap)
  obtain hthr | hfew | ⟨id, hid, -, hharm⟩ := hfound.threshold
  · exact absurd hthr (by norm_num [strictConfig])
  · have hone := hfew (member 1).peerId (by rw [windowActors_created]; exact List.mem_cons_self)
    rw [windowStats_created] at hone
    exact absurd hone (by decide)
  · rw [windowActors_created, List.mem_singleton] at hid
    rw [hid, windowStats_created] at hharm
    exact absurd hharm (by decide)

end Sample

end YumiBrowser.Group
