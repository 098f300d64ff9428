import YumiBrowser.Dashboard.Slots
import YumiBrowser.Library.System

namespace YumiBrowser.Dashboard

open Transition

/-- How the steps of `yumi_client_open` after its checks go. -/
structure OpenAttempt where
  allocated : Bool
  registrar : Bool
  listener : Bool
  workers : Bool
  deriving DecidableEq

/-- `client` is what `*out` holds, and the other result the return value. -/
def yumiClientOpen (client : Bool) (identity : Option ι) (a : OpenAttempt) : Bool × ℤ :=
  if identity.isNone then (client, -1)
  else if ¬ a.allocated then (false, -1)
  else if ¬ a.registrar then (false, -1)
  else if ¬ a.listener then (false, -1)
  else if ¬ a.workers then (false, -1)
  else (true, 0)

/-- `contexts` are the contexts in their pool, `leased` those that are not, and `clients` the clients that
exist. -/
structure Connections where
  d : DashboardRuntime
  contexts : ℕ
  leased : ℕ
  clients : ℕ

inductive ConnectionCall
  | connect (groupIndex : BitVec 32) (a : OpenAttempt)
  | disconnect (groupIndex : BitVec 32)

namespace Connections

variable (s : Connections)

def maxDashboardCount : ℕ := 1

def setGroup (groupIndex : BitVec 32) (f : DashboardGroup → DashboardGroup) : Connections :=
  { s with d := { s.d with groups := s.d.groups.modify groupIndex.toNat f } }

/-- A call that `dashboard_connect_group` makes with the context that it has leased: the identity it passes
is `NULL`. -/
def openClient (groupIndex : BitVec 32) (g : DashboardGroup) (a : OpenAttempt) : Connections × ℤ :=
  let r := yumiClientOpen g.client (none : Option Unit) a
  if r.2 ≠ 0 then
    ({ s.setGroup groupIndex fun g => { g with client := r.1, state := .failed } with
        contexts := s.contexts + 1, leased := s.leased - 1 }, -1)
  else
    ({ s.setGroup groupIndex fun g => { g with client := r.1 } with clients := s.clients + 1 }, 0)

def dashboardConnectGroup (groupIndex : BitVec 32) (a : OpenAttempt) : Connections × ℤ :=
  s.d.groups[groupIndex.toNat]?.elim (s, -1) fun g =>
    if g.state = .connected then (s, 0)
    else
      let s := s.setGroup groupIndex fun g => { g with state := .connecting }
      if s.contexts = 0 then (s, -1)
      else openClient { s with contexts := s.contexts - 1, leased := s.leased + 1 } groupIndex g a

def destroyed (groupIndex : BitVec 32) : ℕ :=
  s.d.groups[groupIndex.toNat]?.elim 0 fun g => if g.client then 1 else 0

def dashboardDisconnectGroup (groupIndex : BitVec 32) : Connections :=
  { s with d := s.d.dashboardDisconnectGroup groupIndex, clients := s.clients - s.destroyed groupIndex }

def next : ConnectionCall → Connections
  | .connect groupIndex a => (s.dashboardConnectGroup groupIndex a).1
  | .disconnect groupIndex => s.dashboardDisconnectGroup groupIndex

def openGroups : ℕ := s.d.groups.countP fun g => g.client

def stateOf (groupIndex : BitVec 32) : Option GroupState := s.d.groups[groupIndex.toNat]?.map DashboardGroup.state

def clientOf (groupIndex : BitVec 32) : Option Bool := s.d.groups[groupIndex.toNat]?.map DashboardGroup.client

def Connectable (groupIndex : BitVec 32) : Prop :=
  s.stateOf groupIndex = some .disconnected ∨ s.stateOf groupIndex = some .failed

/-- A call does what it should with the group, the clients and the contexts. -/
structure Balanced (s : Connections) (c : ConnectionCall) : Prop where
  leased : (s.next c).leased = (s.next c).openGroups
  opens : ∀ gi a, c = .connect gi a → s.Connectable gi →
    (s.dashboardConnectGroup gi a).2 = 0 ∧ (s.next c).clientOf gi = some true
  once : ∀ gi a, c = .connect gi a → s.clientOf gi = some true → (s.next c).clients = s.clients
  failed : ∀ gi a, c = .connect gi a → (s.dashboardConnectGroup gi a).2 ≠ 0 →
    ((s.next c).stateOf gi = some .failed ∨ (s.next c).stateOf gi = s.stateOf gi) ∧ (s.next c).leased = s.leased

/-- No group that a connection could be made to is connected. -/
def Idle (s : Connections) : ConnectionCall → Prop
  | .connect groupIndex _ => ¬ s.Connectable groupIndex
  | .disconnect _ => True

/-- No group has a client, whatever was called. -/
structure Closed (s : Connections) : Prop where
  groups : ∀ g ∈ s.d.groups, g.client = false ∧ g.state ≠ .connected
  contexts : s.contexts = maxDashboardCount
  leased : s.leased = 0

instance (groupIndex : BitVec 32) : Decidable (s.Connectable groupIndex) := inferInstanceAs (Decidable (_ ∨ _))

instance (s : Connections) : (c : ConnectionCall) → Decidable (s.Idle c)
  | .connect _ _ => inferInstanceAs (Decidable (¬ _))
  | .disconnect _ => .isTrue trivial

variable {s} {gi : BitVec 32} {a : OpenAttempt}

theorem yumiClientOpen_none (client : Bool) : yumiClientOpen client (none : Option ι) a = (client, -1) := rfl

theorem Closed.connect_cases (h : s.Closed) (gi : BitVec 32) (a : OpenAttempt) :
    s.stateOf gi = none ∧ s.dashboardConnectGroup gi a = (s, -1) ∨
    s.stateOf gi ≠ none ∧ s.dashboardConnectGroup gi a =
      (s.setGroup gi fun g => { g with client := false, state := .failed }, -1) := by
  unfold dashboardConnectGroup stateOf
  cases hg : s.d.groups[gi.toNat]? with
  | none => exact .inl ⟨rfl, rfl⟩
  | some g =>
    obtain ⟨hclient, hstate⟩ := h.groups g (List.mem_of_getElem? hg)
    have htwice : (s.d.groups.modify gi.toNat fun g => { g with state := .connecting }).modify gi.toNat
        (fun g => { g with client := false, state := .failed }) =
        s.d.groups.modify gi.toNat fun g => { g with client := false, state := .failed } := by
      apply List.ext_getElem?
      intro i
      simp only [List.getElem?_modify]
      cases s.d.groups[i]? with
      | none => rfl
      | some g => by_cases hi : gi.toNat = i <;> simp [hi]
    refine .inr ⟨by simp, ?_⟩
    rw [Option.elim_some, if_neg hstate]
    simp [openClient, yumiClientOpen_none, setGroup, h.contexts, h.leased, hclient, maxDashboardCount, htwice]

theorem stateOf_setGroup {f : DashboardGroup → DashboardGroup} :
    (s.setGroup gi f).stateOf gi = (s.d.groups[gi.toNat]?.map f).map DashboardGroup.state := by
  simp only [stateOf, setGroup, List.getElem?_modify, if_pos, Option.map_eq_map]

theorem groups_closeSlots (n : ℕ) (d : DashboardRuntime) :
    (DashboardRuntime.closeSlots gi n d).groups = d.groups := by
  induction n generalizing d with
  | zero => rfl
  | succ n ih =>
    rw [DashboardRuntime.closeSlots, ih]
    split
    · unfold DashboardRuntime.dashboardRemoveSlot
      split
      · rfl
      · rfl
    · rfl

theorem Closed.setGroup (h : s.Closed) {f : DashboardGroup → DashboardGroup}
    (hf : ∀ g, (f g).client = false ∧ (f g).state ≠ .connected) : (s.setGroup gi f).Closed := by
  refine ⟨fun g hg => ?_, h.contexts, h.leased⟩
  obtain ⟨i, hi⟩ := List.mem_iff_getElem?.mp hg
  simp only [Connections.setGroup, List.getElem?_modify] at hi
  obtain ⟨g', hg', rfl⟩ := Option.map_eq_some_iff.mp hi
  split
  · exact hf g'
  · exact h.groups g' (List.mem_of_getElem? hg')

theorem Closed.next (h : s.Closed) (c : ConnectionCall) : (s.next c).Closed := by
  cases c with
  | connect gi a =>
    rw [Connections.next]
    obtain ⟨-, heq⟩ | ⟨-, heq⟩ := h.connect_cases gi a
    · rw [heq]
      exact h
    · rw [heq]
      exact h.setGroup fun g => ⟨rfl, by simp⟩
  | disconnect gi =>
    rw [Connections.next, dashboardDisconnectGroup, DashboardRuntime.dashboardDisconnectGroup]
    split
    · exact ⟨h.groups, h.contexts, h.leased⟩
    · have hset : (s.setGroup gi fun g => { g with client := false, state := .disconnected }).Closed :=
        h.setGroup fun g => ⟨rfl, by simp⟩
      refine ⟨?_, h.contexts, h.leased⟩
      simp only [groups_closeSlots]
      exact hset.groups

theorem Closed.openGroups (h : s.Closed) : s.openGroups = 0 := by
  rw [Connections.openGroups, List.countP_eq_zero]
  intro g hg
  simp [h.groups g hg]

theorem Closed.balanced_iff (h : s.Closed) (c : ConnectionCall) : Balanced s c ↔ Idle s c := by
  have hleased : (s.next c).leased = (s.next c).openGroups := by
    rw [(h.next c).leased, (h.next c).openGroups]
  cases c with
  | disconnect gi =>
    refine iff_of_true ⟨hleased, fun _ _ hc => ?_, fun _ _ hc => ?_, fun _ _ hc => ?_⟩ trivial
    all_goals cases hc
  | connect gi a =>
    constructor
    · intro hbalanced hidle
      obtain ⟨hret, -⟩ := hbalanced.opens gi a rfl hidle
      obtain ⟨-, heq⟩ | ⟨-, heq⟩ := h.connect_cases gi a
      · rw [heq] at hret
        cases hret
      · rw [heq] at hret
        cases hret
    · intro hidle
      refine ⟨hleased, fun gi' a' hc hconn => ?_, fun gi' a' hc hopen => ?_, fun gi' a' hc _ => ⟨?_, ?_⟩⟩
      all_goals obtain ⟨rfl, rfl⟩ := ConnectionCall.connect.inj hc
      · exact absurd hconn hidle
      · obtain ⟨g, hg, hclient⟩ := Option.map_eq_some_iff.mp hopen
        exact absurd hclient (by simp [h.groups g (List.mem_of_getElem? hg)])
      · rw [Connections.next]
        obtain ⟨-, heq⟩ | ⟨hsome, heq⟩ := h.connect_cases gi a
        · exact .inr (by rw [heq])
        · left
          obtain ⟨state, hstate⟩ := Option.ne_none_iff_exists'.mp hsome
          obtain ⟨g, hg, -⟩ := Option.map_eq_some_iff.mp hstate
          rw [heq, stateOf_setGroup, hg]
          rfl
      · rw [(h.next (.connect gi a)).leased, h.leased]

variable (s) in
/-- The calls of a run do what they should if and only if none of them connects a group that is disconnected
or failed. -/
theorem balanced_along_iff (h : s.Closed) (cs : List ConnectionCall) :
    (∀ xs c ys, cs = xs ++ c :: ys → Balanced (xs.foldl next s) c) ↔
      ∀ xs c ys, cs = xs ++ c :: ys → Idle (xs.foldl next s) c := by
  have hclosed (xs : List ConnectionCall) : (xs.foldl next s).Closed :=
    System.holds_along (C := fun _ _ => True) (fun s c hs _ => hs.next c) h xs (fun _ _ _ _ => trivial) xs []
      (List.append_nil xs).symm
  exact forall_congr' fun xs => forall_congr' fun c => forall_congr' fun ys => forall_congr' fun _ =>
    (hclosed xs).balanced_iff c

end Connections

namespace Connections

def start (n : ℕ) : Connections where
  d := ⟨List.replicate n ⟨false, .disconnected, false⟩, [], -1, 0xffffffff, 0⟩
  contexts := maxDashboardCount
  leased := 0
  clients := 0

theorem closed_start (n : ℕ) : (start n).Closed := by
  refine ⟨fun g hg => ?_, rfl, rfl⟩
  rw [List.eq_of_mem_replicate hg]
  exact ⟨rfl, by simp⟩

def disconnecting : List ConnectionCall :=
  [.disconnect 1, .connect 2 ⟨true, true, true, true⟩, .disconnect 0, .disconnect 3,
    .connect 4 ⟨true, false, true, true⟩]

theorem balanced_along_iff_disconnecting : (disconnecting.foldl next (start 2)).openGroups = 0 ∧
    ∀ xs c ys, disconnecting = xs ++ c :: ys → Balanced (xs.foldl next (start 2)) c := by
  have hidle : System.Enables Idle next (start 2) disconnecting := by decide
  exact ⟨by decide, (balanced_along_iff (start 2) (closed_start 2) disconnecting).mpr (hidle.along disconnecting)⟩

theorem connect_fails : ¬ ∀ (n : ℕ) (cs : List ConnectionCall) (xs : List ConnectionCall) (c : ConnectionCall)
    (ys : List ConnectionCall), cs = xs ++ c :: ys → Balanced (xs.foldl next (start n)) c := by
  intro h
  have hbalanced := h 1 [.connect 0 ⟨true, true, true, true⟩] [] _ [] rfl
  obtain ⟨hret, -⟩ := hbalanced.opens 0 ⟨true, true, true, true⟩ rfl (.inl rfl)
  exact absurd hret (by decide)

end Connections

end YumiBrowser.Dashboard
