import YumiBrowser.Dashboard.Slots
import YumiBrowser.Library.System

universe u

namespace YumiBrowser.Dashboard

open Transition Wire

inductive IpcType
  | none | fileOpenPending | fileSavePending | folderOpenPending
  deriving DecidableEq

/-- `node` is the context's place in the pool, and `requester` the runtime that asked, which the context does
not hold. -/
structure FileDialogCtx (ν : Type u) where
  node : ν
  slotIndex : ℕ
  handle : IpcType
  requester : Option WebAppRuntime

/-- Which runtimes have `on_file_result` and a memory, and how large that is. -/
structure Guests where
  listens : WebAppRuntime → Bool
  memSize : WebAppRuntime → ℕ

/-- `pool` are the contexts that can be leased, and `pending` the dialogs that are open, with the contexts that
SDL holds for them. -/
structure FileDialogs (ν : Type u) where
  d : DashboardRuntime
  pool : List ν
  pending : List (FileDialogCtx ν)
  pendingIpc : IpcType × ℕ

/-- `k` tells which of the open dialogs completes. -/
inductive DialogCall
  | request (handle : IpcType) (slotIndex : ℕ)
  | complete (k : ℕ) (path : List Byte) (guests : Guests)
  | addSlot (dataDir : List Byte) (groupIndex : BitVec 32) (wasmPath : List Byte) (vp : WebAppViewport)
      (isDashboard : Bool) (a : Attempt)
  | removeSlot (index : ℕ)

def Guests.takes (g : Guests) (path : List Byte) (rt : WebAppRuntime) : Bool :=
  g.listens rt && decide ((path.length + 16) % 2 ^ 32 ≤ g.memSize rt)

namespace FileDialogs

variable {ν : Type u} (s : FileDialogs ν)

def runtimeAt (slotIndex : ℕ) : Option WebAppRuntime := s.d.slots[slotIndex]?.bind WebAppSlot.rt

def showDialog (handle : IpcType) (slotIndex : ℕ) : FileDialogs ν :=
  if s.d.slots.length ≤ slotIndex then s
  else
    s.pool.head?.elim s fun node =>
      { s with
        pool := s.pool.tail
        pending := s.pending ++ [⟨node, slotIndex, handle, s.runtimeAt slotIndex⟩]
        pendingIpc := (handle, slotIndex) }

def dashboardOpenFileDialog (slotIndex : ℕ) : FileDialogs ν := s.showDialog .fileOpenPending slotIndex

def dashboardSaveFileDialog (slotIndex : ℕ) : FileDialogs ν := s.showDialog .fileSavePending slotIndex

def dashboardOpenFolderDialog (slotIndex : ℕ) : FileDialogs ν := s.showDialog .folderOpenPending slotIndex

def fileDialogDeliver (slotIndex : ℕ) (path : List Byte) (g : Guests) : Option (WebAppRuntime × List Byte) :=
  if s.d.slots.length ≤ slotIndex then none
  else
    (s.runtimeAt slotIndex).bind fun rt =>
      if ¬ g.listens rt then none
      else if path = [] then some (rt, [])
      else if g.memSize rt < (path.length + 16) % 2 ^ 32 then none
      else some (rt, path)

/-- The context is given to `free`, not to its pool. -/
def fileDialogCallback (k : ℕ) (path : List Byte) (g : Guests) :
    FileDialogs ν × Option (WebAppRuntime × List Byte) :=
  s.pending[k]?.elim (s, none) fun ctx =>
    ({ s with pending := s.pending.eraseIdx k, pendingIpc := (.none, s.pendingIpc.2) },
      s.fileDialogDeliver ctx.slotIndex path g)

def next : DialogCall → FileDialogs ν
  | .request handle slotIndex => s.showDialog handle slotIndex
  | .complete k path g => (s.fileDialogCallback k path g).1
  | .addSlot dataDir groupIndex wasmPath vp isDashboard a =>
    { s with d := (s.d.dashboardAddSlot dataDir groupIndex wasmPath vp isDashboard a).1 }
  | .removeSlot index => { s with d := s.d.dashboardRemoveSlot index }

def start (d : DashboardRuntime) (nodes : List ν) : FileDialogs ν := ⟨d, nodes, [], (.none, 0)⟩

def living (ctx : FileDialogCtx ν) : Option WebAppRuntime :=
  ctx.requester.filter fun rt => decide (∃ slot ∈ s.d.slots, slot.rt = some rt)

/-- The path goes to the runtime that asked, if that is still there and can take it, and to no other. -/
def Reaches (s : FileDialogs ν) : DialogCall → Prop
  | .complete k path g => ∀ ctx, s.pending[k]? = some ctx → path ≠ [] →
      (s.fileDialogCallback k path g).2 = ((s.living ctx).filter (g.takes path)).map (·, path)
  | _ => True

/-- Each context is in the pool or with one open dialog. -/
def Returned (nodes : List ν) (s : FileDialogs ν) : Prop := (s.pool ++ s.pending.map FileDialogCtx.node).Perm nodes

/-- The slot that asked is where it was, or neither it nor what is there now can take the path. -/
def AtHome (s : FileDialogs ν) : DialogCall → Prop
  | .complete k path g => ∀ ctx, s.pending[k]? = some ctx → path ≠ [] →
      s.runtimeAt ctx.slotIndex = ctx.requester ∨
        (s.runtimeAt ctx.slotIndex).filter (g.takes path) = none ∧ (s.living ctx).filter (g.takes path) = none
  | _ => True

/-- No dialog completes. -/
def Open (s : FileDialogs ν) : DialogCall → Prop
  | .complete k _ _ => s.pending.length ≤ k
  | _ => True

end FileDialogs

section Dialogs

open FileDialogs

variable {ν : Type u} {s : FileDialogs ν} {nodes : List ν}

theorem fileDialogDeliver_eq {path : List Byte} (hpath : path ≠ []) (slotIndex : ℕ) (g : Guests) :
    s.fileDialogDeliver slotIndex path g = ((s.runtimeAt slotIndex).filter (g.takes path)).map (·, path) := by
  unfold fileDialogDeliver
  split
  · rename_i hle
    rw [runtimeAt, List.getElem?_eq_none hle]
    rfl
  · cases s.runtimeAt slotIndex with
    | none => rfl
    | some rt =>
      rw [Option.bind_some]
      unfold Guests.takes
      generalize (path.length + 16) % 2 ^ 32 = need
      by_cases hlistens : g.listens rt
      · by_cases hroom : g.memSize rt < need
        · simp [hlistens, hroom]
        · simp [hlistens, hroom, Nat.le_of_not_lt hroom]
      · simp [hlistens]

theorem living_of_runtimeAt {ctx : FileDialogCtx ν} {i : ℕ} (h : s.runtimeAt i = ctx.requester) :
    s.living ctx = ctx.requester := by
  unfold living
  cases hreq : ctx.requester with
  | none => rfl
  | some rt =>
    rw [hreq] at h
    obtain ⟨slot, hslot, hrt⟩ := Option.bind_eq_some_iff.mp h
    rw [Option.filter_some, if_pos (decide_eq_true ⟨slot, List.mem_of_getElem? hslot, hrt⟩)]

theorem reaches_iff (c : DialogCall) : Reaches s c ↔ AtHome s c := by
  cases c with
  | complete k path g =>
    refine forall_congr' fun ctx => forall_congr' fun hctx => forall_congr' fun hpath => ?_
    have hcall : (s.fileDialogCallback k path g).2 = s.fileDialogDeliver ctx.slotIndex path g := by
      rw [fileDialogCallback, hctx]
      rfl
    rw [hcall, fileDialogDeliver_eq hpath]
    constructor
    · intro hsame
      have hsame := Option.map_injective (fun _ _ h => (Prod.mk.inj h).1) hsame
      cases htaken : (s.runtimeAt ctx.slotIndex).filter (g.takes path) with
      | none => exact .inr ⟨rfl, hsame.symm.trans htaken⟩
      | some rt =>
        obtain ⟨hliving, -⟩ := Option.filter_eq_some_iff.mp (hsame.symm.trans htaken)
        obtain ⟨hreq, -⟩ := Option.filter_eq_some_iff.mp hliving
        exact .inl ((Option.filter_eq_some_iff.mp htaken).1.trans hreq.symm)
    · intro hhome
      obtain hat | ⟨hnobody, hnone⟩ := hhome
      · rw [living_of_runtimeAt hat, hat]
      · rw [hnobody, hnone]
  | _ => exact Iff.rfl

theorem returned_start (d : DashboardRuntime) (nodes : List ν) : Returned nodes (start d nodes) := by
  rw [Returned, start, List.map_nil, List.append_nil]

theorem returned_next_iff (h : Returned nodes s) (c : DialogCall) : Returned nodes (s.next c) ↔ Open s c := by
  cases c with
  | request handle slotIndex =>
    refine iff_of_true ?_ trivial
    rw [FileDialogs.next, showDialog]
    split
    · exact h
    · cases hpool : s.pool with
      | nil => exact h
      | cons node pool =>
        rw [Returned, hpool] at h
        refine List.Perm.trans ?_ h
        simp only [List.head?_cons, Option.elim_some, List.tail_cons, List.map_append, List.map_cons, List.map_nil,
          ← List.append_assoc]
        exact List.perm_append_singleton node _
  | complete k path g =>
    rw [FileDialogs.next, fileDialogCallback, Open]
    cases hctx : s.pending[k]? with
    | none => exact iff_of_true h (List.getElem?_eq_none_iff.mp hctx)
    | some ctx =>
      obtain ⟨hk, -⟩ := List.getElem?_eq_some_iff.mp hctx
      refine iff_of_false (fun hleft => ?_) (Nat.not_le_of_lt hk)
      have hbefore := h.length_eq
      have hafter := hleft.length_eq
      simp only [Option.elim_some, List.length_append, List.length_map, List.length_eraseIdx_of_lt hk] at hbefore hafter
      omega
  | addSlot => exact iff_of_true h trivial
  | removeSlot => exact iff_of_true h trivial

/-- In every run a path reaches its requester if and only if that is where it was when its dialog completes, or
there is nobody to take the path; and with the contexts all returned as well, if and only if no dialog completes. -/
theorem dialogs_along_iff (d : DashboardRuntime) (nodes : List ν) (cs : List DialogCall) :
    ((∀ xs c ys, cs = xs ++ c :: ys → Reaches (xs.foldl FileDialogs.next (start d nodes)) c) ↔
      ∀ xs c ys, cs = xs ++ c :: ys → AtHome (xs.foldl FileDialogs.next (start d nodes)) c) ∧
    ((∀ xs c ys, cs = xs ++ c :: ys → Reaches (xs.foldl FileDialogs.next (start d nodes)) c) ∧
      (∀ xs ys, cs = xs ++ ys → Returned nodes (xs.foldl FileDialogs.next (start d nodes))) ↔
      ∀ xs c ys, cs = xs ++ c :: ys → Open (xs.foldl FileDialogs.next (start d nodes)) c) := by
  have hreturned := System.holds_along_iff (J := fun _ => True) (I := Returned nodes) (C := Open)
    (fun _ _ _ => trivial) (fun _ c _ h => returned_next_iff h c) trivial (returned_start d nodes) cs
  refine ⟨forall_congr' fun xs => forall_congr' fun c => forall_congr' fun ys => forall_congr' fun _ =>
    reaches_iff c, ?_⟩
  rw [hreturned]
  refine ⟨fun h => h.2, fun h => ⟨fun xs c ys heq => ?_, h⟩⟩
  have hopen := h xs c ys heq
  cases c with
  | complete k path g =>
    intro ctx hctx
    rw [List.getElem?_eq_none hopen] at hctx
    cases hctx
  | _ => trivial

def twoApps : DashboardRuntime where
  groups := []
  slots := [⟨some ⟨0, 0, [], false⟩, ⟨0, 0, 0, 0⟩, false, 0, (0, 0), []⟩,
    ⟨some ⟨1, 0, [], false⟩, ⟨0, 0, 0, 0⟩, false, 0, (0, 0), []⟩]
  focusedSlot := -1
  foregroundGroup := 0xffffffff
  allocated := 2

theorem path_misdelivered : ¬ ∀ (d : DashboardRuntime) (nodes : List ℕ) (cs : List DialogCall),
    (∀ xs c ys, cs = xs ++ c :: ys → Reaches (xs.foldl FileDialogs.next (start d nodes)) c) ∧
      ∀ xs ys, cs = xs ++ ys → Returned nodes (xs.foldl FileDialogs.next (start d nodes)) := by
  intro h
  have hreaches := (h twoApps [0, 1] [.request .fileOpenPending 0, .removeSlot 0,
    .complete 0 [47] ⟨fun _ => true, fun _ => 65536⟩]).1 [.request .fileOpenPending 0, .removeSlot 0] _ [] rfl
  have hnone := hreaches ⟨0, 0, .fileOpenPending, some ⟨0, 0, [], false⟩⟩ rfl (List.cons_ne_nil _ _)
  exact absurd hnone (by decide)

end Dialogs

end YumiBrowser.Dashboard
