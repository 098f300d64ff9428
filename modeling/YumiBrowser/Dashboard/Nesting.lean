import YumiBrowser.Dashboard.Slots

namespace YumiBrowser.Dashboard

open Wire

inductive SlotLoop
  | frame
  | layout (cols : ℕ) (cellW cellH : ℤ)
  | fullscreen (slotIndex : ℕ) (ww wh : ℤ)
  | background (groupIndex : BitVec 32) (background : Bool)
  | switched (groupIndex : BitVec 32)

inductive Frame
  | guest (rt : WebAppRuntime)
  | loop (l : SlotLoop) (i : ℕ)
  -- the second call of an iteration in `dashboard_switch_group`
  | switchedCall (groupIndex : BitVec 32) (i : ℕ)
  -- `dashboard_switch_group` once the previous group is in the background
  | switchTo (groupIndex : BitVec 32)
  -- the code points of a text that are still to be sent
  | chars (rt : WebAppRuntime) (left : ℕ)
  | focusNew (slotIndex : ℤ)
  -- `webapp_runtime_call_init` once `init` has run
  | resize (rt : WebAppRuntime)
  -- `dashboard_add_slot` once `webapp_runtime_call_init` has returned
  | adding (slot : WebAppSlot) (idx : ℕ)

structure Nesting where
  dash : DashboardRuntime
  -- the innermost call first
  stack : List Frame

/-- What the main loop calls, what a web app makes the host do, and how a call goes on. A missing handler is
one that returns at once. -/
inductive NestEvent
  | frame
  | layoutRecalc (ww wh : ℤ)
  | layoutFullscreen (slotIndex : ℕ) (ww wh : ℤ)
  | textInput (codepoints : ℕ)
  | setFocus (slotIndex : ℤ)
  | addSlot (dataDir : List Byte) (groupIndex : BitVec 32) (wasmPath : List Byte) (vp : WebAppViewport)
      (isDashboard : Bool) (a : Attempt)
  -- one handler of the web app in a slot
  | dispatch (slotIndex : ℕ)
  | groupClose (groupIndex : BitVec 32)
  | switchGroup (groupIndex : BitVec 32)
  | setBackground (groupIndex : BitVec 32) (background : Bool)
  | resume
  | ret

namespace DashboardRuntime

variable (d : DashboardRuntime)

def rtAt (i : ℕ) : Option WebAppRuntime := d.slots[i]?.bind WebAppSlot.rt

def slotAt (slotIndex : ℤ) : Option ℕ :=
  if 0 ≤ slotIndex ∧ slotIndex < d.slots.length then some slotIndex.toNat else none

def setFocused (i : ℕ) (focused : Bool) : DashboardRuntime :=
  { d with slots := d.slots.modify i fun slot => { slot with focused } }

def setViewport (i : ℕ) (viewport : WebAppViewport) : DashboardRuntime :=
  { d with slots := d.slots.modify i fun slot => { slot with viewport } }

def setGroupBackground (groupIndex : BitVec 32) (background : Bool) : DashboardRuntime :=
  { d with groups := d.groups.modify groupIndex.toNat fun g => { g with background } }

def visit (i : ℕ) (slot : WebAppSlot) : SlotLoop → DashboardRuntime × Option WebAppRuntime
  | .frame => (d, if slot.viewport.w ≤ 0 ∨ slot.viewport.h ≤ 0 then none else slot.rt)
  | .layout cols cellW cellH =>
    (d.setViewport i ⟨(i % cols : ℕ) * cellW, (i / cols : ℕ) * cellH, cellW, cellH⟩, slot.rt)
  | .fullscreen slotIndex ww wh =>
    if i = slotIndex then (d.setViewport i ⟨0, 0, ww, wh⟩, slot.rt) else (d.setViewport i ⟨0, 0, 0, 0⟩, none)
  | .background groupIndex _ | .switched groupIndex => (d, if slot.groupIndex = groupIndex then slot.rt else none)

end DashboardRuntime

def WebAppSlot.zero : WebAppSlot := ⟨none, ⟨0, 0, 0, 0⟩, false, 0, (0, 0), []⟩

namespace Nesting

variable (s : Nesting)

def push (frames : List Frame) : Nesting := { s with stack := frames ++ s.stack }

def call (rt : Option WebAppRuntime) : Nesting := s.push (rt.map Frame.guest).toList

def running : Option WebAppRuntime :=
  match s.stack with
  | .guest rt :: _ => some rt
  | _ => none

def Idle : Prop := s.stack = []

instance : Decidable s.Idle := inferInstanceAs (Decidable (_ = _))

def Privileged : Prop := s.Idle ∨ ∃ rt, s.running = some rt ∧ rt.isDashboard = true

instance : Decidable s.Privileged :=
  decidable_of_iff (s.Idle ∨ s.running.any WebAppRuntime.isDashboard) (or_congr Iff.rfl (Option.any_eq_true _ _))

def dashboardGroupSetBackground (groupIndex : BitVec 32) (background : Bool) : Nesting :=
  match s.dash.groups[groupIndex.toNat]? with
  | none => s
  | some group =>
    if group.background = background then s
    else
      let dash := s.dash.setGroupBackground groupIndex background
      { dash :=
          if background ∧ dash.foregroundGroup = groupIndex then { dash with foregroundGroup := 0xffffffff } else dash
        stack := .loop (.background groupIndex background) 0 :: s.stack }

def dashboardSwitchGroup (groupIndex : BitVec 32) : Nesting :=
  if s.dash.groups.length ≤ groupIndex.toNat then s
  else if s.dash.foregroundGroup = groupIndex then s
  else
    let s' := s.push [.switchTo groupIndex]
    if s.dash.foregroundGroup.toNat < s.dash.groups.length then
      s'.dashboardGroupSetBackground s.dash.foregroundGroup true
    else s'

/-- The columns of the grid: `while (cols * cols < d->slot_count) cols++;` -/
def columns (slotCount : ℕ) : ℕ := ((List.range' 1 slotCount).find? fun cols => slotCount ≤ cols * cols).getD 1

def dashboardLayoutRecalc (ww wh : ℤ) : Nesting :=
  let n := s.dash.slots.length
  if n = 0 then s
  else
    let cols := columns n
    let rows := (n + cols - 1) / cols
    s.push [.loop (.layout cols (Int.tdiv ww cols) (Int.tdiv wh rows)) 0]

def setFocus (slotIndex : ℤ) : Nesting :=
  if s.dash.focusedSlot = slotIndex then s
  else
    let s' := s.push [.focusNew slotIndex]
    match s.dash.slotAt s.dash.focusedSlot with
    | none => s'
    | some k => { s' with dash := s.dash.setFocused k false }.call (s.dash.rtAt k)

/-- The slot is written behind the last one, and is one of the slots when `init` has run. -/
def dashboardAddSlot (dataDir : List Byte) (groupIndex : BitVec 32) (wasmPath : List Byte) (vp : WebAppViewport)
    (isDashboard : Bool) (a : Attempt) : Nesting :=
  let d := (s.dash.dashboardAddSlot dataDir groupIndex wasmPath vp isDashboard a).1
  let dash := { s.dash with allocated := d.allocated }
  match d.slots[s.dash.slots.length]? with
  | none => { s with dash }
  | some slot =>
    let rts := slot.rt.toList
    { dash, stack := rts.map .guest ++ rts.map .resize ++ .adding slot s.dash.slots.length :: s.stack }

def resume : Nesting :=
  match s.stack with
  | .loop l i :: rest =>
    match s.dash.slots[i]? with
    | none => { s with stack := rest }
    | some slot =>
      let r := s.dash.visit i slot l
      let next : Frame :=
        match l with
        | .switched groupIndex => if r.2.isSome then .switchedCall groupIndex i else .loop l (i + 1)
        | _ => .loop l (i + 1)
      Nesting.call ⟨r.1, next :: rest⟩ r.2
  | .switchedCall groupIndex i :: rest =>
    Nesting.call ⟨s.dash, .loop (.switched groupIndex) (i + 1) :: rest⟩ (s.dash.rtAt i)
  | .switchTo groupIndex :: rest =>
    ⟨{ s.dash.setGroupBackground groupIndex false with foregroundGroup := groupIndex },
      .loop (.switched groupIndex) 0 :: rest⟩
  | .chars _ 0 :: rest => { s with stack := rest }
  | .chars rt (left + 1) :: rest => { s with stack := .guest rt :: .chars rt left :: rest }
  | .focusNew slotIndex :: rest =>
    let dash := { s.dash with focusedSlot := slotIndex }
    match dash.slotAt slotIndex with
    | none => ⟨dash, rest⟩
    | some k => Nesting.call ⟨dash.setFocused k true, rest⟩ (dash.rtAt k)
  | .resize rt :: rest => { s with stack := .guest rt :: rest }
  | .adding slot idx :: rest =>
    ⟨{ s.dash with slots := s.dash.slots ++ [if s.dash.slots.length = idx then slot else .zero] }, rest⟩
  | _ => s

def next : NestEvent → Nesting
  | .frame => if s.Idle then s.push [.loop .frame 0] else s
  | .layoutRecalc ww wh => if s.Idle then s.dashboardLayoutRecalc ww wh else s
  | .layoutFullscreen slotIndex ww wh =>
    if s.Idle ∧ slotIndex < s.dash.slots.length then s.push [.loop (.fullscreen slotIndex ww wh) 0] else s
  | .textInput codepoints =>
    if s.Idle then
      match (s.dash.slotAt s.dash.focusedSlot).bind s.dash.rtAt with
      | none => s
      | some rt => s.push [.chars rt codepoints]
    else s
  | .setFocus slotIndex => if s.Idle then s.setFocus slotIndex else s
  | .addSlot dataDir groupIndex wasmPath vp isDashboard a =>
    if s.Idle then s.dashboardAddSlot dataDir groupIndex wasmPath vp isDashboard a else s
  | .dispatch slotIndex => if s.Idle ∨ s.running.isSome then s.call (s.dash.rtAt slotIndex) else s
  | .groupClose groupIndex =>
    if s.Privileged then { s with dash := s.dash.dashboardDisconnectGroup groupIndex } else s
  | .switchGroup groupIndex => if s.Privileged then s.dashboardSwitchGroup groupIndex else s
  | .setBackground groupIndex background =>
    if s.Privileged then s.dashboardGroupSetBackground groupIndex background else s
  | .resume => s.resume
  | .ret =>
    match s.stack with
    | .guest _ :: rest => { s with stack := rest }
    | _ => s

end Nesting

end YumiBrowser.Dashboard
