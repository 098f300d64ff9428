import YumiBrowser.Dashboard.RunningApps
import YumiBrowser.Dashboard.TextInput

universe u

namespace YumiBrowser.Dashboard

open Wire

inductive DeviceInput
  | joystickAdded (which : BitVec 32)
  | joystickRemoved (which : BitVec 32)
  | joystickAxis (which : BitVec 32) (axis : BitVec 8) (value : BitVec 16)
  | joystickButton (which : BitVec 32) (button : BitVec 8) (pressed : Bool)
  | joystickHat (which : BitVec 32) (hat value : BitVec 8)
  | gamepadAdded (which : BitVec 32)
  | gamepadRemoved (which : BitVec 32)

inductive FingerEvent
  | down | up | motion

/-- What SDL reports to the dashboard, with positions in `F` and what is on the clipboard. -/
inductive WindowEvent (F : Type u)
  -- either of the two reports of a new size; `begun` is what `gpu_frame_begin` returns
  | resized (ww wh : ℤ) (begun : Bool)
  | exposed (begun : Bool)
  | focusGained
  | focusLost
  | keyDown (scancode key mod : BitVec 32) (clipboard : List Byte)
  | keyUp (scancode key mod : BitVec 32)
  | textInput (text : List Byte)
  | mouseButtonDown (button : BitVec 8) (x y : F)
  | mouseButtonUp (button : BitVec 8) (x y : F)
  | mouseMotion (x y xrel yrel : F) (state : BitVec 32)
  | mouseWheel (x y : F)
  | finger (type : FingerEvent) (fingerId : BitVec 64) (x y pressure : F)
  | device (input : DeviceInput)

inductive Input (F : Type u)
  | init
  | frame
  | resize (w h : ℤ)
  | focus (gained : Bool)
  | key (scancode key mod : BitVec 32) (pressed : Bool)
  | char (cp : BitVec 32)
  | mouseButton (button : BitVec 8) (pressed : Bool) (x y : F)
  | mouseMotion (x y xrel yrel : F) (state : BitVec 32)
  | mouseWheel (x y : F)
  | touch (fingerId : BitVec 32) (type : ℕ) (x y pressure : F)
  | device (input : DeviceInput)
  | pasteResult (text : List Byte)

structure Delivery (F : Type u) where
  rt : WebAppRuntime
  input : Input F

/-- The dashboard between two events, and the calls of web apps so far, the last one first. -/
structure Desk (F : Type u) where
  dash : DashboardRuntime
  log : List (Delivery F)

/-- How the web apps act, by all that they were called with so far: the groups that are closed during the last
call, and whether a memory has room for a text. -/
structure Apps (F : Type u) where
  closes : List (Delivery F) → List (BitVec 32)
  room : List (Delivery F) → WebAppRuntime → ℕ → Bool

/-- The conversion of an `int` to a position, and the difference of two positions. -/
structure Positions (F : Type u) where
  ofInt : ℤ → F
  sub : F → F → F

def FingerEvent.code : FingerEvent → ℕ
  | down => 0
  | up => 1
  | motion => 2

namespace Desk

variable {F : Type u} (A : Apps F) (P : Positions F)

section Calls

variable (s : Desk F)

def deliver (rt : Option WebAppRuntime) (input : Input F) : Desk F :=
  match rt with
  | none => s
  | some rt =>
    let log := ⟨rt, input⟩ :: s.log
    { dash := if rt.isDashboard then (A.closes log).foldl DashboardRuntime.dashboardDisconnectGroup s.dash else s.dash
      log }

/-- The loops over the slots, from slot `i` on. -/
def slotLoop (l : SlotLoop) (input : Input F) : (slots i : ℕ) → Desk F → Desk F
  | 0, _, s => s
  | slots + 1, i, s =>
    match s.dash.slots[i]? with
    | none => s
    | some slot =>
      let r := s.dash.visit i slot l
      slotLoop l input slots (i + 1) (deliver A { s with dash := r.1 } r.2 input)

def dashboardLayoutRecalc (ww wh : ℤ) : Desk F :=
  let n := s.dash.slots.length
  if n = 0 then s
  else
    let cols := Nesting.columns n
    let rows := (n + cols - 1) / cols
    let cellW := Int.tdiv ww cols
    let cellH := Int.tdiv wh rows
    slotLoop A (.layout cols cellW cellH) (.resize cellW cellH) n 0 s

def dashboardFrame (begun : Bool) : Desk F :=
  if begun then slotLoop A .frame .frame s.dash.slots.length 0 s else s

def focusNew (slotIndex : ℤ) : Desk F :=
  let dash := { s.dash with focusedSlot := slotIndex }
  match dash.slotAt slotIndex with
  | none => { s with dash }
  | some k => deliver A { s with dash := dash.setFocused k true } (dash.rtAt k) (.focus true)

def setFocus (slotIndex : ℤ) : Desk F :=
  if s.dash.focusedSlot = slotIndex then s
  else
    let s' :=
      match s.dash.slotAt s.dash.focusedSlot with
      | none => s
      | some k => deliver A { s with dash := s.dash.setFocused k false } (s.dash.rtAt k) (.focus false)
    focusNew A s' slotIndex

def toFocused (input : Input F) : Desk F :=
  if 0 ≤ s.dash.focusedSlot then deliver A s (s.dash.rtAt s.dash.focusedSlot.toNat) input else s

def dashboardHandlePasteRequest (slotIndex : ℕ) (clipboard : List Byte) : Desk F :=
  if s.dash.slots.length ≤ slotIndex then s
  else
    let text := clipboard.take 4095
    if text = [] then s
    else
      match s.dash.rtAt slotIndex with
      | none => s
      | some rt => if A.room s.log rt text.length then deliver A s (some rt) (.pasteResult text) else s

def chars (rt : WebAppRuntime) (cps : List (BitVec 32)) : Desk F :=
  cps.foldl (fun s cp => deliver A s (some rt) (.char cp)) s

end Calls

variable [LinearOrder F]

def Hits (x y : F) (vp : WebAppViewport) : Prop :=
  0 < vp.w ∧ 0 < vp.h ∧ P.ofInt vp.x ≤ x ∧ x < P.ofInt (vp.x + vp.w) ∧ P.ofInt vp.y ≤ y ∧ y < P.ofInt (vp.y + vp.h)

instance (x y : F) (vp : WebAppViewport) : Decidable (Hits P x y vp) := inferInstanceAs (Decidable (_ ∧ _))

def hitTestSlot (d : DashboardRuntime) (x y : F) : ℤ :=
  match d.slots.findIdx? fun slot => Hits P x y slot.viewport with
  | none => -1
  | some i => i

variable (s : Desk F)

def toSlot (slotIndex : ℤ) (x y : F) (input : F → F → Input F) : Desk F :=
  if 0 ≤ slotIndex then
    match s.dash.slots[slotIndex.toNat]? with
    | none => s
    | some slot => deliver A s slot.rt (input (P.sub x (P.ofInt slot.viewport.x)) (P.sub y (P.ofInt slot.viewport.y)))
  else s

/-- `dashboard_dispatch_event` -/
def dashboardDispatchEvent : WindowEvent F → Desk F
  | .resized ww wh begun => (s.dashboardLayoutRecalc A ww wh).dashboardFrame A begun
  | .exposed begun => s.dashboardFrame A begun
  | .focusGained => s
  | .focusLost => s.setFocus A (-1)
  | .keyDown scancode key mod clipboard =>
    let s := s.toFocused A (.key scancode key mod true)
    -- SDL_KMOD_CTRL and SDLK_V
    if mod &&& 0xC0 ≠ 0 ∧ key = 0x76 ∧ 0 ≤ s.dash.focusedSlot then
      s.dashboardHandlePasteRequest A s.dash.focusedSlot.toNat clipboard
    else s
  | .keyUp scancode key mod => s.toFocused A (.key scancode key mod false)
  | .textInput text =>
    if s.dash.focusedSlot < 0 then s
    else
      match s.dash.rtAt s.dash.focusedSlot.toNat with
      | none => s
      | some rt =>
        chars A s rt ((Text.dispatched ((Text.textInput (text.length + 1) (text ++ [0])).getD [])).map Text.Turn.cp)
  | .mouseButtonDown button x y =>
    let slot := hitTestSlot P s.dash x y
    (s.setFocus A slot).toSlot A P slot x y (.mouseButton button true)
  | .mouseButtonUp button x y => s.toSlot A P (hitTestSlot P s.dash x y) x y (.mouseButton button false)
  | .mouseMotion x y xrel yrel state =>
    s.toSlot A P (hitTestSlot P s.dash x y) x y fun x y => .mouseMotion x y xrel yrel state
  | .mouseWheel x y => s.toFocused A (.mouseWheel x y)
  | .finger type fingerId x y pressure =>
    s.toFocused A (.touch ((fingerId &&& 0x7FFFFFFF).setWidth 32) type.code x y pressure)
  | .device input => s.toFocused A (.device input)

end Desk

inductive DeskEvent (F : Type u)
  | window (e : WindowEvent F)
  | addSlot (dataDir : List Byte) (groupIndex : BitVec 32) (wasmPath : List Byte) (vp : WebAppViewport)
      (isDashboard : Bool) (a : Attempt)
  | groupClose (groupIndex : BitVec 32)

namespace Desk

variable {F : Type u} (A : Apps F) (P : Positions F) (s : Desk F)

/-- The slot is one of the slots once `init` and the handler of its size have returned. -/
def dashboardAddSlot (dataDir : List Byte) (groupIndex : BitVec 32) (wasmPath : List Byte) (vp : WebAppViewport)
    (isDashboard : Bool) (a : Attempt) : Desk F :=
  let d := (s.dash.dashboardAddSlot dataDir groupIndex wasmPath vp isDashboard a).1
  let s' := { s with dash := { s.dash with allocated := d.allocated } }
  match d.slots[s.dash.slots.length]? with
  | none => s'
  | some slot =>
    let s' := (s'.deliver A slot.rt .init).deliver A slot.rt (.resize vp.w vp.h)
    { s' with dash := { s'.dash with
        slots := s'.dash.slots ++ [if s'.dash.slots.length = s.dash.slots.length then slot else .zero] } }

def next [LinearOrder F] : DeskEvent F → Desk F
  | .window e => s.dashboardDispatchEvent A P e
  | .addSlot dataDir groupIndex wasmPath vp isDashboard a =>
    s.dashboardAddSlot A dataDir groupIndex wasmPath vp isDashboard a
  | .groupClose groupIndex => { s with dash := s.dash.dashboardDisconnectGroup groupIndex }

/-- What `main` starts with: a web app that it gives the focus to without telling it, where one can be had. -/
def started (groups : List DashboardGroup) (dataDir wasmPath : List Byte) (vp : WebAppViewport) (a : Attempt) :
    Desk F :=
  let s : Desk F := dashboardAddSlot A ⟨⟨groups, [], -1, 0xffffffff, 0⟩, []⟩ dataDir 0 wasmPath vp false a
  { s with dash := { s.dash with focusedSlot := if s.dash.slots.length = 0 then -1 else 0 } }

end Desk

end YumiBrowser.Dashboard
