import Mathlib.Data.List.Basic
import YumiBrowser.Library.ByteCodec
import YumiBrowser.Library.System

namespace YumiBrowser.Dashboard

open Wire

structure WebAppViewport where
  x : ℤ
  y : ℤ
  w : ℤ
  h : ℤ
  deriving DecidableEq

/-- `serial` tells apart the runtimes that were ever allocated. -/
structure WebAppRuntime where
  serial : ℕ
  groupIndex : BitVec 32
  dbPath : List Byte
  isDashboard : Bool
  deriving DecidableEq

structure WebAppSlot where
  rt : Option WebAppRuntime
  viewport : WebAppViewport
  focused : Bool
  groupIndex : BitVec 32
  appId : BitVec 64 × BitVec 64
  appName : List Byte
  deriving DecidableEq

inductive GroupState
  | disconnected | connecting | connected | failed | removedKicked | removedBanned
  deriving DecidableEq

structure DashboardGroup where
  client : Bool
  state : GroupState
  background : Bool

/-- The slots are those below `slot_count`, and `allocated` counts the runtimes that were allocated. -/
structure DashboardRuntime where
  groups : List DashboardGroup
  slots : List WebAppSlot
  focusedSlot : ℤ
  foregroundGroup : BitVec 32
  allocated : ℕ

section Paths

/-- `%u` -/
def decimal (n : ℕ) : List Byte := (Nat.toDigits 10 n).map fun c => BitVec.ofNat 8 c.toNat

/-- `/webapp_%u_%u.db` -/
def fileName (groupIndex : BitVec 32) (idx : ℕ) : List Byte :=
  [47, 119, 101, 98, 97, 112, 112, 95] ++ (decimal groupIndex.toNat ++ 95 :: (decimal idx ++ [46, 100, 98]))

/-- What `snprintf` leaves of the path in `db_path[4096]`. -/
def dbPath (dataDir : List Byte) (groupIndex : BitVec 32) (idx : ℕ) : List Byte :=
  (dataDir ++ fileName groupIndex idx).take 4095

def appId (wasmPath : List Byte) : BitVec 64 × BitVec 64 :=
  wasmPath.foldl (fun h p => ((h.1 ^^^ p.setWidth 64) * 0x100000001b3, (h.2 + p.setWidth 64) * 0x9e3779b97f4a7c15))
    (0xcbf29ce484222325, 0x9e3779b97f4a7c15)

/-- What comes after the last slash, in `app_name[64]`. -/
def appName (wasmPath : List Byte) : List Byte := ((wasmPath.reverse.takeWhile (· ≠ 47)).reverse).take 63

end Paths

/-- Whether each thing that `dashboard_add_slot` needs can be had: room in the array, a texture, memory for
the runtime, its database and engine, the module. -/
structure Attempt where
  reserved : Bool
  textured : Bool
  allocated : Bool
  initialised : Bool
  loaded : Bool

namespace DashboardRuntime

variable (d : DashboardRuntime)

def newSlot (dataDir : List Byte) (groupIndex : BitVec 32) (wasmPath : List Byte) (vp : WebAppViewport)
    (isDashboard : Bool) : WebAppSlot where
  rt := some ⟨d.allocated, groupIndex, dbPath dataDir groupIndex d.slots.length, isDashboard⟩
  viewport := vp
  focused := false
  groupIndex
  appId := appId wasmPath
  appName := appName wasmPath

def dashboardAddSlot (dataDir : List Byte) (groupIndex : BitVec 32) (wasmPath : List Byte) (vp : WebAppViewport)
    (isDashboard : Bool) (a : Attempt) : DashboardRuntime × ℤ :=
  if ¬ a.reserved then (d, -1)
  else if d.groups.length ≤ groupIndex.toNat then (d, -1)
  else if ¬ a.textured then (d, -1)
  else if ¬ a.allocated then (d, -1)
  else if ¬ a.initialised then ({ d with allocated := d.allocated + 1 }, -1)
  else if ¬ a.loaded then ({ d with allocated := d.allocated + 1 }, -1)
  else
    let slot := d.newSlot dataDir groupIndex wasmPath vp isDashboard
    ({ d with slots := d.slots ++ [slot], allocated := d.allocated + 1 }, d.slots.length)

def dashboardRemoveSlot (index : ℕ) : DashboardRuntime :=
  if d.slots.length ≤ index then d
  else
    { d with
      slots := d.slots.eraseIdx index
      focusedSlot :=
        if d.focusedSlot = index then -1
        else if (index : ℤ) < d.focusedSlot then d.focusedSlot - 1
        else d.focusedSlot }

def closeSlots (groupIndex : BitVec 32) : ℕ → DashboardRuntime → DashboardRuntime
  | 0, d => d
  | i + 1, d =>
    closeSlots groupIndex i
      (if (d.slots[i]?.map WebAppSlot.groupIndex) = some groupIndex then d.dashboardRemoveSlot i else d)

def dashboardDisconnectGroup (groupIndex : BitVec 32) : DashboardRuntime :=
  if d.groups.length ≤ groupIndex.toNat then d
  else
    let d := closeSlots groupIndex d.slots.length d
    { d with groups := d.groups.modify groupIndex.toNat fun g => { g with client := false, state := .disconnected } }

end DashboardRuntime

end YumiBrowser.Dashboard
