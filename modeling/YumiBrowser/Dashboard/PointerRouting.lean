import YumiBrowser.Dashboard.FocusRuns
import YumiBrowser.Library.Grid

universe u

namespace YumiBrowser.Dashboard

open Wire

structure Pane where
  rt : Option WebAppRuntime
  viewport : WebAppViewport

structure Tiling where
  cols : ℕ
  rows : ℕ
  cellW : ℤ
  cellH : ℤ

def tiling (n : ℕ) (ww wh : ℤ) : Tiling :=
  let cols := Nesting.columns n
  let rows := (n + cols - 1) / cols
  ⟨cols, rows, Int.tdiv ww cols, Int.tdiv wh rows⟩

def Tiling.cell (g : Tiling) (i : ℕ) : WebAppViewport :=
  ⟨(i % g.cols : ℕ) * g.cellW, (i / g.cols : ℕ) * g.cellH, g.cellW, g.cellH⟩

def Tiling.Covers {F : Type u} [LinearOrder F] (g : Tiling) (P : Positions F) (i : ℕ) (x y : F) : Prop :=
  Grid.Covers P.ofInt g.cols g.cellW g.cellH i x y

def Tiling.Inside {F : Type u} [LinearOrder F] (g : Tiling) (P : Positions F) (x y : F) : Prop :=
  (P.ofInt 0 ≤ x ∧ x < P.ofInt (g.cols * g.cellW)) ∧ P.ofInt 0 ≤ y ∧ y < P.ofInt (g.rows * g.cellH)

def WindowEvent.resizes {F : Type u} : WindowEvent F → Bool
  | .resized _ _ _ => true
  | _ => false

inductive PointerEvent (F : Type u)
  | down (button : BitVec 8)
  | up (button : BitVec 8)
  | motion (xrel yrel : F) (state : BitVec 32)

def PointerEvent.presses {F : Type u} : PointerEvent F → Bool
  | down _ => true
  | _ => false

def PointerEvent.reported {F : Type u} (e : PointerEvent F) (x y : F) : WindowEvent F :=
  match e with
  | down button => .mouseButtonDown button x y
  | up button => .mouseButtonUp button x y
  | motion xrel yrel state => .mouseMotion x y xrel yrel state

def PointerEvent.input {F : Type u} (e : PointerEvent F) (x y : F) : Input F :=
  match e with
  | down button => .mouseButton button true x y
  | up button => .mouseButton button false x y
  | motion xrel yrel state => .mouseMotion x y xrel yrel state

namespace DashboardRuntime

variable (d : DashboardRuntime)

def panes : List Pane := d.slots.map fun slot => ⟨slot.rt, slot.viewport⟩

/-- No slot has a web app of the dashboard, which could close groups. -/
def Regular : Prop := ∀ pane ∈ d.panes, ∀ rt, pane.rt = some rt → rt.isDashboard = false

def Tiled (g : Tiling) : Prop := ∀ i pane, d.panes[i]? = some pane → pane.viewport = g.cell i

theorem panes_getElem? (i : ℕ) : d.panes[i]? = (d.slots[i]?).map fun slot => ⟨slot.rt, slot.viewport⟩ :=
  List.getElem?_map ..

theorem panes_setFocused (k : ℕ) (focused : Bool) : (d.setFocused k focused).panes = d.panes := by
  have hmap : (d.setFocused k focused).panes = d.panes.modify k id := by
    apply map_modify
    intro slot
    rfl
  rw [hmap, List.modify_id]

theorem panes_setViewport (k : ℕ) (viewport : WebAppViewport) :
    (d.setViewport k viewport).panes = d.panes.modify k fun pane => { pane with viewport } := by
  apply map_modify
  intro slot
  rfl

variable {d}

theorem Regular.rtAt (h : d.Regular) {i : ℕ} {rt : WebAppRuntime} (hrt : d.rtAt i = some rt) :
    rt.isDashboard = false := by
  obtain ⟨slot, hslot, hrt⟩ := rt_of_rtAt hrt
  exact h _ (List.mem_map_of_mem hslot) rt hrt

theorem Regular.slot (h : d.Regular) {i : ℕ} {slot : WebAppSlot} (hslot : d.slots[i]? = some slot) :
    ∀ rt, slot.rt = some rt → rt.isDashboard = false :=
  h _ (List.mem_map_of_mem (List.mem_of_getElem? hslot))

end DashboardRuntime

namespace Desk

variable {F : Type u} {A : Apps F} {P : Positions F} {s : Desk F} {input : Input F}

section Calls

def logged (rt : Option WebAppRuntime) (input : Input F) (log : List (Delivery F)) : List (Delivery F) :=
  match rt with
  | none => log
  | some rt => ⟨rt, input⟩ :: log

theorem deliver_regular {rt : Option WebAppRuntime} (h : ∀ r, rt = some r → r.isDashboard = false) :
    s.deliver A rt input = { s with log := logged rt input s.log } := by
  cases rt with
  | none => rfl
  | some rt =>
    rw [deliver, h rt rfl]
    rfl

theorem dash_toFocused (h : s.dash.Regular) : (s.toFocused A input).dash = s.dash := by
  unfold toFocused
  split
  · rw [deliver_regular fun r hr => h.rtAt hr]
  · rfl

theorem dash_paste (h : s.dash.Regular) (slotIndex : ℕ) (clipboard : List Byte) :
    (s.dashboardHandlePasteRequest A slotIndex clipboard).dash = s.dash := by
  unfold dashboardHandlePasteRequest
  dsimp only
  split
  · rfl
  · split
    · rfl
    · split
      · rfl
      · next rt hrt =>
        split
        · rw [deliver_regular]
          rintro r ⟨⟩
          exact h.rtAt hrt
        · rfl

theorem dash_chars {rt : WebAppRuntime} (h : rt.isDashboard = false) (cps : List (BitVec 32)) :
    (s.chars A rt cps).dash = s.dash := by
  induction cps generalizing s with
  | nil => rfl
  | cons cp cps ih =>
    have hcall : s.deliver A (some rt) (.char cp) = { s with log := logged (some rt) (.char cp) s.log } := by
      apply deliver_regular
      rintro r ⟨⟩
      exact h
    unfold chars
    rw [List.foldl_cons, hcall]
    exact ih

theorem dash_frames (h : s.dash.Regular) (slots i : ℕ) : (slotLoop A .frame .frame slots i s).dash = s.dash := by
  induction slots generalizing i s with
  | zero => rfl
  | succ slots ih =>
    unfold slotLoop
    split
    · rfl
    · next slot hslot =>
      dsimp only
      rw [deliver_regular fun r hr => h.slot hslot r (DashboardRuntime.rt_of_visit .frame hr)]
      have hrest := fun log => ih (s := ⟨s.dash, log⟩) h (i + 1)
      exact hrest _

theorem regular_setViewport {d : DashboardRuntime} (h : d.Regular) (k : ℕ) (viewport : WebAppViewport) :
    (d.setViewport k viewport).Regular := by
  have hmap : (d.setViewport k viewport).panes.map Pane.rt = d.panes.map Pane.rt := by
    rw [DashboardRuntime.panes_setViewport, map_modify Pane.rt _ id, List.modify_id]
    intro pane
    rfl
  intro pane hpane rt hrt
  have hmem : some rt ∈ d.panes.map Pane.rt := by
    rw [← hmap, ← hrt]
    exact List.mem_map_of_mem hpane
  obtain ⟨pane', hpane', hrt'⟩ := List.mem_map.mp hmem
  exact h pane' hpane' rt hrt'

theorem panes_layout (h : s.dash.Regular) (g : Tiling) (slots i : ℕ) (j : ℕ) :
    (slotLoop A (.layout g.cols g.cellW g.cellH) input slots i s).dash.panes[j]? =
      (s.dash.panes[j]?).map fun pane =>
        if i ≤ j ∧ j < i + slots then { pane with viewport := g.cell j } else pane := by
  induction slots generalizing i s with
  | zero =>
    have hnone : ¬ (i ≤ j ∧ j < i + 0) := by omega
    simp only [if_neg hnone, Option.map_id']
    rfl
  | succ slots ih =>
    unfold slotLoop
    split
    · next hout =>
      have hlength : s.dash.slots.length ≤ i := List.getElem?_eq_none_iff.mp hout
      rw [DashboardRuntime.panes_getElem?]
      cases hj : s.dash.slots[j]? with
      | none => rfl
      | some slot =>
        have hlt : j < s.dash.slots.length := (List.getElem?_eq_some_iff.mp hj).1
        have hnone : ¬ (i ≤ j ∧ j < i + (slots + 1)) := by omega
        simp only [Option.map_some, if_neg hnone]
    · next slot hslot =>
      dsimp only
      rw [deliver_regular fun r hr => h.slot hslot r (DashboardRuntime.rt_of_visit (.layout _ _ _) hr)]
      rw [ih (regular_setViewport h i _) (i + 1)]
      change ((s.dash.setViewport i (g.cell i)).panes[j]?).map _ = _
      rw [DashboardRuntime.panes_setViewport]
      obtain rfl | hne := eq_or_ne i j
      · have hnext : ¬ (i + 1 ≤ i ∧ i < i + 1 + slots) := by omega
        have hhere : i ≤ i ∧ i < i + (slots + 1) := by omega
        rw [List.getElem?_modify_eq]
        simp only [if_neg hnext, if_pos hhere, Option.map_id']
        rfl
      · have hiff : (i + 1 ≤ j ∧ j < i + 1 + slots) ↔ i ≤ j ∧ j < i + (slots + 1) := by omega
        rw [List.getElem?_modify_ne _ _ hne]
        simp only [hiff]

end Calls

section Layout

theorem length_panes (d : DashboardRuntime) : d.panes.length = d.slots.length := List.length_map _

theorem columns_pos (n : ℕ) : 0 < Nesting.columns n := by
  unfold Nesting.columns
  cases hfind : (List.range' 1 n).find? fun cols => n ≤ cols * cols with
  | none => exact Nat.one_pos
  | some cols =>
    have hmem := List.mem_range'_1.mp (List.mem_of_find?_eq_some hfind)
    exact hmem.1

theorem cells_lt (n : ℕ) (ww wh : ℤ) :
    (tiling n ww wh).rows * (tiling n ww wh).cols < n + (tiling n ww wh).cols := by
  have hpos : 0 < (tiling n ww wh).cols := columns_pos n
  have hle : (tiling n ww wh).rows * (tiling n ww wh).cols ≤ n + (tiling n ww wh).cols - 1 := Nat.div_mul_le_self _ _
  omega

theorem panes_recalc (h : s.dash.Regular) (ww wh : ℤ) (j : ℕ) :
    (s.dashboardLayoutRecalc A ww wh).dash.panes[j]? =
      (s.dash.panes[j]?).map fun pane =>
        { pane with viewport := (tiling s.dash.slots.length ww wh).cell j } := by
  unfold dashboardLayoutRecalc
  dsimp only
  split
  · next hnone =>
    rw [DashboardRuntime.panes_getElem?, List.getElem?_eq_none (by omega)]
    rfl
  · refine (panes_layout h (tiling s.dash.slots.length ww wh) s.dash.slots.length 0 j).trans ?_
    rw [DashboardRuntime.panes_getElem?]
    cases hj : s.dash.slots[j]? with
    | none => rfl
    | some slot =>
      have hlt : j < s.dash.slots.length := (List.getElem?_eq_some_iff.mp hj).1
      have hhere : 0 ≤ j ∧ j < 0 + s.dash.slots.length := by omega
      simp only [Option.map_some, if_pos hhere]

end Layout

section Hit

variable [LinearOrder F] {d : DashboardRuntime} {g : Tiling} {x y : F} {i : ℕ}

theorem pos_of_within {w : ℤ} {k : ℕ} (hf : Monotone P.ofInt) (h : Grid.Within P.ofInt w k x) : 0 < w := by
  by_contra hw
  have hle : (k * w + w : ℤ) ≤ k * w := by omega
  exact absurd (h.1.trans_lt h.2) (not_lt.mpr (hf hle))

theorem hits_cell_iff (hf : Monotone P.ofInt) : Hits P x y (g.cell i) ↔ g.Covers P i x y := by
  constructor
  · rintro ⟨-, -, hx, hx', hy, hy'⟩
    exact ⟨⟨hx, hx'⟩, hy, hy'⟩
  · rintro ⟨hx, hy⟩
    exact ⟨pos_of_within hf hx, pos_of_within hf hy, hx.1, hx.2, hy.1, hy.2⟩

theorem hitTestSlot_cases (P : Positions F) (d : DashboardRuntime) (x y : F) :
    (∃ (i : ℕ) (slot : WebAppSlot), hitTestSlot P d x y = i ∧ d.slots[i]? = some slot ∧ Hits P x y slot.viewport) ∨
      hitTestSlot P d x y = -1 ∧ ∀ slot ∈ d.slots, ¬ Hits P x y slot.viewport := by
  unfold hitTestSlot
  split
  · next hnone =>
    refine .inr ⟨rfl, fun slot hslot hhits => ?_⟩
    exact Bool.noConfusion ((decide_eq_true hhits).symm.trans (List.findIdx?_eq_none_iff.mp hnone slot hslot))
  · next i hi =>
    obtain ⟨hlt, hhits, -⟩ := List.findIdx?_eq_some_iff_getElem.mp hi
    exact .inl ⟨i, _, rfl, List.getElem?_eq_getElem hlt, of_decide_eq_true hhits⟩

theorem viewport_of_tiled (ht : d.Tiled g) {slot : WebAppSlot} (hslot : d.slots[i]? = some slot) :
    slot.viewport = g.cell i := by
  refine ht i ⟨slot.rt, slot.viewport⟩ ?_
  rw [DashboardRuntime.panes_getElem?, hslot]
  rfl

theorem hitTestSlot_eq (hf : Monotone P.ofInt) (hw : 0 ≤ g.cellW) (hh : 0 ≤ g.cellH) (ht : d.Tiled g)
    (hlt : i < d.slots.length) (hcovers : g.Covers P i x y) : hitTestSlot P d x y = i := by
  obtain ⟨j, slot, heq, hslot, hhits⟩ | ⟨-, hnone⟩ := hitTestSlot_cases P d x y
  · rw [viewport_of_tiled ht hslot, hits_cell_iff hf] at hhits
    rw [heq, Grid.Covers.unique hf hw hh hhits hcovers]
  · have hslot : d.slots[i]? = some d.slots[i] := List.getElem?_eq_getElem hlt
    refine absurd ?_ (hnone _ (List.getElem_mem hlt))
    rw [viewport_of_tiled ht hslot, hits_cell_iff hf]
    exact hcovers

theorem hitTestSlot_none (hf : Monotone P.ofInt) (ht : d.Tiled g)
    (hnone : ∀ i < d.slots.length, ¬ g.Covers P i x y) : hitTestSlot P d x y = -1 := by
  obtain ⟨j, slot, heq, hslot, hhits⟩ | ⟨heq, -⟩ := hitTestSlot_cases P d x y
  · rw [viewport_of_tiled ht hslot, hits_cell_iff hf] at hhits
    exact absurd hhits (hnone j (List.getElem?_eq_some_iff.mp hslot).1)
  · exact heq

end Hit

section Pointer

def OnlyFocus (calls : List (Delivery F)) : Prop := ∀ d ∈ calls, d.input.gained?.isSome = true

theorem regular_of_panes {d d' : DashboardRuntime} (h : d.Regular) (hpanes : d'.panes = d.panes) : d'.Regular := by
  unfold DashboardRuntime.Regular
  rw [hpanes]
  exact h

theorem exists_logged_focus (rt : Option WebAppRuntime) (gained : Bool) (log : List (Delivery F)) :
    ∃ calls, OnlyFocus calls ∧ logged rt (.focus gained) log = calls ++ log := by
  cases rt with
  | none => exact ⟨[], nofun, rfl⟩
  | some rt =>
    refine ⟨[⟨rt, .focus gained⟩], fun d hd => ?_, rfl⟩
    rw [List.mem_singleton.mp hd]
    rfl

theorem focusNew_regular (h : s.dash.Regular) (slotIndex : ℤ) :
    (s.focusNew A slotIndex).dash.panes = s.dash.panes ∧ (s.focusNew A slotIndex).dash.focusedSlot = slotIndex ∧
      ∃ calls, OnlyFocus calls ∧ (s.focusNew A slotIndex).log = calls ++ s.log := by
  unfold focusNew
  dsimp only
  split
  · exact ⟨rfl, rfl, [], nofun, rfl⟩
  · next k hk =>
    have hregular : ({ s.dash with focusedSlot := slotIndex } : DashboardRuntime).Regular := h
    rw [deliver_regular fun r hr => hregular.rtAt hr]
    exact ⟨DashboardRuntime.panes_setFocused _ k true, rfl, exists_logged_focus _ true s.log⟩

theorem setFocus_regular (h : s.dash.Regular) (slotIndex : ℤ) :
    (s.setFocus A slotIndex).dash.panes = s.dash.panes ∧ (s.setFocus A slotIndex).dash.focusedSlot = slotIndex ∧
      ∃ calls, OnlyFocus calls ∧ (s.setFocus A slotIndex).log = calls ++ s.log := by
  unfold setFocus
  split
  · next hsame => exact ⟨rfl, hsame, [], nofun, rfl⟩
  · dsimp only
    split
    · exact focusNew_regular h slotIndex
    · next k hk =>
      rw [deliver_regular fun r hr => h.rtAt hr]
      have hpanes := DashboardRuntime.panes_setFocused s.dash k false
      obtain ⟨hnew, hfocused, calls, hcalls, hlog⟩ := focusNew_regular (A := A)
        (s := ⟨s.dash.setFocused k false, logged (s.dash.rtAt k) (.focus false) s.log⟩)
        (regular_of_panes h hpanes) slotIndex
      obtain ⟨before, hbefore, hold⟩ := exists_logged_focus (s.dash.rtAt k) false s.log
      refine ⟨hnew.trans hpanes, hfocused, calls ++ before, fun d hd => ?_, ?_⟩
      · obtain hd | hd := List.mem_append.mp hd
        · exact hcalls d hd
        · exact hbefore d hd
      · rw [List.append_assoc, ← hold]
        exact hlog

theorem toSlot_regular (h : s.dash.Regular) {i : ℕ} {slot : WebAppSlot} (hslot : s.dash.slots[i]? = some slot)
    (x y : F) (make : F → F → Input F) : s.toSlot A P (i : ℕ) x y make =
      ⟨s.dash, logged slot.rt (make (P.sub x (P.ofInt slot.viewport.x)) (P.sub y (P.ofInt slot.viewport.y))) s.log⟩ := by
  unfold toSlot
  rw [if_pos (Int.natCast_nonneg i), Int.toNat_natCast, hslot]
  exact deliver_regular (h.slot hslot)

theorem toSlot_nowhere (x y : F) (make : F → F → Input F) : s.toSlot A P (-1) x y make = s := rfl

theorem dash_toSlot (h : s.dash.Regular) (slotIndex : ℤ) (x y : F) (make : F → F → Input F) :
    (s.toSlot A P slotIndex x y make).dash = s.dash := by
  unfold toSlot
  split
  · split
    · rfl
    · next slot hslot => rw [deliver_regular (h.slot hslot)]
  · rfl

variable [LinearOrder F]

theorem panes_dispatchEvent (h : s.dash.Regular) (e : WindowEvent F) (he : e.resizes = false) :
    (s.dashboardDispatchEvent A P e).dash.panes = s.dash.panes := by
  cases e with
  | resized => cases he
  | exposed begun =>
    rw [dashboardDispatchEvent, dashboardFrame]
    split
    · rw [dash_frames h]
    · rfl
  | focusGained => rfl
  | focusLost => exact (setFocus_regular h (-1)).1
  | keyDown scancode key mod clipboard =>
    have hkey : (s.toFocused A (.key scancode key mod true)).dash = s.dash := dash_toFocused h
    unfold dashboardDispatchEvent
    dsimp only
    split
    · rw [dash_paste (by rw [hkey]; exact h), hkey]
    · rw [hkey]
  | textInput text =>
    rw [dashboardDispatchEvent]
    split
    · rfl
    · split
      · rfl
      · next rt hrt => rw [dash_chars (h.rtAt hrt)]
  | mouseButtonDown button x y =>
    obtain ⟨hpanes, -, -⟩ := setFocus_regular (A := A) h (hitTestSlot P s.dash x y)
    unfold dashboardDispatchEvent
    dsimp only
    rw [dash_toSlot (regular_of_panes h hpanes), hpanes]
  | mouseButtonUp button x y => exact congrArg _ (dash_toSlot h _ x y (.mouseButton button false))
  | mouseMotion x y xrel yrel state =>
    exact congrArg _ (dash_toSlot h _ x y fun x y => .mouseMotion x y xrel yrel state)
  | _ => exact congrArg _ (dash_toFocused h)

end Pointer

section Routing

variable [LinearOrder F]

def Laid (d : DashboardRuntime) (g : Tiling) (d' : DashboardRuntime) : Prop :=
  ∀ j : ℕ, d'.panes[j]? = (d.panes[j]?).map fun pane => { pane with viewport := g.cell j }

theorem Laid.regular {d d' : DashboardRuntime} {g : Tiling} (hlaid : Laid d g d') (h : d.Regular) : d'.Regular := by
  intro pane hpane rt hrt
  obtain ⟨j, hj⟩ := List.mem_iff_getElem?.mp hpane
  rw [hlaid j] at hj
  obtain ⟨pane', hpane', rfl⟩ := Option.map_eq_some_iff.mp hj
  exact h pane' (List.mem_of_getElem? hpane') rt hrt

theorem Laid.tiled {d d' : DashboardRuntime} {g : Tiling} (hlaid : Laid d g d') : d'.Tiled g := by
  intro j pane hpane
  rw [hlaid j] at hpane
  obtain ⟨pane', -, rfl⟩ := Option.map_eq_some_iff.mp hpane
  rfl

theorem laid_resized (h : s.dash.Regular) (ww wh : ℤ) (begun : Bool) :
    Laid s.dash (tiling s.dash.slots.length ww wh) (s.dashboardDispatchEvent A P (.resized ww wh begun)).dash := by
  have hlaid : Laid s.dash (tiling s.dash.slots.length ww wh) (s.dashboardLayoutRecalc A ww wh).dash :=
    fun j => panes_recalc h ww wh j
  rw [dashboardDispatchEvent, dashboardFrame]
  split
  · rw [dash_frames (hlaid.regular h)]
    exact hlaid
  · exact hlaid

theorem panes_dispatchEvents (h : s.dash.Regular) {es : List (WindowEvent F)} (hes : ∀ e ∈ es, e.resizes = false) :
    (es.foldl (fun s e => s.dashboardDispatchEvent A P e) s).dash.panes = s.dash.panes := by
  induction es generalizing s with
  | nil => rfl
  | cons e es ih =>
    have hpanes := panes_dispatchEvent (A := A) (P := P) h e (hes e List.mem_cons_self)
    rw [List.foldl_cons, ih (regular_of_panes h hpanes) fun e' he' => hes e' (List.mem_cons_of_mem e he'), hpanes]

theorem dispatch_pointer (h : s.dash.Regular) (e : PointerEvent F) (x y : F) :
    ∃ (s' : Desk F) (calls : List (Delivery F)), s.dashboardDispatchEvent A P (e.reported x y) =
        s'.toSlot A P (hitTestSlot P s.dash x y) x y e.input ∧
      s'.dash.panes = s.dash.panes ∧ (e.presses = true → s'.dash.focusedSlot = hitTestSlot P s.dash x y) ∧
        OnlyFocus calls ∧ (e.presses = false → calls = []) ∧ s'.log = calls ++ s.log := by
  cases e with
  | down button =>
    obtain ⟨hpanes, hfocused, calls, hcalls, hlog⟩ := setFocus_regular (A := A) h (hitTestSlot P s.dash x y)
    exact ⟨s.setFocus A (hitTestSlot P s.dash x y), calls, rfl, hpanes, fun _ => hfocused, hcalls, nofun, hlog⟩
  | up button => exact ⟨s, [], rfl, rfl, nofun, nofun, fun _ => rfl, rfl⟩
  | motion xrel yrel state => exact ⟨s, [], rfl, rfl, nofun, nofun, fun _ => rfl, rfl⟩

/-- The point lies in the cell of a slot, and the event goes to its web app, at the place of the point in the cell. -/
def Reaches (A : Apps F) (P : Positions F) (s : Desk F) (g : Tiling) (e : PointerEvent F) (x y : F) (i : ℕ)
    (rt : Option WebAppRuntime) (calls : List (Delivery F)) : Prop :=
  g.Covers P i x y ∧
    (s.dashboardDispatchEvent A P (e.reported x y)).log =
      logged rt (e.input (P.sub x (P.ofInt (g.cell i).x)) (P.sub y (P.ofInt (g.cell i).y))) (calls ++ s.log) ∧
    (e.presses = true → (s.dashboardDispatchEvent A P (e.reported x y)).dash.focusedSlot = i)

def Misses (A : Apps F) (P : Positions F) (s : Desk F) (g : Tiling) (e : PointerEvent F) (x y : F)
    (calls : List (Delivery F)) : Prop :=
  (∀ i < s.dash.slots.length, ¬ g.Covers P i x y) ∧
    (s.dashboardDispatchEvent A P (e.reported x y)).log = calls ++ s.log ∧
    (e.presses = true → (s.dashboardDispatchEvent A P (e.reported x y)).dash.focusedSlot = -1)

theorem reaches_or_misses (hf : Monotone P.ofInt) (h : s.dash.Regular) {g : Tiling} (ht : s.dash.Tiled g)
    (hw : 0 ≤ g.cellW) (hh : 0 ≤ g.cellH) (e : PointerEvent F) (x y : F) :
    ∃ calls, OnlyFocus calls ∧ (e.presses = false → calls = []) ∧
      ((∃ i pane, s.dash.panes[i]? = some pane ∧ Reaches A P s g e x y i pane.rt calls) ∨
        Misses A P s g e x y calls) := by
  obtain ⟨s', calls, heq, hpanes, hfocused, hcalls, hnone, hlog⟩ := dispatch_pointer (A := A) (P := P) h e x y
  refine ⟨calls, hcalls, hnone, ?_⟩
  unfold Reaches Misses
  rw [heq, dash_toSlot (regular_of_panes h hpanes), ← hlog]
  by_cases hcovers : ∃ i < s.dash.slots.length, g.Covers P i x y
  · obtain ⟨i, hlt, hcovers⟩ := hcovers
    rw [hitTestSlot_eq hf hw hh ht hlt hcovers] at hfocused ⊢
    have hlt' : i < s'.dash.slots.length := by
      rwa [← length_panes, hpanes, length_panes]
    have hslot : s'.dash.slots[i]? = some s'.dash.slots[i] := List.getElem?_eq_getElem hlt'
    have hpane : s.dash.panes[i]? = some ⟨s'.dash.slots[i].rt, s'.dash.slots[i].viewport⟩ := by
      rw [← hpanes, DashboardRuntime.panes_getElem?, hslot]
      rfl
    have hcell : s'.dash.slots[i].viewport = g.cell i := ht i _ hpane
    refine .inl ⟨i, _, hpane, hcovers, ?_, hfocused⟩
    rw [toSlot_regular (regular_of_panes h hpanes) hslot, hcell]
  · have hmiss : ∀ i < s.dash.slots.length, ¬ g.Covers P i x y := fun i hi hcov => hcovers ⟨i, hi, hcov⟩
    rw [hitTestSlot_none hf ht hmiss] at hfocused ⊢
    exact .inr ⟨hmiss, congrArg Desk.log (toSlot_nowhere x y e.input), hfocused⟩

/-- From a new size of the window on, and until the next one, each slot has its cell of the grid. A point is in one
cell at most, and a point of the grid in that of a slot or in what is left over of the last row; and an event of the
pointer goes to the web app of the slot in whose cell it is, and to nobody where there is none. -/
theorem pointer_routed (hf : Monotone P.ofInt) (h : s.dash.Regular) {ww wh : ℤ} (hw : 0 ≤ ww) (hh : 0 ≤ wh)
    (begun : Bool) {es : List (WindowEvent F)} (hes : ∀ e ∈ es, e.resizes = false) (x y : F) :
    let g := tiling s.dash.slots.length ww wh
    let t := (WindowEvent.resized ww wh begun :: es).foldl (fun s e => s.dashboardDispatchEvent A P e) s
    Laid s.dash g t.dash ∧ (∀ i j, g.Covers P i x y → g.Covers P j x y → i = j) ∧
      (g.Inside P x y → ∃ i < s.dash.slots.length + g.cols, g.Covers P i x y) ∧
        ∀ e : PointerEvent F, ∃ calls, OnlyFocus calls ∧ (e.presses = false → calls = []) ∧
          ((∃ i pane, s.dash.panes[i]? = some pane ∧ Reaches A P t g e x y i pane.rt calls) ∨
            Misses A P t g e x y calls) := by
  intro g t
  have hw' : 0 ≤ g.cellW := Int.tdiv_nonneg hw (Int.natCast_nonneg _)
  have hh' : 0 ≤ g.cellH := Int.tdiv_nonneg hh (Int.natCast_nonneg _)
  have hlaid : Laid s.dash g t.dash := by
    have hresized := laid_resized (A := A) (P := P) h ww wh begun
    intro j
    have hpanes : t.dash.panes = (s.dashboardDispatchEvent A P (.resized ww wh begun)).dash.panes :=
      panes_dispatchEvents (hresized.regular h) hes
    rw [hpanes]
    exact hresized j
  refine ⟨hlaid, fun i j hi hj => Grid.Covers.unique hf hw' hh' hi hj, fun hinside => ?_, fun e => ?_⟩
  · obtain ⟨i, hi, hcovers⟩ := Grid.exists_covers hinside.1.1 hinside.1.2 hinside.2.1 hinside.2.2
    exact ⟨i, hi.trans (cells_lt _ ww wh), hcovers⟩
  · obtain ⟨calls, hcalls, hnone, ⟨i, pane, hpane, hreaches⟩ | hmisses⟩ :=
      reaches_or_misses (A := A) hf (hlaid.regular h) hlaid.tiled hw' hh' e x y
    · rw [hlaid i] at hpane
      obtain ⟨pane', hpane', rfl⟩ := Option.map_eq_some_iff.mp hpane
      exact ⟨calls, hcalls, hnone, .inl ⟨i, pane', hpane', hreaches⟩⟩
    · exact ⟨calls, hcalls, hnone, .inr hmisses⟩

end Routing

section Sample

theorem typedRun_regular : typedRun.dash.Regular := by
  have hall : typedRun.dash.panes.all fun pane => pane.rt.all fun rt => !rt.isDashboard := rfl
  intro pane hpane rt hrt
  have hpane := List.all_eq_true.mp hall pane hpane
  rw [hrt] at hpane
  simpa using hpane

def pressing : List (WindowEvent ℤ) :=
  [.keyUp 4 97 0, .mouseMotion 20 30 1 1 0, .mouseButtonDown 1 20 30, .mouseButtonUp 1 20 30, .focusLost, .focusGained]

theorem pointer_routed_pressing :
    let g := tiling typedRun.dash.slots.length 640 480
    let t := (WindowEvent.resized 640 480 true :: pressing).foldl
      (fun s e => s.dashboardDispatchEvent plainApps pixels e) typedRun
    Laid typedRun.dash g t.dash ∧ (∀ i j, g.Covers pixels i 20 30 → g.Covers pixels j 20 30 → i = j) ∧
      (g.Inside pixels 20 30 → ∃ i < typedRun.dash.slots.length + g.cols, g.Covers pixels i 20 30) ∧
        ∀ e : PointerEvent ℤ, ∃ calls, OnlyFocus calls ∧ (e.presses = false → calls = []) ∧
          ((∃ i pane, typedRun.dash.panes[i]? = some pane ∧ Reaches plainApps pixels t g e 20 30 i pane.rt calls) ∨
            Misses plainApps pixels t g e 20 30 calls) :=
  pointer_routed (fun _ _ h => h) typedRun_regular (Int.natCast_nonneg 640) (Int.natCast_nonneg 480) true
    (by decide) 20 30

end Sample

end Desk

end YumiBrowser.Dashboard
