import Mathlib.Data.List.InsertIdx
import YumiBrowser.Dashboard.EventRouting

universe u

namespace YumiBrowser.Dashboard

open Wire Transition

structure Face where
  rt : Option WebAppRuntime
  focused : Bool

theorem map_modify {α β : Type*} (f : α → β) (g : α → α) (g' : β → β) (h : ∀ a, f (g a) = g' (f a)) (xs : List α)
    (i : ℕ) : (xs.modify i g).map f = (xs.map f).modify i g' := by
  induction xs generalizing i with
  | nil => rw [List.modify_nil, List.map_nil, List.modify_nil]
  | cons x xs ih =>
    cases i with
    | zero => rw [List.modify_zero_cons, List.map_cons, List.map_cons, List.modify_zero_cons, h]
    | succ i => rw [List.modify_succ_cons, List.map_cons, List.map_cons, List.modify_succ_cons, ih]

namespace DashboardRuntime

variable (d : DashboardRuntime)

def faces : List Face := d.slots.map fun slot => ⟨slot.rt, slot.focused⟩

theorem length_faces : d.faces.length = d.slots.length := List.length_map _

theorem faces_getElem? (i : ℕ) : d.faces[i]? = (d.slots[i]?).map fun slot => ⟨slot.rt, slot.focused⟩ :=
  List.getElem?_map ..

theorem faces_setFocused (k : ℕ) (focused : Bool) :
    (d.setFocused k focused).faces = d.faces.modify k fun face => { face with focused } := by
  apply map_modify
  intro slot
  rfl

theorem faces_setViewport (k : ℕ) (viewport : WebAppViewport) : (d.setViewport k viewport).faces = d.faces := by
  have hmap : (d.setViewport k viewport).faces = d.faces.modify k id := by
    apply map_modify
    intro slot
    rfl
  rw [hmap, List.modify_id]

theorem faces_visit (i : ℕ) (slot : WebAppSlot) (l : SlotLoop) : (d.visit i slot l).1.faces = d.faces := by
  cases l with
  | layout => exact faces_setViewport d i _
  | fullscreen slotIndex =>
    unfold visit
    dsimp only
    split
    · exact faces_setViewport d i _
    · exact faces_setViewport d i _
  | _ => rfl

theorem rtAt_eq (i : ℕ) : d.rtAt i = d.faces[i]?.bind Face.rt := by
  rw [faces_getElem?, rtAt]
  cases d.slots[i]? with
  | none => rfl
  | some slot => rfl

end DashboardRuntime

variable {F : Type u}

def Input.gained? : Input F → Option Bool
  | .focus gained => some gained
  | _ => none

def Input.Typed : Input F → Prop
  | .key _ _ _ _ | .char _ | .mouseWheel _ _ | .touch _ _ _ _ _ | .device _ | .pasteResult _ => True
  | _ => False

def told (rt : WebAppRuntime) (log : List (Delivery F)) : Option Bool :=
  log.findSome? fun d => if d.rt = rt then d.input.gained? else none

/-- The web app may take itself to have the focus: it was told so, or it was never told of it and `main` gave it the
focus. -/
def Holds (home : WebAppRuntime → Prop) (log : List (Delivery F)) (rt : WebAppRuntime) : Prop :=
  told rt log = some true ∨ told rt log = none ∧ home rt

/-- Each web app gains and loses the focus in turn, and is typed to while it has it. -/
def Orderly (home : WebAppRuntime → Prop) : List (Delivery F) → Prop
  | [] => True
  | d :: log => Orderly home log ∧ (d.input.gained? = some true → told d.rt log ≠ some true) ∧
    (d.input.gained? = some false ∨ d.input.Typed → Holds home log d.rt)

structure Marked (home : WebAppRuntime → Prop) (faces : List Face) (focusedSlot : ℤ) (log : List (Delivery F)) :
    Prop where
  range : focusedSlot < faces.length
  flag : ∀ (i : ℕ) face, faces[i]? = some face → face.focused = true → focusedSlot = i
  told : ∀ face ∈ faces, ∀ rt, face.rt = some rt → (face.focused = true ↔ told rt log = some true)
  holds : ∀ (i : ℕ) face, faces[i]? = some face → ∀ rt, face.rt = some rt → (Holds home log rt ↔ focusedSlot = i)

structure Allotted (home : WebAppRuntime → Prop) (faces : List Face) (allocated : ℕ) (log : List (Delivery F)) :
    Prop where
  distinct : faces.Pairwise fun a b => ∀ rt, a.rt = some rt → b.rt ≠ some rt
  faces : ∀ face ∈ faces, ∀ rt, face.rt = some rt → rt.serial < allocated
  log : ∀ d ∈ log, d.rt.serial < allocated
  home : ∀ rt, home rt → rt.serial < allocated

section Log

variable {home : WebAppRuntime → Prop} {log : List (Delivery F)} {rt rt' : WebAppRuntime} {input : Input F}

theorem told_cons_of_ne (h : rt' ≠ rt) : told rt (⟨rt', input⟩ :: log) = told rt log := by
  rw [told, List.findSome?_cons, if_neg h]
  rfl

theorem told_cons_of_none (h : input.gained? = none) : told rt (⟨rt', input⟩ :: log) = told rt log := by
  rw [told, List.findSome?_cons, h, ite_self]
  rfl

theorem told_focus (gained : Bool) : told rt (⟨rt, .focus gained⟩ :: log) = some gained := by
  rw [told, List.findSome?_cons, if_pos rfl]
  rfl

theorem told_of_fresh (h : ∀ d ∈ log, d.rt ≠ rt) : told rt log = none :=
  List.findSome?_eq_none_iff.mpr fun d hd => if_neg (h d hd)

theorem holds_cons_iff (hnone : input.gained? = none) :
    Holds home (⟨rt', input⟩ :: log) rt ↔ Holds home log rt := by
  unfold Holds
  rw [told_cons_of_none hnone]

theorem Orderly.cons (h : Orderly home log) (hnone : input.gained? = none)
    (htyped : input.Typed → Holds home log rt) : Orderly home (⟨rt, input⟩ :: log) := by
  refine ⟨h, fun hgained => ?_, ?_⟩
  · rw [hnone] at hgained
    cases hgained
  · rintro (hlost | hinput)
    · rw [hnone] at hlost
      cases hlost
    · exact htyped hinput

end Log

section Marks

variable {home : WebAppRuntime → Prop} {faces : List Face} {focusedSlot : ℤ} {allocated : ℕ} {log : List (Delivery F)}
  {rt : WebAppRuntime} {input : Input F}

theorem Marked.cons (h : Marked home faces focusedSlot log) (hnone : input.gained? = none) :
    Marked home faces focusedSlot (⟨rt, input⟩ :: log) where
  range := h.range
  flag := h.flag
  told face hface rt' hrt' := by
    rw [told_cons_of_none hnone]
    exact h.told face hface rt' hrt'
  holds i face hi rt' hrt' := (holds_cons_iff hnone).trans (h.holds i face hi rt' hrt')

theorem Allotted.cons (h : Allotted home faces allocated log) (hrt : rt.serial < allocated) :
    Allotted home faces allocated (⟨rt, input⟩ :: log) where
  distinct := h.distinct
  faces := h.faces
  log d hd := by
    obtain rfl | hd := List.mem_cons.mp hd
    · exact hrt
    · exact h.log d hd
  home := h.home

theorem Allotted.mono {allocated' : ℕ} (h : Allotted home faces allocated log) (hle : allocated ≤ allocated') :
    Allotted home faces allocated' log where
  distinct := h.distinct
  faces face hface rt hrt := (h.faces face hface rt hrt).trans_le hle
  log d hd := (h.log d hd).trans_le hle
  home rt hrt := (h.home rt hrt).trans_le hle

theorem Marked.erase (h : Marked home faces focusedSlot log) {index : ℕ} (hindex : index < faces.length) :
    Marked home (faces.eraseIdx index)
      (if focusedSlot = index then -1 else if (index : ℤ) < focusedSlot then focusedSlot - 1 else focusedSlot) log := by
  have hlength := List.length_eraseIdx_of_lt hindex
  have hrange := h.range
  refine ⟨?_, fun i face hface hfocused => ?_, fun face hface => h.told face (List.mem_of_mem_eraseIdx hface),
    fun i face hface rt hrt => ?_⟩
  · rw [hlength]
    split
    · omega
    · split <;> omega
  · rw [List.getElem?_eraseIdx] at hface
    split at hface
    · have hi := h.flag i face hface hfocused
      split
      · omega
      · split <;> omega
    · have hi := h.flag (i + 1) face hface hfocused
      split
      · omega
      · split <;> omega
  · rw [List.getElem?_eraseIdx] at hface
    split at hface
    · rw [h.holds i face hface rt hrt]
      split
      · omega
      · split <;> omega
    · rw [h.holds (i + 1) face hface rt hrt]
      split
      · omega
      · split <;> omega

theorem Allotted.erase (h : Allotted home faces allocated log) (index : ℕ) :
    Allotted home (faces.eraseIdx index) allocated log where
  distinct := h.distinct.sublist (List.eraseIdx_sublist _ _)
  faces face hface := h.faces face (List.mem_of_mem_eraseIdx hface)
  log := h.log
  home := h.home

theorem Marked.append (h : Marked home faces focusedSlot log) {face : Face} (hflag : face.focused = false)
    (hholds : ∀ rt, face.rt = some rt → ¬ Holds home log rt) : Marked home (faces ++ [face]) focusedSlot log := by
  have hrange := h.range
  refine ⟨?_, fun i face' hi hfocused => ?_, fun face' hface rt hrt => ?_, fun i face' hi rt hrt => ?_⟩
  · rw [List.length_append]
    omega
  · rw [List.getElem?_append] at hi
    split at hi
    · exact h.flag i face' hi hfocused
    · rw [List.mem_singleton.mp (List.mem_of_getElem? hi), hflag] at hfocused
      cases hfocused
  · obtain hold | hnew := List.mem_append.mp hface
    · exact h.told face' hold rt hrt
    · obtain rfl := List.mem_singleton.mp hnew
      rw [hflag]
      exact iff_of_false Bool.noConfusion fun htold => hholds rt hrt (.inl htold)
  · rw [List.getElem?_append] at hi
    split at hi
    · exact h.holds i face' hi rt hrt
    · next hlast =>
      obtain rfl := List.mem_singleton.mp (List.mem_of_getElem? hi)
      refine iff_of_false (hholds rt hrt) fun hslot => hlast ?_
      rw [hslot] at hrange
      exact Int.ofNat_lt.mp hrange

theorem Allotted.append (h : Allotted home faces allocated log) {face : Face}
    (hserial : ∀ rt, face.rt = some rt → rt.serial < allocated)
    (hnew : ∀ rt, face.rt = some rt → ∀ face' ∈ faces, face'.rt ≠ some rt) :
    Allotted home (faces ++ [face]) allocated log where
  distinct := by
    refine List.pairwise_append.mpr ⟨h.distinct, List.pairwise_singleton _ _, ?_⟩
    intro face' hface' face'' hface'' rt hrt' hrt
    obtain rfl := List.mem_singleton.mp hface''
    exact hnew rt hrt face' hface' hrt'
  faces face' hface rt hrt := by
    obtain hold | hface := List.mem_append.mp hface
    · exact h.faces face' hold rt hrt
    · obtain rfl := List.mem_singleton.mp hface
      exact hserial rt hrt
  log := h.log
  home := h.home

theorem Allotted.focus (h : Allotted home faces allocated log) (k : ℕ) (focused : Bool) :
    Allotted home (faces.modify k fun face => { face with focused }) allocated log := by
  have hmap : (faces.modify k fun face => { face with focused }).map Face.rt = faces.map Face.rt := by
    rw [map_modify Face.rt _ id, List.modify_id]
    intro face
    rfl
  refine ⟨?_, fun face hface rt hrt => ?_, h.log, h.home⟩
  · have hpairs : (faces.map Face.rt).Pairwise fun a b => ∀ rt, a = some rt → b ≠ some rt :=
      List.pairwise_map.mpr h.distinct
    rw [← hmap] at hpairs
    exact List.pairwise_map.mp hpairs
  · have hmem : some rt ∈ faces.map Face.rt := by
      rw [← hmap, ← hrt]
      exact List.mem_map_of_mem hface
    obtain ⟨face', hface', hrt'⟩ := List.mem_map.mp hmem
    exact h.faces face' hface' rt hrt'

end Marks

structure Tended (home : WebAppRuntime → Prop) (d : DashboardRuntime) (log : List (Delivery F)) : Prop where
  marked : Marked home d.faces d.focusedSlot log
  allotted : Allotted home d.faces d.allocated log

namespace Tended

variable {home : WebAppRuntime → Prop} {d : DashboardRuntime} {log : List (Delivery F)} {rt : WebAppRuntime}
  {input : Input F}

theorem faces_removeSlot {index : ℕ} (h : index < d.slots.length) :
    (d.dashboardRemoveSlot index).faces = d.faces.eraseIdx index := by
  rw [DashboardRuntime.dashboardRemoveSlot, if_neg (Nat.not_le.mpr h)]
  exact (List.eraseIdx_map ..).symm

theorem removeSlot (h : Tended home d log) (index : ℕ) : Tended home (d.dashboardRemoveSlot index) log := by
  obtain hout | hindex := Nat.lt_or_ge index d.slots.length |>.symm
  · rw [DashboardRuntime.dashboardRemoveSlot, if_pos hout]
    exact h
  · have hfaces := faces_removeSlot hindex
    constructor
    · rw [hfaces, DashboardRuntime.dashboardRemoveSlot, if_neg (Nat.not_le.mpr hindex)]
      rw [← d.length_faces] at hindex
      exact h.marked.erase hindex
    · rw [hfaces, DashboardRuntime.dashboardRemoveSlot, if_neg (Nat.not_le.mpr hindex)]
      exact h.allotted.erase index

theorem closeSlots (groupIndex : BitVec 32) (n : ℕ) (h : Tended home d log) :
    Tended home (DashboardRuntime.closeSlots groupIndex n d) log := by
  induction n generalizing d with
  | zero => exact h
  | succ n ih =>
    unfold DashboardRuntime.closeSlots
    split
    · exact ih (h.removeSlot n)
    · exact ih h

theorem disconnectGroup (h : Tended home d log) (groupIndex : BitVec 32) :
    Tended home (d.dashboardDisconnectGroup groupIndex) log := by
  unfold DashboardRuntime.dashboardDisconnectGroup
  split
  · exact h
  · exact ⟨(h.closeSlots groupIndex d.slots.length).marked, (h.closeSlots groupIndex d.slots.length).allotted⟩

theorem disconnectGroups (h : Tended home d log) (groups : List (BitVec 32)) :
    Tended home (groups.foldl DashboardRuntime.dashboardDisconnectGroup d) log := by
  induction groups generalizing d with
  | nil => exact h
  | cons groupIndex groups ih => exact ih (h.disconnectGroup groupIndex)

end Tended

def notified (rt : Option WebAppRuntime) (gained : Bool) (log : List (Delivery F)) : List (Delivery F) :=
  match rt with
  | none => log
  | some rt => ⟨rt, .focus gained⟩ :: log

structure Bare (home : WebAppRuntime → Prop) (faces : List Face) (log : List (Delivery F)) : Prop where
  flag : ∀ face ∈ faces, face.focused = false
  holds : ∀ face ∈ faces, ∀ rt, face.rt = some rt → ¬ Holds home log rt

section Change

variable {home : WebAppRuntime → Prop} {faces : List Face} {focusedSlot : ℤ} {allocated k : ℕ}
  {log : List (Delivery F)} {face : Face}

theorem mem_modify_focused {focused : Bool} {face' : Face} (hk : faces[k]? = some face)
    (h : face' ∈ faces.modify k fun face => { face with focused }) :
    face' = { face with focused } ∨ ∃ i, i ≠ k ∧ faces[i]? = some face' := by
  obtain ⟨i, hi⟩ := List.mem_iff_getElem?.mp h
  obtain rfl | hne := eq_or_ne k i
  · rw [List.getElem?_modify_eq, hk] at hi
    exact .inl (Option.some.inj hi).symm
  · rw [List.getElem?_modify_ne _ _ hne] at hi
    exact .inr ⟨i, hne.symm, hi⟩

theorem Allotted.apart (h : Allotted home faces allocated log) {i : ℕ} {face' : Face} {rt rt' : WebAppRuntime}
    (hne : i ≠ k) (hi : faces[i]? = some face') (hk : faces[k]? = some face) (hrt' : face'.rt = some rt')
    (hrt : face.rt = some rt) : rt ≠ rt' := by
  rintro rfl
  obtain ⟨hilt, rfl⟩ := List.getElem?_eq_some_iff.mp hi
  obtain ⟨hklt, rfl⟩ := List.getElem?_eq_some_iff.mp hk
  obtain hlt | hlt := Nat.lt_or_gt_of_ne hne
  · exact List.pairwise_iff_getElem.mp h.distinct i k hilt hklt hlt rt hrt' hrt
  · exact List.pairwise_iff_getElem.mp h.distinct k i hklt hilt hlt rt hrt hrt'

theorem told_notified_of_ne {rt : Option WebAppRuntime} {rt' : WebAppRuntime} {gained : Bool}
    (h : ∀ r, rt = some r → r ≠ rt') : told rt' (notified rt gained log) = told rt' log := by
  cases rt with
  | none => rfl
  | some rt => exact told_cons_of_ne (h rt rfl)

theorem holds_notified_of_ne {rt : Option WebAppRuntime} {rt' : WebAppRuntime} {gained : Bool}
    (h : ∀ r, rt = some r → r ≠ rt') : Holds home (notified rt gained log) rt' ↔ Holds home log rt' := by
  unfold Holds
  rw [told_notified_of_ne h]

theorem Marked.unfocus (h : Marked home faces focusedSlot log) (ha : Allotted home faces allocated log)
    (hfocused : focusedSlot = k) (hk : faces[k]? = some face) :
    Bare home (faces.modify k fun face => { face with focused := false }) (notified face.rt false log) := by
  constructor
  · intro face' hface'
    obtain rfl | ⟨i, hne, hi⟩ := mem_modify_focused hk hface'
    · rfl
    · refine Bool.eq_false_iff.mpr fun hmarked => hne ?_
      exact Int.ofNat_inj.mp ((h.flag i face' hi hmarked).symm.trans hfocused)
  · intro face' hface' rt hrt
    obtain rfl | ⟨i, hne, hi⟩ := mem_modify_focused hk hface'
    · dsimp only at hrt
      rw [hrt]
      unfold notified Holds
      dsimp only
      rw [told_focus]
      rintro (htrue | ⟨hnone, -⟩)
      · cases htrue
      · cases hnone
    · rw [holds_notified_of_ne fun r hr => ha.apart hne hi hk hrt hr, h.holds i face' hi rt hrt]
      exact fun hslot => hne (Int.ofNat_inj.mp (hslot.symm.trans hfocused))

theorem Marked.bare (h : Marked home faces focusedSlot log) (hnone : focusedSlot < 0) : Bare home faces log := by
  constructor
  · intro face hface
    obtain ⟨i, hi⟩ := List.mem_iff_getElem?.mp hface
    refine Bool.eq_false_iff.mpr fun hmarked => ?_
    have hslot := h.flag i face hi hmarked
    omega
  · intro face hface rt hrt hholds
    obtain ⟨i, hi⟩ := List.mem_iff_getElem?.mp hface
    have hslot := (h.holds i face hi rt hrt).mp hholds
    omega

theorem Bare.told_ne (h : Bare home faces log) {face : Face} (hface : face ∈ faces) {rt : WebAppRuntime}
    (hrt : face.rt = some rt) : told rt log ≠ some true := fun htold => h.holds face hface rt hrt (.inl htold)

theorem Bare.focus (h : Bare home faces log) (ha : Allotted home faces allocated log) (hk : faces[k]? = some face) :
    Marked home (faces.modify k fun face => { face with focused := true }) k (notified face.rt true log) where
  range := by
    rw [List.length_modify]
    exact Int.ofNat_lt.mpr (List.getElem?_eq_some_iff.mp hk).1
  flag i face' hi hmarked := by
    obtain rfl | hne := eq_or_ne k i
    · rfl
    · rw [List.getElem?_modify_ne _ _ hne] at hi
      exact Bool.noConfusion (hmarked.symm.trans (h.flag face' (List.mem_of_getElem? hi)))
  told face' hface' rt hrt := by
    obtain rfl | ⟨i, hne, hi⟩ := mem_modify_focused hk hface'
    · dsimp only at hrt
      rw [hrt, notified, told_focus]
      exact iff_of_true rfl rfl
    · rw [told_notified_of_ne fun r hr => ha.apart hne hi hk hrt hr, h.flag face' (List.mem_of_getElem? hi)]
      exact iff_of_false Bool.noConfusion (h.told_ne (List.mem_of_getElem? hi) hrt)
  holds i face' hi rt hrt := by
    obtain rfl | hne := eq_or_ne k i
    · rw [List.getElem?_modify_eq, hk] at hi
      obtain rfl := Option.some.inj hi
      dsimp only at hrt
      rw [hrt]
      exact iff_of_true (.inl (told_focus true)) rfl
    · rw [List.getElem?_modify_ne _ _ hne] at hi
      rw [holds_notified_of_ne fun r hr => ha.apart hne.symm hi hk hrt hr]
      exact iff_of_false (h.holds face' (List.mem_of_getElem? hi) rt hrt) fun heq => hne (Int.ofNat_inj.mp heq)

theorem Bare.unmarked (h : Bare home faces log) (hnone : focusedSlot < 0) : Marked home faces focusedSlot log where
  range := hnone.trans_le (Int.natCast_nonneg _)
  flag i face hi hmarked := Bool.noConfusion (hmarked.symm.trans (h.flag face (List.mem_of_getElem? hi)))
  told face hface rt hrt := by
    rw [h.flag face hface]
    exact iff_of_false Bool.noConfusion (h.told_ne hface hrt)
  holds i face hi rt hrt := by
    refine iff_of_false (h.holds face (List.mem_of_getElem? hi) rt hrt) ?_
    omega

end Change

/-- No web app closes a group when it is told that it has lost the focus. -/
def Apps.Calm (A : Apps F) : Prop := ∀ rt log, rt.isDashboard = true → A.closes (⟨rt, .focus false⟩ :: log) = []

namespace Desk

structure Good (home : WebAppRuntime → Prop) (s : Desk F) : Prop where
  tended : Tended home s.dash s.log
  orderly : Orderly home s.log

variable {home : WebAppRuntime → Prop} {A : Apps F} {s : Desk F} {input : Input F}

section Calls

theorem allocated_disconnectGroups (groups : List (BitVec 32)) (d : DashboardRuntime) :
    (groups.foldl DashboardRuntime.dashboardDisconnectGroup d).allocated = d.allocated := by
  induction groups generalizing d with
  | nil => rfl
  | cons groupIndex groups ih =>
    rw [List.foldl_cons, ih]
    exact (Storage.disconnectGroup_eq d groupIndex).2

theorem deliver_allocated (rt : Option WebAppRuntime) : (s.deliver A rt input).dash.allocated = s.dash.allocated := by
  cases rt with
  | none => rfl
  | some rt =>
    unfold deliver
    dsimp only
    split
    · exact allocated_disconnectGroups _ _
    · rfl

theorem Good.deliver (h : s.Good home) {rt : Option WebAppRuntime}
    (hserial : ∀ r, rt = some r → r.serial < s.dash.allocated) (hnone : input.gained? = none)
    (htyped : input.Typed → ∀ r, rt = some r → Holds home s.log r) : (s.deliver A rt input).Good home := by
  cases rt with
  | none => exact h
  | some rt =>
    have htended : Tended home s.dash (⟨rt, input⟩ :: s.log) :=
      ⟨h.tended.marked.cons hnone, h.tended.allotted.cons (hserial rt rfl)⟩
    refine ⟨?_, h.orderly.cons hnone fun hinput => htyped hinput rt rfl⟩
    unfold Desk.deliver
    dsimp only
    split
    · exact htended.disconnectGroups _
    · exact htended

theorem Good.serial (h : s.Good home) {i : ℕ} {rt : WebAppRuntime} (hrt : s.dash.rtAt i = some rt) :
    rt.serial < s.dash.allocated := by
  rw [DashboardRuntime.rtAt_eq] at hrt
  obtain ⟨face, hface, hrt⟩ := Option.bind_eq_some_iff.mp hrt
  exact h.tended.allotted.faces face (List.mem_of_getElem? hface) rt hrt

theorem Good.holds (h : s.Good home) (hslot : 0 ≤ s.dash.focusedSlot) {rt : WebAppRuntime}
    (hrt : s.dash.rtAt s.dash.focusedSlot.toNat = some rt) : Holds home s.log rt := by
  rw [DashboardRuntime.rtAt_eq] at hrt
  obtain ⟨face, hface, hrt⟩ := Option.bind_eq_some_iff.mp hrt
  exact (h.tended.marked.holds _ face hface rt hrt).mpr (Int.toNat_of_nonneg hslot).symm

theorem Good.toFocused (h : s.Good home) (hnone : input.gained? = none) : (s.toFocused A input).Good home := by
  unfold Desk.toFocused
  split
  · next hslot => exact h.deliver (fun r hr => h.serial hr) hnone fun _ r hr => h.holds hslot hr
  · exact h

theorem Good.paste (h : s.Good home) (hslot : 0 ≤ s.dash.focusedSlot) (clipboard : List Byte) :
    (s.dashboardHandlePasteRequest A s.dash.focusedSlot.toNat clipboard).Good home := by
  unfold dashboardHandlePasteRequest
  dsimp only
  split
  · exact h
  · split
    · exact h
    · split
      · exact h
      · next rt hrt =>
        split
        · refine h.deliver ?_ rfl ?_
          · rintro r ⟨⟩
            exact h.serial hrt
          · rintro - r ⟨⟩
            exact h.holds hslot hrt
        · exact h

theorem Good.chars (h : s.Good home) {rt : WebAppRuntime} (hserial : rt.serial < s.dash.allocated)
    (hholds : Holds home s.log rt) (cps : List (BitVec 32)) : (s.chars A rt cps).Good home := by
  induction cps generalizing s with
  | nil => exact h
  | cons cp cps ih =>
    refine ih (h.deliver ?_ rfl ?_) ?_ ?_
    · rintro r ⟨⟩
      exact hserial
    · rintro - r ⟨⟩
      exact hholds
    · rw [deliver_allocated]
      exact hserial
    · exact (holds_cons_iff rfl).mpr hholds

theorem Good.congr (h : s.Good home) {d : DashboardRuntime} (hfaces : d.faces = s.dash.faces)
    (hfocused : d.focusedSlot = s.dash.focusedSlot) (hallocated : d.allocated = s.dash.allocated) :
    Good home { s with dash := d } := by
  obtain ⟨⟨hmarked, hallotted⟩, horderly⟩ := h
  refine ⟨⟨?_, ?_⟩, horderly⟩
  · rw [hfaces, hfocused]
    exact hmarked
  · rw [hfaces, hallocated]
    exact hallotted

theorem focusedSlot_visit (d : DashboardRuntime) (i : ℕ) (slot : WebAppSlot) (l : SlotLoop) :
    (d.visit i slot l).1.focusedSlot = d.focusedSlot := by
  cases l with
  | fullscreen slotIndex =>
    unfold DashboardRuntime.visit
    dsimp only
    split <;> rfl
  | _ => rfl

theorem Good.slotLoop (h : s.Good home) (l : SlotLoop) (hnone : input.gained? = none) (htyped : ¬ input.Typed)
    (slots i : ℕ) : (Desk.slotLoop A l input slots i s).Good home := by
  induction slots generalizing i s with
  | zero => exact h
  | succ slots ih =>
    unfold Desk.slotLoop
    split
    · exact h
    · next slot hslot =>
      have hallocated := (@DashboardRuntime.runtimes_visit s.dash i slot l).2
      refine ih (Good.deliver (h.congr (s.dash.faces_visit i slot l) (focusedSlot_visit s.dash i slot l) hallocated)
        (fun r hr => ?_) hnone fun hinput => absurd hinput htyped) (i + 1)
      have hrt : s.dash.rtAt i = some r := by
        rw [DashboardRuntime.rtAt, hslot]
        exact DashboardRuntime.rt_of_visit l hr
      rw [hallocated]
      exact h.serial hrt

end Calls

structure Between (home : WebAppRuntime → Prop) (s : Desk F) : Prop where
  bare : Bare home s.dash.faces s.log
  allotted : Allotted home s.dash.faces s.dash.allocated s.log
  orderly : Orderly home s.log

section Focus

theorem slotAt_eq_some {d : DashboardRuntime} {slotIndex : ℤ} {k : ℕ} (h : d.slotAt slotIndex = some k) :
    slotIndex = k ∧ k < d.slots.length := by
  unfold DashboardRuntime.slotAt at h
  split at h
  · next hslot =>
    obtain rfl := Option.some.inj h
    have htoNat := Int.toNat_of_nonneg hslot.1
    refine ⟨htoNat.symm, ?_⟩
    omega
  · cases h

theorem slotAt_eq_none {d : DashboardRuntime} {slotIndex : ℤ} (h : d.slotAt slotIndex = none)
    (hrange : slotIndex < d.slots.length) : slotIndex < 0 := by
  unfold DashboardRuntime.slotAt at h
  split at h
  · cases h
  · omega

theorem exists_face {d : DashboardRuntime} {k : ℕ} (hk : k < d.slots.length) :
    ∃ face, d.faces[k]? = some face ∧ d.rtAt k = face.rt := by
  rw [← d.length_faces] at hk
  refine ⟨_, List.getElem?_eq_getElem hk, ?_⟩
  rw [DashboardRuntime.rtAt_eq, List.getElem?_eq_getElem hk]
  rfl

theorem allotted_notified {faces : List Face} {allocated k : ℕ} {log : List (Delivery F)} {face : Face}
    (h : Allotted home faces allocated log) (hk : faces[k]? = some face) (focused : Bool) :
    Allotted home (faces.modify k fun face => { face with focused }) allocated (notified face.rt focused log) := by
  have hfocus := h.focus k focused
  cases hrt : face.rt with
  | none => exact hfocus
  | some rt => exact hfocus.cons (h.faces face (List.mem_of_getElem? hk) rt hrt)

theorem orderly_notified {rt : Option WebAppRuntime} {gained : Bool} {log : List (Delivery F)}
    (h : Orderly home log) (hgain : gained = true → ∀ r, rt = some r → told r log ≠ some true)
    (hlose : gained = false → ∀ r, rt = some r → Holds home log r) : Orderly home (notified rt gained log) := by
  cases rt with
  | none => exact h
  | some rt =>
    refine ⟨h, fun hgained => hgain (Option.some.inj hgained) rt rfl, ?_⟩
    rintro (hgained | htyped)
    · exact hlose (Option.some.inj hgained) rt rfl
    · exact htyped.elim

theorem Good.unfocus (h : s.Good home) (hcalm : A.Calm) {k : ℕ} (hk : s.dash.slotAt s.dash.focusedSlot = some k) :
    Between home (Desk.deliver A { s with dash := s.dash.setFocused k false } (s.dash.rtAt k) (.focus false)) ∧
      (Desk.deliver A { s with dash := s.dash.setFocused k false } (s.dash.rtAt k) (.focus false)).dash.slots.length =
        s.dash.slots.length := by
  obtain ⟨hfocused, hlt⟩ := slotAt_eq_some hk
  obtain ⟨face, hface, hrt⟩ := exists_face hlt
  have hdesk : Desk.deliver A { s with dash := s.dash.setFocused k false } (s.dash.rtAt k) (.focus false) =
      ⟨s.dash.setFocused k false, notified face.rt false s.log⟩ := by
    rw [hrt]
    cases face.rt with
    | none => rfl
    | some rt =>
      unfold Desk.deliver
      dsimp only
      split
      · next hdashboard =>
        rw [hcalm rt s.log hdashboard]
        rfl
      · rfl
  rw [hdesk]
  refine ⟨⟨?_, ?_, ?_⟩, List.length_modify ..⟩
  · rw [DashboardRuntime.faces_setFocused]
    exact h.tended.marked.unfocus h.tended.allotted hfocused hface
  · rw [DashboardRuntime.faces_setFocused]
    exact allotted_notified h.tended.allotted hface false
  · refine orderly_notified h.orderly (fun hgained => Bool.noConfusion hgained) fun _ r hr => ?_
    exact (h.tended.marked.holds k face hface r hr).mpr hfocused

theorem Between.focusNew (h : Between home s) {slotIndex : ℤ} (hrange : slotIndex < s.dash.slots.length) :
    (s.focusNew A slotIndex).Good home := by
  unfold Desk.focusNew
  dsimp only
  split
  · next hnone =>
    exact ⟨⟨h.bare.unmarked (slotAt_eq_none hnone hrange), h.allotted⟩, h.orderly⟩
  · next k hk =>
    obtain ⟨hslot, hlt⟩ := slotAt_eq_some hk
    obtain ⟨face, hface, hrt⟩ := exists_face hlt
    have htended : Tended home (({ s.dash with focusedSlot := slotIndex } : DashboardRuntime).setFocused k true)
        (notified face.rt true s.log) := by
      constructor
      · rw [DashboardRuntime.faces_setFocused]
        change Marked home _ slotIndex _
        rw [hslot]
        exact h.bare.focus h.allotted hface
      · rw [DashboardRuntime.faces_setFocused]
        exact allotted_notified h.allotted hface true
    have horderly : Orderly home (notified face.rt true s.log) := by
      refine orderly_notified h.orderly (fun _ r hr => ?_) fun hgained => Bool.noConfusion hgained
      exact h.bare.told_ne (List.mem_of_getElem? hface) hr
    rw [hrt]
    revert htended horderly
    cases face.rt with
    | none => exact fun htended horderly => ⟨htended, horderly⟩
    | some rt =>
      intro htended horderly
      refine ⟨?_, horderly⟩
      unfold Desk.deliver
      dsimp only
      split
      · exact htended.disconnectGroups _
      · exact htended

theorem Good.setFocus (h : s.Good home) (hcalm : A.Calm) {slotIndex : ℤ} (hrange : slotIndex < s.dash.slots.length) :
    (s.setFocus A slotIndex).Good home := by
  unfold Desk.setFocus
  split
  · exact h
  · dsimp only
    split
    · next hnone =>
      have hslots := h.tended.marked.range
      rw [DashboardRuntime.length_faces] at hslots
      exact Between.focusNew
        ⟨h.tended.marked.bare (slotAt_eq_none hnone hslots), h.tended.allotted, h.orderly⟩ hrange
    · next k hk =>
      obtain ⟨hbetween, hlength⟩ := h.unfocus hcalm hk
      exact hbetween.focusNew (by rw [hlength]; exact hrange)

end Focus

section Events

variable {P : Positions F}

theorem Good.toSlot (h : s.Good home) (slotIndex : ℤ) (x y : F) (make : F → F → Input F)
    (hmake : ∀ x y, (make x y).gained? = none ∧ ¬ (make x y).Typed) : (s.toSlot A P slotIndex x y make).Good home := by
  unfold Desk.toSlot
  split
  · split
    · exact h
    · next slot hslot =>
      refine h.deliver (fun r hr => ?_) (hmake _ _).1 fun htyped => absurd htyped (hmake _ _).2
      refine h.serial (i := slotIndex.toNat) ?_
      rw [DashboardRuntime.rtAt, hslot]
      exact hr
  · exact h

variable [LinearOrder F]

theorem hitTestSlot_lt (P : Positions F) (d : DashboardRuntime) (x y : F) :
    hitTestSlot P d x y < d.slots.length := by
  unfold hitTestSlot
  split
  · omega
  · next i hi => exact Int.ofNat_lt.mpr (List.findIdx?_eq_some_iff_getElem.mp hi).1

theorem Good.dispatchEvent (h : s.Good home) (hcalm : A.Calm) (e : WindowEvent F) :
    (s.dashboardDispatchEvent A P e).Good home := by
  have hframe : ∀ s : Desk F, s.Good home → ∀ begun, (s.dashboardFrame A begun).Good home := by
    intro s hs begun
    unfold dashboardFrame
    split
    · exact hs.slotLoop .frame rfl id _ 0
    · exact hs
  cases e with
  | resized ww wh begun =>
    apply hframe
    unfold dashboardLayoutRecalc
    dsimp only
    split
    · exact h
    · exact h.slotLoop _ rfl id _ 0
  | exposed begun => exact hframe s h begun
  | focusGained => exact h
  | focusLost => exact h.setFocus hcalm (by omega)
  | keyDown scancode key mod clipboard =>
    have hkey : (s.toFocused A (.key scancode key mod true)).Good home := h.toFocused rfl
    unfold dashboardDispatchEvent
    dsimp only
    split
    · next hpaste => exact hkey.paste hpaste.2.2 clipboard
    · exact hkey
  | keyUp => exact h.toFocused rfl
  | textInput text =>
    rw [dashboardDispatchEvent]
    split
    · exact h
    · next hslot =>
      split
      · exact h
      · next rt hrt => exact h.chars (h.serial hrt) (h.holds (not_lt.mp hslot) hrt) _
  | mouseButtonDown button x y =>
    exact (h.setFocus hcalm (hitTestSlot_lt P s.dash x y)).toSlot _ x y (.mouseButton button true) fun _ _ => ⟨rfl, id⟩
  | mouseButtonUp button x y => exact h.toSlot _ x y (.mouseButton button false) fun _ _ => ⟨rfl, id⟩
  | mouseMotion x y xrel yrel state =>
    exact h.toSlot _ x y (fun x y => .mouseMotion x y xrel yrel state) fun _ _ => ⟨rfl, id⟩
  | mouseWheel => exact h.toFocused rfl
  | finger => exact h.toFocused rfl
  | device => exact h.toFocused rfl

end Events

section Slots

theorem slots_deliver (rt : Option WebAppRuntime) :
    ((s.deliver A rt input).dash.slots).Sublist s.dash.slots := by
  have hclose : ∀ (groups : List (BitVec 32)) (d : DashboardRuntime),
      ((groups.foldl DashboardRuntime.dashboardDisconnectGroup d).slots).Sublist d.slots := by
    intro groups
    induction groups with
    | nil => exact fun d => .refl _
    | cons groupIndex groups ih => exact fun d => (ih _).trans (Storage.disconnectGroup_eq d groupIndex).1
  cases rt with
  | none => exact .refl _
  | some rt =>
    unfold Desk.deliver
    dsimp only
    split
    · exact hclose _ _
    · exact .refl _

theorem Good.append (h : s.Good home) {slot : WebAppSlot} (hflag : slot.focused = false)
    (hnew : ∀ rt, slot.rt = some rt → rt.serial < s.dash.allocated ∧ ¬ Holds home s.log rt ∧
      ∀ slot' ∈ s.dash.slots, slot'.rt ≠ some rt) :
    Good home { s with dash := { s.dash with slots := s.dash.slots ++ [slot] } } := by
  have hfaces : ({ s.dash with slots := s.dash.slots ++ [slot] } : DashboardRuntime).faces =
      s.dash.faces ++ [⟨slot.rt, slot.focused⟩] := List.map_append
  refine ⟨⟨?_, ?_⟩, h.orderly⟩
  · rw [hfaces]
    exact h.tended.marked.append hflag fun rt hrt => (hnew rt hrt).2.1
  · rw [hfaces]
    refine h.tended.allotted.append (fun rt hrt => (hnew rt hrt).1) fun rt hrt face hface => ?_
    obtain ⟨slot', hslot', rfl⟩ := List.mem_map.mp hface
    exact (hnew rt hrt).2.2 slot' hslot'

theorem Good.addSlot (h : s.Good home) (dataDir : List Byte) (groupIndex : BitVec 32) (wasmPath : List Byte)
    (vp : WebAppViewport) (isDashboard : Bool) (a : Attempt) :
    (s.dashboardAddSlot A dataDir groupIndex wasmPath vp isDashboard a).Good home := by
  unfold Desk.dashboardAddSlot
  obtain ⟨_, heq⟩ | ⟨_, allocated, hle, heq⟩ :=
    @Storage.dashboardAddSlot_eq dataDir s.dash groupIndex wasmPath vp isDashboard a
  · simp only [heq, List.getElem?_concat_length]
    have hnew : s.dash.allocated < s.dash.allocated + 1 := Nat.lt_succ_self _
    have hgood : Good home { s with dash := { s.dash with allocated := s.dash.allocated + 1 } } :=
      ⟨⟨h.tended.marked, h.tended.allotted.mono hnew.le⟩, h.orderly⟩
    have hcall : ∀ s' : Desk F, s'.Good home → s'.dash.allocated = s.dash.allocated + 1 → ∀ input : Input F,
        input.gained? = none → ¬ input.Typed →
        (s'.deliver A (s.dash.newSlot dataDir groupIndex wasmPath vp isDashboard).rt input).Good home := by
      intro s' hs' hallocated input hnone htyped
      refine hs'.deliver ?_ hnone fun hinput => absurd hinput htyped
      rintro r ⟨⟩
      rw [hallocated]
      exact hnew
    have hinit := hcall _ hgood rfl .init rfl id
    have hresize := hcall _ hinit (deliver_allocated _) (.resize vp.w vp.h) rfl id
    refine hresize.append ?_ ?_
    · split <;> rfl
    · intro rt hrt
      split at hrt
      · obtain rfl := Option.some.inj hrt
        refine ⟨?_, ?_, fun slot' hslot' hrt' => ?_⟩
        · rw [deliver_allocated, deliver_allocated]
          exact hnew
        · refine fun hholds => ?_
          obtain htold | ⟨-, hhome⟩ := (holds_cons_iff rfl).mp ((holds_cons_iff rfl).mp hholds)
          · rw [told_of_fresh fun d hd heq => ?_] at htold
            · cases htold
            · have hserial := h.tended.allotted.log d hd
              rw [heq] at hserial
              exact Nat.lt_irrefl _ hserial
          · exact Nat.lt_irrefl _ (h.tended.allotted.home _ hhome)
        · have hmem := ((slots_deliver _).trans (slots_deliver _)).subset hslot'
          exact Nat.lt_irrefl _ (h.tended.allotted.faces _ (List.mem_map_of_mem hmem) _ hrt')
      · cases hrt
  · simp only [heq, List.getElem?_eq_none le_rfl]
    exact ⟨⟨h.tended.marked, h.tended.allotted.mono hle⟩, h.orderly⟩

theorem Good.next [LinearOrder F] {P : Positions F} (h : s.Good home) (hcalm : A.Calm) (e : DeskEvent F) :
    (s.next A P e).Good home := by
  cases e with
  | window e => exact h.dispatchEvent hcalm e
  | addSlot dataDir groupIndex wasmPath vp isDashboard a =>
    exact h.addSlot dataDir groupIndex wasmPath vp isDashboard a
  | groupClose groupIndex => exact ⟨h.tended.disconnectGroup groupIndex, h.orderly⟩

theorem good_sole {groups : List DashboardGroup} {slot : WebAppSlot} {foregroundGroup : BitVec 32} {allocated : ℕ}
    {log : List (Delivery F)} {rt : WebAppRuntime} (hrt : slot.rt = some rt) (hflag : slot.focused = false)
    (hserial : rt.serial < allocated) (hlog : ∀ d ∈ log, d.rt = rt) (hnone : told rt log = none)
    (horderly : Orderly home log) (hhome : ∀ rt', home rt' ↔ rt' = rt) :
    Good home ⟨⟨groups, [slot], 0, foregroundGroup, allocated⟩, log⟩ := by
  have hfaces : (⟨groups, [slot], 0, foregroundGroup, allocated⟩ : DashboardRuntime).faces = [⟨some rt, false⟩] := by
    rw [DashboardRuntime.faces, List.map_singleton, hrt, hflag]
  refine ⟨⟨?_, ?_⟩, horderly⟩
  · rw [hfaces]
    refine ⟨Int.zero_lt_one, fun i face hi hmarked => ?_, fun face hface rt' hrt' => ?_, fun i face hi rt' hrt' => ?_⟩
    · obtain rfl := List.mem_singleton.mp (List.mem_of_getElem? hi)
      cases hmarked
    · obtain rfl := List.mem_singleton.mp hface
      obtain rfl := Option.some.inj hrt'
      rw [hnone]
      exact iff_of_false Bool.noConfusion nofun
    · obtain rfl := List.mem_singleton.mp (List.mem_of_getElem? hi)
      obtain rfl := Option.some.inj hrt'
      obtain rfl : i = 0 := Nat.lt_one_iff.mp (List.getElem?_eq_some_iff.mp hi).1
      exact iff_of_true (.inr ⟨hnone, (hhome _).mpr rfl⟩) rfl
  · rw [hfaces]
    refine ⟨List.pairwise_singleton _ _, fun face hface rt' hrt' => ?_, fun d hd => ?_, fun rt' hrt' => ?_⟩
    · obtain rfl := List.mem_singleton.mp hface
      obtain rfl := Option.some.inj hrt'
      exact hserial
    · rw [hlog d hd]
      exact hserial
    · rw [(hhome rt').mp hrt']
      exact hserial

theorem good_nobody {groups : List DashboardGroup} {foregroundGroup : BitVec 32} {allocated : ℕ}
    (hhome : ∀ rt, ¬ home rt) : Good home (⟨⟨groups, [], -1, foregroundGroup, allocated⟩, []⟩ : Desk F) := by
  refine ⟨⟨⟨Int.negSucc_lt_zero 0, nofun, nofun, nofun⟩, ⟨.nil, nofun, nofun, fun rt hrt => ?_⟩⟩, trivial⟩
  exact absurd hrt (hhome rt)

end Slots

section Runs

variable (A) (P : Positions F) (groups : List DashboardGroup) (dataDir wasmPath : List Byte) (vp : WebAppViewport)
  (a : Attempt)

/-- The web app that `main` gives the focus to. -/
def Chosen (rt : WebAppRuntime) : Prop :=
  ∃ slot ∈ (started A groups dataDir wasmPath vp a).dash.slots, slot.rt = some rt

/-- What the main loop can do from where `main` starts. -/
def deskSystem [LinearOrder F] : System (Desk F) (DeskEvent F) :=
  System.machine (started A groups dataDir wasmPath vp a) (fun _ _ => True) fun s => next A P s

theorem good_started :
    (started A groups dataDir wasmPath vp a).Good (Chosen A groups dataDir wasmPath vp a) := by
  obtain ⟨_, heq⟩ | ⟨_, allocated, hle, heq⟩ :=
    @Storage.dashboardAddSlot_eq dataDir ⟨groups, [], -1, 0xffffffff, 0⟩ 0 wasmPath vp false a
  · obtain ⟨rt, slot, hrt, hserial, hflag, hstarted⟩ : ∃ rt slot, slot.rt = some rt ∧ rt.serial = 0 ∧
        slot.focused = false ∧ started A groups dataDir wasmPath vp a =
          ⟨⟨groups, [slot], 0, 0xffffffff, 1⟩, [⟨rt, .resize vp.w vp.h⟩, ⟨rt, .init⟩]⟩ := by
      refine ⟨_, DashboardRuntime.newSlot ⟨groups, [], -1, 0xffffffff, 0⟩ dataDir 0 wasmPath vp false, rfl, rfl, rfl,
        ?_⟩
      unfold started Desk.dashboardAddSlot
      simp only [heq, List.getElem?_concat_length]
      rfl
    have hchosen : ∀ rt', Chosen A groups dataDir wasmPath vp a rt' ↔ rt' = rt := by
      intro rt'
      unfold Chosen
      rw [hstarted]
      constructor
      · rintro ⟨slot', hslot', hrt'⟩
        rw [List.mem_singleton.mp hslot', hrt] at hrt'
        exact (Option.some.inj hrt').symm
      · rintro rfl
        exact ⟨slot, List.mem_singleton_self _, hrt⟩
    have hserial' : rt.serial < 1 := by
      rw [hserial]
      exact Nat.zero_lt_one
    rw [hstarted]
    refine good_sole hrt hflag hserial' (fun d hd => ?_) ?_ ?_ hchosen
    · obtain rfl | hd := List.mem_cons.mp hd
      · rfl
      · rw [List.mem_singleton.mp hd]
    · exact (told_cons_of_none rfl).trans (told_cons_of_none rfl)
    · exact (Orderly.cons (Orderly.cons trivial rfl False.elim) rfl False.elim)
  · have hstarted : started A groups dataDir wasmPath vp a = ⟨⟨groups, [], -1, 0xffffffff, allocated⟩, []⟩ := by
      unfold started Desk.dashboardAddSlot
      simp only [heq, List.getElem?_eq_none le_rfl]
      rfl
    have hnone : ∀ rt, ¬ Chosen A groups dataDir wasmPath vp a rt := by
      rintro rt ⟨slot, hslot, -⟩
      rw [hstarted] at hslot
      exact List.not_mem_nil hslot
    revert hnone
    rw [hstarted]
    exact good_nobody

/-- In every run each web app gains and loses the focus in turn and is typed to while it has it; and of those that are
there, the one in the slot that has the focus is the one that takes itself to have it. -/
theorem focus_follows [LinearOrder F] {A : Apps F} {P : Positions F} (hcalm : A.Calm) {groups : List DashboardGroup}
    {dataDir wasmPath : List Byte} {vp : WebAppViewport} {a : Attempt} {s : Desk F}
    (h : (deskSystem A P groups dataDir wasmPath vp a).Reachable s) :
    Orderly (Chosen A groups dataDir wasmPath vp a) s.log ∧
      ∀ i slot rt, s.dash.slots[i]? = some slot → slot.rt = some rt →
        (slot.focused = true ↔ told rt s.log = some true) ∧
          (Holds (Chosen A groups dataDir wasmPath vp a) s.log rt ↔ s.dash.focusedSlot = (i : ℕ)) := by
  have hgood : s.Good (Chosen A groups dataDir wasmPath vp a) := by
    refine System.Reachable.invariant (S := deskSystem A P groups dataDir wasmPath vp a) ?_ ?_ h
    · rintro s rfl
      exact good_started A groups dataDir wasmPath vp a
    · rintro s e t - hs ⟨-, rfl⟩
      exact hs.next hcalm e
  refine ⟨hgood.orderly, fun i slot rt hslot hrt => ?_⟩
  have hface : s.dash.faces[i]? = some ⟨slot.rt, slot.focused⟩ := by
    rw [DashboardRuntime.faces_getElem?, hslot]
    rfl
  exact ⟨hgood.tended.marked.told _ (List.mem_of_getElem? hface) rt hrt,
    hgood.tended.marked.holds i _ hface rt hrt⟩

end Runs

section Sample

def plainApps : Apps ℤ := ⟨fun _ => [], fun _ _ _ => true⟩

def pixels : Positions ℤ := ⟨id, Int.sub⟩

def granted : Attempt := ⟨true, true, true, true, true⟩

def typedRun : Desk ℤ :=
  [DeskEvent.window (.keyDown 4 97 0 []), .window (.mouseButtonDown 1 700 20)].foldl (fun s => next plainApps pixels s)
    (started plainApps [⟨true, .connected, false⟩] [] [97] ⟨0, 0, 640, 480⟩ granted)

theorem typedRun_reachable :
    (deskSystem plainApps pixels [⟨true, .connected, false⟩] [] [97] ⟨0, 0, 640, 480⟩ granted).Reachable typedRun :=
  System.reachable_foldl _ ⟨trivial, trivial, trivial⟩

theorem focus_follows_typed :
    Orderly (Chosen plainApps [⟨true, .connected, false⟩] [] [97] ⟨0, 0, 640, 480⟩ granted) typedRun.log ∧
      ∀ i slot rt, typedRun.dash.slots[i]? = some slot → slot.rt = some rt →
        (slot.focused = true ↔ told rt typedRun.log = some true) ∧
          (Holds (Chosen plainApps [⟨true, .connected, false⟩] [] [97] ⟨0, 0, 640, 480⟩ granted) typedRun.log rt ↔
            typedRun.dash.focusedSlot = (i : ℕ)) :=
  focus_follows (fun _ _ _ => rfl) typedRun_reachable

end Sample

end Desk

end YumiBrowser.Dashboard
