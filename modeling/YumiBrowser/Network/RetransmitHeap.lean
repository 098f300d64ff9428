import Mathlib.Data.List.Perm.Basic
import YumiBrowser.Library.HeapOrder
import YumiBrowser.Network.ReliableSend

namespace YumiBrowser.Udp

open HeapOrder

namespace RetxHeap

variable {h : RetxHeap} {i j depth : ℕ} {e : RetxEntry}

/-- The nodes are ordered by their expiry. -/
def Ordered (h : RetxHeap) : Prop := IsHeap h.expiryAt h.size

theorem expiryAt_swap (hi : i < h.size) (hj : j < h.size) :
    expiryAt (h.swapIfInBounds i j) = h.expiryAt ∘ Equiv.swap i j := by
  funext k
  have hswap : h.swapIfInBounds i j = h.swap i j hi hj := by
    simp [Array.swapIfInBounds, hi, hj]
  simp only [expiryAt, Function.comp_apply, hswap, Array.getElem?_swap]
  by_cases hkj : k = j
  · simp [hkj, hi]
  · by_cases hki : k = i
    · have hij : j ≠ i := fun heq => hkj (hki.trans heq.symm)
      simp [hki, hj, hij]
    · rw [Equiv.swap_apply_of_ne_of_ne hki hkj, if_neg (Ne.symm hkj), if_neg (Ne.symm hki)]

theorem perm_swapIfInBounds : (h.swapIfInBounds i j).Perm h := by
  unfold Array.swapIfInBounds
  split
  · split
    · exact Array.swap_perm _ _
    · exact .refl _
  · exact .refl _

section Up

theorem perm_siftUp (depth : ℕ) (h : RetxHeap) (i : ℕ) : (siftUp depth h i).Perm h := by
  induction depth generalizing h i with
  | zero => exact .refl _
  | succ depth ih =>
    unfold siftUp
    split
    · exact .refl _
    · split
      · exact .refl _
      · exact (ih _ _).trans perm_swapIfInBounds

theorem ordered_siftUp (hrising : HeapOrder.Rising h.expiryAt h.size i) (hi : i < h.size) (hdepth : i < depth) :
    (siftUp depth h i).Ordered := by
  induction depth generalizing h i with
  | zero => exact absurd hdepth (Nat.not_lt_zero _)
  | succ depth ih =>
    unfold siftUp
    split
    · next hzero =>
      subst hzero
      exact hrising.isHeap fun hpos => absurd hpos (Nat.lt_irrefl 0)
    · next hzero =>
      have hpos := Nat.pos_of_ne_zero hzero
      have hparent : (i - 1) / 2 < i := by omega
      split
      · next hle => exact hrising.isHeap fun _ => hle
      · next hlt =>
        have hsize : (h.swapIfInBounds ((i - 1) / 2) i).size = h.size := Array.size_swapIfInBounds
        have hmoved := hrising.swap hpos hi (Nat.lt_of_not_le hlt)
        rw [← expiryAt_swap (hparent.trans hi) hi] at hmoved
        exact ih (hsize ▸ hmoved) (hsize ▸ hparent.trans hi) (by omega)

theorem perm_insert (h : RetxHeap) (e : RetxEntry) : (h.insert e).Perm (h.push e) := perm_siftUp _ _ _

theorem ordered_insert (hh : h.Ordered) (e : RetxEntry) : (h.insert e).Ordered := by
  have hsize : (h.push e).size = h.size + 1 := Array.size_push ..
  have hsame : ∀ k < h.size, expiryAt (h.push e) k = h.expiryAt k := by
    intro k hk
    simp [expiryAt, Array.getElem?_push, hk.ne]
  refine ordered_siftUp ?_ (by omega) (by omega)
  rw [hsize]
  exact hh.rising hsame

end Up

section Down

theorem perm_siftDown (depth : ℕ) (h : RetxHeap) (i : ℕ) : (siftDown depth h i).Perm h := by
  induction depth generalizing h i with
  | zero => exact .refl _
  | succ depth ih =>
    unfold siftDown
    dsimp only
    split
    · exact .refl _
    · exact (ih _ _).trans perm_swapIfInBounds

theorem smallerOf_least (h : RetxHeap) (i : ℕ) :
    ∃ s, h.smallerOf (2 * i + 2) (h.smallerOf (2 * i + 1) i) = s ∧
      (s = i ∨ (s = 2 * i + 1 ∨ s = 2 * i + 2) ∧ s < h.size ∧ h.expiryAt s < h.expiryAt i) ∧
      ∀ j, 0 < j → j < h.size → (j - 1) / 2 = i → h.expiryAt s ≤ h.expiryAt j := by
  refine ⟨_, rfl, ?_, ?_⟩
  · unfold smallerOf
    split <;> split at * <;> omega
  · intro j hpos hj hparent
    have hchild : j = 2 * i + 1 ∨ j = 2 * i + 2 := by omega
    unfold smallerOf
    rcases hchild with rfl | rfl
    · split <;> split at * <;> omega
    · split <;> split at * <;> omega

theorem ordered_siftDown (hsinking : Sinking h.expiryAt h.size i) (hdepth : h.size ≤ i + depth) :
    (siftDown depth h i).Ordered := by
  induction depth generalizing h i with
  | zero => exact hsinking.isHeap fun j _ hj hparent => absurd hj (by omega)
  | succ depth ih =>
    obtain ⟨s, hs, hcase, hleast⟩ := smallerOf_least h i
    unfold siftDown
    rw [hs]
    dsimp only
    split
    · next hsi => exact hsinking.isHeap fun j hpos hj hparent => hsi ▸ hleast j hpos hj hparent
    · next hsi =>
      obtain ⟨hchild, hlt, hsmaller⟩ := hcase.resolve_left hsi
      have hsize : (h.swapIfInBounds s i).size = h.size := Array.size_swapIfInBounds
      have hmoved := hsinking.swap (by omega) hlt (by omega) hsmaller hleast
      rw [← expiryAt_swap hlt (by omega)] at hmoved
      exact ih (hsize ▸ hmoved) (by omega)

theorem perm_replaceTop {top last : RetxEntry} (htop : h[0]? = some top) (hlast : h.back? = some last) :
    ((h.pop.setIfInBounds 0 last).push top).Perm h := by
  obtain ⟨xs⟩ := h
  rw [Array.perm_iff_toList_perm]
  cases xs with
  | nil => simp at htop
  | cons x rest =>
    obtain rfl : x = top := by simpa using htop
    rcases List.eq_nil_or_concat rest with rfl | ⟨mid, y, rfl⟩
    · simp
    · rw [List.concat_eq_append, ← List.cons_append] at hlast ⊢
      have hgetLast : (x :: mid ++ [y]).getLast? = some last := by simpa using hlast
      rw [List.getLast?_concat] at hgetLast
      obtain rfl := Option.some.inj hgetLast
      have hset : ((Array.mk (x :: mid ++ [y])).pop.setIfInBounds 0 y).toList = y :: mid := by
        rw [Array.toList_setIfInBounds, Array.toList_pop, List.dropLast_concat, List.set_cons_zero]
      rw [Array.toList_push, hset]
      apply (List.perm_append_singleton x (y :: mid)).trans
      exact (List.perm_append_singleton y mid).symm.cons x

theorem ordered_removeTop (hh : h.Ordered) : h.removeTop.Ordered := by
  unfold removeTop
  split
  · exact hh
  · next last _ =>
    have hsize : (h.pop.setIfInBounds 0 last).size = h.size - 1 := by simp
    refine ordered_siftDown ?_ (by omega)
    rw [hsize]
    refine hh.sinking (Nat.sub_le _ _) fun k hpos hk => ?_
    have hlt : k < h.size := by omega
    simp [expiryAt, hpos.ne, hk, hlt]

theorem perm_removeTop {top : RetxEntry} (htop : h[0]? = some top) : (h.removeTop.push top).Perm h := by
  unfold removeTop
  split
  · next hnone =>
    rw [Array.back?_eq_none_iff] at hnone
    subst hnone
    simp at htop
  · next last hlast => exact ((perm_siftDown _ _ _).push top).trans (perm_replaceTop htop hlast)

end Down

section Nodes

variable {top node : RetxEntry}

theorem mem_insert : node ∈ h.insert e ↔ node ∈ h ∨ node = e := by
  rw [(h.perm_insert e).mem_iff, Array.mem_push]

theorem mem_removeTop (htop : h[0]? = some top) : node ∈ h ↔ node ∈ h.removeTop ∨ node = top := by
  rw [← (h.perm_removeTop htop).mem_iff, Array.mem_push]

def dueBy (h : RetxHeap) (time : ℕ) : ℕ := h.countP fun node => node.expiry ≤ time

theorem dueBy_perm {h' : RetxHeap} (hperm : h.Perm h') (time : ℕ) : h.dueBy time = h'.dueBy time := by
  rw [dueBy, dueBy, ← Array.countP_toList, ← Array.countP_toList]
  exact (Array.perm_iff_toList_perm.mp hperm).countP_eq _

theorem dueBy_push (time : ℕ) :
    dueBy (h.push e) time = h.dueBy time + if e.expiry ≤ time then 1 else 0 := by
  simp [dueBy, Array.countP_push]

theorem dueBy_insert (time : ℕ) :
    (h.insert e).dueBy time = h.dueBy time + if e.expiry ≤ time then 1 else 0 := by
  rw [dueBy_perm (h.perm_insert e), dueBy_push]

theorem dueBy_removeTop (htop : h[0]? = some top) (time : ℕ) :
    h.dueBy time = h.removeTop.dueBy time + if top.expiry ≤ time then 1 else 0 := by
  rw [← dueBy_perm (h.perm_removeTop htop), dueBy_push]

theorem Ordered.dueBy_eq_zero (hh : h.Ordered) {time : ℕ}
    (htop : ∀ top, h[0]? = some top → time < top.expiry) : h.dueBy time = 0 := by
  have hall : ∀ node ∈ h, time < node.expiry := by
    intro node hnode
    obtain ⟨i, hi, rfl⟩ := Array.getElem_of_mem hnode
    have hpos : 0 < h.size := by omega
    have hroot := hh.root_le hi
    have hzero := htop h[0] (by simp)
    simp only [expiryAt, Array.getElem?_eq_getElem hi, Array.getElem?_eq_getElem hpos, Option.map_some,
      Option.getD_some] at hroot
    omega
  rw [dueBy, Array.countP_eq_zero]
  intro node hnode
  simpa using hall node hnode

end Nodes

end RetxHeap

end YumiBrowser.Udp
