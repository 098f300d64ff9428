import YumiBrowser.Network.WorkRing

universe u v

namespace YumiBrowser.Udp

variable {ι : Type v} {α : Type u}

theorem slot_inj {t a b : ℕ} (hta : t ≤ a) (ha : a < t + ringCapacity) (htb : t ≤ b) (hb : b < t + ringCapacity)
    (h : a % ringCapacity = b % ringCapacity) : a = b := by
  unfold ringCapacity at *
  omega

namespace WorkRing

variable {s : WorkRing ι α} {i : ι} {p : Producer α} {op : RingOp α} {idx n : ℕ} {w : Bool} {seen : BitVec 64}

def Fits (s : WorkRing ι α) : Consumer → Prop
  | .idle => s.consumed.length = s.tail.toNat
  | .sawTail _ tail => tail = s.tail ∧ s.consumed.length = s.tail.toNat
  | .sawHead _ tail => tail = s.tail ∧ s.consumed.length = s.tail.toNat ∧ s.tail.toNat < s.reserved
  | .found _ tail => tail = s.tail ∧ s.consumed.length = s.tail.toNat ∧ (s.committed s.tail.toNat).isSome
  | .taking tail => tail = s.tail ∧ s.consumed.length = s.tail.toNat + 1
  | .cleared tail =>
    tail = s.tail ∧ s.consumed.length = s.tail.toNat + 1 ∧ s.ready (s.tail.toNat % ringCapacity) = false

structure Inv (s : WorkRing ι α) : Prop where
  head : s.head.toNat = s.reserved
  tail : s.tail.toNat ≤ s.reserved
  room : s.reserved ≤ s.tail.toNat + ringCapacity
  sawHead : ∀ i op seen, s.producers i = .sawHead op seen → seen.toNat ≤ s.reserved
  sawRoom : ∀ i op seen, s.producers i = .sawRoom op seen → seen.toNat ≤ s.reserved ∧
    (seen.toNat = s.reserved → s.reserved < s.tail.toNat + ringCapacity)
  holding : ∀ i op idx n w, s.producers i = .holding op idx n w → idx = n % ringCapacity ∧
    s.tail.toNat ≤ n ∧ n < s.reserved ∧ s.committed n = none
  apart : ∀ i j op op' idx idx' n w w', s.producers i = .holding op idx n w →
    s.producers j = .holding op' idx' n w' → i = j
  unready : ∀ n, s.tail.toNat ≤ n → n < s.tail.toNat + ringCapacity → s.committed n = none →
    s.ready (n % ringCapacity) = false
  slots : ∀ n x, s.tail.toNat ≤ n → s.committed n = some x → s.slots (n % ringCapacity) = x
  ready : ∀ n x, s.tail.toNat ≤ n → s.committed n = some x →
    s.ready (n % ringCapacity) = true ∨ ∃ tail, s.consumer = .cleared tail ∧ n = s.tail.toNat
  unknown : ∀ n, s.reserved ≤ n → s.committed n = none
  contents : ∀ n x, s.consumed[n]? = some x → s.committed n = some x
  consumer : s.Fits s.consumer

theorem inv_create (blank : α) : (create blank : WorkRing ι α).Inv where
  head := rfl
  tail := Nat.le_refl 0
  room := Nat.zero_le _
  sawHead i op seen h := by simp [create] at h
  sawRoom i op seen h := by simp [create] at h
  holding i op idx n w h := by simp [create] at h
  apart i j op op' idx idx' n w w' h := by simp [create] at h
  unready _ _ _ _ := rfl
  slots n x _ h := by simp [create] at h
  ready n x _ h := by simp [create] at h
  unknown _ _ := rfl
  contents n x h := by simp [create] at h
  consumer := rfl

namespace Inv

theorem lt_window (h : s.Inv) (hn : s.committed n = some x) : n < s.tail.toNat + ringCapacity := by
  have hlt : n < s.reserved := by
    by_contra hge
    simp [h.unknown n (Nat.le_of_not_lt hge)] at hn
  exact Nat.lt_of_lt_of_le hlt h.room

theorem setConsumer (h : s.Inv) {c : Consumer} (hfits : s.Fits c)
    (hcleared : ∀ tail, s.consumer ≠ .cleared tail) : (s.setConsumer c).Inv :=
  { h with
    ready := fun n x hn hx => by
      refine Or.inl ((h.ready n x hn hx).resolve_right ?_)
      rintro ⟨tail, hc, _⟩
      exact hcleared tail hc
    consumer := by
      cases c <;> exact hfits }

theorem take (h : s.Inv) {how : TakeOp} (hc : s.consumer = .found how seen) :
    (s.take (slotOf seen) s.tail).Inv := by
  have hfits := h.consumer
  rw [hc] at hfits
  obtain ⟨rfl, hlength, hsome⟩ := hfits
  obtain ⟨x, hx⟩ := Option.isSome_iff_exists.mp hsome
  have hslot : s.slots (slotOf s.tail) = x := h.slots _ x (Nat.le_refl _) hx
  exact { h with
    ready := fun n x hn hx => by
      refine Or.inl ((h.ready n x hn hx).resolve_right ?_)
      rintro ⟨tail, hcleared, _⟩
      simp [hc] at hcleared
    contents := fun n y hy => by
      change (s.consumed ++ [s.slots (slotOf s.tail)])[n]? = some y at hy
      rw [List.getElem?_append, List.getElem?_singleton, hslot] at hy
      split at hy
      · exact h.contents n y hy
      · split at hy
        · next hge hzero =>
          obtain rfl := Option.some.inj hy
          have hn : n = s.tail.toNat := by omega
          exact hn ▸ hx
        · simp at hy
    consumer := ⟨rfl, by simp [WorkRing.take, hlength]⟩ }

theorem taken (h : s.Inv) (hlength : s.consumed.length = s.tail.toNat + 1) :
    ∃ x, s.committed s.tail.toNat = some x ∧ s.tail.toNat < s.reserved := by
  have hlt : s.tail.toNat < s.consumed.length := by omega
  have hx := h.contents s.tail.toNat s.consumed[s.tail.toNat] (List.getElem?_eq_getElem hlt)
  refine ⟨_, hx, ?_⟩
  by_contra hge
  simp [h.unknown _ (Nat.le_of_not_lt hge)] at hx

theorem clear (h : s.Inv) (hc : s.consumer = .taking seen) : (s.clear seen).Inv := by
  have hfits := h.consumer
  rw [hc] at hfits
  obtain ⟨rfl, hlength⟩ := hfits
  obtain ⟨x, hx, _⟩ := h.taken hlength
  have hwindow := h.lt_window hx
  have hother : ∀ n, s.tail.toNat ≤ n → n < s.tail.toNat + ringCapacity → n ≠ s.tail.toNat →
      (s.clear s.tail).ready (n % ringCapacity) = s.ready (n % ringCapacity) := by
    intro n hn hlt hne
    refine Function.update_of_ne ?_ _ _
    exact fun heq => hne (slot_inj hn hlt (Nat.le_refl _) hwindow heq)
  exact { h with
    unready := fun n hn hlt hnone => by
      have hne : n ≠ s.tail.toNat := by
        rintro rfl
        exact absurd (hx.symm.trans hnone) (by simp)
      rw [hother n hn hlt hne]
      exact h.unready n hn hlt hnone
    ready := fun n y hn hy => by
      by_cases hne : n = s.tail.toNat
      · exact Or.inr ⟨s.tail, rfl, hne⟩
      · rw [hother n hn (h.lt_window hy) hne]
        refine Or.inl ((h.ready n y hn hy).resolve_right ?_)
        exact fun ⟨_, _, heq⟩ => hne heq
    consumer := ⟨rfl, hlength, Function.update_self ..⟩ }

theorem advance (h : s.Inv) (hc : s.consumer = .cleared seen) : (s.advance seen).Inv := by
  have hfits := h.consumer
  rw [hc] at hfits
  obtain ⟨rfl, hlength, hcleared⟩ := hfits
  obtain ⟨x, hx, hlt⟩ := h.taken hlength
  have hhead := h.head
  have hbound := s.head.isLt
  have htail : (s.tail + 1).toNat = s.tail.toNat + 1 := by
    rw [BitVec.toNat_add]
    exact Nat.mod_eq_of_lt (by change s.tail.toNat + 1 < _; omega)
  have hroom := h.room
  exact {
    head := h.head
    tail := by change (s.tail + 1).toNat ≤ s.reserved; omega
    room := by change s.reserved ≤ (s.tail + 1).toNat + ringCapacity; omega
    sawHead := h.sawHead
    sawRoom := fun i op seen hp => by
      obtain ⟨hle, hsame⟩ := h.sawRoom i op seen hp
      refine ⟨hle, fun heq => ?_⟩
      have := hsame heq
      change s.reserved < (s.tail + 1).toNat + ringCapacity
      omega
    holding := fun i op idx n w hp => by
      obtain ⟨hidx, hn, hres, hnone⟩ := h.holding i op idx n w hp
      have hne : n ≠ s.tail.toNat := by
        rintro rfl
        exact absurd (hx.symm.trans hnone) (by simp)
      exact ⟨hidx, by change (s.tail + 1).toNat ≤ n; omega, hres, hnone⟩
    apart := h.apart
    unready := fun n hn hlt hnone => by
      change (s.tail + 1).toNat ≤ n at hn
      change n < (s.tail + 1).toNat + ringCapacity at hlt
      by_cases hlast : n < s.tail.toNat + ringCapacity
      · exact h.unready n (by omega) hlast hnone
      · have hn : n = s.tail.toNat + ringCapacity := by omega
        change s.ready (n % ringCapacity) = false
        rw [hn, Nat.add_mod_right]
        exact hcleared
    slots := fun n y hn hy => h.slots n y (by change (s.tail + 1).toNat ≤ n at hn; omega) hy
    ready := fun n y hn hy => by
      change (s.tail + 1).toNat ≤ n at hn
      refine Or.inl ((h.ready n y (by omega) hy).resolve_right ?_)
      rintro ⟨_, _, heq⟩
      omega
    unknown := h.unknown
    contents := h.contents
    consumer := by change s.consumed.length = (s.tail + 1).toNat; omega }

section Producers

variable [DecidableEq ι]

theorem update_cases {q : Producer α} {j : ι} (h : Function.update s.producers i p j = q) :
    j = i ∧ p = q ∨ j ≠ i ∧ s.producers j = q := by
  by_cases hj : j = i
  · subst hj
    rw [Function.update_self] at h
    exact Or.inl ⟨rfl, h⟩
  · rw [Function.update_of_ne hj] at h
    exact Or.inr ⟨hj, h⟩

theorem before_update {q : Producer α} {j : ι} (h : Function.update s.producers i p j = q) (hne : p ≠ q) :
    j ≠ i ∧ s.producers j = q :=
  (update_cases h).resolve_left fun hmoved => hne hmoved.2

theorem setProducer (h : s.Inv) (hhead : ∀ op seen, p = .sawHead op seen → seen.toNat ≤ s.reserved)
    (hroom : ∀ op seen, p = .sawRoom op seen → seen.toNat ≤ s.reserved ∧
      (seen.toNat = s.reserved → s.reserved < s.tail.toNat + ringCapacity))
    (hfree : ∀ op idx n w, p ≠ .holding op idx n w) : (s.setProducer i p).Inv :=
  { h with
    sawHead := fun j op seen hj => by
      cases update_cases hj with
      | inl heq => exact hhead op seen heq.2
      | inr hj => exact h.sawHead j op seen hj.2
    sawRoom := fun j op seen hj => by
      cases update_cases hj with
      | inl heq => exact hroom op seen heq.2
      | inr hj => exact h.sawRoom j op seen hj.2
    holding := fun j op idx n w hj => h.holding j op idx n w (before_update hj (hfree op idx n w)).2
    apart := fun j k op op' idx idx' n w w' hj hk =>
      h.apart j k op op' idx idx' n w w' (before_update hj (hfree op idx n w)).2
        (before_update hk (hfree op' idx' n w')).2 }

theorem idle (h : s.Inv) (i : ι) : (s.setProducer i .idle).Inv :=
  h.setProducer (by simp) (by simp) (by simp)

theorem toHead (h : s.Inv) (i : ι) (op : RingOp α) : (s.setProducer i (.sawHead op s.head)).Inv := by
  refine h.setProducer (fun _ seen heq => ?_) (by simp) (by simp)
  obtain ⟨_, rfl⟩ := Producer.sawHead.inj heq
  exact Nat.le_of_eq h.head

theorem onFull (h : s.Inv) (i : ι) (op : RingOp α) : (s.setProducer i op.onFull).Inv := by
  cases op with
  | push item => exact h.setProducer (by simp [RingOp.onFull]) (by simp [RingOp.onFull]) (by simp [RingOp.onFull])
  | reserve => exact h.setProducer (by simp [RingOp.onFull]) (by simp [RingOp.onFull]) (by simp [RingOp.onFull])
  | tryReserve => exact h.idle i

theorem onContention (h : s.Inv) (i : ι) (op : RingOp α) : (s.setProducer i (op.onContention s.head)).Inv := by
  cases op with
  | push item => exact h.toHead i (.push item)
  | reserve => exact h.toHead i .reserve
  | tryReserve => exact h.idle i

theorem toRoom (h : s.Inv) (hp : s.producers i = .sawHead op seen)
    (hroom : (seen - s.tail).toNat < ringCapacity) : (s.setProducer i (.sawRoom op seen)).Inv := by
  refine h.setProducer (by simp) (fun _ seen' heq => ?_) (by simp)
  obtain ⟨_, rfl⟩ := Producer.sawRoom.inj heq
  refine ⟨h.sawHead i op seen hp, fun hsame => ?_⟩
  have htail := h.tail
  have hlt := seen.isLt
  rw [BitVec.toNat_sub] at hroom
  omega

theorem reserve (h : s.Inv) (hp : s.producers i = .sawRoom op s.head) (hwrap : s.head ≠ BitVec.allOnes 64) :
    (s.reserve i op).Inv := by
  have hhead := h.head
  have hroom := (h.sawRoom i op s.head hp).2 h.head
  have htail := h.tail
  have hnext : (s.head + 1).toNat = s.reserved + 1 := by
    have hlt := s.head.isLt
    have hne : s.head.toNat ≠ (BitVec.allOnes 64).toNat := fun heq => hwrap (BitVec.eq_of_toNat_eq heq)
    rw [BitVec.toNat_allOnes] at hne
    rw [BitVec.toNat_add, hhead]
    exact Nat.mod_eq_of_lt (by change s.reserved + 1 < _; omega)
  exact { h with
    head := hnext
    tail := Nat.le_succ_of_le htail
    room := hroom
    sawHead := fun j op seen hj =>
      Nat.le_succ_of_le (h.sawHead j op seen (before_update hj (by simp)).2)
    sawRoom := fun j op seen hj => by
      have hle := (h.sawRoom j op seen (before_update hj (by simp)).2).1
      refine ⟨Nat.le_succ_of_le hle, fun heq => ?_⟩
      change seen.toNat = s.reserved + 1 at heq
      omega
    holding := fun j op idx n w hj => by
      cases update_cases hj with
      | inl heq =>
        obtain ⟨_, rfl, rfl, _⟩ := Producer.holding.inj heq.2
        exact ⟨by rw [slotOf, hhead], htail, Nat.lt_succ_self _, h.unknown _ (Nat.le_refl _)⟩
      | inr hj =>
        obtain ⟨hidx, hn, hres, hnone⟩ := h.holding j op idx n w hj.2
        exact ⟨hidx, hn, Nat.lt_succ_of_lt hres, hnone⟩
    apart := fun j k op op' idx idx' n w w' hj hk => by
      cases update_cases hj with
      | inl heq =>
        obtain ⟨_, _, rfl, _⟩ := Producer.holding.inj heq.2
        cases update_cases hk with
        | inl heq' => exact heq.1.trans heq'.1.symm
        | inr hk => exact absurd (h.holding k op' idx' _ w' hk.2).2.2.1 (Nat.lt_irrefl _)
      | inr hj =>
        cases update_cases hk with
        | inl heq =>
          obtain ⟨_, _, rfl, _⟩ := Producer.holding.inj heq.2
          exact absurd (h.holding j op idx _ w hj.2).2.2.1 (Nat.lt_irrefl _)
        | inr hk => exact h.apart j k op op' idx idx' n w w' hj.2 hk.2
    unknown := fun n hn => h.unknown n (Nat.le_of_succ_le hn)
    consumer := by
      have hfits := h.consumer
      change (s.reserve i op).Fits s.consumer
      cases hc : s.consumer with
      | sawHead how tail =>
        rw [hc] at hfits
        exact ⟨hfits.1, hfits.2.1, Nat.lt_succ_of_lt hfits.2.2⟩
      | _ => rw [hc] at hfits; exact hfits }

theorem write (h : s.Inv) (hp : s.producers i = .holding op idx n w) (x : α) : (s.write i op idx n x).Inv := by
  obtain ⟨rfl, hn, hres, hnone⟩ := h.holding i op idx n w hp
  have hlt : n < s.tail.toNat + ringCapacity := Nat.lt_of_lt_of_le hres h.room
  exact { h with
    sawHead := fun j op seen hj => h.sawHead j op seen (before_update hj (by simp)).2
    sawRoom := fun j op seen hj => h.sawRoom j op seen (before_update hj (by simp)).2
    holding := fun j op' idx m w' hj => by
      cases update_cases hj with
      | inl heq =>
        obtain ⟨_, rfl, rfl, _⟩ := Producer.holding.inj heq.2
        exact ⟨rfl, hn, hres, hnone⟩
      | inr hj => exact h.holding j op' idx m w' hj.2
    apart := fun j k op₁ op₂ idx₁ idx₂ m w₁ w₂ hj hk => by
      have hold : ∀ {j op' idx' w'}, Function.update s.producers i (.holding op (n % ringCapacity) n true) j =
          .holding op' idx' m w' → ∃ op' idx' w', s.producers j = .holding op' idx' m w' := by
        intro j op' idx' w' hj
        cases update_cases hj with
        | inl heq =>
          obtain ⟨_, _, rfl, _⟩ := Producer.holding.inj heq.2
          exact ⟨op, n % ringCapacity, w, heq.1 ▸ hp⟩
        | inr hj => exact ⟨op', idx', w', hj.2⟩
      obtain ⟨_, _, _, hj⟩ := hold hj
      obtain ⟨_, _, _, hk⟩ := hold hk
      exact h.apart j k _ _ _ _ m _ _ hj hk
    slots := fun m y hm hy => by
      have hne : m % ringCapacity ≠ n % ringCapacity := by
        intro heq
        obtain rfl := slot_inj hm (h.lt_window hy) hn hlt heq
        exact absurd (hy.symm.trans hnone) (by simp)
      exact (Function.update_of_ne hne _ _).trans (h.slots m y hm hy)
    consumer := by
      have hfits := h.consumer
      cases hc : s.consumer <;> (rw [hc] at hfits; change (s.write i op _ n x).Fits s.consumer; rw [hc]; exact hfits) }

theorem commit (h : s.Inv) (hp : s.producers i = .holding op idx n w) : (s.commit i idx n).Inv := by
  obtain ⟨rfl, hn, hres, hnone⟩ := h.holding i op idx n w hp
  have hlt : n < s.tail.toNat + ringCapacity := Nat.lt_of_lt_of_le hres h.room
  have hready : ∀ m, s.tail.toNat ≤ m → m < s.tail.toNat + ringCapacity → m ≠ n →
      (s.commit i (n % ringCapacity) n).ready (m % ringCapacity) = s.ready (m % ringCapacity) := by
    intro m hm hmlt hne
    exact Function.update_of_ne (fun heq => hne (slot_inj hm hmlt hn hlt heq)) _ _
  have hcommitted : ∀ m, m ≠ n → (s.commit i (n % ringCapacity) n).committed m = s.committed m :=
    fun m hne => Function.update_of_ne hne _ _
  have hself : (s.commit i (n % ringCapacity) n).committed n = some (s.slots (n % ringCapacity)) :=
    Function.update_self ..
  have hother : ∀ {j op' idx' m w'}, Function.update s.producers i .idle j = .holding op' idx' m w' →
      j ≠ i ∧ s.producers j = .holding op' idx' m w' := fun hj => before_update hj (by simp)
  exact { h with
    sawHead := fun j op seen hj => h.sawHead j op seen (before_update hj (by simp)).2
    sawRoom := fun j op seen hj => h.sawRoom j op seen (before_update hj (by simp)).2
    holding := fun j op' idx m w' hj => by
      obtain ⟨hji, hheld⟩ := hother hj
      obtain ⟨hidx, hm, hmres, hmnone⟩ := h.holding j op' idx m w' hheld
      have hne : m ≠ n := by
        rintro rfl
        exact hji (h.apart j i _ _ _ _ m _ _ hheld hp)
      exact ⟨hidx, hm, hmres, (hcommitted m hne).trans hmnone⟩
    apart := fun j k op₁ op₂ idx₁ idx₂ m w₁ w₂ hj hk =>
      h.apart j k op₁ op₂ idx₁ idx₂ m w₁ w₂ (hother hj).2 (hother hk).2
    unready := fun m hm hmlt hmnone => by
      have hne : m ≠ n := by
        rintro rfl
        rw [hself] at hmnone
        simp at hmnone
      rw [hready m hm hmlt hne]
      exact h.unready m hm hmlt ((hcommitted m hne).symm.trans hmnone)
    slots := fun m y hm hy => by
      by_cases hne : m = n
      · subst hne
        exact Option.some.inj (hself.symm.trans hy)
      · exact h.slots m y hm ((hcommitted m hne).symm.trans hy)
    ready := fun m y hm hy => by
      by_cases hne : m = n
      · subst hne
        exact Or.inl (Function.update_self ..)
      · have hy := (hcommitted m hne).symm.trans hy
        rw [hready m hm (h.lt_window hy) hne]
        exact h.ready m y hm hy
    unknown := fun m hm => by
      have hne : m ≠ n := by
        rintro rfl
        exact absurd hres (Nat.not_lt_of_le hm)
      exact (hcommitted m hne).trans (h.unknown m hm)
    contents := fun m y hy => by
      have hold := h.contents m y hy
      have hne : m ≠ n := by
        rintro rfl
        exact absurd (hold.symm.trans hnone) (by simp)
      exact (hcommitted m hne).trans hold
    consumer := by
      have hfits := h.consumer
      change (s.commit i (n % ringCapacity) n).Fits s.consumer
      cases hc : s.consumer with
      | found how tail =>
        rw [hc] at hfits
        obtain ⟨htail, hlength, hsome⟩ := hfits
        refine ⟨htail, hlength, ?_⟩
        by_cases hne : s.tail.toNat = n
        · change ((s.commit i (n % ringCapacity) n).committed s.tail.toNat).isSome
          rw [hne, hself]
          rfl
        · exact (hcommitted _ hne).symm ▸ hsome
      | cleared tail =>
        rw [hc] at hfits
        obtain ⟨htail, hlength, hcleared⟩ := hfits
        obtain ⟨x, hx, _⟩ := h.taken hlength
        have hne : s.tail.toNat ≠ n := by
          rintro rfl
          exact absurd (hx.symm.trans hnone) (by simp)
        refine ⟨htail, hlength, ?_⟩
        exact (hready _ (Nat.le_refl _) (h.lt_window hx) hne).trans hcleared
      | _ => rw [hc] at hfits; exact hfits }

end Producers

end Inv

end WorkRing

end YumiBrowser.Udp
