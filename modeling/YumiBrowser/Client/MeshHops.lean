import YumiBrowser.Client.MeshNetwork

universe u

namespace YumiBrowser.Client

open Wire Transition
open YumiBrowser.Group (PeerId member)

namespace Flying

variable {ι : Type u} (p : Flying ι)

def ttl : ℕ := ((MeshPacket.parse p.data).map fun pk => pk.ttl.toNat).getD 0

def home (ids : ι → PeerId) : Bool := (MeshPacket.parse p.data).any fun pk => pk.dst = ids p.target.1

variable {p} {pk : MeshPacket} {ids : ι → PeerId}

theorem ttl_eq (h : MeshPacket.parse p.data = some pk) : p.ttl = pk.ttl.toNat := by
  simp [ttl, h]

theorem home_iff (h : MeshPacket.parse p.data = some pk) : p.home ids = true ↔ pk.dst = ids p.target.1 := by
  simp [home, h]

end Flying

def spread : ℕ → ℕ
  | 0 => 1
  | ttl + 1 => 1 + maxPeers * spread ttl

theorem spread_pos (ttl : ℕ) : 0 < spread ttl := by
  cases ttl with
  | zero => exact Nat.one_pos
  | succ ttl => exact Nat.add_pos_left Nat.one_pos _

theorem one_lt_spread (ttl : ℕ) : 1 < spread (ttl + 1) :=
  Nat.lt_add_of_pos_right (Nat.mul_pos (by decide) (spread_pos ttl))

def Flying.work {ι : Type u} (ids : ι → PeerId) (p : Flying ι) : ℕ :=
  if p.home ids then 1 else spread p.ttl

namespace Mesh

variable {ι : Type u} (s : Mesh ι)

def ids (i : ι) : PeerId := (s.clients i).peerId

def work : ℕ := (s.flight.map (Flying.work s.ids)).sum

variable {s}

theorem work_pos (ids : ι → PeerId) (p : Flying ι) : 0 < p.work ids := by
  unfold Flying.work
  split
  · exact Nat.one_pos
  · exact spread_pos _

theorem work_le (ids : ι → PeerId) (p : Flying ι) : p.work ids ≤ spread p.ttl := by
  unfold Flying.work
  split
  · exact spread_pos _
  · exact le_rfl

theorem length_others (c : Member ι) (sender : Option (Fin maxPeers)) : (c.others sender).length ≤ maxPeers :=
  (List.length_filter_le _ _).trans (Nat.le_of_eq List.length_finRange)

theorem work_eraseIdx {index : ℕ} {p : Flying ι} (hp : s.flight[index]? = some p) :
    s.work = p.work s.ids + ((s.flight.eraseIdx index).map (Flying.work s.ids)).sum := by
  obtain ⟨hlt, rfl⟩ := List.getElem?_eq_some_iff.mp hp
  exact ((List.getElem_cons_eraseIdx_perm hlt).map (Flying.work s.ids)).sum_eq.symm

theorem work_sublist {t : Mesh ι} (hids : t.ids = s.ids) (h : t.flight.Sublist s.flight) :
    t.work ≤ s.work := by
  unfold work
  rw [hids]
  exact (h.map (Flying.work s.ids)).sum_le_sum fun _ _ => Nat.zero_le _

theorem inject_cases (target : SlotOf ι) (data : List Byte) : ∃ call calls,
    s.inject target data = { s with flight := ⟨call, target, data⟩ :: s.flight, calls } := by
  unfold inject
  split
  · split
    · exact ⟨_, _, rfl⟩
    · exact ⟨_, _, rfl⟩
  · exact ⟨_, _, rfl⟩

variable (s)

/-- `mesh_handle` sends a packet on, to a peer whose slot it has or to all. -/
structure Forwards (p : Flying ι) (now : ℤ) (pk : MeshPacket) : Prop where
  parse : MeshPacket.parse p.data = some pk
  allow : ((s.buckets p.target).meshBucketAllow now p.data.length).2 = true
  away : pk.dst ≠ s.ids p.target.1
  ttl : pk.ttl ≠ 0

/-- The copies of a packet that `mesh_handle` sends on. -/
def copies (p : Flying ι) (now : ℤ) : List (Flying ι) :=
  (sendsOf (s.handled p now).2).filterMap ((s.clients p.target.1).carry p.call)

variable {s} {p q : Flying ι} {now : ℤ} {pk : MeshPacket}

theorem copies_passed (hp : MeshPacket.parse p.data = some pk)
    (hpass : ((s.buckets p.target).meshBucketAllow now p.data.length).2 = true) : s.copies p now =
      (sendsOf ((s.clients p.target.1).dispatch p.target.2 pk p.data)).filterMap
        ((s.clients p.target.1).carry p.call) := by
  obtain ⟨-, hsends, -⟩ := @meshHandle_passed ι _ (s.clients p.target.1) (s.buckets p.target) now p.target.2
    p.data pk hp hpass
  unfold copies handled
  rw [hsends]

theorem copies_forwards (h : s.Forwards p now pk) : s.copies p now =
    ((s.clients p.target.1).meshForwardToPeers p.target.2 pk.dst pk.ttl p.data).filterMap
      ((s.clients p.target.1).carry p.call) := by
  have haway : pk.dst ≠ (s.clients p.target.1).peerId := h.away
  rw [copies_passed h.parse h.allow]
  unfold MeshClient.dispatch
  rw [if_neg haway, if_neg h.ttl, sendsOf_send]

theorem copies_cases (s : Mesh ι) (p : Flying ι) (now : ℤ) :
    s.copies p now = [] ∨ ∃ pk, s.Forwards p now pk := by
  cases hp : MeshPacket.parse p.data with
  | none =>
    refine .inl ?_
    unfold copies handled MeshClient.meshHandle
    rw [hp]
    rfl
  | some pk =>
    cases hpass : ((s.buckets p.target).meshBucketAllow now p.data.length).2 with
    | false =>
      refine .inl ?_
      unfold copies handled
      rw [meshHandle_refused _ _ _ _ _ hpass]
      rfl
    | true =>
      rw [copies_passed hp hpass]
      unfold MeshClient.dispatch
      by_cases hdst : pk.dst = (s.clients p.target.1).peerId
      · rw [if_pos hdst]
        refine .inl ?_
        split <;> rfl
      · by_cases httl : pk.ttl = 0
        · rw [if_neg hdst, if_pos httl]
          exact .inl rfl
        · exact .inr ⟨pk, hp, hpass, hdst, httl⟩

def Faithful (s : Mesh ι) (p : Flying ι) (now : ℤ) : Prop :=
  ∀ pk k e, s.Forwards p now pk → (s.clients p.target.1).directRoute p.target.2 pk.dst = some k →
    (s.clients p.target.1).link k = some e → s.ids e.1 = pk.dst

def Descends (s : Mesh ι) (p : Flying ι) (now : ℤ) : Prop :=
  ∀ q ∈ s.copies p now, q.ttl < p.ttl ∨ q.home s.ids = true

theorem toNat_pred {ttl : Byte} (h : ttl ≠ 0) : ttl.toNat = (ttl - 1).toNat + 1 := by
  bv_omega

theorem copies_direct {k : Fin maxPeers} (h : s.Forwards p now pk)
    (hdirect : (s.clients p.target.1).directRoute p.target.2 pk.dst = some k) :
    s.copies p now = (((s.clients p.target.1).link k).map (⟨p.call, ·, p.data⟩)).toList := by
  rw [copies_forwards h]
  unfold MeshClient.meshForwardToPeers
  rw [hdirect]
  change [MeshSend.mk k p.data].filterMap _ = _
  rw [List.filterMap_cons]
  unfold MeshClient.carry
  dsimp only
  cases (s.clients p.target.1).link k <;> rfl

theorem copies_flood (h : s.Forwards p now pk)
    (hdirect : (s.clients p.target.1).directRoute p.target.2 pk.dst = none) :
    s.copies p now = ((s.clients p.target.1).others (some p.target.2)).filterMap fun k =>
      ((s.clients p.target.1).link k).map (⟨p.call, ·, p.data.set 1 (pk.ttl - 1)⟩) := by
  rw [copies_forwards h]
  unfold MeshClient.meshForwardToPeers
  rw [hdirect]
  dsimp only
  rw [if_neg h.ttl, List.filterMap_map]
  rfl

theorem ttl_flood (h : s.Forwards p now pk)
    (hdirect : (s.clients p.target.1).directRoute p.target.2 pk.dst = none) (hq : q ∈ s.copies p now) :
    p.ttl = q.ttl + 1 := by
  rw [copies_flood h hdirect] at hq
  obtain ⟨k, -, hk⟩ := List.mem_filterMap.mp hq
  obtain ⟨e, -, rfl⟩ := Option.map_eq_some_iff.mp hk
  rw [Flying.ttl_eq h.parse, Flying.ttl_eq (MeshPacket.parse_set (pk.ttl - 1) h.parse)]
  exact toNat_pred h.ttl

theorem descends_iff (s : Mesh ι) (p : Flying ι) (now : ℤ) : s.Descends p now ↔ s.Faithful p now := by
  constructor
  · intro hdesc pk k e h hdirect hlink
    have hcopies := copies_direct h hdirect
    rw [hlink] at hcopies
    have hq : ⟨p.call, e, p.data⟩ ∈ s.copies p now := hcopies ▸ List.mem_singleton_self _
    rcases hdesc _ hq with hlt | hhome
    · exact absurd hlt (Nat.lt_irrefl _)
    · have hparse : MeshPacket.parse (Flying.mk p.call e p.data).data = some pk := h.parse
      exact ((Flying.home_iff hparse).mp hhome).symm
  · intro hfaithful q hq
    rcases copies_cases s p now with hnone | ⟨pk, h⟩
    · rw [hnone] at hq
      exact absurd hq List.not_mem_nil
    · cases hdirect : (s.clients p.target.1).directRoute p.target.2 pk.dst with
      | none => exact .inl (ttl_flood h hdirect hq ▸ Nat.lt_succ_self _)
      | some k =>
        rw [copies_direct h hdirect] at hq
        obtain ⟨e, hlink, rfl⟩ := Option.map_eq_some_iff.mp (Option.mem_toList.mp hq)
        have hparse : MeshPacket.parse (Flying.mk p.call e p.data).data = some pk := h.parse
        exact .inr ((Flying.home_iff hparse).mpr (hfaithful pk k e h hdirect hlink).symm)

theorem work_copies_lt (h : s.Faithful p now) :
    ((s.copies p now).map (Flying.work s.ids)).sum < p.work s.ids := by
  rcases copies_cases s p now with hnone | ⟨pk, hf⟩
  · rw [hnone]
    exact work_pos s.ids p
  have hhome : ¬ p.home s.ids = true := fun hhome => hf.away ((Flying.home_iff hf.parse).mp hhome)
  have hwork : p.work s.ids = spread p.ttl := if_neg hhome
  have httl : p.ttl = (pk.ttl - 1).toNat + 1 := (Flying.ttl_eq hf.parse).trans (toNat_pred hf.ttl)
  cases hdirect : (s.clients p.target.1).directRoute p.target.2 pk.dst with
  | none =>
    have hle : ∀ n ∈ (s.copies p now).map (Flying.work s.ids), n ≤ spread (pk.ttl - 1).toNat := by
      intro n hn
      obtain ⟨q, hq, rfl⟩ := List.mem_map.mp hn
      have hq' := ttl_flood hf hdirect hq
      have heq : q.ttl = (pk.ttl - 1).toNat := Nat.succ.inj (hq'.symm.trans httl)
      exact heq ▸ work_le s.ids q
    have hlength : (s.copies p now).length ≤ maxPeers := by
      rw [copies_flood hf hdirect]
      exact (List.length_filterMap_le _ _).trans (length_others _ _)
    calc ((s.copies p now).map (Flying.work s.ids)).sum
        ≤ ((s.copies p now).map (Flying.work s.ids)).length * spread (pk.ttl - 1).toNat :=
          List.sum_le_card_nsmul _ _ hle
      _ ≤ maxPeers * spread (pk.ttl - 1).toNat := by
          rw [List.length_map]
          exact Nat.mul_le_mul_right _ hlength
      _ < spread ((pk.ttl - 1).toNat + 1) := Nat.lt_add_of_pos_left Nat.one_pos
      _ = p.work s.ids := by rw [hwork, httl]
  | some k =>
    rw [copies_direct hf hdirect]
    cases hlink : (s.clients p.target.1).link k with
    | none => exact work_pos s.ids p
    | some e =>
      have hparse : MeshPacket.parse (Flying.mk p.call e p.data).data = some pk := hf.parse
      have hq : (Flying.mk p.call e p.data).work s.ids = 1 :=
        if_pos ((Flying.home_iff hparse).mpr (h pk k e hf hdirect hlink).symm)
      change (Flying.mk p.call e p.data).work s.ids + 0 < _
      rw [hq, hwork, httl]
      exact one_lt_spread _

end Mesh

section Runs

variable {ι : Type u} (s : Mesh ι)

def MeshEvent.sendsNothing : MeshEvent ι → Prop
  | .relay .. | .inject .. => False
  | _ => True

/-- `mesh_handle` gets a packet. -/
def Mesh.handles : MeshEvent ι → Bool
  | .deliver index _ => s.flight[index]?.isSome
  | _ => false

def Mesh.FaithfulAt : MeshEvent ι → Prop
  | .deliver index now => ∀ p, s.flight[index]? = some p → s.Faithful p now
  | _ => True

def Mesh.DescendsAt : MeshEvent ι → Prop
  | .deliver index now => ∀ p, s.flight[index]? = some p → s.Descends p now
  | _ => True

variable {s} {e : MeshEvent ι}

theorem Mesh.descendsAt_iff : s.DescendsAt e ↔ s.FaithfulAt e := by
  cases e with
  | deliver index now => exact forall₂_congr fun p _ => s.descends_iff p now
  | relay | lose | inject | rewire => exact .rfl

variable [DecidableEq ι]

theorem Mesh.ids_next (s : Mesh ι) (e : MeshEvent ι) : (s.next e).ids = s.ids := by
  funext i
  cases e with
  | relay => rfl
  | deliver index now =>
    cases hp : s.flight[index]? with
    | none => simp only [Mesh.next, hp]
    | some p =>
      simp only [Mesh.next, hp]
      rfl
  | lose => rfl
  | inject target data =>
    obtain ⟨call, calls, heq⟩ := s.inject_cases target data
    exact congrArg (fun s => s.ids i) heq
  | rewire target slot bucket =>
    by_cases hi : i = target.1
    · subst hi
      simp [Mesh.ids, Mesh.next]
    · simp [Mesh.ids, Mesh.next, hi]

theorem Mesh.flight_deliver {index : ℕ} {p : Flying ι} (hp : s.flight[index]? = some p) (now : ℤ) :
    (s.next (.deliver index now)).flight = s.copies p now ++ s.flight.eraseIdx index := by
  simp only [Mesh.next, hp]
  rfl

theorem Mesh.work_deliver_lt {index : ℕ} {p : Flying ι} {now : ℤ} (hp : s.flight[index]? = some p)
    (h : s.Faithful p now) : (s.next (.deliver index now)).work < s.work := by
  rw [work_eraseIdx hp]
  unfold Mesh.work
  rw [ids_next, flight_deliver hp, List.map_append, List.sum_append]
  exact Nat.add_lt_add_right (work_copies_lt h) _

theorem Mesh.work_next_le (h : s.FaithfulAt e) (hnone : e.sendsNothing) : (s.next e).work ≤ s.work := by
  cases e with
  | relay => exact hnone.elim
  | inject => exact hnone.elim
  | lose index => exact work_sublist (s.ids_next _) (List.eraseIdx_sublist _ _)
  | rewire target slot bucket => exact work_sublist (s.ids_next _) List.filter_sublist
  | deliver index now =>
    cases hp : s.flight[index]? with
    | none => simp only [Mesh.next, hp, le_refl]
    | some p => exact (work_deliver_lt hp (h p hp)).le

theorem Mesh.work_next_lt (h : s.FaithfulAt e) (hhandles : s.handles e = true) :
    (s.next e).work < s.work := by
  cases e with
  | deliver index now =>
    obtain ⟨p, hp⟩ := Option.isSome_iff_exists.mp hhandles
    exact work_deliver_lt hp (h p hp)
  | relay | lose | inject | rewire => cases hhandles

end Runs

structure Copy (ι : Type u) where
  packet : Flying ι
  ttl : ℕ
  hops : ℕ

namespace Copy

variable {ι : Type u}

def sent (p : Flying ι) : Copy ι := ⟨p, p.ttl, 1⟩

def resent (c : Copy ι) (p : Flying ι) : Copy ι := ⟨p, c.ttl, c.hops + 1⟩

def Kept (c : Copy ι) (ids : ι → PeerId) : Prop :=
  c.hops ≤ c.ttl + 1 ∧ (c.packet.home ids = true ∨ c.hops + c.packet.ttl ≤ c.ttl + 1)

variable {ids : ι → PeerId} {c : Copy ι} {p : Flying ι}

theorem kept_sent (p : Flying ι) : (sent p).Kept ids :=
  ⟨Nat.le_add_left _ _, .inr (Nat.le_of_eq (Nat.add_comm _ _))⟩

theorem kept_resent {s : Mesh ι} {now : ℤ} (h : c.Kept s.ids) (hfaithful : s.Faithful c.packet now)
    (hp : p ∈ s.copies c.packet now) : (c.resent p).Kept s.ids := by
  rcases Mesh.copies_cases s c.packet now with hnone | ⟨pk, hf⟩
  · rw [hnone] at hp
    exact absurd hp List.not_mem_nil
  have haway : ¬ c.packet.home s.ids = true := fun hhome => hf.away ((Flying.home_iff hf.parse).mp hhome)
  have hleft : c.hops + c.packet.ttl ≤ c.ttl + 1 := h.2.resolve_left haway
  have hpos : c.packet.ttl = (pk.ttl - 1).toNat + 1 := (Flying.ttl_eq hf.parse).trans (Mesh.toNat_pred hf.ttl)
  refine ⟨?_, ?_⟩
  · change c.hops + 1 ≤ c.ttl + 1
    omega
  · rcases (s.descends_iff c.packet now).mpr hfaithful p hp with hlt | hhome
    · refine .inr ?_
      change c.hops + 1 + p.ttl ≤ c.ttl + 1
      omega
    · exact .inl hhome

end Copy

structure Trail (ι : Type u) where
  mesh : Mesh ι
  copies : List (Copy ι)

namespace Trail

variable {ι : Type u}

def start (m : Mesh ι) : Trail ι := ⟨m, m.flight.map .sent⟩

def next [DecidableEq ι] (s : Trail ι) (e : MeshEvent ι) : Trail ι where
  mesh := s.mesh.next e
  copies :=
    match e with
    | .deliver index now =>
      match s.copies[index]? with
      | some c => (s.mesh.copies c.packet now).map c.resent ++ s.copies.eraseIdx index
      | none => s.copies
    | .lose index => s.copies.eraseIdx index
    | .rewire target slot _ =>
      s.copies.filter fun c => c.packet.target ≠ target ∨
        slot.sudp = ((s.mesh.clients target.1).peers target.2).sudp
    | .relay .. | .inject .. =>
      (((s.mesh.next e).flight.take ((s.mesh.next e).flight.length - s.mesh.flight.length)).map .sent) ++
        s.copies

structure Inv (s : Trail ι) : Prop where
  flight : s.copies.map Copy.packet = s.mesh.flight
  kept : ∀ c ∈ s.copies, c.Kept s.mesh.ids

theorem inv_start (m : Mesh ι) : (start m).Inv where
  flight := by
    unfold start
    rw [List.map_map]
    exact List.map_id _
  kept c hc := by
    obtain ⟨p, -, rfl⟩ := List.mem_map.mp hc
    exact Copy.kept_sent p

variable [DecidableEq ι] {s : Trail ι} {e : MeshEvent ι}

theorem Inv.sends (h : s.Inv) {sent : List (Flying ι)} (heq : (s.mesh.next e).flight = sent ++ s.mesh.flight)
    (hnext : (s.next e).copies = (((s.mesh.next e).flight.take
      ((s.mesh.next e).flight.length - s.mesh.flight.length)).map .sent) ++ s.copies) : (s.next e).Inv := by
  have htake : (s.mesh.next e).flight.take ((s.mesh.next e).flight.length - s.mesh.flight.length) = sent := by
    rw [heq, List.length_append, Nat.add_sub_cancel]
    exact List.take_left
  rw [htake] at hnext
  refine ⟨?_, fun c hc => ?_⟩
  · rw [hnext, List.map_append, List.map_map, h.flight]
    exact (congrArg (· ++ s.mesh.flight) (List.map_id sent)).trans heq.symm
  · change c.Kept (s.mesh.next e).ids
    rw [Mesh.ids_next]
    rw [hnext, List.mem_append] at hc
    rcases hc with hc | hc
    · obtain ⟨p, -, rfl⟩ := List.mem_map.mp hc
      exact Copy.kept_sent p
    · exact h.kept c hc

theorem Inv.next (h : s.Inv) (hfaithful : s.mesh.FaithfulAt e) : (s.next e).Inv := by
  cases e with
  | relay i dst channel data => exact h.sends rfl rfl
  | inject target data =>
    obtain ⟨call, calls, heq⟩ := Mesh.inject_cases (s := s.mesh) target data
    have hflight : (s.mesh.next (.inject target data)).flight = [⟨call, target, data⟩] ++ s.mesh.flight :=
      congrArg Mesh.flight heq
    exact h.sends hflight rfl
  | lose index =>
    refine ⟨?_, fun c hc => ?_⟩
    · change (s.copies.eraseIdx index).map Copy.packet = s.mesh.flight.eraseIdx index
      rw [← h.flight, List.eraseIdx_map]
    · exact h.kept c (List.eraseIdx_sublist _ _ |>.mem hc)
  | rewire target slot bucket =>
    refine ⟨?_, fun c hc => ?_⟩
    · change (s.copies.filter _).map Copy.packet = s.mesh.flight.filter _
      rw [← h.flight, List.filter_map]
      rfl
    · change c.Kept (s.mesh.next (.rewire target slot bucket)).ids
      rw [Mesh.ids_next]
      exact h.kept c (List.mem_of_mem_filter hc)
  | deliver index now =>
    have hflight : s.mesh.flight[index]? = s.copies[index]?.map Copy.packet := by
      rw [← h.flight, List.getElem?_map]
    cases hc : s.copies[index]? with
    | none =>
      rw [hc] at hflight
      have hmesh : s.mesh.next (.deliver index now) = s.mesh := by simp only [Mesh.next, hflight, Option.map_none]
      have hcopies : (s.next (.deliver index now)).copies = s.copies := by simp only [Trail.next, hc]
      refine ⟨?_, fun c hcopy => ?_⟩
      · change (s.next (.deliver index now)).copies.map Copy.packet = (s.mesh.next (.deliver index now)).flight
        rw [hcopies, hmesh, h.flight]
      · change c.Kept (s.mesh.next (.deliver index now)).ids
        rw [hcopies] at hcopy
        rw [hmesh]
        exact h.kept c hcopy
    | some c =>
      rw [hc] at hflight
      have hcopies : (s.next (.deliver index now)).copies =
          (s.mesh.copies c.packet now).map c.resent ++ s.copies.eraseIdx index := by simp only [Trail.next, hc]
      refine ⟨?_, fun q hq => ?_⟩
      · change (s.next (.deliver index now)).copies.map Copy.packet = (s.mesh.next (.deliver index now)).flight
        rw [hcopies, Mesh.flight_deliver hflight, List.map_append, List.map_map, ← h.flight, List.eraseIdx_map]
        exact congrArg (· ++ _) (List.map_id _)
      · change q.Kept (s.mesh.next (.deliver index now)).ids
        rw [Mesh.ids_next]
        rw [hcopies, List.mem_append] at hq
        rcases hq with hq | hq
        · obtain ⟨p, hp, rfl⟩ := List.mem_map.mp hq
          exact Copy.kept_resent (h.kept c (List.mem_of_getElem? hc)) (hfaithful c.packet hflight) hp
        · exact h.kept q ((List.eraseIdx_sublist _ _).mem hq)

theorem mesh_foldl (s : Trail ι) (es : List (MeshEvent ι)) :
    (es.foldl next s).mesh = es.foldl Mesh.next s.mesh := by
  induction es generalizing s with
  | nil => rfl
  | cons e es ih => exact ih (s.next e)

end Trail

section Expiry

variable {ι : Type u}

theorem Mesh.faithful_of_authentic {s : Mesh ι}
    (h : ∀ i k e, (s.clients i).link k = some e → ((s.clients i).peers k).peerId = s.ids e.1)
    (p : Flying ι) (now : ℤ) : s.Faithful p now := by
  intro pk k e _ hdirect hlink
  have hfound : ((s.clients p.target.1).peers k).peerId = pk.dst := by
    have hsome := List.find?_some hdirect
    exact of_decide_eq_true hsome
  exact (h p.target.1 k e hlink).symm.trans hfound

variable [DecidableEq ι]

/-- Forwarding comes to an end: every copy has a smaller ttl or is delivered, none makes more hops than one more
than the ttl that was set, and as long as nobody sends anything there is a bound to the packets handled. -/
structure Mesh.Expires (m : Mesh ι) (es : List (MeshEvent ι)) : Prop where
  descends : ∀ xs e ys, es = xs ++ e :: ys → (xs.foldl Mesh.next m).DescendsAt e
  hops : ∀ xs ys, es = xs ++ ys → ∀ c ∈ (xs.foldl Trail.next (.start m)).copies, c.hops ≤ c.ttl + 1
  ends : ∀ xs ys zs, es = xs ++ ys ++ zs → (∀ e ∈ ys, e.sendsNothing) →
    System.worked Mesh.next Mesh.handles (xs.foldl Mesh.next m) ys ≤ (xs.foldl Mesh.next m).work

theorem Trail.inv_foldl (m : Mesh ι) (es : List (MeshEvent ι))
    (h : ∀ xs e ys, es = xs ++ e :: ys → (xs.foldl Mesh.next m).FaithfulAt e) :
    ∀ xs ys, es = xs ++ ys → (xs.foldl Trail.next (.start m)).Inv := by
  refine System.holds_along (C := fun s e => s.mesh.FaithfulAt e) (fun s e hs hC => hs.next hC) (inv_start m) es ?_
  intro xs e ys heq
  rw [mesh_foldl]
  exact h xs e ys heq

/-- The packets of the mesh expire if and only if those that go over a direct route go to the client whose id
the slot carries. -/
theorem Mesh.expires_iff (m : Mesh ι) (es : List (MeshEvent ι)) :
    m.Expires es ↔ ∀ xs e ys, es = xs ++ e :: ys → (xs.foldl Mesh.next m).FaithfulAt e := by
  constructor
  · intro h xs e ys heq
    exact Mesh.descendsAt_iff.mp (h.descends xs e ys heq)
  · intro h
    refine ⟨fun xs e ys heq => Mesh.descendsAt_iff.mpr (h xs e ys heq), fun xs ys heq c hc => ?_, ?_⟩
    · exact ((Trail.inv_foldl m es h xs ys heq).kept c hc).1
    · intro xs ys zs heq hnone
      refine System.worked_le (C := fun s e => s.FaithfulAt e ∧ e.sendsNothing) (μ := Mesh.work)
        (fun s e hC => Mesh.work_next_le hC.1 hC.2) (fun s e hC hbusy => Mesh.work_next_lt hC.1 hbusy) _ ys ?_
      rintro us e vs rfl
      refine ⟨?_, hnone e (by simp)⟩
      have hsplit := h (xs ++ us) e (vs ++ zs) (by simp [heq])
      rwa [List.foldl_append] at hsplit

end Expiry

section Circle

def circleSession : Fin 4 → Fin maxPeers → Option (PeerId × SlotOf (Fin 4))
  | 0, 0 => some ((member 4).peerId, (1, 1))
  | 0, 1 => some ((member 3).peerId, (2, 0))
  | 0, 2 => some ((member 5).peerId, (3, 0))
  | 1, 0 => some ((member 4).peerId, (2, 1))
  | 1, 1 => some ((member 1).peerId, (0, 0))
  | 2, 0 => some ((member 4).peerId, (0, 1))
  | 2, 1 => some ((member 2).peerId, (1, 0))
  | 3, 0 => some ((member 1).peerId, (0, 2))
  | _, _ => none

def circleId : Fin 4 → PeerId
  | 0 => (member 1).peerId
  | 1 => (member 2).peerId
  | 2 => (member 3).peerId
  | 3 => (member 5).peerId

def circle : Mesh (Fin 4) where
  clients i := {
    peerId := circleId i
    peers k :=
      match circleSession i k with
      | some (peerId, e) => ⟨peerId, .connected, some (some e)⟩
      | none => ⟨Bytes.fill 32 0, .free, none⟩ }
  buckets _ := .freed
  clock := 0
  flight := []
  calls := []
  messages := []

def circleRun : List (MeshEvent (Fin 4)) :=
  [.relay 3 (member 4).peerId 2 [42], .deliver 0 1000, .deliver 0 1000, .deliver 0 1000]

theorem circle_hops : (circleRun.foldl Trail.next (.start circle)).copies.map
    (fun c => (c.packet.target, c.ttl, c.hops)) = [((0, 1), 2, 4)] := by decide +kernel

theorem circle_not_expires : ¬ ∀ (m : Mesh (Fin 4)) es, m.Expires es := by
  intro hall
  have hhops := (hall circle circleRun).hops circleRun [] rfl
  have hcopies := circle_hops
  generalize (circleRun.foldl Trail.next (.start circle)).copies = copies at hhops hcopies
  cases copies with
  | nil => cases hcopies
  | cons c copies =>
    have hle := hhops c List.mem_cons_self
    simp only [List.map_cons, List.cons.injEq, Prod.mk.injEq] at hcopies
    omega

end Circle

end YumiBrowser.Client
