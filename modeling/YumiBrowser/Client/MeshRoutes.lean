import YumiBrowser.Client.MeshNetwork

universe u

namespace YumiBrowser.Client

open Wire Transition
open YumiBrowser.Group (PeerId member)

/-- Clients with their sessions, each of which leads to the peer of its slot. -/
structure Topology (ι : Type u) where
  clients : ι → Member ι
  authentic : ∀ i k e, (clients i).link k = some e → ((clients i).peers k).peerId = (clients e.1).peerId

namespace Topology

variable {ι : Type u} (t : Topology ι) (dst : PeerId)

def routesFrom : ℕ → SlotOf ι → List (List (Fin maxPeers))
  | 0, e => if dst = (t.clients e.1).peerId then [[]] else []
  | ttl + 1, e =>
    if dst = (t.clients e.1).peerId then [[]]
    else
      match (t.clients e.1).directRoute e.2 dst with
      | some k => ((t.clients e.1).link k).elim [] fun _ => [[k]]
      | none =>
        ((t.clients e.1).others (some e.2)).flatMap fun k =>
          ((t.clients e.1).link k).elim [] fun e => (routesFrom ttl e).map (k :: ·)

def routes (i : ι) : List (List (Fin maxPeers)) :=
  ((t.clients i).others none).flatMap fun k =>
    ((t.clients i).link k).elim [] fun e =>
      (t.routesFrom dst (t.clients i).meshComputeTtl.toNat e).map (k :: ·)

/-- The clients relay what their own users send; nobody makes up a packet, and sessions stay. -/
def Steady (s : Mesh ι) : MeshEvent ι → Prop
  | .relay i dst channel _ => (s.clients i).Relays dst channel
  | .deliver .. | .lose _ => True
  | .inject .. | .rewire .. => False

def system [DecidableEq ι] : System (Mesh ι) (MeshEvent ι) where
  init s := s.clients = t.clients ∧ (mesh ι).init s
  step := ((mesh ι).restrict Steady).step

end Topology

/-- How often a call of `mesh_relay_send` has led to one of `on_message`. -/
def Mesh.received {ι : Type u} (s : Mesh ι) (n : ℕ) : ℕ := s.messages.countP (·.call = some n)

namespace Topology

section Weights

variable {ι : Type u} (t : Topology ι) (n : ℕ)

def weigh (p : Flying ι) : ℕ :=
  if p.call = some n then
    match MeshPacket.parse p.data with
    | none => 0
    | some pk => (t.routesFrom pk.dst pk.ttl.toNat p.target).length
  else 0

def weight (ps : List (Flying ι)) : ℕ := (ps.map (t.weigh n)).sum

variable {t n} {ps qs : List (Flying ι)} {p : Flying ι} {pk : MeshPacket} {call : Option ℕ} {data : List Byte}
  {i : ι} {k : Fin maxPeers}

@[simp] theorem weight_nil : t.weight n [] = 0 := rfl

@[simp] theorem weight_cons : t.weight n (p :: ps) = t.weigh n p + t.weight n ps := List.sum_cons

@[simp] theorem weight_append : t.weight n (ps ++ qs) = t.weight n ps + t.weight n qs := by
  simp [weight]

theorem weight_eraseIdx {index : ℕ} (h : ps[index]? = some p) :
    t.weight n ps = t.weigh n p + t.weight n (ps.eraseIdx index) := by
  obtain ⟨hlt, rfl⟩ := List.getElem?_eq_some_iff.mp h
  rw [← weight_cons]
  exact ((List.getElem_cons_eraseIdx_perm hlt).map (t.weigh n)).sum_eq.symm

theorem weight_eraseIdx_le (index : ℕ) : t.weight n (ps.eraseIdx index) ≤ t.weight n ps := by
  cases h : ps[index]? with
  | none => rw [List.eraseIdx_of_length_le (List.getElem?_eq_none_iff.mp h)]
  | some p => exact weight_eraseIdx h ▸ Nat.le_add_left ..

theorem weigh_of_parse (h : MeshPacket.parse p.data = some pk) :
    t.weigh n p = if p.call = some n then (t.routesFrom pk.dst pk.ttl.toNat p.target).length else 0 := by
  simp [weigh, h]

theorem routesFrom_self {dst : PeerId} {e : SlotOf ι} (h : dst = (t.clients e.1).peerId) (ttl : ℕ) :
    t.routesFrom dst ttl e = [[]] := by
  cases ttl with
  | zero => exact if_pos h
  | succ ttl => exact if_pos h

theorem weight_posted (h : MeshPacket.parse data = some pk) (ks : List (Fin maxPeers)) :
    t.weight n ((ks.map (⟨·, data⟩)).filterMap ((t.clients i).carry call)) =
      if call = some n then
        (ks.flatMap fun k => ((t.clients i).link k).elim [] fun e =>
          (t.routesFrom pk.dst pk.ttl.toNat e).map (k :: ·)).length
      else 0 := by
  induction ks with
  | nil => simp
  | cons k ks ih =>
    rw [List.map_cons, List.filterMap_cons, List.flatMap_cons, List.length_append]
    cases hlink : (t.clients i).link k with
    | none => simpa [MeshClient.carry, hlink] using ih
    | some e =>
      simp only [MeshClient.carry, hlink, Option.map_some, weight_cons, Option.elim_some, List.length_map]
      rw [weigh_of_parse h]
      rw [ih]
      split
      · rfl
      · rfl

/-- What becomes of a packet that `mesh_handle` lets pass. -/
def onward (t : Topology ι) (p : Flying ι) (pk : MeshPacket) : List MeshOutput :=
  (t.clients p.target.1).dispatch p.target.2 pk p.data

def posted (t : Topology ι) (p : Flying ι) (pk : MeshPacket) : List (Flying ι) :=
  (sendsOf (t.onward p pk)).filterMap ((t.clients p.target.1).carry p.call)

/-- The calls of `on_message` that it makes. -/
def taken (t : Topology ι) (p : Flying ι) (pk : MeshPacket) : List (Relayed ι) :=
  relayedOf p.call p.target.1 (t.onward p pk)

abbrev IsUser (pk : MeshPacket) : Prop := userCh ≤ pk.innerCh ∧ pk.innerCh < attestCh

theorem onward_home (hdst : pk.dst = (t.clients p.target.1).peerId) (huser : IsUser pk) :
    t.onward p pk = [.message pk.src pk.innerCh pk.payload true] := by
  unfold onward MeshClient.dispatch
  rw [if_pos hdst, if_pos huser]

theorem onward_reserved (hdst : pk.dst = (t.clients p.target.1).peerId) (huser : ¬ IsUser pk) :
    t.onward p pk = [] := by
  unfold onward MeshClient.dispatch
  rw [if_pos hdst, if_neg huser]

theorem onward_spent (hdst : pk.dst ≠ (t.clients p.target.1).peerId) (httl : pk.ttl = 0) :
    t.onward p pk = [] := by
  unfold onward MeshClient.dispatch
  rw [if_neg hdst, if_pos httl]

theorem onward_sent (hdst : pk.dst ≠ (t.clients p.target.1).peerId) (httl : pk.ttl ≠ 0) :
    t.onward p pk =
      ((t.clients p.target.1).meshForwardToPeers p.target.2 pk.dst pk.ttl p.data).map .send := by
  unfold onward MeshClient.dispatch
  rw [if_neg hdst, if_neg httl]

theorem weight_posted_away (hp : MeshPacket.parse p.data = some pk)
    (hdst : pk.dst ≠ (t.clients p.target.1).peerId) :
    t.taken p pk = [] ∧ t.weight n (t.posted p pk) = t.weigh n p := by
  rw [weigh_of_parse hp]
  unfold taken posted
  by_cases httl : pk.ttl = 0
  · rw [onward_spent hdst httl, httl]
    refine ⟨rfl, ?_⟩
    change 0 = if _ then (if pk.dst = _ then _ else []).length else 0
    rw [if_neg hdst]
    exact (ite_self _).symm
  · rw [onward_sent hdst httl, sendsOf_send, relayedOf_send]
    refine ⟨rfl, ?_⟩
    have hm : pk.ttl.toNat = (pk.ttl - 1).toNat + 1 := by
      have hpos : pk.ttl.toNat ≠ 0 := fun h => httl (BitVec.eq_of_toNat_eq h)
      rw [BitVec.toNat_sub_of_le (by rw [BitVec.le_def]; exact Nat.one_le_iff_ne_zero.mpr hpos)]
      exact (Nat.sub_add_cancel (Nat.one_le_iff_ne_zero.mpr hpos)).symm
    rw [hm]
    simp only [routesFrom, if_neg hdst, MeshClient.meshForwardToPeers]
    cases hdirect : (t.clients p.target.1).directRoute p.target.2 pk.dst with
    | none =>
      simp only [if_neg httl]
      exact weight_posted (MeshPacket.parse_set _ hp) _
    | some k =>
      have hdata := @weight_posted _ t n pk p.call p.data p.target.1 hp [k]
      apply Eq.trans hdata
      simp only [List.flatMap_cons, List.flatMap_nil, List.append_nil]
      cases hlink : (t.clients p.target.1).link k with
      | none => rfl
      | some e =>
        have hfound : ((t.clients p.target.1).peers k).peerId = pk.dst := by
          simpa using List.find?_some hdirect
        simp only [Option.elim_some, List.length_map]
        rw [routesFrom_self (hfound ▸ t.authentic _ _ _ hlink)]
        rfl

theorem count_taken (hdst : pk.dst = (t.clients p.target.1).peerId) (huser : IsUser pk) :
    (t.taken p pk).countP (·.call = some n) = if p.call = some n then 1 else 0 := by
  unfold taken
  rw [onward_home hdst huser]
  change List.countP _ [_] = _
  rw [List.countP_singleton]
  exact if_congr decide_eq_true_iff rfl rfl

theorem weigh_home (hp : MeshPacket.parse p.data = some pk) (hdst : pk.dst = (t.clients p.target.1).peerId) :
    t.weigh n p = if p.call = some n then 1 else 0 := by
  rw [weigh_of_parse hp, routesFrom_self hdst]
  rfl

theorem posted_home (hdst : pk.dst = (t.clients p.target.1).peerId) : t.posted p pk = [] := by
  unfold posted
  by_cases huser : IsUser pk
  · rw [onward_home hdst huser]
    rfl
  · rw [onward_reserved hdst huser]
    rfl

theorem weigh_eq (hp : MeshPacket.parse p.data = some pk) (huser : IsUser pk) :
    (t.taken p pk).countP (·.call = some n) + t.weight n (t.posted p pk) = t.weigh n p := by
  by_cases hdst : pk.dst = (t.clients p.target.1).peerId
  · rw [posted_home hdst, count_taken hdst huser, weigh_home hp hdst]
    rfl
  · obtain ⟨htaken, hweight⟩ := weight_posted_away (n := n) hp hdst
    rw [htaken, hweight]
    exact Nat.zero_add _

theorem weigh_le (hp : MeshPacket.parse p.data = some pk) :
    (t.taken p pk).countP (·.call = some n) + t.weight n (t.posted p pk) ≤ t.weigh n p := by
  by_cases huser : IsUser pk
  · exact Nat.le_of_eq (weigh_eq hp huser)
  by_cases hdst : pk.dst = (t.clients p.target.1).peerId
  · rw [posted_home hdst]
    unfold taken
    rw [onward_reserved hdst huser]
    exact Nat.zero_le _
  · obtain ⟨htaken, hweight⟩ := weight_posted_away (n := n) hp hdst
    rw [htaken, hweight]
    exact Nat.le_of_eq (Nat.zero_add _)

end Weights

section Runs

variable {ι : Type u} [DecidableEq ι] {t : Topology ι} {s : Mesh ι} {n : ℕ} {p : Flying ι} {now : ℤ}

def share (t : Topology ι) (n : ℕ) (s : Mesh ι) : ℕ := s.received n + t.weight n s.flight

theorem received_handle (s : Mesh ι) :
    (s.handle p now).received n =
      (relayedOf p.call p.target.1 (s.handled p now).2).countP (·.call = some n) + s.received n :=
  List.countP_append

theorem share_handle_le (hclients : s.clients = t.clients) :
    t.share n (s.handle p now) ≤ t.weigh n p + t.share n s := by
  unfold share
  rw [received_handle]
  change _ + t.weight n (List.filterMap _ _ ++ s.flight) ≤ _
  rw [weight_append]
  rcases meshHandle_cases (s.clients p.target.1) (s.buckets p.target) now p.target.2 p.data with
    hnone | ⟨pk, hp, hsends, hrelayed⟩
  · simp only [Mesh.handled, hnone, relayedOf, sendsOf, List.filterMap_nil, List.countP_nil, weight_nil]
    omega
  · have hle := weigh_le (t := t) (n := n) hp
    unfold taken posted onward at hle
    unfold Mesh.handled
    rw [hrelayed, hsends, hclients]
    omega

structure Single (t : Topology ι) (s : Mesh ι) : Prop where
  clients : s.clients = t.clients
  made : ∀ n, t.share n s ≤ 1
  unmade : ∀ n, s.calls.length ≤ n → t.share n s = 0

omit [DecidableEq ι] in
theorem weight_relay (hclients : s.clients = t.clients) (i : ι) (dst : PeerId) (channel : Byte) (data : List Byte) :
    t.weight n ((((s.clients i).meshRelaySend dst channel data)).filterMap
        ((s.clients i).carry (some s.calls.length))) =
      if s.calls.length = n then (t.routes dst i).length else 0 := by
  rw [hclients]
  apply (weight_posted (MeshPacket.parse_wire _) _).trans
  exact if_congr Option.some_inj rfl rfl

theorem share_relay (hclients : s.clients = t.clients) (i : ι) (dst : PeerId) (channel : Byte) (data : List Byte) :
    t.share n (s.next (.relay i dst channel data)) =
      (if s.calls.length = n then (t.routes dst i).length else 0) + t.share n s := by
  unfold share
  change _ + t.weight n (List.filterMap _ _ ++ s.flight) = _
  rw [weight_append, weight_relay hclients]
  exact Nat.add_left_comm ..

theorem share_deliver_le (hclients : s.clients = t.clients) {index : ℕ} (hp : s.flight[index]? = some p) :
    t.share n ({ s with flight := s.flight.eraseIdx index }.handle p now) ≤ t.share n s := by
  have hle : t.share n ({ s with flight := s.flight.eraseIdx index }.handle p now) ≤
      t.weigh n p + t.share n { s with flight := s.flight.eraseIdx index } := share_handle_le hclients
  apply hle.trans
  unfold share
  rw [weight_eraseIdx hp]
  exact Nat.le_of_eq (Nat.add_left_comm ..)

omit [DecidableEq ι] in
theorem Single.keep (h : t.Single s) {s' : Mesh ι} (hclients : s'.clients = s.clients)
    (hcalls : s'.calls = s.calls) (hle : ∀ n, t.share n s' ≤ t.share n s) : t.Single s' where
  clients := hclients.trans h.clients
  made n := (hle n).trans (h.made n)
  unmade n hn := Nat.le_zero.mp (h.unmade n (hcalls ▸ hn) ▸ hle n)

theorem Single.relay (h : t.Single s) {i : ι} {dst : PeerId} (hone : (t.routes dst i).length ≤ 1)
    (channel : Byte) (data : List Byte) : t.Single (s.next (.relay i dst channel data)) := by
  refine ⟨h.clients, fun n => ?_, fun n hn => ?_⟩
  · rw [share_relay h.clients]
    split
    · rename_i hn
      rw [h.unmade n (Nat.le_of_eq hn)]
      exact hone
    · exact (Nat.zero_add _).symm ▸ h.made n
  · rw [share_relay h.clients]
    change (s.calls ++ [_]).length ≤ n at hn
    rw [List.length_append, List.length_singleton] at hn
    rw [if_neg (Nat.ne_of_lt hn), h.unmade n (Nat.le_of_succ_le hn)]

theorem Single.step (h : t.Single s)
    (hone : ∀ i dst, (sessionOf (t.clients i).peers dst).isNone → (t.routes dst i).length ≤ 1)
    {event : MeshEvent ι} (hsteady : Steady s event) : t.Single (s.next event) := by
  cases event with
  | relay i dst channel data => exact h.relay (hone i dst (h.clients ▸ hsteady.2.2)) channel data
  | deliver index now =>
    cases hp : s.flight[index]? with
    | none => simpa only [Mesh.next, hp] using h
    | some p =>
      simp only [Mesh.next, hp]
      exact h.keep rfl rfl fun n => share_deliver_le h.clients hp
  | lose index => exact h.keep rfl rfl fun n => Nat.add_le_add_left (weight_eraseIdx_le index) _
  | inject => exact hsteady.elim
  | rewire => exact hsteady.elim

theorem single_reachable (hone : ∀ i dst, (sessionOf (t.clients i).peers dst).isNone → (t.routes dst i).length ≤ 1)
    (h : t.system.Reachable s) : t.Single s := by
  refine System.Reachable.invariant ?_ ?_ h
  · rintro s ⟨hclients, _, hflight, _, hmessages, _⟩
    have hshare : ∀ n, t.share n s = 0 := fun n => by simp [share, Mesh.received, hflight, hmessages]
    exact ⟨hclients, fun n => hshare n ▸ Nat.zero_le 1, fun n _ => hshare n⟩
  · rintro s event _ - hs ⟨hsteady, _, rfl⟩
    exact hs.step hone hsteady

section Draining

theorem reachable_next (hs : t.system.Reachable s) (event : MeshEvent ι) (hsteady : Steady s event)
    (hen : s.Enabled event) : t.system.Reachable (s.next event) :=
  hs.step ⟨hsteady, hen, rfl⟩

structure Ready (t : Topology ι) (s : Mesh ι) : Prop where
  reachable : t.system.Reachable s
  clients : s.clients = t.clients
  clock : 0 ≤ s.clock
  kept : ∀ e, (s.buckets e).Kept s.clock

structure Light (p : Flying ι) (pk : MeshPacket) : Prop where
  parse : MeshPacket.parse p.data = some pk
  user : IsUser pk
  size : (p.data.length : ℤ) ≤ meshRate

def Drains (t : Topology ι) (ps : List (Flying ι)) : Prop :=
  ∀ s rest, t.Ready s → s.flight = ps ++ rest →
    ∃ s', t.Ready s' ∧ s'.flight = rest ∧ ∀ n, s'.received n = s.received n + t.weight n ps

theorem drains_nil : t.Drains [] := fun s _ hs hflight => ⟨s, hs, hflight, fun _ => rfl⟩

theorem Drains.append {ps qs : List (Flying ι)} (h : t.Drains ps) (h' : t.Drains qs) : t.Drains (ps ++ qs) := by
  intro s rest hs hflight
  obtain ⟨s₁, hs₁, hflight₁, hreceived₁⟩ := h s (qs ++ rest) hs (hflight.trans (List.append_assoc ..))
  obtain ⟨s₂, hs₂, hflight₂, hreceived₂⟩ := h' s₁ rest hs₁ hflight₁
  refine ⟨s₂, hs₂, hflight₂, fun n => ?_⟩
  rw [hreceived₂, hreceived₁, weight_append, Nat.add_assoc]

theorem drains_of_forall {ps : List (Flying ι)} (h : ∀ p ∈ ps, t.Drains [p]) : t.Drains ps := by
  induction ps with
  | nil => exact drains_nil
  | cons p ps ih =>
    exact (h p (List.mem_cons_self ..)).append (ih fun q hq => h q (List.mem_cons_of_mem _ hq))

theorem Ready.handle (hs : t.Ready s) {pk : MeshPacket} (hlight : Light p pk) {rest : List (Flying ι)}
    (hflight : s.flight = p :: rest) :
    ∃ s', t.Ready s' ∧ s'.flight = t.posted p pk ++ rest ∧
      ∀ n, s'.received n = (t.taken p pk).countP (·.call = some n) + s.received n := by
  obtain ⟨hpass, hnext⟩ := (hs.kept p.target).allow hs.clock hlight.size
  obtain ⟨hbucket, hsends, hrelayed⟩ := @meshHandle_passed ι _ (s.clients p.target.1)
    (s.buckets p.target) (s.clock + 1000) p.target.2 p.data pk hlight.parse hpass
  have hle : s.clock ≤ s.clock + 1000 := by omega
  have hdeliver : s.next (.deliver 0 (s.clock + 1000)) =
      { s with flight := rest }.handle p (s.clock + 1000) := by
    simp [Mesh.next, hflight]
  refine ⟨s.next (.deliver 0 (s.clock + 1000)), ?_, ?_, fun n => ?_⟩
  · refine ⟨reachable_next hs.reachable (.deliver 0 (s.clock + 1000)) trivial hle, ?_, ?_, fun e => ?_⟩
    · rw [hdeliver]
      exact hs.clients
    · rw [hdeliver]
      exact hs.clock.trans hle
    · rw [hdeliver]
      change (Function.update s.buckets p.target _ e).Kept (s.clock + 1000)
      by_cases he : e = p.target
      · subst he
        rw [Function.update_self]
        exact hbucket ▸ hnext.count _
      · rw [Function.update_of_ne he]
        exact (hs.kept e).mono hle
  · rw [hdeliver]
    change List.filterMap _ _ ++ rest = _
    unfold Mesh.handled posted onward
    rw [hsends, hs.clients]
  · rw [hdeliver, received_handle]
    unfold Mesh.handled taken onward
    rw [hrelayed, hs.clients]
    rfl

theorem Light.drains {pk : MeshPacket} (hlight : Light p pk) (hposted : t.Drains (t.posted p pk)) :
    t.Drains [p] := by
  intro s rest hs hflight
  obtain ⟨s₁, hs₁, hflight₁, hreceived₁⟩ := hs.handle hlight hflight
  obtain ⟨s₂, hs₂, hflight₂, hreceived₂⟩ := hposted s₁ rest hs₁ hflight₁
  refine ⟨s₂, hs₂, hflight₂, fun n => ?_⟩
  rw [hreceived₂, hreceived₁, weight_cons, weight_nil, ← weigh_eq hlight.parse hlight.user]
  omega

theorem Light.drains_home {pk : MeshPacket} (hlight : Light p pk)
    (hdst : pk.dst = (t.clients p.target.1).peerId) : t.Drains [p] :=
  hlight.drains (posted_home hdst ▸ drains_nil)

theorem Light.drains_away {m : ℕ} : ∀ {p : Flying ι} {pk : MeshPacket}, Light p pk → pk.ttl.toNat = m →
    t.Drains [p] := by
  induction m with
  | zero =>
    intro p pk hlight hm
    by_cases hdst : pk.dst = (t.clients p.target.1).peerId
    · exact hlight.drains_home hdst
    · apply hlight.drains
      have httl : pk.ttl = 0 := BitVec.eq_of_toNat_eq hm
      unfold posted
      rw [onward_spent hdst httl]
      exact drains_nil
  | succ m ih =>
    intro p pk hlight hm
    by_cases hdst : pk.dst = (t.clients p.target.1).peerId
    · exact hlight.drains_home hdst
    refine hlight.drains (drains_of_forall fun q hq => ?_)
    have httl : pk.ttl ≠ 0 := fun h => by simp [h] at hm
    unfold posted at hq
    rw [onward_sent hdst httl, sendsOf_send] at hq
    obtain ⟨sent, hsent, hcarry⟩ := List.mem_filterMap.mp hq
    obtain ⟨e, hlink, rfl⟩ := Option.map_eq_some_iff.mp hcarry
    unfold MeshClient.meshForwardToPeers at hsent
    split at hsent
    · rename_i k hdirect
      cases List.mem_singleton.mp hsent
      have hfound : ((t.clients p.target.1).peers k).peerId = pk.dst := by
        simpa using List.find?_some hdirect
      have hthere : Light (⟨p.call, e, p.data⟩ : Flying ι) pk := ⟨hlight.parse, hlight.user, hlight.size⟩
      exact hthere.drains_home (hfound ▸ t.authentic _ _ _ hlink)
    · rw [if_neg httl] at hsent
      obtain ⟨k, _, rfl⟩ := List.mem_map.mp hsent
      have hnext : Light (⟨p.call, e, p.data.set 1 (pk.ttl - 1)⟩ : Flying ι) { pk with ttl := pk.ttl - 1 } :=
        ⟨MeshPacket.parse_set _ hlight.parse, hlight.user, by simpa using hlight.size⟩
      apply ih hnext
      change (pk.ttl - 1).toNat = m
      have hle : 1 ≤ pk.ttl := by
        rw [BitVec.le_def, hm]
        exact Nat.le_add_left ..
      rw [BitVec.toNat_sub_of_le hle, hm]
      rfl

theorem userCh_free : userCh ≤ userCh ∧ userCh < attestCh := by decide

omit [DecidableEq ι] in
theorem light_envelope (c : Member ι) (dst : PeerId) (call : Option ℕ) (e : SlotOf ι) :
    Light (⟨call, e, (c.envelope dst userCh []).wire⟩ : Flying ι) (c.envelope dst userCh []) where
  parse := MeshPacket.parse_wire _
  user := userCh_free
  size := by simp [MeshPacket.wire, MeshClient.envelope, meshRate, Bytes.length_eq]

theorem routes_received (t : Topology ι) {i : ι} {dst : PeerId} (hdirect : (sessionOf (t.clients i).peers dst).isNone) :
    ∃ s, t.system.Reachable s ∧ s.received 0 = (t.routes dst i).length := by
  let start : Mesh ι := ⟨t.clients, fun _ => .freed, 0, [], [], []⟩
  have hstart : t.system.Reachable start := .init ⟨rfl, rfl, rfl, rfl, rfl, fun _ => .inr rfl⟩
  have hsent := reachable_next hstart (.relay i dst userCh []) ⟨userCh_free.1, userCh_free.2, hdirect⟩ trivial
  have hready : t.Ready (start.next (.relay i dst userCh [])) := ⟨hsent, rfl, le_rfl, fun _ => Bucket.kept_freed⟩
  have hdrains : t.Drains ((((t.clients i).meshRelaySend dst userCh [])).filterMap
      ((t.clients i).carry (some 0))) := by
    refine drains_of_forall fun p hp => ?_
    obtain ⟨sent, hsent, hcarry⟩ := List.mem_filterMap.mp hp
    obtain ⟨k, _, rfl⟩ := List.mem_map.mp hsent
    obtain ⟨e, _, rfl⟩ := Option.map_eq_some_iff.mp hcarry
    exact (light_envelope (t.clients i) dst (some 0) e).drains_away rfl
  obtain ⟨s, hs, -, hreceived⟩ := hdrains _ [] hready rfl
  refine ⟨s, hs.reachable, (hreceived 0).trans ?_⟩
  refine (Nat.zero_add _).trans ((weight_posted (MeshPacket.parse_wire _) _).trans ?_)
  rfl

end Draining

/-- A message that is relayed arrives at most once, in every run and whatever gets lost, if and only
if no client has two routes to a peer that it has no session with. -/
theorem relayed_once_iff (t : Topology ι) :
    (∀ s, t.system.Reachable s → ∀ n, s.received n ≤ 1) ↔
      ∀ i dst, (sessionOf (t.clients i).peers dst).isNone → (t.routes dst i).length ≤ 1 := by
  constructor
  · intro honce i dst hdirect
    obtain ⟨s, hs, hreceived⟩ := t.routes_received hdirect
    exact hreceived ▸ honce s hs 0
  · intro hone s hs n
    exact (Nat.le_add_right ..).trans ((single_reachable hone hs).made n)

end Runs

section Diamond

def ofSessions {ι : Type u} (peerId : ι → PeerId) (session : ι → Fin maxPeers → Option (SlotOf ι)) :
    Topology ι where
  clients i := {
    peerId := peerId i
    peers k :=
      match session i k with
      | some e => ⟨peerId e.1, .connected, some (some e)⟩
      | none => ⟨Bytes.fill 32 0, .free, none⟩ }
  authentic i k e hlink := by
    unfold MeshClient.link at hlink
    cases hsession : session i k with
    | none => simp [hsession] at hlink
    | some e' =>
      simp only [hsession, Option.join_some, Option.some.injEq] at hlink
      simp only [hsession, hlink]

section Diamond

local instance fourClients : NeZero 4 := ⟨Nat.succ_ne_zero 3⟩

def diamondSessions : List (List (SlotOf (Fin 4))) :=
  [[(1, 0), (2, 0)], [(0, 0), (3, 0)], [(0, 1), (3, 1)], [(1, 1), (2, 1)]]

end Diamond

def diamond : Topology (Fin 4) :=
  ofSessions (fun i => (member (BitVec.ofNat 8 (i + 1))).peerId) fun i k =>
    diamondSessions[i.val]? >>= fun slots => slots[k.val]?

theorem diamond_routes :
    (sessionOf (diamond.clients 0).peers (member 4).peerId).isNone ∧
    diamond.routes (member 4).peerId 0 = [[0, 1], [1, 1]] := by decide +kernel

theorem relayed_twice : ¬ ∀ s, diamond.system.Reachable s → ∀ n, s.received n ≤ 1 := by
  intro honce
  obtain ⟨s, hs, hreceived⟩ := diamond.routes_received diamond_routes.1
  have htwice := honce s hs 0
  rw [hreceived, diamond_routes.2] at htwice
  exact absurd htwice (by decide)

end Diamond

end Topology

end YumiBrowser.Client
