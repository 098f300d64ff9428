import Mathlib.Data.List.Chain
import YumiBrowser.Network.ReliableReceive

universe u

namespace YumiBrowser.Udp

open Transition

variable {α : Type u}

structure UnrelReceiver where
  started : Bool
  next : BitVec 32

def UnrelReceiver.fresh : UnrelReceiver := ⟨false, 0⟩

def UnrelReceiver.start (r : UnrelReceiver) (seq : BitVec 32) : UnrelReceiver :=
  if r.started then r else ⟨true, seq⟩

/-- The unreliable path of `worker_recv`, and whether it calls `recv_cb`. -/
def workerRecvUnreliable (r : UnrelReceiver) (seq : BitVec 32) : UnrelReceiver × Bool :=
  let r := r.start seq
  if Serial.dist seq r.next < 0 then (r, false) else ({ r with next := seq + 1 }, true)

/-- A packet that is no ACK and no probe; its payload is clamped already. -/
structure DataPacket (α : Type u) where
  channel : BitVec 8
  reliable : Bool
  seq : BitVec 32
  payload : α

structure Lane (α : Type u) where
  reliable : Receiver α
  unreliable : UnrelReceiver

/-- The receive state of all channels, and what has arrived and was handed to `recv_cb` so far. -/
structure Inbox (α : Type u) where
  lane : BitVec 8 → Lane α
  arrived : List (DataPacket α)
  delivered : List (DataPacket α)

namespace Inbox

def fresh : Inbox α where
  lane _ := ⟨.fresh, .fresh⟩
  arrived := []
  delivered := []

/-- The reliable half of what `worker_recv` does with a data packet. -/
def recvReliable (s : Inbox α) (p : DataPacket α) : Inbox α :=
  let lane := s.lane p.channel
  let r := workerRecv lane.reliable p.seq p.payload
  { lane := Function.update s.lane p.channel { lane with reliable := r.receiver }
    arrived := s.arrived ++ [p]
    delivered := s.delivered ++ r.delivered.map fun x => { p with seq := x.1, payload := x.2 } }

def recvUnreliable (s : Inbox α) (p : DataPacket α) : Inbox α :=
  let lane := s.lane p.channel
  let r := workerRecvUnreliable lane.unreliable p.seq
  { lane := Function.update s.lane p.channel { lane with unreliable := r.1 }
    arrived := s.arrived ++ [p]
    delivered := if r.2 then s.delivered ++ [p] else s.delivered }

def recv (s : Inbox α) (p : DataPacket α) : Inbox α :=
  if p.reliable then s.recvReliable p else s.recvUnreliable p

def handed (s : Inbox α) (channel : BitVec 8) (reliable : Bool) : List (DataPacket α) :=
  s.delivered.filter fun p => p.channel = channel ∧ p.reliable = reliable

def seqs (s : Inbox α) (channel : BitVec 8) (reliable : Bool) : List (BitVec 32) :=
  (s.handed channel reliable).map DataPacket.seq

end Inbox

/-- An occupied slot is the one of its number, and that lies ahead of the next one, in the window. -/
def Receiver.InWindow (r : Receiver α) (least : ℤ) : Prop :=
  ∀ i seq data, r.slots i = some (seq, data) →
    i = slotIndex seq ∧ least ≤ Serial.dist seq r.next ∧ Serial.dist seq r.next < reorderWindow

def Advances (a b : BitVec 32) : Prop := 0 < Serial.dist b a ∨ b = a + 2 ^ 31

/-- What holds of the receive state and of what was handed up by it. -/
structure Inbox.Ordered (s : Inbox α) : Prop where
  consecutive : ∀ channel, (s.seqs channel true).IsChain fun a b => b = a + 1
  once : ∀ channel j d (hk : j + d < (s.seqs channel true).length), 0 < d → d < 2 ^ 32 →
    (s.seqs channel true)[j] ≠ (s.seqs channel true)[j + d]
  received : ∀ p ∈ s.delivered, p ∈ s.arrived
  window : ∀ channel, (s.lane channel).reliable.InWindow 1
  advances : ∀ channel, (s.seqs channel false).IsChain Advances

section Drain

variable {r : Receiver α}

theorem Receiver.InWindow.pop (h : r.InWindow 0) : r.pop.InWindow 0 := by
  intro i seq data hslot
  rw [pop_slots, Function.update_apply] at hslot
  split at hslot
  · exact nomatch hslot
  · next hi =>
    obtain ⟨hidx, hle, hlt⟩ := h i seq data hslot
    have hne : seq ≠ r.next := by
      intro heq
      rw [heq] at hidx
      exact hi hidx
    have hpos : 0 < Serial.dist seq r.next := lt_of_le_of_ne hle fun heq => hne (Serial.dist_eq_zero.mp heq.symm)
    rw [pop_next, Serial.dist_succ hpos]
    exact ⟨hidx, by omega, by omega⟩

theorem drainLoop_consecutive (rounds : ℕ) (r : Receiver α) (h : r.InWindow 0) :
    (drainLoop rounds r).1.InWindow 0 ∧ ∃ rest, (r.next :: rest).IsChain (fun a b => b = a + 1) ∧
      (drainLoop rounds r).2.map Prod.fst ++ [(drainLoop rounds r).1.next] = r.next :: rest := by
  induction rounds generalizing r with
  | zero => exact ⟨h, [], .singleton _, rfl⟩
  | succ rounds ih =>
    rw [drainLoop]
    cases hget : r.get r.next with
    | none => exact ⟨h, [], .singleton _, rfl⟩
    | some data =>
      obtain ⟨hwin, rest, hchain, hnums⟩ := ih r.pop h.pop
      exact ⟨hwin, (r.next + 1) :: rest, .cons_cons rfl hchain, congrArg (r.next :: ·) hnums⟩

theorem Receiver.InWindow.strict (h : r.InWindow 0) (hdone : r.get r.next = none) : r.InWindow 1 := by
  intro i seq data hslot
  obtain ⟨rfl, hle, hlt⟩ := h i seq data hslot
  refine ⟨rfl, ?_, hlt⟩
  have hne : Serial.dist seq r.next ≠ 0 := by
    intro heq
    obtain rfl := Serial.dist_eq_zero.mp heq
    rw [Receiver.get, hslot] at hdone
    simp at hdone
  omega

end Drain

section Reliable

structure Receiver.Handed (r : Receiver α) (seqs : List (BitVec 32)) : Prop where
  idle : r.started = false → seqs = [] ∧ ∀ i, r.slots i = none
  chain : r.started = true → (seqs ++ [r.next]).IsChain fun a b => b = a + 1
  window : r.InWindow 1

variable {r : Receiver α} {seqs : List (BitVec 32)}

theorem Receiver.Handed.start (h : r.Handed seqs) (seq : BitVec 32) : (r.start seq).Handed seqs := by
  unfold Receiver.start
  split
  · exact h
  · next hidle =>
    obtain ⟨rfl, hnone⟩ := h.idle (eq_false_of_ne_true hidle)
    refine ⟨(fun heq => nomatch heq), fun _ => .singleton _, fun i seq data hslot => ?_⟩
    exact nomatch (hnone i).symm.trans hslot

theorem Receiver.InWindow.store (h : r.InWindow 1) {seq : BitVec 32} (data : α)
    (hpos : 0 < Serial.dist seq r.next) (hlt : Serial.dist seq r.next < reorderWindow) :
    (r.store seq data).InWindow 1 := by
  intro i seq' data' hslot
  rw [Receiver.store_slots] at hslot
  split at hslot
  · rw [Function.update_apply] at hslot
    split at hslot
    · next hi =>
      cases hslot
      exact ⟨hi, hpos, hlt⟩
    · exact h i seq' data' hslot
  · exact h i seq' data' hslot

theorem Receiver.Handed.next (h : r.Handed seqs) (hstarted : r.started = true) :
    (workerReorderDrain { r with next := r.next + 1 }).1.Handed
      (seqs ++ r.next :: (workerReorderDrain { r with next := r.next + 1 }).2.map Prod.fst) := by
  have hwindow : ({ r with next := r.next + 1 } : Receiver α).InWindow 0 := by
    intro i seq data hslot
    obtain ⟨hidx, hle, hlt⟩ := h.window i seq data hslot
    change _ ∧ 0 ≤ Serial.dist seq (r.next + 1) ∧ Serial.dist seq (r.next + 1) < _
    rw [Serial.dist_succ (by omega)]
    exact ⟨hidx, by omega, by omega⟩
  obtain ⟨hwin, rest, hchain, hnums⟩ := drainLoop_consecutive reorderWindow _ hwindow
  have hstarts : (workerReorderDrain { r with next := r.next + 1 }).1.started = true :=
    (drainLoop_started reorderWindow _).trans hstarted
  refine ⟨(fun hidle => nomatch hstarts.symm.trans hidle), fun _ => ?_, ?_⟩
  · have hall : seqs ++ r.next :: (workerReorderDrain { r with next := r.next + 1 }).2.map Prod.fst ++
        [(workerReorderDrain { r with next := r.next + 1 }).1.next] =
          (seqs ++ [r.next]) ++ (r.next + 1) :: rest := by
      unfold workerReorderDrain
      simpa using hnums
    rw [hall]
    refine List.isChain_append.mpr ⟨h.chain hstarted, hchain, ?_⟩
    simp
  · exact hwin.strict (drainLoop_done _ (Receiver.occupied_le _))

theorem Receiver.Handed.recv (h : r.Handed seqs) (seq : BitVec 32) (data : α) :
    (workerRecv r seq data).receiver.Handed (seqs ++ (workerRecv r seq data).delivered.map Prod.fst) := by
  have hstarted : (r.start seq).started = true := start_started r seq
  have hstart := h.start seq
  unfold workerRecv
  generalize r.start seq = r at hstart hstarted
  have hsame : r.Handed (seqs ++ []) := by
    rw [List.append_nil]
    exact hstart
  unfold receiveStarted
  dsimp only
  split
  · exact hsame
  · next hnonneg =>
    split
    · next hzero =>
      obtain rfl := Serial.dist_eq_zero.mp hzero
      exact hstart.next hstarted
    · next hne =>
      split
      · next hlt =>
        have hwindow := hstart.window.store data (by omega) hlt
        refine ⟨(fun hidle => nomatch hstarted.symm.trans hidle), fun _ => ?_, hwindow⟩
        exact hsame.chain hstarted
      · exact hsame

end Reliable

section Unreliable

theorem advances_of_next {a b : BitVec 32} (h : 0 ≤ Serial.dist b (a + 1)) : Advances a b := by
  unfold Serial.dist at h
  unfold Advances Serial.dist
  by_cases hhalf : b = a + 2 ^ 31
  · exact .inr hhalf
  · refine .inl ?_
    have hne : b - (a + 1) ≠ 2 ^ 31 - 1 := by
      intro heq
      exact hhalf (by bv_omega)
    have hlt : (b - (a + 1)).toNat < 2 ^ 31 := by
      by_contra hge
      rw [BitVec.toInt_eq_toNat_cond] at h
      split at h <;> omega
    have hnat : (b - a).toNat = (b - (a + 1)).toNat + 1 := by bv_omega
    have hbound : (b - (a + 1)).toNat ≠ 2 ^ 31 - 1 := fun heq => hne (BitVec.eq_of_toNat_eq heq)
    rw [BitVec.toInt_eq_toNat_cond]
    split <;> omega

structure UnrelReceiver.Handed (r : UnrelReceiver) (seqs : List (BitVec 32)) : Prop where
  idle : r.started = false → seqs = []
  last : ∀ seq ∈ seqs.getLast?, r.next = seq + 1
  chain : seqs.IsChain Advances

theorem UnrelReceiver.Handed.recv {r : UnrelReceiver} {seqs : List (BitVec 32)} (h : r.Handed seqs)
    (seq : BitVec 32) : (workerRecvUnreliable r seq).1.Handed
      (seqs ++ if (workerRecvUnreliable r seq).2 then [seq] else []) := by
  have hstart : (r.start seq).Handed seqs := by
    unfold UnrelReceiver.start
    split
    · exact h
    · next hidle =>
      obtain rfl := h.idle (eq_false_of_ne_true hidle)
      exact ⟨(fun _ => rfl), (fun _ hin => nomatch hin), .nil⟩
  have hstarted : (r.start seq).started = true := by
    unfold UnrelReceiver.start
    split
    · assumption
    · rfl
  unfold workerRecvUnreliable
  generalize r.start seq = r at hstart hstarted
  dsimp only
  split
  · rw [if_neg Bool.false_ne_true, List.append_nil]
    exact hstart
  · next hahead =>
    rw [if_pos rfl]
    refine ⟨(fun hidle => nomatch hstarted.symm.trans hidle), fun last hlast => ?_, ?_⟩
    · rw [List.getLast?_concat] at hlast
      cases hlast
      rfl
    · refine List.isChain_append.mpr ⟨hstart.chain, .singleton _, fun a ha b hb => ?_⟩
      cases hb
      apply advances_of_next
      rw [← hstart.last a ha]
      omega

end Unreliable

namespace Inbox

variable {s : Inbox α}

structure Inv (s : Inbox α) : Prop where
  reliable : ∀ channel, (s.lane channel).reliable.Handed (s.seqs channel true)
  unreliable : ∀ channel, (s.lane channel).unreliable.Handed (s.seqs channel false)
  stored : ∀ channel i seq data, (s.lane channel).reliable.slots i = some (seq, data) →
    ⟨channel, true, seq, data⟩ ∈ s.arrived
  received : ∀ p ∈ s.delivered, p ∈ s.arrived

theorem seqs_append {t : Inbox α} {xs : List (DataPacket α)} (h : t.delivered = s.delivered ++ xs)
    (channel : BitVec 8) (reliable : Bool) (hxs : ∀ x ∈ xs, x.channel = channel ∧ x.reliable = reliable) :
    t.seqs channel reliable = s.seqs channel reliable ++ xs.map DataPacket.seq := by
  have hall : xs.filter (fun p => p.channel = channel ∧ p.reliable = reliable) = xs :=
    List.filter_eq_self.mpr fun x hx => decide_eq_true (hxs x hx)
  rw [seqs, handed, h, List.filter_append, hall, List.map_append]
  rfl

theorem seqs_append_other {t : Inbox α} {xs : List (DataPacket α)} (h : t.delivered = s.delivered ++ xs)
    (channel : BitVec 8) (reliable : Bool)
    (hxs : ∀ x ∈ xs, ¬ (x.channel = channel ∧ x.reliable = reliable)) :
    t.seqs channel reliable = s.seqs channel reliable := by
  have hnone : xs.filter (fun p => p.channel = channel ∧ p.reliable = reliable) = [] :=
    List.filter_eq_nil_iff.mpr fun x hx => by simpa using hxs x hx
  rw [seqs, handed, h, List.filter_append, hnone, List.append_nil]
  rfl

theorem Inv.recvReliable (h : s.Inv) {p : DataPacket α} (hp : p.reliable = true) : (s.recvReliable p).Inv := by
  let r := workerRecv (s.lane p.channel).reliable p.seq p.payload
  let xs := r.delivered.map fun x => { p with seq := x.1, payload := x.2 }
  have hdelivered : (s.recvReliable p).delivered = s.delivered ++ xs := rfl
  have hxs : ∀ x ∈ xs, x.channel = p.channel ∧ x.reliable = true := by
    intro x hx
    obtain ⟨_, _, rfl⟩ := List.mem_map.mp hx
    exact ⟨rfl, hp⟩
  have hseqs : xs.map DataPacket.seq = r.delivered.map Prod.fst := by
    rw [List.map_map]
    rfl
  have hold : ∀ channel i seq data, (s.lane channel).reliable.slots i = some (seq, data) →
      ⟨channel, true, seq, data⟩ ∈ (s.recvReliable p).arrived :=
    fun channel i seq data hslot => List.mem_append_left _ (h.stored channel i seq data hslot)
  have hnew : p ∈ (s.recvReliable p).arrived := List.mem_append_right _ (List.mem_singleton_self p)
  obtain ⟨hout, hslots⟩ := mem_workerRecv (s.lane p.channel).reliable p.seq p.payload
  refine ⟨fun channel => ?_, fun channel => ?_, fun channel i seq data hslot => ?_, fun x hx => ?_⟩
  · by_cases hchannel : channel = p.channel
    · subst hchannel
      rw [seqs_append hdelivered _ _ hxs, hseqs]
      change (Function.update s.lane p.channel _ p.channel).reliable.Handed _
      rw [Function.update_self]
      exact (h.reliable p.channel).recv p.seq p.payload
    · rw [seqs_append_other hdelivered _ _ fun x hx hsame => hchannel (hsame.1.symm.trans (hxs x hx).1)]
      change (Function.update s.lane p.channel _ channel).reliable.Handed _
      rw [Function.update_of_ne hchannel]
      exact h.reliable channel
  · rw [seqs_append_other hdelivered channel false fun x hx hsame =>
      Bool.false_ne_true (hsame.2.symm.trans (hxs x hx).2)]
    change (Function.update s.lane p.channel _ channel).unreliable.Handed _
    rw [Function.update_apply]
    split
    · next hchannel => exact hchannel ▸ h.unreliable p.channel
    · exact h.unreliable channel
  · change (Function.update s.lane p.channel _ channel).reliable.slots i = _ at hslot
    rw [Function.update_apply] at hslot
    split at hslot
    · next hchannel =>
      subst hchannel
      cases hslots i _ hslot with
      | inl heq =>
        cases heq
        rw [← hp]
        exact hnew
      | inr hslot => exact hold p.channel i seq data hslot
    · exact hold channel i seq data hslot
  · cases List.mem_append.mp (hdelivered ▸ hx) with
    | inl hx => exact List.mem_append_left _ (h.received x hx)
    | inr hx =>
      obtain ⟨y, hy, rfl⟩ := List.mem_map.mp hx
      cases hout y hy with
      | inl heq =>
        rw [heq]
        exact hnew
      | inr hslot =>
        obtain ⟨i, hslot⟩ := hslot
        rw [hp]
        exact hold p.channel i y.1 y.2 hslot

theorem Inv.recvUnreliable (h : s.Inv) {p : DataPacket α} (hp : p.reliable = false) :
    (s.recvUnreliable p).Inv := by
  let r := workerRecvUnreliable (s.lane p.channel).unreliable p.seq
  let xs := if r.2 then [p] else []
  have hdelivered : (s.recvUnreliable p).delivered = s.delivered ++ xs := by
    change (if r.2 then s.delivered ++ [p] else s.delivered) = s.delivered ++ if r.2 then [p] else []
    split
    · rfl
    · exact (List.append_nil _).symm
  have hmem : ∀ x ∈ xs, x = p := by
    intro x hx
    change x ∈ (if r.2 then [p] else []) at hx
    split at hx
    · exact List.mem_singleton.mp hx
    · exact nomatch hx
  have hxs : ∀ x ∈ xs, x.channel = p.channel ∧ x.reliable = false := by
    intro x hx
    rw [hmem x hx]
    exact ⟨rfl, hp⟩
  have hseqs : xs.map DataPacket.seq = if r.2 then [p.seq] else [] := by
    change (if r.2 then [p] else []).map DataPacket.seq = _
    split <;> rfl
  refine ⟨fun channel => ?_, fun channel => ?_, fun channel i seq data hslot => ?_, fun x hx => ?_⟩
  · rw [seqs_append_other hdelivered channel true fun x hx hsame =>
      Bool.false_ne_true.symm (hsame.2.symm.trans (hxs x hx).2)]
    change (Function.update s.lane p.channel _ channel).reliable.Handed _
    rw [Function.update_apply]
    split
    · next hchannel => exact hchannel ▸ h.reliable p.channel
    · exact h.reliable channel
  · by_cases hchannel : channel = p.channel
    · subst hchannel
      rw [seqs_append hdelivered _ _ hxs, hseqs]
      change (Function.update s.lane p.channel _ p.channel).unreliable.Handed _
      rw [Function.update_self]
      exact (h.unreliable p.channel).recv p.seq
    · rw [seqs_append_other hdelivered _ _ fun x hx hsame => hchannel (hsame.1.symm.trans (hxs x hx).1)]
      change (Function.update s.lane p.channel _ channel).unreliable.Handed _
      rw [Function.update_of_ne hchannel]
      exact h.unreliable channel
  · change (Function.update s.lane p.channel _ channel).reliable.slots i = _ at hslot
    rw [Function.update_apply] at hslot
    apply List.mem_append_left _
    split at hslot
    · next hchannel =>
      subst hchannel
      exact h.stored p.channel i seq data hslot
    · exact h.stored channel i seq data hslot
  · cases List.mem_append.mp (hdelivered ▸ hx) with
    | inl hx => exact List.mem_append_left _ (h.received x hx)
    | inr hx =>
      rw [hmem x hx]
      exact List.mem_append_right _ (List.mem_singleton_self p)

theorem Inv.recv (h : s.Inv) (p : DataPacket α) : (s.recv p).Inv := by
  unfold Inbox.recv
  split
  · next hp => exact h.recvReliable hp
  · next hp => exact h.recvUnreliable (eq_false_of_ne_true hp)

theorem inv_fresh : (fresh : Inbox α).Inv where
  reliable _ := ⟨fun _ => ⟨rfl, fun _ => rfl⟩, (fun heq => nomatch heq), fun _ _ _ hslot => nomatch hslot⟩
  unreliable _ := ⟨fun _ => rfl, (fun _ hin => nomatch hin), .nil⟩
  stored _ _ _ _ hslot := nomatch hslot
  received _ hin := nomatch hin

theorem inv_foldl (ps : List (DataPacket α)) (h : s.Inv) : (ps.foldl recv s).Inv := by
  induction ps generalizing s with
  | nil => exact h
  | cons p ps ih => exact ih (h.recv p)

theorem Inv.ordered (h : s.Inv) : s.Ordered := by
  have hconsecutive : ∀ channel, (s.seqs channel true).IsChain fun a b => b = a + 1 := by
    intro channel
    cases hstarted : (s.lane channel).reliable.started with
    | true => exact (List.isChain_append.mp ((h.reliable channel).chain hstarted)).1
    | false =>
      rw [((h.reliable channel).idle hstarted).1]
      exact .nil
  exact ⟨hconsecutive, fun channel j d hk hd hlt => Serial.ne_of_consecutive (hconsecutive channel) hd hlt hk,
    h.received, fun channel => (h.reliable channel).window, fun channel => (h.unreliable channel).chain⟩

/-- Whatever arrives, in whatever order: what is handed up of the reliable packets of a channel goes
from number to number, what is handed up of the others goes ahead, and the reorder slots hold what is
ahead of the next number. -/
theorem ordered_delivery (ps : List (DataPacket α)) : (ps.foldl recv fresh).Ordered :=
  (inv_foldl ps inv_fresh).ordered

-- A packet half a circle after the last one is handed up, and the signed comparison puts it before.
theorem half_circle_jump : ¬ ∀ (ps : List (DataPacket Unit)) (channel : BitVec 8),
    ((ps.foldl recv fresh).seqs channel false).IsChain fun a b => 0 < Serial.dist b a := by
  intro h
  have hchain := h [⟨0, false, 0, ()⟩, ⟨0, false, 2 ^ 31, ()⟩] 0
  have hseqs : ([⟨0, false, 0, ()⟩, ⟨0, false, 2 ^ 31, ()⟩].foldl recv (fresh : Inbox Unit)).seqs 0 false =
      [0, 2 ^ 31] := by decide
  rw [hseqs] at hchain
  exact absurd hchain (by decide)

end Inbox

end YumiBrowser.Udp
