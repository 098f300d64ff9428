import YumiBrowser.Network.Pacing

universe u

namespace YumiBrowser.Udp

open Transition

deriving instance DecidableEq for Ticket, Sent

namespace SendPool

variable {ι : Type u} {workers maxPayload : ℕ} {p q : SendPool ι} {e : Event ι} {w : ℕ} {x : Ticket ι}

def channelLog (p : SendPool ι) (ch : BitVec 8) : List (Sent ι) :=
  p.sent.filter fun e => e.ticket.work.type = .sendReliable ∧ e.ticket.work.channel = ch

def takenBy (p : SendPool ι) (w : ℕ) : List (Ticket ι) := (List.range (p.rings w).taken).filterMap (p.rings w).filled

structure Ledger (p : SendPool ι) : Prop where
  full : ∀ w n, n < (p.rings w).taken → (p.rings w).filled n ≠ none
  sent : ∀ w, (p.sent.filter fun e => e.worker = w).map Sent.ticket = (p.takenBy w).filter fun x => x.work.Sends
  counted : ∀ ch, (p.channelLog ch).map Sent.seq = List.range (p.relSeq ch)

theorem ledger_create (sendRr : BitVec 64) : (create sendRr : SendPool ι).Ledger where
  full _ _ h := absurd h (Nat.not_lt_zero _)
  sent _ := rfl
  counted _ := rfl

theorem Ledger.mono (h : p.Ledger) (hsent : q.sent = p.sent) (hrel : q.relSeq = p.relSeq)
    (hrings : ∀ w, (q.rings w).taken = (p.rings w).taken ∧
      ∀ n < (p.rings w).taken, (q.rings w).filled n = (p.rings w).filled n) : q.Ledger where
  full w n hn := by
    rw [(hrings w).1] at hn
    rw [(hrings w).2 n hn]
    exact h.full w n hn
  sent w := by
    have htaken : q.takenBy w = p.takenBy w := by
      unfold takenBy
      rw [(hrings w).1]
      exact List.filterMap_congr fun n hn => (hrings w).2 n (List.mem_range.mp hn)
    rw [hsent, htaken]
    exact h.sent w
  counted ch := by
    unfold channelLog
    rw [hsent, hrel]
    exact h.counted ch

theorem Ledger.setRing (h : p.Ledger) (w : ℕ) {r : ReservedQueue (Ticket ι)} (htaken : r.taken = (p.rings w).taken)
    (hfilled : ∀ n < (p.rings w).taken, r.filled n = (p.rings w).filled n) : (p.setRing w r).Ledger := by
  refine h.mono rfl rfl fun v => ?_
  by_cases hv : v = w
  · subst hv
    rw [rings_setRing_self]
    exact ⟨htaken, hfilled⟩
  · rw [rings_setRing_of_ne hv]
    exact ⟨rfl, fun _ _ => rfl⟩

theorem takenBy_congr (h : q.rings w = p.rings w) : q.takenBy w = p.takenBy w := by
  unfold takenBy
  rw [h]

theorem takenBy_take (hx : (p.rings w).front = some x) (hrings : q.rings w = (p.rings w).take) :
    q.takenBy w = p.takenBy w ++ [x] := by
  have hplace : (p.rings w).filled (p.rings w).taken = some x := hx
  unfold takenBy
  rw [hrings]
  change (List.range ((p.rings w).taken + 1)).filterMap (p.rings w).filled = _
  rw [List.range_succ, List.filterMap_append, List.filterMap_cons, hplace]
  rfl

theorem Ledger.take (h : p.Ledger) (hx : (p.rings w).front = some x)
    (hrings : q.rings = Function.update p.rings w (p.rings w).take)
    (hsent : if x.work.Sends then ∃ seq, q.sent = p.sent ++ [⟨w, x, seq⟩] else q.sent = p.sent)
    (hcounted : ∀ ch, (q.channelLog ch).map Sent.seq = List.range (q.relSeq ch)) : q.Ledger where
  full v n hn := by
    rw [hrings] at hn ⊢
    by_cases hv : v = w
    · subst hv
      rw [Function.update_self] at hn ⊢
      obtain hlt | heq := Nat.lt_succ_iff_lt_or_eq.mp hn
      · exact h.full v n hlt
      · intro hnone
        have hfront : (p.rings v).front = none := by
          rw [ReservedQueue.front, ← heq]
          exact hnone
        rw [hx] at hfront
        cases hfront
    · rw [Function.update_of_ne hv] at hn ⊢
      exact h.full v n hn
  sent v := by
    by_cases hv : v = w
    · subst hv
      rw [takenBy_take hx (by rw [hrings, Function.update_self]), List.filter_append, ← h.sent v]
      by_cases hsends : x.work.Sends
      · rw [if_pos hsends] at hsent
        obtain ⟨seq, hsent⟩ := hsent
        rw [hsent, List.filter_append, List.map_append]
        simp [hsends]
      · rw [if_neg hsends] at hsent
        rw [hsent]
        simp [hsends]
    · rw [takenBy_congr (p := p) (by rw [hrings, Function.update_of_ne hv]), ← h.sent v]
      split at hsent
      · obtain ⟨seq, hsent⟩ := hsent
        rw [hsent, List.filter_append, List.map_append]
        simp [Ne.symm hv]
      · rw [hsent]
  counted := hcounted

theorem channelLog_append {seq : ℕ} (hsent : q.sent = p.sent ++ [⟨w, x, seq⟩]) (ch : BitVec 8) :
    q.channelLog ch = p.channelLog ch ++
      if x.work.type = .sendReliable ∧ x.work.channel = ch then [⟨w, x, seq⟩] else [] := by
  unfold channelLog
  rw [hsent, List.filter_append]
  congr 1
  by_cases hon : x.work.type = .sendReliable ∧ x.work.channel = ch
  · simp [hon]
  · rw [if_neg hon, List.filter_cons_of_neg (by simpa using hon)]
    rfl

theorem Ledger.drain (h : p.Ledger) (hx : (p.rings w).front = some x) : (p.drain w x).Ledger := by
  obtain ⟨hrings, seq, hsent, hrel, hother⟩ := p.sendWorkerProcessItem_sends w x
  have hcounted (ch : BitVec 8) : ((p.sendWorkerProcessItem w x).channelLog ch).map Sent.seq =
      List.range ((p.sendWorkerProcessItem w x).relSeq ch) := by
    rw [channelLog_append hsent, List.map_append, h.counted ch]
    by_cases htype : x.work.type = .sendReliable
    · obtain ⟨rfl, hnext⟩ := hrel htype
      rw [hnext]
      by_cases hch : x.work.channel = ch
      · subst hch
        rw [if_pos ⟨htype, rfl⟩, Function.update_self, List.range_succ]
        rfl
      · rw [if_neg fun hon => hch hon.2, Function.update_of_ne (Ne.symm hch)]
        exact List.append_nil _
    · rw [if_neg fun hon => htype hon.1, hother htype]
      exact List.append_nil _
  have hsend (hsends : x.work.Sends) :
      ((p.sendWorkerProcessItem w x).setRing w (p.rings w).take).Ledger := by
    refine h.take hx ?_ ?_ hcounted
    · rw [← hrings]
      rfl
    · rw [if_pos hsends]
      exact ⟨seq, hsent⟩
  unfold SendPool.drain
  split
  · exact h.mono rfl rfl fun _ => ⟨rfl, fun _ _ => rfl⟩
  · next htype =>
    refine h.take hx rfl ?_ h.counted
    rw [if_neg (by simp [WorkItem.Sends, htype])]
    rfl
  · next htype => exact hsend (.inr htype)
  · next htype => exact hsend (.inl htype)

theorem Ledger.step [DecidableEq ι] (h : p.Ledger) (hinv : p.Inv) (hstep : Step workers maxPayload p e q) :
    q.Ledger := by
  cases hstep with
  | call i work =>
    unfold enqueueWork
    split
    · exact h
    · exact h.mono rfl rfl fun _ => ⟨rfl, fun _ _ => rfl⟩
  | reserve i =>
    exact Ledger.mono (p := p.setRing _ (p.rings _).reserve) (h.setRing _ rfl fun _ _ => rfl) rfl rfl
      fun _ => ⟨rfl, fun _ _ => rfl⟩
  | commit i hi =>
    obtain ⟨-, hnone, -⟩ := hinv.holding _ _ _ _ hi
    refine Ledger.mono (p := p.setRing _ ((p.rings _).fill _ _)) (h.setRing _ rfl fun n hn => ?_) rfl rfl
      fun _ => ⟨rfl, fun _ _ => rfl⟩
    refine ReservedQueue.filled_fill_of_ne ?_
    rintro rfl
    exact h.full _ _ hn hnone
  | drain w _ _ hx => exact h.drain hx
  | _ => exact h.mono rfl rfl fun _ => ⟨rfl, fun _ _ => rfl⟩

theorem mem_sent_drain (w : ℕ) (x : Ticket ι) {a : Sent ι} (ha : a ∈ p.sent) : a ∈ (p.drain w x).sent := by
  have hdrain := PacedPool.sent_drain p w x
  have happend (hsends : x.work.Sends) : a ∈ (p.drain w x).sent := by
    obtain ⟨seq, hsent⟩ := hdrain.1 hsends
    rw [hsent]
    exact List.mem_append_left _ ha
  cases htype : x.work.type with
  | shutdown => rwa [hdrain.2 (.inl htype)]
  | userCb => rwa [hdrain.2 (.inr htype)]
  | sendUnreliable => exact happend (.inr htype)
  | sendReliable => exact happend (.inl htype)

theorem sent_grows [DecidableEq ι] (hstep : Step workers maxPayload p e q) {a : Sent ι} (ha : a ∈ p.sent) :
    a ∈ q.sent := by
  cases hstep with
  | call i work =>
    unfold enqueueWork
    split
    · exact ha
    · exact ha
  | drain w => exact mem_sent_drain _ _ ha
  | _ => exact ha

theorem ledger_reachable [DecidableEq ι] (h : (sendSystem ι workers maxPayload).Reachable p) : p.Ledger := by
  refine System.Reachable.invariant_under (J := SendPool.Inv) (fun s hs => (reachable_inv hs).1) ?_
    (fun s e t hinv hledger hstep => hledger.step hinv hstep) h
  rintro s ⟨sendRr, rfl⟩
  exact ledger_create sendRr

theorem Ledger.mem_takenBy (h : p.Ledger) {a : Sent ι} (ha : a ∈ p.sent) :
    a.ticket ∈ p.takenBy a.worker ∧ a.ticket.work.Sends := by
  have hmine : a.ticket ∈ (p.sent.filter fun b => b.worker = a.worker).map Sent.ticket :=
    List.mem_map_of_mem (List.mem_filter.mpr ⟨ha, decide_eq_true rfl⟩)
  rw [h.sent a.worker] at hmine
  obtain ⟨htaken, hsends⟩ := List.mem_filter.mp hmine
  exact ⟨htaken, of_decide_eq_true hsends⟩

theorem Ledger.length_log (h : p.Ledger) (ch : BitVec 8) : (p.channelLog ch).length = p.relSeq ch := by
  have hlength := congrArg List.length (h.counted ch)
  rwa [List.length_map, List.length_range] at hlength

theorem Ledger.place (h : p.Ledger) {ch : BitVec 8} {a : Sent ι} (ha : a ∈ p.channelLog ch) :
    (p.channelLog ch)[a.seq]? = some a ∧ a.seq < p.relSeq ch := by
  obtain ⟨j, hj, rfl⟩ := List.getElem_of_mem ha
  have hcount : ((p.channelLog ch).map Sent.seq)[j]? = (List.range (p.relSeq ch))[j]? := by rw [h.counted ch]
  have hlength := h.length_log ch
  rw [List.getElem?_map, List.getElem?_eq_getElem hj, List.getElem?_range (hlength ▸ hj)] at hcount
  have hseq : (p.channelLog ch)[j].seq = j := Option.some.inj hcount
  rw [hseq]
  exact ⟨List.getElem?_eq_getElem hj, hlength ▸ hj⟩

theorem Ledger.log_tickets (h : p.Ledger) (hone : ∀ a ∈ p.sent, a.worker = 0) (ch : BitVec 8) :
    (p.channelLog ch).map Sent.ticket =
      (p.takenBy 0).filter fun x => x.work.type = .sendReliable ∧ x.work.channel = ch := by
  have hall : (p.sent.filter fun a => a.worker = 0) = p.sent :=
    List.filter_eq_self.mpr fun a ha => decide_eq_true (hone a ha)
  have hsent := h.sent 0
  rw [hall] at hsent
  have hlog : (p.channelLog ch).map Sent.ticket =
      (p.sent.map Sent.ticket).filter fun x => x.work.type = .sendReliable ∧ x.work.channel = ch := by
    rw [List.filter_map]
    rfl
  rw [hlog, hsent, List.filter_filter]
  refine List.filter_congr fun x _ => ?_
  by_cases hon : x.work.type = .sendReliable ∧ x.work.channel = ch
  · simp [hon, WorkItem.Sends]
  · simp [hon]

theorem length_sent [DecidableEq ι] (h : (sendSystem ι workers maxPayload).Reachable p) {a : Sent ι}
    (ha : a ∈ p.sent) : a.ticket.work.data.length ≤ maxPayload := by
  obtain ⟨htaken, hsends⟩ := (ledger_reachable h).mem_takenBy ha
  obtain ⟨n, -, hfilled⟩ := List.mem_filterMap.mp htaken
  exact (allSized_reachable h).filled _ n _ hfilled hsends

end SendPool

end YumiBrowser.Udp
