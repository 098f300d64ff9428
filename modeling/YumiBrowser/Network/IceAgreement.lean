import YumiBrowser.Network.IcePath

universe u

namespace YumiBrowser.Udp

open Wire
open YumiBrowser.Sudp (flagReliable flagAck flagProbe)

section Packet

variable {σ : Type u} (hooks : Hooks σ) (clock : ℕ → ℕ)

theorem drop_take_take {l : List Byte} {i j n : ℕ} (h : i + j ≤ n) :
    ((l.take n).drop i).take j = (l.drop i).take j := by
  rw [List.drop_take, List.take_take, Nat.min_eq_left (Nat.le_sub_of_add_le' h)]

theorem getD_take {l : List Byte} {i n : ℕ} (h : i < n) : (l.take n).getD i 0 = l.getD i 0 := by
  rw [List.getD_eq_getElem?_getD, List.getD_eq_getElem?_getD, List.getElem?_take_of_lt h]

theorem workerRecvPkt_take (s : RecvWorker σ) (pkt : List Byte) (n : ℕ) :
    workerRecvPkt hooks clock s (pkt.take n) n = workerRecvPkt hooks clock s pkt n := by
  by_cases hn : n < hdrSize
  · rw [workerRecvPkt, workerRecvPkt, if_pos hn, if_pos hn]
  · have hsize : hdrSize ≤ n := Nat.not_lt.mp hn
    have hten : 10 ≤ n := hsize
    have hflags : hdrFlags (pkt.take n) = hdrFlags pkt := getD_take (by omega)
    have hchannel : hdrChannel (pkt.take n) = hdrChannel pkt := getD_take (by omega)
    have hseq : hdrSeq (pkt.take n) = hdrSeq pkt := by
      rw [hdrSeq, hdrSeq, drop_take_take (by omega)]
    have hlen : hdrPayloadLen (pkt.take n) = hdrPayloadLen pkt := by
      rw [hdrPayloadLen, hdrPayloadLen, drop_take_take (by omega)]
    have hpayload : ((pkt.take n).drop hdrSize).take (min (hdrPayloadLen pkt) (n - hdrSize)) =
        (pkt.drop hdrSize).take (min (hdrPayloadLen pkt) (n - hdrSize)) :=
      drop_take_take (by omega)
    simp only [workerRecvPkt, hflags, hchannel, hseq, hlen, hpayload]

end Packet

namespace RecvWorker

variable {σ : Type u}

def outward (s : RecvWorker σ) : RecvWorker σ := { s with recvBuf := [], cryptoBuf := [] }

theorem outward_callbacks (s : RecvWorker σ) (recvCb : σ → List Byte → Bool → BitVec 32 → σ)
    (drained : List (BitVec 32 × List Byte)) :
    (s.callbacks recvCb drained).outward = s.outward.callbacks recvCb drained := by
  induction drained generalizing s with
  | nil => rfl
  | cons x drained ih => exact ih _

theorem outward_answer (s : RecvWorker σ) (channel : BitVec 8) (reply : Option Reply) :
    (s.answer channel reply).outward = s.outward.answer channel reply := by
  cases reply with
  | none => rfl
  | some reply => cases reply <;> rfl

end RecvWorker

section Routines

variable {σ : Type u} (hooks : Hooks σ) (clock : ℕ → ℕ)

theorem outward_workerRecvPkt (s : RecvWorker σ) (pkt : List Byte) (n : ℕ) :
    (workerRecvPkt hooks clock s pkt n).outward = workerRecvPkt hooks clock s.outward pkt n := by
  unfold workerRecvPkt
  split
  · rfl
  · split
    · dsimp only
      split <;> rfl
    · split
      · split <;> rfl
      · split
        · rfl
        · dsimp only
          split
          · rw [RecvWorker.outward_answer, RecvWorker.outward_callbacks]
            rfl
          · have hlane : s.outward.lane = s.lane := rfl
            rw [hlane]
            split <;> rfl

theorem min_eq_ite (a b : ℕ) : (if a ≤ b then a else b) = min a b := (Nat.min_def ..).symm

theorem reliable_agrees (s : RecvWorker σ) (recvCb : σ → List Byte → Bool → BitVec 32 → σ) (ch : BitVec 8)
    (seq : BitVec 32) (payload : List Byte) :
    workerRecvIceReliable s recvCb ch seq payload =
      ((s.setReliable ch (workerRecv (s.lane ch).reliable seq payload).receiver).callbacks recvCb
        (workerRecv (s.lane ch).reliable seq payload).delivered).answer ch
        (workerRecv (s.lane ch).reliable seq payload).reply := by
  unfold workerRecvIceReliable
  unfold workerRecv
  generalize (s.lane ch).reliable.start seq = r
  unfold receiveStarted
  dsimp only
  split
  · rfl
  · split
    · rfl
    · split
      · rfl
      · rfl

theorem outward_workerRecvIcePkt (s : RecvWorker σ) (nr : ℕ) :
    (workerRecvIcePkt hooks clock s nr).outward = workerRecvPkt hooks clock s.outward s.recvBuf nr := by
  rw [← outward_workerRecvPkt]
  congr 1
  unfold workerRecvIcePkt workerRecvPkt
  simp only [min_eq_ite]
  split
  · rfl
  · split
    · by_cases hprobe : (decide (hdrFlags s.recvBuf &&& flagProbe ≠ 0)) = false
      · rw [if_pos hprobe]
        split
        · rename_i hsack
          rw [if_pos ⟨hprobe, hsack⟩]
        · rename_i hsack
          rw [if_neg fun h => hsack h.2]
      · rw [if_neg hprobe, if_neg fun h => hprobe h.1]
    · split
      · rfl
      · split
        · rfl
        · split
          · exact reliable_agrees s _ _ _ _
          · unfold workerRecvUnreliable
            dsimp only
            generalize (s.lane (hdrChannel s.recvBuf)).unreliable.start (hdrSeq s.recvBuf) = r
            split <;> rfl

def recvOne (s : RecvWorker σ) (datagram : List Byte) : RecvWorker σ :=
  if datagram = [] then s
  else
    match hooks.pktDecrypt with
    | none => workerRecvPkt hooks clock s datagram datagram.length
    | some pktDecrypt =>
      match pktDecrypt s.session datagram with
      | (session, none) => { s with session }
      | (session, some pt) => workerRecvPkt hooks clock { s with session } pt pt.length

/-- An empty datagram is refused, and nothing else happens. -/
def Hooks.RefusesEmpty {σ : Type u} (hooks : Hooks σ) : Prop :=
  ∀ pktDecrypt, hooks.pktDecrypt = some pktDecrypt → ∀ session, pktDecrypt session [] = (session, none)

theorem decrypted (r : σ × Option (List Byte)) :
    (∃ session, r = (session, none)) ∨ ∃ session pt, r = (session, some pt) := by
  obtain ⟨session, _ | pt⟩ := r
  · exact .inl ⟨session, rfl⟩
  · exact .inr ⟨session, pt, rfl⟩

theorem take_copyInto (buf bytes : List Byte) : (copyInto buf bytes).take bytes.length = bytes := by
  rw [copyInto, List.take_left]

theorem outward_workerRecvDatagram (s : RecvWorker σ) {datagram : List Byte} (hsize : datagram.length ≤ maxDgram)
    (hne : datagram ≠ []) :
    (workerRecvDatagram hooks clock s datagram).outward = recvOne hooks clock s.outward datagram := by
  rw [workerRecvDatagram, recvOne, if_neg hne, List.take_of_length_le hsize, Nat.min_eq_left hsize]
  dsimp only
  rw [take_copyInto]
  cases hdec : hooks.pktDecrypt with
  | none =>
    change RecvWorker.outward (workerRecvPkt hooks clock _ _ _) = workerRecvPkt hooks clock _ _ _
    rw [outward_workerRecvPkt, ← workerRecvPkt_take, take_copyInto]
    rfl
  | some pktDecrypt =>
    have hsession : s.outward.session = s.session := rfl
    dsimp only
    rw [hsession]
    obtain ⟨session, hres⟩ | ⟨session, pt, hres⟩ := decrypted (pktDecrypt s.session datagram)
    · rw [hres]
      rfl
    · rw [hres]
      dsimp only
      rw [outward_workerRecvPkt, ← workerRecvPkt_take, take_copyInto]
      rfl

theorem outward_workerRecvIceMsg (s : RecvWorker σ) {datagram stale : List Byte} (hbuf : s.recvBuf = datagram ++ stale)
    (hempty : datagram = [] → hooks.RefusesEmpty) :
    (workerRecvIceMsg hooks clock s datagram.length).outward = recvOne hooks clock s.outward datagram := by
  have htake : s.recvBuf.take datagram.length = datagram := by rw [hbuf, List.take_left]
  rw [workerRecvIceMsg, recvOne, htake]
  cases hdec : hooks.pktDecrypt with
  | none =>
    dsimp only
    rw [outward_workerRecvIcePkt, ← workerRecvPkt_take, htake]
    split
    · rename_i hnil
      rw [hnil, workerRecvPkt, if_pos (by decide)]
    · rfl
  | some pktDecrypt =>
    have hsession : s.outward.session = s.session := rfl
    dsimp only
    rw [hsession]
    by_cases hnil : datagram = []
    · rw [if_pos hnil, hnil, hempty hnil pktDecrypt hdec]
    · rw [if_neg hnil]
      obtain ⟨session, hres⟩ | ⟨session, pt, hres⟩ := decrypted (pktDecrypt s.session datagram)
      · rw [hres]
        rfl
      · rw [hres]
        dsimp only
        rw [outward_workerRecvIcePkt, take_copyInto, ← workerRecvPkt_take, take_copyInto]
        rfl

end Routines

section Loops

variable {σ : Type u} (hooks : Hooks σ) (clock : ℕ → ℕ)

theorem workerRecvLoop_taken (queue : List (List Byte)) (hsize : ∀ d ∈ queue, d.length ≤ maxDgram)
    (s : RecvWorker σ) :
    ∃ taken, taken ++ (workerRecvLoop hooks clock queue s).2 = queue ∧
      (workerRecvLoop hooks clock queue s).1.outward = taken.foldl (recvOne hooks clock) s.outward ∧
      (workerRecvLoop hooks clock queue s).2.length ≤ queue.length - 1 := by
  induction queue generalizing s with
  | nil => exact ⟨[], rfl, rfl, Nat.le_refl _⟩
  | cons d queue ih =>
    rw [workerRecvLoop]
    split
    · rename_i hnil
      refine ⟨[d], rfl, ?_, Nat.le_refl _⟩
      change s.outward = recvOne hooks clock s.outward d
      rw [recvOne, if_pos hnil]
    · rename_i hne
      obtain ⟨taken, hqueue, hout, hlen⟩ :=
        ih (fun d hd => hsize d (List.mem_cons_of_mem _ hd)) (workerRecvDatagram hooks clock s d)
      refine ⟨d :: taken, ?_, ?_, ?_⟩
      · rw [List.cons_append, hqueue]
      · rw [hout, List.foldl_cons,
          outward_workerRecvDatagram hooks clock s (hsize d List.mem_cons_self) hne]
      · exact hlen.trans (Nat.sub_le _ _)

def frame (d : List Byte) : List Byte := toLe 4 d.length ++ d

theorem length_frame (d : List Byte) : (frame d).length = 4 + d.length := by
  rw [frame, List.length_append, length_toLe]

theorem length_frames (ds : List (List Byte)) : ds.length ≤ (ds.flatMap frame).length := by
  induction ds with
  | nil => exact Nat.le_refl _
  | cons d ds ih =>
    rw [List.flatMap_cons, List.length_append, length_frame, List.length_cons]
    omega

theorem workerRecvIceLoop_frames (ds : List (List Byte)) (hsize : ∀ d ∈ ds, d.length ≤ maxDgram)
    (hempty : [] ∈ ds → hooks.RefusesEmpty) {rounds : ℕ} (hrounds : ds.length < rounds) (s : RecvWorker σ) :
    (workerRecvIceLoop hooks clock rounds ⟨ds.flatMap frame, [], 0⟩ s).1 = ⟨[], [], 0⟩ ∧
      (workerRecvIceLoop hooks clock rounds ⟨ds.flatMap frame, [], 0⟩ s).2.outward =
        ds.foldl (recvOne hooks clock) s.outward := by
  induction ds generalizing rounds s with
  | nil =>
    obtain ⟨rounds, rfl⟩ : ∃ n, rounds = n + 1 := ⟨rounds - 1, by omega⟩
    exact ⟨rfl, rfl⟩
  | cons d ds ih =>
    obtain ⟨rounds, rfl⟩ : ∃ n, rounds = n + 1 := ⟨rounds - 1, by omega⟩
    have hd : d.length ≤ maxDgram := hsize d List.mem_cons_self
    have hlen : ofLe (toLe 4 d.length) = d.length := 
      (ofLe_toLe 4 d.length).trans (Nat.mod_eq_of_lt (lt_of_le_of_lt hd (by decide)))
    have hframe : (d :: ds).flatMap frame = toLe 4 d.length ++ (d ++ ds.flatMap frame) := by
      rw [List.flatMap_cons, frame, List.append_assoc]
    have hround (t : RecvWorker σ) :
        workerRecvIceLoop hooks clock (rounds + 1) ⟨(d :: ds).flatMap frame, [], 0⟩ t =
          workerRecvIceLoop hooks clock rounds ⟨ds.flatMap frame, [], 0⟩
            (workerRecvIceMsg hooks clock { t with recvBuf := copyInto t.recvBuf d } d.length) := by
      rw [workerRecvIceLoop, hframe]
      have hhdr : (toLe 4 d.length ++ (d ++ ds.flatMap frame)).take 4 = toLe 4 d.length :=
        List.take_left' (length_toLe _ _)
      have hrest : (toLe 4 d.length ++ (d ++ ds.flatMap frame)).drop 4 = d ++ ds.flatMap frame :=
        List.drop_left' (length_toLe _ _)
      simp only [List.length_nil, Nat.sub_zero, List.nil_append, hhdr, hrest, hlen, length_toLe, Nat.lt_irrefl,
        if_false, Nat.not_lt.mpr hd, List.take_left, List.drop_left, Nat.zero_add, List.take_zero, List.drop_zero]
    rw [hround]
    obtain ⟨hpipe, hout⟩ := ih (fun d hd => hsize d (List.mem_cons_of_mem _ hd))
      (fun hnil => hempty (List.mem_cons_of_mem _ hnil)) (Nat.lt_of_succ_lt_succ hrounds)
      (workerRecvIceMsg hooks clock { s with recvBuf := copyInto s.recvBuf d } d.length)
    refine ⟨hpipe, ?_⟩
    rw [hout, List.foldl_cons, outward_workerRecvIceMsg hooks clock _ rfl fun hnil =>
      hempty (hnil ▸ List.mem_cons_self)]
    rfl

end Loops

section Runs

variable {σ : Type u} (hooks : Hooks σ) (clock : ℕ → ℕ)

def datagrams (es : List Arrival) : List (List Byte) := es.filterMap Arrival.bytes?

theorem datagrams_append (es fs : List Arrival) : datagrams (es ++ fs) = datagrams es ++ datagrams fs :=
  List.filterMap_append

theorem datagrams_wakes (n : ℕ) : datagrams (List.replicate n .wake) = [] :=
  List.filterMap_replicate_of_none rfl

theorem socketRun_taken (s : RecvWorker σ) (es : List Arrival) (hsize : ∀ d ∈ datagrams es, d.length ≤ maxDgram) :
    ∃ taken, taken ++ (socketRun hooks clock s es).2 = datagrams es ∧
      (socketRun hooks clock s es).1.outward = taken.foldl (recvOne hooks clock) s.outward := by
  induction es using List.reverseRecOn with
  | nil => exact ⟨[], rfl, rfl⟩
  | append_singleton es e ih =>
    rw [datagrams_append] at hsize ⊢
    obtain ⟨taken, htaken, hout⟩ := ih fun d hd => hsize d (List.mem_append_left _ hd)
    rw [socketRun, List.foldl_append] at *
    change ∃ taken, taken ++ (socketStep hooks clock (es.foldl (socketStep hooks clock) (s, [])) e).2 = _ ∧
      (socketStep hooks clock (es.foldl (socketStep hooks clock) (s, [])) e).1.outward = _
    generalize es.foldl (socketStep hooks clock) (s, []) = st at *
    cases e with
    | datagram bytes =>
      refine ⟨taken, ?_, hout⟩
      rw [← htaken, List.append_assoc]
      rfl
    | wake =>
      obtain ⟨more, hmore, hdone, -⟩ := workerRecvLoop_taken hooks clock st.2
        (fun d hd => hsize d (List.mem_append_left _ (htaken ▸ List.mem_append_right _ hd))) st.1
      refine ⟨taken ++ more, ?_, ?_⟩
      · rw [List.append_assoc]
        exact (congrArg (taken ++ ·) hmore).trans (htaken.trans (List.append_nil _).symm)
      · exact hdone.trans (by rw [hout, List.foldl_append])

theorem socketRun_wakes (s : RecvWorker σ) (es : List Arrival) (hsize : ∀ d ∈ datagrams es, d.length ≤ maxDgram)
    (n : ℕ) :
    (socketRun hooks clock s (es ++ List.replicate n .wake)).2.length ≤ (datagrams es).length - n := by
  induction n with
  | zero =>
    obtain ⟨taken, htaken, -⟩ := socketRun_taken hooks clock s es hsize
    rw [List.replicate_zero, List.append_nil, ← htaken, List.length_append]
    omega
  | succ n ih =>
    have hds : datagrams (es ++ List.replicate n .wake) = datagrams es := by
      rw [datagrams_append, datagrams_wakes, List.append_nil]
    obtain ⟨taken, htaken, -⟩ := socketRun_taken hooks clock s (es ++ List.replicate n .wake) (hds ▸ hsize)
    rw [List.replicate_succ', ← List.append_assoc, socketRun, List.foldl_append]
    change (workerRecvLoop hooks clock (socketRun hooks clock s (es ++ List.replicate n .wake)).2 _).2.length ≤ _
    obtain ⟨-, -, -, hlen⟩ := workerRecvLoop_taken hooks clock _
      (fun d hd => hsize d (hds ▸ htaken ▸ List.mem_append_right _ hd))
      (socketRun hooks clock s (es ++ List.replicate n .wake)).1
    exact hlen.trans (by omega)

theorem iceRun_taken (s : RecvWorker σ) (es : List Arrival) (hsize : ∀ d ∈ datagrams es, d.length ≤ maxDgram)
    (hempty : [] ∈ datagrams es → hooks.RefusesEmpty) :
    ∃ taken waiting, taken ++ waiting = datagrams es ∧
      (iceRun hooks clock s es).1 = ⟨waiting.flatMap frame, [], 0⟩ ∧
      (iceRun hooks clock s es).2.outward = taken.foldl (recvOne hooks clock) s.outward := by
  induction es using List.reverseRecOn with
  | nil => exact ⟨[], [], rfl, rfl, rfl⟩
  | append_singleton es e ih =>
    rw [datagrams_append] at hsize hempty ⊢
    obtain ⟨taken, waiting, htaken, hpipe, hout⟩ := ih (fun d hd => hsize d (List.mem_append_left _ hd))
      fun hnil => hempty (List.mem_append_left _ hnil)
    rw [iceRun, List.foldl_append] at *
    change ∃ taken waiting, _ ∧
      (iceStep hooks clock (es.foldl (iceStep hooks clock) (⟨[], [], 0⟩, s)) e).1 = _ ∧
      (iceStep hooks clock (es.foldl (iceStep hooks clock) (⟨[], [], 0⟩, s)) e).2.outward = _
    generalize es.foldl (iceStep hooks clock) (⟨[], [], 0⟩, s) = st at *
    obtain ⟨p, t⟩ := st
    obtain rfl : p = ⟨waiting.flatMap frame, [], 0⟩ := hpipe
    cases e with
    | datagram bytes =>
      have hbytes : bytes.length ≤ maxDgram := hsize bytes (List.mem_append_right _ List.mem_cons_self)
      refine ⟨taken, waiting ++ [bytes], ?_, ?_, hout⟩
      · rw [← List.append_assoc, htaken]
        rfl
      · change iceOnRecv _ bytes = _
        rw [iceOnRecv, if_neg (Nat.not_lt.mpr hbytes), List.flatMap_append, List.flatMap_singleton, frame]
    | wake =>
      obtain ⟨hdrained, hdone⟩ := workerRecvIceLoop_frames hooks clock waiting
        (fun d hd => hsize d (List.mem_append_left _ (htaken ▸ List.mem_append_right _ hd)))
        (fun hnil => hempty (List.mem_append_left _ (htaken ▸ List.mem_append_right _ hnil)))
        (Nat.lt_succ_of_le (length_frames waiting)) t
      refine ⟨taken ++ waiting, [], ?_, hdrained, ?_⟩
      · rw [htaken]
        rfl
      · exact hdone.trans (by rw [hout, List.foldl_append])

theorem iceRun_wake (s : RecvWorker σ) (es : List Arrival) (hsize : ∀ d ∈ datagrams es, d.length ≤ maxDgram)
    (hempty : [] ∈ datagrams es → hooks.RefusesEmpty) :
    (iceRun hooks clock s (es ++ [.wake])).2.outward = (datagrams es).foldl (recvOne hooks clock) s.outward := by
  obtain ⟨taken, waiting, htaken, hpipe, hout⟩ := iceRun_taken hooks clock s es hsize hempty
  rw [iceRun, List.foldl_append]
  change (iceStep hooks clock (iceRun hooks clock s es) .wake).2.outward = _
  generalize iceRun hooks clock s es = st at *
  obtain ⟨p, t⟩ := st
  obtain rfl : p = ⟨waiting.flatMap frame, [], 0⟩ := hpipe
  obtain ⟨-, hdone⟩ := workerRecvIceLoop_frames hooks clock waiting
    (fun d hd => hsize d (htaken ▸ List.mem_append_right _ hd))
    (fun hnil => hempty (htaken ▸ List.mem_append_right _ hnil))
    (Nat.lt_succ_of_le (length_frames waiting)) t
  rw [← htaken, List.foldl_append, ← hout]
  exact hdone

/-- Datagrams that fit the buffer do the same over ICE as over the socket, when empty ones are refused: what is
delivered and sent and the state of the session and of every channel are the same when both have caught up. -/
theorem ice_agrees (s : RecvWorker σ) (es fs : List Arrival) (hsame : datagrams fs = datagrams es)
    (hsize : ∀ d ∈ datagrams es, d.length ≤ maxDgram) (hempty : [] ∈ datagrams es → hooks.RefusesEmpty) :
    (iceRun hooks clock s (fs ++ [.wake])).2.outward =
      (socketRun hooks clock s (es ++ List.replicate (datagrams es).length .wake)).1.outward := by
  have hds : datagrams (es ++ List.replicate (datagrams es).length .wake) = datagrams es := by
    rw [datagrams_append, datagrams_wakes, List.append_nil]
  obtain ⟨taken, htaken, hout⟩ :=
    socketRun_taken hooks clock s (es ++ List.replicate (datagrams es).length .wake) (hds ▸ hsize)
  have hwaiting := socketRun_wakes hooks clock s es hsize (datagrams es).length
  rw [Nat.sub_self, Nat.le_zero, List.length_eq_zero_iff] at hwaiting
  rw [hwaiting, List.append_nil, hds] at htaken
  rw [hout, htaken, ← hsame]
  exact iceRun_wake hooks clock s fs (hsame ▸ hsize) (hsame ▸ hempty)

end Runs

def idleWorker : RecvWorker ℕ where
  session := 0
  lane _ := ⟨.fresh, .fresh⟩
  sender := .fresh 200000 10
  readings := 0
  delivered := []
  sent := []
  resent := []
  recvBuf := []
  cryptoBuf := []

def plainHooks : Hooks ℕ := ⟨none, some fun n _ _ _ => n + 1⟩

-- The first datagram opens the session, and no other does.
def onceHooks : Hooks ℕ := ⟨some fun n d => (n + 1, if n = 0 then some d else none), some fun n _ _ _ => n⟩

def packetBytes (flags channel : Byte) (seq : BitVec 32) (payload : List Byte) : List Byte :=
  flags :: channel :: (toLe 4 seq.toNat ++ toLe 4 payload.length ++ payload)

def swappedPackets : List Arrival :=
  [.datagram (packetBytes flagReliable 3 7 [1]), .datagram (packetBytes flagReliable 3 9 [3]),
    .datagram (packetBytes flagReliable 3 8 [2])]

theorem ice_agrees_swapped :
    datagrams swappedPackets = datagrams (swappedPackets ++ [.wake]) ∧
      (iceRun plainHooks id idleWorker (swappedPackets ++ [.wake])).2.delivered.map (·.payload) = [[1], [2], [3]] ∧
      (iceRun plainHooks id idleWorker (swappedPackets ++ [.wake])).2.outward =
        (socketRun plainHooks id idleWorker
          (swappedPackets ++ [.wake] ++
            List.replicate (datagrams (swappedPackets ++ [.wake])).length .wake)).1.outward :=
  ⟨rfl, by decide +kernel,
    ice_agrees plainHooks id idleWorker (swappedPackets ++ [.wake]) swappedPackets rfl (by decide +kernel)
      fun h => absurd h (by decide +kernel)⟩

theorem ice_differs :
    (socketRun plainHooks id idleWorker
        [.datagram (packetBytes 0 3 7 (List.replicate 1443 1)), .wake]).1.delivered.length = 1 ∧
      (iceRun plainHooks id idleWorker
        [.datagram (packetBytes 0 3 7 (List.replicate 1443 1)), .wake]).2.delivered = [] ∧
      (socketRun onceHooks id idleWorker
        [.datagram [], .datagram (packetBytes flagReliable 3 7 [1]), .wake, .wake]).1.delivered = [⟨[1], true, 7⟩] ∧
      (iceRun onceHooks id idleWorker
        [.datagram [], .datagram (packetBytes flagReliable 3 7 [1]), .wake, .wake]).2.delivered = [] := by
  decide +kernel

end YumiBrowser.Udp
