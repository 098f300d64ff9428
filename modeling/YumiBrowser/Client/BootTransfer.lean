import YumiBrowser.Client.BootFetch
import YumiBrowser.Library.System
import YumiBrowser.Registrar.BlobSize

namespace YumiBrowser.Client

open Wire Keyed Transition YumiBrowser.Group

section Packets

variable {blob : List Byte} {k : ℕ}

theorem getU16_putU16 (v : BitVec 16) (l : List Byte) :
    ∃ b₀ b₁, putU16 v ++ l = b₀ :: b₁ :: l ∧ getU16 b₀ b₁ = v := by
  refine ⟨_, _, rfl, ?_⟩
  change BitVec.ofNat 16 (ofLe (toLe 2 v.toNat)) = v
  have hlt : v.toNat < 256 ^ 2 := v.isLt
  rw [ofLe_toLe, Nat.mod_eq_of_lt hlt, BitVec.ofNat_toNat, BitVec.setWidth_eq]

theorem length_chunkAt_le (blob : List Byte) (i : ℕ) : (chunkAt blob i).length ≤ bootChunkSize :=
  List.length_take_le _ _

theorem readBoot_data (blob : List Byte) (i : ℕ) : readBoot (bootDataPacket blob i) =
    .data (BitVec.ofNat 16 i) (BitVec.ofNat 16 (totalChunks blob)) (chunkAt blob i) := by
  obtain ⟨s₀, s₁, hseq, hreadSeq⟩ := getU16_putU16 (BitVec.ofNat 16 i)
    (putU16 (BitVec.ofNat 16 (totalChunks blob)) ++ chunkAt blob i)
  obtain ⟨t₀, t₁, htotal, hreadTotal⟩ := getU16_putU16 (BitVec.ofNat 16 (totalChunks blob)) (chunkAt blob i)
  have hpacket : bootDataPacket blob i = bootMagic ++ bootData :: s₀ :: s₁ :: t₀ :: t₁ :: chunkAt blob i := by
    rw [← htotal, ← hseq, bootDataPacket]
    simp only [List.append_assoc, List.cons_append]
  have hlength := length_chunkAt_le blob i
  have hshort : (bootDataPacket blob i).length ≤ 4 + 5 + bootChunkSize + 64 := by
    rw [hpacket, List.length_append]
    simp only [List.length_cons, bootMagic, List.length_nil]
    omega
  rw [readBoot, List.take_of_length_le hshort, hpacket, ← hreadSeq, ← hreadTotal]
  rfl

theorem readBoot_done : readBoot (bootMagic ++ [bootDone]) = .done := rfl

theorem totalChunks_spec (blob : List Byte) : blob.length ≤ totalChunks blob * bootChunkSize := by
  unfold totalChunks bootChunkSize
  omega

theorem flatMap_chunkAt (blob : List Byte) (n : ℕ) :
    (List.range n).flatMap (chunkAt blob) = blob.take (n * bootChunkSize) := by
  induction n with
  | zero => simp
  | succ n ih =>
    rw [List.range_succ, List.flatMap_append, ih, List.flatMap_singleton, chunkAt, Nat.succ_mul, List.take_add]

theorem assembled_eq (blob : List Byte) : (List.range (totalChunks blob)).flatMap (chunkAt blob) = blob := by
  rw [flatMap_chunkAt, List.take_of_length_le (totalChunks_spec blob)]

end Packets

structure Transfer where
  fetch : Fetch
  served : List (List Byte)

/-- A peer answers a request; a datagram of one of the answers arrives, whether it came before or not; or no
datagram comes. -/
inductive TransferEvent
  | serve (reg : Registrar)
  | deliver (blob : List Byte) (k : ℕ)
  | timeout
  | deadline

/-- The count of the chunks is one that a datagram can carry, and that `boot_fetch_registrar` accepts. -/
structure Acceptable (blob : List Byte) : Prop where
  representable : (BitVec.ofNat 16 (totalChunks blob)).toNat = totalChunks blob
  positive : 0 < totalChunks blob
  limited : totalChunks blob ≤ 10000

/-- The chunks that have been taken are those of a blob. -/
structure Fetch.Agrees (f : Fetch) (blob : List Byte) (chunks : List (Option (List Byte))) : Prop where
  total : f.totalChunks.toNat = Client.totalChunks blob
  length : chunks.length = Client.totalChunks blob
  content : ∀ i chunk, chunks[i]? = some (some chunk) → chunk = chunkAt blob i

structure Fetch.Sound (f : Fetch) (served : List (List Byte)) : Prop where
  returned : ∀ data, f.out = some data → data ∈ served
  taken : ∀ chunks, f.chunks = some chunks → ∃ blob ∈ served, f.Agrees blob chunks

namespace Fetch

variable {count : ℕ} {f : Fetch} {served : List (List Byte)} {blob : List Byte}

theorem Agrees.assembled {chunks : List (Option (List Byte))} (h : f.Agrees blob chunks) (hcomplete : Complete chunks) :
    (chunks.flatMap fun chunk => chunk.getD []) = blob := by
  have hchunks : chunks.map (fun chunk => chunk.getD []) =
      (List.range (Client.totalChunks blob)).map (chunkAt blob) := by
    apply List.ext_getElem
    · rw [List.length_map, List.length_map, List.length_range, h.length]
    · intro i hi hi'
      rw [List.length_map] at hi
      obtain ⟨chunk, hchunk⟩ := Option.isSome_iff_exists.mp (hcomplete chunks[i] (List.getElem_mem hi))
      rw [List.getElem_map, List.getElem_map, List.getElem_range, hchunk]
      exact h.content i chunk (by rw [List.getElem?_eq_getElem hi, hchunk])
  rw [List.flatMap_def, hchunks, ← List.flatMap_def, assembled_eq]

theorem Sound.giveUp (f : Fetch) (served : List (List Byte)) : (f.giveUp count).Sound served :=
  ⟨fun _ h => absurd h.symm (Option.some_ne_none _), fun _ h => absurd h.symm (Option.some_ne_none _)⟩

theorem Sound.settle (h : f.Sound served) (phase : FetchPhase) : (f.settle count phase).Sound served := by
  unfold Fetch.settle
  split
  · exact .giveUp f served
  · rename_i chunks hchunks
    split
    · rename_i hcomplete
      obtain ⟨blob, hblob, hagrees⟩ := h.taken chunks hchunks
      refine ⟨fun data hdata => ?_, fun _ hnone => by cases hnone⟩
      cases hdata
      rw [hagrees.assembled hcomplete]
      exact hblob
    · refine ⟨h.returned, fun chunks' hchunks' => ?_⟩
      obtain ⟨blob, hblob, hagrees⟩ := h.taken chunks' hchunks'
      exact ⟨blob, hblob, hagrees.total, hagrees.length, hagrees.content⟩

theorem Sound.store (h : f.Sound served) {seq : BitVec 16} {chunk : List Byte}
    (hchunk : ∀ chunks, f.chunks = some chunks → chunks[seq.toNat]? = some none →
      ∃ blob ∈ served, f.Agrees blob chunks ∧ chunk = chunkAt blob seq.toNat) : (f.store seq chunk).Sound served := by
  unfold Fetch.store
  split
  · exact h
  · rename_i chunks hchunks
    split
    · rename_i hfree
      obtain ⟨blob, hblob, hagrees, rfl⟩ := hchunk chunks hchunks hfree.2
      refine ⟨h.returned, fun chunks' hchunks' => ⟨blob, hblob, hagrees.total, ?_, fun i chunk' hget => ?_⟩⟩
      · cases hchunks'
        rw [List.length_set, hagrees.length]
      · cases hchunks'
        rw [List.getElem?_set] at hget
        split at hget
        · rename_i heq
          split at hget
          · cases hget
            rw [heq]
          · cases hget
        · exact hagrees.content i chunk' hget
    · exact h

theorem Sound.allocate (h : f.Sound served) (hblob : blob ∈ served)
    (hacceptable : (BitVec.ofNat 16 (Client.totalChunks blob)).toNat = Client.totalChunks blob) :
    (f.allocate (BitVec.ofNat 16 (Client.totalChunks blob))).Sound served := by
  unfold Fetch.allocate
  split
  · refine ⟨h.returned, fun chunks hchunks => ⟨blob, hblob, hacceptable, ?_, fun i chunk hget => ?_⟩⟩
    · cases hchunks
      rw [List.length_replicate, hacceptable]
    · cases hchunks
      cases (List.mem_replicate.mp (List.mem_of_getElem? hget)).2
  · exact h

theorem allocate_chunks (hacceptable : (BitVec.ofNat 16 (Client.totalChunks blob)).toNat = Client.totalChunks blob)
    (chunks : List (Option (List Byte)))
    (h : (f.allocate (BitVec.ofNat 16 (Client.totalChunks blob))).chunks = some chunks) :
    f.chunks = some chunks ∧ f.allocate (BitVec.ofNat 16 (Client.totalChunks blob)) = f ∨
      (f.allocate (BitVec.ofNat 16 (Client.totalChunks blob))).Agrees blob chunks := by
  unfold Fetch.allocate at h ⊢
  split at h
  · refine .inr ⟨hacceptable, ?_, fun i chunk hget => ?_⟩
    · cases h
      rw [List.length_replicate, hacceptable]
    · cases h
      cases (List.mem_replicate.mp (List.mem_of_getElem? hget)).2
  · exact .inl ⟨h, rfl⟩

end Fetch

namespace Transfer

variable (count : ℕ) (s : Transfer)

def next : TransferEvent → Transfer
  | .serve reg => { s with served := s.served ++ [grSerialize reg .full] }
  | .deliver blob k =>
    if blob ∈ s.served then
      match (bootSend blob)[k]? with
      | none => s
      | some datagram => { s with fetch := s.fetch.next count (.datagram datagram) }
    else s
  | .timeout => { s with fetch := s.fetch.next count .timeout }
  | .deadline => { s with fetch := s.fetch.next count .deadline }

def start : Transfer := ⟨.tryPeer count 0, []⟩

/-- What is returned is a blob of one of the peers, and all of theirs can be fetched. -/
structure Intact (s : Transfer) : Prop where
  returned : ∀ data, s.fetch.out = some data → data ∈ s.served
  acceptable : ∀ blob ∈ s.served, Acceptable blob

/-- The registrar takes at most 10000 chunks; and a chunk that is taken is that of a blob of which all chunks
are that were taken before. -/
def Steady (s : Transfer) : TransferEvent → Prop
  | .serve reg => (grSerialize reg .full).length ≤ 10000 * bootChunkSize
  | .deliver blob k => blob ∈ s.served → k < totalChunks blob →
    ∀ chunks, s.fetch.chunks = some chunks → chunks[k]? = some none →
      ∃ blob' ∈ s.served, s.fetch.Agrees blob' chunks ∧ chunkAt blob k = chunkAt blob' k
  | _ => True

variable {count s}

theorem grSerialize_ne_nil (reg : Registrar) (mode : SerializeMode) : 0 < (grSerialize reg mode).length := by
  have hmagic : 0 < serialMagic.length := by decide
  simp only [grSerialize, List.length_append]
  omega

theorem acceptable_of_length {blob : List Byte} (hpos : 0 < blob.length)
    (hle : blob.length ≤ 10000 * bootChunkSize) : Acceptable blob := by
  have htotal : 0 < totalChunks blob ∧ totalChunks blob ≤ 10000 := by
    unfold totalChunks bootChunkSize at *
    omega
  refine ⟨?_, htotal.1, htotal.2⟩
  rw [BitVec.toNat_ofNat]
  exact Nat.mod_eq_of_lt (by omega)

structure Inv (s : Transfer) : Prop where
  sound : s.fetch.Sound s.served
  acceptable : ∀ blob ∈ s.served, Acceptable blob

theorem sound_receive_data (h : s.Inv) {blob : List Byte} {k : ℕ} (hblob : blob ∈ s.served) (hk : k < totalChunks blob)
    (hsteady : s.Steady (.deliver blob k)) : (s.fetch.receive count (bootDataPacket blob k)).Sound s.served := by
  obtain ⟨hrepresentable, hpos, hlimit⟩ := h.acceptable blob hblob
  have hseq : (BitVec.ofNat 16 k).toNat = k := by
    rw [BitVec.toNat_ofNat]
    exact Nat.mod_eq_of_lt (by omega)
  have htaken : ∀ chunks, s.fetch.chunks = some chunks → chunks[(BitVec.ofNat 16 k).toNat]? = some none →
      ∃ blob' ∈ s.served, s.fetch.Agrees blob' chunks ∧ chunkAt blob k = chunkAt blob' (BitVec.ofNat 16 k).toNat := by
    rw [hseq]
    exact hsteady hblob hk
  unfold Fetch.receive
  rw [readBoot_data]
  cases s.fetch.phase with
  | receiving =>
    dsimp only
    rw [if_neg]
    · refine (h.sound.allocate hblob hrepresentable).store fun chunks hchunks hfree => ?_
      rcases Fetch.allocate_chunks hrepresentable chunks hchunks with ⟨hold, heq⟩ | hagrees
      · rw [heq]
        exact htaken chunks hold hfree
      · exact ⟨blob, hblob, hagrees, by rw [hseq]⟩
    · rintro (hzero | hlarge)
      · rw [hzero] at hrepresentable
        exact hpos.ne hrepresentable
      · omega
  | missing => exact (h.sound.store htaken).settle .missing
  | ended => exact h.sound

theorem sound_receive_done (h : s.Inv) :
    (s.fetch.receive count (bootMagic ++ [bootDone])).Sound s.served := by
  unfold Fetch.receive
  rw [readBoot_done]
  cases s.fetch.phase with
  | receiving => exact h.sound.settle .missing
  | missing => exact h.sound
  | ended => exact h.sound

theorem Inv.next (h : s.Inv) (e : TransferEvent) (hsteady : s.Steady e) : (s.next count e).Inv := by
  cases e with
  | serve reg =>
    refine ⟨⟨fun data hdata => List.mem_append_left _ (h.sound.returned data hdata), fun chunks hchunks => ?_⟩,
      fun blob hblob => ?_⟩
    · obtain ⟨blob, hblob, hagrees⟩ := h.sound.taken chunks hchunks
      exact ⟨blob, List.mem_append_left _ hblob, hagrees⟩
    · cases List.mem_append.mp hblob with
      | inl hold => exact h.acceptable blob hold
      | inr hnew =>
        rw [List.mem_singleton.mp hnew]
        exact acceptable_of_length (grSerialize_ne_nil reg .full) hsteady
  | deliver blob k =>
    rw [Transfer.next]
    split
    · rename_i hblob
      split
      · exact h
      · rename_i datagram hdatagram
        refine ⟨?_, h.acceptable⟩
        by_cases hk : k < totalChunks blob
        · have hpacket : datagram = bootDataPacket blob k := by
            rw [bootSend, List.getElem?_append_left (by simpa using hk), List.getElem?_map,
              List.getElem?_range hk] at hdatagram
            exact (Option.some_inj.mp hdatagram).symm
          rw [hpacket]
          exact sound_receive_data h hblob hk hsteady
        · have hpacket : datagram = bootMagic ++ [bootDone] := by
            rw [bootSend, List.getElem?_append_right (by simpa using hk)] at hdatagram
            exact List.mem_singleton.mp (List.mem_of_getElem? hdatagram)
          rw [hpacket]
          exact sound_receive_done h
    · exact h
  | timeout =>
    refine ⟨?_, h.acceptable⟩
    change (s.fetch.next count .timeout).Sound s.served
    rw [Fetch.next]
    split
    · split
      · exact .giveUp _ _
      · refine ⟨h.sound.returned, fun chunks hchunks => ?_⟩
        obtain ⟨blob, hblob, hagrees⟩ := h.sound.taken chunks hchunks
        exact ⟨blob, hblob, hagrees.total, hagrees.length, hagrees.content⟩
    · exact .giveUp _ _
    · exact h.sound
  | deadline =>
    refine ⟨?_, h.acceptable⟩
    change (s.fetch.next count .deadline).Sound s.served
    rw [Fetch.next]
    split
    · exact h.sound
    · exact .giveUp _ _

theorem inv_start (count : ℕ) : (start count).Inv :=
  ⟨⟨fun _ h => absurd h.symm (Option.some_ne_none _), fun _ h => absurd h.symm (Option.some_ne_none _)⟩,
    fun _ h => absurd h List.not_mem_nil⟩

/-- As long as no datagram of another serialization gets between the chunks, and the registrar is small enough,
what is returned is what a peer has serialized. -/
theorem intact_throughout (count : ℕ) (es : List TransferEvent)
    (hsteady : ∀ xs e ys, es = xs ++ e :: ys → (xs.foldl (next count) (start count)).Steady e) :
    ∀ xs ys, es = xs ++ ys → (xs.foldl (next count) (start count)).Intact := by
  intro xs ys heq
  have hinv := System.holds_along (I := Inv) (fun _ e h => h.next e) (inv_start count) es hsteady xs ys heq
  exact ⟨hinv.sound.returned, hinv.acceptable⟩

section Collected

variable {g : ℕ → List Byte} {n : ℕ}

/-- The client once it has taken chunk 0, 1, … of the blobs `g 0`, `g 1`, … -/
def collected (g : ℕ → List Byte) (n j : ℕ) : Fetch where
  peer := 0
  phase := .receiving
  totalChunks := BitVec.ofNat 16 n
  chunks := some ((List.range j).map (fun i => some (chunkAt (g i) i)) ++ List.replicate (n - j) none)
  retries := 0
  out := none

def deliveries (g : ℕ → List Byte) (j : ℕ) : List TransferEvent := (List.range j).map fun i => .deliver (g i) i

theorem receive_collected {f : Fetch} {j : ℕ} (hn : n ≤ 10000) (hj : j < n) (hg : Acceptable (g j))
    (hphase : f.phase = .receiving)
    (hallocate : f.allocate (BitVec.ofNat 16 (totalChunks (g j))) = collected g n j) :
    f.receive count (bootDataPacket (g j) j) = collected g n (j + 1) := by
  obtain ⟨hrepresentable, hpos, hlimit⟩ := hg
  have hseq : (BitVec.ofNat 16 j).toNat = j := by
    rw [BitVec.toNat_ofNat]
    exact Nat.mod_eq_of_lt (by omega)
  have hcount : (BitVec.ofNat 16 n).toNat = n := by
    rw [BitVec.toNat_ofNat]
    exact Nat.mod_eq_of_lt (by omega)
  have hlength : ((List.range j).map fun i => some (chunkAt (g i) i)).length = j := by
    rw [List.length_map, List.length_range]
  obtain ⟨left, hleft⟩ : ∃ left, n - j = left + 1 := ⟨n - j - 1, by omega⟩
  have hrest : n - (j + 1) = left := by omega
  unfold Fetch.receive
  rw [hphase, readBoot_data]
  dsimp only
  rw [if_neg, hallocate]
  · simp only [Fetch.store, collected, hseq, hcount, hleft, List.replicate_succ]
    rw [if_pos]
    · rw [List.set_append_right _ _ hlength.le, hlength, Nat.sub_self, List.set_cons_zero, List.range_succ,
        List.map_append, List.append_assoc, hrest]
      rfl
    · refine ⟨hj, ?_⟩
      rw [List.getElem?_append_right hlength.le, hlength, Nat.sub_self]
      rfl
  · rintro (hzero | hlarge)
    · rw [hzero] at hrepresentable
      exact hpos.ne hrepresentable
    · omega

theorem next_deliver {blob : List Byte} {j : ℕ} (hblob : blob ∈ s.served) (hj : j < totalChunks blob) :
    s.next count (.deliver blob j) = { s with fetch := s.fetch.receive count (bootDataPacket blob j) } := by
  have hpacket : (bootSend blob)[j]? = some (bootDataPacket blob j) := by
    rw [bootSend, List.getElem?_append_left (by simpa using hj), List.getElem?_map, List.getElem?_range hj]
    rfl
  rw [next, if_pos hblob, hpacket]
  rfl

theorem next_deliver_done {blob : List Byte} (hblob : blob ∈ s.served) :
    s.next count (.deliver blob (totalChunks blob)) =
      { s with fetch := s.fetch.receive count (bootMagic ++ [bootDone]) } := by
  have hpacket : (bootSend blob)[totalChunks blob]? = some (bootMagic ++ [bootDone]) := by
    rw [bootSend, List.getElem?_append_right (by simp), List.length_map, List.length_range, Nat.sub_self]
    rfl
  rw [next, if_pos hblob, hpacket]
  rfl

theorem foldl_deliveries (hcount : 0 < count) (hfetch : s.fetch = .tryPeer count 0) (hn : totalChunks (g 0) = n)
    (hg : ∀ i < n, g i ∈ s.served ∧ Acceptable (g i) ∧ i < totalChunks (g i)) {j : ℕ} (hj : j < n) :
    (deliveries g (j + 1)).foldl (next count) s = { s with fetch := collected g n (j + 1) } := by
  have hlimit : n ≤ 10000 := hn ▸ (hg 0 (by omega)).2.1.limited
  induction j with
  | zero =>
    obtain ⟨hserved, hacceptable, htotal⟩ := hg 0 hj
    change s.next count (.deliver (g 0) 0) = _
    rw [next_deliver hserved htotal, receive_collected hlimit hj hacceptable]
    · rw [hfetch, Fetch.tryPeer, if_pos hcount]
    · have hrepresentable := hacceptable.representable
      rw [hfetch, Fetch.tryPeer, if_pos hcount, Fetch.allocate, hrepresentable, hn]
      rfl
  | succ j ih =>
    obtain ⟨hserved, hacceptable, htotal⟩ := hg (j + 1) hj
    have hsplit : deliveries g (j + 1 + 1) = deliveries g (j + 1) ++ [.deliver (g (j + 1)) (j + 1)] := by
      rw [deliveries, List.range_succ, List.map_append]
      rfl
    rw [hsplit, List.foldl_append, ih (Nat.lt_of_succ_lt hj)]
    change Transfer.next count _ (.deliver (g (j + 1)) (j + 1)) = _
    have hserved' : g (j + 1) ∈ Transfer.served ⟨collected g n (j + 1), s.served⟩ := hserved
    rw [next_deliver hserved' htotal, receive_collected hlimit hj hacceptable rfl rfl]

theorem receive_done_collected (g : ℕ → List Byte) (n : ℕ) :
    ((collected g n n).receive count (bootMagic ++ [bootDone])).out =
      some ((List.range n).flatMap fun i => chunkAt (g i) i) := by
  unfold Fetch.receive
  rw [readBoot_done]
  change ((collected g n n).settle count .missing).out = _
  have hcomplete : Fetch.Complete
      ((List.range n).map (fun i => some (chunkAt (g i) i)) ++ List.replicate (n - n) none) := by
    intro chunk hchunk
    rw [Nat.sub_self, List.replicate_zero, List.append_nil] at hchunk
    obtain ⟨i, _, rfl⟩ := List.mem_map.mp hchunk
    rfl
  simp only [Fetch.settle, collected]
  rw [if_pos hcomplete, Nat.sub_self, List.replicate_zero, List.append_nil]
  simp only [Fetch.finish, List.flatMap_map, Option.getD_some]

theorem out_of_deliveries (hcount : 0 < count) (hfetch : s.fetch = .tryPeer count 0) (hn : totalChunks (g 0) = n)
    (hpos : 0 < n) (hg : ∀ i < n, g i ∈ s.served ∧ Acceptable (g i) ∧ i < totalChunks (g i)) :
    ((deliveries g n ++ [TransferEvent.deliver (g 0) n]).foldl (next count) s).fetch.out =
      some ((List.range n).flatMap fun i => chunkAt (g i) i) := by
  obtain ⟨j, rfl⟩ := Nat.exists_eq_add_one.mpr hpos
  rw [List.foldl_append, foldl_deliveries hcount hfetch hn hg (Nat.lt_succ_self j)]
  change (Transfer.next count _ (.deliver (g 0) (j + 1))).fetch.out = _
  have hserved : g 0 ∈ Transfer.served ⟨collected g (j + 1) (j + 1), s.served⟩ := (hg 0 hpos).1
  have hdone : Transfer.next count _ _ = _ := next_deliver_done hserved
  rw [hn] at hdone
  rw [hdone]
  exact @receive_done_collected count g (j + 1)

end Collected

section Unchanged

variable {reg : Registrar}

def AnswersWith (reg : Registrar) : TransferEvent → Prop
  | .serve reg' => reg' = reg
  | _ => True

theorem served_next {e : TransferEvent} (he : AnswersWith reg e)
    (hs : ∀ blob ∈ s.served, blob = grSerialize reg .full) :
    ∀ blob ∈ (s.next count e).served, blob = grSerialize reg .full := by
  cases e with
  | serve reg' =>
    obtain rfl : reg' = reg := he
    intro blob hblob
    cases List.mem_append.mp hblob with
    | inl hold => exact hs blob hold
    | inr hnew => exact List.mem_singleton.mp hnew
  | deliver blob k =>
    rw [next]
    split
    · split <;> exact hs
    · exact hs
  | timeout => exact hs
  | deadline => exact hs

theorem steady_of_answersWith (h : s.Inv) (hs : ∀ blob ∈ s.served, blob = grSerialize reg .full)
    (hsize : (grSerialize reg .full).length ≤ 10000 * bootChunkSize) {e : TransferEvent} (he : AnswersWith reg e) :
    s.Steady e := by
  cases e with
  | serve reg' =>
    obtain rfl : reg' = reg := he
    exact hsize
  | deliver blob k =>
    intro hblob _ chunks hchunks _
    obtain ⟨blob', hblob', hagrees⟩ := h.sound.taken chunks hchunks
    exact ⟨blob', hblob', hagrees, by rw [hs blob hblob, hs blob' hblob']⟩
  | timeout => trivial
  | deadline => trivial

theorem steady_unchanged (hsize : (grSerialize reg .full).length ≤ 10000 * bootChunkSize) (count : ℕ)
    {es : List TransferEvent} (hes : ∀ e ∈ es, AnswersWith reg e) (xs : List TransferEvent) (e : TransferEvent)
    (ys : List TransferEvent) (heq : es = xs ++ e :: ys) : (xs.foldl (next count) (start count)).Steady e := by
  obtain ⟨hinv, hserved⟩ := System.holds_along
    (I := fun s : Transfer => s.Inv ∧ ∀ blob ∈ s.served, blob = grSerialize reg .full)
    (fun s e hs he => ⟨hs.1.next e (steady_of_answersWith hs.1 hs.2 hsize he), served_next he hs.2⟩)
    ⟨inv_start count, fun _ h => absurd h List.not_mem_nil⟩ es
    (fun xs e ys heq => hes e (heq ▸ List.mem_append_right _ List.mem_cons_self)) xs (e :: ys) heq
  exact steady_of_answersWith hinv hserved hsize (hes e (heq ▸ List.mem_append_right _ List.mem_cons_self))

end Unchanged

def wholeTransfer (blob : List Byte) : List TransferEvent :=
  deliveries (fun _ => blob) (totalChunks blob) ++ [.deliver blob (totalChunks blob)]

theorem createdGroup_acceptable : Acceptable (grSerialize (createdGroup lengthHash) .full) :=
  acceptable_of_length (grSerialize_ne_nil _ _) (by rw [length_createdGroup]; decide)

def createdTransfer : List TransferEvent :=
  .serve (createdGroup lengthHash) :: wholeTransfer (grSerialize (createdGroup lengthHash) .full)

theorem intact_createdGroup : (createdTransfer.foldl (next 1) (start 1)).Intact ∧
    (createdTransfer.foldl (next 1) (start 1)).fetch.out = some (grSerialize (createdGroup lengthHash) .full) := by
  unfold createdTransfer
  have hserve : (start 1).next 1 (.serve (createdGroup lengthHash)) =
      ⟨.tryPeer 1 0, [grSerialize (createdGroup lengthHash) .full]⟩ := rfl
  generalize hreg : createdGroup lengthHash = reg at hserve ⊢
  have hacceptable : Acceptable (grSerialize reg .full) := hreg ▸ createdGroup_acceptable
  have hsize : (grSerialize reg .full).length ≤ 10000 * bootChunkSize := by
    rw [← hreg, length_createdGroup]
    decide
  constructor
  · refine intact_throughout 1 _ (steady_unchanged hsize 1 fun e he => ?_) _ [] (List.append_nil _).symm
    cases List.mem_cons.mp he with
    | inl hfirst =>
      rw [hfirst]
      rfl
    | inr hrest =>
      cases List.mem_append.mp hrest with
      | inl hchunk =>
        obtain ⟨i, _, rfl⟩ := List.mem_map.mp hchunk
        trivial
      | inr hdone =>
        rw [List.mem_singleton.mp hdone]
        trivial
  · rw [List.foldl_cons, hserve]
    have hout : ((wholeTransfer (grSerialize reg .full)).foldl (next 1)
        ⟨.tryPeer 1 0, [grSerialize reg .full]⟩).fetch.out = some _ :=
      out_of_deliveries Nat.one_pos rfl rfl hacceptable.positive
        fun i hi => ⟨List.mem_singleton_self _, hacceptable, hi⟩
    rw [assembled_eq] at hout
    exact hout

def spliced (blob blob' : List Byte) (i : ℕ) : List Byte := if i = 0 then blob else blob'

theorem length_chunkAt {blob : List Byte} {i : ℕ} (h : (i + 1) * bootChunkSize ≤ blob.length) :
    (chunkAt blob i).length = bootChunkSize := by
  rw [Nat.succ_mul] at h
  rw [chunkAt, List.length_take_of_le]
  rw [List.length_drop]
  omega

theorem length_spliced {blob blob' : List Byte} {n : ℕ} (hblob : bootChunkSize ≤ blob.length)
    (hblob' : n * bootChunkSize ≤ blob'.length) :
    ((List.range n).flatMap fun i => chunkAt (spliced blob blob' i) i).length = n * bootChunkSize := by
  have hchunks : ∀ i ∈ List.range n, (chunkAt (spliced blob blob' i) i).length = bootChunkSize := by
    intro i hi
    unfold spliced
    split
    · rename_i hzero
      exact length_chunkAt (by rw [hzero, Nat.zero_add, Nat.one_mul]; exact hblob)
    · exact length_chunkAt ((Nat.mul_le_mul_right _ (List.mem_range.mp hi)).trans hblob')
  rw [List.length_flatMap, List.map_congr_left hchunks, List.map_const', List.sum_replicate_nat, List.length_range]

theorem served_deliver (blob : List Byte) (k : ℕ) : (s.next count (.deliver blob k)).served = s.served := by
  rw [next]
  split
  · split <;> rfl
  · rfl

theorem served_deliveries (es : List TransferEvent) (hes : ∀ e ∈ es, ∃ blob k, e = .deliver blob k) (s : Transfer) :
    (es.foldl (next count) s).served = s.served := by
  induction es generalizing s with
  | nil => rfl
  | cons e es ih =>
    obtain ⟨blob, k, rfl⟩ := hes e List.mem_cons_self
    rw [List.foldl_cons, ih fun e he => hes e (List.mem_cons_of_mem _ he)]
    exact served_deliver blob k

theorem spliced_out {blob blob' : List Byte} (hblob : Acceptable blob) (hblob' : Acceptable blob')
    (hlarge : bootChunkSize ≤ blob.length) (hrest : blob.length ≠ totalChunks blob * bootChunkSize)
    (hlonger : totalChunks blob * bootChunkSize < blob'.length) :
    let run := (deliveries (spliced blob blob') (totalChunks blob) ++
      [TransferEvent.deliver blob (totalChunks blob)]).foldl (next 1) ⟨.tryPeer 1 0, [blob, blob']⟩
    ∃ data, run.fetch.out = some data ∧ data ∉ run.served := by
  have hmore : totalChunks blob ≤ totalChunks blob' := by
    have hspec := totalChunks_spec blob'
    unfold bootChunkSize at *
    omega
  have hout := out_of_deliveries (s := ⟨.tryPeer 1 0, [blob, blob']⟩) (g := spliced blob blob') Nat.one_pos rfl rfl
    hblob.positive fun i hi => by
      unfold spliced
      split
      · exact ⟨List.mem_cons_self, hblob, hi⟩
      · exact ⟨List.mem_cons_of_mem _ List.mem_cons_self, hblob', hi.trans_le hmore⟩
  refine ⟨_, hout, ?_⟩
  rw [served_deliveries]
  · have hlength := length_spliced hlarge hlonger.le
    intro hmem
    simp only [List.mem_cons, List.not_mem_nil, or_false] at hmem
    rcases hmem with heq | heq
    · exact hrest ((congrArg List.length heq).symm.trans hlength)
    · exact hlonger.ne' ((congrArg List.length heq).symm.trans hlength)
  · intro e he
    cases List.mem_append.mp he with
    | inl hchunk =>
      obtain ⟨i, _, rfl⟩ := List.mem_map.mp hchunk
      exact ⟨_, _, rfl⟩
    | inr hdone => exact ⟨_, _, List.mem_singleton.mp hdone⟩

theorem spliced_or_refused :
    (¬ ∀ (count : ℕ) (es : List TransferEvent), (∀ reg, .serve reg ∈ es → Founded reg) →
      ∀ data, (es.foldl (next count) (start count)).fetch.out = some data →
        data ∈ (es.foldl (next count) (start count)).served) ∧
    ¬ ∀ reg, Founded reg → Acceptable (grSerialize reg .full) := by
  constructor
  · intro h
    have hcreated := length_createdGroup
    have hsigned := length_signedGroup
    have hserve : [TransferEvent.serve (createdGroup lengthHash), .serve (signedGroup lengthHash)].foldl (next 1)
        (start 1) = ⟨.tryPeer 1 0,
          [grSerialize (createdGroup lengthHash) .full, grSerialize (signedGroup lengthHash) .full]⟩ := rfl
    have hfounded : ∀ reg, reg = createdGroup lengthHash ∨ reg = signedGroup lengthHash → Founded reg := by
      rintro reg (rfl | rfl)
      · exact founded_createdGroup _
      · exact founded_signedGroup _
    generalize createdGroup lengthHash = created at *
    generalize signedGroup lengthHash = signed at *
    obtain ⟨data, hout, hmem⟩ := spliced_out
      (acceptable_of_length (grSerialize_ne_nil created .full) (by rw [hcreated]; decide))
      (acceptable_of_length (grSerialize_ne_nil signed .full) (by rw [hsigned]; decide))
      (by rw [hcreated]; decide) (by rw [totalChunks, hcreated]; decide)
      (by rw [totalChunks, hcreated, hsigned]; decide)
    rw [← hserve, ← List.foldl_append] at hout hmem
    refine hmem (h 1 _ (fun reg hreg => hfounded reg ?_) data hout)
    simpa [deliveries] using hreg
  · intro h
    obtain ⟨reg, hfounded, hlarge⟩ := founded_bulky (show 10 ≤ 256 by decide)
    have hlimit := (h reg hfounded).limited
    have hspec := totalChunks_spec (grSerialize reg .full)
    unfold bootChunkSize at hspec
    omega

end Transfer

end YumiBrowser.Client
