import YumiBrowser.Library.ByteCodec
import YumiBrowser.Library.Interleaving

namespace YumiBrowser.Client.Chunked

open Wire Interleaving

def putU32 (v : ℕ) : List Byte := (toLe 4 v).reverse

def getU32 (p : List Byte) : ℕ := ofLe (p.take 4).reverse

def chunkStart : Byte := 0xFE
def chunkCont : Byte := 0xFF

inductive MsgType
  | syncVersion | syncDeltaReq | syncDelta | syncFullReq | syncFull | syncPing | syncPong | attNonce | attHeader
  deriving DecidableEq

def MsgType.code : MsgType → Byte
  | .syncVersion => 0x01
  | .syncDeltaReq => 0x02
  | .syncDelta => 0x03
  | .syncFullReq => 0x04
  | .syncFull => 0x05
  | .syncPing => 0x06
  | .syncPong => 0x07
  | .attNonce => 0x10
  | .attHeader => 0x11

def maxTotalLen : ℕ := 4 * 1024 * 1024

structure Message where
  msgType : MsgType
  data : List Byte
  fits : data.length ≤ maxTotalLen

def Message.wire (m : Message) : Byte × List Byte := (m.msgType.code, m.data)

/-- The bytes in `buf` are those received so far. -/
structure Reasm where
  msgType : Byte
  totalLen : ℕ
  buf : Option (List Byte)
  deriving DecidableEq

namespace Reasm

def reset : Reasm := ⟨0, 0, none⟩

def complete (r : Reasm) : Reasm × Option (Byte × List Byte) :=
  match r.buf with
  | none => (r, none)
  | some buf => if r.totalLen ≤ buf.length then (reset, some (r.msgType, buf)) else (r, none)

def start (r : Reasm) : List Byte → Reasm × Option (Byte × List Byte)
  | msgType :: b₀ :: b₁ :: b₂ :: b₃ :: chunk =>
    let totalLen := getU32 [b₀, b₁, b₂, b₃]
    if totalLen = 0 ∨ maxTotalLen < totalLen then (reset, none)
    else complete ⟨msgType, totalLen, some (chunk.take totalLen)⟩
  | _ => (r, none)

def cont (r : Reasm) (chunk : List Byte) : Reasm × Option (Byte × List Byte) :=
  match r.buf with
  | none => (r, none)
  | some buf =>
    if r.totalLen ≤ buf.length then (r, none)
    else complete { r with buf := some (buf ++ chunk.take (r.totalLen - buf.length)) }

end Reasm

def reasmFeed (r : Reasm) : List Byte → Reasm × Option (Byte × List Byte)
  | [] => (r, none)
  | tag :: payload =>
    if tag = chunkStart then r.start payload
    else if tag = chunkCont then r.cont payload
    else (r, some (tag, payload))

def received : Reasm → List (List Byte) → List (Byte × List Byte)
  | _, [] => []
  | r, packet :: packets =>
    let r' := reasmFeed r packet
    r'.2.toList ++ received r'.1 packets

def continuations (maxPl : ℕ) (data : List Byte) : List (List Byte) :=
  if h : data = [] ∨ maxPl ≤ 1 then []
  else (chunkCont :: data.take (maxPl - 1)) :: continuations maxPl (data.drop (maxPl - 1))
termination_by data.length
decreasing_by
  obtain ⟨hdata, hmax⟩ := not_or.mp h
  rw [List.length_drop]
  exact Nat.sub_lt (List.length_pos_iff.mpr hdata) (Nat.sub_pos_of_lt (Nat.not_le.mp hmax))

def startPacket (maxPl : ℕ) (m : Message) : List Byte :=
  chunkStart :: m.msgType.code :: putU32 m.data.length ++ m.data.take (maxPl - 6)

def chunkedSend (maxPl : ℕ) (m : Message) : Option (List (List Byte)) :=
  if maxPl < 10 then none
  else if m.data.length + 1 ≤ maxPl then some [m.msgType.code :: m.data]
  else some (startPacket maxPl m :: continuations maxPl (m.data.drop (maxPl - 6)))

section Receive

variable {r : Reasm} {packet : List Byte} {packets : List (List Byte)} {maxPl : ℕ} {m : Message}

theorem getU32_putU32 {v : ℕ} (h : v < 2 ^ 32) : getU32 (putU32 v) = v := by
  rw [getU32, putU32, List.take_of_length_le (by simp), List.reverse_reverse, ofLe_toLe]
  exact Nat.mod_eq_of_lt h

theorem received_append (r : Reasm) (xs ys : List (List Byte)) :
    received r (xs ++ ys) = received r xs ++ received (xs.foldl (fun r p => (reasmFeed r p).1) r) ys := by
  induction xs generalizing r with
  | nil => rfl
  | cons x xs ih =>
    change (reasmFeed r x).2.toList ++ received (reasmFeed r x).1 (xs ++ ys) = _
    rw [ih, ← List.append_assoc]
    rfl

theorem code_ne_chunk (t : MsgType) : t.code ≠ chunkStart ∧ t.code ≠ chunkCont := by
  cases t <;> decide

theorem reasmFeed_small (r : Reasm) (m : Message) :
    reasmFeed r (m.msgType.code :: m.data) = (r, some m.wire) := by
  obtain ⟨hstart, hcont⟩ := code_ne_chunk m.msgType
  rw [reasmFeed, if_neg hstart, if_neg hcont]
  rfl

theorem reasmFeed_cont (r : Reasm) (chunk : List Byte) : reasmFeed r (chunkCont :: chunk) = r.cont chunk := by
  rw [reasmFeed, if_neg (by decide), if_pos rfl]

theorem cont_none (h : r.buf = none) (chunk : List Byte) : r.cont chunk = (r, none) := by
  rw [Reasm.cont, h]

theorem cont_some {buf chunk : List Byte} {msgType : Byte} {totalLen : ℕ} (h : buf.length < totalLen)
    (hfits : buf.length + chunk.length ≤ totalLen) :
    Reasm.cont ⟨msgType, totalLen, some buf⟩ chunk =
      if totalLen ≤ buf.length + chunk.length then (.reset, some (msgType, buf ++ chunk))
      else (⟨msgType, totalLen, some (buf ++ chunk)⟩, none) := by
  simp only [Reasm.cont, if_neg (Nat.not_le.mpr h), List.take_of_length_le (Nat.le_sub_of_add_le' hfits),
    Reasm.complete, List.length_append]

theorem reasmFeed_start (r : Reasm) {m : Message} (hchunked : ¬ m.data.length + 1 ≤ maxPl) (hmax : 10 ≤ maxPl) :
    reasmFeed r (startPacket maxPl m) =
      (⟨m.msgType.code, m.data.length, some (m.data.take (maxPl - 6))⟩, none) := by
  have hfits := m.fits
  have hlimit : maxTotalLen < 2 ^ 32 := by decide
  obtain ⟨b₀, b₁, b₂, b₃, hput⟩ : ∃ b₀ b₁ b₂ b₃, putU32 m.data.length = [b₀, b₁, b₂, b₃] := ⟨_, _, _, _, rfl⟩
  have hread : getU32 [b₀, b₁, b₂, b₃] = m.data.length := by
    rw [← hput]
    exact getU32_putU32 (hfits.trans_lt hlimit)
  have hlength : (m.data.take (maxPl - 6)).length = maxPl - 6 := List.length_take_of_le (by omega)
  have hmore : ¬ m.data.length ≤ (m.data.take (maxPl - 6)).length := by omega
  rw [startPacket, hput]
  change Reasm.start r (m.msgType.code :: b₀ :: b₁ :: b₂ :: b₃ :: m.data.take (maxPl - 6)) = _
  rw [Reasm.start, hread, if_neg (by omega), List.take_of_length_le (Nat.le_of_not_le hmore), Reasm.complete]
  exact if_neg hmore

theorem continuations_nil (maxPl : ℕ) : continuations maxPl [] = [] := by
  rw [continuations, dif_pos (.inl rfl)]

theorem continuations_cons {rest : List Byte} (hrest : rest ≠ []) (hmax : 10 ≤ maxPl) :
    continuations maxPl rest =
      (chunkCont :: rest.take (maxPl - 1)) :: continuations maxPl (rest.drop (maxPl - 1)) := by
  rw [continuations, dif_neg (not_or.mpr ⟨hrest, by omega⟩)]

theorem cont_next {msgType : Byte} {buf rest : List Byte} (hrest : rest ≠ []) :
    Reasm.cont ⟨msgType, buf.length + rest.length, some buf⟩ (rest.take (maxPl - 1)) =
      if rest.drop (maxPl - 1) = [] then (.reset, some (msgType, buf ++ rest))
      else (⟨msgType, buf.length + rest.length, some (buf ++ rest.take (maxPl - 1))⟩, none) := by
  have hpos := List.length_pos_iff.mpr hrest
  have hle : (rest.take (maxPl - 1)).length ≤ rest.length := List.length_take_le' _ _
  rw [cont_some (Nat.lt_add_of_pos_right hpos) (Nat.add_le_add_left hle _)]
  by_cases hlast : rest.length ≤ maxPl - 1
  · rw [List.take_of_length_le hlast, if_pos le_rfl, if_pos (List.drop_eq_nil_of_le hlast)]
  · have hlength : (rest.take (maxPl - 1)).length = maxPl - 1 := List.length_take_of_le (Nat.le_of_not_le hlast)
    rw [if_neg (by omega), if_neg fun hnil => hlast (List.drop_eq_nil_iff.mp hnil)]

theorem received_continuations (hmax : 10 ≤ maxPl) {msgType : Byte} {buf rest : List Byte} (hrest : rest ≠ []) :
    received ⟨msgType, buf.length + rest.length, some buf⟩ (continuations maxPl rest) =
      [(msgType, buf ++ rest)] := by
  induction hn : rest.length using Nat.strong_induction_on generalizing buf rest with
  | _ n ih =>
    rw [continuations_cons hrest hmax, received, reasmFeed_cont, ← hn, cont_next hrest]
    by_cases hlast : rest.drop (maxPl - 1) = []
    · rw [if_pos hlast, hlast, continuations_nil]
      rfl
    · rw [if_neg hlast]
      have hlength : (buf ++ rest.take (maxPl - 1)).length + (rest.drop (maxPl - 1)).length =
          buf.length + rest.length := by
        rw [List.length_append, Nat.add_assoc, ← List.length_append, List.take_append_drop]
      have hshorter : (rest.drop (maxPl - 1)).length < n := by
        have hpos := List.length_pos_iff.mpr hrest
        rw [List.length_drop]
        omega
      rw [← hlength]
      apply (List.nil_append _).trans
      rw [ih _ hshorter hlast rfl, List.append_assoc, List.take_append_drop]

theorem received_continuations_prefix (hmax : 10 ≤ maxPl) {msgType : Byte} {buf rest : List Byte}
    {before after : List (List Byte)} (hsplit : continuations maxPl rest = before ++ after) (hafter : after ≠ []) :
    received ⟨msgType, buf.length + rest.length, some buf⟩ before = [] := by
  induction before generalizing buf rest with
  | nil => rfl
  | cons packet before ih =>
    have hrest : rest ≠ [] := by
      rintro rfl
      rw [continuations_nil] at hsplit
      cases hsplit
    rw [continuations_cons hrest hmax] at hsplit
    obtain ⟨rfl, htail⟩ := List.cons.inj hsplit
    have hlast : rest.drop (maxPl - 1) ≠ [] := by
      intro hnil
      rw [hnil, continuations_nil] at htail
      exact hafter (List.append_eq_nil_iff.mp htail.symm).2
    rw [received, reasmFeed_cont, cont_next hrest, if_neg hlast]
    have hlength : (buf ++ rest.take (maxPl - 1)).length + (rest.drop (maxPl - 1)).length =
        buf.length + rest.length := by
      rw [List.length_append, Nat.add_assoc, ← List.length_append, List.take_append_drop]
    rw [← hlength]
    exact ih htail

theorem cont_of_mem_continuations {rest : List Byte} (h : packet ∈ continuations maxPl rest) :
    ∃ chunk, packet = chunkCont :: chunk := by
  induction hn : rest.length using Nat.strong_induction_on generalizing rest with
  | _ n ih =>
    rw [continuations] at h
    split at h
    · cases h
    · rename_i hmore
      obtain ⟨hrest, hmax⟩ := not_or.mp hmore
      cases List.mem_cons.mp h with
      | inl heq => exact ⟨_, heq⟩
      | inr hmem =>
        refine ih _ ?_ hmem rfl
        rw [List.length_drop, hn]
        exact Nat.sub_lt (hn ▸ List.length_pos_iff.mpr hrest) (Nat.sub_pos_of_lt (Nat.not_le.mp hmax))

theorem cont_cases (r : Reasm) (chunk : List Byte) :
    (r.cont chunk).2 = none ∨ (r.cont chunk).1.buf = none := by
  unfold Reasm.cont Reasm.complete
  split
  · exact .inl rfl
  · split
    · exact .inl rfl
    · dsimp only
      split
      · exact .inr rfl
      · exact .inl rfl

theorem received_conts (h : ∀ packet ∈ packets, ∃ chunk, packet = chunkCont :: chunk) (r : Reasm) :
    (received r packets).length ≤ 1 ∧ (r.buf = none → received r packets = []) := by
  induction packets generalizing r with
  | nil => exact ⟨Nat.zero_le _, fun _ => rfl⟩
  | cons packet packets ih =>
    obtain ⟨chunk, rfl⟩ := h packet List.mem_cons_self
    have hrest := ih fun p hp => h p (List.mem_cons_of_mem _ hp)
    rw [received, reasmFeed_cont]
    constructor
    · cases cont_cases r chunk with
      | inl hnone =>
        rw [hnone]
        exact (hrest _).1
      | inr hbuf =>
        rw [(hrest _).2 hbuf, List.append_nil]
        cases (r.cont chunk).2 <;> simp
    · intro hbuf
      rw [cont_none hbuf]
      exact (hrest r).2 hbuf

end Receive

section Send

variable {maxPl : ℕ} {m m₁ m₂ : Message} {packets packets₁ packets₂ mixed : List (List Byte)}

theorem chunkedSend_cases (h : chunkedSend maxPl m = some packets) :
    (m.data.length + 1 ≤ maxPl ∧ packets = [m.msgType.code :: m.data]) ∨
      (¬ m.data.length + 1 ≤ maxPl ∧ 10 ≤ maxPl ∧
        packets = startPacket maxPl m :: continuations maxPl (m.data.drop (maxPl - 6))) := by
  unfold chunkedSend at h
  split at h
  · cases h
  · rename_i hmax
    split at h
    · rename_i hsmall
      exact .inl ⟨hsmall, (Option.some_inj.mp h).symm⟩
    · rename_i hmore
      exact .inr ⟨hmore, Nat.not_lt.mp hmax, (Option.some_inj.mp h).symm⟩

theorem length_split (maxPl : ℕ) (m : Message) :
    (m.data.take (maxPl - 6)).length + (m.data.drop (maxPl - 6)).length = m.data.length := by
  rw [← List.length_append, List.take_append_drop]

theorem received_chunkedSend (h : chunkedSend maxPl m = some packets) (r : Reasm) :
    received r packets = [m.wire] := by
  rcases chunkedSend_cases h with ⟨_, rfl⟩ | ⟨hchunked, hmax, rfl⟩
  · rw [received, reasmFeed_small]
    rfl
  · have hrest : m.data.drop (maxPl - 6) ≠ [] := by
      rw [Ne, List.drop_eq_nil_iff]
      omega
    rw [received, reasmFeed_start r hchunked hmax, ← length_split maxPl m]
    apply (received_continuations hmax hrest).trans
    rw [List.take_append_drop]
    rfl

theorem received_small (h₂ : chunkedSend maxPl m₂ = some packets₂)
    (hmixed : Interleaves [m₁.msgType.code :: m₁.data] packets₂ mixed) (r : Reasm) :
    (received r mixed).Perm [m₁.wire, m₂.wire] := by
  obtain ⟨before, after, rfl, rfl⟩ := hmixed.exists_split_of_singleton
  have hwhole := received_chunkedSend h₂ r
  rw [received_append] at hwhole
  rw [received_append, received, reasmFeed_small]
  change (received r before ++ m₁.wire :: received (before.foldl (fun r p => (reasmFeed r p).1) r) after).Perm _
  apply List.perm_middle.trans
  rw [hwhole]

theorem received_mixed (hchunked₁ : ¬ m₁.data.length + 1 ≤ maxPl) (hchunked₂ : ¬ m₂.data.length + 1 ≤ maxPl)
    (hmax : 10 ≤ maxPl) {before after rest : List (List Byte)}
    (hconts : continuations maxPl (m₁.data.drop (maxPl - 6)) = before ++ after) (hafter : after ≠ [])
    (hrest : Interleaves after (continuations maxPl (m₂.data.drop (maxPl - 6))) rest) (r : Reasm) :
    (received r (startPacket maxPl m₁ :: (before ++ startPacket maxPl m₂ :: rest))).length ≤ 1 := by
  have hcont : ∀ packet ∈ rest, ∃ chunk, packet = chunkCont :: chunk := by
    intro packet hmem
    cases hrest.mem_iff.mp hmem with
    | inl hfirst => exact cont_of_mem_continuations (hconts ▸ List.mem_append_right _ hfirst)
    | inr hsecond => exact cont_of_mem_continuations hsecond
  rw [received, reasmFeed_start r hchunked₁ hmax, received_append, ← length_split maxPl m₁,
    received_continuations_prefix hmax hconts hafter, received, reasmFeed_start _ hchunked₂ hmax]
  exact (received_conts hcont _).1

/-- Both messages arrive, and nothing else, exactly when one of them fits in a packet or all packets of one
come before those of the other. -/
theorem unmixed_iff (h₁ : chunkedSend maxPl m₁ = some packets₁) (h₂ : chunkedSend maxPl m₂ = some packets₂)
    (hmixed : Interleaves packets₁ packets₂ mixed) (r : Reasm) :
    (received r mixed).Perm [m₁.wire, m₂.wire] ↔
      m₁.data.length + 1 ≤ maxPl ∨ m₂.data.length + 1 ≤ maxPl ∨
        mixed = packets₁ ++ packets₂ ∨ mixed = packets₂ ++ packets₁ := by
  constructor
  · intro hperm
    rcases chunkedSend_cases h₁ with ⟨hsmall, _⟩ | ⟨hchunked₁, hmax, rfl⟩
    · exact .inl hsmall
    rcases chunkedSend_cases h₂ with ⟨hsmall, _⟩ | ⟨hchunked₂, _, rfl⟩
    · exact .inr (.inl hsmall)
    refine .inr (.inr ?_)
    obtain ⟨before, after, rest, hsplit, hrest, rfl⟩ := hmixed.exists_split_right
    cases before with
    | cons packet before =>
      obtain ⟨rfl, hconts⟩ := List.cons.inj hsplit
      by_cases hafter : after = []
      · subst hafter
        rw [hrest.eq_of_nil_left, hconts.trans (List.append_nil before)]
        exact .inl rfl
      · have htwo := received_mixed hchunked₁ hchunked₂ hmax hconts hafter hrest r
        exact absurd (hperm.length_eq.ge.trans htwo) (Nat.lt_irrefl 1)
    | nil =>
      obtain rfl := hsplit
      obtain ⟨before, after, rest', hconts, hrest', rfl⟩ := hrest.symm.exists_split_right
      by_cases hafter : after = []
      · subst hafter
        rw [hrest'.eq_of_nil_left, hconts.trans (List.append_nil before)]
        exact .inr rfl
      · have htwo := received_mixed hchunked₂ hchunked₁ hmax hconts hafter hrest' r
        exact absurd (hperm.length_eq.ge.trans htwo) (Nat.lt_irrefl 1)
  · rintro (hsmall | hsmall | rfl | rfl)
    · rcases chunkedSend_cases h₁ with ⟨_, rfl⟩ | ⟨hchunked, _⟩
      · exact received_small h₂ hmixed r
      · exact absurd hsmall hchunked
    · rcases chunkedSend_cases h₂ with ⟨_, rfl⟩ | ⟨hchunked, _⟩
      · exact (received_small h₁ hmixed.symm r).trans (.swap _ _ _)
      · exact absurd hsmall hchunked
    · rw [received_append, received_chunkedSend h₁, received_chunkedSend h₂]
      rfl
    · rw [received_append, received_chunkedSend h₂, received_chunkedSend h₁]
      exact .swap _ _ _

def tenBytes (msgType : MsgType) (b : Byte) : Message := 
  ⟨msgType, List.replicate 10 b, by simp [maxTotalLen]⟩

theorem chunkedSend_tenBytes (msgType : MsgType) (b : Byte) :
    chunkedSend 10 (tenBytes msgType b) =
      some [[chunkStart, msgType.code, 0, 0, 0, 10, b, b, b, b], [chunkCont, b, b, b, b, b, b]] := by
  have hconts : continuations 10 (List.replicate 6 b) = [[chunkCont, b, b, b, b, b, b]] := by
    have hrest : List.replicate 6 b ≠ [] := List.cons_ne_nil _ _
    rw [continuations_cons hrest le_rfl]
    exact congrArg _ (continuations_nil 10)
  have hput : putU32 10 = [0, 0, 0, 10] := by decide
  change some ((chunkStart :: msgType.code :: putU32 10 ++ [b, b, b, b]) :: continuations 10 (List.replicate 6 b)) = _
  rw [hconts, hput]
  rfl

theorem unmixed_tenBytes :
    (received .reset [[chunkStart, 0x03, 0, 0, 0, 10, 1, 1, 1, 1], [chunkCont, 1, 1, 1, 1, 1, 1],
      [chunkStart, 0x05, 0, 0, 0, 10, 2, 2, 2, 2], [chunkCont, 2, 2, 2, 2, 2, 2]]).Perm
      [(tenBytes .syncDelta 1).wire, (tenBytes .syncFull 2).wire] :=
  (unmixed_iff (chunkedSend_tenBytes .syncDelta 1) (chunkedSend_tenBytes .syncFull 2) (.append _ _) .reset).mpr
    (.inr (.inr (.inl rfl)))

theorem mixed_tenBytes : ¬ ∀ (maxPl : ℕ) (m₁ m₂ : Message) (packets₁ packets₂ mixed : List (List Byte)),
    chunkedSend maxPl m₁ = some packets₁ → chunkedSend maxPl m₂ = some packets₂ →
      Interleaves packets₁ packets₂ mixed → (received .reset mixed).Perm [m₁.wire, m₂.wire] := by
  intro h
  have hperm := h 10 _ _ _ _ _ (chunkedSend_tenBytes .syncDelta 1) (chunkedSend_tenBytes .syncDelta 2)
    (.left (.right (.left (.right .nil))))
  exact absurd hperm.length_eq (by decide)

end Send

end YumiBrowser.Client.Chunked
