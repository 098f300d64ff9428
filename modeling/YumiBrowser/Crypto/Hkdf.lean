import YumiBrowser.Library.Blocks
import YumiBrowser.Library.CounterMode

universe u

namespace YumiBrowser.Hkdf

open Wire Blocks

def skeinHashLen : ℕ := 128
def skeinMacLen : ℕ := 128

/-- The size of a `YumiCryptoHkdfInfoBuf`. -/
def infoBufLen : ℕ := 256

/-- The vendored Skein in the mode that takes a key of any length. -/
structure KeyedSkein where
  Ctx : Type u
  initExt : List Byte → Ctx
  update : Ctx → List Byte → Ctx
  final : Ctx → Bytes 128

section Mac

variable (skein : KeyedSkein.{u})

def skein1024MacInternal (key data : List Byte) : Bytes 128 :=
  let ctx := skein.initExt key
  skein.final (if data.length = 0 then ctx else skein.update ctx data)

/-- `T(0)` is empty, and `T(i)` is the MAC of `T(i-1) || info || i`. -/
def block (prk info : List Byte) : ℕ → List Byte
  | 0 => []
  | i + 1 => (skein1024MacInternal skein prk (block prk info i ++ info ++ [BitVec.ofNat 8 (i + 1)])).val

/-- `T(1) || T(2) || ... || T(n)` -/
def stream (prk info : List Byte) (n : ℕ) : List Byte := (List.range n).flatMap fun i => block skein prk info (i + 1)

def extractExpand (salt : Option (List Byte)) (ikm info : List Byte) (okmLen : ℕ) : List Byte :=
  let prk := skein1024MacInternal skein (salt.getD (List.replicate skeinHashLen 0)) ikm
  (stream skein prk.val info (blocksFor skeinMacLen okmLen)).take okmLen

end Mac

inductive KdfErr
  | ok
  | invalidParam
  | kdf
  deriving DecidableEq

inductive Ending
  | returned (rc : KdfErr)
  | aborted
  deriving DecidableEq

structure Expand where
  okm : List Byte
  tPrev : List Byte
  tPrevLen : ℕ
  offset : ℕ
  counter : BitVec 8

section Code

variable (skein : KeyedSkein.{u}) (prk : Bytes 128) (info : Option (List Byte)) (okmLen : ℕ)

/-- `T(n-1) || info || counter` -/
def buildInput (input : List Byte) (s : Expand) : Checked (List Byte) := do
  let tPrev ← readMany s.tPrev 0 s.tPrevLen
  let input ← copyNonempty input 0 tPrev
  let pos := s.tPrevLen
  let input ← copyNonempty input pos (info.getD [])
  let pos := pos + (info.getD []).length
  let input ← writeAt input pos s.counter
  readMany input 0 (s.tPrevLen + (info.getD []).length + 1)

def expandRound (input : List Byte) (s : Expand) : Checked Expand := do
  let input ← buildInput info input s
  let tCur := skein1024MacInternal skein prk.val input
  let toCopy := min (okmLen - s.offset) skeinMacLen
  let copied ← readMany tCur.val 0 toCopy
  let okm ← memcpy s.okm s.offset copied
  .ok ⟨okm, tCur.val, skeinMacLen, s.offset + toCopy, s.counter + 1⟩

variable (asserts : Bool) (lease : ℕ → Option (Block Byte infoBufLen))

/-- The loop, from its `i`-th round on; whether a lease succeeds, and what stands in the buffer, may differ from round
to round, and a build for release has no assertions. -/
def expandLoop : (rounds i : ℕ) → Expand → Checked (Ending × List Byte)
  | 0, _, _ => .error .stuck
  | rounds + 1, i, s =>
    if okmLen ≤ s.offset then .ok (.returned .ok, s.okm)
    else if asserts ∧ infoBufLen ≤ s.tPrevLen + (info.getD []).length + 1 then .ok (.aborted, s.okm)
    else (lease i).elim (.ok (.returned .kdf, s.okm)) fun input => do
      let s ← expandRound skein prk info okmLen input.cells s
      expandLoop rounds (i + 1) s

end Code

/-- `yumi_hkdf`: each round writes at least a byte, so the rounds suffice. The locals start with what is on the
stack. -/
def yumiHkdf (skein : KeyedSkein.{u}) (asserts : Bool) (lease : ℕ → Option (Block Byte infoBufLen))
    (stack : Bytes 128) (okm : Option (List Byte)) (okmLen : ℕ) (ikm salt info : Option (List Byte)) :
    Checked (Ending × List Byte) :=
  okm.elim (.ok (.returned .invalidParam, [])) fun okm =>
    ikm.elim (.ok (.returned .invalidParam, okm)) fun ikm =>
      let salt := salt.getD (List.replicate skeinHashLen 0)
      let prk := skein1024MacInternal skein salt ikm
      expandLoop skein prk info okmLen asserts lease (okmLen + 1) 0 ⟨okm, stack.val, 0, 0, 1⟩

section Stream

variable {skein : KeyedSkein.{u}} {prk info : List Byte} {m n okmLen : ℕ}

theorem length_block (i : ℕ) : (block skein prk info i).length = if i = 0 then 0 else skeinMacLen := by
  cases i with
  | zero => rfl
  | succ i => exact Bytes.length_eq _

theorem stream_succ (n : ℕ) :
    stream skein prk info (n + 1) = stream skein prk info n ++ block skein prk info (n + 1) := by
  rw [stream, List.range_succ, List.flatMap_append, List.flatMap_singleton]
  rfl

theorem length_stream (n : ℕ) : (stream skein prk info n).length = skeinMacLen * n := by
  induction n with
  | zero => rfl
  | succ n ih =>
    rw [stream_succ, List.length_append, ih, length_block, if_neg (Nat.succ_ne_zero n), Nat.mul_succ]

theorem take_stream_succ {i : ℕ} (h : skeinMacLen * i < okmLen) :
    (stream skein prk info (i + 1)).take okmLen =
      stream skein prk info i ++ (block skein prk info (i + 1)).take (min (okmLen - skeinMacLen * i) skeinMacLen) := by
  have hlen : (stream skein prk info i).length = skeinMacLen * i := length_stream i
  have hfull : (block skein prk info (i + 1)).length = skeinMacLen := length_block (i + 1)
  rw [stream_succ, List.take_append, hlen, List.take_of_length_le (hlen.trans_le h.le), ← hfull, ← List.take_take,
    List.take_length]

theorem stream_initial (h : m ≤ n) : stream skein prk info m <+: stream skein prk info n := by
  induction n, h using Nat.le_induction with
  | base => exact List.prefix_rfl
  | succ n _ ih =>
    rw [stream_succ]
    exact ih.trans (List.prefix_append _ _)

end Stream

section Expand

/-- What the loop has done before its `i`-th round. -/
structure Expanded (skein : KeyedSkein.{u}) (prk : Bytes 128) (info : List Byte) (okm₀ : List Byte) (okmLen i : ℕ)
    (s : Expand) : Prop where
  okm : s.okm = (stream skein prk.val info i).take okmLen ++ okm₀.drop (min (skeinMacLen * i) okmLen)
  prev : s.tPrev.take s.tPrevLen = block skein prk.val info i
  prevLen : s.tPrevLen = (block skein prk.val info i).length
  offset : s.offset = min (skeinMacLen * i) okmLen
  counter : s.counter = BitVec.ofNat 8 (i + 1)

variable {skein : KeyedSkein.{u}} {prk : Bytes 128} {info : Option (List Byte)} {okm₀ input : List Byte} {okmLen i : ℕ}
  {s : Expand}

theorem Expanded.held (h : Expanded skein prk (info.getD []) okm₀ okmLen i s) : s.tPrevLen ≤ s.tPrev.length := by
  rw [h.prevLen, ← h.prev]
  exact List.length_take_le' _ _

theorem safe_buildInput (h : Expanded skein prk (info.getD []) okm₀ okmLen i s) 
    (hfits : s.tPrevLen + (info.getD []).length + 1 ≤ input.length) :
    Safe (buildInput info input s) fun data =>
      data = block skein prk.val (info.getD []) i ++ info.getD [] ++ [BitVec.ofNat 8 (i + 1)] := by
  have hheld := h.held
  have hprev := h.prev
  have hlen := h.prevLen
  refine Safe.readMany (by rwa [Nat.zero_add]) ?_
  rw [List.drop_zero, hprev]
  refine Safe.extendNonempty (by omega) fun b₁ hlen₁ hb₁ => ?_
  rw [Nat.zero_add, List.take_zero, List.nil_append, ← hlen] at hb₁
  refine Safe.extendNonempty (by omega) fun b₂ hlen₂ hb₂ => Safe.extendCell (by omega) fun b₃ hlen₃ hb₃ => ?_
  rw [Blocks.readMany, if_pos (by omega)]
  refine .ok ?_
  rw [List.drop_zero, hb₃, hb₂, hb₁, h.counter]

theorem Expanded.okm_eq (h : Expanded skein prk (info.getD []) okm₀ okmLen i s) (hmore : skeinMacLen * i < okmLen) :
    s.offset = (stream skein prk.val (info.getD []) i).length ∧
      s.okm = stream skein prk.val (info.getD []) i ++ okm₀.drop (skeinMacLen * i) := by
  have hmin : min (skeinMacLen * i) okmLen = skeinMacLen * i := Nat.min_eq_left hmore.le
  have hlen : (stream skein prk.val (info.getD []) i).length = skeinMacLen * i := length_stream i
  refine ⟨by rw [h.offset, hmin, hlen], ?_⟩
  rw [h.okm, hmin, List.take_of_length_le (by rw [hlen]; exact hmore.le)]

theorem safe_expandRound (h : Expanded skein prk (info.getD []) okm₀ okmLen i s) (hroom : okmLen ≤ okm₀.length)
    (hmore : skeinMacLen * i < okmLen) (hfits : s.tPrevLen + (info.getD []).length + 1 ≤ input.length) :
    Safe (expandRound skein prk info okmLen input s) (Expanded skein prk (info.getD []) okm₀ okmLen (i + 1)) := by
  obtain ⟨hoffset, hokm⟩ := h.okm_eq hmore
  have hstream : (stream skein prk.val (info.getD []) i).length = skeinMacLen * i := length_stream i
  refine (safe_buildInput h hfits).bind fun data hdata => ?_
  have hblock : (skein1024MacInternal skein prk.val data).val = block skein prk.val (info.getD []) (i + 1) := by
    rw [hdata]
    rfl
  have hfull : (block skein prk.val (info.getD []) (i + 1)).length = skeinMacLen := length_block (i + 1)
  have hmin : min (skeinMacLen * (i + 1)) okmLen = skeinMacLen * i + min (okmLen - skeinMacLen * i) skeinMacLen := by
    rw [Nat.mul_succ]
    omega
  have hcopied :
      ((block skein prk.val (info.getD []) (i + 1)).take (min (okmLen - skeinMacLen * i) skeinMacLen)).length =
        min (okmLen - skeinMacLen * i) skeinMacLen := by
    rw [List.length_take, hfull]
    omega
  dsimp only
  rw [hblock, hoffset, hstream]
  refine Safe.readMany (by rw [hfull]; omega) (Safe.memcpy ?_ (.ok ⟨?_, ?_, ?_, ?_, ?_⟩))
  · rw [List.drop_zero, hcopied, hokm, List.length_append, hstream, List.length_drop]
    omega
  · rw [List.drop_zero, hokm, ← hstream, splice_append, hstream, hcopied, take_stream_succ hmore, hmin, List.drop_drop,
      List.append_assoc]
  · exact List.take_of_length_le hfull.le
  · exact hfull.symm
  · exact hmin.symm
  · change s.counter + 1 = _
    rw [h.counter, BitVec.ofNat_add (i + 1) 1]
    rfl

def Ends (skein : KeyedSkein.{u}) (prk : Bytes 128) (info okm₀ : List Byte) (okmLen : ℕ)
    (lease : ℕ → Option (Block Byte infoBufLen)) (x : Ending × List Byte) : Prop :=
  x = (.returned .ok, (stream skein prk.val info (blocksFor skeinMacLen okmLen)).take okmLen ++ okm₀.drop okmLen) ∨
    ∃ i < blocksFor skeinMacLen okmLen, lease i = none ∧
      x = (.returned .kdf, stream skein prk.val info i ++ okm₀.drop (skeinMacLen * i))

variable {asserts : Bool} {lease : ℕ → Option (Block Byte infoBufLen)}

theorem safe_expandLoop (hroom : okmLen ≤ okm₀.length)
    (hinfo : 1 + (info.getD []).length + (if skeinMacLen < okmLen then skeinMacLen else 0) < infoBufLen)
    {rounds left : ℕ} (hleft : i + left = blocksFor skeinMacLen okmLen) (hrounds : left < rounds)
    (h : Expanded skein prk (info.getD []) okm₀ okmLen i s) :
    Safe (expandLoop skein prk info okmLen asserts lease rounds i s)
      (Ends skein prk (info.getD []) okm₀ okmLen lease) := by
  induction left generalizing rounds i s with
  | zero =>
    obtain ⟨rounds, rfl⟩ := Nat.exists_eq_add_one_of_ne_zero (Nat.ne_of_gt hrounds)
    have hdone : okmLen ≤ skeinMacLen * i := by
      rw [← Nat.add_zero i, hleft]
      exact le_blocksFor (by decide) okmLen
    have hmin : min (skeinMacLen * i) okmLen = okmLen := Nat.min_eq_right hdone
    rw [expandLoop, if_pos (by rw [h.offset, hmin]), h.okm, hmin]
    refine .ok (.inl ?_)
    rw [← hleft, Nat.add_zero]
  | succ left ih =>
    obtain ⟨rounds, rfl⟩ := Nat.exists_eq_add_one_of_ne_zero (Nat.ne_of_gt (Nat.zero_lt_of_lt hrounds))
    have hi : i < blocksFor skeinMacLen okmLen := by omega
    have hmore : skeinMacLen * i < okmLen := (lt_blocksFor_iff (by decide)).mp hi
    have hoffset : s.offset = skeinMacLen * i := by rw [h.offset, Nat.min_eq_left hmore.le]
    have hshort : s.tPrevLen + (info.getD []).length + 1 < infoBufLen := by
      rw [h.prevLen, length_block]
      split
      · omega
      · next hlater =>
        have hmany : skeinMacLen < okmLen :=
          lt_of_le_of_lt (Nat.le_mul_of_pos_right _ (Nat.pos_of_ne_zero hlater)) hmore
        rw [if_pos hmany] at hinfo
        omega
    rw [expandLoop, if_neg (by omega), if_neg fun hlong => absurd hlong.2 (Nat.not_le.mpr hshort)]
    cases hlease : lease i with
    | none => exact .ok (.inr ⟨i, hi, hlease, congrArg _ (h.okm_eq hmore).2⟩)
    | some input =>
      refine (safe_expandRound h hroom hmore ?_).bind fun s' hs' => ih (by omega) (by omega) hs'
      rw [input.size]
      exact hshort.le

end Expand

theorem expanded_start (skein : KeyedSkein.{u}) (prk : Bytes 128) (info okm stack : List Byte) (okmLen : ℕ) :
    Expanded skein prk info okm okmLen 0 ⟨okm, stack, 0, 0, 1⟩ where
  okm := by
    have hnone : stream skein prk.val info 0 = [] := rfl
    rw [Nat.mul_zero, Nat.zero_min, hnone, List.take_nil, List.nil_append, List.drop_zero]
  prev := rfl
  prevLen := rfl
  offset := by rw [Nat.mul_zero, Nat.zero_min]
  counter := rfl

section Derivation

variable {skein : KeyedSkein.{u}} {salt : Option (List Byte)} {ikm info : List Byte} {m n : ℕ}

theorem length_extractExpand (n : ℕ) : (extractExpand skein salt ikm info n).length = n := by
  rw [extractExpand, List.length_take, length_stream]
  exact Nat.min_eq_left (le_blocksFor (by decide) n)

theorem extractExpand_prefix (h : m ≤ n) :
    extractExpand skein salt ikm info m <+: extractExpand skein salt ikm info n := by
  have hblocks : blocksFor skeinMacLen m ≤ blocksFor skeinMacLen n := Nat.div_le_div_right (by omega)
  refine List.prefix_take_iff.mpr ⟨(List.take_prefix _ _).trans (stream_initial hblocks), ?_⟩
  exact (List.length_take_le _ _).trans h

theorem extractExpand_whole (i : ℕ) : extractExpand skein salt ikm info (skeinMacLen * i) =
    stream skein (skein1024MacInternal skein (salt.getD (List.replicate skeinHashLen 0)) ikm).val info i := by
  have hblocks : blocksFor skeinMacLen (skeinMacLen * i) = i := by
    unfold blocksFor skeinMacLen
    omega
  rw [extractExpand, hblocks]
  exact List.take_of_length_le (length_stream i).le

end Derivation

/-- An information of at most 254 bytes, or 126 if there is more than a block to derive, is expanded as the standard
says, whatever stands in the buffers, and nothing behind the output is written; if a lease is refused, the blocks before
it have been written. -/
theorem yumiHkdf_eq (skein : KeyedSkein.{u}) (asserts : Bool) (lease : ℕ → Option (Block Byte infoBufLen))
    (stack : Bytes 128) {okm : List Byte} {okmLen : ℕ} (hroom : okmLen ≤ okm.length) (ikm : List Byte)
    (salt info : Option (List Byte))
    (hinfo : 1 + (info.getD []).length + (if skeinMacLen < okmLen then skeinMacLen else 0) < infoBufLen) :
    (yumiHkdf skein asserts lease stack (some okm) okmLen (some ikm) salt info =
        .ok (.returned .ok, extractExpand skein salt ikm (info.getD []) okmLen ++ okm.drop okmLen) ∨
      ∃ i < blocksFor skeinMacLen okmLen, lease i = none ∧
        yumiHkdf skein asserts lease stack (some okm) okmLen (some ikm) salt info =
          .ok (.returned .kdf,
            extractExpand skein salt ikm (info.getD []) (skeinMacLen * i) ++ okm.drop (skeinMacLen * i))) ∧
      (extractExpand skein salt ikm (info.getD []) okmLen).length = okmLen ∧
      ∀ n ≤ okmLen, extractExpand skein salt ikm (info.getD []) n <+:
        extractExpand skein salt ikm (info.getD []) okmLen := by
  refine ⟨?_, length_extractExpand okmLen, fun n hn => extractExpand_prefix hn⟩
  have hstart := expanded_start skein (skein1024MacInternal skein (salt.getD (List.replicate skeinHashLen 0)) ikm)
    (info.getD []) okm stack.val okmLen
  have hblocks : blocksFor skeinMacLen okmLen < okmLen + 1 := by
    unfold blocksFor skeinMacLen
    omega
  obtain ⟨x, hx, hends⟩ : Safe (expandLoop skein _ info okmLen asserts lease (okmLen + 1) 0 _) _ :=
    safe_expandLoop hroom hinfo (Nat.zero_add _) hblocks hstart
  obtain rfl | ⟨i, hi, hlease, rfl⟩ := hends
  · exact .inl hx
  · refine .inr ⟨i, hi, hlease, ?_⟩
    rw [extractExpand_whole]
    exact hx

section Sample

def constantSkein : KeyedSkein where
  Ctx := Unit
  initExt _ := ()
  update _ _ := ()
  final _ := .fill 128 7

def buffers : ℕ → Option (Block Byte infoBufLen) := fun _ => some (.fill infoBufLen 0xcd)

theorem yumiHkdf_two_blocks :
    (yumiHkdf constantSkein true buffers (.fill 128 0) (some (List.replicate 140 0)) 130 (some [1]) none (some [2, 3]) =
        .ok (.returned .ok, extractExpand constantSkein none [1] [2, 3] 130 ++ (List.replicate 140 0).drop 130) ∨
      ∃ i < blocksFor skeinMacLen 130, buffers i = none ∧
        yumiHkdf constantSkein true buffers (.fill 128 0) (some (List.replicate 140 0)) 130 (some [1]) none
            (some [2, 3]) =
          .ok (.returned .kdf, extractExpand constantSkein none [1] [2, 3] (skeinMacLen * i) ++
            (List.replicate 140 0).drop (skeinMacLen * i))) ∧
      (extractExpand constantSkein none [1] [2, 3] 130).length = 130 ∧
      ∀ n ≤ 130, extractExpand constantSkein none [1] [2, 3] n <+: extractExpand constantSkein none [1] [2, 3] 130 :=
  yumiHkdf_eq constantSkein true buffers (.fill 128 0) (by rw [List.length_replicate]; decide) [1] none (some [2, 3])
    (by decide)

-- 128 bytes do not fit behind a block: the assertion ends a debug build, and the counter is written behind the buffer
-- in a release build.
theorem long_info_fails : ¬ ∃ asserts : Bool, ∀ (skein : KeyedSkein.{0}) (okm : List Byte) (okmLen : ℕ)
    (ikm : List Byte) (salt info : Option (List Byte)), okmLen ≤ 255 * skeinMacLen → okmLen ≤ okm.length →
    yumiHkdf skein asserts buffers (.fill 128 0) (some okm) okmLen (some ikm) salt info =
      .ok (.returned .ok, extractExpand skein salt ikm (info.getD []) okmLen ++ okm.drop okmLen) := by
  rintro ⟨asserts, h⟩
  have hlong := h constantSkein (List.replicate 129 0) 129 [1] none (some (List.replicate 128 2)) (by decide)
    (by rw [List.length_replicate])
  have hending := congrArg (fun r => r.toOption.map Prod.fst) hlong
  revert hending
  cases asserts with
  | true => decide +kernel
  | false => decide +kernel

end Sample

end YumiBrowser.Hkdf
