import YumiBrowser.Crypto.SkeinBlock

namespace YumiBrowser.Cipher

open Wire Blocks Absorbing

def skeinT1FlagFinal : BitVec 64 := 1#64 <<< 63
def skeinT1BlkTypeKey : BitVec 64 := 0#64 <<< 56
def skeinT1BlkTypeCfg : BitVec 64 := 4#64 <<< 56
def skeinT1BlkTypeMsg : BitVec 64 := 48#64 <<< 56
def skeinT1BlkTypeOut : BitVec 64 := 63#64 <<< 56

section Stream

/-- `Skein_Start_New_Type` -/
def startNewType (ctx : Ctxt) (blkType : BitVec 64) : Ctxt :=
  { ctx with T0 := 0, T1 := skeinT1FlagFirst ||| blkType, bCnt := 0 }

variable (kw : Schedule)

def fillBuffer (ctx : Ctxt) (msg : List Byte) : Checked (Ctxt × List Byte) :=
  let n := skein1024BlockBytes - ctx.bCnt
  if n = 0 then .ok (ctx, msg)
  else do
    let front ← readMany msg 0 n
    let b ← ctx.b.memcpy ctx.bCnt front
    .ok ({ ctx with b, bCnt := ctx.bCnt + n }, msg.drop n)

def finishBuffered (ctx : Ctxt) (msg : List Byte) : Checked (Ctxt × List Byte) :=
  if ctx.bCnt = 0 then .ok (ctx, msg)
  else do
    let (ctx, msg) ← fillBuffer ctx msg
    let ctx ← processBlock kw ctx ctx.b.cells 1 skein1024BlockBytes
    .ok ({ ctx with bCnt := 0 }, msg)

def fullBlocks (ctx : Ctxt) (msg : List Byte) : Checked (Ctxt × List Byte) :=
  if skein1024BlockBytes < msg.length then do
    let n := (msg.length - 1) / skein1024BlockBytes
    let ctx ← processBlock kw ctx msg n skein1024BlockBytes
    .ok (ctx, msg.drop (n * skein1024BlockBytes))
  else .ok (ctx, msg)

def keepRest (ctx : Ctxt) (msg : List Byte) : Checked Ctxt :=
  if msg.length = 0 then .ok ctx
  else do
    let b ← ctx.b.memcpy ctx.bCnt msg
    .ok { ctx with b, bCnt := ctx.bCnt + msg.length }

/-- `Skein1024_Update` -/
def skein1024Update (ctx : Ctxt) (msg : List Byte) : Checked Ctxt :=
  if skein1024BlockBytes < msg.length + ctx.bCnt then do
    let (ctx, msg) ← finishBuffered kw ctx msg
    let (ctx, msg) ← fullBlocks kw ctx msg
    keepRest ctx msg
  else keepRest ctx msg

/-- `b[]` is padded with zeros, if necessary. -/
def padBuffer (ctx : Ctxt) : Checked Ctxt :=
  if ctx.bCnt < skein1024BlockBytes then do
    let b ← ctx.b.memcpy ctx.bCnt (List.replicate (skein1024BlockBytes - ctx.bCnt) 0)
    .ok { ctx with b }
  else .ok ctx

def finalBlock (ctx : Ctxt) : Checked Ctxt := do
  let ctx ← padBuffer { ctx with T1 := ctx.T1 ||| skeinT1FlagFinal }
  processBlock kw ctx ctx.b.cells 1 ctx.bCnt

/-- `Skein1024_Final_Pad` -/
def skein1024FinalPad (ctx : Ctxt) : Checked (Ctxt × Block Byte 128) := do
  let ctx ← finalBlock kw ctx
  .ok (ctx, ⟨wordBytes ctx.X.toList, by rw [length_wordBytes, Vector.length_toList]⟩)

def counterRun (ctx : Ctxt) (i : ℕ) : Checked Ctxt := do
  let b ← ctx.b.memcpy 0 (toLe 8 i)
  let ctx := startNewType { ctx with b } (skeinT1BlkTypeOut ||| skeinT1FlagFinal)
  processBlock kw ctx ctx.b.cells 1 8

/-- A round of the output; `X` are the chaining variables at the start of it. -/
def outputBlock (X : Words) (byteCnt : ℕ) (st : Ctxt × List Byte) (i : ℕ) : Checked (Ctxt × List Byte) := do
  let ctx ← counterRun kw st.1 i
  let n := min (byteCnt - i * skein1024BlockBytes) skein1024BlockBytes
  let bytes ← readMany (wordBytes ctx.X.toList) 0 n
  let hashVal ← memcpy st.2 (i * skein1024BlockBytes) bytes
  .ok ({ ctx with X }, hashVal)

/-- `Skein1024_Final` -/
def skein1024Final (ctx : Ctxt) (hashVal : List Byte) : Checked (Ctxt × List Byte) := do
  let ctx ← finalBlock kw ctx
  let byteCnt := (ctx.hashBitLen + 7) >>> 3
  let b ← ctx.b.memcpy 0 (List.replicate skein1024BlockBytes 0)
  -- the rounds with `i * SKEIN1024_BLOCK_BYTES < byteCnt`
  (List.range (blocksFor skein1024BlockBytes byteCnt)).foldlM (outputBlock kw ctx.X byteCnt) ({ ctx with b }, hashVal)

def skeinSchemaVer : ℕ := 0x133414853
def skeinCfgStrLen : ℕ := 32

def cfgBlock (hashBitLen treeInfo : ℕ) : Block Byte 128 :=
  ⟨toLe 8 skeinSchemaVer ++ toLe 8 hashBitLen ++ toLe 8 treeInfo ++ List.replicate 104 0, by simp⟩

def processKey (ctx : Ctxt) (key : List Byte) : Checked Ctxt :=
  if key.length = 0 then .ok { ctx with X := Vector.replicate 16 0 }
  else do
    let ctx := startNewType { ctx with hashBitLen := 1024 } skeinT1BlkTypeKey
    let ctx ← skein1024Update kw { ctx with X := Vector.replicate 16 0 } key
    let (ctx, cfg) ← skein1024FinalPad kw ctx
    .ok { ctx with X := words 16 cfg.cells }

/-- `Skein1024_InitExt` -/
def skein1024InitExt (ctx : Ctxt) (hashBitLen treeInfo : ℕ) (key : List Byte) : Checked Ctxt := do
  let ctx ← processKey kw ctx key
  let ctx := startNewType { ctx with hashBitLen } (skeinT1BlkTypeCfg ||| skeinT1FlagFinal)
  let ctx ← processBlock kw ctx (cfgBlock hashBitLen treeInfo).cells 1 skeinCfgStrLen
  .ok (startNewType { ctx with bCnt := 0 } skeinT1BlkTypeMsg)

end Stream

section Spec

def Chain.last (c : Chain) (buf : List Byte) : Words :=
  (({ c with T1 := c.T1 ||| skeinT1FlagFinal } : Chain).block buf.length
    (buf ++ List.replicate (skein1024BlockBytes - buf.length) 0)).X

/-- A message of one type as a whole, from the chaining variables `G`. -/
def ubi (G : Words) (blkType : BitVec 64) (msg : List Byte) : Words :=
  let (c, buf) := absorb skein1024BlockBytes (Chain.block skein1024BlockBytes)
    { X := G, T0 := 0, T1 := skeinT1FlagFirst ||| blkType } msg
  c.last buf

def keyed (key : List Byte) : Words :=
  if key.length = 0 then Vector.replicate 16 0 else ubi (Vector.replicate 16 0) skeinT1BlkTypeKey key

def cfgString (hashBitLen treeInfo : ℕ) : List Byte :=
  toLe 8 skeinSchemaVer ++ toLe 8 hashBitLen ++ toLe 8 treeInfo ++ List.replicate 8 0

def configured (hashBitLen treeInfo : ℕ) (key : List Byte) : Words :=
  ubi (keyed key) skeinT1BlkTypeCfg (cfgString hashBitLen treeInfo)

def output (G : Words) (hashBitLen : ℕ) : List Byte :=
  ((List.range (blocksFor skein1024BlockBytes ((hashBitLen + 7) >>> 3))).flatMap fun i =>
    wordBytes (ubi G skeinT1BlkTypeOut (toLe 8 i)).toList).take ((hashBitLen + 7) >>> 3)

def skein1024 (hashBitLen treeInfo : ℕ) (key msg : List Byte) : List Byte :=
  output (ubi (configured hashBitLen treeInfo key) skeinT1BlkTypeMsg msg) hashBitLen

end Spec

section Buffer

variable {kw : Schedule} {ctx : Ctxt} {hashBitLen : ℕ} {c : Chain} {buf msg : List Byte}

structure Buffered (hashBitLen : ℕ) (st : Chain × List Byte) (ctx : Ctxt) : Prop where
  bits : ctx.hashBitLen = hashBitLen
  chain : ctx.toChain = st.1
  count : ctx.bCnt = st.2.length
  fits : st.2.length ≤ skein1024BlockBytes
  held : ctx.b.cells.take st.2.length = st.2

theorem safe_processBlock {β : Type} {blkPtr : List Byte} {blkCnt byteCntAdd : ℕ} {f : Ctxt → Checked β} {R : β → Prop}
    (hcnt : 0 < blkCnt) (hlen : skein1024BlockBytes * blkCnt ≤ blkPtr.length)
    (hf : Safe (f { ctx with toChain := ctx.toChain.blocks byteCntAdd blkPtr blkCnt }) R) :
    Safe (processBlock kw ctx blkPtr blkCnt byteCntAdd >>= f) R := by
  rw [processBlock_run kw ctx blkPtr blkCnt byteCntAdd hcnt hlen]
  exact hf

theorem processBlock_one (kw : Schedule) (ctx : Ctxt) (blk : Block Byte 128) (byteCntAdd : ℕ) :
    processBlock kw ctx blk.cells 1 byteCntAdd =
      .ok { ctx with toChain := ctx.toChain.block byteCntAdd blk.cells } := by
  have htake : blk.cells.take skein1024BlockBytes = blk.cells := List.take_of_length_le (by rw [blk.size]; rfl)
  rw [processBlock_run kw ctx blk.cells 1 byteCntAdd Nat.one_pos (by rw [blk.size]; rfl), Chain.blocks, Absorbing.blocks,
    List.range_one, List.foldl_cons, List.foldl_nil, Nat.mul_zero, List.drop_zero, htake]

theorem safe_processOnly {β : Type} {blk : Block Byte 128} {byteCntAdd : ℕ} {f : Ctxt → Checked β} {R : β → Prop}
    (hf : Safe (f { ctx with toChain := ctx.toChain.block byteCntAdd blk.cells }) R) :
    Safe (processBlock kw ctx blk.cells 1 byteCntAdd >>= f) R := by
  rw [processBlock_one]
  exact hf

theorem fillBuffer_spec (h : Buffered hashBitLen (c, buf) ctx)
    (hlong : skein1024BlockBytes < msg.length + buf.length) :
    Safe (fillBuffer ctx msg) fun r => r.1.hashBitLen = hashBitLen ∧ r.1.toChain = c ∧
      r.1.b.cells = (buf ++ msg).take skein1024BlockBytes ∧ r.2 = (buf ++ msg).drop skein1024BlockBytes := by
  have hcount : ctx.bCnt = buf.length := h.count
  have hfits : buf.length ≤ skein1024BlockBytes := h.fits
  have hheld : ctx.b.cells.take buf.length = buf := h.held
  rw [List.take_append, List.drop_append, List.take_of_length_le hfits, List.drop_of_length_le hfits, List.nil_append]
  unfold fillBuffer
  rw [hcount]
  refine Safe.ite (fun hfull => ?_) fun hroom => ?_
  · refine Safe.ok ⟨h.bits, h.chain, ?_, ?_⟩
    · rw [hfull, List.take_zero, List.append_nil, ← hheld, List.take_of_length_le]
      rw [ctx.b.size]
      exact Nat.le_of_sub_eq_zero hfull
    · rw [hfull, List.drop_zero]
  · refine Safe.readMany (by omega) ?_
    have hlength : (msg.take (skein1024BlockBytes - buf.length)).length = skein1024BlockBytes - buf.length := by
      rw [List.length_take]
      omega
    rw [List.drop_zero]
    refine Safe.copyBlock (by rw [hlength]; exact (Nat.add_sub_cancel' hfits).le) fun b hb => ?_
    refine Safe.ok ⟨h.bits, h.chain, ?_, rfl⟩
    have hall := Block.take_splice (by rw [hlength]; exact (Nat.add_sub_cancel' hfits).le) hb
    rwa [hlength, Nat.add_sub_cancel' hfits, hheld, List.take_of_length_le (by rw [b.size]; rfl)] at hall

theorem finishBuffered_spec (h : Buffered hashBitLen (c, buf) ctx)
    (hlong : skein1024BlockBytes < msg.length + buf.length) :
    Safe (finishBuffered kw ctx msg) fun r => ∃ c', Buffered hashBitLen (c', []) r.1 ∧
      absorb skein1024BlockBytes (Chain.block skein1024BlockBytes) c (buf ++ msg) =
        absorb skein1024BlockBytes (Chain.block skein1024BlockBytes) c' r.2 := by
  have hcount : ctx.bCnt = buf.length := h.count
  unfold finishBuffered
  refine Safe.ite (fun hzero => ?_) fun _ => ?_
  · obtain rfl : buf = [] := List.length_eq_zero_iff.mp (hcount.symm.trans hzero)
    exact Safe.ok ⟨c, h, rfl⟩
  · refine Safe.bind (fillBuffer_spec h hlong) fun r hr => ?_
    obtain ⟨hbits, hchain, hcells, hrest⟩ := hr
    refine safe_processOnly (Safe.ok ⟨_, ⟨hbits, rfl, rfl, Nat.zero_le _, rfl⟩, ?_⟩)
    rw [hchain, hcells, hrest, absorb_long (by decide)]
    rw [List.length_append]
    omega

theorem fullBlocks_spec (h : Buffered hashBitLen (c, []) ctx) :
    Safe (fullBlocks kw ctx msg) fun r => ∃ c', Buffered hashBitLen (c', []) r.1 ∧
      absorb skein1024BlockBytes (Chain.block skein1024BlockBytes) c msg = (c', r.2) := by
  unfold fullBlocks
  refine Safe.ite (fun hlong => ?_) fun hshort => ?_
  · have hpos : 0 < (msg.length - 1) / skein1024BlockBytes :=
      Nat.div_pos (Nat.le_sub_one_of_lt hlong) (by decide)
    refine safe_processBlock hpos ((Nat.mul_div_le _ _).trans (Nat.sub_le _ _)) ?_
    refine Safe.ok ⟨_, ⟨h.bits, rfl, h.count, h.fits, h.held⟩, ?_⟩
    rw [absorb_eq_blocks (by decide), h.chain, Nat.mul_comm]
    rfl
  · exact Safe.ok ⟨c, h, absorb_short (Nat.not_lt.mp hshort)⟩

theorem keepRest_spec (h : Buffered hashBitLen (c, buf) ctx) (hfits : (buf ++ msg).length ≤ skein1024BlockBytes) :
    Safe (keepRest ctx msg) (Buffered hashBitLen (c, buf ++ msg)) := by
  have hcount : ctx.bCnt = buf.length := h.count
  have hheld : ctx.b.cells.take buf.length = buf := h.held
  have hlength := hfits
  rw [List.length_append] at hlength
  unfold keepRest
  refine Safe.ite (fun hnil => ?_) fun _ => ?_
  · rw [List.length_eq_zero_iff.mp hnil, List.append_nil]
    exact Safe.ok h
  · rw [hcount]
    refine Safe.copyBlock hlength fun b hb => Safe.ok ⟨h.bits, h.chain, List.length_append.symm, hfits, ?_⟩
    rw [List.length_append, Block.take_splice hlength hb, hheld]

theorem skein1024Update_spec {st : Chain × List Byte} (h : Buffered hashBitLen st ctx) (msg : List Byte) :
    Safe (skein1024Update kw ctx msg)
      (Buffered hashBitLen (absorb skein1024BlockBytes (Chain.block skein1024BlockBytes) st.1 (st.2 ++ msg))) := by
  obtain ⟨c, buf⟩ := st
  have hcount : ctx.bCnt = buf.length := h.count
  unfold skein1024Update
  rw [hcount]
  refine Safe.ite (fun hlong => ?_) fun hshort => ?_
  · refine Safe.bind (finishBuffered_spec h hlong) fun r hr => ?_
    obtain ⟨c₁, hr₁, habsorb₁⟩ := hr
    refine Safe.bind (fullBlocks_spec hr₁) fun r' hr' => ?_
    obtain ⟨c₂, hr₂, habsorb₂⟩ := hr'
    have hrest := length_absorb (Chain.block skein1024BlockBytes) c₁ r.2 (by decide : 0 < skein1024BlockBytes)
    rw [habsorb₂] at hrest
    dsimp only
    rw [habsorb₁, habsorb₂]
    exact keepRest_spec hr₂ hrest
  · have hfits : (buf ++ msg).length ≤ skein1024BlockBytes := by
      rw [List.length_append]
      omega
    dsimp only
    rw [absorb_short hfits]
    exact keepRest_spec h hfits

theorem foldlM_update_spec {st : Chain × List Byte} (h : Buffered hashBitLen st ctx) (chunks : List (List Byte)) :
    Safe (chunks.foldlM (skein1024Update kw) ctx) (Buffered hashBitLen (chunks.foldl (fun st msg =>
      absorb skein1024BlockBytes (Chain.block skein1024BlockBytes) st.1 (st.2 ++ msg)) st)) := by
  induction chunks generalizing ctx st with
  | nil => exact Safe.ok h
  | cons msg chunks ih =>
    rw [List.foldlM_cons, List.foldl_cons]
    exact Safe.bind (skein1024Update_spec h msg) fun ctx' hctx' => ih hctx'

end Buffer

section Final

variable {kw : Schedule} {ctx : Ctxt} {hashBitLen : ℕ} {c : Chain} {buf : List Byte} {G : Words}

theorem padBuffer_spec (h : Buffered hashBitLen (c, buf) ctx) :
    Safe (padBuffer ctx) fun ctx' => ctx'.hashBitLen = hashBitLen ∧ ctx'.toChain = c ∧ ctx'.bCnt = buf.length ∧
      ctx'.b.cells = buf ++ List.replicate (skein1024BlockBytes - buf.length) 0 := by
  have hcount : ctx.bCnt = buf.length := h.count
  have hfits : buf.length ≤ skein1024BlockBytes := h.fits
  have hheld : ctx.b.cells.take buf.length = buf := h.held
  unfold padBuffer
  rw [hcount]
  refine Safe.ite (fun hroom => ?_) fun hfull => Safe.ok ⟨h.bits, h.chain, hcount, ?_⟩
  · have hlength : buf.length + (List.replicate (skein1024BlockBytes - buf.length) (0 : Byte)).length = 128 := by
      rw [List.length_replicate]
      exact Nat.add_sub_cancel' hfits
    refine Safe.copyBlock hlength.le fun b hb => Safe.ok ⟨h.bits, h.chain, rfl, ?_⟩
    have hall := Block.take_splice hlength.le hb
    rwa [hlength, hheld, List.take_of_length_le b.size.le] at hall
  · rw [Nat.sub_eq_zero_of_le (Nat.not_lt.mp hfull), List.replicate_zero, List.append_nil, ← hheld,
      List.take_of_length_le]
    rw [ctx.b.size]
    exact Nat.not_lt.mp hfull

theorem finalBlock_spec (h : Buffered hashBitLen (c, buf) ctx) :
    Safe (finalBlock kw ctx) fun ctx' => ctx'.X = c.last buf ∧ ctx'.hashBitLen = hashBitLen := by
  have hmarked : Buffered hashBitLen ({ c with T1 := c.T1 ||| skeinT1FlagFinal }, buf)
      { ctx with T1 := ctx.T1 ||| skeinT1FlagFinal } := by
    obtain rfl : ctx.toChain = c := h.chain
    exact ⟨h.bits, rfl, h.count, h.fits, h.held⟩
  refine Safe.bind (padBuffer_spec hmarked) fun ctx' hctx' => ?_
  obtain ⟨hbits, hchain, hcount, hcells⟩ := hctx'
  rw [processBlock_one, hchain, hcount, hcells]
  exact Safe.ok ⟨rfl, hbits⟩

theorem skein1024FinalPad_spec (h : Buffered hashBitLen (c, buf) ctx) :
    Safe (skein1024FinalPad kw ctx) fun r => r.2.cells = wordBytes (c.last buf).toList := by
  refine Safe.bind (finalBlock_spec h) fun ctx' hctx' => Safe.ok ?_
  rw [← hctx'.1]

def outputBytes (G : Words) (i : ℕ) : List Byte := wordBytes (ubi G skeinT1BlkTypeOut (toLe 8 i)).toList

theorem length_outputBytes (i : ℕ) : (outputBytes G i).length = skein1024BlockBytes := by
  rw [outputBytes, length_wordBytes, Vector.length_toList]
  rfl

/-- Before round `i` the first blocks of the output are there. -/
structure Outputs (G : Words) (byteCnt : ℕ) (hashVal : List Byte) (i : ℕ) (st : Ctxt × List Byte) : Prop where
  X : st.1.X = G
  zeros : st.1.b.cells.drop 8 = List.replicate 120 0
  out : st.2 = ((List.range i).flatMap (outputBytes G)).take byteCnt ++
    hashVal.drop (min (skein1024BlockBytes * i) byteCnt)

theorem length_outputs (i : ℕ) : ((List.range i).flatMap (outputBytes G)).length = skein1024BlockBytes * i := by
  induction i with
  | zero => rfl
  | succ i ih =>
    rw [List.range_succ, List.flatMap_append, List.length_append, ih, List.flatMap_singleton, length_outputBytes,
      Nat.mul_succ]

theorem ubi_short (G : Words) (blkType : BitVec 64) {msg : List Byte} (h : msg.length ≤ skein1024BlockBytes) :
    ubi G blkType msg = Chain.last { X := G, T0 := 0, T1 := skeinT1FlagFirst ||| blkType } msg := by
  rw [ubi, absorb_short h]

theorem counterRun_spec {i : ℕ} (hzeros : ctx.b.cells.drop 8 = List.replicate 120 0) :
    Safe (counterRun kw ctx i) fun ctx' =>
      ctx'.X = ubi ctx.X skeinT1BlkTypeOut (toLe 8 i) ∧ ctx'.b.cells.drop 8 = List.replicate 120 0 := by
  have hlow : (toLe 8 i).length = 8 := length_toLe 8 i
  unfold counterRun
  refine Safe.copyBlock (by rw [hlow]; decide) fun b hb => ?_
  have hcells : b.cells = toLe 8 i ++ List.replicate 120 0 := by
    rw [hb, splice, hlow, Nat.zero_add, hzeros, List.take_zero, List.nil_append]
  dsimp only
  rw [processBlock_one]
  refine Safe.ok ⟨?_, ?_⟩
  · rw [ubi_short _ _ (by rw [hlow]; decide), Chain.last, hlow, startNewType, hcells, ← BitVec.or_assoc]
    rfl
  · exact (congrArg (List.drop 8) hcells).trans (List.drop_left' hlow)

theorem outputBlock_spec {byteCnt i : ℕ} {hashVal : List Byte} {st : Ctxt × List Byte}
    (hi : skein1024BlockBytes * i < byteCnt) (hroom : byteCnt ≤ hashVal.length) (h : Outputs G byteCnt hashVal i st) :
    Safe (outputBlock kw G byteCnt st i) (Outputs G byteCnt hashVal (i + 1)) := by
  have hfront : ((List.range i).flatMap (outputBytes G)).length = i * skein1024BlockBytes := by
    rw [length_outputs, Nat.mul_comm]
  -- the blocks so far are not cut off
  have hfull : ((List.range i).flatMap (outputBytes G)).take byteCnt = (List.range i).flatMap (outputBytes G) :=
    List.take_of_length_le (by rw [length_outputs]; exact hi.le)
  have hout : st.2 = (List.range i).flatMap (outputBytes G) ++ hashVal.drop (i * skein1024BlockBytes) := by
    rw [h.out, hfull, Nat.min_eq_left hi.le, Nat.mul_comm]
  have hn : ((outputBytes G i).take (min (byteCnt - i * skein1024BlockBytes) skein1024BlockBytes)).length =
      min (byteCnt - i * skein1024BlockBytes) skein1024BlockBytes := by
    rw [List.length_take, length_outputBytes, Nat.min_assoc, Nat.min_self]
  unfold outputBlock
  refine Safe.bind (counterRun_spec h.zeros) fun ctx hctx => ?_
  obtain ⟨hX, hzeros⟩ := hctx
  have hbytes : wordBytes ctx.X.toList = outputBytes G i := by rw [hX, h.X, outputBytes]
  dsimp only
  rw [hbytes, hout]
  refine Safe.readMany (by rw [length_outputBytes, Nat.zero_add]; exact Nat.min_le_right _ _) ?_
  rw [List.drop_zero]
  refine Safe.memcpy ?_ (Safe.ok ⟨rfl, hzeros, ?_⟩)
  · rw [hn, List.length_append, hfront, List.length_drop]
    rw [Nat.mul_comm] at hi
    omega
  · have htake : (outputBytes G i).take (min (byteCnt - i * skein1024BlockBytes) skein1024BlockBytes) =
        (outputBytes G i).take (byteCnt - i * skein1024BlockBytes) := by
      rw [List.take_eq_take_min, length_outputBytes, Nat.min_assoc, Nat.min_self, ← length_outputBytes (G := G) i,
        ← List.take_eq_take_min]
    have hend : i * skein1024BlockBytes + min (byteCnt - i * skein1024BlockBytes) skein1024BlockBytes =
        min (skein1024BlockBytes * (i + 1)) byteCnt := by
      rw [Nat.mul_comm] at hi
      rw [Nat.mul_succ, Nat.mul_comm skein1024BlockBytes i]
      omega
    dsimp only
    rw [← hfront, splice_append, hfront, hn, List.drop_drop, hend, htake, List.range_succ, List.flatMap_append,
      List.flatMap_singleton, List.take_append, hfront, hfull, List.append_assoc]

theorem skein1024Final_spec {hashVal : List Byte} (h : Buffered hashBitLen (c, buf) ctx)
    (hroom : (hashBitLen + 7) >>> 3 ≤ hashVal.length) :
    Safe (skein1024Final kw ctx hashVal) fun r =>
      r.2 = output (c.last buf) hashBitLen ++ hashVal.drop ((hashBitLen + 7) >>> 3) := by
  unfold skein1024Final
  refine Safe.bind (finalBlock_spec h) fun ctx' hctx' => ?_
  obtain ⟨hX, hbits⟩ := hctx'
  refine Safe.copyBlock (by rw [List.length_replicate]; rfl) fun b hb => ?_
  have hzeros : b.cells = List.replicate 128 0 :=
    hb.trans (splice_whole (by rw [List.length_replicate, ctx'.b.size]; rfl))
  rw [hX, hbits]
  refine Safe.mono (Safe.forRange (Outputs (c.last buf) ((hashBitLen + 7) >>> 3) hashVal) _ (fun i st hi hst => ?_)
    ⟨hX, ?_, ?_⟩) fun r hr => ?_
  · exact outputBlock_spec ((lt_blocksFor_iff (by decide)).mp hi) hroom hst
  · rw [hzeros, List.drop_replicate]
  · rw [List.range_zero, List.flatMap_nil, List.take_nil, Nat.mul_zero, Nat.zero_min, List.drop_zero, List.nil_append]
  · rw [hr.out, Nat.min_eq_right (le_blocksFor (by decide) _)]
    rfl

theorem take_drop_wordBytes (ws : List (BitVec 64)) (i : ℕ) (hi : i < ws.length) :
    ((wordBytes ws).drop (8 * i)).take 8 = toLe 8 ws[i].toNat := by
  induction ws generalizing i with
  | nil => exact absurd hi (Nat.not_lt_zero i)
  | cons w ws ih =>
    have hlow : (toLe 8 w.toNat).length = 8 := length_toLe 8 w.toNat
    have hcons : wordBytes (w :: ws) = toLe 8 w.toNat ++ wordBytes ws := List.flatMap_cons
    rw [hcons]
    cases i with
    | zero => exact List.take_left' hlow
    | succ i =>
      have hdrop : (toLe 8 w.toNat ++ wordBytes ws).drop (8 * (i + 1)) = (wordBytes ws).drop (8 * i) := by
        rw [Nat.mul_succ, Nat.add_comm, ← List.drop_drop, List.drop_left' hlow]
      rw [hdrop]
      exact ih i (Nat.lt_of_succ_lt_succ hi)

theorem words_wordBytes (X : Words) : words 16 (wordBytes X.toList) = X := by
  refine Vector.ext fun i hi => ?_
  have hi' : i < X.toList.length := by rwa [Vector.length_toList]
  rw [getElem_words hi, take_drop_wordBytes _ i hi', ofLe_toLe, Vector.getElem_toList]
  refine BitVec.eq_of_toNat_eq ?_
  rw [BitVec.toNat_ofNat]
  exact (Nat.mod_eq_of_lt (Nat.mod_lt _ (by decide))).trans (Nat.mod_eq_of_lt X[i].isLt)

theorem buffered_start (ctx : Ctxt) (blkType : BitVec 64) :
    Buffered ctx.hashBitLen ({ X := ctx.X, T0 := 0, T1 := skeinT1FlagFirst ||| blkType }, [])
      (startNewType ctx blkType) :=
  ⟨rfl, rfl, rfl, Nat.zero_le _, rfl⟩

theorem processKey_spec (kw : Schedule) (ctx : Ctxt) (key : List Byte) :
    Safe (processKey kw ctx key) fun ctx' => ctx'.X = keyed key := by
  unfold processKey keyed
  refine Safe.ite (fun hnone => ?_) fun hkey => ?_
  · rw [if_pos hnone]
    exact Safe.ok rfl
  · rw [if_neg hkey]
    refine Safe.bind (skein1024Update_spec (buffered_start
      { ctx with hashBitLen := 1024, X := Vector.replicate 16 0 } skeinT1BlkTypeKey) key) fun ctx₁ hctx₁ => ?_
    refine Safe.bind (skein1024FinalPad_spec hctx₁) fun r hr => Safe.ok ?_
    dsimp only
    rw [hr, words_wordBytes]
    rfl

theorem skein1024InitExt_spec (kw : Schedule) (ctx : Ctxt) (hashBitLen treeInfo : ℕ) (key : List Byte) :
    Safe (skein1024InitExt kw ctx hashBitLen treeInfo key)
      (Buffered hashBitLen (⟨configured hashBitLen treeInfo key, 0, skeinT1FlagFirst ||| skeinT1BlkTypeMsg⟩, [])) := by
  unfold skein1024InitExt
  refine Safe.bind (processKey_spec kw ctx key) fun ctx' hX => ?_
  refine safe_processOnly (Safe.ok ?_)
  have hcfg : (cfgString hashBitLen treeInfo).length = skeinCfgStrLen := by
    rw [cfgString, List.length_append, List.length_append, List.length_append, length_toLe, length_toLe, length_toLe,
      List.length_replicate]
    rfl
  have hblock : (cfgBlock hashBitLen treeInfo).cells =
      cfgString hashBitLen treeInfo ++ List.replicate (skein1024BlockBytes - skeinCfgStrLen) 0 := by
    rw [cfgString, List.append_assoc _ (List.replicate 8 0), ← List.replicate_add]
    rfl
  have hconf : configured hashBitLen treeInfo key =
      (Chain.block skeinCfgStrLen ⟨ctx'.X, 0, skeinT1FlagFirst ||| (skeinT1BlkTypeCfg ||| skeinT1FlagFinal)⟩
        (cfgBlock hashBitLen treeInfo).cells).X := by
    rw [configured, ubi_short _ _ (by rw [hcfg]; decide), Chain.last, hcfg, hblock, hX, ← BitVec.or_assoc]
  rw [hconf]
  exact ⟨rfl, rfl, rfl, Nat.zero_le _, rfl⟩

end Final

section Streaming

variable (kw : Schedule) (ctx : Ctxt) (hashBitLen treeInfo : ℕ) (key : List Byte)

/-- `InitExt`, the updates and `Final`. -/
def stream (chunks : List (List Byte)) (hashVal : List Byte) : Checked (List Byte) := do
  let ctx ← skein1024InitExt kw ctx hashBitLen treeInfo key
  let ctx ← chunks.foldlM (skein1024Update kw) ctx
  let (_, hashVal) ← skein1024Final kw ctx hashVal
  .ok hashVal

theorem ubi_chunks (G : Words) (blkType : BitVec 64) (chunks : List (List Byte)) {st : Chain × List Byte}
    (h : st = chunks.foldl (fun st msg =>
      absorb skein1024BlockBytes (Chain.block skein1024BlockBytes) st.1 (st.2 ++ msg))
        (⟨G, 0, skeinT1FlagFirst ||| blkType⟩, [])) :
    ubi G blkType chunks.flatten = st.1.last st.2 := by
  have hfold := @foldl_absorb _ _ skein1024BlockBytes (Chain.block skein1024BlockBytes) (by decide) chunks
    ⟨G, 0, skeinT1FlagFirst ||| blkType⟩ []
  rw [absorb_short (Nat.zero_le _), List.nil_append] at hfold
  rw [ubi, h, hfold]

theorem stream_run (chunks : List (List Byte)) (hashVal : List Byte) (hroom : (hashBitLen + 7) >>> 3 ≤ hashVal.length) :
    stream kw ctx hashBitLen treeInfo key chunks hashVal =
      .ok (skein1024 hashBitLen treeInfo key chunks.flatten ++ hashVal.drop ((hashBitLen + 7) >>> 3)) := by
  have hrun : Safe (stream kw ctx hashBitLen treeInfo key chunks hashVal)
      (· = skein1024 hashBitLen treeInfo key chunks.flatten ++ hashVal.drop ((hashBitLen + 7) >>> 3)) := by
    refine Safe.bind (skein1024InitExt_spec kw ctx hashBitLen treeInfo key) fun ctx₁ h₁ => ?_
    refine Safe.bind (foldlM_update_spec h₁ chunks) fun ctx₂ h₂ => ?_
    refine Safe.bind (skein1024Final_spec h₂ hroom) fun r hr => Safe.ok ?_
    rw [hr, skein1024, ubi_chunks _ _ chunks rfl]
  obtain ⟨out, hout, rfl⟩ := hrun
  exact hout

/-- It is the same for every way to cut the message. -/
theorem stream_chunking (kw' : Schedule) (ctx' : Ctxt) {chunks chunks' : List (List Byte)} {hashVal : List Byte}
    (hsame : chunks.flatten = chunks'.flatten) (hroom : (hashBitLen + 7) >>> 3 ≤ hashVal.length) :
    stream kw ctx hashBitLen treeInfo key chunks hashVal =
        .ok (skein1024 hashBitLen treeInfo key chunks'.flatten ++ hashVal.drop ((hashBitLen + 7) >>> 3)) ∧
      stream kw ctx hashBitLen treeInfo key chunks hashVal =
        stream kw' ctx' hashBitLen treeInfo key chunks' hashVal := by
  have hleft := stream_run kw ctx hashBitLen treeInfo key chunks hashVal hroom
  have hright := stream_run kw' ctx' hashBitLen treeInfo key chunks' hashVal hroom
  rw [hsame] at hleft
  exact ⟨hleft, hleft.trans hright.symm⟩

theorem stream_chunking_short :
    stream ⟨List.replicate 40 0, rfl⟩ ⟨⟨Vector.replicate 16 0, 0, 0⟩, 0, 0, ⟨List.replicate 128 0, rfl⟩⟩ 512 0 [7]
        [[1], [], [2, 3]] (List.replicate 64 0) =
      stream ⟨List.replicate 40 1, rfl⟩ ⟨⟨Vector.replicate 16 1, 5, 5⟩, 9, 9, ⟨List.replicate 128 9, rfl⟩⟩ 512 0 [7]
        [[1, 2], [3]] (List.replicate 64 0) := by
  have hroom : (512 + 7) >>> 3 ≤ (List.replicate 64 (0 : Byte)).length := (List.length_replicate ..).ge
  have hsame : [[1], [], [2, 3]].flatten = [[(1 : Byte), 2], [3]].flatten := rfl
  exact (stream_chunking ⟨List.replicate 40 0, rfl⟩ _ 512 0 [7] ⟨List.replicate 40 1, rfl⟩ _ hsame hroom).2

end Streaming

end YumiBrowser.Cipher
