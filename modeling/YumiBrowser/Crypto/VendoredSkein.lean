import YumiBrowser.Crypto.SkeinStream

namespace YumiBrowser.Cipher

open Wire Blocks Absorbing

section Init

def skeinCfgTreeInfoSequential : ℕ := 0

/-- `SKEIN1024_IV_384`, `SKEIN1024_IV_512` and `SKEIN1024_IV_1024` -/
def skein1024Iv384 : Words :=
  #v[0x5102B6B8C1894A35, 0xFEEBC9E3FE8AF11A, 0x0C807F06E32BED71, 0x60C13A52B41A91F6, 0x9716D35DD4917C38,
    0xE780DF126FD31D3A, 0x797846B6C898303A, 0xB172C2A8B3572A3B, 0xC9BC8203A6104A6C, 0x65909338D75624F4,
    0x94BCC5684B3F81A0, 0x3EBBF51E10ECFD46, 0x2DF50F0BEEB08542, 0x3B5A65300DBC6516, 0x484B9CD2167BBCE1,
    0x2D136947D4CBAFEA]

def skein1024Iv512 : Words :=
  #v[0xCAEC0E5D7C1B1B18, 0xA01B0E045F03E802, 0x33840451ED912885, 0x374AFB04EAEC2E1C, 0xDF25A0E2813581F7,
    0xE40040938B12F9D2, 0xA662D539C2ED39B6, 0xFA8B85CF45D8C75A, 0x8316ED8E29EDE796, 0x053289C02E9F91B8,
    0xC3F8EF1D6D518B73, 0xBDCEC3C4D5EF332E, 0x549A7E5222974487, 0x670708725B749816, 0xB9CD28FBF0581BD1,
    0x0E2940B815804974]

def skein1024Iv1024 : Words :=
  #v[0xD593DA0741E72355, 0x15B5E511AC73E00C, 0x5180E5AEBAF2C4F0, 0x03BD41D3FCBCAFAF, 0x1CAEC6FD1983A898,
    0x6E510B8BCDD0589F, 0x77E2BDFDC6394ADA, 0xC11E1DB524DCB0A3, 0xD6D14AF9C6329AB5, 0x6A9B0BFC6EB67E0D,
    0x9243C60DCCFF1332, 0x1A1F1DDE743F02D4, 0x0996753C10ED0BB8, 0x6572DD22F2B4969A, 0x61FD3062D00A579A,
    0x1DE0536E8682E539]

variable (kw : Schedule)

/-- The chaining variables of `Skein1024_Init`: precomputed for three lengths of the output. -/
def initialChaining (ctx : Ctxt) (hashBitLen : ℕ) : Checked Ctxt :=
  if hashBitLen = 512 then .ok { ctx with X := skein1024Iv512 }
  else if hashBitLen = 384 then .ok { ctx with X := skein1024Iv384 }
  else if hashBitLen = 1024 then .ok { ctx with X := skein1024Iv1024 }
  else
    let ctx := startNewType ctx (skeinT1BlkTypeCfg ||| skeinT1FlagFinal)
    processBlock kw { ctx with X := Vector.replicate 16 0 } (cfgBlock hashBitLen skeinCfgTreeInfoSequential).cells 1
      skeinCfgStrLen

/-- `Skein1024_Init` -/
def skein1024Init (ctx : Ctxt) (hashBitLen : ℕ) : Checked Ctxt := do
  let ctx ← initialChaining kw { ctx with hashBitLen } hashBitLen
  .ok (startNewType ctx skeinT1BlkTypeMsg)

def plainChaining (hashBitLen : ℕ) : Words :=
  (Chain.block skeinCfgStrLen ⟨Vector.replicate 16 0, 0, skeinT1FlagFirst ||| (skeinT1BlkTypeCfg ||| skeinT1FlagFinal)⟩
    (cfgBlock hashBitLen skeinCfgTreeInfoSequential).cells).X

theorem plainChaining_512 : plainChaining 512 = skein1024Iv512 :=
  Vector.toList_inj.mp (by decide +kernel)

theorem plainChaining_384 : plainChaining 384 = skein1024Iv384 :=
  Vector.toList_inj.mp (by decide +kernel)

theorem plainChaining_1024 : plainChaining 1024 = skein1024Iv1024 :=
  Vector.toList_inj.mp (by decide +kernel)

theorem skein1024Init_eq (ctx : Ctxt) (hashBitLen : ℕ) :
    skein1024Init kw ctx hashBitLen = skein1024InitExt kw ctx hashBitLen skeinCfgTreeInfoSequential [] := by
  have hext : skein1024InitExt kw ctx hashBitLen skeinCfgTreeInfoSequential [] =
      .ok (startNewType { ctx with hashBitLen, X := plainChaining hashBitLen } skeinT1BlkTypeMsg) := by
    have hkey : processKey kw ctx [] = .ok { ctx with X := Vector.replicate 16 0 } := rfl
    unfold skein1024InitExt
    rw [hkey]
    dsimp only [bind, Except.bind]
    rw [processBlock_one]
    rfl
  have hinit : initialChaining kw { ctx with hashBitLen } hashBitLen >>=
      (fun ctx => .ok (startNewType ctx skeinT1BlkTypeMsg)) =
      .ok (startNewType { ctx with hashBitLen, X := plainChaining hashBitLen } skeinT1BlkTypeMsg) := by
    unfold initialChaining
    split
    · next h =>
      subst h
      rw [plainChaining_512]
      rfl
    · split
      · next h =>
        subst h
        rw [plainChaining_384]
        rfl
      · split
        · next h =>
          subst h
          rw [plainChaining_1024]
          rfl
        · rw [processBlock_one]
          rfl
  rw [hext]
  exact hinit

end Init

section Hash

variable (kw : Schedule) (ctx : Ctxt)

/-- `yumi_skein_update` of all that there is, where there is something. -/
def updateAll (ctx : Ctxt) (data : List Byte) : Checked Ctxt :=
  if data.length = 0 then .ok ctx else skein1024Update kw ctx data

/-- `skein1024_hash_internal` -/
def skein1024HashInternal (data out : List Byte) : Checked (List Byte) := do
  let ctx ← skein1024Init kw ctx 1024
  let ctx ← updateAll kw ctx data
  let (_, out) ← skein1024Final kw ctx out
  .ok out

/-- `yumi_skein_mac`: the function below it, for a key of any length. -/
def yumiSkeinMac (key data out : List Byte) : Checked (List Byte) := do
  let ctx ← skein1024InitExt kw ctx 1024 skeinCfgTreeInfoSequential key
  let ctx ← updateAll kw ctx data
  let (_, out) ← skein1024Final kw ctx out
  .ok out

/-- `yumi_skein_init`, calls of `yumi_skein_update`, and `yumi_skein_final`. -/
def yumiSkeinStream (chunks : List (List Byte)) (out : List Byte) : Checked (List Byte) := do
  let ctx ← skein1024Init kw ctx 1024
  let ctx ← chunks.foldlM (skein1024Update kw) ctx
  let (_, out) ← skein1024Final kw ctx out
  .ok out

theorem updateAll_eq (ctx : Ctxt) (data : List Byte) :
    updateAll kw ctx data = (if data.length = 0 then [] else [data]).foldlM (skein1024Update kw) ctx := by
  unfold updateAll
  split
  · rfl
  · rw [List.foldlM_cons]
    exact (bind_pure _).symm

theorem flatten_nonempty (data : List Byte) : (if data.length = 0 then [] else [data]).flatten = data := by
  split
  · next h => exact (List.length_eq_zero_iff.mp h).symm
  · exact List.flatten_singleton

variable (key data : List Byte) (chunks : List (List Byte)) {out : List Byte}

theorem yumiSkeinMac_eq (hout : 128 ≤ out.length) :
    yumiSkeinMac kw ctx key data out = .ok (skein1024 1024 skeinCfgTreeInfoSequential key data ++ out.drop 128) := by
  have hstream := stream_run kw ctx 1024 skeinCfgTreeInfoSequential key (if data.length = 0 then [] else [data]) out hout
  rw [flatten_nonempty] at hstream
  unfold yumiSkeinMac
  simp only [updateAll_eq]
  exact hstream

theorem yumiSkeinStream_eq (hout : 128 ≤ out.length) :
    yumiSkeinStream kw ctx chunks out =
      .ok (skein1024 1024 skeinCfgTreeInfoSequential [] chunks.flatten ++ out.drop 128) := by
  have hstream := stream_run kw ctx 1024 skeinCfgTreeInfoSequential [] chunks out hout
  unfold yumiSkeinStream
  rw [skein1024Init_eq]
  exact hstream

theorem skein1024HashInternal_eq (hout : 128 ≤ out.length) :
    skein1024HashInternal kw ctx data out =
      .ok (skein1024 1024 skeinCfgTreeInfoSequential [] data ++ out.drop 128) := by
  have hstream := yumiSkeinStream_eq kw ctx (if data.length = 0 then [] else [data]) hout
  rw [flatten_nonempty] at hstream
  unfold skein1024HashInternal
  simp only [updateAll_eq]
  exact hstream

/-- Every way in gives the hash, which is the code of an empty key, and writes no byte behind it. -/
theorem hash_interfaces (hout : 128 ≤ out.length) :
    (∀ hashBitLen, skein1024Init kw ctx hashBitLen =
        skein1024InitExt kw ctx hashBitLen skeinCfgTreeInfoSequential []) ∧
      yumiSkeinMac kw ctx key data out =
        .ok (skein1024 1024 skeinCfgTreeInfoSequential key data ++ out.drop 128) ∧
      yumiSkeinStream kw ctx chunks out = yumiSkeinMac kw ctx [] chunks.flatten out ∧
      skein1024HashInternal kw ctx chunks.flatten out = yumiSkeinMac kw ctx [] chunks.flatten out := by
  refine ⟨skein1024Init_eq kw ctx, yumiSkeinMac_eq kw ctx key data hout, ?_, ?_⟩
  · rw [yumiSkeinStream_eq kw ctx chunks hout, yumiSkeinMac_eq kw ctx [] chunks.flatten hout]
  · rw [skein1024HashInternal_eq kw ctx chunks.flatten hout, yumiSkeinMac_eq kw ctx [] chunks.flatten hout]

theorem hash_interfaces_short :
    yumiSkeinStream ⟨List.replicate 40 0, rfl⟩ ⟨⟨Vector.replicate 16 0, 0, 0⟩, 0, 0, ⟨List.replicate 128 0, rfl⟩⟩
        [[1], [2, 3]] (List.replicate 128 0) =
      yumiSkeinMac ⟨List.replicate 40 0, rfl⟩ ⟨⟨Vector.replicate 16 0, 0, 0⟩, 0, 0, ⟨List.replicate 128 0, rfl⟩⟩ []
        [1, 2, 3] (List.replicate 128 0) :=
  (hash_interfaces _ _ [] [] [[1], [2, 3]] (List.length_replicate ..).ge).2.2.1

end Hash

section Instance

variable (kw : Schedule) (ctx : Ctxt)

def result {α : Type} {Q : α → Prop} : (x : Checked α) → Safe x Q → {a : α // x = .ok a ∧ Q a}
  | .ok a, h => ⟨a, rfl, by obtain ⟨b, hb, hQ⟩ := h; obtain rfl := Except.ok.inj hb; exact hQ⟩
  | .error _, h => absurd h fun ⟨_, hb, _⟩ => nomatch hb

def Ready (ctx : Ctxt) : Prop := ∃ st, Buffered 1024 st ctx

abbrev ReadyCtxt : Type := {ctx : Ctxt // Ready ctx}

variable {ctx} in
theorem Ready.update (h : Ready ctx) (msg : List Byte) : Safe (skein1024Update kw ctx msg) Ready := by
  obtain ⟨st, hst⟩ := h
  exact (skein1024Update_spec hst msg).mono fun _ hctx' => ⟨_, hctx'⟩

theorem ready_initExt (key : List Byte) :
    Safe (skein1024InitExt kw ctx 1024 skeinCfgTreeInfoSequential key) Ready :=
  (skein1024InitExt_spec kw ctx 1024 skeinCfgTreeInfoSequential key).mono fun _ h => ⟨_, h⟩

theorem length_output (G : Words) (hashBitLen : ℕ) : (output G hashBitLen).length = (hashBitLen + 7) >>> 3 := by
  have hle := le_blocksFor (by decide : 0 < skein1024BlockBytes) ((hashBitLen + 7) >>> 3)
  rw [output, List.length_take]
  exact Nat.min_eq_left (hle.trans (length_outputs _).ge)

variable {ctx} in
theorem Ready.final (h : Ready ctx) :
    Safe (skein1024Final kw ctx (List.replicate 128 0)) fun r => r.2.length = 128 := by
  obtain ⟨st, hst⟩ := h
  refine (skein1024Final_spec hst (by rw [List.length_replicate]; decide)).mono fun r hr => ?_
  rw [hr, List.length_append, length_output, List.length_drop, List.length_replicate]
  rfl

def readyInitExt (key : Bytes 128) : ReadyCtxt :=
  let r := result _ (ready_initExt kw ctx key.val)
  ⟨r.val, r.property.2⟩

def readyUpdate (ctx : ReadyCtxt) (msg : List Byte) : ReadyCtxt :=
  let r := result _ (ctx.property.update kw msg)
  ⟨r.val, r.property.2⟩

def readyFinal (ctx : ReadyCtxt) : Bytes 128 :=
  let r := result _ (ctx.property.final kw)
  ⟨r.val.2, r.property.2⟩

def cipherBlock (key : Words) (t0 t1 : BitVec 64) (plain : Words) : Checked Ctxt :=
  processBlock kw { ctx with X := key, T0 := t0, T1 := t1 } (wordBytes plain.toList) 1 0

theorem cipherBlock_eq (key : Words) (t0 t1 : BitVec 64) (plain : Words) :
    Safe (cipherBlock kw ctx key t0 t1 plain) fun ctx' =>
      ctx'.X = Vector.zipWith (· ^^^ ·) (threefish key t0 t1 plain) plain := by
  have hone := processBlock_one kw { ctx with X := key, T0 := t0, T1 := t1 }
    ⟨wordBytes plain.toList, by rw [length_wordBytes, Vector.length_toList]⟩ 0
  refine ⟨_, hone, ?_⟩
  dsimp only [Chain.block]
  rw [words_wordBytes, BitVec.add_zero]

def vendored : Skein where
  Ctx := ReadyCtxt
  initExt := readyInitExt kw ctx
  update := readyUpdate kw
  final := readyFinal kw
  processBlock key tweak plain :=
    (result _ (cipherBlock_eq kw ctx key (tweak[0]?.getD 0) (tweak[1]?.getD 0) plain)).val.X

theorem foldlM_readyUpdate (c : ReadyCtxt) (chunks : List (List Byte)) :
    chunks.foldlM (skein1024Update kw) c.val = .ok (chunks.foldl (readyUpdate kw) c).val := by
  induction chunks generalizing c with
  | nil => rfl
  | cons msg chunks ih =>
    rw [List.foldlM_cons, List.foldl_cons, ← ih, (result _ (c.property.update kw msg)).property.1]
    rfl

theorem vendored_streams :
    (vendored kw ctx).Streams fun key msg =>
      ⟨skein1024 1024 skeinCfgTreeInfoSequential key.val msg, length_output _ _⟩ := by
  intro key chunks
  refine Bytes.ext ?_
  have hstream := stream_run kw ctx 1024 skeinCfgTreeInfoSequential key.val chunks (List.replicate 128 0)
    (by rw [List.length_replicate]; decide)
  have hrun : stream kw ctx 1024 skeinCfgTreeInfoSequential key.val chunks (List.replicate 128 0) =
      .ok (readyFinal kw (chunks.foldl (readyUpdate kw) (readyInitExt kw ctx key))).val := by
    have hinit := (result _ (ready_initExt kw ctx key.val)).property.1
    have hfold := foldlM_readyUpdate kw (readyInitExt kw ctx key) chunks
    have hfinal := (result _ ((chunks.foldl (readyUpdate kw) (readyInitExt kw ctx key)).property.final kw)).property.1
    unfold stream
    rw [hinit]
    change (chunks.foldlM (skein1024Update kw) (readyInitExt kw ctx key).val >>= _) = _
    rw [hfold]
    change (skein1024Final kw (chunks.foldl (readyUpdate kw) (readyInitExt kw ctx key)).val _ >>= _) = _
    rw [hfinal]
    rfl
  have hwhole : (List.replicate 128 (0 : Byte)).drop ((1024 + 7) >>> 3) = [] := rfl
  rw [hwhole, List.append_nil, hrun] at hstream
  exact Except.ok.inj hstream

theorem threefish1024Encrypt_vendored (key : Words) (tweak : Vector (BitVec 64) 2) (plain : Words) :
    threefish1024Encrypt (vendored kw ctx) key tweak plain =
      threefish key (tweak[0]?.getD 0) (tweak[1]?.getD 0) plain := by
  have hX := (result _ (cipherBlock_eq kw ctx key (tweak[0]?.getD 0) (tweak[1]?.getD 0) plain)).property.2
  rw [threefish1024Encrypt]
  change Vector.zipWith _ (result _ (cipherBlock_eq kw ctx key _ _ plain)).val.X plain = _
  rw [hX]
  refine Vector.ext fun i hi => ?_
  rw [Vector.getElem_zipWith, Vector.getElem_zipWith, BitVec.xor_assoc, BitVec.xor_self, BitVec.xor_zero]

/-- Under one key and tweak the cipher permutes the blocks, and no two blocks of key stream agree, be they of one
message or of messages with different nonces. -/
theorem vendored_keyStream (key : Words) (tweak : Vector (BitVec 64) 2) :
    Function.Bijective (threefish1024Encrypt (vendored kw ctx) key tweak) ∧
      Set.InjOn (fun p : Bytes 16 × ℕ => keyStream (vendored kw ctx) key (counterBlock p.1 p.2))
        {p | p.2 < 2 ^ 64} := by
  refine ⟨?_, fun p hp q hq h => ?_⟩
  · have hsame : threefish1024Encrypt (vendored kw ctx) key tweak =
        threefish key (tweak[0]?.getD 0) (tweak[1]?.getD 0) := funext (threefish1024Encrypt_vendored kw ctx key tweak)
    rw [hsame]
    exact threefish_bijective _ _ _
  · have hstream : keyStream (vendored kw ctx) key (counterBlock p.1 p.2) =
        keyStream (vendored kw ctx) key (counterBlock q.1 q.2) := h
    have hwords := congrArg (words 16) hstream
    unfold keyStream at hwords
    rw [words_wordBytes, words_wordBytes, threefish1024Encrypt_vendored, threefish1024Encrypt_vendored] at hwords
    obtain ⟨hnonce, hi⟩ := counterBlock_inj hp hq (threefish_injective _ _ _ hwords)
    exact Prod.ext hnonce hi

section Aead

variable {malloc : ℕ → Bool} {skein : Skein} {data aad : List Byte} {nonce : Bytes 16} {key : Bytes 128}

theorem aeadEncrypt_granted : aeadEncrypt skein malloc data aad nonce key =
    if malloc (16 + 8 + aad.length + data.length) then aeadEncrypt skein (fun _ => true) data aad nonce key
    else .error .encrypt := by
  unfold aeadEncrypt
  dsimp only
  split
  · rw [if_pos rfl]
  · rfl

theorem aeadDecrypt_granted {ct : List Byte} (h : ct.length = data.length + aeadTagLen) :
    aeadDecrypt skein malloc ct aad nonce key =
      if malloc (16 + 8 + aad.length + data.length) then aeadDecrypt skein (fun _ => true) ct aad nonce key
      else .error .decrypt := by
  unfold aeadDecrypt
  dsimp only
  rw [h, if_neg (by omega), Nat.add_sub_cancel]
  split
  · exact (if_neg (Nat.not_lt.mpr (Nat.le_add_left _ _))).symm
  · rfl

variable (malloc data aad nonce key)

/-- With the vendored code, and whatever memory is granted, the keyed functions encrypt and decrypt again; the plain
ones agree with them, or give up for want of memory. -/
theorem vendored_aead :
    ∃ ct, aeadEncryptKeyed data aad nonce (aeadDeriveSubkeys (vendored kw ctx) key) = .ok ct ∧
      ct.length = data.length + aeadTagLen ∧
      aeadDecryptKeyed ct aad nonce (aeadDeriveSubkeys (vendored kw ctx) key) = .ok data ∧
      aeadEncrypt (vendored kw ctx) malloc data aad nonce key =
        (if malloc (16 + 8 + aad.length + data.length) then .ok ct else .error .encrypt) ∧
      aeadDecrypt (vendored kw ctx) malloc ct aad nonce key =
        if malloc (16 + 8 + aad.length + data.length) then .ok data else .error .decrypt := by
  have hstreams := vendored_streams kw ctx
  obtain ⟨ct, henc, hlen, hdec⟩ :=
    @exists_aeadEncrypt (vendored kw ctx) (fun _ => true) data aad nonce key rfl
  refine ⟨ct, ?_, hlen, ?_, ?_, ?_⟩
  · rw [@aeadEncryptKeyed_eq _ _ (fun _ => true) _ _ _ _ hstreams rfl, henc]
  · rw [@aeadDecryptKeyed_eq _ _ (fun _ => true) _ _ _ _ hstreams rfl, hdec]
  · rw [aeadEncrypt_granted, henc]
  · rw [aeadDecrypt_granted hlen, hdec]

end Aead

end Instance

end YumiBrowser.Cipher
