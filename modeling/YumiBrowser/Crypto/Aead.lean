import YumiBrowser.Library.CounterMode

universe u

namespace YumiBrowser.Cipher

open Wire

def threefishBlockLen : ℕ := 128
def aeadTagLen : ℕ := 128

/-- The vendored Skein: the streaming interface, and the block function that Threefish is taken from. -/
structure Skein where
  Ctx : Type u
  initExt : Bytes 128 → Ctx
  update : Ctx → List Byte → Ctx
  final : Ctx → Bytes 128
  processBlock : Vector (BitVec 64) 16 → Vector (BitVec 64) 2 → Vector (BitVec 64) 16 → Vector (BitVec 64) 16

/-- The streaming interface computes a function of the key and of all the bytes. -/
def Skein.Streams (skein : Skein.{u}) (oneShot : Bytes 128 → List Byte → Bytes 128) : Prop :=
  ∀ (key : Bytes 128) (chunks : List (List Byte)),
    skein.final (chunks.foldl skein.update (skein.initExt key)) = oneShot key chunks.flatten

inductive CryptoErr
  | encrypt
  | decrypt
  deriving DecidableEq

section Cipher

/-- `memcpy` of words to bytes, and of bytes to words. -/
def wordBytes (words : List (BitVec 64)) : List Byte := words.flatMap fun w => toLe 8 w.toNat

def words (n : ℕ) (bytes : List Byte) : Vector (BitVec 64) n :=
  Vector.ofFn fun i => BitVec.ofNat 64 (ofLe ((bytes.drop (8 * i)).take 8))

def xorWords : List (BitVec 64) → List Byte → List Byte
  | [], _ => []
  | w :: ws, src =>
    if 8 ≤ src.length then toLe 8 (ofLe (src.take 8) ^^^ w.toNat) ++ xorWords ws (src.drop 8)
    else xorBytes src (toLe 8 w.toNat)

variable (skein : Skein.{u})

def threefish1024Encrypt (key : Vector (BitVec 64) 16) (tweak : Vector (BitVec 64) 2)
    (plain : Vector (BitVec 64) 16) : Vector (BitVec 64) 16 :=
  Vector.zipWith (· ^^^ ·) (skein.processBlock key tweak plain) plain

def nextCounter (counter : Vector (BitVec 64) 16) : Vector (BitVec 64) 16 := counter.set 15 (counter[15] + 1)

/-- The loop of `threefish_ctr`. -/
def ctrLoop (key : Vector (BitVec 64) 16) : ℕ → Vector (BitVec 64) 16 → List Byte → List Byte
  | 0, _, _ => []
  | rounds + 1, counter, input =>
    if input = [] then []
    else
      let cipherWords := threefish1024Encrypt skein key (Vector.replicate 2 0) counter
      xorWords cipherWords.toList (input.take threefishBlockLen) ++
        ctrLoop key rounds (nextCounter counter) (input.drop threefishBlockLen)

/-- `threefish_ctr`: each round takes at least a byte, so the rounds suffice. -/
def threefishCtr (key : Bytes 128) (nonce : Bytes 16) (input : List Byte) : List Byte :=
  ctrLoop skein (words 16 key.val) input.length (words 16 nonce.val) input

end Cipher

section Aead

variable (skein : Skein.{u}) (malloc : ℕ → Bool)

def skein1024MacInternal (key : Bytes 128) (data : List Byte) : Bytes 128 :=
  let ctx := skein.initExt key
  skein.final (if data = [] then ctx else skein.update ctx data)

def encLabel : List Byte := [121, 117, 109, 105, 45, 97, 101, 97, 100, 45, 101, 110, 99]
def macLabel : List Byte := [121, 117, 109, 105, 45, 97, 101, 97, 100, 45, 109, 97, 99]

/-- `nonce || le64(aad_len) || aad || ciphertext` -/
def macInput (nonce : Bytes 16) (aad ct : List Byte) : List Byte := nonce.val ++ toLe 8 aad.length ++ aad ++ ct

/-- `yumi_aead_encrypt` -/
def aeadEncrypt (plaintext aad : List Byte) (nonce : Bytes 16) (key : Bytes 128) : Except CryptoErr (List Byte) :=
  let encKey := skein1024MacInternal skein key encLabel
  let macKey := skein1024MacInternal skein key macLabel
  let out := threefishCtr skein encKey nonce plaintext
  if malloc (16 + 8 + aad.length + plaintext.length) then
    .ok (out ++ (skein1024MacInternal skein macKey (macInput nonce aad out)).val)
  else .error .encrypt

/-- `yumi_aead_decrypt` -/
def aeadDecrypt (ciphertext aad : List Byte) (nonce : Bytes 16) (key : Bytes 128) : Except CryptoErr (List Byte) :=
  if ciphertext.length < aeadTagLen then .error .decrypt
  else
    let ctOnlyLen := ciphertext.length - aeadTagLen
    let ct := ciphertext.take ctOnlyLen
    let receivedTag := ciphertext.drop ctOnlyLen
    let encKey := skein1024MacInternal skein key encLabel
    let macKey := skein1024MacInternal skein key macLabel
    if malloc (16 + 8 + aad.length + ctOnlyLen) then
      let computedTag := skein1024MacInternal skein macKey (macInput nonce aad ct)
      if computedTag.val ≠ receivedTag then .error .decrypt else .ok (threefishCtr skein encKey nonce ct)
    else .error .decrypt

/-- `yumi_aead_subkeys_t` -/
structure AeadSubkeys where
  encKey : Bytes 128
  macKey : Bytes 128
  macCtx : skein.Ctx

/-- `yumi_aead_derive_subkeys` -/
def aeadDeriveSubkeys (key : Bytes 128) : AeadSubkeys skein :=
  let macKey := skein1024MacInternal skein key macLabel
  { encKey := skein1024MacInternal skein key encLabel
    macKey
    macCtx := skein.initExt macKey }

def streamMac (ctx : skein.Ctx) (nonce : Bytes 16) (aad ct : List Byte) : Bytes 128 :=
  let ctx := skein.update ctx nonce.val
  let ctx := skein.update ctx (toLe 8 aad.length)
  let ctx := if aad = [] then ctx else skein.update ctx aad
  let ctx := if ct = [] then ctx else skein.update ctx ct
  skein.final ctx

variable {skein}

/-- `yumi_aead_encrypt_keyed` -/
def aeadEncryptKeyed (plaintext aad : List Byte) (nonce : Bytes 16) (sk : AeadSubkeys skein) :
    Except CryptoErr (List Byte) :=
  let out := threefishCtr skein sk.encKey nonce plaintext
  .ok (out ++ (streamMac skein sk.macCtx nonce aad out).val)

/-- `yumi_aead_decrypt_keyed` -/
def aeadDecryptKeyed (ciphertext aad : List Byte) (nonce : Bytes 16) (sk : AeadSubkeys skein) :
    Except CryptoErr (List Byte) :=
  if ciphertext.length < aeadTagLen then .error .decrypt
  else
    let ctOnlyLen := ciphertext.length - aeadTagLen
    let ct := ciphertext.take ctOnlyLen
    let receivedTag := ciphertext.drop ctOnlyLen
    let computedTag := streamMac skein sk.macCtx nonce aad ct
    if computedTag.val ≠ receivedTag then .error .decrypt else .ok (threefishCtr skein sk.encKey nonce ct)

end Aead

section Ctr

theorem length_wordBytes (ws : List (BitVec 64)) : (wordBytes ws).length = 8 * ws.length := by
  induction ws with
  | nil => rfl
  | cons w ws ih =>
    rw [wordBytes, List.flatMap_cons, List.length_append, length_toLe, ← wordBytes, ih, List.length_cons]
    omega

theorem xorWords_eq (ws : List (BitVec 64)) (src : List Byte) (h : src.length ≤ 8 * ws.length) :
    xorWords ws src = xorBytes src (wordBytes ws) := by
  induction ws generalizing src with
  | nil =>
    rw [List.length_eq_zero_iff.mp (Nat.le_zero.mp h)]
    rfl
  | cons w ws ih =>
    rw [xorWords, wordBytes, List.flatMap_cons, ← wordBytes]
    split
    · rename_i hword
      have htake : (src.take 8).length = 8 := by rw [List.length_take, Nat.min_eq_left hword]
      have hfirst : toLe 8 (ofLe (src.take 8) ^^^ w.toNat) = xorBytes (src.take 8) (toLe 8 w.toNat) := by
        have hsame := toLe_ofLe (src.take 8)
        rw [htake] at hsame
        rw [toLe_xor, hsame]
      have hrest : (src.drop 8).length ≤ 8 * ws.length := by
        rw [List.length_drop]
        rw [List.length_cons] at h
        omega
      rw [hfirst, ih _ hrest, ← xorBytes_append (by rw [htake, length_toLe]), List.take_append_drop]
    · rename_i htail
      have hshort : src.length ≤ (toLe 8 w.toNat).length := by
        rw [length_toLe]
        omega
      rw [← xorBytes_take src (_ ++ _), List.take_append_of_le_length hshort, xorBytes_take]

variable (skein : Skein.{u})

def keyStream (key counter : Vector (BitVec 64) 16) : List Byte :=
  wordBytes (threefish1024Encrypt skein key (Vector.replicate 2 0) counter).toList

theorem length_keyStream (key counter : Vector (BitVec 64) 16) :
    (keyStream skein key counter).length = threefishBlockLen := by
  rw [keyStream, length_wordBytes, Vector.length_toList]
  rfl

theorem ctrLoop_eq (key : Vector (BitVec 64) 16) (rounds : ℕ) (counter : Vector (BitVec 64) 16) (input : List Byte) :
    ctrLoop skein key rounds counter input =
      counterMode (keyStream skein key) nextCounter threefishBlockLen rounds counter input := by
  induction rounds generalizing counter input with
  | zero => rfl
  | succ rounds ih =>
    have hchunk : (input.take threefishBlockLen).length ≤
        8 * (threefish1024Encrypt skein key (Vector.replicate 2 0) counter).toList.length := by
      rw [Vector.length_toList]
      exact List.length_take_le _ _
    rw [ctrLoop, counterMode]
    dsimp only
    rw [xorWords_eq _ _ hchunk, ih]
    rfl

variable {skein} (key : Bytes 128) (nonce : Bytes 16) (input : List Byte)

theorem length_threefishCtr : (threefishCtr skein key nonce input).length = input.length := by
  rw [threefishCtr, ctrLoop_eq]
  exact length_counterMode (by decide) (length_keyStream skein _) le_rfl _

theorem threefishCtr_threefishCtr :
    threefishCtr skein key nonce (threefishCtr skein key nonce input) = input := by
  rw [threefishCtr, length_threefishCtr, threefishCtr, ctrLoop_eq, ctrLoop_eq]
  exact counterMode_counterMode (by decide) (length_keyStream skein _) le_rfl _

end Ctr

section Agreement

variable {skein : Skein.{u}} {oneShot : Bytes 128 → List Byte → Bytes 128}

theorem Skein.Streams.mac (h : skein.Streams oneShot) (key : Bytes 128) (data : List Byte) :
    skein1024MacInternal skein key data = oneShot key data := by
  unfold skein1024MacInternal
  dsimp only
  split
  · rename_i hnil
    rw [hnil]
    exact h key []
  · have hone := h key [data]
    rw [List.flatten_singleton] at hone
    exact hone

theorem Skein.Streams.streamMac (h : skein.Streams oneShot) (key : Bytes 128) (nonce : Bytes 16) (aad ct : List Byte) :
    streamMac skein (skein.initExt key) nonce aad ct = oneShot key (macInput nonce aad ct) := by
  have hpart (ctx : skein.Ctx) (l : List Byte) :
      (if l = [] then ctx else skein.update ctx l) = (if l = [] then [] else [l]).foldl skein.update ctx := by
    split
    · rfl
    · rfl
  have hflat (l : List Byte) : (if l = [] then [] else [l]).flatten = l := by
    split
    · rename_i hnil
      exact hnil.symm
    · exact List.flatten_singleton
  have hall := h key
    ([nonce.val, toLe 8 aad.length] ++ (if aad = [] then [] else [aad]) ++ if ct = [] then [] else [ct])
  rw [List.flatten_append, List.flatten_append, hflat, hflat, List.foldl_append, List.foldl_append, ← hpart, ← hpart]
    at hall
  have hinput : [nonce.val, toLe 8 aad.length].flatten ++ aad ++ ct = macInput nonce aad ct := by
    simp [macInput]
  rw [hinput] at hall
  exact hall

variable {malloc : ℕ → Bool} {data aad : List Byte} {nonce : Bytes 16} {key : Bytes 128}

theorem aeadEncryptKeyed_eq (h : skein.Streams oneShot) (hmalloc : malloc (16 + 8 + aad.length + data.length) = true) :
    aeadEncryptKeyed data aad nonce (aeadDeriveSubkeys skein key) = aeadEncrypt skein malloc data aad nonce key := by
  unfold aeadEncryptKeyed aeadEncrypt aeadDeriveSubkeys
  dsimp only
  rw [if_pos hmalloc, h.streamMac, h.mac (skein1024MacInternal skein key macLabel)]

theorem aeadDecryptKeyed_eq (h : skein.Streams oneShot)
    (hmalloc : malloc (16 + 8 + aad.length + (data.length - aeadTagLen)) = true) :
    aeadDecryptKeyed data aad nonce (aeadDeriveSubkeys skein key) = aeadDecrypt skein malloc data aad nonce key := by
  unfold aeadDecryptKeyed aeadDecrypt aeadDeriveSubkeys
  dsimp only
  rw [if_pos hmalloc, h.streamMac, h.mac (skein1024MacInternal skein key macLabel)]

structure Authentic (skein : Skein.{u}) (malloc : ℕ → Bool) (ciphertext aad : List Byte) (nonce : Bytes 16)
    (key : Bytes 128) : Prop where
  tagged : aeadTagLen ≤ ciphertext.length
  granted : malloc (16 + 8 + aad.length + (ciphertext.length - aeadTagLen)) = true
  tag : (skein1024MacInternal skein (skein1024MacInternal skein key macLabel)
    (macInput nonce aad (ciphertext.take (ciphertext.length - aeadTagLen)))).val =
      ciphertext.drop (ciphertext.length - aeadTagLen)

theorem aeadDecrypt_cases (skein : Skein.{u}) (malloc : ℕ → Bool) (ciphertext aad : List Byte) (nonce : Bytes 16)
    (key : Bytes 128) :
    (Authentic skein malloc ciphertext aad nonce key ∧
      ∃ plaintext, aeadDecrypt skein malloc ciphertext aad nonce key = .ok plaintext ∧
        plaintext.length + aeadTagLen = ciphertext.length) ∨
    ¬ Authentic skein malloc ciphertext aad nonce key ∧
      aeadDecrypt skein malloc ciphertext aad nonce key = .error .decrypt := by
  unfold aeadDecrypt
  dsimp only
  split
  · rename_i hshort
    exact .inr ⟨fun h => absurd h.tagged (Nat.not_le.mpr hshort), rfl⟩
  · rename_i hlong
    split
    · rename_i hmalloc
      split
      · rename_i htag
        exact .inr ⟨fun h => htag h.tag, rfl⟩
      · rename_i htag
        refine .inl ⟨⟨Nat.not_lt.mp hlong, hmalloc, not_not.mp htag⟩, _, rfl, ?_⟩
        rw [length_threefishCtr, List.length_take]
        omega
    · rename_i hmalloc
      exact .inr ⟨fun h => hmalloc h.granted, rfl⟩

theorem aeadDecrypt_append (tag : Bytes 128) (ct : List Byte)
    (hmalloc : malloc (16 + 8 + aad.length + ct.length) = true) :
    aeadDecrypt skein malloc (ct ++ tag.val) aad nonce key =
      if (skein1024MacInternal skein (skein1024MacInternal skein key macLabel) (macInput nonce aad ct)).val ≠
          tag.val then
        .error .decrypt
      else .ok (threefishCtr skein (skein1024MacInternal skein key encLabel) nonce ct) := by
  have hlen : (ct ++ tag.val).length = ct.length + aeadTagLen := by
    rw [List.length_append, tag.length_eq]
    rfl
  have hct : (ct ++ tag.val).length - aeadTagLen = ct.length := by
    rw [hlen, Nat.add_sub_cancel]
  unfold aeadDecrypt
  dsimp only
  rw [if_neg (by omega), hct, if_pos hmalloc, List.take_left, List.drop_left]

theorem exists_aeadEncrypt (hmalloc : malloc (16 + 8 + aad.length + data.length) = true) :
    ∃ ct, aeadEncrypt skein malloc data aad nonce key = .ok ct ∧ ct.length = data.length + aeadTagLen ∧
      aeadDecrypt skein malloc ct aad nonce key = .ok data := by
  have hlen := @length_threefishCtr skein (skein1024MacInternal skein key encLabel) nonce data
  have hdec := @aeadDecrypt_append skein malloc aad nonce key
    (skein1024MacInternal skein (skein1024MacInternal skein key macLabel)
      (macInput nonce aad (threefishCtr skein (skein1024MacInternal skein key encLabel) nonce data)))
    (threefishCtr skein (skein1024MacInternal skein key encLabel) nonce data) (by rw [hlen]; exact hmalloc)
  rw [if_neg fun hne => hne rfl, threefishCtr_threefishCtr] at hdec
  refine ⟨_, if_pos hmalloc, ?_, hdec⟩
  rw [List.length_append, hlen, Bytes.length_eq]
  rfl

/-- The variants with subkeys are the plain ones, and what has been encrypted is decrypted to what it was. -/
theorem keyed_agrees (h : skein.Streams oneShot) (data aad : List Byte) (nonce : Bytes 16) (key : Bytes 128)
    (hmalloc : ∀ n ≤ 16 + 8 + aad.length + data.length, malloc n = true) :
    aeadEncryptKeyed data aad nonce (aeadDeriveSubkeys skein key) = aeadEncrypt skein malloc data aad nonce key ∧
      aeadDecryptKeyed data aad nonce (aeadDeriveSubkeys skein key) = aeadDecrypt skein malloc data aad nonce key ∧
      (aeadEncrypt skein malloc data aad nonce key >>= fun ct => aeadDecrypt skein malloc ct aad nonce key) =
        .ok data := by
  refine ⟨aeadEncryptKeyed_eq h (hmalloc _ le_rfl), aeadDecryptKeyed_eq h (hmalloc _ ?_), ?_⟩
  · omega
  · obtain ⟨ct, henc, -, hdec⟩ := @exists_aeadEncrypt skein malloc data aad nonce key (hmalloc _ le_rfl)
    rw [henc]
    exact hdec

def keepingSkein : Skein where
  Ctx := Bytes 128 × List Byte
  initExt key := (key, [])
  update ctx l := (ctx.1, ctx.2 ++ l)
  final ctx := ⟨(ctx.2 ++ ctx.1.val).take 128, by rw [List.length_take, List.length_append, ctx.1.length_eq]; omega⟩
  processBlock key _ plain := Vector.zipWith (· + ·) key plain

theorem keepingSkein_streams :
    keepingSkein.Streams fun key l => keepingSkein.final (key, l) := by
  intro key chunks
  have hkeeps (ctx : Bytes 128 × List Byte) :
      chunks.foldl keepingSkein.update ctx = (ctx.1, ctx.2 ++ chunks.flatten) := by
    induction chunks generalizing ctx with
    | nil =>
      rw [List.flatten_nil, List.append_nil]
      rfl
    | cons l chunks ih =>
      rw [List.flatten_cons, ← List.append_assoc]
      exact ih (ctx.1, ctx.2 ++ l)
  exact congrArg keepingSkein.final (hkeeps (key, []))

theorem keyed_agrees_two :
    aeadEncryptKeyed [1, 2] [3] (.fill 16 0) (aeadDeriveSubkeys keepingSkein (.fill 128 5)) =
        aeadEncrypt keepingSkein (fun _ => true) [1, 2] [3] (.fill 16 0) (.fill 128 5) ∧
      aeadDecryptKeyed [1, 2] [3] (.fill 16 0) (aeadDeriveSubkeys keepingSkein (.fill 128 5)) =
        aeadDecrypt keepingSkein (fun _ => true) [1, 2] [3] (.fill 16 0) (.fill 128 5) ∧
      (aeadEncrypt keepingSkein (fun _ => true) [1, 2] [3] (.fill 16 0) (.fill 128 5) >>= fun ct =>
          aeadDecrypt keepingSkein (fun _ => true) ct [3] (.fill 16 0) (.fill 128 5)) =
        .ok [1, 2] :=
  keyed_agrees keepingSkein_streams [1, 2] [3] (.fill 16 0) (.fill 128 5) fun _ _ => rfl

end Agreement

end YumiBrowser.Cipher
