import YumiBrowser.Crypto.Aead
import YumiBrowser.Library.Blocks

universe u

namespace YumiBrowser.Cipher

open Wire Blocks

section Counter

/-- The counter block that the `i`-th block of a message is combined with. -/
def counterBlock (nonce : Bytes 16) (i : ℕ) : Vector (BitVec 64) 16 := nextCounter^[i] (words 16 nonce.val)

variable {nonce nonce' : Bytes 16} {i j : ℕ}

theorem getElem_nextCounter_last {k : ℕ} (hk : k + 1 = 16) (i : ℕ) (counter : Vector (BitVec 64) 16) :
    (nextCounter^[i] counter)[k] = counter[k] + BitVec.ofNat 64 i := by
  obtain rfl : k = 15 := Nat.succ.inj hk
  induction i generalizing counter with
  | zero => exact (BitVec.add_zero _).symm
  | succ i ih =>
    have hlast : (nextCounter counter)[15] = counter[15] + 1 := Vector.getElem_set_self ..
    rw [Function.iterate_succ_apply, ih, hlast, BitVec.ofNat_add]
    ac_rfl

theorem getElem_nextCounter {k : ℕ} (hk : k < 15) (i : ℕ) (counter : Vector (BitVec 64) 16) :
    (nextCounter^[i] counter)[k] = counter[k] := by
  induction i generalizing counter with
  | zero => rfl
  | succ i ih =>
    rw [Function.iterate_succ_apply, ih]
    exact Vector.getElem_set_ne _ _ (by omega)

theorem getElem_words {k : ℕ} (hk : k < 16) (bytes : List Byte) :
    (words 16 bytes)[k] = BitVec.ofNat 64 (ofLe ((bytes.drop (8 * k)).take 8)) := Vector.getElem_ofFn ..

theorem counterBlock_last {k : ℕ} (hk : k + 1 = 16) (nonce : Bytes 16) (i : ℕ) :
    (counterBlock nonce i)[k] = BitVec.ofNat 64 i := by
  obtain rfl : k = 15 := Nat.succ.inj hk
  rw [counterBlock, getElem_nextCounter_last rfl, getElem_words,
    List.drop_of_length_le (by rw [nonce.length_eq]; decide)]
  exact BitVec.zero_add _

theorem toLe_counterBlock {k : ℕ} (hk : k < 2) (nonce : Bytes 16) (i : ℕ) :
    toLe 8 ((counterBlock nonce i)[k]).toNat = (nonce.val.drop (8 * k)).take 8 := by
  have hlength : ((nonce.val.drop (8 * k)).take 8).length = 8 := by
    rw [List.length_take, List.length_drop, nonce.length_eq]
    omega
  have hsame := toLe_ofLe ((nonce.val.drop (8 * k)).take 8)
  have hvalue : ofLe ((nonce.val.drop (8 * k)).take 8) < 2 ^ 64 := by
    have hlt := ofLe_lt ((nonce.val.drop (8 * k)).take 8)
    rwa [hlength] at hlt
  rw [hlength] at hsame
  rw [counterBlock, getElem_nextCounter (by omega), getElem_words, BitVec.toNat_ofNat, Nat.mod_eq_of_lt hvalue, hsame]

theorem counterBlock_inj (hi : i < 2 ^ 64) (hj : j < 2 ^ 64) (h : counterBlock nonce i = counterBlock nonce' j) :
    nonce = nonce' ∧ i = j := by
  have hhalf {k : ℕ} (hk : k < 2) : (nonce.val.drop (8 * k)).take 8 = (nonce'.val.drop (8 * k)).take 8 := by
    rw [← toLe_counterBlock hk nonce i, ← toLe_counterBlock hk nonce' j, h]
  have hsplit (n : Bytes 16) : n.val = (n.val.drop (8 * 0)).take 8 ++ (n.val.drop (8 * 1)).take 8 := by
    have hrest : (n.val.drop 8).take 8 = n.val.drop 8 :=
      List.take_of_length_le (by rw [List.length_drop, n.length_eq])
    rw [Nat.mul_zero, List.drop_zero, Nat.mul_one, hrest, List.take_append_drop]
  refine ⟨Bytes.ext ?_, ?_⟩
  · rw [hsplit nonce, hsplit nonce', hhalf (by decide), hhalf (by decide)]
  · have hlast : BitVec.ofNat 64 i = BitVec.ofNat 64 j := by
      rw [← counterBlock_last rfl nonce i, ← counterBlock_last rfl nonce' j, h]
    have hnat := congrArg BitVec.toNat hlast
    rwa [BitVec.toNat_ofNat, BitVec.toNat_ofNat, Nat.mod_eq_of_lt hi, Nat.mod_eq_of_lt hj] at hnat

theorem threefishCtr_eq (skein : Skein.{u}) (key : Bytes 128) (nonce : Bytes 16) (input : List Byte) :
    threefishCtr skein key nonce input = xorBytes input
      ((List.range (blocksFor threefishBlockLen input.length)).flatMap fun i =>
        keyStream skein (words 16 key.val) (counterBlock nonce i)) := by
  rw [threefishCtr, ctrLoop_eq]
  exact counterMode_eq (by decide) (length_keyStream skein _) le_rfl _

end Counter

/-- What is authenticated; the length of an object fits into a `size_t`. -/
structure AeadInput where
  nonce : Bytes 16
  aad : List Byte
  ct : List Byte
  addressable : aad.length < 2 ^ 64
  deriving DecidableEq

def AeadInput.framed (x : AeadInput) : List Byte := macInput x.nonce x.aad x.ct

/-- The input of the tag, as `yumi_aead_encrypt` puts it together in new memory. -/
def buildMacInput (macInput : List Byte) (nonce : Bytes 16) (aad ct : List Byte) : Checked (List Byte) := do
  let macInput ← memcpy macInput 0 nonce.val
  let pos := 16
  let macInput ← memcpy macInput pos (toLe 8 aad.length)
  let pos := pos + 8
  let macInput ← copyNonempty macInput pos aad
  let pos := pos + aad.length
  let macInput ← memcpy macInput pos ct
  .ok macInput

theorem safe_buildMacInput {fresh : List Byte} {nonce : Bytes 16} {aad ct : List Byte}
    (h : fresh.length = 16 + 8 + aad.length + ct.length) :
    Safe (buildMacInput fresh nonce aad ct) fun built => built = macInput nonce aad ct := by
  have hnumber : (toLe 8 aad.length).length = 8 := length_toLe _ _
  have hnonce := nonce.length_eq
  refine Safe.extend (by omega) fun b₁ hlen₁ hb₁ => ?_
  rw [hnonce] at hb₁
  refine Safe.extend (by omega) fun b₂ hlen₂ hb₂ => ?_
  rw [hnumber] at hb₂
  refine Safe.extendNonempty (by omega) fun b₃ hlen₃ hb₃ => Safe.extend (by omega) fun b₄ hlen₄ hb₄ => .ok ?_
  have hall : 16 + 8 + aad.length + ct.length = b₄.length := by omega
  rw [hall, List.take_length, hb₃, hb₂, hb₁, List.take_zero, List.nil_append] at hb₄
  exact hb₄

theorem macInput_inj {nonce nonce' : Bytes 16} {aad aad' ct ct' : List Byte} (haad : aad.length < 256 ^ 8)
    (haad' : aad'.length < 256 ^ 8) (h : macInput nonce aad ct = macInput nonce' aad' ct') :
    nonce = nonce' ∧ aad = aad' ∧ ct = ct' := by
  rw [macInput, macInput, List.append_assoc, List.append_assoc, List.append_assoc, List.append_assoc] at h
  obtain ⟨hnonce, hrest⟩ := List.append_inj h (nonce.length_eq.trans nonce'.length_eq.symm)
  obtain ⟨hlen, hdata⟩ := List.append_inj hrest ((length_toLe _ _).trans (length_toLe _ _).symm)
  -- the written length tells where the associated data end
  have hsame : aad.length = aad'.length := by
    have hread := congrArg ofLe hlen
    rwa [ofLe_toLe, ofLe_toLe, Nat.mod_eq_of_lt haad, Nat.mod_eq_of_lt haad'] at hread
  exact ⟨Bytes.ext hnonce, List.append_inj hdata hsame⟩

theorem framed_injective : Function.Injective AeadInput.framed := by
  intro x y h
  obtain ⟨hnonce, haad, hct⟩ := macInput_inj x.addressable y.addressable h
  cases x
  cases y
  cases hnonce
  cases haad
  cases hct
  rfl

/-- The blocks of a message whose length fits into a `size_t`. -/
def maxBlocks : ℕ := 2 ^ 64 / threefishBlockLen

theorem blocksFor_le_maxBlocks {n : ℕ} (h : n < 2 ^ 64) : blocksFor threefishBlockLen n ≤ maxBlocks := by
  rw [blocksFor, maxBlocks, threefishBlockLen]
  omega

/-- The framing of the tag tells its parts apart, the key stream of a message is that of its counter blocks, and no two
blocks of messages under the same key have the same one. -/
theorem framing_injective (skein : Skein.{u}) :
    (∀ (x : AeadInput) (fresh : Block Byte (16 + 8 + x.aad.length + x.ct.length)),
        Safe (buildMacInput fresh.cells x.nonce x.aad x.ct) fun built => built = x.framed) ∧
      Function.Injective AeadInput.framed ∧
      (∀ (key : Bytes 128) (nonce : Bytes 16) (input : List Byte), threefishCtr skein key nonce input =
        xorBytes input ((List.range (blocksFor threefishBlockLen input.length)).flatMap fun i =>
          keyStream skein (words 16 key.val) (counterBlock nonce i))) ∧
      (∀ n < 2 ^ 64, blocksFor threefishBlockLen n ≤ maxBlocks) ∧
      Function.Injective fun p : Bytes 16 × Fin maxBlocks => counterBlock p.1 p.2 := by
  refine ⟨fun x fresh => safe_buildMacInput fresh.size, framed_injective, threefishCtr_eq skein,
    fun n => blocksFor_le_maxBlocks, fun p q h => ?_⟩
  have hlimit : maxBlocks < 2 ^ 64 := by decide
  obtain ⟨hnonce, hindex⟩ := counterBlock_inj (p.2.isLt.trans hlimit) (q.2.isLt.trans hlimit) h
  exact Prod.ext hnonce (Fin.ext hindex)

end YumiBrowser.Cipher
