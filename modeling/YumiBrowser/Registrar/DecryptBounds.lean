import YumiBrowser.Crypto.Aead
import YumiBrowser.Registrar.GroupCipher

namespace YumiBrowser.Group

open Wire Keyed YumiBrowser.Cipher

abbrev SharedSecret := Bytes 32
abbrev KemCiphertext := Bytes 1568

/-- What the two decryptions call. -/
structure Primitives where
  skein : Skein
  malloc : ℕ → Bool
  calloc : ℕ → Bool
  mlkemDecaps : KemCiphertext → KemSecretKey → Option SharedSecret
  hkdf : SharedSecret → KemPublicKey → List Byte → Option (Bytes 128)

/-- The ML-KEM key pair of a `gr_identity_t`. -/
structure KemIdentity where
  kemPk : KemPublicKey
  kemSk : KemSecretKey

def peerEncryptInfo : List Byte := ascii "yumi-peer-encrypt-v1"

section Decryption

variable (P : Primitives)

/-- `gr_decrypt`, with the capacity of its buffer: the bytes that are written to it, and the epoch. -/
def grDecryptInto (reg : Registrar) (ciphertext ad : List Byte) (_outLen : ℕ) :
    Except GrError (List Byte × BitVec 32) :=
  if ciphertext.length < 16 + grMacLen then .error .invalidParam
  else
    match (readBytes 16).run ciphertext with
    | none => .error .invalidParam
    | some (nonce, ct) =>
      if P.calloc (epochList reg).length then
        orElse .crypto ((epochList reg).reverse.findSome? fun e =>
          (aeadDecrypt P.skein P.malloc ct ad nonce e.epochKey).toOption.map fun out => (out, e.epochId))
      else .error .outOfMemory

/-- `gr_decrypt_from_peer`, likewise. -/
def grDecryptFromPeer (self : KemIdentity) (ciphertext : List Byte) (_outLen : ℕ) : Except GrError (List Byte) :=
  if ciphertext.length < 1568 + 16 + grMacLen then .error .invalidParam
  else
    match (readBytes 1568).run ciphertext with
    | none => .error .invalidParam
    | some (kemCt, rest) =>
      match (readBytes 16).run rest with
      | none => .error .invalidParam
      | some (nonce, ct) =>
        orElse .crypto (do
          let ss ← P.mlkemDecaps kemCt self.kemSk
          let aeadKey ← P.hkdf ss self.kemPk peerEncryptInfo
          (aeadDecrypt P.skein P.malloc ct [] nonce aeadKey).toOption)

/-- A call fails, or what it writes has room in its buffer. -/
def Fits (outLen : ℕ) (r : Except GrError (List Byte)) : Prop := ∀ out, r = .ok out → out.length ≤ outLen

/-- There is an epoch whose key the ciphertext is authentic under, and the memory to try it. -/
def Opens (reg : Registrar) (ciphertext ad : List Byte) : Prop :=
  P.calloc (epochList reg).length = true ∧
    ∃ nonce ct, (readBytes 16).run ciphertext = some (nonce, ct) ∧
      ∃ e ∈ epochList reg, Authentic P.skein P.malloc ct ad nonce e.epochKey

/-- The ciphertext is authentic under the key that is derived from the secret it encapsulates. -/
def PeerOpens (self : KemIdentity) (ciphertext : List Byte) : Prop :=
  ∃ kemCt rest nonce ct ss aeadKey,
    (readBytes 1568).run ciphertext = some (kemCt, rest) ∧ (readBytes 16).run rest = some (nonce, ct) ∧
      P.mlkemDecaps kemCt self.kemSk = some ss ∧ P.hkdf ss self.kemPk peerEncryptInfo = some aeadKey ∧
        Authentic P.skein P.malloc ct [] nonce aeadKey

variable {P} {reg : Registrar} {self : KemIdentity} {ciphertext ad : List Byte} {outLen : ℕ}

theorem findSome?_aeadDecrypt (es : List Epoch) (ct : List Byte) (nonce : Nonce) :
    ((∃ e ∈ es, Authentic P.skein P.malloc ct ad nonce e.epochKey) ∧
      ∃ out epochId, es.findSome? (fun e =>
          (aeadDecrypt P.skein P.malloc ct ad nonce e.epochKey).toOption.map fun out => (out, e.epochId)) =
        some (out, epochId) ∧ out.length + aeadTagLen = ct.length) ∨
    (¬ ∃ e ∈ es, Authentic P.skein P.malloc ct ad nonce e.epochKey) ∧
      es.findSome? (fun e =>
        (aeadDecrypt P.skein P.malloc ct ad nonce e.epochKey).toOption.map fun out => (out, e.epochId)) = none := by
  induction es with
  | nil => exact .inr ⟨fun ⟨e, he, _⟩ => absurd he List.not_mem_nil, rfl⟩
  | cons e es ih =>
    rw [List.findSome?_cons]
    obtain ⟨hauth, out, hout, hlen⟩ | ⟨hauth, hfail⟩ := aeadDecrypt_cases P.skein P.malloc ct ad nonce e.epochKey
    · rw [hout]
      exact .inl ⟨⟨e, List.mem_cons_self, hauth⟩, out, e.epochId, rfl, hlen⟩
    · rw [hfail]
      obtain ⟨⟨e', he', hauth'⟩, hfound⟩ | ⟨hnone, hfound⟩ := ih
      · exact .inl ⟨⟨e', List.mem_cons_of_mem e he', hauth'⟩, hfound⟩
      · refine .inr ⟨?_, hfound⟩
        rintro ⟨e', he', hauth'⟩
        obtain rfl | he' := List.mem_cons.mp he'
        · exact hauth hauth'
        · exact hnone ⟨e', he', hauth'⟩

theorem fits_error (err : GrError) : Fits outLen (.error err) := by
  intro out hout
  cases hout

theorem fits_ok {out : List Byte} : Fits outLen (.ok out) ↔ out.length ≤ outLen := by
  constructor
  · intro h
    exact h out rfl
  · intro h out' hout
    rw [← Except.ok.inj hout]
    exact h

theorem fits_grDecryptInto : Fits outLen ((grDecryptInto P reg ciphertext ad outLen).map Prod.fst) ↔
    (Opens P reg ciphertext ad → ciphertext.length ≤ 16 + grMacLen + outLen) := by
  unfold grDecryptInto
  split
  · exact iff_of_true (fits_error _) fun _ => by omega
  · split
    · rename_i hread
      refine iff_of_true (fits_error _) fun hopens => ?_
      obtain ⟨-, nonce, ct, hsome, -⟩ := hopens
      rw [hread] at hsome
      cases hsome
    · rename_i nonce ct hread
      have hlength : ciphertext.length = 16 + ct.length := by
        rw [readBytes_eq_some hread, List.length_append, nonce.length_eq]
      split
      · rename_i hcalloc
        have hrev : (∃ e ∈ (epochList reg).reverse, Authentic P.skein P.malloc ct ad nonce e.epochKey) ↔
            Opens P reg ciphertext ad := by
          constructor
          · rintro ⟨e, he, hauth⟩
            exact ⟨hcalloc, nonce, ct, hread, e, List.mem_reverse.mp he, hauth⟩
          · rintro ⟨-, nonce', ct', hread', e, he, hauth⟩
            obtain ⟨rfl, rfl⟩ := Prod.mk.inj (Option.some.inj (hread.symm.trans hread'))
            exact ⟨e, List.mem_reverse.mpr he, hauth⟩
        obtain ⟨hopens, out, epochId, hfound, hout⟩ | ⟨hnone, hfound⟩ :=
          @findSome?_aeadDecrypt P ad (epochList reg).reverse ct nonce
        · rw [hfound]
          have hfits : Fits outLen (Except.map Prod.fst (orElse .crypto (some (out, epochId)))) ↔ out.length ≤ outLen :=
            fits_ok
          have htag : aeadTagLen = grMacLen := rfl
          rw [hfits, imp_iff_right (hrev.mp hopens)]
          omega
        · rw [hfound]
          exact iff_of_true (fits_error _) fun hopens => absurd (hrev.mpr hopens) hnone
      · rename_i hcalloc
        exact iff_of_true (fits_error _) fun hopens => absurd hopens.1 hcalloc

theorem fits_grDecryptFromPeer : Fits outLen (grDecryptFromPeer P self ciphertext outLen) ↔
    (PeerOpens P self ciphertext → ciphertext.length ≤ 1568 + 16 + grMacLen + outLen) := by
  unfold grDecryptFromPeer
  split
  · exact iff_of_true (fits_error _) fun _ => by omega
  · split
    · rename_i hread
      refine iff_of_true (fits_error _) fun hopens => ?_
      obtain ⟨kemCt, rest, nonce, ct, ss, aeadKey, hsome, -⟩ := hopens
      rw [hread] at hsome
      cases hsome
    · rename_i kemCt rest hread
      split
      · rename_i hnonce
        refine iff_of_true (fits_error _) fun hopens => ?_
        obtain ⟨kemCt', rest', nonce, ct, ss, aeadKey, hsome, hsome', -⟩ := hopens
        obtain ⟨rfl, rfl⟩ := Prod.mk.inj (Option.some.inj (hread.symm.trans hsome))
        rw [hnonce] at hsome'
        cases hsome'
      · rename_i nonce ct hnonce
        have hlength : ciphertext.length = 1568 + (16 + ct.length) := by
          rw [readBytes_eq_some hread, readBytes_eq_some hnonce, List.length_append, List.length_append,
            kemCt.length_eq, nonce.length_eq]
        have hopens : PeerOpens P self ciphertext ↔ ∃ ss aeadKey, P.mlkemDecaps kemCt self.kemSk = some ss ∧
            P.hkdf ss self.kemPk peerEncryptInfo = some aeadKey ∧ Authentic P.skein P.malloc ct [] nonce aeadKey := by
          constructor
          · rintro ⟨kemCt', rest', nonce', ct', ss, aeadKey, hread', hnonce', hkey⟩
            obtain ⟨rfl, rfl⟩ := Prod.mk.inj (Option.some.inj (hread.symm.trans hread'))
            obtain ⟨rfl, rfl⟩ := Prod.mk.inj (Option.some.inj (hnonce.symm.trans hnonce'))
            exact ⟨ss, aeadKey, hkey⟩
          · rintro ⟨ss, aeadKey, hkey⟩
            exact ⟨kemCt, rest, nonce, ct, ss, aeadKey, hread, hnonce, hkey⟩
        rw [hopens]
        cases hss : P.mlkemDecaps kemCt self.kemSk with
        | none =>
          refine iff_of_true (fits_error _) ?_
          rintro ⟨ss, aeadKey, hsome, -⟩
          cases hsome
        | some ss =>
          cases hkey : P.hkdf ss self.kemPk peerEncryptInfo with
          | none =>
            simp only [Option.bind_eq_bind, Option.bind_some, hkey, Option.bind_none]
            refine iff_of_true (fits_error _) ?_
            rintro ⟨ss', aeadKey, hsome, hkey', -⟩
            cases hsome
            rw [hkey] at hkey'
            cases hkey'
          | some aeadKey =>
            simp only [Option.bind_eq_bind, Option.bind_some, hkey]
            obtain ⟨hauth, out, hout, hlen⟩ | ⟨hauth, hfail⟩ := aeadDecrypt_cases P.skein P.malloc ct [] nonce aeadKey
            · have hfits : Fits outLen (orElse .crypto (Except.ok (ε := CryptoErr) out).toOption) ↔
                  out.length ≤ outLen := fits_ok
              have htag : aeadTagLen = grMacLen := rfl
              rw [hout, hfits, imp_iff_right ⟨ss, aeadKey, rfl, hkey, hauth⟩]
              omega
            · rw [hfail]
              refine iff_of_true (fits_error _) ?_
              rintro ⟨ss', aeadKey', hsome, hkey', hauth'⟩
              cases hsome
              obtain rfl := Option.some.inj (hkey.symm.trans hkey')
              exact absurd hauth' hauth

/-- The two decryptions keep to their buffers exactly where a ciphertext that opens is no longer than the buffer
and what surrounds the plaintext. -/
theorem decryptions_fit_iff (P : Primitives) (reg : Registrar) (self : KemIdentity) (ciphertext ad : List Byte)
    (outLen : ℕ) :
    (Fits outLen ((grDecryptInto P reg ciphertext ad outLen).map Prod.fst) ↔
      (Opens P reg ciphertext ad → ciphertext.length ≤ 16 + grMacLen + outLen)) ∧
    (Fits outLen (grDecryptFromPeer P self ciphertext outLen) ↔
      (PeerOpens P self ciphertext → ciphertext.length ≤ 1568 + 16 + grMacLen + outLen)) :=
  ⟨fits_grDecryptInto, fits_grDecryptFromPeer⟩

end Decryption

section NoRoom

def zeroPrimitives : Primitives where
  skein := keepingSkein
  malloc _ := true
  calloc _ := true
  mlkemDecaps _ _ := some (zeroBytes 32)
  hkdf _ _ _ := some (zeroBytes 128)

def sealedOne : List Byte :=
  (zeroBytes 16).val ++
    ((aeadEncrypt keepingSkein (fun _ => true) [1] [] (zeroBytes 16) (zeroBytes 128)).toOption.getD [])

theorem sealedOne_opens : ∃ ct, sealedOne = (zeroBytes 16).val ++ ct ∧ ct.length = 129 ∧
    aeadDecrypt keepingSkein (fun _ => true) ct [] (zeroBytes 16) (zeroBytes 128) = .ok [1] := by
  obtain ⟨ct, henc, hlen, hdec⟩ :=
    @exists_aeadEncrypt keepingSkein (fun _ => true) [1] [] (zeroBytes 16) (zeroBytes 128) rfl
  refine ⟨ct, ?_, hlen, hdec⟩
  rw [sealedOne, henc]
  rfl

theorem sealedOne_decrypted :
    grDecryptInto zeroPrimitives (signedGroup flatHash) sealedOne [] 0 = .ok ([1], 1) ∧
      grDecryptFromPeer zeroPrimitives ⟨zeroBytes 1568, zeroBytes 3168⟩ ((zeroBytes 1568).val ++ sealedOne) 0 =
        .ok [1] := by
  obtain ⟨ct, hsealed, hlen, hdec⟩ := sealedOne_opens
  have hone : epochList (signedGroup flatHash) = [firstEpoch (member 1) (zeroBytes 128) 1] := List.mergeSort_singleton _
  have hlength : sealedOne.length = 145 := by
    rw [hsealed, List.length_append, hlen, Bytes.length_eq]
  constructor
  · rw [grDecryptInto, if_neg (by rw [hlength]; decide), hsealed, readBytes_append, hone]
    dsimp only
    rw [show zeroPrimitives.calloc _ = true from rfl, if_pos rfl, List.reverse_singleton, List.findSome?_singleton]
    change orElse _ ((aeadDecrypt keepingSkein (fun _ => true) ct [] (zeroBytes 16) (zeroBytes 128)).toOption.map _) = _
    rw [hdec]
    rfl
  · rw [grDecryptFromPeer, if_neg (by rw [List.length_append, hlength, Bytes.length_eq]; decide), readBytes_append]
    dsimp only
    rw [hsealed, readBytes_append]
    change orElse _ (aeadDecrypt keepingSkein (fun _ => true) ct [] (zeroBytes 16) (zeroBytes 128)).toOption = _
    rw [hdec]
    rfl

theorem sealedOne_overflows :
    ¬ Fits 0 ((grDecryptInto zeroPrimitives (signedGroup flatHash) sealedOne [] 0).map Prod.fst) ∧
      ¬ Fits 0 (grDecryptFromPeer zeroPrimitives ⟨zeroBytes 1568, zeroBytes 3168⟩
        ((zeroBytes 1568).val ++ sealedOne) 0) := by
  obtain ⟨hgroup, hpeer⟩ := sealedOne_decrypted
  rw [hgroup, hpeer]
  exact ⟨fun hfits => absurd (hfits [1] rfl) (by decide), fun hfits => absurd (hfits [1] rfl) (by decide)⟩

end NoRoom

end YumiBrowser.Group
