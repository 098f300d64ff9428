import YumiBrowser.Library.IdealCrypto
import YumiBrowser.Library.LocalParsers
import YumiBrowser.Library.Paging
import YumiBrowser.Registrar.EpochAdoption

namespace YumiBrowser.Group

open Wire Keyed Ideal

abbrev Nonce := Bytes 16

def grMacLen : ℕ := 128

/-- The cipher of the group, `yumi_aead_encrypt` and `yumi_aead_decrypt`. -/
structure GroupAead extends Aead EpochKey Nonce Byte where
  tagLen_eq : tagLen = grMacLen

abbrev GroupSealing := Sealing EpochKey Nonce Byte

/-- `gr_encrypt`: the bytes that are put out, and the encryption that was made. -/
def grEncrypt (A : GroupAead) (reg : Registrar) (nonce : Nonce) (plaintext ad : List Byte) (outLen : ℕ) :
    Except GrError (List Byte × GroupSealing) :=
  match epochGetCurrent reg with
  | none => .error .notFound
  | some epoch =>
    if outLen < 16 + plaintext.length + grMacLen then .error .sizeExceeded
    else
      .ok (nonce.val ++ A.sealed epoch.epochKey nonce ad plaintext, ⟨epoch.epochKey, nonce, ad, plaintext⟩)

/-- `gr_epoch_list`, of all the epochs that there are. -/
def epochList (reg : Registrar) : List Epoch :=
  reg.epochs.rows.mergeSort fun a b => a.epochId.toInt ≤ b.epochId.toInt

/-- `gr_decrypt`: the plaintext and the epoch whose key it was found with, the last one first. -/
def grDecrypt (A : GroupAead) (log : List GroupSealing) (reg : Registrar) (ciphertext ad : List Byte) :
    Except GrError (List Byte × BitVec 32) :=
  match (readBytes 16).run ciphertext with
  | none => .error .invalidParam
  | some (nonce, ct) =>
    if ct.length < grMacLen then .error .invalidParam
    else
      orElse .crypto ((epochList reg).reverse.findSome? fun e =>
        (A.opened log e.epochKey nonce ad ct).map fun plaintext => (plaintext, e.epochId))

/-- Any number of calls of `gr_epoch_rotate`, those that fail among them. -/
def rotations (crypto : Crypto) (reg : Registrar) (calls : List (EpochKey × Identity × Clock)) : Registrar :=
  calls.foldl (fun reg call => ((epochRotate crypto reg call.1 call.2.1 call.2.2).toOption).getD reg) reg

def keyEpoch (reg : Registrar) (key : EpochKey) : Option Epoch :=
  (epochList reg).reverse.find? fun e => e.epochKey = key

section Rotations

variable {crypto : Crypto} {reg reg' : Registrar} {e : Epoch} {key : EpochKey} {signer : Identity} {clk : Clock}

theorem kept_epochRotate (h : epochRotate crypto reg key signer clk = .ok reg') (he : e ∈ reg.epochs.rows) :
    ∃ e' ∈ reg'.epochs.rows, e'.epochId = e.epochId ∧ e'.epochKey = e.epochKey := by
  obtain ⟨-, -, mid, hrot, rfl⟩ := mutate_eq_ok.mp h
  obtain ⟨epochs, hinsert, rfl⟩ := map_orElse_eq_ok.mp hrot
  rw [epochs_auditAppend]
  change ∃ e' ∈ epochs.rows, _
  rw [Table.rows_insert? hinsert]
  refine ⟨_, List.mem_append_left _ (List.mem_map.mpr ⟨e, he, rfl⟩), ?_⟩
  split
  · exact ⟨rfl, rfl⟩
  · exact ⟨rfl, rfl⟩

theorem kept_rotations (calls : List (EpochKey × Identity × Clock)) (he : e ∈ reg.epochs.rows) :
    ∃ e' ∈ (rotations crypto reg calls).epochs.rows, e'.epochId = e.epochId ∧ e'.epochKey = e.epochKey := by
  induction calls generalizing reg e with
  | nil => exact ⟨e, he, rfl, rfl⟩
  | cons call calls ih =>
    rw [rotations, List.foldl_cons]
    cases hcall : epochRotate crypto reg call.1 call.2.1 call.2.2 with
    | error err => exact ih he
    | ok next =>
      obtain ⟨e₁, he₁, hid, hkey⟩ := kept_epochRotate hcall he
      obtain ⟨e₂, he₂, hid', hkey'⟩ := ih he₁
      exact ⟨e₂, he₂, hid'.trans hid, hkey'.trans hkey⟩

theorem mem_epochList : e ∈ epochList reg ↔ e ∈ reg.epochs.rows := List.mem_mergeSort

theorem epochList_sorted (reg : Registrar) :
    (epochList reg).Pairwise fun a b => a.epochId.toInt ≤ b.epochId.toInt :=
  Paging.ordered_mergeSort (fun e : Epoch => e.epochId.toInt) reg.epochs.rows

theorem keyEpoch_ne_none (he : e ∈ reg.epochs.rows) (hkey : e.epochKey = key) :
    ∃ last, keyEpoch reg key = some last := by
  refine Option.isSome_iff_exists.mp (List.find?_isSome.mpr ⟨e, ?_, decide_eq_true hkey⟩)
  exact List.mem_reverse.mpr (mem_epochList.mpr he)

theorem keyEpoch_eq_some (h : keyEpoch reg key = some e) : e ∈ reg.epochs.rows ∧ e.epochKey = key ∧
    ∀ e' ∈ reg.epochs.rows, e'.epochKey = key → e'.epochId.toInt ≤ e.epochId.toInt := by
  obtain ⟨hkey, as, bs, hsplit, hnone⟩ := List.find?_eq_some_iff_append.mp h
  have hlist : epochList reg = bs.reverse ++ e :: as.reverse := by
    have hrev := congrArg List.reverse hsplit
    simpa using hrev
  have hsorted := epochList_sorted reg
  rw [hlist] at hsorted
  refine ⟨mem_epochList.mp (by simp [hlist]), of_decide_eq_true hkey, fun e' he' hkey' => ?_⟩
  have hmem := mem_epochList.mpr he'
  rw [hlist] at hmem
  rcases List.mem_append.mp hmem with hmem | hmem
  · exact (List.pairwise_append.mp hsorted).2.2 e' hmem e List.mem_cons_self
  · rcases List.mem_cons.mp hmem with rfl | hmem
    · exact le_rfl
    · have hfalse := hnone e' (List.mem_reverse.mp hmem)
      rw [hkey'] at hfalse
      simp at hfalse

end Rotations

section Cipher

variable {A : GroupAead} {log : List GroupSealing} {reg : Registrar} {made : GroupSealing} {nonce : Nonce}
variable {plaintext ad c : List Byte} {outLen : ℕ}

def wire (A : GroupAead) (made : GroupSealing) : List Byte :=
  made.nonce.val ++ A.sealed made.key made.nonce made.ad made.plaintext

theorem grEncrypt_cases (h : grEncrypt A reg nonce plaintext ad outLen = .ok (c, made)) :
    ∃ e, epochGetCurrent reg = some e ∧ made = ⟨e.epochKey, nonce, ad, plaintext⟩ ∧ c = wire A made := by
  unfold grEncrypt at h
  cases hcurrent : epochGetCurrent reg with
  | none =>
    rw [hcurrent] at h
    cases h
  | some e =>
    rw [hcurrent] at h
    dsimp only at h
    split at h
    · cases h
    · obtain ⟨rfl, rfl⟩ := Prod.mk.inj (Except.ok.inj h)
      exact ⟨e, rfl, rfl, rfl⟩

theorem findSome?_opened (hmade : made ∈ log) (es : List Epoch) :
    es.findSome? (fun e => (A.opened log e.epochKey made.nonce made.ad
      (A.sealed made.key made.nonce made.ad made.plaintext)).map fun plaintext => (plaintext, e.epochId)) =
    (es.find? fun e => e.epochKey = made.key).map fun e => (made.plaintext, e.epochId) := by
  induction es with
  | nil => rfl
  | cons e es ih =>
    rw [List.findSome?_cons, List.find?_cons]
    by_cases hkey : e.epochKey = made.key
    · rw [decide_eq_true hkey, hkey, Aead.opened_sealed hmade]
      rfl
    · rw [decide_eq_false hkey, Aead.opened_other hkey]
      exact ih

theorem grDecrypt_wire (hmade : made ∈ log) : grDecrypt A log reg (wire A made) made.ad =
    orElse .crypto ((keyEpoch reg made.key).map fun e => (made.plaintext, e.epochId)) := by
  have hlength : ¬ (A.sealed made.key made.nonce made.ad made.plaintext).length < grMacLen := by
    rw [A.length_sealed, A.tagLen_eq]
    exact Nat.not_lt.mpr (Nat.le_add_left _ _)
  rw [grDecrypt, wire, readBytes_append]
  dsimp only
  rw [if_neg hlength, findSome?_opened hmade]
  rfl

theorem wire_of_grDecrypt {r : List Byte × BitVec 32} (h : grDecrypt A log reg c ad = .ok r) :
    ∃ made ∈ log, made.ad = ad ∧ c = wire A made := by
  unfold grDecrypt at h
  split at h
  · cases h
  · rename_i nonce ct hread
    split at h
    · cases h
    · cases hfound : (epochList reg).reverse.findSome? fun e =>
          (A.opened log e.epochKey nonce ad ct).map fun plaintext => (plaintext, e.epochId) with
      | none =>
        rw [hfound] at h
        cases h
      | some found =>
        obtain ⟨e, -, he⟩ := List.exists_of_findSome?_eq_some hfound
        obtain ⟨plaintext, hopened, -⟩ := Option.map_eq_some_iff.mp he
        obtain ⟨hmade, rfl⟩ := Aead.opened_eq_some.mp hopened
        exact ⟨⟨e.epochKey, nonce, ad, plaintext⟩, hmade, rfl, readBytes_eq_some hread⟩

/-- A ciphertext is decrypted to what was encrypted, after any number of rotations, and its epoch is reported
unless one listed after it has the same key; nothing but what was encrypted is accepted. -/
theorem grDecrypt_grEncrypt {crypto : Crypto} (calls : List (EpochKey × Identity × Clock))
    (henc : grEncrypt A reg nonce plaintext ad outLen = .ok (c, made)) (hlog : made ∈ log) :
    (∃ e last, epochGetCurrent reg = some e ∧
      grDecrypt A log (rotations crypto reg calls) c ad = .ok (plaintext, last) ∧
      (last = e.epochId ↔ ∀ e' ∈ (rotations crypto reg calls).epochs.rows,
        e'.epochKey = e.epochKey → e'.epochId.toInt ≤ e.epochId.toInt)) ∧
    ∀ c' ad', (∀ made' ∈ log, made'.ad = ad' → c' ≠ wire A made') →
      ∃ err, grDecrypt A log (rotations crypto reg calls) c' ad' = .error err := by
  constructor
  · obtain ⟨e, hcurrent, rfl, rfl⟩ := grEncrypt_cases henc
    obtain ⟨e', he', hid, hkey⟩ := @kept_rotations crypto _ _ calls (Table.mem_of_find? hcurrent)
    obtain ⟨last, hlast⟩ := keyEpoch_ne_none he' hkey
    obtain ⟨hmem, hsame, hmax⟩ := keyEpoch_eq_some hlast
    have hdec := @grDecrypt_wire A log (rotations crypto reg calls) _ hlog
    rw [hlast] at hdec
    refine ⟨e, last.epochId, hcurrent, hdec, ?_⟩
    constructor
    · intro heq e₁ he₁ hkey₁
      rw [← heq]
      exact hmax e₁ he₁ hkey₁
    · intro hall
      have hle := hmax e' he' hkey
      rw [hid] at hle
      exact BitVec.eq_of_toInt_eq (Int.le_antisymm (hall last hmem hsame) hle)
  · intro c' ad' hnever
    cases hdec : grDecrypt A log (rotations crypto reg calls) c' ad' with
    | error err => exact ⟨err, rfl⟩
    | ok r =>
      obtain ⟨made', hmade', had, hc⟩ := wire_of_grDecrypt hdec
      exact absurd hc (hnever made' hmade' had)

end Cipher

section SameKey

def plainAead : GroupAead where
  tagLen := 128
  sealed key _ _ plaintext := plaintext ++ key.val
  length_sealed key _ _ plaintext := by rw [List.length_append, key.length_eq]
  committing {key key' _ _ plaintext plaintext'} h := by
    obtain ⟨hplaintext, hkey⟩ := List.append_inj' h (by rw [key.length_eq, key'.length_eq])
    exact ⟨Bytes.ext hkey, hplaintext⟩
  tagLen_eq := rfl

def greeting : GroupSealing := ⟨zeroBytes 128, zeroBytes 16, [], ascii "hi"⟩

theorem grEncrypt_greeting : grEncrypt plainAead (signedGroup flatHash) (zeroBytes 16) (ascii "hi") [] 146 =
    .ok (wire plainAead greeting, greeting) := by
  rfl

theorem grDecrypt_grEncrypt_greeting :
    (∃ e last, epochGetCurrent (signedGroup flatHash) = some e ∧
      grDecrypt plainAead [greeting] (rotations (onlySigner flatHash (member 1)) (signedGroup flatHash)
        [(zeroBytes 128, member 1, ⟨3, 3000000⟩)]) (wire plainAead greeting) [] = .ok (ascii "hi", last) ∧
      (last = e.epochId ↔ ∀ e' ∈ (rotations (onlySigner flatHash (member 1)) (signedGroup flatHash)
        [(zeroBytes 128, member 1, ⟨3, 3000000⟩)]).epochs.rows,
          e'.epochKey = e.epochKey → e'.epochId.toInt ≤ e.epochId.toInt)) ∧
    ∀ c' ad', (∀ made' ∈ [greeting], made'.ad = ad' → c' ≠ wire plainAead made') →
      ∃ err, grDecrypt plainAead [greeting] (rotations (onlySigner flatHash (member 1)) (signedGroup flatHash)
        [(zeroBytes 128, member 1, ⟨3, 3000000⟩)]) c' ad' = .error err :=
  grDecrypt_grEncrypt [(zeroBytes 128, member 1, ⟨3, 3000000⟩)] grEncrypt_greeting (List.mem_singleton_self _)

theorem greeting_misdated :
    epochGetCurrent (signedGroup flatHash) = some (firstEpoch (member 1) (zeroBytes 128) 1) ∧
    epochRotate (onlySigner flatHash (member 1)) (signedGroup flatHash) (zeroBytes 128) (member 1) ⟨3, 3000000⟩ =
      .ok (rotatedGroup flatHash) ∧
    grDecrypt plainAead [greeting] (rotatedGroup flatHash) (wire plainAead greeting) [] = .ok (ascii "hi", 2) := by
  refine ⟨rfl, epochRotate_signedGroup, ?_⟩
  have hsecond : (⟨2, zeroBytes 128, 3, 0, (member 1).peerId⟩ : Epoch) ∈ (rotatedGroup flatHash).epochs.rows :=
    List.mem_cons_of_mem _ List.mem_cons_self
  obtain ⟨last, hlast⟩ := keyEpoch_ne_none hsecond rfl
  obtain ⟨hmem, -, hmax⟩ := keyEpoch_eq_some hlast
  have hid : last.epochId = 2 := by
    have hle := hmax _ hsecond rfl
    rcases List.mem_cons.mp hmem with rfl | hmem
    · exact absurd hle (by decide)
    · rw [List.mem_singleton.mp hmem]
  apply (@grDecrypt_wire plainAead [greeting] (rotatedGroup flatHash) greeting (List.mem_singleton_self _)).trans
  change orElse _ ((keyEpoch (rotatedGroup flatHash) (zeroBytes 128)).map _) = _
  rw [hlast, Option.map_some, hid]
  rfl

end SameKey

end YumiBrowser.Group
