import Mathlib.Data.List.Basic
import Mathlib.Data.Sym.Sym2

universe u v w

namespace Ideal

/-- A random value, by who drew it. -/
inductive Name (ι : Type u)
  | honest (i : ι) (n : ℕ)
  | adversary (n : ℕ)
  deriving DecidableEq

variable {ι : Type u}

/-- The adversary knows the values it drew itself, and no others. -/
def Name.Known : Name ι → Prop
  | honest _ _ => False
  | adversary _ => True

section Kem

/-- A ciphertext stands for the public key it is made for and the coins it is made with. -/
structure Ciphertext (ι : Type u) where
  publicKey : Name ι
  coins : Name ι
  deriving DecidableEq

/-- A shared secret. A key pair that is given a ciphertext of another one yields a secret of its
own, as implicit rejection does. -/
inductive Shared (ι : Type u)
  | agreed (publicKey coins : Name ι)
  | rejected (publicKey : Name ι) (ct : Ciphertext ι)
  deriving DecidableEq

def encaps (publicKey coins : Name ι) : Ciphertext ι × Shared ι :=
  (⟨publicKey, coins⟩, .agreed publicKey coins)

def decaps [DecidableEq ι] (key : Name ι) (ct : Ciphertext ι) : Shared ι :=
  if ct.publicKey = key then .agreed key ct.coins else .rejected key ct

def Shared.Known : Shared ι → Prop
  | agreed publicKey coins => publicKey.Known ∨ coins.Known
  | rejected publicKey _ => publicKey.Known

variable [DecidableEq ι]

@[simp] theorem decaps_encaps (key coins : Name ι) :
    decaps key (encaps key coins).1 = (encaps key coins).2 := if_pos rfl

theorem decaps_eq_agreed {key publicKey coins : Name ι} {ct : Ciphertext ι} :
    decaps key ct = .agreed publicKey coins ↔ key = publicKey ∧ ct = ⟨publicKey, coins⟩ := by
  unfold decaps
  constructor
  · intro h
    split at h
    · rename_i hkey
      obtain ⟨rfl, rfl⟩ := Shared.agreed.inj h
      exact ⟨rfl, by rw [← hkey]⟩
    · cases h
  · rintro ⟨rfl, rfl⟩
    exact if_pos rfl

end Kem

section Signatures

/-- A signature stands for the key it verifies under and what it is a signature of. -/
structure Signature (κ : Type v) (δ : Type w) where
  key : κ
  digest : δ
  deriving DecidableEq

variable {κ : Type v} {δ : Type w}

def Signature.Verifies (s : Signature κ δ) (digest : δ) (key : κ) : Prop :=
  s = ⟨key, digest⟩

instance [DecidableEq κ] [DecidableEq δ] (s : Signature κ δ) (digest : δ) (key : κ) :
    Decidable (s.Verifies digest key) := inferInstanceAs (Decidable (_ = _))

/-- What the adversary can show: signatures it was given, and those of keys it may own. -/
def Presentable (given : Signature κ δ → Prop) (honest : κ → Prop) (s : Signature κ δ) : Prop :=
  given s ∨ ¬ honest s.key

end Signatures

section Encryption

/-- An encryption that binds its ciphertexts to the key and to the plaintext. -/
structure Aead (κ : Type u) (ν : Type v) (β : Type w) where
  tagLen : ℕ
  sealed : κ → ν → List β → List β → List β
  length_sealed : ∀ k n ad p, (sealed k n ad p).length = p.length + tagLen
  committing : ∀ {k k' n ad p p'}, sealed k n ad p = sealed k' n ad p' → k = k' ∧ p = p'

/-- What has been encrypted once. -/
structure Sealing (κ : Type u) (ν : Type v) (β : Type w) where
  key : κ
  nonce : ν
  ad : List β
  plaintext : List β

namespace Aead

variable {κ : Type u} {ν : Type v} {β : Type w} [DecidableEq κ] [DecidableEq ν] [DecidableEq β]

def opened (A : Aead κ ν β) (log : List (Sealing κ ν β)) (k : κ) (n : ν) (ad c : List β) : Option (List β) :=
  (log.find? fun s => s.key = k ∧ s.nonce = n ∧ s.ad = ad ∧ A.sealed k n ad s.plaintext = c).map
    (·.plaintext)

variable {A : Aead κ ν β} {log : List (Sealing κ ν β)} {k k' : κ} {n : ν} {ad c p : List β}

theorem opened_eq_some : A.opened log k n ad c = some p ↔ ⟨k, n, ad, p⟩ ∈ log ∧ c = A.sealed k n ad p := by
  unfold opened
  constructor
  · intro h
    obtain ⟨s, hs, rfl⟩ := Option.map_eq_some_iff.mp h
    have hsame := List.find?_some hs
    obtain ⟨rfl, rfl, rfl, rfl⟩ := of_decide_eq_true hsame
    exact ⟨List.mem_of_find?_eq_some hs, rfl⟩
  · rintro ⟨hmem, rfl⟩
    cases hfind : log.find? fun s => s.key = k ∧ s.nonce = n ∧ s.ad = ad ∧
        A.sealed k n ad s.plaintext = A.sealed k n ad p with
    | none =>
      have hnone := List.find?_eq_none.mp hfind _ hmem
      exact absurd (decide_eq_true ⟨rfl, rfl, rfl, rfl⟩) hnone
    | some s =>
      have hsame := List.find?_some hfind
      obtain ⟨-, -, -, hbody⟩ := of_decide_eq_true hsame
      exact congrArg some (A.committing hbody).2

theorem opened_sealed (h : ⟨k, n, ad, p⟩ ∈ log) : A.opened log k n ad (A.sealed k n ad p) = some p :=
  opened_eq_some.mpr ⟨h, rfl⟩

theorem opened_other (h : k' ≠ k) : A.opened log k' n ad (A.sealed k n ad p) = none := by
  refine Option.eq_none_iff_forall_ne_some.mpr fun q hq => ?_
  exact h (A.committing (opened_eq_some.mp hq).2).1.symm

end Aead

end Encryption

end Ideal
