import YumiBrowser.Registrar.RoundTrip

namespace YumiBrowser.Group

open Wire Keyed

/-- The fields a header is signed over. -/
structure SameFields (h h' : Header) : Prop where
  groupId : h.groupId = h'.groupId
  groupType : h.groupType = h'.groupType
  groupName : h.groupName = h'.groupName
  version : h.version = h'.version
  createdAt : h.createdAt = h'.createdAt
  epochId : h.epochId = h'.epochId
  retention : h.retention = h'.retention
  ownerId : h.ownerId = h'.ownerId
  ownerSignKey : h.ownerSignKey = h'.ownerSignKey
  signerId : h.signerId = h'.signerId
  signerSignKey : h.signerSignKey = h'.signerSignKey

/-- `h` is the header of something that is accepted; the second header is the one it installs, if
it installs any. -/
inductive Carries (crypto : Crypto) : Header → Option Header → Prop
  | notNewer (hpre : (readPreamble crypto reg).run data = .ok ((ver, h), body))
      (hold : h.version ≤ reg.header.version) (hok : grDeserialize crypto reg data = .ok reg') :
      Carries crypto h none
  | installed (hpre : (readPreamble crypto reg).run data = .ok ((ver, h), body))
      (hnew : reg.header.version < h.version) (hok : grDeserialize crypto reg data = .ok reg') :
      Carries crypto h (some reg'.header)
  | delta (hread : (readDelta crypto reg).run data = .ok (d, rest)) (hstate : d.state = some s)
      (hok : applyDelta crypto reg data now = .ok r) : Carries crypto s.header none

/-- One hash, one signature and one key of the signer. -/
structure SameSeal (h h' : Header) : Prop where
  hash : h.hash = h'.hash
  signature : h.signature = h'.signature
  signer : h.signerSignKey = h'.signerSignKey

/-- Two accepted headers, and what they install, are the same but for what is not signed. -/
structure CarryAlike (h h' : Header) (new new' : Option Header) : Prop where
  carried : SameFields h h'
  installed : ∀ g ∈ new, ∀ g' ∈ new', SameFields g g'

/-- What `gr_verify` checks before the signature, and neither import does. -/
def Header.HashMatches (crypto : Crypto) (h : Header) : Prop := crypto.skein h.canonical = h.hash

section Canonical

def deCanonical : Reader Header := do
  let groupId ← readBytes 128
  let groupType ← readU32
  let groupName ← readStr 128
  let version ← readU32
  let createdAt ← readI64
  let epochId ← readU32
  let messageRetentionMs ← readI64
  let fileRetentionMs ← readI64
  let registrarMaxBytes ← readI64
  let ownerId ← readBytes 32
  let ownerSignKey ← readBytes 2592
  let signerId ← readBytes 32
  let signerSignKey ← readBytes 2592
  return { groupId, groupType, groupName, version, createdAt, epochId,
           retention := { messageRetentionMs, fileRetentionMs, registrarMaxBytes },
           ownerId, ownerSignKey, signerId, signerSignKey,
           updatedAt := 0, signature := zeroBytes 4627, hash := zeroBytes 128 }

theorem deCanonical_canonical (h : Header) (s : List Byte) : deCanonical.run (h.canonical ++ s) =
    some ({ h with updatedAt := 0, signature := zeroBytes 4627, hash := zeroBytes 128 }, s) := by
  simp only [Header.canonical, List.append_assoc, deCanonical, readBytes_bind, readName_bind,
    readU32_bind, readI64_bind]
  rfl

theorem canonical_eq_iff {h h' : Header} : h.canonical = h'.canonical ↔ SameFields h h' := by
  constructor
  · intro heq
    have hread := deCanonical_canonical h []
    rw [heq, deCanonical_canonical h'] at hread
    have hfields := (Prod.mk.inj (Option.some.inj hread)).1
    simp only [Header.mk.injEq, and_true, true_and] at hfields
    obtain ⟨h₁, h₂, h₃, h₄, h₅, h₆, h₇, h₈, h₉, h₁₀, h₁₁⟩ := hfields
    exact ⟨h₁.symm, h₂.symm, h₃.symm, h₄.symm, h₅.symm, h₆.symm, h₇.symm, h₈.symm, h₉.symm,
      h₁₀.symm, h₁₁.symm⟩
  · intro hsame
    simp only [Header.canonical, hsame.groupId, hsame.groupType, hsame.groupName, hsame.version,
      hsame.createdAt, hsame.epochId, hsame.retention, hsame.ownerId, hsame.ownerSignKey,
      hsame.signerId, hsame.signerSignKey]

end Canonical

section Carries

variable {crypto : Crypto} {h h' : Header} {new new' : Option Header}

theorem Carries.installs (hc : Carries crypto h new) : ∀ g ∈ new, g = h := by
  cases hc with
  | notNewer => exact nofun
  | delta => exact nofun
  | installed hpre hnew hok =>
    intro g hg
    obtain rfl := Option.some.inj hg
    obtain ⟨rest, htables⟩ := (grDeserialize_newer hpre hnew).mp hok
    obtain ⟨rows, _, _, hin⟩ := readTables_rows htables
    exact hin.header

theorem carryAlike_iff (hc : Carries crypto h new) (hc' : Carries crypto h' new') :
    CarryAlike h h' new new' ↔ SameFields h h' := by
  constructor
  · exact CarryAlike.carried
  · intro hsame
    refine ⟨hsame, ?_⟩
    intro g hg g' hg'
    rw [hc.installs g hg, hc'.installs g' hg']
    exact hsame

/-- Under one seal two headers are the same exactly when the check both
imports leave out comes out the same for both, and no two altered headers meet. The hash is ideal:
it does not collide on these two. -/
theorem carryAlike_iff_hashMatches (hc : Carries crypto h new) (hc' : Carries crypto h' new')
    (hseal : SameSeal h h')
    (hideal : crypto.skein h.canonical = crypto.skein h'.canonical → h.canonical = h'.canonical) :
    CarryAlike h h' new new' ↔ (h.HashMatches crypto ↔ h'.HashMatches crypto) ∧
      (¬ h.HashMatches crypto → h.canonical = h'.canonical) := by
  rw [carryAlike_iff hc hc', ← canonical_eq_iff]
  unfold Header.HashMatches
  constructor
  · intro heq
    rw [heq, hseal.hash]
    exact ⟨Iff.rfl, fun _ => rfl⟩
  · rintro ⟨hiff, halt⟩
    by_cases hm : crypto.skein h.canonical = h.hash
    · apply hideal
      rw [hm, hiff.mp hm, hseal.hash]
    · exact halt hm

end Carries

section Altered

def prefixHash (l : List Byte) : Hash :=
  ⟨(l ++ List.replicate 128 0).take 128, by simp⟩

theorem prefixHash_append (b : Hash) (l : List Byte) : prefixHash (b.val ++ l) = b := by
  apply Bytes.ext
  change (b.val ++ l ++ List.replicate 128 0).take 128 = b.val
  rw [List.append_assoc]
  exact List.take_left' b.length_eq

def ownersHeader : Header :=
  ({ initialHeader (onlySigner prefixHash (member 1)) (ascii "pair") groupPrivate (member 1) 1 with
    version := 2 }).signed (onlySigner prefixHash (member 1)) (member 1)

def alteredHeader : Header := { ownersHeader with groupId := Bytes.fill 128 7 }

def bare (h : Header) : Registrar where
  header := h
  peers := Table.empty
  roles := Table.empty
  webapps := Table.empty
  servers := Table.empty
  epochs := Table.empty
  auditLog := Table.empty
  untrusted := false
  deltaAnomaly := none

theorem bare_roundTrips (h : Header) (howner : h.ownerSignKey = (member 1).publicKey)
    (hsigner : h.signerSignKey = (member 1).publicKey) (hver : 1 < h.version) :
    RoundTrips (onlySigner prefixHash (member 1)) .full (bare h) (joining prefixHash) := by
  have hc : Counted (stateOf (bare h)) (bare h).auditLog.rows := by
    constructor <;> simp [stateOf, serverList, bare, Table.empty]
  refine roundTrips_of_portable hc howner hver ⟨by simp [onlySigner, bare, hsigner], ?_, ?_⟩
  · intro s hs
    cases hs
  · intro e he
    cases he

theorem bare_carries (h : Header) (howner : h.ownerSignKey = (member 1).publicKey)
    (hsigner : h.signerSignKey = (member 1).publicKey) (hver : 1 < h.version) :
    Carries (onlySigner prefixHash (member 1)) h (some h) := by
  obtain ⟨reg', hok, hsame⟩ := bare_roundTrips h howner hsigner hver
  have hpre : (readPreamble (onlySigner prefixHash (member 1)) (joining prefixHash)).run
      (grSerialize (bare h) .full) = .ok ((4, h), serTables (bare h) .full) :=
    readPreamble_grSerialize .full (by simp [onlySigner, bare, hsigner]) howner
  have hcarries := Carries.installed hpre hver hok
  rw [hsame.header] at hcarries
  exact hcarries

theorem ownersHeader_carries : Carries (onlySigner prefixHash (member 1)) ownersHeader (some ownersHeader) :=
  bare_carries ownersHeader rfl rfl (by decide : (1 : BitVec 32) < 2)

def restampedHeader : Header := { ownersHeader with updatedAt := 9 }

theorem restampedHeader_carries :
    Carries (onlySigner prefixHash (member 1)) restampedHeader (some restampedHeader) :=
  bare_carries restampedHeader rfl rfl (by decide : (1 : BitVec 32) < 2)

-- Two blobs that differ in what is not signed.
theorem carryAlike_iff_hashMatches_restamped : ownersHeader.updatedAt ≠ restampedHeader.updatedAt ∧
    CarryAlike ownersHeader restampedHeader (some ownersHeader) (some restampedHeader) := by
  refine ⟨by decide, ?_⟩
  have hsame : ownersHeader.canonical = restampedHeader.canonical := rfl
  refine (carryAlike_iff_hashMatches ownersHeader_carries restampedHeader_carries ⟨rfl, rfl, rfl⟩
    fun _ => hsame).mpr ⟨?_, fun _ => hsame⟩
  unfold Header.HashMatches
  rw [hsame]
  exact Iff.rfl

-- The owner's hash and signature, under the id of another group: both blobs are installed.
theorem altered_header_carried :
    ¬ ∀ (crypto : Crypto) (h h' : Header) (new new' : Option Header), Carries crypto h new →
      Carries crypto h' new' → SameSeal h h' →
      (crypto.skein h.canonical = crypto.skein h'.canonical → h.canonical = h'.canonical) →
      CarryAlike h h' new new' := by
  intro h
  have haltered := bare_carries alteredHeader rfl rfl (by decide : (1 : BitVec 32) < 2)
  have hfirst : ∀ h : Header, prefixHash h.canonical = h.groupId := by
    intro h
    simp only [Header.canonical, List.append_assoc]
    exact prefixHash_append h.groupId _
  have hgroup : ownersHeader.groupId ≠ alteredHeader.groupId := by
    intro heq
    have hone : ownersHeader.groupId.val.head? = some 1 := rfl
    have hseven : alteredHeader.groupId.val.head? = some 7 := rfl
    rw [heq, hseven] at hone
    exact absurd hone (by decide)
  have hideal : prefixHash ownersHeader.canonical = prefixHash alteredHeader.canonical →
      ownersHeader.canonical = alteredHeader.canonical := by
    intro heq
    rw [hfirst, hfirst] at heq
    exact absurd heq hgroup
  have hsame := h _ _ _ _ _ ownersHeader_carries haltered ⟨rfl, rfl, rfl⟩ hideal
  exact hgroup hsame.carried.groupId

end Altered

end YumiBrowser.Group
