import YumiBrowser.Registrar.Edits
import YumiBrowser.Registrar.DeltaAuthorization

namespace YumiBrowser.Group

open Wire Keyed Transition

def Registrar.epochView (reg : Registrar) : Table Epoch.epochId × BitVec 32 :=
  (reg.epochs, reg.header.epochId)

theorem Mutation.keeps_epochs (m : Mutation) (hm : ∀ newKey signer, m ≠ .epochRotate newKey signer)
    (crypto : Crypto) (reg : Registrar) (clk : Clock) :
    Keeps Registrar.epochView reg (m.run crypto reg clk) := by
  refine Mutation.keeps ⟨fun _ _ _ _ _ _ => rfl, fun _ _ => rfl⟩ fun mid hmid => ?_
  cases hmid with
  | epochRotated => exact absurd rfl (hm _ _)
  | _ => rfl

/-- What the epochs are for: the header names the newest one, all others are expired, and whoever
may rotate is not stopped by an epoch that is there already. -/
structure EpochCurrent (reg : Registrar) : Prop where
  newest : ∃ e, epochGetCurrent reg = some e ∧ ∀ e' ∈ reg.epochs.rows, e'.epochId ≤ e.epochId
  expired : ∀ e ∈ reg.epochs.rows, e.expiredAt = 0 ↔ e.epochId = reg.header.epochId
  rotates : ∀ crypto newKey signer clk, epochRotate crypto reg newKey signer clk ≠ .error .db

structure EpochsRun (v : Table Epoch.epochId × BitVec 32) : Prop where
  present : ∀ k, v.1.find? k ≠ none ↔ k ≠ 0 ∧ k ≤ v.2
  expired : ∀ k e, v.1.find? k = some e → (e.expiredAt = 0 ↔ k = v.2)
  nonzero : v.2 ≠ 0

def lastEpochId : BitVec 32 := 0xFFFFFFFF

/-- A rotation has an identifier left and a clock past zero, and a merge brings no epoch that the
replica does not have. -/
def AdoptsEpochs (crypto : Crypto) (s : Replicas ι) : ReplicaEvent ι → Prop
  | .mutate i (.epochRotate _ signer) clk =>
    (s.reg i).untrusted = false → checkPerm (s.reg i) signer Perm.rotateEpoch = true →
      (s.reg i).header.epochId ≠ lastEpochId ∧ clk.ms ≠ 0
  | .apply i data now => ∀ d, Accepts crypto (s.reg i) data now d → ∀ st ∈ d.state,
    ∀ e ∈ st.epochs, (s.reg i).epochs.find? e.epochId ≠ none
  | _ => True

section Rotation

variable {reg : Registrar} {crypto : Crypto}

theorem succ_free (h : EpochsRun reg.epochView) : reg.epochs.find? (reg.header.epochId + 1) = none := by
  by_contra hne
  obtain ⟨hzero, hle⟩ := (h.present _).mp hne
  have hle : reg.header.epochId + 1 ≤ reg.header.epochId := hle
  bv_omega

theorem rotate_ok (newKey : EpochKey) (signer : Identity) (clk : Clock)
    (hfree : reg.epochs.find? (reg.header.epochId + 1) = none) :
    ∃ epochs : Table Epoch.epochId, rotate reg newKey signer clk =
        .ok { reg with epochs, header := { reg.header with epochId := reg.header.epochId + 1 } } ∧
      epochs.find? = Function.update
        (fun k => (reg.epochs.find? k).map fun e =>
          if e.epochId = reg.header.epochId then { e with expiredAt := clk.ms } else e)
        (reg.header.epochId + 1)
        (some ⟨reg.header.epochId + 1, newKey, clk.ms, 0, signer.peerId⟩) := by
  let expired := reg.epochs.modify (fun e => e.epochId = reg.header.epochId)
    (fun e => { e with expiredAt := clk.ms }) fun _ => rfl
  let row : Epoch := ⟨reg.header.epochId + 1, newKey, clk.ms, 0, signer.peerId⟩
  have hfree' : expired.find? row.epochId = none := by
    rw [Table.find?_modify, hfree]
    rfl
  have hrow := Table.insertIgnore_of_free hfree'
  refine ⟨expired.insertIgnore row, map_orElse_eq_ok.mpr ⟨_, hrow, rfl⟩, ?_⟩
  rw [Table.find?_insert? hrow]
  congr 1
  funext k
  simp [expired, Table.find?_modify]

theorem epochsRun_rotated (h : EpochsRun reg.epochView)
    (hrot : rotate reg newKey signer clk = .ok reg') :
    EpochsRun reg'.epochView ↔ reg.header.epochId ≠ lastEpochId ∧ clk.ms ≠ 0 := by
  obtain ⟨epochs, hok, hfind⟩ := rotate_ok newKey signer clk (succ_free h)
  rw [hok] at hrot
  obtain rfl := Except.ok.inj hrot
  have hcur : reg.epochs.find? reg.header.epochId ≠ none :=
    (h.present _).mpr ⟨h.nonzero, BitVec.le_refl _⟩
  have hne : reg.header.epochId ≠ reg.header.epochId + 1 := by bv_omega
  constructor
  · intro h'
    constructor
    · intro hlast
      apply h'.nonzero
      simp [Registrar.epochView, hlast, lastEpochId]
    · intro hclock
      obtain ⟨e, he⟩ := Option.ne_none_iff_exists'.mp hcur
      have hkey := Table.key_of_find? he
      have hold : epochs.find? reg.header.epochId = some { e with expiredAt := clk.ms } := by
        rw [hfind, Function.update_of_ne hne, he]
        simp [hkey]
      exact hne ((h'.expired _ _ hold).mp hclock)
  · rintro ⟨hlast, hclock⟩
    have hbound : reg.header.epochId.toNat ≠ 2 ^ 32 - 1 := by
      intro hmax
      exact hlast (BitVec.eq_of_toNat_eq hmax)
    constructor
    · intro k
      change epochs.find? k ≠ none ↔ k ≠ 0 ∧ k ≤ reg.header.epochId + 1
      rw [hfind]
      by_cases hk : k = reg.header.epochId + 1
      · subst hk
        rw [Function.update_self]
        refine ⟨fun _ => ⟨?_, BitVec.le_refl _⟩, fun _ => Option.some_ne_none _⟩
        bv_omega
      · rw [Function.update_of_ne hk, ne_eq, Option.map_eq_none_iff]
        apply (h.present k).trans
        change k ≠ 0 ∧ k ≤ reg.header.epochId ↔ _
        refine and_congr_right fun _ => ?_
        constructor
        · intro hle
          bv_omega
        · intro hle
          bv_omega
    · intro k e he
      change e.expiredAt = 0 ↔ k = reg.header.epochId + 1
      have he : epochs.find? k = some e := he
      rw [hfind] at he
      by_cases hk : k = reg.header.epochId + 1
      · subst hk
        rw [Function.update_self] at he
        obtain rfl := Option.some.inj he
        exact ⟨fun _ => rfl, fun _ => rfl⟩
      · rw [Function.update_of_ne hk] at he
        obtain ⟨e', he', rfl⟩ := Option.map_eq_some_iff.mp he
        refine ⟨?_, fun hk' => absurd hk' hk⟩
        have hkey := Table.key_of_find? he'
        split
        · intro hexp
          exact absurd hexp hclock
        · rename_i hother
          intro hexp
          have := (h.expired k e' he').mp hexp
          exact absurd (hkey.trans this) hother
    · change reg.header.epochId + 1 ≠ 0
      bv_omega

theorem EpochsRun.current (h : EpochsRun reg.epochView) : EpochCurrent reg := by
  constructor
  · have hcur : reg.epochs.find? reg.header.epochId ≠ none :=
      (h.present _).mpr ⟨h.nonzero, BitVec.le_refl _⟩
    obtain ⟨e, he⟩ := Option.ne_none_iff_exists'.mp hcur
    refine ⟨e, he, ?_⟩
    intro e' he'
    rw [Table.key_of_find? he]
    have hfind : reg.epochs.find? e'.epochId ≠ none := by
      rw [Table.find?_of_mem he']
      nofun
    exact ((h.present _).mp hfind).2
  · intro e he
    exact h.expired _ e (Table.find?_of_mem he)
  · intro crypto newKey signer clk hdb
    obtain ⟨epochs, hok, _⟩ := rotate_ok newKey signer clk (succ_free h)
    rw [epochRotate, hok, mutate] at hdb
    split at hdb
    · cases hdb
    · split at hdb
      · cases hdb
      · cases hdb

theorem epochsRun_merged (h : EpochsRun reg.epochView) (d : Delta) :
    EpochsRun (cutLog (mergeDelta crypto reg d).1 (mergeDelta crypto reg d).2).epochView ↔
      ∀ st ∈ d.state, ∀ e ∈ st.epochs, reg.epochs.find? e.epochId ≠ none := by
  have hview : (cutLog (mergeDelta crypto reg d).1 (mergeDelta crypto reg d).2).epochView =
      ((mergeStateOf reg d.state).epochs, reg.header.epochId) := by
    simp [Registrar.epochView, mergeDelta]
  rw [hview]
  cases d.state with
  | none => exact ⟨fun _ => nofun, fun _ => h⟩
  | some st =>
    have hfind := @find?_epochs_mergeTables reg st
    simp only [Option.mem_some_iff, forall_eq', mergeStateOf]
    constructor
    · intro h' e he
      apply (h.present e.epochId).mpr
      apply (h'.present e.epochId).mp
      change (mergeTables reg st).epochs.find? e.epochId ≠ none
      rw [hfind, ne_eq, Option.or_eq_none_iff]
      rintro ⟨_, hnone⟩
      simpa using List.find?_eq_none.mp hnone e he
    · intro hpresent
      have hsame : (mergeTables reg st).epochs.find? = reg.epochs.find? := by
        funext k
        rw [hfind]
        cases hk : reg.epochs.find? k with
        | some e => rfl
        | none =>
          rw [Option.none_or, List.find?_eq_none]
          intro e he hkey
          rw [← of_decide_eq_true hkey] at hk
          exact hpresent e he hk
      constructor
      · intro k
        change (mergeTables reg st).epochs.find? k ≠ none ↔ _
        rw [hsame]
        exact h.present k
      · intro k e he
        have he : (mergeTables reg st).epochs.find? k = some e := he
        rw [hsame] at he
        exact h.expired k e he
      · exact h.nonzero

end Rotation

variable {ι : Type} [DecidableEq ι] {crypto : Crypto} {s t : Replicas ι}

theorem forall_update_iff {P : Registrar → Prop} {regs : ι → Registrar} {i : ι} {reg : Registrar}
    (h : ∀ j, P (regs j)) : (∀ j, P (Function.update regs i reg j)) ↔ P reg := by
  constructor
  · intro h'
    simpa using h' i
  · intro hreg j
    by_cases hj : j = i
    · subst hj
      simpa using hreg
    · simpa [hj] using h j

omit [DecidableEq ι] in
theorem adopts_mutate (i : ι) (m : Mutation) (clk : Clock)
    (hm : ∀ newKey signer, m ≠ .epochRotate newKey signer) : AdoptsEpochs crypto s (.mutate i m clk) := by
  cases m with
  | epochRotate newKey signer => exact absurd rfl (hm newKey signer)
  | _ => exact trivial

theorem epochsRun_adopt_iff {i : ι} {r : Except GrError Registrar}
    (h : ∀ j, EpochsRun (s.reg j).epochView) : (∀ j, EpochsRun ((s.adopt i r).reg j).epochView) ↔
      ∀ reg', r = .ok reg' → EpochsRun reg'.epochView := by
  cases r with
  | error e => exact ⟨fun _ => nofun, fun _ => h⟩
  | ok reg' =>
    refine (forall_update_iff (P := fun reg => EpochsRun reg.epochView) h).trans ?_
    constructor
    · rintro hreg' _ ⟨⟩
      exact hreg'
    · exact fun hall => hall reg' rfl

theorem epochsRun_next_iff (e : ReplicaEvent ι) (h : ∀ j, EpochsRun (s.reg j).epochView) :
    (∀ j, EpochsRun ((s.next crypto e).reg j).epochView) ↔ AdoptsEpochs crypto s e := by
  cases e with
  | serialize i since => exact ⟨fun _ => trivial, fun _ => h⟩
  | apply i data now =>
    apply (epochsRun_adopt_iff h).trans
    constructor
    · intro hall d hacc
      exact (epochsRun_merged (h i) d).mp (hall _ (applyDelta_fst_eq_ok.mpr ⟨d, hacc, rfl⟩))
    · intro hcond reg' hreg'
      obtain ⟨d, hacc, rfl⟩ := applyDelta_fst_eq_ok.mp hreg'
      exact (epochsRun_merged (h i) d).mpr (hcond d hacc)
  | mutate i m clk =>
    apply (epochsRun_adopt_iff h).trans
    by_cases hm : ∀ newKey signer, m ≠ .epochRotate newKey signer
    · refine ⟨fun _ => adopts_mutate i m clk hm, ?_⟩
      intro _ reg' hreg'
      rw [m.keeps_epochs hm crypto (s.reg i) clk reg' hreg']
      exact h i
    · push Not at hm
      obtain ⟨newKey, signer, rfl⟩ := hm
      constructor
      · intro hall htrusted hperm
        obtain ⟨epochs, hok, _⟩ := rotate_ok newKey signer clk (succ_free (h i))
        have hafter := hall _ (mutate_eq_ok.mpr ⟨htrusted, hperm, _, hok, rfl⟩)
        exact (epochsRun_rotated (h i) hok).mp hafter
      · intro hcond reg' hreg'
        obtain ⟨htrusted, hperm, mid, hrot, rfl⟩ := mutate_eq_ok.mp hreg'
        exact (epochsRun_rotated (h i) hrot).mpr (hcond htrusted hperm)

/-- Every replica starts from the registrar that `gr_create` made. -/
def FromCreate (crypto : Crypto) (start : ι → Registrar) : Prop :=
  ∃ groupName groupType owner epochKey clk reg,
    grCreate crypto groupName groupType owner epochKey clk = .ok reg ∧ start = fun _ => reg

theorem epochsRun_create (h : grCreate crypto groupName groupType owner epochKey clk = .ok reg) :
    EpochsRun reg.epochView := by
  rw [grCreate_cases h]
  have hfind : (Table.empty.upsert (firstEpoch owner epochKey clk.ms) :
      Table Epoch.epochId).find? = Function.update (fun _ => none) 1
        (some (firstEpoch owner epochKey clk.ms)) := Table.find?_upsert
  constructor
  · intro k
    change (Table.empty.upsert (firstEpoch owner epochKey clk.ms) : Table Epoch.epochId).find? k
      ≠ none ↔ k ≠ 0 ∧ k ≤ 1
    rw [hfind]
    by_cases hk : k = 1
    · subst hk
      simp
    · rw [Function.update_of_ne hk]
      refine ⟨fun hne => absurd rfl hne, ?_⟩
      rintro ⟨hzero, hle⟩
      bv_omega
  · intro k e he
    have he : (Table.empty.upsert (firstEpoch owner epochKey clk.ms) :
      Table Epoch.epochId).find? k = some e := he
    change e.expiredAt = 0 ↔ k = 1
    rw [hfind] at he
    by_cases hk : k = 1
    · subst hk
      rw [Function.update_self] at he
      obtain rfl := Option.some.inj he
      exact ⟨fun _ => rfl, fun _ => rfl⟩
    · rw [Function.update_of_ne hk] at he
      cases he
  · change (1 : BitVec 32) ≠ 0
    decide

/-- As long as no merge brings an epoch of another replica, the header names the newest one. -/
theorem epoch_current_of_adopts (i : ι) (h : ((replicaSystem crypto (FromCreate crypto)
      fun _ => True).restrict (AdoptsEpochs crypto)).Reachable s) : EpochCurrent (s.reg i) := by
  have hrun : ∀ j, EpochsRun (s.reg j).epochView := by
    apply System.Reachable.invariant _ _ h
    · rintro s ⟨⟨_, _, _, _, _, reg, hreg, hstart⟩, _⟩ j
      rw [hstart]
      exact epochsRun_create hreg
    · rintro s e t _ hs ⟨hcond, _, rfl⟩
      exact (epochsRun_next_iff e hs).mpr hcond
  exact (hrun i).current

section Stale

variable {skein : List Byte → Hash}

def createdGroup (skein : List Byte → Hash) : Registrar :=
  auditAppend (onlySigner skein (member 1))
    (founded (onlySigner skein (member 1)) (ascii "pair") groupPrivate (member 1) (zeroBytes 128) 1)
    .peerAdded (member 1) (some (member 1).peerId) (ascii "group created") 1000000

def signedGroup (skein : List Byte → Hash) : Registrar :=
  let reg := auditAppend (onlySigner skein (member 1)) (createdGroup skein) .registrarSigned
    (member 1) none (ascii "registrar signed") 2000000
  { reg with header := reg.header.signed (onlySigner skein (member 1)) (member 1) }

def rotatedEpochs : Table Epoch.epochId where
  rows := [{ firstEpoch (member 1) (zeroBytes 128) 1 with expiredAt := 3 },
    ⟨2, zeroBytes 128, 3, 0, (member 1).peerId⟩]
  nodup := by decide

def rotatedGroup (skein : List Byte → Hash) : Registrar :=
  auditAppend (onlySigner skein (member 1))
    { signedGroup skein with
      epochs := rotatedEpochs, header := { (signedGroup skein).header with epochId := 2 } }
    .epochRotated (member 1) none (ascii "epoch rotated to " ++ decimal 2) 3000000

def rotatedTo (skein : List Byte → Hash) (key : EpochKey) : Registrar :=
  auditAppend (onlySigner skein (member 1))
    { signedGroup skein with
      epochs :=
        { rows := [{ firstEpoch (member 1) (zeroBytes 128) 1 with expiredAt := 3 },
            ⟨2, key, 3, 0, (member 1).peerId⟩]
          nodup := rotatedEpochs.nodup }
      header := { (signedGroup skein).header with epochId := 2 } }
    .epochRotated (member 1) none (ascii "epoch rotated to " ++ decimal 2) 3000000

def rotatedTwiceEpochs : Table Epoch.epochId where
  rows := [{ firstEpoch (member 1) (zeroBytes 128) 1 with expiredAt := 3 },
    ⟨2, zeroBytes 128, 3, 4, (member 1).peerId⟩, ⟨3, zeroBytes 128, 4, 0, (member 1).peerId⟩]
  nodup := by decide

def rotatedTwice (skein : List Byte → Hash) : Registrar :=
  auditAppend (onlySigner skein (member 1))
    { rotatedGroup skein with
      epochs := rotatedTwiceEpochs, header := { (rotatedGroup skein).header with epochId := 3 } }
    .epochRotated (member 1) none (ascii "epoch rotated to " ++ decimal 3) 4000000

theorem grCreate_createdGroup : grCreate (onlySigner skein (member 1)) (ascii "pair") groupPrivate
    (member 1) (zeroBytes 128) ⟨1, 1000000⟩ = .ok (createdGroup skein) := by
  rfl

theorem grSign_createdGroup : grSign (onlySigner skein (member 1)) (createdGroup skein) (member 1)
    ⟨2, 2000000⟩ = .ok (signedGroup skein) := by
  rw [grSign, mutate_eq_ok.mpr ⟨rfl, checkPerm_owner rfl (by decide), _, rfl, rfl⟩]
  rfl

theorem epochRotate_to (key : EpochKey) : epochRotate (onlySigner skein (member 1)) (signedGroup skein)
    key (member 1) ⟨3, 3000000⟩ = .ok (rotatedTo skein key) := by
  refine mutate_eq_ok.mpr ⟨rfl, checkPerm_owner rfl (by decide), _, ?_, rfl⟩
  rfl

theorem epochRotate_signedGroup : epochRotate (onlySigner skein (member 1)) (signedGroup skein)
    (zeroBytes 128) (member 1) ⟨3, 3000000⟩ = .ok (rotatedGroup skein) := epochRotate_to (zeroBytes 128)

theorem epochRotate_rotatedGroup : epochRotate (onlySigner skein (member 1)) (rotatedGroup skein)
    (zeroBytes 128) (member 1) ⟨4, 4000000⟩ = .ok (rotatedTwice skein) := by
  refine mutate_eq_ok.mpr ⟨rfl, checkPerm_owner rfl (by decide), _, ?_, rfl⟩
  rfl

theorem length_rotatedTo_le (key : EpochKey) : (rotatedTo skein key).auditLog.rows.length ≤ 3 := by
  have hcreated : (createdGroup skein).auditLog.rows.length ≤ 1 := length_auditAppend_le
  have hsigned : (signedGroup skein).auditLog.rows.length ≤
      (createdGroup skein).auditLog.rows.length + 1 := length_auditAppend_le
  have hrotated : (rotatedTo skein key).auditLog.rows.length ≤
      (signedGroup skein).auditLog.rows.length + 1 := length_auditAppend_le
  omega

theorem length_auditDelta_rotatedTo (key : EpochKey) :
    (auditDelta (rotatedTo skein key) 0).length ≤ 3 := by
  rw [auditDelta, List.length_mergeSort]
  exact (List.length_filter_le ..).trans (length_rotatedTo_le key)

theorem length_state_rotatedTo (key : EpochKey) : (stateOf (rotatedTo skein key)).peers.length = 1 ∧
    (stateOf (rotatedTo skein key)).roles.length = 0 ∧
    (stateOf (rotatedTo skein key)).epochs.length = 2 := by
  refine ⟨rfl, ?_, ?_⟩
  · rw [stateOf, List.length_mergeSort]
    rfl
  · rw [stateOf, List.length_mergeSort]
    rfl

theorem counted_rotatedTo (key : EpochKey) :
    Counted (stateOf (rotatedTo skein key)) (auditDelta (rotatedTo skein key) 0) := by
  obtain ⟨hpeers, hroles, hepochs⟩ := @length_state_rotatedTo skein key
  constructor
  · simp [hpeers]
  · simp [hroles]
  · exact Nat.two_pow_pos 32
  · exact Nat.two_pow_pos 32
  · exact Nat.two_pow_pos 32
  · simp [hepochs]
  · exact (length_auditDelta_rotatedTo key).trans_lt (by decide)

/-- A delta of one peer, few epochs and few entries, whose header the owner signed. -/
theorem small_accepted {sender : Registrar} {since : BitVec 32} (now : I64)
    (hpeers : (stateOf sender).peers.length = 1) (hroles : (stateOf sender).roles.length = 0)
    (hepochs : (stateOf sender).epochs.length ≤ 2) (hentries : (auditDelta sender since).length ≤ 3)
    (hwebapps : (stateOf sender).webapps = []) (hsignaling : (stateOf sender).signaling = [])
    (hrebroadcast : (stateOf sender).rebroadcast = [])
    (hsigner : (stateOf sender).header.signerSignKey = (member 1).publicKey)
    (howner : sender.header.ownerSignKey = reg.header.ownerSignKey) :
    Accepts (onlySigner skein (member 1)) reg (serializeDelta sender since) now
      ⟨since, some (stateOf sender).received, auditDelta sender since⟩ := by
  have hlen := length_writeDelta_le since (stateOf sender) (auditDelta sender since)
    hwebapps hsignaling hrebroadcast
  rw [hpeers, hroles] at hlen
  refine ⟨tooLarge_of_le (hlen.trans ?_), [], readDelta_writeDelta since ?_ ?_ howner⟩
  · unfold deltaMaxBytes
    omega
  · constructor
    · simp [hpeers]
    · simp [hroles]
    · simp [hwebapps]
    · simp [hsignaling]
    · simp [hrebroadcast]
    · exact hepochs.trans_lt (by decide)
    · exact hentries.trans_lt (by decide)
  · simp [onlySigner, hsigner]

theorem rotatedTo_accepted (key : EpochKey) (now : I64)
    (howner : reg.header.ownerSignKey = (member 1).publicKey) :
    Accepts (onlySigner skein (member 1)) reg (serializeDelta (rotatedTo skein key) 0) now
      ⟨0, some (stateOf (rotatedTo skein key)).received, auditDelta (rotatedTo skein key) 0⟩ := by
  obtain ⟨hpeers, hroles, hepochs⟩ := @length_state_rotatedTo skein key
  exact small_accepted now hpeers hroles hepochs.le (length_auditDelta_rotatedTo key) rfl rfl rfl rfl howner.symm

theorem length_epochs_signedGroup : (stateOf (signedGroup skein)).epochs.length = 1 := by
  rw [stateOf, List.length_mergeSort]
  rfl

theorem signedGroup_accepted (since : BitVec 32) (now : I64)
    (howner : reg.header.ownerSignKey = (member 1).publicKey) :
    Accepts (onlySigner skein (member 1)) reg (serializeDelta (signedGroup skein) since) now
      ⟨since, some (stateOf (signedGroup skein)).received, auditDelta (signedGroup skein) since⟩ := by
  have hroles : (stateOf (signedGroup skein)).roles.length = 0 := by
    rw [stateOf, List.length_mergeSort]
    rfl
  have hentries : (auditDelta (signedGroup skein) since).length ≤ 3 := by
    rw [auditDelta, List.length_mergeSort]
    refine (List.length_filter_le ..).trans ?_
    have hsigned : (signedGroup skein).auditLog.rows.length ≤
        (createdGroup skein).auditLog.rows.length + 1 := length_auditAppend_le
    have hcreated : (createdGroup skein).auditLog.rows.length ≤ 1 := length_auditAppend_le
    omega
  exact small_accepted now rfl hroles (length_epochs_signedGroup.trans_le (by decide)) hentries rfl rfl rfl rfl
    howner.symm

def rotatedDelta (skein : List Byte → Hash) : Delta :=
  ⟨0, some (stateOf (rotatedGroup skein)).received, auditDelta (rotatedGroup skein) 0⟩

theorem rotated_accepted : Accepts (onlySigner skein (member 1)) (createdGroup skein)
    (serializeDelta (rotatedGroup skein) 0) 4 (rotatedDelta skein) :=
  rotatedTo_accepted (zeroBytes 128) 4 rfl

theorem rotated_merged :
    ¬ EpochCurrent (cutLog (mergeDelta crypto (createdGroup skein) (rotatedDelta skein)).1
      (mergeDelta crypto (createdGroup skein) (rotatedDelta skein)).2) := by
  intro h
  obtain ⟨e, he, hmax⟩ := h.newest
  have hkey : e.epochId = 1 := by
    rw [Table.key_of_find? he, header_cutLog]
    rfl
  have hnew : (mergeTables (createdGroup skein) (stateOf (rotatedGroup skein)).received).epochs.find? 2 ≠
      none := by
    rw [find?_epochs_mergeTables, ne_eq, Option.or_eq_none_iff, List.find?_eq_none]
    rintro ⟨_, hnone⟩
    refine hnone ⟨2, zeroBytes 128, 3, 0, (member 1).peerId⟩ ?_ (decide_eq_true rfl)
    exact List.mem_mergeSort.mpr (List.mem_cons_of_mem _ List.mem_cons_self)
  obtain ⟨row, hrow⟩ := Option.ne_none_iff_exists'.mp hnew
  have hmem : row ∈ (cutLog (mergeDelta crypto (createdGroup skein) (rotatedDelta skein)).1
      (mergeDelta crypto (createdGroup skein) (rotatedDelta skein)).2).epochs.rows := by
    rw [epochs_cutLog]
    exact Table.mem_of_find? hrow
  have hle := hmax row hmem
  rw [hkey, Table.key_of_find? hrow] at hle
  exact absurd hle (by decide)

def signEvent : ReplicaEvent Bool := .mutate true (.sign (member 1)) ⟨2, 2000000⟩

def rotateEvent : ReplicaEvent Bool :=
  .mutate true (.epochRotate (zeroBytes 128) (member 1)) ⟨3, 3000000⟩

def createdPair (skein : List Byte → Hash) : Replicas Bool := ⟨fun _ => createdGroup skein, []⟩

theorem reg_next_signEvent : ((createdPair skein).next (onlySigner skein (member 1)) signEvent).reg =
    Function.update (fun _ => createdGroup skein) true (signedGroup skein) :=
  next_mutate_ok grSign_createdGroup

def signedDelta (skein : List Byte → Hash) : List Byte := serializeDelta (signedGroup skein) 0

/-- The owner signs, the other replica merges that, and the owner rotates. -/
def mergedReplicas (skein : List Byte → Hash) : Replicas Bool :=
  let crypto := onlySigner skein (member 1)
  (((createdPair skein).next crypto signEvent).next crypto (.serialize true 0)).next crypto
    (.apply false (signedDelta skein) 4)

theorem mergedReplicas_owner : (mergedReplicas skein).reg true = signedGroup skein := by
  unfold mergedReplicas
  dsimp only
  rcases reg_next_apply (onlySigner skein (member 1)) (((createdPair skein).next (onlySigner skein (member 1))
    signEvent).next (onlySigner skein (member 1)) (.serialize true 0)) false true (signedDelta skein) 4 with
    hsame | ⟨hfalse, _⟩
  · rw [hsame]
    change ((createdPair skein).next (onlySigner skein (member 1)) signEvent).reg true = _
    rw [reg_next_signEvent, Function.update_self]
  · cases hfalse

theorem signed_known {st : DeltaState} (hst : st = (stateOf (signedGroup skein)).received) :
    ∀ e ∈ st.epochs, (createdGroup skein).epochs.find? e.epochId ≠ none := by
  subst hst
  intro e he
  have hmem : e ∈ [firstEpoch (member 1) (zeroBytes 128) 1] := List.mem_mergeSort.mp he
  rw [List.mem_singleton.mp hmem]
  exact Option.some_ne_none (firstEpoch (member 1) (zeroBytes 128) 1)

theorem epoch_current_of_adopts_merged :
    EpochCurrent (((mergedReplicas flatHash).next (onlySigner flatHash (member 1)) rotateEvent).reg true) ∧
      EpochCurrent (((mergedReplicas flatHash).next (onlySigner flatHash (member 1)) rotateEvent).reg false) := by
  let crypto := onlySigner flatHash (member 1)
  let S : System (Replicas Bool) (ReplicaEvent Bool) :=
    (replicaSystem crypto (FromCreate crypto) fun _ => True).restrict (AdoptsEpochs crypto)
  let s₁ := (createdPair flatHash).next crypto signEvent
  let s₂ := s₁.next crypto (.serialize true 0)
  have hinit : S.init (createdPair flatHash) := ⟨⟨_, _, _, _, _, _, grCreate_createdGroup, rfl⟩, rfl⟩
  have hsign : S.step (createdPair flatHash) signEvent s₁ := ⟨trivial, trivial, rfl⟩
  have hserialize : S.step s₁ (.serialize true 0) s₂ := ⟨trivial, trivial, rfl⟩
  have hdelta : signedDelta flatHash ∈ s₂.deltas := by
    have hsigned : s₁.reg true = signedGroup flatHash := by rw [reg_next_signEvent, Function.update_self]
    rw [signedDelta, ← hsigned]
    exact List.mem_cons_self
  have hknown : AdoptsEpochs crypto s₂ (.apply false (signedDelta flatHash) 4) := by
    have hcreated : s₂.reg false = createdGroup flatHash := by
      change s₁.reg false = _
      rw [reg_next_signEvent, Function.update_of_ne (by decide)]
    intro d hacc st hst
    rw [hcreated] at hacc ⊢
    rw [hacc.unique (signedGroup_accepted 0 4 rfl)] at hst
    exact signed_known (Option.some.inj hst).symm
  have happly : S.step s₂ (.apply false (signedDelta flatHash) 4) (mergedReplicas flatHash) := ⟨hknown, hdelta, rfl⟩
  have hadopts : AdoptsEpochs crypto (mergedReplicas flatHash) rotateEvent := by
    intro _ _
    rw [mergedReplicas_owner]
    exact ⟨(by decide : (1 : BitVec 32) ≠ lastEpochId), by decide⟩
  have hrotate : S.step (mergedReplicas flatHash) rotateEvent ((mergedReplicas flatHash).next crypto rotateEvent) :=
    ⟨hadopts, trivial, rfl⟩
  have hreach : S.Reachable ((mergedReplicas flatHash).next crypto rotateEvent) :=
    .step (.step (.step (.step (.init hinit) hsign) hserialize) happly) hrotate
  exact ⟨epoch_current_of_adopts true hreach, epoch_current_of_adopts false hreach⟩

-- A delta carries the epoch a replica rotated to, but its receiver keeps the header it has.
theorem epoch_not_adopted :
    ¬ ∃ skein : List Byte → Hash, ∀ (crypto : Crypto) (s : Replicas Bool) (i : Bool),
      crypto.skein = skein →
      (replicaSystem crypto (FromCreate crypto) fun _ => True).Reachable s →
      EpochCurrent (s.reg i) := by
  rintro ⟨skein, h⟩
  let crypto := onlySigner skein (member 1)
  let S : System (Replicas Bool) (ReplicaEvent Bool) :=
    replicaSystem crypto (FromCreate crypto) fun _ => True
  let s₁ := (createdPair skein).next crypto signEvent
  let s₂ := s₁.next crypto rotateEvent
  let s₃ := s₂.next crypto (.serialize true 0)
  let s₄ := s₃.next crypto (.apply false (serializeDelta (rotatedGroup skein) 0) 4)
  have hs₁ : s₁.reg = Function.update (fun _ => createdGroup skein) true (signedGroup skein) :=
    reg_next_signEvent
  have hs₂ : s₂.reg = Function.update s₁.reg true (rotatedGroup skein) := by
    apply next_mutate_ok
    rw [hs₁, Function.update_self]
    exact epochRotate_signedGroup
  have hrotated : s₂.reg true = rotatedGroup skein := by
    rw [hs₂, Function.update_self]
  have hcreated : s₃.reg false = createdGroup skein := by
    change s₂.reg false = _
    rw [hs₂, Function.update_of_ne (by decide), hs₁, Function.update_of_ne (by decide)]
  have hdelta : serializeDelta (rotatedGroup skein) 0 ∈ s₃.deltas := by
    rw [← hrotated]
    exact List.mem_cons_self
  have hinit : S.init (createdPair skein) := ⟨⟨_, _, _, _, _, _, grCreate_createdGroup, rfl⟩, rfl⟩
  have hsign : S.step (createdPair skein) signEvent s₁ := ⟨trivial, rfl⟩
  have hrotate : S.step s₁ rotateEvent s₂ := ⟨trivial, rfl⟩
  have hserialize : S.step s₂ (.serialize true 0) s₃ := ⟨trivial, rfl⟩
  have happly : S.step s₃ (.apply false (serializeDelta (rotatedGroup skein) 0) 4) s₄ := ⟨hdelta, rfl⟩
  have hreach : S.Reachable s₄ := .step (.step (.step (.step (.init hinit) hsign) hrotate)
    hserialize) happly
  have hstale : ¬ EpochCurrent (s₄.reg false) := by
    rw [next_apply_ok hcreated rotated_accepted]
    exact rotated_merged
  exact hstale (h crypto s₄ false rfl hreach)

end Stale

end YumiBrowser.Group
