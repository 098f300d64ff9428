import YumiBrowser.Registrar.ChainVerification

namespace YumiBrowser.Group

open Wire Keyed

/-- An entry that a merge verifies and stores. -/
def TakesIn (crypto : Crypto) (reg : Registrar) (data : List Byte) (now : I64) (e : AuditEntry) :
    Prop :=
  ∃ d, Accepts crypto reg data now d ∧ e ∈ (mergeEntries crypto reg d).inserted

/-- The same entry, whoever's copy of the signature it carries. -/
def AuditEntry.Same (a b : AuditEntry) : Prop := { a with signature := b.signature } = b

section Content

variable {crypto : Crypto} {reg reg' : Registrar} {data data' : List Byte} {now now' : I64}
  {a b e : AuditEntry}

theorem AuditEntry.same_iff :
    a.Same b ↔ a.entryHash = b.entryHash ∧ a.Alike b ∧ a.timestampNs = b.timestampNs := by
  constructor
  · intro h
    have hfield : ∀ {β : Type} (f : AuditEntry → β), f { a with signature := b.signature } = f b :=
      fun f => congrArg f h
    refine ⟨hfield (·.entryHash), ?_, hfield (·.timestampNs)⟩
    exact
      { prevHash := hfield (·.prevHash)
        timestamp := hfield (·.timestamp)
        changeType := hfield (·.changeType)
        actorId := hfield (·.actorId)
        targetId := hfield (·.targetId)
        registrarVersion := hfield (·.registrarVersion)
        detail := hfield (·.detail) }
  · rintro ⟨hhash, halike, hns⟩
    cases b
    simp only [AuditEntry.Same, AuditEntry.mk.injEq]
    exact ⟨hhash, halike.timestamp, hns, halike.changeType, halike.actorId, halike.targetId, trivial,
      halike.registrarVersion, halike.detail, halike.prevHash⟩

theorem TakesIn.hashed (h : TakesIn crypto reg data now e) : e.entryHash = crypto.skein e.hashed := by
  obtain ⟨d, _, hins⟩ := h
  obtain ⟨_, _, _, _, hadm, _⟩ := (mem_inserted d e).mp hins
  simp only [admissible, intact, Bool.and_eq_true, decide_eq_true_eq] at hadm
  exact hadm.1.1.symm

/-- Two accepted entries with one hash are the same but for the field the hash leaves out. -/
theorem same_entry_iff_same_ns (ha : TakesIn crypto reg data now a)
    (hb : TakesIn crypto reg' data' now' b) (h : a.entryHash = b.entryHash)
    (hfree : crypto.skein a.hashed = crypto.skein b.hashed → a.hashed = b.hashed) :
    a.Same b ↔ a.timestampNs = b.timestampNs := by
  have hskein : crypto.skein a.hashed = crypto.skein b.hashed := by
    rw [← ha.hashed, ← hb.hashed, h]
  rw [AuditEntry.same_iff]
  constructor
  · rintro ⟨_, _, hns⟩
    exact hns
  · intro hns
    exact ⟨h, AuditEntry.hashed_inj (hfree hskein), hns⟩

end Content

section Restamped

variable {skein : List Byte → Hash}

def vouchedState (skein : List Byte → Hash) : DeltaState where
  header := { (pairGroup (onlySigner skein (member 2))).header with
    signerSignKey := (member 2).publicKey }
  peers := []
  roles := []
  webapps := []
  signaling := []
  rebroadcast := []
  epochs := []

def moved (ns : I64) : AuditEntry where
  entryHash := zeroBytes 128
  timestamp := 0
  timestampNs := ns
  changeType := ChangeType.peerAddress.code
  actorId := (member 2).peerId
  targetId := (member 2).peerId
  signature := zeroBytes 4627
  registrarVersion := 2
  detail := CString.empty 256 detailCap_pos
  prevHash := zeroBytes 128

def movedEntry (skein : List Byte → Hash) (ns : I64) : AuditEntry :=
  { moved ns with entryHash := skein (moved ns).hashed }

theorem admissible_movedEntry (ns : I64) (state : Option DeltaState) :
    admissible (onlySigner skein (member 2)) (pairGroup (onlySigner skein (member 2))) state
      (movedEntry skein ns) := by
  have hrow : (pairGroup (onlySigner skein (member 2))).peers.find? (movedEntry skein ns).actorId =
      some (ownerPeer (member 2) 1) := pairGroup_member
  have hkey : (ownerPeer (member 2) 1).signKey = (member 2).publicKey := rfl
  have hsigned : signedByActor (onlySigner skein (member 2))
      (pairGroup (onlySigner skein (member 2))) (movedEntry skein ns) := by
    rw [signedByActor, hrow]
    simp only [onlySigner, hkey, decide_true]
  have hintact : intact (onlySigner skein (member 2)) (movedEntry skein ns) := decide_eq_true rfl
  rw [admissible, hintact, hsigned]
  rfl

theorem takesIn_movedEntry (ns : I64) :
    TakesIn (onlySigner skein (member 2)) (pairGroup (onlySigner skein (member 2)))
      (writeDelta 0 (vouchedState skein) [movedEntry skein ns]) 0 (movedEntry skein ns) := by
  refine ⟨⟨0, some (vouchedState skein).received, [movedEntry skein ns]⟩, ⟨?_, [], ?_⟩, ?_⟩
  · have hlen := length_writeDelta_le 0 (vouchedState skein) [movedEntry skein ns] rfl rfl rfl
    exact tooLarge_of_le (hlen.trans (by simp [vouchedState, deltaMaxBytes]))
  · have hc : Counted (vouchedState skein) [movedEntry skein ns] := by
      constructor <;> simp [vouchedState]
    have hkey : (vouchedState skein).header.signerSignKey = (member 2).publicKey := rfl
    exact readDelta_writeDelta 0 hc (by simp [onlySigner, hkey]) rfl
  · rw [mem_inserted]
    refine ⟨[], [], rfl, rfl, admissible_movedEntry ns _, ?_⟩
    exact fun _ he => absurd he List.not_mem_nil

theorem same_entry_iff_same_ns_moved : (movedEntry flatHash 1).Same (movedEntry flatHash 2) ↔
    (movedEntry flatHash 1).timestampNs = (movedEntry flatHash 2).timestampNs :=
  same_entry_iff_same_ns (takesIn_movedEntry 1) (takesIn_movedEntry 2) rfl fun _ => rfl

-- Whatever the hash is, a signed entry is taken with any `timestamp_ns`.
theorem entry_restamped : ¬ ∃ skein : List Byte → Hash, ∀ (crypto : Crypto) (reg reg' : Registrar)
    (data data' : List Byte) (now now' : I64) (a b : AuditEntry), crypto.skein = skein →
    TakesIn crypto reg data now a → TakesIn crypto reg' data' now' b →
    a.entryHash = b.entryHash → a.Same b := by
  rintro ⟨skein, h⟩
  have hsame := h (onlySigner skein (member 2)) _ _ _ _ 0 0 _ _ rfl (takesIn_movedEntry 1)
    (takesIn_movedEntry 2) rfl
  have hns : (1 : I64) = 2 := (AuditEntry.same_iff.mp hsame).2.2
  exact absurd hns (by decide)

end Restamped

end YumiBrowser.Group
