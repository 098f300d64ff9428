import YumiBrowser.Registrar.EpochAdoption
import YumiBrowser.Registrar.LocalRuns

namespace YumiBrowser.Group

open Wire Keyed

-- The bytes each row and the header take on the wire.
def Peer.wireBytes (p : Peer) : ℕ := 4266 + p.ip.val.length + p.removedReason.val.length
def Role.wireBytes (r : Role) : ℕ := 2620 + r.name.val.length
def Webapp.wireBytes (w : Webapp) : ℕ :=
  184 + w.name.val.length + w.permData.val.length + w.roleMask.val.length
def Server.wireBytes (v : Server) : ℕ := 7594 + v.ip.val.length
def Epoch.wireBytes (_ : Epoch) : ℕ := 180
def AuditEntry.wireBytes (a : AuditEntry) : ℕ := 4975 + a.detail.val.length
def Header.wireBytes (h : Header) : ℕ := 10187 + h.groupName.val.length

def deltaBytes (reg : Registrar) (sinceVersion : BitVec 32) : ℕ :=
  40 + reg.header.wireBytes + (reg.peers.rows.map Peer.wireBytes).sum +
    (reg.roles.rows.map Role.wireBytes).sum + (reg.webapps.rows.map Webapp.wireBytes).sum +
    ((serverList reg serverSignaling).map Server.wireBytes).sum +
    ((serverList reg serverRebroadcast).map Server.wireBytes).sum +
    (reg.epochs.rows.map Epoch.wireBytes).sum +
    ((reg.auditLog.rows.filter fun e => sinceVersion.toInt < e.registrarVersion.toInt).map
      AuditEntry.wireBytes).sum

/-- Refused for its size, or for its counts or grammar. -/
def FormatRefused (r : Except GrError α) : Prop :=
  r = .error .sizeExceeded ∨ r = .error .serialization

section Length

variable {reg : Registrar}

theorem length_serWebapp (w : Webapp) : (serWebapp w).length = w.wireBytes := by
  simp [serWebapp, writeStr, writeBlob, Bytes.length_eq, Webapp.wireBytes]
  omega

theorem length_serServer (mode : SerializeMode) (v : Server) :
    (serServer mode v).length = v.wireBytes := by
  simp [serServer, writeStr, Bytes.length_eq, Server.wireBytes]
  omega

theorem length_serCounted {ser : α → List Byte} {bytes : α → ℕ} (h : ∀ a, (ser a).length = bytes a)
    (l : List α) : (serCounted ser l).length = 4 + (l.map bytes).sum := by
  have hrows : (l.flatMap ser).length = (l.map bytes).sum := by
    induction l with
    | nil => rfl
    | cons a l ih => rw [List.flatMap_cons, List.length_append, ih, h, List.map_cons, List.sum_cons]
  rw [serCounted, List.length_append, hrows, length_toLe]

theorem length_serializeDelta (sinceVersion : BitVec 32) :
    (serializeDelta reg sinceVersion).length = deltaBytes reg sinceVersion := by
  have hroles : ((stateOf reg).roles.map Role.wireBytes).sum = (reg.roles.rows.map Role.wireBytes).sum :=
    ((List.mergeSort_perm ..).map _).sum_nat
  have hepochs : ((stateOf reg).epochs.map Epoch.wireBytes).sum =
      (reg.epochs.rows.map Epoch.wireBytes).sum := ((List.mergeSort_perm ..).map _).sum_nat
  have hentries : ((auditDelta reg sinceVersion).map AuditEntry.wireBytes).sum =
      ((reg.auditLog.rows.filter fun e => sinceVersion.toInt < e.registrarVersion.toInt).map
        AuditEntry.wireBytes).sum := ((List.mergeSort_perm ..).map _).sum_nat
  have hmagic : deltaMagic.length = 4 := rfl
  have hpeer : ∀ p, (serPeer p).length = p.wireBytes := length_serPeer
  have hrole : ∀ r, (serRole r).length = r.wireBytes := length_serRole
  have hepoch : ∀ e, (serEpoch e).length = e.wireBytes := length_serEpoch
  have haudit : ∀ a, (serAudit a).length = a.wireBytes := length_serAudit
  have hheader : (serHeader (stateOf reg).header).length = reg.header.wireBytes :=
    length_serHeader reg.header
  simp only [serializeDelta, writeDelta, List.length_append, hheader, length_serCounted hpeer,
    length_serCounted hrole, length_serCounted length_serWebapp,
    length_serCounted (length_serServer .full), length_serCounted hepoch, length_serCounted haudit,
    length_toLe, hmagic, hroles, hepochs, hentries, deltaBytes]
  simp only [stateOf]
  omega

theorem length_le_serCounted (ser : α → List Byte) (h : ∀ a, 0 < (ser a).length) (l : List α) :
    l.length ≤ (serCounted ser l).length := by
  rw [serCounted, List.length_append]
  exact (length_le_flatMap h l).trans (Nat.le_add_left ..)

theorem counted_of_length {d : DeltaState} {entries : List AuditEntry}
    (h : (writeDelta sinceVersion d entries).length < 2 ^ 32) : Counted d entries := by
  have hpeers := length_le_serCounted serPeer (fun p => by rw [length_serPeer]; omega) d.peers
  have hroles := length_le_serCounted serRole (fun r => by rw [length_serRole]; omega) d.roles
  have hwebapps := length_le_serCounted serWebapp serWebapp_pos d.webapps
  have hsignaling := length_le_serCounted (serServer .full) (serServer_pos .full) d.signaling
  have hrebroadcast := length_le_serCounted (serServer .full) (serServer_pos .full) d.rebroadcast
  have hepochs := length_le_serCounted serEpoch (fun e => by rw [length_serEpoch]; omega) d.epochs
  have hentries := length_le_serCounted serAudit (fun a => by rw [length_serAudit]; omega) entries
  simp only [writeDelta, List.length_append] at h
  constructor
  all_goals omega

end Length

section Reading

variable {crypto : Crypto} {reg replica : Registrar} {now : I64} {sinceVersion : BitVec 32}

theorem not_refused_of_fits (hc : Counted (stateOf reg) (auditDelta reg sinceVersion))
    (hfits : tooLarge replica (serializeDelta reg sinceVersion).length now = false) :
    ¬ FormatRefused (applyDelta crypto replica (serializeDelta reg sinceVersion) now) := by
  unfold applyDelta commitDelta
  rw [hfits, if_neg Bool.false_ne_true]
  by_cases h : crypto.verify reg.header.signature reg.header.hash reg.header.signerSignKey = true ∧
      reg.header.ownerSignKey = replica.header.ownerSignKey
  · have hread := @readDelta_writeDelta crypto replica (stateOf reg) _ sinceVersion hc h.1 h.2
    rw [← serializeDelta] at hread
    rw [hread]
    exact fun hrefused => hrefused.elim nofun nofun
  · have hread := @readDelta_refused crypto replica (stateOf reg) (auditDelta reg sinceVersion)
      sinceVersion h
    rw [← serializeDelta] at hread
    rcases hread with hread | hread
    · rw [hread]
      exact fun hrefused => hrefused.elim nofun nofun
    · rw [hread]
      exact fun hrefused => hrefused.elim nofun nofun

theorem tooLarge_eq_false : tooLarge replica len now = false ↔ len ≤ deltaMaxBytes ∨
    ∃ f, replica.deltaAnomaly = some f ∧ f len (now - replica.header.updatedAt) ≠ .suspend := by
  unfold tooLarge
  by_cases hlen : deltaMaxBytes < len
  · rw [decide_eq_true hlen, Bool.true_and]
    cases replica.deltaAnomaly with
    | none => simp [Nat.not_le.mpr hlen]
    | some f => simp [Nat.not_le.mpr hlen]
  · rw [decide_eq_false hlen]
    exact ⟨fun _ => .inl (Nat.not_lt.mp hlen), fun _ => rfl⟩

theorem refused_of_tooLarge
    (h : tooLarge replica (serializeDelta reg sinceVersion).length now = true) :
    applyDelta crypto replica (serializeDelta reg sinceVersion) now = .error .sizeExceeded := by
  unfold applyDelta commitDelta
  rw [h]
  rfl

end Reading

/-- A delta is not refused for its format exactly where its size is below the limit, or the
replica's callback lets it pass. -/
theorem delta_format_accepted_iff (crypto : Crypto) (reg replica : Registrar)
    (sinceVersion : BitVec 32) (now : I64)
    (hc : replica.deltaAnomaly = none ∨ Counted (stateOf reg) (auditDelta reg sinceVersion)) :
    ¬ FormatRefused (applyDelta crypto replica (serializeDelta reg sinceVersion) now) ↔
      deltaBytes reg sinceVersion ≤ deltaMaxBytes ∨
        ∃ f, replica.deltaAnomaly = some f ∧
          f (deltaBytes reg sinceVersion) (now - replica.header.updatedAt) ≠ .suspend := by
  rw [← tooLarge_eq_false, ← length_serializeDelta]
  constructor
  · intro haccepted
    by_contra hlarge
    exact haccepted (.inl (refused_of_tooLarge (Bool.eq_true_of_not_eq_false hlarge)))
  · intro hfits
    refine not_refused_of_fits ?_ hfits
    cases hc with
    | inr hcounted => exact hcounted
    | inl hnone =>
      apply counted_of_length
      rw [tooLarge_eq_false, hnone] at hfits
      rcases hfits with hle | ⟨f, hf, _⟩
      · exact Nat.lt_of_le_of_lt hle (by decide)
      · cases hf

section Webapps

variable {crypto : Crypto} {reg : Registrar} {signer : Identity} {webapp : Webapp}

theorem webappAdd_of_free (htrusted : reg.untrusted = false) (howner : reg.header.ownerId = signer.peerId)
    (hfree : reg.webapps.find? webapp.hash = none) (clk : Clock) :
    ∃ reg', (Mutation.webappAdd webapp signer).run crypto reg clk = .ok reg' ∧
      reg'.untrusted = false ∧ reg'.header.ownerId = signer.peerId ∧
      reg'.webapps.rows =
        reg.webapps.rows ++ [{ webapp with addedAt := clk.ms, addedBy := signer.peerId }] := by
  have hnz : Perm.addWebapp ≠ 0 := by decide
  generalize hrow : { webapp with addedAt := clk.ms, addedBy := signer.peerId } = row
  have hkey : row.hash = webapp.hash := by rw [← hrow]
  cases hins : reg.webapps.insert? row with
  | none => exact absurd (hkey ▸ hfree) (Table.insert?_eq_none.mp hins)
  | some webapps =>
    refine ⟨_, mutate_eq_ok.mpr ⟨htrusted, checkPerm_owner howner hnz, { reg with webapps }, ?_, rfl⟩,
      htrusted, howner, Table.rows_insert? hins⟩
    rw [hrow, hins]
    rfl

theorem exists_fullBlob (n : ℕ) : ∃ data : Blob n, data.val.length = n :=
  ⟨⟨List.replicate n 0, Nat.le_of_eq List.length_replicate⟩, List.length_replicate⟩

theorem noRoles_short : ([] : List Byte).length ≤ 50 * 64 := Nat.zero_le _

def bulkyWebapp (b : Byte) (data : Blob (512 * 2048)) : Webapp where
  hash := Bytes.fill 128 b
  name := (ownerPeer (member 1) 1).removedReason
  version := 1
  addedAt := 0
  addedBy := zeroBytes 32
  permData := data
  roleMask := ⟨[], noRoles_short⟩

theorem bulkyWebapp_bytes {data : Blob (512 * 2048)} (hdata : data.val.length = 512 * 2048) (b : Byte)
    (addedAt : I64) (addedBy : PeerId) :
    512 * 2048 < { bulkyWebapp b data with addedAt, addedBy }.wireBytes := by
  change 512 * 2048 < 184 + _ + data.val.length + _
  omega

theorem bulky_run (skein : List Byte → Hash) : ∃ steps reg,
    LocalRun (onlySigner skein (member 1)) (createdGroup skein) steps reg ∧
      deltaMaxBytes < deltaBytes reg 0 := by
  obtain ⟨data, hdata⟩ := exists_fullBlob (512 * 2048)
  have hempty : (createdGroup skein).webapps = Table.empty := rfl
  have hfirst : (createdGroup skein).webapps.find? (bulkyWebapp 1 data).hash = none := by
    rw [hempty]
    rfl
  obtain ⟨mid, hrun, htrusted, howner, hrows⟩ := webappAdd_of_free rfl rfl hfirst ⟨2, 2000000⟩
  have hsecond : mid.webapps.find? (bulkyWebapp 2 data).hash = none := by
    rw [Table.find?_eq_none, hrows, hempty]
    intro w hw
    rw [List.mem_singleton.mp hw]
    exact fun h => absurd ((Bytes.fill_inj (by decide)).mp h) (by decide)
  obtain ⟨reg, hrun', _, _, hrows'⟩ := webappAdd_of_free htrusted howner hsecond ⟨3, 3000000⟩
  have hnil : LocalRun (onlySigner skein (member 1)) (createdGroup skein) [] (createdGroup skein) := .nil
  refine ⟨_, reg, (hnil.snoc _ _ hrun).snoc _ _ hrun', ?_⟩
  have hone := bulkyWebapp_bytes hdata 1 2 (member 1).peerId
  have htwo := bulkyWebapp_bytes hdata 2 3 (member 1).peerId
  have hsum : (reg.webapps.rows.map Webapp.wireBytes).sum =
      { bulkyWebapp 1 data with addedAt := 2, addedBy := (member 1).peerId }.wireBytes +
        { bulkyWebapp 2 data with addedAt := 3, addedBy := (member 1).peerId }.wireBytes := by
    have hnone : (Table.empty : Table Webapp.hash).rows = [] := rfl
    rw [hrows', hrows, hempty, hnone, List.nil_append, List.singleton_append, List.map_cons,
      List.map_singleton, List.sum_cons, List.sum_singleton]
  unfold deltaBytes
  rw [hsum]
  unfold deltaMaxBytes
  omega

end Webapps

section Limit

theorem delta_format_accepted_iff_created :
    ¬ FormatRefused (applyDelta (onlySigner flatHash (member 1)) (createdGroup flatHash)
        (serializeDelta (createdGroup flatHash) 0) 2) ↔
      deltaBytes (createdGroup flatHash) 0 ≤ deltaMaxBytes ∨
        ∃ f, (createdGroup flatHash).deltaAnomaly = some f ∧
          f (deltaBytes (createdGroup flatHash) 0) (2 - (createdGroup flatHash).header.updatedAt) ≠
            .suspend :=
  delta_format_accepted_iff _ _ _ _ _ (.inl rfl)

theorem bulky_delta_refused : ¬ ∀ (crypto : Crypto) (name : List Byte) (type : BitVec 32)
    (owner : Identity) (key : EpochKey) (clk : Clock) (start reg replica : Registrar)
    (steps steps' : List LocalStep) (sinceVersion : BitVec 32) (now : I64),
    grCreate crypto name type owner key clk = .ok start → LocalRun crypto start steps reg →
    LocalRun crypto start steps' replica →
    ¬ FormatRefused (applyDelta crypto replica (serializeDelta reg sinceVersion) now) := by
  intro h
  obtain ⟨steps, reg, hrun, hlarge⟩ := bulky_run flatHash
  apply h _ _ _ _ _ _ _ reg _ steps [] 0 2 grCreate_createdGroup hrun .nil
  have htoo : tooLarge (createdGroup flatHash) (serializeDelta reg 0).length 2 = true := by
    rw [length_serializeDelta, tooLarge, decide_eq_true hlarge]
    rfl
  exact .inl (refused_of_tooLarge htoo)

end Limit

end YumiBrowser.Group
