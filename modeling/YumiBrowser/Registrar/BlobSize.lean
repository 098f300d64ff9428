import YumiBrowser.Registrar.DeltaSize
import YumiBrowser.Registrar.FullSync
import YumiBrowser.Registrar.Idempotence

namespace YumiBrowser.Group

open Wire Keyed

theorem length_grSerialize (reg : Registrar) (mode : SerializeMode) :
    (grSerialize reg mode).length = 37 + reg.header.wireBytes + (reg.peers.rows.map Peer.wireBytes).sum +
      (reg.roles.rows.map Role.wireBytes).sum + (reg.webapps.rows.map Webapp.wireBytes).sum +
      ((serverList reg serverSignaling).map Server.wireBytes).sum +
      ((serverList reg serverRebroadcast).map Server.wireBytes).sum +
      (reg.epochs.rows.map Epoch.wireBytes).sum +
      ((reg.auditLog.rows.filter fun e => 0 < e.timestamp.toInt).map AuditEntry.wireBytes).sum := by
  have hroles : ((stateOf reg).roles.map Role.wireBytes).sum = (reg.roles.rows.map Role.wireBytes).sum :=
    ((List.mergeSort_perm ..).map _).sum_nat
  have hepochs : ((stateOf reg).epochs.map Epoch.wireBytes).sum =
      (reg.epochs.rows.map Epoch.wireBytes).sum := ((List.mergeSort_perm ..).map _).sum_nat
  have hentries : ((auditList reg).map AuditEntry.wireBytes).sum =
      ((reg.auditLog.rows.filter fun e => 0 < e.timestamp.toInt).map AuditEntry.wireBytes).sum :=
    ((List.mergeSort_perm ..).map _).sum_nat
  have hflat : ((auditList reg).flatMap serAudit).length = ((auditList reg).map AuditEntry.wireBytes).sum := by
    have haudit : ∀ a, (serAudit a).length = a.wireBytes := length_serAudit
    have h := length_serCounted haudit (auditList reg)
    rw [serCounted, List.length_append, length_toLe] at h
    omega
  have hmagic : serialMagic.length = 4 := rfl
  have hpeer : ∀ p, (serPeer p).length = p.wireBytes := length_serPeer
  have hrole : ∀ r, (serRole r).length = r.wireBytes := length_serRole
  have hepoch : ∀ e, (serEpoch e).length = e.wireBytes := length_serEpoch
  have hheader : (serHeader reg.header).length = reg.header.wireBytes := length_serHeader reg.header
  simp only [grSerialize, List.length_append, hheader, length_serCounted hpeer, length_serCounted hrole,
    length_serCounted length_serWebapp, length_serCounted (length_serServer mode), length_serCounted hepoch, hflat,
    length_toLe, hmagic, hroles, hepochs, hentries, writeU32, writeU8]
  simp only [stateOf]
  omega

def Founded (reg : Registrar) : Prop :=
  ∃ (crypto : Crypto) (name : List Byte) (type : BitVec 32) (owner : Identity) (key : EpochKey) (clk : Clock)
    (start : Registrar) (steps : List LocalStep),
    grCreate crypto name type owner key clk = .ok start ∧ LocalRun crypto start steps reg

theorem founded_createdGroup (skein : List Byte → Hash) : Founded (createdGroup skein) :=
  ⟨_, _, _, _, _, _, _, _, grCreate_createdGroup, .nil⟩

theorem founded_signedGroup (skein : List Byte → Hash) : Founded (signedGroup skein) := by
  have hsign : (Mutation.sign (member 1)).run (onlySigner skein (member 1)) (createdGroup skein) ⟨2, 2000000⟩ =
      .ok (signedGroup skein) := grSign_createdGroup
  exact ⟨_, _, _, _, _, _, _, _, grCreate_createdGroup, .snoc _ _ .nil hsign⟩

theorem length_createdGroup : (grSerialize (createdGroup lengthHash) .full).length = 19662 := by
  rw [length_grSerialize]
  decide +kernel

theorem length_signedGroup : (grSerialize (signedGroup lengthHash) .full).length = 24653 := by
  rw [length_grSerialize]
  decide +kernel

theorem bulky_runs (skein : List Byte → Hash) {n : ℕ} (hn : n ≤ 256) : ∃ steps reg,
    LocalRun (onlySigner skein (member 1)) (createdGroup skein) steps reg ∧ reg.untrusted = false ∧
      reg.header.ownerId = (member 1).peerId ∧ n * (512 * 2048) ≤ (reg.webapps.rows.map Webapp.wireBytes).sum ∧
      ∀ w ∈ reg.webapps.rows, ∃ b < n, w.hash = Bytes.fill 128 (BitVec.ofNat 8 b) := by
  induction n with
  | zero =>
    refine ⟨_, _, .nil, rfl, rfl, ?_, fun _ hw => absurd hw List.not_mem_nil⟩
    rw [Nat.zero_mul]
    exact Nat.zero_le _
  | succ n ih =>
    obtain ⟨steps, reg, hrun, htrusted, howner, hsum, hhashes⟩ := ih (Nat.le_of_succ_le hn)
    obtain ⟨data, hdata⟩ := exists_fullBlob (512 * 2048)
    have hfree : reg.webapps.find? (bulkyWebapp (BitVec.ofNat 8 n) data).hash = none := by
      rw [Table.find?_eq_none]
      intro w hw heq
      obtain ⟨b, hb, hhash⟩ := hhashes w hw
      have hbyte := (Bytes.fill_inj (by decide)).mp (hhash.symm.trans heq)
      have hnat := congrArg BitVec.toNat hbyte
      rw [BitVec.toNat_ofNat, BitVec.toNat_ofNat, Nat.mod_eq_of_lt (by omega), Nat.mod_eq_of_lt (by omega)] at hnat
      exact hb.ne hnat
    obtain ⟨reg', hadd, htrusted', howner', hrows⟩ := webappAdd_of_free htrusted howner hfree ⟨2, 2000000⟩
    refine ⟨_, reg', hrun.snoc _ _ hadd, htrusted', howner', ?_, fun w hw => ?_⟩
    · have hone := bulkyWebapp_bytes hdata (BitVec.ofNat 8 n) 2 (member 1).peerId
      rw [hrows, List.map_append, List.sum_append, List.map_singleton, List.sum_singleton, Nat.succ_mul]
      exact Nat.add_le_add hsum hone.le
    · rw [hrows] at hw
      cases List.mem_append.mp hw with
      | inl hold =>
        obtain ⟨b, hb, hhash⟩ := hhashes w hold
        exact ⟨b, Nat.lt_succ_of_lt hb, hhash⟩
      | inr hnew =>
        rw [List.mem_singleton.mp hnew]
        exact ⟨n, Nat.lt_succ_self n, rfl⟩

theorem founded_bulky {n : ℕ} (hn : n ≤ 256) :
    ∃ reg, Founded reg ∧ n * (512 * 2048) ≤ (grSerialize reg .full).length := by
  obtain ⟨steps, reg, hrun, _, _, hsum, _⟩ := bulky_runs lengthHash hn
  refine ⟨reg, ⟨_, _, _, _, _, _, _, _, grCreate_createdGroup, hrun⟩, ?_⟩
  rw [length_grSerialize]
  omega

end YumiBrowser.Group
