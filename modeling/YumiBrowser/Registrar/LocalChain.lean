import Mathlib.Data.List.Chain
import YumiBrowser.Registrar.ChainVerification
import YumiBrowser.Registrar.Lineage
import YumiBrowser.Registrar.LocalRuns

namespace YumiBrowser.Group

open Wire Keyed

/-- `b` is the entry after `a`. -/
structure Follows (a b : AuditEntry) : Prop where
  prev : b.prevHash = a.entryHash
  version : b.registrarVersion = a.registrarVersion + 1

/-- A log that starts with a genesis entry, each entry following the one before it. -/
structure SingleChain (l : List AuditEntry) : Prop where
  genesis : ∃ e, l.head? = some e ∧ e.prevHash = zeroBytes 128
  linked : l.IsChain Follows

def LocalStep.entry (crypto : Crypto) (s : LocalStep) : Option AuditEntry :=
  s.record.map fun c => c.entry crypto s.before s.clk.ns

def written (crypto : Crypto) (start : Registrar) (steps : List LocalStep) : List AuditEntry :=
  start.auditLog.rows ++ steps.filterMap (LocalStep.entry crypto)

/-- No two of these entries have the same hash, and none has that of the entry before the first. -/
structure CollisionFree (crypto : Crypto) (l : List AuditEntry) : Prop where
  inj : ∀ e ∈ l, ∀ e' ∈ l, crypto.skein e.hashed = crypto.skein e'.hashed → e.hashed = e'.hashed
  nonzero : ∀ e ∈ l, crypto.skein e.hashed ≠ zeroBytes 128

def Mutation.keyOf (reg : Registrar) (actor : PeerId) : Mutation → Option PublicKey
  | peerAdd peer _ => ((reg.peers.find? actor).map Peer.signKey).or
      (if peer.peerId = actor then some peer.signKey else none)
  | _ => (reg.peers.find? actor).map Peer.signKey

/-- Who signs is a peer, under the key that belongs to its secret key. -/
def LocalStep.SignedByPeer (pair : SecretKey → PublicKey → Prop) (s : LocalStep) : Prop :=
  ∀ c, s.record = some c →
    ∃ key, s.call.keyOf s.before c.actor.peerId = some key ∧ pair c.actor.secretKey key

section Keys

variable {crypto : Crypto} {reg reg' : Registrar} {clk : Clock} {m : Mutation} {actor : PeerId}

theorem keyOf_of_row {p : Peer} (h : reg.peers.find? actor = some p) :
    m.keyOf reg actor = some p.signKey := by
  cases m with
  | peerAdd peer signer =>
    change Option.or ((reg.peers.find? actor).map Peer.signKey) _ = _
    rw [h]
    rfl
  | _ =>
    change (reg.peers.find? actor).map Peer.signKey = _
    rw [h]
    rfl

theorem signKey_run (h : m.run crypto reg clk = .ok reg') (actor : PeerId) :
    (reg'.peers.find? actor).map Peer.signKey = m.keyOf reg actor := by
  have hchange := m.rowChange crypto reg clk actor reg' h
  cases hrow : reg.peers.find? actor with
  | some p =>
    rw [hrow] at hchange
    obtain ⟨q, hq, hkey⟩ := hchange.stays
    rw [hq, keyOf_of_row hrow, Option.map_some, hkey]
  | none =>
    rw [hrow] at hchange
    generalize hafter : reg'.peers.find? actor = after at hchange
    cases hchange with
    | absent =>
      cases m with
      | peerAdd peer signer =>
        change _ = Option.or ((reg.peers.find? actor).map Peer.signKey) _
        rw [hrow, Option.map_none, Option.none_or]
        split
        · next hk =>
          obtain ⟨_, _, ⟨_, _, hinsert⟩ | ⟨p, hp, _⟩⟩ := peerAdd_cases h
          · rw [Table.find?_insert? hinsert, ← hk, Function.update_self] at hafter
            cases hafter
          · rw [hk, hrow] at hp
            cases hp
        · rfl
      | _ =>
        change _ = (reg.peers.find? actor).map Peer.signKey
        rw [hrow]
    | @added peer signer removedBy hk =>
      change _ = Option.or ((reg.peers.find? actor).map Peer.signKey) _
      rw [hrow, if_pos hk]
      rfl

end Keys

section Growth

variable {crypto : Crypto} {start reg reg' : Registrar} {made l l' : List AuditEntry}
  {e : AuditEntry} {steps : List LocalStep}

theorem CollisionFree.mono (h : CollisionFree crypto l) (hl : ∀ e ∈ l', e ∈ l) :
    CollisionFree crypto l' := by
  constructor
  · exact fun e he e' he' => h.inj e (hl e he) e' (hl e' he')
  · exact fun e he => h.nonzero e (hl e he)

structure Grown (crypto : Crypto) (made : List AuditEntry) (reg : Registrar) : Prop where
  rows : reg.auditLog.rows = made.reverse
  lineage : Lineage made
  linked : made.IsChain fun b a => Follows a b
  newest : made.head?.map AuditEntry.registrarVersion = some reg.header.version
  count : reg.header.version.toNat = made.length + 1
  hashed : ∀ e ∈ made, e.entryHash = crypto.skein e.hashed

theorem Grown.version_le (h : Grown crypto made reg) (he : e ∈ made) :
    e.registrarVersion ≤ reg.header.version := by
  cases made with
  | nil => cases he
  | cons top older =>
    rw [← show top.registrarVersion = reg.header.version from Option.some.inj h.newest]
    cases List.mem_cons.mp he with
    | inl heq => exact BitVec.le_of_eq (congrArg _ heq)
    | inr hold => exact BitVec.le_of_lt ((List.pairwise_cons.mp h.lineage.later).1 e hold)

theorem Grown.holds (h : Grown crypto made reg) (hlen : made.length ≤ auditMaxRows) :
    Holds made reg.header.version reg.auditLog := by
  constructor
  · intro e he
    rw [h.rows, List.mem_reverse] at he
    exact ⟨he, h.version_le he⟩
  · intro e he _
    rw [h.rows, List.mem_reverse]
    exact List.mem_of_mem_take he
  · rw [h.rows, List.length_reverse]
    exact hlen

theorem Grown.write (h : Grown crypto made reg) (hw : Writes reg reg' e)
    (hlen : made.length < auditMaxRows) (hhash : e.entryHash = crypto.skein e.hashed)
    (hfree : CollisionFree crypto (e :: made)) : Grown crypto (e :: made) reg' := by
  have hmax : auditMaxRows < 2 ^ 31 - 2 := by decide
  have hcount := h.count
  have hnext : e.registrarVersion.toNat = reg.header.version.toNat + 1 := by
    rw [hw.version, BitVec.toNat_add, hcount]
    exact Nat.mod_eq_of_lt (by simp; omega)
  have hfresh : ∀ a ∈ made, a.entryHash ≠ zeroBytes 128 ∧ a.entryHash ≠ e.entryHash := by
    intro a ha
    have hmem : a ∈ e :: made := List.mem_cons_of_mem _ ha
    rw [hhash, h.hashed a ha]
    refine ⟨hfree.nonzero a hmem, fun heq => ?_⟩
    have hsame := (AuditEntry.hashed_inj (hfree.inj a hmem e List.mem_cons_self heq)).registrarVersion
    have hle := BitVec.le_def.mp (h.version_le ha)
    rw [hsame] at hle
    omega
  cases hmade : made with
  | nil =>
    have hnewest := h.newest
    rw [hmade] at hnewest
    cases hnewest
  | cons top older =>
    have hholds := h.holds hlen.le
    have hlin := h.lineage
    have hnewest := h.newest
    have hlinked := h.linked
    rw [hmade] at hholds hlin hnewest hlinked hfresh
    have hv : top.registrarVersion = reg.header.version := Option.some.inj hnewest
    have hbelow : reg.header.version.toNat + 1 < 2 ^ 31 := by omega
    have hlast := lastHash_of_holds hlin hholds (BitVec.le_of_eq hv)
    constructor
    case rows =>
      have hroom : reg.auditLog.rows.length < auditMaxRows := by
        rw [h.rows, List.length_reverse]
        exact hlen
      have hnew : ∀ a ∈ reg.auditLog.rows, a.entryHash ≠ e.entryHash := by
        intro a ha
        rw [h.rows, List.mem_reverse, hmade] at ha
        exact (hfresh a ha).2
      rw [hw.rows hroom hnew, h.rows, hmade, List.reverse_cons (a := e)]
    case lineage => exact (hholds.write hlin hv.symm hw hbelow hfresh).2.1
    case linked =>
      refine List.isChain_cons_cons.mpr ⟨⟨?_, ?_⟩, hlinked⟩
      · rw [hw.prev, hlast]
        rfl
      · rw [hw.version, hv]
    case newest =>
      rw [hw.header]
      rfl
    case count =>
      rw [hw.header, hnext, hcount, hmade]
      rfl
    case hashed =>
      intro a ha
      cases List.mem_cons.mp ha with
      | inl heq => rw [heq, hhash]
      | inr hold => exact h.hashed a (hmade ▸ hold)

theorem grown_grCreate (h : grCreate crypto groupName groupType owner epochKey clk = .ok start) :
    Grown crypto start.auditLog.rows.reverse start := by
  obtain ⟨e, hrows, hversion, hheader, hprev⟩ := log_grCreate h
  have hhash : e.entryHash = crypto.skein e.hashed := by
    have hsame := rows_grCreate h
    rw [hrows] at hsame
    rw [List.singleton_inj.mp hsame]
    rfl
  rw [hrows]
  constructor
  case rows => rw [hrows, List.reverse_reverse]
  case lineage =>
    constructor
    · intro a ha
      rw [List.mem_singleton.mp ha, hversion]
      decide
    · exact List.pairwise_singleton _ _
    · exact List.nodup_singleton _
    · rw [List.reverse_singleton, List.map_singleton, hprev]
      rfl
    · exact fun a ha => absurd ha List.not_mem_nil
  case linked => exact List.IsChain.singleton _
  case newest => rw [hheader, ← hversion]; rfl
  case count => rw [hheader]; rfl
  case hashed =>
    intro a ha
    rw [List.mem_singleton.mp ha, hhash]

theorem Grown.congr (h : Grown crypto made reg) (hview : reg'.logView = reg.logView) :
    Grown crypto made reg' := by
  obtain ⟨hlog, hversion⟩ := Prod.mk.inj hview
  constructor
  · rw [hlog, h.rows]
  · exact h.lineage
  · exact h.linked
  · rw [hversion, h.newest]
  · rw [hversion, h.count]
  · exact h.hashed

theorem written_snoc (steps : List LocalStep) (s : LocalStep) :
    written crypto start (steps ++ [s]) = written crypto start steps ++ (s.entry crypto).toList := by
  rw [written, List.filterMap_append, written, List.append_assoc]
  congr 2

theorem grown_run (hcreate : grCreate crypto groupName groupType owner epochKey clk = .ok start)
    (hrun : LocalRun crypto start steps reg) (hfree : CollisionFree crypto (written crypto start steps))
    (hlen : (written crypto start steps).length < auditMaxRows) :
    Grown crypto (written crypto start steps).reverse reg := by
  induction hrun with
  | nil =>
    rw [written, List.filterMap_nil, List.append_nil]
    exact grown_grCreate hcreate
  | @snoc steps reg reg' m clk hrun hcall ih =>
    rw [written_snoc] at hfree hlen ⊢
    rw [List.length_append] at hlen
    have hgrown := ih (hfree.mono fun _ => List.mem_append_left _) (by omega)
    rcases m.records crypto reg clk reg' hcall with ⟨hnone, hview⟩ | ⟨c, hsome, hwrites⟩
    · have hentry : (⟨reg, m, clk, reg'⟩ : LocalStep).entry crypto = none := by
        rw [LocalStep.entry, LocalStep.record, hnone]
        rfl
      rw [hentry, Option.toList_none, List.append_nil]
      exact hgrown.congr hview
    · have hentry : (⟨reg, m, clk, reg'⟩ : LocalStep).entry crypto =
          some (c.entry crypto reg clk.ns) := by
        rw [LocalStep.entry, LocalStep.record, hsome]
        rfl
      rw [hentry, Option.toList_some] at hfree hlen ⊢
      rw [List.reverse_append, List.reverse_singleton, List.singleton_append]
      refine hgrown.write hwrites ?_ rfl (hfree.mono ?_)
      · rw [List.length_reverse]
        exact Nat.lt_of_le_of_lt (Nat.le_add_right ..) hlen
      · intro e he
        rw [List.mem_append, List.mem_singleton]
        cases List.mem_cons.mp he with
        | inl heq => exact .inr heq
        | inr hold => exact .inl (List.mem_reverse.mp hold)

theorem Grown.singleChain (h : Grown crypto made reg) : SingleChain reg.auditLog.rows := by
  constructor
  · cases hlast : made.getLast? with
    | none =>
      have hnewest := h.newest
      rw [List.getLast?_eq_none_iff.mp hlast] at hnewest
      cases hnewest
    | some e =>
      refine ⟨e, ?_, ?_⟩
      · rw [h.rows, List.head?_reverse, hlast]
      · have hpreds := congrArg List.getLast? h.lineage.preds
        rw [List.getLast?_map, hlast, List.getLast?_concat] at hpreds
        exact Option.some.inj hpreds
  · rw [h.rows, List.isChain_reverse]
    exact h.linked

theorem Grown.clean_iff (h : Grown crypto made reg) :
    (auditVerifyChain crypto reg).Clean ↔ ∀ e ∈ made, Vouched crypto reg e := by
  have hmem : ∀ e, e ∈ reg.auditLog.rows ↔ e ∈ made := by
    intro e
    rw [h.rows, List.mem_reverse]
  have hlinear : Linear reg.auditLog.rows := h.lineage.linear fun e he => (hmem e).mp he
  rw [Group.clean_iff, defect_iff, not_or]
  constructor
  · rintro ⟨hverified, _⟩ e he
    by_contra hnot
    exact hverified ⟨e, (hmem e).mpr he, fun hv => hnot (examine_eq_verified.mp hv).2⟩
  · intro hall
    refine ⟨?_, ?_⟩
    · rintro ⟨e, he, hv⟩
      have hmade := (hmem e).mp he
      exact hv (examine_eq_verified.mpr ⟨(h.hashed e hmade).symm, hall e hmade⟩)
    · rintro ⟨e, _, hfork⟩
      exact absurd (countPrev_le_one hlinear e.prevHash) (by omega)

end Growth

section Signers

variable {crypto : Crypto} {pair : SecretKey → PublicKey → Prop} {start reg reg' : Registrar}
  {m : Mutation} {clk : Clock} {e : AuditEntry} {steps : List LocalStep}

theorem Vouched.keep (h : Vouched crypto reg e) (hcall : m.run crypto reg clk = .ok reg') :
    Vouched crypto reg' e := by
  obtain ⟨key, hkey, hverify⟩ := h
  refine ⟨key, ?_, hverify⟩
  obtain ⟨p, hp, rfl⟩ := Option.map_eq_some_iff.mp hkey
  rw [signKey_run hcall, keyOf_of_row hp]

theorem vouched_entry_iff (hsig : ∀ sk digest pk, crypto.verify (crypto.sign sk digest) digest pk = true ↔ pair sk pk)
    (hcall : m.run crypto reg clk = .ok reg') (c : Record) :
    Vouched crypto reg' (c.entry crypto reg clk.ns) ↔
      ∃ key, m.keyOf reg c.actor.peerId = some key ∧ pair c.actor.secretKey key := by
  rw [← signKey_run hcall]
  exact exists_congr fun key => and_congr_right fun _ => hsig ..

theorem signKey_grCreate
    (h : grCreate crypto groupName groupType owner epochKey clk = .ok start) :
    (start.peers.find? owner.peerId).map Peer.signKey = some owner.publicKey := by
  have hpeers : start.peers = Table.empty.upsert (ownerPeer owner clk.ms) := by
    rw [grCreate_cases h]
    rfl
  have hself : owner.peerId = (ownerPeer owner clk.ms).peerId := rfl
  rw [hpeers, Table.find?_upsert, hself, Function.update_self]
  rfl

theorem vouched_founding
    (hsig : ∀ sk digest pk, crypto.verify (crypto.sign sk digest) digest pk = true ↔ pair sk pk)
    (h : grCreate crypto groupName groupType owner epochKey clk = .ok start) :
    (∀ e ∈ start.auditLog.rows, Vouched crypto start e) ↔ pair owner.secretKey owner.publicKey := by
  have hkey := signKey_grCreate h
  rw [rows_grCreate h]
  simp only [List.mem_singleton, forall_eq]
  constructor
  · rintro ⟨key, hfound, hverify⟩
    obtain rfl := Option.some.inj (hkey.symm.trans hfound)
    exact (hsig ..).mp hverify
  · exact fun hpair => ⟨owner.publicKey, hkey, (hsig ..).mpr hpair⟩

theorem LocalRun.upto (h : LocalRun crypto start steps reg) {s : LocalStep} (hs : s ∈ steps) :
    ∃ pre, (∃ post, steps = pre ++ [s] ++ post) ∧ LocalRun crypto start (pre ++ [s]) s.after := by
  induction h with
  | nil => cases hs
  | @snoc steps reg reg' m clk hrun hcall ih =>
    cases List.mem_append.mp hs with
    | inl hold =>
      obtain ⟨pre, ⟨post, rfl⟩, hpre⟩ := ih hold
      exact ⟨pre, ⟨post ++ [⟨reg, m, clk, reg'⟩], List.append_assoc ..⟩, hpre⟩
    | inr hnew =>
      obtain rfl := List.mem_singleton.mp hnew
      exact ⟨steps, ⟨[], (List.append_nil _).symm⟩, hrun.snoc m clk hcall⟩

theorem vouched_run (hsig : ∀ sk digest pk, crypto.verify (crypto.sign sk digest) digest pk = true ↔ pair sk pk)
    (hrun : LocalRun crypto start steps reg)
    (hstart : ∀ e ∈ start.auditLog.rows, Vouched crypto start e)
    (hsigned : ∀ s ∈ steps, s.SignedByPeer pair) :
    ∀ e ∈ written crypto start steps, Vouched crypto reg e := by
  induction hrun with
  | nil =>
    rw [written, List.filterMap_nil, List.append_nil]
    exact hstart
  | @snoc steps reg reg' m clk hrun hcall ih =>
    intro e he
    rw [written_snoc] at he
    cases List.mem_append.mp he with
    | inl hold => exact (ih (fun s hs => hsigned s (List.mem_append_left _ hs)) e hold).keep hcall
    | inr hnew =>
      obtain ⟨c, hc, rfl⟩ := Option.map_eq_some_iff.mp (Option.mem_toList.mp hnew)
      have hlast := hsigned _ (List.mem_append_right _ (List.mem_singleton_self _)) c hc
      exact (vouched_entry_iff hsig hcall c).mpr hlast

end Signers

/-- Below the retention limit the log of local calls is always one chain, and it verifies in every
state of the run exactly where each call was signed by a peer with its own key. -/
theorem local_chain_verifies_iff {crypto : Crypto} {pair : SecretKey → PublicKey → Prop}
    {start reg : Registrar} {steps : List LocalStep}
    (hsig : ∀ sk digest pk, crypto.verify (crypto.sign sk digest) digest pk = true ↔ pair sk pk)
    (hcreate : grCreate crypto groupName groupType owner epochKey clk = .ok start)
    (hrun : LocalRun crypto start steps reg) (hfree : CollisionFree crypto (written crypto start steps))
    (hlen : (written crypto start steps).length < auditMaxRows) :
    (∀ r ∈ start :: steps.map LocalStep.after, SingleChain r.auditLog.rows) ∧
      ((∀ r ∈ start :: steps.map LocalStep.after, (auditVerifyChain crypto r).Clean) ↔
        pair owner.secretKey owner.publicKey ∧ ∀ s ∈ steps, s.SignedByPeer pair) := by
  have hbase := grown_grCreate hcreate
  have hfirst : (∀ e ∈ start.auditLog.rows.reverse, Vouched crypto start e) ↔
      pair owner.secretKey owner.publicKey := by
    simp only [List.mem_reverse]
    exact vouched_founding hsig hcreate
  have hstep : ∀ s ∈ steps, ∃ pre, (∃ post, steps = pre ++ [s] ++ post) ∧
      LocalRun crypto start (pre ++ [s]) s.after ∧
      Grown crypto (written crypto start (pre ++ [s])).reverse s.after := by
    intro s hs
    obtain ⟨pre, ⟨post, hsplit⟩, hpre⟩ := hrun.upto hs
    have hbegin : written crypto start steps =
        written crypto start (pre ++ [s]) ++ post.filterMap (LocalStep.entry crypto) := by
      rw [written, hsplit, List.filterMap_append, ← List.append_assoc, written]
    refine ⟨pre, ⟨post, hsplit⟩, hpre, grown_run hcreate hpre (hfree.mono ?_) ?_⟩
    · intro e he
      rw [hbegin]
      exact List.mem_append_left _ he
    · rw [hbegin, List.length_append] at hlen
      exact Nat.lt_of_le_of_lt (Nat.le_add_right ..) hlen
  constructor
  · intro r hr
    cases List.mem_cons.mp hr with
    | inl heq =>
      rw [heq]
      exact hbase.singleChain
    | inr hafter =>
      obtain ⟨s, hs, rfl⟩ := List.mem_map.mp hafter
      obtain ⟨_, _, _, hgrown⟩ := hstep s hs
      exact hgrown.singleChain
  · constructor
    · intro hclean
      refine ⟨hfirst.mp (hbase.clean_iff.mp (hclean start List.mem_cons_self)), ?_⟩
      intro s hs c hc
      obtain ⟨pre, _, _, hgrown⟩ := hstep s hs
      have hafter := hgrown.clean_iff.mp
        (hclean s.after (List.mem_cons_of_mem _ (List.mem_map.mpr ⟨s, hs, rfl⟩)))
      refine (vouched_entry_iff hsig (hrun.step s hs) c).mp (hafter _ ?_)
      rw [List.mem_reverse, written_snoc, List.mem_append, Option.mem_toList]
      exact .inr (by rw [LocalStep.entry, hc]; rfl)
    · intro hsigned r hr
      have hstart : ∀ e ∈ start.auditLog.rows, Vouched crypto start e := by
        intro e he
        exact hfirst.mpr hsigned.1 e (List.mem_reverse.mpr he)
      cases List.mem_cons.mp hr with
      | inl heq =>
        rw [heq]
        exact hbase.clean_iff.mpr (hfirst.mpr hsigned.1)
      | inr hafter =>
        obtain ⟨s, hs, rfl⟩ := List.mem_map.mp hafter
        obtain ⟨pre, ⟨post, hsplit⟩, hpre, hgrown⟩ := hstep s hs
        refine hgrown.clean_iff.mpr fun e he => ?_
        refine vouched_run hsig hpre hstart (fun s' hs' => hsigned.2 s' ?_) e (List.mem_reverse.mp he)
        rw [hsplit]
        exact List.mem_append_left _ hs'

section Outsider

def announce (who : Identity) : LocalStep where
  before := createdGroup lengthHash
  call := .peerUpdateAddress [] 0 who
  clk := ⟨2, 2000000⟩
  after := auditAppend (onlySigner lengthHash (member 1))
    (updateAddr (createdGroup lengthHash) who.peerId [] 0 2) .peerAddress who (some who.peerId)
    (ascii "address updated") 2000000

theorem announce_run (who : Identity) : LocalRun (onlySigner lengthHash (member 1))
    (createdGroup lengthHash) [announce who] (announce who).after := by
  have hnil : LocalRun (onlySigner lengthHash (member 1)) (createdGroup lengthHash) []
    (createdGroup lengthHash) := .nil
  exact hnil.snoc (.peerUpdateAddress [] 0 who) ⟨2, 2000000⟩ rfl

theorem collisionFree_of_details {crypto : Crypto} {l : List AuditEntry} {lengths : List ℕ}
    (hskein : crypto.skein = lengthHash) (hl : l.map (fun e => e.detail.val.length) = lengths)
    (hnodup : lengths.Nodup) (hshort : ∀ n ∈ lengths, n < 48) : CollisionFree crypto l := by
  subst hl
  have hlen : ∀ e ∈ l, e.hashed.length < 256 := by
    intro e he
    have hdetail := hshort _ (List.mem_map_of_mem he)
    rw [length_hashed]
    omega
  constructor
  · intro e he e' he' heq
    rw [hskein] at heq
    have hsame : e.hashed.length = e'.hashed.length := by
      by_contra hne
      exact lengthHash_ne hne (hlen e he) (hlen e' he') heq
    rw [length_hashed, length_hashed, Nat.add_left_cancel_iff] at hsame
    rw [List.inj_on_of_nodup_map hnodup he he' hsame]
  · intro e he
    have hzero : zeroBytes 128 = lengthHash [] := by decide
    rw [hskein, hzero]
    refine lengthHash_ne ?_ (hlen e he) (by decide)
    rw [length_hashed, List.length_nil]
    omega

def onlyOwner (_ : SecretKey) (pk : PublicKey) : Prop := pk = (member 1).publicKey

theorem onlyOwner_signs (sk : SecretKey) (digest : Hash) (pk : PublicKey) :
    (onlySigner lengthHash (member 1)).verify ((onlySigner lengthHash (member 1)).sign sk digest)
      digest pk = true ↔ onlyOwner sk pk := decide_eq_true_iff

theorem announce_details (who : Identity) :
    (written (onlySigner lengthHash (member 1)) (createdGroup lengthHash) [announce who]).map
      (fun e => e.detail.val.length) = [13, 15] := by
  rw [written, List.map_append, rows_grCreate grCreate_createdGroup]
  rfl

theorem announce_collisionFree (who : Identity) : CollisionFree (onlySigner lengthHash (member 1))
    (written (onlySigner lengthHash (member 1)) (createdGroup lengthHash) [announce who]) :=
  collisionFree_of_details rfl (announce_details who) (by decide) (by decide)

theorem announce_short (who : Identity) : (written (onlySigner lengthHash (member 1))
    (createdGroup lengthHash) [announce who]).length < auditMaxRows := by
  have hlen := congrArg List.length (announce_details who)
  rw [List.length_map] at hlen
  rw [hlen]
  decide

theorem outsider_keyless : (announce outsider).call.keyOf (announce outsider).before outsider.peerId =
    none := by
  have hpeers : (createdGroup lengthHash).peers = Table.empty.upsert (ownerPeer (member 1) 1) := rfl
  change ((createdGroup lengthHash).peers.find? outsider.peerId).map Peer.signKey = none
  rw [hpeers, Table.find?_upsert, Function.update_of_ne]
  · rfl
  · exact fun h => absurd (peerId_inj.mp h) (by decide)

theorem local_chain_verifies_iff_announced :
    (∀ r ∈ createdGroup lengthHash :: [announce (member 1)].map LocalStep.after,
        SingleChain r.auditLog.rows) ∧
      ((∀ r ∈ createdGroup lengthHash :: [announce (member 1)].map LocalStep.after,
          (auditVerifyChain (onlySigner lengthHash (member 1)) r).Clean) ↔
        onlyOwner (member 1).secretKey (member 1).publicKey ∧
          ∀ s ∈ [announce (member 1)], s.SignedByPeer onlyOwner) :=
  local_chain_verifies_iff onlyOwner_signs grCreate_createdGroup (announce_run _)
    (announce_collisionFree _) (announce_short _)

theorem outsider_breaks_chain : ¬ ∀ (crypto : Crypto) (pair : SecretKey → PublicKey → Prop)
    (name : List Byte) (type : BitVec 32) (owner : Identity) (key : EpochKey) (clk : Clock)
    (start reg : Registrar) (steps : List LocalStep),
    (∀ sk digest pk, crypto.verify (crypto.sign sk digest) digest pk = true ↔ pair sk pk) →
    pair owner.secretKey owner.publicKey → grCreate crypto name type owner key clk = .ok start →
    LocalRun crypto start steps reg → CollisionFree crypto (written crypto start steps) →
    (written crypto start steps).length < auditMaxRows →
    SingleChain reg.auditLog.rows ∧ (auditVerifyChain crypto reg).Clean := by
  intro h
  have hclean := (h _ _ _ _ _ _ _ _ _ _ onlyOwner_signs rfl grCreate_createdGroup
    (announce_run outsider) (announce_collisionFree _) (announce_short _)).2
  have hgrown := grown_run grCreate_createdGroup (announce_run outsider)
    (announce_collisionFree _) (announce_short _)
  have hvouched := hgrown.clean_iff.mp hclean _
    (List.mem_reverse.mpr (List.mem_append_right _ (List.mem_singleton_self _)))
  obtain ⟨key, hkey, _⟩ := (vouched_entry_iff onlyOwner_signs
    ((announce_run outsider).step _ (List.mem_singleton_self _))
    ⟨.peerAddress, outsider, some outsider.peerId, ascii "address updated"⟩).mp hvouched
  rw [outsider_keyless] at hkey
  cases hkey

end Outsider

end YumiBrowser.Group
