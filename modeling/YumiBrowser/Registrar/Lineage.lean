import Mathlib.Data.List.Perm.Subperm
import YumiBrowser.Registrar.Retention

namespace YumiBrowser.Group

open Wire Keyed

def Taken (crypto : Crypto) (reg : Registrar) (d : Delta) : Prop :=
  ∀ e ∈ d.entries, reg.auditLog.find? e.entryHash = none → ¬ admissible crypto reg d.state e →
    reg.header.version < e.registrarVersion ∧
      ∀ a ∈ d.entries, reg.auditLog.find? a.entryHash = none → admissible crypto reg d.state a →
        a.registrarVersion < e.registrarVersion

structure Lineage (made : List AuditEntry) : Prop where
  below : ∀ e ∈ made, e.registrarVersion.toNat < 2 ^ 31
  later : made.Pairwise fun a b => b.registrarVersion < a.registrarVersion
  hashes : (made.map AuditEntry.entryHash).Nodup
  preds : made.map AuditEntry.prevHash = made.tail.map AuditEntry.entryHash ++ [zeroBytes 128]
  nonzero : ∀ e ∈ made.tail, e.entryHash ≠ zeroBytes 128

/-- A log at version `v`: of the entries made, it has those up to `v`, as far back as it reaches. -/
structure Holds (made : List AuditEntry) (v : BitVec 32) (log : AuditLog) : Prop where
  known : ∀ e ∈ log.rows, e ∈ made ∧ e.registrarVersion ≤ v
  recent : ∀ e ∈ made.take auditMaxRows, e.registrarVersion ≤ v → e ∈ log.rows
  short : log.rows.length ≤ auditMaxRows

section Lineage

variable {made older newer l : List AuditEntry} {e e' top : AuditEntry} {n : ℕ}

theorem Lineage.hash_inj (h : Lineage made) (he : e ∈ made) (he' : e' ∈ made)
    (heq : e.entryHash = e'.entryHash) : e = e' :=
  List.inj_on_of_nodup_map h.hashes he he' heq

theorem Lineage.toInt (h : Lineage made) (he : e ∈ made) :
    e.registrarVersion.toInt = e.registrarVersion.toNat :=
  BitVec.toInt_eq_toNat_of_lt (by have := h.below e he; omega)

theorem Lineage.linear (h : Lineage made) (hl : ∀ e ∈ l, e ∈ made) : Linear l := by
  constructor
  · intro e he e' he' heq
    have hnodup : (made.map AuditEntry.registrarVersion).Nodup :=
      List.pairwise_map.mpr (h.later.imp fun hlt => (BitVec.ne_of_lt hlt).symm)
    exact List.inj_on_of_nodup_map hnodup (hl e he) (hl e' he') heq
  · intro e he e' he' heq
    have hnodup : (made.map AuditEntry.prevHash).Nodup := by
      rw [h.preds, List.nodup_append]
      refine ⟨h.hashes.sublist ((List.tail_sublist made).map _), List.nodup_singleton _, ?_⟩
      intro a ha b hb
      obtain ⟨x, hx, rfl⟩ := List.mem_map.mp ha
      rw [List.mem_singleton.mp hb]
      exact h.nonzero x hx
    exact List.inj_on_of_nodup_map hnodup (hl e he) (hl e' he') heq

theorem Lineage.cons (h : Lineage (top :: older)) (hprev : e.prevHash = top.entryHash)
    (hlater : top.registrarVersion < e.registrarVersion) (hbelow : e.registrarVersion.toNat < 2 ^ 31)
    (hfresh : ∀ a ∈ top :: older, a.entryHash ≠ zeroBytes 128 ∧ a.entryHash ≠ e.entryHash) :
    Lineage (e :: top :: older) := by
  constructor
  · intro a ha
    cases List.mem_cons.mp ha with
    | inl heq => rw [heq]; exact hbelow
    | inr ha => exact h.below a ha
  · refine List.pairwise_cons.mpr ⟨?_, h.later⟩
    intro a ha
    cases List.mem_cons.mp ha with
    | inl heq => rw [heq]; exact hlater
    | inr ha => exact BitVec.lt_trans ((List.pairwise_cons.mp h.later).1 a ha) hlater
  · rw [List.map_cons, List.nodup_cons]
    refine ⟨?_, h.hashes⟩
    intro hmem
    obtain ⟨a, ha, heq⟩ := List.mem_map.mp hmem
    exact (hfresh a ha).2 heq
  · rw [List.map_cons, hprev, h.preds]
    rfl
  · exact fun a ha => (hfresh a ha).1

theorem Lineage.few_newer (h : Lineage made) (he : e ∈ made.take n) (hnodup : newer.Nodup)
    (hnewer : ∀ a ∈ newer, a ∈ made ∧ e.registrarVersion < a.registrarVersion) : newer.length < n := by
  obtain ⟨pre, post, hsplit⟩ := List.append_of_mem he
  have hmade : made = pre ++ e :: (post ++ made.drop n) := by
    rw [← List.cons_append, ← List.append_assoc, ← hsplit, List.take_append_drop]
  have hlater := h.later
  rw [hmade] at hlater
  have hbefore : newer ⊆ pre := by
    intro a ha
    obtain ⟨hmem, hlt⟩ := hnewer a ha
    rw [hmade] at hmem
    cases List.mem_append.mp hmem with
    | inl hpre => exact hpre
    | inr hmem =>
      cases List.mem_cons.mp hmem with
      | inl heq => exact absurd hlt (by rw [heq]; exact BitVec.lt_irrefl _)
      | inr hafter =>
        have hgt := (List.pairwise_cons.mp (List.pairwise_append.mp hlater).2.1).1 a hafter
        exact absurd hlt (BitVec.not_lt.mpr (BitVec.le_of_lt hgt))
  have hlen := (List.subperm_of_subset hnodup hbefore).length_le
  have htake := congrArg List.length hsplit
  rw [List.length_append, List.length_cons] at htake
  have hmin := List.length_take_le n made
  omega

end Lineage

section Holds

variable {crypto : Crypto} {reg reg' sender : Registrar} {made older : List AuditEntry}
  {e top : AuditEntry} {log : AuditLog} {v since : BitVec 32} {d : Delta}

theorem Holds.grow (h : Holds made v log) (hv : v < e.registrarVersion) : Holds (e :: made) v log := by
  constructor
  · intro a ha
    exact ⟨List.mem_cons_of_mem _ (h.known a ha).1, (h.known a ha).2⟩
  · intro a ha hle
    rw [show auditMaxRows = (auditMaxRows - 1) + 1 from rfl, List.take_succ_cons] at ha
    cases List.mem_cons.mp ha with
    | inl heq => exact absurd hle (by rw [heq]; exact BitVec.not_le.mpr hv)
    | inr ha => exact h.recent a (List.take_subset_take_left made (Nat.sub_le _ 1) ha) hle
  · exact h.short

theorem Holds.cut (hlin : Lineage made)
    (hknown : ∀ e ∈ log.rows, e ∈ made ∧ e.registrarVersion ≤ v)
    (hrecent : ∀ e ∈ made.take auditMaxRows, e.registrarVersion ≤ v → e ∈ log.rows) :
    Holds made v (enforceRetention log) := by
  have hlinear : Linear log.rows := hlin.linear fun e he => (hknown e he).1
  constructor
  · exact fun e he => hknown e (enforceRetention_subset he)
  · intro e he hle
    by_contra hdrop
    obtain ⟨newer, hnodup, hlen, hnewer⟩ := newer_of_dropped hlinear (hrecent e he hle) hdrop
    have hfew := hlin.few_newer he hnodup fun a ha => by
      obtain ⟨hmem, hlt⟩ := hnewer a ha
      have hmade := (hknown a hmem).1
      rw [hlin.toInt (List.mem_of_mem_take he), hlin.toInt hmade] at hlt
      exact ⟨hmade, BitVec.lt_def.mpr (by exact_mod_cast hlt)⟩
    omega
  · exact length_enforceRetention hlinear

theorem Holds.mem_iff (hlin : Lineage made) (h : Holds made v log)
    (hall : ∀ e ∈ made, e.registrarVersion ≤ v) : e ∈ log.rows ↔ e ∈ made.take auditMaxRows := by
  have hrecent : ∀ a ∈ made.take auditMaxRows, a ∈ log.rows := fun a ha =>
    h.recent a ha (hall a (List.mem_of_mem_take ha))
  have hnodup : (made.take auditMaxRows).Nodup := hlin.hashes.of_map.sublist (List.take_sublist ..)
  have hbound : log.rows.length ≤ made.length :=
    (List.subperm_of_subset (nodup_rows log) fun a ha => (h.known a ha).1).length_le
  have hlen : log.rows.length ≤ (made.take auditMaxRows).length := by
    rw [List.length_take]
    exact Nat.le_min.mpr ⟨h.short, hbound⟩
  exact ((List.subperm_of_subset hnodup hrecent).perm_of_length_le hlen).mem_iff.symm

theorem lastHash_of_holds (hlin : Lineage (top :: older)) (h : Holds (top :: older) v log)
    (hv : top.registrarVersion ≤ v) : lastHash log = some top.entryHash := by
  have htop : top ∈ log.rows := h.recent top (List.mem_cons_self) hv
  unfold lastHash
  cases hmax : log.rows.argmax AuditEntry.place with
  | none => exact absurd htop (by rw [List.argmax_eq_none.mp hmax]; exact List.not_mem_nil)
  | some m =>
    have hm := List.argmax_mem hmax
    have hle := List.le_of_mem_argmax htop hmax
    have hsame : m = top := by
      cases List.mem_cons.mp (h.known m hm).1 with
      | inl heq => exact heq
      | inr holder =>
        have hlt := (List.pairwise_cons.mp hlin.later).1 m holder
        have hint : m.registrarVersion.toInt < top.registrarVersion.toInt := by
          rw [hlin.toInt (List.mem_cons_of_mem _ holder), hlin.toInt List.mem_cons_self]
          exact_mod_cast BitVec.lt_def.mp hlt
        cases Prod.Lex.le_iff.mp hle with
        | inl hgt => exact absurd hgt (not_lt.mpr hint.le)
        | inr heq => exact absurd heq.1.symm (ne_of_lt hint)
    rw [hsame]
    rfl

theorem filter_enforceRetention (log : AuditLog) :
    ∃ p : AuditEntry → Bool, (enforceRetention log).rows = log.rows.filter p := by
  unfold enforceRetention
  split
  · exact ⟨fun _ => true, (List.filter_true _).symm⟩
  · exact ⟨_, rfl⟩

theorem Holds.write (hlin : Lineage (top :: older)) (hv : reg.header.version = top.registrarVersion)
    (h : Holds (top :: older) reg.header.version reg.auditLog) (hw : Writes reg reg' e)
    (hbelow : reg.header.version.toNat + 1 < 2 ^ 31)
    (hfresh : ∀ a ∈ top :: older, a.entryHash ≠ zeroBytes 128 ∧ a.entryHash ≠ e.entryHash) :
    reg.header.version < e.registrarVersion ∧ Lineage (e :: top :: older) ∧
      Holds (e :: top :: older) reg'.header.version reg'.auditLog ∧
      (reg'.auditLog.rows.filter fun a => a ∉ reg.auditLog.rows) = [e] := by
  have hnat : e.registrarVersion.toNat = reg.header.version.toNat + 1 := by
    rw [hw.version, BitVec.toNat_add]
    exact Nat.mod_eq_of_lt (by simp; omega)
  have hlt : reg.header.version < e.registrarVersion := by
    rw [BitVec.lt_def, hnat]
    exact Nat.lt_succ_self _
  have hnew : reg.auditLog.find? e.entryHash = none := by
    rw [Table.find?_eq_none]
    exact fun a ha => (hfresh a (h.known a ha).1).2
  have hrows : (reg.auditLog.insertIgnore e).rows = reg.auditLog.rows ++ [e] :=
    Table.rows_insertIgnore hnew
  have hprev : e.prevHash = top.entryHash := by
    rw [hw.prev, lastHash_of_holds hlin h (BitVec.le_of_eq hv.symm)]
    rfl
  have hlin' : Lineage (e :: top :: older) :=
    hlin.cons hprev (hv ▸ hlt) (by rw [hnat]; exact hbelow) hfresh
  have hmade : e ∉ top :: older := fun hmem => (hfresh e hmem).2 rfl
  have hgrown := h.grow hlt
  have hholds : Holds (e :: top :: older) reg'.header.version reg'.auditLog := by
    rw [hw.log, hw.header]
    apply Holds.cut hlin'
    · intro a ha
      rw [hrows] at ha
      cases List.mem_append.mp ha with
      | inl ha =>
        exact ⟨(hgrown.known a ha).1, BitVec.le_trans (hgrown.known a ha).2 (BitVec.le_of_lt hlt)⟩
      | inr ha =>
        rw [List.mem_singleton.mp ha]
        exact ⟨List.mem_cons_self, BitVec.le_refl _⟩
    · intro a ha _
      rw [hrows, List.mem_append, List.mem_singleton]
      cases List.mem_cons.mp (List.mem_of_mem_take ha) with
      | inl heq => exact .inr heq
      | inr hold =>
        refine .inl (hgrown.recent a ha ?_)
        rw [hv]
        cases List.mem_cons.mp hold with
        | inl heq => exact BitVec.le_of_eq (congrArg _ heq)
        | inr hold => exact BitVec.le_of_lt ((List.pairwise_cons.mp hlin.later).1 a hold)
  refine ⟨hlt, hlin', hholds, ?_⟩
  have hkept : e ∈ reg'.auditLog.rows := by
    apply hholds.recent e List.mem_cons_self
    rw [hw.header]
    exact BitVec.le_refl _
  obtain ⟨p, hp⟩ := filter_enforceRetention (reg.auditLog.insertIgnore e)
  rw [hw.log, hp, hrows] at hkept
  rw [hw.log, hp, hrows, List.filter_filter, List.filter_append]
  have hold : reg.auditLog.rows.filter (fun a => decide (a ∉ reg.auditLog.rows) && p a) = [] := by
    apply List.filter_eq_nil_iff.mpr
    intro a ha
    simp [ha]
  have hin : e ∉ reg.auditLog.rows := fun hmem => hmade (h.known e hmem).1
  have hpe := (List.mem_filter.mp hkept).2
  rw [hold, List.nil_append, List.filter_singleton]
  simp [hin, hpe]

theorem version_mergeEntries (crypto : Crypto) (reg : Registrar) (d : Delta) :
    reg.header.version ≤ (mergeEntries crypto reg d).version ∧
      (∀ e ∈ (mergeEntries crypto reg d).inserted,
        e.registrarVersion ≤ (mergeEntries crypto reg d).version) ∧
      ((mergeEntries crypto reg d).version = reg.header.version ∨
        ∃ e ∈ (mergeEntries crypto reg d).inserted,
          (mergeEntries crypto reg d).version = e.registrarVersion) := by
  have hstep : ∀ (l : List AuditEntry) (m : Merging),
      (reg.header.version ≤ m.version ∧ (∀ e ∈ m.inserted, e.registrarVersion ≤ m.version) ∧
        (m.version = reg.header.version ∨ ∃ e ∈ m.inserted, m.version = e.registrarVersion)) →
      reg.header.version ≤ (l.foldl (mergeEntry crypto reg d.state) m).version ∧
        (∀ e ∈ (l.foldl (mergeEntry crypto reg d.state) m).inserted,
          e.registrarVersion ≤ (l.foldl (mergeEntry crypto reg d.state) m).version) ∧
        ((l.foldl (mergeEntry crypto reg d.state) m).version = reg.header.version ∨
          ∃ e ∈ (l.foldl (mergeEntry crypto reg d.state) m).inserted,
            (l.foldl (mergeEntry crypto reg d.state) m).version = e.registrarVersion) := by
    intro l
    induction l with
    | nil => exact fun m h => h
    | cons a l ih =>
      intro m h
      apply ih
      obtain ⟨hle, hmax, heq⟩ := h
      unfold mergeEntry
      split
      · exact ⟨hle, hmax, heq⟩
      · split
        · exact ⟨hle, hmax, heq⟩
        · simp only [List.mem_append, List.mem_singleton]
          by_cases hgt : a.registrarVersion > m.version
          · rw [if_pos hgt]
            refine ⟨BitVec.le_trans hle (BitVec.le_of_lt hgt), ?_, .inr ⟨a, .inr rfl, rfl⟩⟩
            intro e he
            cases he with
            | inl he => exact BitVec.le_trans (hmax e he) (BitVec.le_of_lt hgt)
            | inr he => rw [he]; exact BitVec.le_refl _
          · rw [if_neg hgt]
            refine ⟨hle, ?_, heq.imp id (Exists.imp fun _ h => ⟨.inl h.1, h.2⟩)⟩
            intro e he
            cases he with
            | inl he => exact hmax e he
            | inr he => rw [he]; exact BitVec.not_lt.mp hgt
  apply hstep
  refine ⟨BitVec.le_refl _, ?_, .inl rfl⟩
  intro e he
  cases he

theorem mem_auditDelta : e ∈ auditDelta sender since ↔
    e ∈ sender.auditLog.rows ∧ since.toInt < e.registrarVersion.toInt := by
  rw [auditDelta, List.mem_mergeSort, List.mem_filter, decide_eq_true_iff]

theorem Holds.merge (hlin : Lineage made) (h : Holds made reg.header.version reg.auditLog)
    (hs : Holds made sender.header.version sender.auditLog) (hsince : since ≤ reg.header.version)
    (hd : d.entries = auditDelta sender since) (htaken : Taken crypto reg d) :
    reg.header.version ≤ (applied crypto reg d).header.version ∧
      ((applied crypto reg d).header.version = reg.header.version ∨
        (applied crypto reg d).header.version ≤ sender.header.version) ∧
      Holds made (applied crypto reg d).header.version (applied crypto reg d).auditLog := by
  have hversion : (applied crypto reg d).header.version = (mergeEntries crypto reg d).version := by
    rw [applied, header_cutLog]
    rfl
  have hrows : (grownLog crypto reg d).rows =
      reg.auditLog.rows ++ (mergeEntries crypto reg d).inserted := by
    rw [← log_mergeEntries, rows_mergeEntries]
  have hsent : ∀ e ∈ d.entries, e ∈ made ∧ e.registrarVersion ≤ sender.header.version := by
    intro e he
    rw [hd] at he
    exact hs.known e (mem_auditDelta.mp he).1
  have hdnodup : d.entries.Nodup := by
    rw [hd]
    exact (List.mergeSort_perm ..).nodup_iff.mpr ((nodup_rows _).filter _)
  have hmem : ∀ e, e ∈ (mergeEntries crypto reg d).inserted ↔ e ∈ d.entries ∧
      reg.auditLog.find? e.entryHash = none ∧ admissible crypto reg d.state e := by
    intro e
    rw [mem_inserted]
    constructor
    · rintro ⟨pre, post, hsplit, hnew, hadm, _⟩
      exact ⟨by rw [hsplit]; simp, hnew, hadm⟩
    · rintro ⟨he, hnew, hadm⟩
      obtain ⟨pre, post, hsplit⟩ := List.append_of_mem he
      refine ⟨pre, post, hsplit, hnew, hadm, ?_⟩
      intro a ha heq _
      have hmade := (hsent a (by rw [hsplit]; simp [ha])).1
      obtain rfl := hlin.hash_inj hmade (hsent e he).1 heq
      rw [hsplit] at hdnodup
      exact (List.nodup_append.mp hdnodup).2.2 a ha a List.mem_cons_self rfl
  obtain ⟨hle, hmax, heq⟩ := version_mergeEntries crypto reg d
  have hbound : (mergeEntries crypto reg d).version = reg.header.version ∨
      (mergeEntries crypto reg d).version ≤ sender.header.version := by
    apply heq.imp id
    rintro ⟨a, ha, hv⟩
    rw [hv]
    exact (hsent a ((hmem a).mp ha).1).2
  have hknown : ∀ e ∈ (grownLog crypto reg d).rows,
      e ∈ made ∧ e.registrarVersion ≤ (mergeEntries crypto reg d).version := by
    intro e he
    rw [hrows] at he
    cases List.mem_append.mp he with
    | inl he => exact ⟨(h.known e he).1, BitVec.le_trans (h.known e he).2 hle⟩
    | inr he => exact ⟨(hsent e ((hmem e).mp he).1).1, hmax e he⟩
  have hrecent : ∀ e ∈ made.take auditMaxRows,
      e.registrarVersion ≤ (mergeEntries crypto reg d).version → e ∈ (grownLog crypto reg d).rows := by
    intro e he hev
    rw [hrows, List.mem_append]
    by_cases hold : e.registrarVersion ≤ reg.header.version
    · exact .inl (h.recent e he hold)
    · have hgt := BitVec.not_le.mp hold
      have hmade := List.mem_of_mem_take he
      have hin : e ∈ d.entries := by
        have hreach : (mergeEntries crypto reg d).version ≤ sender.header.version := by
          apply hbound.resolve_left
          intro hsame
          exact hold (hsame ▸ hev)
        rw [hd, mem_auditDelta, hlin.toInt hmade]
        refine ⟨hs.recent e he (BitVec.le_trans hev hreach), ?_⟩
        have hlt := Nat.lt_of_le_of_lt (BitVec.le_def.mp hsince) (BitVec.lt_def.mp hgt)
        rw [BitVec.toInt_eq_toNat_of_lt (by have := hlin.below e hmade; omega)]
        exact_mod_cast hlt
      have hnew : reg.auditLog.find? e.entryHash = none := by
        rw [Table.find?_eq_none]
        intro a ha hhash
        obtain rfl := hlin.hash_inj (h.known a ha).1 hmade hhash
        exact hold (h.known a ha).2
      refine .inr ((hmem e).mpr ⟨hin, hnew, ?_⟩)
      by_contra hrefused
      obtain ⟨_, hgap⟩ := htaken e hin hnew hrefused
      cases heq with
      | inl hsame => exact hold (hsame ▸ hev)
      | inr hlast =>
        obtain ⟨a, ha, hv⟩ := hlast
        obtain ⟨hain, hanew, haadm⟩ := (hmem a).mp ha
        rw [hv] at hev
        exact BitVec.not_le.mpr (hgap a hain hanew haadm) hev
  rw [hversion]
  refine ⟨hle, hbound, ?_⟩
  rw [auditLog_applied, keptLog]
  split
  · exact Holds.cut hlin hknown hrecent
  · rename_i hshort
    exact ⟨hknown, hrecent, (not_lt.mp hshort).trans h.short⟩

theorem rows_grCreate {reg : Registrar}
    (h : grCreate crypto groupName groupType owner epochKey clk = .ok reg) :
    reg.auditLog.rows = [(⟨.peerAdded, owner, some owner.peerId, ascii "group created"⟩ : Record).entry
      crypto (founded crypto groupName groupType owner epochKey clk.ms) clk.ns] := by
  have hw := @Writes.append crypto _ _ clk.ns
    ⟨.peerAdded, owner, some owner.peerId, ascii "group created"⟩
    (Eq.refl (founded crypto groupName groupType owner epochKey clk.ms).logView)
  rw [grCreate_cases h]
  apply hw.rows (show 0 < auditMaxRows by decide)
  intro a ha
  cases ha

theorem log_grCreate {reg : Registrar}
    (h : grCreate crypto groupName groupType owner epochKey clk = .ok reg) :
    ∃ e, reg.auditLog.rows = [e] ∧ e.registrarVersion = 2 ∧ reg.header.version = 2 ∧
      e.prevHash = zeroBytes 128 := by
  refine ⟨_, rows_grCreate h, rfl, ?_, rfl⟩
  rw [grCreate_cases h]
  rfl

end Holds

end YumiBrowser.Group
