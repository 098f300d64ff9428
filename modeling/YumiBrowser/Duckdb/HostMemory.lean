import YumiBrowser.Duckdb.Calls

namespace YumiBrowser.Duckdb

open Wire Handles

variable {E : Engine}

/-- The chunk has a value of type `T` there. -/
def Chunk.Holds (c : Chunk) (col row : ℕ) (T : CType) : Prop :=
  row < c.size ∧ ∃ v, c.columns[col]? = some v ∧ v.type.stores = some T

def Read.Lawful (memSize : ℕ) : Read → Prop
  | .chunk c => c.isSome = true
  | .cell c col row T => ∃ c', c = some c' ∧ c'.Holds col row T
  | .validity c col row => ∃ c', c = some c' ∧ row < c'.size ∧ col < c'.columns.length
  | .column c col n => ∃ c', c = some c' ∧ n ≤ (Bindings.columnData c' col).length
  | .mask c col n => ∃ c' v mask, c = some c' ∧ c'.columns[col]? = some v ∧ v.validity = some mask ∧
      n ≤ (Bindings.maskBytes mask).length
  | .guest ptr len => ptr + len ≤ memSize
  | .text buf n => n ≤ buf.size
  | .data buf n => n ≤ buf.size ∧ n < buf.bytes.length

def Call.default? : Call → Option Val
  | .chunkIsNull .. | .valueIsNull .. => some (.i32 1)
  | .chunkGet a .. | .value a .. => some a.zero
  | .chunkGetString .. | .valueString .. | .chunkCopyColumn .. | .chunkCopyValidity .. => some (.i32 0)
  | .chunkGetHugeint .. | .valueHugeint .. => some .unit
  | _ => none

namespace Bindings

variable (host : ℕ → Byte) (s : Bindings E)

def chunkOf (h : BitVec 32) : Option Chunk := (htableGet s.htChunk h).bind s.deref

def rowOf (h row : BitVec 32) : Option (Chunk × ℕ) := (s.getRw h).bind fun rw => ResultWrap.rowAt rw.all row.toNat

def Finds : Call → Prop
  | .chunkIsNull h col row => ∃ c, s.chunkOf h = some c ∧ row.toNat < c.size ∧ col.toNat < c.columns.length
  | .chunkGet a h col row => ∃ c, s.chunkOf h = some c ∧ c.Holds col.toNat row.toNat a.ctype
  | .chunkGetString h col row _ _ => ∃ c, s.chunkOf h = some c ∧ c.Holds col.toNat row.toNat .string
  | .chunkGetHugeint h col row _ => ∃ c, s.chunkOf h = some c ∧ c.Holds col.toNat row.toNat .hugeint
  | .chunkCopyColumn h col _ _ | .chunkCopyValidity h col _ _ =>
      ∃ c, s.chunkOf h = some c ∧ col.toNat < c.columns.length
  | .valueIsNull h col row => ∃ c ri, s.rowOf h row = some (c, ri) ∧ col.toNat < c.columns.length
  | .value a h col row => ∃ c ri, s.rowOf h row = some (c, ri) ∧ c.Holds col.toNat ri a.ctype
  | .valueString h col row _ _ => ∃ c ri, s.rowOf h row = some (c, ri) ∧ c.Holds col.toNat ri .string
  | .valueHugeint h col row _ => ∃ c ri, s.rowOf h row = some (c, ri) ∧ c.Holds col.toNat ri .hugeint
  | _ => True

/-- Nothing of the memory of the host gets out. -/
structure Sealed (event : Event) : Prop where
  lawful : ∀ read ∈ (s.next host event).2.reads, read.Lawful s.memSize
  default : ∀ call v, event = .call call → call.default? = some v → ¬ s.Finds call →
    (s.next host event).2.value = v ∧ (s.next host event).1.memory = s.memory
  blind : ∀ host', s.next host' event = s.next host event

def Fits (ptr len : BitVec 32) : Prop := len = 0xffffffff → s.memSize < ptr.toNat + len.toNat

def Copied (ptr len : BitVec 32) : Prop :=
  len = 0 ∨ ptr.toNat + len.toNat ≤ s.memSize ∧ len ≠ 0xffffffff

/-- What a guest has to see to, because the host does not. -/
def Confined : Event → Prop
  | .call (.query ptr len) | .call (.prepare ptr len) | .call (.extractStatements ptr len) => s.Fits ptr len
  | .call (.appenderCreate schemaPtr schemaLen tablePtr tableLen) => s.quotaExceeded = false →
      s.Fits schemaPtr schemaLen ∧ s.Fits tablePtr tableLen
  | .call (.tableDescCreate schemaPtr schemaLen tablePtr tableLen) =>
      s.Fits schemaPtr schemaLen ∧ s.Fits tablePtr tableLen
  | .call (.bindVarchar h _ ptr len) => (htableGet s.htPrepared h).isSome = true → s.Copied ptr len
  | .call (.appendVarchar h ptr len) => (htableGet s.htAppender h).isSome = true → s.Copied ptr len
  | .call (.chunkSize h) | .call (.chunkColumnCount h) | .call (.chunkColumnType h _)
  | .call (.chunkCopyColumn h _ _ _) => ∀ cw, htableGet s.htChunk h = some cw → (s.deref cw).isSome = true
  | .call (.chunkIsNull h col row) => ∀ cw, htableGet s.htChunk h = some cw →
      ∃ c, s.deref cw = some c ∧ row.toNat < c.size ∧ col.toNat < c.columns.length
  | .call (.chunkGet a h col row) => ∀ cw, htableGet s.htChunk h = some cw →
      ∃ c, s.deref cw = some c ∧ c.Holds col.toNat row.toNat a.ctype
  | .call (.chunkGetString h col row _ _) => ∀ cw, htableGet s.htChunk h = some cw →
      ∃ c, s.deref cw = some c ∧ c.Holds col.toNat row.toNat .string
  | .call (.chunkGetHugeint h col row _) => ∀ cw, htableGet s.htChunk h = some cw →
      ∃ c, s.deref cw = some c ∧ c.Holds col.toNat row.toNat .hugeint
  | .call (.chunkCopyValidity h col _ _) => ∀ cw, htableGet s.htChunk h = some cw →
      ∃ c, s.deref cw = some c ∧ (col.toNat < c.columns.length ∨ c.size = 0)
  | .call (.valueIsNull h col row) => ∀ c ri, s.rowOf h row = some (c, ri) → col.toNat < c.columns.length
  | .call (.value a h col row) => ∀ c ri, s.rowOf h row = some (c, ri) → c.Holds col.toNat ri a.ctype
  | .call (.valueString h col row _ _) => ∀ c ri, s.rowOf h row = some (c, ri) → c.Holds col.toNat ri .string
  | .call (.valueHugeint h col row _) => ∀ c ri, s.rowOf h row = some (c, ri) → c.Holds col.toNat ri .hugeint
  | _ => True

variable {host s}

section Sealed

variable {call : Call} {event : Event}

theorem sealed_of_quiet (hreads : ∀ read ∈ (s.call host call).2.reads, read.Lawful s.memSize)
    (hdefault : call.default? = none) (hblind : ∀ host', s.call host' call = s.call host call) :
    s.Sealed host (.call call) where
  lawful := hreads
  default call' v hevent hv := by
    cases hevent
    exact nomatch hdefault.symm.trans hv
  blind := hblind

theorem sealed_iff_lawful (hdefault : call.default? = none)
    (hblind : (∀ read ∈ (s.call host call).2.reads, read.Lawful s.memSize) →
      ∀ host', s.call host' call = s.call host call) :
    s.Sealed host (.call call) ↔ ∀ read ∈ (s.call host call).2.reads, read.Lawful s.memSize :=
  ⟨Sealed.lawful, fun hreads => sealed_of_quiet hreads hdefault (hblind hreads)⟩

theorem sealed_of_answer {t : Bindings E} {v : Val} (hmemory : t.memory = s.memory)
    (hcall : ∀ host, s.call host call = t.answer v []) (hdefault : call.default? = some v) :
    s.Sealed host (.call call) := by
  refine ⟨?_, fun call' v' hevent hv _ => ?_, fun host' => (hcall host').trans (hcall host).symm⟩
  · change ∀ read ∈ (s.call host call).2.reads, _
    rw [hcall]
    exact fun _ hread => nomatch hread
  · cases hevent
    cases hdefault.symm.trans hv
    change (s.call host call).2.value = v ∧ (s.call host call).1.memory = _
    rw [hcall]
    exact ⟨rfl, hmemory⟩

theorem sealed_of_missing {v : Val} (hcall : ∀ host, s.call host call = s.answer v [])
    (hdefault : call.default? = some v) : s.Sealed host (.call call) :=
  sealed_of_answer rfl hcall hdefault

theorem sealed_of_found (hreads : ∀ read ∈ (s.call host call).2.reads, read.Lawful s.memSize)
    (hfinds : s.Finds call) (hblind : ∀ host', s.call host' call = s.call host call) :
    s.Sealed host (.call call) where
  lawful := hreads
  default call' v hevent _ hnot := by
    cases hevent
    exact absurd hfinds hnot
  blind := hblind

theorem locateCell_eq (h row : BitVec 32) : (s.locateCell h row).2 = s.rowOf h row := by
  unfold locateCell rowOf
  cases s.getRw h with
  | none => rfl
  | some rw => exact rw.locate_eq row.toNat

theorem sealed_of_missing_cell {v : Val} {h row : BitVec 32}
    (hcall : ∀ host, s.call host call = (s.locateCell h row).1.answer v []) (hdefault : call.default? = some v) :
    s.Sealed host (.call call) := by
  have hmemory : (s.locateCell h row).1.memory = s.memory := by
    unfold locateCell
    split <;> rfl
  exact sealed_of_answer hmemory hcall hdefault

end Sealed

section Texts

variable {ptr len : BitVec 32}

theorem length_cstr_lt (data : Text) : (untilZero (data ++ [0])).length < data.length + 1 := by
  induction data with
  | nil => simp [untilZero]
  | cons b data ih =>
    unfold untilZero at ih ⊢
    rw [List.cons_append, List.takeWhile_cons]
    split
    · exact Nat.succ_lt_succ ih
    · exact Nat.succ_pos _

theorem toNat_succ : (len + 1).toNat = if len = 0xffffffff then 0 else len.toNat + 1 := by
  split
  · rename_i hmax
    rw [hmax]
    rfl
  · rename_i hmax
    have hne : len.toNat ≠ 4294967295 := fun h => hmax (BitVec.eq_of_toNat_eq h)
    have hlt := len.isLt
    rw [BitVec.toNat_add]
    change (len.toNat + 1) % 4294967296 = _
    omega

theorem length_guestData (h : ptr.toNat + len.toNat ≤ s.memSize) :
    (((s.memory.getD []).drop ptr.toNat).take len.toNat).length = len.toNat := by
  rw [List.length_take, List.length_drop]
  unfold memSize at h
  omega

theorem lawful_memReadString :
    (∀ read ∈ (s.memReadString ptr len).2, read.Lawful s.memSize) ↔ s.Fits ptr len := by
  unfold memReadString memReadCstr
  dsimp only
  split
  · rename_i hzero
    refine iff_of_true ?_ fun hmax => nomatch hzero.symm.trans hmax
    simp [Read.Lawful, Buffer.cstr, untilZero]
  · split
    · rename_i hout
      refine iff_of_true ?_ fun _ => hout
      simp [Read.Lawful, Buffer.cstr, untilZero]
    · rename_i hin
      have hlen := length_guestData (Nat.le_of_not_lt hin)
      have hcstr := length_cstr_lt (((s.memory.getD []).drop ptr.toNat).take len.toNat)
      rw [hlen] at hcstr
      simp only [List.cons_append, List.nil_append, List.forall_mem_cons, Read.Lawful, Buffer.cstr, List.not_mem_nil,
        false_implies, implies_true, and_true, toNat_succ, Fits]
      split
      · simp_all
      · rename_i hmax
        exact iff_of_true ⟨Nat.le_of_not_lt hin, hcstr⟩ fun h => absurd h hmax

theorem lawful_memReadCstr :
    (∀ read ∈ (s.memReadCstr ptr len).2 ++ [.data (s.memReadCstr ptr len).1 len.toNat], read.Lawful s.memSize) ↔
      s.Copied ptr len := by
  unfold memReadCstr Copied
  split
  · rename_i hzero
    refine iff_of_true ?_ (.inl hzero)
    simp [Read.Lawful, hzero]
  · rename_i hnonzero
    split
    · rename_i hout
      refine iff_of_false ?_ fun h => h.elim hnonzero fun h => Nat.not_le_of_lt hout h.1
      have hpos : len.toNat ≠ 0 := fun h => hnonzero (BitVec.eq_of_toNat_eq h)
      simp [Read.Lawful, hpos]
    · rename_i hin
      have hlen := length_guestData (Nat.le_of_not_lt hin)
      simp only [List.cons_append, List.nil_append, List.forall_mem_cons, Read.Lawful, List.not_mem_nil,
        false_implies, implies_true, and_true, toNat_succ, List.length_append, hlen, List.length_singleton,
        Nat.lt_succ_self, hnonzero, false_or]
      refine and_congr_right fun _ => ?_
      split
      · rename_i hmax
        exact iff_of_false (fun h => hnonzero (BitVec.eq_of_toNat_eq (Nat.le_zero.mp h))) fun h => h hmax
      · rename_i hmax
        exact iff_of_true (Nat.le_succ _) hmax

theorem take_eq {buf : Buffer} {n memSize : ℕ} (h : (Read.data buf n).Lawful memSize) (host host' : ℕ → Byte) :
    buf.take host n = buf.take host' n := by
  refine List.map_congr_left fun i hi => ?_
  have hlt := (List.mem_range.mp hi).trans h.2
  rw [List.getD_eq_getElem _ _ hlt, List.getD_eq_getElem _ _ hlt]

theorem lawful_memReadSchema :
    (∀ read ∈ (s.memReadSchema ptr len).2, read.Lawful s.memSize) ↔ s.Fits ptr len := by
  unfold memReadSchema
  split
  · exact lawful_memReadString
  · rename_i hzero
    refine iff_of_true (fun _ h => nomatch h) fun hmax => absurd ?_ hzero
    rw [hmax]
    decide

end Texts

section Calls

variable {ptr len h idx schemaPtr schemaLen tablePtr tableLen : BitVec 32}

theorem reads_gated {forbidden writer : Bool} {what : String} {run : Ran E} {reads : List Read} :
    (s.gated forbidden writer what run reads).2.reads = reads := by
  unfold gated
  repeat' split
  all_goals rfl

theorem reads_fnQuery : (s.fnQuery ptr len).2.reads = (s.memReadString ptr len).2 := by
  unfold fnQuery
  dsimp only
  split
  · rfl
  · exact reads_gated

theorem sealed_query : s.Sealed host (.call (.query ptr len)) ↔ s.Fits ptr len := by
  rw [sealed_iff_lawful rfl fun _ _ => by simp only [call], ← lawful_memReadString]
  change (∀ read ∈ (s.fnQuery ptr len).2.reads, _) ↔ _
  rw [reads_fnQuery]

theorem sealed_prepare : s.Sealed host (.call (.prepare ptr len)) ↔ s.Fits ptr len := by
  rw [sealed_iff_lawful rfl fun _ _ => by simp only [call], ← lawful_memReadString]
  simp only [call]
  rfl

theorem sealed_extractStatements : s.Sealed host (.call (.extractStatements ptr len)) ↔ s.Fits ptr len := by
  rw [sealed_iff_lawful rfl fun _ _ => by simp only [call], ← lawful_memReadString]
  simp only [call]
  rfl

theorem sealed_tableDescCreate :
    s.Sealed host (.call (.tableDescCreate schemaPtr schemaLen tablePtr tableLen)) ↔
      s.Fits schemaPtr schemaLen ∧ s.Fits tablePtr tableLen := by
  rw [sealed_iff_lawful rfl fun _ _ => by simp only [call], ← lawful_memReadSchema, ← lawful_memReadString,
    ← List.forall_mem_append]
  simp only [call]
  rfl

theorem sealed_appenderCreate :
    s.Sealed host (.call (.appenderCreate schemaPtr schemaLen tablePtr tableLen)) ↔
      (s.quotaExceeded = false → s.Fits schemaPtr schemaLen ∧ s.Fits tablePtr tableLen) := by
  rw [sealed_iff_lawful rfl fun _ _ => by simp only [call], ← lawful_memReadSchema, ← lawful_memReadString,
    ← List.forall_mem_append]
  simp only [call, fnAppenderCreate]
  cases s.quotaExceeded with
  | true => simp [answer]
  | false => simp [answer]

theorem reads_bindValue {p : Prepared E} {v : Value} {reads : List Read} :
    (s.bindValue h idx p v reads).2.reads = reads := by
  unfold bindValue
  repeat' split
  all_goals rfl

theorem sealed_bindVarchar : s.Sealed host (.call (.bindVarchar h idx ptr len)) ↔
    ((htableGet s.htPrepared h).isSome = true → s.Copied ptr len) := by
  have hreads : (∀ read ∈ (s.fnBindVarchar host h idx ptr len).2.reads, read.Lawful s.memSize) ↔
      ((htableGet s.htPrepared h).isSome = true → s.Copied ptr len) := by
    unfold fnBindVarchar
    cases htableGet s.htPrepared h with
    | none => simp [answer]
    | some p =>
      dsimp only
      rw [reads_bindValue, lawful_memReadCstr]
      simp
  refine (sealed_iff_lawful rfl fun hlawful host' => ?_).trans hreads
  have hcopied := hreads.mp hlawful
  change s.fnBindVarchar host' h idx ptr len = s.fnBindVarchar host h idx ptr len
  unfold fnBindVarchar
  cases hp : htableGet s.htPrepared h with
  | none => rfl
  | some p =>
    have hdata := lawful_memReadCstr.mpr (hcopied (by rw [hp]; rfl)) _ (List.mem_append_right _ List.mem_cons_self)
    dsimp only
    rw [take_eq hdata host' host]

theorem sealed_appendVarchar : s.Sealed host (.call (.appendVarchar h ptr len)) ↔
    ((htableGet s.htAppender h).isSome = true → s.Copied ptr len) := by
  have hreads : (∀ read ∈ (s.fnAppendVarchar host h ptr len).2.reads, read.Lawful s.memSize) ↔
      ((htableGet s.htAppender h).isSome = true → s.Copied ptr len) := by
    unfold fnAppendVarchar
    cases htableGet s.htAppender h with
    | none => simp [answer]
    | some ap =>
      change (∀ read ∈ (s.memReadCstr ptr len).2 ++ [.data (s.memReadCstr ptr len).1 len.toNat], _) ↔ _
      rw [lawful_memReadCstr]
      simp
  refine (sealed_iff_lawful rfl fun hlawful host' => ?_).trans hreads
  have hcopied := hreads.mp hlawful
  change s.fnAppendVarchar host' h ptr len = s.fnAppendVarchar host h ptr len
  unfold fnAppendVarchar
  cases hp : htableGet s.htAppender h with
  | none => rfl
  | some ap =>
    have hdata := lawful_memReadCstr.mpr (hcopied (by rw [hp]; rfl)) _ (List.mem_append_right _ List.mem_cons_self)
    dsimp only
    rw [take_eq hdata host' host]

theorem lawful_guestBlob {data : Text} (hdata : s.guestBlob ptr len = some data) :
    (Read.guest ptr.toNat len.toNat).Lawful s.memSize := by
  unfold guestBlob at hdata
  split at hdata
  · exact nomatch hdata
  · exact Nat.le_of_not_lt ‹_›

theorem sealed_bindBlob : s.Sealed host (.call (.bindBlob h idx ptr len)) := by
  refine sealed_of_quiet ?_ rfl fun _ => by simp only [call]
  change ∀ read ∈ (s.fnBindBlob h idx ptr len).2.reads, _
  unfold fnBindBlob
  split
  · exact fun _ hread => nomatch hread
  · split
    · exact fun _ hread => nomatch hread
    · rw [reads_bindValue]
      exact List.forall_mem_singleton.mpr (lawful_guestBlob ‹_›)

theorem sealed_appendBlob : s.Sealed host (.call (.appendBlob h ptr len)) := by
  refine sealed_of_quiet ?_ rfl fun _ => by simp only [call]
  change ∀ read ∈ (s.fnAppendBlob h ptr len).2.reads, _
  unfold fnAppendBlob
  split
  · exact fun _ hread => nomatch hread
  · split
    · exact fun _ hread => nomatch hread
    · exact List.forall_mem_singleton.mpr (lawful_guestBlob ‹_›)

end Calls

section Cells

variable {h col row outPtr outCap : BitVec 32} {a : Accessor} {T : CType} {call : Call} {v : Val} {cw : ChunkWrap}
  {c : Chunk} {n m : ℕ}

theorem cell_of_holds (hholds : c.Holds n m T) : ∃ cell, c.cell? n m T = some cell := by
  obtain ⟨hrow, v, hv, hstores⟩ := hholds
  have hlt : m < v.cells.length := by
    rw [c.filled v (List.mem_of_getElem? hv)]
    exact hrow
  refine ⟨v.cells[m], ?_⟩
  rw [Chunk.cell?, hv, Option.bind_some, if_pos hstores]
  exact List.getElem?_eq_getElem hlt

theorem vecRead_eq (hholds : c.Holds n m T) (host host' : ℕ → Byte) :
    vecRead host (some c) n m T = vecRead host' (some c) n m T := by
  obtain ⟨cell, hcell⟩ := cell_of_holds hholds
  unfold vecRead
  rw [Option.bind_some, hcell]

theorem sealed_chunkCell (call : Call) (f : (ℕ → Byte) → ChunkWrap → Outcome E)
    (hcall : ∀ host, s.call host call = match htableGet s.htChunk h with
      | none => s.answer v []
      | some cw => f host cw)
    (hreads : ∀ cw, (f host cw).2.reads = [.chunk (s.deref cw), .cell (s.deref cw) n m T])
    (hblind : ∀ cw c, s.deref cw = some c → c.Holds n m T → ∀ host', f host' cw = f host cw)
    (hdefault : call.default? = some v) (hfinds : s.Finds call ↔ ∃ c, s.chunkOf h = some c ∧ c.Holds n m T) :
    s.Sealed host (.call call) ↔
      ∀ cw, htableGet s.htChunk h = some cw → ∃ c, s.deref cw = some c ∧ c.Holds n m T := by
  constructor
  · intro hsealed cw hcw
    have hlawful : ∀ read ∈ (s.call host call).2.reads, read.Lawful s.memSize := hsealed.lawful
    rw [hcall, hcw] at hlawful
    exact hlawful (.cell (s.deref cw) n m T) (by rw [hreads]; exact List.mem_cons_of_mem _ List.mem_cons_self)
  · intro hconfined
    cases hcw : htableGet s.htChunk h with
    | none =>
      have hnone (host : ℕ → Byte) : s.call host call = s.answer v [] := by rw [hcall, hcw]
      exact sealed_of_missing hnone hdefault
    | some cw =>
      obtain ⟨c, hc, hholds⟩ := hconfined cw hcw
      have hsome (host : ℕ → Byte) : s.call host call = f host cw := by rw [hcall, hcw]
      refine sealed_of_found ?_ (hfinds.mpr ⟨c, ?_, hholds⟩) fun host' => ?_
      · rw [hsome, hreads, hc]
        simp only [List.forall_mem_cons]
        exact ⟨rfl, ⟨c, rfl, hholds⟩, fun _ hread => nomatch hread⟩
      · rw [chunkOf, hcw]
        exact hc
      · rw [hsome, hsome, hblind cw c hc hholds host']

theorem sealed_chunkGet : s.Sealed host (.call (.chunkGet a h col row)) ↔
    ∀ cw, htableGet s.htChunk h = some cw → ∃ c, s.deref cw = some c ∧ c.Holds col.toNat row.toNat a.ctype := by
  refine sealed_chunkCell _ (fun host cw => s.answer (a.ret (vecRead host (s.deref cw) col.toNat row.toNat a.ctype))
    [.chunk (s.deref cw), .cell (s.deref cw) col.toNat row.toNat a.ctype]) (fun host => ?_) (fun _ => rfl)
    (fun cw c hc hholds host' => ?_) rfl Iff.rfl
  · change s.fnChunkGet host a h col row = _
    rfl
  · rw [hc, vecRead_eq hholds host' host]

theorem sealed_chunkGetString : s.Sealed host (.call (.chunkGetString h col row outPtr outCap)) ↔
    ∀ cw, htableGet s.htChunk h = some cw → ∃ c, s.deref cw = some c ∧ c.Holds col.toNat row.toNat .string := by
  refine sealed_chunkCell _ (fun host cw =>
    let r := s.writeStringtToGuest host (s.deref cw) col.toNat row.toNat outPtr outCap
    r.1.answer (.i32 r.2) [.chunk (s.deref cw), .cell (s.deref cw) col.toNat row.toNat .string]) (fun host => ?_)
    (fun _ => rfl) (fun cw c hc hholds host' => ?_) rfl Iff.rfl
  · change s.fnChunkGetString host h col row outPtr outCap = _
    rfl
  · rw [hc]
    unfold writeStringtToGuest
    rw [vecRead_eq hholds host' host]

theorem sealed_chunkGetHugeint : s.Sealed host (.call (.chunkGetHugeint h col row outPtr)) ↔
    ∀ cw, htableGet s.htChunk h = some cw → ∃ c, s.deref cw = some c ∧ c.Holds col.toNat row.toNat .hugeint := by
  refine sealed_chunkCell _ (fun host cw => (s.writeHugeint host (s.deref cw) col.toNat row.toNat outPtr).answer .unit
    [.chunk (s.deref cw), .cell (s.deref cw) col.toNat row.toNat .hugeint]) (fun host => ?_)
    (fun _ => rfl) (fun cw c hc hholds host' => ?_) rfl Iff.rfl
  · change s.fnChunkGetHugeint host h col row outPtr = _
    rfl
  · rw [hc]
    unfold writeHugeint
    rw [vecRead_eq hholds host' host]

theorem sealed_valueCell (call : Call) (f : (ℕ → Byte) → Bindings E → Chunk → ℕ → Outcome E)
    (hcall : ∀ host, s.call host call = match (s.locateCell h row).2 with
      | none => (s.locateCell h row).1.answer v []
      | some (c, ri) => f host (s.locateCell h row).1 c ri)
    (hreads : ∀ t c ri, (f host t c ri).2.reads = [.cell (some c) n ri T])
    (hblind : ∀ t c ri, c.Holds n ri T → ∀ host', f host' t c ri = f host t c ri)
    (hdefault : call.default? = some v)
    (hfinds : s.Finds call ↔ ∃ c ri, s.rowOf h row = some (c, ri) ∧ c.Holds n ri T) :
    s.Sealed host (.call call) ↔ ∀ c ri, s.rowOf h row = some (c, ri) → c.Holds n ri T := by
  rw [locateCell_eq] at hcall
  constructor
  · intro hsealed c ri hri
    have hlawful : ∀ read ∈ (s.call host call).2.reads, read.Lawful s.memSize := hsealed.lawful
    rw [hcall, hri] at hlawful
    obtain ⟨c', hc', hholds⟩ := hlawful (.cell (some c) n ri T) (by rw [hreads]; exact List.mem_cons_self)
    cases hc'
    exact hholds
  · intro hconfined
    cases hri : s.rowOf h row with
    | none =>
      have hnone (host : ℕ → Byte) : s.call host call = (s.locateCell h row).1.answer v [] := by rw [hcall, hri]
      exact sealed_of_missing_cell hnone hdefault
    | some cell =>
      have hholds := hconfined cell.1 cell.2 hri
      have hsome (host : ℕ → Byte) : s.call host call = f host (s.locateCell h row).1 cell.1 cell.2 := by
        rw [hcall, hri]
      refine sealed_of_found ?_ (hfinds.mpr ⟨cell.1, cell.2, hri, hholds⟩) fun host' => ?_
      · rw [hsome, hreads]
        exact List.forall_mem_singleton.mpr ⟨cell.1, rfl, hholds⟩
      · rw [hsome, hsome, hblind _ _ _ hholds host']

theorem sealed_value : s.Sealed host (.call (.value a h col row)) ↔
    ∀ c ri, s.rowOf h row = some (c, ri) → c.Holds col.toNat ri a.ctype := by
  refine sealed_valueCell _ (fun host t c ri => t.answer (a.ret (vecRead host (some c) col.toNat ri a.ctype))
    [.cell (some c) col.toNat ri a.ctype]) (fun host => ?_) (fun _ _ _ => rfl) (fun t c ri hholds host' => ?_) rfl
    Iff.rfl
  · change s.fnValue host a h col row = _
    rfl
  · rw [vecRead_eq hholds host' host]

theorem sealed_valueString : s.Sealed host (.call (.valueString h col row outPtr outCap)) ↔
    ∀ c ri, s.rowOf h row = some (c, ri) → c.Holds col.toNat ri .string := by
  refine sealed_valueCell _ (fun host t c ri =>
    let w := t.writeStringtToGuest host (some c) col.toNat ri outPtr outCap
    w.1.answer (.i32 w.2) [.cell (some c) col.toNat ri .string]) (fun host => ?_) (fun _ _ _ => rfl)
    (fun t c ri hholds host' => ?_) rfl Iff.rfl
  · change s.fnValueString host h col row outPtr outCap = _
    rfl
  · unfold writeStringtToGuest
    rw [vecRead_eq hholds host' host]

theorem sealed_valueHugeint : s.Sealed host (.call (.valueHugeint h col row outPtr)) ↔
    ∀ c ri, s.rowOf h row = some (c, ri) → c.Holds col.toNat ri .hugeint := by
  refine sealed_valueCell _ (fun host t c ri => (t.writeHugeint host (some c) col.toNat ri outPtr).answer .unit
    [.cell (some c) col.toNat ri .hugeint]) (fun host => ?_) (fun _ _ _ => rfl) (fun t c ri hholds host' => ?_) rfl
    Iff.rfl
  · change s.fnValueHugeint host h col row outPtr = _
    rfl
  · unfold writeHugeint
    rw [vecRead_eq hholds host' host]

end Cells

section Masks

variable {h col row outPtr outCap : BitVec 32} {c : Chunk} {n m : ℕ}

theorem lawful_vecIsNull (hrow : m < c.size) (hcol : n < c.columns.length) :
    ∀ read ∈ (vecIsNull host (some c) n m).2, read.Lawful s.memSize := by
  unfold vecIsNull
  split
  · exact fun _ hread => nomatch hread
  · exact List.forall_mem_singleton.mpr ⟨c, rfl, hrow, hcol⟩

theorem row_lt_of_rowOf {cell : Chunk × ℕ} (hri : s.rowOf h row = some cell) : cell.2 < cell.1.size := by
  obtain ⟨rw', _, hrow⟩ := Option.bind_eq_some_iff.mp hri
  exact ResultWrap.lt_size_of_rowAt hrow

theorem bounds_of_null (hnull : (vecIsNull host (some c) n m).1 = true)
    (hlawful : ∀ read ∈ (vecIsNull host (some c) n m).2, read.Lawful s.memSize) :
    m < c.size ∧ n < c.columns.length := by
  unfold vecIsNull at hnull hlawful
  split at hnull
  · exact nomatch hnull
  · rename_i mask hmask
    obtain ⟨c', hc', hbounds⟩ := hlawful (.validity (some c) n m) (by rw [hmask]; exact List.mem_cons_self)
    cases hc'
    exact hbounds

theorem vecIsNull_eq (hrow : m < c.size) (host host' : ℕ → Byte) :
    vecIsNull host (some c) n m = vecIsNull host' (some c) n m := by
  unfold vecIsNull
  split
  · rfl
  · rename_i mask hmask
    rw [Option.bind_some] at hmask
    obtain ⟨v, hv, hvalidity⟩ := Option.bind_eq_some_iff.mp hmask
    have hlen := c.masked v (List.mem_of_getElem? hv) mask hvalidity
    have hword : m / 64 < mask.length := by
      rw [hlen, Vector.maskWords]
      omega
    simp [rowIsValid, List.getElem?_eq_getElem hword]

theorem isNullVal_eq_one {null : Bool} : isNullVal null = .i32 1 ↔ null = true := by
  cases null <;> simp [isNullVal]

theorem sealed_chunkIsNull : s.Sealed host (.call (.chunkIsNull h col row)) ↔
    ∀ cw, htableGet s.htChunk h = some cw →
      ∃ c, s.deref cw = some c ∧ row.toNat < c.size ∧ col.toNat < c.columns.length := by
  have hcall (host : ℕ → Byte) : s.call host (.chunkIsNull h col row) = s.fnChunkIsNull host h col row := by
    simp only [call]
  constructor
  · intro hsealed cw hcw
    have hsome : s.call host (.chunkIsNull h col row) =
        s.answer (isNullVal (vecIsNull host (s.deref cw) col.toNat row.toNat).1)
          (.chunk (s.deref cw) :: (vecIsNull host (s.deref cw) col.toNat row.toNat).2) := by
      rw [hcall, fnChunkIsNull, hcw]
    have hlawful : ∀ read ∈ (s.call host (.chunkIsNull h col row)).2.reads, read.Lawful s.memSize := hsealed.lawful
    rw [hsome] at hlawful
    obtain ⟨hderef, hlawful⟩ := List.forall_mem_cons.mp hlawful
    obtain ⟨c, hc⟩ := Option.isSome_iff_exists.mp hderef
    rw [hc] at hlawful hsome
    refine ⟨c, hc, ?_⟩
    by_contra hnot
    have hmissing : ¬ s.Finds (.chunkIsNull h col row) := by
      rintro ⟨c', hc', hbounds⟩
      rw [chunkOf, hcw] at hc'
      obtain rfl := Option.some.inj (hc'.symm.trans hc)
      exact hnot hbounds
    have hvalue : (s.call host (.chunkIsNull h col row)).2.value = .i32 1 :=
      (hsealed.default _ _ rfl rfl hmissing).1
    rw [hsome] at hvalue
    exact hnot (bounds_of_null (isNullVal_eq_one.mp hvalue) hlawful)
  · intro hconfined
    cases hcw : htableGet s.htChunk h with
    | none =>
      have hnone (host : ℕ → Byte) : s.call host (.chunkIsNull h col row) = s.answer (.i32 1) [] := by
        rw [hcall, fnChunkIsNull, hcw]
      exact sealed_of_missing hnone rfl
    | some cw =>
      obtain ⟨c, hc, hrow, hcol⟩ := hconfined cw hcw
      have hsome (host : ℕ → Byte) : s.call host (.chunkIsNull h col row) =
          s.answer (isNullVal (vecIsNull host (some c) col.toNat row.toNat).1)
            (.chunk (some c) :: (vecIsNull host (some c) col.toNat row.toNat).2) := by
        rw [hcall, fnChunkIsNull, hcw]
        dsimp only
        rw [hc]
      refine sealed_of_found ?_ ?_ fun host' => ?_
      · rw [hsome]
        exact List.forall_mem_cons.mpr ⟨rfl, lawful_vecIsNull hrow hcol⟩
      · refine ⟨c, ?_, hrow, hcol⟩
        rw [chunkOf, hcw]
        exact hc
      · rw [hsome, hsome, vecIsNull_eq hrow host' host]

theorem sealed_valueIsNull : s.Sealed host (.call (.valueIsNull h col row)) ↔
    ∀ c ri, s.rowOf h row = some (c, ri) → col.toNat < c.columns.length := by
  have hcall (host : ℕ → Byte) : s.call host (.valueIsNull h col row) = match s.rowOf h row with
      | none => (s.locateCell h row).1.answer (.i32 1) []
      | some (c, ri) => (s.locateCell h row).1.answer (isNullVal (vecIsNull host (some c) col.toNat ri).1)
          (vecIsNull host (some c) col.toNat ri).2 := by
    rw [← locateCell_eq]
    change s.fnValueIsNull host h col row = _
    rfl
  constructor
  · intro hsealed c ri hri
    have hlawful : ∀ read ∈ (s.call host (.valueIsNull h col row)).2.reads, read.Lawful s.memSize := hsealed.lawful
    rw [hcall, hri] at hlawful
    by_contra hnot
    have hmissing : ¬ s.Finds (.valueIsNull h col row) := by
      rintro ⟨c', ri', hri', hcol⟩
      cases hri.symm.trans hri'
      exact hnot hcol
    have hvalue : (s.call host (.valueIsNull h col row)).2.value = .i32 1 :=
      (hsealed.default _ _ rfl rfl hmissing).1
    rw [hcall, hri] at hvalue
    exact hnot (bounds_of_null (isNullVal_eq_one.mp hvalue) hlawful).2
  · intro hconfined
    cases hri : s.rowOf h row with
    | none =>
      have hnone (host : ℕ → Byte) : s.call host (.valueIsNull h col row) =
          (s.locateCell h row).1.answer (.i32 1) [] := by
        rw [hcall, hri]
      exact sealed_of_missing_cell hnone rfl
    | some cell =>
      have hcol := hconfined cell.1 cell.2 hri
      have hrow := row_lt_of_rowOf hri
      have hsome (host : ℕ → Byte) : s.call host (.valueIsNull h col row) =
          (s.locateCell h row).1.answer (isNullVal (vecIsNull host (some cell.1) col.toNat cell.2).1)
            (vecIsNull host (some cell.1) col.toNat cell.2).2 := by
        rw [hcall, hri]
      refine sealed_of_found ?_ ⟨cell.1, cell.2, hri, hcol⟩ fun host' => ?_
      · rw [hsome]
        exact lawful_vecIsNull hrow hcol
      · rw [hsome, hsome, vecIsNull_eq hrow host' host]

end Masks

section Copies

variable {h col outPtr outCap : BitVec 32} {call : Call} {c : Chunk}

theorem sealed_chunkNumber (number : Chunk → ℕ) (hcall : ∀ host, s.call host call = s.chunkNumber host h number)
    (hdefault : call.default? = none) : s.Sealed host (.call call) ↔
      ∀ cw, htableGet s.htChunk h = some cw → (s.deref cw).isSome = true := by
  constructor
  · intro hsealed cw hcw
    have hlawful : ∀ read ∈ (s.call host call).2.reads, read.Lawful s.memSize := hsealed.lawful
    rw [hcall, chunkNumber, hcw] at hlawful
    exact hlawful (.chunk (s.deref cw)) List.mem_cons_self
  · intro hconfined
    refine sealed_of_quiet ?_ hdefault fun host' => ?_
    · rw [hcall, chunkNumber]
      cases hcw : htableGet s.htChunk h with
      | none => exact fun _ hread => nomatch hread
      | some cw => exact List.forall_mem_singleton.mpr (hconfined cw hcw)
    · rw [hcall, hcall, chunkNumber, chunkNumber]
      cases hcw : htableGet s.htChunk h with
      | none => rfl
      | some cw =>
        obtain ⟨c, hc⟩ := Option.isSome_iff_exists.mp (hconfined cw hcw)
        dsimp only
        rw [hc]
        rfl

theorem sealed_chunkSize : s.Sealed host (.call (.chunkSize h)) ↔
    ∀ cw, htableGet s.htChunk h = some cw → (s.deref cw).isSome = true :=
  sealed_chunkNumber Chunk.size (fun _ => by simp only [call, fnChunkSize]) rfl

theorem sealed_chunkColumnCount : s.Sealed host (.call (.chunkColumnCount h)) ↔
    ∀ cw, htableGet s.htChunk h = some cw → (s.deref cw).isSome = true :=
  sealed_chunkNumber (·.columns.length) (fun _ => by simp only [call, fnChunkColumnCount]) rfl

theorem sealed_chunkColumnType : s.Sealed host (.call (.chunkColumnType h col)) ↔
    ∀ cw, htableGet s.htChunk h = some cw → (s.deref cw).isSome = true :=
  sealed_chunkNumber (columnType · col.toNat |>.ctorIdx) (fun _ => by simp only [call, fnChunkColumnType]) rfl

theorem length_columnData {n : ℕ} {v : Vector} (hv : c.columns[n]? = some v) (hsize : ddbPrimitiveSize v.type ≠ 0) :
    (columnData c n).length = ddbPrimitiveSize v.type * c.size := by
  have hmem := List.mem_of_getElem? hv
  have hlength : v.cells.map List.length = List.replicate c.size (ddbPrimitiveSize v.type) :=
    List.eq_replicate_iff.mpr ⟨by rw [List.length_map, c.filled v hmem], by
      simpa using c.flat v hmem hsize⟩
  rw [columnData, hv]
  change v.cells.flatten.length = _
  rw [List.length_flatten, hlength, List.sum_replicate_nat, Nat.mul_comm]

theorem column_of_size {n : ℕ} (hsize : ddbPrimitiveSize (columnType c n) ≠ 0) :
    ∃ v, c.columns[n]? = some v ∧ columnType c n = v.type := by
  unfold columnType at hsize ⊢
  cases hv : c.columns[n]? with
  | none =>
    rw [hv] at hsize
    exact absurd rfl hsize
  | some v => exact ⟨v, rfl, rfl⟩

theorem length_maskBytes (mask : List (BitVec 64)) : (maskBytes mask).length = mask.length * 8 := by
  induction mask with
  | nil => rfl
  | cons word mask ih =>
    rw [maskBytes, List.flatMap_cons, List.length_append, length_toLe, List.length_cons, Nat.succ_mul, Nat.add_comm]
    exact congrArg (· + 8) ih

theorem toNat_maskSize : (BitVec.ofNat 32 (Vector.maskWords c.size) * 8).toNat = Vector.maskWords c.size * 8 := by
  have hsmall : c.size ≤ 2048 := c.small
  have hwords : Vector.maskWords c.size ≤ 32 := by
    unfold Vector.maskWords
    omega
  rw [BitVec.toNat_mul, BitVec.toNat_ofNat]
  change Vector.maskWords c.size % 4294967296 * 8 % 4294967296 = _
  omega

theorem reads_chunkCopyColumn {cw : ChunkWrap} (hcw : htableGet s.htChunk h = some cw) (hc : s.deref cw = some c) :
    ∀ read ∈ (s.fnChunkCopyColumn host h col outPtr outCap).2.reads, read.Lawful s.memSize := by
  unfold fnChunkCopyColumn
  rw [hcw]
  dsimp only
  rw [hc]
  dsimp only
  split
  · exact List.forall_mem_singleton.mpr rfl
  · rename_i hsize
    obtain ⟨v, hv, htype⟩ := column_of_size hsize
    rw [htype] at hsize ⊢
    refine List.forall_mem_cons.mpr ⟨rfl, List.forall_mem_singleton.mpr ⟨c, rfl, ?_⟩⟩
    rw [length_columnData hv hsize, BitVec.toNat_ofNat]
    exact (Nat.min_le_left _ _).trans (Nat.mod_le _ _)

theorem sealed_chunkCopyColumn : s.Sealed host (.call (.chunkCopyColumn h col outPtr outCap)) ↔
    ∀ cw, htableGet s.htChunk h = some cw → (s.deref cw).isSome = true := by
  have hcall (host : ℕ → Byte) : s.call host (.chunkCopyColumn h col outPtr outCap) =
      s.fnChunkCopyColumn host h col outPtr outCap := by
    simp only [call]
  constructor
  · intro hsealed cw hcw
    have hlawful : ∀ read ∈ (s.call host (.chunkCopyColumn h col outPtr outCap)).2.reads, read.Lawful s.memSize :=
      hsealed.lawful
    by_contra hdead
    have hnone := Option.not_isSome_iff_eq_none.mp hdead
    rw [hcall, fnChunkCopyColumn, hcw] at hlawful
    dsimp only at hlawful
    rw [hnone] at hlawful
    exact nomatch (hlawful (.chunk none) List.mem_cons_self : none.isSome = true)
  · intro hconfined
    cases hcw : htableGet s.htChunk h with
    | none =>
      refine sealed_of_missing (v := .i32 0) (fun host => ?_) rfl
      rw [hcall, fnChunkCopyColumn, hcw]
    | some cw =>
      obtain ⟨c, hc⟩ := Option.isSome_iff_exists.mp (hconfined cw hcw)
      have hblind (host' : ℕ → Byte) : s.call host' (.chunkCopyColumn h col outPtr outCap) =
          s.call host (.chunkCopyColumn h col outPtr outCap) := by
        rw [hcall, hcall, fnChunkCopyColumn, fnChunkCopyColumn, hcw]
        dsimp only
        rw [hc]
      refine ⟨?_, fun call' v hevent hv hnot => ?_, hblind⟩
      · change ∀ read ∈ (s.call host _).2.reads, _
        rw [hcall]
        exact reads_chunkCopyColumn hcw hc
      · cases hevent
        cases hv
        have hsize : ddbPrimitiveSize (columnType c col.toNat) = 0 := by
          by_contra hsize
          obtain ⟨v, hv, _⟩ := column_of_size hsize
          refine hnot ⟨c, ?_, (List.getElem?_eq_some_iff.mp hv).1⟩
          rw [chunkOf, hcw]
          exact hc
        change (s.call host _).2.value = .i32 0 ∧ (s.call host _).1.memory = _
        rw [hcall, fnChunkCopyColumn, hcw]
        dsimp only
        rw [hc]
        dsimp only
        rw [if_pos hsize]
        exact ⟨rfl, rfl⟩

theorem memWriteBlob_snd {data : Text} {len : BitVec 32} : (s.memWriteBlob outPtr outCap data len).2 = len := by
  unfold memWriteBlob
  split <;> rfl

theorem reads_chunkCopyValidity {cw : ChunkWrap} (hcw : htableGet s.htChunk h = some cw) (hc : s.deref cw = some c) :
    ∀ read ∈ (s.fnChunkCopyValidity host h col outPtr outCap).2.reads, read.Lawful s.memSize := by
  unfold fnChunkCopyValidity
  rw [hcw]
  dsimp only
  rw [hc]
  dsimp only
  split
  · rename_i mask hmask
    obtain ⟨v, hv, hvalidity⟩ := Option.bind_eq_some_iff.mp hmask
    refine List.forall_mem_cons.mpr ⟨rfl, List.forall_mem_singleton.mpr ⟨c, v, mask, rfl, hv, hvalidity, ?_⟩⟩
    rw [length_maskBytes, c.masked v (List.mem_of_getElem? hv) mask hvalidity, toNat_maskSize]
    exact Nat.min_le_left _ _
  · exact List.forall_mem_singleton.mpr rfl

theorem fnChunkCopyValidity_of_le {cw : ChunkWrap} (hcw : htableGet s.htChunk h = some cw) (hc : s.deref cw = some c)
    (hcol : c.columns.length ≤ col.toNat) :
    s.fnChunkCopyValidity host h col outPtr outCap =
      let bytes := BitVec.ofNat 32 (Vector.maskWords c.size) * 8
      let r := s.memWriteBlob outPtr outCap (List.replicate bytes.toNat 0xff) bytes
      r.1.answer (.i32 r.2) [.chunk (some c)] := by
  unfold fnChunkCopyValidity
  rw [hcw]
  dsimp only
  rw [hc]
  dsimp only
  rw [List.getElem?_eq_none hcol]
  rfl

theorem sealed_chunkCopyValidity : s.Sealed host (.call (.chunkCopyValidity h col outPtr outCap)) ↔
    ∀ cw, htableGet s.htChunk h = some cw →
      ∃ c, s.deref cw = some c ∧ (col.toNat < c.columns.length ∨ c.size = 0) := by
  have hcall (host : ℕ → Byte) : s.call host (.chunkCopyValidity h col outPtr outCap) =
      s.fnChunkCopyValidity host h col outPtr outCap := by
    simp only [call]
  constructor
  · intro hsealed cw hcw
    cases hc : s.deref cw with
    | none =>
      have hlawful : ∀ read ∈ (s.call host (.chunkCopyValidity h col outPtr outCap)).2.reads,
          read.Lawful s.memSize := hsealed.lawful
      rw [hcall, fnChunkCopyValidity, hcw] at hlawful
      dsimp only at hlawful
      rw [hc] at hlawful
      exact nomatch (hlawful (.chunk none) List.mem_cons_self : none.isSome = true)
    | some c =>
      refine ⟨c, rfl, ?_⟩
      by_contra hnot
      obtain ⟨hcol, hsize⟩ := not_or.mp hnot
      have hmissing : ¬ s.Finds (.chunkCopyValidity h col outPtr outCap) := by
        rintro ⟨c', hc', hcol'⟩
        rw [chunkOf, hcw] at hc'
        cases hc.symm.trans hc'
        exact hcol hcol'
      have hvalue : (s.call host (.chunkCopyValidity h col outPtr outCap)).2.value = .i32 0 :=
        (hsealed.default _ _ rfl rfl hmissing).1
      rw [hcall, fnChunkCopyValidity_of_le hcw hc (Nat.le_of_not_lt hcol)] at hvalue
      have hzero := Val.i32.inj (hvalue.symm.trans (congrArg Val.i32 memWriteBlob_snd)).symm
      have hwords := (toNat_maskSize (c := c)).symm.trans (congrArg BitVec.toNat hzero)
      have hnone : Vector.maskWords c.size * 8 = 0 := hwords
      unfold Vector.maskWords at hnone
      omega
  · intro hconfined
    cases hcw : htableGet s.htChunk h with
    | none =>
      refine sealed_of_missing (v := .i32 0) (fun host => ?_) rfl
      rw [hcall, fnChunkCopyValidity, hcw]
    | some cw =>
      obtain ⟨c, hc, hcol⟩ := hconfined cw hcw
      have hblind (host' : ℕ → Byte) : s.call host' (.chunkCopyValidity h col outPtr outCap) =
          s.call host (.chunkCopyValidity h col outPtr outCap) := by
        rw [hcall, hcall, fnChunkCopyValidity, fnChunkCopyValidity, hcw]
        dsimp only
        rw [hc]
      refine ⟨?_, fun call' v hevent hv hnot => ?_, hblind⟩
      · change ∀ read ∈ (s.call host _).2.reads, _
        rw [hcall]
        exact reads_chunkCopyValidity hcw hc
      · cases hevent
        cases hv
        have hmissing : ¬ col.toNat < c.columns.length := by
          refine fun hcol' => hnot ⟨c, ?_, hcol'⟩
          rw [chunkOf, hcw]
          exact hc
        have hsize := hcol.resolve_left hmissing
        change (s.call host _).2.value = .i32 0 ∧ (s.call host _).1.memory = _
        rw [hcall, fnChunkCopyValidity_of_le hcw hc (Nat.le_of_not_lt hmissing), hsize]
        exact ⟨rfl, rfl⟩

end Copies

section Runs

variable {call : Call} {event : Event}

theorem sealed_of_no_reads (hreads : (s.call host call).2.reads = []) (hdefault : call.default? = none)
    (hblind : ∀ host', s.call host' call = s.call host call) : s.Sealed host (.call call) :=
  sealed_of_quiet (by rw [hreads]; exact fun _ hread => nomatch hread) hdefault hblind

theorem reads_resultNumber {h : BitVec 32} {number : ResultWrap → ℕ} : (s.resultNumber h number).2.reads = [] := by
  unfold resultNumber
  split <;> rfl

theorem sealed_iff : s.Sealed host event ↔ s.Confined event := by
  cases event with
  | memory memory =>
    exact iff_of_true ⟨fun _ hread => (nomatch hread), fun _ _ hevent => (nomatch hevent), fun _ => rfl⟩ trivial
  | setQuota quotaBytes =>
    exact iff_of_true ⟨fun _ hread => (nomatch hread), fun _ _ hevent => (nomatch hevent), fun _ => rfl⟩ trivial
  | call call =>
    cases call with
    | query ptr len => exact sealed_query
    | prepare ptr len => exact sealed_prepare
    | extractStatements ptr len => exact sealed_extractStatements
    | tableDescCreate schemaPtr schemaLen tablePtr tableLen => exact sealed_tableDescCreate
    | appenderCreate schemaPtr schemaLen tablePtr tableLen => exact sealed_appenderCreate
    | bindVarchar h idx ptr len => exact sealed_bindVarchar
    | appendVarchar h ptr len => exact sealed_appendVarchar
    | bindBlob h idx ptr len => exact iff_of_true sealed_bindBlob trivial
    | appendBlob h ptr len => exact iff_of_true sealed_appendBlob trivial
    | chunkSize h => exact sealed_chunkSize
    | chunkColumnCount h => exact sealed_chunkColumnCount
    | chunkColumnType h col => exact sealed_chunkColumnType
    | chunkCopyColumn h col outPtr outCap => exact sealed_chunkCopyColumn
    | chunkCopyValidity h col outPtr outCap => exact sealed_chunkCopyValidity
    | chunkIsNull h col row => exact sealed_chunkIsNull
    | chunkGet a h col row => exact sealed_chunkGet
    | chunkGetString h col row outPtr outCap => exact sealed_chunkGetString
    | chunkGetHugeint h col row outPtr => exact sealed_chunkGetHugeint
    | valueIsNull h col row => exact sealed_valueIsNull
    | value a h col row => exact sealed_value
    | valueString h col row outPtr outCap => exact sealed_valueString
    | valueHugeint h col row outPtr => exact sealed_valueHugeint
    | resultChunkCount h | resultColumnCount h | resultRowsChanged h | resultColumnType h col | resultStatementType h =>
      refine iff_of_true (sealed_of_no_reads ?_ rfl fun _ => by simp only [Bindings.call]) trivial
      simp only [Bindings.call]
      exact reads_resultNumber
    | bind h idx arg =>
      refine iff_of_true (sealed_of_no_reads ?_ rfl fun _ => by simp only [Bindings.call]) trivial
      simp only [Bindings.call, fnBind]
      split
      · rfl
      · exact reads_bindValue
    | executePrepared h =>
      refine iff_of_true (sealed_of_no_reads ?_ rfl fun _ => by simp only [Bindings.call]) trivial
      simp only [Bindings.call, fnExecutePrepared]
      split
      · rfl
      · exact reads_gated
    | _ =>
      refine iff_of_true (sealed_of_no_reads ?_ rfl fun _ => by simp only [Bindings.call]) trivial
      simp only [Bindings.call, fnDestroyResult, fnFetchChunk, fnResultGetChunk, fnDestroyChunk, fnResultError,
        fnResultRowCount, fnResultColumnName, fnDestroyPrepare, fnPrepareError, fnNparams, fnParamType,
        fnClearBindings, fnAppenderDestroy, fnAppenderError, fnAppenderFlush, fnAppenderClose, fnAppenderBeginRow,
        fnAppenderEndRow, fnAppend, fnTableDescDestroy, fnTableDescError, fnColumnHasDefault, fnTableDescColumnName,
        fnDestroyExtracted, fnExtractStatementsError, fnPrepareExtracted, fnLastError, fnDbSize, fnDbQuota]
      repeat' split
      all_goals rfl

/-- Host memory stays with the host throughout a run exactly when its guest keeps to what is there. -/
theorem sealed_throughout_iff (host : ℕ → Byte) (s : Bindings E) (events : List Event) :
    s.Throughout host (Sealed host) events ↔ s.Throughout host Confined events :=
  throughout_congr host s fun _ _ => sealed_iff

theorem neighbour_read : ¬ (tableBindings ⟨true, 1⟩ "SELECT a FROM t").Throughout (fun _ => 7) (Sealed fun _ => 7)
    [.call (.query 0 15), .call (.fetchChunk 1), .call (.chunkGet .int64 1 0 0)] := by
  rintro ⟨-, -, hsealed, -⟩
  have hvalue := congrArg (fun outcome => outcome.2.value) (hsealed.blind fun _ => 8)
  exact absurd hvalue (by decide +kernel)

end Runs

end Bindings

end YumiBrowser.Duckdb
