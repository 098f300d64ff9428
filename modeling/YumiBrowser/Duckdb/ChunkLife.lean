import YumiBrowser.Duckdb.Calls

namespace YumiBrowser.Duckdb

open Wire Handles Transition

variable {E : Engine}

def ResultWrap.views (rw : ResultWrap) : List ChunkWrap := (List.range rw.chunks.length).map (⟨rw.serial, ·⟩)

structure Books where
  results : HandleTable ResultWrap
  chunks : HandleTable ChunkWrap
  made : ℕ
  destroyed : List ChunkWrap

namespace Books

/-- What a call other than `ddb_destroy_result` does to the books. -/
inductive Turns (b : Books) : Books → Prop
  | rest : Turns b b
  | make (rw : ResultWrap) : rw.serial = b.made →
      Turns b { b with results := (htableInsert b.results (some rw)).1, made := b.made + 1 }
  | fetch (h : BitVec 32) (rw rw' : ResultWrap) : htableGet b.results h = some rw → rw'.serial = rw.serial →
      Turns b { b with results := htableUpdate b.results h rw' }
  | view (h : BitVec 32) (rw rw' : ResultWrap) (i : ℕ) : htableGet b.results h = some rw → rw'.serial = rw.serial →
      Turns b { b with
        results := htableUpdate b.results h rw'
        chunks := (htableInsert b.chunks (some ⟨rw.serial, i⟩)).1 }
  | release (h : BitVec 32) : Turns b { b with chunks := htableRemove b.chunks h }

def destroy (b : Books) (h : BitVec 32) (rw : ResultWrap) : Books :=
  { b with results := htableRemove b.results h, destroyed := rw.views ++ b.destroyed }

structure Owned (b : Books) : Prop where
  results : b.results.slots.length = b.results.capacity.toNat
  chunks : b.chunks.slots.length = b.chunks.capacity.toNat
  made : ∀ h rw, htableGet b.results h = some rw → rw.serial < b.made
  handle : ∀ h h' rw rw', htableGet b.results h = some rw → htableGet b.results h' = some rw' →
    rw.serial = rw'.serial → h = h'
  gone : ∀ cw ∈ b.destroyed, cw.result < b.made ∧ ∀ h rw, htableGet b.results h = some rw → rw.serial ≠ cw.result
  once : b.destroyed.Nodup

/-- No chunk handle denotes a chunk that has been destroyed. -/
def Standing (b : Books) : Prop := ∀ h cw, htableGet b.chunks h = some cw → cw ∉ b.destroyed

variable {b b' : Books}

theorem length_update {α : Type} {t : HandleTable α} (h : BitVec 32) (x : α)
    (hlen : t.slots.length = t.capacity.toNat) :
    (htableUpdate t h x).slots.length = (htableUpdate t h x).capacity.toNat :=
  (List.length_set ..).trans hlen

theorem htableGet_update {α : Type} {t : HandleTable α} {h h' : BitVec 32} {x y : α}
    (hlen : t.slots.length = t.capacity.toNat) (hget : htableGet (htableUpdate t h x) h' = some y) :
    h' = h ∧ y = x ∨ htableGet t h' = some y := by
  have hput := htableGet_put hlen (h - 1) (some x) t.freelist h'
  have hget := hput.symm.trans hget
  split at hget
  · rename_i hsame
    refine .inl ⟨?_, (Option.some.inj hget).symm⟩
    rw [hsame.2]
    exact BitVec.sub_add_cancel h 1
  · exact .inr hget

theorem Owned.update (hb : b.Owned) {h : BitVec 32} {rw rw' : ResultWrap} (hget : htableGet b.results h = some rw)
    (hserial : rw'.serial = rw.serial) : ({ b with results := htableUpdate b.results h rw' } : Books).Owned := by
  have hold : ∀ k x, htableGet (htableUpdate b.results h rw') k = some x →
      ∃ y, htableGet b.results k = some y ∧ y.serial = x.serial := by
    intro k x hk
    obtain ⟨rfl, rfl⟩ | hk := htableGet_update hb.results hk
    · exact ⟨rw, hget, hserial.symm⟩
    · exact ⟨x, hk, rfl⟩
  refine ⟨length_update h rw' hb.results, hb.chunks, fun k x hk => ?_, fun k k' x x' hk hk' heq => ?_, fun cw hcw => ?_,
    hb.once⟩
  · obtain ⟨y, hy, hsame⟩ := hold k x hk
    exact hsame ▸ hb.made k y hy
  · obtain ⟨y, hy, hsame⟩ := hold k x hk
    obtain ⟨y', hy', hsame'⟩ := hold k' x' hk'
    exact hb.handle k k' y y' hy hy' (hsame.trans (heq.trans hsame'.symm))
  · refine ⟨(hb.gone cw hcw).1, fun k x hk => ?_⟩
    obtain ⟨y, hy, hsame⟩ := hold k x hk
    exact hsame ▸ (hb.gone cw hcw).2 k y hy

theorem Owned.make (hb : b.Owned) {rw : ResultWrap} (hserial : rw.serial = b.made) :
    ({ b with results := (htableInsert b.results (some rw)).1, made := b.made + 1 } : Books).Owned := by
  have hnew : ∀ k x, htableGet (htableInsert b.results (some rw)).1 k = some x →
      k = (htableInsert b.results (some rw)).2 ∧ x.serial = b.made ∨
        htableGet b.results k = some x ∧ x.serial < b.made := by
    intro k x hk
    obtain ⟨heq, rfl⟩ | hk := htableGet_of_insert hb.results hk
    · exact .inl ⟨heq, hserial⟩
    · exact .inr ⟨hk, hb.made k x hk⟩
  refine ⟨length_insert hb.results _, hb.chunks, fun k x hk => ?_, fun k k' x x' hk hk' heq => ?_, fun cw hcw => ?_,
    hb.once⟩
  · obtain ⟨_, hx⟩ | ⟨_, hx⟩ := hnew k x hk
    · exact Nat.lt_succ_of_le (Nat.le_of_eq hx)
    · exact Nat.lt_succ_of_lt hx
  · obtain ⟨hk, hx⟩ | ⟨hk, hx⟩ := hnew k x hk
    · obtain ⟨hk', _⟩ | ⟨_, hx'⟩ := hnew k' x' hk'
      · rw [hk, hk']
      · exact absurd (heq ▸ hx) (Nat.ne_of_lt hx')
    · obtain ⟨_, hx'⟩ | ⟨hk', _⟩ := hnew k' x' hk'
      · exact absurd (heq.trans hx') (Nat.ne_of_lt hx)
      · exact hb.handle k k' x x' hk hk' heq
  · obtain ⟨hlt, hgone⟩ := hb.gone cw hcw
    refine ⟨Nat.lt_succ_of_lt hlt, fun k x hk => ?_⟩
    obtain ⟨_, hx⟩ | ⟨hk, _⟩ := hnew k x hk
    · exact fun heq => absurd (heq.symm.trans hx) (Nat.ne_of_lt hlt)
    · exact hgone k x hk

theorem Turns.owned (hturns : b.Turns b') (hb : b.Owned) : b'.Owned := by
  cases hturns with
  | rest => exact hb
  | make rw hserial => exact hb.make hserial
  | fetch h rw rw' hget hserial => exact hb.update hget hserial
  | view h rw rw' i hget hserial =>
    exact { hb.update hget hserial with chunks := length_insert hb.chunks _ }
  | release h => exact { hb with chunks := length_remove hb.chunks h }

theorem Turns.destroyed_eq (hturns : b.Turns b') : b'.destroyed = b.destroyed := by
  cases hturns <;> rfl

theorem mem_views {rw : ResultWrap} {cw : ChunkWrap} :
    cw ∈ rw.views ↔ cw.result = rw.serial ∧ cw.index < rw.chunks.length := by
  unfold ResultWrap.views
  rw [List.mem_map]
  constructor
  · rintro ⟨i, hi, rfl⟩
    exact ⟨rfl, List.mem_range.mp hi⟩
  · rintro ⟨hresult, hindex⟩
    refine ⟨cw.index, List.mem_range.mpr hindex, ?_⟩
    rw [← hresult]

theorem nodup_views (rw : ResultWrap) : rw.views.Nodup :=
  List.nodup_range.map fun _ _ heq => congrArg ChunkWrap.index heq

theorem Owned.kept (hb : b.Owned) {h : BitVec 32} {rw : ResultWrap} (hget : htableGet b.results h = some rw)
    {cw : ChunkWrap} (hcw : cw.result = rw.serial) : cw ∉ b.destroyed :=
  fun hgone => (hb.gone cw hgone).2 h rw hget hcw.symm

theorem Owned.destroy (hb : b.Owned) {h : BitVec 32} {rw : ResultWrap} (hget : htableGet b.results h = some rw) :
    (b.destroy h rw).Owned := by
  have hold : ∀ k x, htableGet (htableRemove b.results h) k = some x → k ≠ h ∧ htableGet b.results k = some x :=
    fun _ _ => htableGet_of_remove hb.results
  refine ⟨length_remove hb.results h, hb.chunks, fun k x hk => hb.made k x (hold k x hk).2,
    fun k k' x x' hk hk' => hb.handle k k' x x' (hold k x hk).2 (hold k' x' hk').2, fun cw hcw => ?_, ?_⟩
  · rcases List.mem_append.mp hcw with hview | hcw
    · have hresult := (mem_views.mp hview).1
      refine ⟨hresult ▸ hb.made h rw hget, fun k x hk heq => ?_⟩
      obtain ⟨hne, hk⟩ := hold k x hk
      exact hne (hb.handle k h x rw hk hget (heq.trans hresult))
    · exact ⟨(hb.gone cw hcw).1, fun k x hk => (hb.gone cw hcw).2 k x (hold k x hk).2⟩
  · refine List.nodup_append.mpr ⟨nodup_views rw, hb.once, fun cw hview cw' hcw' heq => ?_⟩
    exact hb.kept hget (mem_views.mp hview).1 (heq ▸ hcw')

theorem Turns.standing (hturns : b.Turns b') (hb : b.Owned) (hstanding : b.Standing) : b'.Standing := by
  cases hturns with
  | rest => exact hstanding
  | make rw hserial => exact hstanding
  | fetch h rw rw' hget hserial => exact hstanding
  | view h rw rw' i hget hserial =>
    intro k cw hk
    obtain ⟨_, rfl⟩ | hk := htableGet_of_insert hb.chunks hk
    · exact hb.kept hget rfl
    · exact hstanding k cw hk
  | release h => exact fun k cw hk => hstanding k cw (htableGet_of_remove hb.chunks hk).2

/-- The chunks of a result go while a handle denotes one of them. -/
def Orphans (b : Books) (rw : ResultWrap) : Prop := ∃ h cw, htableGet b.chunks h = some cw ∧ cw ∈ rw.views

theorem standing_destroy (h : BitVec 32) (rw : ResultWrap) (hstanding : b.Standing) :
    (b.destroy h rw).Standing ↔ ¬ b.Orphans rw := by
  constructor
  · rintro hnext ⟨k, cw, hk, hview⟩
    exact hnext k cw hk (List.mem_append_left _ hview)
  · intro hnone k cw hk hcw
    rcases List.mem_append.mp hcw with hview | hcw
    · exact hnone ⟨k, cw, hk, hview⟩
    · exact hstanding k cw hk hcw

end Books

namespace Bindings

variable {host : ℕ → Byte} {s : Bindings E}

def books (s : Bindings E) : Books := ⟨s.htResult, s.htChunk, s.made, s.destroyed⟩

section Steps

variable {h outPtr outCap : BitVec 32}

theorem books_memWrite {ptr : BitVec 32} {src : Text} : (s.memWrite ptr src).books = s.books := by
  unfold memWrite
  split <;> rfl

theorem books_memWriteBlob {data : Text} {len : BitVec 32} :
    (s.memWriteBlob outPtr outCap data len).1.books = s.books := by
  unfold memWriteBlob
  split
  · exact books_memWrite
  · rfl

theorem books_memWriteCstr {str : Option Text} : (s.memWriteCstr outPtr outCap str).1.books = s.books := by
  unfold memWriteCstr
  split
  · rfl
  · exact books_memWriteBlob

theorem books_noteOvershoot {before between after : String} :
    (s.noteOvershoot before between after).books = s.books := by
  unfold noteOvershoot
  split <;> rfl

theorem turns_refuse {msg : Text} {reads : List Read} : s.books.Turns (s.refuse msg reads).1.books :=
  .make (.newSynthetic s.made msg) rfl

theorem turns_conclude {r : Ran E} {writer : Bool} {reads : List Read} :
    s.books.Turns (s.conclude r writer reads).1.books := by
  unfold conclude
  dsimp only
  split
  · have hbooks : ({ s with connection := r.connection } : Bindings E).books = s.books := rfl
    rw [← hbooks, ← books_noteOvershoot]
    exact .make (.new _ r.result) rfl
  · exact .make (.new _ r.result) rfl

theorem turns_gated {forbidden writer : Bool} {what : String} {run : Ran E} {reads : List Read} :
    s.books.Turns (s.gated forbidden writer what run reads).1.books := by
  unfold gated
  split
  · exact turns_refuse
  · split
    · exact turns_refuse
    · exact turns_conclude

theorem get_of_getRw {rw : ResultWrap} (hrw : s.getRw h = some rw) : htableGet s.books.results h = some rw :=
  (Option.filter_eq_some_iff.mp hrw).1

theorem turns_updateRw {rw rw' : ResultWrap} (hrw : s.getRw h = some rw) (hserial : rw'.serial = rw.serial) :
    s.books.Turns (s.updateRw h rw').books :=
  .fetch h rw rw' (get_of_getRw hrw) hserial

theorem turns_locateCell (h row : BitVec 32) : s.books.Turns (s.locateCell h row).1.books := by
  unfold locateCell
  split
  · exact .rest
  · rename_i rw hrw
    exact turns_updateRw hrw (rw.serial_locate _)

theorem turns_fnFetchChunk : s.books.Turns (s.fnFetchChunk h).1.books := by
  unfold fnFetchChunk
  split
  · exact .rest
  · rename_i rw hrw
    dsimp only
    split
    · exact .view h rw _ _ (get_of_getRw hrw) rw.serial_fetchOne
    · exact turns_updateRw hrw rw.serial_fetchOne

theorem turns_fnResultGetChunk {ci : BitVec 32} : s.books.Turns (s.fnResultGetChunk h ci).1.books := by
  unfold fnResultGetChunk
  split
  · exact .rest
  · rename_i rw hrw
    dsimp only
    split
    · exact .view h rw _ _ (get_of_getRw hrw) (rw.serial_ensureChunk _)
    · exact turns_updateRw hrw (rw.serial_ensureChunk _)

theorem turns_fnDestroyChunk : s.books.Turns (s.fnDestroyChunk h).1.books := by
  unfold fnDestroyChunk
  split
  · exact .rest
  · exact .release h

theorem turns_of_books {t : Bindings E} (hbooks : t.books = s.books) : s.books.Turns t.books := hbooks ▸ .rest

theorem books_writeText {str : Option Text} : (s.writeText outPtr outCap str).1.books = s.books := books_memWriteCstr

theorem books_writeHugeint {c : Option Chunk} {n m : ℕ} : (s.writeHugeint host c n m outPtr).books = s.books :=
  books_memWrite.trans books_memWrite

theorem books_fnLastError : (s.fnLastError outPtr outCap).1.books = s.books := by
  unfold fnLastError
  dsimp only
  split
  · exact books_memWriteCstr
  · exact books_memWriteCstr

theorem turns_next {event : Event} (hkeeps : ∀ h, event ≠ .call (.destroyResult h)) :
    s.books.Turns (s.next host event).1.books := by
  cases event with
  | memory memory => exact .rest
  | setQuota quotaBytes => exact .rest
  | call call =>
    change s.books.Turns (s.call host call).1.books
    cases call with
    | destroyResult h => exact absurd rfl (hkeeps h)
    | query ptr len =>
      simp only [Bindings.call, fnQuery]
      split
      · exact turns_refuse
      · exact turns_gated
    | executePrepared h =>
      simp only [Bindings.call, fnExecutePrepared]
      split
      · exact .rest
      · exact turns_gated
    | fetchChunk h =>
      simp only [Bindings.call]
      exact turns_fnFetchChunk
    | resultGetChunk h ci =>
      simp only [Bindings.call]
      exact turns_fnResultGetChunk
    | destroyChunk h =>
      simp only [Bindings.call]
      exact turns_fnDestroyChunk
    | resultRowCount h =>
      simp only [Bindings.call, fnResultRowCount]
      split
      · exact .rest
      · rename_i rw hrw
        exact turns_updateRw hrw rw.serial_materializeAll
    | valueIsNull h col row =>
      simp only [Bindings.call, fnValueIsNull]
      split
      · exact turns_locateCell h row
      · exact turns_locateCell h row
    | value a h col row =>
      simp only [Bindings.call, fnValue]
      split
      · exact turns_locateCell h row
      · exact turns_locateCell h row
    | valueString h col row outPtr outCap =>
      simp only [Bindings.call, fnValueString]
      split
      · exact turns_locateCell h row
      · exact (congrArg s.books.Turns books_memWriteBlob).mpr (turns_locateCell h row)
    | valueHugeint h col row outPtr =>
      simp only [Bindings.call, fnValueHugeint]
      split
      · exact turns_locateCell h row
      · exact (congrArg s.books.Turns books_writeHugeint).mpr (turns_locateCell h row)
    | lastError outPtr outCap =>
      apply turns_of_books
      simp only [Bindings.call]
      exact books_fnLastError
    | _ =>
      apply turns_of_books
      simp only [Bindings.call, fnResultError, fnResultColumnName, fnResultColumnCount, fnResultRowsChanged,
        fnResultChunkCount, fnResultStatementType, fnResultColumnType, resultNumber, fnPrepare, fnDestroyPrepare,
        fnPrepareError, fnNparams, fnParamType, fnClearBindings, fnBind, fnBindVarchar, fnBindBlob, bindValue,
        fnAppenderCreate, fnAppenderDestroy, fnAppenderError, fnAppenderFlush, fnAppenderClose, fnAppenderBeginRow,
        fnAppenderEndRow, fnAppend, fnAppendVarchar, fnAppendBlob, fnTableDescCreate, fnTableDescDestroy,
        fnTableDescError, fnColumnHasDefault, fnTableDescColumnName, fnExtractStatements, fnDestroyExtracted,
        fnExtractStatementsError, fnPrepareExtracted, fnDbSize, fnDbQuota, fnChunkSize, fnChunkColumnCount,
        fnChunkColumnType, chunkNumber, fnChunkIsNull, fnChunkGet, fnChunkGetString, fnChunkGetHugeint,
        fnChunkCopyColumn, fnChunkCopyValidity]
      repeat' split
      all_goals first
        | rfl
        | exact books_writeText
        | exact books_memWriteBlob
        | exact books_writeHugeint
        | exact books_noteOvershoot

theorem books_fnDestroyResult {rw : ResultWrap} (hrw : htableGet s.htResult h = some rw) :
    (s.fnDestroyResult h).1.books = s.books.destroy h rw := by
  unfold fnDestroyResult
  rw [hrw]
  rfl

end Steps

section Runs

def opened (connection : Connection E) (dbPath : Option Text) : Bindings E := { Bindings.init connection with dbPath }

def step (host : ℕ → Byte) (s : Bindings E) (event : Event) : Bindings E := (s.next host event).1

/-- A result goes while a handle denotes one of its chunks. -/
def Orphans (s : Bindings E) : Event → Prop
  | .call (.destroyResult h) => ∃ rw, htableGet s.htResult h = some rw ∧ s.books.Orphans rw
  | _ => False

/-- The chunks that have been fetched of a result are destroyed with it, and never besides. -/
def DestroyedOnce (host : ℕ → Byte) (s : Bindings E) (events : List Event) : Prop :=
  ∀ done h rest rw, events = done ++ .call (.destroyResult h) :: rest →
    htableGet (done.foldl (step host) s).htResult h = some rw →
      ∀ cw ∈ rw.views, cw ∉ (done.foldl (step host) s).destroyed ∧
        (events.foldl (step host) s).destroyed.count cw = 1

theorem owned_step {event : Event} (hs : s.books.Owned) : (s.step host event).books.Owned := by
  by_cases hkeeps : ∀ h, event ≠ .call (.destroyResult h)
  · exact (turns_next hkeeps).owned hs
  · obtain ⟨h, rfl⟩ := Classical.not_forall_not.mp hkeeps
    change (s.fnDestroyResult h).1.books.Owned
    cases hrw : htableGet s.htResult h with
    | none =>
      unfold fnDestroyResult
      rw [hrw]
      exact hs
    | some rw =>
      rw [books_fnDestroyResult hrw]
      exact hs.destroy hrw

theorem standing_step {event : Event} (hs : s.books.Owned) (hstanding : s.books.Standing) :
    (s.step host event).books.Standing ↔ ¬ s.Orphans event := by
  by_cases hkeeps : ∀ h, event ≠ .call (.destroyResult h)
  · apply iff_of_true ((turns_next hkeeps).standing hs hstanding)
    unfold Orphans
    split
    · exact absurd rfl (hkeeps _)
    · exact not_false
  · obtain ⟨h, rfl⟩ := Classical.not_forall_not.mp hkeeps
    change (s.fnDestroyResult h).1.books.Standing ↔ _
    cases hrw : htableGet s.htResult h with
    | none =>
      refine iff_of_true ?_ fun ⟨rw, hsome, _⟩ => nomatch hrw.symm.trans hsome
      unfold fnDestroyResult
      rw [hrw]
      exact hstanding
    | some rw =>
      rw [books_fnDestroyResult hrw, Books.standing_destroy h rw hstanding]
      refine not_congr ⟨fun horphans => ⟨rw, hrw, horphans⟩, ?_⟩
      rintro ⟨rw', hrw', horphans⟩
      obtain rfl := Option.some.inj (hrw.symm.trans hrw')
      exact horphans

theorem destroyed_step {event : Event} {cw : ChunkWrap} (hcw : cw ∈ s.destroyed) :
    cw ∈ (s.step host event).destroyed := by
  by_cases hkeeps : ∀ h, event ≠ .call (.destroyResult h)
  · have hsame : (s.next host event).1.destroyed = s.destroyed := (turns_next hkeeps).destroyed_eq
    exact hsame.symm ▸ hcw
  · obtain ⟨h, rfl⟩ := Classical.not_forall_not.mp hkeeps
    change cw ∈ (s.fnDestroyResult h).1.destroyed
    unfold fnDestroyResult
    split
    · exact hcw
    · exact List.mem_append_right _ hcw

theorem owned_foldl {events : List Event} (hs : s.books.Owned) : (events.foldl (step host) s).books.Owned := by
  induction events generalizing s with
  | nil => exact hs
  | cons event events ih => exact ih (owned_step hs)

theorem destroyed_foldl {events : List Event} {cw : ChunkWrap} (hcw : cw ∈ s.destroyed) :
    cw ∈ (events.foldl (step host) s).destroyed := by
  induction events generalizing s with
  | nil => exact hcw
  | cons event events ih => exact ih (destroyed_step hcw)

theorem destroyedOnce (hs : s.books.Owned) (events : List Event) : DestroyedOnce host s events := by
  intro done h rest rw hsplit hrw cw hview
  have hdone : (done.foldl (step host) s).books.Owned := owned_foldl hs
  refine ⟨hdone.kept hrw (Books.mem_views.mp hview).1, ?_⟩
  have hgone : cw ∈ (step host (done.foldl (step host) s) (.call (.destroyResult h))).books.destroyed := by
    change cw ∈ (fnDestroyResult _ h).1.books.destroyed
    rw [books_fnDestroyResult hrw]
    exact List.mem_append_left _ hview
  have hend := @destroyed_foldl _ host _ rest cw hgone
  rw [← List.foldl_cons, ← List.foldl_append, ← hsplit] at hend
  have honce : (events.foldl (step host) s).destroyed.Nodup := (owned_foldl hs).once
  exact List.count_eq_one_of_mem honce hend

theorem owned_init (connection : Connection E) (dbPath : Option Text) :
    (opened connection dbPath).books.Owned := by
  have hnone {α : Type} (n h : BitVec 32) : htableGet (htableInit n : HandleTable α) h = none := by
    unfold htableGet
    split
    · rfl
    · unfold HandleTable.slot htableInit
      rw [List.getD_eq_getElem?_getD, List.getElem?_replicate]
      split <;> rfl
  refine ⟨List.length_replicate, List.length_replicate, fun h rw hget => ?_, fun h h' rw rw' hget => ?_,
    fun _ hcw => (nomatch hcw), List.nodup_nil⟩
  · exact nomatch (hnone 128 h).symm.trans hget
  · exact nomatch (hnone 128 h).symm.trans hget

/-- No chunk handle outlives its chunk, and each chunk is destroyed once, exactly in the runs that destroy
results without views. -/
theorem chunk_lifetime_iff (host : ℕ → Byte) (connection : Connection E) (dbPath : Option Text)
    (events : List Event) :
    (∀ done rest, events = done ++ rest →
        (done.foldl (step host) (opened connection dbPath)).books.Standing) ∧
      DestroyedOnce host (opened connection dbPath) events ↔
    ∀ done event rest, events = done ++ event :: rest →
      ¬ (done.foldl (step host) (opened connection dbPath)).Orphans event := by
  have hinit := owned_init connection dbPath
  have hstanding : (opened connection dbPath).books.Standing :=
    fun _ _ _ hcw => nomatch hcw
  apply (and_iff_left (destroyedOnce hinit events)).trans
  exact System.holds_along_iff (J := fun s : Bindings E => s.books.Owned) (I := fun s => s.books.Standing)
    (fun _ _ => owned_step) (fun _ _ => standing_step) hinit hstanding events

theorem view_dangles : ¬ ∀ done rest,
    [.memory (some (utf8 "SELECT a FROM t")), .call (.query 0 15), .call (.fetchChunk 1), .call (.destroyResult 1)] =
        done ++ rest →
      (done.foldl (step fun _ => 0) (opened ⟨⟨true, 1⟩, []⟩ none : Bindings tableEngine)).books.Standing := by
  intro h
  have hfinal := h _ [] (List.append_nil _).symm 1 (⟨0, 0⟩ : ChunkWrap) (by decide +kernel)
  exact hfinal (by decide +kernel)

end Runs

end Bindings

end YumiBrowser.Duckdb
