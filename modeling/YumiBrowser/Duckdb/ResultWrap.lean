import Mathlib.Algebra.BigOperators.Group.List.Basic
import Mathlib.Data.List.GetD
import YumiBrowser.Duckdb.Engine

namespace YumiBrowser.Duckdb

/-- The rows before the `i`-th chunk. -/
def rowsBefore (chunks : List Chunk) (i : ℕ) : ℕ := ((chunks.take i).map Chunk.size).sum

/-- A query result with the chunks that have been fetched of it. The serial number stands for its
address; a result that DuckDB has not made carries an error of the sandbox. -/
structure ResultWrap where
  serial : ℕ
  result : QueryResult
  chunks : List Chunk
  chunkRowOffsets : List ℕ
  totalRows : ℕ
  allFetched : Bool
  syntheticError : Option Text
  length_offsets : chunkRowOffsets.length = chunks.length + 1
  offset_eq : ∀ i ≤ chunks.length, chunkRowOffsets.getD i 0 = rowsBefore chunks i
  total_eq : totalRows = rowsBefore chunks chunks.length
  fetched : allFetched = true → result.chunks = []

namespace ResultWrap

def make (serial : ℕ) (result : QueryResult) (syntheticError : Option Text) : ResultWrap where
  serial
  result
  chunks := []
  chunkRowOffsets := [0]
  totalRows := 0
  allFetched := false
  syntheticError
  length_offsets := rfl
  offset_eq i hi := by rw [Nat.le_zero.mp hi]; rfl
  total_eq := rfl
  fetched h := nomatch h

def new (serial : ℕ) (result : QueryResult) : ResultWrap := make serial result none

def newSynthetic (serial : ℕ) (msg : Text) : ResultWrap := make serial (.empty .invalid) (some msg)

theorem rowsBefore_append {chunks : List Chunk} (chunk : Chunk) {i : ℕ} (hi : i ≤ chunks.length) :
    rowsBefore (chunks ++ [chunk]) i = rowsBefore chunks i := by
  unfold rowsBefore
  rw [List.take_append_of_le_length hi]

theorem rowsBefore_push (chunks : List Chunk) (chunk : Chunk) :
    rowsBefore (chunks ++ [chunk]) (chunks.length + 1) = rowsBefore chunks chunks.length + chunk.size := by
  simp [rowsBefore, List.take_of_length_le]

variable (rw : ResultWrap)

def push (chunk : Chunk) (rest : List Chunk) (hmore : rw.allFetched = false) : ResultWrap :=
  { rw with
    result := { rw.result with chunks := rest }
    chunks := rw.chunks ++ [chunk]
    chunkRowOffsets := rw.chunkRowOffsets ++ [rw.chunkRowOffsets.getD rw.chunks.length 0 + chunk.size]
    totalRows := rw.totalRows + chunk.size
    length_offsets := by simp [rw.length_offsets]
    offset_eq := by
      intro i hi
      rw [List.length_append, List.length_singleton] at hi
      rcases Nat.le_succ_iff.mp hi with hi | rfl
      · rw [List.getD_append _ _ _ _ (rw.length_offsets ▸ Nat.lt_succ_of_le hi), rw.offset_eq i hi,
          rowsBefore_append chunk hi]
      · rw [List.getD_append_right _ _ _ _ (le_of_eq rw.length_offsets), rw.length_offsets,
          rw.offset_eq _ le_rfl, rowsBefore_push]
        simp
    total_eq := by rw [List.length_append, List.length_singleton, rowsBefore_push, rw.total_eq]
    fetched := fun h => nomatch hmore.symm.trans h }

def fetchOne : ResultWrap × Bool :=
  if hall : rw.allFetched = true then (rw, false)
  else
    match hpending : rw.result.chunks with
    | [] => ({ rw with allFetched := true, fetched := fun _ => hpending }, false)
    | chunk :: rest => (rw.push chunk rest (Bool.eq_false_iff.mpr hall), true)

def all : List Chunk := rw.chunks ++ rw.result.chunks

theorem fetchOne_cases :
    rw.fetchOne.2 = false ∧ rw.fetchOne.1.chunks = rw.chunks ∧ rw.result.chunks = [] ∧
        rw.fetchOne.1.result = rw.result ∨
      ∃ chunk rest hmore, rw.result.chunks = chunk :: rest ∧ rw.fetchOne = (rw.push chunk rest hmore, true) := by
  unfold fetchOne
  split
  · rename_i hall
    exact .inl ⟨rfl, rfl, rw.fetched hall, rfl⟩
  · rename_i hall
    split
    · rename_i hpending
      exact .inl ⟨rfl, rfl, hpending, rfl⟩
    · rename_i chunk rest hpending
      exact .inr ⟨chunk, rest, Bool.eq_false_iff.mpr hall, hpending, rfl⟩

theorem pending_fetchOne (h : rw.fetchOne.2 = true) :
    rw.fetchOne.1.result.chunks.length < rw.result.chunks.length := by
  obtain ⟨hend, _⟩ | ⟨chunk, rest, hmore, hpending, hfetch⟩ := rw.fetchOne_cases
  · exact nomatch h.symm.trans hend
  · rw [hfetch, hpending]
    exact Nat.lt_succ_self _

theorem all_fetchOne : rw.fetchOne.1.all = rw.all := by
  unfold all
  obtain ⟨_, hchunks, _, hresult⟩ | ⟨chunk, rest, hmore, hpending, hfetch⟩ := rw.fetchOne_cases
  · rw [hchunks, hresult]
  · rw [hfetch, hpending]
    exact List.append_assoc ..

theorem serial_fetchOne : rw.fetchOne.1.serial = rw.serial := by
  unfold fetchOne
  split
  · rfl
  · split <;> rfl

/-- `while (rw_fetch_one(rw)) {}` -/
def materializeAll (rw : ResultWrap) : ResultWrap :=
  if _ : rw.fetchOne.2 = true then rw.fetchOne.1.materializeAll else rw.fetchOne.1
termination_by rw.result.chunks.length
decreasing_by exact rw.pending_fetchOne ‹_›

theorem chunks_materializeAll : rw.materializeAll.chunks = rw.all := by
  fun_induction materializeAll rw with
  | case1 rw h ih => exact ih.trans rw.all_fetchOne
  | case2 rw h =>
    obtain ⟨_, hchunks, hpending, _⟩ | ⟨_, _, _, _, hfetch⟩ := rw.fetchOne_cases
    · rw [hchunks, all, hpending, List.append_nil]
    · rw [hfetch] at h
      exact absurd rfl h

theorem serial_materializeAll : rw.materializeAll.serial = rw.serial := by
  fun_induction materializeAll rw with
  | case1 rw h ih => exact ih.trans rw.serial_fetchOne
  | case2 rw h => exact rw.serial_fetchOne

/-- `while (rw->chunk_count <= n)` -/
def ensureChunk (rw : ResultWrap) (n : ℕ) : ResultWrap × Bool :=
  if n < rw.chunks.length then (rw, true)
  else if _ : rw.fetchOne.2 = true then rw.fetchOne.1.ensureChunk n else (rw.fetchOne.1, false)
termination_by rw.result.chunks.length
decreasing_by exact rw.pending_fetchOne ‹_›

theorem serial_ensureChunk (n : ℕ) : (rw.ensureChunk n).1.serial = rw.serial := by
  fun_induction ensureChunk rw n with
  | case1 rw h => rfl
  | case2 rw h h' ih => exact ih.trans rw.serial_fetchOne
  | case3 rw h h' => exact rw.serial_fetchOne

/-- The last of the offsets between `lo` and `hi` that `row` has reached. -/
def search (offsets : List ℕ) (row lo hi : ℕ) : ℕ :=
  if lo + 1 < hi then
    let mid := (lo + hi) / 2
    if offsets.getD mid 0 ≤ row then search offsets row mid hi else search offsets row lo mid
  else lo
termination_by hi - lo

theorem search_spec {offsets : List ℕ} {row lo hi : ℕ} (hlt : lo < hi) (hlo : offsets.getD lo 0 ≤ row)
    (hhi : row < offsets.getD hi 0) :
    search offsets row lo hi < hi ∧ offsets.getD (search offsets row lo hi) 0 ≤ row ∧
      row < offsets.getD (search offsets row lo hi + 1) 0 := by
  fun_induction search offsets row lo hi with
  | case1 lo hi hgap mid hmid ih => exact ih (by omega) hmid hhi
  | case2 lo hi hgap mid hmid ih =>
    obtain ⟨hbelow, hfound⟩ := ih (by omega) hlo (Nat.lt_of_not_le hmid)
    exact ⟨by omega, hfound⟩
  | case3 lo hi hgap =>
    have hnext : lo + 1 = hi := by omega
    exact ⟨hlt, hlo, hnext ▸ hhi⟩

/-- `rw_locate`: the chunk of a row, and the row in it. -/
def locate (row : ℕ) : ResultWrap × Option (ℕ × ℕ) :=
  let rw := rw.materializeAll
  if rw.chunks.length = 0 ∨ rw.totalRows ≤ row then (rw, none)
  else
    let lo := search rw.chunkRowOffsets row 0 rw.chunks.length
    (rw, some (lo, row - rw.chunkRowOffsets.getD lo 0))

theorem serial_locate (row : ℕ) : (rw.locate row).1.serial = rw.serial := by
  unfold locate
  dsimp only
  split
  · exact rw.serial_materializeAll
  · exact rw.serial_materializeAll

def rowAt (chunks : List Chunk) (row : ℕ) : Option (Chunk × ℕ) :=
  match chunks with
  | [] => none
  | chunk :: rest => if row < chunk.size then some (chunk, row) else rowAt rest (row - chunk.size)

theorem rowAt_eq {chunks : List Chunk} {i row : ℕ} {chunk : Chunk} (hi : chunks[i]? = some chunk)
    (hle : rowsBefore chunks i ≤ row) (hlt : row < rowsBefore chunks (i + 1)) :
    rowAt chunks row = some (chunk, row - rowsBefore chunks i) := by
  induction chunks generalizing i row with
  | nil => exact nomatch hi
  | cons first rest ih =>
    unfold rowAt
    cases i with
    | zero =>
      obtain rfl : first = chunk := Option.some.inj hi
      have hsize : rowsBefore (first :: rest) (0 + 1) = first.size := by simp [rowsBefore]
      rw [if_pos (hsize ▸ hlt)]
      rfl
    | succ i =>
      have hstep (j : ℕ) : rowsBefore (first :: rest) (j + 1) = first.size + rowsBefore rest j := by
        simp [rowsBefore]
      rw [hstep] at hle hlt ⊢
      rw [if_neg (by omega), ih hi (by omega) (by omega), Nat.sub_sub]

theorem lt_size_of_rowAt {chunks : List Chunk} {row : ℕ} {cell : Chunk × ℕ} (hcell : rowAt chunks row = some cell) :
    cell.2 < cell.1.size := by
  induction chunks generalizing row with
  | nil => exact nomatch hcell
  | cons first rest ih =>
    unfold rowAt at hcell
    split at hcell
    · cases hcell
      assumption
    · exact ih hcell

theorem rowAt_eq_none {chunks : List Chunk} {row : ℕ} :
    rowAt chunks row = none ↔ rowsBefore chunks chunks.length ≤ row := by
  induction chunks generalizing row with
  | nil => simp [rowAt, rowsBefore]
  | cons first rest ih =>
    have hstep : rowsBefore (first :: rest) (first :: rest).length =
        first.size + rowsBefore rest rest.length := by
      simp [rowsBefore]
    unfold rowAt
    rw [hstep]
    split
    · simp only [reduceCtorEq, false_iff]
      omega
    · rw [ih]
      omega

theorem locate_eq (row : ℕ) :
    (rw.locate row).2.bind (fun cell => (rw.locate row).1.chunks[cell.1]?.map (·, cell.2)) = rowAt rw.all row := by
  rw [← rw.chunks_materializeAll]
  unfold locate
  generalize rw.materializeAll = rw
  have htotal := rw.total_eq
  have hnone : rw.chunks.length = 0 → rowsBefore rw.chunks rw.chunks.length = 0 := fun h => by
    rw [h]
    rfl
  dsimp only
  split
  · exact (rowAt_eq_none.mpr (by omega)).symm
  · rename_i hrow
    have hzero : rw.chunkRowOffsets.getD 0 0 ≤ row := by
      rw [rw.offset_eq 0 (Nat.zero_le _)]
      exact Nat.zero_le _
    have hall : row < rw.chunkRowOffsets.getD rw.chunks.length 0 := by
      rw [rw.offset_eq _ le_rfl]
      omega
    obtain ⟨hlt, hle, hnext⟩ := search_spec (by omega) hzero hall
    generalize search rw.chunkRowOffsets row 0 rw.chunks.length = lo at hlt hle hnext ⊢
    rw [rw.offset_eq _ hlt] at hnext
    rw [rw.offset_eq _ (Nat.le_of_lt hlt)] at hle
    have hget := List.getElem?_eq_getElem hlt
    simp only [Option.bind_some, hget, Option.map_some, rw.offset_eq _ (Nat.le_of_lt hlt)]
    exact (rowAt_eq hget hle hnext).symm

end ResultWrap

end YumiBrowser.Duckdb
