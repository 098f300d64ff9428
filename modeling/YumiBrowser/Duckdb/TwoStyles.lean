import YumiBrowser.Duckdb.ChunkLife

namespace YumiBrowser.Duckdb

open Wire Handles

/-- The calls of both styles on a result. -/
inductive ResultCall
  | fetchChunk
  | getChunk (ci : BitVec 32)
  | rowCount
  | valueIsNull (col row : BitVec 32)
  | value (a : Accessor) (col row : BitVec 32)
  | valueString (col row outPtr outCap : BitVec 32)
  | valueHugeint (col row outPtr : BitVec 32)

namespace ResultCall

def on (h : BitVec 32) : ResultCall → Call
  | fetchChunk => .fetchChunk h
  | getChunk ci => .resultGetChunk h ci
  | rowCount => .resultRowCount h
  | valueIsNull col row => .valueIsNull h col row
  | value a col row => .value a h col row
  | valueString col row outPtr outCap => .valueString h col row outPtr outCap
  | valueHugeint col row outPtr => .valueHugeint h col row outPtr

def isFetch : ResultCall → Bool
  | fetchChunk => true
  | _ => false

def row? : ResultCall → Option (BitVec 32)
  | valueIsNull _ row => some row
  | value _ _ row => some row
  | valueString _ row _ _ => some row
  | valueHugeint _ row _ => some row
  | _ => none

/-- How far the fetch cursor of a result of `n` chunks is moved. -/
def moves (n cursor : ℕ) : ResultCall → ℕ
  | fetchChunk => min n (cursor + 1)
  | getChunk ci => max cursor (min n (ci.toNat + 1))
  | _ => n

/-- A call asks for nothing beyond the first `k` chunks, or it fetches the next. -/
def Behind (k : ℕ) : ResultCall → Prop
  | fetchChunk => True
  | getChunk ci => ci.toNat < k
  | _ => False

end ResultCall

/-- How many of the calls are `ddb_fetch_chunk`. -/
def fetches (cs : List ResultCall) : ℕ := cs.countP ResultCall.isFetch

/-- Nothing but `ddb_fetch_chunk` has gone beyond the chunks that it had fetched before. -/
def InStep (cs : List ResultCall) : Prop := ∀ done c rest, cs = done ++ c :: rest → c.Behind (fetches done)

def concatenation (chunks : List Chunk) : List (Chunk × ℕ) :=
  chunks.flatMap fun chunk => (List.range chunk.size).map fun row => (chunk, row)

theorem rowAt_eq_getElem? (chunks : List Chunk) (row : ℕ) :
    ResultWrap.rowAt chunks row = (concatenation chunks)[row]? := by
  induction chunks generalizing row with
  | nil => rfl
  | cons chunk chunks ih =>
    have hlen : ((List.range chunk.size).map fun row => (chunk, row)).length = chunk.size := by simp
    rw [ResultWrap.rowAt, concatenation, List.flatMap_cons]
    split
    · rw [List.getElem?_append_left (by rwa [hlen])]
      simp [*]
    · rw [List.getElem?_append_right (by rw [hlen]; omega), hlen]
      exact ih _

theorem length_concatenation (chunks : List Chunk) :
    (concatenation chunks).length = rowsBefore chunks chunks.length := by
  rw [rowsBefore, List.take_length, concatenation, List.length_flatMap]
  simp

namespace ResultWrap

variable (rw : ResultWrap)

def Same (rw rw' : ResultWrap) : Prop := rw'.all = rw.all ∧ rw'.syntheticError = rw.syntheticError

theorem same_fetchOne : rw.Same rw.fetchOne.1 := by
  refine ⟨rw.all_fetchOne, ?_⟩
  unfold fetchOne
  split
  · rfl
  · split <;> rfl

theorem Same.trans {rw rw' rw'' : ResultWrap} (h : rw.Same rw') (h' : rw'.Same rw'') : rw.Same rw'' :=
  ⟨h'.1.trans h.1, h'.2.trans h.2⟩

theorem same_materializeAll : rw.Same rw.materializeAll := by
  fun_induction materializeAll rw with
  | case1 rw h ih => exact rw.same_fetchOne.trans ih
  | case2 rw h => exact rw.same_fetchOne

theorem same_ensureChunk (n : ℕ) : rw.Same (rw.ensureChunk n).1 := by
  fun_induction ensureChunk rw n with
  | case1 rw h => exact ⟨rfl, rfl⟩
  | case2 rw h h' ih => exact rw.same_fetchOne.trans ih
  | case3 rw h h' => exact rw.same_fetchOne

theorem locate_fst (row : ℕ) : (rw.locate row).1 = rw.materializeAll := by
  unfold locate
  dsimp only
  split <;> rfl

theorem length_fetchOne : rw.fetchOne.1.chunks.length = min rw.all.length (rw.chunks.length + 1) ∧
    (rw.fetchOne.2 = true ↔ rw.chunks.length < rw.all.length) := by
  unfold all
  rw [List.length_append]
  obtain ⟨hend, hchunks, hpending, -⟩ | ⟨chunk, rest, hmore, hpending, hfetch⟩ := rw.fetchOne_cases
  · rw [hchunks, hend, hpending]
    simp
  · rw [hfetch, hpending]
    simp only [push, List.length_append, List.length_cons, List.length_nil]
    exact ⟨by omega, by simp⟩

theorem length_ensureChunk (n : ℕ) :
    (rw.ensureChunk n).1.chunks.length = max rw.chunks.length (min rw.all.length (n + 1)) := by
  have hle (rw : ResultWrap) : rw.chunks.length ≤ rw.all.length := by simp [all]
  fun_induction ensureChunk rw n with
  | case1 rw h =>
    dsimp only
    omega
  | case2 rw h h' ih =>
    obtain ⟨hlen, hmore⟩ := rw.length_fetchOne
    have hlt := hmore.mp h'
    rw [ih, rw.all_fetchOne, hlen]
    omega
  | case3 rw h h' =>
    obtain ⟨hlen, hmore⟩ := rw.length_fetchOne
    have hend := mt hmore.mpr h'
    have := hle rw
    rw [hlen]
    omega

def after : ResultCall → ResultWrap
  | .fetchChunk => rw.fetchOne.1
  | .getChunk ci => (rw.ensureChunk ci.toNat).1
  | _ => rw.materializeAll

theorem same_after (c : ResultCall) : rw.Same (rw.after c) := by
  cases c with
  | fetchChunk => exact rw.same_fetchOne
  | getChunk ci => exact rw.same_ensureChunk _
  | _ => exact rw.same_materializeAll

theorem length_after (c : ResultCall) : (rw.after c).chunks.length = c.moves rw.all.length rw.chunks.length := by
  cases c with
  | fetchChunk => exact rw.length_fetchOne.1
  | getChunk ci => exact rw.length_ensureChunk _
  | _ => exact congrArg List.length rw.chunks_materializeAll

end ResultWrap

namespace Bindings

variable {E : Engine} (host : ℕ → Byte) (s : Bindings E) (h : BitVec 32)

/-- The chunk that `ddb_fetch_chunk` makes a view of. -/
def fetched : Option ChunkWrap :=
  (s.getRw h).bind fun rw =>
    if rw.fetchOne.2 then some ⟨rw.serial, rw.fetchOne.1.chunks.length - 1⟩ else none

theorem fnFetchChunk_eq : s.fnFetchChunk h =
    let t := (s.getRw h).elim s fun rw => s.updateRw h rw.fetchOne.1
    (s.fetched h).elim (t.answer (.i32 0) []) t.insertChunk := by
  unfold fnFetchChunk fetched
  cases s.getRw h with
  | none => rfl
  | some rw =>
    simp only [Option.bind_some, Option.elim_some]
    split <;> rfl

def ofCell (cell : Option (Chunk × ℕ)) : ResultCall → Outcome E
  | .valueIsNull col _ => cell.elim (s.answer (.i32 1) []) fun x =>
    let null := vecIsNull host (some x.1) col.toNat x.2
    s.answer (isNullVal null.1) null.2
  | .value a col _ => cell.elim (s.answer a.zero []) fun x =>
    s.answer (a.ret (vecRead host (some x.1) col.toNat x.2 a.ctype)) [.cell (some x.1) col.toNat x.2 a.ctype]
  | .valueString col _ outPtr outCap => cell.elim (s.answer (.i32 0) []) fun x =>
    let w := s.writeStringtToGuest host (some x.1) col.toNat x.2 outPtr outCap
    w.1.answer (.i32 w.2) [.cell (some x.1) col.toNat x.2 .string]
  | .valueHugeint col _ outPtr => cell.elim (s.answer .unit []) fun x =>
    (s.writeHugeint host (some x.1) col.toNat x.2 outPtr).answer .unit [.cell (some x.1) col.toNat x.2 .hugeint]
  | _ => s.answer .unit []

theorem call_value {c : ResultCall} {row : BitVec 32} (hrow : c.row? = some row) :
    s.call host (c.on h) = (s.locateCell h row).1.ofCell host (s.locateCell h row).2 c := by
  cases c with
  | fetchChunk => exact nomatch hrow
  | getChunk ci => exact nomatch hrow
  | rowCount => exact nomatch hrow
  | valueIsNull col _ =>
    cases hrow
    simp only [ResultCall.on, call, fnValueIsNull, ofCell]
    cases (s.locateCell h row).2 <;> rfl
  | value a col _ =>
    cases hrow
    simp only [ResultCall.on, call, fnValue, ofCell]
    cases (s.locateCell h row).2 <;> rfl
  | valueString col _ outPtr outCap =>
    cases hrow
    simp only [ResultCall.on, call, fnValueString, ofCell]
    cases (s.locateCell h row).2 <;> rfl
  | valueHugeint col _ outPtr =>
    cases hrow
    simp only [ResultCall.on, call, fnValueHugeint, ofCell]
    cases (s.locateCell h row).2 <;> rfl

def run (s : Bindings E) (c : ResultCall) : Bindings E := (s.call host (c.on h)).1

/-- What a call should do, of a result with these chunks, after `k` calls of `ddb_fetch_chunk`: it makes a
view of the `k`-th chunk, counts the rows, or takes its cell from a row of all chunks together. -/
structure Agrees (chunks : List Chunk) (k : ℕ) (s : Bindings E) (c : ResultCall) : Prop where
  fetch : c = .fetchChunk → (s.fetched h).map ChunkWrap.index = (List.range chunks.length)[k]? ∧
    ∀ cw, s.fetched h = some cw → (s.run host h c).deref cw = chunks[cw.index]?
  rowCount : c = .rowCount → ∃ n : BitVec 32, (s.call host (c.on h)).2.value = .i32 n ∧
    n.toNat = (concatenation chunks).length
  value : ∀ row, c.row? = some row →
    s.call host (c.on h) = (s.locateCell h row).1.ofCell host (concatenation chunks)[row.toNat]? c

/-- The chunks have been fetched as they should, and the rows can be counted. -/
def InOrder (chunks : List Chunk) (done : List ResultCall) (c : ResultCall) : Prop :=
  (c = .fetchChunk → chunks.length ≤ fetches done ∨ InStep done) ∧
    (c = .rowCount → (concatenation chunks).length < 2 ^ 32)

section Runs

variable {host : ℕ → Byte} {s t : Bindings E} {h : BitVec 32} {rw rw' : ResultWrap}

theorem getRw_updateRw (hs : s.books.Owned) (hrw : s.getRw h = some rw)
    (hsame : rw'.syntheticError = rw.syntheticError) : (s.updateRw h rw').getRw h = some rw' := by
  obtain ⟨hget, hreal⟩ := Option.filter_eq_some_iff.mp hrw
  refine Option.filter_eq_some_iff.mpr ⟨?_, by rwa [hsame]⟩
  have hput := htableGet_put hs.results (h - 1) (some rw') s.htResult.freelist h
  refine hput.trans (if_pos ⟨?_, (BitVec.sub_add_cancel h 1).symm⟩)
  unfold htableGet at hget
  split at hget
  · cases hget
  · rename_i hvalid
    rw [not_or] at hvalid
    obtain ⟨hzero, hle⟩ := hvalid
    change h - 1 < s.htResult.capacity
    bv_omega

theorem books_ofCell (cell : Option (Chunk × ℕ)) (c : ResultCall) : (s.ofCell host cell c).1.books = s.books := by
  cases cell with
  | none => cases c <;> rfl
  | some x =>
    cases c with
    | valueString col row outPtr outCap => exact books_memWriteBlob
    | valueHugeint col row outPtr => exact books_writeHugeint
    | _ => rfl

theorem htResult_run (hrw : s.getRw h = some rw) (c : ResultCall) :
    (s.run host h c).htResult = htableUpdate s.htResult h (rw.after c) := by
  have hvalue {row : BitVec 32} (hrow : c.row? = some row) :
      (s.run host h c).htResult = htableUpdate s.htResult h rw.materializeAll := by
    unfold run
    rw [s.call_value host h hrow]
    refine (congrArg Books.results (books_ofCell _ c)).trans ?_
    simp only [locateCell, hrw, rw.locate_fst]
    rfl
  cases c with
  | fetchChunk =>
    simp only [run, ResultCall.on, call, fnFetchChunk, hrw]
    split <;> rfl
  | getChunk ci =>
    simp only [run, ResultCall.on, call, fnResultGetChunk, hrw]
    split <;> rfl
  | rowCount =>
    simp only [run, ResultCall.on, call, fnResultRowCount, hrw]
    rfl
  | valueIsNull col row => exact hvalue rfl
  | value a col row => exact hvalue rfl
  | valueString col row outPtr outCap => exact hvalue rfl
  | valueHugeint col row outPtr => exact hvalue rfl

theorem getRw_run (hs : s.books.Owned) (hrw : s.getRw h = some rw) (c : ResultCall) :
    (s.run host h c).getRw h = some (rw.after c) := by
  rw [← getRw_updateRw hs hrw (rw.same_after c).2, getRw, htResult_run hrw c]
  rfl

theorem owned_run (hs : s.books.Owned) (c : ResultCall) : (s.run host h c).books.Owned :=
  show (s.step host (.call (c.on h))).books.Owned from owned_step hs

theorem mem_slots_of_get {α : Type} {t : HandleTable α} {x : α} (hget : htableGet t h = some x) :
    some x ∈ t.slots := by
  unfold htableGet HandleTable.slot at hget
  split at hget
  · cases hget
  · rw [List.getD_eq_getElem?_getD, Option.getD_eq_iff] at hget
    obtain hslot | ⟨-, hnone⟩ := hget
    · exact List.mem_of_getElem? hslot
    · cases hnone

theorem get_of_slot {α : Type} {t : HandleTable α} {x : α} {j : ℕ} (hlen : t.slots.length = t.capacity.toNat)
    (hslot : t.slots[j]? = some (some x)) : htableGet t (BitVec.ofNat 32 (j + 1)) = some x := by
  obtain ⟨hlt, -⟩ := List.getElem?_eq_some_iff.mp hslot
  have hcap := t.capacity.isLt
  have hnat : (BitVec.ofNat 32 (j + 1)).toNat = j + 1 := by
    rw [BitVec.toNat_ofNat, Nat.mod_eq_of_lt (by omega)]
  have hprev : (BitVec.ofNat 32 (j + 1) - 1).toNat = j := by bv_omega
  have hvalid : ¬ (BitVec.ofNat 32 (j + 1) = 0 ∨ t.capacity < BitVec.ofNat 32 (j + 1)) := by bv_omega
  rw [htableGet, if_neg hvalid, HandleTable.slot, hprev, List.getD_eq_getElem?_getD, hslot]
  rfl

theorem findSome?_eq {α β : Type} {l : List α} {f : α → Option β} {v : Option β} (hmem : ∃ x ∈ l, f x = v)
    (hall : ∀ x ∈ l, f x = none ∨ f x = v) : l.findSome? f = v := by
  cases hf : l.findSome? f with
  | none =>
    obtain ⟨x, hx, rfl⟩ := hmem
    exact (List.findSome?_eq_none_iff.mp hf x hx).symm
  | some y =>
    obtain ⟨x, hx, hy⟩ := List.exists_of_findSome?_eq_some hf
    obtain hnone | hsame := hall x hx
    · exact nomatch hnone.symm.trans hy
    · exact hy.symm.trans hsame

theorem deref_view (hs : s.books.Owned) (hget : htableGet s.htResult h = some rw) (i : ℕ) :
    s.deref ⟨rw.serial, i⟩ = rw.chunks[i]? := by
  refine findSome?_eq ⟨some rw, mem_slots_of_get hget, if_pos rfl⟩ fun slot hslot => ?_
  obtain ⟨j, hj⟩ := List.mem_iff_getElem?.mp hslot
  cases slot with
  | none => exact .inl rfl
  | some rw' =>
    by_cases hserial : rw'.serial = rw.serial
    · have hget' := get_of_slot hs.results hj
      obtain rfl := hs.handle _ _ _ _ hget' hget hserial
      cases hget.symm.trans hget'
      exact .inr (if_pos rfl)
    · exact .inl (if_neg hserial)

end Runs

section Cursor

open ResultCall

def cursor (n : ℕ) (cs : List ResultCall) : ℕ := cs.foldl (fun k c => c.moves n k) 0

theorem fetches_concat (cs : List ResultCall) (c : ResultCall) :
    fetches (cs ++ [c]) = fetches cs + if c.isFetch then 1 else 0 := by
  rw [fetches, List.countP_append, List.countP_singleton]
  rfl

theorem inStep_concat (cs : List ResultCall) (c : ResultCall) :
    InStep (cs ++ [c]) ↔ InStep cs ∧ c.Behind (fetches cs) := by
  constructor
  · intro hstep
    refine ⟨fun done c' rest heq => hstep done c' (rest ++ [c]) ?_, hstep cs c [] rfl⟩
    rw [heq, List.append_assoc]
    rfl
  · rintro ⟨hstep, hlast⟩ done c' rest heq
    obtain rfl | ⟨rest, x, rfl⟩ := rest.eq_nil_or_concat
    · obtain ⟨rfl, hc⟩ := List.append_inj' heq rfl
      cases hc
      exact hlast
    · have heq : cs ++ [c] = (done ++ c' :: rest) ++ [x] := by
        rw [heq, List.concat_eq_append, List.append_assoc, List.cons_append]
      exact hstep done c' rest (List.append_inj' heq rfl).1

theorem cursor_spec (n : ℕ) (cs : List ResultCall) : cursor n cs ≤ n ∧ min n (fetches cs) ≤ cursor n cs ∧
    (fetches cs < n → (cursor n cs = fetches cs ↔ InStep cs)) := by
  induction cs using List.reverseRecOn with
  | nil =>
    refine ⟨Nat.zero_le n, Nat.min_le_right n 0, fun _ => iff_of_true rfl fun done c rest heq => ?_⟩
    simp at heq
  | append_singleton cs c ih =>
    obtain ⟨hle, hmin, hiff⟩ := ih
    have hcursor : cursor n (cs ++ [c]) = c.moves n (cursor n cs) := by
      rw [cursor, List.foldl_append]
      rfl
    rw [hcursor, fetches_concat, inStep_concat]
    cases c with
    | fetchChunk =>
      simp only [moves, isFetch, Behind, if_true, and_true]
      refine ⟨by omega, by omega, fun hlt => ?_⟩
      rw [← hiff (by omega)]
      omega
    | getChunk ci =>
      simp only [moves, isFetch, Behind, Bool.false_eq_true, if_false, Nat.add_zero]
      refine ⟨by omega, by omega, fun hlt => ?_⟩
      rw [← hiff hlt]
      omega
    | _ =>
      simp only [moves, isFetch, Behind, Bool.false_eq_true, if_false, Nat.add_zero, and_false, iff_false]
      omega

end Cursor

section Agreement

variable {host : ℕ → Byte} {s : Bindings E} {h : BitVec 32} {chunks : List Chunk} {done : List ResultCall}

structure Tracks (h : BitVec 32) (chunks : List Chunk) (done : List ResultCall) (s : Bindings E) : Prop where
  owned : s.books.Owned
  found : ∃ rw, s.getRw h = some rw ∧ rw.all = chunks ∧ rw.chunks.length = cursor chunks.length done

theorem Tracks.run (hs : Tracks h chunks done s) (c : ResultCall) :
    Tracks h chunks (done ++ [c]) (s.run host h c) := by
  obtain ⟨rw, hrw, rfl, hcursor⟩ := hs.found
  refine ⟨owned_run hs.owned c, rw.after c, getRw_run hs.owned hrw c, (rw.same_after c).1, ?_⟩
  rw [rw.length_after, hcursor, cursor, cursor, List.foldl_append]
  rfl

theorem Tracks.foldl (hs : Tracks h chunks done s) (cs : List ResultCall) :
    Tracks h chunks (done ++ cs) (cs.foldl (Bindings.run host h) s) := by
  induction cs generalizing done s with
  | nil => rwa [List.append_nil]
  | cons c cs ih =>
    rw [List.append_cons]
    exact ih (hs.run c)

theorem Tracks.fetch_iff (hs : Tracks h chunks done s) :
    ((s.fetched h).map ChunkWrap.index = (List.range chunks.length)[fetches done]? ∧
        ∀ cw, s.fetched h = some cw → (s.run host h .fetchChunk).deref cw = chunks[cw.index]?) ↔
      chunks.length ≤ fetches done ∨ InStep done := by
  obtain ⟨rw, hrw, rfl, hcursor⟩ := hs.found
  obtain ⟨hle, hmin, hiff⟩ := cursor_spec rw.all.length done
  obtain ⟨hlen, hmore⟩ := rw.length_fetchOne
  rw [← hcursor] at hle hmin hiff
  have hfetched : s.fetched h =
      if rw.chunks.length < rw.all.length then some ⟨rw.serial, rw.chunks.length⟩ else none := by
    rw [fetched, hrw, Option.bind_some]
    by_cases hlt : rw.chunks.length < rw.all.length
    · rw [if_pos (hmore.mpr hlt), if_pos hlt, hlen, min_eq_right hlt, Nat.add_sub_cancel]
    · rw [if_neg (mt hmore.mp hlt), if_neg hlt]
  have hview : ∀ cw, s.fetched h = some cw → (s.run host h .fetchChunk).deref cw = rw.all[cw.index]? := by
    intro cw hcw
    rw [hfetched, Option.ite_none_right_eq_some] at hcw
    obtain ⟨hlt, hcw⟩ := hcw
    cases hcw
    have hget : htableGet (s.run host h .fetchChunk).htResult h = some (rw.after .fetchChunk) :=
      get_of_getRw (getRw_run hs.owned hrw .fetchChunk)
    rw [← rw.serial_fetchOne]
    refine (deref_view (owned_run hs.owned _) hget _).trans ?_
    have hlast : rw.chunks.length < rw.fetchOne.1.chunks.length := by omega
    rw [← rw.all_fetchOne]
    exact (List.getElem?_append_left hlast).symm
  rw [and_iff_left hview, hfetched]
  by_cases hend : rw.all.length ≤ fetches done
  · rw [List.getElem?_eq_none (by rwa [List.length_range]), if_neg (by omega)]
    exact iff_of_true rfl (.inl hend)
  · rw [List.getElem?_range (Nat.lt_of_not_le hend), or_iff_right hend, ← hiff (Nat.lt_of_not_le hend)]
    split
    · exact Option.some_inj
    · refine iff_of_false (fun hnone => nomatch hnone) ?_
      omega

theorem Tracks.rowCount_iff (hs : Tracks h chunks done s) :
    (∃ n : BitVec 32, (s.call host (.resultRowCount h)).2.value = .i32 n ∧
        n.toNat = (concatenation chunks).length) ↔
      (concatenation chunks).length < 2 ^ 32 := by
  obtain ⟨rw, hrw, rfl, -⟩ := hs.found
  have htotal : rw.materializeAll.totalRows = (concatenation rw.all).length := by
    rw [length_concatenation, rw.materializeAll.total_eq, rw.chunks_materializeAll]
  have hvalue : (s.call host (.resultRowCount h)).2.value = .i32 (BitVec.ofNat 32 (concatenation rw.all).length) := by
    simp only [call, fnResultRowCount, hrw, htotal]
    rfl
  rw [hvalue]
  constructor
  · rintro ⟨n, -, hn⟩
    exact hn ▸ n.isLt
  · intro hlt
    exact ⟨_, rfl, by rw [BitVec.toNat_ofNat, Nat.mod_eq_of_lt hlt]⟩

theorem Tracks.value_eq (hs : Tracks h chunks done s) {c : ResultCall} {row : BitVec 32} (hrow : c.row? = some row) :
    s.call host (c.on h) = (s.locateCell h row).1.ofCell host (concatenation chunks)[row.toNat]? c := by
  obtain ⟨rw, hrw, rfl, -⟩ := hs.found
  rw [s.call_value host h hrow, ← rowAt_eq_getElem?, ← rw.locate_eq]
  simp only [locateCell, hrw]

theorem Tracks.agrees_iff (hs : Tracks h chunks done s) (c : ResultCall) :
    Agrees host h chunks (fetches done) s c ↔ InOrder chunks done c := by
  constructor
  · intro hagrees
    refine ⟨fun hc => ?_, fun hc => ?_⟩
    · cases hc
      exact hs.fetch_iff.mp (hagrees.fetch rfl)
    · cases hc
      exact hs.rowCount_iff.mp (hagrees.rowCount rfl)
  · intro hfits
    refine ⟨fun hc => ?_, fun hc => ?_, fun row hrow => hs.value_eq hrow⟩
    · cases hc
      exact hs.fetch_iff.mpr (hfits.1 rfl)
    · cases hc
      exact hs.rowCount_iff.mpr (hfits.2 rfl)

theorem tracks_fresh {rw : ResultWrap} (hs : s.books.Owned) (hrw : s.getRw h = some rw) (hfresh : rw.chunks = []) :
    Tracks h rw.result.chunks [] s := by
  refine ⟨hs, rw, hrw, ?_, ?_⟩
  · rw [ResultWrap.all, hfresh, List.nil_append]
  · rw [hfresh]
    rfl

/-- On a result that a guest has just been given, both styles agree in exactly the runs whose calls fit. -/
theorem styles_agree_iff (host : ℕ → Byte) (connection : Connection E) (dbPath : Option Text) (events : List Event)
    (h : BitVec 32) (rw : ResultWrap)
    (hrw : (events.foldl (step host) (opened connection dbPath)).getRw h = some rw) (hfresh : rw.chunks = [])
    (calls : List ResultCall) :
    (∀ done c rest, calls = done ++ c :: rest →
        Agrees host h rw.result.chunks (fetches done)
          (done.foldl (Bindings.run host h) (events.foldl (step host) (opened connection dbPath))) c) ↔
      ∀ done c rest, calls = done ++ c :: rest → InOrder rw.result.chunks done c := by
  have hinit := tracks_fresh (owned_foldl (owned_init connection dbPath)) hrw hfresh
  refine forall_congr' fun done => forall_congr' fun c => forall_congr' fun rest => imp_congr_right fun _ => ?_
  exact (hinit.foldl done).agrees_iff c

end Agreement

section Sample

def selected : Bindings tableEngine :=
  [Event.memory (some (utf8 "SELECT a FROM t")), .call (.query 0 15)].foldl (step fun _ => 0)
    (opened ⟨⟨true, 1⟩, []⟩ none)

theorem getRw_selected : ∃ rw, selected.getRw 1 = some rw ∧ rw.chunks = [] ∧ rw.result.chunks.length = 1 := by
  have hlens : (selected.getRw 1).map (fun rw => (rw.chunks.length, rw.result.chunks.length)) = some (0, 1) := by
    decide +kernel
  obtain ⟨rw, hrw, hlen⟩ := Option.map_eq_some_iff.mp hlens
  obtain ⟨hfresh, hone⟩ := Prod.mk.inj hlen
  exact ⟨rw, hrw, List.length_eq_zero_iff.mp hfresh, hone⟩

theorem styles_agree_iff_selected : ∃ rw, selected.getRw 1 = some rw ∧
    ((∀ done c rest, [.fetchChunk, .rowCount, .fetchChunk] = done ++ c :: rest →
        Agrees (fun _ => 0) 1 rw.result.chunks (fetches done) (done.foldl (Bindings.run (fun _ => 0) 1) selected) c) ↔
      ∀ done c rest, [.fetchChunk, .rowCount, .fetchChunk] = done ++ c :: rest → InOrder rw.result.chunks done c) := by
  obtain ⟨rw, hrw, hfresh, -⟩ := getRw_selected
  exact ⟨rw, hrw, styles_agree_iff (E := tableEngine) (fun _ => 0) ⟨⟨true, 1⟩, []⟩ none _ 1 rw hrw hfresh _⟩

theorem fetch_after_count : ¬ ∀ rw, selected.getRw 1 = some rw → ∀ done c rest,
    [.rowCount, .fetchChunk] = done ++ c :: rest →
      Agrees (fun _ => 0) 1 rw.result.chunks (fetches done) (done.foldl (Bindings.run (fun _ => 0) 1) selected) c := by
  intro hall
  obtain ⟨rw, hrw, hfresh, hone⟩ := getRw_selected
  have howned : selected.books.Owned := owned_foldl (owned_init (E := tableEngine) ⟨⟨true, 1⟩, []⟩ none)
  have htracks := tracks_fresh howned hrw hfresh
  have hagrees := hall rw hrw [.rowCount] .fetchChunk [] rfl
  obtain hmany | hstep := (((htracks.foldl [.rowCount]).agrees_iff .fetchChunk).mp hagrees).1 rfl
  · rw [hone] at hmany
    exact absurd hmany (by decide)
  · exact hstep [] .rowCount [] rfl

end Sample

end Bindings

end YumiBrowser.Duckdb
