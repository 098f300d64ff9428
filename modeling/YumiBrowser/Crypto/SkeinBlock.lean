import YumiBrowser.Crypto.AeadFraming
import YumiBrowser.Library.Absorbing
import Mathlib.Logic.Function.Basic
import Mathlib.Data.Finite.Defs
import Mathlib.Data.Fintype.EquivFin
import Mathlib.Data.BitVec
import Mathlib.Data.Fintype.Pi

namespace YumiBrowser.Cipher

open Wire Blocks

/-- The registers `X00` to `X15`, a block, or the words of a key. -/
abbrev Words : Type := Vector (BitVec 64) 16

def skeinKsParity : BitVec 64 := 0x1BD11BDAA9FC1A22#64

def rotL64 (x : BitVec 64) (n : ℕ) : BitVec 64 := x <<< n ||| x >>> (64 - n)

section Rounds

def word (X : Words) (i : ℕ) : BitVec 64 := X[i]?.getD 0

/-- `X##p += X##q; X##q = RotL_64(X##q,rot); X##q ^= X##p;` -/
def mix (X : Words) (p q rot : ℕ) : Words :=
  let X := X.setIfInBounds p (word X p + word X q)
  let X := X.setIfInBounds q (rotL64 (word X q) rot)
  X.setIfInBounds q (word X q ^^^ word X p)

/-- `Round1024` -/
def round1024 (pairs : List (ℕ × ℕ)) (rots : List ℕ) (X : Words) : Words :=
  (pairs.zip rots).foldl (fun X m => mix X m.1.1 m.1.2 m.2) X

def pairs0 : List (ℕ × ℕ) := [(0, 1), (2, 3), (4, 5), (6, 7), (8, 9), (10, 11), (12, 13), (14, 15)]
def pairs1 : List (ℕ × ℕ) := [(0, 9), (2, 13), (6, 11), (4, 15), (10, 7), (12, 3), (14, 5), (8, 1)]
def pairs2 : List (ℕ × ℕ) := [(0, 7), (2, 5), (4, 3), (6, 1), (12, 15), (14, 13), (8, 11), (10, 9)]
def pairs3 : List (ℕ × ℕ) := [(0, 15), (2, 11), (6, 13), (4, 9), (14, 1), (8, 5), (10, 3), (12, 7)]

def r1024_0 : List ℕ := [24, 13, 8, 47, 8, 17, 22, 37]
def r1024_1 : List ℕ := [38, 19, 10, 55, 49, 18, 23, 52]
def r1024_2 : List ℕ := [33, 4, 51, 13, 34, 41, 59, 17]
def r1024_3 : List ℕ := [5, 20, 48, 41, 47, 28, 16, 25]
def r1024_4 : List ℕ := [41, 9, 37, 31, 12, 47, 44, 30]
def r1024_5 : List ℕ := [16, 34, 56, 51, 4, 53, 42, 41]
def r1024_6 : List ℕ := [31, 44, 47, 46, 19, 42, 44, 25]
def r1024_7 : List ℕ := [9, 48, 35, 52, 23, 31, 37, 20]

/-- The rounds before the first injection of `R1024_8_rounds`, -/
def firstRounds (X : Words) : Words :=
  round1024 pairs3 r1024_3 (round1024 pairs2 r1024_2 (round1024 pairs1 r1024_1 (round1024 pairs0 r1024_0 X)))

def lastRounds (X : Words) : Words :=
  round1024 pairs3 r1024_7 (round1024 pairs2 r1024_6 (round1024 pairs1 r1024_5 (round1024 pairs0 r1024_4 X)))

def inject (key : Words) (t t' : BitVec 64) (s : ℕ) (X : Words) : Words :=
  Vector.ofFn fun i => word X i +
    (word key i + if i.val = 13 then t else if i.val = 14 then t' else if i.val = 15 then BitVec.ofNat 64 s else 0)

end Rounds

section Schedules

/-- `ks[0]` to `ks[16]` -/
def ksWord (X : Words) (i : ℕ) : BitVec 64 :=
  if i < 16 then word X i else X.toList.foldl (· ^^^ ·) 0 ^^^ skeinKsParity

/-- `ts[0]` to `ts[2]` -/
def tsWord (t0 t1 : BitVec 64) (i : ℕ) : BitVec 64 := if i = 0 then t0 else if i = 1 then t1 else t0 ^^^ t1

/-- `I1024` of the version without a loop, for `s = R + 1`; for `s = 0` it is the injection before the rounds. -/
def injectUnrolled (ks ts : ℕ → BitVec 64) (s : ℕ) (X : Words) : Words :=
  inject (Vector.ofFn fun i => ks ((s + i) % 17)) (ts (s % 3)) (ts ((s + 1) % 3)) s X

/-- `R1024_8_rounds(R)` of the version without a loop. -/
def eightRounds (ks ts : ℕ → BitVec 64) (X : Words) (R : ℕ) : Words :=
  injectUnrolled ks ts (2 * R + 2) (lastRounds (injectUnrolled ks ts (2 * R + 1) (firstRounds X)))

def threefish (key : Words) (t0 t1 : BitVec 64) (plain : Words) : Words :=
  (List.range 10).foldl (eightRounds (ksWord key) (tsWord t0 t1))
    (injectUnrolled (ksWord key) (tsWord t0 t1) 0 plain)

end Schedules

section Loop

def kwTwkBase : ℕ := 0
def kwKeyBase : ℕ := 3

/-- `kw`: the tweak words, and from the third word on those of the key. The loop appends to both. -/
abbrev Schedule : Type := Block (BitVec 64) 40

/-- `I1024` of the looping version, with `s` for `r + R`. -/
def injectLooping (s : ℕ) (kw : Schedule) (X : Words) : Checked (Schedule × Words) := do
  let key ← readArray kw.cells (kwKeyBase + s) 16
  let t ← readAt kw.cells (kwTwkBase + s)
  let t' ← readAt kw.cells (kwTwkBase + s + 1)
  let X := inject ⟨key.cells.toArray, key.size⟩ t t' s X
  let old ← readAt kw.cells (kwKeyBase + s - 1)
  let kw ← kw.writeAt (kwKeyBase + s + 16) old
  let old ← readAt kw.cells (kwTwkBase + s - 1)
  let kw ← kw.writeAt (kwTwkBase + s + 2) old
  .ok (kw, X)

/-- A round of the loop, with `r = 2 * j + 1`. -/
def roundLooping (st : Schedule × Words) (j : ℕ) : Checked (Schedule × Words) := do
  let (kw, X) ← injectLooping (2 * j + 1) st.1 (firstRounds st.2)
  injectLooping (2 * j + 2) kw (lastRounds X)

end Loop

section Laws

variable {X Y : Words} {i j p q rot : ℕ} {v : BitVec 64}

theorem word_eq (h : i < 16) : word X i = X[i] := by
  rw [word, Vector.getElem?_eq_getElem h]
  rfl

theorem word_set (h : i < 16) (j : ℕ) : word (X.setIfInBounds i v) j = if j = i then v else word X j := by
  rw [word, Vector.getElem?_setIfInBounds]
  by_cases hij : i = j
  · rw [if_pos hij, if_pos h, if_pos hij.symm]
    rfl
  · rw [if_neg hij, if_neg (Ne.symm hij)]
    rfl

theorem words_ext (h : ∀ i < 16, word X i = word Y i) : X = Y := by
  refine Vector.ext fun i hi => ?_
  rw [← word_eq hi, ← word_eq hi]
  exact h i hi

theorem word_ofFn {f : Fin 16 → BitVec 64} (h : i < 16) : word (Vector.ofFn f) i = f ⟨i, h⟩ := by
  rw [word_eq h, Vector.getElem_ofFn]

theorem word_mix (hp : p < 16) (hq : q < 16) (hpq : p ≠ q) (i : ℕ) :
    word (mix X p q rot) i =
      if i = q then rotL64 (word X q) rot ^^^ (word X p + word X q) else if i = p then word X p + word X q
      else word X i := by
  unfold mix
  dsimp only
  simp only [word_set hp, word_set hq, if_neg hpq, if_neg hpq.symm, if_true]
  split
  · rfl
  · rfl

theorem rotL64_injective (h : rot < 64) : Function.Injective (rotL64 · rot) := by
  intro x y hxy
  have hrotate (z : BitVec 64) : rotL64 z rot = z.rotateLeft rot := by
    rw [BitVec.rotateLeft_def, Nat.mod_eq_of_lt h]
    rfl
  have hbits (i : ℕ) : (x.rotateLeft rot).getLsbD i = (y.rotateLeft rot).getLsbD i := by
    rw [← hrotate, ← hrotate]
    exact congrArg (BitVec.getLsbD · i) hxy
  refine BitVec.eq_of_getLsbD_eq fun j hj => ?_
  obtain hlow | hhigh := Nat.lt_or_ge (j + rot) 64
  · have hbit := hbits (j + rot)
    rw [BitVec.getLsbD_rotateLeft, BitVec.getLsbD_rotateLeft, Nat.mod_eq_of_lt h] at hbit
    simpa [hlow] using hbit
  · have hbit := hbits (j + rot - 64)
    have hback : 64 - rot + (j + rot - 64) = j := by omega
    rw [BitVec.getLsbD_rotateLeft, BitVec.getLsbD_rotateLeft, Nat.mod_eq_of_lt h, hback] at hbit
    have hless : j + rot - 64 < rot := by omega
    simpa [hless] using hbit

theorem mix_injective (hp : p < 16) (hq : q < 16) (hpq : p ≠ q) (hrot : rot < 64) :
    Function.Injective (mix · p q rot) := by
  intro X Y h
  have hat (i : ℕ) : word (mix X p q rot) i = word (mix Y p q rot) i := congrArg (word · i) h
  have hsum : word X p + word X q = word Y p + word Y q := by
    have hp' := hat p
    rwa [word_mix hp hq hpq, word_mix hp hq hpq, if_neg hpq, if_neg hpq, if_pos rfl, if_pos rfl] at hp'
  have hxq : word X q = word Y q := by
    have hq' := hat q
    rw [word_mix hp hq hpq, word_mix hp hq hpq, if_pos rfl, if_pos rfl, hsum] at hq'
    exact rotL64_injective hrot ((BitVec.xor_left_inj _).mp hq')
  have hxp : word X p = word Y p := by
    rw [hxq] at hsum
    exact (BitVec.add_left_inj _).mp hsum
  refine words_ext fun i hi => ?_
  have hi' := hat i
  rw [word_mix hp hq hpq, word_mix hp hq hpq] at hi'
  by_cases hiq : i = q
  · rw [hiq, hxq]
  · by_cases hip : i = p
    · rw [hip, hxp]
    · rwa [if_neg hiq, if_neg hiq, if_neg hip, if_neg hip] at hi'

def Proper (pairs : List (ℕ × ℕ)) (rots : List ℕ) : Prop :=
  (∀ m ∈ pairs, m.1 < 16 ∧ m.2 < 16 ∧ m.1 ≠ m.2) ∧ ∀ rot ∈ rots, rot < 64

instance (pairs : List (ℕ × ℕ)) (rots : List ℕ) : Decidable (Proper pairs rots) := instDecidableAnd

theorem injective_foldl {α β : Type*} {f : α → β → α} {l : List β} (h : ∀ b ∈ l, Function.Injective (f · b)) :
    Function.Injective (fun a => l.foldl f a) := by
  induction l with
  | nil => exact Function.injective_id
  | cons b l ih =>
    exact (ih fun b hb => h b (List.mem_cons_of_mem _ hb)).comp (h b List.mem_cons_self)

theorem round1024_injective {pairs : List (ℕ × ℕ)} {rots : List ℕ} (h : Proper pairs rots) :
    Function.Injective (round1024 pairs rots) := by
  refine injective_foldl fun m hm => ?_
  obtain ⟨hp, hq, hpq⟩ := h.1 m.1 (List.of_mem_zip hm).1
  exact mix_injective hp hq hpq (h.2 m.2 (List.of_mem_zip hm).2)

theorem inject_injective (key : Words) (t t' : BitVec 64) (s : ℕ) : Function.Injective (inject key t t' s) := by
  intro X Y h
  refine words_ext fun i hi => ?_
  have hat : word (inject key t t' s X) i = word (inject key t t' s Y) i := congrArg (word · i) h
  rw [inject, inject, word_ofFn hi, word_ofFn hi] at hat
  exact (BitVec.add_left_inj _).mp hat

variable (key : Words) (t0 t1 : BitVec 64)

theorem firstRounds_injective : Function.Injective firstRounds := by
  intro X Y h
  unfold firstRounds at h
  apply @round1024_injective pairs0 r1024_0 (by decide)
  apply @round1024_injective pairs1 r1024_1 (by decide)
  apply @round1024_injective pairs2 r1024_2 (by decide)
  exact @round1024_injective pairs3 r1024_3 (by decide) _ _ h

theorem lastRounds_injective : Function.Injective lastRounds := by
  intro X Y h
  unfold lastRounds at h
  apply @round1024_injective pairs0 r1024_4 (by decide)
  apply @round1024_injective pairs1 r1024_5 (by decide)
  apply @round1024_injective pairs2 r1024_6 (by decide)
  exact @round1024_injective pairs3 r1024_7 (by decide) _ _ h

theorem eightRounds_injective (ks ts : ℕ → BitVec 64) (R : ℕ) : Function.Injective (eightRounds ks ts · R) := by
  intro X Y h
  dsimp only [eightRounds, injectUnrolled] at h
  exact firstRounds_injective (inject_injective _ _ _ _ (lastRounds_injective (inject_injective _ _ _ _ h)))

theorem threefish_injective : Function.Injective (threefish key t0 t1) := by
  intro X Y h
  unfold threefish injectUnrolled at h
  exact inject_injective _ _ _ _ (injective_foldl (fun R _ => eightRounds_injective _ _ R) h)

instance : Finite Words := by
  refine Finite.of_injective (fun X (i : Fin 16) => (word X i).toFin) fun X Y h => words_ext fun i hi => ?_
  exact BitVec.toFin_inj.mp (congrFun h ⟨i, hi⟩)

theorem threefish_bijective : Function.Bijective (threefish key t0 t1) :=
  Finite.injective_iff_bijective.mp (threefish_injective key t0 t1)

end Laws

section Aliasing

variable {ks ts : ℕ → BitVec 64} {kw : Schedule} {X : Words} {s : ℕ}

/-- After `s` injections: the words that the next one reads, and below them those of the tweak. -/
structure Rotated (ks ts : ℕ → BitVec 64) (s : ℕ) (kw : Schedule) : Prop where
  key : ∀ i, s ≤ i → i < s + 17 → kw.cells[kwKeyBase + i]? = some (ks (i % 17))
  tweak : ∀ i < s + 3, kw.cells[kwTwkBase + i]? = some (ts (i % 3))

theorem words_readArray {key : Block (BitVec 64) 16}
    (h : ∀ i, s ≤ i → i < s + 16 → kw.cells[kwKeyBase + i]? = some (ks (i % 17)))
    (hcells : key.cells = (kw.cells.drop (kwKeyBase + s)).take 16) :
    (⟨key.cells.toArray, key.size⟩ : Words) = Vector.ofFn fun i => ks ((s + i) % 17) := by
  refine words_ext fun i hi => ?_
  rw [word_ofFn hi, word, Vector.getElem?_mk, List.getElem?_toArray, hcells, List.getElem?_take_of_lt hi,
    List.getElem?_drop, Nat.add_assoc, h (s + i) (by omega) (by omega)]
  rfl

theorem injectLooping_spec (hs : s < 20) (h : Rotated ks ts s kw) :
    Safe (injectLooping (s + 1) kw X) fun r =>
      Rotated ks ts (s + 1) r.1 ∧ r.2 = injectUnrolled ks ts (s + 1) X := by
  unfold injectLooping
  refine Safe.readArray (by rw [kw.size, kwKeyBase]; omega) fun key hcells => ?_
  refine Safe.readCell (h.tweak (s + 1) (by omega)) ?_
  refine Safe.readCell (h.tweak (s + 2) (by omega)) ?_
  refine Safe.readCell (h.key s le_rfl (by omega)) ?_
  refine Safe.writeBlock (by rw [kwKeyBase]; omega) ?_
  refine Safe.readCell (a := ts (s % 3)) ?_ ?_
  · rw [Block.getElem?_set (by rw [kwKeyBase]; omega), if_neg (by rw [kwKeyBase, kwTwkBase]; omega)]
    exact h.tweak s (by omega)
  refine Safe.writeBlock (by rw [kwTwkBase]; omega) (Safe.ok ⟨⟨fun i hi hi' => ?_, fun i hi => ?_⟩, ?_⟩)
  · rw [Block.getElem?_set (by rw [kwTwkBase]; omega), if_neg (by rw [kwKeyBase, kwTwkBase]; omega),
      Block.getElem?_set (by rw [kwKeyBase]; omega)]
    split
    · have hmod : i % 17 = s % 17 := by
        rw [kwKeyBase] at *
        omega
      rw [hmod]
    · rw [kwKeyBase] at *
      exact h.key i (by omega) (by omega)
  · rw [Block.getElem?_set (by rw [kwTwkBase]; omega)]
    split
    · have hmod : i % 3 = s % 3 := by
        rw [kwTwkBase] at *
        omega
      rw [hmod]
    · rw [Block.getElem?_set (by rw [kwKeyBase]; omega), if_neg (by rw [kwKeyBase, kwTwkBase]; omega)]
      refine h.tweak i ?_
      rw [kwTwkBase] at *
      omega
  · rw [words_readArray (fun i hi hi' => h.key i (by omega) (by omega)) hcells]
    rfl

theorem roundLooping_spec {j : ℕ} (hj : j < 10) (h : Rotated ks ts (2 * j) kw) :
    Safe (roundLooping (kw, X) j) fun r => Rotated ks ts (2 * (j + 1)) r.1 ∧ r.2 = eightRounds ks ts X j := by
  refine Safe.bind (injectLooping_spec (by omega) h) fun r hr => ?_
  obtain ⟨hrot, hX⟩ := hr
  refine Safe.mono (injectLooping_spec (s := 2 * j + 1) (by omega) hrot) fun r' hr' => ⟨hr'.1, ?_⟩
  rw [hr'.2, hX]
  rfl

theorem loop_spec (h : Rotated ks ts 0 kw) :
    Safe ((List.range 10).foldlM roundLooping (kw, X)) fun r =>
      Rotated ks ts 20 r.1 ∧ r.2 = (List.range 10).foldl (eightRounds ks ts) X := by
  refine Safe.forRange (fun j (st : Schedule × Words) => Rotated ks ts (2 * j) st.1 ∧
    st.2 = (List.range j).foldl (eightRounds ks ts) X) 10 (fun j st hj hst => ?_) ⟨h, rfl⟩
  refine Safe.mono (roundLooping_spec hj hst.1) fun r hr => ⟨hr.1, ?_⟩
  rw [hr.2, hst.2, List.range_succ, List.foldl_append]
  rfl

end Aliasing

section Blocks

def skein1024BlockBytes : ℕ := 128
def skeinT1FlagFirst : BitVec 64 := 1#64 <<< 62

/-- The chaining variables and the tweak of `Skein1024_Ctxt_t`. -/
structure Chain where
  X : Words
  T0 : BitVec 64
  T1 : BitVec 64

/-- `Skein1024_Ctxt_t` -/
structure Ctxt extends Chain where
  hashBitLen : ℕ
  bCnt : ℕ
  b : Block Byte 128

def keySchedule (byteCntAdd : ℕ) (kw : Schedule) (X : Words) : Checked Schedule := do
  let t0 ← readAt kw.cells kwTwkBase
  let kw ← kw.writeAt kwTwkBase (t0 + BitVec.ofNat 64 byteCntAdd)
  let kw ← kw.memcpy kwKeyBase X.toList
  let key ← readArray kw.cells kwKeyBase 16
  let kw ← kw.writeAt (kwKeyBase + 16) (key.cells.foldl (· ^^^ ·) 0 ^^^ skeinKsParity)
  let t0 ← readAt kw.cells kwTwkBase
  let t1 ← readAt kw.cells (kwTwkBase + 1)
  kw.writeAt (kwTwkBase + 2) (t0 ^^^ t1)

/-- What `Skein1024_Process_Block` does for the block at `blkPtr + 128 * j`. -/
def processOne (blkPtr : List Byte) (byteCntAdd : ℕ) (st : Schedule × Words) (j : ℕ) : Checked (Schedule × Words) := do
  let kw ← keySchedule byteCntAdd st.1 st.2
  let blk ← readMany blkPtr (skein1024BlockBytes * j) skein1024BlockBytes
  let w := words 16 blk
  let key ← readArray kw.cells kwKeyBase 16
  let t0 ← readAt kw.cells kwTwkBase
  let t1 ← readAt kw.cells (kwTwkBase + 1)
  let (kw, X) ← (List.range 10).foldlM roundLooping (kw, inject ⟨key.cells.toArray, key.size⟩ t0 t1 0 w)
  let t1 ← readAt kw.cells (kwTwkBase + 1)
  let kw ← kw.writeAt (kwTwkBase + 1) (t1 &&& ~~~skeinT1FlagFirst)
  .ok (kw, Vector.zipWith (· ^^^ ·) X w)

variable (kw : Schedule)

/-- `Skein1024_Process_Block`, whatever `kw` holds at the start. The counter of the `do` loop goes down before it is
compared with zero. -/
def processBlock (ctx : Ctxt) (blkPtr : List Byte) (blkCnt byteCntAdd : ℕ) : Checked Ctxt := do
  let kw ← kw.writeAt kwTwkBase ctx.T0
  let kw ← kw.writeAt (kwTwkBase + 1) ctx.T1
  let rounds := if blkCnt = 0 then 2 ^ 64 else blkCnt
  let (kw, X) ← (List.range rounds).foldlM (processOne blkPtr byteCntAdd) (kw, ctx.X)
  let T0 ← readAt kw.cells kwTwkBase
  let T1 ← readAt kw.cells (kwTwkBase + 1)
  .ok { ctx with X, T0, T1 }

def Chain.block (byteCntAdd : ℕ) (c : Chain) (blk : List Byte) : Chain :=
  { X := Vector.zipWith (· ^^^ ·) (threefish c.X (c.T0 + BitVec.ofNat 64 byteCntAdd) c.T1 (words 16 blk)) (words 16 blk)
    T0 := c.T0 + BitVec.ofNat 64 byteCntAdd
    T1 := c.T1 &&& ~~~skeinT1FlagFirst }

variable {kw}

structure Tweaked (c : Chain) (st : Schedule × Words) : Prop where
  t0 : st.1.cells[kwTwkBase]? = some c.T0
  t1 : st.1.cells[kwTwkBase + 1]? = some c.T1
  X : st.2 = c.X

theorem keySchedule_spec {byteCntAdd : ℕ} {c : Chain} {st : Schedule × Words} (h : Tweaked c st) :
    Safe (keySchedule byteCntAdd st.1 st.2)
      (Rotated (ksWord c.X) (tsWord (c.T0 + BitVec.ofNat 64 byteCntAdd) c.T1) 0) := by
  obtain ⟨kw, X⟩ := st
  obtain rfl := h.X
  have hlength : c.X.toList.length = 16 := Vector.length_toList
  unfold keySchedule
  refine Safe.readCell h.t0 (Safe.writeBlock (by rw [kwTwkBase]; omega) ?_)
  refine Safe.copyBlock (by rw [hlength, kwKeyBase]; omega) fun kw' hkw' => ?_
  refine Safe.readArray (by rw [kw'.size, kwKeyBase]; omega) fun key hkey => ?_
  refine Safe.writeBlock (by rw [kwKeyBase]; omega) ?_
  have hcell (i : ℕ) : kw'.cells[i]? =
      if 3 ≤ i ∧ i < 19 then c.X.toList[i - 3]? else if 0 = i then some (c.T0 + BitVec.ofNat 64 byteCntAdd)
      else kw.cells[i]? := by
    rw [hkw', getElem?_splice (by rw [Block.size, hlength, kwKeyBase]; omega), hlength,
      Block.getElem?_set (by rw [kwTwkBase]; omega)]
    rfl
  have ht1 : kw.cells[1]? = some c.T1 := h.t1
  have hwords (i : ℕ) (hi : i < 16) : kw'.cells[3 + i]? = some (word c.X i) := by
    rw [hcell, if_pos (by omega), Nat.add_sub_cancel_left, Vector.getElem?_toList, Vector.getElem?_eq_getElem hi,
      word_eq hi]
  have hkeys : key.cells = c.X.toList := by
    refine List.ext_getElem? fun i => ?_
    rw [hkey]
    obtain hi | hi := Nat.lt_or_ge i 16
    · rw [List.getElem?_take_of_lt hi, List.getElem?_drop]
      exact (hcell (3 + i)).trans (by rw [if_pos (by omega), Nat.add_sub_cancel_left])
    · rw [List.getElem?_take_eq_none hi, List.getElem?_eq_none (by rwa [hlength])]
  refine Safe.readCell (a := c.T0 + BitVec.ofNat 64 byteCntAdd) ?_ ?_
  · rw [Block.getElem?_set (by rw [kwKeyBase]; omega), if_neg (by decide), hcell]
    rfl
  refine Safe.readCell (a := c.T1) ?_ ?_
  · rw [Block.getElem?_set (by rw [kwKeyBase]; omega), if_neg (by decide), hcell]
    exact ht1
  refine ⟨_, if_pos (by decide), ⟨fun i hi hi' => ?_, fun i hi => ?_⟩⟩
  · rw [Block.getElem?_set (by decide), if_neg (by rw [kwTwkBase, kwKeyBase]; omega), Block.getElem?_set (by decide),
      Nat.mod_eq_of_lt hi', ksWord]
    split
    · obtain rfl : i = 16 := by omega
      rw [hkeys]
      rfl
    · have hi16 : i < 16 := by omega
      rw [if_pos hi16]
      exact hwords i hi16
  · rw [Block.getElem?_set (by decide), Block.getElem?_set (by decide), Nat.mod_eq_of_lt hi, tsWord]
    obtain rfl | rfl | rfl : i = 0 ∨ i = 1 ∨ i = 2 := by omega
    · exact hcell 0
    · exact (hcell 1).trans ht1
    · rfl

theorem processOne_spec {blkPtr : List Byte} {byteCntAdd j : ℕ} {c : Chain} {st : Schedule × Words}
    (hj : skein1024BlockBytes * j + skein1024BlockBytes ≤ blkPtr.length) (h : Tweaked c st) :
    Safe (processOne blkPtr byteCntAdd st j)
      (Tweaked (c.block byteCntAdd ((blkPtr.drop (skein1024BlockBytes * j)).take skein1024BlockBytes))) := by
  unfold processOne
  refine Safe.bind (keySchedule_spec h) fun kw hkw => ?_
  refine Safe.readMany hj (Safe.readArray (by rw [kw.size, kwKeyBase]; omega) fun key hkey => ?_)
  refine Safe.readCell (hkw.tweak 0 (by decide)) (Safe.readCell (hkw.tweak 1 (by decide)) ?_)
  refine Safe.bind (loop_spec hkw) fun r hr => ?_
  refine Safe.readCell (hr.1.tweak 1 (by decide)) ?_
  refine Safe.writeBlock (by rw [kwTwkBase]; omega) (Safe.ok ⟨?_, ?_, ?_⟩)
  · rw [Block.getElem?_set (by rw [kwTwkBase]; omega), if_neg (by decide)]
    exact hr.1.tweak 0 (by decide)
  · rw [Block.getElem?_set (by rw [kwTwkBase]; omega), if_pos rfl]
    rfl
  · rw [hr.2, words_readArray (fun i hi hi' => hkw.key i hi (by omega)) hkey]
    rfl

/-- The chain after the first blocks of `blkPtr`. -/
def Chain.blocks (byteCntAdd : ℕ) (c : Chain) (blkPtr : List Byte) (blkCnt : ℕ) : Chain :=
  Absorbing.blocks skein1024BlockBytes (Chain.block byteCntAdd) c blkPtr blkCnt

theorem processBlock_run (kw : Schedule) (ctx : Ctxt) (blkPtr : List Byte) (blkCnt byteCntAdd : ℕ) (hcnt : 0 < blkCnt)
    (hlen : skein1024BlockBytes * blkCnt ≤ blkPtr.length) :
    processBlock kw ctx blkPtr blkCnt byteCntAdd =
      .ok { ctx with toChain := ctx.toChain.blocks byteCntAdd blkPtr blkCnt } := by
  have hrun : Safe (processBlock kw ctx blkPtr blkCnt byteCntAdd)
      (· = { ctx with toChain := ctx.toChain.blocks byteCntAdd blkPtr blkCnt }) := by
    unfold processBlock
    refine Safe.writeBlock (by decide) (Safe.writeBlock (by decide) ?_)
    rw [if_neg (Nat.ne_of_gt hcnt)]
    refine Safe.bind (Safe.forRange (fun j => Tweaked (ctx.toChain.blocks byteCntAdd blkPtr j)) blkCnt
      (fun j st hj hst => ?_) ⟨?_, ?_, rfl⟩) fun r hr => ?_
    · have hblock : skein1024BlockBytes * (j + 1) ≤ skein1024BlockBytes * blkCnt := Nat.mul_le_mul_left _ hj
      have hstep := @processOne_spec blkPtr byteCntAdd j _ st (by rw [Nat.mul_succ] at hblock; omega) hst
      rwa [Chain.blocks, Absorbing.blocks, List.range_succ, List.foldl_append]
    · rw [Block.getElem?_set (by decide), if_neg (by decide), Block.getElem?_set (by decide), if_pos rfl]
      rfl
    · rw [Block.getElem?_set (by decide), if_pos rfl]
      rfl
    · refine Safe.readCell hr.t0 (Safe.readCell hr.t1 (Safe.ok ?_))
      rw [hr.X]
  obtain ⟨ctx', hctx', rfl⟩ := hrun
  exact hctx'

/-- The blocks may be given in one call or in two, whatever either finds on the stack. -/
theorem processBlock_add (kw kw₁ kw₂ : Schedule) (ctx : Ctxt) (blkPtr : List Byte) (m n byteCntAdd : ℕ) (hm : 0 < m)
    (hn : 0 < n) (hlen : skein1024BlockBytes * (m + n) ≤ blkPtr.length) :
    processBlock kw ctx blkPtr (m + n) byteCntAdd =
        .ok { ctx with toChain := ctx.toChain.blocks byteCntAdd blkPtr (m + n) } ∧
      processBlock kw ctx blkPtr (m + n) byteCntAdd = processBlock kw₁ ctx blkPtr m byteCntAdd >>= fun ctx =>
        processBlock kw₂ ctx (blkPtr.drop (skein1024BlockBytes * m)) n byteCntAdd := by
  have hwhole := processBlock_run kw ctx blkPtr (m + n) byteCntAdd (Nat.add_pos_left hm n) hlen
  rw [Nat.mul_add] at hlen
  have hfirst := processBlock_run kw₁ ctx blkPtr m byteCntAdd hm (Nat.le_of_add_right_le hlen)
  refine ⟨hwhole, ?_⟩
  rw [hwhole, hfirst]
  dsimp only [bind, Except.bind]
  rw [processBlock_run kw₂ _ _ n byteCntAdd hn (by rw [List.length_drop]; omega)]
  dsimp only [Chain.blocks]
  rw [Absorbing.blocks_add]

theorem processBlock_add_zeros :
    processBlock ⟨List.replicate 40 0, rfl⟩ ⟨⟨Vector.replicate 16 0, 0, 0⟩, 1024, 0, ⟨List.replicate 128 0, rfl⟩⟩
        (List.replicate 384 0) 3 128 =
      processBlock ⟨List.replicate 40 1, rfl⟩ ⟨⟨Vector.replicate 16 0, 0, 0⟩, 1024, 0, ⟨List.replicate 128 0, rfl⟩⟩
        (List.replicate 384 0) 1 128 >>= fun ctx =>
      processBlock ⟨List.replicate 40 2, rfl⟩ ctx ((List.replicate 384 0).drop (skein1024BlockBytes * 1)) 2 128 :=
  (processBlock_add _ _ _ _ _ 1 2 128 (by decide) (by decide) (by rw [List.length_replicate]; decide)).2

end Blocks

end YumiBrowser.Cipher
