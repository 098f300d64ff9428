import YumiBrowser.Library.ProbeCache
import YumiBrowser.Memory.HandleTable

universe u v

namespace YumiBrowser.Fonts

open Handles

structure Candidate (π : Type u) where
  hasChar : Bool
  file : Option π

/-- What fontconfig, FreeType and HarfBuzz say; `π` names a file and `φ` is the font in it. -/
structure Typesetting (π : Type u) (φ : Type v) where
  createFromFile : π → Option φ
  fontSort : BitVec 32 → List (Candidate π)
  charIndex : φ → BitVec 32 → BitVec 32
  nominalGlyph : φ → BitVec 32 → Option (BitVec 32)

structure PathEntry (π : Type u) where
  path : π
  handle : BitVec 32
  loadFailed : Bool

structure CpEntry where
  codepoint : BitVec 32
  handle : BitVec 32

structure FontBindings (π : Type u) (φ : Type v) where
  pathCache : List (PathEntry π)
  cpCache : BitVec 32 → Option CpEntry
  fonts : HandleTable φ

def cpCacheHash (cp : BitVec 32) : BitVec 32 := (cp * 2654435761) &&& 65535

def cpCacheProbes (cp : BitVec 32) : List (BitVec 32) := ProbeCache.probes (cpCacheHash cp) 65535 32

def cpCacheFind (cache : BitVec 32 → Option CpEntry) (cp : BitVec 32) : Option CpEntry :=
  ProbeCache.search cache (·.codepoint = cp) (cpCacheProbes cp)

def cpCacheInsert (cache : BitVec 32 → Option CpEntry) (cp handle : BitVec 32) : BitVec 32 → Option CpEntry :=
  ProbeCache.insert cache (·.codepoint = cp) (cpCacheHash cp) (cpCacheProbes cp) ⟨cp, handle⟩

variable {π : Type u} {φ : Type v}

section Search

variable [DecidableEq π]

def pathCacheFind (cache : List (PathEntry π)) (path : π) : Option (PathEntry π) := cache.find? (·.path = path)

def pathCacheInsert (cache : List (PathEntry π)) (path : π) (handle : BitVec 32) (failed : Bool) :
    List (PathEntry π) :=
  cache ++ [⟨path, handle, failed⟩]

variable (sys : Typesetting π φ)

def fontLoadCached (b : FontBindings π φ) (path : π) : FontBindings π φ × BitVec 32 :=
  match pathCacheFind b.pathCache path with
  | some cached => (b, if cached.loadFailed then 0 else cached.handle)
  | none =>
    match sys.createFromFile path with
    | none => ({ b with pathCache := pathCacheInsert b.pathCache path 0 true }, 0)
    | some fe =>
      let r := htableInsert b.fonts (some fe)
      ({ b with fonts := r.1, pathCache := pathCacheInsert b.pathCache path r.2 false }, r.2)

def tryMatch (cp : BitVec 32) (b : FontBindings π φ) (c : Candidate π) : FontBindings π φ × BitVec 32 :=
  if c.hasChar then
    match c.file with
    | none => (b, 0)
    | some path =>
      let r := fontLoadCached sys b path
      if r.2 = 0 then r
      else
        match htableGet r.1.fonts r.2 with
        | none => (r.1, 0)
        | some fe => if sys.charIndex fe cp ≠ 0 then r else (r.1, 0)
  else (b, 0)

def searchMatches (cp : BitVec 32) : List (Candidate π) → FontBindings π φ → FontBindings π φ × BitVec 32
  | [], b => (b, 0)
  | c :: cs, b =>
    let r := tryMatch sys cp b c
    if r.2 = 0 then searchMatches cp cs r.1 else r

def findFontForCodepoint (b : FontBindings π φ) (cp : BitVec 32) : FontBindings π φ × BitVec 32 :=
  match cpCacheFind b.cpCache cp with
  | some cached => (b, cached.handle)
  | none =>
    let r := searchMatches sys cp (sys.fontSort cp) b
    ({ r.1 with cpCache := cpCacheInsert r.1.cpCache cp r.2 }, r.2)

end Search

namespace Typesetting

variable (sys : Typesetting π φ)

def covers (cp : BitVec 32) (face : φ) : Bool := sys.charIndex face cp ≠ 0

def covering (cp : BitVec 32) (c : Candidate π) : Option (π × φ) :=
  if c.hasChar then
    c.file.bind fun path => ((sys.createFromFile path).filter (sys.covers cp)).map (path, ·)
  else none

def fallback (cp : BitVec 32) : Option (π × φ) := (sys.fontSort cp).findSome? (sys.covering cp)

end Typesetting

def Reached (sys : Typesetting π φ) (cp : BitVec 32) (cs : List (Candidate π)) (c : Candidate π) : Prop :=
  ∃ before after, cs = before ++ c :: after ∧ ∀ d ∈ before, sys.covering cp d = none

section Candidates

variable {sys : Typesetting π φ} {cp : BitVec 32} {c d : Candidate π} {cs : List (Candidate π)}

theorem covering_of_file {path : π} (hchar : c.hasChar = true) (hfile : c.file = some path) :
    sys.covering cp c = ((sys.createFromFile path).filter (sys.covers cp)).map (path, ·) := by
  rw [Typesetting.covering, if_pos hchar, hfile]
  rfl

theorem Reached.cons (hnone : sys.covering cp c = none) (h : Reached sys cp cs d) :
    Reached sys cp (c :: cs) d := by
  obtain ⟨before, after, rfl, hbefore⟩ := h
  exact ⟨c :: before, after, rfl, List.forall_mem_cons.mpr ⟨hnone, hbefore⟩⟩

theorem fallback_some {path : π} {face : φ} (h : sys.fallback cp = some (path, face)) :
    (sys.createFromFile path).filter (sys.covers cp) = some face := by
  obtain ⟨c, _, hc⟩ := List.exists_of_findSome?_eq_some h
  unfold Typesetting.covering at hc
  split at hc
  · obtain ⟨path', _, hface⟩ := Option.bind_eq_some_iff.mp hc
    obtain ⟨face', hfilter, heq⟩ := Option.map_eq_some_iff.mp hface
    cases heq
    exact hfilter
  · cases hc

end Candidates

section Readiness

variable {sys : Typesetting π φ} {b : FontBindings π φ} {handle : BitVec 32} {path : π}

namespace FontBindings

def Failures (sys : Typesetting π φ) (pathCache : List (PathEntry π)) : Prop :=
  ∀ e ∈ pathCache, e.loadFailed = true → sys.createFromFile e.path = none

structure Ready (sys : Typesetting π φ) (b : FontBindings π φ) (n : ℕ) : Prop where
  table : b.fonts.Sound
  room : b.fonts.Roomy n
  failures : Failures sys b.pathCache

theorem Failures.insert {pathCache : List (PathEntry π)} (h : Failures sys pathCache) {failed : Bool}
    (hfailed : failed = true → sys.createFromFile path = none) :
    Failures sys (pathCacheInsert pathCache path handle failed) := by
  intro e he
  rcases List.mem_append.mp he with he | he
  · exact h e he
  · rw [List.mem_singleton.mp he]
    exact hfailed

theorem Ready.mono (h : b.Ready sys n) (hle : m ≤ n) : b.Ready sys m := ⟨h.table, h.room.mono hle, h.failures⟩

end FontBindings

end Readiness

section Paths

variable [DecidableEq π] {sys : Typesetting π φ} {b b' b'' : FontBindings π φ} {cp handle : BitVec 32} {path q : π}

theorem pathCacheFind_insert (cache : List (PathEntry π)) (path q : π) (handle : BitVec 32) (failed : Bool) :
    pathCacheFind (pathCacheInsert cache path handle failed) q =
      (pathCacheFind cache q).or (if path = q then some ⟨path, handle, failed⟩ else none) := by
  unfold pathCacheFind pathCacheInsert
  rw [List.find?_append, List.find?_singleton]
  simp only [decide_eq_true_eq]

theorem pathCacheFind_some {cache : List (PathEntry π)} {e : PathEntry π} (h : pathCacheFind cache path = some e) :
    e ∈ cache ∧ e.path = path := by
  have hsame := List.find?_some h
  exact ⟨List.mem_of_find?_eq_some h, of_decide_eq_true hsame⟩

namespace FontBindings

def Leads (sys : Typesetting π φ) (b : FontBindings π φ) (cp : BitVec 32) (path : π) : Prop :=
  ∀ e, pathCacheFind b.pathCache path = some e → e.loadFailed = false →
    (htableGet b.fonts e.handle).filter (sys.covers cp) = (sys.createFromFile path).filter (sys.covers cp)

def Filed (pathCache : List (PathEntry π)) (path : π) (handle : BitVec 32) : Prop :=
  ∃ e, pathCacheFind pathCache path = some e ∧ e.loadFailed = false ∧ e.handle = handle

structure Extends (b b' : FontBindings π φ) : Prop where
  cpCache : b'.cpCache = b.cpCache
  paths : ∀ q e, pathCacheFind b.pathCache q = some e → pathCacheFind b'.pathCache q = some e

theorem Extends.refl (b : FontBindings π φ) : b.Extends b := ⟨rfl, fun _ _ h => h⟩

theorem Extends.trans (h : b.Extends b') (h' : b'.Extends b'') : b.Extends b'' :=
  ⟨h'.cpCache.trans h.cpCache, fun q e hq => h'.paths q e (h.paths q e hq)⟩

theorem Extends.filed (h : b.Extends b') (hfiled : Filed b.pathCache path handle) :
    Filed b'.pathCache path handle := by
  obtain ⟨e, hfind, hrest⟩ := hfiled
  exact ⟨e, h.paths path e hfind, hrest⟩

end FontBindings

open FontBindings

theorem fontLoadCached_cases (sys : Typesetting π φ) (b : FontBindings π φ) (path : π) :
    (∃ e, pathCacheFind b.pathCache path = some e ∧
      fontLoadCached sys b path = (b, if e.loadFailed then 0 else e.handle)) ∨
    (pathCacheFind b.pathCache path = none ∧ sys.createFromFile path = none ∧
      fontLoadCached sys b path = ({ b with pathCache := pathCacheInsert b.pathCache path 0 true }, 0)) ∨
    ∃ fe, pathCacheFind b.pathCache path = none ∧ sys.createFromFile path = some fe ∧
      fontLoadCached sys b path =
        ({ b with
            fonts := (htableInsert b.fonts (some fe)).1
            pathCache := pathCacheInsert b.pathCache path (htableInsert b.fonts (some fe)).2 false },
          (htableInsert b.fonts (some fe)).2) := by
  cases hfind : pathCacheFind b.pathCache path with
  | some e => exact .inl ⟨e, rfl, by simp only [fontLoadCached, hfind]⟩
  | none =>
    cases hcreate : sys.createFromFile path with
    | none => exact .inr (.inl ⟨rfl, rfl, by simp only [fontLoadCached, hfind, hcreate]⟩)
    | some fe => exact .inr (.inr ⟨fe, rfl, rfl, by simp only [fontLoadCached, hfind, hcreate]⟩)

theorem extends_fontLoadCached (sys : Typesetting π φ) (b : FontBindings π φ) (path : π) :
    b.Extends (fontLoadCached sys b path).1 := by
  have hpaths (fonts : HandleTable φ) (handle : BitVec 32) (failed : Bool) :
      b.Extends { b with fonts, pathCache := pathCacheInsert b.pathCache path handle failed } := by
    refine ⟨rfl, fun q e hq => ?_⟩
    change pathCacheFind (pathCacheInsert b.pathCache path handle failed) q = some e
    rw [pathCacheFind_insert, hq]
    rfl
  obtain ⟨e, _, hload⟩ | ⟨_, _, hload⟩ | ⟨fe, _, _, hload⟩ := fontLoadCached_cases sys b path
  · rw [hload]
    exact .refl b
  · rw [hload]
    exact hpaths b.fonts 0 true
  · rw [hload]
    exact hpaths _ _ false

theorem FontBindings.Ready.load (h : b.Ready sys (n + 1)) (path : π) : (fontLoadCached sys b path).1.Ready sys n := by
  obtain ⟨e, _, hload⟩ | ⟨_, hnone, hload⟩ | ⟨fe, _, _, hload⟩ := fontLoadCached_cases sys b path
  · rw [hload]
    exact h.mono (Nat.le_succ n)
  · rw [hload]
    exact ⟨h.table, h.room.mono (Nat.le_succ n), h.failures.insert fun _ => hnone⟩
  · rw [hload]
    exact ⟨h.table.insert h.room fe, h.room.insert, h.failures.insert fun hfalse => absurd hfalse Bool.false_ne_true⟩

theorem fontLoadCached_leads (h : b.Ready sys (n + 1)) (hleads : b.Leads sys cp path) :
    (htableGet (fontLoadCached sys b path).1.fonts (fontLoadCached sys b path).2).filter (sys.covers cp) =
        (sys.createFromFile path).filter (sys.covers cp) ∧
      ((fontLoadCached sys b path).2 ≠ 0 →
        Filed (fontLoadCached sys b path).1.pathCache path (fontLoadCached sys b path).2) := by
  obtain ⟨e, hfind, hload⟩ | ⟨_, hnone, hload⟩ | ⟨fe, hfind, hsome, hload⟩ := fontLoadCached_cases sys b path
  · rw [hload]
    cases hfailed : e.loadFailed with
    | false =>
      rw [if_neg Bool.false_ne_true]
      exact ⟨hleads e hfind hfailed, fun _ => ⟨e, hfind, hfailed, rfl⟩⟩
    | true =>
      obtain ⟨hmem, hpath⟩ := pathCacheFind_some hfind
      have hnone := h.failures e hmem hfailed
      rw [hpath] at hnone
      rw [if_pos rfl, hnone, htableGet_zero]
      exact ⟨rfl, fun hne => absurd rfl hne⟩
  · rw [hload, hnone, htableGet_zero]
    exact ⟨rfl, fun hne => absurd rfl hne⟩
  · rw [hload, hsome]
    refine ⟨congrArg _ (h.table.get_inserted h.room fe), fun _ => ⟨⟨path, _, false⟩, ?_, rfl, rfl⟩⟩
    change pathCacheFind (pathCacheInsert b.pathCache path _ false) path = _
    rw [pathCacheFind_insert, hfind, if_pos rfl]
    rfl

theorem FontBindings.Leads.load (h : b.Ready sys (n + 1))
    (hpath : (sys.createFromFile path).filter (sys.covers cp) = none) (hleads : b.Leads sys cp q) :
    (fontLoadCached sys b path).1.Leads sys cp q := by
  obtain ⟨e, _, hload⟩ | ⟨hfind, hnone, hload⟩ | ⟨fe, hfind, hsome, hload⟩ := fontLoadCached_cases sys b path
  · rw [hload]
    exact hleads
  · rw [hload]
    intro e he hfailed
    change pathCacheFind (pathCacheInsert b.pathCache path 0 true) q = some e at he
    rw [pathCacheFind_insert] at he
    rcases Option.or_eq_some_iff.mp he with hold | ⟨_, hnew⟩
    · exact hleads e hold hfailed
    · split at hnew
      · cases hnew
        cases hfailed
      · cases hnew
  · rw [hload]
    intro e he hfailed
    change pathCacheFind (pathCacheInsert b.pathCache path _ false) q = some e at he
    rw [pathCacheFind_insert] at he
    rcases Option.or_eq_some_iff.mp he with hold | ⟨_, hnew⟩
    · rw [← hleads e hold hfailed]
      change (htableGet (htableInsert b.fonts (some fe)).1 e.handle).filter _ = _
      cases hget : htableGet b.fonts e.handle with
      | some f => rw [h.table.get_insert h.room fe hget]
      | none =>
        cases hget' : htableGet (htableInsert b.fonts (some fe)).1 e.handle with
        | none => rfl
        | some f =>
          -- The handle that led nowhere has been given to the font that was loaded.
          obtain ⟨_, rfl⟩ | hold' := htableGet_of_insert h.table.length hget'
          · rw [hsome] at hpath
            exact hpath
          · rw [hget] at hold'
            cases hold'
    · split at hnew
      · next heq =>
        cases hnew
        subst heq
        rw [hsome]
        exact congrArg _ (h.table.get_inserted h.room fe)
      · cases hnew

end Paths

section Searches

variable [DecidableEq π] {sys : Typesetting π φ} {b : FontBindings π φ} {cp handle : BitVec 32}
  {c : Candidate π} {cs : List (Candidate π)}

def FontBindings.Finds (b : FontBindings π φ) (handle : BitVec 32) (target : Option (π × φ)) : Prop :=
  target = none ∧ handle = 0 ∨
    ∃ path face, target = some (path, face) ∧ htableGet b.fonts handle = some face ∧ Filed b.pathCache path handle

theorem tryMatch_of_skip (hskip : ∀ path, c.hasChar = true → c.file ≠ some path) (b : FontBindings π φ) :
    tryMatch sys cp b c = (b, 0) ∧ sys.covering cp c = none := by
  unfold tryMatch Typesetting.covering
  cases hchar : c.hasChar with
  | false => exact ⟨rfl, rfl⟩
  | true =>
    cases hfile : c.file with
    | none => exact ⟨rfl, rfl⟩
    | some path => exact absurd hfile (hskip path hchar)

theorem tryMatch_of_file {path : π} (hchar : c.hasChar = true) (hfile : c.file = some path)
    (b : FontBindings π φ) :
    tryMatch sys cp b c = ((fontLoadCached sys b path).1,
      if ((htableGet (fontLoadCached sys b path).1.fonts (fontLoadCached sys b path).2).filter
        (sys.covers cp)).isSome then (fontLoadCached sys b path).2 else 0) := by
  unfold tryMatch
  rw [if_pos hchar, hfile]
  dsimp only
  split
  · next hzero =>
    rw [hzero, htableGet_zero]
    exact Prod.ext rfl hzero
  · cases hget : htableGet (fontLoadCached sys b path).1.fonts (fontLoadCached sys b path).2 with
    | none => rfl
    | some fe =>
      dsimp only
      rw [Option.filter_some, Typesetting.covers]
      split
      · next hcovers =>
        rw [if_pos (decide_eq_true hcovers)]
        rfl
      · next hcovers =>
        rw [if_neg fun htrue => hcovers (of_decide_eq_true htrue)]
        rfl

theorem extends_tryMatch (sys : Typesetting π φ) (cp : BitVec 32) (b : FontBindings π φ) (c : Candidate π) :
    b.Extends (tryMatch sys cp b c).1 := by
  by_cases hfile : ∃ path, c.hasChar = true ∧ c.file = some path
  · obtain ⟨path, hchar, hfile⟩ := hfile
    rw [tryMatch_of_file hchar hfile]
    exact extends_fontLoadCached sys b path
  · rw [(tryMatch_of_skip (fun path hchar heq => hfile ⟨path, hchar, heq⟩) b).1]
    exact .refl b

theorem FontBindings.Ready.tryMatch (h : b.Ready sys (n + 1)) (cp : BitVec 32) (c : Candidate π) :
    (tryMatch sys cp b c).1.Ready sys n := by
  by_cases hfile : ∃ path, c.hasChar = true ∧ c.file = some path
  · obtain ⟨path, hchar, hfile⟩ := hfile
    rw [tryMatch_of_file hchar hfile]
    exact h.load path
  · rw [(tryMatch_of_skip (fun path hchar heq => hfile ⟨path, hchar, heq⟩) b).1]
    exact h.mono (Nat.le_succ n)

theorem tryMatch_finds (h : b.Ready sys (n + 1))
    (hleads : ∀ path, c.hasChar = true → c.file = some path → b.Leads sys cp path) :
    (tryMatch sys cp b c).1.Finds (tryMatch sys cp b c).2 (sys.covering cp c) := by
  by_cases hfile : ∃ path, c.hasChar = true ∧ c.file = some path
  · obtain ⟨path, hchar, hfile⟩ := hfile
    obtain ⟨hfont, hfiled⟩ := fontLoadCached_leads h (hleads path hchar hfile)
    rw [tryMatch_of_file hchar hfile, covering_of_file hchar hfile, hfont]
    cases hface : (sys.createFromFile path).filter (sys.covers cp) with
    | none => exact .inl ⟨rfl, rfl⟩
    | some face =>
      rw [hface] at hfont
      have hget := (Option.filter_eq_some_iff.mp hfont).1
      exact .inr ⟨path, face, rfl, hget, hfiled (ne_zero_of_get hget)⟩
  · obtain ⟨htry, hnone⟩ :=
      @tryMatch_of_skip _ _ _ sys cp c (fun path hchar heq => hfile ⟨path, hchar, heq⟩) b
    rw [htry, hnone]
    exact .inl ⟨rfl, rfl⟩

theorem FontBindings.Leads.tryMatch {q : π} (h : b.Ready sys (n + 1)) (hnone : sys.covering cp c = none)
    (hleads : b.Leads sys cp q) : (tryMatch sys cp b c).1.Leads sys cp q := by
  by_cases hfile : ∃ path, c.hasChar = true ∧ c.file = some path
  · obtain ⟨path, hchar, hfile⟩ := hfile
    rw [covering_of_file hchar hfile, Option.map_eq_none_iff] at hnone
    rw [tryMatch_of_file hchar hfile]
    exact hleads.load h hnone
  · rw [(tryMatch_of_skip (fun path hchar heq => hfile ⟨path, hchar, heq⟩) b).1]
    exact hleads

theorem extends_searchMatches (sys : Typesetting π φ) (cp : BitVec 32) (cs : List (Candidate π))
    (b : FontBindings π φ) : b.Extends (searchMatches sys cp cs b).1 := by
  induction cs generalizing b with
  | nil => exact .refl b
  | cons c cs ih =>
    have htry := extends_tryMatch sys cp b c
    unfold searchMatches
    dsimp only
    split
    · exact htry.trans (ih _)
    · exact htry

theorem FontBindings.Ready.searchMatches (h : b.Ready sys cs.length) (cp : BitVec 32) :
    (searchMatches sys cp cs b).1.Ready sys 0 := by
  induction cs generalizing b with
  | nil => exact h
  | cons c cs ih =>
    have htry := h.tryMatch cp c
    unfold Fonts.searchMatches
    dsimp only
    split
    · exact ih htry
    · exact htry.mono (Nat.zero_le _)

theorem searchMatches_finds (h : b.Ready sys cs.length)
    (hleads : ∀ c path, Reached sys cp cs c → c.hasChar = true → c.file = some path → b.Leads sys cp path) :
    (searchMatches sys cp cs b).1.Finds (searchMatches sys cp cs b).2 (cs.findSome? (sys.covering cp)) := by
  induction cs generalizing b with
  | nil => exact .inl ⟨rfl, rfl⟩
  | cons c cs ih =>
    have htry := tryMatch_finds h (hleads c · ⟨[], cs, rfl, fun _ hd => absurd hd List.not_mem_nil⟩)
    unfold searchMatches
    dsimp only
    rw [List.findSome?_cons]
    obtain ⟨hnone, hzero⟩ | ⟨path, face, hsome, hget, hfiled⟩ := htry
    · rw [if_pos hzero, hnone]
      refine ih (h.tryMatch cp c) fun d path hd hchar hfile => ?_
      exact (hleads d path (hd.cons hnone) hchar hfile).tryMatch h hnone
    · rw [if_neg (ne_zero_of_get hget), hsome]
      exact .inr ⟨path, face, rfl, hget, hfiled⟩

end Searches

section Lookups

variable [DecidableEq π] {sys : Typesetting π φ} {b b' : FontBindings π φ} {cp : BitVec 32}

namespace FontBindings

def Remembers (sys : Typesetting π φ) (pathCache : List (PathEntry π)) (e : CpEntry) : Prop :=
  sys.fallback e.codepoint = none ∧ e.handle = 0 ∨
    ∃ path face, sys.fallback e.codepoint = some (path, face) ∧ Filed pathCache path e.handle

structure Coherent (sys : Typesetting π φ) (pathCache : List (PathEntry π)) (cpCache : BitVec 32 → Option CpEntry) :
    Prop where
  failures : Failures sys pathCache
  known : ProbeCache.Stores (Remembers sys pathCache) cpCache

structure Steady (sys : Typesetting π φ) (b : FontBindings π φ) (cp : BitVec 32) : Prop where
  hit : (cpCacheFind b.cpCache cp).isSome → ∀ path face, sys.fallback cp = some (path, face) → b.Leads sys cp path
  miss : cpCacheFind b.cpCache cp = none → b.fonts.Roomy (sys.fontSort cp).length ∧
    ∀ c path, Reached sys cp (sys.fontSort cp) c → c.hasChar = true → c.file = some path → b.Leads sys cp path

theorem Remembers.extends {e : CpEntry} (hext : b.Extends b') (h : Remembers sys b.pathCache e) :
    Remembers sys b'.pathCache e := by
  obtain hnone | ⟨path, face, hsome, hfiled⟩ := h
  · exact .inl hnone
  · exact .inr ⟨path, face, hsome, hext.filed hfiled⟩

theorem Finds.remembers {handle : BitVec 32} (h : b.Finds handle (sys.fallback cp)) :
    Remembers sys b.pathCache ⟨cp, handle⟩ := by
  obtain hnone | ⟨path, face, hsome, _, hfiled⟩ := h
  · exact .inl hnone
  · exact .inr ⟨path, face, hsome, hfiled⟩

end FontBindings

open FontBindings

theorem cpCacheFind_some {P : CpEntry → Prop} {cache : BitVec 32 → Option CpEntry} {e : CpEntry}
    (h : ProbeCache.Stores P cache) (hfind : cpCacheFind cache cp = some e) : e.codepoint = cp ∧ P e := by
  obtain ⟨hhit, he⟩ := h.of_search hfind
  exact ⟨of_decide_eq_true hhit, he⟩

theorem findFontForCodepoint_finds (h : Coherent sys b.pathCache b.cpCache) (htable : b.fonts.Sound)
    (hsteady : b.Steady sys cp) :
    (findFontForCodepoint sys b cp).1.Finds (findFontForCodepoint sys b cp).2 (sys.fallback cp) ∧
      Coherent sys (findFontForCodepoint sys b cp).1.pathCache (findFontForCodepoint sys b cp).1.cpCache ∧
      (findFontForCodepoint sys b cp).1.fonts.Sound := by
  unfold findFontForCodepoint
  cases hfind : cpCacheFind b.cpCache cp with
  | some e =>
    refine ⟨?_, h, htable⟩
    obtain ⟨rfl, hnone | ⟨path, face, hsome, e', hpath, hfailed, hhandle⟩⟩ := cpCacheFind_some h.known hfind
    · exact .inl hnone
    · have hlead := hsteady.hit (Option.isSome_of_eq_some hfind) path face hsome e' hpath hfailed
      rw [fallback_some hsome, hhandle] at hlead
      exact .inr ⟨path, face, hsome, (Option.filter_eq_some_iff.mp hlead).1, e', hpath, hfailed, hhandle⟩
  | none =>
    obtain ⟨hroom, hleads⟩ := hsteady.miss hfind
    have hready : b.Ready sys (sys.fontSort cp).length := ⟨htable, hroom, h.failures⟩
    have hfinds := searchMatches_finds hready hleads
    have hext := extends_searchMatches sys cp (sys.fontSort cp) b
    have hdone := hready.searchMatches cp
    refine ⟨hfinds, ⟨hdone.failures, ?_⟩, hdone.table⟩
    change ProbeCache.Stores _ (cpCacheInsert (searchMatches sys cp (sys.fontSort cp) b).1.cpCache _ _)
    rw [hext.cpCache]
    exact (h.known.mono fun e he => he.extends hext).insert hfinds.remembers

theorem steady_cold (hroom : b.fonts.Roomy (sys.fontSort cp).length) (hpaths : b.pathCache = []) :
    b.Steady sys cp := by
  have hnowhere (path : π) : b.Leads sys cp path := by
    intro e he
    rw [hpaths] at he
    cases he
  exact ⟨fun _ path _ _ => hnowhere path, fun _ => ⟨hroom, fun _ path _ _ _ => hnowhere path⟩⟩

theorem findFontForCodepoint_cold (htable : b.fonts.Sound) (hroom : b.fonts.Roomy (sys.fontSort cp).length)
    (hpaths : b.pathCache = []) (hcache : b.cpCache = fun _ => none) :
    (findFontForCodepoint sys b cp).1.Finds (findFontForCodepoint sys b cp).2 (sys.fallback cp) := by
  refine (findFontForCodepoint_finds ?_ htable (steady_cold hroom hpaths)).1
  rw [hpaths, hcache]
  exact ⟨fun _ he => absurd he List.not_mem_nil, .empty⟩

end Lookups

end YumiBrowser.Fonts
