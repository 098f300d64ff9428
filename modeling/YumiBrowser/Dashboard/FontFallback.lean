import YumiBrowser.Dashboard.FontSearch
import YumiBrowser.Library.System

universe u v w

namespace YumiBrowser.Fonts

open Handles Transition

structure TextFont (φ : Type v) where
  face : φ
  fontHandle : BitVec 32

-- The last two are no fields of the source: which instance made the entry, and with which active font.
structure ResolveEntry (ι : Type w) where
  codepoint : BitVec 32
  activeHandle : BitVec 32
  resolvedIdx : ℕ
  maker : ι
  activeIdx : ℕ

structure TextBindings (ι : Type w) (π : Type u) (φ : Type v) extends FontBindings π φ where
  resolveCache : BitVec 32 → Option (ResolveEntry ι)
  textFonts : List (TextFont φ)
  activeFont : Option ℕ

variable {ι : Type w} {π : Type u} {φ : Type v}

def resolveCacheHash (cp handle : BitVec 32) : BitVec 32 := (cp * 2654435761 ^^^ handle * 2246822519) &&& 32767

def resolveCacheProbes (cp handle : BitVec 32) : List (BitVec 32) :=
  ProbeCache.probes (resolveCacheHash cp handle) 32767 32

def resolveCacheFind (cache : BitVec 32 → Option (ResolveEntry ι)) (cp activeHandle : BitVec 32) :
    Option (ResolveEntry ι) :=
  ProbeCache.search cache (fun e => e.codepoint = cp ∧ e.activeHandle = activeHandle)
    (resolveCacheProbes cp activeHandle)

def resolveCacheInsert (cache : BitVec 32 → Option (ResolveEntry ι)) (entry : ResolveEntry ι) :
    BitVec 32 → Option (ResolveEntry ι) :=
  ProbeCache.insert cache (fun e => e.codepoint = entry.codepoint ∧ e.activeHandle = entry.activeHandle)
    (resolveCacheHash entry.codepoint entry.activeHandle) (resolveCacheProbes entry.codepoint entry.activeHandle)
    entry

def textFindFontForHandle (fonts : List (TextFont φ)) (fontHandle : BitVec 32) : Option ℕ :=
  fonts.findIdx? (·.fontHandle = fontHandle)

namespace TextBindings

def textAddFont (b : TextBindings ι π φ) (face : φ) (fontHandle : BitVec 32) : TextBindings ι π φ × ℕ :=
  ({ b with textFonts := b.textFonts ++ [⟨face, fontHandle⟩] }, b.textFonts.length)

def textEnsureHbFont (b : TextBindings ι π φ) (fontHandle : BitVec 32) : TextBindings ι π φ × Option ℕ :=
  if fontHandle = 0 then (b, none)
  else
    match textFindFontForHandle b.textFonts fontHandle with
    | some idx => (b, some idx)
    | none =>
      match htableGet b.fonts fontHandle with
      | none => (b, none)
      | some face => ((b.textAddFont face fontHandle).1, some (b.textAddFont face fontHandle).2)

def textLoadFont (b : TextBindings ι π φ) (fontHandle : BitVec 32) : TextBindings ι π φ :=
  match htableGet b.fonts fontHandle with
  | none => b
  | some face => { (b.textAddFont face fontHandle).1 with activeFont := some (b.textAddFont face fontHandle).2 }

def textSetFont (b : TextBindings ι π φ) (fontHandle : BitVec 32) : TextBindings ι π φ :=
  match textFindFontForHandle b.textFonts fontHandle with
  | some idx => { b with activeFont := some idx }
  | none => b.textLoadFont fontHandle

def fontLoad (b : TextBindings ι π φ) (fe : Option φ) : TextBindings ι π φ :=
  { b with fonts := (htableInsert b.fonts fe).1 }

def fontUnload (b : TextBindings ι π φ) (handle : BitVec 32) : TextBindings ι π φ :=
  if (htableGet b.fonts handle).isSome then { b with fonts := htableRemove b.fonts handle } else b

end TextBindings

def Typesetting.hasGlyph (sys : Typesetting π φ) (cp : BitVec 32) (face : φ) : Bool :=
  (sys.nominalGlyph face cp).any (· ≠ 0)

section Resolve

variable [DecidableEq π] (sys : Typesetting π φ)

namespace TextBindings

def findFont (b : TextBindings ι π φ) (cp : BitVec 32) : TextBindings ι π φ × BitVec 32 :=
  let r := findFontForCodepoint sys b.toFontBindings cp
  ({ b with toFontBindings := r.1 }, r.2)

def resolveAnew (b : TextBindings ι π φ) (cp : BitVec 32) (activeIdx : ℕ) (active : TextFont φ) :
    TextBindings ι π φ × ℕ :=
  if sys.hasGlyph cp active.face then (b, activeIdx)
  else
    let r := b.findFont sys cp
    if r.2 ≠ 0 ∧ r.2 ≠ active.fontHandle then
      let s := r.1.textEnsureHbFont r.2
      match s.2 with
      | none => (s.1, activeIdx)
      | some idx =>
        if (s.1.textFonts[idx]?).any fun tf => sys.hasGlyph cp tf.face then (s.1, idx) else (s.1, activeIdx)
    else (r.1, activeIdx)

-- It is not called with the index of no font.
def textResolveFontForCodepoint (me : ι) (b : TextBindings ι π φ) (cp : BitVec 32) (activeIdx : ℕ) :
    TextBindings ι π φ × ℕ :=
  match b.textFonts[activeIdx]? with
  | none => (b, activeIdx)
  | some active =>
    match resolveCacheFind b.resolveCache cp active.fontHandle with
    | some cached => (b, cached.resolvedIdx)
    | none =>
      let r := b.resolveAnew sys cp activeIdx active
      ({ r.1 with
          resolveCache := resolveCacheInsert r.1.resolveCache ⟨cp, active.fontHandle, r.2, me, activeIdx⟩ }, r.2)

end TextBindings

def Typesetting.resolved (cp : BitVec 32) (face : φ) : φ :=
  if sys.hasGlyph cp face then face else (((sys.fallback cp).map Prod.snd).filter (sys.hasGlyph cp)).getD face

end Resolve

/-- The calls of a guest; `text_shape` resolves its codepoints one after the other. -/
inductive Call (π : Type u) (φ : Type v)
  | fontLoad (fe : Option φ)
  | fontLoadSystem (path : π)
  | fontUnload (handle : BitVec 32)
  | findFont (cp : BitVec 32)
  | textLoadFont (handle : BitVec 32)
  | textSetFont (handle : BitVec 32)
  | textResolve (cp : BitVec 32)

structure Instance (φ : Type v) where
  fonts : HandleTable φ
  textFonts : List (TextFont φ)
  activeFont : Option ℕ

structure Process (ι : Type w) (π : Type u) (φ : Type v) where
  instances : ι → Option (Instance φ)
  pathCache : List (PathEntry π)
  cpCache : BitVec 32 → Option CpEntry
  resolveCache : BitVec 32 → Option (ResolveEntry ι)

inductive Event (ι : Type w) (π : Type u) (φ : Type v)
  | create (i : ι)
  | destroy (i : ι)
  | call (i : ι) (c : Call π φ)

def TextBindings.call [DecidableEq π] (sys : Typesetting π φ) (me : ι) (b : TextBindings ι π φ) :
    Call π φ → TextBindings ι π φ
  | .fontLoad fe => b.fontLoad fe
  | .fontLoadSystem path => { b with toFontBindings := (fontLoadCached sys b.toFontBindings path).1 }
  | .fontUnload handle => b.fontUnload handle
  | .findFont cp => (b.findFont sys cp).1
  | .textLoadFont handle => b.textLoadFont handle
  | .textSetFont handle => b.textSetFont handle
  | .textResolve cp =>
    match b.activeFont with
    | none => b
    | some activeIdx => (b.textResolveFontForCodepoint sys me cp activeIdx).1

namespace Process

def start : Process ι π φ where
  instances _ := none
  pathCache := []
  cpCache _ := none
  resolveCache _ := none

def bindings (p : Process ι π φ) (inst : Instance φ) : TextBindings ι π φ where
  pathCache := p.pathCache
  cpCache := p.cpCache
  fonts := inst.fonts
  resolveCache := p.resolveCache
  textFonts := inst.textFonts
  activeFont := inst.activeFont

variable [DecidableEq ι]

def put (p : Process ι π φ) (i : ι) (b : TextBindings ι π φ) : Process ι π φ where
  instances := Function.update p.instances i (some ⟨b.fonts, b.textFonts, b.activeFont⟩)
  pathCache := b.pathCache
  cpCache := b.cpCache
  resolveCache := b.resolveCache

def next [DecidableEq π] (sys : Typesetting π φ) (p : Process ι π φ) : Event ι π φ → Process ι π φ
  | .create i =>
    match p.instances i with
    | some _ => p
    | none =>
      { p with
        instances := Function.update p.instances i (some ⟨htableInit 8, [], none⟩)
        cpCache := fun _ => none
        resolveCache := fun _ => none }
  | .destroy i =>
    match p.instances i with
    | none => p
    | some _ =>
      { instances := Function.update p.instances i none
        pathCache := []
        cpCache := fun _ => none
        resolveCache := fun _ => none }
  | .call i c =>
    match p.instances i with
    | none => p
    | some inst => p.put i ((p.bindings inst).call sys i c)

end Process

end YumiBrowser.Fonts
