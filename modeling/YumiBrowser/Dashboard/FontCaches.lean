import YumiBrowser.Dashboard.FontFallback

universe u v w

namespace YumiBrowser.Fonts

open Handles Transition FontBindings

variable {ι : Type w} {π : Type u} {φ : Type v} {sys : Typesetting π φ}

theorem getElem?_of_isPrefix {α : Type*} {xs ys : List α} {x : α} {i : ℕ} (h : xs <+: ys) (hx : xs[i]? = some x) :
    ys[i]? = some x := by
  obtain ⟨zs, rfl⟩ := h
  rw [List.getElem?_append_left (List.getElem?_eq_some_iff.mp hx).1]
  exact hx

theorem resolved_of_none {cp : BitVec 32} {face : φ} (hglyph : sys.hasGlyph cp face = false)
    (hnone : ((sys.fallback cp).map Prod.snd).filter (sys.hasGlyph cp) = none) : sys.resolved cp face = face := by
  rw [Typesetting.resolved, if_neg (Bool.eq_false_iff.mp hglyph), hnone]
  rfl

theorem resolved_of_some {cp : BitVec 32} {face other : φ} (hglyph : sys.hasGlyph cp face = false)
    (hsome : ((sys.fallback cp).map Prod.snd).filter (sys.hasGlyph cp) = some other) :
    sys.resolved cp face = other := by
  rw [Typesetting.resolved, if_neg (Bool.eq_false_iff.mp hglyph), hsome]
  rfl

namespace TextBindings

section Copies

variable {b : TextBindings ι π φ} {cp : BitVec 32} {active : TextFont φ}

def copyOf (b : TextBindings ι π φ) (active : TextFont φ) (handle : BitVec 32) : Option (TextFont φ) :=
  if handle = active.fontHandle then some active
  else (textFindFontForHandle b.textFonts handle).bind (b.textFonts[·]?)

def Agrees (instances : ι → Option (Instance φ)) (b : TextBindings ι π φ) (active : TextFont φ)
    (e : ResolveEntry ι) : Prop :=
  ∀ inst, instances e.maker = some inst →
    (inst.textFonts[e.activeIdx]?).map TextFont.face = some active.face ∧
      (b.textFonts[e.resolvedIdx]?).map TextFont.face = (inst.textFonts[e.resolvedIdx]?).map TextFont.face

def Shows (b : TextBindings ι π φ) (idx : ℕ) (face : φ) : Prop := (b.textFonts[idx]?).map TextFont.face = some face

theorem shows_of_getElem? {idx : ℕ} {tf : TextFont φ} (h : b.textFonts[idx]? = some tf) : b.Shows idx tf.face := by
  rw [Shows, h]
  rfl

theorem textEnsureHbFont_shows {handle : BitVec 32} {face : φ} (hget : htableGet b.fonts handle = some face)
    (hother : handle ≠ active.fontHandle)
    (hcopied : ∀ tf, b.copyOf active handle = some tf →
      (some face).filter (sys.hasGlyph cp) = (some tf.face).filter (sys.hasGlyph cp)) :
    ∃ idx tf, (b.textEnsureHbFont handle).2 = some idx ∧
      (b.textEnsureHbFont handle).1.textFonts[idx]? = some tf ∧
      (some tf.face).filter (sys.hasGlyph cp) = (some face).filter (sys.hasGlyph cp) ∧
      b.textFonts <+: (b.textEnsureHbFont handle).1.textFonts ∧
      (b.textEnsureHbFont handle).1.toFontBindings = b.toFontBindings := by
  unfold textEnsureHbFont
  rw [if_neg (ne_zero_of_get hget)]
  cases hfind : textFindFontForHandle b.textFonts handle with
  | some idx =>
    have hlt := (List.findIdx?_eq_some_iff_getElem.mp hfind).1
    have htf : b.textFonts[idx]? = some b.textFonts[idx] := List.getElem?_eq_getElem hlt
    have hcopy : b.copyOf active handle = some b.textFonts[idx] := by
      rw [copyOf, if_neg hother, hfind]
      exact htf
    exact ⟨idx, b.textFonts[idx], rfl, htf, (hcopied _ hcopy).symm, List.prefix_rfl, rfl⟩
  | none =>
    simp only [hget]
    exact ⟨b.textFonts.length, ⟨face, handle⟩, rfl, List.getElem?_concat_length, rfl, List.prefix_append _ _, rfl⟩

@[simp] theorem resolveCache_textEnsureHbFont (b : TextBindings ι π φ) (handle : BitVec 32) :
    (b.textEnsureHbFont handle).1.resolveCache = b.resolveCache := by
  unfold textEnsureHbFont
  split
  · rfl
  · split
    · rfl
    · split <;> rfl

theorem isPrefix_textLoadFont (b : TextBindings ι π φ) (handle : BitVec 32) :
    b.textFonts <+: (b.textLoadFont handle).textFonts ∧
      (b.textLoadFont handle).toFontBindings = b.toFontBindings ∧
      (b.textLoadFont handle).resolveCache = b.resolveCache := by
  unfold textLoadFont
  split
  · exact ⟨List.prefix_rfl, rfl, rfl⟩
  · exact ⟨List.prefix_append _ _, rfl, rfl⟩

theorem isPrefix_textSetFont (b : TextBindings ι π φ) (handle : BitVec 32) :
    b.textFonts <+: (b.textSetFont handle).textFonts ∧
      (b.textSetFont handle).toFontBindings = b.toFontBindings ∧
      (b.textSetFont handle).resolveCache = b.resolveCache := by
  unfold textSetFont
  split
  · exact ⟨List.prefix_rfl, rfl, rfl⟩
  · exact isPrefix_textLoadFont b handle

end Copies

section Calls

variable [DecidableEq π] {b b' : TextBindings ι π φ} {cp : BitVec 32} {active : TextFont φ} {activeIdx : ℕ} {me : ι}

structure Settled (sys : Typesetting π φ) (b : TextBindings ι π φ) (cp : BitVec 32) (active : TextFont φ) : Prop where
  steady : b.Steady sys cp
  copied : ∀ tf, (b.findFont sys cp).1.copyOf active (b.findFont sys cp).2 = some tf →
    (htableGet (b.findFont sys cp).1.fonts (b.findFont sys cp).2).filter (sys.hasGlyph cp) =
      (some tf.face).filter (sys.hasGlyph cp)

structure Resolvable (sys : Typesetting π φ) (instances : ι → Option (Instance φ)) (b : TextBindings ι π φ)
    (cp : BitVec 32) (active : TextFont φ) : Prop where
  hit : ∀ e, resolveCacheFind b.resolveCache cp active.fontHandle = some e → b.Agrees instances active e
  miss : resolveCacheFind b.resolveCache cp active.fontHandle = none → sys.hasGlyph cp active.face = false →
    b.Settled sys cp active

structure Outcome (sys : Typesetting π φ) (b b' : TextBindings ι π φ) : Prop where
  coherent : Coherent sys b'.pathCache b'.cpCache
  table : b'.fonts.Sound
  grows : b.textFonts <+: b'.textFonts

theorem Outcome.findFont (h : Coherent sys b.pathCache b.cpCache) (htable : b.fonts.Sound)
    (hsteady : b.Steady sys cp) : Outcome sys b (b.findFont sys cp).1 := by
  obtain ⟨_, hcoherent, hsound⟩ := findFontForCodepoint_finds h htable hsteady
  exact ⟨hcoherent, hsound, List.prefix_rfl⟩

theorem resolveAnew_shows (h : Coherent sys b.pathCache b.cpCache) (htable : b.fonts.Sound)
    (hactive : b.textFonts[activeIdx]? = some active)
    (hsettled : sys.hasGlyph cp active.face = false → b.Settled sys cp active) :
    (b.resolveAnew sys cp activeIdx active).1.Shows (b.resolveAnew sys cp activeIdx active).2
        (sys.resolved cp active.face) ∧
      Outcome sys b (b.resolveAnew sys cp activeIdx active).1 := by
  unfold resolveAnew
  cases hglyph : sys.hasGlyph cp active.face with
  | true =>
    rw [if_pos rfl, Typesetting.resolved, if_pos hglyph]
    exact ⟨shows_of_getElem? hactive, h, htable, List.prefix_rfl⟩
  | false =>
    obtain ⟨hsteady, hcopied⟩ := hsettled hglyph
    obtain ⟨hfinds, _⟩ := findFontForCodepoint_finds h htable hsteady
    have houtcome := Outcome.findFont h htable hsteady
    rw [if_neg Bool.false_ne_true]
    dsimp only
    have hfinds : (b.findFont sys cp).1.Finds (b.findFont sys cp).2 (sys.fallback cp) := hfinds
    have hactive : (b.findFont sys cp).1.textFonts[activeIdx]? = some active := hactive
    generalize b.findFont sys cp = r at hfinds houtcome hcopied hactive
    obtain ⟨hnone, hzero⟩ | ⟨path, face, hsome, hget, _⟩ := hfinds
    · rw [if_neg fun hne => hne.1 hzero, resolved_of_none hglyph (by rw [hnone]; rfl)]
      exact ⟨shows_of_getElem? hactive, houtcome⟩
    · rw [hget] at hcopied
      by_cases hsame : r.2 = active.fontHandle
      · have hface := hcopied active (if_pos hsame)
        have hface := hface.trans (Option.filter_some_neg hglyph)
        rw [if_neg fun hne => hne.2 hsame, resolved_of_none hglyph (by rw [hsome]; exact hface)]
        exact ⟨shows_of_getElem? hactive, houtcome⟩
      · obtain ⟨idx, tf, hensure, htf, hface, hgrows, hbase⟩ := textEnsureHbFont_shows hget hsame hcopied
        have houtcome' : Outcome sys b (r.1.textEnsureHbFont r.2).1 := by
          refine ⟨?_, ?_, houtcome.grows.trans hgrows⟩
          · rw [hbase]
            exact houtcome.coherent
          · rw [hbase]
            exact houtcome.table
        rw [if_pos ⟨ne_zero_of_get hget, hsame⟩]
        simp only [hensure, htf, Option.any_some]
        cases htfglyph : sys.hasGlyph cp tf.face with
        | true =>
          have hface := hface.symm.trans (Option.filter_some_pos htfglyph)
          rw [if_pos rfl, resolved_of_some hglyph (by rw [hsome]; exact hface)]
          exact ⟨shows_of_getElem? htf, houtcome'⟩
        | false =>
          have hface := hface.symm.trans (Option.filter_some_neg htfglyph)
          rw [if_neg Bool.false_ne_true, resolved_of_none hglyph (by rw [hsome]; exact hface)]
          exact ⟨shows_of_getElem? (getElem?_of_isPrefix hgrows hactive), houtcome'⟩

@[simp] theorem resolveCache_resolveAnew (b : TextBindings ι π φ) (cp : BitVec 32) (activeIdx : ℕ)
    (active : TextFont φ) : (b.resolveAnew sys cp activeIdx active).1.resolveCache = b.resolveCache := by
  unfold resolveAnew
  split
  · rfl
  · dsimp only
    split
    · split
      · exact resolveCache_textEnsureHbFont _ _
      · split <;> exact resolveCache_textEnsureHbFont _ _
    · rfl

def Made (sys : Typesetting π φ) (textFonts : List (TextFont φ)) (e : ResolveEntry ι) : Prop :=
  ∃ active, textFonts[e.activeIdx]? = some active ∧
    (textFonts[e.resolvedIdx]?).map TextFont.face = some (sys.resolved e.codepoint active.face)

structure Effect (sys : Typesetting π φ) (me : ι) (b b' : TextBindings ι π φ) : Prop extends Outcome sys b b' where
  entries : ∀ P : ResolveEntry ι → Prop, (∀ e, e.maker = me → Made sys b'.textFonts e → P e) →
    ProbeCache.Stores P b.resolveCache → ProbeCache.Stores P b'.resolveCache

theorem Outcome.effect (h : Outcome sys b b') (hcache : b'.resolveCache = b.resolveCache) : Effect sys me b b' := by
  refine ⟨h, fun P _ hstores => ?_⟩
  rw [hcache]
  exact hstores

theorem textResolve_shows {instances : ι → Option (Instance φ)} (h : Coherent sys b.pathCache b.cpCache)
    (htable : b.fonts.Sound)
    (hcache : ProbeCache.Stores
      (fun e => ∃ inst, instances e.maker = some inst ∧ Made sys inst.textFonts e) b.resolveCache)
    (hactive : b.textFonts[activeIdx]? = some active) (hok : b.Resolvable sys instances cp active) :
    (b.textResolveFontForCodepoint sys me cp activeIdx).1.Shows
        (b.textResolveFontForCodepoint sys me cp activeIdx).2 (sys.resolved cp active.face) ∧
      Effect sys me b (b.textResolveFontForCodepoint sys me cp activeIdx).1 := by
  unfold textResolveFontForCodepoint
  simp only [hactive]
  cases hfind : resolveCacheFind b.resolveCache cp active.fontHandle with
  | some e =>
    obtain ⟨hhit, inst, hinst, active', hactive', hface⟩ := hcache.of_search hfind
    obtain ⟨rfl, _⟩ := of_decide_eq_true hhit
    obtain ⟨hsame, hindex⟩ := hok.hit e hfind inst hinst
    rw [hactive'] at hsame
    have hsame : active'.face = active.face := Option.some.inj hsame
    rw [hsame] at hface
    exact ⟨hindex.trans hface, Outcome.effect ⟨h, htable, List.prefix_rfl⟩ rfl⟩
  | none =>
    obtain ⟨hshows, houtcome⟩ := resolveAnew_shows h htable hactive (hok.miss hfind)
    refine ⟨hshows, ⟨houtcome.coherent, houtcome.table, houtcome.grows⟩, fun P hP hstores => ?_⟩
    change ProbeCache.Stores P (resolveCacheInsert (b.resolveAnew sys cp activeIdx active).1.resolveCache _)
    rw [resolveCache_resolveAnew]
    exact hstores.insert (hP _ rfl ⟨active, getElem?_of_isPrefix houtcome.grows hactive, hshows⟩)

/-- What a call needs: room for the font that it loads, and caches that say of the calling instance what
they say. -/
def Undisturbed (sys : Typesetting π φ) (instances : ι → Option (Instance φ)) (b : TextBindings ι π φ) :
    Call π φ → Prop
  | .fontLoad (some _) => b.fonts.Roomy 1
  | .fontLoadSystem path => pathCacheFind b.pathCache path = none → b.fonts.Roomy 1
  | .findFont cp => b.Steady sys cp
  | .textResolve cp => ∀ activeIdx active, b.activeFont = some activeIdx →
      b.textFonts[activeIdx]? = some active → b.Resolvable sys instances cp active
  | _ => True

/-- The handle is 0 or a live one of the instance, and the index one of a font that it has; either is that
of the font without caches. -/
def Answers (sys : Typesetting π φ) (me : ι) (b : TextBindings ι π φ) : Call π φ → Prop
  | .findFont cp =>
    ((b.findFont sys cp).2 = 0 ∨ (htableGet (b.findFont sys cp).1.fonts (b.findFont sys cp).2).isSome) ∧
      htableGet (b.findFont sys cp).1.fonts (b.findFont sys cp).2 = (sys.fallback cp).map Prod.snd
  | .textResolve cp => ∀ activeIdx active, b.activeFont = some activeIdx →
      b.textFonts[activeIdx]? = some active →
        (b.textResolveFontForCodepoint sys me cp activeIdx).1.Shows
          (b.textResolveFontForCodepoint sys me cp activeIdx).2 (sys.resolved cp active.face)
  | _ => True

theorem Outcome.same (h : Coherent sys b.pathCache b.cpCache) (htable : b.fonts.Sound)
    (hbase : b'.toFontBindings = b.toFontBindings) (hgrows : b.textFonts <+: b'.textFonts) : Outcome sys b b' := by
  refine ⟨?_, ?_, hgrows⟩
  · rw [hbase]
    exact h
  · rw [hbase]
    exact htable

theorem Outcome.fontLoad (h : Coherent sys b.pathCache b.cpCache) (htable : b.fonts.Sound) (fe : Option φ)
    (hroom : fe ≠ none → b.fonts.Roomy 1) : Outcome sys b (b.fontLoad fe) := by
  refine ⟨h, ?_, List.prefix_rfl⟩
  cases fe with
  | none => exact htable
  | some fe => exact htable.insert (n := 0) (hroom (Option.some_ne_none fe)) fe

theorem Outcome.fontUnload (h : Coherent sys b.pathCache b.cpCache) (htable : b.fonts.Sound) (handle : BitVec 32) :
    Outcome sys b (b.fontUnload handle) := by
  unfold TextBindings.fontUnload
  split
  · next hsome =>
    obtain ⟨ptr, hget⟩ := Option.isSome_iff_exists.mp hsome
    exact ⟨h, htable.remove hget, List.prefix_rfl⟩
  · exact ⟨h, htable, List.prefix_rfl⟩

theorem Outcome.fontLoadSystem (h : Coherent sys b.pathCache b.cpCache) (htable : b.fonts.Sound) (path : π)
    (hroom : pathCacheFind b.pathCache path = none → b.fonts.Roomy 1) :
    Outcome sys b { b with toFontBindings := (fontLoadCached sys b.toFontBindings path).1 } := by
  cases hfind : pathCacheFind b.pathCache path with
  | some e =>
    have hload : (fontLoadCached sys b.toFontBindings path).1 = b.toFontBindings := by
      simp only [fontLoadCached, hfind]
    exact .same h htable hload List.prefix_rfl
  | none =>
    have hready : b.toFontBindings.Ready sys 1 := ⟨htable, hroom hfind, h.failures⟩
    have hext := extends_fontLoadCached sys b.toFontBindings path
    have hdone := hready.load (n := 0) path
    refine ⟨⟨hdone.failures, ?_⟩, hdone.table, List.prefix_rfl⟩
    change ProbeCache.Stores _ (fontLoadCached sys b.toFontBindings path).1.cpCache
    rw [hext.cpCache]
    exact h.known.mono fun e he => he.extends hext

theorem findFont_answers (h : Coherent sys b.pathCache b.cpCache) (htable : b.fonts.Sound)
    (hsteady : b.Steady sys cp) : b.Answers sys me (.findFont cp) := by
  have hfinds : (b.findFont sys cp).1.Finds (b.findFont sys cp).2 (sys.fallback cp) :=
    (findFontForCodepoint_finds h htable hsteady).1
  dsimp only [Answers]
  obtain ⟨hnone, hzero⟩ | ⟨path, face, hsome, hget, _⟩ := hfinds
  · rw [hzero, hnone, htableGet_zero]
    exact ⟨.inl rfl, rfl⟩
  · rw [hsome, hget]
    exact ⟨.inr rfl, rfl⟩

theorem call_answers {instances : ι → Option (Instance φ)} {c : Call π φ}
    (h : Coherent sys b.pathCache b.cpCache) (htable : b.fonts.Sound)
    (hcache : ProbeCache.Stores
      (fun e => ∃ inst, instances e.maker = some inst ∧ Made sys inst.textFonts e) b.resolveCache)
    (hok : b.Undisturbed sys instances c) : b.Answers sys me c ∧ Effect sys me b (b.call sys me c) := by
  cases c with
  | fontLoad fe =>
    refine ⟨trivial, (Outcome.fontLoad h htable fe fun hne => ?_).effect rfl⟩
    obtain ⟨fe, rfl⟩ := Option.ne_none_iff_exists'.mp hne
    exact hok
  | fontLoadSystem path => exact ⟨trivial, (Outcome.fontLoadSystem h htable path hok).effect rfl⟩
  | fontUnload handle =>
    refine ⟨trivial, (Outcome.fontUnload h htable handle).effect ?_⟩
    dsimp only [TextBindings.call, TextBindings.fontUnload]
    split <;> rfl
  | findFont cp => exact ⟨findFont_answers h htable hok, (Outcome.findFont h htable hok).effect rfl⟩
  | textLoadFont handle =>
    obtain ⟨hgrows, hbase, hsame⟩ := isPrefix_textLoadFont b handle
    exact ⟨trivial, (Outcome.same h htable hbase hgrows).effect hsame⟩
  | textSetFont handle =>
    obtain ⟨hgrows, hbase, hsame⟩ := isPrefix_textSetFont b handle
    exact ⟨trivial, (Outcome.same h htable hbase hgrows).effect hsame⟩
  | textResolve cp =>
    refine ⟨fun activeIdx active hidx hactive => ?_, ?_⟩
    · exact (textResolve_shows h htable hcache hactive (hok activeIdx active hidx hactive)).1
    · dsimp only [TextBindings.call]
      have hstays : Effect sys me b b := Outcome.effect ⟨h, htable, List.prefix_rfl⟩ rfl
      cases hidx : b.activeFont with
      | none => exact hstays
      | some activeIdx =>
        cases hactive : b.textFonts[activeIdx]? with
        | none =>
          simp only [textResolveFontForCodepoint, hactive]
          exact hstays
        | some active => exact (textResolve_shows h htable hcache hactive (hok activeIdx active hidx hactive)).2

end Calls

end TextBindings

namespace Process

variable [DecidableEq π] {p : Process ι π φ}

structure Kept (sys : Typesetting π φ) (p : Process ι π φ) : Prop where
  coherent : Coherent sys p.pathCache p.cpCache
  tables : ∀ i inst, p.instances i = some inst → inst.fonts.Sound
  entries : ProbeCache.Stores
    (fun e => ∃ inst, p.instances e.maker = some inst ∧ TextBindings.Made sys inst.textFonts e) p.resolveCache

def Undisturbed (sys : Typesetting π φ) (p : Process ι π φ) : Event ι π φ → Prop
  | .call i c => ∀ inst, p.instances i = some inst → (p.bindings inst).Undisturbed sys p.instances c
  | _ => True

def Answers (sys : Typesetting π φ) (p : Process ι π φ) : Event ι π φ → Prop
  | .call i c => ∀ inst, p.instances i = some inst → (p.bindings inst).Answers sys i c
  | _ => True

theorem Kept.answers (h : p.Kept sys) {e : Event ι π φ} (hok : p.Undisturbed sys e) : p.Answers sys e := by
  cases e with
  | create i => trivial
  | destroy i => trivial
  | call i c =>
    intro inst hinst
    exact (TextBindings.call_answers h.coherent (h.tables i inst hinst) h.entries (hok inst hinst)).1

theorem kept_start : (start : Process ι π φ).Kept sys :=
  ⟨⟨fun _ he => absurd he List.not_mem_nil, .empty⟩, fun _ _ hinst => absurd hinst.symm (Option.some_ne_none _),
    .empty⟩

variable [DecidableEq ι]

theorem forall_update {P : Instance φ → Prop} {instances : ι → Option (Instance φ)} {i : ι} {o : Option (Instance φ)}
    (h : ∀ j inst, instances j = some inst → P inst) (ho : ∀ inst, o = some inst → P inst) (j : ι)
    (inst : Instance φ) (hinst : Function.update instances i o j = some inst) : P inst := by
  rw [Function.update_apply] at hinst
  split at hinst
  · exact ho inst hinst
  · exact h j inst hinst

theorem Kept.put (h : p.Kept sys) {i : ι} {inst : Instance φ} (hinst : p.instances i = some inst)
    {b : TextBindings ι π φ} (heffect : TextBindings.Effect sys i (p.bindings inst) b) : (p.put i b).Kept sys := by
  refine ⟨heffect.coherent, forall_update h.tables fun inst' hinst' => ?_, ?_⟩
  · cases hinst'
    exact heffect.table
  · refine heffect.entries _ (fun e hmaker hmade => ?_) (h.entries.mono ?_)
    · refine ⟨⟨b.fonts, b.textFonts, b.activeFont⟩, ?_, hmade⟩
      rw [hmaker]
      exact Function.update_self ..
    · rintro e ⟨inst', hinst', active, hactive, hface⟩
      by_cases hmaker : e.maker = i
      · rw [hmaker, hinst] at hinst'
        cases hinst'
        obtain ⟨tf, htf, hsame⟩ := Option.map_eq_some_iff.mp hface
        refine ⟨⟨b.fonts, b.textFonts, b.activeFont⟩, ?_, active, getElem?_of_isPrefix heffect.grows hactive, ?_⟩
        · rw [hmaker]
          exact Function.update_self ..
        · change (b.textFonts[e.resolvedIdx]?).map TextFont.face = _
          rw [getElem?_of_isPrefix heffect.grows htf]
          exact congrArg some hsame
      · refine ⟨inst', ?_, active, hactive, hface⟩
        exact (Function.update_of_ne hmaker ..).trans hinst'

theorem Kept.next (h : p.Kept sys) {e : Event ι π φ} (hok : p.Undisturbed sys e) : (p.next sys e).Kept sys := by
  cases e with
  | create i =>
    dsimp only [Process.next]
    split
    · exact h
    · refine ⟨⟨h.coherent.failures, .empty⟩, forall_update h.tables fun inst hinst => ?_, .empty⟩
      cases hinst
      exact .init (by decide)
  | destroy i =>
    dsimp only [Process.next]
    split
    · exact h
    · refine ⟨⟨fun _ he => absurd he List.not_mem_nil, .empty⟩, forall_update h.tables fun inst hinst => ?_, .empty⟩
      cases hinst
  | call i c =>
    dsimp only [Process.next]
    split
    · exact h
    · next inst hinst =>
      have hcall := @TextBindings.call_answers _ _ _ sys _ _ i _ _ h.coherent (h.tables i inst hinst) h.entries
        (hok inst hinst)
      exact h.put hinst hcall.2

/-- In a run whose calls are undisturbed every lookup gives the font that it gives without caches. -/
theorem answers_along (sys : Typesetting π φ) (es : List (Event ι π φ))
    (hes : ∀ xs e ys, es = xs ++ e :: ys → (xs.foldl (Process.next sys) start).Undisturbed sys e) :
    ∀ xs e ys, es = xs ++ e :: ys → (xs.foldl (Process.next sys) start).Answers sys e := by
  intro xs e ys heq
  have hstep : ∀ (p : Process ι π φ) e, p.Kept sys → p.Undisturbed sys e → (p.next sys e).Kept sys :=
    fun _ _ hp hok => hp.next hok
  have hkept := System.holds_along hstep kept_start es hes xs (e :: ys) heq
  exact hkept.answers (hes xs e ys heq)

def unifont : Typesetting Unit Unit where
  createFromFile _ := some ()
  fontSort _ := [⟨true, some ()⟩]
  charIndex _ _ := 1
  nominalGlyph _ _ := some 1

-- One font has the Hebrew letters and what follows them, the other the rest.
def latinAndHebrew : Typesetting Bool Bool where
  createFromFile path := some path
  fontSort cp := [⟨true, some (BitVec.ule 1424 cp)⟩]
  charIndex face cp := if BitVec.ule 1424 cp = face then 1 else 0
  nominalGlyph face cp := if BitVec.ule 1424 cp = face then some 1 else none

def mixedText : List (Event ℕ Bool Bool) :=
  [.create 0, .call 0 (.findFont 65), .call 0 (.textLoadFont 1), .call 0 (.textResolve 1488),
    .call 0 (.textResolve 1488), .call 0 (.findFont 1488), .destroy 0, .create 1, .call 1 (.findFont 1488)]

theorem undisturbed_mixedText : System.Enables (Process.Undisturbed latinAndHebrew) (Process.next latinAndHebrew)
    (start : Process ℕ Bool Bool) mixedText := by
  refine ⟨trivial, ?_, fun _ _ => trivial, ?_, ?_, ?_, trivial, trivial, ?_, trivial⟩
  · intro inst hinst
    cases hinst
    exact steady_cold (by decide) rfl
  · intro inst hinst activeIdx active hidx hactive
    cases hinst
    cases hidx
    cases hactive
    refine ⟨fun e he => ?_, fun _ _ => ⟨⟨fun hhit => absurd hhit (by decide), fun _ => ⟨by decide, ?_⟩⟩, ?_⟩⟩
    · cases he
    · intro c path _ _ _ e he _
      cases path with
      | false =>
        cases he
        decide
      | true => cases he
    · intro tf htf
      cases htf
  · intro inst hinst activeIdx active hidx hactive
    cases hinst
    cases hidx
    cases hactive
    refine ⟨fun e he => ?_, fun hmiss => absurd hmiss (by decide)⟩
    cases he
    intro inst hinst
    cases hinst
    exact ⟨rfl, rfl⟩
  · intro inst hinst
    cases hinst
    refine ⟨fun _ path face _ e he _ => ?_, fun hmiss => absurd hmiss (by decide)⟩
    cases path <;> cases he <;> decide
  · intro inst hinst
    cases hinst
    exact steady_cold (by decide) rfl

theorem answers_along_mixedText : latinAndHebrew.resolved 1488 false = true ∧ ∀ xs e ys, mixedText = xs ++ e :: ys →
    (xs.foldl (Process.next latinAndHebrew) (start : Process ℕ Bool Bool)).Answers latinAndHebrew e :=
  ⟨by decide, answers_along latinAndHebrew mixedText (undisturbed_mixedText.along mixedText)⟩

-- Two apps, and the second one is given the handle under which the first one has the font.
theorem handle_of_other : ¬ ∀ (sys : Typesetting Unit Unit) (es : List (Event ℕ Unit Unit)) xs e ys,
    es = xs ++ e :: ys → (xs.foldl (Process.next sys) start).Answers sys e := by
  intro h
  have hanswers := h unifont _ [.create 0, .create 1, .call 0 (.findFont 1488)] (.call 1 (.findFont 1488)) [] rfl
  obtain ⟨hlive, _⟩ := hanswers ⟨htableInit 8, [], none⟩ rfl
  exact absurd hlive (by decide)

end Process

end YumiBrowser.Fonts
