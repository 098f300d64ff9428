import YumiBrowser.Dashboard.FontCaches

universe u v w

namespace YumiBrowser.Fonts

open Handles Transition FontBindings

variable {ι : Type w} {π : Type u} {φ : Type v} {sys : Typesetting π φ}

section Growth

structure FontBindings.Grows (sys : Typesetting π φ) (b b' : FontBindings π φ) : Prop where
  gets : ∀ handle face, htableGet b.fonts handle = some face → htableGet b'.fonts handle = some face
  paths : ∀ e ∈ b'.pathCache, e ∈ b.pathCache ∨ e.loadFailed = true ∨
    ∃ face, sys.createFromFile e.path = some face ∧ htableGet b'.fonts e.handle = some face

namespace FontBindings.Grows

variable {b b' b'' : FontBindings π φ} {cp : BitVec 32} {cs : List (Candidate π)}

theorem refl (b : FontBindings π φ) : b.Grows sys b := ⟨fun _ _ h => h, fun _ he => .inl he⟩

theorem trans (h : b.Grows sys b') (h' : b'.Grows sys b'') : b.Grows sys b'' := by
  refine ⟨fun handle face hget => h'.gets handle face (h.gets handle face hget), fun e he => ?_⟩
  obtain he | hfailed | hnew := h'.paths e he
  · obtain he | hfailed | ⟨face, hcreate, hget⟩ := h.paths e he
    · exact .inl he
    · exact .inr (.inl hfailed)
    · exact .inr (.inr ⟨face, hcreate, h'.gets e.handle face hget⟩)
  · exact .inr (.inl hfailed)
  · exact .inr (.inr hnew)

variable [DecidableEq π]

theorem load (h : b.Ready sys (n + 1)) (path : π) : b.Grows sys (fontLoadCached sys b path).1 := by
  obtain ⟨e, _, hload⟩ | ⟨_, _, hload⟩ | ⟨fe, _, hsome, hload⟩ := fontLoadCached_cases sys b path
  · rw [hload]
    exact refl b
  · rw [hload]
    refine ⟨fun _ _ hget => hget, fun e he => ?_⟩
    obtain he | he := List.mem_append.mp he
    · exact .inl he
    · rw [List.mem_singleton.mp he]
      exact .inr (.inl rfl)
  · rw [hload]
    refine ⟨fun _ _ hget => h.table.get_insert h.room fe hget, fun e he => ?_⟩
    obtain he | he := List.mem_append.mp he
    · exact .inl he
    · rw [List.mem_singleton.mp he]
      exact .inr (.inr ⟨fe, hsome, h.table.get_inserted h.room fe⟩)

theorem tryMatch (h : b.Ready sys (n + 1)) (cp : BitVec 32) (c : Candidate π) :
    b.Grows sys (tryMatch sys cp b c).1 := by
  by_cases hfile : ∃ path, c.hasChar = true ∧ c.file = some path
  · obtain ⟨path, hchar, hfile⟩ := hfile
    rw [tryMatch_of_file hchar hfile]
    exact load h path
  · rw [(tryMatch_of_skip (fun path hchar heq => hfile ⟨path, hchar, heq⟩) b).1]
    exact refl b

theorem searchMatches (h : b.Ready sys cs.length) (cp : BitVec 32) : b.Grows sys (searchMatches sys cp cs b).1 := by
  induction cs generalizing b with
  | nil => exact refl b
  | cons c cs ih =>
    have htry := tryMatch h cp c
    unfold Fonts.searchMatches
    dsimp only
    split
    · exact htry.trans (ih (h.tryMatch cp c))
    · exact htry

theorem findFontForCodepoint (h : b.Ready sys (sys.fontSort cp).length) :
    b.Grows sys (findFontForCodepoint sys b cp).1 := by
  unfold Fonts.findFontForCodepoint
  split
  · exact refl b
  · obtain ⟨hgets, hpaths⟩ := searchMatches h cp
    exact ⟨hgets, hpaths⟩

end FontBindings.Grows

end Growth

namespace TextBindings

variable {b b' : TextBindings ι π φ} {me : ι} {cp : BitVec 32} {active : TextFont φ}

structure Owns (sys : Typesetting π φ) (me : ι) (b : TextBindings ι π φ) : Prop where
  paths : ∀ e ∈ b.pathCache, e.loadFailed = true ∨
    ∃ face, sys.createFromFile e.path = some face ∧ htableGet b.fonts e.handle = some face
  copies : ∀ tf ∈ b.textFonts, htableGet b.fonts tf.fontHandle = some tf.face
  entries : ProbeCache.Stores (fun e => e.maker = me ∧
    (b.textFonts[e.activeIdx]?).map TextFont.fontHandle = some e.activeHandle) b.resolveCache

theorem Owns.leads [DecidableEq π] (h : b.Owns sys me) (cp : BitVec 32) (path : π) : b.Leads sys cp path := by
  intro e hfind hfailed
  obtain ⟨he, rfl⟩ := pathCacheFind_some hfind
  obtain htrue | ⟨face, hcreate, hget⟩ := h.paths e he
  · exact absurd (htrue.symm.trans hfailed) Bool.noConfusion
  · rw [hget, hcreate]

theorem Owns.steady [DecidableEq π] (h : b.Owns sys me) (hroom : b.fonts.Roomy (sys.fontSort cp).length) :
    b.Steady sys cp :=
  ⟨fun _ path _ _ => h.leads cp path, fun _ => ⟨hroom, fun _ path _ _ _ => h.leads cp path⟩⟩

theorem copyOf_mem {handle : BitVec 32} {tf : TextFont φ} (hactive : active ∈ b.textFonts)
    (h : b.copyOf active handle = some tf) : tf ∈ b.textFonts ∧ tf.fontHandle = handle := by
  unfold copyOf at h
  split at h
  · next hsame =>
    cases h
    exact ⟨hactive, hsame.symm⟩
  · obtain ⟨idx, hfind, hget⟩ := Option.bind_eq_some_iff.mp h
    obtain ⟨hlt, hhandle, _⟩ := List.findIdx?_eq_some_iff_getElem.mp hfind
    rw [List.getElem?_eq_getElem hlt] at hget
    cases hget
    exact ⟨List.getElem_mem hlt, of_decide_eq_true hhandle⟩

theorem Owns.grows (h : b.Owns sys me) (hgrows : b.toFontBindings.Grows sys b'.toFontBindings)
    (hfonts : b'.textFonts = b.textFonts) (hcache : b'.resolveCache = b.resolveCache) : b'.Owns sys me := by
  refine ⟨fun e he => ?_, fun tf htf => ?_, ?_⟩
  · obtain he | hnew := hgrows.paths e he
    · obtain hfailed | ⟨face, hcreate, hget⟩ := h.paths e he
      · exact .inl hfailed
      · exact .inr ⟨face, hcreate, hgrows.gets e.handle face hget⟩
    · exact hnew
  · rw [hfonts] at htf
    exact hgrows.gets _ _ (h.copies tf htf)
  · rw [hfonts, hcache]
    exact h.entries

theorem Owns.textAddFont (h : b.Owns sys me) {handle : BitVec 32} {face : φ}
    (hget : htableGet b.fonts handle = some face) : (b.textAddFont face handle).1.Owns sys me := by
  refine ⟨h.paths, fun tf htf => ?_, h.entries.mono fun e he => ⟨he.1, ?_⟩⟩
  · obtain htf | htf := List.mem_append.mp htf
    · exact h.copies tf htf
    · rw [List.mem_singleton.mp htf]
      exact hget
  · obtain ⟨tf, htf, hhandle⟩ := Option.map_eq_some_iff.mp he.2
    change ((b.textFonts ++ _)[e.activeIdx]?).map _ = _
    rw [getElem?_of_isPrefix (List.prefix_append _ _) htf]
    exact congrArg some hhandle

theorem Owns.textEnsureHbFont (h : b.Owns sys me) (handle : BitVec 32) :
    (b.textEnsureHbFont handle).1.Owns sys me := by
  unfold TextBindings.textEnsureHbFont
  split
  · exact h
  · split
    · exact h
    · split
      · exact h
      · next hget => exact h.textAddFont hget

theorem Owns.textLoadFont (h : b.Owns sys me) (handle : BitVec 32) : (b.textLoadFont handle).Owns sys me := by
  unfold TextBindings.textLoadFont
  split
  · exact h
  · next hget =>
    obtain ⟨hpaths, hcopies, hentries⟩ := h.textAddFont hget
    exact ⟨hpaths, hcopies, hentries⟩

theorem Owns.textSetFont (h : b.Owns sys me) (handle : BitVec 32) : (b.textSetFont handle).Owns sys me := by
  unfold TextBindings.textSetFont
  split
  · obtain ⟨hpaths, hcopies, hentries⟩ := h
    exact ⟨hpaths, hcopies, hentries⟩
  · exact h.textLoadFont handle

section Resolve

variable [DecidableEq π] {activeIdx : ℕ}

theorem Owns.findFont (h : b.Owns sys me) (hready : b.Ready sys (sys.fontSort cp).length) :
    (b.findFont sys cp).1.Owns sys me :=
  h.grows (Grows.findFontForCodepoint hready) rfl rfl

theorem Owns.settled (h : b.Owns sys me) (hready : b.Ready sys (sys.fontSort cp).length)
    (hactive : active ∈ b.textFonts) : b.Settled sys cp active := by
  refine ⟨h.steady hready.room, fun tf hcopy => ?_⟩
  obtain ⟨htf, hhandle⟩ := copyOf_mem (b := (b.findFont sys cp).1) hactive hcopy
  rw [← hhandle, (h.findFont hready).copies tf htf]

theorem Owns.resolveAnew (h : b.Owns sys me) (hready : b.Ready sys (sys.fontSort cp).length) :
    (b.resolveAnew sys cp activeIdx active).1.Owns sys me := by
  have hfind := h.findFont hready
  unfold TextBindings.resolveAnew
  split
  · exact h
  · dsimp only
    split
    · have hensure := hfind.textEnsureHbFont (b.findFont sys cp).2
      split
      · exact hensure
      · split <;> exact hensure
    · exact hfind

omit [DecidableEq π] in
theorem Owns.agrees (h : b.Owns sys me) {e : ResolveEntry ι}
    (hhit : resolveCacheFind b.resolveCache cp active.fontHandle = some e) (hactive : active ∈ b.textFonts)
    {instances : ι → Option (Instance φ)} {inst : Instance φ} (hinst : instances me = some inst)
    (hfonts : inst.textFonts = b.textFonts) : b.Agrees instances active e := by
  intro inst' hinst'
  obtain ⟨hkey, hmaker, hhandle⟩ := h.entries.of_search hhit
  obtain ⟨_, hsame⟩ := of_decide_eq_true hkey
  rw [hmaker, hinst] at hinst'
  cases hinst'
  rw [hfonts]
  obtain ⟨tf, htf, htfhandle⟩ := Option.map_eq_some_iff.mp hhandle
  have hget := h.copies tf (List.mem_of_getElem? htf)
  rw [htfhandle, hsame, h.copies active hactive] at hget
  rw [htf]
  exact ⟨hget.symm, rfl⟩

theorem Owns.resolvable (h : b.Owns sys me) (hready : b.Ready sys (sys.fontSort cp).length)
    (hactive : active ∈ b.textFonts) {instances : ι → Option (Instance φ)} {inst : Instance φ}
    (hinst : instances me = some inst) (hfonts : inst.textFonts = b.textFonts) :
    b.Resolvable sys instances cp active :=
  ⟨fun _ hhit => h.agrees hhit hactive hinst hfonts, fun _ _ => h.settled hready hactive⟩

theorem Owns.textResolve (h : b.Owns sys me) (hready : b.Ready sys (sys.fontSort cp).length)
    (hgrows : ∀ active, b.textFonts[activeIdx]? = some active →
      b.textFonts <+: (b.resolveAnew sys cp activeIdx active).1.textFonts) :
    (b.textResolveFontForCodepoint sys me cp activeIdx).1.Owns sys me := by
  unfold textResolveFontForCodepoint
  split
  · exact h
  · next active hactive =>
    split
    · exact h
    · have hanew : (b.resolveAnew sys cp activeIdx active).1.Owns sys me := h.resolveAnew hready
      obtain ⟨hpaths, hcopies, hentries⟩ := hanew
      refine ⟨hpaths, hcopies, hentries.insert ⟨rfl, ?_⟩⟩
      change ((b.resolveAnew sys cp activeIdx active).1.textFonts[activeIdx]?).map _ = _
      rw [getElem?_of_isPrefix (hgrows active hactive) hactive]
      rfl

def Spares (sys : Typesetting π φ) (b : TextBindings ι π φ) : Call π φ → Prop
  | .fontLoad (some _) => b.fonts.Roomy 1
  | .fontLoadSystem _ => b.fonts.Roomy 1
  | .fontUnload handle => htableGet b.fonts handle = none
  | .findFont cp => b.fonts.Roomy (sys.fontSort cp).length
  | .textResolve cp => b.fonts.Roomy (sys.fontSort cp).length
  | _ => True

theorem Owns.undisturbed (h : b.Owns sys me) (hcoherent : Coherent sys b.pathCache b.cpCache)
    (htable : b.fonts.Sound) {c : Call π φ} (hspares : b.Spares sys c) {instances : ι → Option (Instance φ)}
    {inst : Instance φ} (hinst : instances me = some inst) (hfonts : inst.textFonts = b.textFonts) :
    b.Undisturbed sys instances c := by
  cases c with
  | fontLoad fe => cases fe <;> exact hspares
  | fontLoadSystem path => exact fun _ => hspares
  | fontUnload handle => trivial
  | findFont cp => exact h.steady hspares
  | textLoadFont handle => trivial
  | textSetFont handle => trivial
  | textResolve cp =>
    intro activeIdx active _ hactive
    exact h.resolvable ⟨htable, hspares, hcoherent.failures⟩ (List.mem_of_getElem? hactive) hinst hfonts

theorem Owns.call (h : b.Owns sys me) (hcoherent : Coherent sys b.pathCache b.cpCache) (htable : b.fonts.Sound)
    {c : Call π φ} (hspares : b.Spares sys c) : (b.call sys me c).Owns sys me := by
  cases c with
  | fontLoad fe =>
    cases fe with
    | none => exact h
    | some fe =>
      have hroom : b.fonts.Roomy (0 + 1) := hspares
      have hgrows : b.toFontBindings.Grows sys (b.fontLoad (some fe)).toFontBindings :=
        ⟨fun _ _ hget => htable.get_insert hroom fe hget, fun _ he => .inl he⟩
      exact h.grows hgrows rfl rfl
  | fontLoadSystem path =>
    have hready : b.toFontBindings.Ready sys (0 + 1) := ⟨htable, hspares, hcoherent.failures⟩
    exact h.grows (Grows.load hready path) rfl rfl
  | fontUnload handle =>
    have hnone : htableGet b.fonts handle = none := hspares
    dsimp only [TextBindings.call, TextBindings.fontUnload]
    rw [hnone]
    exact h
  | findFont cp => exact h.findFont ⟨htable, hspares, hcoherent.failures⟩
  | textLoadFont handle => exact h.textLoadFont handle
  | textSetFont handle => exact h.textSetFont handle
  | textResolve cp =>
    have hready : b.toFontBindings.Ready sys (sys.fontSort cp).length := ⟨htable, hspares, hcoherent.failures⟩
    dsimp only [TextBindings.call]
    split
    · exact h
    · refine h.textResolve hready fun active hactive => ?_
      have hsettled := h.settled hready (List.mem_of_getElem? hactive)
      exact (resolveAnew_shows hcoherent htable hactive fun _ => hsettled).2.grows

end Resolve

end TextBindings

namespace Process

variable [DecidableEq π] {p : Process ι π φ}

def Alone (sys : Typesetting π φ) (p : Process ι π φ) : Event ι π φ → Prop
  | .create _ => ∀ j, p.instances j = none
  | .destroy _ => True
  | .call i c => ∀ inst, p.instances i = some inst → (p.bindings inst).Spares sys c

structure Sole (sys : Typesetting π φ) (p : Process ι π φ) : Prop where
  kept : p.Kept sys
  single : ∀ i j inst inst', p.instances i = some inst → p.instances j = some inst' → i = j
  owns : ∀ i inst, p.instances i = some inst → (p.bindings inst).Owns sys i
  clean : (∀ i, p.instances i = none) → p.pathCache = []

theorem Sole.undisturbed (h : p.Sole sys) {e : Event ι π φ} (halone : p.Alone sys e) : p.Undisturbed sys e := by
  cases e with
  | create i => trivial
  | destroy i => trivial
  | call i c =>
    intro inst hinst
    exact (h.owns i inst hinst).undisturbed h.kept.coherent (h.kept.tables i inst hinst) (halone inst hinst) hinst rfl

theorem sole_start : (start : Process ι π φ).Sole sys :=
  ⟨kept_start, fun _ _ _ _ hi _ => absurd hi (Option.some_ne_none _).symm,
    fun _ _ hi => absurd hi (Option.some_ne_none _).symm, fun _ => rfl⟩

variable [DecidableEq ι]

theorem update_eq_some {f : ι → Option (Instance φ)} {i j : ι} {o : Option (Instance φ)} {inst : Instance φ}
    (h : Function.update f i o j = some inst) : j = i ∧ o = some inst ∨ j ≠ i ∧ f j = some inst := by
  rw [Function.update_apply] at h
  split at h
  · exact .inl ⟨‹_›, h⟩
  · exact .inr ⟨‹_›, h⟩

theorem Sole.create (h : p.Sole sys) {i : ι} (hnone : ∀ j, p.instances j = none) :
    (p.next sys (.create i)).Sole sys := by
  have hkept := h.kept.next (h.undisturbed (e := .create i) hnone)
  have hnext : p.next sys (.create i) =
      { p with
        instances := Function.update p.instances i (some ⟨htableInit 8, [], none⟩)
        cpCache := fun _ => none
        resolveCache := fun _ => none } := by
    simp only [Process.next, hnone i]
  rw [hnext] at hkept ⊢
  have hsole {j : ι} {inst : Instance φ}
      (hj : Function.update p.instances i (some ⟨htableInit 8, [], none⟩) j = some inst) :
      j = i ∧ (⟨htableInit 8, [], none⟩ : Instance φ) = inst := by
    obtain ⟨heq, hinst⟩ | ⟨_, hsome⟩ := update_eq_some hj
    · exact ⟨heq, Option.some.inj hinst⟩
    · exact absurd ((hnone j).symm.trans hsome) (Option.some_ne_none inst).symm
  refine ⟨hkept, fun j k _ _ hj hk => (hsole hj).1.trans (hsole hk).1.symm, fun j inst hj => ?_, fun hall => ?_⟩
  · obtain ⟨rfl, rfl⟩ := hsole hj
    refine ⟨fun e he => ?_, fun tf htf => absurd htf List.not_mem_nil, .empty⟩
    rw [bindings, h.clean hnone] at he
    exact absurd he List.not_mem_nil
  · have hsome : Function.update p.instances i (some ⟨htableInit 8, [], none⟩) i = none := hall i
    rw [Function.update_self] at hsome
    cases hsome

theorem Sole.destroy (h : p.Sole sys) (i : ι) : (p.next sys (.destroy i)).Sole sys := by
  have hkept := h.kept.next (h.undisturbed (e := .destroy i) trivial)
  cases hinst : p.instances i with
  | none =>
    simp only [Process.next, hinst] at hkept ⊢
    exact h
  | some inst =>
    simp only [Process.next, hinst] at hkept ⊢
    have hgone {j : ι} {inst' : Instance φ} (hj : Function.update p.instances i none j = some inst') : False := by
      obtain ⟨_, hnone⟩ | ⟨hne, hsome⟩ := update_eq_some hj
      · cases hnone
      · exact hne (h.single j i inst' inst hsome hinst)
    exact ⟨hkept, fun _ _ _ _ hj _ => (hgone hj).elim, fun _ _ hj => (hgone hj).elim, fun _ => rfl⟩

theorem Sole.call (h : p.Sole sys) {i : ι} {c : Call π φ} (halone : p.Alone sys (.call i c)) :
    (p.next sys (.call i c)).Sole sys := by
  have hkept := h.kept.next (h.undisturbed halone)
  cases hinst : p.instances i with
  | none =>
    simp only [Process.next, hinst] at hkept ⊢
    exact h
  | some inst =>
    simp only [Process.next, hinst] at hkept ⊢
    have howns := (h.owns i inst hinst).call h.kept.coherent (h.kept.tables i inst hinst) (halone inst hinst)
    generalize (p.bindings inst).call sys i c = b at hkept howns
    have hsole {j : ι} {inst' : Instance φ} (hj : (p.put i b).instances j = some inst') :
        j = i ∧ (⟨b.fonts, b.textFonts, b.activeFont⟩ : Instance φ) = inst' := by
      obtain ⟨heq, hsome⟩ | ⟨hne, hsome⟩ := update_eq_some hj
      · exact ⟨heq, Option.some.inj hsome⟩
      · exact absurd (h.single j i inst' inst hsome hinst) hne
    refine ⟨hkept, fun j k _ _ hj hk => (hsole hj).1.trans (hsole hk).1.symm, fun j inst' hj => ?_, fun hall => ?_⟩
    · obtain ⟨rfl, rfl⟩ := hsole hj
      exact howns
    · have hsome : Function.update p.instances i (some ⟨b.fonts, b.textFonts, b.activeFont⟩) i = none := hall i
      rw [Function.update_self] at hsome
      cases hsome

theorem Sole.next (h : p.Sole sys) {e : Event ι π φ} (halone : p.Alone sys e) : (p.next sys e).Sole sys := by
  cases e with
  | create i => exact h.create halone
  | destroy i => exact h.destroy i
  | call i c => exact h.call halone

theorem answers_alone (sys : Typesetting π φ) (es : List (Event ι π φ))
    (hes : ∀ xs e ys, es = xs ++ e :: ys → (xs.foldl (Process.next sys) start).Alone sys e) :
    ∀ xs e ys, es = xs ++ e :: ys → (xs.foldl (Process.next sys) start).Answers sys e := by
  intro xs e ys heq
  have hstep : ∀ (p : Process ι π φ) e, p.Sole sys → p.Alone sys e → (p.next sys e).Sole sys :=
    fun _ _ hp hok => hp.next hok
  have hsole := System.holds_along hstep sole_start es hes xs (e :: ys) heq
  exact hsole.kept.answers (hsole.undisturbed (hes xs e ys heq))

end Process

end YumiBrowser.Fonts
