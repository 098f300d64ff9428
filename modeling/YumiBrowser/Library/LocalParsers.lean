import YumiBrowser.Library.ByteCodec

namespace Wire

section Readers

variable {α β : Type}

/-- A reader looks at no more than it takes. -/
def Reader.Local (r : Reader α) : Prop :=
  ∀ s a rest, r.run s = some (a, rest) → ∃ w, s = w ++ rest ∧ ∀ rest', r.run (w ++ rest') = some (a, rest')

theorem local_pure (a : α) : Reader.Local (pure a : Reader α) := by
  intro s b rest h
  cases h
  exact ⟨[], rfl, fun _ => rfl⟩

theorem local_failure : Reader.Local (failure : Reader α) := by
  intro s a rest h
  cases h

theorem Reader.Local.bind {r : Reader α} {f : α → Reader β} (hr : r.Local) (hf : ∀ a, (f a).Local) :
    (r >>= f).Local := by
  intro s b rest h
  rw [StateT.run_bind] at h
  obtain ⟨⟨a, mid⟩, hfirst, hsecond⟩ := Option.bind_eq_some_iff.mp h
  obtain ⟨w, rfl, hw⟩ := hr _ _ _ hfirst
  obtain ⟨w', rfl, hw'⟩ := hf a _ _ _ hsecond
  refine ⟨w ++ w', (List.append_assoc ..).symm, fun rest' => ?_⟩
  rw [List.append_assoc, run_bind_of f (hw (w' ++ rest'))]
  exact hw' rest'

theorem readBytes_eq_some {n : ℕ} {s : List Byte} {b : Bytes n} {rest : List Byte}
    (h : (readBytes n).run s = some (b, rest)) : s = b.val ++ rest := by
  rw [StateT.run, readBytes] at h
  split at h
  · obtain ⟨rfl, rfl⟩ := Prod.mk.inj (Option.some.inj h)
    exact (List.take_append_drop n s).symm
  · cases h

theorem local_readBytes (n : ℕ) : (readBytes n).Local := by
  intro s b rest h
  exact ⟨b.val, readBytes_eq_some h, readBytes_append b⟩

theorem local_readLe (n w : ℕ) : (readLe n w).Local := (local_readBytes n).bind fun _ => local_pure _

theorem local_readStr (cap : ℕ) : (readStr cap).Local := by
  refine (local_readLe 4 32).bind fun slen => ?_
  split
  · exact (local_readBytes _).bind fun _ => local_pure _
  · exact local_failure

theorem local_readMany {r : Reader α} (hr : r.Local) (n : ℕ) : (readMany r n).Local := by
  induction n with
  | zero => exact local_pure _
  | succ n ih => exact hr.bind fun _ => ih.bind fun _ => local_pure _

end Readers

section Parsers

variable {ε α β : Type}

def Parser.Local (r : Parser ε α) : Prop :=
  ∀ s a rest, r.run s = .ok (a, rest) → ∃ w, s = w ++ rest ∧ ∀ rest', r.run (w ++ rest') = .ok (a, rest')

theorem Reader.Local.orThrow {r : Reader α} (hr : r.Local) (e : ε) : (orThrow e r).Local := by
  intro s a rest h
  obtain ⟨w, rfl, hw⟩ := hr _ _ _ (orThrow_eq_ok.mp h)
  exact ⟨w, rfl, fun rest' => orThrow_eq_ok.mpr (hw rest')⟩

theorem Parser.local_pure (a : α) : Parser.Local (pure a : Parser ε α) := by
  intro s b rest h
  cases h
  exact ⟨[], rfl, fun _ => rfl⟩

theorem Parser.local_throw (e : ε) : Parser.Local (throw e : Parser ε α) := by
  intro s a rest h
  cases h

theorem Parser.Local.bind {r : Parser ε α} {f : α → Parser ε β} (hr : r.Local) (hf : ∀ a, (f a).Local) :
    (r >>= f).Local := by
  intro s b rest h
  rw [StateT.run_bind] at h
  cases hfirst : r.run s with
  | error e =>
    rw [hfirst] at h
    cases h
  | ok x =>
    rw [hfirst] at h
    obtain ⟨w, rfl, hw⟩ := hr _ _ _ hfirst
    obtain ⟨w', hmid, hw'⟩ := hf x.1 _ _ _ h
    refine ⟨w ++ w', ?_, fun rest' => ?_⟩
    · rw [hmid, List.append_assoc]
    · rw [List.append_assoc, StateT.run_bind, hw (w' ++ rest')]
      exact hw' rest'

end Parsers

end Wire
