import YumiBrowser.Network.HandshakeFragments

namespace YumiBrowser.Sudp

open Wire Gathering

section Runs

open Reassembly

variable {sent : List Sending} {hs : Option Reassembly} {es : List HsEvent} {e : HsEvent} {out : Byte × List Byte}

theorem innerRecvFragment_cases (hs : Option Reassembly) (pkt : List Byte) (now : BitVec 64) :
    innerRecvFragment hs pkt now = (hs, none) ∨ ∃ h f, hs = some h ∧ Fragment.parse pkt = some f ∧
      innerRecvFragment hs pkt now =
        (some (h.fragReceive f now).1, (h.fragReceive f now).2.map fun msg => (f.msgType, msg)) := by
  unfold innerRecvFragment
  split
  · next h f hf =>
    split
    · exact .inr ⟨h, f, rfl, hf, rfl⟩
    · exact .inl rfl
  · exact .inl rfl

theorem sound_hsNext (hsound : ∀ h ∈ hs, h.Sound) (e : HsEvent) : ∀ h ∈ (hsNext hs e).1, h.Sound := by
  cases e with
  | recv pkt now =>
    rcases innerRecvFragment_cases hs pkt now with heq | ⟨h, f, rfl, -, heq⟩
    · rw [hsNext, heq]
      exact hsound
    · rw [hsNext, heq]
      intro h' hh'
      obtain rfl := Option.some.inj hh'
      exact (hsound h rfl).fragReceive
  | create =>
    intro h hh
    obtain rfl := Option.some.inj hh
    cases hs with
    | none => exact sound_fresh
    | some h => exact hsound h rfl
  | destroy =>
    intro h hh
    cases hh

theorem sound_hsAfter (hsound : ∀ h ∈ hs, h.Sound) (es : List HsEvent) : ∀ h ∈ hsAfter hs es, h.Sound := by
  induction es generalizing hs with
  | nil => exact hsound
  | cons e es ih => exact ih (sound_hsNext hsound e)

def Sending.Sends (s : Sending) (pkt : List Byte) : Prop := ∃ packets, s.fragSend = some packets ∧ pkt ∈ packets

def Unmixed (sent : List Sending) (hs : Option Reassembly) : HsEvent → Prop
  | .recv pkt now => ∀ h ∈ hs, ∀ f ∈ Fragment.parse pkt, h.Stores f now →
      ∃ s ∈ sent, s.data.length ≤ hsBufMax ∧ s.Sends pkt ∧ h.PiecesOf s
  | _ => True

def UnmixedRun (sent : List Sending) : Option Reassembly → List HsEvent → Prop
  | _, [] => True
  | hs, e :: es => Unmixed sent hs e ∧ UnmixedRun sent (hsNext hs e).1 es

theorem Sending.Sends.fragment {s : Sending} {pkt : List Byte} (h : s.Sends pkt) :
    hsFragHdr < s.innerMax ∧ ∃ i < s.fragTotal, Fragment.parse pkt = some (s.fragment i) := by
  obtain ⟨packets, hsend, hmem⟩ := h
  obtain ⟨hmax, -, htotal, rfl⟩ := fragSend_eq_some hsend
  obtain ⟨i, hi, rfl⟩ := List.mem_map.mp hmem
  exact ⟨hmax, i, List.mem_range.mp hi, parse_packet htotal (List.mem_range.mp hi)⟩

theorem hsNext_unmixed (hsound : ∀ h ∈ hs, h.Sound) (hclean : Unmixed sent hs e)
    (hout : (hsNext hs e).2 = some out) : ∃ s ∈ sent, s.fragSend.isSome ∧ out = s.wire := by
  cases e with
  | recv pkt now =>
    rcases innerRecvFragment_cases hs pkt now with heq | ⟨h, f, rfl, hf, heq⟩
    · rw [hsNext, heq] at hout
      cases hout
    · rw [hsNext, heq] at hout
      obtain ⟨msg, hmsg, rfl⟩ := Option.map_eq_some_iff.mp hout
      have hstores := (fragReceive_some (hsound h rfl) hmsg).1
      obtain ⟨s, hs, hlen, hsends, hpieces⟩ := hclean h rfl f hf hstores
      obtain ⟨hmax, i, -, hparse⟩ := hsends.fragment
      obtain rfl := Option.some.inj (hf.symm.trans hparse)
      refine ⟨s, hs, ?_, ?_⟩
      · obtain ⟨packets, hsend, -⟩ := hsends
        rw [hsend]
        rfl
      · rw [fragReceive_pieces (hsound h rfl) hpieces hmax hlen hmsg]
        rfl
  | create => cases hout
  | destroy => cases hout

theorem completions_unmixed (hsound : ∀ h ∈ hs, h.Sound) (hclean : UnmixedRun sent hs es) :
    ∀ out ∈ completions hs es, ∃ s ∈ sent, s.fragSend.isSome ∧ out = s.wire := by
  induction es generalizing hs with
  | nil =>
    intro out hout
    cases hout
  | cons e es ih =>
    obtain ⟨hnow, hrest⟩ := hclean
    intro out hout
    rw [completions, List.mem_append, Option.mem_toList] at hout
    cases hout with
    | inl hout => exact hsNext_unmixed hsound hnow hout
    | inr hout => exact ih (sound_hsNext hsound e) hrest out hout

end Runs

section Counts

open Reassembly

variable {sent : List Sending} {hs : Option Reassembly} {h : Reassembly} {es : List HsEvent} {s : Sending} {i : ℕ}
  {now : BitVec 64}

theorem piecesOf_fragReceive (hs : h.Sound) (hp : h.PiecesOf s) (hi : i < s.fragTotal) :
    (h.fragReceive (s.fragment i) now).1.PiecesOf s := by
  have hcount : h.fragTotal = 0 ∨ s.fragTotal = h.fragTotal := hp.imp_right fun hof => hof.1.symm
  have htotal : (h.begin s.fragTotal now).fragTotal = s.fragTotal := fragTotal_begin hcount
  have hpart : PartOf s.chunk (h.begin s.fragTotal now).frags := by
    rw [frags_begin]
    exact hp.partOf hs
  rw [fragReceive_of_count hi hcount]
  change ((h.begin s.fragTotal now).add i (s.chunk i) now).1.PiecesOf s
  rcases add_cases (h.begin s.fragTotal now) i (s.chunk i) now with ⟨-, heq⟩ | ⟨-, -, heq⟩ | ⟨-, heq⟩
  · rw [heq]
    exact .inl rfl
  · rw [heq]
    exact .inr ⟨htotal, hpart⟩
  · rw [heq]
    split
    · exact .inr ⟨htotal, hpart.update i⟩
    · exact .inl rfl

theorem fragReceive_of_mismatch {f : Fragment} (hne : h.fragTotal ≠ 0) (hcount : f.total ≠ h.fragTotal) :
    h.fragReceive f now = (h, none) := by
  unfold fragReceive
  split
  · rfl
  · exact if_pos ⟨hne, hcount⟩

theorem unmixedRun_of_counts (hlen : ∀ s ∈ sent, s.data.length ≤ hsBufMax)
    (hcounts : ∀ s ∈ sent, ∀ s' ∈ sent, s.fragTotal = s'.fragTotal → s = s') (hsound : ∀ h ∈ hs, h.Sound)
    (hinv : ∀ h ∈ hs, h.fragTotal = 0 ∨ ∃ s ∈ sent, h.PiecesOf s)
    (hes : ∀ pkt now, .recv pkt now ∈ es → ∃ s ∈ sent, s.Sends pkt) : UnmixedRun sent hs es := by
  induction es generalizing hs with
  | nil => trivial
  | cons e es ih =>
    have hrest := fun pkt now hmem => hes pkt now (List.mem_cons_of_mem _ hmem)
    have single : ∀ h ∈ hs, ∀ s ∈ sent, (h.fragTotal = 0 ∨ s.fragTotal = h.fragTotal) → h.PiecesOf s := by
      intro h hh s hs hcount
      rcases hinv h hh with hzero | ⟨s', hs', hzero | hof⟩
      · exact .inl hzero
      · exact .inl hzero
      · rcases hcount with hzero | hcount
        · exact .inl hzero
        · rw [hcounts s hs s' hs' (hcount.trans hof.1)]
          exact .inr hof
    refine ⟨?_, ih (sound_hsNext hsound e) ?_ hrest⟩
    · cases e with
      | recv pkt now =>
        intro h hh f hf hstores
        obtain ⟨s, hs, hsends⟩ := hes pkt now List.mem_cons_self
        obtain ⟨-, i, -, hparse⟩ := hsends.fragment
        obtain rfl := Option.some.inj (hf.symm.trans hparse)
        exact ⟨s, hs, hlen s hs, hsends, single h hh s hs hstores.count⟩
      | create => trivial
      | destroy => trivial
    · cases e with
      | recv pkt now =>
        rcases innerRecvFragment_cases hs pkt now with heq | ⟨h, f, rfl, hf, heq⟩
        · rw [hsNext, heq]
          exact hinv
        · rw [hsNext, heq]
          intro h' hh'
          obtain rfl := Option.some.inj hh'
          obtain ⟨s, hs, hsends⟩ := hes pkt now List.mem_cons_self
          obtain ⟨-, i, hi, hparse⟩ := hsends.fragment
          obtain rfl := Option.some.inj (hf.symm.trans hparse)
          by_cases hcount : h.fragTotal = 0 ∨ s.fragTotal = h.fragTotal
          · exact .inr ⟨s, hs, piecesOf_fragReceive (hsound h rfl) (single h rfl s hs hcount) hi⟩
          · obtain ⟨hne, hdiffer⟩ := not_or.mp hcount
            rw [fragReceive_of_mismatch hne hdiffer]
            exact hinv h rfl
      | create =>
        intro h hh
        obtain rfl := Option.some.inj hh
        cases hs with
        | none => exact .inl rfl
        | some h => exact hinv h rfl
      | destroy =>
        intro h hh
        cases hh

end Counts

section Permutations

open Reassembly

variable {h : Reassembly} {s : Sending} {packets : List (List Byte)} {order : List (ℕ × BitVec 64)}

def Sending.arrivals (s : Sending) (order : List (ℕ × BitVec 64)) : List HsEvent :=
  order.map fun p => .recv (s.packet p.1) p.2

/-- None comes more than five seconds after the first. -/
def Timely : List (ℕ × BitVec 64) → Prop
  | [] => True
  | (_, start) :: rest => start = 0 ∨ ∀ p ∈ rest, (p.2 - start).toNat ≤ 5 * 1000000

theorem completions_arrival (htotal : s.fragTotal ≤ 255) {i : ℕ} (hi : i < s.fragTotal) (now : BitVec 64) :
    completions (some h) (s.arrivals ((i, now) :: order)) =
      ((h.fragReceive (s.fragment i) now).2.map fun msg => (s.msgType, msg)).toList ++
        completions (some (h.fragReceive (s.fragment i) now).1) (s.arrivals order) := by
  have hrecv : hsNext (some h) (.recv (s.packet i) now) = (some (h.fragReceive (s.fragment i) now).1,
      (h.fragReceive (s.fragment i) now).2.map fun msg => (s.msgType, msg)) := by
    simp only [hsNext, innerRecvFragment, Sending.parse_packet htotal hi]
    exact if_pos rfl
  change (hsNext (some h) (.recv (s.packet i) now)).2.toList ++ completions (hsNext _ _).1 (s.arrivals order) = _
  rw [hrecv]

theorem completions_few (htotal : s.fragTotal ≤ 255) (hs : h.Sound)
    (hcount : h.fragTotal = 0 ∨ s.fragTotal = h.fragTotal) (horder : ∀ p ∈ order, p.1 < s.fragTotal)
    (hfew : order.length + h.fragReceived < s.fragTotal) : completions (some h) (s.arrivals order) = [] := by
  induction order generalizing h with
  | nil => rfl
  | cons p order ih =>
    obtain ⟨i, now⟩ := p
    have hi : i < s.fragTotal := horder (i, now) List.mem_cons_self
    have hrest := fun q hq => horder q (List.mem_cons_of_mem _ hq)
    have hbegin : (h.begin s.fragTotal now).Sound := hs.begin (by omega)
    have hnow : (h.begin s.fragTotal now).fragTotal = s.fragTotal := fragTotal_begin hcount
    have hsame : (h.begin s.fragTotal now).fragReceived = h.fragReceived := by
      unfold Reassembly.begin
      split <;> rfl
    have hnext : ((h.begin s.fragTotal now).add i (s.chunk i) now).1.Sound := hbegin.add (hi.trans_eq hnow.symm)
    rw [List.length_cons] at hfew
    rw [completions_arrival htotal hi, fragReceive_of_count hi hcount]
    change (((h.begin s.fragTotal now).add i (s.chunk i) now).2.map _).toList ++
      completions (some ((h.begin s.fragTotal now).add i (s.chunk i) now).1) _ = _
    rcases add_cases (h.begin s.fragTotal now) i (s.chunk i) now with ⟨-, heq⟩ | ⟨-, -, heq⟩ | ⟨-, heq⟩
    · rw [heq] at hnext ⊢
      exact ih hnext (.inl rfl) hrest (by change _ + 0 < _; omega)
    · rw [heq] at hnext ⊢
      exact ih hnext (.inr hnow.symm) hrest (by change _ + (h.begin s.fragTotal now).fragReceived < _; omega)
    · rw [if_pos (by omega)] at heq
      rw [heq] at hnext ⊢
      exact ih hnext (.inr hnow.symm) hrest (by change _ + ((h.begin s.fragTotal now).fragReceived + 1) < _; omega)

theorem add_last (hmax : hsFragHdr < s.innerMax) (hlen : s.data.length ≤ hsBufMax) (hs : h.Sound)
    (hnow : h.fragTotal = s.fragTotal) (hpart : PartOf s.chunk h.frags) {i : ℕ} {now : BitVec 64}
    (hi : i < s.fragTotal) (hfree : h.frags i = none) (hlast : h.fragReceived + 1 = s.fragTotal)
    (heq : h.add i (s.chunk i) now = (h.store i (s.chunk i)).finish) :
    h.add i (s.chunk i) now = ((h.store i (s.chunk i)).reset, some s.data) := by
  have hcard := @card_store _ _ (s.chunk i) hs (hi.trans_eq hnow.symm) hfree
  have hall : ∀ j < s.fragTotal, ((h.store i (s.chunk i)).frags j).isSome := by
    intro j hj
    rw [← hnow] at hj
    exact isSome_of_card (hcard.trans (by omega)) hj
  have hjoined : joined (h.store i (s.chunk i)).frags h.fragTotal = s.data := by
    rw [hnow]
    exact joined_pieces hall (hpart.update i) hmax hlen
  rw [heq, finish]
  change (_, if hsBufMax < (joined (h.store i (s.chunk i)).frags h.fragTotal).length then none
    else some (joined (h.store i (s.chunk i)).frags h.fragTotal)) = _
  rw [hjoined, if_neg (Nat.not_lt.mpr hlen)]

theorem completions_missing (hmax : hsFragHdr < s.innerMax) (htotal : s.fragTotal ≤ 255)
    (hlen : s.data.length ≤ hsBufMax) (hs : h.Sound) (hnow : h.fragTotal = s.fragTotal)
    (hpart : PartOf s.chunk h.frags) (hnodup : (order.map Prod.fst).Nodup)
    (hlacks : ∀ p ∈ order, p.1 < s.fragTotal ∧ h.frags p.1 = none)
    (hcount : order.length + h.fragReceived = s.fragTotal) (hpos : 0 < s.fragTotal) :
    ((∀ p ∈ order, h.late p.2 = false) → completions (some h) (s.arrivals order) = [s.wire]) ∧
    ((∃ p ∈ order, h.late p.2 = true) → completions (some h) (s.arrivals order) = []) := by
  induction order generalizing h with
  | nil =>
    have hmissing := hs.missing (by omega)
    rw [List.length_nil] at hcount
    omega
  | cons p order ih =>
    obtain ⟨i, now⟩ := p
    obtain ⟨hi, hfree⟩ := hlacks (i, now) List.mem_cons_self
    have hrest := fun q hq => hlacks q (List.mem_cons_of_mem _ hq)
    have hsize : (s.chunk i).length ≤ hsBufMax := by
      unfold Sending.chunk
      rw [List.length_take, List.length_drop]
      omega
    have hsame : h.begin s.fragTotal now = h := begin_of_ne (by omega)
    have hstep : h.fragReceive (s.fragment i) now = h.add i (s.chunk i) now := by
      rw [fragReceive_of_count hi (.inr hnow.symm)]
      change (h.begin s.fragTotal now).add i (s.chunk i) now = _
      rw [hsame]
    rw [List.map_cons, List.nodup_cons] at hnodup
    rw [List.length_cons] at hcount
    rw [completions_arrival htotal hi]
    rcases add_cases h i (s.chunk i) now with ⟨hlate, heq⟩ | ⟨-, hbig, -⟩ | ⟨htakes, heq⟩
    · refine ⟨fun hall => ?_, fun _ => ?_⟩
      · cases hlate.symm.trans (hall (i, now) List.mem_cons_self)
      · rw [hstep, heq]
        exact completions_few htotal (sound_reset h 0) (.inl rfl) (fun q hq => (hrest q hq).1)
          (by change _ + 0 < _; omega)
    · exact absurd (hbig hfree) (Nat.not_lt.mpr hsize)
    · have hnext : (h.add i (s.chunk i) now).1.Sound := hs.add (hi.trans_eq hnow.symm)
      by_cases hmore : h.fragReceived + 1 < h.fragTotal
      · rw [if_pos hmore] at heq
        rw [heq] at hnext
        rw [hstep, heq]
        have hlacks' : ∀ q ∈ order, q.1 < s.fragTotal ∧ (h.store i (s.chunk i)).frags q.1 = none := by
          intro q hq
          have hne : q.1 ≠ i := fun hqi => hnodup.1 (List.mem_map.mpr ⟨q, hq, hqi⟩)
          refine ⟨(hrest q hq).1, ?_⟩
          change Function.update h.frags i _ q.1 = none
          rw [Function.update_of_ne hne]
          exact (hrest q hq).2
        obtain ⟨hall, hsome⟩ := ih hnext hnow (hpart.update i) hnodup.2 hlacks'
          (by change _ + (h.fragReceived + 1) = _; omega)
        refine ⟨fun hin => hall fun q hq => hin q (List.mem_cons_of_mem _ hq), fun hlate => hsome ?_⟩
        obtain ⟨q, hq, hqlate⟩ := hlate
        cases List.mem_cons.mp hq with
        | inl hhead =>
          rw [hhead] at hqlate
          cases htakes.inTime.symm.trans hqlate
        | inr hq => exact ⟨q, hq, hqlate⟩
      · have hnil : order = [] := List.eq_nil_of_length_eq_zero (by omega)
        subst hnil
        rw [if_neg hmore] at heq
        have hfinish := add_last hmax hlen hs hnow hpart hi hfree (by omega) heq
        rw [hstep, hfinish]
        refine ⟨fun _ => rfl, fun hlate => ?_⟩
        obtain ⟨q, hq, hqlate⟩ := hlate
        obtain rfl := List.mem_singleton.mp hq
        cases htakes.inTime.symm.trans hqlate

theorem completions_le {hs : Option Reassembly} (hsound : ∀ h ∈ hs, h.Sound) (es : List HsEvent) :
    ∀ out ∈ completions hs es, out.2.length ≤ hsBufMax := by
  induction es generalizing hs with
  | nil =>
    intro out hout
    cases hout
  | cons e es ih =>
    intro out hout
    rw [completions, List.mem_append, Option.mem_toList] at hout
    cases hout with
    | inr hout => exact ih (sound_hsNext hsound e) out hout
    | inl hout =>
      cases e with
      | recv pkt now =>
        rcases innerRecvFragment_cases hs pkt now with heq | ⟨h, f, rfl, -, heq⟩
        · rw [hsNext, heq] at hout
          cases hout
        · rw [hsNext, heq] at hout
          obtain ⟨msg, hmsg, rfl⟩ := Option.map_eq_some_iff.mp hout
          exact (fragReceive_some (hsound h rfl) hmsg).2.2.2
      | create => cases hout
      | destroy => cases hout

theorem timely_iff {i : ℕ} {start : BitVec 64} (hidle : h.fragTotal = 0) (total : ℕ) :
    Timely ((i, start) :: order) ↔ ∀ p ∈ (i, start) :: order, (h.begin total start).late p.2 = false := by
  rw [begin_of_eq hidle]
  simp only [Timely, late, List.mem_cons, forall_eq_or_imp, decide_eq_false_iff_not, BitVec.sub_self, not_and,
    Nat.not_lt]
  constructor
  · intro htimely
    refine ⟨fun _ => Nat.zero_le _, fun p hp hne => ?_⟩
    exact htimely.resolve_left hne p hp
  · intro hall
    by_cases hzero : start = 0
    · exact .inl hzero
    · exact .inr fun p hp => hall.2 p hp hzero

theorem completions_order_iff (hsend : s.fragSend = some packets) (hs : h.Sound) (hidle : h.fragTotal = 0)
    (hperm : (order.map Prod.fst).Perm (List.range s.fragTotal)) :
    completions (some h) (s.arrivals order) = [s.wire] ↔ s.data.length ≤ hsBufMax ∧ Timely order := by
  obtain ⟨hmax, hpos, htotal, -⟩ := Sending.fragSend_eq_some hsend
  have hlength : order.length = s.fragTotal := by simpa using hperm.length_eq
  have hindex : ∀ p ∈ order, p.1 < s.fragTotal := by
    intro p hp
    exact List.mem_range.mp (hperm.mem_iff.mp (List.mem_map_of_mem hp))
  cases order with
  | nil =>
    rw [List.length_nil] at hlength
    omega
  | cons p order =>
    obtain ⟨i, start⟩ := p
    have hi := hindex (i, start) List.mem_cons_self
    have hbegin : (h.begin s.fragTotal start).Sound := hs.begin hpos
    have hnow : (h.begin s.fragTotal start).fragTotal = s.fragTotal := fragTotal_begin (.inl hidle)
    have hnone : ∀ j, (h.begin s.fragTotal start).frags j = none := by
      rw [frags_begin]
      exact hs.frags_none hidle
    have hreceived : (h.begin s.fragTotal start).fragReceived = 0 := by
      rw [hbegin.received, held_empty hnone, Finset.card_empty]
    have hsame : completions (some h) (s.arrivals ((i, start) :: order)) =
        completions (some (h.begin s.fragTotal start)) (s.arrivals ((i, start) :: order)) := by
      rw [completions_arrival htotal hi, completions_arrival htotal hi, fragReceive_of_count hi (.inl hidle),
        fragReceive_of_count hi (.inr hnow.symm)]
      change _ = Option.toList (Option.map _ (((h.begin s.fragTotal start).begin s.fragTotal start).add i _ _).2) ++
        completions (some (((h.begin s.fragTotal start).begin s.fragTotal start).add i _ _).1) _
      rw [@begin_of_ne (h.begin s.fragTotal start) _ _ (by omega)]
      rfl
    have hpart : PartOf s.chunk (h.begin s.fragTotal start).frags := by
      intro j a ha
      rw [hnone j] at ha
      cases ha
    have hmissing := fun hlen => completions_missing hmax htotal hlen hbegin hnow hpart
      (hperm.nodup_iff.mpr List.nodup_range) (fun p hp => ⟨hindex p hp, hnone p.1⟩) (by omega) hpos
    rw [hsame, timely_iff hidle s.fragTotal]
    constructor
    · intro hwire
      have hlen : s.data.length ≤ hsBufMax := by
        refine completions_le (fun h' hh' => ?_) _ s.wire (hwire ▸ List.mem_singleton_self _)
        obtain rfl := Option.some.inj hh'
        exact hbegin
      refine ⟨hlen, fun p hp => ?_⟩
      by_contra hlate
      have hnil := (hmissing hlen).2 ⟨p, hp, Bool.eq_true_of_not_eq_false hlate⟩
      rw [hwire] at hnil
      cases hnil
    · intro hboth
      exact (hmissing hboth.1).1 hboth.2

end Permutations

section Intact

open Reassembly

/-- Whatever is put together while no message's fragments meet another's is a message that was sent, and
a message whose fragments find the buffer empty is put together once. -/
theorem fragments_intact (sent : List Sending) (es : List HsEvent) :
    (UnmixedRun sent (some .fresh) es →
      ∀ out ∈ completions (some .fresh) es, ∃ s ∈ sent, s.fragSend.isSome ∧ out = s.wire) ∧
    ∀ (h : Reassembly) (s : Sending) (packets : List (List Byte)) (order : List (ℕ × BitVec 64)),
      hsAfter (some .fresh) es = some h → h.fragTotal = 0 → s.fragSend = some packets →
      (order.map Prod.fst).Perm (List.range s.fragTotal) →
      (completions (some h) (s.arrivals order) = [s.wire] ↔ s.data.length ≤ hsBufMax ∧ Timely order) := by
  have hfresh : ∀ h ∈ some Reassembly.fresh, h.Sound := by
    intro h hh
    obtain rfl := Option.some.inj hh
    exact sound_fresh
  refine ⟨completions_unmixed hfresh, fun h s packets order hafter hidle hsend hperm => ?_⟩
  exact completions_order_iff hsend (sound_hsAfter hfresh es h hafter) hidle hperm

/-- A HELLO without a FrodoKEM key, all of whose bytes are `b`, over a link of the smallest MTU. -/
def plainHello (b : Byte) : Sending where
  innerMax := 1078
  msgType := 1
  data := List.replicate 1735 b

theorem plainHello_fragTotal (b : Byte) : (plainHello b).fragTotal = 2 := by
  simp only [Sending.fragTotal, Sending.fragDataMax, plainHello, List.length_replicate]
  rfl

theorem plainHello_sends (b : Byte) :
    (plainHello b).fragSend = some [(plainHello b).packet 0, (plainHello b).packet 1] := by
  unfold Sending.fragSend
  rw [plainHello_fragTotal]
  rfl

theorem fragments_intact_reversed :
    (∀ out ∈ completions (some .fresh) ((plainHello 0).arrivals [(1, 5), (0, 6)]),
      ∃ s ∈ [plainHello 0], s.fragSend.isSome ∧ out = s.wire) ∧
    completions (some .fresh) ((plainHello 0).arrivals [(1, 5), (0, 6)]) = [(plainHello 0).wire] := by
  have hlen : (plainHello 0).data.length ≤ hsBufMax := by
    rw [plainHello, List.length_replicate]
    decide
  have hsends : ∀ pkt now, HsEvent.recv pkt now ∈ (plainHello 0).arrivals [(1, 5), (0, 6)] →
      ∃ s ∈ [plainHello 0], s.Sends pkt := by
    intro pkt now hmem
    refine ⟨_, List.mem_singleton_self _, _, plainHello_sends 0, ?_⟩
    simp only [Sending.arrivals, List.map_cons, List.map_nil, List.mem_cons, HsEvent.recv.injEq, List.not_mem_nil,
      or_false] at hmem ⊢
    exact hmem.elim (fun h => .inr h.1) fun h => .inl h.1
  have hperm : (([(1, 5), (0, 6)] : List (ℕ × BitVec 64)).map Prod.fst).Perm
      (List.range (plainHello 0).fragTotal) := by
    rw [plainHello_fragTotal]
    decide
  have hunmixed : UnmixedRun [plainHello 0] (some .fresh) ((plainHello 0).arrivals [(1, 5), (0, 6)]) := by
    refine unmixedRun_of_counts ?_ ?_ ?_ ?_ hsends
    · intro s hs
      obtain rfl := List.mem_singleton.mp hs
      exact hlen
    · intro s hs s' hs' _
      rw [List.mem_singleton.mp hs, List.mem_singleton.mp hs']
    · intro h hh
      obtain rfl := Option.some.inj hh
      exact sound_fresh
    · intro h hh
      obtain rfl := Option.some.inj hh
      exact .inl rfl
  refine ⟨(fragments_intact _ _).1 hunmixed, ?_⟩
  refine ((fragments_intact [] []).2 _ _ _ _ rfl rfl (plainHello_sends 0) hperm).mpr ⟨hlen, ?_⟩
  exact .inr (by decide)

theorem hellos_mixed :
    ¬ ∀ (sent : List Sending) (es : List HsEvent),
      (∀ pkt now, .recv pkt now ∈ es → ∃ s ∈ sent, s.Sends pkt) →
      (∀ out ∈ completions (some .fresh) es, ∃ s ∈ sent, s.fragSend.isSome ∧ out = s.wire) ∧
      ∀ s ∈ sent, ∀ (packets : List (List Byte)) (order : List (ℕ × BitVec 64)), s.fragSend = some packets →
        (order.map Prod.fst).Perm (List.range s.fragTotal) →
        completions (some .fresh) (s.arrivals order) = [s.wire] := by
  intro h
  have hsends : ∀ pkt now,
      HsEvent.recv pkt now ∈ [.recv ((plainHello 0).packet 0) 1, .recv ((plainHello 1).packet 1) 2] →
      ∃ s ∈ [plainHello 0, plainHello 1], s.Sends pkt := by
    intro pkt now hmem
    simp only [List.mem_cons, HsEvent.recv.injEq, List.not_mem_nil, or_false] at hmem
    rcases hmem with ⟨rfl, -⟩ | ⟨rfl, -⟩
    · exact ⟨_, List.mem_cons_self, _, plainHello_sends 0, List.mem_cons_self⟩
    · exact ⟨_, List.mem_cons_of_mem _ List.mem_cons_self, _, plainHello_sends 1,
        List.mem_cons_of_mem _ List.mem_cons_self⟩
  have hmixed : (1, List.replicate 1070 0 ++ List.replicate 665 1) ∈ completions (some .fresh)
      [.recv ((plainHello 0).packet 0) 1, .recv ((plainHello 1).packet 1) 2] := by
    decide +kernel
  obtain ⟨s, hs, -, hwire⟩ := (h _ _ hsends).1 _ hmixed
  have hdata : (List.replicate 1070 0 ++ List.replicate 665 1 : List Byte) = s.data := congrArg Prod.snd hwire
  rcases List.mem_pair.mp hs with rfl | rfl
  · exact absurd (congrArg List.getLast? hdata) (by decide +kernel)
  · exact absurd (congrArg List.head? hdata) (by decide +kernel)

end Intact

end YumiBrowser.Sudp
