import YumiBrowser.Network.Deadline
import YumiBrowser.Network.SessionInvariant

namespace YumiBrowser.Sudp

open Wire Ideal Transition
open YumiBrowser.Group (Registrar Identity PeerId PublicKey EpochKey epochGetCurrent)

variable {ι : Type}

section Logs

structure SameTraffic (s t : World ι) : Prop where
  wire : t.wire = s.wire
  held : t.held = s.held
  sent : t.sent = s.sent
  received : t.received = s.received

theorem SameTraffic.trans {s t u : World ι} (h : SameTraffic s t) (h' : SameTraffic t u) :
    SameTraffic s u :=
  ⟨h'.wire.trans h.wire, h'.held.trans h.held, h'.sent.trans h.sent, h'.received.trans h.received⟩

variable [DecidableEq ι]

theorem signed_log (i : ι) (s : World ι) (out : Output ι) :
    signature ∈ (s.log i out).signed ↔ out = .signed signature ∨ signature ∈ s.signed := by
  cases out with
  | state new => cases new <;> simp [World.log]
  | signed own => simp [World.log, eq_comm]
  | _ => simp [World.log]

theorem signed_absorb (s : World ι) (i : ι) (o : Outcome ι) :
    signature ∈ (s.absorb i o).signed ↔ .signed signature ∈ o.2 ∨ signature ∈ s.signed := by
  have hlogs : ∀ (outs : List (Output ι)) (t : World ι),
      signature ∈ (outs.foldl (World.log i) t).signed ↔ .signed signature ∈ outs ∨ signature ∈ t.signed := by
    intro outs
    induction outs with
    | nil => simp
    | cons out outs ih =>
      intro t
      rw [List.foldl_cons, ih, signed_log, List.mem_cons, eq_comm (a := Output.signed signature)]
      tauto
  exact hlogs o.2 _

theorem log_plain (i : ι) (s : World ι) {out : Output ι} (h : out.Plain) :
    (s.log i out).established = s.established ∧ SameTraffic s (s.log i out) := by
  cases out with
  | state new =>
    cases new with
    | established => exact absurd rfl h
    | _ => exact ⟨rfl, rfl, rfl, rfl, rfl⟩
  | queued payload reliable => exact h.elim
  | received channel data reliable => exact h.elim
  | _ => exact ⟨rfl, rfl, rfl, rfl, rfl⟩

theorem absorb_plain (s : World ι) (i : ι) {o : Outcome ι} (h : ∀ out ∈ o.2, out.Plain) :
    (s.absorb i o).established = s.established ∧ SameTraffic s (s.absorb i o) := by
  have hlogs : ∀ (outs : List (Output ι)) (t : World ι), (∀ out ∈ outs, out.Plain) →
      (outs.foldl (World.log i) t).established = t.established ∧
        SameTraffic t (outs.foldl (World.log i) t) := by
    intro outs
    induction outs with
    | nil => exact fun t _ => ⟨rfl, rfl, rfl, rfl, rfl⟩
    | cons out outs ih =>
      intro t hplain
      obtain ⟨hest, htraffic⟩ := log_plain i t (hplain out (List.mem_cons_self ..))
      obtain ⟨hest', htraffic'⟩ := ih (t.log i out) fun o ho => hplain o (List.mem_cons_of_mem _ ho)
      exact ⟨hest'.trans hest, htraffic.trans htraffic'⟩
  obtain ⟨hest, htraffic⟩ := hlogs o.2 { s with client := Function.update s.client i o.1 } h
  exact ⟨hest, htraffic.wire, htraffic.held, htraffic.sent, htraffic.received⟩

theorem absorb_establishes (s : World ι) (i : ι) {o : Outcome ι} (h : Establishes signature o.2) :
    (s.absorb i o).established = Function.update s.established i (some signature) ∧
      SameTraffic s (s.absorb i o) := by
  have hverified : Function.update s.verified i (some signature) i = some signature :=
    Function.update_self ..
  unfold World.absorb
  generalize o.2 = outs at h
  cases h with
  | confirm =>
    refine ⟨?_, rfl, rfl, rfl, rfl⟩
    simp only [List.foldl_cons, List.foldl_nil, World.log, hverified]
  | response own m =>
    refine ⟨?_, rfl, rfl, rfl, rfl⟩
    simp only [List.foldl_cons, List.foldl_nil, World.log, hverified]

end Logs

section Invariant

variable (ident : ι → Identity)

def Client.HasKey (c : Client ι) (key : Key ι) (initDirection : Bool) : Prop :=
  c.transportKeyReady = true ∧ ∃ seed gen, key = .gen seed gen initDirection ∧ seed.root? = c.root?

structure World.Sealed (s : World ι) (j : ι) (d : Datagram ι) : Prop where
  key : (s.client j).HasKey d.key (s.client j).isInitiator
  data : IsData d.packet →
    ∃ x ∈ s.sent, x.sender = j ∧ x.payload.drop 4 = (payloadOf d.packet).drop 4

structure World.Inv [DecidableEq ι] (s : World ι) : Prop where
  client : ∀ i, (s.client i).Inv ident i (s.established i)
  apart : ∀ i, (s.client i).Apart
  signed : ∀ signature ∈ s.signed, ∃ i, SignedBy ident i signature
  peer : ∀ i, ∀ signature ∈ s.established i,
    Presentable (· ∈ s.signed) (IsHonest ident) signature
  sent : ∀ x ∈ s.sent, (s.client x.sender).transportKeyReady = true ∧
    x.session = (s.client x.sender).root?
  wire : ∀ d ∈ s.wire, d.key.Known ∨ ∃ j, s.Sealed j d
  held : ∀ x ∈ s.held, x.2 ∈ s.wire ∧ ((∃ k, x.2.key = .epoch k) ∨
    (s.client x.1).HasKey x.2.key (!(s.client x.1).isInitiator))

structure Grows (s t : World ι) : Prop where
  steady : ∀ j, Steady (s.client j) (t.client j)
  sent : ∀ x ∈ s.sent, x ∈ t.sent

structure Extends [DecidableEq ι] (s t : World ι) : Prop where
  inv : t.Inv ident
  grows : Grows s t
  received : t.received = s.received

variable {ident}

theorem Steady.trans {c c' c'' : Client ι} (h : Steady c c') (h' : Steady c' c'') : Steady c c'' := by
  intro hready
  obtain ⟨hready', hroot, hrole⟩ := h hready
  obtain ⟨hready'', hroot', hrole'⟩ := h' hready'
  exact ⟨hready'', hroot'.trans hroot, hrole'.trans hrole⟩

theorem Steady.hasKey {c c' : Client ι} (h : Steady c c') {key : Key ι} (d : Bool) :
    c.HasKey key (d ^^ c.isInitiator) → c'.HasKey key (d ^^ c'.isInitiator) := by
  rintro ⟨hready, seed, gen, hkey, hroot⟩
  obtain ⟨hready', hroot', hrole⟩ := h hready
  exact ⟨hready', seed, gen, by rw [hrole]; exact hkey, hroot.trans hroot'.symm⟩

theorem Grows.trans {s t u : World ι} (h : Grows s t) (h' : Grows t u) : Grows s u where
  steady j := (h.steady j).trans (h'.steady j)
  sent x hx := h'.sent x (h.sent x hx)

theorem Grows.sealed {s t : World ι} (h : Grows s t) (hd : s.Sealed j d) : t.Sealed j d where
  key := by simpa using (h.steady j).hasKey false (by simpa using hd.key)
  data hdata := by
    obtain ⟨x, hx, hsender, hpayload⟩ := hd.data hdata
    exact ⟨x, h.sent x hx, hsender, hpayload⟩

theorem Grows.opened {s t : World ι} (h : Grows s t) {key : Key ι} :
    (s.client i).HasKey key (!(s.client i).isInitiator) →
      (t.client i).HasKey key (!(t.client i).isInitiator) := by
  simpa using (h.steady i).hasKey true

theorem Extends.trans [DecidableEq ι] {s t u : World ι} (h : Extends ident s t) (h' : Extends ident t u) :
    Extends ident s u := ⟨h'.inv, h.grows.trans h'.grows, h'.received.trans h.received⟩

end Invariant

section Steps

variable [DecidableEq ι] {ident : ι → Identity} {s : World ι}

theorem Extends.refl (h : s.Inv ident) : Extends ident s s :=
  ⟨h, ⟨fun _ => .same rfl rfl rfl, fun _ hx => hx⟩, rfl⟩

theorem steady_absorb {i : ι} {o : Outcome ι} (h : Steady (s.client i) o.1) (j : ι) :
    Steady (s.client j) ((s.absorb i o).client j) := by
  rw [client_absorb, Function.update_apply]
  split
  · next hj => exact hj ▸ h
  · exact .same rfl rfl rfl

theorem Advances.absorbed {i : ι} {o : Outcome ι} {established : Option (Sig ι)}
    (ha : Advances ident i (s.client i) (s.established i) o established) :
    (s.absorb i o).established = Function.update s.established i established ∧
      SameTraffic s (s.absorb i o) := by
  cases ha.outputs with
  | inl hplain =>
    obtain ⟨hest, htraffic⟩ := absorb_plain s i hplain.2
    rw [hplain.1, Function.update_eq_self]
    exact ⟨hest, htraffic⟩
  | inr hestablishes =>
    obtain ⟨signature, rfl, hests⟩ := hestablishes
    exact absorb_establishes s i hests

theorem World.Inv.advances {i : ι} {o : Outcome ι} {established : Option (Sig ι)} (h : s.Inv ident)
    (ha : Advances ident i (s.client i) (s.established i) o established) (hapart : o.1.Apart)
    (hpeer : established = s.established i ∨
      ∀ signature ∈ established, Presentable (· ∈ s.signed) (IsHonest ident) signature) :
    Extends ident s (s.absorb i o) := by
  obtain ⟨hest, htraffic⟩ := ha.absorbed
  have hgrows : Grows s (s.absorb i o) := ⟨steady_absorb ha.steady, fun x hx => htraffic.sent ▸ hx⟩
  have hpresentable : ∀ signature, Presentable (· ∈ s.signed) (IsHonest ident) signature →
      Presentable (· ∈ (s.absorb i o).signed) (IsHonest ident) signature :=
    fun signature hp => hp.imp_left fun hin => (signed_absorb s i o).mpr (.inr hin)
  refine ⟨⟨fun j => ?_, fun j => ?_, fun signature hin => ?_, fun j signature hin => ?_, fun x hx => ?_,
    fun d hd => ?_, fun x hx => ?_⟩, hgrows, htraffic.received⟩
  · rw [client_absorb, hest, Function.update_apply, Function.update_apply]
    split
    · next hj => exact hj ▸ ha.inv
    · exact h.client j
  · rw [client_absorb, Function.update_apply]
    split
    · exact hapart
    · exact h.apart j
  · cases (signed_absorb s i o).mp hin with
    | inl hnew => exact ⟨i, ha.signed signature hnew⟩
    | inr hold => exact h.signed signature hold
  · rw [hest, Function.update_apply] at hin
    split at hin
    · cases hpeer with
      | inl hsame => exact hpresentable _ (h.peer i signature (hsame ▸ hin))
      | inr hnew => exact hpresentable _ (hnew signature hin)
    · exact hpresentable _ (h.peer j signature hin)
  · rw [htraffic.sent] at hx
    obtain ⟨hready, hsession⟩ := h.sent x hx
    obtain ⟨hready', hroot, _⟩ := hgrows.steady x.sender hready
    exact ⟨hready', hsession.trans hroot.symm⟩
  · rw [htraffic.wire] at hd
    exact (h.wire d hd).imp_right fun hsealed => hsealed.imp fun j hj => hgrows.sealed hj
  · rw [htraffic.held] at hx
    obtain ⟨hwire, hkey⟩ := h.held x hx
    exact ⟨htraffic.wire ▸ hwire, hkey.imp_right hgrows.opened⟩

theorem Client.Inv.use {c : Client ι} {established : Option (Sig ι)} (hc : c.Inv ident i established)
    (u : Use ι) {o : Outcome ι} (ho : o.1 = c.use u) (houts : ∀ out ∈ o.2, out = .state .failed) :
    Advances ident i c established o established := by
  obtain ⟨hinv, hsteady⟩ := hc.continues (continues_use c u) (follows_use c u).derived
  rw [← ho] at hinv hsteady
  refine ⟨hinv, hsteady, (fun signature hin => nomatch houts _ hin), .inl ⟨rfl, fun out hout => ?_⟩⟩
  rw [houts out hout]
  exact fun heq => nomatch heq

theorem Client.Inv.derived {c : Client ι} {established : Option (Sig ι)}
    (hc : c.Inv ident i established) (hready : c.transportKeyReady = true) : c.Derived := by
  cases hc.phase with
  | inl hunkeyed => exact absurd (hunkeyed.1.ready.symm.trans hready) Bool.false_ne_true
  | inr hkeyed =>
    obtain ⟨_, _, hk, _⟩ := hkeyed
    exact hk.derived

section Keys

variable {e : Around ι} {c : Client ι} {d : Datagram ι}

omit [DecidableEq ι] in
theorem key_pktEncrypt {pt : List Byte} (h : (pktEncrypt e c pt).2 = some d) :
    d.key = (pktEncrypt e c pt).1.1.sendSubkeys ∨ d.key = (pktEncrypt e c pt).1.1.epochSubkeys := by
  revert h
  unfold pktEncrypt
  split
  · exact fun h => nomatch h
  · intro h
    cases h
    dsimp only [sealWith]
    split
    · exact .inl rfl
    · exact .inr rfl

theorem key_sealed {pt : List Byte} {established : Option (Sig ι)}
    (hc : (pktEncrypt e c pt).1.1.Inv ident i established) (hapart : (pktEncrypt e c pt).1.1.Apart)
    (h : (pktEncrypt e c pt).2 = some d) :
    d.key.Known ∨ (pktEncrypt e c pt).1.1.HasKey d.key (pktEncrypt e c pt).1.1.isInitiator := by
  cases key_pktEncrypt h with
  | inr hepoch =>
    obtain ⟨k, hk⟩ := hapart.epoch
    rw [hepoch, hk]
    exact .inl trivial
  | inl hsend =>
    rw [hsend]
    cases hc.phase with
    | inl hunkeyed =>
      rw [hunkeyed.1.send]
      exact .inl trivial
    | inr hkeyed =>
      obtain ⟨_, _, hk, _⟩ := hkeyed
      exact .inr ⟨hk.derived.ready, _, _, hk.derived.send, rfl⟩

theorem key_openSession {c' : Client ι} (hderived : c.transportKeyReady = true → c.Derived)
    (h : openSession c d = some c') : c.HasKey d.key (!c.isInitiator) := by
  unfold openSession at h
  dsimp only at h
  split at h
  · cases h
  · next hready =>
    have hready := not_not.mp hready
    split at h
    · split at h
      · next hkey => exact ⟨hready, _, _, hkey.trans (hderived hready).recv, rfl⟩
      · cases h
    · split at h
      · next hkey => exact ⟨hready, _, _, hkey, rfl⟩
      · cases h

theorem key_openDatagram (hderived : c.transportKeyReady = true → c.Derived) (hapart : c.Apart)
    (h : (openDatagram e c d).2 = some pt) :
    (∃ k, d.key = .epoch k) ∨ c.HasKey d.key (!c.isInitiator) := by
  unfold openDatagram at h
  split at h
  · next c' hopen => exact .inr (key_openSession hderived hopen)
  · split at h
    · next hkey =>
      obtain ⟨k, hk⟩ := hapart.epoch
      exact .inl ⟨k, hkey.trans hk⟩
    · split at h
      · cases h
      · next epoch hrotated =>
        have hready := (Option.filter_eq_some_iff.mp hrotated).2
        rw [decide_eq_true_eq] at hready
        dsimp only at h
        split at h
        · next hkey =>
          cases hkey with
          | inl hrecv => exact .inr ⟨hready.1, _, _, hrecv, rfl⟩
          | inr hepoch => exact .inl ⟨epoch.epochKey, hepoch⟩
        · cases h

end Keys

section Traffic

theorem World.Inv.transmit (h : s.Inv ident) (ds : List (Datagram ι))
    (hds : ∀ d ∈ ds, d.key.Known ∨ ∃ j, s.Sealed j d) :
    Extends ident s { s with wire := ds ++ s.wire } := by
  have hgrows : Grows s { s with wire := ds ++ s.wire } := ⟨fun _ => .same rfl rfl rfl, fun _ hx => hx⟩
  refine ⟨⟨h.client, h.apart, h.signed, h.peer, h.sent, fun d hd => ?_, fun x hx => ?_⟩, hgrows, rfl⟩
  · have hsealed : d.key.Known ∨ ∃ j, s.Sealed j d := (List.mem_append.mp hd).elim (hds d) (h.wire d)
    exact hsealed.imp_right fun hj => hj.imp fun j hj => hgrows.sealed hj
  · obtain ⟨hwire, hkey⟩ := h.held x hx
    exact ⟨List.mem_append_right _ hwire, hkey⟩

theorem World.Inv.hold (h : s.Inv ident) (xs : List (ι × Datagram ι))
    (hxs : ∀ x ∈ xs, x.2 ∈ s.wire ∧ ((∃ k, x.2.key = .epoch k) ∨
      (s.client x.1).HasKey x.2.key (!(s.client x.1).isInitiator))) :
    Extends ident s { s with held := xs ++ s.held } := by
  have hgrows : Grows s { s with held := xs ++ s.held } := ⟨fun _ => .same rfl rfl rfl, fun _ hx => hx⟩
  refine ⟨⟨h.client, h.apart, h.signed, h.peer, h.sent, fun d hd => ?_, fun x hx => ?_⟩, hgrows, rfl⟩
  · exact (h.wire d hd).imp_right fun hj => hj.imp fun j hj => hgrows.sealed hj
  · exact (List.mem_append.mp hx).elim (hxs x) (h.held x)

theorem World.Inv.enqueue (h : s.Inv ident) {x : Sent ι}
    (hready : (s.client x.sender).transportKeyReady = true)
    (hsession : x.session = (s.client x.sender).root?) :
    Extends ident s { s with sent := x :: s.sent } := by
  have hgrows : Grows s { s with sent := x :: s.sent } :=
    ⟨fun _ => .same rfl rfl rfl, fun _ hx => List.mem_cons_of_mem _ hx⟩
  refine ⟨⟨h.client, h.apart, h.signed, h.peer, fun y hy => ?_, fun d hd => ?_, h.held⟩, hgrows, rfl⟩
  · cases hy with
    | head => exact ⟨hready, hsession⟩
    | tail _ hy => exact h.sent y hy
  · exact (h.wire d hd).imp_right fun hj => hj.imp fun j hj => hgrows.sealed hj

theorem World.Inv.pass (h : s.Inv ident) (r : Received ι) :
    ({ s with received := r :: s.received }).Inv ident ∧ Grows s { s with received := r :: s.received } := by
  have hgrows : Grows s { s with received := r :: s.received } :=
    ⟨fun _ => .same rfl rfl rfl, fun _ hx => hx⟩
  refine ⟨⟨h.client, h.apart, h.signed, h.peer, h.sent, fun d hd => ?_, h.held⟩, hgrows⟩
  exact (h.wire d hd).imp_right fun hj => hj.imp fun j hj => hgrows.sealed hj

end Traffic

theorem World.Inv.use (h : s.Inv ident) (i : ι) (u : Use ι) {o : Outcome ι}
    (ho : o.1 = (s.client i).use u) (houts : ∀ out ∈ o.2, out = .state .failed)
    (hapart : o.1.Apart) : Extends ident s (s.absorb i o) :=
  h.advances ((h.client i).use u ho houts) hapart (.inl rfl)

omit [DecidableEq ι] in
theorem outputs_pktEncrypt (e : Around ι) (c : Client ι) (pt : List Byte) :
    ∀ out ∈ (pktEncrypt e c pt).1.2, out = .state .failed := by
  unfold pktEncrypt
  split
  · simp [setState]
  · simp

theorem outputs_pktDecrypt (e : Around ι) (c : Client ι) (d : Option (Datagram ι)) :
    ∀ out ∈ (pktDecrypt e c d).1.2, out = .state .failed := by
  unfold pktDecrypt
  split
  · simp [setState]
  · split <;> simp

theorem World.Inv.encrypt (h : s.Inv ident) {i : ι} {flags channel : BitVec 8} {seq : BitVec 32}
    {payload : List Byte} {e : Around ι}
    (hen : Enabled ident s (.encrypt i flags channel seq payload e)) :
    Extends ident s (s.next (.encrypt i flags channel seq payload e)) := by
  have houts := outputs_pktEncrypt e (s.client i) (buildPacket flags channel seq payload)
  have hapart := kept_apart.encrypt e _ (buildPacket flags channel seq payload) (h.apart i)
  have hnext := h.use i (.encrypt _ e) rfl houts hapart
  refine hnext.trans (hnext.inv.transmit _ fun d hd => ?_)
  have hd := Option.mem_toList.mp hd
  have hclient := client_absorb_self s i (pktEncrypt e (s.client i) (buildPacket flags channel seq payload)).1
  have hinv := hnext.inv.client i
  rw [hclient] at hinv
  refine (key_sealed hinv hapart hd).imp_right fun hkey => ⟨i, ?_, fun hdata => ?_⟩
  · rw [hclient]
    exact hkey
  · obtain ⟨hlen, hsource⟩ := hen
    obtain ⟨hflags, hfield, hdrop⟩ := isData_pktEncrypt hlen hd hdata
    rcases hsource with hcontrol | hzero | ⟨x, hx, hsender, hpayload⟩
    · cases hflags.symm.trans hcontrol
    · exact absurd hzero hfield
    · have hplain : ∀ out ∈ (pktEncrypt e (s.client i) (buildPacket flags channel seq payload)).1.2,
          out.Plain := by
        intro out hout
        rw [houts out hout]
        intro heq
        cases heq
      rw [(absorb_plain s i hplain).2.sent, hdrop]
      exact ⟨x, hx, hsender, by rw [hpayload]⟩

theorem World.Inv.decrypt (h : s.Inv ident) {i : ι} {d : Option (Datagram ι)} {e : Around ι}
    (hen : Enabled ident s (.decrypt i d e)) : Extends ident s (s.next (.decrypt i d e)) := by
  have houts := outputs_pktDecrypt e (s.client i) d
  have hnext := h.use i (.decrypt d e) rfl houts (kept_apart.decrypt e _ d (h.apart i))
  unfold World.next
  dsimp only
  split
  · next hopened =>
    refine hnext.trans (hnext.inv.hold _ fun x hx => ?_)
    obtain ⟨d', hd', rfl⟩ := List.mem_map.mp hx
    obtain rfl := Option.mem_toList.mp hd'
    have hplain : ∀ out ∈ (pktDecrypt e (s.client i) (some d')).1.2, out.Plain :=
      fun out hout => houts out hout ▸ fun heq => nomatch heq
    have htraffic := (absorb_plain s i hplain).2
    have hgrows : Grows s (s.absorb i (pktDecrypt e (s.client i) (some d')).1) :=
      ⟨steady_absorb ((h.client i).use (.decrypt (some d') e) rfl houts).steady,
        fun x hx => htraffic.sent ▸ hx⟩
    refine ⟨htraffic.wire ▸ hen d' rfl, ?_⟩
    obtain ⟨pt, hpt⟩ := Option.isSome_iff_exists.mp hopened
    unfold pktDecrypt at hpt
    split at hpt
    · cases hpt
    · exact (key_openDatagram (h.client i).derived (h.apart i) hpt).imp_right hgrows.opened
  · exact hnext

theorem absorb_self (s : World ι) (i : ι) (outs : List (Output ι)) :
    s.absorb i (s.client i, outs) = outs.foldl (World.log i) s := by
  rw [World.absorb, Function.update_eq_self]

theorem World.Inv.send (h : s.Inv ident) {i : ι} (hconcluded : (s.client i).Concluded)
    (maxPayload : ℕ) (channel : BitVec 8) (data : List Byte) (reliable : Bool) :
    Extends ident s (s.next (.send i maxPayload channel data reliable)) := by
  change Extends ident s (s.absorb i (encryptSend maxPayload (s.client i) channel data reliable))
  unfold encryptSend
  split
  · rw [absorb_self]
    exact .refl h
  · next hstate =>
    split
    · next hinactive =>
      refine h.use i (.send maxPayload channel data reliable) ?_ (by simp [setState])
        ⟨(h.apart i).epoch, (h.apart i).send⟩
      rw [Client.use, encryptSend, if_neg hstate, if_pos hinactive]
    · split
      · rw [absorb_self]
        exact .refl h
      · rw [absorb_self]
        have hready : (s.client i).transportKeyReady = true := by
          cases (h.client i).phase with
          | inl hunkeyed =>
            obtain ⟨c, hhs, _⟩ := hunkeyed.1.handshake
            exact absurd (hhs.symm.trans (hconcluded (not_not.mp hstate))) (by simp)
          | inr hkeyed =>
            obtain ⟨_, _, hk, _⟩ := hkeyed
            exact hk.derived.ready
        exact h.enqueue hready rfl

/-- What `recv_cb` is called with, for a datagram of the session's epoch. -/
structure HandedUp (s : World ι) (i : ι) (d : Datagram ι) (r : Received ι) : Prop where
  active : (s.client i).peerActive = true
  epoch : ntohl ((payloadOf d.packet).take 4) = (s.client i).epochId
  received : ∃ channel data, (payloadOf d.packet).drop 4 = channel :: data ∧
    r = ⟨i, (s.client i).root?, s.established i, channel, data⟩

theorem World.Inv.deliver (h : s.Inv ident) (i : ι) (d : Datagram ι) (reliable : Bool) :
    Extends ident s (s.next (.deliver i d reliable)) ∨
      ∃ r, HandedUp s i d r ∧ s.next (.deliver i d reliable) = { s with received := r :: s.received } := by
  change Extends ident s (s.absorb i (innerRecvData (s.client i) (payloadOf d.packet) reliable)) ∨
    ∃ r, _ ∧ s.absorb i (innerRecvData (s.client i) (payloadOf d.packet) reliable) = _
  unfold innerRecvData
  split
  · rw [absorb_self]
    exact .inl (.refl h)
  · next channel data hpayload =>
    split
    · next hinactive =>
      refine .inl (h.use i (.recv (payloadOf d.packet) reliable) ?_ (by simp [setState])
        ⟨(h.apart i).epoch, (h.apart i).send⟩)
      simp only [Client.use, innerRecvData, hpayload, if_pos hinactive]
    · next hactive =>
      split
      · rw [absorb_self]
        exact .inl (.refl h)
      · next hepoch =>
        rw [absorb_self]
        exact .inr ⟨_, ⟨not_not.mp hactive, not_not.mp hepoch, channel, data, hpayload, rfl⟩, rfl⟩

theorem World.Inv.next (h : s.Inv ident) {event : Event ι} (hconcluded : ∀ i, (s.client i).Concluded)
    (hen : Enabled ident s event) (horder : Orderly s event) : Extends ident s (s.next event) ∨
      ∃ i d reliable r, event = .deliver i d reliable ∧ HandedUp s i d r ∧
        s.next event = { s with received := r :: s.received } := by
  cases event with
  | connect i peerId e =>
    exact .inl (h.advances ((h.client i).connect horder e peerId)
      (kept_apart.connect e _ peerId (h.apart i)) (.inl rfl))
  | handshake i msg e =>
    obtain ⟨established, ha, hest⟩ := (h.client i).message horder
    refine .inl (h.advances ha (kept_apart.handshake e _ msg (h.apart i)) (hest.imp_right fun heq => ?_))
    rw [heq]
    exact hen
  | send i maxPayload channel data reliable => exact .inl (h.send (hconcluded i) ..)
  | encrypt i flags channel seq payload e => exact .inl (h.encrypt hen)
  | inject d =>
    have hinjected := h.transmit [d] fun d' hd' => List.mem_singleton.mp hd' ▸ .inl hen
    exact .inl hinjected
  | decrypt i d e => exact .inl (h.decrypt hen)
  | deliver i d reliable =>
    refine (h.deliver i d reliable).imp_right fun hhands => ?_
    obtain ⟨r, hr, heq⟩ := hhands
    exact ⟨i, d, reliable, r, rfl, hr, heq⟩
  | kick i e =>
    refine .inl (h.use i (.kick e.reg) rfl ?_ (kept_apart.kick e.reg _ (h.apart i)))
    unfold notifyKick
    split
    · simp
    · split
      · simp
      · split <;> simp [setState]

theorem inv_starts (hs : Starts ident s) : s.Inv ident := by
  have hreach : (sudpSystem ident).Reachable s := .init hs
  obtain ⟨hclients, hests, hsigned, hwire, hheld, hsent, _⟩ := hs
  refine ⟨fun i => ?_, fun i => ?_, ?_, ?_, ?_, ?_, ?_⟩
  · obtain ⟨reg, firstContact, token, now, hc⟩ := hclients i
    obtain ⟨epoch, _, hc⟩ := Option.map_eq_some_iff.mp hc
    rw [← hc, (hests i).2]
    refine ⟨rfl, rfl, .inl ⟨⟨rfl, rfl, _, rfl, (fun heq => nomatch heq), fun chunks hchunks => ?_⟩, rfl⟩⟩
    cases hchunks
    exact .inl rfl
  · exact reachable_apart hreach i
  · rw [hsigned]
    exact fun _ hin => nomatch hin
  · intro i signature hin
    rw [(hests i).2] at hin
    exact nomatch hin
  · rw [hsent]
    exact fun _ hin => nomatch hin
  · rw [hwire]
    exact fun _ hin => nomatch hin
  · rw [hheld]
    exact fun _ hin => nomatch hin

theorem reachable_inv (h : ((sudpSystem ident).restrict Orderly).Reachable s) : s.Inv ident := by
  refine System.Reachable.invariant_under (J := fun s => ∀ i, (s.client i).Concluded)
    (fun s hs => reachable_concluded hs.of_restrict) (fun s => inv_starts) ?_ h
  rintro s event t hconcluded hinv ⟨horder, hen, rfl⟩
  cases hinv.next hconcluded hen horder with
  | inl hextends => exact hextends.inv
  | inr hhands =>
    obtain ⟨_, _, _, r, _, _, heq⟩ := hhands
    rw [heq]
    exact (hinv.pass r).1

end Steps

end YumiBrowser.Sudp
