import YumiBrowser.Client.SyncAgreement

namespace YumiBrowser.Client

open Wire Keyed YumiBrowser.Group Transition

/-- Both ends are connected. -/
def Pair.Connected (s : Pair) : Prop := ∀ i, (s.client i).connected = true

def Welcome (crypto : Crypto) (reg : Registrar) (data : List Byte) (now : I64) : Prop :=
  ∃ d, Accepts crypto reg data now d ∧
    ∀ e ∈ d.entries, reg.auditLog.find? e.entryHash = none → admissible crypto reg d.state e

/-- The registrars are written while the ends are apart, by one in turn; while they are connected each message
arrives and each delta is welcome. -/
def Reconciling (crypto : Crypto) (s : Pair) : SyncEvent → Prop
  | .mutate i m clk => ¬ s.Connected ∧ Orderly crypto s (.mutate i m clk)
  | .lose _ => ¬ s.Connected
  | .handle i now => Fits (s.client i).reg ∧
    ∀ data rest, s.inbox i = .delta data :: rest → Welcome crypto (s.client i).reg data now
  | .poll i => Fits (s.client i).reg
  | _ => True

section Orderly

variable {crypto : Crypto} {s : Pair} {i : Bool} {reg : Registrar} {data : List Byte} {now : I64} {d : Delta}

theorem Welcome.taken (h : Welcome crypto reg data now) (hacc : Accepts crypto reg data now d) :
    Taken crypto reg d := by
  obtain ⟨d', hacc', hall⟩ := h
  obtain rfl := hacc.unique hacc'
  exact fun e he hnew hrefused => absurd (hall e he hnew) hrefused

theorem Reconciling.orderly {e : SyncEvent} (h : Reconciling crypto s e) : Orderly crypto s e := by
  cases e with
  | mutate i m clk => exact h.2
  | handle i now => exact ⟨h.1, fun data rest d hin hacc => (h.2 data rest hin).taken hacc⟩
  | poll i => exact h
  | establish i => trivial
  | lose i => trivial
  | disconnect => trivial

theorem entries_of_accepts {sender : Registrar} {since : BitVec 32} (hfits : Fits sender)
    (hshort : sender.auditLog.rows.length ≤ auditMaxRows)
    (hacc : Accepts crypto reg (serializeDelta sender since) now d) : d.entries = auditDelta sender since := by
  obtain ⟨rest, hread⟩ := hacc.2
  obtain ⟨hverify, howner⟩ := signed_of_readDelta hread
  rw [serializeDelta, readDelta_writeDelta since (Pair.counted_of_fits hfits hshort since) hverify howner] at hread
  rw [← (Prod.mk.inj (Except.ok.inj hread)).1]

end Orderly

namespace SyncEnd

variable {crypto : Crypto} {c : SyncEnd} {v : BitVec 32} {now : I64}

theorem handle_newer (hconn : c.connected = true) (h : c.version < v) :
    (c.handle crypto now (.version v)).2 = [.deltaReq c.version] :=
  (if_pos h).trans (if_pos hconn)

theorem handle_older (hconn : c.connected = true) (h : v < c.version) :
    (c.handle crypto now (.version v)).2 = [.delta (serializeDelta c.reg v)] := by
  have hnot : ¬ c.version < v := BitVec.not_lt.mpr (BitVec.le_of_lt h)
  exact (if_neg hnot).trans ((if_pos h).trans (if_pos hconn))

theorem handle_deltaReq (hconn : c.connected = true) (v : BitVec 32) :
    (c.handle crypto now (.deltaReq v)).2 = [.delta (serializeDelta c.reg v)] :=
  if_pos hconn

theorem handle_connected (c : SyncEnd) (msg : SyncMsg) : (c.handle crypto now msg).1.connected = c.connected := by
  cases msg with
  | version v => rfl
  | deltaReq since => rfl
  | delta data =>
    cases hok : applyDelta crypto c.reg data now with
    | error err => rw [Pair.handle_delta_error hok]
    | ok r => rw [Pair.handle_delta_ok hok]

theorem handle_reg (c : SyncEnd) {msg : SyncMsg} (hplain : ∀ data, msg ≠ .delta data) :
    (c.handle crypto now msg).1.reg = c.reg := by
  cases msg with
  | version v => rfl
  | deltaReq since => rfl
  | delta data => exact absurd rfl (hplain data)

end SyncEnd

namespace Pair

/-- The message, on its way to `k`, will bring the older end `i` to the version of the other. -/
inductive Serves (s : Pair) (i : Bool) : Bool → SyncMsg → Prop
  -- the older end hears how new the other is
  | told : Serves s i i (.version (s.client (!i)).version)
  -- the newer end hears how old the other is
  | heard : v < (s.client (!i)).version → Serves s i (!i) (.version v)
  | asked : Serves s i (!i) (.deltaReq since)
  | sent : Fits reg → since ≤ (s.client i).version → Holds s.made reg.header.version reg.auditLog →
    reg.header.version = (s.client (!i)).version → Serves s i i (.delta (serializeDelta reg since))

def Pending (s : Pair) (i : Bool) : Prop := ∃ k, ∃ msg ∈ s.inbox k, s.Serves i k msg

def Settling (s : Pair) : Prop := s.Connected → ∀ i, (s.client i).version < (s.client (!i)).version → s.Pending i

variable {crypto : Crypto} {s s' : Pair} {i k : Bool} {now : I64} {msg : SyncMsg} {rest : List SyncMsg}

theorem Serves.keep (h : s.Serves i k msg) (hmade : s'.made = s.made)
    (hown : (s.client i).version ≤ (s'.client i).version)
    (hother : (s'.client (!i)).version = (s.client (!i)).version) : s'.Serves i k msg := by
  cases h with
  | told =>
    rw [← hother]
    exact .told
  | heard hlt => exact .heard (by rwa [hother])
  | asked => exact .asked
  | sent hfits hsince hholds hnew =>
    exact .sent hfits (BitVec.le_trans hsince hown) (by rwa [hmade]) (hnew.trans hother.symm)

theorem client_act (s : Pair) (i : Bool) (c : SyncEnd) (msgs : List SyncMsg) : (s.act i (c, msgs)).client i = c :=
  Function.update_self ..

theorem client_act_not (s : Pair) (i : Bool) (c : SyncEnd) (msgs : List SyncMsg) :
    (s.act i (c, msgs)).client (!i) = s.client (!i) :=
  Function.update_of_ne (Bool.not_ne_self i) ..

theorem inbox_act (s : Pair) (i : Bool) (c : SyncEnd) (msgs : List SyncMsg) :
    (s.act i (c, msgs)).inbox i = s.inbox i :=
  Function.update_of_ne (Bool.not_ne_self i).symm ..

theorem inbox_act_not (s : Pair) (i : Bool) (c : SyncEnd) (msgs : List SyncMsg) :
    (s.act i (c, msgs)).inbox (!i) = s.inbox (!i) ++ msgs :=
  Function.update_self ..

theorem version_act {c : SyncEnd} (hreg : c.reg = (s.client i).reg) (msgs : List SyncMsg) (j : Bool) :
    ((s.act i (c, msgs)).client j).version = (s.client j).version := by
  obtain rfl | rfl := Bool.eq_or_eq_not j i
  · rw [client_act, SyncEnd.version, hreg]
    rfl
  · rw [client_act_not]

theorem subset_inbox_act (s : Pair) (i : Bool) (c : SyncEnd) (msgs : List SyncMsg) (j : Bool) :
    s.inbox j ⊆ (s.act i (c, msgs)).inbox j := by
  obtain rfl | rfl := Bool.eq_or_eq_not j i
  · rw [inbox_act]
    exact fun _ h => h
  · rw [inbox_act_not]
    exact List.subset_append_left _ _

theorem Inv.answered (h : s.Inv) (hboth : s.Connected) (hfits : Fits (s.client k).reg) (hsound : s.Sound k msg)
    (hold : (s.client i).version < (s.client (!i)).version) (hserves : s.Serves i k msg)
    (hplain : ∀ data, msg ≠ .delta data) :
    ∃ reply ∈ ((s.client k).handle crypto now msg).2, s.Serves i (!k) reply := by
  cases hserves with
  | told =>
    refine ⟨.deltaReq (s.client i).version, ?_, .asked⟩
    rw [SyncEnd.handle_newer (hboth i) hold]
    exact List.mem_singleton_self _
  | @heard v hlt =>
    rw [Bool.not_not]
    refine ⟨.delta (serializeDelta (s.client (!i)).reg v), ?_, .sent hfits ?_ (h.held (!i)) rfl⟩
    · rw [SyncEnd.handle_older (hboth (!i)) hlt]
      exact List.mem_singleton_self _
    · have hle : v ≤ (s.client (!!i)).version := hsound
      rwa [Bool.not_not] at hle
  | @asked since =>
    rw [Bool.not_not]
    refine ⟨.delta (serializeDelta (s.client (!i)).reg since), ?_, .sent hfits ?_ (h.held (!i)) rfl⟩
    · rw [SyncEnd.handle_deltaReq (hboth (!i))]
      exact List.mem_singleton_self _
    · have hle : since ≤ (s.client (!!i)).version := hsound
      rwa [Bool.not_not] at hle
  | sent => exact absurd rfl (hplain _)

theorem Inv.newest_entry (h : s.Inv) (hold : (s.client i).version < (s.client (!i)).version) :
    ∃ e ∈ s.made.take auditMaxRows, e.registrarVersion = (s.client (!i)).version := by
  obtain ⟨e, older, hmade, hbound, j, hj⟩ := h.newest
  refine ⟨e, ?_, ?_⟩
  · rw [hmade]
    exact List.mem_cons_self
  · obtain rfl | rfl := Bool.eq_or_eq_not j i
    · exact absurd (hbound (!j)) (BitVec.not_le.mpr (hj ▸ hold))
    · exact hj.symm

theorem Inv.merged {reg : Registrar} {result : MergeResult} {data : List Byte} (h : s.Inv)
    (hsound : s.Sound k (.delta data)) (hwelcome : Welcome crypto (s.client k).reg data now)
    (hok : applyDelta crypto (s.client k).reg data now = .ok (reg, result)) :
    (s.client k).version ≤ reg.header.version ∧
      (reg.header.version = (s.client k).version ∨ reg.header.version ≤ (s.client (!k)).version) := by
  obtain ⟨sender, since, rfl, hfits, hsince, hle, hholds⟩ := hsound
  obtain ⟨d, hacc, heq⟩ := applyDelta_eq_ok.mp hok
  obtain ⟨rfl, -⟩ := Prod.mk.inj heq
  obtain ⟨hgrow, hbound, -⟩ :=
    (h.held k).merge h.lineage hholds hsince (entries_of_accepts hfits hholds.short hacc) (hwelcome.taken hacc)
  exact ⟨hgrow, hbound.imp id fun hreach => BitVec.le_trans hreach hle⟩

theorem Inv.caught_up {reg sender : Registrar} {result : MergeResult} {since : BitVec 32} (h : s.Inv)
    (hold : (s.client i).version < (s.client (!i)).version) (hfits : Fits sender)
    (hsince : since ≤ (s.client i).version) (hholds : Holds s.made sender.header.version sender.auditLog)
    (hnew : sender.header.version = (s.client (!i)).version)
    (hwelcome : Welcome crypto (s.client i).reg (serializeDelta sender since) now)
    (hok : applyDelta crypto (s.client i).reg (serializeDelta sender since) now = .ok (reg, result)) :
    reg.header.version = (s.client (!i)).version := by
  have hsound : s.Sound i (.delta (serializeDelta sender since)) :=
    ⟨sender, since, rfl, hfits, hsince, BitVec.le_of_eq hnew, hholds⟩
  obtain ⟨-, hbound⟩ := h.merged hsound hwelcome hok
  obtain ⟨d, hacc, heq⟩ := applyDelta_eq_ok.mp hok
  obtain ⟨rfl, -⟩ := Prod.mk.inj heq
  have hd := entries_of_accepts hfits hholds.short hacc
  have hadm : ∀ e ∈ d.entries, (s.client i).reg.auditLog.find? e.entryHash = none →
      admissible crypto (s.client i).reg d.state e := by
    obtain ⟨d', hacc', hall⟩ := hwelcome
    obtain rfl := hacc.unique hacc'
    exact hall
  obtain ⟨e, hrecent, hversion⟩ := h.newest_entry hold
  have hmade := List.mem_of_mem_take hrecent
  have hsent : e ∈ d.entries := by
    rw [hd, mem_auditDelta, h.lineage.toInt hmade]
    refine ⟨hholds.recent e hrecent (BitVec.le_of_eq (hversion.trans hnew.symm)), ?_⟩
    have hlt := Nat.lt_of_le_of_lt (BitVec.le_def.mp hsince) (BitVec.lt_def.mp (hversion ▸ hold))
    rw [BitVec.toInt_eq_toNat_of_lt (by have := h.lineage.below e hmade; omega)]
    exact_mod_cast hlt
  have hmissing : (s.client i).reg.auditLog.find? e.entryHash = none := by
    rw [Table.find?_eq_none]
    intro a ha hhash
    obtain rfl := h.lineage.hash_inj ((h.held i).known a ha).1 hmade hhash
    exact BitVec.not_le.mpr (hversion ▸ hold) ((h.held i).known a ha).2
  have hinserted : e ∈ (mergeEntries crypto (s.client i).reg d).inserted := by
    obtain ⟨pre, post, hsplit⟩ := List.append_of_mem hsent
    refine (mem_inserted d e).mpr ⟨pre, post, hsplit, hmissing, hadm e hsent hmissing, fun a ha hhash => ?_⟩
    -- an entry of the same hash would be the same entry once more
    have hin : a ∈ d.entries := by
      rw [hsplit]
      exact List.mem_append_left _ ha
    have hknown : a ∈ s.made := by
      rw [hd] at hin
      exact (hholds.known a (mem_auditDelta.mp hin).1).1
    obtain rfl := h.lineage.hash_inj hknown hmade hhash
    have hnodup : d.entries.Nodup := by
      rw [hd]
      exact (List.mergeSort_perm ..).nodup_iff.mpr ((nodup_rows _).filter _)
    rw [hsplit] at hnodup
    exact absurd rfl ((List.nodup_append.mp hnodup).2.2 a ha a List.mem_cons_self)
  have hreach : (s.client (!i)).version ≤ (applied crypto (s.client i).reg d).header.version := by
    have hmerged : (applied crypto (s.client i).reg d).header.version =
        (mergeEntries crypto (s.client i).reg d).version := by
      rw [applied, header_cutLog]
      rfl
    rw [hmerged, ← hversion]
    exact (version_mergeEntries crypto (s.client i).reg d).2.1 e hinserted
  cases hbound with
  | inl hsame => exact absurd (hsame ▸ hreach) (BitVec.not_le.mpr hold)
  | inr hle => exact BitVec.le_antisymm hle hreach

theorem connected_act {c : SyncEnd × List SyncMsg} (hconn : c.1.connected = (s.client i).connected) :
    (s.act i c).Connected ↔ s.Connected := by
  have hsame (j : Bool) : ((s.act i c).client j).connected = (s.client j).connected := by
    obtain rfl | rfl := Bool.eq_or_eq_not j i
    · rw [client_act, hconn]
    · rw [client_act_not]
  exact forall_congr' fun j => by rw [hsame]

theorem Pending.act {c : SyncEnd} {msgs : List SyncMsg} (h : s.Pending i) (hin : s.inbox k = msg :: rest)
    (hown : (s.client i).version ≤ (((s.setInbox k rest).act k (c, msgs)).client i).version)
    (hother : (((s.setInbox k rest).act k (c, msgs)).client (!i)).version = (s.client (!i)).version)
    (hserved : s.Serves i k msg → ∃ reply ∈ msgs, s.Serves i (!k) reply) :
    ((s.setInbox k rest).act k (c, msgs)).Pending i := by
  have hkeep {j : Bool} {m : SyncMsg} (hserves : s.Serves i j m) :
      ((s.setInbox k rest).act k (c, msgs)).Serves i j m := hserves.keep rfl hown hother
  have hpopped : ((s.setInbox k rest).act k (c, msgs)).inbox k = rest := by
    rw [inbox_act]
    exact Function.update_self ..
  have hgrown : ((s.setInbox k rest).act k (c, msgs)).inbox (!k) = s.inbox (!k) ++ msgs := by
    rw [inbox_act_not]
    exact congrArg (· ++ msgs) (Function.update_of_ne (Bool.not_ne_self k) ..)
  obtain ⟨j, m, hmem, hserves⟩ := h
  obtain rfl | rfl := Bool.eq_or_eq_not j k
  · rw [hin] at hmem
    cases List.mem_cons.mp hmem with
    | inl heq =>
      obtain ⟨reply, hreply, hagain⟩ := hserved (heq ▸ hserves)
      exact ⟨!j, reply, hgrown ▸ List.mem_append_right _ hreply, hkeep hagain⟩
    | inr hlater => exact ⟨j, m, by rwa [hpopped], hkeep hserves⟩
  · exact ⟨!k, m, hgrown ▸ List.mem_append_left _ hmem, hkeep hserves⟩

theorem Settling.plain (h : s.Settling) (hinv : s.Inv) (hin : s.inbox k = msg :: rest) (hfits : Fits (s.client k).reg)
    (hplain : ∀ data, msg ≠ .delta data) :
    ((s.setInbox k rest).act k ((s.client k).handle crypto now msg)).Settling := by
  have hversion (j : Bool) :
      (((s.setInbox k rest).act k ((s.client k).handle crypto now msg)).client j).version = (s.client j).version :=
    version_act (s := s.setInbox k rest) (SyncEnd.handle_reg (s.client k) hplain) _ j
  intro hconn i hold
  have hboth : s.Connected := (connected_act (SyncEnd.handle_connected (s.client k) msg)).mp hconn
  rw [hversion, hversion] at hold
  have hsound : s.Sound k msg := hinv.sound k msg (hin ▸ List.mem_cons_self)
  exact (h hboth i hold).act hin (BitVec.le_of_eq (hversion i).symm) (hversion (!i)) fun hserves =>
    hinv.answered hboth hfits hsound hold hserves hplain

theorem Serves.delta {data : List Byte} (h : s.Serves i k (.delta data)) : k = i ∧
    ∃ reg since, data = serializeDelta reg since ∧ Fits reg ∧ since ≤ (s.client i).version ∧
      Holds s.made reg.header.version reg.auditLog ∧ reg.header.version = (s.client (!i)).version := by
  cases h with
  | sent hfits hsince hholds hnew => exact ⟨rfl, _, _, rfl, hfits, hsince, hholds, hnew⟩

theorem Settling.delta {data : List Byte} (h : s.Settling) (hinv : s.Inv) (hin : s.inbox k = .delta data :: rest)
    (hwelcome : Welcome crypto (s.client k).reg data now) :
    ((s.setInbox k rest).act k ((s.client k).handle crypto now (.delta data))).Settling := by
  have ⟨d, hacc, _⟩ := hwelcome
  have hok := applyDelta_eq_ok.mpr ⟨d, hacc, rfl⟩
  have hsound : s.Sound k (.delta data) := hinv.sound k _ (hin ▸ List.mem_cons_self)
  obtain ⟨hgrow, hbound⟩ := hinv.merged hsound hwelcome hok
  rw [handle_delta_ok hok]
  intro hconn i hold
  have hboth : s.Connected := (connected_act rfl).mp hconn
  obtain rfl | rfl := Bool.eq_or_eq_not i k
  · rw [client_act, client_act_not] at hold
    have hbehind : (s.client i).version < (s.client (!i)).version := Nat.lt_of_le_of_lt hgrow hold
    refine (h hboth i hbehind).act hin ?_ ?_ fun hserves => ?_
    · rw [client_act]
      exact hgrow
    · rw [client_act_not]
      rfl
    · obtain ⟨-, sender, since, rfl, hfits, hsince, hholds, hnew⟩ := hserves.delta
      have hcaught := hinv.caught_up hbehind hfits hsince hholds hnew hwelcome hok
      exact absurd hcaught (BitVec.ne_of_lt hold)
  · rw [client_act_not, Bool.not_not, client_act] at hold
    have hsame := hbound.resolve_right (BitVec.not_le.mpr hold)
    have hbehind : (s.client (!k)).version < (s.client (!!k)).version := by
      rw [Bool.not_not]
      exact (hsame : _ = (s.client k).version) ▸ hold
    refine (h hboth (!k) hbehind).act hin ?_ ?_ fun hserves => ?_
    · rw [client_act_not]
      exact BitVec.le_refl _
    · rw [Bool.not_not, client_act]
      exact hsame
    · exact absurd hserves.delta.1 (Bool.not_ne_self k).symm

theorem connected_adopt {reg : Registrar} : (s.adopt i reg).Connected ↔ s.Connected := by
  have hself : (s.adopt i reg).client i = { s.client i with reg } := Function.update_self ..
  have hother : (s.adopt i reg).client (!i) = s.client (!i) := Function.update_of_ne (Bool.not_ne_self i) ..
  refine forall_congr' fun j => ?_
  obtain rfl | rfl := Bool.eq_or_eq_not j i
  · rw [hself]
  · rw [hother]

theorem settling_establish (s : Pair) (k : Bool) : (s.act k (s.client k).establish).Settling := by
  have hversion (j : Bool) : ((s.act k (s.client k).establish).client j).version = (s.client j).version :=
    version_act (c := (s.client k).establish.1) rfl _ j
  have hsent : SyncMsg.version (s.client k).version ∈ (s.act k (s.client k).establish).inbox (!k) := by
    have hmsgs : (s.client k).establish.2 = [.version (s.client k).version] := rfl
    have hinbox := inbox_act_not s k (s.client k).establish.1 (s.client k).establish.2
    rw [hmsgs] at hinbox
    exact hinbox ▸ List.mem_append_right _ (List.mem_singleton_self _)
  intro _ i hold
  refine ⟨!k, _, hsent, ?_⟩
  obtain rfl | rfl := Bool.eq_or_eq_not i k
  · rw [hversion] at hold
    exact .heard hold
  · have htold := @Serves.told (s.act k (s.client k).establish) (!k)
    rwa [Bool.not_not, hversion] at htold

theorem Settling.poll (h : s.Settling) (k : Bool) : (s.act k (s.client k).poll).Settling := by
  have hreg : (s.client k).poll.1.reg = (s.client k).reg ∧ (s.client k).poll.1.connected = (s.client k).connected := by
    unfold SyncEnd.poll
    split
    · exact ⟨rfl, rfl⟩
    · exact ⟨rfl, rfl⟩
  have hversion (j : Bool) : ((s.act k (s.client k).poll).client j).version = (s.client j).version :=
    version_act hreg.1 _ j
  intro hconn i hold
  rw [hversion, hversion] at hold
  obtain ⟨j, msg, hmem, hserves⟩ := h ((connected_act hreg.2).mp hconn) i hold
  exact ⟨j, msg, subset_inbox_act s k _ _ j hmem, hserves.keep rfl (BitVec.le_of_eq (hversion i).symm) (hversion (!i))⟩

theorem Settling.next (h : s.Settling) (hinv : s.Inv) {e : SyncEvent} (hok : Reconciling crypto s e) :
    (s.next crypto e).Settling := by
  cases e with
  | mutate i m clk =>
    cases hrun : m.run crypto (s.client i).reg clk with
    | error err =>
      rw [next_mutate_error hrun]
      exact h
    | ok reg =>
      rw [next_mutate_ok hrun]
      exact fun hconn => absurd (connected_adopt.mp hconn) hok.1
  | establish i => exact settling_establish s i
  | handle i now =>
    cases hin : s.inbox i with
    | nil =>
      rw [next_handle_nil hin]
      exact h
    | cons msg rest =>
      rw [next_handle_cons hin]
      cases msg with
      | version v => exact h.plain hinv hin hok.1 fun _ => SyncMsg.noConfusion
      | deltaReq since => exact h.plain hinv hin hok.1 fun _ => SyncMsg.noConfusion
      | delta data => exact h.delta hinv hin (hok.2 data rest hin)
  | poll i => exact h.poll i
  | lose i => exact fun hconn => absurd hconn hok
  | disconnect => exact fun hconn => absurd (hconn true) Bool.false_ne_true

theorem settling_of_starts (h : s.Starts crypto) : s.Settling := by
  intro hconn
  have happart := (h.apart true).1
  rw [hconn true] at happart
  cases happart

theorem Settling.version_eq (h : s.Settling) (hconn : s.Connected) (hempty : ∀ i, s.inbox i = []) :
    (s.client true).version = (s.client false).version := by
  have hnone (i : Bool) : ¬ (s.client i).version < (s.client (!i)).version := by
    intro hold
    obtain ⟨j, msg, hmem, -⟩ := h hconn i hold
    rw [hempty] at hmem
    cases hmem
  exact BitVec.le_antisymm (BitVec.not_lt.mp (hnone false)) (BitVec.not_lt.mp (hnone true))

def weight : SyncMsg → ℕ
  | .version _ => 3
  | .deltaReq _ => 2
  | .delta _ => 1

def due (s : Pair) : ℕ := ((s.inbox true).map weight).sum + ((s.inbox false).map weight).sum

theorem due_eq (s : Pair) (i : Bool) : s.due = ((s.inbox i).map weight).sum + ((s.inbox (!i)).map weight).sum := by
  cases i with
  | true => rfl
  | false => exact Nat.add_comm _ _

theorem weight_handle (c : SyncEnd) (msg : SyncMsg) :
    ((c.handle crypto now msg).2.map weight).sum < weight msg := by
  have hdelta (c : SyncEnd) (v : BitVec 32) : ((c.sendDeltaTo v).map weight).sum ≤ 1 := by
    unfold SyncEnd.sendDeltaTo
    split
    · exact Nat.le_refl _
    · exact Nat.zero_le _
  cases msg with
  | version v =>
    simp only [SyncEnd.handle]
    split
    · unfold SyncEnd.requestDelta
      split
      · exact (by decide : 2 < 3)
      · exact (by decide : 0 < 3)
    · split
      · exact Nat.lt_of_le_of_lt (hdelta _ v) (by decide : 1 < 3)
      · exact (by decide : 0 < 3)
  | deltaReq v => exact Nat.lt_of_le_of_lt (hdelta c v) (by decide : 1 < 2)
  | delta data =>
    cases hok : applyDelta crypto c.reg data now with
    | error err =>
      rw [handle_delta_error hok]
      exact Nat.one_pos
    | ok r =>
      rw [handle_delta_ok hok]
      exact Nat.one_pos

theorem due_handle (hin : s.inbox k ≠ []) : (s.next crypto (.handle k now)).due < s.due := by
  obtain ⟨msg, rest, hcons⟩ := List.exists_cons_of_ne_nil hin
  have hless := @weight_handle crypto now (s.client k) msg
  have hpopped : (s.setInbox k rest).inbox k = rest := Function.update_self ..
  have hkept : (s.setInbox k rest).inbox (!k) = s.inbox (!k) := Function.update_of_ne (Bool.not_ne_self k) ..
  rw [next_handle_cons hcons, due_eq _ k, due_eq s k, inbox_act, inbox_act_not, hpopped, hkept, hcons, List.map_append,
    List.sum_append, List.map_cons, List.sum_cons]
  omega

end Pair

section Convergence

variable {crypto : Crypto} {s : Pair}

theorem settling_of_reachable (h : ((syncSystem crypto).restrict (Reconciling crypto)).Reachable s) :
    s.Inv ∧ s.Settling := by
  refine h.invariant (I := fun s => s.Inv ∧ s.Settling) (fun s hs => ?_) fun s e t _ hs hstep => ?_
  · exact ⟨Pair.Inv.start hs, Pair.settling_of_starts hs⟩
  · obtain ⟨hok, -, rfl⟩ := hstep
    exact ⟨hs.1.next hok.orderly, hs.2.next hs.1 hok⟩

variable (crypto) in
/-- An end handles a message that has come. -/
def Handles (s : Pair) (e : Bool × I64) : Prop := s.inbox e.1 ≠ [] ∧ Reconciling crypto s (.handle e.1 e.2)

variable (crypto) in
def handleNext (s : Pair) (e : Bool × I64) : Pair := s.next crypto (.handle e.1 e.2)

theorem connected_handle {e : Bool × I64} : (handleNext crypto s e).Connected ↔ s.Connected := by
  unfold handleNext
  cases hin : s.inbox e.1 with
  | nil => rw [Pair.next_handle_nil hin]
  | cons msg rest =>
    rw [Pair.next_handle_cons hin]
    exact Pair.connected_act (SyncEnd.handle_connected (s.client e.1) msg)

theorem connected_handles (es : List (Bool × I64)) :
    (es.foldl (handleNext crypto) s).Connected ↔ s.Connected := by
  induction es generalizing s with
  | nil => exact Iff.rfl
  | cons e es ih => exact ih.trans connected_handle

theorem length_le_due (es : List (Bool × I64)) (hes : System.Enables (Handles crypto) (handleNext crypto) s es) :
    es.length ≤ s.due := by
  induction es generalizing s with
  | nil => exact Nat.zero_le _
  | cons e es ih => exact (ih hes.2).trans_lt (Pair.due_handle hes.1.1)

theorem reachable_handles (es : List (Bool × I64)) (hes : System.Enables (Handles crypto) (handleNext crypto) s es)
    (h : ((syncSystem crypto).restrict (Reconciling crypto)).Reachable s) :
    ((syncSystem crypto).restrict (Reconciling crypto)).Reachable (es.foldl (handleNext crypto) s) := by
  induction es generalizing s with
  | nil => exact h
  | cons e es ih => exact ih hes.2 (.step h ⟨hes.1.2, trivial, rfl⟩)

/-- The registrars have been written while the ends were apart, and each message of a session has arrived. In whatever
order the ends now handle the messages, the exchange comes to an end, and then they are at the same version and have
the same log. -/
theorem sync_converges (h : ((syncSystem crypto).restrict (Reconciling crypto)).Reachable s) (hconn : s.Connected)
    (es : List (Bool × I64)) (hes : System.Enables (Handles crypto) (handleNext crypto) s es) :
    es.length ≤ s.due ∧ ((∀ i, (es.foldl (handleNext crypto) s).inbox i = []) →
      ((es.foldl (handleNext crypto) s).client true).version = ((es.foldl (handleNext crypto) s).client false).version ∧
        ∀ e, e ∈ ((es.foldl (handleNext crypto) s).client true).reg.auditLog.rows ↔
          e ∈ ((es.foldl (handleNext crypto) s).client false).reg.auditLog.rows) := by
  refine ⟨length_le_due es hes, fun hempty => ?_⟩
  obtain ⟨hinv, hsettling⟩ := settling_of_reachable (reachable_handles es hes h)
  have hsame := hsettling.version_eq ((connected_handles es).mpr hconn) hempty
  exact ⟨hsame, hinv.mem_iff hsame⟩

end Convergence

section Signed

theorem signedGroup_rows : (signedGroup lengthHash).auditLog.rows = [createdEntry] ++ [signEntry] :=
  createdGroup_writes signs_writes entry_hashes.1

theorem signEntry_admissible :
    admissible ownerSigns (createdGroup lengthHash) (some (stateOf (signedGroup lengthHash)).received) signEntry := by
  have hhash : signEntry.entryHash = lengthHash signEntry.hashed := entryHash_newEntry ownerSigns ..
  have hintact : intact ownerSigns signEntry = true := decide_eq_true hhash.symm
  have hactor : ((createdGroup lengthHash).peers.find? signEntry.actorId).map (·.signKey) =
    some (member 1).publicKey := rfl
  have hsigned : signedByActor ownerSigns (createdGroup lengthHash) signEntry = true := by
    obtain ⟨p, hp, hkey⟩ := Option.map_eq_some_iff.mp hactor
    simp only [signedByActor, hp]
    exact decide_eq_true hkey
  have hauth : authorized (createdGroup lengthHash) (some (stateOf (signedGroup lengthHash)).received)
    signEntry = true := rfl
  rw [admissible, hintact, hsigned, hauth]
  rfl

theorem signed_accepted : Accepts ownerSigns (createdGroup lengthHash) (serializeDelta (signedGroup lengthHash) 2) 4
    ⟨2, some (stateOf (signedGroup lengthHash)).received, auditDelta (signedGroup lengthHash) 2⟩ :=
  signedGroup_accepted 2 4 rfl

theorem signEntry_inserted : 0 < (mergeDelta ownerSigns (createdGroup lengthHash)
    ⟨2, some (stateOf (signedGroup lengthHash)).received, auditDelta (signedGroup lengthHash) 2⟩).2.entriesNew := by
  have hmem : signEntry ∈ (signedGroup lengthHash).auditLog.rows := by
    rw [signedGroup_rows]
    exact List.mem_append_right _ (List.mem_singleton_self _)
  have hnone : (createdGroup lengthHash).auditLog.find? signEntry.entryHash = none := by
    rw [Table.find?_eq_none, createdGroup_rows]
    intro a ha
    rw [List.mem_singleton.mp ha]
    exact entry_hashes.1
  have hsent : signEntry ∈ auditDelta (signedGroup lengthHash) 2 :=
    mem_auditDelta.mpr ⟨hmem, (by decide : (2 : BitVec 32).toInt < (3 : BitVec 32).toInt)⟩
  rw [entriesNew_mergeDelta, List.length_pos_iff, ne_eq, inserted_eq_nil_iff]
  exact fun hall => hall signEntry hsent hnone signEntry_admissible

theorem signed_welcome :
    Welcome ownerSigns (createdGroup lengthHash) (serializeDelta (signedGroup lengthHash) 2) 4 := by
  refine ⟨_, signed_accepted, fun e he hnew => ?_⟩
  have hmem := (mem_auditDelta.mp he).1
  rw [signedGroup_rows] at hmem
  cases List.mem_append.mp hmem with
  | inl hcreated =>
    rw [Table.find?_eq_none, createdGroup_rows] at hnew
    exact absurd rfl (hnew e hcreated)
  | inr hsigned =>
    rw [List.mem_singleton.mp hsigned]
    exact signEntry_admissible

def pairSigned : Pair :=
  ((pairAlone.next ownerSigns (.establish true)).adopt true (signedGroup lengthHash)).next ownerSigns (.establish false)

theorem pairSigned_client : pairSigned.client =
    fun i => ⟨if i then signedGroup lengthHash else createdGroup lengthHash, 2, true, 0⟩ := by
  funext i
  cases i with
  | true => rfl
  | false => rfl

theorem pairSigned_inbox : pairSigned.inbox = fun _ => [.version 2] := by
  funext i
  cases i with
  | true => rfl
  | false => rfl

theorem pairSigned_reachable : ((syncSystem ownerSigns).restrict (Reconciling ownerSigns)).Reachable pairSigned := by
  have hrun : Mutation.run ownerSigns (createdGroup lengthHash) ⟨2, 2000000⟩ (.sign (member 1)) =
    .ok (signedGroup lengthHash) := grSign_createdGroup
  have htold : ((syncSystem ownerSigns).restrict (Reconciling ownerSigns)).Reachable
      (pairAlone.next ownerSigns (.establish true)) :=
    .step (e := SyncEvent.establish true) (.init pairAlone_starts) ⟨trivial, rfl, rfl⟩
  have hmay : Reconciling ownerSigns (pairAlone.next ownerSigns (.establish true))
      (.mutate true (.sign (member 1)) ⟨2, 2000000⟩) := by
    refine ⟨fun hconn => Bool.noConfusion (hconn false), fun reg' e hok hw => ?_⟩
    obtain rfl := Except.ok.inj (hrun.symm.trans hok)
    exact ⟨BitVec.le_refl _, (by decide : 2 + 1 < 2 ^ 31), signs_fresh hw⟩
  have hsigned := htold.step ⟨hmay, trivial, (Pair.next_mutate_ok hrun).symm⟩
  exact hsigned.step (e := SyncEvent.establish false) ⟨trivial, rfl, rfl⟩

theorem fits_signedGroup : Fits (signedGroup lengthHash) :=
  ⟨(by decide : 1 < 2 ^ 32), (by decide : 0 < 2 ^ 32), (by decide : 0 < 2 ^ 32), (by decide : 0 < 2 ^ 32),
    (by decide : 1 < 2 ^ 32)⟩

def signedExchange : List (Bool × I64) := [(false, 3), (true, 3), (false, 4)]

theorem pairSigned_heard : handleNext ownerSigns pairSigned (false, 3) =
    ⟨fun i => ⟨if i then signedGroup lengthHash else createdGroup lengthHash, 2, true, if i then 0 else 2⟩,
      fun i => if i then [.version 2] else [], pairSigned.made⟩ := by
  have hinbox : pairSigned.inbox false = [.version 2] := congrFun pairSigned_inbox false
  have hversion : (createdGroup lengthHash).header.version = 2 := rfl
  rw [handleNext, Pair.next_handle_cons hinbox]
  simp only [Pair.act, Pair.setClient, Pair.setInbox, pairSigned_client, pairSigned_inbox, SyncEnd.handle,
    SyncEnd.version, hversion, Bool.false_eq_true, ↓reduceIte, BitVec.lt_irrefl, gt_iff_lt, List.append_nil]
  congr 1
  · funext i
    cases i with
    | true => rfl
    | false => rfl
  · funext i
    cases i with
    | true => rfl
    | false => rfl

def pairTold : Pair where
  client i := ⟨if i then signedGroup lengthHash else createdGroup lengthHash, 2, true, 2⟩
  inbox i := if i then [] else [.delta (serializeDelta (signedGroup lengthHash) 2)]
  made := pairSigned.made

theorem pairSigned_told : handleNext ownerSigns (handleNext ownerSigns pairSigned (false, 3)) (true, 3) = pairTold := by
  have hversion : (signedGroup lengthHash).header.version = 3 := rfl
  have hless : (2 : BitVec 32) < 3 := by decide
  have hnot : ¬ (3 : BitVec 32) < 2 := by decide
  rw [pairSigned_heard, pairTold]
  change Pair.next _ _ _ = _
  rw [Pair.next_handle_cons rfl]
  simp only [Pair.act, Pair.setClient, Pair.setInbox, SyncEnd.handle, SyncEnd.sendDeltaTo,
    SyncEnd.version, hversion, ↓reduceIte, gt_iff_lt, hless, hnot]
  congr 1
  · funext i
    cases i with
    | true => rfl
    | false => rfl
  · funext i
    cases i with
    | true => rfl
    | false => rfl

theorem signedExchange_enabled :
    System.Enables (Handles ownerSigns) (handleNext ownerSigns) pairSigned signedExchange := by
  have hin : pairTold.inbox false = [.delta (serializeDelta (signedGroup lengthHash) 2)] := rfl
  have hreg : (pairTold.client false).reg = createdGroup lengthHash := rfl
  refine ⟨⟨?_, ?_, ?_⟩, ⟨?_, ?_, ?_⟩, ⟨?_, ?_, ?_⟩, trivial⟩
  · rw [pairSigned_inbox]
    exact List.cons_ne_nil _ _
  · rw [pairSigned_client]
    exact fits_createdGroup
  · intro data rest hin
    rw [pairSigned_inbox] at hin
    cases hin
  · rw [pairSigned_heard]
    exact List.cons_ne_nil _ _
  · rw [pairSigned_heard]
    exact fits_signedGroup
  · intro data rest hin
    rw [pairSigned_heard] at hin
    cases hin
  · rw [pairSigned_told, hin]
    exact List.cons_ne_nil _ _
  · rw [pairSigned_told]
    exact fits_createdGroup
  · intro data rest hdata
    rw [pairSigned_told] at hdata ⊢
    rw [hreg, ← SyncMsg.delta.inj (List.cons.inj (hin.symm.trans hdata)).1]
    exact signed_welcome

/-- The exchange of one end that has signed, and told its version before, so that the other learns of it
by the delta alone. -/
def pairExchanged : Pair := signedExchange.foldl (handleNext ownerSigns) pairSigned

theorem pairExchanged_reachable : ((syncSystem ownerSigns).restrict (Reconciling ownerSigns)).Reachable pairExchanged :=
  reachable_handles signedExchange signedExchange_enabled pairSigned_reachable

theorem pairSigned_connected : pairSigned.Connected := by
  intro i
  rw [pairSigned_client]

theorem pairExchanged_ends : pairExchanged.client true = ⟨signedGroup lengthHash, 2, true, 2⟩ ∧
    (∃ reg, pairExchanged.client false = ⟨reg, reg.header.version, true, 2⟩) ∧ ∀ i, pairExchanged.inbox i = [] := by
  have hin : pairTold.inbox false = [.delta (serializeDelta (signedGroup lengthHash) 2)] := rfl
  have hok : applyDelta ownerSigns (createdGroup lengthHash) (serializeDelta (signedGroup lengthHash) 2) 4 = _ :=
    applyDelta_eq_ok.mpr ⟨_, signed_accepted, rfl⟩
  have hend : pairExchanged = handleNext ownerSigns pairTold (false, 4) := by
    rw [← pairSigned_told]
    rfl
  have hclient : pairTold.client false = ⟨createdGroup lengthHash, 2, true, 2⟩ := rfl
  have hnew := signEntry_inserted
  generalize mergeDelta ownerSigns (createdGroup lengthHash) _ = merged at hok hnew
  have hhandle : (pairTold.client false).handle ownerSigns 4 (.delta (serializeDelta (signedGroup lengthHash) 2)) =
      (⟨cutLog merged.1 merged.2, (cutLog merged.1 merged.2).header.version, true, 2⟩, []) := by
    rw [hclient, Pair.handle_delta_ok (c := ⟨createdGroup lengthHash, 2, true, 2⟩) hok, if_pos hnew]
  have hact : pairExchanged = (pairTold.setInbox false []).act false
      (⟨cutLog merged.1 merged.2, (cutLog merged.1 merged.2).header.version, true, 2⟩, []) := by
    rw [hend, handleNext, Pair.next_handle_cons hin, ← hhandle]
  rw [hact]
  refine ⟨?_, ⟨cutLog merged.1 merged.2, ?_⟩, fun i => ?_⟩
  · exact Pair.client_act_not (pairTold.setInbox false []) false _ _
  · exact Pair.client_act (pairTold.setInbox false []) false _ _
  · cases i with
    | true => exact Pair.inbox_act_not (pairTold.setInbox false []) false _ _
    | false => exact Pair.inbox_act (pairTold.setInbox false []) false _ _

theorem sync_converges_signed :
    signedExchange.length ≤ pairSigned.due ∧
      ((signedExchange.foldl (handleNext ownerSigns) pairSigned).client true).version =
        ((signedExchange.foldl (handleNext ownerSigns) pairSigned).client false).version ∧
      ∀ e, e ∈ ((signedExchange.foldl (handleNext ownerSigns) pairSigned).client true).reg.auditLog.rows ↔
        e ∈ ((signedExchange.foldl (handleNext ownerSigns) pairSigned).client false).reg.auditLog.rows := by
  obtain ⟨hdue, hdone⟩ := sync_converges pairSigned_reachable pairSigned_connected signedExchange signedExchange_enabled
  refine ⟨hdue, hdone fun i => ?_⟩
  exact pairExchanged_ends.2.2 i

theorem version_congr {c c' : SyncEnd} (h : c.reg = c'.reg) : c.version = c'.version := by
  rw [SyncEnd.version, SyncEnd.version, h]

theorem poll_told {c : SyncEnd} (h : c.lastBroadcastVer = c.remoteVersion)
    (hremote : c.remoteVersion ≠ 0) :
    c.poll.2 = [] ∧ c.poll.1.reg = c.reg ∧ c.poll.1.connected = c.connected ∧
      c.version ≤ c.poll.1.lastBroadcastVer := by
  unfold SyncEnd.poll SyncEnd.broadcastDelta
  split
  · refine ⟨if_neg ?_, rfl, rfl, BitVec.le_refl _⟩
    rintro (hless | hzero)
    · exact BitVec.lt_irrefl _ (h ▸ hless)
    · exact hremote hzero
  · rename_i hnot
    exact ⟨rfl, rfl, rfl, BitVec.not_lt.mp hnot⟩

theorem quiet_poll {s : Pair} (hconn : s.Connected) (hempty : ∀ i, s.inbox i = [])
    (htold : (s.client true).lastBroadcastVer = (s.client true).remoteVersion)
    (hremote : (s.client true).remoteVersion ≠ 0)
    (hmerged : (s.client false).version ≤ (s.client false).lastBroadcastVer) :
    (s.next crypto (.poll true)).Quiet ∧ ∀ i, ((s.next crypto (.poll true)).client i).reg = (s.client i).reg := by
  obtain ⟨hmsgs, hreg, hconn', hver⟩ := poll_told htold hremote
  have htrue : (s.next crypto (.poll true)).client true = (s.client true).poll.1 := Pair.client_act ..
  have hfalse : (s.next crypto (.poll true)).client false = s.client false := Pair.client_act_not s true _ _
  refine ⟨⟨fun i => ?_, fun i => ?_, fun i => ?_⟩, fun i => ?_⟩
  · cases i with
    | true => rw [htrue, hconn', hconn true]
    | false => rw [hfalse, hconn false]
  · cases i with
    | true => exact (Pair.inbox_act s true _ _).trans (hempty true)
    | false =>
      have hsent : (s.next crypto (.poll true)).inbox false = s.inbox false ++ (s.client true).poll.2 :=
        Pair.inbox_act_not s true (s.client true).poll.1 (s.client true).poll.2
      rw [hsent, hmsgs, List.append_nil]
      exact hempty false
  · cases i with
    | true =>
      rw [htrue, SyncEnd.version, hreg]
      exact hver
    | false =>
      rw [hfalse]
      exact hmerged
  · cases i with
    | true => rw [htrue, hreg]
    | false => rw [hfalse]

/-- One end has signed, the other one has merged its delta, and there is nothing left to broadcast. -/
def pairSynced : Pair := pairExchanged.next ownerSigns (.poll true)

-- The exchange is over, and both ends have the entry.
theorem sync_agrees_of_orderly_synced : pairSynced.Quiet ∧
    (pairSynced.client true).version = (pairSynced.client false).version ∧
    ∀ e, e ∈ (pairSynced.client true).reg.auditLog.rows ↔ e ∈ (pairSynced.client false).reg.auditLog.rows := by
  have hconn : pairExchanged.Connected := (connected_handles signedExchange).mpr pairSigned_connected
  obtain ⟨htrue, ⟨reg, hfalse⟩, hempty⟩ := pairExchanged_ends
  have hversion := (settling_of_reachable pairExchanged_reachable).2.version_eq hconn hempty
  have hreach : ((syncSystem ownerSigns).restrict (Orderly ownerSigns)).Reachable pairExchanged :=
    pairExchanged_reachable.restrict_mono fun _ _ h => h.orderly
  have hfits : Orderly ownerSigns pairExchanged (.poll true) := by
    change Fits (pairExchanged.client true).reg
    rw [htrue]
    exact fits_signedGroup
  have hpolled : ((syncSystem ownerSigns).restrict (Orderly ownerSigns)).step pairExchanged (.poll true) pairSynced :=
    ⟨hfits, trivial, rfl⟩
  have htold : (pairExchanged.client true).lastBroadcastVer = (pairExchanged.client true).remoteVersion := by
    rw [htrue]
  have hremote : (pairExchanged.client true).remoteVersion ≠ 0 := by
    rw [htrue]
    decide
  have hmerged : (pairExchanged.client false).version ≤ (pairExchanged.client false).lastBroadcastVer := by
    rw [hfalse]
    exact BitVec.le_refl _
  obtain ⟨hquiet, hregs⟩ : pairSynced.Quiet ∧ ∀ i, (pairSynced.client i).reg = (pairExchanged.client i).reg :=
    quiet_poll hconn hempty htold hremote hmerged
  have hsame : (pairSynced.client true).version = (pairSynced.client false).version :=
    (version_congr (hregs true)).trans (hversion.trans (version_congr (hregs false)).symm)
  exact ⟨hquiet, hsame, sync_agrees_of_orderly (hreach.step hpolled) hquiet hsame⟩

end Signed

end YumiBrowser.Client
