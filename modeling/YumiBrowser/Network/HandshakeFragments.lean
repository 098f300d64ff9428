import YumiBrowser.Library.ByteCodec
import YumiBrowser.Library.Gathering

namespace YumiBrowser.Sudp

open Wire Gathering

def hsFragHdr : ℕ := 8
def hsBufMax : ℕ := 48 * 1024

/-- A call of `sudp_frag_send`, and what the inner transport takes at a time. -/
structure Sending where
  innerMax : ℕ
  msgType : Byte
  data : List Byte

namespace Sending

variable (s : Sending)

def fragDataMax : ℕ := s.innerMax - hsFragHdr

def fragTotal : ℕ := (s.data.length + s.fragDataMax - 1) / s.fragDataMax % 2 ^ 32

def chunk (i : ℕ) : List Byte := (s.data.drop (i * s.fragDataMax)).take s.fragDataMax

def packet (i : ℕ) : List Byte :=
  0 :: 0 :: 0 :: 0 :: s.msgType :: BitVec.ofNat 8 s.fragTotal :: BitVec.ofNat 8 i :: 0 :: s.chunk i

def fragSend : Option (List (List Byte)) :=
  if s.innerMax ≤ hsFragHdr then none
  else if 255 < s.fragTotal ∨ s.fragTotal = 0 then none
  else some ((List.range s.fragTotal).map s.packet)

def wire : Byte × List Byte := (s.msgType, s.data)

end Sending

structure Fragment where
  msgType : Byte
  total : ℕ
  index : ℕ
  data : List Byte

def Fragment.parse : List Byte → Option Fragment
  | _ :: _ :: _ :: _ :: msgType :: total :: index :: _ :: data => some ⟨msgType, total.toNat, index.toNat, data⟩
  | _ => none

/-- The part of `sudp_hs_ctx_t` that puts fragments together. -/
structure Reassembly where
  frags : ℕ → Option (List Byte)
  fragTotal : ℕ
  fragReceived : ℕ
  fragStartUs : BitVec 64

namespace Reassembly

def fresh : Reassembly where
  frags _ := none
  fragTotal := 0
  fragReceived := 0
  fragStartUs := 0

/-- `hs_reasm_reset` -/
def reset (h : Reassembly) : Reassembly := { fresh with fragStartUs := h.fragStartUs }

def begin (h : Reassembly) (total : ℕ) (now : BitVec 64) : Reassembly :=
  if h.fragTotal = 0 then { h with fragTotal := total, fragStartUs := now } else h

def late (h : Reassembly) (now : BitVec 64) : Bool :=
  h.fragStartUs ≠ 0 ∧ 5 * 1000000 < (now - h.fragStartUs).toNat

def store (h : Reassembly) (index : ℕ) (data : List Byte) : Reassembly :=
  { h with frags := Function.update h.frags index (some data), fragReceived := h.fragReceived + 1 }

def finish (h : Reassembly) : Reassembly × Option (List Byte) :=
  let msg := joined h.frags h.fragTotal
  (h.reset, if hsBufMax < msg.length then none else some msg)

/-- `sudp_frag_receive`, once the counts have been compared. -/
def add (h : Reassembly) (index : ℕ) (data : List Byte) (now : BitVec 64) : Reassembly × Option (List Byte) :=
  if h.late now then ({ h.reset with fragStartUs := 0 }, none)
  else if (h.frags index).isSome then (h, none)
  else if hsBufMax < data.length then (h, none)
  else if (h.store index data).fragReceived < h.fragTotal then (h.store index data, none)
  else (h.store index data).finish

def fragReceive (h : Reassembly) (f : Fragment) (now : BitVec 64) : Reassembly × Option (List Byte) :=
  if f.total = 0 ∨ f.total ≤ f.index then (h, none)
  else if h.fragTotal ≠ 0 ∧ f.total ≠ h.fragTotal then (h, none)
  else (h.begin f.total now).add f.index f.data now

end Reassembly

/-- What happens to a handshake context, as far as its fragments are concerned. -/
inductive HsEvent
  | recv (pkt : List Byte) (now : BitVec 64)
  | create
  | destroy

/-- The messages that are complete go to `sudp_process_handshake_msg`, with the type in the packet
that completes them. -/
def innerRecvFragment (hs : Option Reassembly) (pkt : List Byte) (now : BitVec 64) :
    Option Reassembly × Option (Byte × List Byte) :=
  match hs, Fragment.parse pkt with
  | some h, some f =>
    if pkt.take 4 = [0, 0, 0, 0] then
      (some (h.fragReceive f now).1, (h.fragReceive f now).2.map fun msg => (f.msgType, msg))
    else (hs, none)
  | _, _ => (hs, none)

def hsNext (hs : Option Reassembly) : HsEvent → Option Reassembly × Option (Byte × List Byte)
  | .recv pkt now => innerRecvFragment hs pkt now
  | .create => (some (hs.getD .fresh), none)
  | .destroy => (none, none)

def hsAfter (hs : Option Reassembly) (es : List HsEvent) : Option Reassembly :=
  es.foldl (fun hs e => (hsNext hs e).1) hs

def completions : Option Reassembly → List HsEvent → List (Byte × List Byte)
  | _, [] => []
  | hs, e :: es => (hsNext hs e).2.toList ++ completions (hsNext hs e).1 es

namespace Sending

variable {s : Sending} {packets : List (List Byte)}

def fragment (s : Sending) (i : ℕ) : Fragment := ⟨s.msgType, s.fragTotal, i, s.chunk i⟩

theorem fragSend_eq_some (h : s.fragSend = some packets) :
    hsFragHdr < s.innerMax ∧ 0 < s.fragTotal ∧ s.fragTotal ≤ 255 ∧
      packets = (List.range s.fragTotal).map s.packet := by
  unfold fragSend at h
  split at h
  · cases h
  · next hmax =>
    split at h
    · cases h
    · next htotal =>
      obtain ⟨hle, hpos⟩ := not_or.mp htotal
      exact ⟨Nat.lt_of_not_le hmax, Nat.pos_of_ne_zero hpos, Nat.le_of_not_lt hle, (Option.some.inj h).symm⟩

theorem parse_packet (htotal : s.fragTotal ≤ 255) {i : ℕ} (hi : i < s.fragTotal) :
    Fragment.parse (s.packet i) = some (s.fragment i) := by
  have htotal' : (BitVec.ofNat 8 s.fragTotal).toNat = s.fragTotal := Nat.mod_eq_of_lt (by omega)
  have hindex : (BitVec.ofNat 8 i).toNat = i := Nat.mod_eq_of_lt (by omega)
  simp only [packet, Fragment.parse, fragment, htotal', hindex]

theorem flatMap_chunk (hmax : hsFragHdr < s.innerMax) (hlen : s.data.length ≤ hsBufMax) :
    (List.range s.fragTotal).flatMap s.chunk = s.data := by
  have hpos : 0 < s.fragDataMax := Nat.sub_pos_of_lt hmax
  have hlimit : hsBufMax < 2 ^ 31 := by decide
  have htotal : s.fragTotal = (s.data.length + s.fragDataMax - 1) / s.fragDataMax :=
    Nat.mod_eq_of_lt (Nat.div_lt_of_lt_mul (by omega))
  have hcovers : s.data.length ≤ s.fragTotal * s.fragDataMax := by
    have hnext := Nat.lt_mul_div_succ (s.data.length + s.fragDataMax - 1) hpos
    rw [← htotal, Nat.mul_succ, Nat.mul_comm] at hnext
    omega
  rw [show s.chunk = fun i => (s.data.drop (i * s.fragDataMax)).take s.fragDataMax from rfl, flatMap_slices]
  exact List.take_of_length_le hcovers

end Sending

namespace Reassembly

variable {h : Reassembly} {f : Fragment} {s : Sending} {total index : ℕ} {data msg : List Byte} {now : BitVec 64}

/-- What holds of the buffer at any time. -/
structure Sound (h : Reassembly) : Prop where
  received : h.fragReceived = (held h.frags h.fragTotal).card
  within : ∀ i, (h.frags i).isSome → i < h.fragTotal
  missing : h.fragTotal ≠ 0 → h.fragReceived < h.fragTotal

theorem sound_reset (h : Reassembly) (start : BitVec 64) : { h.reset with fragStartUs := start }.Sound where
  received := (Finset.card_eq_zero.mpr (held_empty fun _ => rfl)).symm
  within _ hi := by cases hi
  missing hne := absurd rfl hne

theorem sound_fresh : fresh.Sound := sound_reset fresh 0

theorem Sound.frags_none (hs : h.Sound) (hzero : h.fragTotal = 0) (i : ℕ) : h.frags i = none := by
  rw [← Option.not_isSome_iff_eq_none]
  intro hsome
  exact absurd (hs.within i hsome) (by rw [hzero]; exact Nat.not_lt_zero i)

theorem begin_of_ne (hne : h.fragTotal ≠ 0) : h.begin total now = h := if_neg hne

theorem begin_of_eq (hzero : h.fragTotal = 0) :
    h.begin total now = { h with fragTotal := total, fragStartUs := now } := if_pos hzero

theorem frags_begin : (h.begin total now).frags = h.frags := by
  by_cases hzero : h.fragTotal = 0
  · rw [begin_of_eq hzero]
  · rw [begin_of_ne hzero]

theorem fragTotal_begin (hcount : h.fragTotal = 0 ∨ total = h.fragTotal) : (h.begin total now).fragTotal = total := by
  by_cases hzero : h.fragTotal = 0
  · rw [begin_of_eq hzero]
  · rw [begin_of_ne hzero]
    exact (hcount.resolve_left hzero).symm

theorem Sound.begin (hs : h.Sound) (hpos : 0 < total) : (h.begin total now).Sound := by
  by_cases hzero : h.fragTotal = 0
  · have hnone := hs.frags_none hzero
    have hreceived : h.fragReceived = 0 := by
      rw [hs.received, held_empty hnone, Finset.card_empty]
    rw [begin_of_eq hzero]
    refine ⟨?_, fun i hi => ?_, fun _ => hreceived.trans_lt hpos⟩
    · exact hreceived.trans (Finset.card_eq_zero.mpr (held_empty hnone)).symm
    · rw [hnone i] at hi
      cases hi
  · rwa [begin_of_ne hzero]

structure Takes (h : Reassembly) (index : ℕ) (data : List Byte) (now : BitVec 64) : Prop where
  inTime : h.late now = false
  free : h.frags index = none
  size : data.length ≤ hsBufMax

theorem add_cases (h : Reassembly) (index : ℕ) (data : List Byte) (now : BitVec 64) :
    (h.late now = true ∧ h.add index data now = ({ h.reset with fragStartUs := 0 }, none)) ∨
    (h.late now = false ∧ (h.frags index = none → hsBufMax < data.length) ∧ h.add index data now = (h, none)) ∨
    (h.Takes index data now ∧ h.add index data now =
      if h.fragReceived + 1 < h.fragTotal then (h.store index data, none) else (h.store index data).finish) := by
  unfold add
  split
  · next hlate => exact .inl ⟨hlate, rfl⟩
  · next hlate =>
    have hin : h.late now = false := Bool.eq_false_of_not_eq_true hlate
    split
    · next htaken =>
      refine .inr (.inl ⟨hin, fun hnone => ?_, rfl⟩)
      rw [hnone] at htaken
      cases htaken
    · next hfree =>
      split
      · next hbig => exact .inr (.inl ⟨hin, fun _ => hbig, rfl⟩)
      · next hsmall =>
        exact .inr (.inr ⟨⟨hin, Option.not_isSome_iff_eq_none.mp hfree, Nat.le_of_not_lt hsmall⟩, rfl⟩)

theorem card_store (hs : h.Sound) (hindex : index < h.fragTotal) (hfree : h.frags index = none) :
    (held (h.store index data).frags h.fragTotal).card = h.fragReceived + 1 := by
  rw [hs.received]
  exact card_held_update hindex hfree

theorem Sound.add (hs : h.Sound) (hindex : index < h.fragTotal) : (h.add index data now).1.Sound := by
  rcases add_cases h index data now with ⟨-, heq⟩ | ⟨-, -, heq⟩ | ⟨htakes, heq⟩
  · rw [heq]
    exact sound_reset h 0
  · rwa [heq]
  · rw [heq]
    split
    · next hmore =>
      refine ⟨(card_store hs hindex htakes.free).symm, fun i hi => ?_, fun _ => hmore⟩
      by_cases heq : i = index
      · rwa [heq]
      · change (Function.update h.frags index (some data) i).isSome at hi
        rw [Function.update_of_ne heq] at hi
        exact hs.within i hi
    · exact sound_reset (h.store index data) h.fragStartUs

theorem Sound.fragReceive (hs : h.Sound) : (h.fragReceive f now).1.Sound := by
  unfold Reassembly.fragReceive
  split
  · exact hs
  · next hindex =>
    split
    · exact hs
    · next hcount =>
      apply (hs.begin (by omega)).add
      rw [fragTotal_begin (by omega)]
      omega

structure Stores (h : Reassembly) (f : Fragment) (now : BitVec 64) : Prop where
  index : f.index < f.total
  count : h.fragTotal = 0 ∨ f.total = h.fragTotal
  takes : (h.begin f.total now).Takes f.index f.data now

theorem fragReceive_of_count (hindex : f.index < f.total) (hcount : h.fragTotal = 0 ∨ f.total = h.fragTotal) :
    h.fragReceive f now = (h.begin f.total now).add f.index f.data now := by
  unfold fragReceive
  rw [if_neg (by omega), if_neg (by omega)]

theorem fragReceive_some (hs : h.Sound) (hout : (h.fragReceive f now).2 = some msg) :
    h.Stores f now ∧ (∀ i < f.total, (Function.update h.frags f.index (some f.data) i).isSome) ∧
      msg = joined (Function.update h.frags f.index (some f.data)) f.total ∧ msg.length ≤ hsBufMax := by
  by_cases hindex : f.index < f.total
  · by_cases hcount : h.fragTotal = 0 ∨ f.total = h.fragTotal
    · rw [fragReceive_of_count hindex hcount] at hout
      have hbegin : (h.begin f.total now).Sound := hs.begin (by omega)
      have htotal : (h.begin f.total now).fragTotal = f.total := fragTotal_begin hcount
      rcases add_cases (h.begin f.total now) f.index f.data now with ⟨-, heq⟩ | ⟨-, -, heq⟩ | ⟨htakes, heq⟩
      · rw [heq] at hout
        cases hout
      · rw [heq] at hout
        cases hout
      · rw [heq] at hout
        split at hout
        · cases hout
        · next hlast =>
          have hcard := @card_store _ _ f.data hbegin (hindex.trans_eq htotal.symm) htakes.free
          have hmissing := hbegin.missing (by omega)
          simp only [finish, store, htotal, frags_begin] at hout hcard
          split at hout
          · cases hout
          · next hsize =>
            obtain rfl := Option.some.inj hout
            refine ⟨⟨hindex, hcount, htakes⟩, fun i hi => isSome_of_card ?_ hi, rfl, Nat.le_of_not_lt hsize⟩
            rw [hcard]
            omega
    · unfold fragReceive at hout
      rw [if_neg (by omega), if_pos (by omega)] at hout
      cases hout
  · unfold fragReceive at hout
    rw [if_pos (by omega)] at hout
    cases hout

def PiecesOf (s : Sending) (h : Reassembly) : Prop :=
  h.fragTotal = 0 ∨ (h.fragTotal = s.fragTotal ∧ PartOf s.chunk h.frags)

theorem PiecesOf.partOf (hp : h.PiecesOf s) (hs : h.Sound) : PartOf s.chunk h.frags := by
  cases hp with
  | inl hzero =>
    intro i a ha
    rw [hs.frags_none hzero i] at ha
    cases ha
  | inr hof => exact hof.2

theorem joined_pieces (hall : ∀ i < s.fragTotal, (h.frags i).isSome) (hpart : PartOf s.chunk h.frags)
    (hmax : hsFragHdr < s.innerMax) (hlen : s.data.length ≤ hsBufMax) : joined h.frags s.fragTotal = s.data := by
  rw [joined_eq hall hpart]
  exact Sending.flatMap_chunk hmax hlen

theorem fragReceive_pieces (hs : h.Sound) (hp : h.PiecesOf s) (hmax : hsFragHdr < s.innerMax)
    (hlen : s.data.length ≤ hsBufMax) (hout : (h.fragReceive (s.fragment index) now).2 = some msg) :
    msg = s.data := by
  obtain ⟨-, hall, rfl, -⟩ := fragReceive_some hs hout
  exact @joined_pieces (h.store index (s.chunk index)) s hall ((hp.partOf hs).update index) hmax hlen

end Reassembly

end YumiBrowser.Sudp
