import Mathlib.Data.Int.Notation
import YumiBrowser.Library.RingBuffer
import YumiBrowser.Library.System

universe u

namespace YumiBrowser.Media

open Transition RingBuffer

def vpktQueueCap : ℕ := 128

structure Packet (α : Type u) where
  streamIndex : ℕ
  data : α

structure Streams where
  videoStreamIdx : ℤ
  audioStreamIdx : ℤ
  codecCtx : Bool
  sdlStream : Bool
  opened : codecCtx = true ↔ 0 ≤ videoStreamIdx
  apart : 0 ≤ videoStreamIdx → audioStreamIdx ≠ videoStreamIdx

/-- `demuxed` and `sent` are the packets that `av_read_frame` has returned and those that the video decoder
was given. -/
structure MediaContext (α : Type u) where
  videoPktQueue : List (Option (Packet α))
  videoPktHead : ℕ
  videoPktCount : ℕ
  paused : Bool
  demuxed : List (Packet α)
  sent : List (Packet α)

structure PumpAnswer (α : Type u) where
  queued : ℤ
  read : Option (Packet α)

/-- What `avcodec_receive_frame` returns. -/
inductive Receive
  | frame | again | eof | error

structure DecodeAnswer (α : Type u) where
  read : Option (Packet α)
  eof : Bool
  receive : Receive

inductive Ending
  | again
  | frame
  | returned (rc : ℤ)
  deriving DecidableEq

def Receive.ending : Receive → Ending
  | .frame => .frame
  | .again => .again
  | .eof => .returned 0
  | .error => .returned (-1)

def Streams.IsVideo (st : Streams) (pkt : Packet α) : Prop := (pkt.streamIndex : ℤ) = st.videoStreamIdx

instance Streams.isVideoDecidable (st : Streams) (pkt : Packet α) : Decidable (st.IsVideo pkt) :=
  inferInstanceAs (Decidable (_ = _))

namespace MediaContext

variable {α : Type u} (st : Streams) (mc : MediaContext α)

def opened : MediaContext α := ⟨List.replicate vpktQueueCap none, 0, 0, false, [], []⟩

def demux (pkt : Packet α) : MediaContext α := { mc with demuxed := mc.demuxed ++ [pkt] }

def send (pkt : Packet α) : MediaContext α := { mc with sent := mc.sent ++ [pkt] }

def stash (pkt : Packet α) : MediaContext α :=
  { mc with
    videoPktQueue := mc.videoPktQueue.set ((mc.videoPktHead + mc.videoPktCount) % vpktQueueCap) (some pkt)
    videoPktCount := mc.videoPktCount + 1 }

def vpktQueuePop : Option (Packet α) × MediaContext α :=
  if mc.videoPktCount = 0 then (none, mc)
  else
    (mc.videoPktQueue.getD mc.videoPktHead none,
      { mc with
        videoPktQueue := mc.videoPktQueue.set mc.videoPktHead none
        videoPktHead := (mc.videoPktHead + 1) % vpktQueueCap
        videoPktCount := mc.videoPktCount - 1 })

def target : ℤ := 48000 * 2 * 2 / 5

def pumpTurn (a : PumpAnswer α) : MediaContext α × Bool :=
  if target ≤ a.queued then (mc, false)
  else
    a.read.elim (mc, false) fun pkt =>
      if (pkt.streamIndex : ℤ) = st.audioStreamIdx then (mc.demux pkt, true)
      else if st.codecCtx = true ∧ st.IsVideo pkt then
        if vpktQueueCap ≤ mc.videoPktCount then (mc.demux pkt, false) else ((mc.demux pkt).stash pkt, true)
      else (mc.demux pkt, true)

def pumpLoop : ℕ → List (PumpAnswer α) → MediaContext α → MediaContext α
  | 0, _, mc => mc
  | _ + 1, [], mc => mc
  | n + 1, a :: as, mc =>
    if (pumpTurn st mc a).2 = true then pumpLoop n as (pumpTurn st mc a).1 else (pumpTurn st mc a).1

def pumpAudioBuffer (as : List (PumpAnswer α)) : MediaContext α :=
  if st.sdlStream = false then mc else if mc.paused = true then mc else pumpLoop st 500 as mc

def decodeTurn (a : DecodeAnswer α) : MediaContext α × Ending :=
  mc.vpktQueuePop.1.elim
    (a.read.elim (mc.vpktQueuePop.2, .returned (if a.eof then 0 else -1)) fun pkt =>
      if (pkt.streamIndex : ℤ) = st.audioStreamIdx then (mc.vpktQueuePop.2.demux pkt, .again)
      else if ¬ st.IsVideo pkt then (mc.vpktQueuePop.2.demux pkt, .again)
      else ((mc.vpktQueuePop.2.demux pkt).send pkt, a.receive.ending))
    fun qpkt => (mc.vpktQueuePop.2.send qpkt, a.receive.ending)

def decodeLoop : List (DecodeAnswer α) → MediaContext α → MediaContext α × Ending
  | [], mc => (mc, .again)
  | a :: as, mc =>
    if (decodeTurn st mc a).2 = .again then decodeLoop as (decodeTurn st mc a).1 else decodeTurn st mc a

/-- `shown` tells whether the frame gets to its texture. -/
def decodeNextVideoFrame (as : List (DecodeAnswer α)) (shown : Bool) (pumps : List (PumpAnswer α)) :
    MediaContext α × Ending :=
  if st.videoStreamIdx < 0 then (mc, .returned (-1))
  else if (decodeLoop st as mc).2 = .frame then
    if shown = true then (pumpAudioBuffer st (decodeLoop st as mc).1 pumps, .returned 1)
    else ((decodeLoop st as mc).1, .returned (-1))
  else decodeLoop st as mc

end MediaContext

open MediaContext

/-- The calls, but that the pumping at the end of `decode_next_video_frame` is a step of its own. -/
inductive Call (α : Type u)
  | pump (as : List (PumpAnswer α))
  | decode (as : List (DecodeAnswer α))
  | setPaused (want : Bool)

section Steps

variable {α : Type u} (st : Streams)

def next (mc : MediaContext α) : Call α → MediaContext α
  | .pump as => mc.pumpAudioBuffer st as
  | .decode as => if st.videoStreamIdx < 0 then mc else (decodeLoop st as mc).1
  | .setPaused want => { mc with paused := want }

/-- The video packets that the decoder was given and those in the queue are those of the file so far. -/
structure Lossless (mc : MediaContext α) : Prop where
  order : mc.sent.map some ++ contents mc.videoPktQueue mc.videoPktHead mc.videoPktCount =
    (mc.demuxed.filter fun pkt => st.IsVideo pkt).map some
  head : mc.videoPktHead < vpktQueueCap
  count : mc.videoPktCount ≤ vpktQueueCap

def PumpAnswer.Reads (a : PumpAnswer α) : Prop := a.queued < target ∧ a.read.isSome

instance PumpAnswer.readsDecidable (a : PumpAnswer α) : Decidable a.Reads := inferInstanceAs (Decidable (_ ∧ _))

/-- How many of the packets that come up in a call of the pump, in no more than `n` turns, are video. -/
def videosRead (n : ℕ) (as : List (PumpAnswer α)) : ℕ :=
  ((as.take n).takeWhile fun a => a.Reads).countP fun a => a.read.any fun pkt => st.IsVideo pkt

/-- The pump does not get to more video packets than the queue has room for. -/
def Fits (mc : MediaContext α) : Call α → Prop
  | .pump as =>
    st.sdlStream = true → mc.paused = false → mc.videoPktCount + videosRead st 500 as ≤ vpktQueueCap
  | _ => True

end Steps

section Turns

variable {α : Type u} {st : Streams} {mc : MediaContext α} {pkt : Packet α}

theorem Streams.IsVideo.not_audio (h : st.IsVideo pkt) :
    0 ≤ st.videoStreamIdx ∧ (pkt.streamIndex : ℤ) ≠ st.audioStreamIdx := by
  have heq : (pkt.streamIndex : ℤ) = st.videoStreamIdx := h
  have hpos : 0 ≤ st.videoStreamIdx := heq ▸ Int.natCast_nonneg _
  exact ⟨hpos, fun haudio => st.apart hpos (haudio.symm.trans heq)⟩

theorem pumpTurn_cases (st : Streams) (mc : MediaContext α) (a : PumpAnswer α) :
    ¬ a.Reads ∧ pumpTurn st mc a = (mc, false) ∨
    a.Reads ∧ ∃ pkt, a.read = some pkt ∧
      (¬ st.IsVideo pkt ∧ pumpTurn st mc a = (mc.demux pkt, true) ∨
      st.IsVideo pkt ∧ mc.videoPktCount < vpktQueueCap ∧ pumpTurn st mc a = ((mc.demux pkt).stash pkt, true) ∨
      st.IsVideo pkt ∧ vpktQueueCap ≤ mc.videoPktCount ∧ pumpTurn st mc a = (mc.demux pkt, false)) := by
  unfold pumpTurn PumpAnswer.Reads
  cases hread : a.read with
  | none => exact .inl ⟨by simp, by split <;> rfl⟩
  | some pkt =>
    by_cases htarget : target ≤ a.queued
    · exact .inl ⟨fun h => absurd h.1 (Int.not_lt.mpr htarget), if_pos htarget⟩
    · refine .inr ⟨⟨Int.lt_of_not_ge htarget, rfl⟩, pkt, rfl, ?_⟩
      rw [if_neg htarget, Option.elim_some]
      by_cases hvideo : st.IsVideo pkt
      · obtain ⟨hpos, haudio⟩ := hvideo.not_audio
        rw [if_neg haudio, if_pos ⟨st.opened.mpr hpos, hvideo⟩]
        split
        · exact .inr (.inr ⟨hvideo, ‹_›, rfl⟩)
        · exact .inr (.inl ⟨hvideo, Nat.lt_of_not_le ‹_›, rfl⟩)
      · refine .inl ⟨hvideo, ?_⟩
        rw [if_neg (fun h : st.codecCtx = true ∧ st.IsVideo pkt => hvideo h.2)]
        exact ite_self _

theorem length_pumpTurn (a : PumpAnswer α) :
    (pumpTurn st mc a).1.videoPktQueue.length = mc.videoPktQueue.length := by
  obtain ⟨-, heq⟩ | ⟨-, pkt, -, ⟨-, heq⟩ | ⟨-, -, heq⟩ | ⟨-, -, heq⟩⟩ := pumpTurn_cases st mc a
  · rw [heq]
  · rw [heq]
    rfl
  · rw [heq]
    exact List.length_set
  · rw [heq]
    rfl

theorem length_pumpLoop (n : ℕ) (as : List (PumpAnswer α)) :
    (pumpLoop st n as mc).videoPktQueue.length = mc.videoPktQueue.length := by
  fun_induction pumpLoop st n as mc with
  | case1 => rfl
  | case2 => rfl
  | case3 _ _ _ _ _ ih => exact ih.trans (length_pumpTurn _)
  | case4 => exact length_pumpTurn _

theorem length_vpktQueuePop : mc.vpktQueuePop.2.videoPktQueue.length = mc.videoPktQueue.length := by
  unfold vpktQueuePop
  split
  · rfl
  · exact List.length_set

theorem length_decodeTurn (a : DecodeAnswer α) :
    (decodeTurn st mc a).1.videoPktQueue.length = mc.videoPktQueue.length := by
  unfold decodeTurn
  cases mc.vpktQueuePop.1 with
  | some qpkt => exact length_vpktQueuePop
  | none =>
    rw [Option.elim_none]
    cases a.read with
    | none => exact length_vpktQueuePop
    | some pkt =>
      rw [Option.elim_some]
      split
      · exact length_vpktQueuePop
      · split
        · exact length_vpktQueuePop
        · exact length_vpktQueuePop

theorem length_decodeLoop (as : List (DecodeAnswer α)) :
    (decodeLoop st as mc).1.videoPktQueue.length = mc.videoPktQueue.length := by
  fun_induction decodeLoop st as mc with
  | case1 => rfl
  | case2 _ _ _ _ ih => exact ih.trans (length_decodeTurn _)
  | case3 => exact length_decodeTurn _

end Turns

section Order

variable {α : Type u} {st : Streams} {mc : MediaContext α} {pkt : Packet α}

theorem Lossless.demux (h : Lossless st mc) (hpkt : ¬ st.IsVideo pkt) : Lossless st (mc.demux pkt) := by
  refine ⟨?_, h.head, h.count⟩
  simp only [MediaContext.demux, List.filter_append, List.filter_cons, hpkt, decide_false, List.filter_nil]
  simpa using h.order

theorem Lossless.stash (h : Lossless st mc) (hlen : mc.videoPktQueue.length = vpktQueueCap)
    (hroom : mc.videoPktCount < vpktQueueCap) (hpkt : st.IsVideo pkt) :
    Lossless st ((mc.demux pkt).stash pkt) := by
  refine ⟨?_, h.head, hroom⟩
  have hpush := contents_push mc.videoPktHead pkt (by rwa [hlen])
  rw [hlen] at hpush
  simp only [MediaContext.demux, MediaContext.stash, hpush, List.filter_append, List.filter_cons, hpkt, decide_true,
    if_true, List.filter_nil, List.map_append, ← List.append_assoc, h.order]
  rfl

theorem Lossless.not_demux (h : Lossless st mc) (hpkt : st.IsVideo pkt) : ¬ Lossless st (mc.demux pkt) := by
  intro hlost
  have hmissing := hlost.order
  simp only [MediaContext.demux, List.filter_append, List.filter_cons, hpkt, decide_true, if_true, List.filter_nil,
    List.map_append, h.order] at hmissing
  simp at hmissing

theorem Lossless.pop_cases (h : Lossless st mc) (hlen : mc.videoPktQueue.length = vpktQueueCap) :
    mc.videoPktCount = 0 ∧ mc.vpktQueuePop = (none, mc) ∨
    ∃ qpkt, mc.vpktQueuePop.1 = some qpkt ∧ Lossless st (mc.vpktQueuePop.2.send qpkt) := by
  unfold vpktQueuePop
  split
  · exact .inl ⟨‹_›, rfl⟩
  · right
    obtain ⟨count, hcount⟩ := Nat.exists_eq_succ_of_ne_zero ‹_›
    have hle := h.count
    have horder := h.order
    rw [hcount, contents_pop (by rw [hlen]; exact h.head) (by omega), hlen] at horder
    have hmem : mc.videoPktQueue.getD mc.videoPktHead none ∈
        (mc.demuxed.filter fun pkt => st.IsVideo pkt).map some := by
      rw [← horder]
      exact List.mem_append_right _ List.mem_cons_self
    obtain ⟨qpkt, -, hq⟩ := List.mem_map.mp hmem
    refine ⟨qpkt, hq.symm, ?_, Nat.mod_lt _ (by decide), by simp only [MediaContext.send]; omega⟩
    rw [← hq] at horder
    simpa [MediaContext.send, hcount] using horder

theorem Lossless.decodeTurn (h : Lossless st mc) (hlen : mc.videoPktQueue.length = vpktQueueCap)
    (a : DecodeAnswer α) : Lossless st (decodeTurn st mc a).1 := by
  unfold MediaContext.decodeTurn
  obtain ⟨hzero, hpop⟩ | ⟨qpkt, hsome, hsent⟩ := h.pop_cases hlen
  · rw [hpop, Option.elim_none]
    cases a.read with
    | none => exact h
    | some pkt =>
      rw [Option.elim_some]
      by_cases hvideo : st.IsVideo pkt
      · rw [if_neg hvideo.not_audio.2, if_neg (not_not.mpr hvideo)]
        refine ⟨?_, h.head, h.count⟩
        have horder := h.order
        simp only [hzero, contents_zero, List.append_nil] at horder
        simp only [MediaContext.demux, MediaContext.send, hzero, contents_zero, List.filter_append, List.filter_cons,
          hvideo, decide_true, if_true, List.filter_nil, List.map_append, horder, List.append_nil]
      · split
        · exact h.demux hvideo
        · exact h.demux hvideo
  · rw [hsome]
    exact hsent

theorem Lossless.decodeLoop (h : Lossless st mc) (hlen : mc.videoPktQueue.length = vpktQueueCap)
    (as : List (DecodeAnswer α)) : Lossless st (decodeLoop st as mc).1 := by
  fun_induction MediaContext.decodeLoop st as mc with
  | case1 => exact h
  | case2 _ _ _ _ ih => exact ih (h.decodeTurn hlen _) ((length_decodeTurn _).trans hlen)
  | case3 => exact h.decodeTurn hlen _

theorem videosRead_cons (n : ℕ) (a : PumpAnswer α) (as : List (PumpAnswer α)) : videosRead st (n + 1) (a :: as) =
    if a.Reads then (if a.read.any fun pkt => st.IsVideo pkt then 1 else 0) + videosRead st n as else 0 := by
  unfold videosRead
  rw [List.take_succ_cons, List.takeWhile_cons]
  split
  · rw [if_pos (of_decide_eq_true ‹_›), List.countP_cons, Nat.add_comm]
  · rw [if_neg (mt decide_eq_true ‹_›)]
    rfl

theorem Lossless.pumpLoop_iff (h : Lossless st mc) (hlen : mc.videoPktQueue.length = vpktQueueCap) (n : ℕ)
    (as : List (PumpAnswer α)) :
    Lossless st (pumpLoop st n as mc) ↔ mc.videoPktCount + videosRead st n as ≤ vpktQueueCap := by
  induction n generalizing mc as with
  | zero => exact iff_of_true h h.count
  | succ n ih =>
    cases as with
    | nil => exact iff_of_true h h.count
    | cons a as =>
      rw [videosRead_cons]
      unfold pumpLoop
      obtain ⟨hreads, heq⟩ | ⟨hreads, pkt, hread, ⟨hpkt, heq⟩ | ⟨hpkt, hroom, heq⟩ | ⟨hpkt, hfull, heq⟩⟩ :=
        pumpTurn_cases st mc a
      · rw [heq, if_neg hreads]
        exact iff_of_true h h.count
      · rw [heq, if_pos hreads, hread]
        simp only [if_true, Option.any_some, hpkt, decide_false, Bool.false_eq_true, if_false, Nat.zero_add]
        exact ih (h.demux hpkt) hlen as
      · rw [heq, if_pos hreads, hread]
        simp only [if_true, Option.any_some, hpkt, decide_true]
        rw [ih (h.stash hlen hroom hpkt) (List.length_set.trans hlen) as, ← Nat.add_assoc]
        rfl
      · rw [heq, if_pos hreads, hread]
        simp only [Bool.false_eq_true, if_false, Option.any_some, hpkt, decide_true, if_true]
        exact iff_of_false (h.not_demux hpkt) (by omega)

end Order

section Runs

variable {α : Type u} (st : Streams)

theorem length_next {mc : MediaContext α} (hlen : mc.videoPktQueue.length = vpktQueueCap) (c : Call α) :
    (next st mc c).videoPktQueue.length = vpktQueueCap := by
  cases c with
  | pump as =>
    rw [next, pumpAudioBuffer]
    split
    · exact hlen
    · split
      · exact hlen
      · exact (length_pumpLoop 500 as).trans hlen
  | decode as =>
    rw [next]
    split
    · exact hlen
    · exact (length_decodeLoop as).trans hlen
  | setPaused => exact hlen

theorem lossless_next_iff {mc : MediaContext α} (hlen : mc.videoPktQueue.length = vpktQueueCap)
    (h : Lossless st mc) (c : Call α) : Lossless st (next st mc c) ↔ Fits st mc c := by
  cases c with
  | pump as =>
    rw [next, pumpAudioBuffer, Fits]
    split
    · exact iff_of_true h fun hstream => absurd hstream (by simp [*])
    · split
      · exact iff_of_true h fun _ hpaused => absurd hpaused (by simp [*])
      · rw [h.pumpLoop_iff hlen]
        simp [*]
  | decode as =>
    refine iff_of_true ?_ trivial
    rw [next]
    split
    · exact h
    · exact h.decodeLoop hlen as
  | setPaused => exact iff_of_true ⟨h.order, h.head, h.count⟩ trivial

theorem lossless_opened : Lossless st (opened : MediaContext α) :=
  ⟨rfl, Nat.zero_lt_succ 127, Nat.zero_le vpktQueueCap⟩

/-- No video packet is lost in a run if and only if no call of the pump gets to more of them than there is
room for in the queue. -/
theorem lossless_along_iff (cs : List (Call α)) :
    (∀ xs ys, cs = xs ++ ys → Lossless st (xs.foldl (next st) opened)) ↔
      ∀ xs c ys, cs = xs ++ c :: ys → Fits st (xs.foldl (next st) opened) c :=
  System.holds_along_iff (I := Lossless st) (C := Fits st) (fun _ c hlen => length_next st hlen c)
    (fun _ c hlen h => lossless_next_iff st hlen h c) List.length_replicate (lossless_opened st) cs

theorem decodeNextVideoFrame_steps (mc : MediaContext α) (as : List (DecodeAnswer α)) (shown : Bool)
    (pumps : List (PumpAnswer α)) :
    (mc.decodeNextVideoFrame st as shown pumps).1 = next st mc (.decode as) ∨
      (mc.decodeNextVideoFrame st as shown pumps).1 = next st (next st mc (.decode as)) (.pump pumps) := by
  simp only [decodeNextVideoFrame, next]
  split
  · exact .inl rfl
  · split
    · cases shown with
      | false => exact .inl rfl
      | true => exact .inr rfl
    · exact .inl rfl

end Runs

section Overflow

def film : Streams := ⟨0, 1, true, true, by decide, by decide⟩

theorem pump_loses : ¬ ∀ cs : List (Call Unit), Lossless film (cs.foldl (next film) opened) := by
  intro h
  have hlost := h [.pump (List.replicate 129 ⟨0, some ⟨0, ()⟩⟩)]
  rw [List.foldl_cons, List.foldl_nil, lossless_next_iff film List.length_replicate (lossless_opened film)] at hlost
  exact absurd (hlost rfl rfl)
    (by simp [videosRead, PumpAnswer.Reads, target, Streams.IsVideo, film, opened, vpktQueueCap])

end Overflow

end YumiBrowser.Media
