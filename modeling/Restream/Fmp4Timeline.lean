import Mathlib.Data.List.Chain
import Restream.Fmp4Segmenter

/-! A sample's decode time is its packet's, as long as a buffer hands its samples
out in step: durations telescope within a segment, and the muxer's clock meets
the first sample of the next one. -/

namespace Restream.Fmp4

open Rtmp PreviewRun List Option BufferedSample MonotonicTimestampState

variable {ε : Type}

def Follows (a b : Int) : Prop := a < b ∧ b - a ≤ u32Max

def IsTick (x : Int) : Prop := -2 ^ 54 ≤ x ∧ x ≤ 2 ^ 54

theorem rescaleMs_isTick : IsTick (rescaleMs ms scale) := by
  have hmin : -2 ^ 63 ≤ saturate (ms * scale) := le_max_left _ _
  have hmax : saturate (ms * scale) ≤ 2 ^ 63 - 1 := by
    unfold saturate i64Min i64Max
    omega
  unfold rescaleMs IsTick
  generalize saturate (ms * scale) = x at hmin hmax
  rcases le_total 0 x with hx | hx
  · rw [Int.tdiv_eq_ediv_of_nonneg hx]
    omega
  · rw [← Int.neg_neg x, Int.neg_tdiv, Int.tdiv_eq_ediv_of_nonneg (by omega)]
    omega

theorem saturate_of_abs_le (hmin : -2 ^ 62 ≤ x) (hmax : x ≤ 2 ^ 62) : saturate x = x :=
  saturate_of_inI64 ⟨by unfold i64Min; omega, by unfold i64Max; omega⟩

structure Buildable (kind : TrackKind) (sample : BufferedSample) : Prop where
  dts : IsTick sample.dts
  pos : 0 < sample.defaultDuration
  le : (sample.defaultDuration : Int) ≤ u32Max
  offset : ∃ offset, compositionOffset kind sample = .ok offset

def ending (next : Option Int) (last : BufferedSample) : Int :=
  next.getD (last.dts + last.defaultDuration)

variable {kind : TrackKind} {next : Option Int} {last : BufferedSample}

theorem follows_ending (hl : Buildable kind last) (hn : ∀ n ∈ next, Follows last.dts n) :
    Follows last.dts (ending next last) := by
  cases next with
  | some n => exact hn n rfl
  | none =>
    have hpos := hl.pos
    have hle := hl.le
    unfold ending Follows
    simp only [getD_none]
    omega

theorem muxSamples_cons (scale : Nat) (e : ε) (hs : Buildable kind sm)
    (hm : muxSamples kind scale e next rest = .ok more) (hf : Follows sm.dts stop)
    (hst : ((rest.head?.map dts) <|> next).getD (sm.dts + sm.defaultDuration) = stop) :
    ∃ x : Sample ε, muxSamples kind scale e next (sm :: rest) = .ok (x :: more) ∧
      (x.duration : Int) = stop - sm.dts := by
  have hdts := hs.dts
  have hde := hs.le
  obtain ⟨off, ho⟩ := hs.offset
  have hend : saturate (sm.dts + sm.defaultDuration) = sm.dts + sm.defaultDuration := by
    unfold IsTick at hdts
    unfold u32Max at hde
    exact saturate_of_abs_le (by omega) (by omega)
  have hd : saturate (stop - sm.dts) = stop - sm.dts := by
    unfold Follows u32Max at hf
    exact saturate_of_abs_le (by omega) (by omega)
  have hv : ¬(stop - sm.dts ≤ 0 ∨ u32Max < stop - sm.dts) := by
    unfold Follows at hf
    omega
  rw [muxSamples, hend, hst, hd]
  simp only [if_neg hv, ho, hm]
  refine ⟨_, rfl, ?_⟩
  simp only
  omega

theorem place_samples (scale : Nat) (e : ε) (hl : sms.getLast? = some last)
    (hso : ∀ s ∈ sms, Buildable kind s) (hc : (sms.map dts).IsChain Follows)
    (hn : ∀ n ∈ next, Follows last.dts n) (muxer : Fmp4SegmentMuxer)
    (hm : ∀ s ∈ sms.head?, (muxer.decodeTime : Int) = s.dts) :
    ∃ out, muxSamples kind scale e next sms = .ok out ∧
      (muxer.place out).2.map (fun x => (x.1 : Int)) = sms.map dts ∧
      ((muxer.place out).1.decodeTime : Int) = ending next last := by
  induction sms generalizing muxer with
  | nil => cases hl
  | cons sm rest ih =>
    have hsa := hso sm mem_cons_self
    have hcl := hm sm rfl
    cases rest with
    | nil =>
      obtain rfl : sm = last := by simpa using hl
      obtain ⟨x, hmux, hd⟩ := muxSamples_cons scale e hsa
        (show muxSamples kind scale e next [] = .ok [] from rfl) (follows_ending hsa hn)
        (by simp [ending])
      refine ⟨[x], hmux, by simpa [Fmp4SegmentMuxer.place] using hcl, ?_⟩
      simp only [Fmp4SegmentMuxer.place]
      omega
    | cons second rest =>
      obtain ⟨hf, hc⟩ := isChain_cons_cons.mp hc
      have hc' : ((muxer.decodeTime + (second.dts - sm.dts).toNat : Nat) : Int) = second.dts := by
        have := hf.1
        omega
      obtain ⟨more, hmo, hp, hend⟩ := ih (by simpa using hl)
        (fun s hs => hso s (mem_cons_of_mem _ hs)) hc
        { decodeTime := muxer.decodeTime + (second.dts - sm.dts).toNat } (by simpa using hc')
      obtain ⟨x, hmux, hd⟩ := muxSamples_cons scale e hsa hmo hf rfl
      have hx : x.duration = (second.dts - sm.dts).toNat := by omega
      refine ⟨x :: more, hmux, ?_, ?_⟩
      · rw [Fmp4SegmentMuxer.place, hx]
        simp [hp, hcl]
      · rw [Fmp4SegmentMuxer.place, hx]
        exact hend

/-- A buffer of a track whose packets have come at `times`: the first of them are
published at these times, the others are buffered. -/
structure OnTime (kind : TrackKind) (times : List Int) (placed : List Nat) (b : SampleBuffer) :
    Prop where
  split : times = placed.map (Nat.cast : Nat → Int) ++ b.samples.map dts
  last : b.timestamps.lastDts = times.getLast?
  chain : (b.samples.map dts).IsChain Follows
  head : ∀ s ∈ b.samples.head?, (b.muxer.decodeTime : Int) = s.dts
  sound : ∀ s ∈ b.samples, Buildable kind s

namespace OnTime

variable {kind : TrackKind} {times : List Int} {placed : List Nat} {b : SampleBuffer}

theorem empty (kind : TrackKind) : OnTime kind [] [] .empty :=
  ⟨rfl, rfl, .nil, (by rintro _ ⟨⟩), (by rintro _ ⟨⟩)⟩

theorem enforce_of_later {s : MonotonicTimestampState} {pts dts : Int}
    (hl : ∀ last ∈ s.lastDts, last < dts) (hpts : IsTick pts) (hdts : IsTick dts) :
    s.enforce pts dts = ({ lastDts := some dts }, pts, dts) := by
  unfold IsTick at hpts hdts
  have ho : saturate (pts - dts) = pts - dts := saturate_of_abs_le (by omega) (by omega)
  have hsum : saturate (dts + (pts - dts)) = pts := by
    rw [saturate_of_abs_le (by omega) (by omega)]
    omega
  cases hs : s.lastDts with
  | none => simp only [enforce, hs, ho, hsum]
  | some last =>
    simp only [enforce, hs, ho, if_neg (not_le.mpr (hl last hs)), hsum]

variable (h : OnTime kind times placed b)
include h

theorem push (p : MediaPacket) (zeroMs : Int) (scale : Nat)
    (keyframe : Bool) (body : List UInt8) {dur : Nat}
    (hf : ∀ last ∈ times.getLast?, Follows last (tick zeroMs scale p.dts))
    (hst : b.samples = [] → (b.muxer.decodeTime : Int) = tick zeroMs scale p.dts)
    (ho : kind = .video → -2 ^ 31 ≤ tick zeroMs scale p.pts - tick zeroMs scale p.dts ∧
      tick zeroMs scale p.pts - tick zeroMs scale p.dts < 2 ^ 31)
    (hpos : 0 < dur) (hle : (dur : Int) ≤ u32Max) :
    OnTime kind (times ++ [tick zeroMs scale p.dts]) placed
      (b.push p zeroMs scale keyframe body dur) := by
  have hpts : IsTick (tick zeroMs scale p.pts) := rescaleMs_isTick
  have hdts : IsTick (tick zeroMs scale p.dts) := rescaleMs_isTick
  have he := enforce_of_later (s := b.timestamps) (fun last hl => (hf last (h.last ▸ hl)).1) hpts hdts
  simp only [tick] at he
  simp only [SampleBuffer.push, he]
  refine ⟨?_, ?_, ?_, ?_, ?_⟩
  · simp [h.split, tick]
  · simp [tick]
  · rw [map_append, isChain_append]
    refine ⟨h.chain, .singleton _, fun x hx y hy => ?_⟩
    obtain rfl : y = _ := by simpa using hy.symm
    refine hf x ?_
    rw [h.split, getLast?_append, hx]
    rfl
  · intro s hs
    cases hsa : b.samples with
    | nil =>
      rw [hsa] at hs
      cases hs
      exact hst hsa
    | cons first rest =>
      rw [hsa] at hs
      obtain rfl := Option.some.inj hs
      exact h.head first (by rw [hsa]; rfl)
  · intro s hs
    rcases mem_append.mp hs with hs | hs
    · exact h.sound s hs
    · obtain rfl := mem_singleton.mp hs
      refine ⟨hdts, hpos, hle, ?_⟩
      cases kind with
      | audio => exact ⟨none, rfl⟩
      | video =>
        obtain ⟨hmin, hmax⟩ := ho rfl
        unfold tick at hmin hmax
        simp only [compositionOffset]
        rw [saturate_of_abs_le (by omega) (by omega)]
        split
        · exact ⟨none, rfl⟩
        · rw [if_neg (by omega)]
          exact ⟨_, rfl⟩

theorem last_dts (hs : b.samples.getLast? = some s) : times.getLast? = some s.dts := by
  rw [h.split, getLast?_append, getLast?_map, hs]
  rfl

theorem flush (scale : Nat) (hs : scale ≠ 0) (e : ε) (next : Option Int)
    (hl : b.samples.getLast? = some last) (hn : ∀ n ∈ next, Follows last.dts n) :
    ∃ b' out, b.flush kind scale e next = (b', .ok (out, b.payload)) ∧
      OnTime kind times (placed ++ out.map Prod.fst) b' ∧ b'.samples = [] ∧
      (b'.muxer.decodeTime : Int) = ending next last := by
  obtain ⟨out, hmux, hp, hend⟩ := place_samples scale e hl h.sound h.chain hn b.muxer h.head
  refine ⟨{ b.cleared with muxer := (b.muxer.place out).1 }, (b.muxer.place out).2, ?_, ?_, rfl, hend⟩
  · rw [SampleBuffer.flush, buildMuxSamples, if_neg hs, hmux]
  · refine ⟨?_, h.last, .nil, (by rintro _ ⟨⟩), (by rintro _ ⟨⟩)⟩
    rw [h.split, ← hp, List.map_append, List.map_map]
    exact (List.append_nil _).symm

end OnTime

end Restream.Fmp4
