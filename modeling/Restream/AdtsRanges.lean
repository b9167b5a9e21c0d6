import Mathlib.Data.List.Forall2
import Restream.TsFeeder

/-! ADTS headers written and read: the frames that `prependAdtsInto` writes are the ranges
that `adtsFrameRanges` finds. -/

namespace Restream.Codec

open List Nat UInt8

/-- The answer and what the output buffer holds then. -/
def prependAdtsInto (rawAac : List UInt8) (sampleRate channels : Nat) (out : List UInt8) :
    Option Unit × List UInt8 :=
  match prependAdts rawAac sampleRate channels with
  | none => (none, out)
  | some frame => (some (), out ++ frame)

theorem adtsFrameLength_bounds (h : adtsFrameLength data = some n) : 7 ≤ n ∧ n ≤ data.length := by
  unfold adtsFrameLength at h
  split at h
  · dsimp only at h
    split at h
    · cases h
    · cases h
      omega
  · cases h

structure AdtsFrameRanges where
  data : List UInt8
  offset : Nat

def adtsFrameRanges (data : List UInt8) : AdtsFrameRanges := { data := data, offset := 0 }

namespace AdtsFrameRanges

def next (it : AdtsFrameRanges) : Option ((Nat × Nat) × AdtsFrameRanges) :=
  (adtsFrameLength (it.data.drop it.offset)).map fun frameLen =>
    ((it.offset, it.offset + frameLen), { it with offset := it.offset + frameLen })

/-- The iterator returns these ranges and then ends. -/
inductive Yields : AdtsFrameRanges → List (Nat × Nat) → Prop where
  | done : it.next = none → Yields it []
  | step : it.next = some (r, it') → Yields it' rs → Yields it (r :: rs)

/-- Ranges that follow one another from `start` on, of at least a header each, within `stop`. -/
def Contiguous (stop : Nat) : Nat → List (Nat × Nat) → Prop
  | start, [] => start ≤ stop
  | start, r :: rs => r.1 = start ∧ start + 7 ≤ r.2 ∧ Contiguous stop r.2 rs

def bytes (data : List UInt8) (r : Nat × Nat) : List UInt8 := (data.drop r.1).take (r.2 - r.1)

variable {it it' : AdtsFrameRanges}

theorem next_spec (h : it.next = some (r, it')) :
    r.1 = it.offset ∧ it.offset + 7 ≤ r.2 ∧ r.2 ≤ it.data.length ∧ it' = ⟨it.data, r.2⟩ := by
  obtain ⟨n, hn, heq⟩ := Option.map_eq_some_iff.mp h
  obtain ⟨rfl, rfl⟩ := Prod.mk.inj heq
  have hb := adtsFrameLength_bounds hn
  rw [length_drop] at hb
  refine ⟨rfl, ?_, ?_, rfl⟩ <;> omega

theorem Yields.contiguous (h : Yields it rs) (hle : it.offset ≤ it.data.length) :
    Contiguous it.data.length it.offset rs := by
  induction h with
  | done => exact hle
  | step hn _ ih =>
    obtain ⟨hs, hl, hr, rfl⟩ := next_spec hn
    exact ⟨hs, hl, ih hr⟩

theorem exists_yields (it : AdtsFrameRanges) : ∃ rs, Yields it rs := by
  induction hm : it.data.length - it.offset using Nat.strongRecOn generalizing it with
  | ind m ih =>
    cases hn : it.next with
    | none => exact ⟨[], .done hn⟩
    | some found =>
      obtain ⟨r, it'⟩ := found
      obtain ⟨hs, hl, hr, rfl⟩ := next_spec hn
      obtain ⟨rs, hy⟩ := ih _ (by simp only; omega) ⟨it.data, r.2⟩ rfl
      exact ⟨r :: rs, .step hn hy⟩

end AdtsFrameRanges

open AdtsFrameRanges Rtmp

variable {raw : List UInt8} {rate : Nat}

theorem buildAdtsHeader_spec (hr : rate ∈ aacSampleRates) (hl : len ≤ 8184) (channels : Nat) :
    ∃ b2 b3 b4 b5, buildAdtsHeader len rate channels = some [0xFF, 0xF1, b2, b3, b4, b5, 0xFC] ∧
      aacSampleRates[((b2 >>> 2) &&& 0x0F).toNat]? = some rate ∧
      (b3 &&& 0x03).toNat * 2 ^ 11 + b4.toNat * 2 ^ 3 + (b5 &&& 0xE0).toNat / 2 ^ 5 = len + 7 := by
  have hindex : ∀ rate ∈ aacSampleRates, ∃ i < 13, aacFrequencyIndex rate = some (.ofNat i) ∧
      aacSampleRates[i]? = some rate := by decide
  obtain ⟨i, hi, hx, hg⟩ := hindex rate hr
  have hc : min channels 7 < 8 := by omega
  have hok : ∀ i < 13, ∀ c < 8, ¬(¬((1 : UInt8) ≤ 2 ∧ (2 : UInt8) ≤ 4) ∨ 12 < ofNat i ∨ 7 < ofNat c) ∧
      ((((2 - 1 : UInt8) <<< 6 ||| ofNat i <<< 2 ||| ofNat c >>> 2) >>> 2) &&& 0x0F).toNat = i := by
    decide +kernel
  have hthree : ∀ c < 8, ∀ h < 32,
    (((ofNat c &&& 0x03) <<< 6 ||| (ofNat h >>> 3) &&& 0x03) &&& 0x03).toNat =
      h / 8 := by decide +kernel
  have hfour (high low : UInt8) : (high <<< 5 ||| low >>> 3).toNat =
      high.toNat % 8 * 2 ^ 5 + low.toNat / 2 ^ 3 := by
    have hm : high.toNat * 2 ^ 5 % 2 ^ 8 = high.toNat % 8 * 2 ^ 5 := by omega
    have hlt : low.toNat / 2 ^ 3 < 2 ^ 5 := by
      have := low.toNat_lt
      omega
    rw [← shiftLeft_eq, shiftLeft_add_eq_or_of_lt hlt, shiftLeft_eq, ← hm]
    simp [shiftLeft_eq, shiftRight_eq_div_pow]
  have hfive : ∀ n < 256, (((ofNat n &&& 0x07) <<< 5 ||| 0x1F) &&& 0xE0).toNat / 2 ^ 5 = n % 8 := by
    decide +kernel
  rw [buildAdtsHeader, hx, Option.getD_some, buildAdtsHeaderFor,
    if_neg (hok i hi _ hc).1, if_neg (by omega)]
  refine ⟨_, _, _, _, rfl, ?_, ?_⟩
  · rw [(hok i hi _ hc).2, hg]
  · rw [hthree _ hc _ (by omega), hfour, toNat_ofNat', toNat_ofNat', ← ofNat_mod_size,
      hfive _ (mod_lt _ (by decide))]
    omega

/-- What is written for a raw frame. -/
structure IsFrameOf (rate : Nat) (raw frame : List UInt8) : Prop where
  strip : stripAdts frame = raw
  sampleRate : adtsSampleRate frame = some rate
  framed : ∀ rest, adtsFrameLength (frame ++ rest) = some frame.length

theorem prependAdtsInto_spec (hr : rate ∈ aacSampleRates)
    (hpos : 1 ≤ raw.length) (hl : raw.length ≤ 8184)
    (channels : Nat) : ∃ frame, IsFrameOf rate raw frame ∧
      ∀ out, prependAdtsInto raw rate channels out = (some (), out ++ frame) := by
  obtain ⟨b2, b3, b4, b5, hb, hrate, hlen⟩ := buildAdtsHeader_spec hr hl channels
  have hsync : (0xF1 : UInt8) &&& 0xF0 = 0xF0 := rfl
  refine ⟨[0xFF, 0xF1, b2, b3, b4, b5, 0xFC] ++ raw, ⟨?_, ?_, fun rest => ?_⟩, fun out => ?_⟩
  · have hcrc : (0xF1 : UInt8) &&& 0x01 = 1 := rfl
    simp only [cons_append, nil_append, stripAdts, hsync, hcrc, if_true, true_and]
    rw [if_pos (by simp only [length_cons]; omega)]
    rfl
  · simpa only [cons_append, adtsSampleRate, hsync, ne_eq, not_true, or_self, if_false] using hrate
  · simp only [cons_append, nil_append, adtsFrameLength, hlen, length_cons, length_append]
    rw [if_neg (by simp only [hsync, ne_eq, not_true, false_or]; omega)]
  · simp [prependAdtsInto, prependAdts, hb]

theorem yields_prepended (hr : rate ∈ aacSampleRates) (channels : Nat) {raws : List (List UInt8)}
    (hraws : ∀ raw ∈ raws, 1 ≤ raw.length ∧ raw.length ≤ 8184) (out : List UInt8) :
    ∃ rs rest, let data := raws.foldl (fun out raw => (prependAdtsInto raw rate channels out).2) out
      data = out ++ rest ∧ Yields ⟨data, out.length⟩ rs ∧ (rs.map (bytes data)).flatten = rest ∧
      Forall₂ (fun r raw => stripAdts (bytes data r) = raw ∧
        adtsSampleRate (bytes data r) = some rate) rs raws := by
  induction raws generalizing out with
  | nil => exact ⟨[], [], by simp, .done (by simp [AdtsFrameRanges.next, adtsFrameLength]), rfl, .nil⟩
  | cons raw raws ih =>
    rw [forall_mem_cons] at hraws
    obtain ⟨frame, hf, hp⟩ := prependAdtsInto_spec hr hraws.1.1 hraws.1.2 channels
    obtain ⟨rs, rest, hd, hy, hflat, hrs⟩ := ih hraws.2 (out ++ frame)
    simp only [foldl_cons, hp]
    generalize foldl _ (out ++ frame) raws = data at hd hy hflat hrs
    have hdrop : data.drop out.length = frame ++ rest := by rw [hd, append_assoc, drop_left]
    have hb : bytes data (out.length, out.length + frame.length) = frame := by
      rw [bytes, hdrop, Nat.add_sub_cancel_left, take_left]
    refine ⟨(out.length, out.length + frame.length) :: rs,
      frame ++ rest, by rw [hd, append_assoc], ?_, ?_, ?_⟩
    · rw [length_append] at hy
      refine .step ?_ hy
      simp only [AdtsFrameRanges.next, hdrop, hf.framed, Option.map_some]
    · rw [map_cons, flatten_cons, hb, hflat]
    · refine .cons ?_ hrs
      rw [hb]
      exact ⟨hf.strip, hf.sampleRate⟩

/-- Frames behind ADTS headers are found again, one range each, and over any bytes the
ranges follow one another within them. -/
theorem adts_ranges_tile :
    (∀ (rate channels : Nat) (raws : List (List UInt8)), rate ∈ aacSampleRates →
      (∀ raw ∈ raws, 1 ≤ raw.length ∧ raw.length ≤ 8184) →
      let data := raws.foldl (fun out raw => (prependAdtsInto raw rate channels out).2) []
      ∃ rs, Yields (adtsFrameRanges data) rs ∧ (rs.map (bytes data)).flatten = data ∧
        Forall₂ (fun r raw => stripAdts (bytes data r) = raw ∧
          adtsSampleRate (bytes data r) = some rate) rs raws) ∧
    (∀ raw rate channels out, 8184 < raw.length →
      prependAdtsInto raw rate channels out = (none, out)) ∧
    ∀ data, ∃ rs, Yields (adtsFrameRanges data) rs ∧ Contiguous data.length 0 rs := by
  refine ⟨fun rate channels raws hr hraws => ?_, fun raw rate channels out hl => ?_, fun data => ?_⟩
  · obtain ⟨rs, rest, hd, hy, hflat, hrs⟩ := yields_prepended hr channels hraws []
    exact ⟨rs, hy, hflat.trans hd.symm, hrs⟩
  · have hnone : buildAdtsHeader raw.length rate channels = none := by
      unfold buildAdtsHeader buildAdtsHeaderFor
      split
      · rfl
      · exact if_pos (by omega)
    rw [prependAdtsInto, prependAdts, hnone]
    rfl
  · obtain ⟨rs, hy⟩ := exists_yields (adtsFrameRanges data)
    exact ⟨rs, hy, hy.contiguous (zero_le _)⟩

end Restream.Codec
