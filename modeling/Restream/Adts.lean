import Mathlib.Algebra.GroupWithZero.Nat
import Mathlib.Data.List.Basic

/-! ADTS headers: the complete frames of a payload and the sample rate they name. -/

namespace Restream.Codec

def adtsFrameLength (data : List UInt8) : Option Nat :=
  match data with
  | 0xFF :: sync :: _ :: b3 :: b4 :: b5 :: _ :: _ =>
    let length := (b3 &&& 0x03).toNat * 2 ^ 11 + b4.toNat * 2 ^ 3 + (b5 &&& 0xE0).toNat / 2 ^ 5
    if sync &&& 0xF0 ≠ 0xF0 ∨ length < 7 ∨ data.length < length then none else some length
  | _ => none

def adtsFrames : Nat → List UInt8 → Nat
  | 0, _ => 0
  | n + 1, data =>
    match adtsFrameLength data with
    | none => 0
    | some length => adtsFrames n (data.drop length) + 1

def adtsFrameCount (data : List UInt8) : Nat := adtsFrames data.length data

def aacSampleRates : List Nat :=
  [96000, 88200, 64000, 48000, 44100, 32000, 24000, 22050, 16000, 12000, 11025, 8000, 7350]

def adtsSampleRate : List UInt8 → Option Nat
  | first :: second :: third :: _ =>
    if first ≠ 0xFF ∨ second &&& 0xF0 ≠ 0xF0 then none
    else aacSampleRates[((third >>> 2) &&& 0x0F).toNat]?
  | _ => none

end Restream.Codec
