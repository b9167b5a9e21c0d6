import Restream.ParameterSets

/-! What a publisher's FLV video message says of its configuration: the decoder
configuration record of a sequence header, in Annex B form. -/

namespace Restream.Codec

def takeU16Prefixed : List UInt8 → Option (Nalu × List UInt8)
  | high :: low :: tail =>
    let length := high.toNat * 2 ^ 8 + low.toNat
    if length ≤ tail.length then some (tail.take length, tail.drop length) else none
  | _ => none

def takeItems : Nat → List UInt8 → Option (List Nalu × List UInt8)
  | 0, rest => some ([], rest)
  | count + 1, rest => do
    let (item, rest) ← takeU16Prefixed rest
    let (items, rest) ← takeItems count rest
    return (item :: items, rest)

structure AvccRecord where
  lengthSizeMinusOne : UInt8
  sps : List Nalu
  pps : List Nalu
  deriving DecidableEq, Repr

def avccRecord : List UInt8 → Option AvccRecord
  | _version :: _profile :: _compatibility :: _level :: lengthByte :: spsByte :: rest => do
    let (sps, rest) ← takeItems (spsByte &&& 0x1F).toNat rest
    match rest with
    | ppsCount :: rest =>
      let (pps, _) ← takeItems ppsCount.toNat rest
      return { lengthSizeMinusOne := lengthByte &&& 0x03, sps := sps, pps := pps }
    | [] => none
  | _ => none

structure HvccRecord where
  lengthSizeMinusOne : UInt8
  vps : List Nalu
  sps : List Nalu
  pps : List Nalu
  deriving DecidableEq, Repr

def HvccRecord.add (record : HvccRecord) (kind : UInt8) (nalus : List Nalu) : HvccRecord :=
  if kind &&& 0x3F = 32 then { record with vps := record.vps ++ nalus }
  else if kind &&& 0x3F = 33 then { record with sps := record.sps ++ nalus }
  else if kind &&& 0x3F = 34 then { record with pps := record.pps ++ nalus }
  else record

def takeArrays : Nat → List UInt8 → HvccRecord → Option HvccRecord
  | 0, _, parsed => some parsed
  | arrays + 1, kind :: countHigh :: countLow :: rest, parsed => do
    let (nalus, rest) ← takeItems (countHigh.toNat * 2 ^ 8 + countLow.toNat) rest
    takeArrays arrays rest (parsed.add kind nalus)
  | _ + 1, _, _ => none

def hvccRecord (record : List UInt8) : Option HvccRecord := do
  let lengthByte ← record[21]?
  let arrays ← record[22]?
  takeArrays arrays.toNat (record.drop 23)
    { lengthSizeMinusOne := lengthByte &&& 0x03, vps := [], sps := [], pps := [] }

def AvccRecord.sets (record : AvccRecord) : Option (UInt8 × List Nalu) :=
  if record.sps = [] ∨ record.pps = [] then none
  else some (record.lengthSizeMinusOne, record.sps ++ record.pps)

def HvccRecord.sets (record : HvccRecord) : Option (UInt8 × List Nalu) :=
  if record.vps = [] ∨ record.sps = [] ∨ record.pps = [] then none
  else some (record.lengthSizeMinusOne, record.vps ++ record.sps ++ record.pps)

end Restream.Codec

namespace Restream.Rtmp

open Codec

def flvRecordSets (payload : List UInt8) : Option (UInt8 × List Nalu) :=
  match exVideoTag payload with
  | some tag =>
    if tag.packetType ≠ exSequenceStart then none
    else if tag.fourcc = hvc1 then (hvccRecord tag.body).bind HvccRecord.sets
    else (avccRecord tag.body).bind AvccRecord.sets
  | none =>
    match payload with
    | tag :: packetType :: _ :: _ :: _ :: body =>
      if packetType ≠ 0 then none
      else if tag &&& 0x0F = 7 then (avccRecord body).bind AvccRecord.sets
      else if tag &&& 0x0F = 12 then (hvccRecord body).bind HvccRecord.sets
      else none
    | _ => none

def flvVideoConfig (payload : List UInt8) : Option (Nat × List UInt8) :=
  (flvRecordSets payload).map fun record => (record.1.toNat + 1, record.2.flatMap annexbNalu)

def flvConfigAnnexbParameterSets (data : List UInt8) : Option (List UInt8) :=
  (flvVideoConfig data).bind fun config => annexbParameterSets config.2

def flvVideoCompositionTimeMs (data : List UInt8) : Int :=
  match exVideoTag data with
  | some tag => tag.compositionTimeMs
  | none =>
    match data with
    | tag :: packetType :: high :: mid :: low :: _ =>
      if (tag &&& 0x0F ≠ 7 ∧ tag &&& 0x0F ≠ 12) ∨ packetType ≠ 1 then 0 else signed24 high mid low
    | _ => 0

theorem classify_of_recordSets (h : flvRecordSets data = some record) :
    classifyFlvVideoPacket data = some .sequenceHeader := by
  unfold flvRecordSets at h
  unfold classifyFlvVideoPacket
  cases htag : exVideoTag data with
  | some tag =>
    simp only [htag] at h
    by_cases ht : tag.packetType = exSequenceStart
    · simp [ht]
    · simp [ht] at h
  | none =>
    simp only [htag] at h
    split at h
    · next tag packetType _ _ _ _ =>
      by_cases ht : packetType = 0
      · by_cases hc : tag &&& 0x0F = 7 ∨ tag &&& 0x0F = 12
        · have hk : ¬(tag &&& 0x0F ≠ 7 ∧ tag &&& 0x0F ≠ 12) := by tauto
          simp only [if_neg hk, ht, if_true]
        · simp only [not_or] at hc
          simp [ht, hc.1, hc.2] at h
      · simp [ht] at h
    · cases h

variable (h : flvConfigAnnexbParameterSets data = some sets)
include h

theorem classify_of_parameterSets : classifyFlvVideoPacket data = some .sequenceHeader := by
  obtain ⟨c, hc, -⟩ := Option.bind_eq_some_iff.mp h
  obtain ⟨record, hr, -⟩ := Option.map_eq_some_iff.mp hc
  exact classify_of_recordSets hr

theorem parameterSets_ne_nil : sets ≠ [] := by
  obtain ⟨c, -, hs⟩ := Option.bind_eq_some_iff.mp h
  exact annexbParameterSets_ne_nil hs

end Restream.Rtmp
