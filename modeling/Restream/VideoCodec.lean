import Mathlib.Algebra.GroupWithZero.Nat
import Mathlib.Algebra.Group.Int.Defs
import Mathlib.Data.List.DropRight

/-! Annex B access units: their NAL units, the parameter sets an access unit carries, and
the framing and configuration records in which RTMP carries H.264 and H.265. -/

namespace Restream.Codec

abbrev Nalu := List UInt8

def be16 (n : Nat) : List UInt8 := [UInt8.ofNat (n / 2 ^ 8), UInt8.ofNat n]

def be32 (n : Nat) : List UInt8 :=
  [UInt8.ofNat (n / 2 ^ 24), UInt8.ofNat (n / 2 ^ 16), UInt8.ofNat (n / 2 ^ 8), UInt8.ofNat n]

def signedBe24 (value : Int) : List UInt8 :=
  let n := (max (-8388608) (min 8388607 value) % 2 ^ 24).toNat
  [UInt8.ofNat (n / 2 ^ 16), UInt8.ofNat (n / 2 ^ 8), UInt8.ofNat n]

def dropTrailingZeros (nalu : Nalu) : Nalu := nalu.rdropWhile (· == 0)

def closeNalu : Option Nalu → List Nalu
  | none => []
  | some nalu => if nalu.isEmpty then [] else [nalu]

/-- Walk the bytes from left to right; `current` holds the NAL unit begun by the
last start code. A start code takes every zero byte before it. -/
def scanNalus : Option Nalu → List UInt8 → List Nalu
  | current, a :: b :: c :: rest =>
    if a = 0 ∧ b = 0 ∧ c = 1 then
      closeNalu (current.map dropTrailingZeros) ++ scanNalus (some []) rest
    else scanNalus (current.map (· ++ [a])) (b :: c :: rest)
  | current, tail => closeNalu (current.map (· ++ tail))

def splitAnnexbNalus (data : List UInt8) : List Nalu := scanNalus none data

def annexbNalu (nalu : Nalu) : List UInt8 := [0, 0, 0, 1] ++ nalu

inductive AnnexbCodecKind where
  | unknown
  | h264
  | h265
  deriving DecidableEq, Repr

structure AnnexbParameterSetAccumulator where
  kind : AnnexbCodecKind
  h264Sps : Option (List UInt8)
  h264Pps : Option (List UInt8)
  h265Vps : Option (List UInt8)
  h265Sps : Option (List UInt8)
  h265Pps : Option (List UInt8)
  deriving DecidableEq, Repr

def h264NalType : Nalu → Option UInt8
  | [] => none
  | first :: _ => some (first &&& 0x1F)

def baseLayerNalType : Nalu → UInt8
  | first :: second :: _ =>
    if first &&& 0x81 = 0 ∧ 1 ≤ second ∧ second ≤ 7 then (first >>> 1) &&& 0x3F else 0
  | _ => 0

namespace AnnexbParameterSetAccumulator

def empty (kind : AnnexbCodecKind) : AnnexbParameterSetAccumulator :=
  { kind := kind, h264Sps := none, h264Pps := none, h265Vps := none,
    h265Sps := none, h265Pps := none }

def switchKind (a : AnnexbParameterSetAccumulator) (kind : AnnexbCodecKind) :
    AnnexbParameterSetAccumulator :=
  if a.kind = .unknown then { a with kind := kind }
  else if a.kind = kind then a
  else empty kind

def pushNalu (a : AnnexbParameterSetAccumulator) (nalu : Nalu) : AnnexbParameterSetAccumulator :=
  if baseLayerNalType nalu = 32 then { a.switchKind .h265 with h265Vps := some (annexbNalu nalu) }
  else if baseLayerNalType nalu = 33 then
    { a.switchKind .h265 with h265Sps := some (annexbNalu nalu) }
  else if baseLayerNalType nalu = 34 then
    { a.switchKind .h265 with h265Pps := some (annexbNalu nalu) }
  else if a.kind = .h265 then a
  else if h264NalType nalu = some 7 then { a.switchKind .h264 with h264Sps := some (annexbNalu nalu) }
  else if h264NalType nalu = some 8 then { a.switchKind .h264 with h264Pps := some (annexbNalu nalu) }
  else a

def complete (a : AnnexbParameterSetAccumulator) : Option (List UInt8) :=
  match a.kind with
  | .unknown => none
  | .h264 => do
    let sps ← a.h264Sps
    let pps ← a.h264Pps
    return sps ++ pps
  | .h265 => do
    let vps ← a.h265Vps
    let sps ← a.h265Sps
    let pps ← a.h265Pps
    return vps ++ sps ++ pps

end AnnexbParameterSetAccumulator

def annexbParameterSets (payload : List UInt8) : Option (List UInt8) :=
  ((splitAnnexbNalus payload).foldl AnnexbParameterSetAccumulator.pushNalu (.empty .unknown)).complete

def u32Prefixed (nalu : Nalu) : List UInt8 := be32 nalu.length ++ nalu

/-- The NAL units behind 4-byte lengths, without SPS, PPS and access unit
delimiters, and whether one of them is a coded picture's. -/
def annexbToAvcc (data : List UInt8) : List UInt8 × Bool :=
  let kept := (splitAnnexbNalus data).filter fun nalu =>
    (h264NalType nalu).any fun nalType => !(7 ≤ nalType && nalType ≤ 9)
  (kept.flatMap u32Prefixed,
    kept.any fun nalu => (h264NalType nalu).any fun nalType => 1 ≤ nalType && nalType ≤ 5)

def videoForRtmpWithComposition (payload : List UInt8) (isKeyframe : Bool) (compositionTimeMs : Int) :
    Option (List UInt8) :=
  let (avcc, hasVcl) := annexbToAvcc payload
  if hasVcl then
    some ([if isKeyframe then 0x17 else 0x27, 1] ++ signedBe24 compositionTimeMs ++ avcc)
  else none

def u16Prefixed (nalu : Nalu) : List UInt8 := be16 nalu.length ++ nalu

def buildAvccRecord (annexbData : List UInt8) : Option (List UInt8) :=
  let nalus := splitAnnexbNalus annexbData
  let spsList := nalus.filter fun nalu => h264NalType nalu = some 7
  let ppsList := nalus.filter fun nalu => h264NalType nalu = some 8
  match spsList with
  | (_ :: profile :: compatibility :: level :: _) :: _ =>
    if 31 < spsList.length ∨ 255 < ppsList.length ∨ (spsList ++
      ppsList).any (65535 < ·.length) then none
    else
      some ([1, profile, compatibility, level, 0xFF, 0xE0 ||| UInt8.ofNat spsList.length] ++
        spsList.flatMap u16Prefixed ++ [UInt8.ofNat ppsList.length] ++ ppsList.flatMap u16Prefixed)
  | _ => none

def buildAvccSequenceHeader (annexbData : List UInt8) : Option (List UInt8) :=
  (buildAvccRecord annexbData).map ([0x17, 0, 0, 0, 0] ++ ·)

def hvc1 : List UInt8 := [0x68, 0x76, 0x63, 0x31]

def avc1 : List UInt8 := [0x61, 0x76, 0x63, 0x31]

def exSequenceStart : UInt8 := 0

def exCodedFrames : UInt8 := 1

def exCodedFramesX : UInt8 := 3

structure ExVideoTag where
  fourcc : List UInt8
  packetType : UInt8
  keyframe : Bool
  compositionTimeMs : Int
  body : List UInt8
  deriving DecidableEq, Repr

def signed24 (high mid low : UInt8) : Int :=
  let n : Int := (high.toNat : Int) * 2 ^ 16 + mid.toNat * 2 ^ 8 + low.toNat
  if 2 ^ 23 ≤ n then n - 2 ^ 24 else n

/-- The enhanced RTMP tag of a video message; `none` for a classic FLV tag,
another codec or a truncated header. -/
def exVideoTag : List UInt8 → Option ExVideoTag
  | first :: a :: b :: c :: d :: rest =>
    if first &&& 0x80 = 0 then none
    else if [a, b, c, d] ≠ hvc1 ∧ [a, b, c, d] ≠ avc1 then none
    else
      let tag (compositionTimeMs : Int) (body : List UInt8) : ExVideoTag :=
        { fourcc := [a, b, c, d]
          packetType := first &&& 0x0F
          keyframe := (first >>> 4) &&& 0x07 = 1
          compositionTimeMs := compositionTimeMs
          body := body }
      if first &&& 0x0F = exCodedFrames then
        match rest with
        | high :: mid :: low :: body => some (tag (signed24 high mid low) body)
        | _ => none
      else some (tag 0 rest)
  | _ => none

def h265NalType : Nalu → Option UInt8
  | first :: _ :: _ => some ((first >>> 1) &&& 0x3F)
  | _ => none

/-- The NAL units behind 4-byte lengths, without VPS, SPS, PPS and access unit
delimiters, and whether one of them is a coded picture's. -/
def h265AnnexbToLengthPrefixed (data : List UInt8) : List UInt8 × Bool :=
  let kept := (splitAnnexbNalus data).filter fun nalu =>
    (h265NalType nalu).any fun nalType => !(32 ≤ nalType && nalType ≤ 35)
  ((kept.filter (·.length < 2 ^ 32)).flatMap u32Prefixed,
    kept.any fun nalu => (h265NalType nalu).any fun nalType => nalType ≤ 31)

def hevcVideoForEnhancedRtmpWithComposition (payload : List UInt8) (isKeyframe : Bool)
    (compositionTimeMs : Int) : Option (List UInt8) :=
  let frameType : UInt8 := if isKeyframe then 1 else 2
  let packetType : UInt8 := if compositionTimeMs = 0 then 3 else 1
  let (nalus, hasVcl) := h265AnnexbToLengthPrefixed payload
  if hasVcl then
    some ([(0x80 : UInt8) ||| frameType <<< 4 ||| packetType] ++ hvc1 ++
      (if compositionTimeMs ≠ 0 then signedBe24 compositionTimeMs else []) ++ nalus)
  else none

/-- The most-significant-bit-first reader: the bytes not yet consumed, and the
next bit of the first. -/
structure BitReader where
  data : List UInt8
  mask : UInt8
  deriving DecidableEq, Repr

abbrev BitParser := StateT BitReader Option

namespace BitReader

def new (data : List UInt8) : BitReader := { data := data, mask := 0x80 }

def readBit : BitParser Bool := fun r =>
  match r.data with
  | [] => none
  | byte :: rest =>
    let bit := byte &&& r.mask != 0
    if r.mask = 0x01 then some (bit, { data := rest, mask := 0x80 })
    else some (bit, { r with mask := r.mask / 2 })

def readBitsFrom : Nat → Nat → BitParser Nat
  | value, 0 => pure value
  | value, n + 1 => do
    if 2 ^ 32 ≤ value * 2 then failure
    let bit ← readBit
    readBitsFrom (value * 2 + bit.toNat) n

def readBits (n : Nat) : BitParser Nat := if 32 < n then failure else readBitsFrom 0 n

def skip : Nat → BitParser Unit
  | 0 => pure ()
  | n + 1 => do
    let _ ← readBit
    skip n

def leadingZeros : Nat → BitParser Nat
  | 0 => do
    if ← readBit then pure 0 else failure
  | n + 1 => do
    if ← readBit then pure 0 else return (← leadingZeros n) + 1

def readUe : BitParser Nat := do
  let zeros ← leadingZeros 31
  if zeros = 0 then return 0
  let suffix ← readBits zeros
  return 2 ^ zeros - 1 + suffix

end BitReader

def rbspFrom : Nat → List UInt8 → List UInt8
  | _, [] => []
  | zeros, byte :: rest =>
    if 2 ≤ zeros ∧ byte = 3 then rbspFrom 0 rest
    else byte :: rbspFrom (if byte = 0 then zeros + 1 else 0) rest

def rbsp (data : List UInt8) : List UInt8 := rbspFrom 0 data

structure HevcProfileTierLevel where
  profileSpace : Nat
  tierFlag : Bool
  profileIdc : Nat
  profileCompatibilityFlags : Nat
  constraintIndicatorFlags : Nat
  levelIdc : Nat
  width : Nat
  height : Nat
  maxSubLayersMinus1 : Nat
  temporalIdNested : Bool
  chromaFormatIdc : Nat
  bitDepthLumaMinus8 : Nat
  bitDepthChromaMinus8 : Nat
  deriving DecidableEq, Repr

open BitReader in
def subLayersPresent : Nat → BitParser (List (Bool × Bool))
  | 0 => pure []
  | n + 1 => do
    let profilePresent := (← readBits 1) = 1
    let levelPresent := (← readBits 1) = 1
    return (profilePresent, levelPresent) :: (← subLayersPresent n)

open BitReader in
def skipSubLayers : List (Bool × Bool) → BitParser Unit
  | [] => pure ()
  | (profilePresent, levelPresent) :: rest => do
    if profilePresent then
      let _ ← readBits 2
      let _ ← readBits 1
      let _ ← readBits 5
      let _ ← readBits 32
      let _ ← readBits 1
      let _ ← readBits 1
      let _ ← readBits 1
      let _ ← readBits 1
      skip 44
    if levelPresent then
      let _ ← readBits 8
    skipSubLayers rest

open BitReader in
def skipHevcSubLayerProfileTierLevel (maxSubLayersMinus1 : Nat) : BitParser Unit := do
  let present ← subLayersPresent maxSubLayersMinus1
  if 0 < maxSubLayersMinus1 then skip (2 * (8 - maxSubLayersMinus1))
  skipSubLayers present

def saturate32 (n : Nat) : Nat := min n (2 ^ 32 - 1)

open BitReader in
def readConformanceWindow : BitParser (Nat × Nat) := do
  if (← readBits 1) = 1 then
    let left ← readUe
    let right ← readUe
    let top ← readUe
    let bottom ← readUe
    return (saturate32 (left + right), saturate32 (top + bottom))
  else return (0, 0)

open BitReader in
def readHevcProfileTierLevel : BitParser HevcProfileTierLevel := do
  let _ ← readBits 4
  let maxSubLayersMinus1 ← readBits 3
  let temporalIdNested := (← readBits 1) = 1
  let profileSpace ← readBits 2
  let tierFlag := (← readBits 1) = 1
  let profileIdc ← readBits 5
  let profileCompatibilityFlags ← readBits 32
  let constraintHigh ← readBits 16
  let constraintLow ← readBits 32
  let levelIdc ← readBits 8
  skipHevcSubLayerProfileTierLevel maxSubLayersMinus1
  let _ ← readUe
  let chromaFormatIdc ← readUe
  if 3 < chromaFormatIdc then failure
  if chromaFormatIdc = 3 then
    let _ ← readBits 1
  let picWidth ← readUe
  let picHeight ← readUe
  let (cropX, cropY) ← readConformanceWindow
  let subWidth := if chromaFormatIdc = 1 ∨ chromaFormatIdc = 2 then 2 else 1
  let subHeight := if chromaFormatIdc = 1 then 2 else 1
  let bitDepthLumaMinus8 ← readUe
  let bitDepthChromaMinus8 ← readUe
  if 7 < bitDepthLumaMinus8 ∨ 7 < bitDepthChromaMinus8 then failure
  return {
    profileSpace := profileSpace
    tierFlag := tierFlag
    profileIdc := profileIdc
    profileCompatibilityFlags := profileCompatibilityFlags
    constraintIndicatorFlags := constraintHigh * 2 ^ 32 + constraintLow
    levelIdc := levelIdc
    width := picWidth - saturate32 (cropX * subWidth)
    height := picHeight - saturate32 (cropY * subHeight)
    maxSubLayersMinus1 := maxSubLayersMinus1
    temporalIdNested := temporalIdNested
    chromaFormatIdc := chromaFormatIdc
    bitDepthLumaMinus8 := bitDepthLumaMinus8
    bitDepthChromaMinus8 := bitDepthChromaMinus8 }

def parseHevcProfileTierLevel (sps : Nalu) : Option HevcProfileTierLevel :=
  let payload := sps.drop 2
  if payload.isEmpty then none
  else (readHevcProfileTierLevel (BitReader.new (rbsp payload))).map (·.1)

def hvccHeader (profile : HevcProfileTierLevel) : List UInt8 :=
  [1, UInt8.ofNat (profile.profileSpace * 2 ^ 6 + profile.tierFlag.toNat * 2 ^ 5 +
    profile.profileIdc)] ++
    be32 profile.profileCompatibilityFlags ++ be16 (profile.constraintIndicatorFlags / 2 ^ 32) ++
    be32 profile.constraintIndicatorFlags ++ [UInt8.ofNat profile.levelIdc, 0xF0, 0x00, 0xFC] ++
    [0xFC ||| UInt8.ofNat (profile.chromaFormatIdc % 4),
      0xF8 ||| UInt8.ofNat (profile.bitDepthLumaMinus8 % 8),
      0xF8 ||| UInt8.ofNat (profile.bitDepthChromaMinus8 % 8), 0x00, 0x00,
      UInt8.ofNat (min (profile.maxSubLayersMinus1 + 1) 7 * 2 ^ 3 +
        profile.temporalIdNested.toNat * 2 ^ 2 + 3),
      3]

def hvccArray (nalType : UInt8) (nalu : Nalu) : Option (List UInt8) :=
  if nalu.length ≤ 65535 then some ([0x80 ||| nalType] ++ be16 1 ++ u16Prefixed nalu) else none

def buildHvccRecord (annexbData : List UInt8) : Option (List UInt8) := do
  let nalus := splitAnnexbNalus annexbData
  let vps ← nalus.find? (h265NalType · = some 32)
  let sps ← nalus.find? (h265NalType · = some 33)
  let pps ← nalus.find? (h265NalType · = some 34)
  let profile ← parseHevcProfileTierLevel sps
  let vpsArray ← hvccArray 32 vps
  let spsArray ← hvccArray 33 sps
  let ppsArray ← hvccArray 34 pps
  return hvccHeader profile ++ vpsArray ++ spsArray ++ ppsArray

def buildHevcEnhancedRtmpSequenceHeader (annexbData : List UInt8) : Option (List UInt8) :=
  (buildHvccRecord annexbData).map fun hvcc => [0x80] ++ hvc1 ++ hvcc

end Restream.Codec
