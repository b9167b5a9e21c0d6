import Restream.VideoCodec
import Restream.TrackConfigs
import Restream.InputGate
import Restream.Exec

/-! The RTMP output encoder: ring packets become FLV messages with 32-bit
timestamps, and a Raw keyframe is preceded by the sequence header of its
configuration when that one has not been announced. -/

namespace Restream.Rtmp

open Codec

inductive FlvVideoPacketKind where
  | sequenceHeader
  | keyframe
  | interframe
  deriving DecidableEq, Repr

def classifyFlvVideoPacket (data : List UInt8) : Option FlvVideoPacketKind :=
  match exVideoTag data with
  | some tag =>
    if tag.packetType = exSequenceStart then some .sequenceHeader
    else if tag.packetType = exCodedFrames ∨ tag.packetType = exCodedFramesX then
      if tag.keyframe then some .keyframe else some .interframe
    else none
  | none =>
    match data with
    | tag :: packetType :: _ =>
      if tag &&& 0x0F ≠ 7 ∧ tag &&& 0x0F ≠ 12 then none
      else if packetType = 0 then some .sequenceHeader
      else if tag >>> 4 = 1 then some .keyframe
      else some .interframe
    | _ => none

def videoSequenceHeader (enhancedHevcVideo : Bool) (parameterSets : List UInt8) :
    Option (List UInt8) :=
  if enhancedHevcVideo then buildHevcEnhancedRtmpSequenceHeader parameterSets
  else buildAvccSequenceHeader parameterSets

def rtmpVideoPacketCanBeDropped (payload : List UInt8) (isKeyframe : Bool) : Bool :=
  !isKeyframe && classifyFlvVideoPacket payload = some .interframe

def stripAdts (data : List UInt8) : List UInt8 :=
  match data with
  | 0xFF :: second :: _ :: _ :: _ :: _ :: _ :: _ =>
    let headerLength := if second &&& 0x01 = 1 then 7 else 9
    if second &&& 0xF0 = 0xF0 ∧ headerLength < data.length then data.drop headerLength else data
  | _ => data

def audioForRtmp (payload : List UInt8) : List UInt8 := [0xAF, 0x01] ++ stripAdts payload

/-- The FLV payload of a Raw packet. Outputs of a shard share the conversions;
sharing does not change them. -/
def convertRaw (packet : MediaPacket) (enhancedHevc : Bool) : Option (List UInt8) :=
  match packet.mediaType with
  | .video =>
    let composition := max (-8388608) (min 8388607 (saturate (packet.pts - packet.dts)))
    if enhancedHevc then
      hevcVideoForEnhancedRtmpWithComposition packet.payload packet.isKeyframe composition
    else videoForRtmpWithComposition packet.payload packet.isKeyframe composition
  | .audio => some (audioForRtmp packet.payload)

def u32Max : Int := 2 ^ 32 - 1

structure RtmpTimestampGuard where
  lastVideoMs : Int
  lastAudioMs : Int
  deriving DecidableEq, Repr

namespace RtmpTimestampGuard

def new : RtmpTimestampGuard := { lastVideoMs := i64Min, lastAudioMs := i64Min }

def slot (g : RtmpTimestampGuard) : MediaType → Int
  | .video => g.lastVideoMs
  | .audio => g.lastAudioMs

def setSlot (g : RtmpTimestampGuard) : MediaType → Int → RtmpTimestampGuard
  | .video, ms => { g with lastVideoMs := ms }
  | .audio, ms => { g with lastAudioMs := ms }

/-- The time a packet is given: its own, clamped to 32 bits, or else the next
one after the last of its type. -/
def enforced (g : RtmpTimestampGuard) (mediaType : MediaType) (timestampMs : Int) : Int :=
  let clamped := max 0 (min u32Max timestampMs)
  if clamped ≤ g.slot mediaType then min u32Max (saturate (g.slot mediaType + 1)) else clamped

def enforceMs (g : RtmpTimestampGuard) (mediaType : MediaType) (timestampMs : Int) :
    RtmpTimestampGuard × Int :=
  (g.setSlot mediaType (g.enforced mediaType timestampMs), g.enforced mediaType timestampMs)

end RtmpTimestampGuard

def clock (packet : MediaPacket) : Int :=
  match packet.mediaType with
  | .video => packet.dts
  | .audio => packet.pts

def timestampOf (ms : Int) : UInt32 := UInt32.ofNat (ms % 2 ^ 32).toNat

def RtmpTimestampGuard.packetTimestamp (g : RtmpTimestampGuard) (packet : MediaPacket) :
    RtmpTimestampGuard × UInt32 :=
  let (g, ms) := g.enforceMs packet.mediaType (clock packet)
  (g, timestampOf ms)

def refreshedVideoSequenceHeaderTimestamp (packetTs : UInt32) : UInt32 :=
  if packetTs = 0 then 0 else packetTs - 1

inductive RtmpMediaAction where
  | video (payload : List UInt8) (timestamp : UInt32) (canBeDropped : Bool)
  | audio (payload : List UInt8) (timestamp : UInt32)
  deriving DecidableEq, Repr

structure RtmpMediaEncoder where
  enhancedHevc : Bool
  videoReady : Bool
  announcedVideoGeneration : UInt32
  timestampGuard : RtmpTimestampGuard
  deriving DecidableEq, Repr

namespace RtmpMediaEncoder

def new (enhancedHevc : Bool) : RtmpMediaEncoder :=
  { enhancedHevc := enhancedHevc
    videoReady := false
    announcedVideoGeneration := 0
    timestampGuard := .new }

def setStartupVideoGeneration (e : RtmpMediaEncoder) (generation : UInt32) : RtmpMediaEncoder :=
  { e with announcedVideoGeneration := generation }

def unannounced (e : RtmpMediaEncoder) : Option TrackConfig → Option (UInt32 × List UInt8)
  | none => none
  | some config =>
    if config.generation = e.announcedVideoGeneration then none
    else (videoSequenceHeader e.enhancedHevc config.bytes).map (config.generation, ·)

def frame (packet : MediaPacket) (timestamp : UInt32) (payload : List UInt8) : RtmpMediaAction :=
  .video payload timestamp (rtmpVideoPacketCanBeDropped payload packet.isKeyframe)

def afterHeader (guard : RtmpTimestampGuard) (timestamp : UInt32) : RtmpTimestampGuard × UInt32 :=
  let header := refreshedVideoSequenceHeaderTimestamp timestamp
  if header = timestamp then
    let (guard, ms) := guard.enforceMs .video header.toNat
    (guard, timestampOf ms)
  else (guard, timestamp)

def encodeRawKeyframe (e : RtmpMediaEncoder) (packet : MediaPacket) (videoConfig : Option TrackConfig)
    (timestamp : UInt32) : RtmpMediaEncoder × List RtmpMediaAction :=
  let converted := (convertRaw packet e.enhancedHevc).toList
  match e.unannounced videoConfig with
  | none => ({ e with videoReady := true }, converted.map (frame packet timestamp))
  | some (generation, sequenceHeader) =>
    let (guard, frameTimestamp) := afterHeader e.timestampGuard timestamp
    ({ e with videoReady := true, announcedVideoGeneration := generation, timestampGuard := guard },
      .video sequenceHeader (refreshedVideoSequenceHeaderTimestamp timestamp) false ::
        converted.map (frame packet frameTimestamp))

def encodeRawVideo (e : RtmpMediaEncoder) (packet : MediaPacket) (videoConfig : Option TrackConfig)
    (timestamp : UInt32) : RtmpMediaEncoder × List RtmpMediaAction :=
  if packet.isKeyframe then e.encodeRawKeyframe packet videoConfig timestamp
  else if e.videoReady then
    (e, (convertRaw packet e.enhancedHevc).toList.map (frame packet timestamp))
  else (e, [])

/-- An FLV packet goes out as it is. Until video is ready an interframe, or what
is no picture at all, is held back unless it is marked as a keyframe. -/
def encodeFlvVideo (e : RtmpMediaEncoder) (packet : MediaPacket) (timestamp : UInt32) :
    RtmpMediaEncoder × List RtmpMediaAction :=
  let kind := classifyFlvVideoPacket packet.payload
  if e.videoReady = false ∧ (kind = some .interframe ∨ kind = none) ∧ packet.isKeyframe = false then
    (e, [])
  else ({ e with videoReady := true }, [frame packet timestamp packet.payload])

def encodeVideo (e : RtmpMediaEncoder) (packet : MediaPacket) (videoConfig : Option TrackConfig) :
    RtmpMediaEncoder × List RtmpMediaAction :=
  let (guard, timestamp) := e.timestampGuard.packetTimestamp packet
  let e := { e with timestampGuard := guard }
  match packet.format with
  | .raw => e.encodeRawVideo packet videoConfig timestamp
  | .flv => e.encodeFlvVideo packet timestamp

def encodeAudio (e : RtmpMediaEncoder) (packet : MediaPacket) :
    RtmpMediaEncoder × List RtmpMediaAction :=
  let payload :=
    match packet.format with
    | .raw => convertRaw packet false
    | .flv => some packet.payload
  match payload with
  | none => (e, [])
  | some payload =>
    let (guard, timestamp) := e.timestampGuard.packetTimestamp packet
    ({ e with timestampGuard := guard }, [.audio payload timestamp])

def encode (e : RtmpMediaEncoder) (packet : MediaPacket) (videoConfig : Option TrackConfig) :
    RtmpMediaEncoder × List RtmpMediaAction :=
  match packet.mediaType with
  | .video => e.encodeVideo packet videoConfig
  | .audio => e.encodeAudio packet

end RtmpMediaEncoder

end Restream.Rtmp
