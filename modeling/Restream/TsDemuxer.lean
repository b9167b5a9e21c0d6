import Restream.AdtsFraming
import Restream.TsMuxer
import Restream.VideoCodec
import Restream.OrderedMap

/-! The MPEG-TS demuxer: transport packets are cut out of the fed bytes, the program
tables name the streams, and every other payload goes to the stream of its PID, whose
PES payloads become media packets. -/

namespace Restream.Mpegts

open Codec

def maxPesBuffer : Nat := 512 * 1024

inductive StreamKind where
  | h264
  | h265
  | aacAdts
  | aacLatm
  deriving DecidableEq

def StreamKind.fromStreamType (st : UInt8) : Option StreamKind :=
  if st = streamTypeH264 then some .h264
  else if st = streamTypeH265 then some .h265
  else if st = streamTypeAacAdts then some .aacAdts
  else if st = streamTypeAacLatm then some .aacLatm
  else none

def StreamKind.mediaType : StreamKind → MediaType
  | .h264 | .h265 => .video
  | .aacAdts | .aacLatm => .audio

def h264IsKeyframe (payload : List UInt8) : Bool :=
  (splitAnnexbNalus payload).any fun nalu => h264NalType nalu = some 5

def h265IsKeyframe (payload : List UInt8) : Bool :=
  (splitAnnexbNalus payload).any fun nalu =>
    match nalu with
    | first :: _ =>
      let nalType := (first >>> 1) &&& 0x3F
      16 ≤ nalType && nalType ≤ 23
    | [] => false

structure PesAccumulator where
  buf : List UInt8
  expectedPayloadLen : Option Nat
  pts : Int
  dts : Int
  hasTimestamp : Bool
  randomAccess : Bool
  adts : AdtsFraming
  deriving DecidableEq

namespace PesAccumulator

def new : PesAccumulator :=
  { buf := [], expectedPayloadLen := none, pts := 0, dts := 0,
    hasTimestamp := false, randomAccess := false
    adts := .new }

def appendBounded (pes : PesAccumulator) (data : List UInt8) : PesAccumulator :=
  if pes.buf.length + data.length ≤ maxPesBuffer then { pes with buf := pes.buf ++ data } else pes

def reset (pes : PesAccumulator) : PesAccumulator := { new with adts := pes.adts }

def pesPayloadLen (pesPacketLen pesHeaderLen : Nat) : Option Nat :=
  if pesPacketLen = 0 ∨ pesPacketLen < pesHeaderLen + 3 then none
    else some (pesPacketLen - (pesHeaderLen + 3))

def withTimestamps (pes : PesAccumulator) (hasPts hasDts : Bool) (header : List UInt8) :
    PesAccumulator :=
  let pes := match if hasPts then parseTimestamp header else none with
    | some pts => { pes with pts := pts, hasTimestamp := true }
    | none => pes
  match if hasDts then parseTimestamp (header.drop 5) else none with
  | some dts => { pes with dts := dts }
  | none => if hasPts then { pes with dts := pes.pts } else pes

def begin (pes : PesAccumulator) (randomAccess : Bool) : List UInt8 → Option PesAccumulator
  | 0x00 :: 0x00 :: 0x01 :: _ :: lenHigh :: lenLow :: _ :: pesFlags :: headerLen :: header =>
    let pes := { pes with
      randomAccess := randomAccess
      expectedPayloadLen := pesPayloadLen (lenHigh.toNat * 2 ^ 8 + lenLow.toNat) headerLen.toNat }
    let pes := pes.withTimestamps (pesFlags &&& 0x80 ≠ 0) (pesFlags &&& 0x40 ≠ 0) header
    some (pes.appendBounded (header.drop headerLen.toNat))
  | _ => none

end PesAccumulator

structure StreamInfo where
  pid : Nat
  kind : StreamKind
  trackIndex : Nat
  language : Option String
  pes : PesAccumulator
  deriving DecidableEq

namespace StreamInfo

def unit (s : StreamInfo) (payload : List UInt8) : MediaPacket :=
  { mediaType := s.kind.mediaType
    format := .raw
    isKeyframe := match s.kind with
      | .h264 => s.pes.randomAccess || h264IsKeyframe s.pes.buf
      | .h265 => h265IsKeyframe s.pes.buf
      | .aacAdts | .aacLatm => false
    trackIndex := s.trackIndex
    pts := tsToMs s.pes.pts
    dts := tsToMs s.pes.dts
    payload := payload }

/-- The packets of the accumulated PES, and the payload to probe the stream with. An
AAC PES without a timestamp continues its stream's frames. -/
def flushPes (s : StreamInfo) : StreamInfo × List MediaPacket × Option (List UInt8) :=
  if s.pes.buf = [] ∨ !(s.pes.hasTimestamp || s.kind = .aacAdts) then
    ({ s with pes := s.pes.reset }, [], none)
  else if s.kind = .aacAdts then
    let timestamps := if s.pes.hasTimestamp then some (s.pes.pts, s.pes.dts) else none
    let (adts, pushed, framed) := s.pes.adts.frame s.pes.buf timestamps s.trackIndex
    let flushed := { s with pes := { s.pes.reset with adts := adts } }
    match framed with
    | .frames first => (flushed, pushed, first)
    | .whole payload =>
      if s.pes.hasTimestamp then (flushed, pushed ++ [s.unit payload], some payload)
        else (flushed, pushed, none)
  else ({ s with pes := s.pes.reset }, [s.unit s.pes.buf], some s.pes.buf)

end StreamInfo

structure TopologyChanges where
  audio : Bool
  video : Bool
  deriving DecidableEq

namespace TopologyChanges

def none : TopologyChanges := { audio := false, video := false }

def mark (changes : TopologyChanges) (kind : StreamKind) : TopologyChanges :=
  match kind.mediaType with
  | .audio => { changes with audio := true }
  | .video => { changes with video := true }

def affects (changes : TopologyChanges) : MediaType → Bool
  | .audio => changes.audio
  | .video => changes.video

def join (a b : TopologyChanges) : TopologyChanges :=
  { audio := a.audio || b.audio, video := a.video || b.video }

end TopologyChanges

inductive StreamProbe (π : Type) where
  | video (info : π)
  | audio (info : π)

/-- How the codec probes read a configuration out of a first payload, and the language
that the three bytes of a descriptor name. -/
structure Prober (π : Type) where
  video : StreamKind → Nat → List UInt8 → Option π
  audio : StreamKind → Nat → Nat → List UInt8 → Option π
  language : List UInt8 → Option String

def noProber : Prober Unit :=
  { video := fun _ _ _ => none, audio := fun _ _ _ _ => none, language := fun _ => none }

structure DemuxProbe (π : Type) where
  video : Option (π × Option String)
  videoTrackCount : Nat
  audioTracks : List (π × Nat × Option String)

def length12 (high low : UInt8) : Nat := (high &&& 0x0F).toNat * 2 ^ 8 + low.toNat

def pid13 (high low : UInt8) : Nat := (high &&& 0x1F).toNat * 2 ^ 8 + low.toNat

def sectionAfterPointer : List UInt8 → Option (List UInt8)
  | [] => none
  | pointer :: rest => if rest.drop pointer.toNat = [] then none else some (rest.drop pointer.toNat)

def descriptorsAreValid : Nat → List UInt8 → Bool
  | _, [] => true
  | n + 1, _ :: len :: tail => len.toNat ≤ tail.length && descriptorsAreValid n (tail.drop len.toNat)
  | _, _ => false

def streamLanguage (language : List UInt8 → Option String) : Nat → List UInt8 → Option String
  | n + 1, tag :: len :: tail =>
    if len.toNat ≤ tail.length then
      let here := if tag = 0x0A ∧ 3 ≤ len.toNat then language (tail.take 3) else none
      streamLanguage language n (tail.drop len.toNat) <|> here
    else none
  | _, _ => none

structure PmtEntry where
  streamType : UInt8
  pid : Nat
  descriptors : List UInt8

def splitEntry : List UInt8 → Option (PmtEntry × List UInt8)
  | streamType :: pidHigh :: pidLow :: infoHigh :: infoLow :: tail =>
    let infoLen := length12 infoHigh infoLow
    if infoLen ≤ tail.length then
      some ({ streamType := streamType, pid := pid13 pidHigh pidLow, descriptors := tail.take infoLen },
        tail.drop infoLen)
    else none
  | _ => none

def entriesAreValid : Nat → List UInt8 → Bool
  | _, [] => true
  | 0, _ => false
  | n + 1, entries =>
    match splitEntry entries with
    | none => false
    | some (e, rest) =>
      descriptorsAreValid e.descriptors.length e.descriptors && entriesAreValid n rest

def pmtEntries : Nat → List UInt8 → List PmtEntry
  | 0, _ => []
  | n + 1, entries =>
    match splitEntry entries with
    | none => []
    | some (e, rest) => e :: pmtEntries n rest

def pmtStreamLoopBounds (data : List UInt8) (sectionEnd : Nat) : Option (Nat × Nat) :=
  let loopEnd := sectionEnd - 4
  if sectionEnd < 4 ∨ data.length < sectionEnd ∨ loopEnd < 12 then none
  else
    match data.drop 10 with
    | high :: low :: _ =>
      let loopStart := 12 + length12 high low
      let info := (data.take loopStart).drop 12
      let entries := (data.take loopEnd).drop loopStart
      if data.length < loopStart ∨ loopEnd < loopStart then none
      else if descriptorsAreValid info.length info && entriesAreValid entries.length entries then
        some (loopStart, loopEnd)
      else none
    | _ => none

def firstProgram : List UInt8 → Option Nat
  | numberHigh :: numberLow :: pidHigh :: pidLow :: rest =>
    if numberHigh.toNat * 2 ^ 8 + numberLow.toNat ≠ 0 then some (pid13 pidHigh pidLow)
      else firstProgram rest
  | _ => none

structure PmtInstall (π : Type) where
  streams : List StreamInfo
  streamProbes : List (Option (StreamProbe π))
  pidToStream : Nat → Option Nat
  oldStreams : OrderedMap Nat (StreamInfo × Option (StreamProbe π))
  audioTrackCounter : Nat
  videoTrackCount : Nat
  hasVideo : Bool
  changes : TopologyChanges
  removedConfig : Bool
  retainedMetadataChanged : Bool

namespace PmtInstall

variable {π : Type}

def push (p : PmtInstall π) (s : StreamInfo) (probe : Option (StreamProbe π)) : PmtInstall π :=
  { p with
    streams := p.streams ++ [s]
    streamProbes := p.streamProbes ++ [probe]
    pidToStream := Function.update p.pidToStream s.pid (some p.streams.length) }

def addStream (p : PmtInstall π) (kind : StreamKind) (trackIndex : Nat)
    (language : Option String) (pid : Nat) :
    PmtInstall π :=
  let fresh : StreamInfo :=
    { pid := pid, kind := kind, trackIndex := trackIndex, language := language, pes := .new }
  match p.oldStreams.get? pid with
  | none => { p with changes := p.changes.mark kind }.push fresh none
  | some (old, probe) =>
    let p := { p with oldStreams := p.oldStreams.erase pid }
    if old.kind = kind then
      { p with
        changes := if old.trackIndex ≠ trackIndex then p.changes.mark kind else p.changes
        retainedMetadataChanged := p.retainedMetadataChanged ||
          (probe.isSome && (old.trackIndex ≠ trackIndex || old.language ≠ language)) }.push
        { fresh with pes := old.pes } probe
    else
      { p with
        changes := (p.changes.mark old.kind).mark kind
        removedConfig := p.removedConfig || probe.isSome }.push fresh none

def addEntry (prober : Prober π) (p : PmtInstall π) (e : PmtEntry) : PmtInstall π :=
  match StreamKind.fromStreamType e.streamType with
  | none => p
  | some kind =>
    let language := streamLanguage prober.language e.descriptors.length e.descriptors
    match kind.mediaType with
    | .video =>
      let p := { p with videoTrackCount := p.videoTrackCount + 1 }
      if p.hasVideo then p else { p with hasVideo := true }.addStream kind 0 language e.pid
    | .audio =>
      { p with audioTrackCounter := p.audioTrackCounter +
        1 }.addStream kind p.audioTrackCounter language e.pid

def dropOld (p : PmtInstall π) : PmtInstall π :=
  { p with
    changes := p.oldStreams.values.foldl (fun changes old => changes.mark old.1.kind) p.changes
    removedConfig := p.removedConfig || p.oldStreams.values.any fun old => old.2.isSome }

end PmtInstall

structure PacketDemuxer (π : Type) where
  streams : List StreamInfo
  pidToStream : Nat → Option Nat
  pmtPid : Option Nat
  probed : Bool
  initialProbeDone : Bool
  probeResult : Option (DemuxProbe π)
  topologyChanges : TopologyChanges
  output : List MediaPacket
  videoTrackCount : Nat
  streamProbes : List (Option (StreamProbe π))
  pmtLayout : List UInt8
  pmtBuf : List UInt8
  pmtExpected : Nat

structure TsPayload where
  pid : Nat
  payloadUnitStart : Bool
  randomAccess : Bool
  payload : List UInt8
  deriving DecidableEq

def tsPayload : List UInt8 → Option TsPayload
  | _ :: flags :: pidLow :: control :: afterHeader =>
    let adaptationFieldControl := (control >>> 4) &&& 0x03
    if adaptationFieldControl = 0x00 ∨ adaptationFieldControl = 0x02 then none
    else
      let (randomAccess, payload) :=
        if adaptationFieldControl = 0x03 then
          match afterHeader with
          | afLen :: rest =>
            (0 < afLen && rest.head?.any fun afFlags => afFlags &&& 0x40 ≠ 0, rest.drop afLen.toNat)
          | [] => (false, [])
        else (false, afterHeader)
      if payload = [] then none
      else
        some {
          pid := pid13 flags pidLow
          payloadUnitStart := flags &&& 0x40 ≠ 0
          randomAccess := randomAccess
          payload := payload }
  | _ => none

namespace PacketDemuxer

variable {π : Type}

def new : PacketDemuxer π :=
  { streams := []
    pidToStream := fun _ => none
    pmtPid := none
    probed := false
    initialProbeDone := false
    probeResult := none
    topologyChanges := .none
    output := []
    videoTrackCount := 0
    streamProbes := []
    pmtLayout := []
    pmtBuf := []
    pmtExpected := 0 }

def publishProbe (d : PacketDemuxer π) : PacketDemuxer π :=
  let probed := d.streams.zip d.streamProbes
  let video := (probed.filterMap fun
    | (s, some (.video info)) => some (info, s.language)
    | _ => none).getLast?
  { d with
    initialProbeDone := true
    probeResult := some {
      video := video
      videoTrackCount := if video.isSome then max d.videoTrackCount 1 else 0
      audioTracks := probed.filterMap fun
        | (s, some (.audio info)) => some (info, s.trackIndex, s.language)
        | _ => none } }

def buildProbe (prober : Prober π) (s : StreamInfo) (payload : List UInt8) : Option (StreamProbe π) :=
  match s.kind.mediaType with
  | .video => (prober.video s.kind s.pid payload).map .video
  | .audio => (prober.audio s.kind s.trackIndex s.pid payload).map .audio

def tryBuildProbe (prober : Prober π) (d : PacketDemuxer π)
    (streamIdx : Nat) (payload : List UInt8) : PacketDemuxer π :=
  let d := { d with
    streamProbes := d.streamProbes ++ List.replicate (d.streams.length - d.streamProbes.length) none }
  match d.streamProbes[streamIdx]?, d.streams[streamIdx]? with
  | some none, some stream =>
    match buildProbe prober stream payload with
    | none => d
    | some probe =>
      let d := { d with streamProbes := d.streamProbes.set streamIdx (some probe) }
      if d.streamProbes.all Option.isSome then { d with probed := true }.publishProbe else d
  | _, _ => d

def flushPes (prober : Prober π) (d : PacketDemuxer π) (streamIdx : Nat) : PacketDemuxer π :=
  match d.streams[streamIdx]? with
  | none => d
  | some s =>
    let (s, pushed, first) := s.flushPes
    let d := { d with streams := d.streams.set streamIdx s, output := d.output ++ pushed }
    match first with
    | none => d
    | some payload => if d.probed then d else tryBuildProbe prober d streamIdx payload

def flushCompletedPes (prober : Prober π) (d : PacketDemuxer π) (streamIdx : Nat) : PacketDemuxer π :=
  match d.streams[streamIdx]? with
  | none => d
  | some s =>
    match s.pes.expectedPayloadLen with
    | none => d
    | some expected =>
      if expected ≤ s.pes.buf.length then
        let s := { s with pes := { s.pes with buf := s.pes.buf.take expected } }
        { d with streams := d.streams.set streamIdx s }.flushPes prober streamIdx
      else d

def receive (prober : Prober π) (d : PacketDemuxer π) (streamIdx : Nat) (p : TsPayload) :
    PacketDemuxer π :=
  if p.payloadUnitStart then
    let d := d.flushPes prober streamIdx
    match d.streams[streamIdx]? with
    | none => d
    | some s =>
      match s.pes.begin p.randomAccess p.payload with
      | none => d
      | some pes =>
        { d with streams := d.streams.set streamIdx { s with pes := pes } }.flushCompletedPes prober streamIdx
  else
    match d.streams[streamIdx]? with
    | none => d
    | some s =>
      { d with streams := d.streams.set streamIdx { s with pes := s.pes.appendBounded p.payload } }.flushCompletedPes
        prober streamIdx

def parsePat (d : PacketDemuxer π) (payload : List UInt8) (pusi : Bool) : PacketDemuxer π :=
  match if pusi then sectionAfterPointer payload else some payload with
  | none => d
  | some data =>
    match data with
    | 0x00 :: lengthHigh :: lengthLow :: _ :: _ :: _ :: _ :: _ :: _ =>
      let programsEnd := min (length12 lengthHigh lengthLow + 3) data.length - 4
      match firstProgram ((data.take programsEnd).drop 8) with
      | none => d
      | some pid => { d with pmtPid := some pid }
    | _ => d

/-- The streams of a new layout take the place of the old ones. Packets of the media
it changes are dropped. -/
def installPmt (prober : Prober π) (d : PacketDemuxer π) (layout entries : List UInt8) :
    PacketDemuxer π :=
  let oldStreams := ((d.streams.zip (d.streamProbes ++ List.replicate d.streams.length none)).foldl
    (fun old s => old.insert s.1.pid s) OrderedMap.empty)
  let install : PmtInstall π :=
    { streams := [], streamProbes := [], pidToStream := fun _ => none, oldStreams := oldStreams
      audioTrackCounter := 0, videoTrackCount := 0, hasVideo :=
        false, changes := .none, removedConfig := false
      retainedMetadataChanged := false }
  let install :=
    ((pmtEntries entries.length entries).foldl (PmtInstall.addEntry prober) install).dropOld
  let d := { d with
    pmtLayout := layout
    streams := install.streams
    streamProbes := install.streamProbes
    pidToStream := install.pidToStream
    videoTrackCount := install.videoTrackCount
    output := d.output.filter fun packet => !install.changes.affects packet.mediaType
    topologyChanges := d.topologyChanges.join install.changes
    probed := install.streamProbes.all Option.isSome }
  if d.probed || (d.initialProbeDone &&
    (install.removedConfig || install.retainedMetadataChanged)) then
    d.publishProbe
  else d

/-- A complete section. One that is malformed, damaged, for the future or of several
sections is ignored, and so is one of the layout in use. -/
def acceptPmt (prober : Prober π) (d : PacketDemuxer π) (data : List UInt8) : PacketDemuxer π :=
  match pmtStreamLoopBounds data d.pmtExpected, data[5]? with
  | some (loopStart, loopEnd), some version =>
    if crc32Mpeg2 data ≠ 0 ∨ version &&& 1 = 0 ∨ (data.take 8).drop 6 ≠ [0, 0] then d
    else
      let layout := (data.take loopEnd).drop 10
      if d.pmtLayout = layout then d else d.installPmt prober layout
        ((data.take loopEnd).drop loopStart)
  | _, _ => d

def collectPmt (prober : Prober π) (d : PacketDemuxer π) (data : List UInt8) : PacketDemuxer π :=
  let d := { d with pmtBuf := d.pmtBuf ++ data.take (d.pmtExpected - d.pmtBuf.length) }
  if d.pmtBuf.length < d.pmtExpected then d
  else { d.acceptPmt prober d.pmtBuf with pmtBuf := [], pmtExpected := 0 }

def parsePmt (prober : Prober π) (d : PacketDemuxer π) (payload : List UInt8) (pusi : Bool) :
    PacketDemuxer π :=
  if pusi then
    let d := { d with pmtBuf := [], pmtExpected := 0 }
    match sectionAfterPointer payload with
    | some (0x02 :: lengthHigh :: lengthLow :: rest) =>
      let sectionLen := length12 lengthHigh lengthLow
      if 13 ≤ sectionLen ∧ sectionLen ≤ 1021 then
        { d with pmtExpected := sectionLen + 3 }.collectPmt prober
          (0x02 :: lengthHigh :: lengthLow :: rest)
      else d
    | _ => d
  else if 0 < d.pmtExpected then d.collectPmt prober payload
  else d

def processPayload (prober : Prober π) (d : PacketDemuxer π) (p : TsPayload) : PacketDemuxer π :=
  if p.pid = patPid then d.parsePat p.payload p.payloadUnitStart
  else if some p.pid = d.pmtPid then d.parsePmt prober p.payload p.payloadUnitStart
  else
    match d.pidToStream p.pid with
    | none => d
    | some streamIdx => d.receive prober streamIdx p

def processTsPacket (prober : Prober π) (d : PacketDemuxer π) (pkt : List UInt8) : PacketDemuxer π :=
  match tsPayload pkt with
  | none => d
  | some p => d.processPayload prober p

def flush (prober : Prober π) (d : PacketDemuxer π) : PacketDemuxer π :=
  (List.range d.streams.length).foldl (flushPes prober) d

end PacketDemuxer

def tsSyncCandidateIsValid (data : List UInt8) (candidate : Nat) : Bool :=
  let remaining := data.length - candidate
  let second := candidate + tsPacketSize
  data[candidate]? = some tsSyncByte &&
    (remaining ≤ tsPacketSize ||
      data[second]? = some tsSyncByte &&
        (remaining ≤ 2 * tsPacketSize || data[second + tsPacketSize]? = some tsSyncByte))

def findTsSync (data : List UInt8) : Nat :=
  ((List.range data.length).find? (tsSyncCandidateIsValid data)).getD data.length

namespace PacketDemuxer

variable {π : Type}

def feedPackets (prober : Prober π) : Nat → PacketDemuxer π →
    List UInt8 → PacketDemuxer π × List UInt8
  | 0, d, buf => (d, buf)
  | n + 1, d, buf =>
    if buf.length < tsPacketSize then (d, buf)
    else if buf.head? ≠ some tsSyncByte then
      feedPackets prober n d (buf.tail.drop (findTsSync buf.tail))
    else feedPackets prober n (d.processTsPacket prober (buf.take tsPacketSize))
      (buf.drop tsPacketSize)

def feedSlice (prober : Prober π) (d : PacketDemuxer π) (buf : List UInt8) :
    PacketDemuxer π × List UInt8 :=
  feedPackets prober buf.length d (buf.drop (findTsSync buf))

end PacketDemuxer

structure TsDemuxer (π : Type) where
  packets : PacketDemuxer π
  remainder : List UInt8

namespace TsDemuxer

variable {π : Type}

def new : TsDemuxer π := { packets := .new, remainder := [] }

def feed (prober : Prober π) (d : TsDemuxer π) (data : List UInt8) : TsDemuxer π :=
  let (packets, tail) := d.packets.feedSlice prober (d.remainder ++ data)
  { packets := packets, remainder := tail.drop (tail.length - (tsPacketSize - 1)) }

def flush (prober : Prober π) (d : TsDemuxer π) : TsDemuxer π :=
  { d with packets := d.packets.flush prober }

end TsDemuxer

end Restream.Mpegts
