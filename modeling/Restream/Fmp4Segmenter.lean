import Restream.RtmpEncoder
import Restream.Adts
import Restream.OrderedMap

/-! The fMP4 preview: packets become samples with durations, a keyframe far enough behind
the start of the segment cuts it in every rendition, and a segment's samples are placed
back to back behind those of the segments before. -/

namespace Restream.Fmp4

open Codec Rtmp

def videoTimescale : Nat := 90000

def rescaleMs (ms : Int) (timescale : Nat) : Int := (saturate (ms * timescale)).tdiv 1000

structure BufferedSample where
  pts : Int
  dts : Int
  keyframe : Bool
  dataOffset : Nat
  dataSize : Nat
  defaultDuration : Nat
  deriving DecidableEq

structure MonotonicTimestampState where
  lastDts : Option Int
  deriving DecidableEq

def MonotonicTimestampState.enforce (s : MonotonicTimestampState) (pts dts : Int) :
    MonotonicTimestampState × Int × Int :=
  let offset := saturate (pts - dts)
  let corrected := match s.lastDts with
    | some last => if dts ≤ last then last + 1 else dts
    | none => dts
  ({ lastDts := some corrected }, saturate (corrected + offset), corrected)

inductive TrackKind where
  | video
  | audio
  deriving DecidableEq

structure Sample (ε : Type) where
  trackKind : TrackKind
  sampleEntry : ε
  keyframe : Bool
  timescale : Nat
  duration : Nat
  compositionTimeOffset : Option Int
  dataOffset : Nat
  dataSize : Nat
  deriving DecidableEq

variable {ε : Type}

def compositionOffset (kind : TrackKind) (sample : BufferedSample) : Except String (Option Int) :=
  match kind with
  | .audio => .ok none
  | .video =>
    let offset := saturate (sample.pts - sample.dts)
    if offset = 0 then .ok none
    else if offset < -2 ^ 31 ∨ 2 ^ 31 - 1 < offset then
      .error s!"composition offset out of i32 range: {offset}"
    else .ok (some offset)

def muxSamples (kind : TrackKind) (timescale : Nat) (entry : ε) (next : Option Int) :
    List BufferedSample → Except String (List (Sample ε))
  | [] => .ok []
  | sample :: rest => do
    let nextDts := ((rest.head?.map BufferedSample.dts) <|> next).getD
      (saturate (sample.dts + sample.defaultDuration))
    let duration := saturate (nextDts - sample.dts)
    if duration ≤ 0 ∨ u32Max < duration then
      .error s!"invalid sample duration: {duration}"
    else
      let offset ← compositionOffset kind sample
      let more ← muxSamples kind timescale entry next rest
      .ok ({ trackKind := kind
             sampleEntry := entry
             keyframe := sample.keyframe
             timescale := timescale
             duration := duration.toNat
             compositionTimeOffset := offset
             dataOffset := sample.dataOffset
             dataSize := sample.dataSize } :: more)

def buildMuxSamples (buffered : List BufferedSample) (kind : TrackKind) (timescale : Nat) (entry : ε)
    (nextSegmentFirstDts : Option Int) : Except String (List (Sample ε)) :=
  if timescale = 0 then .error "zero timescale"
  else muxSamples kind timescale entry nextSegmentFirstDts buffered

structure Fmp4SegmentMuxer where
  decodeTime : Nat
  deriving DecidableEq

def Fmp4SegmentMuxer.place (muxer : Fmp4SegmentMuxer) :
    List (Sample ε) → Fmp4SegmentMuxer × List (Nat × Sample ε)
  | [] => (muxer, [])
  | sample :: rest =>
    let (muxer', placed) := place { decodeTime := muxer.decodeTime + sample.duration } rest
    (muxer', (muxer.decodeTime, sample) :: placed)

structure SampleBuffer where
  muxer : Fmp4SegmentMuxer
  payload : List UInt8
  samples : List BufferedSample
  timestamps : MonotonicTimestampState
  deriving DecidableEq

namespace SampleBuffer

def empty : SampleBuffer :=
  { muxer := { decodeTime := 0 }, payload := [], samples := [], timestamps := { lastDts := none } }

def push (b : SampleBuffer) (packet : MediaPacket) (zeroMs : Int) (timescale : Nat) (keyframe : Bool)
    (body : List UInt8) (defaultDuration : Nat) : SampleBuffer :=
  let rawPts := rescaleMs (saturate (packet.pts - zeroMs)) timescale
  let rawDts := rescaleMs (saturate (packet.dts - zeroMs)) timescale
  let (timestamps, pts, dts) := b.timestamps.enforce rawPts rawDts
  { b with
    payload := b.payload ++ body
    timestamps := timestamps
    samples := b.samples ++ [
      { pts := pts
        dts := dts
        keyframe := keyframe
        dataOffset := b.payload.length
        dataSize := body.length
        defaultDuration := defaultDuration }] }

def cleared (b : SampleBuffer) : SampleBuffer := { b with samples := [], payload := [] }

def flush (b : SampleBuffer) (kind : TrackKind) (timescale : Nat) (entry : ε) (next : Option Int) :
    SampleBuffer × Except String (List (Nat × Sample ε) × List UInt8) :=
  match buildMuxSamples b.samples kind timescale entry next with
  | .error message => (b.cleared, .error message)
  | .ok samples =>
    let (muxer, placed) := b.muxer.place samples
    ({ b.cleared with muxer := muxer }, .ok (placed, b.payload))

end SampleBuffer

inductive PreviewVideoCodec where
  | h264
  | h265
  deriving DecidableEq

def flvSequenceHeaderCodec (payload : List UInt8) : Option PreviewVideoCodec :=
  match exVideoTag payload with
  | some tag =>
    if tag.packetType = exSequenceStart then some (if tag.fourcc = hvc1 then .h265 else .h264)
      else none
  | none =>
    match payload with
    | tag :: 0 :: _ =>
      if tag &&& 0x0F = 7 then some .h264 else if tag &&& 0x0F = 12 then some .h265 else none
    | _ => none

def isFlvVideoSequenceHeader (payload : List UInt8) : Bool := (flvSequenceHeaderCodec payload).isSome

def flvCodedFrameBody (payload : List UInt8) : Option (List UInt8) :=
  match exVideoTag payload with
  | some tag =>
    if (tag.packetType = exCodedFrames ∨
      tag.packetType = exCodedFramesX) ∧ tag.body ≠ [] then some tag.body
    else none
  | none =>
    match payload with
    | _ :: packetType :: _ =>
      if packetType ≠ 0 ∧ payload.drop 5 ≠ [] then some (payload.drop 5) else none
    | _ => none

/-- How the MP4 library reads a sample entry out of a sequence header and out of
Annex B parameter sets. -/
structure EntryBuilder (ε : Type) where
  flvSequenceHeader : List UInt8 → Option ε
  annexb : PreviewVideoCodec → List UInt8 → Option ε

def EntryBuilder.videoPacket (builder : EntryBuilder ε)
    (packet : MediaPacket) (codec : PreviewVideoCodec) :
    Option ε :=
  match packet.format with
  | .flv =>
    if flvSequenceHeaderCodec packet.payload = some codec then
      builder.flvSequenceHeader packet.payload
    else none
  | .raw => builder.annexb codec packet.payload

structure FrameDuration where
  ticks : Nat
  pos : 0 < ticks
  le : (ticks : Int) ≤ u32Max

structure VideoRenditionState (ε : Type) where
  codec : PreviewVideoCodec
  sampleEntry : Option ε
  defaultDuration : FrameDuration
  buffer : SampleBuffer

namespace VideoRenditionState

def new (codec : PreviewVideoCodec) (sampleEntry : Option ε) (defaultDuration : FrameDuration) :
    VideoRenditionState ε :=
  { codec := codec, sampleEntry := sampleEntry, defaultDuration := defaultDuration, buffer := .empty }

def isHeader (packet : MediaPacket) : Bool :=
  packet.format = .flv && isFlvVideoSequenceHeader packet.payload

def learn (builder : EntryBuilder ε) (v : VideoRenditionState ε) (packet : MediaPacket) : Option ε :=
  if isHeader packet then
    if flvSequenceHeaderCodec packet.payload ≠ some v.codec then v.sampleEntry
    else builder.flvSequenceHeader packet.payload <|> v.sampleEntry
  else v.sampleEntry <|> builder.videoPacket packet v.codec

def body (v : VideoRenditionState ε) (packet : MediaPacket) : Option (List UInt8) :=
  let bytes := match packet.format, v.codec with
    | .flv, _ => (flvCodedFrameBody packet.payload).getD []
    | .raw, .h264 => (annexbToAvcc packet.payload).1
    | .raw, .h265 => (h265AnnexbToLengthPrefixed packet.payload).1
  if bytes = [] then none else some bytes

def sampleBody (builder : EntryBuilder ε) (v : VideoRenditionState ε) (packet : MediaPacket) :
    Option (List UInt8) :=
  if isHeader packet ∨ (v.learn builder packet).isNone then none else v.body packet

def pushPacket (builder : EntryBuilder ε) (v : VideoRenditionState ε)
    (packet : MediaPacket) (zeroMs : Int) :
    VideoRenditionState ε :=
  let learned := { v with sampleEntry := v.learn builder packet }
  match v.sampleBody builder packet with
  | none => learned
  | some body =>
    { learned with
      buffer :=
        v.buffer.push packet zeroMs videoTimescale packet.isKeyframe body v.defaultDuration.ticks }

def flushSegment (v : VideoRenditionState ε) (nextSegmentFirstRelativeDtsMs : Option Int) :
    VideoRenditionState ε × Except String (List (Nat × Sample ε) × List UInt8) :=
  if v.buffer.samples = [] then ({ v with buffer := v.buffer.cleared }, .ok ([], []))
  else
    match v.sampleEntry with
    | none => ({ v with buffer := v.buffer.cleared }, .error "missing avc1 sample entry")
    | some entry =>
      let (buffer, segment) := v.buffer.flush .video videoTimescale entry
        (nextSegmentFirstRelativeDtsMs.map fun ms => rescaleMs ms videoTimescale)
      ({ v with buffer := buffer }, segment)

end VideoRenditionState

def audioDefaultDuration (packet : MediaPacket) (sampleRate : Nat) : Nat :=
  let frames := match packet.format with
    | .flv => 1
    | .raw => if adtsFrameCount packet.payload = 0 then 1 else adtsFrameCount packet.payload
  let duration := saturate32 (1024 * frames)
  max (min duration (max sampleRate duration)) 1

structure AudioRenditionState (ε : Type) where
  trackIndex : Nat
  sampleRate : Nat
  sampleEntry : ε
  buffer : SampleBuffer

namespace AudioRenditionState

def new (trackIndex sampleRate : Nat) (sampleEntry : ε) : AudioRenditionState ε :=
  { trackIndex := trackIndex, sampleRate := max sampleRate 1,
    sampleEntry := sampleEntry, buffer := .empty }

def sampleBody (packet : MediaPacket) : Option (List UInt8) :=
  let raw := match packet.format with
    | .flv =>
      match packet.payload with
      | _ :: packetType :: rest => if packetType = 0 then [] else rest
      | _ => []
    | .raw => stripAdts packet.payload
  if raw = [] then none else some raw

def pushPacket (a : AudioRenditionState ε) (packet : MediaPacket) (zeroMs : Int) :
    AudioRenditionState ε :=
  match sampleBody packet with
  | none => a
  | some body =>
    { a with
      buffer := a.buffer.push packet zeroMs a.sampleRate true body
        (audioDefaultDuration packet a.sampleRate) }

def flushSegment (a : AudioRenditionState ε) :
    AudioRenditionState ε × Except String (List (Nat × Sample ε) × List UInt8) :=
  if a.buffer.samples = [] then ({ a with buffer := a.buffer.cleared }, .ok ([], []))
  else
    let (buffer, segment) := a.buffer.flush .audio (max a.sampleRate 1) a.sampleEntry none
    ({ a with buffer := buffer }, segment)

end AudioRenditionState

inductive TrackId where
  | video
  | audio (trackIndex : Nat)
  deriving DecidableEq

/-- What a flush makes of each rendition: a segment, or the text of its error. -/
abbrev Flushed (ε : Type) := List (TrackId × Except String (List (Nat × Sample ε) × List UInt8))

structure Segmenter (ε : Type) where
  video : VideoRenditionState ε
  audio : OrderedMap Nat (AudioRenditionState ε)
  minSegmentMs : Int
  nextSegmentIndex : Nat
  gotFirstKeyframe : Bool
  globalZeroMs : Int
  segmentStartPtsMs : Int

namespace Segmenter

def start (video : VideoRenditionState ε) (tracks : List (AudioRenditionState ε))
    (minSegmentMs : Int) :
    Segmenter ε :=
  { video := video
    audio := tracks.foldl (fun audio track => audio.insert track.trackIndex track) .empty
    minSegmentMs := minSegmentMs
    nextSegmentIndex := 0
    gotFirstKeyframe := false
    globalZeroMs := 0
    segmentStartPtsMs := 0 }

def flush (s : Segmenter ε) (nextSegmentFirstRelativeDtsMs : Option Int) : Segmenter ε × Flushed ε :=
  let (video, segment) := s.video.flushSegment nextSegmentFirstRelativeDtsMs
  ({ s with video := video, audio := s.audio.mapValues fun track => track.flushSegment.1 },
    (.video, segment) :: s.audio.entries.map fun e => (.audio e.1, e.2.flushSegment.2))

def cuts (s : Segmenter ε) (packet : MediaPacket) : Bool :=
  packet.isKeyframe && s.gotFirstKeyframe && decide
    (s.minSegmentMs ≤ packet.pts - s.segmentStartPtsMs)

def onKeyframe (s : Segmenter ε) (packet : MediaPacket) : Segmenter ε × Flushed ε :=
  if packet.isKeyframe && !s.gotFirstKeyframe then
    ({ s with gotFirstKeyframe := true, globalZeroMs := packet.dts, segmentStartPtsMs := packet.pts }, [])
  else if s.cuts packet then
    let (flushed, segments) := s.flush (some (saturate (packet.dts - s.globalZeroMs)))
    ({ flushed with nextSegmentIndex := s.nextSegmentIndex + 1, segmentStartPtsMs := packet.pts },
      segments)
  else (s, [])

def onPacket (builder : EntryBuilder ε) (s : Segmenter ε) (packet : MediaPacket) :
    Segmenter ε × Flushed ε :=
  match packet.mediaType with
  | .video =>
    let (s, segments) := s.onKeyframe packet
    if !s.gotFirstKeyframe ∨ packet.dts < s.globalZeroMs then (s, segments)
    else ({ s with video := s.video.pushPacket builder packet s.globalZeroMs }, segments)
  | .audio =>
    if !s.gotFirstKeyframe ∨ packet.dts < s.globalZeroMs then (s, [])
    else
      ({ s with audio := s.audio.modify packet.trackIndex fun track =>
          track.pushPacket packet s.globalZeroMs }, [])

def timescale (s : Segmenter ε) : TrackId → Option Nat
  | .video => some videoTimescale
  | .audio index => (s.audio.get? index).map AudioRenditionState.sampleRate

def sampled (builder : EntryBuilder ε) (s : Segmenter ε) (packet : MediaPacket) : Option TrackId :=
  match packet.mediaType with
  | .video =>
    if (packet.isKeyframe && !s.gotFirstKeyframe || s.gotFirstKeyframe && decide
      (s.globalZeroMs ≤ packet.dts)) ∧
      (s.video.sampleBody builder packet).isSome then some .video else none
  | .audio =>
    if s.gotFirstKeyframe ∧ s.globalZeroMs ≤ packet.dts ∧ (s.audio.get? packet.trackIndex).isSome ∧
      (AudioRenditionState.sampleBody packet).isSome then some (.audio packet.trackIndex) else none

end Segmenter

/-- The packets that became samples of a track, and the decode times published for
the first of them. -/
structure Timing where
  accepted : List MediaPacket
  placed : List Nat
  deriving DecidableEq

structure PreviewRun (ε : Type) where
  segmenter : Segmenter ε
  timing : TrackId → Timing
  failures : List String
  finished : Bool

inductive PreviewEvent where
  | packet (packet : MediaPacket)
  | finish

namespace PreviewRun

def start (codec : PreviewVideoCodec) (entry : Option ε) (duration : FrameDuration)
    (tracks : List (Nat × Nat × ε)) (minSegmentMs : Int) : PreviewRun ε :=
  { segmenter := .start (.new codec entry duration) (tracks.map fun (index, rate, entry) => .new index rate entry)
      minSegmentMs
    timing := fun _ => { accepted := [], placed := [] }
    failures := []
    finished := false }

def accept (timing : TrackId → Timing) (packet : MediaPacket) : Option TrackId → TrackId → Timing
  | none => timing
  | some track =>
    Function.update timing track { timing track with accepted := (timing track).accepted ++ [packet] }

def decodeTimes : Except String (List (Nat × Sample ε) × List UInt8) → List Nat
  | .ok (samples, _) => samples.map Prod.fst
  | .error _ => []

def published (flushed : Flushed ε) (track : TrackId) : List Nat :=
  flushed.flatMap fun x => if x.1 = track then decodeTimes x.2 else []

def errors (flushed : Flushed ε) : List String :=
  flushed.filterMap fun x =>
    match x.2 with
    | .ok _ => none
    | .error message => some message

def place (timing : TrackId → Timing) (flushed : Flushed ε) (track : TrackId) : Timing :=
  { timing track with placed := (timing track).placed ++ published flushed track }

def record (r : PreviewRun ε) (packet : MediaPacket) (track : Option TrackId)
    (result : Segmenter ε × Flushed ε) : PreviewRun ε :=
  { r with
    segmenter := result.1
    timing := accept (place r.timing result.2) packet track
    failures := r.failures ++ errors result.2 }

def step (builder : EntryBuilder ε) (r : PreviewRun ε) : PreviewEvent → Option (PreviewRun ε)
  | .packet packet =>
    if r.finished then none
    else some (r.record packet (r.segmenter.sampled builder packet)
      (r.segmenter.onPacket builder packet))
  | .finish =>
    if r.finished then none
    else
      let (segmenter, flushed) := r.segmenter.flush none
      some { r with
        segmenter := segmenter
        timing := place r.timing flushed
        failures := r.failures ++ errors flushed
        finished := true }

def tick (zeroMs : Int) (timescale : Nat) (ms : Int) : Int :=
  rescaleMs (saturate (ms - zeroMs)) timescale

def zeroWith (r : PreviewRun ε) (packet : MediaPacket) : Int :=
  if packet.isKeyframe && !r.segmenter.gotFirstKeyframe then packet.dts else r.segmenter.globalZeroMs

/-- The clock of a track moves on by less than 2^32 ticks, and a video packet is
shown within an `i32` of its decode time. -/
def Ticks (r : PreviewRun ε) (packet : MediaPacket) (track : TrackId) (timescale : Nat) : Prop :=
  let tick := tick (r.zeroWith packet) timescale
  (∀ last ∈ (r.timing track).accepted.getLast?,
    tick last.dts < tick packet.dts ∧ tick packet.dts - tick last.dts ≤ Rtmp.u32Max) ∧
  (track = .video → -2 ^ 31 ≤ tick packet.pts - tick packet.dts ∧
    tick packet.pts - tick packet.dts < 2 ^ 31)

/-- The first audio sample of a segment starts where the default duration of the
one before it ends; the very first one starts with the video. -/
def Continues (r : PreviewRun ε) (packet : MediaPacket) (track : TrackId) (timescale : Nat) : Prop :=
  let tick := tick (r.zeroWith packet) timescale
  track ≠ .video → (r.timing track).placed.length = (r.timing track).accepted.length →
    tick packet.dts = match (r.timing track).accepted.getLast? with
      | none => 0
      | some last => tick last.dts + audioDefaultDuration last timescale

/-- A keyframe that starts the timeline or cuts a segment is a sample, and every
sample is in step with its track. -/
def KeepsTime (builder : EntryBuilder ε) (r : PreviewRun ε) : PreviewEvent → Prop
  | .finish => True
  | .packet packet =>
    (packet.mediaType = .video →
      packet.isKeyframe && !r.segmenter.gotFirstKeyframe || r.segmenter.cuts packet →
      r.segmenter.sampled builder packet = some .video) ∧
    ∀ track ∈ r.segmenter.sampled builder packet, ∀ timescale ∈ r.segmenter.timescale track,
      r.Ticks packet track timescale ∧ r.Continues packet track timescale

def InStep (builder : EntryBuilder ε) (r : PreviewRun ε) : PreviewEvent → Prop
  | .finish => True
  | .packet packet =>
    (packet.mediaType = .video →
      packet.isKeyframe && !r.segmenter.gotFirstKeyframe || r.segmenter.cuts packet →
      r.segmenter.sampled builder packet = some .video) ∧
    ∀ track ∈ r.segmenter.sampled builder packet, ∀ timescale ∈ r.segmenter.timescale track,
      r.Ticks packet track timescale

instance (r : PreviewRun ε) (packet : MediaPacket) (track : TrackId) (timescale : Nat) :
    Decidable (r.Ticks packet track timescale) := by
  unfold Ticks
  infer_instance

instance (r : PreviewRun ε) (packet : MediaPacket) (track : TrackId) (timescale : Nat) :
    Decidable (r.Continues packet track timescale) :=
  inferInstanceAs (Decidable (_ → _ → _ = _))

instance (builder : EntryBuilder ε) (r : PreviewRun ε) (e : PreviewEvent) :
    Decidable (r.KeepsTime builder e) := by
  unfold KeepsTime
  split <;> infer_instance

instance (builder : EntryBuilder ε) (r : PreviewRun ε) (e : PreviewEvent) :
    Decidable (r.InStep builder e) := by
  unfold InStep
  split <;> infer_instance

end PreviewRun

end Restream.Fmp4
