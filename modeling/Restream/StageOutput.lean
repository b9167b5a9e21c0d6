import Restream.RingRecording
import Restream.TsFeeder

/-! What a transcoding stage publishes: every packet of its encoder, on the timeline of the
stage, and with a flag where the payload is taken for a keyframe's. -/

namespace Restream.Ffmpeg

open Codec Feeder FeederRun Exec

structure StageOutputNormalizer where
  timeline : StageTimeline
  outRing : RingBuffer
  videoTrackCount : Nat
  parameterSets : AnnexbParameterSetAccumulator

namespace StageOutputNormalizer

def new (outRing : RingBuffer) (streamCount videoTrackCount : Nat) : StageOutputNormalizer :=
  { timeline := .new streamCount, outRing := outRing, videoTrackCount := max videoTrackCount 1
    parameterSets := .empty .unknown }

def streamIndex (n : StageOutputNormalizer) (packet : MediaPacket) : Nat :=
  match packet.mediaType with
  | .video => packet.trackIndex
  | .audio => n.videoTrackCount + packet.trackIndex

def flagged (packet : MediaPacket) : MediaPacket :=
  if packet.mediaType = .video ∧ packet.isKeyframe = false ∧ rawAnnexbIsKeyframe packet.payload then
    { packet with isKeyframe := true }
  else packet

def accumulate (n : StageOutputNormalizer) (packet : MediaPacket) : AnnexbParameterSetAccumulator :=
  if packet.mediaType = .video then
    (splitAnnexbNalus packet.payload).foldl AnnexbParameterSetAccumulator.pushNalu n.parameterSets
  else n.parameterSets

def configuredRing (n : StageOutputNormalizer) (packet : MediaPacket) : RingBuffer :=
  if packet.mediaType = .video then
    match (n.accumulate packet).complete with
    | some sets => n.outRing.setVideoParameterSets sets
    | none => n.outRing
  else n.outRing

def published (n : StageOutputNormalizer) (packet : MediaPacket) : MediaPacket :=
  let times := (n.timeline.normalize (n.streamIndex packet) packet.pts packet.dts).2
  { flagged packet with pts := times.ptsMs, dts := times.dtsMs }

def push (n : StageOutputNormalizer) (packet : MediaPacket) : StageOutputNormalizer :=
  { n with
    timeline := (n.timeline.normalize (n.streamIndex packet) packet.pts packet.dts).1
    outRing := (n.configuredRing packet).push (n.published packet)
    parameterSets := n.accumulate packet }

end StageOutputNormalizer

section Keyframes

variable {packet : MediaPacket} {codec : StreamCodec} {unit : AccessUnit codec}

theorem published_isKeyframe (n : StageOutputNormalizer) (hk : packet.mediaType = .video)
    (hf : packet.isKeyframe = false) :
    (n.published packet).isKeyframe = rawAnnexbIsKeyframe packet.payload := by
  show (StageOutputNormalizer.flagged packet).isKeyframe = _
  unfold StageOutputNormalizer.flagged
  by_cases hkey : rawAnnexbIsKeyframe packet.payload = true
  · rw [if_pos ⟨hk, hf, hkey⟩, hkey]
  · rw [if_neg fun h => hkey h.2.2, hf, Bool.eq_false_of_not_eq_true hkey]

/-- The test for a keyframe is right for an access unit of H.264 exactly when that has an
IDR slice or no unit that reads as an H.265 key slice, and for every one of H.265. Where it
is right, a stage flags just the keyframes among the packets that come without a flag, and a
feeder starts its output on one. -/
theorem keyframes_classified (video : String) (audioTracks : List FeederAudio)
    (config : PacketFeedConfig)
    (r : FeederRun) :
    (∀ unit : AccessUnit .h264,
      (rawAnnexbIsKeyframe unit.bytes = true ↔ unit.IsKeyframe) ↔ unit.ReadRight) ∧
    (∀ unit : AccessUnit .hevc, rawAnnexbIsKeyframe unit.bytes = true ↔ unit.IsKeyframe) ∧
    (∀ (n : StageOutputNormalizer) (packet : MediaPacket) (codec : StreamCodec)
      (unit : AccessUnit codec), packet.mediaType = .video → packet.format = .raw →
      packet.isKeyframe = false → packet.payload = unit.bytes → unit.ReadRight →
      ∃ ring sent, (n.push packet).outRing = RingBuffer.push ring sent ∧
        sent.payload = packet.payload ∧ (sent.isKeyframe = true ↔ unit.IsKeyframe)) ∧
    (Reachable FeederRun.step anyLabel (.start video audioTracks config) r →
      ∀ p, r.written.head? = some p → p.format = .raw → p.mediaType = .video ∧
        ∀ (codec : StreamCodec) (unit : AccessUnit codec),
          p.payload = unit.bytes → unit.ReadRight → unit.IsKeyframe) := by
  refine ⟨AccessUnit.classified_iff, fun unit => unit.classified_iff.mpr unit.readRight_hevc, ?_, ?_⟩
  · intro n packet codec unit hkind _ hflag hpayload hright
    refine ⟨_, n.published packet, rfl, ?_, ?_⟩
    · show (StageOutputNormalizer.flagged packet).payload = _
      unfold StageOutputNormalizer.flagged
      split <;> rfl
    · rw [published_isKeyframe n hkind hflag, hpayload]
      exact unit.classified_iff.mpr hright
  · intro hreach p hp hraw
    obtain ⟨hkind, hkey⟩ := (Inv.reachable hreach).opened p hp
    refine ⟨hkind, fun codec unit hpayload hright => ?_⟩
    rw [← unit.classified_iff.mpr hright, ← hpayload]
    exact hkey hraw

def singleUnit (first second : UInt8) (hfirst : first &&& 0x80 = 0) (hsecond : second ≠ 0) :
    AccessUnit .h264 where
  units := [(1, [first, second])]
  trailing := 0
  clean := by
    intro u hu
    obtain rfl := List.mem_singleton.mp hu
    exact ⟨rfl, fun h => hsecond (Option.some.inj h)⟩
  header := by
    intro u hu
    obtain rfl := List.mem_singleton.mp hu
    exact hfirst

def idrSlice : AccessUnit .h264 := singleUnit 0x65 0x88 (by decide) (by decide)

def referenceSlice : AccessUnit .h264 := singleUnit 0x21 0x9A (by decide) (by decide)

def rawVideo (unit : AccessUnit .h264) : MediaPacket :=
  { MediaPacket.raw .video false 0 with payload := unit.bytes }

def bareConfig : PacketFeedConfig :=
  { videoSequenceHeader := none, rawVideoParameterSets := none, serviceMetadata := none }

/-- An IDR slice opens the output of a feeder. -/
theorem keyframes_classified_idr :
    ∃ r, Reachable FeederRun.step anyLabel (.start "h264" [] bareConfig) r ∧
      r.written.head? = some (rawVideo idrSlice) ∧ idrSlice.IsKeyframe := by
  have hright : idrSlice.ReadRight := .inl ⟨_, List.mem_singleton_self _, by decide⟩
  exact exists_reachable_and [.packet (rawVideo idrSlice)]
    (by decide +kernel) fun r hreach hhead =>
    ((keyframes_classified _ _ _ r).2.2.2 hreach _ hhead rfl).2 _ _ rfl hright

/-- The slice of a picture that others reference is taken for a keyframe: a stage flags it,
and a feeder starts its output on it. -/
theorem reference_slice_taken_for_keyframe :
    ¬referenceSlice.IsKeyframe ∧ rawAnnexbIsKeyframe referenceSlice.bytes = true ∧
      (StageOutputNormalizer.flagged (rawVideo referenceSlice)).isKeyframe = true ∧
      ((TsPacketFeeder.new (some "h264") [] bareConfig).extendTsForPacket
        (rawVideo referenceSlice)).2 ≠ [] := by
  refine ⟨?_, by decide, by decide, by decide +kernel⟩
  rintro ⟨u, hu, hkey⟩
  obtain rfl := List.mem_singleton.mp hu
  exact absurd hkey (by decide)

end Keyframes

end Restream.Ffmpeg
