import Restream.StageTimeline
import Restream.TsMuxer
import Restream.VideoForTs

/-! The feeder of the stages that write a transport stream: payloads are converted, decode
times made to grow, and nothing is written before a picture that can be shown. -/

namespace Restream.Codec

def aacFrequencyIndex (sampleRate : Nat) : Option UInt8 :=
  (aacSampleRates.findIdx? (· = sampleRate)).map UInt8.ofNat

def buildAdtsHeaderFor (frameLen : Nat) (objectType freqIdx chanCfg : UInt8) : Option (List UInt8) :=
  if ¬(1 ≤ objectType ∧ objectType ≤ 4) ∨ 12 < freqIdx ∨ 7 < chanCfg then none
  else
    let profile := objectType - 1
    let totalLen := frameLen + 7
    let lenHigh := UInt8.ofNat (totalLen / 2 ^ 8)
    let lenLow := UInt8.ofNat totalLen
    if 0x1FFF < totalLen then none
    else
      some [0xFF, 0xF1, (profile <<< 6) ||| (freqIdx <<< 2) ||| (chanCfg >>> 2),
        ((chanCfg &&& 0x03) <<< 6) ||| ((lenHigh >>> 3) &&& 0x03), (lenHigh <<< 5) ||| (lenLow >>> 3),
        ((lenLow &&& 0x07) <<< 5) ||| 0x1F, 0xFC]

def buildAdtsHeader (frameLen sampleRate channels : Nat) : Option (List UInt8) :=
  buildAdtsHeaderFor frameLen 2 ((aacFrequencyIndex sampleRate).getD 3) (UInt8.ofNat (min channels 7))

def hasAdtsSync : List UInt8 → Bool
  | 0xFF :: second :: _ => second &&& 0xF0 = 0xF0
  | _ => false

def prependAdts (rawAac : List UInt8) (sampleRate channels : Nat) : Option (List UInt8) :=
  (buildAdtsHeader rawAac.length sampleRate channels).map (· ++ rawAac)

def flvAacFrame : List UInt8 → Option (List UInt8)
  | _ :: packetType :: frame => if packetType ≠ 0 ∧ frame ≠ [] then some frame else none
  | _ => none

def audioForTs (payload : List UInt8) (format : PayloadFormat) (sampleRate channels : Nat) :
    Option (List UInt8) :=
  match format with
  | .raw =>
    if payload = [] then none
    else if hasAdtsSync payload then some payload
    else prependAdts payload sampleRate channels
  | .flv => (flvAacFrame payload).bind fun frame => prependAdts frame sampleRate channels

end Restream.Codec

namespace Restream.Mpegts

def TsMuxer.muxPacketByStreamIdx (m : TsMuxer) (streamIdx : Nat)
    (mediaType : MediaType) (info : PacketMeta)
    (payload : List UInt8) : TsMuxer × List UInt8 :=
  if m.streams[streamIdx]?.map MuxStreamConfig.mediaType = some mediaType then
    m.muxPacketAt streamIdx mediaType info payload
  else (m, [])

end Restream.Mpegts

namespace Restream.Feeder

open Codec Rtmp Mpegts

structure FeederAudio extends AudioMeta where
  channels : Nat

structure PacketFeedConfig where
  videoSequenceHeader : Option (List UInt8)
  rawVideoParameterSets : Option (List UInt8)
  serviceMetadata : Option TsServiceMetadata

structure TsPacketFeeder where
  muxer : TsMuxer
  dtsEnforcer : Ffmpeg.DtsEnforcer
  audioTracks : List FeederAudio
  hasVideo : Bool
  waitingForVideoStartup : Bool
  video : TsVideoState

def parseVideoSequenceHeader (header : List UInt8) : Nat × List UInt8 :=
  if header.head?.any (fun tag => tag &&& 0x0F = 12) || (exVideoTag header).isSome then
    (flvVideoConfig header).getD (4, [])
  else if 5 < header.length then parseAvccConfig (header.drop 5)
  else (4, [])

def prepareVideoStartupPacket (packet : MediaPacket) (cache : List UInt8) : List UInt8 × Bool :=
  match packet.format with
  | .raw => ((annexbParameterSets packet.payload).getD cache, rawAnnexbIsKeyframe packet.payload)
  | .flv =>
    let sequenceHeader : Bool := match exVideoTag packet.payload with
      | some tag => tag.packetType = exSequenceStart
      | none => packet.payload[1]? = some 0
    (cache, sequenceHeader || packet.isKeyframe)

namespace TsPacketFeeder

def new (video : Option String) (audioTracks : List FeederAudio) (config : PacketFeedConfig) :
    TsPacketFeeder :=
  let parsed := (config.videoSequenceHeader.map parseVideoSequenceHeader).getD (4, [])
  { muxer := TsMuxer.newWithMetadata video (audioTracks.map FeederAudio.toAudioMeta)
      (config.serviceMetadata.getD .disabled)
    dtsEnforcer := .new ((if video.isSome then 1 else 0) + audioTracks.length)
    audioTracks := audioTracks
    hasVideo := video.isSome
    waitingForVideoStartup := video.isSome
    video :=
      { naluLenSize := parsed.1
        spsPpsCache := if parsed.2 = [] then config.rawVideoParameterSets.getD [] else parsed.2 } }

def needsRawVideoParameterSets (f : TsPacketFeeder) : Bool := f.hasVideo && f.video.spsPpsCache = []

def setRawVideoParameterSetsIfEmpty (f : TsPacketFeeder) (parameterSets : List UInt8) :
    TsPacketFeeder :=
  if ¬f.needsRawVideoParameterSets ∨ parameterSets = [] then f
  else { f with video := { f.video with spsPpsCache := f.video.spsPpsCache ++ parameterSets } }

def setVideoSequenceHeaderFromAvcc (f : TsPacketFeeder) (header : List UInt8) : TsPacketFeeder :=
  if ¬f.needsRawVideoParameterSets then f
  else
    let parsed := parseVideoSequenceHeader header
    if parsed.2 = [] then f
      else { f with video := { naluLenSize := parsed.1, spsPpsCache := parsed.2 } }

def videoPayload (f : TsPacketFeeder) (packet : MediaPacket) : TsPacketFeeder × Option (List UInt8) :=
  let startup := prepareVideoStartupPacket packet f.video.spsPpsCache
  let video := if f.waitingForVideoStartup then { f.video with spsPpsCache := startup.1 } else f.video
  if f.waitingForVideoStartup ∧ ¬startup.2 then ({ f with video }, none)
  else
    let converted := video.videoForTs packet.format packet.payload
    ({ f with
        video := converted.1
        waitingForVideoStartup := f.waitingForVideoStartup && converted.2.isNone }, converted.2)

def audioPayload (f : TsPacketFeeder) (packet : MediaPacket) : Option (List UInt8 × Nat) :=
  if f.hasVideo ∧ f.waitingForVideoStartup then none
  else do
    let position ← f.audioTracks.findIdx? (·.trackIndex = packet.trackIndex)
    let track ← f.audioTracks[position]?
    let payload ← audioForTs packet.payload packet.format track.sampleRate track.channels
    return (payload, position + if f.hasVideo then 1 else 0)

def mux (f : TsPacketFeeder) (packet : MediaPacket) (payload : List UInt8) (streamIdx : Nat) :
    TsPacketFeeder × List UInt8 :=
  let times := f.dtsEnforcer.enforce streamIdx packet.pts packet.dts
  let muxed := f.muxer.muxPacketByStreamIdx streamIdx packet.mediaType
    { ptsMs := times.2.1, dtsMs := times.2.2, isKeyframe := packet.isKeyframe } payload
  ({ f with muxer := muxed.1, dtsEnforcer := times.1 }, muxed.2)

def extendTsForPacket (f : TsPacketFeeder) (packet : MediaPacket) : TsPacketFeeder × List UInt8 :=
  match packet.mediaType with
  | .video =>
    let converted := f.videoPayload packet
    match converted.2 with
    | some payload => converted.1.mux packet payload 0
    | none => (converted.1, [])
  | .audio =>
    match f.audioPayload packet with
    | some (payload, streamIdx) => f.mux packet payload streamIdx
    | none => (f, [])

end TsPacketFeeder

inductive FeederEvent where
  | packet (packet : MediaPacket)
  | rawParameterSets (parameterSets : List UInt8)
  | sequenceHeader (header : List UInt8)

structure FeederRun where
  feeder : TsPacketFeeder
  written : List MediaPacket

def FeederRun.start (video : String) (audioTracks : List FeederAudio) (config : PacketFeedConfig) :
    FeederRun :=
  { feeder := .new (some video) audioTracks config, written := [] }

open TsMuxer

def FeederRun.step (r : FeederRun) : FeederEvent → Option FeederRun
  | .packet packet =>
    let extended := r.feeder.extendTsForPacket packet
    some { feeder := extended.1, written := if extended.2 = [] then r.written
      else r.written ++ [packet] }
  | .rawParameterSets sets => some { r with feeder := r.feeder.setRawVideoParameterSetsIfEmpty sets }
  | .sequenceHeader header => some { r with feeder := r.feeder.setVideoSequenceHeaderFromAvcc header }

section Muxing

variable {m : TsMuxer} {mt : MediaType} {payload : List UInt8}

theorem writeTables_streams :
    (m.writeTables dtsMs).1.streams = m.streams ∧
    (m.writeTables dtsMs).1.continuity = m.continuity := by
  unfold writeTables writePmt
  dsimp only
  split <;> split <;> exact ⟨rfl, rfl⟩

def VideoFirst (m : TsMuxer) : Prop :=
  m.streams[0]?.map MuxStreamConfig.mediaType = some .video ∧ m.continuity ≠ []

theorem pesPackets_ne_nil (h : 0 < hdr.length + payload.length) :
    (pesPackets pid key isPcr dts90k hdr payload (n + 1) first cc 0).2 ≠ [] := by
  rw [pesPackets, if_pos h]
  intro hnil
  simp only [List.append_eq_nil_iff] at hnil
  have hh := hnil.1.1
  unfold packetHeader at hh
  split at hh
  · simp [tsHeader] at hh
  · dsimp only at hh
    split at hh
    · simp [tsHeader] at hh
    · split at hh <;> simp [tsHeader] at hh

theorem muxPacketAt_streams (m : TsMuxer) (si : Nat) :
    (m.muxPacketAt si mt info payload).1.streams = m.streams ∧
      (m.muxPacketAt si mt info payload).1.continuity.length = m.continuity.length := by
  unfold muxPacketAt
  split
  · by_cases hnil : payload = []
    · rw [if_pos hnil]
      exact ⟨rfl, rfl⟩
    · rw [if_neg hnil]
      dsimp only
      split
      · exact ⟨(writeTables_streams).1, by rw [List.length_set, (writeTables_streams).2]⟩
      · exact ⟨rfl, List.length_set⟩
  · exact ⟨rfl, rfl⟩

theorem muxPacketAt_videoFirst (h : VideoFirst m) (si : Nat) :
    VideoFirst (m.muxPacketAt si mt info payload).1 := by
  obtain ⟨hs, hc⟩ := muxPacketAt_streams (m := m) si
  refine ⟨by rw [hs]; exact h.1, ?_⟩
  rw [← List.length_pos_iff, hc]
  exact List.length_pos_iff.mpr h.2

theorem muxPacketByStreamIdx_ne_nil (h : VideoFirst m) (hp : payload ≠ []) :
    (m.muxPacketByStreamIdx 0 .video info payload).2 ≠ [] := by
  obtain ⟨str, hs, -⟩ := Option.map_eq_some_iff.mp h.1
  obtain ⟨cc, counters, hcc⟩ := List.exists_cons_of_ne_nil h.2
  have hc : m.continuity[0]? = some cc := by rw [hcc]; rfl
  obtain ⟨b, rest, rfl⟩ := List.exists_cons_of_ne_nil hp
  rw [muxPacketByStreamIdx, if_pos h.1, muxPacketAt, hs, hc]
  dsimp only
  intro hnil
  exact pesPackets_ne_nil (by simp) (List.append_eq_nil_iff.mp hnil).2

end Muxing

section Startup

variable {f : TsPacketFeeder} {payload : List UInt8}

theorem mux_spec (h : VideoFirst f.muxer) (si : Nat) : VideoFirst (f.mux pkt payload si).1.muxer ∧
      (f.mux pkt payload si).1.hasVideo = f.hasVideo ∧
      (f.mux pkt payload si).1.waitingForVideoStartup = f.waitingForVideoStartup := by
  refine ⟨?_, rfl, rfl⟩
  simp only [TsPacketFeeder.mux, muxPacketByStreamIdx]
  split
  · exact muxPacketAt_videoFirst h si
  · exact h

theorem videoPayload_spec (f : TsPacketFeeder) (pkt : MediaPacket) :
    (f.videoPayload pkt).1.muxer = f.muxer ∧ (f.videoPayload pkt).1.hasVideo = f.hasVideo := by
  unfold TsPacketFeeder.videoPayload
  dsimp only
  split <;> exact ⟨rfl, rfl⟩

theorem videoPayload_waiting (h : f.waitingForVideoStartup = true) (pkt : MediaPacket) :
    ((f.videoPayload pkt).2 = none → (f.videoPayload pkt).1.waitingForVideoStartup = true) ∧
      ∀ payload, (f.videoPayload pkt).2 = some payload →
        payload ≠ [] ∧ (pkt.format = .raw → rawAnnexbIsKeyframe pkt.payload = true) := by
  unfold TsPacketFeeder.videoPayload
  simp only [h, true_and, Bool.not_eq_true, Bool.true_and, if_true]
  split
  · exact ⟨fun _ => rfl, fun payload hp => (nomatch hp)⟩
  · next he =>
    refine ⟨fun hn => by rw [hn]; rfl, fun payload hp => ⟨videoForTs_ne_nil hp, fun hraw => ?_⟩⟩
    simpa [prepareVideoStartupPacket, hraw] using he

theorem extend_spec (h : VideoFirst f.muxer) (pkt : MediaPacket) :
    VideoFirst (f.extendTsForPacket pkt).1.muxer ∧
    (f.extendTsForPacket pkt).1.hasVideo = f.hasVideo := by
  unfold TsPacketFeeder.extendTsForPacket
  split
  · obtain ⟨hm, hv⟩ := videoPayload_spec f pkt
    have hf : VideoFirst (f.videoPayload pkt).1.muxer := hm ▸ h
    dsimp only
    split
    · exact ⟨(mux_spec hf 0).1, hv⟩
    · exact ⟨hf, hv⟩
  · split
    · exact ⟨(mux_spec h _).1, rfl⟩
    · exact ⟨h, rfl⟩

theorem extend_waiting (h : VideoFirst f.muxer) (hv : f.hasVideo = true)
    (hw : f.waitingForVideoStartup = true) : ((f.extendTsForPacket pkt).2 = [] →
    (f.extendTsForPacket pkt).1.waitingForVideoStartup = true) ∧ ((f.extendTsForPacket pkt).2 ≠ [] →
    pkt.mediaType = .video ∧ (pkt.format = .raw → rawAnnexbIsKeyframe pkt.payload = true)) := by
  obtain ⟨hn, hs⟩ := videoPayload_waiting hw pkt
  unfold TsPacketFeeder.extendTsForPacket
  cases hk : pkt.mediaType with
  | video =>
    dsimp only
    cases hp : (f.videoPayload pkt).2 with
    | none => exact ⟨fun _ => hn hp, fun hne => (hne rfl).elim⟩
    | some payload =>
      obtain ⟨hne, hkey⟩ := hs payload hp
      have hf : VideoFirst (f.videoPayload pkt).1.muxer := (videoPayload_spec f pkt).1 ▸ h
      refine ⟨fun hnil => ?_, fun _ => ⟨rfl, hkey⟩⟩
      simp only [TsPacketFeeder.mux, hk] at hnil
      exact (muxPacketByStreamIdx_ne_nil hf hne hnil).elim
  | audio =>
    have ha : f.audioPayload pkt = none := if_pos ⟨hv, hw⟩
    simp only [ha]
    exact ⟨fun _ => hw, fun hne => (hne rfl).elim⟩

end Startup

namespace FeederRun

variable {r t : FeederRun}

structure Inv (r : FeederRun) : Prop where
  videoFirst : VideoFirst r.feeder.muxer
  hasVideo : r.feeder.hasVideo = true
  waiting : r.written = [] → r.feeder.waitingForVideoStartup = true
  opened : ∀ p ∈ r.written.head?, p.mediaType = .video ∧
    (p.format = .raw → rawAnnexbIsKeyframe p.payload = true)

theorem Inv.start (video : String) (audioTracks : List FeederAudio) (c : PacketFeedConfig) :
    (FeederRun.start video audioTracks c).Inv where
  videoFirst := ⟨rfl, by simp [FeederRun.start, TsPacketFeeder.new, newWithMetadata, configStreams]⟩
  hasVideo := rfl
  waiting := fun _ => rfl
  opened := by rintro p ⟨⟩

theorem Inv.replace {feeder : TsPacketFeeder} (h : r.Inv) (hm : feeder.muxer = r.feeder.muxer)
    (hv : feeder.hasVideo = r.feeder.hasVideo)
    (hw : feeder.waitingForVideoStartup = r.feeder.waitingForVideoStartup) :
    Inv { r with feeder } where
  videoFirst := hm ▸ h.videoFirst
  hasVideo := hv.trans h.hasVideo
  waiting := fun hnil => hw.trans (h.waiting hnil)
  opened := h.opened

theorem Inv.packet (h : r.Inv) (hs : r.step (.packet pkt) = some t) : t.Inv := by
  cases hs
  obtain ⟨hf, hv⟩ := extend_spec h.videoFirst pkt
  refine ⟨hf, hv.trans h.hasVideo, ?_, ?_⟩
  · intro hnil
    by_cases hout : (r.feeder.extendTsForPacket pkt).2 = []
    · simp only [hout, if_true] at hnil
      exact (extend_waiting h.videoFirst h.hasVideo (h.waiting hnil)).1 hout
    · simp [hout] at hnil
  · intro p hp
    by_cases hout : (r.feeder.extendTsForPacket pkt).2 = []
    · simp only [hout, if_true] at hp
      exact h.opened p hp
    · simp only [hout, if_false] at hp
      by_cases hnil : r.written = []
      · rw [hnil] at hp
        cases hp
        exact (extend_waiting h.videoFirst h.hasVideo (h.waiting hnil)).2 hout
      · rw [List.head?_append_of_ne_nil _ hnil] at hp
        exact h.opened p hp

theorem Inv.step (h : r.Inv) (hs : r.step e = some t) : t.Inv := by
  cases e with
  | packet pkt => exact h.packet hs
  | rawParameterSets sets =>
    cases hs
    unfold TsPacketFeeder.setRawVideoParameterSetsIfEmpty
    split <;> exact h.replace rfl rfl rfl
  | sequenceHeader hdr =>
    cases hs
    unfold TsPacketFeeder.setVideoSequenceHeaderFromAvcc
    dsimp only
    split
    · exact h.replace rfl rfl rfl
    · split <;> exact h.replace rfl rfl rfl

theorem Inv.reachable
    (h : Exec.Reachable FeederRun.step Exec.anyLabel (FeederRun.start video audioTracks c) r) :
    r.Inv :=
  h.invariant Inv (fun _ _ _ hinv _ hs => hinv.step hs) (.start video audioTracks c)

end FeederRun

end Restream.Feeder
