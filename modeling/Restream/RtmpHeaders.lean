import Restream.RtmpRun

/-! The last video sequence header an RTMP output sent is the one of the
generation it has announced, unless FLV packets carry headers of their own. -/

namespace Restream.Rtmp

open Codec Exec List Option RtmpMediaAction

def lastHeader (startup : Option (List UInt8)) (sent : List RtmpMediaAction) : Option (List UInt8) :=
  (sent.filterMap sequenceHeader?).getLast?.or startup

theorem lastHeader_append :
    lastHeader startup (sent ++ actions) = lastHeader (lastHeader startup sent) actions := by
  simp only [lastHeader, List.filterMap_append, List.getLast?_append, Option.or_assoc]

theorem lastHeader_cons :
    lastHeader startup (action :: actions) =
      lastHeader (action.sequenceHeader?.or startup) actions := by
  rw [← singleton_append, lastHeader_append]
  cases h : action.sequenceHeader? <;> simp [lastHeader, h]

def flvSequenceHeader? (packet : MediaPacket) : Option (List UInt8) :=
  if packet.mediaType = .video ∧ packet.format = .flv ∧
    classifyFlvVideoPacket packet.payload = some .sequenceHeader then some packet.payload else none

namespace RtmpMediaEncoder

variable {e : RtmpMediaEncoder} {packet : MediaPacket} {payload : List UInt8}

theorem sequenceHeader?_message (ho : e.output packet = some payload) :
    (message packet ts payload).sequenceHeader? = flvSequenceHeader? packet := by
  unfold message flvSequenceHeader?
  cases hm : packet.mediaType with
  | audio => simp [sequenceHeader?]
  | video =>
    cases hf : packet.format with
    | raw =>
      simp only [output, hf] at ho
      simp [frame, sequenceHeader?, classify_convertRaw hm ho]
    | flv =>
      simp only [output, hf, Option.some.injEq] at ho
      simp [frame, sequenceHeader?, ho]

theorem unannounced_eq_some :
    e.unannounced (some config) = some (gen, header) ↔ config.generation = gen ∧
      gen ≠ e.announcedVideoGeneration ∧
      videoSequenceHeader e.enhancedHevc config.bytes = some header := by
  simp only [unannounced, ite_none_left_eq_some, map_eq_some_iff, Prod.mk.injEq]
  constructor
  · rintro ⟨hne, h, hh, rfl, rfl⟩
    exact ⟨rfl, hne, hh⟩
  · rintro ⟨rfl, hne, hh⟩
    exact ⟨hne, header, hh, rfl, rfl⟩

end RtmpMediaEncoder

def Announces (enhancedHevc : Bool) (bytesOf : UInt32 → List UInt8) (generation : UInt32)
    (header : Option (List UInt8)) : Prop :=
  generation = 0 ∨ ∃ h, header = some h ∧
    videoSequenceHeader enhancedHevc (bytesOf generation) = some h

namespace RtmpMediaEncoder

variable {e e' : RtmpMediaEncoder} {packet : MediaPacket} {bytesOf : UInt32 → List UInt8}
  {header : Option (List UInt8)}

variable {config : TrackConfig}

theorem lastHeader_frames (hraw : packet.format = .raw) :
    lastHeader (some h) ((e.output packet).toList.map (message packet ts)) = some h := by
  have hnil : ((e.output packet).toList.map (message packet ts)).filterMap sequenceHeader? = [] := by
    rw [filterMap_eq_nil_iff]
    intro a ha
    obtain ⟨payload, hp, rfl⟩ := mem_map.mp ha
    rw [sequenceHeader?_message (mem_toList.mp hp)]
    simp [flvSequenceHeader?, hraw]
  simp [lastHeader, hnil]

theorem lastHeader_refreshed (hraw : packet.format = .raw)
    (hu : e.unannounced (some config) = some (gen, h)) :
    lastHeader header (.video h first false :: (e.output packet).toList.map (message packet second)) =
      some h := by
  have hc := classify_videoSequenceHeader (unannounced_eq_some.mp hu).2.2
  rw [lastHeader_cons]
  simp only [sequenceHeader?, hc, if_true, some_or]
  exact lastHeader_frames hraw

section
variable (h : e.Encoded packet vc (e', actions))
include h

theorem Encoded.announces (hc : ∀ config ∈ vc, config.bytes = bytesOf config.generation)
    (hflv : ∀ own ∈ flvSequenceHeader? packet, e.announcedVideoGeneration = 0 ∨ header = some own)
    (hinv : Announces e.enhancedHevc bytesOf e.announcedVideoGeneration header) :
    Announces e'.enhancedHevc bytesOf e'.announcedVideoGeneration (lastHeader header actions) := by
  cases h with
  | held ready hk => exact hinv
  | sent ready hk ho =>
    rw [lastHeader_cons, sequenceHeader?_message ho]
    cases hown : flvSequenceHeader? packet with
    | none => exact hinv
    | some own =>
      rcases hflv own (by rw [hown]; rfl) with hz | hl
      · exact .inl hz
      · rw [hl] at hinv
        exact hinv
  | refreshed hv hraw hu =>
    cases vc with
    | none => cases hu
    | some config =>
      obtain ⟨rfl, -, hh⟩ := unannounced_eq_some.mp hu
      rw [lastHeader_refreshed hraw hu]
      rw [hc config rfl] at hh
      exact .inr ⟨_, rfl, hh⟩

theorem Encoded.announced :
    e'.announcedVideoGeneration = e.announcedVideoGeneration ∨
      ∃ config ∈ vc, e'.announcedVideoGeneration = config.generation := by
  cases h with
  | held | sent => exact .inl rfl
  | refreshed hv hraw hu =>
    cases vc with
    | none => cases hu
    | some config => exact .inr ⟨config, rfl, (unannounced_eq_some.mp hu).1.symm⟩

theorem Encoded.lastHeader_of_known (header : Option (List UInt8))
    (hraw : packet.format = .raw) (hk : e.unannounced vc = none) :
    lastHeader header actions = header := by
  have hown : flvSequenceHeader? packet = none := by simp [flvSequenceHeader?, hraw]
  cases h with
  | held ready _ => rfl
  | sent ready _ ho =>
    rw [lastHeader_cons, sequenceHeader?_message ho, hown]
    rfl
  | refreshed _ _ hu =>
    rw [hk] at hu
    cases hu

end

theorem Encoded.keyframe_header (henc : e.Encoded packet (some config) (e', actions))
    (hv : packet.mediaType = .video) (hraw : packet.format = .raw) (hkey : packet.isKeyframe = true)
    (hc : config.bytes = bytesOf config.generation) (hze : config.generation ≠ 0)
    (hh : videoSequenceHeader e.enhancedHevc config.bytes = some h)
    (hinv : Announces e.enhancedHevc bytesOf e.announcedVideoGeneration header) :
    lastHeader header actions = some h := by
  have hun : ¬e.Refreshes packet (some config) → header = some h := by
    intro hk
    have hann : config.generation = e.announcedVideoGeneration := by
      by_contra hne
      refine hk ⟨hv, hraw, hkey, ?_⟩
      rw [unannounced_eq_some.mpr ⟨rfl, hne, hh⟩]
      rfl
    rcases hinv with hz | ⟨h', hl, hh'⟩
    · exact absurd (hann.trans hz) hze
    · rw [← hann, ← hc, hh] at hh'
      rw [hl, hh']
  have hown : flvSequenceHeader? packet = none := by simp [flvSequenceHeader?, hraw]
  cases henc with
  | held ready hk => exact hun hk
  | sent ready hk ho =>
    rw [lastHeader_cons, sequenceHeader?_message ho, hown]
    exact hun hk
  | refreshed _ _ hu =>
    rw [lastHeader_refreshed hraw hu]
    exact (unannounced_eq_some.mp hu).2.2.symm.trans hh

end RtmpMediaEncoder

namespace EncoderRun

def lastHeader (r : EncoderRun) : Option (List UInt8) := Rtmp.lastHeader r.startupHeader r.sent

/-- Equal generations carry equal bytes, and a startup generation is that of the
header already sent, or 0. -/
def Consistent (bytesOf : UInt32 → List UInt8) (r : EncoderRun) : EncoderEvent → Prop
  | .encode _ videoConfig => ∀ config ∈ videoConfig, config.bytes = bytesOf config.generation
  | .setStartupVideoGeneration generation =>
    Announces r.encoder.enhancedHevc bytesOf generation r.lastHeader

/-- No configuration has generation 0, and an FLV packet is a sequence header
only where none is announced or it repeats the last one. -/
def KeepsHeader (r : EncoderRun) : EncoderEvent → Prop
  | .encode packet videoConfig => (∀ config ∈ videoConfig, config.generation ≠ 0) ∧
    ∀ own ∈ flvSequenceHeader? packet,
      r.encoder.announcedVideoGeneration = 0 ∨ r.lastHeader = some own
  | .setStartupVideoGeneration _ => True

variable {bytesOf : UInt32 → List UInt8}

theorem lastHeader_sent (r : EncoderRun) :
    Rtmp.lastHeader r.startupHeader (r.sent ++ actions) = Rtmp.lastHeader r.lastHeader actions :=
  lastHeader_append

variable {r t : EncoderRun}

theorem enhancedHevc_step (hs : r.step event = some t) :
    t.encoder.enhancedHevc = r.encoder.enhancedHevc := by
  cases event with
  | encode packet vc =>
    obtain ⟨enc, actions, h, rfl⟩ := step_encode hs
    cases h <;> rfl
  | setStartupVideoGeneration gen =>
    cases hs
    rfl

/-- Whenever a Raw video keyframe is encoded with a configuration whose header
can be built, that header is the last one on the wire. -/
theorem raw_keyframe_follows_its_header (bytesOf : UInt32 → List UInt8) (enhancedHevc : Bool)
    (startupHeader : Option (List UInt8)) {r t : EncoderRun}
    (hrun : Reachable step (fun r e => Consistent bytesOf r e ∧ KeepsHeader r e)
      (start enhancedHevc startupHeader) r)
    {packet : MediaPacket} {config : TrackConfig} {header : List UInt8}
    (hguard : Consistent bytesOf r (.encode packet (some config)) ∧
      KeepsHeader r (.encode packet (some config)))
    (hstep : r.step (.encode packet (some config)) = some t) (hvideo : packet.mediaType = .video)
    (hraw : packet.format = .raw) (hkey : packet.isKeyframe = true)
    (hheader : videoSequenceHeader enhancedHevc config.bytes = some header) :
    t.lastHeader = some header := by
  have hinv := hrun.invariant (fun r => r.encoder.enhancedHevc = enhancedHevc ∧
      Announces r.encoder.enhancedHevc bytesOf r.encoder.announcedVideoGeneration r.lastHeader)
    (fun _ event _ hinv hguard hstep => ⟨(enhancedHevc_step hstep).trans hinv.1, by
      cases event with
      | encode packet vc =>
        obtain ⟨enc, actions, h, rfl⟩ := step_encode hstep
        have hn := h.announces hguard.1 hguard.2.2 hinv.2
        rwa [← lastHeader_sent] at hn
      | setStartupVideoGeneration gen =>
        cases hstep
        exact hguard.1⟩) ⟨rfl, .inl rfl⟩
  obtain ⟨encoder, actions, h, rfl⟩ := step_encode hstep
  rw [← hinv.1] at hheader
  have hlast := h.keyframe_header hvideo hraw hkey (hguard.1 config rfl) (hguard.2.1 config rfl)
    hheader hinv.2
  rwa [← lastHeader_sent] at hlast

end EncoderRun

section Runs

def exampleSets : List UInt8 := [0, 0, 0, 1, 0x67, 0x42, 0, 0x1E, 0, 0, 0, 1, 0x68, 0xCE]

def exampleKeyframe : MediaPacket :=
  { MediaPacket.raw .video true 40 with payload := [0, 0, 0, 1, 0x65, 0x88] }

def exampleFlvHeader : MediaPacket :=
  { MediaPacket.raw .video false 50 with
    format := .flv, payload := [0x17, 0, 0, 0, 0, 1, 0x64, 0, 0x28, 0xFF, 0xE0, 0] }

def exampleHeader : List UInt8 :=
  [0x17, 0, 0, 0, 0, 1, 0x42, 0, 0x1E, 0xFF, 0xE1, 0, 4, 0x67, 0x42, 0, 0x1E, 1, 0, 2, 0x68, 0xCE]

theorem exampleHeader_eq : videoSequenceHeader false exampleSets = some exampleHeader := by
  decide +kernel

/-- The second keyframe is sent behind the header of the first. -/
theorem raw_keyframe_follows_its_header_first :
    ∃ r t, Reachable EncoderRun.step (fun r e => EncoderRun.Consistent (fun _ => exampleSets) r e ∧
      EncoderRun.KeepsHeader r e) (.start false none) r ∧
        r.lastHeader = some exampleHeader ∧
        r.step (.encode exampleKeyframe (some ⟨1, exampleSets⟩)) = some t ∧
        t.lastHeader = some exampleHeader := by
  have hguard (r : EncoderRun) :
      r.Consistent (fun _ => exampleSets) (.encode exampleKeyframe (some ⟨1, exampleSets⟩)) ∧
        r.KeepsHeader (.encode exampleKeyframe (some ⟨1, exampleSets⟩)) := by
    refine ⟨?_, ?_, ?_⟩
    · rintro _ ⟨⟩
      rfl
    · decide
    · rintro _ ⟨⟩
  have hrun : Reachable EncoderRun.step
      (fun r e => EncoderRun.Consistent (fun _ => exampleSets) r e ∧ EncoderRun.KeepsHeader r e)
      (.start false none) _ := .single ⟨_, hguard _, rfl⟩
  refine ⟨_, _, hrun, by decide +kernel, rfl, ?_⟩
  exact EncoderRun.raw_keyframe_follows_its_header (fun _ => exampleSets) false none hrun
    (hguard _) rfl rfl rfl rfl exampleHeader_eq

/-- A keyframe, an FLV packet with a header of its own, and a keyframe of the
announced generation: nothing is sent ahead of the last one. -/
theorem flv_header_replaces_announced : ∃ r t,
    Reachable EncoderRun.step (EncoderRun.Consistent fun _ => exampleSets) (.start false none) r ∧
      r.step (.encode exampleKeyframe (some ⟨1, exampleSets⟩)) = some t ∧
      videoSequenceHeader false exampleSets = some exampleHeader ∧
      t.lastHeader = some exampleFlvHeader.payload ∧ exampleFlvHeader.payload ≠ exampleHeader := by
  have hconfig : ∀ config ∈ some (TrackConfig.mk 1 exampleSets), config.bytes = exampleSets := by
    rintro _ ⟨⟩
    rfl
  exact ⟨_, _, .tail (.tail .refl ⟨.encode exampleKeyframe (some ⟨1, exampleSets⟩), hconfig, rfl⟩)
    ⟨.encode exampleFlvHeader none, by rintro _ ⟨⟩, rfl⟩, rfl, exampleHeader_eq, by decide +kernel,
    by decide⟩

end Runs

end Restream.Rtmp
