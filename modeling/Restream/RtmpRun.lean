import Restream.RtmpEncoder

/-! Runs of one RTMP output encoder, with the messages it sent. The first picture is a
keyframe, unless a packet without a picture has made the encoder ready before it. -/

namespace Restream.Rtmp

open Codec List Option FlvVideoPacketKind

section Classification

theorem exVideoTag_classic (h : first &&& 0x80 = 0) : exVideoTag (first :: rest) = none := by
  unfold exVideoTag
  split
  · next heq =>
    obtain ⟨rfl, -⟩ := List.cons.inj heq
    rw [if_pos h]
  · rfl

theorem classify_videoSequenceHeader (h : videoSequenceHeader hevc sets = some hdr) :
    classifyFlvVideoPacket hdr = some .sequenceHeader := by
  cases hevc with
  | false =>
    obtain ⟨record, -, rfl⟩ := map_eq_some_iff.mp h
    rfl
  | true =>
    obtain ⟨record, -, rfl⟩ := map_eq_some_iff.mp h
    rfl

theorem classify_avcFrame (key : Bool) (rest : List UInt8) :
    classifyFlvVideoPacket ([if key then 0x17 else 0x27, 1] ++ rest) ≠ some .sequenceHeader := by
  unfold classifyFlvVideoPacket
  cases key <;> rw [cons_append, exVideoTag_classic (by decide)]
  · change some interframe ≠ _
    decide
  · change some keyframe ≠ _
    decide

theorem classify_exFrame (hex : first &&& 0x80 ≠ 0) (ht : first &&& 0x0F = 1 ∨ first &&& 0x0F = 3) :
    classifyFlvVideoPacket ([first] ++ hvc1 ++ rest) ≠ some .sequenceHeader := by
  rcases ht with ht | ht
  · rcases rest with - | ⟨high, - | ⟨mid, - | ⟨low, body⟩⟩⟩ <;>
      simp [classifyFlvVideoPacket, exVideoTag, hvc1, hex, ht, exCodedFrames, exSequenceStart]
    split <;> simp
  · simp [classifyFlvVideoPacket, exVideoTag, hvc1, hex,
      ht, exCodedFrames, exSequenceStart, exCodedFramesX]
    split <;> simp

theorem classify_convertRaw (hv : packet.mediaType = .video) (h : convertRaw packet hevc = some pay) :
    classifyFlvVideoPacket pay ≠ some .sequenceHeader := by
  simp only [convertRaw, hv] at h
  cases hevc with
  | false =>
    simp only [Bool.false_eq_true, if_false, videoForRtmpWithComposition,
      ite_none_right_eq_some, Option.some.injEq] at h
    rw [← h.2]
    exact classify_avcFrame _ _
  | true =>
    simp only [if_true, hevcVideoForEnhancedRtmpWithComposition, ite_none_right_eq_some,
      Option.some.injEq] at h
    rw [← h.2]
    refine classify_exFrame ?_ ?_ <;> split <;> split <;> decide

end Classification

def RtmpMediaAction.mediaType : RtmpMediaAction → MediaType
  | .video _ _ _ => .video
  | .audio _ _ => .audio

def RtmpMediaAction.timestamp : RtmpMediaAction → UInt32
  | .video _ timestamp _ => timestamp
  | .audio _ timestamp => timestamp

def RtmpMediaAction.sequenceHeader? : RtmpMediaAction → Option (List UInt8)
  | .video payload _ _ =>
    if classifyFlvVideoPacket payload = some .sequenceHeader then some payload else none
  | .audio _ _ => none

structure EncoderRun where
  encoder : RtmpMediaEncoder
  startupHeader : Option (List UInt8)
  encoded : List MediaPacket
  sent : List RtmpMediaAction
  deriving DecidableEq, Repr

inductive EncoderEvent where
  | encode (packet : MediaPacket) (videoConfig : Option TrackConfig)
  | setStartupVideoGeneration (generation : UInt32)
  deriving DecidableEq, Repr

def EncoderRun.start (enhancedHevc : Bool) (startupHeader : Option (List UInt8)) : EncoderRun :=
  { encoder := .new enhancedHevc, startupHeader := startupHeader, encoded := [], sent := [] }

def EncoderRun.step (r : EncoderRun) : EncoderEvent → Option EncoderRun
  | .encode packet videoConfig =>
    let (encoder, actions) := r.encoder.encode packet videoConfig
    some { r with encoder := encoder, encoded := r.encoded ++ [packet], sent := r.sent ++ actions }
  | .setStartupVideoGeneration generation =>
    some { r with encoder := r.encoder.setStartupVideoGeneration generation }

namespace RtmpMediaEncoder

variable (e : RtmpMediaEncoder) (packet : MediaPacket) (videoConfig : Option TrackConfig)

def output : Option (List UInt8) :=
  match packet.format with
  | .raw => convertRaw packet e.enhancedHevc
  | .flv => some packet.payload

def message (timestamp : UInt32) (payload : List UInt8) : RtmpMediaAction :=
  match packet.mediaType with
  | .video => frame packet timestamp payload
  | .audio => .audio payload timestamp

def stamp : UInt32 := (e.timestampGuard.packetTimestamp packet).2

def stamped (ready : Bool) : RtmpMediaEncoder :=
  { e with videoReady := ready, timestampGuard := (e.timestampGuard.packetTimestamp packet).1 }

def Refreshes : Prop :=
  packet.mediaType = .video ∧ packet.format = .raw ∧ packet.isKeyframe = true ∧
    (e.unannounced videoConfig).isSome

/-- What a call can do: hold the packet back, send it, or send a refreshed
sequence header and then the packet's frame, if it has one. -/
inductive Encoded : RtmpMediaEncoder × List RtmpMediaAction → Prop
  | held (ready : Bool) (hknown : ¬e.Refreshes packet videoConfig) :
      Encoded (e.stamped packet ready, [])
  | sent (ready : Bool) {payload : List UInt8} (hknown : ¬e.Refreshes packet videoConfig)
      (houtput : e.output packet = some payload) :
      Encoded (e.stamped packet ready, [message packet (e.stamp packet) payload])
  | refreshed {generation : UInt32} {header : List UInt8} (hvideo : packet.mediaType = .video)
      (hraw : packet.format = .raw)
      (hunannounced : e.unannounced videoConfig = some (generation, header)) :
      Encoded
        ({ e with
            videoReady := true
            announcedVideoGeneration := generation
            timestampGuard :=
              (afterHeader (e.timestampGuard.packetTimestamp packet).1 (e.stamp packet)).1 },
          .video header (refreshedVideoSequenceHeaderTimestamp (e.stamp packet)) false ::
            (e.output packet).toList.map (message packet
              (afterHeader (e.timestampGuard.packetTimestamp packet).1 (e.stamp packet)).2))

variable {e packet videoConfig}

theorem Encoded.of_output (ready : Bool) (hk : ¬e.Refreshes packet videoConfig) :
    e.Encoded packet videoConfig (e.stamped packet ready,
      (e.output packet).toList.map (message packet (e.stamp packet))) := by
  cases hout : e.output packet with
  | none => exact .held ready hk
  | some pay => exact .sent ready hk hout

theorem encoded_rawVideo (hv : packet.mediaType = .video) (hraw : packet.format = .raw) :
    e.Encoded packet videoConfig
      ((e.stamped packet e.videoReady).encodeRawVideo packet videoConfig (e.stamp packet)) := by
  have hm : message packet = frame packet := by
    funext timestamp payload
    simp [message, hv]
  have ho : e.output packet = convertRaw packet e.enhancedHevc := by simp [output, hraw]
  unfold encodeRawVideo
  by_cases hkey : packet.isKeyframe = true
  · rw [if_pos hkey, encodeRawKeyframe, show (e.stamped packet e.videoReady).unannounced
      videoConfig = e.unannounced videoConfig from rfl]
    cases hu : e.unannounced videoConfig with
    | none =>
      have hk : ¬e.Refreshes packet videoConfig := by simp [Refreshes, hu]
      have h := Encoded.of_output true hk
      rwa [hm, ho] at h
    | some announced =>
      have h := Encoded.refreshed hv hraw hu
      rwa [hm, ho] at h
  · have hk : ¬e.Refreshes packet videoConfig := fun h => hkey h.2.2.1
    rw [if_neg hkey]
    split
    · have h := Encoded.of_output e.videoReady hk
      rwa [hm, ho] at h
    · exact .held e.videoReady hk

theorem encoded_flvVideo (hv : packet.mediaType = .video) (hflv : packet.format = .flv) :
    e.Encoded packet videoConfig
      ((e.stamped packet e.videoReady).encodeFlvVideo packet (e.stamp packet)) := by
  have hk : ¬e.Refreshes packet videoConfig := by simp [Refreshes, hflv]
  have ho : e.output packet = some packet.payload := by simp [output, hflv]
  simp only [encodeFlvVideo]
  split
  · exact .held e.videoReady hk
  · have h : e.Encoded packet videoConfig _ := .sent true hk ho
    simp only [message, hv] at h
    exact h

theorem encoded_audio (ha : packet.mediaType = .audio) :
    e.Encoded packet videoConfig (e.encodeAudio packet) := by
  have hk : ¬e.Refreshes packet videoConfig := by simp [Refreshes, ha]
  have hm : message packet = fun ts pay => .audio pay ts := by
    funext ts pay
    simp [message, ha]
  unfold encodeAudio
  cases hf : packet.format with
  | raw =>
    have ho : e.output packet = some (audioForRtmp packet.payload) := by
      simp [output, hf, convertRaw, ha]
    have h : e.Encoded packet videoConfig _ := .sent e.videoReady hk ho
    rw [hm] at h
    simp only [convertRaw, ha]
    exact h
  | flv =>
    have ho : e.output packet = some packet.payload := by simp [output, hf]
    have h : e.Encoded packet videoConfig _ := .sent e.videoReady hk ho
    rwa [hm] at h

theorem encode_encoded (e : RtmpMediaEncoder) (packet : MediaPacket)
    (videoConfig : Option TrackConfig) :
    e.Encoded packet videoConfig (e.encode packet videoConfig) := by
  unfold encode
  cases hm : packet.mediaType with
  | audio => exact encoded_audio hm
  | video =>
    simp only [encodeVideo]
    cases hf : packet.format with
    | raw => exact encoded_rawVideo hm hf
    | flv => exact encoded_flvVideo hm hf

end RtmpMediaEncoder

theorem EncoderRun.step_encode {r t : EncoderRun} (h : r.step (.encode packet videoConfig) = some t) :
    ∃ enc acts, r.encoder.Encoded packet videoConfig (enc, acts) ∧
      t = { r with encoder := enc, encoded := r.encoded ++ [packet], sent := r.sent ++ acts } :=
  ⟨_, _, RtmpMediaEncoder.encode_encoded r.encoder packet videoConfig, (Option.some.inj h).symm⟩

open RtmpMediaAction

def RtmpMediaEncoder.encodeAll : RtmpMediaEncoder → List (MediaPacket × Option TrackConfig) →
    List (MediaPacket × RtmpMediaAction)
  | _, [] => []
  | e, (packet, videoConfig) :: calls =>
    (e.encode packet videoConfig).2.map (packet, ·) ++ (e.encode packet videoConfig).1.encodeAll calls

def RtmpMediaAction.isPicture (a : RtmpMediaAction) : Bool :=
  a.mediaType = .video ∧ a.sequenceHeader? = none

def IsKeyframe (packet : MediaPacket) : Prop :=
  packet.isKeyframe = true ∨ packet.format = .flv ∧
    classifyFlvVideoPacket packet.payload = some .keyframe

/-- A packet that makes the encoder ready and has no picture to send: an FLV
sequence header, or a Raw keyframe that converts to nothing. -/
def StartsBlank (enhancedHevc : Bool) (packet : MediaPacket) : Prop :=
  packet.mediaType = .video ∧
    (packet.format = .flv ∧ classifyFlvVideoPacket packet.payload = some .sequenceHeader ∨
      packet.format = .raw ∧ packet.isKeyframe = true ∧ convertRaw packet enhancedHevc = none)

instance (packet : MediaPacket) : Decidable (IsKeyframe packet) := inferInstanceAs (Decidable (_ ∨ _))

def HasPicture (enhancedHevc : Bool) (packet : MediaPacket) : Prop :=
  packet.mediaType = .video ∧
    (packet.format = .flv ∧ classifyFlvVideoPacket packet.payload ≠ some .sequenceHeader ∨
      packet.format = .raw ∧ (convertRaw packet enhancedHevc).isSome = true)

instance (enhancedHevc : Bool) (packet : MediaPacket) : Decidable (HasPicture enhancedHevc packet) :=
  inferInstanceAs (Decidable (_ ∧ _))

def Starts (enhancedHevc : Bool) (packet : MediaPacket) : Prop :=
  HasPicture enhancedHevc packet ∧ IsKeyframe packet

instance (enhancedHevc : Bool) (packet : MediaPacket) : Decidable (Starts enhancedHevc packet) :=
  inferInstanceAs (Decidable (_ ∧ _))

namespace RtmpMediaEncoder

variable {e : RtmpMediaEncoder} {p : MediaPacket}

/-- What a call shows: a picture only of a keyframe or once the encoder is ready, that of
every keyframe with one, and what makes the encoder ready. -/
structure Shows (e : RtmpMediaEncoder) (p : MediaPacket)
    (out : RtmpMediaEncoder × List RtmpMediaAction) : Prop where
  enhancedHevc : out.1.enhancedHevc = e.enhancedHevc
  picture : ∀ a ∈ out.2, a.isPicture = true →
    IsKeyframe p ∨ e.videoReady = true ∧ HasPicture e.enhancedHevc p
  starts : Starts e.enhancedHevc p → ∃ a ∈ out.2, a.isPicture = true
  ready : out.1.videoReady = true →
    e.videoReady = true ∨ StartsBlank e.enhancedHevc p ∨ Starts e.enhancedHevc p

theorem isPicture_frame (h : classifyFlvVideoPacket pay ≠ some .sequenceHeader) :
    (frame p ts pay).isPicture = true := by
  simp [isPicture, frame, mediaType, sequenceHeader?, h]

theorem encode_video (hv : p.mediaType = .video) : e.encode p c = match p.format with
    | .raw => (e.stamped p e.videoReady).encodeRawVideo p c (e.stamp p)
    | .flv => (e.stamped p e.videoReady).encodeFlvVideo p (e.stamp p) := by
  simp only [encode, hv, encodeVideo]
  rfl

theorem shows_rawVideo (hm : p.mediaType = .video) (hf : p.format = .raw) :
    e.Shows p ((e.stamped p e.videoReady).encodeRawVideo p c (e.stamp p)) := by
  unfold encodeRawVideo
  by_cases hk : p.isKeyframe = true
  · simp only [if_pos hk, encodeRawKeyframe, stamped]
    cases hc : convertRaw p e.enhancedHevc with
    | none =>
      have hno : ¬Starts e.enhancedHevc p := by simp [Starts, HasPicture, hf, hc]
      split <;> exact ⟨rfl, fun _ _ _ => .inl (.inl hk), fun h => absurd h hno,
        fun _ => .inr (.inl ⟨hm, .inr ⟨hf, hk, hc⟩⟩)⟩
    | some pay =>
      have hs : Starts e.enhancedHevc p := ⟨⟨hm, .inr ⟨hf, by simp [hc]⟩⟩, .inl hk⟩
      have hpic := classify_convertRaw hm hc
      split <;> exact ⟨rfl, fun _ _ _ => .inl (.inl hk), fun _ => by simp [isPicture_frame hpic],
        fun _ => .inr (.inr hs)⟩
  · have hno : ¬Starts e.enhancedHevc p := by simp [Starts, IsKeyframe, hf, hk]
    rw [if_neg hk]
    split
    · next hr =>
      refine ⟨rfl, fun a ha _ => .inr ⟨hr, hm, .inr ⟨hf, ?_⟩⟩, fun h => absurd h hno, fun h => .inl h⟩
      obtain ⟨pay, hpay, -⟩ := mem_map.mp ha
      exact Option.isSome_of_mem (mem_toList.mp hpay)
    · exact ⟨rfl, by simp, fun h => absurd h hno, fun h => .inl h⟩

theorem shows_flvVideo (hm : p.mediaType = .video) (hf : p.format = .flv) :
    e.Shows p ((e.stamped p e.videoReady).encodeFlvVideo p (e.stamp p)) := by
  simp only [encodeFlvVideo]
  split
  · next hheld =>
    have hno : ¬IsKeyframe p := by
      rcases hheld with ⟨-, hkind, hflag⟩
      rcases hkind with hkind | hkind <;> simp [IsKeyframe, hkind, hflag]
    exact ⟨rfl, by simp, fun h => absurd h.2 hno, fun h => .inl h⟩
  · next hgo =>
    have hcases : e.videoReady = true ∨ IsKeyframe p ∨
        classifyFlvVideoPacket p.payload = some .sequenceHeader := by
      by_contra hno
      simp only [not_or, Bool.not_eq_true, IsKeyframe, hf, true_and] at hno
      obtain ⟨hr, ⟨hflag, hkey⟩, hhdr⟩ := hno
      refine hgo ⟨hr, ?_, by simpa using hflag⟩
      cases hc : classifyFlvVideoPacket p.payload with
      | none => exact .inr rfl
      | some kind => cases kind <;> simp_all
    refine ⟨rfl, fun a ha hpic => ?_, fun h => ?_, fun _ => ?_⟩
    · obtain rfl := mem_singleton.mp ha
      have hhdr : classifyFlvVideoPacket p.payload ≠ some .sequenceHeader := by
        intro h
        simp [isPicture, frame, mediaType, sequenceHeader?, h] at hpic
      rcases hcases with hr | hk | h
      · exact .inr ⟨hr, hm, .inl ⟨hf, hhdr⟩⟩
      · exact .inl hk
      · exact absurd h hhdr
    · have hhdr : classifyFlvVideoPacket p.payload ≠ some .sequenceHeader := by
        simpa [HasPicture, hm, hf] using h.1
      exact ⟨_, mem_singleton_self _, isPicture_frame hhdr⟩
    · by_cases hhdr : classifyFlvVideoPacket p.payload = some .sequenceHeader
      · exact .inr (.inl ⟨hm, .inl ⟨hf, hhdr⟩⟩)
      · rcases hcases with hr | hk | h
        · exact .inl hr
        · exact .inr (.inr ⟨⟨hm, .inl ⟨hf, hhdr⟩⟩, hk⟩)
        · exact absurd h hhdr

theorem encode_shows (e : RtmpMediaEncoder) (p : MediaPacket) (c : Option TrackConfig) :
    e.Shows p (e.encode p c) := by
  cases hm : p.mediaType with
  | audio =>
    refine ⟨?_, ?_, fun h => by simp [Starts, HasPicture, hm] at h, fun h => .inl ?_⟩
    · simp only [encode, hm, encodeAudio]
      split <;> rfl
    · simp only [encode, hm, encodeAudio]
      split <;> simp [isPicture, mediaType]
    · simp only [encode, hm, encodeAudio] at h
      split at h <;> exact h
  | video =>
    rw [encode_video hm]
    cases hf : p.format with
    | raw => exact shows_rawVideo hm hf
    | flv => exact shows_flvVideo hm hf

/-- Once a packet without a picture has made the encoder ready, no picture comes before
that of a keyframe. -/
def ShowsFirst (enhancedHevc : Bool) (calls : List (MediaPacket × Option TrackConfig)) : Prop :=
  ∀ pre call post, calls = pre ++ call :: post → HasPicture enhancedHevc call.1 →
    (∃ blank ∈ pre, StartsBlank enhancedHevc blank.1) →
    IsKeyframe call.1 ∨ ∃ earlier ∈ pre, Starts enhancedHevc earlier.1

theorem encodeAll_first (pre : List (MediaPacket × Option TrackConfig))
    (hn : ∀ x ∈ pre, ¬Starts e.enhancedHevc x.1)
    (hr : e.videoReady = true → ∃ blank ∈ pre, StartsBlank e.enhancedHevc blank.1)
    (h : ShowsFirst e.enhancedHevc (pre ++ calls))
    (hf : (e.encodeAll calls).find? (·.2.isPicture) = some (p, a)) : IsKeyframe p := by
  induction calls generalizing e pre with
  | nil => cases hf
  | cons call calls ih =>
    obtain ⟨q, c⟩ := call
    have hs := e.encode_shows q c
    rw [encodeAll, find?_append] at hf
    cases hfound : ((e.encode q c).2.map (q, ·)).find? (·.2.isPicture) with
    | some x =>
      rw [hfound, some_or, Option.some.injEq] at hf
      obtain ⟨b, hmem, hb⟩ := mem_map.mp (mem_of_find?_eq_some hfound)
      have hpic := find?_some hfound
      subst hf
      obtain ⟨rfl, rfl⟩ := Prod.mk.inj hb
      rcases hs.picture b hmem hpic with hk | ⟨hready, hhas⟩
      · exact hk
      · rcases h pre (q, c) calls rfl hhas (hr hready) with hk | ⟨x, hx, hst⟩
        · exact hk
        · exact absurd hst (hn x hx)
    | none =>
      rw [hfound] at hf
      have hno : ¬Starts e.enhancedHevc q := by
        intro hst
        obtain ⟨b, hmem, hpic⟩ := hs.starts hst
        exact find?_eq_none.mp hfound (q, b) (mem_map_of_mem hmem) hpic
      rw [append_cons] at h
      rw [← hs.enhancedHevc] at hn hr h hno
      refine ih (pre ++ [(q, c)]) ?_ (fun hready => ?_) h hf
      · exact forall_mem_append.mpr ⟨hn, by simpa using hno⟩
      · rcases hs.ready hready with hready | hblank | hst
        · obtain ⟨x, hx, hb⟩ := hr hready
          exact ⟨x, mem_append_left _ hx, hb⟩
        · exact ⟨(q, c), by simp, hs.enhancedHevc ▸ hblank⟩
        · exact absurd (hs.enhancedHevc ▸ hst) hno

/-- The first picture that an encoder sends is that of a keyframe, where none follows a
packet that has made the encoder ready without a picture. -/
theorem starts_on_keyframe (enhancedHevc : Bool) (calls : List (MediaPacket × Option TrackConfig))
    (h : ShowsFirst enhancedHevc calls) (packet : MediaPacket) (action : RtmpMediaAction)
    (hfirst : ((new enhancedHevc).encodeAll calls).find? (·.2.isPicture) = some (packet, action)) :
    IsKeyframe packet :=
  encodeAll_first (e := new enhancedHevc) [] (by simp) (by rintro ⟨⟩) h hfirst

def flvVideo (payload : List UInt8) : MediaPacket :=
  { MediaPacket.raw .video false 0 with format := .flv, payload := payload }

def flvInterframe : MediaPacket := flvVideo [0x27, 1, 0, 0, 0]

/-- A sequence header, its keyframe and an interframe. -/
theorem starts_on_keyframe_flv : IsKeyframe (flvVideo [0x17, 1, 0, 0, 0]) := by
  refine starts_on_keyframe false [(flvVideo [0x17, 0, 0, 0, 0], none),
    (flvVideo [0x17, 1, 0, 0, 0], none), (flvInterframe, none)] ?_ _
    (.video [0x17, 1, 0, 0, 0] 1 false) (by decide)
  intro pre call post heq _ hblank
  rcases pre with - | ⟨x, - | ⟨y, pre⟩⟩
  · simp at hblank
  · obtain ⟨-, heq⟩ := cons.inj heq
    obtain ⟨rfl, -⟩ := cons.inj heq
    exact .inl (by decide)
  · obtain ⟨-, heq⟩ := cons.inj heq
    obtain ⟨rfl, -⟩ := cons.inj heq
    exact .inr ⟨_, mem_cons_of_mem _ mem_cons_self, by decide⟩

/-- Behind an FLV sequence header, or a Raw keyframe without a slice, an output
starts on an interframe. -/
theorem starts_on_interframe :
    ((new false).encodeAll [(flvVideo [0x17, 0, 0, 0, 0], none),
      (flvInterframe, none)]).find? (·.2.isPicture) =
        some (flvInterframe, .video [0x27, 1, 0, 0, 0] 1 true) ∧ ¬IsKeyframe flvInterframe ∧
      ((new false).encodeAll [(.raw .video true 0, none),
        (flvInterframe, none)]).find? (·.2.isPicture) =
        some (flvInterframe, .video [0x27, 1, 0, 0, 0] 1 true) := by
  decide

end RtmpMediaEncoder

end Restream.Rtmp
