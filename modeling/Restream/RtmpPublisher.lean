import Restream.FlvConfig
import Restream.IngestForward
import Restream.RingRecording

/-! Runs of one RTMP publisher: its messages, the states of its gate and what
else happens to the pipeline ring. A lookup of the configuration of every keyframe
right after the push that published it returns that of the ring at the push. -/

namespace Restream

open Stamped

def minRingCapacity : Nat := 64

abbrev Lookup := Except RingBuffer.NotRetained (Option TrackConfig)

def RingBuffer.pushObserved (r : RingBuffer) (packets : List MediaPacket) :
    RingBuffer × List Lookup :=
  let after := r.pushBatch packets
  (after, packets.zipIdx.filterMap fun p =>
    if p.1.isVideoKeyframe then some (after.trackConfigAt (r.writeIdx + p.2) .video 0) else none)

def RingBuffer.drainObserved : Nat → RingBuffer → List MediaPacket → RingBuffer × List Lookup
  | 0, r, _ => (r, [])
  | fuel + 1, r, packets =>
    if packets.isEmpty then (r, [])
    else
      let (r, first) := r.pushObserved (packets.take mediaProducerBatchPackets)
      let (r, rest) := drainObserved fuel r (packets.drop mediaProducerBatchPackets)
      (r, first ++ rest)

namespace Rtmp

def videoPacket (data : List UInt8) (timestamp : UInt32) : MediaPacket :=
  { mediaType := .video
    format := .flv
    isKeyframe := classifyFlvVideoPacket data = some .keyframe
    trackIndex := 0
    pts := saturate (timestamp.toNat + flvVideoCompositionTimeMs data)
    dts := timestamp.toNat
    payload := data }

def audioPacket (data : List UInt8) (timestamp : UInt32) : MediaPacket :=
  { mediaType := .audio
    format := .flv
    isKeyframe := false
    trackIndex := 0
    pts := timestamp.toNat
    dts := timestamp.toNat
    payload := data }

def recordSets (ring : RingBuffer) : Option (List UInt8) → RingBuffer
  | some parameterSets => ring.setVideoParameterSets parameterSets
  | none => ring

def publishObserved (ring : RingBuffer) (state : InputForwardState)
    (parameterSets : Option (List UInt8)) : Option Published → RingBuffer × List Lookup
  | none => (ring, [])
  | some p =>
    if state = .active then (recordSets ring parameterSets).pushObserved p.packets
    else (p.headers.foldl RingBuffer.push ring).drainObserved p.packets.length p.packets

/-- A publisher with its ring. `sets` are the parameter sets of the last header
it received and `cachedSets` those before the keyframe in its standby cache;
`keyframes` pairs the sets received before each pushed keyframe with the
lookup. -/
structure RtmpPublisherRun where
  media : IngestInput
  lastForwardedDts : Int
  ring : RingBuffer
  sets : Option (List UInt8)
  cachedSets : Option (List UInt8)
  keyframes : List (Option (List UInt8) × Lookup)

/-- A message comes with the gate state that its call loads. The gate changes
state, other inputs publish to the ring and the video track can be removed. -/
inductive RtmpPublisherEvent where
  | video (data : List UInt8) (timestamp : UInt32) (state : InputForwardState)
  | audio (data : List UInt8) (timestamp : UInt32) (state : InputForwardState)
  | gate (state : InputForwardState)
  | other (parameterSets : Option (List UInt8)) (packets : List MediaPacket) (lastForwardedDts : Int)
  | removeVideoTrack

namespace RtmpPublisherRun

def start (capacity : Nat) (h : 0 < capacity) (gate : InputPacketGate) : RtmpPublisherRun :=
  { media := .new gate 0
    lastForwardedDts := i64Min
    ring := .new capacity h
    sets := none
    cachedSets := none
    keyframes := [] }

/-- The run after a message. A keyframe that is not forwarded replaces the
cached group of pictures, whose only keyframe it then is. -/
def receive (r : RtmpPublisherRun) (state : InputForwardState) (packet : MediaPacket)
    (parameterSets : Option (List UInt8)) (outcome : ForwardOutcome) : RtmpPublisherRun :=
  let cachedSets := if state ≠ .active ∧ packet.isKeyframe = true then r.sets else r.cachedSets
  let published := publishObserved r.ring state parameterSets outcome.published
  { media := outcome.input
    lastForwardedDts := outcome.lastForwardedDts
    ring := published.1
    sets := parameterSets.or r.sets
    cachedSets := cachedSets
    keyframes := r.keyframes ++
      published.2.map fun lookup => (if state = .active then r.sets else cachedSets, lookup) }

def step (r : RtmpPublisherRun) : RtmpPublisherEvent → Option RtmpPublisherRun
  | .video data timestamp state =>
    let parameterSets := flvConfigAnnexbParameterSets data
    let packet := videoPacket data timestamp
    let sequenceHeader := classifyFlvVideoPacket data = some .sequenceHeader ∧
      parameterSets.isSome = true
    some (r.receive state packet parameterSets
      (r.media.onVideo state r.lastForwardedDts packet (decide sequenceHeader)))
  | .audio data timestamp state =>
    let packet := audioPacket data timestamp
    some (r.receive state packet none (r.media.onAudio state r.lastForwardedDts packet))
  | .gate state => some { r with media := { r.media with gate := r.media.gate.setState state } }
  | .other parameterSets packets lastForwardedDts =>
    some { r with
      ring := (recordSets r.ring parameterSets).pushBatch packets
      lastForwardedDts := lastForwardedDts }
  | .removeVideoTrack => some { r with ring := r.ring.removeVideoTrack }

end RtmpPublisherRun

end Rtmp

open List Option RingBuffer

namespace TrackConfigs

def Resolves (c : TrackConfigs) : Prop :=
  ∀ config, c.current .video 0 = some config →
    c.generation .video 0 ≠ 0 ∧ c.get .video 0 (c.generation .video 0) = some config

variable {c : TrackConfigs}

theorem Resolves.set (h : c.Resolves) (bs : List UInt8) (hn : c.generation .video 0 + 1 ≠ 0) :
    (c.set .video 0 bs).1.Resolves ∧
      ((c.set .video 0 bs).1.current .video 0).map TrackConfig.bytes = some bs := by
  rcases c.set_video bs with ⟨hset, hcu⟩ | hs
  · rw [hset]
    exact ⟨h, hcu⟩
  · rw [generation_video] at hn
    rw [current_video, hs]
    refine ⟨?_, rfl⟩
    intro cfg hc
    rw [current_video, hs] at hc
    rw [generation_video, hs, TrackConfigs.get, if_neg hn, slot_video, ← hc]
    refine ⟨hn, ?_⟩
    simp [hs]

theorem Resolves.clear (h : c.Resolves) : (c.clear .video 0).Resolves := by
  unfold TrackConfigs.clear
  rw [slot_video]
  simp only
  split
  · intro cfg hc
    simp [current_video] at hc
  · exact h

end TrackConfigs

structure RingReady (ring : RingBuffer) : Prop where
  stamped : ∃ log, Stamped ring log ∧ ring.writeIdx = log.length
  capacity : mediaProducerBatchPackets < ring.capacity
  resolves : ring.trackConfigs.Resolves

def LookupGives (sets : Option (List UInt8)) (lookup : Lookup) : Prop :=
  ∀ bytes, sets = some bytes → ∃ config, lookup = .ok (some config) ∧ config.bytes = bytes

theorem LookupGives.mono {lookup : Lookup} (h : LookupGives sets lookup)
    (hsub : ∀ bs, sets' = some bs → sets = some bs) : LookupGives sets' lookup :=
  fun bs hb => h bs (hsub bs hb)

namespace RingReady

variable {ps : List MediaPacket}

section
variable (h : RingReady ring)
include h

theorem pushBatch (ps : List MediaPacket) : RingReady (ring.pushBatch ps) ∧
    (ring.pushBatch ps).trackConfigs = ring.trackConfigs := by
  obtain ⟨log, hs, hidx⟩ := h.stamped
  obtain ⟨hn, hcap, hc, hidx'⟩ := hs.pushBatch hidx ps
  exact ⟨⟨⟨_, hn, hidx'⟩, hcap ▸ h.capacity, hc ▸ h.resolves⟩, hc⟩

theorem push (ps : List MediaPacket) : RingReady (ps.foldl push ring) ∧
      (ps.foldl push ring).trackConfigs = ring.trackConfigs := by
  induction ps generalizing ring with
  | nil => exact ⟨h, rfl⟩
  | cons p ps ih =>
    obtain ⟨hn, hc⟩ := h.pushBatch [p]
    rw [← push_eq_pushBatch] at hn hc
    obtain ⟨hl, hc'⟩ := ih hn
    exact ⟨hl, hc'.trans hc⟩

theorem trackConfigAt_pushBatch (hlen : ps.length ≤ mediaProducerBatchPackets)
    (hp : ps[i]? = some p) (mt : MediaType) (ti : Nat) :
    (ring.pushBatch ps).trackConfigAt (ring.writeIdx + i) mt ti =
      if ring.trackConfigs.generation p.mediaType p.trackIndex = 0 then .ok none
      else
        match ring.trackConfigs.get mt ti
          (ring.trackConfigs.generation p.mediaType p.trackIndex) with
        | some cfg => .ok (some cfg)
        | none => .error .notRetained := by
  obtain ⟨log, hs, hidx⟩ := h.stamped
  obtain ⟨hn, hcap, hc, hidx'⟩ := hs.pushBatch hidx ps
  have hlog : (log ++ stamps ring ps)[ring.writeIdx + i]? =
      some (p, ring.trackConfigs.generation p.mediaType p.trackIndex) := by
    rw [hidx, getElem?_append_right (by omega), Nat.add_sub_cancel_left, stamps,
      getElem?_map, hp, map_some]
  have hca := h.capacity
  have hret : (log ++ stamps ring ps).length - (ring.writeIdx + i) <
      (ring.pushBatch ps).capacity := by
    rw [length_append, stamps, length_map]
    omega
  have hfound := hn.trackConfigAt hidx' hlog hret mt ti
  rw [hc] at hfound
  exact hfound

theorem pushObserved (ps : List MediaPacket) (hlen : ps.length ≤ mediaProducerBatchPackets)
    (ht : ∀ p ∈ ps, p.trackIndex = 0) : ∀ lookup ∈ (ring.pushObserved ps).2,
      LookupGives ring.videoParameterSets lookup := by
  intro lookup hl bs hb
  obtain ⟨⟨pkt, i⟩, hmem, hs⟩ := mem_filterMap.mp hl
  obtain ⟨hkey, hs⟩ := ite_none_right_eq_some.mp hs
  cases hs
  have hp : ps[i]? = some pkt := mem_zipIdx_iff_getElem?.mp hmem
  have hv : pkt.mediaType = .video := by
    simp only [MediaPacket.isVideoKeyframe, Bool.and_eq_true, beq_iff_eq] at hkey
    exact hkey.1
  obtain ⟨cfg, hc, rfl⟩ := map_eq_some_iff.mp hb
  obtain ⟨hne, hget⟩ := h.resolves cfg hc
  refine ⟨cfg, ?_, rfl⟩
  rw [h.trackConfigAt_pushBatch hlen hp, hv, ht pkt (mem_of_getElem? hp), if_neg hne, hget]

end

theorem drainObserved (fuel : Nat) (h : RingReady ring) (ht : ∀ p ∈ ps, p.trackIndex = 0) :
    RingReady (ring.drainObserved fuel ps).1 ∧
      (ring.drainObserved fuel ps).1.trackConfigs = ring.trackConfigs ∧
      ∀ lookup ∈ (ring.drainObserved fuel ps).2, LookupGives ring.videoParameterSets lookup := by
  induction fuel generalizing ring ps with
  | zero => exact ⟨h, rfl, by rintro lookup ⟨⟩⟩
  | succ fuel ih =>
    rw [drainObserved]
    split
    · exact ⟨h, rfl, by rintro lookup ⟨⟩⟩
    · obtain ⟨hn, hc⟩ := h.pushBatch (ps.take mediaProducerBatchPackets)
      obtain ⟨hlas, hc', hr⟩ := ih hn fun p hp => ht p (mem_of_mem_drop hp)
      refine ⟨hlas, hc'.trans hc, ?_⟩
      intro lookup hl
      rcases mem_append.mp hl with hf | hla
      · exact h.pushObserved _ (length_take_le _ _) (fun p hp => ht p (mem_of_mem_take hp))
          lookup hf
      · have hg := hr lookup hla
        rwa [videoParameterSets, hc] at hg

theorem recordSets (h : RingReady ring) (sets : Option (List UInt8))
    (hn : sets.isSome = true → ring.trackConfigs.generation .video 0 + 1 ≠ 0) :
    RingReady (Rtmp.recordSets ring sets) ∧
      ∀ bs, sets = some bs → bs ≠ [] → (Rtmp.recordSets ring sets).videoParameterSets = some bs := by
  cases sets with
  | none => exact ⟨h, by rintro bs ⟨⟩⟩
  | some bs =>
    obtain ⟨hr, hb⟩ := h.resolves.set bs (hn rfl)
    simp only [Rtmp.recordSets, setVideoParameterSets, setTrackConfig]
    split
    · next he =>
      refine ⟨h, ?_⟩
      rintro _ ⟨⟩ hne
      exact absurd (isEmpty_iff.mp he) hne
    · refine ⟨⟨h.stamped, h.capacity, hr⟩, ?_⟩
      rintro _ ⟨⟩ -
      exact hb

theorem removeVideoTrack (h : RingReady ring) : RingReady ring.removeVideoTrack :=
  ⟨h.stamped, h.capacity, h.resolves.clear⟩

end RingReady

end Restream
