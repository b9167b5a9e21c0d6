import Restream.RingLookup
import Restream.RtmpPublisher

/-! The follower that copies a source ring's video configuration into the ring its
packets are republished in, with a lookup of every packet right after the batch that
published it. -/

namespace Restream

open List Option RingBuffer TrackConfigs TrackConfig TrackConfigSlot MediaType

structure Handled where
  sequence : Nat
  packet : MediaPacket
  config : Lookup
  deriving DecidableEq

structure Observed where
  handled : Handled
  lookup : Lookup
  deriving DecidableEq

/-- A republisher with its source and its target; `generation` is the follower's. -/
structure FollowRun where
  source : LookupRun
  generation : UInt32
  target : RingBuffer
  pending : List Handled
  observed : List Observed

namespace FollowRun

def observe (after : RingBuffer) (sequence : Nat) (h : Handled) : Observed :=
  ⟨h, after.trackConfigAt sequence h.packet.mediaType h.packet.trackIndex⟩

def pushBatch (r : FollowRun) (batch : List Handled) : FollowRun :=
  let after := r.target.pushBatch (batch.map Handled.packet)
  { r with
    target := after
    observed := r.observed ++ batch.zipIdx.map fun h => observe after (r.target.writeIdx + h.2) h.1 }

def drain : Nat → FollowRun → List Handled → FollowRun
  | 0, r, _ => r
  | fuel + 1, r, queued =>
    if queued.isEmpty then r
    else drain fuel (r.pushBatch (queued.take mediaProducerBatchPackets))
      (queued.drop mediaProducerBatchPackets)

def pushDrainedBatchCapped (r : FollowRun) : FollowRun :=
  { drain r.pending.length r r.pending with pending := [] }

def followed (source : RingBuffer) (sequence : Nat) (generation : UInt32) : Option TrackConfig :=
  let config :=
    match source.frameUnit sequence with
    | some unit =>
      if unit.configGeneration = generation then none
      else
        match source.trackConfigAt sequence .video 0 with
        | .ok config => config
        | .error .notRetained => source.trackConfigs.current .video 0
    | none => source.trackConfigs.current .video 0
  config.filter fun config => config.generation ≠ generation

def follow (r : FollowRun) (sequence : Nat) : FollowRun :=
  match followed r.source.ring sequence r.generation with
  | none => r
  | some config =>
    let r := r.pushDrainedBatchCapped
    { r with target := r.target.setVideoParameterSets config.bytes, generation := config.generation }

def queue (r : FollowRun) (sequence : Nat) (packet output : MediaPacket) : FollowRun :=
  { r with pending := r.pending ++
      [⟨sequence, output, r.source.ring.trackConfigAt sequence packet.mediaType packet.trackIndex⟩] }

def produce (r : FollowRun) (op : ConfigOp) : FollowRun := { r with source := r.source.step op }

end FollowRun

def RingBuffer.carries (r : RingBuffer) (trackIndex : Nat) : Option (List UInt8) :=
  if trackIndex = 0 then r.videoParameterSets else none

def Handled.Carried (target : RingBuffer) (h : Handled) : Prop :=
  h.packet.mediaType = .video → ∀ config, h.config = .ok config →
    config.map bytes = target.carries h.packet.trackIndex

def Observed.Agrees (o : Observed) : Prop :=
  o.handled.packet.mediaType = .video → ∀ config, o.handled.config = .ok config →
    ∃ found, o.lookup = .ok found ∧ found.map bytes = config.map bytes

theorem TrackConfigs.set_video_other (c : TrackConfigs) (bs : List UInt8) (hi : i ≠ 0) :
    (c.set .video 0 bs).1.tracks i = c.tracks i := by
  unfold set
  rw [slot_video]
  dsimp only
  split
  · rfl
  · exact Function.update_of_ne hi _ _

theorem TrackConfigs.clear_audio_tracks (c : TrackConfigs) (t : Nat) (hi : i < configTracksPerType) :
    (c.clear .audio t).tracks i = c.tracks i := by
  unfold clear slot
  by_cases ht : t < configTracksPerType
  · rw [if_pos ht]
    dsimp only
    split
    · refine Function.update_of_ne ?_ _ _
      simp only [index]
      omega
    · rfl
  · rw [if_neg ht]

theorem RingBuffer.setAudioTracks_tracks (r : RingBuffer)
    (ts : List Nat) (hi : i < configTracksPerType) :
    (r.setAudioTracks ts).trackConfigs.tracks i = r.trackConfigs.tracks i := by
  unfold setAudioTracks
  generalize range configTracksPerType = range
  induction range generalizing r with
  | nil => rfl
  | cons t range ih =>
    rw [foldl_cons, ih]
    split
    · rfl
    · exact r.trackConfigs.clear_audio_tracks t hi

structure FollowTarget (ring : RingBuffer) : Prop where
  ready : RingReady ring
  started : ring.videoParameterSets = none → ring.trackConfigs.generation .video 0 = 0
  others : ∀ i, i ≠ 0 → i < configTracksPerType → (ring.trackConfigs.tracks i).generation = 0

namespace FollowTarget

variable {ring : RingBuffer}

section

variable (h : FollowTarget ring)

include h

theorem generation_other (ht : t ≠ 0) : ring.trackConfigs.generation .video t = 0 := by
  unfold TrackConfigs.generation TrackConfigs.slot
  by_cases hlt : t < configTracksPerType
  · rw [if_pos hlt]
    exact h.others _ (by simpa [index] using ht) (by simpa [index] using hlt)
  · rw [if_neg hlt]

theorem sets_of_generation (hz : ring.trackConfigs.generation .video 0 = 0) :
    ring.videoParameterSets = none := by
  by_contra hne
  obtain ⟨bs, hb⟩ := ne_none_iff_exists'.mp hne
  obtain ⟨config, hc, -⟩ := map_eq_some_iff.mp hb
  exact (h.ready.resolves config hc).1 hz

theorem pushBatch (batch : List MediaPacket) :
    FollowTarget (ring.pushBatch batch) ∧
    (ring.pushBatch batch).trackConfigs = ring.trackConfigs := by
  obtain ⟨hr, hc⟩ := h.ready.pushBatch batch
  refine ⟨⟨hr, ?_, ?_⟩, hc⟩
  · rw [videoParameterSets, hc]
    exact h.started
  · rw [hc]
    exact h.others

theorem lookup (hlen : batch.length ≤ mediaProducerBatchPackets) (hp : batch[i]? = some p)
    (hv : p.mediaType = .video) :
    ∃ found, (ring.pushBatch batch).trackConfigAt (ring.writeIdx + i) p.mediaType p.trackIndex =
      .ok found ∧
      found.map bytes = ring.carries p.trackIndex := by
  rw [h.ready.trackConfigAt_pushBatch hlen hp, hv, carries]
  by_cases ht : p.trackIndex = 0
  · rw [ht]
    cases hs : ring.videoParameterSets with
    | none => exact ⟨none, by rw [if_pos (h.started hs)], rfl⟩
    | some bs =>
      obtain ⟨config, hc, rfl⟩ := map_eq_some_iff.mp hs
      obtain ⟨hne, hget⟩ := h.ready.resolves config hc
      exact ⟨some config, by rw [if_neg hne, hget], rfl⟩
  · rw [h.generation_other ht, if_neg ht]
    exact ⟨none, rfl, rfl⟩

theorem setVideoParameterSets (hb : bs ≠ []) (hn : ring.trackConfigs.generation .video 0 + 1 ≠ 0) :
    FollowTarget (ring.setVideoParameterSets bs) ∧
      (ring.setVideoParameterSets bs).videoParameterSets = some bs := by
  obtain ⟨hr, hc⟩ := h.ready.resolves.set bs hn
  have hset : ring.setVideoParameterSets bs =
      { ring with trackConfigs := (ring.trackConfigs.set .video 0 bs).1 } := by
    rw [RingBuffer.setVideoParameterSets, RingBuffer.setTrackConfig,
      if_neg (mt List.isEmpty_iff.mp hb)]
  rw [hset]
  refine ⟨⟨⟨h.ready.stamped, h.ready.capacity, hr⟩, fun hno => ?_, fun i hi hlt => ?_⟩, hc⟩
  · cases hno.symm.trans hc
  · rw [← h.others i hi hlt]
    exact congrArg TrackConfigSlot.generation (ring.trackConfigs.set_video_other bs hi)

theorem setAudioTracks (ts : List Nat) : FollowTarget (ring.setAudioTracks ts) ∧
      (ring.setAudioTracks ts).videoParameterSets = ring.videoParameterSets := by
  obtain ⟨hcap, hidx, hsl⟩ := LookupRun.setAudioTracks_fields ring ts
  obtain ⟨log, hs, hlen⟩ := h.ready.stamped
  have hv := ring.setAudioTracks_tracks ts (show 0 < configTracksPerType by decide)
  have hr : (ring.setAudioTracks ts).trackConfigs.Resolves := by
    simp only [TrackConfigs.Resolves, TrackConfigs.current, TrackConfigs.generation, TrackConfigs.get,
      slot_video, hv]
    exact h.ready.resolves
  have hse : (ring.setAudioTracks ts).videoParameterSets = ring.videoParameterSets := by
    rw [videoParameterSets, current_video, hv]
    rfl
  refine ⟨⟨⟨⟨log, hs.congr hcap hsl, hidx.trans hlen⟩, hcap ▸ h.ready.capacity, hr⟩, ?_,
    fun i hi hlt => ?_⟩, hse⟩
  · rw [hse, generation_video, hv]
    exact h.started
  · rw [ring.setAudioTracks_tracks ts hlt]
    exact h.others i hi hlt

end

end FollowTarget

namespace FollowRun

variable {r : FollowRun}

structure Inv (capacity : Nat) (r : FollowRun) : Prop where
  source : LookupRun.Inv capacity r.source
  target : FollowTarget r.target
  copied : r.generation = 0 ∨ ∃ n bytes, r.generation = UInt32.ofNat (n + 1) ∧
    (r.source.histories .video 0)[n]? = some (some bytes) ∧ r.target.videoParameterSets = some bytes
  pending : ∀ h ∈ r.pending, h.Carried r.target
  observed : ∀ o ∈ r.observed, o.Agrees

variable {s : Nat} {unit : FrameUnit}

theorem trackConfigAt_eq_some {ring : RingBuffer} (hu : ring.frameUnit s = some unit)
    (h : ring.trackConfigAt s .video 0 = .ok (some config)) : unit.configGeneration ≠ 0 ∧
      ((ring.trackConfigs.tracks 0).history (historySlot unit.configGeneration)).filter
        (fun config => config.generation == unit.configGeneration) = some config := by
  simp only [trackConfigAt, hu] at h
  split at h
  · cases h
  · next hne =>
    rw [TrackConfigs.get, if_neg hne] at h
    split at h
    · next found hf =>
      obtain rfl : found = config := by simpa using h
      exact ⟨hne, hf⟩
    · cases h

theorem drain_spec (fuel : Nat) (ht : FollowTarget r.target) (hob : ∀ o ∈ r.observed, o.Agrees)
    (hq : ∀ h ∈ queued, h.Carried r.target) : FollowTarget (drain fuel r queued).target ∧
      (drain fuel r queued).target.trackConfigs = r.target.trackConfigs ∧
      (∀ o ∈ (drain fuel r queued).observed, o.Agrees) ∧
      (drain fuel r queued).source = r.source ∧ (drain fuel r queued).generation = r.generation := by
  induction fuel generalizing r queued with
  | zero => exact ⟨ht, rfl, hob, rfl, rfl⟩
  | succ fuel ih =>
    rw [drain]
    split
    · exact ⟨ht, rfl, hob, rfl, rfl⟩
    · obtain ⟨hn, hco⟩ := ht.pushBatch ((queued.take mediaProducerBatchPackets).map Handled.packet)
      have hf : ∀ o ∈ (r.pushBatch (queued.take mediaProducerBatchPackets)).observed, o.Agrees := by
        intro o ho
        rcases mem_append.mp ho with ho | ho
        · exact hob o ho
        · obtain ⟨⟨h, i⟩, hmem, rfl⟩ := mem_map.mp ho
          have hget : (queued.take mediaProducerBatchPackets)[i]? = some h :=
            mem_zipIdx_iff_getElem?.mp hmem
          have hp : ((queued.take mediaProducerBatchPackets).map Handled.packet)[i]? =
              some h.packet := by
            rw [getElem?_map, hget, map_some]
          intro hv config hc
          obtain ⟨found, hfo, hb⟩ := ht.lookup
            (by rw [length_map]; exact length_take_le _ _) hp hv
          refine ⟨found, hfo, hb.trans ?_⟩
          exact (hq h (mem_of_mem_take (mem_of_getElem? hget)) hv config hc).symm
      have hr : ∀ h ∈ queued.drop mediaProducerBatchPackets,
          h.Carried (r.pushBatch (queued.take mediaProducerBatchPackets)).target := by
        intro h hmem hv config hc
        rw [hq h (mem_of_mem_drop hmem) hv config hc]
        simp only [carries, videoParameterSets, pushBatch, hco]
      obtain ⟨hl, hc', ha, hs, hg⟩ := ih hn hf hr
      exact ⟨hl, hc'.trans hco, ha, hs, hg⟩

theorem Inv.pushDrainedBatchCapped (h : Inv cap r) : Inv cap r.pushDrainedBatchCapped ∧
    r.pushDrainedBatchCapped.target.trackConfigs = r.target.trackConfigs ∧
    r.pushDrainedBatchCapped.source = r.source ∧
    r.pushDrainedBatchCapped.generation = r.generation := by
  obtain ⟨ht, hc, ha, hs, hg⟩ := drain_spec r.pending.length h.target h.observed h.pending
  refine ⟨⟨?_, ht, ?_, by rintro _ ⟨⟩, ha⟩, hc, hs, hg⟩
  · exact hs ▸ h.source
  · rcases h.copied with hz | ⟨n, bs, hn, hh, hse⟩
    · exact .inl (hg.trans hz)
    · refine .inr ⟨n, bs, hg.trans hn, ?_, ?_⟩
      · exact hs ▸ hh
      · rw [← hse]
        exact congrArg (fun c => (c.current .video 0).map bytes) hc

theorem Inv.bytes_ne_nil (h : Inv cap r) {n : Nat} {bytes : List UInt8}
    (hh : (r.source.histories .video 0)[n]? = some (some bytes)) : bytes ≠ [] := by
  rintro rfl
  exact h.source.nonempty .video 0 (mem_of_getElem? hh)

theorem Inv.followed_spec (h : Inv cap r) (hfew : (r.source.histories .video 0).length < 2 ^ 32)
    (hco : followed r.source.ring s r.generation = some config) :
    ∃ n, config.generation = UInt32.ofNat (n + 1) ∧
      (r.source.histories .video 0)[n]? = some (some config.bytes) := by
  have hf := h.source.tracks .video 0 0 rfl
  have hcu : r.source.ring.trackConfigs.current .video 0 = some config →
      ∃ n, config.generation = UInt32.ofNat (n + 1) ∧
        (r.source.histories .video 0)[n]? = some (some config.bytes) := by
    intro hcur
    have hl : TrackHistory.current (r.source.histories .video 0) = some config.bytes := by
      rw [← hf.current, ← current_video, hcur, map_some]
    rw [TrackHistory.current, Option.join_eq_some_iff, List.getLast?_eq_getElem?] at hl
    have hpos := (List.getElem?_eq_some_iff.mp hl).1
    refine ⟨_, ?_, hl⟩
    rw [hf.newest config hcur, hf.generation]
    congr 1
    omega
  obtain ⟨hc, -⟩ := filter_eq_some_iff.mp hco
  cases hu : r.source.ring.frameUnit s with
  | none =>
    rw [hu] at hc
    exact hcu hc
  | some unit =>
    rw [hu] at hc
    dsimp only at hc
    split at hc
    · cases hc
    · cases hat : r.source.ring.trackConfigAt s .video 0 with
      | error e =>
        rw [hat] at hc
        exact hcu hc
      | ok found =>
        rw [hat] at hc
        obtain rfl : found = some config := hc
        obtain ⟨-, hget⟩ := trackConfigAt_eq_some hu hat
        obtain ⟨he, -⟩ := filter_eq_some_iff.mp hget
        exact hf.sound hfew _ config he

/-- A packet that the target will give its source's configuration, when the follower is
called with sequence `s` before it is queued: on the first video track it has the
generation at `s`, and no configuration only before the target has one; on another track
it has none. -/
def Meets (r : FollowRun) (s sequence : Nat) (packet : MediaPacket) : Prop :=
  packet.mediaType = .video → ∀ unit ∈ r.source.ring.frameUnit sequence,
    if packet.trackIndex = 0 then
      r.source.ring.frameUnit s = some unit ∧
        (unit.configGeneration = 0 → r.target.trackConfigs.generation .video 0 = 0)
    else unit.configGeneration = 0

instance (r : FollowRun) (s sequence : Nat) (packet : MediaPacket) :
    Decidable (r.Meets s sequence packet) :=
  inferInstanceAs (Decidable (_ → _))

def Counts (r : FollowRun) : Prop :=
  (r.source.histories .video 0).length < 2 ^ 32 ∧ r.target.trackConfigs.generation .video 0 + 1 ≠ 0

instance (r : FollowRun) : Decidable r.Counts := inferInstanceAs (Decidable (_ ∧ _))

theorem Inv.follow_source (h : Inv cap r) : (r.follow s).source = r.source := by
  unfold FollowRun.follow
  cases followed r.source.ring s r.generation with
  | none => rfl
  | some config => exact h.pushDrainedBatchCapped.2.2.1

theorem Inv.follow (h : Inv cap r) (hc : r.Counts) (s : Nat) : Inv cap (r.follow s) := by
  unfold FollowRun.follow
  cases hcon : followed r.source.ring s r.generation with
  | none => exact h
  | some config =>
    obtain ⟨n, hn, hh⟩ := h.followed_spec hc.1 hcon
    obtain ⟨hf, hco, hs, -⟩ := h.pushDrainedBatchCapped
    have hb := h.bytes_ne_nil hh
    obtain ⟨ht, hse⟩ := hf.target.setVideoParameterSets hb (by rw [hco]; exact hc.2)
    exact ⟨hf.source, ht, .inr ⟨n, config.bytes, hn, by rw [hs]; exact hh, hse⟩,
      by rintro _ ⟨⟩, hf.observed⟩

theorem follow_of_generation_zero (hu : r.source.ring.frameUnit s = some unit)
    (hz : unit.configGeneration = 0) : r.follow s = r := by
  have hn : followed r.source.ring s r.generation = none := by
    have hat : r.source.ring.trackConfigAt s .video 0 = .ok none := by
      simp only [trackConfigAt, hu, hz, if_true]
    simp only [followed, hu, hat]
    split <;> rfl
  rw [FollowRun.follow, hn]

theorem Inv.sets_follow (h : Inv cap r) (hc : r.Counts)
    (hat : r.source.ring.trackConfigAt s .video 0 = .ok (some config)) :
    (r.follow s).target.videoParameterSets = some config.bytes := by
  cases hu : r.source.ring.frameUnit s with
  | none =>
    simp only [trackConfigAt, hu] at hat
    cases hat
  | some unit =>
    have hfo := h.source.tracks .video 0 0 rfl
    obtain ⟨hne, hget⟩ := trackConfigAt_eq_some hu hat
    obtain ⟨he, hg⟩ := filter_eq_some_iff.mp hget
    obtain ⟨n, hn, hh⟩ := hfo.sound hc.1 _ config he
    have hgen : config.generation = unit.configGeneration := beq_iff_eq.mp hg
    by_cases hs : unit.configGeneration = r.generation
    · have hno : followed r.source.ring s r.generation = none := by
        simp only [followed, hu, hs, if_true]
        rfl
      rw [FollowRun.follow, hno]
      rcases h.copied with hz | ⟨n', bs, hn', hh', hse⟩
      · exact absurd (hs.trans hz) hne
      · have hlt := (List.getElem?_eq_some_iff.mp hh).1
        have hlt' := (List.getElem?_eq_some_iff.mp hh').1
        have hfew := hc.1
        have heq := congrArg UInt32.toNat (hn.symm.trans (hgen.trans (hs.trans hn')))
        rw [toNat_ofNat_lt (by omega), toNat_ofNat_lt (by omega)] at heq
        obtain rfl : n = n' := by omega
        rw [hse]
        simpa using hh'.symm.trans hh
    · have hso : followed r.source.ring s r.generation = some config := by
        have ho : config.generation ≠ r.generation := fun heq => hs (hgen.symm.trans heq)
        simp only [followed, hu, if_neg hs, hat]
        simp [ho]
      obtain ⟨hf, hco, -⟩ := h.pushDrainedBatchCapped
      have hb := h.bytes_ne_nil hh
      rw [FollowRun.follow, hso]
      exact (hf.target.setVideoParameterSets hb (by rw [hco]; exact hc.2)).2

theorem Inv.carried_follow (h : Inv cap r) (hco : r.Counts)
    (hme : r.Meets s seq p)
    (hs : o.mediaType = .video → o.mediaType = p.mediaType ∧ o.trackIndex = p.trackIndex) :
    Handled.Carried (r.follow s).target ⟨seq, o,
      r.source.ring.trackConfigAt seq p.mediaType p.trackIndex⟩ := by
  intro hv config hc
  obtain ⟨ht, htr⟩ := hs hv
  rw [hv] at ht
  rw [← ht] at hc
  have hun := hme ht.symm
  rw [htr, carries]
  cases hu : r.source.ring.frameUnit seq with
  | none =>
    simp only [trackConfigAt, hu] at hc
    cases hc
  | some unit =>
    have hm := hun unit hu
    by_cases hz : p.trackIndex = 0
    · rw [if_pos hz] at hm ⊢
      rw [hz] at hc
      cases config with
      | none =>
        have hgen : unit.configGeneration = 0 := by
          by_contra hne
          simp only [trackConfigAt, hu, if_neg hne] at hc
          split at hc <;> cases hc
        rw [follow_of_generation_zero hm.1 hgen, h.target.sets_of_generation (hm.2 hgen)]
        rfl
      | some config =>
        have hat : r.source.ring.trackConfigAt s .video 0 = .ok (some config) := by
          rw [← hc]
          simp only [trackConfigAt, hu, hm.1]
        rw [h.sets_follow hco hat]
        rfl
    · rw [if_neg hz] at hm ⊢
      simp only [trackConfigAt, hu, hm, if_true] at hc
      obtain rfl : none = config := by simpa using hc
      rfl

end FollowRun

end Restream
