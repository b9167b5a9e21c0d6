import Restream.RingContent
import Restream.VideoCodec
import Restream.Tables

/-! Publications that record the parameter sets a Raw video packet carries just
before it is stamped, and what a lookup of a packet's configuration returns. -/

namespace Restream

open Codec List Option RingBuffer

def mediaProducerBatchPackets : Nat := 32

namespace RingBuffer

def recordInBandConfig (r : RingBuffer) (packet : MediaPacket) : RingBuffer :=
  if packet.mediaType = .video ∧ packet.format = .raw then
    match annexbParameterSets packet.payload with
    | some parameterSets => (r.setTrackConfig .video packet.trackIndex parameterSets).1
    | none => r
  else r

def storePacket (r : RingBuffer) (idx : Nat) (packet : MediaPacket) : RingBuffer :=
  (r.packetStores idx packet).foldl apply r

def recordSlots : RingBuffer → Nat → List MediaPacket → RingBuffer
  | r, _, [] => r
  | r, idx, packet :: packets =>
    recordSlots ((r.recordInBandConfig packet).storePacket idx packet) (idx + 1) packets

def pushBatchRecordingConfig (r : RingBuffer) (packets : List MediaPacket) : RingBuffer :=
  let stored := r.recordSlots r.writeIdx packets
  if packets.length > 0 then stored.apply (.writeIdx (r.writeIdx + packets.length)) else stored

def drainRecordingConfig : Nat → RingBuffer → List MediaPacket → RingBuffer
  | 0, r, _ => r
  | fuel + 1, r, packets =>
    if packets.isEmpty then r
    else
      drainRecordingConfig fuel (r.pushBatchRecordingConfig (packets.take mediaProducerBatchPackets))
        (packets.drop mediaProducerBatchPackets)

def pushDrainedBatchRecordingConfig (r : RingBuffer) (packets : List MediaPacket) : RingBuffer :=
  drainRecordingConfig packets.length r packets

def setVideoParameterSets (r : RingBuffer) (parameterSets : List UInt8) : RingBuffer :=
  (r.setTrackConfig .video 0 parameterSets).1

def videoParameterSets (r : RingBuffer) : Option (List UInt8) :=
  (r.trackConfigs.current .video 0).map TrackConfig.bytes

def removeVideoTrack (r : RingBuffer) : RingBuffer := r.clearTrackConfig .video 0

def setAudioTracks (r : RingBuffer) (tracks : List Nat) : RingBuffer :=
  (List.range configTracksPerType).foldl
    (fun r trackIndex => if trackIndex ∈ tracks then r else r.clearTrackConfig .audio trackIndex) r

theorem storePacket_fields (r : RingBuffer) (idx : Nat) (p : MediaPacket) :
    (r.storePacket idx p).capacity = r.capacity ∧ (r.storePacket idx p).writeIdx = r.writeIdx ∧
      (r.storePacket idx p).trackConfigs = r.trackConfigs := by
  unfold storePacket packetStores
  split <;> exact ⟨rfl, rfl, rfl⟩

theorem storePacket_slots (r : RingBuffer) (idx i : Nat) (p : MediaPacket) :
    (r.storePacket idx p).slots i =
      if i = idx % r.capacity then ⟨some p, r.nextFrameUnit p idx⟩ else r.slots i := by
  unfold storePacket packetStores
  split <;> by_cases hi : i = idx % r.capacity <;>
    simp [apply, setSlot, slot, hi]

theorem slotStores_congr {r r' : RingBuffer} (h : r'.trackConfigs = r.trackConfigs) :
    r'.slotStores idx ps = r.slotStores idx ps := by
  induction ps generalizing idx with
  | nil => rfl
  | cons p ps ih => simp only [slotStores, packetStores, nextFrameUnit, h, ih]

variable (r : RingBuffer)

theorem foldl_slotStores :
    (r.slotStores idx (p :: ps)).foldl apply r =
      ((r.storePacket idx p).slotStores (idx + 1) ps).foldl apply (r.storePacket idx p) := by
  rw [slotStores_congr (r.storePacket_fields idx p).2.2, slotStores, foldl_append]
  rfl

theorem push_eq_pushBatch : r.push p = r.pushBatch [p] := by
  simp [push, pushBatch, pushStores, pushBatchStores, slotStores]

theorem recordInBandConfig_fields (p : MediaPacket) :
    (r.recordInBandConfig p).capacity = r.capacity ∧ (r.recordInBandConfig p).writeIdx = r.writeIdx ∧
      (r.recordInBandConfig p).slots = r.slots := by
  unfold recordInBandConfig
  split
  · split
    · unfold setTrackConfig
      split <;> exact ⟨rfl, rfl, rfl⟩
    · exact ⟨rfl, rfl, rfl⟩
  · exact ⟨rfl, rfl, rfl⟩

theorem recordSlots_fields (idx : Nat) (ps : List MediaPacket) :
    (r.recordSlots idx ps).capacity = r.capacity ∧
      (r.recordSlots idx ps).writeIdx = r.writeIdx := by
  induction ps generalizing r idx with
  | nil => exact ⟨rfl, rfl⟩
  | cons p ps ih =>
    obtain ⟨hcap, hidx, -⟩ := r.recordInBandConfig_fields p
    obtain ⟨hcap', hidx', -⟩ := (r.recordInBandConfig p).storePacket_fields idx p
    have h := ih ((r.recordInBandConfig p).storePacket idx p) (idx + 1)
    rw [recordSlots, h.1, h.2, hcap', hidx', hcap, hidx]
    exact ⟨rfl, rfl⟩

theorem pushBatchRecordingConfig_writeIdx (ps : List MediaPacket) :
    (r.pushBatchRecordingConfig ps).writeIdx = r.writeIdx + ps.length := by
  simp only [pushBatchRecordingConfig]
  split
  · rfl
  · rw [(r.recordSlots_fields _ _).2]
    omega

end RingBuffer

def Stamped (r : RingBuffer) (log : List (MediaPacket × UInt32)) : Prop :=
  ∀ s entry, log[s]? = some entry → log.length ≤ s + r.capacity →
    r.slot s = ⟨some entry.1, FrameUnit.pack ⟨entry.2⟩ s⟩

namespace Stamped

variable {r : RingBuffer}

theorem recordInBandConfig (h : Stamped r log) (p : MediaPacket) :
    Stamped (r.recordInBandConfig p) log := by
  obtain ⟨hcap, -, hsl⟩ := r.recordInBandConfig_fields p
  intro s e hs hret
  rw [slot, hcap, hsl]
  exact h s e hs (hcap ▸ hret)

theorem storePacket (h : Stamped r log) (p : MediaPacket) : Stamped (r.storePacket log.length p)
      (log ++ [(p, r.trackConfigs.generation p.mediaType p.trackIndex)]) := by
  obtain ⟨hcap, -, -⟩ := r.storePacket_fields log.length p
  intro s e hs hret
  rw [length_append, length_singleton] at hret
  rw [slot, storePacket_slots, hcap]
  rcases List.getElem?_concat_cases hs with hold | ⟨rfl, rfl⟩
  · have hlt := (List.getElem?_eq_some_iff.mp hold).1
    have hne : ¬s % r.capacity = log.length % r.capacity := by
      intro hmod
      exact hlt.ne (Cyclic.eq_of_mod_eq hmod hlt.le (by omega))
    rw [if_neg hne]
    exact h s e hold (by omega)
  · rw [if_pos rfl]
    rfl

def stamps (r : RingBuffer) (packets : List MediaPacket) : List (MediaPacket × UInt32) :=
  packets.map fun p => (p, r.trackConfigs.generation p.mediaType p.trackIndex)

variable (h : Stamped r log)
include h

theorem slotStores (ps : List MediaPacket) :
    Stamped ((r.slotStores log.length ps).foldl apply r) (log ++ stamps r ps) ∧
      ((r.slotStores log.length ps).foldl apply r).capacity = r.capacity ∧
      ((r.slotStores log.length ps).foldl apply r).trackConfigs = r.trackConfigs := by
  induction ps generalizing r log with
  | nil =>
    rw [stamps, map_nil, append_nil]
    exact ⟨h, rfl, rfl⟩
  | cons p ps ih =>
    obtain ⟨hcap, -, hc⟩ := r.storePacket_fields log.length p
    have hn := ih (h.storePacket p)
    simp only [stamps, hc, hcap, length_append, length_singleton, append_assoc] at hn
    rw [foldl_slotStores]
    exact hn

theorem pushBatch (hw : r.writeIdx = log.length) (ps : List MediaPacket) :
    Stamped (r.pushBatch ps) (log ++ stamps r ps) ∧ (r.pushBatch ps).capacity = r.capacity ∧
      (r.pushBatch ps).trackConfigs = r.trackConfigs ∧
      (r.pushBatch ps).writeIdx = (log ++ stamps r ps).length := by
  obtain ⟨hs, hcap, hc⟩ := h.slotStores ps
  rw [RingBuffer.pushBatch, RingBuffer.pushBatchStores, foldl_append, hw]
  split
  · refine ⟨hs, hcap, hc, ?_⟩
    simp [apply, stamps]
  · obtain rfl : ps = [] := length_eq_zero_iff.mp (by omega)
    exact ⟨hs, hcap, hc, by simpa [stamps, RingBuffer.slotStores] using hw⟩

theorem congr (hcap : r'.capacity = r.capacity) (hsl : r'.slots = r.slots) : Stamped r' log := by
  intro s e hs hret
  rw [slot, hcap, hsl]
  exact h s e hs (hcap ▸ hret)

theorem readAt (hs : log[s]? = some e) (hret : log.length ≤ s + r.capacity) :
    r.readAt s = some e.1 := by
  rw [readAt_eq, h s e hs hret, FrameUnit.unpack_pack_self]
  rfl

theorem trackConfigAt (hw : r.writeIdx = log.length) (hs : log[s]? = some e)
    (hret : log.length - s < r.capacity) (mt : MediaType) (ti : Nat) :
    r.trackConfigAt s mt ti =
      if e.2 = 0 then .ok none
      else
        match r.trackConfigs.get mt ti e.2 with
        | some cfg => .ok (some cfg)
        | none => .error .notRetained := by
  have hlt := (List.getElem?_eq_some_iff.mp hs).1
  have hu : r.frameUnit s = some ⟨e.2⟩ := by
    have hin : ¬(r.writeIdx ≤ s ∨ r.capacity ≤ r.writeIdx - s) := by omega
    rw [frameUnit, if_neg hin, h s e hs (by omega), FrameUnit.unpack_pack_self]
  unfold RingBuffer.trackConfigAt
  split
  · next hn => cases hu.symm.trans hn
  · next unit hs =>
    obtain rfl := Option.some.inj (hu.symm.trans hs)
    rfl

end Stamped

namespace TrackConfigs

/-- The configurations recorded for the video track, oldest first: the `n`-th
has generation `n`. -/
structure Recorded (c : TrackConfigs) (recorded : List (List UInt8)) : Prop where
  generation : (c.generation .video 0).toNat = recorded.length
  current : (c.current .video 0).map TrackConfig.bytes = recorded.getLast?
  history : ∀ i config, (c.tracks 0).history i = some config →
    recorded[config.generation.toNat - 1]? = some config.bytes

variable {rec : List (List UInt8)}

theorem slot_video : slot .video 0 = some 0 := rfl

theorem current_video (c : TrackConfigs) : c.current .video 0 = (c.tracks 0).current := rfl

theorem generation_video (c : TrackConfigs) : c.generation .video 0 = (c.tracks 0).generation := rfl

theorem Recorded.get (h : Recorded c rec) (hget : c.get .video 0 gen = some cfg) :
    cfg.generation = gen ∧ gen ≠ 0 ∧
      rec[gen.toNat - 1]? = some cfg.bytes := by
  unfold TrackConfigs.get at hget
  split at hget
  · cases hget
  · next hne =>
    obtain ⟨hh, hgen⟩ := filter_eq_some_iff.mp hget
    have hgen' : cfg.generation = gen := by simpa using hgen
    have hb := h.history _ cfg hh
    rw [hgen'] at hb
    exact ⟨hgen', hne, hb⟩

theorem set_video (c : TrackConfigs) (bs : List UInt8) :
    ((c.set .video 0 bs).1 = c ∧ (c.current .video 0).map TrackConfig.bytes = some bs) ∨
      (c.set .video 0 bs).1.tracks 0 =
        { generation := (c.tracks 0).generation + 1
          current := some ⟨(c.tracks 0).generation + 1, bs⟩
          history := Function.update (c.tracks 0).history
            (TrackConfigSlot.historySlot ((c.tracks 0).generation + 1))
            (some ⟨(c.tracks 0).generation + 1, bs⟩) } := by
  by_cases hs : (c.tracks 0).current.any (fun cfg => cfg.bytes == bs) = true
  · refine .inl ⟨by simp [TrackConfigs.set, slot_video, hs], ?_⟩
    rw [current_video]
    cases hc : (c.tracks 0).current with
    | none => simp [hc] at hs
    | some cfg => simpa [hc] using hs
  · exact .inr (by simp [TrackConfigs.set, slot_video, hs])

theorem Recorded.set (h : Recorded c rec) (bs : List UInt8) (hfew : rec.length + 1 < 2 ^ 32) :
    ∃ more, Recorded (c.set .video 0 bs).1 (rec ++ more) ∧ more.length ≤ 1 ∧
      (rec ++ more).getLast? = some bs := by
  have hg := h.generation
  rw [generation_video] at hg
  rcases c.set_video bs with ⟨hset, hcu⟩ | hs
  · refine ⟨[], ?_, by simp, ?_⟩
    · rw [hset, append_nil]
      exact h
    · rw [append_nil, ← h.current, hcu]
  · have hn : ((c.tracks 0).generation + 1).toNat = rec.length + 1 := by
      rw [UInt32.toNat_add, hg]
      exact Nat.mod_eq_of_lt hfew
    refine ⟨[bs], ⟨?_, ?_, ?_⟩, by simp, by simp⟩
    · rw [generation_video, hs, hn, length_append, length_singleton]
    · rw [current_video, hs]
      simp
    · intro i cfg hc
      rw [hs] at hc
      simp only [Function.update_apply] at hc
      split at hc
      · cases hc
        rw [hn, Nat.add_sub_cancel, getElem?_concat_length]
      · have hold := h.history i cfg hc
        rw [List.getElem?_append_left (List.getElem?_eq_some_iff.mp hold).1]
        exact hold

end TrackConfigs

end Restream
