import Restream.RtmpPublisher
import Restream.RtmpHeaders

/-! The ring configuration an RTMP publisher's keyframes are stamped with, in
runs where each header reaches the ring while the publisher is active. -/

namespace Restream

open List Option StandbyGopCache RingBuffer

theorem mapBatch_mem (h : q ∈ (mapBatch flag last ix m batch).2) :
    ∃ p ∈ batch, q.trackIndex = p.trackIndex ∧ q.isVideoKeyframe = p.isVideoKeyframe := by
  induction batch generalizing ix m with
  | nil => cases h
  | cons p ps ih =>
    rcases mem_cons.mp h with rfl | hr
    · exact ⟨p, by simp, rfl, rfl⟩
    · obtain ⟨p', hmem, hp'⟩ := ih hr
      exact ⟨p', by simp [hmem], hp'⟩

namespace IngestInput

variable (i : IngestInput) (last : Int) (packet : MediaPacket)

theorem forwardMessage_active (hs : st = .active) :
    (i.forwardMessage st last packet).input.standbyGop = i.standbyGop ∧
      ((i.gate.tryEnter (batchBoundary [packet]) = none ∧
          (i.forwardMessage st last packet).published = none) ∨
        ∃ p q, (i.forwardMessage st last packet).published = some p ∧ p.packets = [q] ∧
          q.trackIndex = packet.trackIndex ∧ q.isVideoKeyframe = packet.isVideoKeyframe) := by
  unfold forwardMessage
  rw [if_pos hs]
  cases hg : i.gate.tryEnter (batchBoundary [packet]) with
  | none => exact ⟨rfl, .inl ⟨rfl, rfl⟩⟩
  | some entered => exact ⟨rfl, .inr ⟨_, _, rfl, rfl, rfl, rfl⟩⟩

theorem forwardMessage_standby (hs : st ≠ .active) :
    ((i.forwardMessage st last packet).published = none ∧
        (i.forwardMessage st last packet).input.standbyGop = i.standbyGop.push packet) ∨
      ∃ p, (i.forwardMessage st last packet).published = some p ∧
        (i.forwardMessage st last packet).input.standbyGop.packets = [] ∧
        (i.standbyGop.push packet).packets ≠ [] ∧
        ∀ q ∈ p.packets, ∃ p' ∈ (i.standbyGop.push packet).packets, q.trackIndex = p'.trackIndex := by
  unfold forwardMessage
  rw [if_neg hs]
  generalize i.standbyGop.push packet = gop
  simp only [tryPromote, selectReplay]
  split
  · exact .inl ⟨rfl, rfl⟩
  · next hr =>
    have hr' : gop.isReplayReady = true := by
      cases h : gop.isReplayReady
      · exact absurd (.inl h) hr
      · rfl
    cases hg : i.gate.tryEnter .replayReady with
    | none => exact .inl ⟨rfl, rfl⟩
    | some entered =>
      refine .inr ⟨_, rfl, ?_, ?_, ?_⟩
      · simp [publishSelected, publish, takeReplay, hr', clear]
      · intro hnil
        simp [isReplayReady, hnil] at hr'
      · intro q hq
        obtain ⟨p', hmem, ht, -⟩ := mapBatch_mem hq
        simp only [takeReplay, hr', if_true] at hmem
        exact ⟨p', hmem, ht⟩

end IngestInput

namespace Rtmp.RtmpPublisherRun

open Exec

/-- Headers with parameter sets arrive while the publisher is active and let in,
or bring the ring's own; none brings others while a group of pictures is
cached; and once one arrived only equal sets are recorded. -/
def KeepsConfig (r : RtmpPublisherRun) : RtmpPublisherEvent → Prop
  | .video data timestamp state => ∀ sets, flvConfigAnnexbParameterSets data = some sets →
    ((state = .active ∧
      (r.media.gate.tryEnter (batchBoundary [videoPacket data timestamp])).isSome = true) ∨
      r.ring.videoParameterSets = some sets) ∧
    (r.media.standbyGop.packets = [] ∨ r.cachedSets = none ∨ r.cachedSets = some sets) ∧
    r.ring.trackConfigs.generation .video 0 + 1 ≠ 0
  | .other parameterSets _ _ => ∀ sets, parameterSets = some sets →
    (r.sets = none ∨ r.sets = some sets) ∧ r.ring.trackConfigs.generation .video 0 + 1 ≠ 0
  | .removeVideoTrack => r.sets = none
  | .audio _ _ _ | .gate _ => True

structure Inv (r : RtmpPublisherRun) : Prop where
  ready : RingReady r.ring
  held : ∀ sets, r.sets = some sets → sets ≠ [] ∧ r.ring.videoParameterSets = some sets
  tracks : ∀ p ∈ r.media.standbyGop.packets, p.trackIndex = 0
  cached : r.media.standbyGop.packets ≠ [] → ∀ sets, r.cachedSets = some sets → r.sets = some sets
  looked : ∀ k ∈ r.keyframes, LookupGives k.1 k.2

variable {r t : RtmpPublisherRun}

section Receive

variable {packet : MediaPacket} {media : IngestInput}

theorem Inv.held_or (h : Inv r) (parameterSets : Option (List UInt8)) (ring : RingBuffer)
    (hnew : ∀ sets, parameterSets = some sets → sets ≠ [] ∧ ring.videoParameterSets = some sets)
    (hsa : parameterSets = none → ring.videoParameterSets = r.ring.videoParameterSets) :
    ∀ sets, parameterSets.or r.sets = some sets → sets ≠ [] ∧
      ring.videoParameterSets = some sets := by
  intro sets hs
  cases hc : parameterSets with
  | none =>
    rw [hc] at hs
    rw [hsa hc]
    exact h.held sets hs
  | some own =>
    rw [hc, some_or, Option.some.injEq] at hs
    rw [← hs]
    exact hnew own hc

theorem Inv.cached_or (h : Inv r) (hgop : r.media.standbyGop.packets ≠ [])
    (hown : ∀ sets, parameterSets = some sets →
      r.media.standbyGop.packets = [] ∨ r.cachedSets = none ∨ r.cachedSets = some sets) :
    ∀ sets, r.cachedSets = some sets → parameterSets.or r.sets = some sets := by
  intro sets hs
  cases hc : parameterSets with
  | none => exact h.cached hgop sets hs
  | some own =>
    rcases hown own hc with hnil | hn | hso
    · exact absurd hnil hgop
    · rw [hn] at hs
      cases hs
    · rw [← hso, hs]
      rfl

theorem Inv.looked_append {lookups : List Lookup} {sets : Option (List UInt8)} (h : Inv r)
    (hnew : ∀ lookup ∈ lookups, LookupGives sets lookup) :
    ∀ k ∈ r.keyframes ++ lookups.map fun lookup => (sets, lookup), LookupGives k.1 k.2 := by
  intro k hk
  rcases mem_append.mp hk with hold | hl
  · exact h.looked k hold
  · obtain ⟨lookup, hmem, rfl⟩ := mem_map.mp hl
    exact hnew lookup hmem

variable (r packet parameterSets) in
def KeepsSets (granted : Prop) : Prop :=
  ∀ sets, parameterSets = some sets → sets ≠ [] ∧ packet.isVideoKeyframe = false ∧
    (granted ∨ r.ring.videoParameterSets = some sets) ∧
    (r.media.standbyGop.packets = [] ∨ r.cachedSets = none ∨ r.cachedSets = some sets) ∧
    r.ring.trackConfigs.generation .video 0 + 1 ≠ 0

theorem Inv.receive_active (h : Inv r) (htr : packet.trackIndex = 0)
    (hga : media.gate = r.media.gate) (hgop : media.standbyGop = r.media.standbyGop)
    (hse : KeepsSets r packet parameterSets
      ((r.media.gate.tryEnter (batchBoundary [packet])).isSome = true)) :
    Inv (r.receive .active packet parameterSets
      (media.forwardMessage .active r.lastForwardedDts packet)) := by
  obtain ⟨hgop', hp⟩ := media.forwardMessage_active r.lastForwardedDts packet rfl
  rw [hgop] at hgop'
  rw [hga] at hp
  generalize media.forwardMessage .active r.lastForwardedDts packet = outcome at hgop' hp ⊢
  have ht : ∀ p ∈ outcome.input.standbyGop.packets, p.trackIndex = 0 := hgop' ▸ h.tracks
  have hca : outcome.input.standbyGop.packets ≠ [] → ∀ sets, r.cachedSets = some sets →
      parameterSets.or r.sets = some sets := by
    rw [hgop']
    exact fun hne => h.cached_or hne fun sets hs => (hse sets hs).2.2.2.1
  unfold receive
  rcases hp with ⟨hn, hpub⟩ | ⟨p, q, hpub, hpa, hq, hqk⟩ <;> rw [hpub]
  · refine ⟨h.ready, h.held_or _ _ ?_ fun _ => rfl, ht, hca, h.looked_append (by rintro _ ⟨⟩)⟩
    intro sets hs
    obtain ⟨hne, -, hc, -⟩ := hse sets hs
    rw [hn] at hc
    exact ⟨hne, hc.resolve_left (by simp)⟩
  · simp only [publishObserved, if_true, hpa]
    obtain ⟨hr, hb⟩ := h.ready.recordSets parameterSets (by
      intro hso
      obtain ⟨sets, hs⟩ := isSome_iff_exists.mp hso
      exact (hse sets hs).2.2.2.2)
    obtain ⟨hr', hco⟩ := hr.pushBatch [q]
    have hc : (((recordSets r.ring parameterSets).pushObserved [q]).1).videoParameterSets =
        (recordSets r.ring parameterSets).videoParameterSets := by
      simp only [pushObserved, videoParameterSets, hco]
    refine ⟨hr', h.held_or _ _ ?_ ?_, ht, hca, h.looked_append ?_⟩
    · intro sets hs
      rw [hc]
      exact ⟨(hse sets hs).1, hb sets hs (hse sets hs).1⟩
    · rintro rfl
      exact hc
    · intro lookup hl
      have hg :=
        hr.pushObserved [q] (by simp [mediaProducerBatchPackets]) (by simp [hq, htr]) lookup hl
      cases hcas : parameterSets with
      | none =>
        rw [hcas] at hg
        exact LookupGives.mono hg fun sets hs => (h.held sets hs).2
      | some sets =>
        have hnot := (hse sets hcas).2.1
        rw [← hqk] at hnot
        simp [pushObserved, hnot] at hl

theorem Inv.receive_standby (h : Inv r) (hst : st ≠ .active) (htr : packet.trackIndex = 0)
    (hkey : packet.isVideoKeyframe = packet.isKeyframe) (hgop : media.standbyGop = r.media.standbyGop)
    (hse : KeepsSets r packet parameterSets False) :
    Inv (r.receive st packet parameterSets
      (media.forwardMessage st r.lastForwardedDts packet)) := by
  have hpu := media.forwardMessage_standby r.lastForwardedDts packet hst
  rw [hgop] at hpu
  have hh := h.held_or parameterSets r.ring
    (fun sets hs => ⟨(hse sets hs).1, (hse sets hs).2.2.1.resolve_left id⟩) fun _ => rfl
  have ht : ∀ p ∈ (r.media.standbyGop.push packet).packets, p.trackIndex = 0 := by
    intro p hp
    rcases mem_append.mp ((push_sublist _ packet).subset hp) with hmem | hmem
    · exact h.tracks p hmem
    · rw [mem_singleton.mp hmem]
      exact htr
  have hc : (r.media.standbyGop.push packet).packets ≠ [] → ∀ sets,
      (if st ≠ .active ∧ packet.isKeyframe = true then r.sets else r.cachedSets) = some sets →
      parameterSets.or r.sets = some sets := by
    intro hne sets hs
    by_cases hkf : packet.isKeyframe = true
    · rw [if_pos ⟨hst, hkf⟩] at hs
      cases hca : parameterSets with
      | none => exact hs
      | some own => exact absurd ((hse own hca).2.1.symm.trans (hkey.trans hkf)) (by decide)
    · rw [if_neg fun hb => hkf hb.2] at hs
      have hi : packet.isVideoKeyframe = false := by simpa [hkey] using hkf
      exact h.cached_or (fun hnil => hne (by simp [StandbyGopCache.push, hi, hnil]))
        (fun own ho => (hse own ho).2.2.2.1) sets hs
  unfold receive
  rcases hpu with ⟨hpub, hgop'⟩ | ⟨p, hpub, hgop', hne, hpt⟩
  · rw [← hgop'] at ht hc
    rw [hpub]
    exact ⟨h.ready, hh, ht, hc, h.looked_append (by rintro _ ⟨⟩)⟩
  · rw [hpub]
    simp only [publishObserved, if_neg hst]
    obtain ⟨hr, hco⟩ := h.ready.push p.headers
    have hpz : ∀ q ∈ p.packets, q.trackIndex = 0 := by
      intro q hq
      obtain ⟨p', hmem, heq⟩ := hpt q hq
      rw [heq, ht p' hmem]
    obtain ⟨hr', hc', hl⟩ := hr.drainObserved p.packets.length hpz
    refine ⟨hr', ?_, ?_, fun hnil => absurd hgop' hnil, h.looked_append ?_⟩
    · intro sets hs
      rw [videoParameterSets, hc', hco]
      exact hh sets hs
    · intro q hq
      simp only [hgop'] at hq
      cases hq
    · intro lookup hlo
      have hg := hl lookup hlo
      rw [videoParameterSets, hco] at hg
      exact LookupGives.mono hg fun sets hs => (hh sets (hc hne sets hs)).2

theorem Inv.receive (h : Inv r) (ht : packet.trackIndex = 0)
    (hkey : packet.isVideoKeyframe = packet.isKeyframe) (hga : media.gate = r.media.gate)
    (hgop : media.standbyGop = r.media.standbyGop)
    (hse : KeepsSets r packet parameterSets
      (st = .active ∧ (r.media.gate.tryEnter (batchBoundary [packet])).isSome = true)) :
    Inv (r.receive st packet parameterSets
      (media.forwardMessage st r.lastForwardedDts packet)) := by
  by_cases hst : st = .active
  · subst hst
    refine h.receive_active ht hga hgop fun sets hs => ?_
    obtain ⟨hne, hi, hg, hr⟩ := hse sets hs
    exact ⟨hne, hi, hg.imp_left And.right, hr⟩
  · refine h.receive_standby hst ht hkey hgop fun sets hs => ?_
    obtain ⟨hne, hi, hg, hr⟩ := hse sets hs
    exact ⟨hne, hi, hg.imp_left fun hb => hst hb.1, hr⟩

end Receive

theorem Inv.start (cap : Nat) (hcap : minRingCapacity ≤ cap) (hpos : 0 < cap)
    (gate : InputPacketGate) : Inv (start cap hpos gate) where
  ready :=
    { stamped := ⟨[], by rintro s e ⟨⟩, rfl⟩
      capacity := lt_of_lt_of_le (by decide) hcap
      resolves := by rintro config ⟨⟩ }
  held := by rintro sets ⟨⟩
  tracks := by rintro p ⟨⟩
  cached := fun hne => absurd rfl hne
  looked := by rintro k ⟨⟩

theorem Inv.other (h : Inv r) (hg : ∀ sets, parameterSets = some sets →
      (r.sets = none ∨ r.sets = some sets) ∧ r.ring.trackConfigs.generation .video 0 + 1 ≠ 0)
    (ps : List MediaPacket) (dts : Int) : Inv { r with
      ring := (recordSets r.ring parameterSets).pushBatch ps
      lastForwardedDts := dts } := by
  obtain ⟨hr, hb⟩ := h.ready.recordSets parameterSets (by
    intro hso
    obtain ⟨sets, hs⟩ := isSome_iff_exists.mp hso
    exact (hg sets hs).2)
  obtain ⟨hr', hc⟩ := hr.pushBatch ps
  refine ⟨hr', ?_, h.tracks, h.cached, h.looked⟩
  intro sets hs
  obtain ⟨hne, hh⟩ := h.held sets hs
  refine ⟨hne, ?_⟩
  rw [videoParameterSets, hc]
  cases hca : parameterSets with
  | none => exact hh
  | some own =>
    rcases (hg own hca).1 with hn | hown
    · rw [hs] at hn
      cases hn
    · rw [hs, Option.some.injEq] at hown
      subst hown
      rw [hca] at hb
      exact hb sets rfl hne

theorem Inv.step (h : Inv r) (hg : KeepsConfig r event) (hst : r.step event = some t) : Inv t := by
  cases event with
  | video data ts st =>
    cases hst
    have hk : KeepsSets r (videoPacket data ts) (flvConfigAnnexbParameterSets data)
        (st = .active ∧ (r.media.gate.tryEnter (batchBoundary [videoPacket data ts])).isSome =
          true) := by
      intro sets hs
      have hc := classify_of_parameterSets hs
      exact ⟨parameterSets_ne_nil hs,
        by simp [videoPacket, MediaPacket.isVideoKeyframe, hc], hg sets hs⟩
    simp only [IngestInput.onVideo]
    split <;> exact h.receive rfl rfl rfl rfl hk
  | audio data ts st =>
    cases hst
    have hk : KeepsSets r (audioPacket data ts) none
        (st = .active ∧ (r.media.gate.tryEnter (batchBoundary [audioPacket data ts])).isSome =
          true) := by
      rintro sets ⟨⟩
    simp only [IngestInput.onAudio]
    split <;> exact h.receive rfl rfl rfl rfl hk
  | gate st =>
    cases hst
    exact { h with }
  | other parameterSets ps dts =>
    cases hst
    exact h.other hg ps dts
  | removeVideoTrack =>
    cases hst
    refine ⟨h.ready.removeVideoTrack, ?_, h.tracks, h.cached, h.looked⟩
    intro sets hs
    rw [show r.sets = none from hg] at hs
    cases hs

/-- Every keyframe the publisher pushed was looked up with the parameter sets of
the last header it received before that keyframe. -/
theorem keyframe_config_follows_header (capacity : Nat) (hcap : minRingCapacity ≤ capacity)
    (hpos : 0 < capacity) (gate : InputPacketGate) {r : RtmpPublisherRun}
    (hrun : Reachable step KeepsConfig (start capacity hpos gate) r)
    {sets : List UInt8} {lookup : Lookup}
    (hkeyframe : (some sets, lookup) ∈ r.keyframes) :
    ∃ config, lookup = .ok (some config) ∧ config.bytes = sets := by
  have hinv := hrun.invariant Inv (fun _ _ _ h hguard hstep => h.step hguard hstep)
    (Inv.start capacity hcap hpos gate)
  exact hinv.looked _ hkeyframe sets rfl

end Rtmp.RtmpPublisherRun

namespace Rtmp

def exampleFlvKeyframe : List UInt8 := [0x17, 1, 0, 0, 0, 0, 0, 0, 2, 0x65, 0x88]

theorem exampleHeader_sets : flvConfigAnnexbParameterSets exampleHeader = some exampleSets := by
  decide +kernel

theorem keyframe_config_follows_header_active : ∃ (r : RtmpPublisherRun) (lookup : Lookup),
    Exec.Reachable RtmpPublisherRun.step RtmpPublisherRun.KeepsConfig
      (.start 64 (by decide) .active) r ∧
      (some exampleSets, lookup) ∈ r.keyframes ∧
      ∃ config, lookup = .ok (some config) ∧ config.bytes = exampleSets := by
  have hheader : RtmpPublisherRun.KeepsConfig (.start 64 (by decide) .active)
      (.video exampleHeader 0 .active) :=
    fun sets _ => ⟨.inl ⟨rfl, rfl⟩, .inl rfl, by decide⟩
  have hkeyframe (r : RtmpPublisherRun) : r.KeepsConfig (.video exampleFlvKeyframe 40 .active) := by
    intro sets hsets
    cases hsets
  exact ⟨_, .ok (some ⟨1, exampleSets⟩),
    .tail (.tail .refl ⟨_, hheader, rfl⟩) ⟨_, hkeyframe _, rfl⟩, by decide +kernel,
    RtmpPublisherRun.keyframe_config_follows_header 64 le_rfl (by decide) .active
      (.tail (.tail .refl ⟨_, hheader, rfl⟩) ⟨_, hkeyframe _, rfl⟩) (by decide +kernel)⟩

/-- A header and a keyframe in standby, then the promotion: the keyframe has no
configuration. -/
theorem promoted_keyframe_without_config : ∃ r : RtmpPublisherRun,
    Exec.Reachable RtmpPublisherRun.step Exec.anyLabel (.start 64 (by decide) .standby) r ∧
      flvConfigAnnexbParameterSets exampleHeader = some exampleSets ∧
      r.keyframes = [(some exampleSets, .ok none)] :=
  ⟨_, .tail (.tail (.tail (.tail .refl ⟨.video exampleHeader 0 .standby, trivial, rfl⟩)
    ⟨.video exampleFlvKeyframe 40 .standby, trivial, rfl⟩) ⟨.gate .awaitingKeyframe, trivial, rfl⟩)
    ⟨.audio [0xAF, 1, 0x21] 60 .awaitingKeyframe, trivial, rfl⟩,
    exampleHeader_sets, by decide +kernel⟩

end Rtmp

end Restream
