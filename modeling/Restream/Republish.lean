import Restream.AudioRouter
import Restream.VideoFollower

/-! Runs of the two republishers that use the follower, the audio router and the
publisher of a recirculated input, while their source goes on. -/

namespace Restream

open List Exec AudioRouter

def numbered (first : Nat) (packets : List MediaPacket) : List (Nat × MediaPacket) :=
  packets.zipIdx.map fun p => (first + p.2, p.1)

structure RouterRun where
  follow : FollowRun
  burst : List (Nat × MediaPacket)

/-- The source goes on, the router pulls a burst, routes its next packet (and may copy
the audio tracks it finds) or publishes what it queued. -/
inductive RouterOp where
  | produce (op : ConfigOp)
  | pull (first : Nat) (packets : List MediaPacket)
  | route (tracks : Option (List Nat))
  | publish

namespace RouterRun

def setAudioTracks (f : FollowRun) (tracks : Option (List Nat)) : FollowRun :=
  match tracks with
  | none => f
  | some tracks => { f with target := f.target.setAudioTracks tracks }

def start (source : LookupRun) (target : RingBuffer) (tracks : Option (List Nat)) : RouterRun :=
  let target :=
    match source.ring.videoParameterSets with
    | none => target
    | some parameterSets => target.setVideoParameterSets parameterSets
  { follow := setAudioTracks
      { source := source, generation := 0, target := target, pending := [], observed := [] } tracks
    burst := [] }

def routePacket (routing : AudioRouting) (f : FollowRun) (sequence : Nat) (packet : MediaPacket)
    (tracks : Option (List Nat)) : FollowRun :=
  let f := if packet.mediaType = .video then f.follow sequence else f
  let f := setAudioTracks f tracks
  match routeAudioPacket routing packet with
  | none => f
  | some output => f.queue sequence packet output

def step (routing : AudioRouting) (r : RouterRun) : RouterOp → Option RouterRun
  | .produce op => some { r with follow := r.follow.produce op }
  | .pull first packets =>
    if r.burst = [] ∧ r.follow.pending = [] then some { r with burst := numbered first packets }
      else none
  | .route tracks =>
    match r.burst with
    | [] => none
    | (sequence, packet) :: burst => some ⟨routePacket routing r.follow sequence packet tracks, burst⟩
  | .publish =>
    if r.burst = [] then some { r with follow := r.follow.pushDrainedBatchCapped } else none

def Meets (r : RouterRun) : RouterOp → Prop
  | .route _ => r.follow.Counts ∧ ∀ p ∈ r.burst.head?, r.follow.Meets p.1 p.1 p.2
  | _ => True

instance (r : RouterRun) (op : RouterOp) : Decidable (r.Meets op) := by
  unfold Meets
  split <;> infer_instance

end RouterRun

/-- The publisher of a recirculated input, with the packets its standby cache was given
and what is left of an active call. -/
structure RecirculationRun where
  follow : FollowRun
  input : IngestInput
  given : List (Nat × MediaPacket)
  batch : List (Nat × MediaPacket)

/-- The source goes on, the engine changes the gate, the publisher is called with the
state it loads, queues its next packet or ends the call. -/
inductive RecirculationOp where
  | produce (op : ConfigOp)
  | setGate (gate : InputPacketGate)
  | publish (first : Nat) (units : List MediaPacket) (state : InputForwardState)
    (lastForwardedDts : Int)
  | queue
  | finish

namespace RecirculationRun

def start (source : LookupRun) (target : RingBuffer) (input : IngestInput) : RecirculationRun :=
  { follow := { source := source, generation := 0, target := target, pending := [], observed := [] }
    input := input
    given := []
    batch := [] }

def givenWith (r : RecirculationRun) (first : Nat) (units : List MediaPacket) :
    List (Nat × MediaPacket) :=
  r.given ++ numbered first units

/-- The replay of a call on standby, its packets with their sequences in the source: the
cache holds the last packets it was given. -/
def replay (r : RecirculationRun) (first : Nat) (units : List MediaPacket) (state : InputForwardState)
    (lastForwardedDts : Int) : List (Nat × MediaPacket) :=
  match (r.input.forwardPackets state lastForwardedDts units).published with
  | none => []
  | some published =>
    (((r.givenWith first units).map Prod.fst).drop
      ((r.givenWith first units).length - published.packets.length)).zip published.packets

def queueAll (f : FollowRun) (packets : List (Nat × MediaPacket)) : FollowRun :=
  packets.foldl (fun f p => f.queue p.1 p.2 p.2) f

def forwardPackets (r : RecirculationRun) (first : Nat)
    (units : List MediaPacket) (state : InputForwardState)
    (lastForwardedDts : Int) : RecirculationRun :=
  let outcome := r.input.forwardPackets state lastForwardedDts units
  let lastSequence := first + units.length - 1
  if state = .active then
    match outcome.published with
    | none => { r with input := outcome.input }
    | some published => { r with input := outcome.input, batch := numbered first published.packets }
  else
    match outcome.published with
    | none => { r with input := outcome.input, given := r.givenWith first units }
    | some _ =>
      { r with
        input := outcome.input
        given := r.givenWith first units
        follow := (queueAll (r.follow.follow lastSequence)
          (r.replay first units state lastForwardedDts)).pushDrainedBatchCapped }

def step (r : RecirculationRun) : RecirculationOp → Option RecirculationRun
  | .produce op => some { r with follow := r.follow.produce op }
  | .setGate gate => some { r with input := { r.input with gate := gate } }
  | .publish first units state lastForwardedDts =>
    if r.batch = [] ∧ r.follow.pending = [] then
      some (if units = [] then r else r.forwardPackets first units state lastForwardedDts)
    else none
  | .queue =>
    match r.batch with
    | [] => none
    | (sequence, packet) :: batch =>
      let f := if packet.mediaType = .video then r.follow.follow sequence else r.follow
      some { r with follow := f.queue sequence packet packet, batch := batch }
  | .finish =>
    if r.batch = [] then some { r with follow := r.follow.pushDrainedBatchCapped } else none

/-- The packet queued next meets the condition. On a promotion the follower is called
once, with the last sequence of the call, for every replayed packet. -/
def Meets (r : RecirculationRun) : RecirculationOp → Prop
  | .publish first units state lastForwardedDts => state ≠ .active →
    r.follow.Counts ∧ ∀ p ∈ r.replay first units state lastForwardedDts,
      r.follow.Meets (first + units.length - 1) p.1 p.2
  | .queue => r.follow.Counts ∧ ∀ p ∈ r.batch.head?, r.follow.Meets p.1 p.1 p.2
  | _ => True

instance (r : RecirculationRun) (op : RecirculationOp) : Decidable (r.Meets op) := by
  unfold Meets
  split <;> infer_instance

end RecirculationRun

open RouterRun Option

theorem Handled.Carried.congr {h : Handled} (hc : h.Carried target)
    (hca : ∀ t, target'.carries t = target.carries t) : h.Carried target' := by
  intro hv c hco
  rw [hca]
  exact hc hv c hco

namespace RouterRun

theorem setAudioTracks_source : (setAudioTracks f ts).source = f.source := by
  cases ts <;> rfl

theorem setAudioTracks_carries (h : f.Inv cap) (ts : Option (List Nat)) (t : Nat) :
    (setAudioTracks f ts).target.carries t = f.target.carries t := by
  cases ts with
  | none => rfl
  | some ts => simp only [setAudioTracks, RingBuffer.carries, (h.target.setAudioTracks ts).2]

end RouterRun

namespace FollowRun

theorem Inv.produce (h : Inv cap f) (op : ConfigOp) : Inv cap (f.produce op) := by
  refine ⟨h.source.step op, h.target, ?_, h.pending, h.observed⟩
  rcases h.copied with hz | ⟨n, bs, hn, hh, hs⟩
  · exact .inl hz
  · obtain ⟨more, hm⟩ := (f.source.step_extended op .video 0).1
    refine .inr ⟨n, bs, hn, ?_, hs⟩
    rw [FollowRun.produce, ← hm, List.getElem?_append_left (List.getElem?_eq_some_iff.mp hh).1]
    exact hh

theorem Inv.setAudioTracks (h : Inv cap f) (ts : Option (List Nat)) :
    Inv cap (setAudioTracks f ts) := by
  cases ts with
  | none => exact h
  | some ts =>
    obtain ⟨ht, hs⟩ := h.target.setAudioTracks ts
    refine ⟨h.source, ht, ?_, fun q hq => ?_, h.observed⟩
    · simpa only [RouterRun.setAudioTracks, hs] using h.copied
    · exact (h.pending q hq).congr (setAudioTracks_carries h (some ts))

variable {sequence : Nat}

theorem Inv.queue (h : Inv cap f)
    (hc : Handled.Carried f.target ⟨sequence, out, f.source.ring.trackConfigAt sequence
      packet.mediaType packet.trackIndex⟩) : Inv cap (f.queue sequence packet out) :=
  ⟨h.source, h.target, h.copied, fun q hq => by
    rcases mem_append.mp hq with hq | hq
    · exact h.pending q hq
    · obtain rfl := mem_singleton.mp hq
      exact hc, h.observed⟩

theorem Inv.followed_queue (h : Inv cap f) (hc : f.Counts) (hm : f.Meets sequence sequence packet)
    (ts : Option (List Nat))
    (hs : out.mediaType = .video → out.mediaType = packet.mediaType ∧
      out.trackIndex = packet.trackIndex) :
    Inv cap ((RouterRun.setAudioTracks
      (if packet.mediaType = .video then f.follow sequence else f) ts).queue sequence packet out) := by
  by_cases hv : packet.mediaType = .video
  · rw [if_pos hv]
    refine ((h.follow hc sequence).setAudioTracks ts).queue ?_
    have hca := h.carried_follow hc hm hs
    rw [setAudioTracks_source, h.follow_source]
    exact hca.congr (setAudioTracks_carries (h.follow hc sequence) ts)
  · rw [if_neg hv]
    refine (h.setAudioTracks ts).queue fun ho => ?_
    exact absurd ((hs ho).1.symm.trans ho) hv

end FollowRun

namespace RouterRun

variable {r : RouterRun}

theorem routeAudioPacket_video (h : routeAudioPacket routing packet = some out)
    (hv : out.mediaType = .video) :
    out.mediaType = packet.mediaType ∧ out.trackIndex = packet.trackIndex := by
  unfold routeAudioPacket at h
  split at h
  · cases h
    exact ⟨rfl, rfl⟩
  · cases h
    exact ⟨rfl, rfl⟩
  · cases h
    exact ⟨rfl, rfl⟩
  · cases h
    exact ⟨rfl, rfl⟩
  · next ha =>
    obtain ⟨i, -, rfl⟩ := map_eq_some_iff.mp h
    cases ha.symm.trans hv
  · next ha =>
    obtain ⟨-, ho⟩ := ite_none_right_eq_some.mp h
    cases ho
    cases ha.symm.trans hv

theorem step_inv (h : r.follow.Inv cap) (hm : r.Meets op) (hs : r.step routing op = some r') :
    r'.follow.Inv cap := by
  cases op with
  | produce op =>
    cases hs
    exact h.produce op
  | pull first ps =>
    obtain ⟨-, hr⟩ := ite_none_right_eq_some.mp hs
    cases hr
    exact h
  | publish =>
    obtain ⟨-, hr⟩ := ite_none_right_eq_some.mp hs
    cases hr
    exact h.pushDrainedBatchCapped.1
  | route ts =>
    simp only [step] at hs
    split at hs <;> cases hs
    · next sequence packet burst hb =>
      obtain ⟨hc, hh⟩ := hm
      have hp := hh (sequence, packet) (by rw [hb]; rfl)
      simp only [routePacket]
      cases hro : routeAudioPacket routing packet with
      | some out => exact h.followed_queue hc hp ts (routeAudioPacket_video hro)
      | none =>
        dsimp only
        split
        · exact (h.follow hc sequence).setAudioTracks ts
        · exact h.setAudioTracks ts

end RouterRun

namespace RecirculationRun

variable {r : RecirculationRun}

theorem queueAll_inv (h : f.Inv cap)
    (hc : ∀ p ∈ ps, Handled.Carried f.target ⟨p.1, p.2,
      f.source.ring.trackConfigAt p.1 p.2.mediaType p.2.trackIndex⟩) : (queueAll f ps).Inv cap := by
  induction ps generalizing f with
  | nil => exact h
  | cons p ps ih =>
    exact ih (h.queue (hc p mem_cons_self)) fun q hq => hc q (mem_cons_of_mem p hq)

theorem forwardPackets_inv (h : r.follow.Inv cap) (hm : r.Meets (.publish first units st dts)) :
    (r.forwardPackets first units st dts).follow.Inv cap := by
  have hr (hs : st ≠ .active) : ((queueAll (r.follow.follow (first + units.length - 1))
      (r.replay first units st dts)).pushDrainedBatchCapped).Inv cap := by
    obtain ⟨hc, hpa⟩ := hm hs
    refine (queueAll_inv (h.follow hc _) fun p hp => ?_).pushDrainedBatchCapped.1
    rw [h.follow_source]
    exact h.carried_follow hc (hpa p hp) fun _ => ⟨rfl, rfl⟩
  unfold forwardPackets
  dsimp only
  split
  · split <;> exact h
  · next hs =>
    split
    · exact h
    · exact hr hs

theorem step_inv (h : r.follow.Inv cap) (hm : r.Meets op) (hs : r.step op = some r') :
    r'.follow.Inv cap := by
  cases op with
  | produce op =>
    cases hs
    exact h.produce op
  | setGate gate =>
    cases hs
    exact h
  | publish first units st dts =>
    obtain ⟨-, hr⟩ := ite_none_right_eq_some.mp hs
    cases hr
    split
    · exact h
    · exact forwardPackets_inv h hm
  | queue =>
    simp only [step] at hs
    split at hs <;> cases hs
    · next sequence packet batch hb =>
      obtain ⟨hc, hh⟩ := hm
      exact h.followed_queue hc (hh (sequence, packet) (by rw [hb]; rfl)) none fun _ => ⟨rfl, rfl⟩
  | finish =>
    obtain ⟨-, hr⟩ := ite_none_right_eq_some.mp hs
    cases hr
    exact h.pushDrainedBatchCapped.1

end RecirculationRun

theorem FollowTarget.new (h : 0 < cap) (hb : mediaProducerBatchPackets < cap) :
    FollowTarget (.new cap h) :=
  ⟨⟨⟨[], by rintro s e ⟨⟩, rfl⟩, hb, by rintro c ⟨⟩⟩, fun _ => rfl, fun _ _ _ => rfl⟩

theorem RouterRun.start_inv (hs : src.Inv cap) (ht : FollowTarget target)
    (hf : target.trackConfigs.generation .video 0 = 0) (ts : Option (List Nat)) :
    (start src target ts).follow.Inv cap := by
  refine FollowRun.Inv.setAudioTracks ⟨hs, ?_, .inl rfl, by rintro _ ⟨⟩, by rintro _ ⟨⟩⟩ ts
  cases hse : src.ring.videoParameterSets with
  | none => exact ht
  | some sets =>
    have hn : sets ≠ [] := by
      have hl : TrackHistory.current (src.histories .video 0) = some sets := by
        rw [← (hs.tracks .video 0 0 rfl).current]
        exact hse
      rintro rfl
      rw [TrackHistory.current, join_eq_some_iff] at hl
      exact hs.nonempty .video 0 (mem_of_getLast? hl)
    exact (ht.setVideoParameterSets hn (by rw [hf]; decide)).1

open RecirculationRun

/-- In every run of the audio router and of a recirculated input whose packets meet the
condition when they are handled, the target gives each republished video packet the
configuration its source gave. -/
theorem republished_config_agrees {sourceCapacity targetCapacity : Nat}
    (hsource : 0 < sourceCapacity) (htarget : 0 < targetCapacity)
    (hbatch : mediaProducerBatchPackets < targetCapacity) (ops : List ConfigOp) :
    (∀ routing tracks r, Reachable (RouterRun.step routing) RouterRun.Meets
        (RouterRun.start ((LookupRun.start sourceCapacity hsource).run ops)
          (.new targetCapacity htarget) tracks) r →
      ∀ o ∈ r.follow.observed, o.Agrees) ∧
    (∀ input r, Reachable RecirculationRun.step RecirculationRun.Meets
        (RecirculationRun.start ((LookupRun.start sourceCapacity hsource).run ops)
          (.new targetCapacity htarget) input) r →
      ∀ o ∈ r.follow.observed, o.Agrees) := by
  have hinv := (LookupRun.Inv.start hsource).run ops
  have hnew := FollowTarget.new htarget hbatch
  refine ⟨fun routing tracks r hrun => ?_, fun input r hrun => ?_⟩
  · have h : r.follow.Inv sourceCapacity := hrun.invariant (fun r => r.follow.Inv sourceCapacity)
      (fun _ _ _ h hmeets hstep => RouterRun.step_inv h hmeets hstep)
        (RouterRun.start_inv hinv hnew rfl tracks)
    exact h.observed
  · have h : r.follow.Inv sourceCapacity := hrun.invariant (fun r => r.follow.Inv sourceCapacity)
      (fun _ _ _ h hmeets hstep => RecirculationRun.step_inv h hmeets hstep)
      ⟨hinv, hnew, .inl rfl, by rintro _ ⟨⟩, by rintro _ ⟨⟩⟩
    exact h.observed

def idleInput (state : InputForwardState) : IngestInput := .new ⟨state.code⟩ 0

/-- A source with a new configuration before its second packet, routed and recirculated. -/
theorem republished_config_agrees_change :
    let source := (LookupRun.start 64 (by decide)).run [.setTrackConfig .video 0 [1],
      .push (.raw .video true 0),
      .setTrackConfig .video 0 [2], .push (.raw .video true 40)];
    let target := RingBuffer.new 64 (by decide);
    (∃ r, Reachable (step (.selectTracks [0])) Meets
      (start source target none) r ∧
      r.follow.observed.map Observed.lookup = [.ok (some ⟨2, [1]⟩), .ok (some ⟨3, [2]⟩)] ∧
      ∀ o ∈ r.follow.observed, o.Agrees) ∧
    (∃ r, Reachable step Meets
        (start source target (idleInput .active)) r ∧
      r.follow.observed.map Observed.lookup = [.ok (some ⟨1, [1]⟩), .ok (some ⟨2, [2]⟩)] ∧
      ∀ o ∈ r.follow.observed, o.Agrees) := by
  intro source target
  obtain ⟨hrouter, hrecirculation⟩ :=
    republished_config_agrees (show 0 < 64 by decide) (show 0 < 64 by decide)
    (by decide) [.setTrackConfig .video 0 [1], .push (.raw .video true 0),
      .setTrackConfig .video 0 [2],
      .push (.raw .video true 40)]
  exact ⟨exists_reachable_and
      [.pull 0 [.raw .video true 0, .raw .video true 40], .route none, .route none, .publish]
      (by decide +kernel) fun r hr _ => hrouter _ _ r hr,
    exists_reachable_and
      [.publish 0 [.raw .video true 0, .raw .video true 40] .active 0, .queue, .queue, .finish]
      (by decide +kernel) fun r hr _ => hrecirculation _ r hr⟩

/-- A promoted input replays a keyframe with a configuration, after a call that ends with
an audio packet: the follower reads the generation of the audio track and copies nothing. -/
theorem promoted_video_without_config : ∃ r, Reachable RecirculationRun.step anyLabel
        (RecirculationRun.start ((LookupRun.start 64 (by decide)).run
            [.setTrackConfig .video 0 [1], .push (.raw .video true 0), .push (.raw .audio false 10)])
          (.new 64 (by decide)) (idleInput .awaitingKeyframe)) r ∧
      r.follow.observed = [⟨⟨0, .raw .video true 0, .ok (some ⟨1, [1]⟩)⟩, .ok none⟩,
        ⟨⟨1, .raw .audio false 10, .ok none⟩, .ok none⟩] ∧
      ¬∀ o ∈ r.follow.observed, o.Agrees := by
  refine exists_reachable_and
    [.publish 0 [.raw .video true 0, .raw .audio false 10] .awaitingKeyframe i64Min]
      (by decide +kernel)
    fun r _ hobserved hagree => ?_
  rw [hobserved] at hagree
  obtain ⟨found, hfound, hbytes⟩ := hagree _ mem_cons_self rfl _ rfl
  cases hfound
  cases hbytes

end Restream
