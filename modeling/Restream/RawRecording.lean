import Restream.ParameterSets
import Restream.RingRecording
import Restream.RtmpHeaders

/-! From a Raw input to an RTMP output: access units are published with their in-band
configurations recorded, and the configuration of the generation a packet is stamped
with builds a header that holds the parameter sets in force. -/

namespace Restream.Rtmp

open Codec Exec

structure RawRun where
  ring : RingBuffer
  published : List MediaPacket
  output : EncoderRun
  cursor : Nat

inductive RawEvent where
  | publish (packets : List MediaPacket)
  | read

namespace RawRun

def start (capacity : Nat) (h : 0 < capacity) (enhancedHevc : Bool) : RawRun :=
  { ring := .new capacity h, published := [], output := .start enhancedHevc none, cursor := 0 }

def configFor (r : RawRun) (packet : MediaPacket) : Option (Option TrackConfig) :=
  if packet.isKeyframe then
    match r.ring.trackConfigAt r.cursor packet.mediaType packet.trackIndex with
    | .ok config => some config
    | .error _ => none
  else some none

def step (r : RawRun) : RawEvent → Option RawRun
  | .publish packets =>
    some { r with
      ring := r.ring.pushDrainedBatchRecordingConfig packets
      published := r.published ++ packets }
  | .read =>
    if r.cursor < r.ring.writeIdx ∧ r.ring.writeIdx - r.cursor < r.ring.capacity then do
      let packet ← r.ring.readAt r.cursor
      let config ← r.configFor packet
      let output ← r.output.step (.encode packet config)
      return { r with output := output, cursor := r.cursor + 1 }
    else none

end RawRun

def IsAccessUnit (packet : MediaPacket) : Prop :=
  packet.mediaType = .video ∧ packet.format = .raw ∧ packet.trackIndex = 0

variable (enhancedHevc : Bool)

def IsConfigured (packet : MediaPacket) : Prop :=
  packet.isKeyframe = true ∧ OneOfEach enhancedHevc (splitAnnexbNalus packet.payload) ∧
    ¬ExceedsRecord enhancedHevc packet.payload

instance (packet : MediaPacket) : Decidable (IsConfigured enhancedHevc packet) :=
  inferInstanceAs (Decidable (_ ∧ _ ∧ _))

def inForceAfter (sets : List Nalu) (packet : MediaPacket) : List Nalu :=
  if IsConfigured enhancedHevc packet then carriedSets enhancedHevc packet.payload
  else if ∀ n ∈ carriedSets enhancedHevc packet.payload, n ∈ sets then sets
  else []

def inForce (published : List MediaPacket) : List Nalu :=
  published.foldl (inForceAfter enhancedHevc) []

/-- The access unit brings no parameter sets but those in force, or is a
keyframe with a full set, or has more than a record can hold. -/
def Announceable (published : List MediaPacket) (packet : MediaPacket) : Prop :=
  (∀ n ∈ carriedSets enhancedHevc packet.payload, n ∈ inForce enhancedHevc published) ∨
    IsConfigured enhancedHevc packet ∨ ExceedsRecord enhancedHevc packet.payload

instance (published : List MediaPacket) (packet : MediaPacket) :
    Decidable (Announceable enhancedHevc published packet) :=
  inferInstanceAs (Decidable (_ ∨ _ ∨ _))

def AllAnnounceable : List MediaPacket → List MediaPacket → Prop
  | _, [] => True
  | published, packet :: packets => Announceable enhancedHevc published packet ∧
    AllAnnounceable (published ++ [packet]) packets

def owed (packet : MediaPacket) : List Nalu :=
  if ExceedsRecord enhancedHevc packet.payload then [] else carriedSets enhancedHevc packet.payload

def gopKeyframe (packets : List MediaPacket) : Option MediaPacket :=
  (packets.filter (·.isKeyframe)).getLast?

def InHeader (sets : List Nalu) (header : Option (List UInt8)) : Prop :=
  ∀ n ∈ sets, ∃ h, header = some h ∧ n <:+: h

variable {enhancedHevc}

theorem inForce_concat :
    inForce enhancedHevc (published ++ [packet]) =
      inForceAfter enhancedHevc (inForce enhancedHevc published) packet := by
  simp [inForce, List.foldl_append]

theorem mem_carriedSets : n ∈ carriedSets enhancedHevc pay ↔ ∃ m ∈ splitAnnexbNalus pay,
      isParameterSet enhancedHevc m = true ∧ dropTrailingZeros m = n := by
  simp [carriedSets, and_assoc]

theorem owed_subset (h : Announceable enhancedHevc published packet)
    (hn : n ∈ owed enhancedHevc packet) : n ∈ inForce enhancedHevc (published ++ [packet]) := by
  unfold owed at hn
  split at hn
  · cases hn
  · next hf =>
    rw [inForce_concat, inForceAfter]
    split
    · exact hn
    · next hc =>
      rcases h with h | h | h
      · rw [if_pos h]
        exact h n hn
      · exact absurd h hc
      · exact absurd h hf

theorem nalType_of_isParameterSet (h : isParameterSet enhancedHevc n = true) :
    ∃ t ∈ setTypes enhancedHevc, nalType enhancedHevc n = some t := by
  unfold isParameterSet at h
  cases ht : nalType enhancedHevc n with
  | none => simp [ht] at h
  | some t =>
    rw [ht] at h
    exact ⟨t, of_decide_eq_true h, rfl⟩

theorem nalType_strip (h : OneOfEach enhancedHevc nalus) (hn : n ∈ nalus)
    (hset : isParameterSet enhancedHevc n = true) :
    nalType enhancedHevc (dropTrailingZeros n) = nalType enhancedHevc n := by
  obtain ⟨t, ht, hty⟩ := nalType_of_isParameterSet hset
  rw [hty]
  cases enhancedHevc with
  | false =>
    refine h264NalType_strip hty ?_
    rintro rfl
    exact absurd ht (by decide)
  | true =>
    have hb := h.base n hn
    rw [hset] at hb
    refine (baseLayerNalType_eq (baseLayerNalType_of_base hty hb) ?_).2
    rintro rfl
    exact absurd ht (by decide)

variable (enhancedHevc) in
structure Single (sets : List Nalu) : Prop where
  typed : ∀ n ∈ sets, ∃ t ∈ setTypes enhancedHevc, nalType enhancedHevc n = some t
  unique : ∀ a ∈ sets, ∀ b ∈ sets, nalType enhancedHevc a = nalType enhancedHevc b → a = b

theorem OneOfEach.carried_single (h : OneOfEach enhancedHevc (splitAnnexbNalus pay)) :
    Single enhancedHevc (carriedSets enhancedHevc pay) where
  typed n hn := by
    obtain ⟨m, hm, hset, rfl⟩ := mem_carriedSets.mp hn
    rw [nalType_strip h hm hset]
    exact nalType_of_isParameterSet hset
  unique a ha b hb hab := by
    obtain ⟨m, hm, hset, rfl⟩ := mem_carriedSets.mp ha
    obtain ⟨m', hm', hset', rfl⟩ := mem_carriedSets.mp hb
    rw [nalType_strip h hm hset, nalType_strip h hm' hset'] at hab
    exact h.single m hm m' hm' hset hab

theorem Single.nil : Single enhancedHevc [] := ⟨by simp, by simp⟩

variable (enhancedHevc) in
theorem inForce_single (published : List MediaPacket) :
    Single enhancedHevc (inForce enhancedHevc published) := by
  induction published using List.reverseRecOn with
  | nil => exact .nil
  | append_singleton published packet ih =>
    rw [inForce_concat, inForceAfter]
    split
    · next hc => exact OneOfEach.carried_single hc.2.1
    · split
      · exact ih
      · exact .nil

theorem recorded_holds (hse : annexbParameterSets packet.payload = some bs)
    (hh : videoSequenceHeader enhancedHevc bs = some hdr)
    (hn : n ∈ inForce enhancedHevc (published ++ [packet])) : n <:+: hdr := by
  rw [inForce_concat, inForceAfter] at hn
  split at hn
  · next hc =>
    obtain ⟨m, hm, hset, rfl⟩ := mem_carriedSets.mp hn
    obtain ⟨t, ht, hty⟩ := nalType_of_isParameterSet hset
    obtain ⟨u, hu, hut, -, hi⟩ := header_carries hse hh ht
    rw [hc.2.1.single m hm u hu hset (hty.trans hut.symm)]
    exact hi
  · split at hn
    · next hsub =>
      have hs := inForce_single enhancedHevc published
      obtain ⟨t, ht, hty⟩ := hs.typed n hn
      obtain ⟨u, hu, hut, hst, hi⟩ := header_carries hse hh ht
      have hmem := hsub _ (mem_carriedSets.mpr ⟨u, hu, isParameterSet_of_type ht hut, rfl⟩)
      rw [hs.unique n hn _ hmem (hty.trans hst.symm)]
      exact hi
    · cases hn

open List Option RingBuffer

def bytesOf (recorded : List (List UInt8)) (generation : UInt32) : List UInt8 :=
  (recorded[generation.toNat - 1]?).getD []

theorem bytesOf_append {rec : List (List UInt8)} (h : gen ≠ 0) (hle : gen.toNat ≤ rec.length)
    (more : List (List UInt8)) : bytesOf (rec ++ more) gen = bytesOf rec gen := by
  have hpos : gen.toNat ≠ 0 := fun h0 => h (UInt32.toNat_inj.mp h0)
  rw [bytesOf, bytesOf, getElem?_append_left (by omega)]

theorem bytesOf_last {rec : List (List UInt8)} (hl : rec.getLast? = some bs)
    (h : gen.toNat = rec.length) : gen ≠ 0 ∧ bytesOf rec gen = bs := by
  have hne : rec ≠ [] := by
    rintro rfl
    cases hl
  have hpos := length_pos_iff.mpr hne
  constructor
  · rintro rfl
    have h0 : (0 : UInt32).toNat = 0 := rfl
    omega
  · rw [getLast?_eq_getElem?] at hl
    rw [bytesOf, h, hl, getD_some]

variable (enhancedHevc) in
structure Holds (recorded : List (List UInt8)) (sets : List Nalu) (generation : UInt32) : Prop where
  le : generation.toNat ≤ recorded.length
  unset : generation = 0 → sets = []
  header : generation ≠ 0 → ∀ h, videoSequenceHeader enhancedHevc (bytesOf recorded generation) =
    some h →
    ∀ n ∈ sets, n <:+: h

variable (enhancedHevc) in
structure Entry (recorded : List (List UInt8)) (published : List MediaPacket) (packet : MediaPacket)
    (generation : UInt32) : Prop where
  holds : Holds enhancedHevc recorded (inForce enhancedHevc published) generation
  built : IsConfigured enhancedHevc packet → generation ≠ 0 ∧
    ∃ h, videoSequenceHeader enhancedHevc (bytesOf recorded generation) = some h

variable {rec more : List (List UInt8)}

theorem Holds.append (h : Holds enhancedHevc rec sets gen) (more : List (List UInt8)) :
    Holds enhancedHevc (rec ++ more) sets gen where
  le := by
    have hle := h.le
    rw [length_append]
    omega
  unset := h.unset
  header hne := by
    rw [bytesOf_append hne h.le]
    exact h.header hne

theorem Entry.append (h : Entry enhancedHevc rec pub pkt gen)
    (more : List (List UInt8)) : Entry enhancedHevc (rec ++ more) pub pkt gen where
  holds := h.holds.append more
  built hc := by
    obtain ⟨hne, hb⟩ := h.built hc
    rw [bytesOf_append hne h.holds.le]
    exact ⟨hne, hb⟩

theorem Holds.subset (h : Holds enhancedHevc rec sets gen) (hsub : ∀ n ∈ sets', n ∈ sets) :
    Holds enhancedHevc rec sets' gen where
  le := h.le
  unset hz := by
    rw [eq_nil_iff_forall_not_mem]
    intro n hn
    have hmem := hsub n hn
    rw [h.unset hz] at hmem
    cases hmem
  header hne header hheader n hn := h.header hne header hheader n (hsub n hn)

theorem inForce_subset (hc : ¬IsConfigured enhancedHevc pkt)
    (hn : n ∈ inForce enhancedHevc (pub ++ [pkt])) : n ∈ inForce enhancedHevc pub := by
  rw [inForce_concat, inForceAfter, if_neg hc] at hn
  split at hn
  · exact hn
  · cases hn

variable {ring : RingBuffer}

theorem record_entry (hu : IsAccessUnit pkt) (hr : ring.trackConfigs.Recorded rec)
    (hfew : rec.length + 1 < 2 ^ 32)
    (hnow : Holds enhancedHevc rec (inForce enhancedHevc pub)
      (ring.trackConfigs.generation .video 0)) :
    ∃ more, (ring.recordInBandConfig pkt).trackConfigs.Recorded (rec ++ more) ∧
      more.length ≤ 1 ∧ Entry enhancedHevc (rec ++ more) (pub ++ [pkt]) pkt
        ((ring.recordInBandConfig pkt).trackConfigs.generation .video 0) := by
  obtain ⟨hv, hraw, ht⟩ := hu
  cases hs : annexbParameterSets pkt.payload with
  | none =>
    have hri : ring.recordInBandConfig pkt = ring := by
      simp [recordInBandConfig, hs]
    have hc : ¬IsConfigured enhancedHevc pkt := by
      intro hc
      obtain ⟨bs, -, hb, -⟩ := hc.2.1.builds hc.2.2
      rw [hs] at hb
      cases hb
    rw [hri]
    refine ⟨[], ?_, by simp, ?_⟩
    · rw [append_nil]
      exact hr
    · rw [append_nil]
      exact ⟨hnow.subset fun n hn => inForce_subset hc hn, fun h => absurd h hc⟩
  | some bs =>
    have hri : (ring.recordInBandConfig pkt).trackConfigs =
        (ring.trackConfigs.set .video 0 bs).1 := by
      simp [recordInBandConfig, hv, hraw, ht, hs, setTrackConfig, annexbParameterSets_ne_nil hs]
    obtain ⟨more, hm, hlen, hl⟩ := hr.set bs hfew
    rw [hri]
    obtain ⟨hne, hb⟩ := bytesOf_last hl hm.generation
    refine ⟨more, hm, hlen, ⟨hm.generation.le, fun h => absurd h hne, ?_⟩, ?_⟩
    · rw [hb]
      intro _ hdr hh n hn
      exact recorded_holds hs hh hn
    · intro hc
      obtain ⟨bs', hdr, hb', hh⟩ := hc.2.1.builds hc.2.2
      rw [hs, Option.some.injEq] at hb'
      subst hb'
      rw [hb]
      exact ⟨hne, hdr, hh⟩

variable (enhancedHevc) in
structure Produced (ring : RingBuffer) (published : List MediaPacket)
    (log : List (MediaPacket × UInt32)) (recorded : List (List UInt8)) : Prop where
  stamped : Stamped ring log
  packets : log.map Prod.fst = published
  configs : ring.trackConfigs.Recorded recorded
  now : Holds enhancedHevc recorded (inForce enhancedHevc published)
    (ring.trackConfigs.generation .video 0)
  entry : ∀ s packet generation, log[s]? = some (packet, generation) →
    Entry enhancedHevc recorded (published.take (s + 1)) packet generation
  announceable : ∀ s packet, published[s]? = some packet →
    IsAccessUnit packet ∧ Announceable enhancedHevc (published.take s) packet

theorem Produced.length (h : Produced enhancedHevc ring pub log rec) :
    log.length = pub.length := by
  rw [← h.packets, length_map]

theorem Produced.publish (h : Produced enhancedHevc ring pub log rec)
    (hu : IsAccessUnit pkt) (hann : Announceable enhancedHevc pub pkt)
    (hfew : rec.length + 1 < 2 ^ 32) :
    ∃ log more, Produced enhancedHevc ((ring.recordInBandConfig pkt).storePacket pub.length pkt)
      (pub ++ [pkt]) log (rec ++ more) ∧ more.length ≤ 1 := by
  obtain ⟨more, hm, hlen, he⟩ := record_entry hu h.configs hfew h.now
  have hsto := (ring.recordInBandConfig pkt).storePacket_fields pub.length pkt
  have hst := (h.stamped.recordInBandConfig pkt).storePacket pkt
  rw [hu.1, hu.2.2, h.length] at hst
  refine ⟨_, more, ⟨hst, ?_, ?_, ?_, ?_, ?_⟩, hlen⟩
  · rw [map_append, h.packets]
    rfl
  · rw [hsto.2.2]
    exact hm
  · rw [hsto.2.2]
    exact he.holds
  · intro s q gen hs
    rcases List.getElem?_concat_cases hs with hold | ⟨rfl, heq⟩
    · have hlt := (List.getElem?_eq_some_iff.mp hold).1
      rw [List.take_append_of_le_length (by rw [← h.length]; omega)]
      exact (h.entry s q gen hold).append more
    · obtain ⟨rfl, rfl⟩ := Prod.mk.inj heq
      rw [h.length, take_of_length_le (by simp)]
      exact he
  · intro s q hs
    rcases List.getElem?_concat_cases hs with hold | ⟨rfl, rfl⟩
    · have hlt := (List.getElem?_eq_some_iff.mp hold).1
      rw [List.take_append_of_le_length hlt.le]
      exact h.announceable s q hold
    · rw [take_left]
      exact ⟨hu, hann⟩

theorem Produced.slots (ps : List MediaPacket) (h : Produced enhancedHevc ring pub log rec)
    (hu : ∀ p ∈ ps, IsAccessUnit p) (hann : AllAnnounceable enhancedHevc pub ps)
    (hfew : rec.length + ps.length < 2 ^ 32) :
    ∃ log more, Produced enhancedHevc (ring.recordSlots pub.length ps)
      (pub ++ ps) log (rec ++ more) ∧ more.length ≤ ps.length := by
  induction ps generalizing ring pub log rec with
  | nil => exact ⟨log, [], by simpa [recordSlots] using h, by simp⟩
  | cons pkt ps ih =>
    rw [length_cons] at hfew
    obtain ⟨log', more, h', hlen⟩ := h.publish (hu pkt (by simp)) hann.1 (by omega)
    obtain ⟨log'', more', h'', hlen'⟩ := ih h' (fun p hp => hu p (by simp [hp])) hann.2
      (by rw [length_append]; omega)
    refine ⟨log'', more ++ more', ?_, by simp only [length_append, length_cons]; omega⟩
    simpa [recordSlots] using h''

theorem Produced.batch (h : Produced enhancedHevc ring pub log rec)
    (hidx : ring.writeIdx = pub.length)
    (hu : ∀ p ∈ ps, IsAccessUnit p) (hann : AllAnnounceable enhancedHevc pub ps)
    (hfew : rec.length + ps.length < 2 ^ 32) :
    ∃ log more, Produced enhancedHevc (ring.pushBatchRecordingConfig ps)
      (pub ++ ps) log (rec ++ more) ∧ more.length ≤ ps.length := by
  obtain ⟨log', more, h', hlen⟩ := h.slots ps hu hann hfew
  rw [← hidx] at h'
  refine ⟨log', more, ?_, hlen⟩
  simp only [pushBatchRecordingConfig]
  split
  · exact { h' with }
  · exact h'

theorem allAnnounceable_append :
    AllAnnounceable enhancedHevc pub (ps ++ rest) ↔ AllAnnounceable enhancedHevc pub ps ∧
        AllAnnounceable enhancedHevc (pub ++ ps) rest := by
  induction ps generalizing pub with
  | nil => simp [AllAnnounceable]
  | cons pkt ps ih =>
    rw [cons_append, AllAnnounceable, AllAnnounceable, ih, and_assoc, append_assoc]
    rfl

theorem Produced.drain (fuel : Nat) (hf : ps.length ≤ fuel)
    (h : Produced enhancedHevc ring pub log rec)
    (hidx : ring.writeIdx = pub.length) (hu : ∀ p ∈ ps, IsAccessUnit p)
    (hann : AllAnnounceable enhancedHevc pub ps) (hfew : rec.length + ps.length < 2 ^ 32) :
    ∃ log more, Produced enhancedHevc (ring.drainRecordingConfig fuel ps) (pub ++ ps) log
        (rec ++ more) ∧
      (ring.drainRecordingConfig fuel ps).writeIdx = (pub ++ ps).length := by
  induction fuel generalizing ring pub log rec ps with
  | zero =>
    obtain rfl : ps = [] := length_eq_zero_iff.mp (by omega)
    rw [drainRecordingConfig]
    exact ⟨log, [], by simpa using h, by simpa using hidx⟩
  | succ fuel ih =>
    rw [drainRecordingConfig]
    by_cases hnil : ps = []
    · subst hnil
      exact ⟨log, [], by simpa using h, by simpa using hidx⟩
    rw [if_neg (by simpa using hnil)]
    have hs := List.take_append_drop mediaProducerBatchPackets ps
    have hlen := congrArg List.length hs
    rw [List.length_append] at hlen
    rw [← hs, allAnnounceable_append] at hann
    have hd : (ps.drop mediaProducerBatchPackets).length ≤ fuel := by
      rw [length_drop, mediaProducerBatchPackets]
      omega
    obtain ⟨log', more, h', hm⟩ := h.batch hidx (fun p hp => hu p (mem_of_mem_take hp))
      hann.1 (by omega)
    have hidx' := ring.pushBatchRecordingConfig_writeIdx (ps.take mediaProducerBatchPackets)
    obtain ⟨log'', more', h'', hidx''⟩ := ih hd h'
      (by rw [hidx', hidx, length_append]) (fun p hp => hu p (mem_of_mem_drop hp)) hann.2
      (by rw [length_append]; omega)
    rw [append_assoc, hs] at h'' hidx''
    exact ⟨log'', more ++ more', by rwa [← append_assoc], hidx''⟩

end Restream.Rtmp
