import Restream.RtmpRun
import Mathlib.Data.List.Chain

/-! The timestamps of an RTMP output, compared as serial numbers: each type's
messages go forward while its clock fits 32 bits. -/

namespace Restream.Rtmp

open Exec List Option RtmpTimestampGuard RtmpMediaAction

/-- The order of RTMP timestamps: of two that differ by `2^31` or more the
greater value is the earlier time. -/
def compareTimestamps (a b : UInt32) : Ordering :=
  let difference := max a.toNat b.toNat - min a.toNat b.toNat
  if difference ≤ 2147483647 then compare a.toNat b.toNat else compare b.toNat a.toNat

variable {a b : UInt32} {slot time : Int} {sent : List Stamp}

theorem compareTimestamps_self : compareTimestamps a a = .eq := by
  simp [compareTimestamps]

/-- The timestamp of a message, and whether the message is a sequence header. -/
abbrev Stamp := UInt32 × Bool

def Follows (previous next : Stamp) : Prop :=
  compareTimestamps previous.1 next.1 ≠ .gt ∧
    (next.2 = false → compareTimestamps previous.1 next.1 = .lt)

theorem follows_of_le (hle : a.toNat ≤ b.toNat) (hd : b.toNat < a.toNat + 2 ^ 31)
    (hlt : hdr = false → a.toNat < b.toNat) (isHeader : Bool) : Follows (a, isHeader) (b, hdr) := by
  rcases Nat.eq_or_lt_of_le hle with heq | h
  · obtain rfl := UInt32.toNat_inj.mp heq
    refine ⟨by simp [compareTimestamps_self], fun hf => ?_⟩
    exact absurd (hlt hf) (Nat.lt_irrefl _)
  · have hcmp : compareTimestamps a b = .lt := by
      rw [compareTimestamps, if_pos (by omega), Nat.compare_eq_lt]
      exact h
    exact ⟨by simp [hcmp], fun _ => hcmp⟩

def stamps (mediaType : MediaType) (sent : List RtmpMediaAction) : List Stamp :=
  (sent.filter (·.mediaType = mediaType)).map fun a => (a.timestamp, a.sequenceHeader?.isSome)

def clocks (mediaType : MediaType) (packets : List MediaPacket) : List Int :=
  (packets.filter (·.mediaType = mediaType)).map clock

structure Advanced (slot : Int) (sent : List Stamp) : Prop where
  order : sent.IsChain Follows
  last : ∀ a ∈ sent.getLast?, (a.1.toNat : Int) ≤ slot

theorem Advanced.mono (h : Advanced slot sent) (hle : slot ≤ slot') : Advanced slot' sent :=
  ⟨h.order, fun a ha => (h.last a ha).trans hle⟩

theorem Advanced.push (h : Advanced slot sent) (hs : slot ≤ ts.toNat)
    (hlt : hdr = false → ∀ a ∈ sent.getLast?, a.1.toNat < ts.toNat)
    (hr : ∀ a ∈ sent.getLast?, ts.toNat < a.1.toNat + 2 ^ 31) :
    Advanced ts.toNat (sent ++ [(ts, hdr)]) := by
  refine ⟨?_, ?_⟩
  · rw [isChain_append]
    refine ⟨h.order, .singleton _, ?_⟩
    intro a ha b hb
    obtain rfl : (ts, hdr) = b := by simpa using hb
    have hle := h.last a ha
    exact follows_of_le (by omega) (hr a ha) (fun hf => hlt hf a ha) a.2
  · intro a ha
    obtain rfl : (ts, hdr) = a := by simpa using ha
    exact Int.le_refl _

structure Clocked (slot : Int) (times : List Int) (sent : List Stamp) : Prop where
  advanced : Advanced slot sent
  fresh : times = [] → slot = i64Min ∧ sent = []
  following : ∀ time ∈ times.getLast?, 0 ≤ slot ∧ slot ≤ time + 1

def TicksAfter : Option Int → Int → Prop
  | none, time => 0 ≤ time ∧ time < 2 ^ 32
  | some last, time => last + 1 ≤ time ∧ time ≤ last + (2 ^ 31 - 1)

instance : (last : Option Int) → (time : Int) → Decidable (TicksAfter last time)
  | none, _ => inferInstanceAs (Decidable (_ ∧ _))
  | some _, _ => inferInstanceAs (Decidable (_ ∧ _))

def Ticks (times : List Int) (time : Int) : Prop := TicksAfter times.getLast? time

instance (times : List Int) (time : Int) : Decidable (Ticks times time) :=
  inferInstanceAs (Decidable (TicksAfter _ _))

/-- The last timestamp given out is below the largest, and neither the time nor the
timestamp behind the last one is `2^31` or more after the last one sent. -/
def WithinReach (slot : Int) (sent : List Stamp) (time : Int) : Prop :=
  slot < u32Max ∧ ∀ a ∈ sent.getLast?, max time (slot + 1) < a.1.toNat + 2 ^ 31

instance (slot : Int) (sent : List Stamp) (time : Int) :
    Decidable (WithinReach slot sent time) := by
  unfold WithinReach
  exact @instDecidableAnd _ _ _ (Option.decidableForallMem _)

theorem Ticks.nonneg (h : Ticks times time) (hc : Clocked slot times sent) : 0 ≤ time := by
  unfold Ticks at h
  cases hl : times.getLast? with
  | none =>
    rw [hl] at h
    exact h.1
  | some last =>
    rw [hl, TicksAfter] at h
    have hf := hc.following last (by rw [hl]; rfl)
    omega

namespace RtmpTimestampGuard

variable {g : RtmpTimestampGuard} {mediaType : MediaType} {sent : List Stamp}

theorem slot_setSlot :
    (g.setSlot mediaType ms).slot other = if other = mediaType then ms else g.slot other := by
  cases mediaType <;> cases other <;> rfl

theorem enforced_bounds (hc : Clocked (g.slot mediaType) times sent) (ht : Ticks times time)
    (hr : WithinReach (g.slot mediaType) sent time) :
    g.slot mediaType < g.enforced mediaType time ∧ 0 ≤ g.enforced mediaType time ∧
      g.enforced mediaType time ≤ u32Max ∧ g.enforced mediaType time ≤ time + 1 ∧
      g.enforced mediaType time ≤ max time (g.slot mediaType + 1) := by
  have hmax := hr.1
  have hs : g.slot mediaType = i64Min ∧ 0 ≤ time ∨
      0 ≤ g.slot mediaType ∧ g.slot mediaType ≤ time := by
    unfold Ticks at ht
    cases hl : times.getLast? with
    | none =>
      rw [hl] at ht
      exact .inl ⟨(hc.fresh (getLast?_eq_none_iff.mp hl)).1, ht.1⟩
    | some last =>
      rw [hl, TicksAfter] at ht
      have hf := hc.following last (by rw [hl]; rfl)
      exact .inr ⟨hf.1, by omega⟩
  simp only [enforced, saturate, i64Min, i64Max, u32Max] at hs hmax ⊢
  by_cases hcl : max 0 (min (2 ^ 32 - 1) time) ≤ g.slot mediaType <;> omega

end RtmpTimestampGuard

theorem toNat_timestampOf (h : 0 ≤ ms) (hmax : ms ≤ u32Max) :
    ((timestampOf ms).toNat : Int) = ms := by
  simp only [u32Max] at hmax
  rw [timestampOf, UInt32.toNat_ofNat']
  omega

theorem Clocked.tick (ha : Advanced slot sent) (h0 : 0 ≤ slot) (hti : slot ≤ time + 1)
    (times : List Int) : Clocked slot (times ++ [time]) sent where
  advanced := ha
  fresh h := by simp at h
  following t ht := by
    obtain rfl : time = t := by simpa using ht
    exact ⟨h0, hti⟩

namespace RtmpMediaEncoder

variable {e e' : RtmpMediaEncoder} {pkt : MediaPacket} {sent : List Stamp}

theorem slot_stamped (e : RtmpMediaEncoder) (pkt : MediaPacket)
    (ready : Bool) (mediaType : MediaType) :
    (e.stamped pkt ready).timestampGuard.slot mediaType =
      if mediaType = pkt.mediaType then e.timestampGuard.enforced pkt.mediaType (clock pkt)
        else e.timestampGuard.slot mediaType :=
  slot_setSlot

theorem mediaType_message : (message pkt ts pay).mediaType = pkt.mediaType := by
  unfold message
  split <;> simp [frame, mediaType, *]

theorem Encoded.mediaType (h : e.Encoded pkt vc (e', acts)) :
    ∀ a ∈ acts, a.mediaType = pkt.mediaType := by
  cases h with
  | held ready hk => simp
  | sent ready hk ho => simp [mediaType_message]
  | refreshed hv hraw hu =>
    intro a ha
    rcases mem_cons.mp ha with rfl | ha
    · exact hv.symm
    · obtain ⟨pay, -, rfl⟩ := mem_map.mp ha
      exact mediaType_message

theorem stamps_message :
    stamps pkt.mediaType [message pkt ts pay] =
      [(ts, (message pkt ts pay).sequenceHeader?.isSome)] := by
  have ht : (message pkt ts pay).timestamp = ts := by
    unfold message
    split <;> rfl
  simp [stamps, mediaType_message, ht]

theorem stamps_refreshed {hdr : List UInt8} (hu : e.unannounced vc = some (gen, hdr))
    (hv : pkt.mediaType = .video) :
    stamps pkt.mediaType (.video hdr first false :: frames) =
      (first, true) :: stamps pkt.mediaType frames := by
  have hc : classifyFlvVideoPacket hdr = some .sequenceHeader := by
    cases vc with
    | none => cases hu
    | some c =>
      simp only [unannounced, ite_none_left_eq_some, map_eq_some_iff] at hu
      obtain ⟨-, h, hh, heq⟩ := hu
      obtain ⟨-, rfl⟩ := Prod.mk.inj heq
      exact classify_videoSequenceHeader hh
  simp [stamps, mediaType, hv, sequenceHeader?, hc, timestamp]

theorem toNat_refreshed (h : ts ≠ 0) :
    (refreshedVideoSequenceHeaderTimestamp ts).toNat + 1 = ts.toNat := by
  have hpos : ts.toNat ≠ 0 := fun h0 => h (UInt32.toNat_inj.mp h0)
  have hlt := ts.toNat_lt
  simp only [refreshedVideoSequenceHeaderTimestamp, h, if_false, UInt32.toNat_sub]
  have h1 : (1 : UInt32).toNat = 1 := rfl
  omega

theorem afterHeader_pos (guard : RtmpTimestampGuard) (h : ts ≠ 0) :
    afterHeader guard ts = (guard, ts) := by
  have hne : refreshedVideoSequenceHeaderTimestamp ts ≠ ts := by
    intro heq
    have hp := toNat_refreshed h
    rw [heq] at hp
    omega
  simp only [afterHeader, hne, if_false]

theorem afterHeader_zero {guard : RtmpTimestampGuard} (h : guard.slot .video = 0) :
    afterHeader guard 0 = (guard.setSlot .video 1, 1) := by
  have he : guard.enforced .video 0 = 1 := by
    simp [enforced, h, u32Max, saturate, i64Min, i64Max]
  simp [afterHeader, refreshedVideoSequenceHeaderTimestamp, enforceMs, he, timestampOf]

theorem advanced_frames (h : Advanced slot sent) (hs : slot ≤ ts.toNat)
    (hlt : ∀ a ∈ sent.getLast?, a.1.toNat < ts.toNat)
    (hr : ∀ a ∈ sent.getLast?, ts.toNat < a.1.toNat + 2 ^ 31) :
    Advanced ts.toNat (sent ++
      stamps pkt.mediaType ((e.output pkt).toList.map (message pkt ts))) := by
  cases e.output pkt with
  | none => simpa [stamps] using h.mono hs
  | some pay =>
    simp only [toList_some, map_cons, map_nil, stamps_message]
    exact h.push hs (fun _ => hlt) hr

theorem afterHeader_spec (hc : Clocked (e.timestampGuard.slot .video) times sent)
    (hlt : e.timestampGuard.slot .video < (e.stamp pkt).toNat)
    (hg : (e.timestampGuard.packetTimestamp pkt).1.slot .video = (e.stamp pkt).toNat)
    (ht : ((e.stamp pkt).toNat : Int) ≤ clock pkt + 1) (hcl : 0 ≤ clock pkt)
    (hl : ∀ a ∈ sent.getLast?, (e.stamp pkt).toNat < a.1.toNat + 2 ^ 31) :
    ∃ guard ts, afterHeader (e.timestampGuard.packetTimestamp pkt).1 (e.stamp pkt) = (guard, ts) ∧
      (refreshedVideoSequenceHeaderTimestamp (e.stamp pkt)).toNat + 1 = ts.toNat ∧
      guard.slot .video = ts.toNat ∧ e.timestampGuard.slot .video < ts.toNat ∧
      (ts.toNat : Int) ≤ clock pkt + 1 ∧
      ∀ a ∈ sent.getLast?, ts.toNat < a.1.toNat + 2 ^ 31 := by
  by_cases hz : e.stamp pkt = 0
  · rw [hz] at hg hlt ⊢
    have he : times = [] := by
      by_contra hne
      have hf := hc.following _ (getLast?_eq_some_getLast hne)
      have h0 : (0 : UInt32).toNat = 0 := rfl
      omega
    refine ⟨_, 1, afterHeader_zero hg, rfl, ?_, ?_, ?_, ?_⟩
    · rfl
    · have h0 : (0 : UInt32).toNat = 0 := rfl
      omega
    · have h1 : (1 : UInt32).toNat = 1 := rfl
      omega
    · rw [(hc.fresh he).2]
      rintro _ ⟨⟩
  · exact ⟨_, _, afterHeader_pos _ hz, toNat_refreshed hz, hg, hlt, ht, hl⟩

theorem Encoded.clocked (h : e.Encoded pkt vc (e', acts))
    (hc : Clocked (e.timestampGuard.slot pkt.mediaType) times sent)
    (ht : Ticks times (clock pkt))
    (hr : WithinReach (e.timestampGuard.slot pkt.mediaType) sent (clock pkt)) :
    Clocked (e'.timestampGuard.slot pkt.mediaType) (times ++ [clock pkt])
      (sent ++ stamps pkt.mediaType acts) := by
  obtain ⟨hlt, h0, hmax, hti, hnext⟩ := enforced_bounds hc ht hr
  have hs : ((e.stamp pkt).toNat : Int) =
      e.timestampGuard.enforced pkt.mediaType (clock pkt) := toNat_timestampOf h0 hmax
  have hl : ∀ a ∈ sent.getLast?, a.1.toNat < (e.stamp pkt).toNat ∧
      (e.stamp pkt).toNat < a.1.toNat + 2 ^ 31 := by
    intro a ha
    have hle := hc.advanced.last a ha
    have hw := hr.2 a ha
    omega
  cases h with
  | held ready hk =>
    rw [slot_stamped]
    simpa [stamps] using Clocked.tick (hc.advanced.mono hlt.le) h0 hti times
  | sent ready hk ho =>
    have hf : Advanced (e.stamp pkt).toNat (sent ++ stamps pkt.mediaType
        ((e.output pkt).toList.map (message pkt (e.stamp pkt)))) :=
      advanced_frames hc.advanced (by omega) (fun a ha => (hl a ha).1) (fun a ha => (hl a ha).2)
    rw [ho] at hf
    rw [slot_stamped, if_pos rfl, ← hs]
    exact Clocked.tick hf (by omega) (by omega) times
  | refreshed hv hraw hu =>
    have hg : (e.timestampGuard.packetTimestamp pkt).1.slot pkt.mediaType =
        (e.stamp pkt).toNat := by
      rw [hs]
      exact (slot_setSlot).trans (if_pos rfl)
    have hcl : 0 ≤ clock pkt := ht.nonneg hc
    have hsp := afterHeader_spec (hv ▸ hc) (by rw [← hv]; omega) (hv ▸ hg)
      (by omega) hcl (fun a ha => (hl a ha).2)
    obtain ⟨guard, ts, haf, hp, hsl, hlt', ht', hl'⟩ := hsp
    rw [← hv] at hsl hlt'
    have hh : Advanced (refreshedVideoSequenceHeaderTimestamp (e.stamp pkt)).toNat
        (sent ++ [(refreshedVideoSequenceHeaderTimestamp (e.stamp pkt), true)]) := by
      refine hc.advanced.push (by omega) (by simp) ?_
      intro a ha
      have hr := hl' a ha
      omega
    have hf : Advanced ts.toNat (sent ++
        [(refreshedVideoSequenceHeaderTimestamp (e.stamp pkt), true)] ++ stamps pkt.mediaType
          ((e.output pkt).toList.map (message pkt ts))) := by
      refine advanced_frames hh (by omega) ?_ ?_ <;>
        simp only [getLast?_concat, mem_some_iff, forall_eq'] <;> omega
    rw [stamps_refreshed hu hv, haf, hsl]
    simpa using Clocked.tick hf (by omega) ht' times

theorem Encoded.slot_other (h : e.Encoded pkt vc (e', acts)) {mediaType : MediaType}
    (ho : mediaType ≠ pkt.mediaType) :
    e'.timestampGuard.slot mediaType = e.timestampGuard.slot mediaType := by
  have hp : (e.timestampGuard.packetTimestamp pkt).1.slot mediaType =
      e.timestampGuard.slot mediaType :=
    (slot_setSlot).trans (if_neg ho)
  cases h with
  | held | sent => exact hp
  | refreshed hv hraw hu =>
    rw [← hp]
    simp only [afterHeader]
    split
    · rw [hv] at ho
      exact (slot_setSlot).trans (if_neg ho)
    · rfl

end RtmpMediaEncoder

namespace EncoderRun

def Steady (r : EncoderRun) : EncoderEvent → Prop
  | .encode packet _ => Ticks (clocks packet.mediaType r.encoded) (clock packet)
  | .setStartupVideoGeneration _ => True

def FitsClock (r : EncoderRun) : EncoderEvent → Prop
  | .encode packet _ =>
    WithinReach (r.encoder.timestampGuard.slot packet.mediaType) (stamps packet.mediaType r.sent)
      (clock packet)
  | .setStartupVideoGeneration _ => True

instance (r : EncoderRun) (event : EncoderEvent) : Decidable (Steady r event) := by
  unfold Steady
  split <;> infer_instance

instance (r : EncoderRun) (event : EncoderEvent) : Decidable (FitsClock r event) := by
  unfold FitsClock
  split <;> infer_instance

def ClockInv (r : EncoderRun) : Prop :=
  ∀ mediaType, Clocked (r.encoder.timestampGuard.slot mediaType) (clocks mediaType r.encoded)
    (stamps mediaType r.sent)

theorem start_clockInv (hevc : Bool) (startupHeader : Option (List UInt8)) :
    (start hevc startupHeader).ClockInv := by
  intro mediaType
  refine ⟨⟨.nil, by rintro _ ⟨⟩⟩, fun _ => ⟨?_, rfl⟩, by rintro _ ⟨⟩⟩
  cases mediaType <;> rfl

theorem ClockInv.step (hinv : r.ClockInv) (hg : Steady r event ∧ FitsClock r event)
    (hs : r.step event = some t) : t.ClockInv := by
  cases event with
  | encode pkt vc =>
    obtain ⟨enc, acts, h, rfl⟩ := step_encode hs
    intro mediaType
    simp only [clocks, stamps, filter_append, map_append]
    by_cases hm : mediaType = pkt.mediaType
    · subst hm
      simpa [clocks, stamps] using h.clocked (hinv pkt.mediaType) hg.1 hg.2
    · have hn : acts.filter (·.mediaType = mediaType) = [] := by
        rw [filter_eq_nil_iff]
        intro a ha
        simpa [h.mediaType a ha] using Ne.symm hm
      have hc : [pkt].filter (·.mediaType = mediaType) = [] := by
        simpa using Ne.symm hm
      rw [hn, hc, h.slot_other hm]
      simpa [clocks, stamps] using hinv mediaType
  | setStartupVideoGeneration gen =>
    cases hs
    exact hinv

/-- The messages of each type go forward on the wire. -/
theorem output_clock_advances (enhancedHevc : Bool) (startupHeader : Option (List UInt8))
    {r : EncoderRun}
    (hrun : Reachable step (fun r e => Steady r e ∧
      FitsClock r e) (start enhancedHevc startupHeader) r)
    (mediaType : MediaType) : (stamps mediaType r.sent).IsChain Follows :=
  (hrun.invariant ClockInv (fun _ _ _ hinv hguard hstep => hinv.step hguard hstep)
    (start_clockInv enhancedHevc startupHeader) mediaType).advanced.order

end EncoderRun

section Runs

def exampleAudio (pts : Int) : MediaPacket :=
  { MediaPacket.raw .audio false pts with format := .flv, payload := [0xAF, 1, 0x21] }

theorem output_clock_advances_audio : ∃ r,
    Reachable EncoderRun.step (fun r e => EncoderRun.Steady r e ∧ EncoderRun.FitsClock r e)
      (.start false none) r ∧
    stamps .audio r.sent = [(0, false), (23, false)] ∧ (stamps .audio r.sent).IsChain Follows :=
  exists_reachable_and [.encode (exampleAudio 0) none, .encode (exampleAudio 23) none]
    (by decide +kernel) fun _ hr _ => EncoderRun.output_clock_advances false none hr .audio

/-- Two audio packets one millisecond apart, the second at `2^32`: both go out
at the largest timestamp. -/
theorem clock_stops_at_largest_timestamp : ∃ r,
    Reachable EncoderRun.step EncoderRun.Steady (.start false none) r ∧
    stamps .audio r.sent = [(4294967295, false), (4294967295, false)] ∧
    ¬(stamps .audio r.sent).IsChain Follows := by
  refine exists_reachable_and
    [.encode (exampleAudio 4294967295) none, .encode (exampleAudio 4294967296) none]
    (by decide +kernel) fun r _ hsent => ?_
  rw [hsent, List.isChain_pair, Follows]
  decide

end Runs

end Restream.Rtmp
