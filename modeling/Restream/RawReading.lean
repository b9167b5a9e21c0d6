import Restream.RawRecording

/-! What an RTMP output reads of a Raw input: the last sequence header it sent
holds the parameter sets of the access unit and of its keyframe. -/

namespace Restream.Rtmp

open Codec Exec List Option EncoderRun

variable {enhancedHevc : Bool}

namespace RawRun

variable {r t : RawRun}

theorem step_read (h : r.step .read = some t) : ∃ packet cfg enc acts,
    r.cursor < r.ring.writeIdx ∧ r.ring.writeIdx - r.cursor < r.ring.capacity ∧
      r.ring.readAt r.cursor = some packet ∧ r.configFor packet = some cfg ∧
      r.output.encoder.Encoded packet cfg (enc, acts) ∧
      t = { r with
        output := { r.output with
          encoder := enc, encoded := r.output.encoded ++ [packet], sent := r.output.sent ++ acts }
        cursor := r.cursor + 1 } := by
  simp only [step, ite_none_right_eq_some, bind, bind_eq_some_iff] at h
  obtain ⟨⟨hlt, hret⟩, packet, hp, cfg, hc, o, ho, ht⟩ := h
  obtain ⟨enc, acts, henc, rfl⟩ := step_encode ho
  exact ⟨packet, cfg, enc, acts, hlt, hret, hp, hc, henc, (Option.some.inj ht).symm⟩

variable (enhancedHevc) in
/-- The reader's side of a run: the last header holds what is in force and what
the keyframe of the current group of pictures owed. -/
structure Inv (r : RawRun) (log : List (MediaPacket × UInt32)) (recorded : List (List UInt8)) :
    Prop where
  produced : Produced enhancedHevc r.ring r.published log recorded
  writeIdx : r.ring.writeIdx = r.published.length
  cursor : r.cursor ≤ r.published.length
  encoder : r.output.encoder.enhancedHevc = enhancedHevc
  announces : Announces enhancedHevc (bytesOf recorded) r.output.encoder.announcedVideoGeneration
    r.output.lastHeader
  announced : r.output.encoder.announcedVideoGeneration.toNat ≤ recorded.length
  forced : InHeader (inForce enhancedHevc (r.published.take r.cursor)) r.output.lastHeader
  gop : ∀ k, gopKeyframe (r.published.take r.cursor) = some k →
    InHeader (owed enhancedHevc k) r.output.lastHeader

theorem Inv.start (cap : Nat) (h : 0 < cap) : Inv enhancedHevc (start cap h enhancedHevc) [] [] where
  produced :=
    { stamped := by
        rintro s e ⟨⟩
      packets := rfl
      configs :=
        { generation := rfl
          current := rfl
          history := by
            rintro i cfg ⟨⟩ }
      now :=
        { le := le_rfl
          unset := fun _ => rfl
          header := fun hne => absurd rfl hne }
      entry := by
        rintro s packet gen ⟨⟩
      announceable := by
        rintro s packet ⟨⟩ }
  writeIdx := rfl
  cursor := le_rfl
  encoder := rfl
  announces := .inl rfl
  announced := le_rfl
  forced := by
    rintro n ⟨⟩
  gop := by
    rintro k ⟨⟩

theorem Inv.publish (h : Inv enhancedHevc r log recorded) (hu : ∀ p ∈ ps, IsAccessUnit p)
    (hann : AllAnnounceable enhancedHevc r.published ps)
    (hfew : recorded.length + ps.length < 2 ^ 32) :
    ∃ log recorded, Inv enhancedHevc { r with
        ring := r.ring.pushDrainedBatchRecordingConfig ps
        published := r.published ++ ps } log recorded := by
  obtain ⟨log', more, hp, hidx⟩ := h.produced.drain ps.length le_rfl h.writeIdx hu hann hfew
  have ht : (r.published ++ ps).take r.cursor = r.published.take r.cursor :=
    take_append_of_le_length h.cursor
  refine ⟨log', recorded ++ more, hp, hidx, ?_, h.encoder, ?_, ?_, ?_, ?_⟩
  · exact h.cursor.trans (by simp)
  · rcases h.announces with hz | hh
    · exact .inl hz
    · by_cases hz : r.output.encoder.announcedVideoGeneration = 0
      · exact .inl hz
      · rw [← bytesOf_append hz h.announced more] at hh
        exact .inr hh
  · exact h.announced.trans (by simp)
  · rw [ht]
    exact h.forced
  · rw [ht]
    exact h.gop

variable {packet : MediaPacket}

section
variable (h : Inv enhancedHevc r log recorded)
include h

theorem Inv.configFor_eq (hlog : log[r.cursor]? = some (packet, gen)) (hu : IsAccessUnit packet)
    (hret : r.ring.writeIdx - r.cursor < r.ring.capacity) (hc : r.configFor packet = some cfg) :
    cfg = none ∧ (packet.isKeyframe = true → gen = 0) ∨
      gen ≠ 0 ∧ packet.isKeyframe = true ∧ cfg = some ⟨gen, bytesOf recorded gen⟩ := by
  unfold configFor at hc
  by_cases hkey : packet.isKeyframe = true
  · have hidx : r.ring.writeIdx = log.length := h.writeIdx.trans h.produced.length.symm
    rw [if_pos hkey, hu.1, hu.2.2,
      h.produced.stamped.trackConfigAt hidx hlog (by rwa [← hidx]) .video 0] at hc
    by_cases hz : gen = 0
    · rw [if_pos hz] at hc
      exact .inl ⟨(Option.some.inj hc).symm, fun _ => hz⟩
    · rw [if_neg hz] at hc
      cases hget : r.ring.trackConfigs.get .video 0 gen with
      | none => simp [hget] at hc
      | some found =>
        obtain ⟨hgen, -, hb⟩ := h.produced.configs.get hget
        rw [hget] at hc
        refine .inr ⟨hz, hkey, ?_⟩
        rw [← Option.some.inj hc, bytesOf, hb, getD_some, ← hgen]
  · rw [if_neg hkey] at hc
    exact .inl ⟨(Option.some.inj hc).symm, fun h => absurd h hkey⟩

theorem Inv.log_cursor (hlt : r.cursor < r.ring.writeIdx)
    (hret : r.ring.writeIdx - r.cursor < r.ring.capacity)
    (hr : r.ring.readAt r.cursor = some packet) :
    (∃ gen, log[r.cursor]? = some (packet, gen)) ∧
      r.published[r.cursor]? = some packet := by
  have hidx : r.ring.writeIdx = log.length := h.writeIdx.trans h.produced.length.symm
  have hlog := getElem?_eq_getElem (l := log) (i := r.cursor) (by omega)
  rw [h.produced.stamped.readAt hlog (by omega), Option.some.injEq] at hr
  rw [← h.produced.packets, getElem?_map, hlog, ← hr]
  exact ⟨⟨_, rfl⟩, rfl⟩

theorem Inv.header_read (hlog : log[r.cursor]? = some (packet, gen))
    (hu : IsAccessUnit packet)
    (ht : r.published.take (r.cursor + 1) = r.published.take r.cursor ++ [packet])
    (hcon : cfg = none ∧ (packet.isKeyframe = true → gen = 0) ∨
      gen ≠ 0 ∧ packet.isKeyframe = true ∧ cfg = some ⟨gen, bytesOf recorded gen⟩)
    (henc : r.output.encoder.Encoded packet cfg (enc, acts)) :
    InHeader (inForce enhancedHevc (r.published.take (r.cursor + 1)))
      (lastHeader r.output.lastHeader acts) ∧
    (packet.isKeyframe = false → lastHeader r.output.lastHeader acts = r.output.lastHeader) := by
  have he := h.produced.entry _ _ _ hlog
  have hk : r.output.encoder.unannounced cfg = none → ¬IsConfigured enhancedHevc packet →
      lastHeader r.output.lastHeader acts = r.output.lastHeader ∧
      InHeader (inForce enhancedHevc (r.published.take (r.cursor + 1)))
        (lastHeader r.output.lastHeader acts) := by
    intro hkn hco
    have hl := henc.lastHeader_of_known r.output.lastHeader hu.2.1 hkn
    rw [hl, ht]
    exact ⟨rfl, fun n hn => h.forced n (inForce_subset hco hn)⟩
  rcases hcon with ⟨rfl, hz⟩ | ⟨hne, hkey, rfl⟩
  · have hco : ¬IsConfigured enhancedHevc packet := fun hc =>
      (he.built hc).1 (hz hc.1)
    exact ⟨(hk rfl hco).2, fun _ => (hk rfl hco).1⟩
  · refine ⟨?_, fun hnot => absurd (hkey.symm.trans hnot) (by decide)⟩
    cases hh : videoSequenceHeader enhancedHevc (bytesOf recorded gen) with
    | some hdr =>
      have hann := h.announces
      rw [← h.encoder] at hh hann
      rw [henc.keyframe_header hu.1 hu.2.1 hkey rfl hne hh hann]
      rw [h.encoder] at hh
      exact fun n hn => ⟨hdr, rfl, he.holds.header hne hdr hh n hn⟩
    | none =>
      refine (hk ?_ ?_).2
      · simp only [RtmpMediaEncoder.unannounced, h.encoder, hh, map_none, ite_self]
      · intro hc
        obtain ⟨-, hdr, hb⟩ := he.built hc
        rw [hh] at hb
        cases hb

end

theorem gopKeyframe_concat :
    gopKeyframe (ps ++ [packet]) = if packet.isKeyframe then some packet else gopKeyframe ps := by
  cases hkey : packet.isKeyframe <;> simp [gopKeyframe, filter_append, hkey]

theorem Inv.read (h : Inv enhancedHevc r log recorded) (hst : r.step .read = some t) :
    Inv enhancedHevc t log recorded := by
  obtain ⟨packet, cfg, enc, acts, hlt, hret, hr, hco, henc, rfl⟩ := step_read hst
  obtain ⟨⟨gen, hlog⟩, hpub⟩ := h.log_cursor hlt hret hr
  obtain ⟨hu, hann⟩ := h.produced.announceable _ _ hpub
  have ht : r.published.take (r.cursor + 1) = r.published.take r.cursor ++ [packet] := by
    rw [take_add_one, hpub]
    rfl
  have hg := h.configFor_eq hlog hu hret hco
  obtain ⟨hf, hs⟩ := h.header_read hlog hu ht hg henc
  rw [← lastHeader_sent] at hf hs
  have he := h.produced.entry _ _ _ hlog
  have hb : ∀ c ∈ cfg, c.bytes = bytesOf recorded c.generation ∧ c.generation = gen := by
    rcases hg with ⟨rfl, -⟩ | ⟨-, -, rfl⟩
    · rintro c ⟨⟩
    · rintro c ⟨⟩
      exact ⟨rfl, rfl⟩
  refine ⟨h.produced, h.writeIdx, (List.getElem?_eq_some_iff.mp hpub).1, ?_, ?_, ?_, ?_, ?_⟩
  · rw [← h.encoder]
    cases henc <;> rfl
  · have hflv : flvSequenceHeader? packet = none := by simp [flvSequenceHeader?, hu.2.1]
    have hinv := h.announces
    rw [← h.encoder] at hinv
    have hne := henc.announces (fun c hc => (hb c hc).1) (by simp [hflv]) hinv
    rw [← lastHeader_sent] at hne
    have henh : enc.enhancedHevc = enhancedHevc := by
      rw [← h.encoder]
      cases henc <;> rfl
    rwa [henh] at hne
  · rcases henc.announced with hold | ⟨c, hc, hnew⟩
    · rw [hold]
      exact h.announced
    · rw [hnew, (hb c hc).2]
      exact he.holds.le
  · exact hf
  · intro k hk
    simp only [ht, gopKeyframe_concat] at hk
    cases hkey : packet.isKeyframe with
    | true =>
      rw [hkey, if_pos rfl, Option.some.injEq] at hk
      subst hk
      rw [ht] at hf
      exact fun n hn => hf n (owed_subset hann hn)
    | false =>
      rw [hkey] at hk
      intro n hn
      obtain ⟨hdr, hh, hin⟩ := h.gop k hk n hn
      exact ⟨hdr, (hs hkey).trans hh, hin⟩

def PublishesRaw (_ : RawRun) : RawEvent → Prop
  | .publish packets => ∀ p ∈ packets, IsAccessUnit p
  | .read => True

/-- Each access unit can be announced, and the generations do not run out. -/
def PublishesAnnounceable (enhancedHevc : Bool) (r : RawRun) : RawEvent → Prop
  | .publish packets => AllAnnounceable enhancedHevc r.published packets ∧
    (r.ring.trackConfigs.generation .video 0).toNat + packets.length < 2 ^ 32
  | .read => True

theorem Inv.step (h : ∃ log recorded, Inv enhancedHevc r log recorded)
    (hg : PublishesRaw r event ∧ PublishesAnnounceable enhancedHevc r event)
    (hs : r.step event = some t) : ∃ log recorded, Inv enhancedHevc t log recorded := by
  obtain ⟨log, recorded, h⟩ := h
  cases event with
  | publish ps =>
    cases hs
    have hfew := hg.2.2
    rw [h.produced.configs.generation] at hfew
    exact h.publish hg.1 hg.2.1 hfew
  | read => exact ⟨log, recorded, h.read hs⟩

/-- After every read, each parameter set that the access unit owes, or that the
keyframe of its group of pictures owed, is in the last sequence header sent. -/
theorem no_parameter_set_lost (capacity : Nat) (hpos : 0 < capacity)
    (enhancedHevc : Bool) {r t : RawRun}
    (hrun : Reachable step (fun r e => PublishesRaw r e ∧ PublishesAnnounceable enhancedHevc r e)
      (start capacity hpos enhancedHevc) r)
    (hstep : r.step .read = some t) {packet carrier : MediaPacket}
    (hpacket : r.published[r.cursor]? = some packet)
    (hcarrier : carrier = packet ∨ gopKeyframe (r.published.take (r.cursor + 1)) = some carrier)
    {n : Nalu} (hn : n ∈ owed enhancedHevc carrier) :
    ∃ header, t.output.lastHeader = some header ∧ n <:+: header := by
  have hinv : ∃ log recorded, Inv enhancedHevc r log recorded :=
    hrun.invariant (fun r => ∃ log recorded, Inv enhancedHevc r log recorded)
      (fun _ _ _ hinv hguard hstep => Inv.step hinv hguard hstep) ⟨[], [], Inv.start capacity hpos⟩
  obtain ⟨log, recorded, h⟩ := hinv
  have hnext := h.read hstep
  obtain ⟨_, _, _, _, -, -, -, -, -, rfl⟩ := step_read hstep
  rcases hcarrier with rfl | hgop
  · obtain ⟨-, hann⟩ := h.produced.announceable _ _ hpacket
    have hforced := hnext.forced
    simp only [List.take_add_one, hpacket] at hforced
    exact hforced n (owed_subset hann hn)
  · exact hnext.gop carrier hgop n hn

end RawRun

section Runs

def exampleAccessUnit : MediaPacket :=
  { MediaPacket.raw .video true 40 with payload := exampleSets ++ [0, 0, 0, 1, 0x65, 0x88] }

theorem no_parameter_set_lost_keyframe : ∃ r t : RawRun,
    (RawRun.start 4 (by decide) false).step (.publish [exampleAccessUnit]) = some r ∧
      r.step .read = some t ∧ r.published[r.cursor]? = some exampleAccessUnit ∧
      ∃ header, t.output.lastHeader = some header ∧ [0x68, 0xCE] <:+: header := by
  have hguard : RawRun.PublishesRaw (.start 4 (by decide) false) (.publish [exampleAccessUnit]) ∧
      RawRun.PublishesAnnounceable false (.start 4 (by decide) false)
        (.publish [exampleAccessUnit]) := by
    refine ⟨?_, ⟨?_, trivial⟩, by decide⟩
    · rintro p (_ | ⟨_, ⟨⟩⟩)
      exact ⟨rfl, rfl, rfl⟩
    · decide +kernel
  exact ⟨_, _, rfl, rfl, rfl, RawRun.no_parameter_set_lost 4 (by decide) false
    (.tail .refl ⟨.publish [exampleAccessUnit], hguard, rfl⟩) rfl rfl (.inl rfl) (by decide +kernel)⟩

def exampleTwoPps : MediaPacket :=
  { MediaPacket.raw .video true 40 with
    payload := [0, 0, 0, 1, 0x67, 0x42, 0, 0x1E, 0, 0, 0, 1, 0x68, 0xCE, 0x06, 0xE2,
      0, 0, 0, 1, 0x68, 0xCE, 0x3C, 0x80, 0, 0, 0, 1, 0x65, 0x88] }

/-- The first of the two is in neither the header nor the frame. -/
theorem first_pps_lost : ∃ (r t : RawRun) (header frame : List UInt8),
    Reachable RawRun.step RawRun.PublishesRaw (.start 4 (by decide) false) r ∧
      r.step .read = some t ∧ r.published[r.cursor]? = some exampleTwoPps ∧
      [0x68, 0xCE, 0x06, 0xE2] ∈ owed false exampleTwoPps ∧
      t.output.sent = [.video header 39 false, .video frame 40 false] ∧
      t.output.lastHeader = some header ∧ ¬[0x68, 0xCE, 0x06, 0xE2] <:+: header ∧
      ¬[0x68, 0xCE, 0x06, 0xE2] <:+: frame := by
  refine ⟨_, _, _, _, .tail .refl ⟨.publish [exampleTwoPps], ?_, rfl⟩, rfl, rfl, by decide +kernel,
    rfl, by decide +kernel, by decide +kernel, by decide +kernel⟩
  rintro p (_ | ⟨_, ⟨⟩⟩)
  exact ⟨rfl, rfl, rfl⟩

end Runs

end Restream.Rtmp
