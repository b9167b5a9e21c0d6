import Restream.Fmp4Timeline

/-! The preview timeline over whole runs: no flush fails, and audio and video
samples are published at the times of their packets, in any number of segments. -/

namespace Restream.Fmp4

open Rtmp PreviewRun Exec Segmenter AudioRenditionState OrderedMap List

variable {ε : Type}

def times (zeroMs : Int) (timescale : Nat) (accepted : List MediaPacket) : List Int :=
  accepted.map fun packet => tick zeroMs timescale packet.dts

structure VideoOnTime (zeroMs : Int) (timing : Timing) (v : VideoRenditionState ε) : Prop where
  onTime : OnTime .video (times zeroMs videoTimescale timing.accepted) timing.placed v.buffer
  entry : v.buffer.samples ≠ [] → v.sampleEntry.isSome = true

def audioEnd (zeroMs : Int) (timescale : Nat) (accepted : List MediaPacket) : Int :=
  match accepted.getLast? with
  | none => 0
  | some last => tick zeroMs timescale last.dts + audioDefaultDuration last timescale

structure AudioOnTime (zeroMs : Int) (timing : Timing) (a : AudioRenditionState ε) : Prop where
  rate : 0 < a.sampleRate
  onTime : OnTime .audio (times zeroMs a.sampleRate timing.accepted) timing.placed a.buffer
  idle : a.buffer.samples = [] →
    (a.buffer.muxer.decodeTime : Int) = audioEnd zeroMs a.sampleRate timing.accepted
  last : ∀ s ∈ a.buffer.samples.getLast?, s.dts + s.defaultDuration =
    audioEnd zeroMs a.sampleRate timing.accepted

def After (zeroMs : Int) (timescale : Nat) (accepted : List MediaPacket) (time : Int) : Prop :=
  ∀ last ∈ accepted.getLast?, Follows (tick zeroMs timescale last.dts) time

theorem After.times {zeroMs time : Int} {scale : Nat} {accepted : List MediaPacket}
    (h : After zeroMs scale accepted time) :
    ∀ last ∈ (times zeroMs scale accepted).getLast?, Follows last time := by
  intro last hl
  rw [Fmp4.times, getLast?_map] at hl
  obtain ⟨p, hp, rfl⟩ := Option.map_eq_some_iff.mp hl
  exact h p hp

def Composed (zeroMs : Int) (packet : MediaPacket) : Prop :=
  -2 ^ 31 ≤ tick zeroMs videoTimescale packet.pts - tick zeroMs videoTimescale packet.dts ∧
    tick zeroMs videoTimescale packet.pts - tick zeroMs videoTimescale packet.dts < 2 ^ 31

theorem times_append :
    times zeroMs scale (accepted ++ [packet]) =
      times zeroMs scale accepted ++ [tick zeroMs scale packet.dts] := by
  simp [times]

theorem audioDefaultDuration_bounds (packet : MediaPacket) (sampleRate : Nat) :
    0 < audioDefaultDuration packet sampleRate ∧
    (audioDefaultDuration packet sampleRate : Int) ≤ u32Max := by
  unfold audioDefaultDuration u32Max Codec.saturate32
  simp only
  omega

theorem OnTime.idle_iff {times : List Int} (h : OnTime kind times placed b) :
    b.samples = [] ↔ placed.length = times.length := by
  have hl := congrArg length h.split
  simp only [length_append, length_map] at hl
  rw [← length_eq_zero_iff]
  omega

namespace AudioOnTime

theorem flush (h : AudioOnTime zeroMs tm a) :
    AudioOnTime zeroMs { tm with placed := tm.placed ++ decodeTimes a.flushSegment.2 } a.flushSegment.1 ∧
    a.flushSegment.1.sampleRate = a.sampleRate ∧ ∃ seg, a.flushSegment.2 = .ok seg := by
  unfold flushSegment
  split
  · next hn =>
    refine ⟨⟨h.rate, ?_, fun _ => h.idle hn, (by rintro _ ⟨⟩)⟩, rfl, _, rfl⟩
    simp only [decodeTimes, map_nil, append_nil]
    have ho := h.onTime
    exact ⟨by rw [ho.split, hn]; rfl, ho.last, .nil, (by rintro _ ⟨⟩), (by rintro _ ⟨⟩)⟩
  · next hs =>
    have hr := h.rate
    obtain ⟨last, hl⟩ := Option.ne_none_iff_exists'.mp (mt getLast?_eq_none_iff.mp hs)
    obtain ⟨b, out, hf, ho, hnil, hend⟩ := h.onTime.flush (max a.sampleRate 1) (by omega)
      a.sampleEntry none hl (by rintro _ ⟨⟩)
    rw [hf]
    refine ⟨⟨hr, ho, fun _ => hend.trans (h.last last hl), ?_⟩, rfl, _, rfl⟩
    simp only [hnil]
    rintro _ ⟨⟩

theorem push (h : AudioOnTime zeroMs tm a) (hb : (sampleBody packet).isSome = true)
    (hf : After zeroMs a.sampleRate tm.accepted (tick zeroMs a.sampleRate packet.dts))
    (hst : tm.placed.length = tm.accepted.length →
      tick zeroMs a.sampleRate packet.dts = audioEnd zeroMs a.sampleRate tm.accepted) :
    AudioOnTime zeroMs { tm with accepted := tm.accepted ++
      [packet] } (a.pushPacket packet zeroMs) := by
  obtain ⟨body, hb⟩ := Option.isSome_iff_exists.mp hb
  obtain ⟨hpos, hle⟩ := audioDefaultDuration_bounds packet a.sampleRate
  have hpu := h.onTime.push packet zeroMs a.sampleRate true body hf.times
    (fun hnil => (h.idle hnil).trans (hst (by simpa [times] using h.onTime.idle_iff.mp hnil)).symm)
    (by simp) hpos hle
  have hend : audioEnd zeroMs a.sampleRate (tm.accepted ++ [packet]) =
      tick zeroMs a.sampleRate packet.dts + audioDefaultDuration packet a.sampleRate := by
    simp [audioEnd]
  simp only [pushPacket, hb]
  refine ⟨h.rate, (times_append).symm ▸ hpu, fun hnil => ?_, fun s hs => ?_⟩
  · simp [SampleBuffer.push] at hnil
  · have hdts := hpu.last_dts hs
    rw [getLast?_concat] at hdts
    simp only [SampleBuffer.push, getLast?_append, getLast?_singleton, Option.some_or] at hs
    rw [hend, ← Option.some.inj hdts, ← Option.some.inj hs]

end AudioOnTime

namespace VideoOnTime

theorem flush (h : VideoOnTime zeroMs tm v) (next : Option Int)
    (hnex : ∀ n ∈ next, After zeroMs videoTimescale tm.accepted (rescaleMs n videoTimescale)) :
    VideoOnTime zeroMs { tm with placed := tm.placed ++ decodeTimes (v.flushSegment next).2 }
      (v.flushSegment next).1 ∧
    (∃ seg, (v.flushSegment next).2 = .ok seg) ∧ (v.flushSegment next).1.buffer.samples = [] ∧
    (v.flushSegment next).1.codec = v.codec ∧ (v.flushSegment next).1.sampleEntry = v.sampleEntry ∧
    (v.buffer.samples ≠ [] → ∀ n ∈ next,
      ((v.flushSegment next).1.buffer.muxer.decodeTime : Int) = rescaleMs n videoTimescale) := by
  unfold VideoRenditionState.flushSegment
  split
  · next hno =>
    refine ⟨⟨?_, fun hne => (hne rfl).elim⟩, ⟨_, rfl⟩, rfl, rfl, rfl, fun hne => (hne hno).elim⟩
    simp only [decodeTimes, map_nil, append_nil]
    have ho := h.onTime
    exact ⟨by rw [ho.split, hno]; rfl, ho.last, .nil, (by rintro _ ⟨⟩), (by rintro _ ⟨⟩)⟩
  · next hs =>
    obtain ⟨e, he⟩ := Option.isSome_iff_exists.mp (h.entry hs)
    obtain ⟨last, hl⟩ := Option.ne_none_iff_exists'.mp (mt getLast?_eq_none_iff.mp hs)
    obtain ⟨b, out, hf, ho, hnil, hend⟩ := h.onTime.flush videoTimescale (by decide) e
      (next.map fun ms => rescaleMs ms videoTimescale) hl (by
        intro n hn
        obtain ⟨ms, hms, rfl⟩ := Option.map_eq_some_iff.mp hn
        exact (hnex ms hms).times _ (h.onTime.last_dts hl))
    simp only [he, hf]
    refine ⟨⟨ho, fun hne => (hne hnil).elim⟩, ⟨_, rfl⟩, hnil, trivial, trivial, fun _ n hn => ?_⟩
    rw [hend, Option.mem_def.mp hn]
    rfl

variable {builder : EntryBuilder ε} {packet : MediaPacket}

theorem push (h : VideoOnTime zeroMs tm v) (hb : (v.sampleBody builder packet).isSome = true)
    (hf : After zeroMs videoTimescale tm.accepted (tick zeroMs videoTimescale packet.dts))
    (ho : Composed zeroMs packet)
    (hs : v.buffer.samples = [] →
      (v.buffer.muxer.decodeTime : Int) = tick zeroMs videoTimescale packet.dts) :
    VideoOnTime zeroMs { tm with accepted := tm.accepted ++ [packet] }
      (v.pushPacket builder packet zeroMs) ∧
    (v.pushPacket builder packet zeroMs).buffer.samples ≠ [] := by
  obtain ⟨body, hb'⟩ := Option.isSome_iff_exists.mp hb
  have hle : (v.learn builder packet).isSome = true := by
    rw [VideoRenditionState.sampleBody] at hb'
    split at hb'
    · cases hb'
    · next hnot =>
      rw [not_or, Option.isNone_iff_eq_none] at hnot
      exact Option.isSome_iff_ne_none.mpr hnot.2
  have hpu :=
    h.onTime.push packet zeroMs videoTimescale packet.isKeyframe body hf.times hs (fun _ => ho)
    v.defaultDuration.pos v.defaultDuration.le
  simp only [VideoRenditionState.pushPacket, hb']
  exact ⟨⟨(times_append).symm ▸ hpu, fun _ => hle⟩, by simp [SampleBuffer.push]⟩

theorem skip (h : VideoOnTime zeroMs tm v) (hb : v.sampleBody builder packet = none) :
    VideoOnTime zeroMs tm (v.pushPacket builder packet zeroMs) ∧
    (v.pushPacket builder packet zeroMs).buffer = v.buffer := by
  simp only [VideoRenditionState.pushPacket, hb]
  refine ⟨⟨h.onTime, fun hne => ?_⟩, trivial⟩
  obtain ⟨e, he⟩ := Option.isSome_iff_exists.mp (h.entry hne)
  unfold VideoRenditionState.learn
  simp only [he]
  split
  · split
    · rfl
    · cases builder.flvSequenceHeader packet.payload <;> rfl
  · rfl

end VideoOnTime

structure Synced (timing : TrackId → Timing) (s : Segmenter ε) : Prop where
  video : VideoOnTime s.globalZeroMs (timing .video) s.video
  audio : ∀ e ∈ s.audio.entries, AudioOnTime s.globalZeroMs (timing (.audio e.1)) e.2

theorem Segmenter.flush_segments (s : Segmenter ε) (next : Option Int) :
    (s.flush next).2 = (.video, (s.video.flushSegment next).2) ::
      s.audio.entries.map fun e => (.audio e.1, e.2.flushSegment.2) := rfl

variable {s : Segmenter ε} {builder : EntryBuilder ε} {packet : MediaPacket}

theorem Synced.flush (h : Synced tm s) (next : Option Int)
    (hn : ∀ n ∈ next,
      After s.globalZeroMs videoTimescale (tm .video).accepted (rescaleMs n videoTimescale)) :
    Synced (place tm (s.flush next).2) (s.flush next).1 ∧ errors (s.flush next).2 = [] := by
  obtain ⟨hv, ⟨seg, hs⟩, -⟩ := h.video.flush next hn
  have hk (t : TrackId) : published (s.flush next).2 t =
      (if .video = t then decodeTimes (s.video.flushSegment next).2 else []) ++
        s.audio.entries.flatMap fun e => if .audio e.1 = t then decodeTimes e.2.flushSegment.2
          else [] := by
    simp [published, flush_segments, flatMap_map]
  refine ⟨⟨?_, fun e he => ?_⟩, ?_⟩
  · have hp : published (s.flush next).2 .video = decodeTimes (s.video.flushSegment next).2 := by
      rw [hk]
      simp
    simp only [place, hp]
    exact hv
  · obtain ⟨old, hold, rfl⟩ := mem_map.mp he
    have hp : published (s.flush next).2 (.audio old.1) = decodeTimes old.2.flushSegment.2 := by
      have ho (es : List (Nat × AudioRenditionState ε))
        (hes : ∀ e ∈ es, e.1 ≠ old.1) : (es.flatMap fun e =>
            if TrackId.audio e.1 = .audio old.1 then decodeTimes e.2.flushSegment.2 else []) =
              [] := by
        rw [flatMap_eq_nil_iff]
        exact fun e he => if_neg fun heq => hes e he (TrackId.audio.inj heq)
      obtain ⟨pre, after, hsp, hb, ha⟩ := exists_split hold
      rw [hk, hsp, flatMap_append, flatMap_cons, ho pre hb, ho after ha]
      simp
    simp only [place, hp]
    exact (h.audio old hold).flush.1
  · rw [errors, flush_segments, filterMap_eq_nil_iff]
    intro x hx
    rcases mem_cons.mp hx with rfl | hx
    · rw [hs]
    · obtain ⟨e, he, rfl⟩ := mem_map.mp hx
      obtain ⟨-, -, seg, hok⟩ := (h.audio e he).flush
      rw [hok]

theorem accept_self :
    accept tm packet (some t) t =
      { tm t with accepted := (tm t).accepted ++ [packet] } :=
  Function.update_self ..

theorem accept_of_ne (tm : TrackId → Timing) (packet : MediaPacket) (h : other ≠ t) :
    accept tm packet (some t) other = tm other :=
  Function.update_of_ne h ..

theorem place_nil : place tm ([] : Flushed ε) = tm := by
  funext track
  simp [place, published]

theorem Synced.pushVideo (h : Synced tm s) (hb : (s.video.sampleBody builder packet).isSome = true)
    (hf : After s.globalZeroMs videoTimescale (tm .video).accepted
      (tick s.globalZeroMs videoTimescale packet.dts))
    (ho : Composed s.globalZeroMs packet)
    (hst : s.video.buffer.samples = [] →
      (s.video.buffer.muxer.decodeTime : Int) = tick s.globalZeroMs videoTimescale packet.dts) :
    Synced (accept tm packet (some .video))
      { s with video := s.video.pushPacket builder packet s.globalZeroMs } ∧
    (s.video.pushPacket builder packet s.globalZeroMs).buffer.samples ≠ [] := by
  obtain ⟨hv, hs⟩ := h.video.push hb hf ho hst
  refine ⟨⟨?_, fun e he => ?_⟩, hs⟩
  · exact hv
  · exact h.audio e he

theorem Synced.pushAudio (h : Synced tm s) (hb : (sampleBody packet).isSome = true)
    (hf : ∀ a, s.audio.get? packet.trackIndex = some a → After s.globalZeroMs a.sampleRate
      (tm (.audio packet.trackIndex)).accepted (tick s.globalZeroMs a.sampleRate packet.dts))
    (hs : ∀ a, s.audio.get? packet.trackIndex = some a →
      (tm (.audio packet.trackIndex)).placed.length =
      (tm (.audio packet.trackIndex)).accepted.length → tick s.globalZeroMs a.sampleRate packet.dts =
      audioEnd s.globalZeroMs a.sampleRate (tm (.audio packet.trackIndex)).accepted) :
    Synced (accept tm packet (some (.audio packet.trackIndex)))
      { s with audio := s.audio.modify packet.trackIndex fun t =>
          t.pushPacket packet s.globalZeroMs } := by
  refine ⟨?_, fun e he => ?_⟩
  · exact h.video
  · obtain ⟨a, hmem, ha⟩ := mem_modify he
    rw [ha]
    by_cases hkey : e.1 = packet.trackIndex
    · have hget := get?_of_mem hmem
      rw [hkey] at hget
      rw [if_pos hkey, hkey, accept_self]
      refine AudioOnTime.push ?_ hb (hf a hget) (hs a hget)
      rw [← hkey]
      exact h.audio (e.1, a) hmem
    · rw [if_neg hkey, accept_of_ne tm packet fun heq => hkey (TrackId.audio.inj heq)]
      exact h.audio (e.1, a) hmem

theorem Synced.skipAudio (h : Synced tm s)
    (hnot : ¬((s.audio.get? packet.trackIndex).isSome = true ∧
      (sampleBody packet).isSome = true)) :
    Synced tm
      { s with audio := s.audio.modify packet.trackIndex fun t =>
          t.pushPacket packet s.globalZeroMs } := by
  refine ⟨h.video, fun e he => ?_⟩
  obtain ⟨a, hmem, ha⟩ := mem_modify he
  rw [ha]
  split
  · next hkey =>
    have hget := get?_of_mem hmem
    rw [hkey] at hget
    rw [hget, Option.isSome_some, eq_self, true_and, Option.not_isSome_iff_eq_none] at hnot
    simp only [pushPacket, hnot]
    exact h.audio (e.1, a) hmem
  · exact h.audio (e.1, a) hmem

theorem VideoRenditionState.sampleBody_congr {v v' : VideoRenditionState ε} (hc : v'.codec = v.codec)
    (he : v'.sampleEntry = v.sampleEntry) (packet : MediaPacket) :
    v'.sampleBody builder packet = v.sampleBody builder packet := by
  obtain ⟨codec, e, _, _⟩ := v
  obtain ⟨codec', e', _, _⟩ := v'
  obtain rfl : codec' = codec := hc
  obtain rfl : e' = e := he
  rfl

theorem tick_zero : tick zeroMs scale zeroMs = 0 := by
  simp [tick, rescaleMs, saturate, i64Min, i64Max]

namespace PreviewRun

/-- What holds between the packets of a run. Before the first keyframe nothing is
accepted; from then on the first video sample is at the zero of the clocks, and
until the end a video sample is always buffered. -/
structure Inv (r : PreviewRun ε) : Prop where
  failures : r.failures = []
  synced : Synced r.timing r.segmenter
  waiting : r.segmenter.gotFirstKeyframe = false → (∀ track, (r.timing track).accepted = []) ∧
    (r.finished = false → (∀ track, r.timing track = { accepted := [], placed := [] }) ∧
      r.segmenter.video.buffer.muxer.decodeTime = 0)
  running : r.segmenter.gotFirstKeyframe = true →
    (∃ first, (r.timing .video).accepted.head? = some first ∧ first.dts = r.segmenter.globalZeroMs) ∧
    (r.finished = false → r.segmenter.video.buffer.samples ≠ [])

namespace Inv

variable {r : PreviewRun ε} {builder : EntryBuilder ε}

theorem start (codec : PreviewVideoCodec) (en : Option ε) (dur : FrameDuration)
    (ts : List (Nat × Nat × ε)) (minSegmentMs : Int) :
    Inv (start codec en dur ts minSegmentMs) := by
  refine ⟨rfl, ⟨⟨.empty _, fun hne => (hne rfl).elim⟩, fun e he => ?_⟩,
    fun _ => ⟨fun _ => rfl, fun _ => ⟨fun _ => rfl, rfl⟩⟩, by rintro ⟨⟩⟩
  have hb (ts : List (AudioRenditionState ε)) (audio : OrderedMap Nat (AudioRenditionState ε))
      (htr : ∀ t ∈ ts, AudioOnTime 0 { accepted := [], placed := [] } t)
      (ha : ∀ e ∈ audio.entries, AudioOnTime 0 { accepted := [], placed := [] } e.2) :
      ∀ e ∈ (ts.foldl (fun audio tr => audio.insert tr.trackIndex tr) audio).entries,
        AudioOnTime 0 { accepted := [], placed := [] } e.2 := by
    induction ts generalizing audio with
    | nil => exact ha
    | cons t ts ih =>
      refine ih _ (fun t ht => htr t (mem_cons_of_mem _ ht)) fun e he => ?_
      rcases mem_insert.mp he with rfl | ⟨he, -⟩
      · exact htr t mem_cons_self
      · exact ha e he
  refine hb _ .empty (fun t ht => ?_) (by rintro _ ⟨⟩) e he
  obtain ⟨tr, -, rfl⟩ := mem_map.mp ht
  exact ⟨by simp [AudioRenditionState.new], .empty _, fun _ => rfl, by rintro _ ⟨⟩⟩

theorem finish (h : Inv r) : Inv { r with
      segmenter := (r.segmenter.flush none).1
      timing := place r.timing (r.segmenter.flush none).2
      failures := r.failures ++ errors (r.segmenter.flush none).2
      finished := true } := by
  obtain ⟨hs, he⟩ := h.synced.flush none (by rintro _ ⟨⟩)
  refine ⟨by rw [h.failures, he]; rfl, hs, fun hnot => ⟨(h.waiting hnot).1, by rintro ⟨⟩⟩,
    fun hgot => ⟨?_, by rintro ⟨⟩⟩⟩
  exact (h.running hgot).1

theorem record_nil :
    r.record packet t (s, []) = { r with segmenter := s, timing := accept r.timing packet t } := by
  simp [record, place_nil, errors]

variable {packet : MediaPacket}

theorem firstKeyframe (h : Inv r) (hf : r.finished = false)
    (hw : r.segmenter.gotFirstKeyframe = false)
    (hb : (r.segmenter.video.sampleBody builder packet).isSome = true)
    (ho : Composed packet.dts packet) :
    Inv (r.record packet (some .video) ({ r.segmenter with
          gotFirstKeyframe := true
          globalZeroMs := packet.dts
          segmentStartPtsMs := packet.pts
          video := r.segmenter.video.pushPacket builder packet packet.dts }, [])) := by
  obtain ⟨hem, hc⟩ := (h.waiting hw).2 hf
  have hsy : Synced r.timing { r.segmenter with
      gotFirstKeyframe := true, globalZeroMs := packet.dts, segmentStartPtsMs := packet.pts } := by
    have hv := h.synced.video
    refine ⟨?_, fun e he => ?_⟩
    · rw [hem] at hv ⊢
      exact ⟨hv.onTime, hv.entry⟩
    · have ha := h.synced.audio e he
      rw [hem] at ha ⊢
      exact { ha with }
  obtain ⟨hp, hs⟩ := hsy.pushVideo hb (by rw [hem]; rintro _ ⟨⟩) ho
    (fun _ => by simp only [hc, tick_zero]; rfl)
  rw [record_nil]
  refine ⟨h.failures, hp, (by rintro ⟨⟩), fun _ => ⟨⟨packet, ?_, rfl⟩, fun _ => hs⟩⟩
  simp only [accept_self, hem]
  rfl

theorem guard_video (hg : r.KeepsTime builder (.packet packet))
    (hgot : r.segmenter.gotFirstKeyframe = true)
    (hs : r.segmenter.sampled builder packet = some .video) :
    After r.segmenter.globalZeroMs videoTimescale (r.timing .video).accepted
      (tick r.segmenter.globalZeroMs videoTimescale packet.dts) ∧
      Composed r.segmenter.globalZeroMs packet := by
  have ht := (hg.2 .video hs videoTimescale rfl).1
  have hz : r.zeroWith packet = r.segmenter.globalZeroMs := by simp [zeroWith, hgot]
  rw [Ticks, hz] at ht
  exact ⟨ht.1, ht.2 rfl⟩

theorem cut (h : Inv r) (hfi : r.finished = false) (hg : r.KeepsTime builder (.packet packet))
    (hgot : r.segmenter.gotFirstKeyframe = true)
    (hs : r.segmenter.sampled builder packet = some .video)
    (hbo : (r.segmenter.video.sampleBody builder packet).isSome = true) :
    let flushed := r.segmenter.flush (some (saturate (packet.dts - r.segmenter.globalZeroMs)))
    Inv (r.record packet (some .video) ({ flushed.1 with
          nextSegmentIndex := r.segmenter.nextSegmentIndex + 1
          segmentStartPtsMs := packet.pts
          video := flushed.1.video.pushPacket builder packet r.segmenter.globalZeroMs },
            flushed.2)) := by
  intro flushed
  obtain ⟨hf, ho⟩ := guard_video hg hgot hs
  obtain ⟨⟨first, hfir, hz⟩, hb⟩ := h.running hgot
  have hne : ∀ n ∈ some (saturate (packet.dts - r.segmenter.globalZeroMs)),
      After r.segmenter.globalZeroMs videoTimescale (r.timing .video).accepted
        (rescaleMs n videoTimescale) := by
    rintro n ⟨⟩
    exact hf
  obtain ⟨hsy, he⟩ := h.synced.flush _ hne
  obtain ⟨-, -, -, hco, hen, hc⟩ := h.synced.video.flush _ hne
  have hb' : (flushed.1.video.sampleBody builder packet).isSome = true :=
    (congrArg Option.isSome (VideoRenditionState.sampleBody_congr hco hen packet)).trans hbo
  obtain ⟨hp, hsa⟩ := hsy.pushVideo hb' hf ho fun _ => hc (hb hfi) _ rfl
  refine ⟨?_, ⟨hp.video, hp.audio⟩, fun hnot => ?_, fun _ => ⟨⟨first, ?_, hz⟩, fun _ => hsa⟩⟩
  · simp only [record, h.failures, flushed, he, nil_append]
  · exact (Bool.false_ne_true (hnot.symm.trans hgot)).elim
  · dsimp only [record]
    rw [accept_self, head?_append]
    simp only [place, hfir, Option.some_or]

theorem sampled_video (hv : packet.mediaType = .video) :
    r.segmenter.sampled builder packet = some .video ↔
      (packet.isKeyframe && !r.segmenter.gotFirstKeyframe ||
        r.segmenter.gotFirstKeyframe && decide (r.segmenter.globalZeroMs ≤ packet.dts)) = true ∧
      (r.segmenter.video.sampleBody builder packet).isSome = true := by
  simp only [sampled, hv, Option.ite_none_right_eq_some, and_true]

theorem onInterframe (h : Inv r) (hf : r.finished = false) (hv : packet.mediaType = .video)
    (hg : r.KeepsTime builder (.packet packet)) (hgot : r.segmenter.gotFirstKeyframe = true)
    (hpa : r.segmenter.globalZeroMs ≤ packet.dts) :
    Inv (r.record packet (r.segmenter.sampled builder packet)
      ({ r.segmenter with
          video := r.segmenter.video.pushPacket builder packet r.segmenter.globalZeroMs }, [])) := by
  have hsam : r.segmenter.sampled builder packet = some .video ↔ _ := sampled_video hv
  obtain ⟨⟨first, hfi, hz⟩, hb⟩ := h.running hgot
  have hr : r.segmenter.gotFirstKeyframe ≠ false := by simp [hgot]
  rw [record_nil]
  cases hbo : r.segmenter.video.sampleBody builder packet with
  | none =>
    have hn : r.segmenter.sampled builder packet = none := by simp [sampled, hv, hbo]
    obtain ⟨hv, hbu⟩ := h.synced.video.skip hbo
    rw [hn]
    refine ⟨h.failures, ⟨hv, h.synced.audio⟩, fun hnot => (hr hnot).elim,
      fun _ => ⟨⟨first, hfi, hz⟩, fun _ => ?_⟩⟩
    rw [hbu]
    exact hb hf
  | some body =>
    have hs := hsam.mpr ⟨by simp [hgot, hpa], by rw [hbo]; rfl⟩
    obtain ⟨hfo, ho⟩ := guard_video hg hgot hs
    obtain ⟨hp, hsa⟩ := h.synced.pushVideo (by rw [hbo]; rfl) hfo ho fun hnil => (hb hf hnil).elim
    rw [hs]
    refine ⟨h.failures, hp, fun hnot => (hr hnot).elim, fun _ => ⟨⟨first, ?_, hz⟩, fun _ => hsa⟩⟩
    dsimp only
    rw [accept_self, head?_append, hfi]
    rfl

theorem onVideo (h : Inv r) (hfi : r.finished = false) (hv : packet.mediaType = .video)
    (hg : r.KeepsTime builder (.packet packet)) :
    Inv (r.record packet (r.segmenter.sampled builder packet)
      (r.segmenter.onPacket builder packet)) := by
  have hsa : r.segmenter.sampled builder packet = some .video ↔ _ := sampled_video hv
  have hst := hg.1 hv
  rw [onPacket, hv]
  by_cases hf : (packet.isKeyframe && !r.segmenter.gotFirstKeyframe) = true
  · have hs := hst (by rw [hf, Bool.true_or])
    have hw : r.segmenter.gotFirstKeyframe = false := by
      simpa using (Bool.and_eq_true_iff.mp hf).2
    have ht := (hg.2 .video hs videoTimescale rfl).1
    have hz : r.zeroWith packet = packet.dts := by rw [zeroWith, if_pos hf]
    rw [Ticks, hz] at ht
    rw [onKeyframe, if_pos hf, hs]
    simp only [Bool.not_true, Bool.false_eq_true, lt_self_iff_false, or_self, if_false]
    exact h.firstKeyframe hfi hw (hsa.mp hs).2 (ht.2 rfl)
  · by_cases hcut : r.segmenter.cuts packet = true
    · have hs := hst (by rw [hcut, Bool.or_true])
      obtain ⟨hpa, hb⟩ := hsa.mp hs
      rw [Bool.not_eq_true] at hf
      rw [hf, Bool.false_or, Bool.and_eq_true, decide_eq_true_eq] at hpa
      have hp : ¬ ((!r.segmenter.gotFirstKeyframe) = true ∨
          packet.dts < r.segmenter.globalZeroMs) := by
        simp [hpa]
      rw [onKeyframe, hf, if_pos hcut, hs]
      dsimp only
      rw [if_neg (by exact hp)]
      exact h.cut hfi hg hpa.1 hs hb
    · rw [onKeyframe, if_neg hf, if_neg hcut]
      dsimp only
      split
      · next hd =>
        have hn : r.segmenter.sampled builder packet = none := by
          simp only [sampled, hv]
          refine if_neg fun hc => ?_
          simp only [hf, Bool.false_or, Bool.and_eq_true, decide_eq_true_eq] at hc
          rcases hd with hd | hd
          · simp [hc.1.1] at hd
          · omega
        rw [record_nil, hn]
        exact h
      · next hp =>
        rw [not_or, Bool.not_eq_true, Bool.not_eq_false', not_lt] at hp
        exact h.onInterframe hfi hv hg hp.1 hp.2

theorem accept_audio (ha : packet.mediaType = .audio) :
    accept tm packet (r.segmenter.sampled builder packet) .video = tm .video := by
  simp only [sampled, ha]
  split
  · exact accept_of_ne tm packet (by simp)
  · rfl

theorem onAudio (h : Inv r) (hau : packet.mediaType = .audio)
    (hg : r.KeepsTime builder (.packet packet)) :
    Inv (r.record packet (r.segmenter.sampled builder packet)
      (r.segmenter.onPacket builder packet)) := by
  rw [onPacket, hau]
  by_cases hd : (!r.segmenter.gotFirstKeyframe) = true ∨ packet.dts < r.segmenter.globalZeroMs
  · have hn : r.segmenter.sampled builder packet = none := by
      simp only [sampled, hau]
      refine if_neg fun hc => ?_
      rcases hd with hd | hd
      · simp [hc.1] at hd
      · omega
    rw [if_pos hd, record_nil, hn]
    exact h
  · rw [if_neg hd, record_nil]
    rw [not_or, Bool.not_eq_true, Bool.not_eq_false', not_lt] at hd
    obtain ⟨hgot, hp⟩ := hd
    refine ⟨h.failures, ?_, fun hnot => (Bool.false_ne_true (hnot.symm.trans hgot)).elim, fun _ => ?_⟩
    · by_cases hs : (r.segmenter.audio.get? packet.trackIndex).isSome = true ∧
          (sampleBody packet).isSome = true
      · have hsa : r.segmenter.sampled builder packet = some (.audio packet.trackIndex) := by
          simp only [sampled, hau]
          exact if_pos ⟨hgot, hp, hs⟩
        have hg (a : AudioRenditionState ε)
            (ha : r.segmenter.audio.get? packet.trackIndex = some a) :=
          hg.2 _ hsa a.sampleRate (Option.map_eq_some_iff.mpr ⟨a, ha, rfl⟩)
        have hz : r.zeroWith packet = r.segmenter.globalZeroMs := by simp [zeroWith, hgot]
        simp only [Ticks, Continues, hz] at hg
        rw [hsa]
        exact h.synced.pushAudio hs.2 (fun a ha => (hg a ha).1.1) fun a ha => (hg a ha).2 (by simp)
      · have hn : r.segmenter.sampled builder packet = none := by
          simp only [sampled, hau]
          exact if_neg fun hc => hs hc.2.2
        rw [hn]
        exact h.synced.skipAudio hs
    · obtain ⟨⟨first, hf, hz⟩, hb⟩ := h.running hgot
      refine ⟨⟨first, ?_, hz⟩, hb⟩
      dsimp only
      rw [accept_audio hau, hf]

theorem step (h : Inv r) (hg : r.KeepsTime builder e) (hs : r.step builder e = some r') : Inv r' := by
  cases e with
  | packet packet =>
    rw [PreviewRun.step, Option.ite_none_left_eq_some, Bool.not_eq_true] at hs
    obtain ⟨hf, hs⟩ := hs
    cases hs
    cases hm : packet.mediaType with
    | video => exact h.onVideo hf hm hg
    | audio => exact h.onAudio hm hg
  | finish =>
    rw [PreviewRun.step, Option.ite_none_left_eq_some] at hs
    obtain rfl := Option.some.inj hs.2
    exact h.finish

theorem placed (h : Inv r) (ht : r.segmenter.timescale tr = some scale) {n t : Nat}
    (hp : (r.timing tr).placed[n]? = some t) : ∃ packet, (r.timing tr).accepted[n]? = some packet ∧
      (t : Int) = tick r.segmenter.globalZeroMs scale packet.dts := by
  have hs : ∃ later : List Int, times r.segmenter.globalZeroMs scale (r.timing tr).accepted =
      (r.timing tr).placed.map (Nat.cast : Nat → Int) ++ later := by
    cases tr with
    | video =>
      cases ht
      exact ⟨_, h.synced.video.onTime.split⟩
    | audio ix =>
      obtain ⟨a, hget, rfl⟩ := Option.map_eq_some_iff.mp ht
      exact ⟨_, (h.synced.audio _ (mem_of_get? hget)).onTime.split⟩
  obtain ⟨later, hs⟩ := hs
  have hti : (times r.segmenter.globalZeroMs scale (r.timing tr).accepted)[n]? = some (t : Int) := by
    rw [hs, List.getElem?_append_left (by simpa using List.getElem?_eq_some_iff.mp hp |>.1),
      getElem?_map, hp]
    rfl
  rw [times, getElem?_map] at hti
  obtain ⟨packet, hpa, htic⟩ := Option.map_eq_some_iff.mp hti
  exact ⟨packet, hpa, htic.symm⟩

end Inv

/-- In every run that keeps time no flush fails, and every sample of every
segment is published at the time of its packet since the first video sample. -/
theorem samples_on_one_timeline {builder : EntryBuilder ε}
    {codec : PreviewVideoCodec} {entry : Option ε}
    {duration : FrameDuration} {tracks : List (Nat × Nat × ε)} {minSegmentMs : Int} {r : PreviewRun ε}
    (hrun : Reachable (step builder) (KeepsTime builder)
      (start codec entry duration tracks minSegmentMs) r) :
    r.failures = [] ∧ ∀ track timescale, r.segmenter.timescale track = some timescale →
      ∀ n t : Nat, (r.timing track).placed[n]? = some t →
        ∃ packet first, (r.timing track).accepted[n]? = some packet ∧
          (r.timing .video).accepted.head? = some first ∧
          (t : Int) = tick r.segmenter.globalZeroMs timescale packet.dts -
            tick r.segmenter.globalZeroMs timescale first.dts := by
  have hinv : Inv r :=
    hrun.invariant Inv (fun _ _ _ h hguard hstep => h.step hguard hstep) (.start ..)
  refine ⟨hinv.failures, fun track timescale htrack n t hplaced => ?_⟩
  obtain ⟨packet, hpacket, htick⟩ := hinv.placed htrack hplaced
  cases hgot : r.segmenter.gotFirstKeyframe with
  | false =>
    rw [(hinv.waiting hgot).1 track] at hpacket
    cases hpacket
  | true =>
    obtain ⟨⟨first, hfirst, hzero⟩, -⟩ := hinv.running hgot
    refine ⟨packet, first, hpacket, hfirst, ?_⟩
    rw [htick, hzero, tick_zero, sub_zero]

def idrAt (dts : Int) : PreviewEvent :=
  .packet { MediaPacket.raw .video true dts with payload := [0, 0, 0, 1, 0x65, 1] }

def aacAt (dts : Int) : PreviewEvent :=
  .packet { MediaPacket.raw .audio true dts with payload := [1] }

def noEntries : EntryBuilder Unit := { flvSequenceHeader := fun _ => none, annexb := fun _ _ => none }

def preview (sampleRate : Nat) (minSegmentMs : Int) : PreviewRun Unit :=
  start .h264 (some ()) { ticks := 3000, pos := by decide, le := by decide }
    [(0, sampleRate, ())] minSegmentMs

/-- At 16 kHz a frame takes 64 ms, so the audio of the second segment starts where
that of the first one ends. -/
theorem samples_on_one_timeline_cut : ∃ r,
    Reachable (step noEntries) (KeepsTime noEntries) (preview 16000 100) r ∧
    (r.timing (.audio 0)).placed = [0, 1024, 2048] ∧ r.failures = [] ∧
    ∃ packet first, (r.timing (.audio 0)).accepted[2]? = some packet ∧
      (r.timing .video).accepted.head? = some first ∧
      ((2048 : Nat) : Int) = tick r.segmenter.globalZeroMs 16000 packet.dts -
        tick r.segmenter.globalZeroMs 16000 first.dts := by
  refine exists_reachable_of_observed [idrAt 0, aacAt 0, aacAt 64, idrAt 100, aacAt 128, .finish]
    (fun r => (r.timing (.audio 0)).placed = [0, 1024, 2048] ∧
      r.segmenter.timescale (.audio 0) = some 16000) (by decide +kernel)
    fun r hreach ⟨hplaced, hrate⟩ => ?_
  obtain ⟨hfailures, htimes⟩ := samples_on_one_timeline hreach
  exact ⟨hplaced, hfailures, htimes (.audio 0) 16000 hrate 2 2048 (by rw [hplaced]; rfl)⟩

/-- After a pause of the audio its next sample is published where the sample
before the pause ended. -/
theorem audio_pause_lost_at_cut : ∃ r,
    Reachable (step noEntries) (InStep noEntries) (preview 48000 2000) r ∧
    (r.timing (.audio 0)).placed = [0, 1024] ∧ (r.timing .video).placed = [0, 180000] ∧
    (r.timing (.audio 0)).accepted.map MediaPacket.dts = [0, 2500] ∧
    tick r.segmenter.globalZeroMs 48000 2500 = 120000 :=
  exists_reachable_of_run [idrAt 0, aacAt 0, idrAt 2000, aacAt 2500, .finish] (by decide +kernel)

end PreviewRun

end Restream.Fmp4
