import Restream.TsStreams

/-! A new map table replaces the streams of the old one. What a stream keeps of an old
stream, which tracks there are afterwards, and which old streams go on under their media
type and track index. -/

namespace Restream.Mpegts

open List PmtInstall OrderedMap List

variable {π : Type}

def tracks (mediaType : MediaType) (streams : List StreamInfo) : List Nat :=
  (streams.filter fun s => s.kind.mediaType = mediaType).map StreamInfo.trackIndex

variable {mt : MediaType} {streams : List StreamInfo} {s : StreamInfo}

theorem mem_tracks :
    n ∈ tracks mt streams ↔ ∃ s ∈ streams, s.kind.mediaType = mt ∧ s.trackIndex = n := by
  simp [tracks, and_assoc]

theorem tracks_concat (mt : MediaType) (streams : List StreamInfo) (s : StreamInfo) :
    tracks mt (streams ++ [s]) =
      tracks mt streams ++ if s.kind.mediaType = mt then [s.trackIndex] else [] := by
  simp only [tracks, filter_append, map_append]
  split
  · next h => simp [h]
  · next h => simp [h]

theorem trackIndex_lt {i j : Nat} (h : tracks mt streams = range n) (hs : streams[i]? = some s)
    (ht : streams[j]? = some t) (hsm : s.kind.mediaType = mt) (htm : t.kind.mediaType = mt)
    (hij : i < j) : s.trackIndex < t.trackIndex := by
  have hso : (tracks mt streams).Pairwise (· < ·) := h ▸ pairwise_lt_range
  rw [tracks, pairwise_map, pairwise_filter, pairwise_iff_getElem] at hso
  obtain ⟨hi, rfl⟩ := List.getElem?_eq_some_iff.mp hs
  obtain ⟨hj, rfl⟩ := List.getElem?_eq_some_iff.mp ht
  exact hso i j hi hj hij (decide_eq_true hsm) (decide_eq_true htm)

theorem TopologyChanges.affects_mark (changes : TopologyChanges) (kind : StreamKind) :
    (changes.mark kind).affects mt = true ↔
      changes.affects mt = true ∨ kind.mediaType = mt := by
  unfold mark
  cases kind.mediaType <;> cases mt <;> simp [affects]

theorem TopologyChanges.affects_marks (changes : TopologyChanges)
    (kinds : List StreamKind) (mt : MediaType) :
    (kinds.foldl mark changes).affects mt = true ↔
      changes.affects mt = true ∨ ∃ kind ∈ kinds, kind.mediaType = mt := by
  induction kinds generalizing changes with
  | nil => simp
  | cons kind kinds ih =>
    rw [foldl_cons, ih, affects_mark, or_assoc]
    simp

/-- The old streams and their configurations, the last of each PID. -/
abbrev OldStreams (π : Type) := OrderedMap Nat (StreamInfo × Option (StreamProbe π))

/-- `q` is `p` with one stream more. The stream is new and marks all it displaces, or it
goes on with the PES and the configuration of an old stream of its PID and kind. -/
structure Adds (p q : PmtInstall π) (s : StreamInfo) (probe : Option (StreamProbe π)) : Prop where
  streams : q.streams = p.streams ++ [s]
  streamProbes : q.streamProbes = p.streamProbes ++ [probe]
  pidToStream : q.pidToStream = Function.update p.pidToStream s.pid (some p.streams.length)
  left : ∀ e, e ∈ q.oldStreams.entries ↔ e ∈ p.oldStreams.entries ∧ e.1 ≠ s.pid
  changes : ∀ mediaType, p.changes.affects mediaType = true → q.changes.affects mediaType = true
  source : (s.pes = .new ∧ probe = none ∧ q.changes.affects s.kind.mediaType = true ∧
      ∀ old oldProbe, (s.pid, old, oldProbe) ∈ p.oldStreams.entries →
        q.changes.affects old.kind.mediaType = true) ∨
    ∃ old, (s.pid, old, probe) ∈ p.oldStreams.entries ∧ old.kind = s.kind ∧ s.pes = old.pes ∧
      (old.trackIndex = s.trackIndex ∨ q.changes.affects s.kind.mediaType = true)

theorem addStream_adds (p : PmtInstall π) (kind : StreamKind) (ti : Nat) (language : Option String)
    (pid : Nat) : ∃ s probe, Adds p (p.addStream kind ti language pid) s probe ∧ s.kind = kind ∧
      s.trackIndex = ti := by
  unfold addStream
  cases hget : p.oldStreams.get? pid with
  | none =>
    have hn (e) (he : e ∈ p.oldStreams.entries) : e.1 ≠ pid := by
      rintro rfl
      rw [get?_of_mem (v := e.2) he] at hget
      cases hget
    refine ⟨_, _, ⟨rfl, rfl, rfl, fun e => ⟨fun he => ⟨he, hn e he⟩, And.left⟩, fun m hm => ?_,
      .inl ⟨rfl, rfl, ?_, fun old oldProbe hold => (hn _ hold rfl).elim⟩⟩, rfl, rfl⟩
    · exact (TopologyChanges.affects_mark ..).mpr (.inl hm)
    · exact (TopologyChanges.affects_mark ..).mpr (.inr rfl)
  | some en =>
    obtain ⟨old, probe⟩ := en
    have hmem := mem_of_get? hget
    dsimp only
    split
    · next hk =>
      refine ⟨_, _, ⟨rfl, rfl, rfl, fun e => mem_erase, fun m hm => ?_,
        .inr ⟨old, hmem, hk, rfl, ?_⟩⟩, rfl, rfl⟩
      · split
        · exact (TopologyChanges.affects_mark ..).mpr (.inl hm)
        · exact hm
      · split
        · exact .inr ((TopologyChanges.affects_mark ..).mpr (.inr rfl))
        · next ht => exact .inl (not_not.mp ht)
    · refine ⟨_, _, ⟨rfl, rfl, rfl, fun e => mem_erase, fun m hm => ?_,
        .inl ⟨rfl, rfl, ?_, fun old' oldProbe hold => ?_⟩⟩, rfl, rfl⟩
      · exact (TopologyChanges.affects_mark ..).mpr
          (.inl ((TopologyChanges.affects_mark ..).mpr (.inl hm)))
      · exact (TopologyChanges.affects_mark ..).mpr (.inr rfl)
      · obtain ⟨rfl, -⟩ := Prod.mk.inj (eq_of_mem hold hmem)
        exact (TopologyChanges.affects_mark ..).mpr
          (.inl ((TopologyChanges.affects_mark ..).mpr (.inr rfl)))

structure Traces (last : OldStreams π) (p : PmtInstall π) : Prop where
  probes : p.streamProbes.length = p.streams.length
  routes : ∀ pid i, p.pidToStream pid = some i → ∃ s, p.streams[i]? = some s ∧ s.pid = pid
  left : ∀ e ∈ p.oldStreams.entries, e ∈ last.entries
  carried : ∀ (i : Nat) (s : StreamInfo) (probe : Option (StreamProbe π)), p.streams[i]? = some s →
    p.streamProbes[i]? = some probe → (s.pes = .new ∧ probe = none) ∨
      ∃ old, (s.pid, old, probe) ∈ last.entries ∧ old.kind = s.kind ∧ s.pes = old.pes
  origin : ∀ s ∈ p.streams, p.changes.affects s.kind.mediaType = true ∨
    ∃ old probe, (s.pid, old, probe) ∈ last.entries ∧ old.kind = s.kind ∧
    old.trackIndex = s.trackIndex
  kept : ∀ pid old probe, (pid, old, probe) ∈ last.entries →
    (pid, old, probe) ∈ p.oldStreams.entries ∨
    p.changes.affects old.kind.mediaType = true ∨
      ∃ s ∈ p.streams, s.pid = pid ∧ s.kind = old.kind ∧ s.trackIndex = old.trackIndex

namespace Traces

variable {last : OldStreams π} {p q : PmtInstall π} {s : StreamInfo}

theorem recount (h : Traces last p) (audioTrackCounter videoTrackCount : Nat) (ha : Bool) :
    Traces last { p with
      audioTrackCounter := audioTrackCounter
      videoTrackCount := videoTrackCount
      hasVideo := ha } :=
  { h with }

theorem adds (h : Traces last p) (ha : Adds p q s probe) : Traces last q := by
  have hla : (p.streams ++ [s])[p.streams.length]? = some s := getElem?_concat_length
  refine ⟨?_, fun pid i hi => ?_, fun e he => ?_, fun i t tProbe ht hp => ?_, fun t ht => ?_,
    fun pid old oldProbe hold => ?_⟩
  · rw [ha.streams, ha.streamProbes, length_append, length_append, h.probes]
    rfl
  · rw [ha.pidToStream] at hi
    rw [ha.streams]
    by_cases hpid : pid = s.pid
    · rw [hpid, Function.update_self] at hi
      cases hi
      exact ⟨s, hla, hpid.symm⟩
    · rw [Function.update_of_ne hpid] at hi
      obtain ⟨t, ht, htp⟩ := h.routes pid i hi
      exact ⟨t, by rw [List.getElem?_append_left (List.getElem?_eq_some_iff.mp ht).1, ht], htp⟩
  · exact h.left e ((ha.left e).mp he).1
  · rw [ha.streams] at ht
    rw [ha.streamProbes] at hp
    have hi := (List.getElem?_eq_some_iff.mp ht).1
    rw [length_append, length_singleton] at hi
    by_cases hlt : i < p.streams.length
    · rw [getElem?_append_left hlt] at ht
      rw [getElem?_append_left (h.probes ▸ hlt)] at hp
      exact h.carried i t tProbe ht hp
    · obtain rfl : i = p.streams.length := by omega
      obtain rfl := Option.some.inj (hla.symm.trans ht)
      rw [← h.probes, getElem?_concat_length] at hp
      cases hp
      rcases ha.source with ⟨hpes, hn, -⟩ | ⟨old, hold, hk, hpes, -⟩
      · exact .inl ⟨hpes, hn⟩
      · exact .inr ⟨old, h.left _ hold, hk, hpes⟩
  · rw [ha.streams, mem_append, mem_singleton] at ht
    rcases ht with ht | rfl
    · exact (h.origin t ht).imp_left (ha.changes _)
    · rcases ha.source with ⟨-, -, haf, -⟩ | ⟨old, hold, hk, -, htr | haf⟩
      · exact .inl haf
      · exact .inr ⟨old, _, h.left _ hold, hk, htr⟩
      · exact .inl haf
  · rcases h.kept pid old oldProbe hold with hl | haf | ⟨t, ht, hke⟩
    · by_cases hpid : pid = s.pid
      · subst hpid
        rcases ha.source with ⟨-, -, -, hm⟩ | ⟨old', hold', hk, -, htr⟩
        · exact .inr (.inl (hm old oldProbe hl))
        · obtain ⟨rfl, -⟩ := Prod.mk.inj (eq_of_mem hold' hl)
          rcases htr with htr | haf
          · refine .inr (.inr ⟨s, ?_, rfl, hk.symm, htr.symm⟩)
            rw [ha.streams]
            exact mem_append_right _ mem_cons_self
          · exact .inr (.inl (hk ▸ haf))
      · exact .inl ((ha.left _).mpr ⟨hl, hpid⟩)
    · exact .inr (.inl (ha.changes _ haf))
    · refine .inr (.inr ⟨t, ?_, hke⟩)
      rw [ha.streams]
      exact mem_append_left _ ht

end Traces

structure Counted (p : PmtInstall π) : Prop where
  video : tracks .video p.streams = range (if p.hasVideo then 1 else 0)
  audio : tracks .audio p.streams = range p.audioTrackCounter

theorem addStream_counts (p : PmtInstall π) (kind : StreamKind) (ti : Nat) (language : Option String)
    (pid : Nat) : (p.addStream kind ti language pid).hasVideo = p.hasVideo ∧
      (p.addStream kind ti language pid).audioTrackCounter = p.audioTrackCounter := by
  unfold addStream
  split
  · exact ⟨rfl, rfl⟩
  · split <;> exact ⟨rfl, rfl⟩

section Entries

variable {last : OldStreams π}

theorem addEntry_spec (hp : Traces last p ∧ Counted p) (e : PmtEntry) :
    Traces last (p.addEntry pr e) ∧ Counted (p.addEntry pr e) := by
  obtain ⟨ht, hc⟩ := hp
  unfold addEntry
  split
  · exact ⟨ht, hc⟩
  · next kind hk =>
    cases hm : kind.mediaType with
    | video =>
      dsimp only
      split
      · exact ⟨ht.recount _ _ _, hc.video, hc.audio⟩
      · next hv =>
        obtain ⟨s, probe, ha, rfl, htr⟩ := addStream_adds
          { p with videoTrackCount := p.videoTrackCount + 1, hasVideo := true } kind 0
          (streamLanguage pr.language e.descriptors.length e.descriptors) e.pid
        refine ⟨(ht.recount _ _ _).adds ha, ?_, ?_⟩
        · rw [ha.streams, tracks_concat, if_pos hm, htr, hc.video, if_neg hv, (addStream_counts ..).1]
          rfl
        · rw [ha.streams, tracks_concat, if_neg (by rw [hm]; decide), append_nil,
            (addStream_counts ..).2]
          exact hc.audio
    | audio =>
      obtain ⟨s, probe, ha, rfl, htr⟩ := addStream_adds
        { p with audioTrackCounter := p.audioTrackCounter + 1 } kind p.audioTrackCounter
        (streamLanguage pr.language e.descriptors.length e.descriptors) e.pid
      refine ⟨(ht.recount _ _ _).adds ha, ?_, ?_⟩
      · rw [ha.streams, tracks_concat, if_neg (by rw [hm]; decide), append_nil,
          (addStream_counts ..).1]
        exact hc.video
      · rw [ha.streams, tracks_concat, if_pos hm, htr, hc.audio, (addStream_counts ..).2, range_succ]

theorem addEntries_spec (pr : Prober π) (hp : Traces last p ∧ Counted p) (es : List PmtEntry) :
    Traces last (es.foldl (addEntry pr) p) ∧
      Counted (es.foldl (addEntry pr) p) := by
  induction es generalizing p with
  | nil => exact hp
  | cons e es ih => exact ih (addEntry_spec hp e)

end Entries

namespace PacketDemuxer

variable {d : PacketDemuxer π}

def lastStreams (d : PacketDemuxer π) : OldStreams π :=
  .ofList (fun s => s.1.pid) (d.streams.zip (d.streamProbes ++ replicate d.streams.length none))

def replacement (prober : Prober π) (d : PacketDemuxer π) (entries : List UInt8) : PmtInstall π :=
  ((pmtEntries entries.length entries).foldl (addEntry prober)
    { streams := [], streamProbes := [], pidToStream := fun _ => none, oldStreams := d.lastStreams
      audioTrackCounter := 0, videoTrackCount := 0, hasVideo :=
        false, changes := .none, removedConfig := false
      retainedMetadataChanged := false }).dropOld

theorem installPmt_fields (pr : Prober π) (d : PacketDemuxer π) (lay es : List UInt8) :
    (d.installPmt pr lay es).streams = (d.replacement pr es).streams ∧
    (d.installPmt pr lay es).streamProbes = (d.replacement pr es).streamProbes ∧
    (d.installPmt pr lay es).pidToStream = (d.replacement pr es).pidToStream ∧
    (d.installPmt pr lay es).output =
      d.output.filter fun pkt => !(d.replacement pr es).changes.affects pkt.mediaType := by
  unfold installPmt
  dsimp only
  split <;> exact ⟨rfl, rfl, rfl, rfl⟩

theorem replacement_spec (pr : Prober π) (d : PacketDemuxer π) (entries : List UInt8) :
    Traces d.lastStreams (d.replacement pr entries) ∧ Counted (d.replacement pr entries) ∧
      ∀ pid old probe, (pid, old, probe) ∈ d.lastStreams.entries →
        (d.replacement pr entries).changes.affects old.kind.mediaType = true ∨
          ∃ s ∈ (d.replacement pr entries).streams,
            s.pid = pid ∧ s.kind = old.kind ∧ s.trackIndex = old.trackIndex := by
  have hstart : Traces d.lastStreams ({ streams := [], streamProbes := [], pidToStream := fun _ => none
                                        oldStreams := d.lastStreams, audioTrackCounter := 0, videoTrackCount := 0
                                        hasVideo := false, changes := .none, removedConfig := false
                                        retainedMetadataChanged := false } : PmtInstall π) :=
    ⟨rfl, by simp, fun e he => he, by simp, by simp, fun pid old probe hold => .inl hold⟩
  obtain ⟨htraces, hcounted⟩ :=
    addEntries_spec pr ⟨hstart, rfl, rfl⟩ (pmtEntries entries.length entries)
  unfold replacement
  generalize (pmtEntries entries.length entries).foldl (addEntry pr) _ = p at htraces hcounted
  have hmarks (mt : MediaType) : p.dropOld.changes.affects mt = true ↔
      p.changes.affects mt = true ∨ ∃ e ∈ p.oldStreams.entries, e.2.1.kind.mediaType = mt := by
    have hfold : p.dropOld.changes = (p.oldStreams.values.map fun old => old.1.kind).foldl
        TopologyChanges.mark p.changes := by
      rw [foldl_map]
      rfl
    rw [hfold, TopologyChanges.affects_marks]
    simp [values]
  refine ⟨⟨htraces.probes, htraces.routes, htraces.left, htraces.carried, fun s hs => ?_,
    fun pid old probe hold => ?_⟩, ⟨hcounted.video, hcounted.audio⟩, fun pid old probe hold => ?_⟩
  · exact (htraces.origin s hs).imp_left fun h => (hmarks _).mpr (.inl h)
  · exact (htraces.kept pid old probe hold).imp_right (.imp_left fun h => (hmarks _).mpr (.inl h))
  · rcases htraces.kept pid old probe hold with hleft | haffects | hkept
    · exact .inl ((hmarks _).mpr (.inr ⟨_, hleft, rfl⟩))
    · exact .inl ((hmarks _).mpr (.inl haffects))
    · exact .inr hkept

theorem mem_lastStreams (hpr : d.streamProbes.length = d.streams.length)
    (h : (pid, old, probe) ∈ d.lastStreams.entries) :
    old.pid = pid ∧ ∃ i : Nat, d.streams[i]? = some old ∧ d.streamProbes[i]? = some probe := by
  obtain ⟨hmem, hpid⟩ := mem_ofList h
  obtain ⟨i, hi⟩ := getElem?_of_mem hmem
  obtain ⟨hold, hp⟩ := getElem?_zip_eq_some.mp hi
  have hlt := (List.getElem?_eq_some_iff.mp hold).1
  rw [getElem?_append_left (hpr ▸ hlt)] at hp
  exact ⟨hpid, i, hold, hp⟩

theorem exists_lastStream {i : Nat} (hp : d.streamProbes.length = d.streams.length)
    (hs : d.streams[i]? = some s) : ∃ j t probe, i ≤ j ∧ d.streams[j]? = some t ∧ t.pid = s.pid ∧
      (s.pid, t, probe) ∈ d.lastStreams.entries := by
  have hlt := (List.getElem?_eq_some_iff.mp hs).1
  obtain ⟨probe, hpr⟩ : ∃ probe, d.streamProbes[i]? = some probe :=
    ⟨_, getElem?_eq_getElem (hp.symm ▸ hlt)⟩
  have hzip : (d.streams.zip (d.streamProbes ++ replicate d.streams.length none))[i]? =
      some (s, probe) := by
    refine getElem?_zip_eq_some.mpr ⟨hs, ?_⟩
    rw [getElem?_append_left (hp ▸ hlt), hpr]
  obtain ⟨j, ⟨t, tProbe⟩, hij, ht, hpid, hmem⟩ :=
    exists_last_of_ofList (fun s : StreamInfo × Option (StreamProbe π) => s.1.pid) hzip
  exact ⟨j, t, tProbe, hij, (getElem?_zip_eq_some.mp ht).1, hpid, hmem⟩

end PacketDemuxer

def Unshared (streams : List StreamInfo) : Prop :=
  ∀ s ∈ streams, ∀ t ∈ streams, s.pid = t.pid → s.kind.mediaType = t.kind.mediaType

instance (streams : List StreamInfo) : Decidable (Unshared streams) := by
  unfold Unshared
  infer_instance

/-- Old streams of a media type that the new layout does not change go on under their
track indexes, even where several streams share a PID. -/
theorem exists_kept_stream (pr : Prober π) {d : PacketDemuxer π} (es : List UInt8)
    (hp : d.streamProbes.length = d.streams.length) (htr : tracks mt d.streams = range n)
    (huns : Unshared d.streams)
    (hch : (d.replacement pr es).changes.affects mt = false) (hs : s ∈ d.streams)
    (hm : s.kind.mediaType = mt) :
    ∃ t ∈ (d.replacement pr es).streams, t.pid = s.pid ∧
      t.kind = s.kind ∧ t.trackIndex = s.trackIndex := by
  obtain ⟨htra, hc, hke⟩ := d.replacement_spec pr es
  obtain ⟨i, hi⟩ := getElem?_of_mem hs
  obtain ⟨j, last, probe, hij, hj, hpid, hmem⟩ := PacketDemuxer.exists_lastStream hp hi
  have hl : last.kind.mediaType = mt := (huns last (mem_of_getElem? hj) s hs hpid).trans hm
  have hun {s' : StreamInfo} (h : s'.kind.mediaType = mt) :
      ¬(d.replacement pr es).changes.affects s'.kind.mediaType = true := by
    rw [h, hch]
    exact Bool.false_ne_true
  obtain ⟨t, ht, htp, htk, htt⟩ := (hke s.pid last probe hmem).resolve_left (hun hl)
  rcases Nat.eq_or_lt_of_le hij with rfl | hlt
  · obtain rfl := Option.some.inj (hi.symm.trans hj)
    exact ⟨t, ht, htp, htk, htt⟩
  · have htrack := trackIndex_lt htr hi hj hm hl hlt
    obtain ⟨m, hnew⟩ : ∃ m, tracks mt (d.replacement pr es).streams = range m := by
      cases mt
      · exact ⟨_, hc.video⟩
      · exact ⟨_, hc.audio⟩
    have hta : t.trackIndex ∈ tracks mt (d.replacement pr es).streams :=
      mem_tracks.mpr ⟨t, ht, by rw [htk, hl], rfl⟩
    rw [hnew, mem_range] at hta
    have hb : s.trackIndex ∈ tracks mt (d.replacement pr es).streams := by
      rw [hnew, mem_range]
      omega
    obtain ⟨u, hu, hum, hut⟩ := mem_tracks.mp hb
    obtain ⟨old, oldProbe, hold, hol, holdtrack⟩ := (htra.origin u hu).resolve_left (hun hum)
    obtain ⟨holdpid, k, hk, -⟩ := PacketDemuxer.mem_lastStreams hp hold
    have ho : old.kind.mediaType = mt := by rw [hol, hum]
    obtain rfl : i = k := by
      rcases Nat.lt_trichotomy i k with hik | hik | hik
      · have := trackIndex_lt htr hi hk hm ho hik
        omega
      · exact hik
      · have := trackIndex_lt htr hk hi ho hm hik
        omega
    obtain rfl := Option.some.inj (hi.symm.trans hk)
    exact ⟨u, hu, holdpid.symm, hol.symm, hut⟩

end Restream.Mpegts
