import Restream.TsTopology
import Restream.Exec

/-! The demuxer over a whole run of transport packets: queued packets carry no PID, and
still belong to the stream that has their media type and track index. -/

namespace Restream.Mpegts

open List Option PacketDemuxer Exec

variable {π : Type}

structure TopologyRun (π : Type) where
  demuxer : PacketDemuxer π
  queue : List (MediaPacket × Nat × StreamKind)

open TopologyRun

inductive DemuxEvent where
  | packet (pkt : List UInt8)
  | flush
  | drain

namespace TopologyRun

variable {prober : Prober π}

def start : TopologyRun π := { demuxer := .new, queue := [] }

def produce (r : TopologyRun π) (i : Nat) (next : PacketDemuxer π) : TopologyRun π :=
  { demuxer := next
    queue := r.queue ++ (next.output.drop r.demuxer.output.length).flatMap fun packet =>
      (r.demuxer.streams[i]?.map fun s => (packet, s.pid, s.kind)).toList }

def flushStream (prober : Prober π) (r : TopologyRun π) (i : Nat) : TopologyRun π :=
  r.produce i (r.demuxer.flushPes prober i)

def step (prober : Prober π) (r : TopologyRun π) : DemuxEvent → Option (TopologyRun π)
  | .packet pkt =>
    let next := r.demuxer.processTsPacket prober pkt
    match (tsPayload pkt).bind r.demuxer.route with
    | some i => some (r.produce i next)
    | none => some { demuxer := next, queue := r.queue.filter fun q => q.1 ∈ next.output }
  | .flush => some ((List.range r.demuxer.streams.length).foldl (flushStream prober) r)
  | .drain => some { demuxer := { r.demuxer with output := [] }, queue := [] }

/-- No PID of the streams belongs to video and to audio. -/
def SeparatePids (r : TopologyRun π) (_ : DemuxEvent) : Prop := Unshared r.demuxer.streams

instance (r : TopologyRun π) (e : DemuxEvent) : Decidable (SeparatePids r e) :=
  inferInstanceAs (Decidable (Unshared _))

/-- Every queued packet came from the stream that now has its media type and track index. -/
def Labelled (r : TopologyRun π) : Prop :=
  r.queue.map Prod.fst = r.demuxer.output ∧
    ∀ q ∈ r.queue, ∃ s ∈ r.demuxer.streams, s.tag = tag q.1 ∧ (s.pid, s.kind) = q.2

section Steps

variable {r : TopologyRun π} {s s' : StreamInfo} {next : PacketDemuxer π}

theorem produce_queue (hs : r.demuxer.streams[i]? = some s)
    (hc : next.core = r.demuxer.core.emit i s' ps) :
    (r.produce i next).queue = r.queue ++ ps.map fun p => (p, s.pid, s.kind) := by
  have ho : next.output = r.demuxer.output ++ ps := congrArg DemuxCore.output hc
  have hnew : next.output.drop r.demuxer.output.length = ps := by rw [ho, drop_left]
  simp only [produce, hnew, hs, map_some, toList_some]
  rw [map_eq_flatMap]

theorem Labelled.produce (h : r.Labelled) (hs : r.demuxer.streams[i]? = some s) (hsa : s.Same s')
    (htag : ∀ q ∈ ps, tag q = s.tag) (hc : next.core = r.demuxer.core.emit i s' ps) :
    (r.produce i next).Labelled := by
  have hlt := (List.getElem?_eq_some_iff.mp hs).1
  have hst : next.streams = r.demuxer.streams.set i s' := congrArg DemuxCore.streams hc
  have hou : next.output = r.demuxer.output ++ ps := congrArg DemuxCore.output hc
  have hmem : s' ∈ r.demuxer.streams.set i s' := mem_set hlt s'
  have hpid : (s'.pid, s'.kind) = (s.pid, s.kind) := by rw [hsa]
  refine ⟨?_, fun q hq => ?_⟩
  · rw [produce_queue hs hc, List.map_append, h.1, List.map_map]
    change _ = next.output
    rw [hou]
    congr 1
    exact map_id _
  · change ∃ t ∈ next.streams, _
    rw [hst]
    rw [produce_queue hs hc, mem_append, List.mem_map] at hq
    rcases hq with hq | ⟨p, hp, rfl⟩
    · obtain ⟨t, ht, hqt, ho⟩ := h.2 q hq
      obtain ⟨j, hj⟩ := getElem?_of_mem ht
      by_cases hij : j = i
      · subst hij
        obtain rfl := Option.some.inj (hs.symm.trans hj)
        exact ⟨s', hmem, hsa.tag_eq.trans hqt, hpid.trans ho⟩
      · refine ⟨t, mem_of_getElem? (i := j) ?_, hqt, ho⟩
        rw [getElem?_set_ne (Ne.symm hij), hj]
    · exact ⟨s', hmem, hsa.tag_eq.trans (htag p hp).symm, hpid⟩

theorem Labelled.table (h : r.Labelled) (hs : next.streams = r.demuxer.streams)
    (ho : next.output = r.demuxer.output) :
    ({ demuxer := next, queue := r.queue.filter fun q => q.1 ∈ next.output } : TopologyRun π).Labelled := by
  have hall : (r.queue.filter fun q => q.1 ∈ next.output) = r.queue := by
    refine filter_eq_self.mpr fun q hq => decide_eq_true ?_
    rw [ho, ← h.1]
    exact mem_map_of_mem hq
  rw [hall]
  exact ⟨h.1.trans ho.symm, by rw [hs]; exact h.2⟩

theorem Labelled.installPmt (h : r.Labelled) (prober : Prober π) (lay es : List UInt8)
    (hto : Topology r.demuxer) (hu : Unshared r.demuxer.streams)
    (hst : next.streams = (r.demuxer.installPmt prober lay es).streams)
    (ho : next.output = (r.demuxer.installPmt prober lay es).output) :
    ({ demuxer := next, queue := r.queue.filter fun q => q.1 ∈ next.output } : TopologyRun π).Labelled := by
  obtain ⟨hnew, -, -, hke⟩ := r.demuxer.installPmt_fields prober lay es
  rw [hnew] at hst
  rw [hke] at ho
  have hf : (r.queue.filter fun q => q.1 ∈ next.output) = r.queue.filter fun q =>
      !(r.demuxer.replacement prober es).changes.affects q.1.mediaType := by
    refine filter_congr fun q hq => ?_
    have hmem : q.1 ∈ r.demuxer.output := h.1 ▸ mem_map_of_mem hq
    rw [ho, Bool.eq_iff_iff, decide_eq_true_eq, mem_filter, and_iff_right hmem]
  rw [hf]
  refine ⟨?_, fun q hq => ?_⟩
  · rw [ho, ← h.1, List.filter_map]
    rfl
  · obtain ⟨hq, ha⟩ := mem_filter.mp hq
    obtain ⟨s, hs, htag, hor⟩ := h.2 q hq
    have hm : s.kind.mediaType = q.1.mediaType := congrArg Prod.fst htag
    obtain ⟨n, htr⟩ := hto.exists_tracks q.1.mediaType
    obtain ⟨t, ht, hpid, hk, htra⟩ := exists_kept_stream prober es hto.probes
      htr hu (Bool.not_eq_true' _ ▸ ha) hs hm
    refine ⟨t, hst ▸ ht, ?_, ?_⟩
    · rw [← htag, StreamInfo.tag, StreamInfo.tag, hk, htra]
    · rw [← hor, hpid, hk]

theorem flushStream_spec (prober : Prober π) (ht : Topology r.demuxer) (i : Nat) :
    Topology (r.flushStream prober i).demuxer ∧ (r.Labelled → (r.flushStream prober i).Labelled) := by
  refine ⟨ht.flushPes prober i, fun h => ?_⟩
  cases hs : r.demuxer.streams[i]? with
  | none =>
    have hn : r.demuxer.flushPes prober i = r.demuxer := by
      unfold flushPes
      rw [hs]
    have hsa : r.flushStream prober i = r := by
      rw [flushStream, hn, TopologyRun.produce]
      simp
    rw [hsa]
    exact h
  | some s =>
    exact h.produce hs (StreamInfo.flushPes_same s) (StreamInfo.flushPes_pushed _) (core_flushPes hs)

theorem flushStreams_spec (prober : Prober π) (ht : Topology r.demuxer) (indexes : List Nat) :
    Topology (indexes.foldl (flushStream prober) r).demuxer ∧
      (r.Labelled → (indexes.foldl (flushStream prober) r).Labelled) := by
  induction indexes generalizing r with
  | nil => exact ⟨ht, id⟩
  | cons i indexes ih =>
    obtain ⟨hn, hl⟩ := flushStream_spec prober ht i
    obtain ⟨hd, hk⟩ := ih hn
    exact ⟨hd, fun h => hk (hl h)⟩

theorem step_spec (ht : Topology r.demuxer) (hst : step prober r e = some r') :
    Topology r'.demuxer ∧ (Unshared r.demuxer.streams → r.Labelled → r'.Labelled) := by
  cases e with
  | packet pkt =>
    rw [step, processTsPacket] at hst
    cases hp : tsPayload pkt with
    | none =>
      rw [hp] at hst
      cases hst
      exact ⟨ht, fun _ h => h.table rfl rfl⟩
    | some p =>
      rw [hp] at hst
      dsimp only [bind_some] at hst
      have hk := ht.processPayload prober p
      rcases processPayload_cases prober r.demuxer p with
        ⟨i, hr, hn⟩ | ⟨hr, ⟨pmtPid, buf, ex, hn⟩ | ⟨lay, es, buf, ex, -, hn⟩⟩
      · rw [hr] at hst
        cases hst
        obtain ⟨s, hs, -⟩ := exists_routed ht hr
        obtain ⟨hsa, htag⟩ := s.receive_spec p
        refine ⟨hk, fun _ h => h.produce hs hsa htag ?_⟩
        rw [hn]
        exact core_receive hs p
      · rw [hr] at hst
        cases hst
        exact ⟨hk, fun _ h => h.table (by rw [hn]) (by rw [hn])⟩
      · rw [hr] at hst
        cases hst
        refine ⟨hk, fun hu h => h.installPmt prober lay es ht hu ?_ ?_⟩
        all_goals
          rw [hn]
          rfl
  | flush =>
    cases hst
    obtain ⟨hd, hl⟩ := flushStreams_spec prober ht (range r.demuxer.streams.length)
    exact ⟨hd, fun _ => hl⟩
  | drain =>
    cases hst
    exact ⟨ht.of_eq rfl rfl rfl, fun _ _ => ⟨rfl, by simp⟩⟩

end Steps

end TopologyRun

/-- After any events the demuxer's tables are consistent and a map table takes over only
what belongs to the same PID and kind. Where no PID was ever shared by video and audio,
queued packets belong to the stream that now has their track. -/
theorem demuxer_topology (prober : Prober π) {r : TopologyRun π}
    (h : Reachable (TopologyRun.step prober) anyLabel TopologyRun.start r) :
    Topology r.demuxer ∧
    (∀ payload pusi, CarriesOver r.demuxer (r.demuxer.parsePmt prober payload pusi)) ∧
    (Reachable (TopologyRun.step prober) TopologyRun.SeparatePids TopologyRun.start r →
      r.Labelled) := by
  have htopology := h.invariant (fun r => Topology r.demuxer)
    (fun _ _ _ hinv _ hs => (step_spec hinv hs).1) topology_new
  refine ⟨htopology, htopology.carriesOver, fun hseparate => ?_⟩
  have hinv := hseparate.invariant (fun r => Topology r.demuxer ∧ r.Labelled)
    (fun _ _ _ hinv hguard hstep =>
      have hnext := step_spec hinv.1 hstep
      ⟨hnext.1, hnext.2 hguard hinv.2⟩)
    ⟨topology_new, rfl, by simp [start]⟩
  exact hinv.2

def tablePacket (pidHigh pidLow : UInt8) (table : List UInt8) : List UInt8 :=
  let bytes := [0x47, 0x40 + pidHigh, pidLow, 0x10, 0x00] ++ withCrc table
  bytes ++ List.replicate (tsPacketSize - bytes.length) 0xFF

def programPacket : List UInt8 :=
  tablePacket 0x00 0x00 [0x00, 0xB0, 13, 0, 1, 0xC1, 0, 0, 0, 1, 0xF0, 0x00]

def mapPacket (streams : List (UInt8 × UInt8)) : List UInt8 :=
  tablePacket 0x10 0x00 ([0x02, 0xB0, UInt8.ofNat (13 + 5 * streams.length),
    0, 1, 0xC1, 0, 0, 0xE1, 0, 0xF0, 0] ++
    streams.flatMap fun s => [s.1, 0xE1, s.2, 0xF0, 0])

def oneBytePes : List UInt8 :=
  let bytes := [0x47, 0x41, 0x01, 0x10, 0, 0, 1, 0xC0, 0, 9, 0x80, 0x80, 5, 0x21, 0, 1, 0, 1, 0xAA]
  bytes ++ List.replicate (tsPacketSize - bytes.length) 0xFF

/-- The video stream moves to another PID while an audio packet is queued. -/
theorem demuxer_topology_video_moved : ∃ r : TopologyRun Unit,
    Reachable (TopologyRun.step noProber) TopologyRun.SeparatePids TopologyRun.start r ∧
      r.queue.length = 1 ∧ r.Labelled :=
  exists_reachable_and
    [.packet programPacket, .packet (mapPacket [(streamTypeH264, 0), (streamTypeAacLatm, 1)]),
      .packet oneBytePes, .packet (mapPacket [(streamTypeH264, 2), (streamTypeAacLatm, 1)])]
    (by decide +kernel)
    fun _ hr _ => (demuxer_topology noProber (hr.mono fun _ _ _ => trivial)).2.2 hr

/-- An audio stream that shares its PID with the video stream leaves without a mark. -/
theorem queued_audio_without_stream : ∃ r : TopologyRun Unit,
    Reachable (TopologyRun.step noProber) anyLabel TopologyRun.start r ∧ ¬r.Labelled := by
  refine exists_reachable_of_observed
    [.packet programPacket, .packet (mapPacket [(streamTypeAacLatm, 1)]), .packet oneBytePes,
      .packet (mapPacket [(streamTypeAacLatm, 1), (streamTypeH264, 1)]),
      .packet (mapPacket [(streamTypeH264, 1)])]
    (fun r => (∃ q ∈ r.queue, q.1.mediaType = .audio) ∧
      r.demuxer.streams.map StreamInfo.tag = [(.video, 0)])
    (by decide +kernel) fun r _ ⟨⟨q, hq, haudio⟩, hstreams⟩ hlabelled => ?_
  obtain ⟨s, hs, htag, -⟩ := hlabelled.2 q hq
  have hvideo := List.mem_map_of_mem (f := StreamInfo.tag) hs
  rw [hstreams, List.mem_singleton, htag] at hvideo
  cases haudio.symm.trans (congrArg Prod.fst hvideo)

end Restream.Mpegts
