import Restream.TsStreams
import Restream.TsReplacement
import Restream.PmtRejection

/-! The demuxer's tables of streams: what a transport packet can do to them, and that they
stay parallel and hold nothing of another stream. -/

namespace Restream.Mpegts

namespace AdtsFraming

theorem cutFrames_pushed :
    ∀ p ∈ (cutFrames ti carried whole n pesFirst ex first rest).2.1, tag p = (.audio, ti) := by
  induction n generalizing pesFirst ex first rest with
  | zero => simp [cutFrames]
  | succ n ih =>
    intro p hp
    rw [cutFrames] at hp
    split at hp
    · cases hp
    · split at hp
      · cases hp
      · split at hp
        · split at hp
          · split at hp
            · split at hp <;> cases hp
            · rcases List.mem_cons.mp hp with rfl | hp
              · rfl
              · exact ih p hp
          · cases hp
        · split at hp <;> cases hp

theorem frameFrom_pushed :
    ∀ p ∈ (frameFrom data pesTimestamps ti ex first resume).2.1, tag p = (.audio, ti) := by
  intro p hp
  rw [frameFrom] at hp
  split at hp
  · cases hp
  · exact cutFrames_pushed p hp

theorem frame_pushed {f : AdtsFraming} :
    ∀ p ∈ (f.frame data pesTimestamps ti).2.1, tag p = (.audio, ti) := by
  intro p hp
  rw [frame] at hp
  split at hp
  · exact frameFrom_pushed p hp
  · split at hp
    · split at hp
      · rcases List.mem_cons.mp hp with rfl | hp
        · rfl
        · exact frameFrom_pushed p hp
      · exact frameFrom_pushed p hp
    · cases hp
    · exact frameFrom_pushed p hp

end AdtsFraming

namespace StreamInfo

variable {s : StreamInfo}

theorem flushPes_pushed (s : StreamInfo) : ∀ p ∈ s.flushPes.2.1, Mpegts.tag p = s.tag := by
  intro p hp
  unfold flushPes at hp
  split at hp
  · cases hp
  · split at hp
    · next hk =>
      have hown : s.tag = (.audio, s.trackIndex) := by rw [tag, hk]; rfl
      rw [hown]
      dsimp only at hp
      split at hp
      · exact AdtsFraming.frame_pushed p hp
      · split at hp
        · rcases List.mem_append.mp hp with hp | hp
          · exact AdtsFraming.frame_pushed p hp
          · obtain rfl := List.mem_singleton.mp hp
            exact hown
        · exact AdtsFraming.frame_pushed p hp
    · obtain rfl := List.mem_singleton.mp hp
      rfl

theorem complete_spec (s : StreamInfo) :
    s.Same s.complete.1 ∧ ∀ p ∈ s.complete.2, Mpegts.tag p = s.tag := by
  cases hlen : s.pes.expectedPayloadLen with
  | none =>
    rw [complete_none hlen]
    exact ⟨rfl, by simp⟩
  | some ex =>
    rw [complete_some hlen]
    split
    · exact ⟨flushPes_same _, flushPes_pushed _⟩
    · exact ⟨rfl, by simp⟩

theorem receive_spec (s : StreamInfo) (p : TsPayload) :
    s.Same (s.receive p).1 ∧ ∀ q ∈ (s.receive p).2, Mpegts.tag q = s.tag := by
  unfold receive
  split
  · dsimp only
    split
    · exact ⟨flushPes_same s, flushPes_pushed s⟩
    · next pes _ =>
      obtain ⟨hs, hp⟩ := complete_spec { s.flushPes.1 with pes := pes }
      have hf : s.Same { s.flushPes.1 with pes := pes } := (flushPes_same s).trans rfl
      refine ⟨hf.trans hs, fun q hq => ?_⟩
      rcases List.mem_append.mp hq with hq | hq
      · exact flushPes_pushed s q hq
      · exact (hp q hq).trans hf.tag_eq
  · exact complete_spec _

end StreamInfo

open List Option PacketDemuxer

variable {π : Type}

theorem length_tsPayload (h : tsPayload pkt = some p) : p.payload.length ≤ pkt.length := by
  unfold tsPayload at h
  split at h
  · next flags pidLow control afterHeader =>
    obtain ⟨-, h⟩ := ite_none_left_eq_some.mp h
    dsimp only at h
    obtain ⟨-, h⟩ := ite_none_left_eq_some.mp h
    cases h
    simp only [length_cons]
    split
    · cases afterHeader with
      | nil => simp
      | cons afLen rest => simp; omega
    · dsimp only
      omega
  · cases h

/-- The tables of the demuxer are parallel, its routes lead to streams of their PID, and
its tracks are counted, one video track at most. -/
structure Topology (d : PacketDemuxer π) : Prop where
  probes : d.streamProbes.length = d.streams.length
  routes : ∀ pid i, d.pidToStream pid = some i → ∃ s, d.streams[i]? = some s ∧ s.pid = pid
  video : ∃ n ≤ 1, tracks .video d.streams = List.range n
  audio : ∃ n, tracks .audio d.streams = List.range n

/-- What the streams of `d'` hold is new, or an old stream of `d` with the same PID and
kind held it: the PES with its framing, and the configuration. -/
def CarriesOver (d d' : PacketDemuxer π) : Prop :=
  ∀ (i : Nat) (s : StreamInfo) (probe : Option (StreamProbe π)), d'.streams[i]? = some s →
    d'.streamProbes[i]? = some probe → (s.pes = .new ∧ probe = none) ∨
      ∃ (j : Nat) (old : StreamInfo), d.streams[j]? = some old ∧ d.streamProbes[j]? = some probe ∧
        old.pid = s.pid ∧ old.kind = s.kind ∧ s.pes = old.pes

namespace Topology

variable {d d' : PacketDemuxer π} {i : Nat}

theorem exists_tracks (h : Topology d) (mt : MediaType) : ∃ n, tracks mt d.streams = range n := by
  cases mt with
  | video => exact h.video.imp fun _ => And.right
  | audio => exact h.audio

theorem of_eq (h : Topology d) (hs : d'.streams = d.streams) (hp : d'.streamProbes = d.streamProbes)
    (hr : d'.pidToStream = d.pidToStream) : Topology d' := by
  refine ⟨?_, ?_, ?_, ?_⟩
  · rw [hs, hp, h.probes]
  · rw [hs, hr]
    exact h.routes
  · rw [hs]
    exact h.video
  · rw [hs]
    exact h.audio

theorem distinct (h : Topology d) (hs : d.streams[i]? = some s) (ht : d.streams[j]? = some t)
    (htag : s.tag = t.tag) : i = j := by
  obtain ⟨n, hn⟩ := h.exists_tracks s.kind.mediaType
  have hm : t.kind.mediaType = s.kind.mediaType := (congrArg Prod.fst htag).symm
  have htr : s.trackIndex = t.trackIndex := congrArg Prod.snd htag
  rcases Nat.lt_trichotomy i j with hij | hij | hij
  · exact ((trackIndex_lt hn hs ht rfl hm hij).ne htr).elim
  · exact hij
  · exact ((trackIndex_lt hn ht hs hm rfl hij).ne htr.symm).elim

theorem tracks_set (hs : d.streams[i]? = some s) (hsa : s.Same s') (mt : MediaType) :
    tracks mt (d.streams.set i s') = tracks mt d.streams := by
  have ht (ss : List StreamInfo) : tracks mt ss =
      ((ss.map StreamInfo.tag).filter fun t => t.1 = mt).map Prod.snd := by
    rw [List.filter_map, List.map_map]
    rfl
  obtain ⟨hlt, rfl⟩ := List.getElem?_eq_some_iff.mp hs
  have hse : (d.streams.set i s').map StreamInfo.tag = d.streams.map StreamInfo.tag := by
    rw [map_set, hsa.tag_eq, ← map_set, set_getElem_self]
  rw [ht, ht, hse]

theorem emit (h : Topology d) (hs : d.streams[i]? = some s) (hsa : s.Same s')
    (hc : d'.core = d.core.emit i s' ps) (hp : d'.streamProbes.length = d.streams.length) :
    Topology d' := by
  have hst : d'.streams = d.streams.set i s' := congrArg DemuxCore.streams hc
  have hr : d'.pidToStream = d.pidToStream := congrArg DemuxCore.pidToStream hc
  refine ⟨by rw [hp, hst, length_set], fun pid j hj => ?_, ?_, ?_⟩
  · rw [hr] at hj
    obtain ⟨t, ht, hpid⟩ := h.routes pid j hj
    rw [hst]
    by_cases hij : j = i
    · subst hij
      obtain rfl := Option.some.inj (hs.symm.trans ht)
      refine ⟨s', List.getElem?_set_self (List.getElem?_eq_some_iff.mp hs).1, ?_⟩
      rw [hsa]
      exact hpid
    · exact ⟨t, by rw [getElem?_set_ne (Ne.symm hij), ht], hpid⟩
  · rw [hst, tracks_set hs hsa]
    exact h.video
  · rw [hst, tracks_set hs hsa]
    exact h.audio

end Topology

namespace PacketDemuxer

variable {d : PacketDemuxer π}

section

variable (h : d.streamProbes.length = d.streams.length)

include h

theorem length_tryBuildProbe :
    (tryBuildProbe pr d i pay).streamProbes.length = d.streams.length := by
  have hpad : d.streamProbes ++ replicate (d.streams.length - d.streamProbes.length) none =
      d.streamProbes := by
    rw [h, Nat.sub_self, replicate_zero, append_nil]
  unfold tryBuildProbe
  dsimp only
  rw [hpad]
  split
  · split
    · exact h
    · split <;> exact (length_set ..).trans h
  · exact h

theorem length_flushPes : (d.flushPes pr i).streamProbes.length = d.streams.length := by
  unfold flushPes
  split
  · exact h
  · dsimp only
    split
    · exact h
    · split
      · exact h
      · rw [length_tryBuildProbe] <;> rw [length_set]
        exact h

theorem length_flushCompletedPes :
    (d.flushCompletedPes pr i).streamProbes.length = d.streams.length := by
  unfold flushCompletedPes
  split
  · exact h
  · split
    · exact h
    · split
      · rw [length_flushPes] <;> rw [length_set]
        exact h
      · exact h

end

theorem streams_length_flushPes : (d.flushPes pr i).streams.length = d.streams.length := by
  cases hs : d.streams[i]? with
  | none =>
    unfold flushPes
    rw [hs]
  | some s =>
    have hc : (d.flushPes pr i).core = _ := core_flushPes hs
    have hst := congrArg (fun c => c.streams.length) hc
    exact hst.trans (length_set ..)

theorem length_receive (h : d.streamProbes.length = d.streams.length) (p : TsPayload) :
    (d.receive pr i p).streamProbes.length = d.streams.length := by
  unfold receive
  split
  · have hf : (d.flushPes pr i).streamProbes.length = d.streams.length := length_flushPes h
    have hs : (d.flushPes pr i).streams.length = d.streams.length := streams_length_flushPes
    dsimp only
    split
    · exact hf
    · split
      · exact hf
      · rw [length_flushCompletedPes] <;> rw [length_set]
        · exact hs
        · rw [hf, hs]
  · split
    · exact h
    · rw [length_flushCompletedPes] <;> rw [length_set]
      exact h

theorem installPmt_withSection :
    (d.withSection buf ex).installPmt pr lay es =
      (d.installPmt pr lay es).withSection buf ex := by
  unfold installPmt
  dsimp only [withSection]
  split <;> rfl

section
variable (pr : Prober π) (d : PacketDemuxer π)

theorem installPmt_layout (lay es : List UInt8) : (d.installPmt pr lay es).pmtLayout = lay := by
  unfold installPmt
  dsimp only
  split <;> rfl

theorem acceptPmt_cases (data : List UInt8) : d.acceptPmt pr data = d ∨
    ∃ lay es, lay ≠ d.pmtLayout ∧ d.acceptPmt pr data = d.installPmt pr lay es := by
  unfold acceptPmt
  split
  · split
    · exact .inl rfl
    · dsimp only
      split
      · exact .inl rfl
      · next hnew => exact .inr ⟨_, _, Ne.symm hnew, rfl⟩
  · exact .inl rfl

theorem collectPmt_cases (data : List UInt8) :
    (∃ buf ex, d.collectPmt pr data = d.withSection buf ex) ∨
    ∃ lay es buf ex, lay ≠ d.pmtLayout ∧
      d.collectPmt pr data = (d.installPmt pr lay es).withSection buf ex := by
  unfold collectPmt
  dsimp only
  split
  · exact .inl ⟨_, _, rfl⟩
  · generalize d.pmtBuf ++ data.take (d.pmtExpected - d.pmtBuf.length) = whole
    rcases acceptPmt_cases pr (d.withSection whole d.pmtExpected) whole with
      h | ⟨lay, es, hnew, h⟩
    · have hs := congrArg (withSection · [] 0) h
      exact .inl ⟨[], 0, hs⟩
    · rw [installPmt_withSection] at h
      have hi := congrArg (withSection · [] 0) h
      exact .inr ⟨lay, es, [], 0, hnew, hi⟩

theorem parsePmt_cases (pay : List UInt8) (pusi : Bool) :
    (∃ buf ex, d.parsePmt pr pay pusi = d.withSection buf ex) ∨
    ∃ lay es buf ex, lay ≠ d.pmtLayout ∧
      d.parsePmt pr pay pusi = (d.installPmt pr lay es).withSection buf ex := by
  unfold parsePmt
  split
  · dsimp only
    split
    · split
      · next hi lo rest _ _ =>
        rcases collectPmt_cases pr (d.withSection [] (length12 hi lo + 3))
          (0x02 :: hi :: lo :: rest) with ⟨buf, ex, h⟩ | ⟨lay, es, buf, ex, hnew, h⟩
        · exact .inl ⟨buf, ex, h⟩
        · refine .inr ⟨lay, es, buf, ex, hnew, ?_⟩
          rw [installPmt_withSection] at h
          exact h
      · exact .inl ⟨_, _, rfl⟩
    · exact .inl ⟨_, _, rfl⟩
  · split
    · exact collectPmt_cases pr d pay
    · exact .inl ⟨_, _, rfl⟩

end

def route (d : PacketDemuxer π) (p : TsPayload) : Option Nat :=
  if p.pid = patPid ∨ some p.pid = d.pmtPid then none else d.pidToStream p.pid

theorem processPayload_cases (pr : Prober π) (d : PacketDemuxer π) (p : TsPayload) :
    (∃ i, d.route p = some i ∧ d.processPayload pr p = d.receive pr i p) ∨
    (d.route p = none ∧ ((∃ pmtPid buf ex,
        d.processPayload pr p = { d with pmtPid := pmtPid, pmtBuf := buf, pmtExpected := ex }) ∨
      ∃ lay es buf ex, lay ≠ d.pmtLayout ∧
        d.processPayload pr p = (d.installPmt pr lay es).withSection buf ex)) := by
  unfold processPayload route
  by_cases hpat : p.pid = patPid
  · rw [if_pos hpat, if_pos (.inl hpat)]
    refine .inr ⟨rfl, .inl ?_⟩
    unfold parsePat
    split
    · exact ⟨_, _, _, rfl⟩
    · split
      · dsimp only
        split <;> exact ⟨_, _, _, rfl⟩
      · exact ⟨_, _, _, rfl⟩
  · by_cases hpmt : some p.pid = d.pmtPid
    · rw [if_neg hpat, if_pos hpmt, if_pos (.inr hpmt)]
      refine .inr ⟨rfl, ?_⟩
      rcases parsePmt_cases pr d p.payload p.payloadUnitStart with ⟨buf, ex, h⟩ | h
      · exact .inl ⟨_, buf, ex, h⟩
      · exact .inr h
    · rw [if_neg hpat, if_neg hpmt, if_neg (not_or.mpr ⟨hpat, hpmt⟩)]
      cases hr : d.pidToStream p.pid with
      | none => exact .inr ⟨rfl, .inl ⟨_, _, _, rfl⟩⟩
      | some i => exact .inl ⟨i, rfl, rfl⟩

end PacketDemuxer

section Tables

theorem Topology.installPmt (pr : Prober π) (d : PacketDemuxer π) (lay es : List UInt8) :
    Topology (d.installPmt pr lay es) := by
  obtain ⟨ht, hc, -⟩ := d.replacement_spec pr es
  obtain ⟨hs, hp, hr, -⟩ := d.installPmt_fields pr lay es
  refine ⟨?_, ?_, ?_, ?_⟩
  · rw [hs, hp, ht.probes]
  · rw [hs, hr]
    exact ht.routes
  · rw [hs]
    exact ⟨_, by split <;> decide, hc.video⟩
  · rw [hs]
    exact ⟨_, hc.audio⟩

theorem Topology.carriesOver_installPmt (h : Topology d) (pr : Prober π) (lay es : List UInt8) :
    CarriesOver d (d.installPmt pr lay es) := by
  intro i s probe hs hp
  obtain ⟨hst, hpr, -⟩ := d.installPmt_fields pr lay es
  rw [hst] at hs
  rw [hpr] at hp
  rcases (d.replacement_spec pr es).1.carried i s probe hs hp with hf | ⟨old, hold, hk, hpes⟩
  · exact .inl hf
  · obtain ⟨hpid, j, hj, hjp⟩ := mem_lastStreams h.probes hold
    exact .inr ⟨j, old, hj, hjp, hpid, hk, hpes⟩

theorem Topology.carriesOver (h : Topology d) (pay : List UInt8) (pusi : Bool) :
    CarriesOver d (d.parsePmt pr pay pusi) := by
  rcases parsePmt_cases pr d pay pusi with ⟨buf, ex, hsa⟩ | ⟨lay, es, _, _, -, heq⟩
  · rw [hsa]
    exact fun i s probe hs hp => .inr ⟨i, s, hs, hp, rfl, rfl, rfl⟩
  · rw [heq]
    exact h.carriesOver_installPmt pr lay es

theorem CarriesOver.exists_old (h : CarriesOver d d') (ht : Topology d') (hs : s ∈ d'.streams) :
    s.pes = .new ∨ ∃ old ∈ d.streams, old.pid = s.pid ∧ old.kind = s.kind ∧ s.pes = old.pes := by
  obtain ⟨i, hi⟩ := getElem?_of_mem hs
  obtain ⟨probe, hp⟩ : ∃ probe, d'.streamProbes[i]? = some probe :=
    ⟨_, List.getElem?_eq_getElem (ht.probes.symm ▸ (List.getElem?_eq_some_iff.mp hi).1)⟩
  rcases h i s probe hi hp with ⟨hnew, -⟩ | ⟨j, old, hj, -, hold⟩
  · exact .inl hnew
  · exact .inr ⟨old, mem_of_getElem? hj, hold⟩

theorem PacketDemuxer.exists_routed (h : Topology d) (hr : d.route p = some i) :
    ∃ s, d.streams[i]? = some s ∧ s.pid = p.pid := by
  exact h.routes p.pid i (ite_none_left_eq_some.mp hr).2

theorem Topology.flushPes (h : Topology d) (pr : Prober π) (i : Nat) :
    Topology (d.flushPes pr i) := by
  cases hs : d.streams[i]? with
  | none =>
    unfold PacketDemuxer.flushPes
    rw [hs]
    exact h
  | some s =>
    exact h.emit hs (StreamInfo.flushPes_same s) (core_flushPes hs) (length_flushPes h.probes)

theorem Topology.processPayload (h : Topology d) (pr : Prober π) (p : TsPayload) :
    Topology (d.processPayload pr p) := by
  rcases processPayload_cases pr d p with
    ⟨i, hr, hn⟩ | ⟨-, ⟨pmtPid, buf, ex, hn⟩ | ⟨lay, es, buf, ex, -, hn⟩⟩
  · obtain ⟨s, hs, -⟩ := exists_routed h hr
    rw [hn]
    exact h.emit hs (s.receive_spec p).1 (core_receive hs p) (length_receive h.probes p)
  · rw [hn]
    exact h.of_eq rfl rfl rfl
  · rw [hn]
    exact (Topology.installPmt pr d lay es).of_eq rfl rfl rfl

theorem topology_new : Topology (PacketDemuxer.new (π := π)) :=
  ⟨rfl, by simp [PacketDemuxer.new], ⟨0, by simp, rfl⟩, 0, rfl⟩

end Tables

end Restream.Mpegts
