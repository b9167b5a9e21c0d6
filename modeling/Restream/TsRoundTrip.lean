import Restream.TsMuxing
import Restream.TsBlocks
import Restream.ParameterSets

/-! The muxer and the demuxer as one: every call of the muxer comes back as one packet
of its stream, with its payload and its times. -/

namespace Restream.Mpegts

open Codec List Option TsMuxer MuxStreamConfig PacketDemuxer StreamKind

variable {π : Type}

/-- The bytes hold an IDR slice: a start code before a NAL unit of type 5. -/
def HoldsIdr (payload : List UInt8) : Prop :=
  ∃ before b after, payload = before ++ 0 :: 0 :: 1 :: b :: after ∧ b &&& 0x1F = 5

theorem holdsIdr_cons : HoldsIdr (a :: data) ↔
    (∃ rest, a :: data = 0 :: 0 :: 1 :: rest ∧ h264NalType rest = some 5) ∨ HoldsIdr data := by
  constructor
  · rintro ⟨pre, b, after, hd, hb⟩
    cases pre with
    | nil => exact .inl ⟨b :: after, hd, by rw [h264NalType, hb]⟩
    | cons _ pre => exact .inr ⟨pre, b, after, (List.cons.inj hd).2, hb⟩
  · rintro (⟨rest, hd, hr⟩ | ⟨pre, b, after, rfl, hb⟩)
    · cases rest with
      | nil => cases hr
      | cons b after => exact ⟨[], b, after, hd, Option.some.inj hr⟩
    · exact ⟨a :: pre, b, after, rfl, hb⟩

theorem not_holdsIdr_short (h : data.length < 4) : ¬HoldsIdr data := by
  rintro ⟨pre, b, after, rfl, -⟩
  simp at h
  omega

theorem h264NalType_append (h : n ≠ []) : h264NalType (n ++ data) =
    h264NalType n := by
  cases n with
  | nil => exact (h rfl).elim
  | cons => rfl

theorem exists_idr_closeNalu (n : Nalu) : (∃ u ∈ closeNalu (some n), h264NalType u = some 5) ↔
    h264NalType n = some 5 := by
  cases n with
  | nil => simp [closeNalu, h264NalType]
  | cons a n => simp [closeNalu]

theorem h264NalType_dropTrailingZeros :
    h264NalType (dropTrailingZeros n) = some 5 ↔ h264NalType n = some 5 := by
  constructor
  · intro h
    obtain ⟨rest, hr⟩ := dropTrailingZeros_isPrefix n
    have hne : dropTrailingZeros n ≠ [] := by
      intro hnil
      rw [hnil] at h
      cases h
    rw [← hr, h264NalType_append hne, h]
  · exact fun h => h264NalType_strip h (by decide)

theorem exists_idr_scanNalus (cur : Option Nalu) (data : List UInt8) :
    (∃ u ∈ scanNalus cur data, h264NalType u = some 5) ↔
      (∃ n ∈ cur, h264NalType (n ++ data) = some 5) ∨ HoldsIdr data := by
  induction cur, data using scanNalus.induct with
  | case1 cur a b c rest hc ih =>
    obtain ⟨rfl, rfl, rfl⟩ := hc
    have hcl : (∃ u ∈ closeNalu (cur.map dropTrailingZeros), h264NalType u = some 5) ↔
        ∃ n ∈ cur, h264NalType (n ++ 0 :: 0 :: 1 :: rest) = some 5 := by
      cases cur with
      | none => simp [closeNalu]
      | some n =>
        rw [map_some, exists_idr_closeNalu, h264NalType_dropTrailingZeros]
        cases n <;> simp [h264NalType]
    have hr : HoldsIdr (0 :: 0 :: 1 :: rest) ↔ h264NalType rest = some 5 ∨ HoldsIdr rest := by
      simp [holdsIdr_cons]
    rw [scanNalus, if_pos ⟨rfl, rfl, rfl⟩, hr, ← hcl]
    simp only [mem_append, or_and_right, exists_or, ih, mem_some_iff, exists_eq_left', nil_append]
  | case2 cur a b c rest hc ih =>
    have hr : HoldsIdr (a :: b :: c :: rest) ↔ HoldsIdr (b :: c :: rest) := by
      rw [holdsIdr_cons, or_iff_right]
      rintro ⟨tail, ht, -⟩
      simp only [List.cons.injEq] at ht
      exact hc ⟨ht.1, ht.2.1, ht.2.2.1⟩
    rw [scanNalus, if_neg hc, ih, hr]
    cases cur <;> simp
  | case3 cur tail ht =>
    have hs : tail.length < 3 := by
      rcases tail with _ | ⟨a, _ | ⟨b, _ | ⟨c, rest⟩⟩⟩
      · simp
      · simp
      · simp
      · exact (ht a b c rest rfl).elim
    rw [scanNalus.eq_2 _ _ ht, or_iff_left (not_holdsIdr_short (by omega))]
    cases cur with
    | none => simp [closeNalu]
    | some n => simpa using exists_idr_closeNalu (n ++ tail)

theorem h264IsKeyframe_iff : h264IsKeyframe pay = true ↔ HoldsIdr pay := by
  rw [h264IsKeyframe, splitAnnexbNalus]
  simpa using exists_idr_scanNalus none pay

structure MuxCall where
  mediaType : MediaType
  trackIndex : Nat
  info : PacketMeta
  payload : List UInt8

def TsMuxer.muxAll : TsMuxer → List MuxCall → TsMuxer × List UInt8
  | m, [] => (m, [])
  | m, call :: calls =>
    let (m, bytes) := m.muxPacketInto call.mediaType call.trackIndex call.info call.payload
    let (m, rest) := muxAll m calls
    (m, bytes ++ rest)

open MuxCall

def MuxStreamConfig.key (c : MuxStreamConfig) : MediaType × Nat := (c.mediaType, c.trackIndex)

namespace MuxCall

def stream (call : MuxCall) : MediaType × Nat := (call.mediaType, call.trackIndex)

/-- A call for one of the streams, with a payload that fits a PES and times that fit
its header. -/
structure WellFormed (audio : List AudioMeta) (call : MuxCall) : Prop where
  stream : call.stream = (.video, 0) ∨ ∃ a ∈ audio, call.stream = (.audio, a.trackIndex)
  nonempty : 1 ≤ call.payload.length
  size : call.payload.length ≤ 512 * 1024
  frame : call.mediaType = .audio → IsAdtsFrame call.payload
  dts_nonneg : 0 ≤ call.info.dtsMs
  dts_le_pts : call.info.dtsMs ≤ call.info.ptsMs
  pts_lt : 90 * call.info.ptsMs < 2 ^ 33

def received (codec : String) (i : Nat) (call : MuxCall) : MediaPacket :=
  { mediaType := call.mediaType
    format := .raw
    isKeyframe := match call.mediaType with
      | .audio => false
      | .video =>
        if videoStreamType codec = streamTypeH264 then
          call.info.isKeyframe || h264IsKeyframe call.payload
        else h265IsKeyframe call.payload
    trackIndex := i - 1
    pts := call.info.ptsMs
    dts := call.info.dtsMs
    payload := call.payload }

end MuxCall

section Streams

variable {codec : String} {audio : List AudioMeta} {i : Nat} {c : MuxStreamConfig}

theorem key_zero :
    (configStreams (some codec) audio)[0]?.map key = some (.video, 0) := rfl

theorem key_succ :
    (configStreams (some codec) audio)[i + 1]?.map key =
      audio[i]?.map fun a => (.audio, a.trackIndex) := by
  rw [getElem?_configStreams_succ, Option.map_map]
  rfl

theorem key_inj (hd : (audio.map AudioMeta.trackIndex).Nodup) {key : MediaType × Nat}
    (hi : (configStreams (some codec) audio)[i]?.map MuxStreamConfig.key = some key)
    (hj : (configStreams (some codec) audio)[j]?.map MuxStreamConfig.key = some key) : i = j := by
  cases i with
  | zero =>
    cases j with
    | zero => rfl
    | succ j =>
      rw [key_zero] at hi
      rw [key_succ, ← hi, map_eq_some_iff] at hj
      obtain ⟨a, -, ha⟩ := hj
      cases ha
  | succ i =>
    cases j with
    | zero =>
      rw [key_zero] at hj
      rw [key_succ, ← hj, map_eq_some_iff] at hi
      obtain ⟨a, -, ha⟩ := hi
      cases ha
    | succ j =>
      rw [key_succ, map_eq_some_iff] at hi hj
      obtain ⟨a, hai, rfl⟩ := hi
      obtain ⟨b, hbj, hkey⟩ := hj
      have hi' : (audio.map AudioMeta.trackIndex)[i]? =
          some a.trackIndex := by rw [getElem?_map, hai]; rfl
      have hj' : (audio.map AudioMeta.trackIndex)[j]? = some a.trackIndex := by
        rw [getElem?_map, hbj]
        exact congrArg some (congrArg Prod.snd hkey)
      rw [(List.getElem?_inj (List.getElem?_eq_some_iff.mp hi').1 hd).mp (hi'.trans hj'.symm)]

theorem MuxCall.WellFormed.exists_stream {call : MuxCall}
    (h : call.WellFormed audio) (codec : String) :
    ∃ (i : Nat) (c : MuxStreamConfig),
      (configStreams (some codec) audio)[i]? = some c ∧ c.key = call.stream := by
  rcases h.stream with hv | ⟨a, ha, hau⟩
  · exact ⟨0, _, rfl, hv.symm⟩
  · obtain ⟨i, hi⟩ := getElem?_of_mem ha
    exact ⟨i + 1, audioStream (0x101 + i) a, by rw [getElem?_configStreams_succ, hi]; rfl, hau.symm⟩

theorem streamIndex_eq (hd : (audio.map AudioMeta.trackIndex).Nodup) {m : TsMuxer}
    (hm : m.streams = configStreams (some codec) audio) (hc : m.streams[i]? = some c)
    {call : MuxCall} (hkey : c.key = call.stream) :
    m.streamIndex call.mediaType call.trackIndex = some i := by
  have hat : m.streams[i]?.map key = some call.stream := by rw [hc, map_some, hkey]
  obtain ⟨hme, ht⟩ := Prod.mk.inj hkey
  obtain ⟨hlt, rfl⟩ := List.getElem?_eq_some_iff.mp hc
  rw [streamIndex, List.findIdx?_eq_some_iff_getElem]
  refine ⟨hlt, by simp [hme, ht], fun j hj hf => ?_⟩
  have hjlt := hj.trans hlt
  have ho : m.streams[j]?.map key = some call.stream := by
    rw [getElem?_eq_getElem hjlt]
    exact congrArg some (Prod.ext (of_decide_eq_true hf).1 (of_decide_eq_true hf).2)
  rw [hm] at hat ho
  have := key_inj hd hat ho
  omega

theorem videoKind_eq (h : fromStreamType (videoStreamType codec) = some kind) :
    kind = if videoStreamType codec = streamTypeH264 then .h264 else .h265 := by
  unfold videoStreamType at h ⊢
  split at h
  · next hc => simpa [hc, fromStreamType] using h.symm
  · next hc =>
    split at h
    · next hh =>
      simp only [hh, if_true]
      simpa [fromStreamType, streamTypeH264, streamTypeH265] using h.symm
    · next hh => simpa [hh, fromStreamType] using h.symm

theorem unitOf_received (hc : (configStreams (some codec) audio)[i]? = some c) (hs : IsStream i c s)
    {call : MuxCall} (hkey : c.key = call.stream) (hca : call.WellFormed audio) :
    s.unitOf call.info.isKeyframe (msToTs call.info.ptsMs % 2 ^ 33) (msToTs call.info.dtsMs % 2 ^ 33)
    call.payload = call.received codec i := by
  have hlow := hca.dts_nonneg
  have hle := hca.dts_le_pts
  have hh := hca.pts_lt
  have hpts : msToTs call.info.ptsMs % 2 ^ 33 = msToTs call.info.ptsMs :=
    Int.emod_eq_of_lt (by unfold msToTs; omega) (by unfold msToTs; omega)
  have hdts : msToTs call.info.dtsMs % 2 ^ 33 = msToTs call.info.dtsMs :=
    Int.emod_eq_of_lt (by unfold msToTs; omega) (by unfold msToTs; omega)
  have hm : c.mediaType = call.mediaType := congrArg Prod.fst hkey
  rw [StreamInfo.unitOf, hpts, hdts, tsToMs_msToTs, tsToMs_msToTs, hs.trackIndex, received, ← hm,
    hs.mediaType (configStreams_oneVideo codec audio) hc]
  cases i with
  | zero =>
    obtain rfl : videoStream codec = c := Option.some.inj hc
    rw [videoKind_eq hs.kind]
    by_cases hco : videoStreamType codec = streamTypeH264
    · simp only [if_pos hco, videoStream]
    · simp only [if_neg hco, videoStream]
  | succ i =>
    rw [getElem?_configStreams_succ, map_eq_some_iff] at hc
    obtain ⟨a, -, rfl⟩ := hc
    rw [← Option.some.inj hs.kind]
    rfl

end Streams

structure Serves (codec : String) (audio : List AudioMeta)
    (done : List MuxCall) (m : TsMuxer) (core : DemuxCore) :
    Prop where
  fits : m.WithVideo
  streams : m.streams = configStreams (some codec) audio
  continuity : m.continuity.length = m.streams.length
  last : ∀ (i : Nat) (c : MuxStreamConfig), m.streams[i]? = some c →
    ∃ last, m.lastDts90k[i]? = some last ∧
    (last = i64Min ∨ ∃ call ∈ done, call.stream = c.key ∧ last = msToTs call.info.dtsMs)
  delivers : Delivers (fun i => (done.filter fun call =>
    (m.streams[i]?.map key) = some call.stream).map (MuxCall.received codec i)) core
  fresh : m.lastPatPmtDts = none → done = [] ∧ core.streams = [] ∧
    core.output = [] ∧ core.pmtLayout = []
  installed : m.lastPatPmtDts ≠ none → Installed m.streams m.pmtPid core

namespace Serves

variable {codec : String} {audio : List AudioMeta} {prober : Prober π} {d : PacketDemuxer π}
  {call : MuxCall}

theorem start (hf : pmtSectionLen (configStreams (some codec) audio) ≤ 1021)
    (service : TsServiceMetadata) :
    Serves codec audio [] (.newWithMetadata (some codec) audio service)
      (PacketDemuxer.new (π := π)).core := by
  refine ⟨⟨configStreams_oneVideo codec audio, rfl, hf⟩, rfl, by simp [newWithMetadata],
    fun i c hc => ?_, ⟨?_, ?_, ?_, ?_, ?_⟩, fun _ => ⟨rfl, rfl, rfl, rfl⟩, fun h => (h rfl).elim⟩
  · have hlt : i < (configStreams (some codec) audio).length := (List.getElem?_eq_some_iff.mp hc).1
    simp [newWithMetadata, hlt]
  all_goals simp [core, PacketDemuxer.new]

theorem tables (h : Serves codec audio done m d.core) (prober : Prober π) (info : PacketMeta) :
    Installed m.streams m.pmtPid ((m.duePayloads info).foldl (.processPayload prober) d).core ∧
    Delivers (fun i => (done.filter fun call =>
      (m.streams[i]?.map key) = some call.stream).map (received codec i))
      ((m.duePayloads info).foldl (.processPayload prober) d).core := by
  by_cases hn : m.lastPatPmtDts = none
  · obtain ⟨rfl, hs, ho, hl⟩ := h.fresh hn
    rw [due_of_first hn]
    exact process_first_tables h.fits hs ho hl
  · rw [duePayloads]
    split
    · exact process_next_tables h.fits (h.installed hn) h.delivers
    · exact ⟨h.installed hn, h.delivers⟩

theorem next (h : Serves codec audio done m d.core) (prober : Prober π)
    (hdi : (audio.map AudioMeta.trackIndex).Nodup) (hca : call.WellFormed audio)
    (hla : ∀ earlier ∈ done, earlier.stream = call.stream → earlier.info.dtsMs < call.info.dtsMs) :
    ∃ pays,
      Transports (m.muxPacketInto call.mediaType call.trackIndex call.info call.payload).2 pays ∧
      Serves codec audio (done ++ [call])
        (m.muxPacketInto call.mediaType call.trackIndex call.info call.payload).1
        (pays.foldl (.processPayload prober) d).core := by
  obtain ⟨i, c, hc, hkey⟩ := hca.exists_stream codec
  rw [← h.streams] at hc
  have hm : c.mediaType = call.mediaType := congrArg Prod.fst hkey
  have hne : call.payload ≠ [] := length_pos_iff.mp hca.nonempty
  have hnon := hca.dts_nonneg
  obtain ⟨last, hl, hb⟩ := h.last i c hc
  have hdts : last < msToTs call.info.dtsMs := by
    unfold msToTs
    rcases hb with rfl | ⟨earlier, he, hst, rfl⟩
    · unfold i64Min
      omega
    · have hlt := hla earlier he (hst.trans hkey)
      unfold msToTs
      omega
  obtain ⟨cs, hcut, ht, hn⟩ := muxPacketAt_spec h.fits.toFits hc h.continuity hne hl hdts
    hca.dts_le_pts (fun ha => hca.frame (hm.symm.trans ha))
  have hint : m.muxPacketInto call.mediaType call.trackIndex call.info call.payload =
      m.muxPacketAt i c.mediaType call.info call.payload := by
    rw [muxPacketInto, streamIndex_eq hdi h.streams hc hkey, hm]
  rw [hint]
  refine ⟨_, ht, ?_⟩
  rw [foldl_append]
  obtain ⟨hin, hd⟩ := h.tables prober call.info
  generalize (m.duePayloads call.info).foldl (.processPayload prober) d = tabled at hin hd
  obtain ⟨s, hs, hst⟩ := hin.exists_stream hc
  have hk : s.kind = .aacAdts → IsAdtsFrame call.payload := by
    intro had
    have ha := hst.mediaType h.fits.oneVideo hc
    rw [had] at ha
    exact hca.frame (hm.symm.trans ha.symm)
  have hre := pesHeader_readsAs c.mediaType (msToTs call.info.ptsMs)
    (msToTs call.info.dtsMs) call.payload.length
  obtain ⟨hsa, hr, hu⟩ := StreamInfo.receiveAll_unit (hd.ready i s hs) c.pid
    call.info.isKeyframe ⟨hne, hca.size, hk⟩ hre namedLen_eq hcut
  rw [unitOf_received (h.streams ▸ hc) hst hkey hca] at hu
  have hpid := (h.fits.oneVideo i c hc).1
  have hta : tabled.pmtPid ≠ some c.pid := by
    have hfew := h.fits.oneVideo.pid_lt h.fits.fits c (mem_of_getElem? hc)
    rw [show tabled.pmtPid = some m.pmtPid from hin.table, h.fits.pmtPid]
    intro heq
    rw [← Option.some.inj heq] at hfew
    exact absurd hfew (by decide)
  have hco : ((unitPayloads c.pid call.info.isKeyframe true cs).foldl
      (.processPayload prober) tabled).core = _ :=
    core_receiveAll (by unfold patPid; omega) pid_of_mem_unitPayloads hta
      (hin.index i c hc) hs
  rw [hco]
  refine ⟨⟨hn.streams ▸ h.fits.oneVideo, hn.pmtPid.trans h.fits.pmtPid, hn.streams ▸ h.fits.fits⟩,
    hn.streams.trans h.streams, by rw [hn.continuity, hn.streams, h.continuity],
    fun j c' hc' => ?_, ?_, fun hno => (hn.written hno).elim, fun _ => ?_⟩
  · rw [hn.streams] at hc'
    rw [hn.lastDts90k]
    by_cases hji : j = i
    · subst hji
      obtain rfl := Option.some.inj (hc.symm.trans hc')
      exact ⟨_, List.getElem?_set_self (List.getElem?_eq_some_iff.mp hl).1,
        .inr ⟨call, by simp, hkey.symm, rfl⟩⟩
    · rw [getElem?_set_ne (Ne.symm hji)]
      obtain ⟨last', hl', hb'⟩ := h.last j c' hc'
      refine ⟨last', hl', hb'.imp_right ?_⟩
      rintro ⟨earlier, he, hres⟩
      exact ⟨earlier, mem_append_left _ he, hres⟩
  · have hown : ∀ p ∈ [call.received codec i], tag p = s.tag := by
      intro p hp
      obtain rfl := mem_singleton.mp hp
      refine Prod.ext ?_ hst.trackIndex.symm
      exact hm.symm.trans (hst.mediaType h.fits.oneVideo hc).symm
    refine cast (congrArg (Delivers · _) (funext fun j => ?_)) (hd.emit hs hsa hr hown hu)
    rw [hn.streams, filter_append]
    by_cases hji : j = i
    · subst hji
      rw [hc]
      simp [hkey]
    · have ho : m.streams[j]?.map key ≠ some call.stream := by
        intro hj
        have hi : m.streams[i]?.map key = some call.stream := by rw [hc, map_some, hkey]
        rw [h.streams] at hi hj
        exact hji (key_inj hdi hj hi)
      rw [Function.update_of_ne hji, filter_cons_of_neg (by simpa using ho)]
      simp
  · rw [hn.streams, hn.pmtPid]
    exact hin.emit hs hsa _

theorem run (prober : Prober π) (hd : (audio.map AudioMeta.trackIndex).Nodup)
    (hca : ∀ call ∈ calls, call.WellFormed audio) (h : Serves codec audio done m d.core)
    (ho : (done ++ calls).Pairwise fun a b => a.stream = b.stream → a.info.dtsMs < b.info.dtsMs) :
    ∃ pays, Transports (m.muxAll calls).2 pays ∧
      Serves codec audio (done ++
        calls) (m.muxAll calls).1 (pays.foldl (.processPayload prober) d).core := by
  induction calls generalizing done m d with
  | nil => exact ⟨[], .nil, by simpa [muxAll] using h⟩
  | cons call calls ih =>
    have hl := fun earlier he => (pairwise_append.mp ho).2.2 earlier he call mem_cons_self
    obtain ⟨pays, ht, hn⟩ := h.next prober hd (hca call mem_cons_self) hl
    obtain ⟨pays', ht', hdo⟩ := ih (fun c hc => hca c (mem_cons_of_mem _ hc)) hn (by simpa using ho)
    refine ⟨pays ++ pays', ht.append ht', ?_⟩
    rw [foldl_append, append_cons]
    exact hdo

theorem flushed (h : Serves codec audio done m d.core) (prober : Prober π) :
    (∀ (i : Nat) (c : MuxStreamConfig), (configStreams (some codec) audio)[i]? = some c →
      (d.flush prober).output.filter (fun p => tag p = (c.mediaType, i - 1)) =
        (done.filter fun call => call.stream = c.key).map (received codec i)) ∧
    ∀ p ∈ (d.flush prober).output, ∃ (i : Nat) (c : MuxStreamConfig),
      (configStreams (some codec) audio)[i]? = some c ∧ tag p = (c.mediaType, i - 1) := by
  obtain ⟨hd, hk⟩ := flush_delivers prober h.delivers
  rw [← h.streams]
  by_cases hn : m.lastPatPmtDts = none
  · obtain ⟨rfl, hstr, -, -⟩ := h.fresh hn
    have he : (d.flush prober).output = [] := by
      rw [eq_nil_iff_forall_not_mem]
      intro p hp
      obtain ⟨i, s, hs, -⟩ := hk p hp
      rw [show d.streams = [] from hstr] at hs
      cases hs
    rw [he]
    simp
  · have hi := h.installed hn
    have htag (i : Nat) (c : MuxStreamConfig) (s : StreamInfo)
      (hc : m.streams[i]? = some c) (hs : IsStream i c s) :
        s.tag = (c.mediaType, i - 1) := Prod.ext (hs.mediaType h.fits.oneVideo hc) hs.trackIndex
    refine ⟨fun i c hc => ?_, fun p hp => ?_⟩
    · obtain ⟨s, hs, hst⟩ := hi.exists_stream hc
      have hpa := hd i s hs
      rw [htag i c s hc hst, hc] at hpa
      rw [hpa]
      simp [eq_comm]
    · obtain ⟨i, s, hs, hp⟩ := hk p hp
      obtain ⟨c, hc, hst⟩ := hi.streams i s hs
      exact ⟨i, c, hc, hp.trans (htag i c s hc hst)⟩

end Serves

def timed (p : MediaPacket) : List UInt8 × Int × Int := (p.payload, p.pts, p.dts)

def MuxCall.timed (call : MuxCall) : List UInt8 × Int × Int :=
  (call.payload, call.info.ptsMs, call.info.dtsMs)

/-- Whatever the muxer is called with, in order, comes back from the demuxer: every
stream its own payloads and times, under its position among the audio tracks. An H.264
packet is a keyframe if its call said so or its bytes hold an IDR slice. -/
theorem demux_mux {codec : String} {audio : List AudioMeta}
    (hdistinct : (audio.map AudioMeta.trackIndex).Nodup)
    (hfits : pmtSectionLen (configStreams (some codec) audio) ≤ 1021) (service : TsServiceMetadata)
    {calls : List MuxCall} (hcalls : ∀ call ∈ calls, call.WellFormed audio)
    (hordered : calls.Pairwise fun a b => a.stream = b.stream → a.info.dtsMs < b.info.dtsMs)
    {chunks : List (List UInt8)}
    (hchunks : chunks.flatten = ((newWithMetadata (some codec) audio service).muxAll calls).2)
    (prober : Prober π) :
    let out := ((chunks.foldl (TsDemuxer.feed prober) .new).flush prober).packets.output
    (out.filter fun p => tag p = (.video, 0)).map timed =
      (calls.filter fun call => call.stream = (.video, 0)).map MuxCall.timed ∧
    (∀ (i : Nat) (a : AudioMeta), audio[i]? = some a →
      (out.filter fun p => tag p = (.audio, i)).map timed =
      (calls.filter fun call => call.stream = (.audio, a.trackIndex)).map MuxCall.timed) ∧
    (∀ p ∈ out, tag p = (.video, 0) ∨ ∃ i < audio.length, tag p = (.audio, i)) ∧
    (videoStreamType codec = streamTypeH264 → ∀ (k : Nat) (p : MediaPacket) (call : MuxCall),
      (out.filter fun p => tag p = (.video, 0))[k]? = some p →
      (calls.filter fun call => call.stream = (.video, 0))[k]? = some call →
      (p.isKeyframe = true ↔ call.info.isKeyframe = true ∨ HoldsIdr call.payload)) := by
  obtain ⟨payloads, htransports, hserves⟩ := Serves.run prober hdistinct hcalls
    (Serves.start (π := π) hfits service) hordered
  have hpackets : (chunks.foldl (TsDemuxer.feed prober) .new).packets = _ :=
    TsDemuxer.feed_transports prober (hchunks ▸ htransports)
  obtain ⟨hstreams, hknown⟩ := hserves.flushed prober
  rw [← hpackets] at hstreams hknown
  have hvideo := hstreams 0 _ rfl
  refine ⟨?_, fun i a ha => ?_, fun p hp => ?_, fun hcodec k p call hp hcall => ?_⟩
  · exact (congrArg (List.map timed) hvideo).trans (by rw [List.map_map]; rfl)
  · have hc : (configStreams (some codec) audio)[i + 1]? = some (audioStream (0x101 + i) a) := by
      rw [getElem?_configStreams_succ, ha]
      rfl
    exact (congrArg (List.map timed) (hstreams (i + 1) _ hc)).trans (by rw [List.map_map]; rfl)
  · obtain ⟨i, c, hc, htag⟩ := hknown p hp
    cases i with
    | zero =>
      obtain rfl : videoStream codec = c := Option.some.inj hc
      exact .inl htag
    | succ i =>
      rw [getElem?_configStreams_succ, Option.map_eq_some_iff] at hc
      obtain ⟨a, ha, rfl⟩ := hc
      exact .inr ⟨i, (List.getElem?_eq_some_iff.mp ha).1, htag⟩
  · have hlisted : ((calls.filter fun call => call.stream = (.video, 0)).map
        (received codec 0))[k]? = some p :=
      (congrArg (fun l => l[k]?) hvideo).symm.trans hp
    rw [List.getElem?_map, hcall] at hlisted
    obtain rfl : call.received codec 0 = p := Option.some.inj hlisted
    have hof : call.mediaType = .video := by
      have hmem := List.mem_filter.mp (List.mem_of_getElem? hcall)
      exact congrArg Prod.fst (of_decide_eq_true hmem.2)
    simp only [received, hof, if_pos hcodec, Bool.or_eq_true, h264IsKeyframe_iff]

/-- A keyframe, an audio frame of the track with index 3, and a picture that shows later
than it decodes. -/
def threeCalls : List MuxCall :=
  [{ mediaType := .video, trackIndex := 0, info := ⟨40, 0, true⟩, payload := [0, 0, 1, 0x65, 0x88] },
    { mediaType := .audio, trackIndex := 3, info := ⟨5, 5, false⟩
      payload := [0xFF, 0xF1, 0x4C, 0x80, 0x01, 0x3F, 0xFC, 0x21, 0x1A] },
    { mediaType := .video, trackIndex := 0, info := ⟨120, 40, false⟩,
      payload := [0, 0, 1, 0x41, 0x9A] }]

theorem demux_mux_three :
    let bytes := ((newWithMetadata (some "h264") [⟨3, 48000, none⟩] .disabled).muxAll threeCalls).2
    let out := (([bytes].foldl (TsDemuxer.feed noProber) .new).flush noProber).packets.output
    (out.filter fun p => tag p = (.video, 0)).map timed =
        [([0, 0, 1, 0x65, 0x88], 40, 0), ([0, 0, 1, 0x41, 0x9A], 120, 40)] ∧
      (out.filter fun p => tag p = (.audio, 0)).map timed =
        [([0xFF, 0xF1, 0x4C, 0x80, 0x01, 0x3F, 0xFC, 0x21, 0x1A], 5, 5)] := by
  have hcalls : ∀ call ∈ threeCalls, call.WellFormed [⟨3, 48000, none⟩] := by
    intro call hcall
    simp only [threeCalls, List.mem_cons, List.not_mem_nil, or_false] at hcall
    rcases hcall with rfl | rfl | rfl
    · exact ⟨.inl rfl, by decide, by decide, by rintro ⟨⟩, by decide, by decide, by decide⟩
    · exact ⟨.inr ⟨_, List.mem_cons_self,
        rfl⟩, by decide, by decide, fun _ => by decide, by decide, by decide,
        by decide⟩
    · exact ⟨.inl rfl, by decide, by decide, by rintro ⟨⟩, by decide, by decide, by decide⟩
  have hfits : pmtSectionLen (configStreams (some "h264") [⟨3, 48000, none⟩]) ≤ 1021 := by decide
  obtain ⟨hvideo, haudio, -⟩ :=
    demux_mux (by decide) hfits .disabled hcalls (by decide) List.flatten_singleton noProber
  exact ⟨hvideo, haudio 0 _ rfl⟩

theorem TsMuxer.muxPacketInto_framed {m : TsMuxer} (hm : m.Fits) (call : MuxCall) :
    (∃ pays,
      Transports (m.muxPacketInto call.mediaType call.trackIndex call.info call.payload).2 pays) ∧
      (m.muxPacketInto call.mediaType call.trackIndex call.info call.payload).1.Fits := by
  unfold muxPacketInto
  split
  · exact ⟨⟨[], .nil⟩, hm⟩
  · next i _ =>
    unfold muxPacketAt
    split
    · next c cc hc _ =>
      split
      · exact ⟨⟨[], .nil⟩, hm⟩
      · dsimp only
        generalize m.lastDts90k.set i _ = lastDts
        obtain ⟨patCc, pmtCc, sdtCc, written, tables, hta, ht⟩ :=
          insertTables_spec (m := { m with lastDts90k := lastDts }) { hm with } call.info
        obtain ⟨cs, -, -, -, hpa⟩ := pesPackets_spec (hm.pids c (mem_of_getElem? hc))
          call.info.isKeyframe (c.pid = m.pcrPid) (m.timestamps i call.info).2 _ call.payload _ true
          cc 0 (Nat.le_add_left _ 0)
        rw [hta]
        exact ⟨⟨_, ht.append hpa⟩, { hm with }⟩
    · exact ⟨⟨[], .nil⟩, hm⟩

/-- A muxer in any state whose map fits a section, called with anything in any order of
times, writes whole packets, and a demuxer takes in just these however their bytes are cut. -/
theorem muxer_writes_whole_packets {m : TsMuxer} (hm : m.Fits) (calls : List MuxCall) :
    ∃ packets : List (List UInt8), packets.flatten = (m.muxAll calls).2 ∧
      (∀ p ∈ packets, IsPacket p) ∧
      ∀ (prober : Prober π) (chunks : List (List UInt8)), packets.flatten = chunks.flatten →
        (chunks.foldl (TsDemuxer.feed prober) .new).packets =
          packets.foldl (.processTsPacket prober) .new := by
  obtain ⟨packets, hflat, hpackets⟩ : ∃ packets : List (List UInt8),
      packets.flatten = (m.muxAll calls).2 ∧ ∀ p ∈ packets, IsPacket p := by
    induction calls generalizing m with
    | nil => exact ⟨[], rfl, by simp⟩
    | cons call calls ih =>
      obtain ⟨⟨-, packets, hflat, hpackets, -⟩, hfits⟩ := muxPacketInto_framed hm call
      obtain ⟨more, hmore, hall⟩ := ih hfits
      exact ⟨packets ++ more, by rw [flatten_append, hflat, hmore]; rfl,
        forall_mem_append.mpr ⟨hpackets, hall⟩⟩
  exact ⟨packets, hflat, hpackets, fun prober chunks hcut =>
    TsDemuxer.feed_chunks prober hpackets hcut⟩

/-- A muxer of one audio track, called with the last times first. -/
theorem muxer_writes_whole_packets_backward : ∃ packets : List (List UInt8), packets.flatten =
      ((newWithMetadata none [⟨3, 48000, none⟩] .disabled).muxAll threeCalls.reverse).2 ∧
    ∀ p ∈ packets, IsPacket p := by
  have hm : (newWithMetadata none [⟨3, 48000, none⟩] .disabled).Fits :=
    ⟨by decide, by decide, by decide⟩
  obtain ⟨packets, hflat, hpackets, -⟩ :=
    muxer_writes_whole_packets (π := Unit) hm threeCalls.reverse
  exact ⟨packets, hflat, hpackets⟩

end Restream.Mpegts
