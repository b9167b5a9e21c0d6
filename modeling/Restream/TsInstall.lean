import Restream.TsProgram

/-! The streams that the muxer's map table installs in a fresh demuxer, and how the
tables it repeats later leave them alone. -/

namespace Restream.Mpegts

open List Option TsMuxer MuxStreamConfig

variable {π : Type} {configs : List MuxStreamConfig}

/-- The streams of a muxer with one video stream and any number of audio tracks. -/
def OneVideo (configs : List MuxStreamConfig) : Prop :=
  ∀ (i : Nat) (c : MuxStreamConfig), configs[i]? = some c → c.pid = 0x100 + i ∧
    (c.mediaType = .video ↔ i = 0) ∧ ∃ kind, StreamKind.fromStreamType c.streamType = some kind ∧
      kind.mediaType = c.mediaType ∧ (kind.mediaType = .audio → kind = .aacAdts)

theorem videoStreamType_kind (codec : String) : ∃ kind,
    StreamKind.fromStreamType (videoStreamType codec) = some kind ∧ kind.mediaType = .video := by
  unfold videoStreamType
  split
  · exact ⟨.h264, rfl, rfl⟩
  · split
    · exact ⟨.h265, rfl, rfl⟩
    · exact ⟨.h264, rfl, rfl⟩

theorem getElem?_configStreams_succ :
    (configStreams (some codec) audio)[i + 1]? = audio[i]?.map (audioStream (0x101 + i)) := by
  simp [configStreams]

theorem configStreams_oneVideo (codec : String) (audio : List AudioMeta) :
    OneVideo (configStreams (some codec) audio) := by
  intro i c hc
  cases i with
  | zero =>
    obtain rfl : videoStream codec = c := Option.some.inj hc
    obtain ⟨kind, hk, hv⟩ := videoStreamType_kind codec
    exact ⟨rfl, by simp [videoStream], kind, hk, hv, fun ha => by simp [hv] at ha⟩
  | succ i =>
    rw [getElem?_configStreams_succ, map_eq_some_iff] at hc
    obtain ⟨a, -, rfl⟩ := hc
    refine ⟨by simp [audioStream]; omega, by simp [audioStream], .aacAdts, rfl, rfl, fun _ => rfl⟩

theorem OneVideo.pid_lt (h : OneVideo configs) (hf : pmtSectionLen configs ≤ 1021) :
    ∀ c ∈ configs, c.pid < 0x100 + 1009 := by
  intro c hc
  obtain ⟨i, hi⟩ := List.getElem?_of_mem hc
  have hlt := (List.getElem?_eq_some_iff.mp hi).1
  have he := length_entries configs
  have hco := length_le_entries configs
  rw [(h i c hi).1]
  omega

/-- Stream `i` of the muxer in the demuxer, whatever its PES holds. -/
structure IsStream (i : Nat) (c : MuxStreamConfig) (s : StreamInfo) : Prop where
  pid : s.pid = c.pid
  kind : StreamKind.fromStreamType c.streamType = some s.kind
  trackIndex : s.trackIndex = i - 1

variable {i : Nat} {c : MuxStreamConfig} {s : StreamInfo}

theorem IsStream.of_same (h : IsStream i c s) (hs : s.Same t) : IsStream i c t := by
  rw [hs]
  exact { h with }

theorem IsStream.mediaType (h : IsStream i c s) (hco : OneVideo configs) (hc : configs[i]? = some c) :
    s.kind.mediaType = c.mediaType := by
  obtain ⟨-, -, kind, hk, hm, -⟩ := hco i c hc
  obtain rfl := Option.some.inj (hk.symm.trans h.kind)
  exact hm

structure Installing (configs : List MuxStreamConfig) (n : Nat) (p : PmtInstall π) : Prop where
  length : p.streams.length = n
  streams : ∀ (i : Nat) (s : StreamInfo), p.streams[i]? = some s →
    s.pes = .new ∧ ∃ c, configs[i]? = some c ∧ IsStream i c s
  index : ∀ (i : Nat) (c : MuxStreamConfig), i < n → configs[i]? = some c →
    p.pidToStream c.pid = some i
  known : ∀ pid i, p.pidToStream pid = some i → 0x100 ≤ pid
  old : p.oldStreams = .empty
  video : p.hasVideo = decide (0 < n)
  audio : p.audioTrackCounter = n - 1

namespace Installing

variable {n : Nat} {p : PmtInstall π} {c : MuxStreamConfig}

section
variable (h : Installing configs n p) (hco : OneVideo configs) (hc : configs[n]? = some c)
include h hco hc

theorem addStream (hk : StreamKind.fromStreamType c.streamType = some kind) (language : Option String)
    {q : PmtInstall π} (hst : q.streams = p.streams) (hind : q.pidToStream = p.pidToStream)
    (hold : q.oldStreams = p.oldStreams) (hv : q.hasVideo = true) (ha : q.audioTrackCounter = n) :
    Installing configs (n + 1) (q.addStream kind (n - 1) language c.pid) := by
  have hpid := (hco n c hc).1
  have hnew : q.oldStreams.get? c.pid = none := by
    rw [hold, h.old]
    rfl
  unfold PmtInstall.addStream
  rw [hnew]
  dsimp only [PmtInstall.push]
  rw [hst, hind, h.length]
  refine ⟨by simp [h.length], fun i s hs => ?_, fun i c' hi hc' => ?_, fun pid i hpid' => ?_, hold.trans h.old,
    by simp [hv], ha⟩
  · rw [getElem?_append] at hs
    split at hs
    · exact h.streams i s hs
    · obtain ⟨hlt, rfl⟩ := List.getElem?_eq_some_iff.mp hs
      obtain rfl : i = n := by
        simp only [length_cons, length_nil] at hlt
        have hl := h.length
        omega
      simp only [getElem_singleton]
      exact ⟨trivial, c, hc, rfl, hk, rfl⟩
  · by_cases hin : i = n
    · subst hin
      obtain rfl := Option.some.inj (hc.symm.trans hc')
      exact Function.update_self ..
    · have ho := (hco i c' hc').1
      dsimp only
      rw [Function.update_of_ne (by omega)]
      exact h.index i c' (by omega) hc'
  · by_cases hpc : pid = c.pid
    · omega
    · dsimp only at hpid'
      rw [Function.update_of_ne hpc] at hpid'
      exact h.known pid i hpid'

theorem addEntry : Installing configs (n + 1) (p.addEntry prober c.entry) := by
  obtain ⟨-, hf, kind, hk, hm, -⟩ := hco n c hc
  rw [← hm] at hf
  unfold PmtInstall.addEntry
  simp only [entry, hk]
  cases hv : kind.mediaType with
  | video =>
    obtain rfl := hf.mp hv
    rw [if_neg (by simp [h.video])]
    exact h.addStream hco hc hk _ rfl rfl rfl rfl h.audio
  | audio =>
    have hn : n ≠ 0 := fun h0 => by simp [hf.mpr h0] at hv
    rw [h.audio]
    refine h.addStream hco hc hk _ rfl rfl rfl ?_ (Nat.sub_add_cancel (Nat.pos_of_ne_zero hn))
    rw [h.video, decide_eq_true (Nat.pos_of_ne_zero hn)]

end

theorem fold (hco : OneVideo configs) (hs : Installing configs 0 p) (hn : n ≤ configs.length) :
    Installing configs n (((configs.take n).map MuxStreamConfig.entry).foldl
      (PmtInstall.addEntry prober) p) := by
  induction n with
  | zero => exact hs
  | succ n ih =>
    obtain ⟨c, hc⟩ : ∃ c, configs[n]? = some c := ⟨_, getElem?_eq_getElem hn⟩
    rw [take_add_one, hc, map_append, foldl_append]
    exact (ih (by omega)).addEntry hco hc

end Installing

structure Installed (configs : List MuxStreamConfig) (pmtPid : Nat) (core : DemuxCore) : Prop where
  length : core.streams.length = configs.length
  streams : ∀ (i : Nat) (s : StreamInfo), core.streams[i]? = some s →
    ∃ c, configs[i]? = some c ∧ IsStream i c s
  index : ∀ (i : Nat) (c : MuxStreamConfig), configs[i]? = some c → core.pidToStream c.pid = some i
  known : ∀ pid i, core.pidToStream pid = some i → 0x100 ≤ pid
  table : core.pmtPid = some pmtPid
  layout : core.pmtLayout = pmtLayoutOf configs

namespace Installed

variable {pmtPid : Nat} {core : DemuxCore}

variable (h : Installed configs pmtPid core)
include h

theorem exists_stream (hc : configs[i]? = some c) :
    ∃ s, core.streams[i]? = some s ∧ IsStream i c s := by
  have hlt := (List.getElem?_eq_some_iff.mp hc).1
  obtain ⟨s, hs⟩ : ∃ s, core.streams[i]? = some s :=
    ⟨_, List.getElem?_eq_getElem (h.length.symm ▸ hlt)⟩
  obtain ⟨c', hc', hst⟩ := h.streams i s hs
  obtain rfl := Option.some.inj (hc.symm.trans hc')
  exact ⟨s, hs, hst⟩

theorem emit (hs : core.streams[i]? = some s) (hsa : s.Same s')
    (out : List MediaPacket) : Installed configs pmtPid (core.emit i s' out) := by
  refine ⟨by simp [DemuxCore.emit, h.length], fun j t ht => ?_, h.index, h.known, h.table, h.layout⟩
  rw [Delivers.getElem?_emit hs] at ht
  split at ht
  · next hji =>
    subst hji
    cases ht
    obtain ⟨c, hc, hst⟩ := h.streams j s hs
    exact ⟨c, hc, hst.of_same hsa⟩
  · exact h.streams j t ht

theorem distinct (hco : OneVideo configs) (hs : core.streams[i]? = some s)
    (ht : core.streams[j]? = some t) (htag : s.tag = t.tag) : i = j := by
  obtain ⟨c, hc, hst⟩ := h.streams i s hs
  obtain ⟨c', hc', hs'⟩ := h.streams j t ht
  have hm : c.mediaType = c'.mediaType := by
    rw [← hst.mediaType hco hc, ← hs'.mediaType hco hc']
    exact congrArg Prod.fst htag
  have htr : i - 1 = j - 1 := by
    rw [← hst.trackIndex, ← hs'.trackIndex]
    exact congrArg Prod.snd htag
  have hf := (hco i c hc).2.1
  have hf' := (hco j c' hc').2.1
  rw [hm] at hf
  have hb : i = 0 ↔ j = 0 := hf.symm.trans hf'
  omega

end Installed

namespace PacketDemuxer

variable {d : PacketDemuxer π} {pmtPid : Nat}

theorem process_first_pmt (prober : Prober π) (pcrPid : Nat) (hconfigs : OneVideo configs)
    (hpat : pmtPid ≠ patPid) (hpid : d.pmtPid = some pmtPid)
    (hfits : pmtSectionLen configs ≤ 1021) (hstreams : d.streams = [])
    (houtput : d.output = []) (hlayout : d.pmtLayout = []) :
    let done :=
      (sectionPayloads pmtPid (pmtSection configs pcrPid).length true
        (pmtSection configs pcrPid)).foldl
      (processPayload prober) d
    Installed configs pmtPid done.core ∧ Delivers (fun _ => []) done.core := by
  have hpids : ∀ c ∈ configs, c.pid < 2 ^ 13 :=
    fun c hc => (hconfigs.pid_lt hfits c hc).trans (by decide)
  obtain ⟨p, hp⟩ : ∃ p : PmtInstall π, p = (pmtEntries (configs.flatMap pmtEntry).length
      (configs.flatMap pmtEntry)).foldl (PmtInstall.addEntry prober)
        { streams := [], streamProbes := [], pidToStream := fun _ => none, oldStreams := .empty
          audioTrackCounter := 0, videoTrackCount := 0, hasVideo := false, changes := .none
          removedConfig := false, retainedMetadataChanged := false } := ⟨_, rfl⟩
  have hinstalling : Installing configs configs.length p := by
    rw [hp, (entries_flatMap hpids (length_le_entries configs)).2]
    conv => arg 3; rw [← take_length (l := configs)]
    refine Installing.fold hconfigs ?_ le_rfl
    exact ⟨rfl, by simp, by simp, by simp, rfl, rfl, rfl⟩
  have hdone : ((sectionPayloads pmtPid (pmtSection configs pcrPid).length true
    (pmtSection configs pcrPid)).foldl
      (processPayload prober) d).core =
        { streams := p.streams, pidToStream := p.pidToStream, pmtPid := d.pmtPid, output := []
          pmtLayout := pmtLayoutOf configs, pmtBuf := [], pmtExpected := 0 } := by
    rw [process_pmt hpat hpid hfits, accepted, acceptPmt_section hpids pcrPid rfl,
      if_neg (by rw [hlayout]; simp [pmtLayoutOf])]
    unfold installPmt
    simp only [hstreams, houtput, zip_nil_left, foldl_nil, filter_nil, ← hp]
    split <;> rfl
  dsimp only
  rw [hdone]
  have hinstalled : Installed configs pmtPid { streams := p.streams, pidToStream := p.pidToStream, pmtPid := d.pmtPid
                                               output :=
                                                 [], pmtLayout := pmtLayoutOf configs, pmtBuf := []
                                               pmtExpected := 0 } :=
    ⟨hinstalling.length, fun i s hs => (hinstalling.streams i s hs).2,
      fun i c hc => hinstalling.index i c (List.getElem?_eq_some_iff.mp hc).1 hc,
      hinstalling.known, hpid, rfl⟩
  refine ⟨hinstalled, fun i j s t hs ht htag => hinstalled.distinct hconfigs hs ht htag, by simp,
    fun i s hs => ?_, fun i s hs _ => ?_, by simp⟩
  all_goals
    have hempty : s.pes.buf = [] := by rw [(hinstalling.streams i s hs).1]; rfl
    rw [StreamInfo.flushPes_idle hempty]
  · rfl
  · rw [(hinstalling.streams i s hs).1]
    rfl

theorem process_sdt (hsdt : pmtPid ≠ sdtPid) (hi : Installed configs pmtPid d.core) :
    d.processPayload prober (sectionPayload sdtPid true bs) = d := by
  have hn : d.pidToStream sdtPid = none := by
    cases h : d.pidToStream sdtPid with
    | none => rfl
    | some i => exact absurd (hi.known sdtPid i h) (by decide)
  have ht : some sdtPid ≠ d.pmtPid := by
    rw [show d.pmtPid = some pmtPid from hi.table]
    exact fun h => hsdt (Option.some.inj h).symm
  simp only [processPayload, sectionPayload, if_neg (show sdtPid ≠ patPid by decide), if_neg ht, hn]

end PacketDemuxer

def tablePayloads (m : TsMuxer) : List TsPayload :=
  sectionPayload patPid true (patSection m.pmtPid) ::
    (sectionPayloads m.pmtPid (pmtSection m.streams m.pcrPid).length true
      (pmtSection m.streams m.pcrPid) ++
      if m.serviceMetadata.providerName ≠ [] ∨ m.serviceMetadata.serviceName ≠ [] then
        [sectionPayload sdtPid true (sdtSection m.serviceMetadata)]
      else [])

structure TsMuxer.Fits (m : TsMuxer) : Prop where
  pids : ∀ c ∈ m.streams, c.pid < 2 ^ 13
  pmtPid_lt : m.pmtPid < 2 ^ 13
  fits : pmtSectionLen m.streams ≤ 1021

structure TsMuxer.WithVideo (m : TsMuxer) : Prop where
  oneVideo : OneVideo m.streams
  pmtPid : m.pmtPid = 0x1000
  fits : pmtSectionLen m.streams ≤ 1021

theorem TsMuxer.WithVideo.toFits {m : TsMuxer} (h : m.WithVideo) : m.Fits :=
  ⟨fun c hc => (h.oneVideo.pid_lt h.fits c hc).trans (by decide), by rw [h.pmtPid]; decide, h.fits⟩

namespace PacketDemuxer

variable {d : PacketDemuxer π} {m : TsMuxer}

theorem process_sdt_if (hm : m.WithVideo) (hi : Installed m.streams m.pmtPid d.core) :
    (if m.serviceMetadata.providerName ≠ [] ∨ m.serviceMetadata.serviceName ≠ [] then
        [sectionPayload sdtPid true (sdtSection m.serviceMetadata)]
      else []).foldl (processPayload prober) d = d := by
  split
  · exact process_sdt (by rw [hm.pmtPid]; decide) hi
  · rfl

theorem process_first_tables (hm : m.WithVideo) (hs : d.streams = []) (ho : d.output = [])
    (hl : d.pmtLayout = []) :
    Installed m.streams m.pmtPid ((tablePayloads m).foldl (processPayload prober) d).core ∧
      Delivers (fun _ => []) ((tablePayloads m).foldl (processPayload prober) d).core := by
  have hpat : m.pmtPid ≠ patPid := by rw [hm.pmtPid]; decide
  rw [tablePayloads, foldl_cons, process_pat (by rw [hm.pmtPid]; decide), foldl_append]
  obtain ⟨hi, hd⟩ := process_first_pmt prober m.pcrPid
    (d := { d with pmtPid := some m.pmtPid }) hm.oneVideo hpat rfl hm.fits hs ho hl
  rw [process_sdt_if hm hi]
  exact ⟨hi, hd⟩

theorem process_next_tables (hm : m.WithVideo) (hi : Installed m.streams m.pmtPid d.core)
    (hd : Delivers emitted d.core) :
    Installed m.streams m.pmtPid ((tablePayloads m).foldl (processPayload prober) d).core ∧
      Delivers emitted ((tablePayloads m).foldl (processPayload prober) d).core := by
  have hpat : m.pmtPid ≠ patPid := by rw [hm.pmtPid]; decide
  have ht : ({ d with pmtPid := some m.pmtPid } : PacketDemuxer π) = d := by
    rw [← show d.pmtPid = some m.pmtPid from hi.table]
  rw [tablePayloads, foldl_cons, process_pat (by rw [hm.pmtPid]; decide), ht, foldl_append]
  have hc := congrArg core (@process_pmt π prober d m.streams m.pmtPid m.pcrPid hpat hi.table hm.fits)
  rw [accepted, acceptPmt_section hm.toFits.pids m.pcrPid rfl, if_pos (by exact hi.layout)] at hc
  generalize (sectionPayloads _ _ _ _).foldl (processPayload prober) d = done at hc
  have hi' : Installed m.streams m.pmtPid done.core := by
    rw [hc]
    exact { hi with }
  rw [process_sdt_if hm hi']
  refine ⟨hi', ?_⟩
  rw [hc]
  exact { hd with }

end PacketDemuxer

end Restream.Mpegts
