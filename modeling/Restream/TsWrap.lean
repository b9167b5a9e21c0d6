import Restream.TsProjection
import Restream.TsBlocks

/-! Decode times across the wrap of the 33-bit clock. The demuxer converts the times of
a PES header as they are, so that it follows the true clock within one turn of 2^33
ticks only. -/

namespace Restream.Mpegts

open Codec List PesAccumulator TsDemuxer

variable {π : Type}

/-- A PES with true 90 kHz times. Its header holds them modulo 2^33, and `extra` are the
fields and the stuffing behind them. -/
structure PesUnit where
  streamId : UInt8
  marker : UInt8
  otherFlags : UInt8
  pts : Int
  dts : Int
  explicitDts : Bool
  extra : List UInt8
  named : Bool
  randomAccess : Bool
  payload : List UInt8
  chunks : List (List UInt8)

namespace PesUnit

def times (u : PesUnit) : List UInt8 :=
  if u.explicitDts then writeTimestampBuf u.pts 0x03 ++ writeTimestampBuf u.dts 0x01
  else writeTimestampBuf u.pts 0x02

def fields (u : PesUnit) : List UInt8 := u.times ++ u.extra

def lengthField (u : PesUnit) : Nat := if u.named then u.fields.length + 3 + u.payload.length else 0

def header (u : PesUnit) : List UInt8 :=
  [0x00, 0x00, 0x01, u.streamId, UInt8.ofNat (u.lengthField / 2 ^ 8),
    UInt8.ofNat u.lengthField, u.marker,
    (if u.explicitDts then 0xC0 else 0x80) ||| (u.otherFlags &&& 0x3F),
    UInt8.ofNat u.fields.length] ++ u.fields

/-- The header fits its length bytes, and the PES is cut into transport payloads behind
it. An ADTS stream carries one frame in a PES. -/
structure WellFormed (kind : StreamKind) (u : PesUnit) : Prop where
  fields : u.fields.length ≤ 0xFF
  length : u.lengthField ≤ 0xFFFF
  dts : u.explicitDts = false → u.dts = u.pts
  nonempty : u.payload ≠ []
  frame : kind = .aacAdts → IsAdtsFrame u.payload
  cut : Cut u.header u.payload u.chunks

theorem flag_bits (b : UInt8) : (0xC0 ||| (b &&& 0x3F)) &&& 0x80 ≠ 0 ∧
    (0xC0 ||| (b &&& 0x3F)) &&& 0x40 ≠ 0 ∧
    (0x80 ||| (b &&& 0x3F)) &&& 0x80 ≠ 0 ∧ (0x80 ||| (b &&& 0x3F)) &&& 0x40 = 0 := by
  have hall : ∀ n : Fin 256, (0xC0 ||| (UInt8.ofNat n &&& 0x3F)) &&& 0x80 ≠ 0 ∧
      (0xC0 ||| (UInt8.ofNat n &&& 0x3F)) &&& 0x40 ≠ 0 ∧
      (0x80 ||| (UInt8.ofNat n &&& 0x3F)) &&& 0x80 ≠ 0 ∧
      (0x80 ||| (UInt8.ofNat n &&& 0x3F)) &&& 0x40 = 0 := by decide +kernel
  have hb := hall ⟨b.toNat, b.toNat_lt⟩
  rwa [UInt8.ofNat_toNat] at hb

theorem readsAs {u : PesUnit} (h : u.WellFormed kind) :
    ReadsAs u.header (if u.named then some u.payload.length else none)
      (u.pts % 2 ^ 33) (u.dts % 2 ^ 33) := by
  intro pes ra pay
  have hf : (UInt8.ofNat u.fields.length).toNat = u.fields.length := by
    have hle := h.fields
    rw [UInt8.toNat_ofNat']
    omega
  have hl : pesPayloadLen ((UInt8.ofNat (u.lengthField / 2 ^ 8)).toNat * 2 ^ 8 +
      (UInt8.ofNat u.lengthField).toNat) u.fields.length =
        if u.named then some u.payload.length else none := by
    have hle := h.length
    by_cases hn : u.named = true
    · rw [lengthField, if_pos hn] at hle ⊢
      rw [if_pos hn, pesPayloadLen_bytes hle]
    · rw [lengthField, if_neg hn, if_neg hn]
      simp [pesPayloadLen]
  rw [header, begin_header pes ra _ _ _ _ _ hf, hf, hl, fields, append_assoc, times]
  obtain ⟨hb, hb', hone, hone'⟩ := flag_bits u.otherFlags
  by_cases he : u.explicitDts = true
  · simp only [if_pos he, decide_eq_true hb, decide_eq_true hb', withTimestamps_dts]
    rfl
  · have hdts := h.dts (by simpa using he)
    simp only [if_neg he, decide_eq_true hone, decide_eq_false (not_not.mpr hone'),
      withTimestamps_pts, hdts]
    rfl

end PesUnit

theorem PesAccumulator.foldl_appendBounded (hr : ∀ c ∈ rest, c ≠ [] ∧ c.length ≤ maxPesBuffer)
    (pes : PesAccumulator) : ∃ kept, rest.foldl appendBounded pes = { pes with buf := kept } ∧
      (pes.buf ≠ [] ∨ rest ≠ [] → kept ≠ []) := by
  induction rest generalizing pes with
  | nil => exact ⟨pes.buf, rfl, fun h => h.elim id fun h' => (h' rfl).elim⟩
  | cons c rest ih =>
    obtain ⟨hne, hs⟩ := hr c mem_cons_self
    have hg : ∃ grown, pes.appendBounded c = { pes with buf := grown } ∧ grown ≠ [] := by
      unfold appendBounded
      split
      · exact ⟨pes.buf ++ c, rfl, by simp [hne]⟩
      · next hf =>
        refine ⟨pes.buf, rfl, ?_⟩
        rintro he
        rw [he, length_nil, Nat.zero_add] at hf
        exact hf hs
    obtain ⟨grown, ha, hg⟩ := hg
    obtain ⟨kept, hk, hfi⟩ := ih (fun c' hc' => hr c' (mem_cons_of_mem _ hc')) (pes.appendBounded c)
    refine ⟨kept, ?_, fun _ => hfi (.inl (by rw [ha]; exact hg))⟩
    rw [foldl_cons, hk, ha]

namespace StreamInfo

variable {s : StreamInfo}

theorem receiveAll_grow (pid : Nat) (ra : Bool) (rest : List (List UInt8))
    (he : s.pes.expectedPayloadLen = none) :
    s.receiveAll (unitPayloads pid ra false rest) =
      ({ s with pes := rest.foldl appendBounded s.pes }, []) := by
  induction rest generalizing s with
  | nil => rfl
  | cons c rest ih =>
    have he' : (s.pes.appendBounded c).expectedPayloadLen = none := by
      unfold appendBounded
      split <;> exact he
    have hr : s.receive ⟨pid, false, false && ra, c⟩ =
        ({ s with pes := s.pes.appendBounded c }, []) := by
      rw [receive, if_neg (by simp), complete_none he']
    simp only [unitPayloads, receiveAll, hr, nil_append, foldl_cons]
    exact ih he'

theorem receiveAll_cut (hki : s.kind ≠ .aacAdts) (pid : Nat) (ra : Bool) {pts dts : Int}
    (hre : ReadsAs hdr none pts dts) (hp : pay ≠ []) (hcut : Cut hdr pay cs)
    (hsi : ∀ c ∈ cs, c.length ≤ maxPesBuffer) : let done := s.receiveAll (unitPayloads pid ra true cs)
    s.Same done.1 ∧ done.1.Ready ∧
    ∃ kept, done.2 ++ done.1.flushPes.2.1 = s.flushPes.2.1 ++ [s.unitOf ra pts dts kept] := by
  obtain ⟨start, rest, rfl, hj⟩ := hcut.exists_start hp
  have hres : ∀ c ∈ rest, c ≠ [] ∧ c.length ≤ maxPesBuffer := fun c hc =>
    ⟨hcut.filled c (mem_cons_of_mem _ hc), hsi c (mem_cons_of_mem _ hc)⟩
  have he : s.flushPes.1.pes.buf = [] := flushPes_buf s
  obtain ⟨pes, hpes⟩ : ∃ pes, pes = (s.flushPes.1.pes.headed ra none pts dts).appendBounded start :=
    ⟨_, rfl⟩
  have hst : pes = { s.flushPes.1.pes.headed ra none pts dts with buf := start } := by
    have hle := hsi _ mem_cons_self
    rw [length_append] at hle
    rw [hpes, appendBounded, if_pos (by simp only [headed, he, length_nil]; omega)]
    simp [headed, he]
  obtain ⟨kept, hk, hf⟩ := foldl_appendBounded hres pes
  have hn : ({ s.flushPes.1 with pes := pes } : StreamInfo).pes.expectedPayloadLen =
      none := by rw [hst]; rfl
  have hr : s.receive ⟨pid, true, true && ra, hdr ++ start⟩ =
      ({ s.flushPes.1 with pes := pes }, s.flushPes.2.1) := by
    rw [receive, if_pos rfl]
    simp only [Bool.true_and, hre s.flushPes.1.pes ra start, ← hpes, complete_none hn, append_nil]
  simp only [unitPayloads, receiveAll, hr, receiveAll_grow pid ra rest hn, hk]
  have hk' : s.flushPes.1.kind ≠ .aacAdts := by rw [(flushPes_same s).kind_eq]; exact hki
  refine ⟨(flushPes_same s).trans rfl, fun h => (hk' h).elim, kept, ?_⟩
  have hne : kept ≠ [] := by
    refine hf ?_
    by_cases hs : start = []
    · refine .inr ?_
      rintro rfl
      rw [hs] at hj
      exact hp hj.symm
    · rw [hst]
      exact .inl hs
  obtain ⟨hpu, -⟩ := flushPes_loaded (s := { s.flushPes.1 with pes := { pes with buf := kept } }) hne
    (by rw [hst]; rfl) (fun h => (hk' h).elim)
  have hs' : s.Same { s.flushPes.1 with pes := { pes with buf := kept } } :=
    (flushPes_same s).trans rfl
  rw [append_nil, hpu, hs'.unitOf_eq, hst]
  rfl

theorem receiveAll_pesUnit (hre : s.Ready) (pid : Nat) {u : PesUnit} (h : u.WellFormed s.kind)
    (hsi : ∀ c ∈ u.chunks, c.length ≤ maxPesBuffer) :
    let done := s.receiveAll (unitPayloads pid u.randomAccess true u.chunks)
    s.Same done.1 ∧ done.1.Ready ∧ ∃ kept, done.2 ++ done.1.flushPes.2.1 =
      s.flushPes.2.1 ++ [s.unitOf u.randomAccess (u.pts % 2 ^ 33) (u.dts % 2 ^ 33) kept] := by
  have hr := PesUnit.readsAs h
  by_cases hf : u.payload.length ≤ maxPesBuffer
  · have he : ∀ n ∈ (if u.named then some u.payload.length else none), n = u.payload.length := by
      intro n hn
      by_cases hna : u.named = true
      · rw [if_pos hna] at hn
        exact (Option.some.inj hn).symm
      · rw [if_neg hna] at hn
        cases hn
    obtain ⟨hs, hr', hu⟩ :=
      receiveAll_unit hre pid u.randomAccess ⟨h.nonempty, hf, h.frame⟩ hr he h.cut
    exact ⟨hs, hr', u.payload, hu⟩
  · have hb : maxPesBuffer = 524288 := rfl
    have hna : u.named = false := by
      by_contra hna
      have hle := h.length
      rw [PesUnit.lengthField, if_pos (by simpa using hna)] at hle
      omega
    have hk : s.kind ≠ .aacAdts := by
      intro hk
      have hle := (h.frame hk).length_le
      omega
    rw [hna] at hr
    exact receiveAll_cut hk pid u.randomAccess hr h.nonempty h.cut hsi

theorem receiveAll_pesUnits (pid : Nat) {units : List PesUnit} (hre : s.Ready)
    (hu : ∀ u ∈ units, u.WellFormed s.kind)
    (hs : ∀ u ∈ units, ∀ c ∈ u.chunks, c.length ≤ maxPesBuffer) :
    let done := s.receiveAll (units.flatMap fun u => unitPayloads pid u.randomAccess true u.chunks)
    (done.2 ++ done.1.flushPes.2.1).map MediaPacket.dts =
      s.flushPes.2.1.map MediaPacket.dts ++ units.map fun u => tsToMs (u.dts % 2 ^ 33) := by
  induction units generalizing s with
  | nil => simp [receiveAll]
  | cons u units ih =>
    obtain ⟨hsa, hr', kept, hun⟩ := receiveAll_pesUnit hre pid (hu u mem_cons_self)
      (hs u mem_cons_self)
    have hr := ih hr' (fun v hv => hsa.kind_eq.symm ▸ hu v (mem_cons_of_mem _ hv))
      (fun v hv => hs v (mem_cons_of_mem _ hv))
    have hh := congrArg (map MediaPacket.dts) hun
    rw [flatMap_cons, receiveAll_append]
    simp only [map_append, append_assoc, map_cons, map_nil] at hr hh ⊢
    rw [hr, ← append_assoc, hh]
    simp [unitOf]

end StreamInfo

/-- The emitted times follow the true ones: in their order, and any two of them as far
apart as the true ones to less than two milliseconds. -/
def FollowsClock (trueTimes emitted : List Int) : Prop :=
  emitted.length = trueTimes.length ∧ emitted.Pairwise (· ≤ ·) ∧
    ∀ (j k : Nat) (a b t u : Int), emitted[j]? = some a →
    emitted[k]? = some b → trueTimes[j]? = some t →
      trueTimes[k]? = some u → (90 * (b - a) - (u - t)).natAbs < 180

variable {t : Int} {prober : Prober π} {packets : List (List UInt8)} {pid : Nat} {s : StreamInfo}
  {units : List PesUnit}

theorem tsToMs_bounds (h : 0 ≤ t) : 90 * tsToMs t ≤ t ∧ t < 90 * tsToMs t + 90 := by
  rw [tsToMs, Int.tdiv_eq_ediv_of_nonneg h]
  omega

theorem followsClock_iff (ho : times.Pairwise (· < ·)) :
    FollowsClock times (times.map fun t => tsToMs (t % 2 ^ 33)) ↔
      ∀ t ∈ times, ∀ u ∈ times, t / 2 ^ 33 = u / 2 ^ 33 := by
  have hbo (t : Int) := tsToMs_bounds (Int.emod_nonneg t (by decide : (2 : Int) ^ 33 ≠ 0))
  constructor
  · rintro ⟨-, -, hc⟩ t ht u hu
    obtain ⟨j, hj⟩ := getElem?_of_mem ht
    obtain ⟨k, hk⟩ := getElem?_of_mem hu
    have hd := hc j k (tsToMs (t % 2 ^ 33)) (tsToMs (u % 2 ^ 33)) t u (by rw [getElem?_map, hj]; rfl)
      (by rw [getElem?_map, hk]; rfl) hj hk
    have ht' := hbo t
    have hu' := hbo u
    omega
  · intro htu
    refine ⟨by simp, ?_, fun j k a b t u ha hb ht hu => ?_⟩
    · rw [pairwise_map]
      refine ho.imp_of_mem fun {t u} ht hu hlt => ?_
      have hs := htu t ht u hu
      have ht' := hbo t
      have hu' := hbo u
      omega
    · rw [getElem?_map, ht] at ha
      rw [getElem?_map, hu] at hb
      cases ha
      cases hb
      have hs := htu t (mem_of_getElem? ht) u (mem_of_getElem? hu)
      have ht' := hbo t
      have hu' := hbo u
      dsimp only
      omega

/-- The transport packets carry these units of one elementary stream: some packets name
the stream under the PID, and the packets of the PID behind them hold the units, while
the program stays the same. Decode times increase, by less than half a turn. -/
structure Elementary (prober : Prober π) (packets : List (List UInt8)) (pid : Nat) (s : StreamInfo)
    (units : List PesUnit) : Prop where
  whole : ∀ pkt ∈ packets, IsPacket pkt
  named : ∃ (setup rest : List TsPayload) (i : Nat) (d : PacketDemuxer π),
    packets.filterMap tsPayload = setup ++ rest ∧ d = setup.foldl (.processPayload prober) .new ∧
    d.pidToStream pid = some i ∧ d.streams[i]? = some s ∧ d.pmtPid ≠ some pid ∧
    d.output.filter (fun p => tag p = s.tag) = [] ∧ d.Stays prober rest ∧
    rest.filter (·.pid = pid) = units.flatMap fun u => unitPayloads pid u.randomAccess true u.chunks
  pid_ne : pid ≠ patPid
  fresh : s.pes = .new
  wellFormed : ∀ u ∈ units, u.WellFormed s.kind
  ordered : (units.map PesUnit.dts).Pairwise (· < ·)
  steps : (units.map PesUnit.dts).IsChain fun t u => u - t < 2 ^ 32

theorem Elementary.chunk_le (h : Elementary prober packets pid s units) :
    ∀ u ∈ units, ∀ c ∈ u.chunks, c.length ≤ maxPesBuffer := by
  intro u hu c hc
  obtain ⟨setup, rest, i, d, hpa, -, -, -, -, -, -, hun⟩ := h.named
  obtain ⟨p, hp, rfl⟩ : ∃ p ∈ unitPayloads pid u.randomAccess true u.chunks, p.payload = c :=
    exists_mem_unitPayloads hc
  have hre : p ∈ rest.filter (·.pid = pid) := hun ▸ mem_flatMap.mpr ⟨u, hu, hp⟩
  have hmem : p ∈ packets.filterMap tsPayload := by
    rw [hpa]
    exact mem_append_right _ (mem_of_mem_filter hre)
  obtain ⟨pkt, hpkt, hr⟩ := mem_filterMap.mp hmem
  have hle := length_tsPayload hr
  rw [(h.whole pkt hpkt).1] at hle
  exact hle.trans (by decide)

open StreamInfo

theorem Elementary.emitted (h : Elementary prober packets pid s units)
    {cs : List (List UInt8)} (hc : cs.flatten = packets.flatten) :
    ((((cs.foldl (feed prober) .new).flush prober).packets.output.filter fun p => tag p =
      s.tag).map MediaPacket.dts) = units.map fun u => tsToMs (u.dts % 2 ^ 33) := by
  obtain ⟨setup, rest, i, d, hp, hd, hi, hs, hpmt, hn, hsta, hu⟩ := h.named
  have hpa : (cs.foldl (feed prober) .new).packets = rest.foldl (.processPayload prober) d := by
    rw [feed_chunks prober h.whole hc.symm, PacketDemuxer.foldl_processTsPacket, hp,
      foldl_append, hd]
  have hst : d.Holds pid i s [] := by
    refine ⟨?_, hi, hs, hn⟩
    rw [hd]
    exact PacketDemuxer.topology_run prober setup topology_new
  have hdo := hst.run prober h.pid_ne hpmt hsta
  rw [hu] at hdo
  have hf := hdo.flush prober
  rw [(s.receiveAll_same _).tag_eq, ← hpa] at hf
  have he : s.pes.buf = [] := by rw [h.fresh]; rfl
  have hr : s.Ready := by
    intro _
    rw [flushPes_idle he, h.fresh]
    rfl
  have hu' := receiveAll_pesUnits pid hr h.wellFormed h.chunk_le
  rw [flushPes_idle he] at hu'
  exact (congrArg (map MediaPacket.dts) hf).trans hu'

/-- The emitted times follow the true clock if and only if it does not wrap: all true
decode times are in the same turn of 2^33 ticks. -/
theorem demuxed_followsClock_iff {prober : Prober π} {packets : List (List UInt8)}
    {pid : Nat} {s : StreamInfo} {units : List PesUnit}
    (h : Elementary prober packets pid s units) {chunks : List (List UInt8)}
    (hchunks : chunks.flatten = packets.flatten) :
    FollowsClock (units.map PesUnit.dts)
      (((((chunks.foldl (feed prober) .new).flush prober).packets.output.filter fun p => tag p =
        s.tag).map MediaPacket.dts)) ↔
          ∀ u ∈ units, ∀ v ∈ units, u.dts / 2 ^ 33 = v.dts / 2 ^ 33 := by
  have hiff := followsClock_iff h.ordered
  rw [List.map_map] at hiff
  rw [h.emitted hchunks]
  exact hiff.trans (by simp)

def pictureUnit (t : Int) : PesUnit :=
  let u : PesUnit :=
    { streamId := 0xE0, marker := 0x80, otherFlags := 0x00,
      pts := t, dts := t, explicitDts := false, extra := []
      named := false, randomAccess := false, payload := [0x00, 0x00, 0x01, 0x41, 0x9A], chunks := [] }
  { u with chunks := [u.header ++ u.payload] }

def picturePackets (t u : Int) : List (List UInt8) :=
  let m := TsMuxer.newWithMetadata (some "h264") [] .disabled
  [m.writePat.2, m.writePmt.2] ++ [(t, m.patCc), (u, m.writePat.1.patCc)].map fun x =>
    (pesPackets 0x100 false false x.1 (pictureUnit x.1).header
      (pictureUnit x.1).payload 1 true x.2 0).2

def pictureStream : StreamInfo :=
  { pid := 0x100, kind := .h264, trackIndex := 0, language := none, pes := .new }

def pictureDemuxer (t u : Int) : PacketDemuxer Unit :=
  (((picturePackets t u).filterMap tsPayload).take 2).foldl (.processPayload noProber) .new

theorem pictureUnit_wellFormed (t : Int) : (pictureUnit t).WellFormed .h264 := by
  refine ⟨?_, by simp [pictureUnit, PesUnit.lengthField], fun _ => rfl, by simp [pictureUnit], nofun, ⟨?_, ?_, ?_⟩⟩
  · simp [pictureUnit, PesUnit.fields, PesUnit.times, length_writeTimestampBuf]
  · simp [pictureUnit, PesUnit.header, PesUnit.fields, PesUnit.times, PesUnit.lengthField]
  · simp [pictureUnit, PesUnit.header]
  · intro c hc
    cases hc
    simp [pictureUnit, PesUnit.header, PesUnit.fields, PesUnit.times, PesUnit.lengthField]

theorem pictures_elementary (hlt : t < u) (hste : u - t < 2 ^ 32)
    (hw : ∀ pkt ∈ picturePackets t u, pkt.length = tsPacketSize ∧ pkt.head? = some tsSyncByte)
    (hi : (pictureDemuxer t u).pidToStream 0x100 = some 0)
    (hs : (pictureDemuxer t u).streams[0]? = some pictureStream)
    (ht : (pictureDemuxer t u).pmtPid ≠ some 0x100)
    (ho : (pictureDemuxer t u).output.filter (fun p => tag p = pictureStream.tag) = [])
    (hst : ∀ k ≤ (((picturePackets t u).filterMap tsPayload).drop 2).length,
      (((((picturePackets t u).filterMap tsPayload).drop 2).take k).foldl (.processPayload noProber)
        (pictureDemuxer t u)).program = (pictureDemuxer t u).program)
    (hc : (((picturePackets t u).filterMap tsPayload).drop 2).filter (·.pid = 0x100) =
      [pictureUnit t, pictureUnit u].flatMap
        fun v => unitPayloads 0x100 v.randomAccess true v.chunks) :
    Elementary noProber (picturePackets t u) 0x100 pictureStream [pictureUnit t, pictureUnit u] where
  whole := hw
  named := ⟨((picturePackets t u).filterMap tsPayload).take 2,
    ((picturePackets t u).filterMap tsPayload).drop 2, 0,
    pictureDemuxer t u,
    (take_append_drop 2 ((picturePackets t u).filterMap tsPayload)).symm, by rw [pictureDemuxer],
    hi, hs, ht, ho, hst, hc⟩
  pid_ne := by decide
  fresh := rfl
  wellFormed := by
    intro v hv
    simp only [mem_cons, not_mem_nil, or_false] at hv
    rcases hv with rfl | rfl
    · exact pictureUnit_wellFormed t
    · exact pictureUnit_wellFormed u
  ordered := by simpa [pictureUnit] using hlt
  steps := by simpa [pictureUnit] using hste

theorem demuxed_followsClock_iff_second :
    FollowsClock [90000, 93600]
      (((([(picturePackets 90000 93600).flatten].foldl (feed noProber) .new).flush noProber
        ).packets.output.filter fun p => tag p = pictureStream.tag).map MediaPacket.dts) := by
  have h : Elementary noProber (picturePackets 90000 93600) 0x100 pictureStream
      [pictureUnit 90000, pictureUnit 93600] :=
    pictures_elementary (by decide) (by decide) (by decide +kernel)
      (by decide +kernel) (by decide +kernel)
      (by decide +kernel) (by decide +kernel) (by decide +kernel) (by decide +kernel)
  exact (demuxed_followsClock_iff h List.flatten_singleton).mpr (by decide)

/-- Of two pictures 40 ms apart, one before and one behind a wrap, the second goes back
by more than a day. -/
theorem wrap_goes_back : ∃ packets s units, Elementary noProber packets 0x100 s units ∧
    ¬FollowsClock (units.map PesUnit.dts) ((((([packets.flatten].foldl (feed noProber)
      .new).flush noProber).packets.output.filter fun p => tag p = s.tag).map MediaPacket.dts)) := by
  have h : Elementary noProber (picturePackets (2 ^ 33 - 1800) (2 ^ 33 + 1800)) 0x100 pictureStream
      [pictureUnit (2 ^ 33 - 1800), pictureUnit (2 ^ 33 + 1800)] :=
    pictures_elementary (by decide) (by decide) (by decide +kernel)
      (by decide +kernel) (by decide +kernel)
      (by decide +kernel) (by decide +kernel) (by decide +kernel) (by decide +kernel)
  refine ⟨_, _, _, h, ?_⟩
  rintro ⟨-, hordered, -⟩
  rw [h.emitted List.flatten_singleton] at hordered
  exact absurd hordered (by decide)

end Restream.Mpegts
