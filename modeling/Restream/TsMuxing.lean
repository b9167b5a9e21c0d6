import Restream.TsInstall

/-! What one call of the muxer writes: the tables if they are due, and one PES of the
payload with the times of the call. The descriptor loop of the service description
table, read by the grammar of EN 300 468, is two short. -/

namespace Restream.Mpegts

open Codec List Nat UInt8

theorem lastBoundary_le (value : List UInt8) (n : Nat) :
    truncateUtf8Bytes.lastBoundary value n ≤ n := by
  induction n with
  | zero => exact le_rfl
  | succ n ih =>
    rw [truncateUtf8Bytes.lastBoundary]
    split
    · exact ih.trans n.le_succ
    · exact le_rfl

theorem length_truncateUtf8Bytes (value : List UInt8) (maxBytes : Nat) :
    (truncateUtf8Bytes value maxBytes).length ≤ maxBytes := by
  rw [truncateUtf8Bytes]
  split
  · next hle => exact hle
  · exact (length_take_le _ _).trans (lastBoundary_le value maxBytes)

theorem length_sdtSection (service : TsServiceMetadata) : (sdtSection service).length ≤ 183 := by
  have hp := length_truncateUtf8Bytes service.providerName 48
  have hn := length_truncateUtf8Bytes service.serviceName 110
  simp only [sdtSection, withCrc, Crc.bytes, length_append, length_cons, length_nil]
  omega

namespace TsMuxer

variable {m : TsMuxer}

theorem writeTables_spec (hm : m.Fits) (dtsMs : Int) :
    Transports (m.writeTables dtsMs).2 (tablePayloads m) ∧
    ∃ patCc pmtCc sdtCc, (m.writeTables dtsMs).1 =
      { m with patCc := patCc, pmtCc := pmtCc, sdtCc := sdtCc, lastPatPmtDts := some dtsMs } := by
  have hpat : Transports m.writePat.2 [sectionPayload patPid true (patSection m.pmtPid)] :=
    sectionPacket_transports (by decide) true m.patCc (by simp [patSection, withCrc])
      (by simp [patSection, withCrc, Crc.bytes, tsPacketSize])
  have hsdt : Transports m.writeSdt.2 [sectionPayload sdtPid true (sdtSection m.serviceMetadata)] :=
    sectionPacket_transports (by decide) true m.sdtCc (by simp [sdtSection, withCrc])
      (by have := length_sdtSection m.serviceMetadata; simp [tsPacketSize]; omega)
  have hse :=
    sectionPackets_transports hm.pmtPid_lt (pmtSection m.streams m.pcrPid).length true m.pmtCc
    (pmtSection m.streams m.pcrPid)
  have hf : ¬1021 < pmtSectionLen m.streams := not_lt.mpr hm.fits
  unfold writeTables
  simp only [writePat, writePmt, hf, if_false]
  split
  · next hs =>
    refine ⟨?_, _, _, _, rfl⟩
    rw [tablePayloads, if_pos hs, append_assoc]
    exact Transports.append hpat (.append hse hsdt)
  · next hs =>
    refine ⟨?_, _, _, _, rfl⟩
    rw [tablePayloads, if_neg hs, append_assoc]
    exact Transports.append hpat (.append hse .nil)

variable {i : Nat} {info : PacketMeta} {last : Int}

theorem timestamps_eq (hl : m.lastDts90k[i]? = some last) (hdts : last < msToTs info.dtsMs)
    (hpts : info.dtsMs ≤ info.ptsMs) :
    m.timestamps i info = (msToTs info.ptsMs, msToTs info.dtsMs) := by
  have hle : msToTs info.dtsMs ≤ msToTs info.ptsMs := by
    unfold msToTs
    omega
  simp only [timestamps, hl, if_neg (Int.not_le.mpr hdts), Int.max_eq_left hle]

theorem packetSpanEnd90k_eq (hc : m.streams[i]? = some c)
    (hf : c.mediaType = .audio → IsAdtsFrame pay) : m.packetSpanEnd90k i dts90k pay = dts90k := by
  simp only [packetSpanEnd90k, hc]
  by_cases ha : c.mediaType = .audio
  · rw [(hf ha).adtsFrameCount_eq, if_pos le_rfl, ite_self]
  · rw [if_pos (.inl ha)]

def duePayloads (m : TsMuxer) (info : PacketMeta) : List TsPayload :=
  if m.shouldInsertTables info then tablePayloads m else []

theorem due_of_first (h : m.lastPatPmtDts = none) : m.duePayloads info = tablePayloads m := by
  rw [duePayloads, shouldInsertTables, h]
  rfl

structure Follows (m m' : TsMuxer) (i : Nat) (last : Int) : Prop where
  streams : m'.streams = m.streams
  pmtPid : m'.pmtPid = m.pmtPid
  pcrPid : m'.pcrPid = m.pcrPid
  continuity : m'.continuity.length = m.continuity.length
  lastDts90k : m'.lastDts90k = m.lastDts90k.set i last
  written : m'.lastPatPmtDts ≠ none

theorem insertTables_spec (hm : m.Fits) (info : PacketMeta) : ∃ patCc pmtCc sdtCc last tables,
      (if m.shouldInsertTables info then m.writeTables info.dtsMs else (m, [])) =
        ({ m with patCc := patCc, pmtCc := pmtCc, sdtCc := sdtCc, lastPatPmtDts := some last },
          tables) ∧
      Transports tables (m.duePayloads info) := by
  rw [duePayloads]
  by_cases hdue : m.shouldInsertTables info = true
  · obtain ⟨ht, patCc, pmtCc, sdtCc, hn⟩ := writeTables_spec hm info.dtsMs
    rw [if_pos hdue, if_pos hdue]
    exact ⟨patCc, pmtCc, sdtCc, info.dtsMs, _, Prod.ext hn rfl, ht⟩
  · rw [if_neg hdue, if_neg hdue]
    obtain ⟨last, hl⟩ : ∃ last, m.lastPatPmtDts = some last := by
      cases hl : m.lastPatPmtDts with
      | none => simp [shouldInsertTables, hl] at hdue
      | some last => exact ⟨last, rfl⟩
    refine ⟨m.patCc, m.pmtCc, m.sdtCc, last, [], ?_, .nil⟩
    rw [← hl]

theorem muxPacketAt_spec (hm : m.Fits) (hc : m.streams[i]? = some c)
    (hco : m.continuity.length = m.streams.length) (hp : pay ≠ [])
    (hl : m.lastDts90k[i]? = some last) (hdts : last < msToTs info.dtsMs)
    (hpts : info.dtsMs ≤ info.ptsMs) (hfr : c.mediaType = .audio → IsAdtsFrame pay) :
    ∃ cs, Cut (pesHeader c.mediaType (msToTs info.ptsMs) (msToTs info.dtsMs) pay.length) pay cs ∧
      Transports (m.muxPacketAt i c.mediaType info pay).2 (m.duePayloads info ++
        unitPayloads c.pid info.isKeyframe true cs) ∧
          Follows m (m.muxPacketAt i c.mediaType info pay).1 i (msToTs info.dtsMs) := by
  obtain ⟨cc, hcc⟩ : ∃ cc, m.continuity[i]? = some cc :=
    ⟨_, List.getElem?_eq_getElem (hco.symm ▸ (List.getElem?_eq_some_iff.mp hc).1)⟩
  obtain ⟨patCc, pmtCc, sdtCc, written, tables, hta, ht⟩ := insertTables_spec
    (m := { m with lastDts90k := m.lastDts90k.set i (msToTs info.dtsMs) }) { hm with } info
  simp only [muxPacketAt, hc, hcc, if_neg hp, timestamps_eq hl hdts hpts,
    packetSpanEnd90k_eq hc hfr, hta]
  generalize hhdr : pesHeader c.mediaType (msToTs info.ptsMs) (msToTs info.dtsMs) pay.length = hdr
  obtain ⟨cs, hfl, hf, hfi, hpa⟩ := pesPackets_spec (hm.pids c (mem_of_getElem? hc)) info.isKeyframe
    (c.pid = m.pcrPid) (msToTs info.dtsMs) hdr pay (hdr.length + pay.length) true cc 0 (by omega)
  have hh : hdr.length ≤ 19 := by
    obtain ⟨lenHigh, lenLow, hb, -⟩ :=
      pesHeader_bytes c.mediaType (msToTs info.ptsMs) (msToTs info.dtsMs) pay.length
    rw [← hhdr, hb]
    split <;> simp [length_writeTimestampBuf]
  refine ⟨cs, ⟨by simpa using hfl, hf, fun chunk hch => ?_⟩, ht.append hpa, rfl, rfl, rfl,
    by simp, rfl, by simp⟩
  have hle := hfi chunk hch
  omega

end TsMuxer

/-- Descriptors of 2 + descriptor_length bytes that tile what is given. -/
def readDescriptors : Nat → List UInt8 → Option (List (UInt8 × List UInt8))
  | _, [] => some []
  | n + 1, tag :: len :: rest =>
    if len.toNat ≤ rest.length then
      (readDescriptors n (rest.drop len.toNat)).map ((tag, rest.take len.toNat) :: ·)
    else none
  | _, _ => none

/-- The entries of a service loop. A reader may take `slack` bytes more into a descriptor
loop than its length field says; one that keeps to the standard takes none. -/
def readServices (slack : Nat) : Nat → List UInt8 → Option (List (List (UInt8 × List UInt8)))
  | _, [] => some []
  | n + 1, _ :: _ :: _ :: high :: low :: rest =>
    let len := length12 high low + slack
    if len ≤ rest.length then do
      let descriptors ← readDescriptors len (rest.take len)
      let more ← readServices slack n (rest.drop len)
      some (descriptors :: more)
    else none
  | _, _ => none

def readSdt (slack : Nat) (packet : List UInt8) : Option (List (List (UInt8 × List UInt8))) :=
  match tsPayload packet with
  | some ⟨pid, start, _, 0x00 :: 0x42 :: high :: low :: rest⟩ =>
    let len := length12 high low
    if packet.length = tsPacketSize ∧ packet.head? = some tsSyncByte ∧
      pid = sdtPid ∧ start = true ∧ 12 ≤ len ∧
        len ≤ rest.length ∧ crc32Mpeg2 (0x42 :: high :: low :: rest.take len) = 0 then
      readServices slack len ((rest.take (len - 4)).drop 8)
    else none
  | _ => none

def IsCharBoundary (value : List UInt8) (k : Nat) : Prop :=
  k ≤ value.length ∧ (k = 0 ∨ ∀ b, value[k]? = some b → b &&& 0xC0 ≠ 0x80)

/-- The longest part at the front of `value` that ends between characters and has at most
`limit` bytes. -/
def LongestWithin (value : List UInt8) (limit : Nat) (name : List UInt8) : Prop :=
  ∃ k ≤ limit, name = value.take k ∧ IsCharBoundary value k ∧
    ∀ j ≤ limit, IsCharBoundary value j → j ≤ k

theorem lastBoundary_spec (value : List UInt8) (hn : n ≤ value.length) :
    let k := truncateUtf8Bytes.lastBoundary value n
    k ≤ n ∧ IsCharBoundary value k ∧ ∀ j ≤ n, IsCharBoundary value j → j ≤ k := by
  induction n with
  | zero => exact ⟨le_refl 0, ⟨hn, .inl rfl⟩, fun j hj _ => hj⟩
  | succ n ih =>
    obtain ⟨hle, hb, hmax⟩ := ih (by omega)
    rw [truncateUtf8Bytes.lastBoundary]
    split
    · next hcont =>
      refine ⟨by omega, hb, fun j hj hjb => ?_⟩
      rcases lt_or_ge j (n + 1) with hlt | hge
      · exact hmax j (by omega) hjb
      · obtain rfl : j = n + 1 := by omega
        cases hget : value[n + 1]? with
        | none => simp [hget] at hcont
        | some b => exact absurd (by simpa [hget] using hcont) (hjb.2.resolve_left (by omega) b hget)
    · next hend =>
      refine ⟨le_refl _, ⟨hn, .inr fun b hget hbit => hend ?_⟩, fun j hj _ => hj⟩
      simp [hget, hbit]

theorem truncateUtf8Bytes_longest :
    LongestWithin value limit (truncateUtf8Bytes value limit) := by
  unfold truncateUtf8Bytes
  split
  · next hle => exact ⟨value.length, hle, by simp, ⟨le_refl _, .inr (by simp)⟩, fun j _ hj => hj.1⟩
  · next hgt =>
    obtain ⟨hle, hb, hmax⟩ := lastBoundary_spec value (Nat.le_of_not_le hgt)
    exact ⟨_, hle, rfl, hb, hmax⟩

theorem toNat_ofNat_byte (h : n < 256) : (ofNat n).toNat = n := by
  rw [toNat_ofNat']
  omega

/-- One entry whose loop holds one descriptor of `2 + data.length` bytes while its length
field counts `data.length`. -/
theorem readServices_entry (hlen : data.length < 256) (hpos : 2 ≤ data.length) (slack n : Nat)
    (tag a b c : UInt8) :
    readServices slack (n + 1) (a :: b :: c :: 0x80 :: ofNat data.length :: tag ::
      ofNat data.length :: data) = if slack = 2 then some [[(tag, data)]] else none := by
  have hloop : length12 0x80 (ofNat data.length) = data.length := by
    rw [length12, toNat_ofNat_byte hlen]
    simp
  simp only [readServices, hloop, length_cons]
  rcases lt_trichotomy slack 2 with hlt | rfl | hgt
  · obtain ⟨k, hk⟩ : ∃ k, data.length + slack = k + 2 := ⟨data.length + slack - 2, by omega⟩
    have hshort : ¬data.length ≤ k := by omega
    rw [if_pos (by omega), if_neg (by omega), hk]
    simp [readDescriptors, toNat_ofNat_byte hlen, hshort]
  · simp [readDescriptors, readServices, toNat_ofNat_byte hlen, take_of_length_le]
  · rw [if_neg (by omega), if_neg (by omega)]

def serviceDescriptor (provider service : List UInt8) : List UInt8 :=
  0x01 :: UInt8.ofNat provider.length :: provider ++ UInt8.ofNat service.length :: service

theorem sdtSection_eq (hd : data = serviceDescriptor (truncateUtf8Bytes metadata.providerName 48)
      (truncateUtf8Bytes metadata.serviceName 110)) :
    2 ≤ data.length ∧ data.length ≤ 161 ∧ sdtSection metadata = withCrc (0x42 ::
      (0xF0 ||| (ofNat ((19 + data.length) / 2 ^ 8) &&& 0x0F)) :: ofNat (19 + data.length) ::
      ([0x00, 0x01, 0xC1, 0x00, 0x00, 0x00, 0x01, 0xFF] ++ 0x00 :: 0x01 :: 0xFC :: 0x80 ::
        ofNat data.length :: 0x48 :: ofNat data.length :: data)) := by
  have hp := length_truncateUtf8Bytes metadata.providerName 48
  have hs := length_truncateUtf8Bytes metadata.serviceName 110
  simp only [sdtSection]
  generalize truncateUtf8Bytes metadata.providerName 48 = provider at hp hd ⊢
  generalize truncateUtf8Bytes metadata.serviceName 110 = service at hs hd ⊢
  have hlen : 3 + provider.length + service.length = data.length := by
    simp [hd, serviceDescriptor]
    omega
  have hsec : 12 + (5 + 2 + data.length) = 19 + data.length := by omega
  have hhigh : data.length / 2 ^ 8 = 0 := by omega
  refine ⟨by omega, by omega, ?_⟩
  rw [hlen, hsec, hhigh]
  simp [hd, serviceDescriptor]

theorem readSdt_packet (m : TsMuxer) (slack : Nat) (hn : body.length + 4 = n) (hmin : 12 ≤ n)
    (hmax : n ≤ 180) (hs : sdtSection m.serviceMetadata = withCrc (0x42 ::
      (0xF0 ||| (ofNat (n / 2 ^ 8) &&& 0x0F)) :: ofNat n :: body)) :
    m.writeSdt.2.length = tsPacketSize ∧
    readSdt slack m.writeSdt.2 = readServices slack n (body.drop 8) := by
  have hlen : (sdtSection m.serviceMetadata).length = n + 3 := by
    simp [hs, withCrc, Crc.bytes]
    omega
  obtain ⟨pkts, hflat, hpkt, hpay⟩ : Transports
      (sectionPacket sdtPid true m.sdtCc (sdtSection m.serviceMetadata)) _ :=
    sectionPacket_transports (by decide) true m.sdtCc (by simp [hs, withCrc])
      (by simp [hlen, tsPacketSize]; omega)
  obtain ⟨pkt, rfl⟩ : ∃ pkt, pkts = [pkt] :=
    length_eq_one_iff.mp (by simpa using congrArg length hpay)
  obtain rfl : pkt = m.writeSdt.2 := append_nil pkt ▸ hflat
  have hp := hpkt _ (mem_singleton_self _)
  have hcrc := withCrc_residue (0x42 :: (0xF0 ||| (ofNat (n / 2 ^ 8) &&& 0x0F)) :: ofNat n :: body)
  rw [map_singleton, map_singleton, List.cons.injEq] at hpay
  refine ⟨hp.1, ?_⟩
  rw [readSdt, hpay.1]
  simp only [sectionPayload, hs, withCrc, if_true, cons_append, nil_append] at hcrc ⊢
  generalize hbytes : Crc.bytes _ = crc at hcrc ⊢
  have h12 : length12 (0xF0 ||| (ofNat (n / 2 ^ 8) &&& 0x0F)) (ofNat n) = n :=
    length12_bytes (by decide) (by omega)
  have hcl : crc.length = 4 := hbytes ▸ rfl
  have htake : (body ++ crc).length = n := by simp [hcl, hn]
  simp only [h12, take_append_of_le_length (le_of_eq htake.symm), take_of_length_le (le_of_eq htake)]
  rw [if_pos ⟨hp.1, hp.2, trivial, trivial, hmin, by simp; omega, hcrc⟩, append_assoc,
    take_append_of_le_length (by omega), take_of_length_le (by omega)]

/-- The table fits its packet and its checksum leaves no remainder. It has one service
with one service descriptor, whose names are the longest that fit, for a reader that takes
two bytes more into the descriptor loop than its length says, and for no other. -/
theorem sdt_read_two_longer (m : TsMuxer) (slack : Nat) :
    let provider := truncateUtf8Bytes m.serviceMetadata.providerName 48
    let service := truncateUtf8Bytes m.serviceMetadata.serviceName 110
    LongestWithin m.serviceMetadata.providerName 48 provider ∧
    LongestWithin m.serviceMetadata.serviceName 110 service ∧ m.writeSdt.2.length = tsPacketSize ∧
    readSdt slack m.writeSdt.2 =
      if slack = 2 then some [[(0x48, serviceDescriptor provider service)]] else none := by
  intro provider service
  obtain ⟨data, hdata⟩ : ∃ data, data = serviceDescriptor provider service := ⟨_, rfl⟩
  obtain ⟨hmin, hmax, hs⟩ := sdtSection_eq hdata
  obtain ⟨hlen, hread⟩ := readSdt_packet m slack (by simp; omega) (by omega) (by omega) hs
  refine ⟨truncateUtf8Bytes_longest, truncateUtf8Bytes_longest, hlen, ?_⟩
  rw [hread, ← hdata, add_comm]
  exact readServices_entry (by omega) hmin slack (data.length + 18) _ _ _ _

/-- A reader that keeps to the standard rejects the table of provider "A" and service "B". -/
theorem sdt_not_tiled : readSdt 0 (TsMuxer.newWithMetadata (some "h264") []
    { providerName := [0x41], serviceName := [0x42] }).writeSdt.2 = none := by
  decide +kernel

end Restream.Mpegts
