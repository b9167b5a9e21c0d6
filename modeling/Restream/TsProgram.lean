import Restream.TsStreams

/-! The program tables of the muxer as the demuxer reads them: the association table
names the map table, and the map table installs the muxer's streams once and is then
recognized. -/

namespace Restream.Mpegts

open List MuxStreamConfig UInt8

variable {π : Type}

theorem withCrc_residue (data : List UInt8) : crc32Mpeg2 (withCrc data) = 0 :=
  crc32Mpeg2_append_bytes data

theorem length12_bytes (hf : flags ∈ [0xB0, 0xF0]) (hn : n < 2 ^ 12) :
    length12 (flags ||| (ofNat (n / 2 ^ 8) &&& 0x0F)) (ofNat n) = n := by
  have hb : ∀ flags ∈ ([0xB0, 0xF0] : List UInt8), ∀ k < 16,
      ((flags ||| (ofNat k &&& 0x0F)) &&& 0x0F).toNat = k := by decide +kernel
  rw [length12, hb flags hf (n / 2 ^ 8) (by omega), toNat_ofNat']
  omega

namespace MuxStreamConfig

def entry (s : MuxStreamConfig) : PmtEntry :=
  { streamType := s.streamType, pid := s.pid, descriptors := s.descriptors }

theorem descriptors_cases (s : MuxStreamConfig) :
    s.descriptors = [] ∨ ∃ a b c, s.descriptors = [0x0A, 0x04, a, b, c, 0x00] := by
  unfold descriptors
  cases s.mediaType with
  | video => exact .inl rfl
  | audio =>
    cases s.language with
    | none => exact .inl rfl
    | some language =>
      unfold iso639LanguageDescriptor
      dsimp only
      split
      · next a b c _ => exact .inr ⟨a, b, c, rfl⟩
      · exact .inl rfl

theorem splitEntry_pmtEntry {s : MuxStreamConfig} (hpid : s.pid < 2 ^ 13) (rest : List UInt8) :
    splitEntry (s.pmtEntry ++ rest) = some (s.entry, rest) := by
  have hlen : s.descriptors.length < 2 ^ 12 := by
    rcases s.descriptors_cases with h | ⟨a, b, c, h⟩ <;> simp [h]
  have hi := length12_bytes (show 0xF0 ∈ ([0xB0, 0xF0] : List UInt8) by decide) hlen
  have hpid13 := pid13_pidHigh (show 0xE0 ∈ ([0x40, 0x00, 0xE0] : List UInt8) by decide) hpid
  simp only [pmtEntry, cons_append, nil_append, splitEntry, hi, hpid13]
  rw [if_pos (by simp), take_left, drop_left]
  rfl

end MuxStreamConfig

section Entries

variable {ss : List MuxStreamConfig}

theorem entries_flatMap (hpid : ∀ s ∈ ss, s.pid < 2 ^ 13) (hn : ss.length ≤ n) :
    entriesAreValid n (ss.flatMap pmtEntry) = true ∧
    pmtEntries n (ss.flatMap pmtEntry) = ss.map entry := by
  induction ss generalizing n with
  | nil => cases n <;> exact ⟨rfl, rfl⟩
  | cons s ss ih =>
    obtain ⟨n, rfl⟩ : ∃ m, n = m + 1 := ⟨n - 1, by simp at hn; omega⟩
    obtain ⟨hv, he⟩ := ih (fun t ht => hpid t (mem_cons_of_mem _ ht)) (n := n) (by simpa using hn)
    have hs := splitEntry_pmtEntry (hpid s mem_cons_self) (ss.flatMap pmtEntry)
    rw [flatMap_cons, entriesAreValid.eq_3 _ _ (by simp [pmtEntry]), pmtEntries, hs]
    simp only [hv, he, Bool.and_true, map_cons, and_true]
    change descriptorsAreValid s.descriptors.length s.descriptors = true
    rcases s.descriptors_cases with h | ⟨a, b, c, h⟩ <;> rw [h]
    · rfl
    · simp [descriptorsAreValid]

theorem length_le_entries (ss : List MuxStreamConfig) :
    ss.length ≤ (ss.flatMap pmtEntry).length := by
  induction ss with
  | nil => simp
  | cons s ss ih =>
    simp only [flatMap_cons, length_append, length_cons, pmtEntry]
    omega

theorem length_entries (ss : List MuxStreamConfig) :
    (ss.flatMap pmtEntry).length + 13 = pmtSectionLen ss := by
  have hsum : (ss.flatMap pmtEntry).length =
      (ss.map fun s => 5 + s.descriptors.length).sum := by
    rw [length_flatMap]
    simp only [pmtEntry, length_append, length_cons, length_nil]
  rw [pmtSectionLen]
  omega

end Entries

def pmtLayoutOf (streams : List MuxStreamConfig) : List UInt8 :=
  0xF0 :: 0x00 :: streams.flatMap pmtEntry

section Section

variable {ss : List MuxStreamConfig}

theorem pmtSection_eq (ss : List MuxStreamConfig) (pcrPid : Nat) : ∃ hi lo pcrHigh pcrLow,
      pmtSection ss pcrPid = withCrc (0x02 :: hi :: lo :: 0x00 :: 0x01 :: 0xC1 :: 0x00 :: 0x00 ::
        pcrHigh :: pcrLow :: pmtLayoutOf ss) ∧
      (pmtSection ss pcrPid).take (pmtSectionLen ss - 1) = 0x02 :: hi :: lo :: 0x00 ::
        0x01 :: 0xC1 :: 0x00 :: 0x00 :: pcrHigh :: pcrLow :: pmtLayoutOf ss ∧
      (pmtSectionLen ss ≤ 1021 → length12 hi lo = pmtSectionLen ss) := by
  refine ⟨_, _, _, _, rfl, ?_, fun hf => length12_bytes (by decide) (by omega)⟩
  have hlen : pmtSectionLen ss - 1 = (pmtLayoutOf ss).length + 10 := by
    rw [← length_entries ss]
    rfl
  rw [hlen, pmtSection]
  exact take_left' rfl

theorem length_pmtSection (ss : List MuxStreamConfig) (pcrPid : Nat) :
    (pmtSection ss pcrPid).length = pmtSectionLen ss + 3 := by
  obtain ⟨_, _, _, _, heq, -⟩ := pmtSection_eq ss pcrPid
  rw [heq, ← length_entries ss]
  simp [withCrc, Crc.bytes, pmtLayoutOf]

theorem pmtStreamLoopBounds_section (hpid : ∀ s ∈ ss, s.pid < 2 ^ 13) :
    pmtStreamLoopBounds (pmtSection ss pcrPid) (pmtSectionLen ss + 3) =
      some (12, pmtSectionLen ss - 1) := by
  obtain ⟨_, _, _, _, heq, ht, -⟩ := pmtSection_eq ss pcrPid
  have hlen := length_pmtSection ss pcrPid
  have he := length_entries ss
  have hv := (entries_flatMap hpid (length_le_entries ss)).1
  unfold pmtStreamLoopBounds
  rw [if_neg (by omega), show pmtSectionLen ss + 3 - 4 = pmtSectionLen ss - 1 by omega, ht]
  simp only [heq, withCrc, pmtLayoutOf, cons_append, drop_succ_cons, drop_zero]
  rw [if_neg (by simp [length12]; omega)]
  simp only [show length12 0xF0 0x00 = 0 from rfl, take_succ_cons, drop_succ_cons, take_zero,
    drop_zero, drop_nil, descriptorsAreValid, hv, Nat.add_zero, Bool.and_self, if_true]

end Section

namespace PacketDemuxer

variable {pr : Prober π} {d : PacketDemuxer π} {ss : List MuxStreamConfig}

variable {pmtPid pid : Nat} {bs : List UInt8}

theorem parsePat_section (hpid : pmtPid < 2 ^ 13) :
    d.parsePat ([0x00] ++ patSection pmtPid ++ pad) true = { d with pmtPid := some pmtPid } := by
  have hp : pid13 (0xE0 ||| pidHigh pmtPid) (ofNat pmtPid) = pmtPid := pid13_pidHigh (by decide) hpid
  simp [parsePat, sectionAfterPointer, patSection, withCrc, Crc.bytes, length12, firstProgram, hp]

theorem process_pat (hpid : pmtPid < 2 ^ 13) :
    d.processPayload pr (sectionPayload patPid true (patSection pmtPid)) =
      { d with pmtPid := some pmtPid } := by
  rw [processPayload, if_pos (by rfl)]
  exact parsePat_section hpid

theorem acceptPmt_section (hpid : ∀ s ∈ ss, s.pid < 2 ^ 13) (pcrPid : Nat)
    (he : d.pmtExpected = pmtSectionLen ss + 3) :
    d.acceptPmt pr (pmtSection ss pcrPid) =
      if d.pmtLayout = pmtLayoutOf ss then d
      else d.installPmt pr (pmtLayoutOf ss) (ss.flatMap pmtEntry) := by
  obtain ⟨_, _, _, _, heq, ht, -⟩ := pmtSection_eq ss pcrPid
  have hcrc : crc32Mpeg2 (pmtSection ss pcrPid) = 0 := withCrc_residue _
  have hv : (pmtSection ss pcrPid)[5]? = some 0xC1 := rfl
  have hn : ((pmtSection ss pcrPid).take 8).drop 6 = [0, 0] := rfl
  unfold acceptPmt
  rw [he, pmtStreamLoopBounds_section hpid, hv]
  dsimp only
  rw [if_neg (by rw [hcrc, hn]; decide), ht]
  rfl

def accepted (prober : Prober π) (d : PacketDemuxer π) : PacketDemuxer π :=
  { d.acceptPmt prober d.pmtBuf with pmtBuf := [], pmtExpected := 0 }

theorem collectPmt_part (hlt : d.pmtBuf.length + data.length < d.pmtExpected) :
    d.collectPmt pr data = { d with pmtBuf := d.pmtBuf ++ data } := by
  have ht : data.take (d.pmtExpected - d.pmtBuf.length) = data := take_of_length_le (by omega)
  rw [collectPmt, ht]
  exact if_pos (by simpa using hlt)

theorem collectPmt_end (hlen : d.pmtBuf.length + bs.length = d.pmtExpected) :
    d.collectPmt pr (bs ++ pad) = accepted pr { d with pmtBuf := d.pmtBuf ++ bs } := by
  have ht : (bs ++ pad).take (d.pmtExpected - d.pmtBuf.length) = bs := by
    rw [← hlen, Nat.add_sub_cancel_left, take_left]
  rw [collectPmt, ht]
  exact if_neg (by simp [hlen])

theorem process_sectionPayloads (hpat : pid ≠ patPid) (hb : bs ≠ []) (hn : bs.length ≤ n)
    (hpid : d.pmtPid = some pid) (hlen : d.pmtBuf.length + bs.length = d.pmtExpected) :
    (sectionPayloads pid n false bs).foldl (processPayload pr) d =
      accepted pr { d with pmtBuf := d.pmtBuf ++ bs } := by
  induction n generalizing bs d with
  | zero => exact absurd (length_eq_zero_iff.mp (by omega)) hb
  | succ n ih =>
    have hpos := length_pos_iff.mpr hb
    have hs (chunk : List UInt8) : d.processPayload pr (sectionPayload pid false chunk) =
        d.collectPmt pr (chunk ++ replicate (tsPacketSize - 4 - chunk.length) 0xFF) := by
      simp only [processPayload, sectionPayload, if_neg hpat,
        if_pos hpid.symm, parsePmt, Bool.false_eq_true,
        if_false, if_pos (show 0 < d.pmtExpected by omega), nil_append]
    rw [sectionPayloads, if_neg hb]
    simp only [Bool.false_eq_true, if_false, foldl_cons, hs]
    by_cases hf : bs.length ≤ tsPacketSize - 4
    · rw [take_of_length_le hf, drop_eq_nil_of_le hf, collectPmt_end hlen]
      cases n <;> simp [sectionPayloads]
    · have ht : (bs.take (tsPacketSize - 4)).length = tsPacketSize - 4 := by simp; omega
      have hd : (bs.drop (tsPacketSize - 4)).length = bs.length - (tsPacketSize - 4) := by simp
      have hsi : tsPacketSize = 188 := rfl
      rw [ht, Nat.sub_self, replicate_zero, append_nil, collectPmt_part (by omega)]
      refine (ih (d := { d with pmtBuf := d.pmtBuf ++ bs.take (tsPacketSize - 4) }) ?_
        (by omega) hpid ?_).trans ?_
      · rw [← length_pos_iff]
        omega
      · simp only [length_append]
        omega
      · simp only [append_assoc, take_append_drop]

theorem process_section (hpat : pid ≠ patPid) (hpid : d.pmtPid = some pid)
    (hlow : 13 ≤ length12 hi lo)
    (hh : length12 hi lo ≤ 1021) (hlen : rest.length = length12 hi lo) :
    (sectionPayloads pid (rest.length + 3) true (0x02 :: hi :: lo :: rest)).foldl
      (processPayload pr) d =
      accepted pr { d with
        pmtBuf := 0x02 :: hi :: lo :: rest, pmtExpected := rest.length + 3 } := by
  have hs (chunk pad : List UInt8) : d.parsePmt pr (0x00 :: 0x02 :: hi :: lo :: (chunk ++ pad)) true =
        { d with pmtBuf := [], pmtExpected := rest.length + 3 }.collectPmt pr
          (0x02 :: hi :: lo :: chunk ++ pad) := by
    simp [parsePmt, sectionAfterPointer, hlow, hh, hlen]
  have hfi : d.processPayload pr (sectionPayload pid true (0x02 :: hi :: lo :: rest.take 180)) =
        { d with pmtBuf := [], pmtExpected := rest.length + 3 }.collectPmt pr
          (0x02 :: hi :: lo :: rest.take 180 ++
            replicate (tsPacketSize - 4 - ((rest.take 180).length + 4)) 0xFF) := by
    simp only [processPayload, sectionPayload, if_neg hpat, if_pos hpid.symm]
    exact hs (rest.take 180) _
  rw [sectionPayloads, if_neg (by simp)]
  simp only [if_true, tsPacketSize, take_succ_cons, drop_succ_cons, foldl_cons, hfi]
  by_cases hf : rest.length ≤ 180
  · rw [take_of_length_le hf, drop_eq_nil_of_le hf, collectPmt_end (by simp)]
    simp [sectionPayloads]
  · have ht : (rest.take 180).length = 180 := by simp; omega
    rw [ht, replicate_zero, append_nil, collectPmt_part (by simp; omega)]
    refine (process_sectionPayloads hpat ?_ (by simp; omega)
      (d := { d with
        pmtBuf := 0x02 :: hi :: lo :: rest.take 180, pmtExpected :=
          rest.length + 3 }) hpid ?_).trans ?_
    · simp
      omega
    · simp
      omega
    · simp

theorem process_pmt (hpat : pid ≠ patPid) (hpid : d.pmtPid = some pid)
    (hf : pmtSectionLen ss ≤ 1021) :
    (sectionPayloads pid (pmtSection ss pcrPid).length true (pmtSection ss pcrPid)).foldl
        (processPayload pr) d =
      accepted pr { d with
        pmtBuf := pmtSection ss pcrPid, pmtExpected := pmtSectionLen ss + 3 } := by
  obtain ⟨hi, lo, rest, heq, hl⟩ : ∃ hi lo rest, pmtSection ss pcrPid = 0x02 :: hi :: lo :: rest ∧
        length12 hi lo = pmtSectionLen ss := by
    obtain ⟨hi, lo, _, _, heq, -, hl⟩ := pmtSection_eq ss pcrPid
    exact ⟨hi, lo, _, heq, hl hf⟩
  have he := length_entries ss
  have hlen := length_pmtSection ss pcrPid
  rw [heq] at hlen ⊢
  have hr : rest.length = pmtSectionLen ss := by simpa using hlen
  rw [← hr]
  exact process_section hpat hpid (by omega) (by omega) (by omega)

end PacketDemuxer

end Restream.Mpegts
