import Restream.TsPackets

/-! Program tables that are not accepted: a section that is damaged, malformed or not in
force leaves everything but the section buffer as it is. -/

namespace Restream.Mpegts

open List Option PacketDemuxer

variable {π : Type}

/-- Descriptors one behind the other: a tag, a length and as many bytes. -/
inductive DescriptorLoop : List UInt8 → Prop
  | nil : DescriptorLoop []
  | cons (tag len : UInt8) {payload rest : List UInt8} (hlen : payload.length = len.toNat)
      (hrest : DescriptorLoop rest) : DescriptorLoop (tag :: len :: (payload ++ rest))

/-- Stream entries one behind the other, each with its descriptors. -/
inductive StreamLoop : List UInt8 → Prop
  | nil : StreamLoop []
  | cons (streamType pidHigh pidLow infoHigh infoLow : UInt8) {descriptors rest : List UInt8}
      (hlen : descriptors.length = length12 infoHigh infoLow) (hinfo : DescriptorLoop descriptors)
      (hrest : StreamLoop rest) :
      StreamLoop (streamType :: pidHigh :: pidLow :: infoHigh :: infoLow :: (descriptors ++ rest))

def IsPmtSection (bytes : List UInt8) : Prop :=
  ∃ high low rest, bytes = 0x02 :: high :: low :: rest ∧ rest.length = length12 high low

/-- A section that is in force: intact, of a legal length, tiled by its loops, current, and
the only one of its table. -/
structure ValidPmt (bytes : List UInt8) : Prop where
  crc : crc32Mpeg2 bytes = 0
  sectionLength : 13 + 3 ≤ bytes.length ∧ bytes.length ≤ 1021 + 3
  current : ∃ version, bytes[5]? = some version ∧ version &&& 1 ≠ 0
  only : bytes[6]? = some 0 ∧ bytes[7]? = some 0
  tiled : ∃ high low info entries crc, bytes.drop 10 = high :: low :: (info ++ (entries ++ crc)) ∧
    info.length = length12 high low ∧ crc.length = 4 ∧ DescriptorLoop info ∧ StreamLoop entries

def Delivery (pid : Nat) (bytes : List UInt8) (payloads : List TsPayload) : Prop :=
  pid ≠ patPid ∧ ∃ first rest pointer skipped chunk stuffing, payloads = first :: rest ∧
    first.payload = pointer :: (skipped ++ chunk) ∧ skipped.length = pointer.toNat ∧
    first.pid = pid ∧ first.payloadUnitStart = true ∧
    (∀ p ∈ rest, p.pid = pid ∧ p.payloadUnitStart = false) ∧
    chunk ++ (rest.map TsPayload.payload).flatten = bytes ++ stuffing

section Loops

theorem descriptorLoop_of_valid (h : descriptorsAreValid n data = true) : DescriptorLoop data := by
  induction n generalizing data with
  | zero =>
    rcases data with - | ⟨tag, - | ⟨len, tail⟩⟩
    · exact .nil
    · cases h
    · cases h
  | succ n ih =>
    rcases data with - | ⟨tag, - | ⟨len, tail⟩⟩
    · exact .nil
    · cases h
    · simp only [descriptorsAreValid, Bool.and_eq_true, decide_eq_true_eq] at h
      have hl := DescriptorLoop.cons tag len (length_take_of_le h.1) (ih h.2)
      rwa [take_append_drop] at hl

theorem streamLoop_of_valid (h : entriesAreValid n data = true) : StreamLoop data := by
  induction n generalizing data with
  | zero =>
    cases data with
    | nil => exact .nil
    | cons b data => cases h
  | succ n ih =>
    cases data with
    | nil => exact .nil
    | cons b data =>
      rw [entriesAreValid] at h
      · split at h
        · cases h
        · next e rest hs =>
          simp only [Bool.and_eq_true] at h
          unfold splitEntry at hs
          split at hs
          · next streamType pidHigh pidLow infoHigh infoLow tail heq =>
            obtain ⟨hle, hp⟩ := ite_none_right_eq_some.mp hs
            obtain ⟨rfl, rfl⟩ := Prod.mk.inj (Option.some.inj hp)
            have hl :=
              StreamLoop.cons streamType pidHigh pidLow infoHigh infoLow (length_take_of_le hle)
              (descriptorLoop_of_valid h.1) (ih h.2)
            rw [take_append_drop] at hl
            rwa [heq]
          · cases hs
      · simp

theorem tiled_of_bounds (h : pmtStreamLoopBounds bytes bytes.length = some bounds) :
    ∃ high low info es crc, bytes.drop 10 = high :: low :: (info ++ (es ++ crc)) ∧
      info.length = length12 high low ∧ crc.length = 4 ∧ DescriptorLoop info ∧ StreamLoop es := by
  unfold pmtStreamLoopBounds at h
  dsimp only at h
  split at h
  · cases h
  · split at h
    · next high low tail hd =>
      split at h
      · cases h
      · obtain ⟨hv, -⟩ := ite_none_right_eq_some.mp h
        simp only [Bool.and_eq_true] at hv
        have ht : bytes.drop 12 = tail := by
          have := congrArg (drop 2) hd
          rwa [drop_drop] at this
        have hi : (bytes.take (12 + length12 high low)).drop 12 = tail.take (length12 high low) := by
          rw [drop_take, ht, Nat.add_sub_cancel_left]
        have he : (bytes.take (bytes.length - 4)).drop (12 + length12 high low) =
            (tail.drop (length12 high low)).take (bytes.length - 4 - (12 + length12 high low)) := by
          rw [drop_take, ← drop_drop, ht]
        rw [hi, he] at hv
        have hlen : tail.length = bytes.length - 12 := by rw [← ht, length_drop]
        refine ⟨high, low, _, _,
          (tail.drop (length12 high low)).drop (bytes.length - 4 - (12 + length12 high low)),
          ?_, ?_, ?_, descriptorLoop_of_valid hv.1, streamLoop_of_valid hv.2⟩
        · rw [take_append_drop, take_append_drop, hd]
        · rw [length_take]
          omega
        · rw [length_drop, length_drop]
          omega
    · cases h

end Loops

namespace PacketDemuxer

variable {prober : Prober π} {d : PacketDemuxer π} {bytes : List UInt8} {pid : Nat}

def withSection (d : PacketDemuxer π) (buf : List UInt8) (expected : Nat) : PacketDemuxer π :=
  { d with pmtBuf := buf, pmtExpected := expected }

theorem acceptPmt_invalid (hlen : 13 + 3 ≤ bytes.length ∧ bytes.length ≤ 1021 + 3)
    (hi : ¬ValidPmt bytes)
    (he : d.pmtExpected = bytes.length) : d.acceptPmt prober bytes = d := by
  unfold acceptPmt
  rw [he]
  split
  · next loopStart loopEnd ver hb hv =>
    rw [if_pos]
    by_contra hok
    simp only [not_or, not_not] at hok
    obtain ⟨hcrc, hc, ho⟩ := hok
    have hn (k : Nat) (hk : k < 2) : bytes[6 + k]? = [0, 0][k]? := by
      rw [← ho, getElem?_drop, getElem?_take, if_pos (by omega)]
    exact hi ⟨hcrc, hlen, ⟨ver, hv, hc⟩, ⟨hn 0 (by decide), hn 1 (by decide)⟩, tiled_of_bounds hb⟩
  · rfl

variable {buf data more stuffing : List UInt8} {expected : Nat} {pays : List TsPayload}

theorem collectPmt_invalid (hlen : 13 + 3 ≤ bytes.length ∧ bytes.length ≤ 1021 + 3)
    (hi : ¬ValidPmt bytes)
    (hbuf : buf.length < bytes.length) (hb : buf ++ data ++ more = bytes ++ stuffing) :
    buf.length + data.length < bytes.length ∧
        (d.withSection buf bytes.length).collectPmt prober data =
          d.withSection (buf ++ data) bytes.length ∨
      (d.withSection buf bytes.length).collectPmt prober data = d.withSection [] 0 := by
  by_cases hp : buf.length + data.length < bytes.length
  · left
    have ht : data.take (bytes.length - buf.length) = data := take_of_length_le (by omega)
    refine ⟨hp, ?_⟩
    simp only [collectPmt, withSection, ht, length_append]
    rw [if_pos hp]
  · right
    have hw : buf ++ data.take (bytes.length - buf.length) = bytes := by
      have ht := congrArg (take bytes.length) hb
      rwa [take_left, append_assoc, take_append, take_of_length_le (Nat.le_of_lt hbuf),
        take_append_of_le_length (by omega)] at ht
    have hd : (d.withSection buf bytes.length).collectPmt prober data =
        { (d.withSection bytes bytes.length).acceptPmt prober bytes with pmtBuf := [], pmtExpected := 0 } := by
      simp only [collectPmt, withSection, hw]
      rw [if_neg (Nat.lt_irrefl _)]
    rw [hd, acceptPmt_invalid hlen hi rfl]
    rfl

def Collecting (bytes buf : List UInt8) (expected : Nat) (todo : List UInt8) : Prop :=
  expected = 0 ∨ (13 + 3 ≤ bytes.length ∧ bytes.length ≤ 1021 + 3) ∧ expected = bytes.length ∧
    buf.length < bytes.length ∧ ∃ stuffing, buf ++ todo = bytes ++ stuffing

theorem Collecting.collectPmt (hi : ¬ValidPmt bytes)
    (h : Collecting bytes buf expected (data ++ more))
    (hpos : 0 < expected) :
    ∃ buf' ex', (d.withSection buf expected).collectPmt prober data = d.withSection buf' ex' ∧
      Collecting bytes buf' ex' more := by
  obtain ⟨hlen, rfl, hs, stuffing, hb⟩ := h.resolve_left (by omega)
  rw [← append_assoc] at hb
  rcases collectPmt_invalid hlen hi hs hb with ⟨hp, hn⟩ | hn
  · exact ⟨_, _, hn, .inr ⟨hlen, rfl, by rw [length_append]; exact hp, stuffing, hb⟩⟩
  · exact ⟨_, _, hn, .inl rfl⟩

theorem Collecting.foldl (hi : ¬ValidPmt bytes) (hpid : d.pmtPid = some pid) (hpat : pid ≠ patPid)
    (hpa : ∀ p ∈ pays, p.pid = pid ∧ p.payloadUnitStart = false)
    (h : Collecting bytes buf expected (pays.map TsPayload.payload).flatten) :
    ∃ buf' ex', pays.foldl (processPayload prober) (d.withSection buf expected) =
      d.withSection buf' ex' := by
  induction pays generalizing buf expected with
  | nil => exact ⟨buf, expected, rfl⟩
  | cons p pays ih =>
    obtain ⟨⟨hp, hs⟩, hr⟩ := forall_mem_cons.mp hpa
    have hpar : (d.withSection buf expected).processPayload prober p =
        (d.withSection buf expected).parsePmt prober p.payload false := by
      rw [processPayload, hp, if_neg hpat, if_pos (by exact hpid.symm), hs]
    rw [foldl_cons, hpar, parsePmt, if_neg Bool.false_ne_true]
    split
    · next hpos =>
      obtain ⟨buf', ex', hn, hc⟩ := h.collectPmt hi hpos
      rw [hn]
      exact ih hr hc
    · next hid => exact ih hr (.inl (Nat.eq_zero_of_not_pos hid))

theorem parsePmt_start (hs : IsPmtSection bytes) (hi : ¬ValidPmt bytes)
    (hsk : sk.length = pointer.toNat) (hb : chunk ++ more = bytes ++ stuffing) :
    ∃ buf expected, d.parsePmt prober (pointer :: (sk ++ chunk)) true = d.withSection buf expected ∧
      Collecting bytes buf expected more := by
  have ha : (sk ++ chunk).drop pointer.toNat = chunk := drop_left' hsk
  rw [parsePmt, if_pos rfl, sectionAfterPointer, ha]
  obtain ⟨high, low, rest, rfl, hr⟩ := hs
  rcases chunk with - | ⟨a, - | ⟨b, - | ⟨c, tail⟩⟩⟩
  · exact ⟨[], 0, rfl, .inl rfl⟩
  · exact ⟨[], 0, by simp [withSection], .inl rfl⟩
  · exact ⟨[], 0, by simp [withSection], .inl rfl⟩
  · obtain ⟨rfl, rfl, rfl, -⟩ : a = 0x02 ∧ b = high ∧ c = low ∧ tail ++ more = rest ++ stuffing := by
      simpa using hb
    rw [if_neg (cons_ne_nil _ _)]
    simp only
    split
    · have hc : Collecting (0x02 :: b :: c :: rest) [] (length12 b c + 3)
          (0x02 :: b :: c :: tail ++ more) := by
        refine .inr ⟨?_, ?_, ?_, stuffing, hb⟩ <;> simp only [length_cons, length_nil, hr] <;> omega
      exact hc.collectPmt hi (Nat.succ_pos _)
    · exact ⟨[], 0, rfl, .inl rfl⟩

theorem foldl_rejected (hs : IsPmtSection bytes) (hi : ¬ValidPmt bytes) (hpid : d.pmtPid = some pid)
    (hd : Delivery pid bytes pays) :
    ∃ buf expected, pays.foldl (processPayload prober) d = d.withSection buf expected := by
  obtain ⟨hpat, first, rest, pointer, sk, chunk, stuffing, rfl, hp, hsk, hf, hst, hr, hb⟩ := hd
  obtain ⟨buf, expected, hn, hc⟩ : ∃ buf expected,
      d.parsePmt prober (pointer :: (sk ++ chunk)) true = d.withSection buf expected ∧ _ :=
    parsePmt_start hs hi hsk hb
  rw [foldl_cons, processPayload, hf, if_neg hpat, if_pos hpid.symm, hp, hst, hn]
  exact hc.foldl hi hpid hpat hr

theorem processPayload_start (hpid : d.pmtPid = some pid) (hpat : pid ≠ patPid) (hp : p.pid = pid)
    (hs : p.payloadUnitStart = true) :
    (d.withSection buf expected).processPayload prober p = d.processPayload prober p := by
  rw [processPayload, processPayload, hp, if_neg hpat, if_neg hpat,
    if_pos hpid.symm, if_pos (by exact hpid.symm),
    hs]
  rfl

end PacketDemuxer

/-- A section that is not in force, delivered in any transport packets to a demuxer in any
state, leaves everything but the section buffer as it is, and what starts the next section
is read as it would have been without it. -/
theorem rejected_pmt_changes_nothing (prober : Prober π) (d : PacketDemuxer π) {pid : Nat}
    (hpid : d.pmtPid = some pid) {bytes : List UInt8} (hsection : IsPmtSection bytes)
    (hinvalid : ¬ValidPmt bytes) {packets : List (List UInt8)}
    (hdelivery : Delivery pid bytes (packets.filterMap tsPayload)) :
    (∃ buf expected, packets.foldl (.processTsPacket prober) d =
      { d with pmtBuf := buf, pmtExpected := expected }) ∧
    ∀ (valid : List UInt8) (following : List (List UInt8)),
      Delivery pid valid (following.filterMap tsPayload) →
      following.foldl (.processTsPacket prober) (packets.foldl (.processTsPacket prober) d) =
        following.foldl (.processTsPacket prober) d := by
  obtain ⟨buf, expected, hrejected⟩ : ∃ buf expected,
      packets.foldl (.processTsPacket prober) d = d.withSection buf expected := by
    rw [foldl_processTsPacket]
    exact foldl_rejected hsection hinvalid hpid hdelivery
  refine ⟨⟨buf, expected, hrejected⟩, fun valid following hfollowing => ?_⟩
  obtain ⟨hpat, first, rest, -, -, -, -, hpayloads, -, -, hfirst, hstart, -⟩ := hfollowing
  rw [hrejected, foldl_processTsPacket, foldl_processTsPacket, hpayloads,
    List.foldl_cons, List.foldl_cons, processPayload_start hpid hpat hfirst hstart]

def damagedPmt : List UInt8 := [0x02, 0xB0, 13, 0, 1, 0xC1, 0, 0, 0xE1, 0, 0xF0, 0, 0, 0, 0, 0]

def damagedPacket : List UInt8 :=
  [0x47, 0x50, 0x00, 0x10, 0x00] ++ damagedPmt ++ List.replicate 167 0xFF

theorem rejected_pmt_changes_nothing_damaged : ¬ValidPmt damagedPmt ∧ ∃ buf expected,
      [damagedPacket].foldl (.processTsPacket noProber)
        { PacketDemuxer.new with pmtPid := some 0x1000 } =
        { PacketDemuxer.new with pmtPid := some 0x1000, pmtBuf := buf, pmtExpected := expected } := by
  have hinvalid : ¬ValidPmt damagedPmt := fun h => absurd h.crc (by decide +kernel)
  have hsection : IsPmtSection damagedPmt := ⟨_, _, _, rfl, rfl⟩
  have hdelivery : Delivery 0x1000 damagedPmt ([damagedPacket].filterMap tsPayload) :=
    ⟨by decide, _, [], 0, [], damagedPmt ++ List.replicate 167 0xFF, _, rfl, rfl, rfl, by decide +kernel,
      by decide +kernel, by simp, List.append_nil _⟩
  exact ⟨hinvalid, (rejected_pmt_changes_nothing noProber _ rfl hsection hinvalid hdelivery).1⟩

/-- A section that was intact and then had a byte behind its length changed installs
nothing, in whatever packets it comes and whatever state the demuxer is in. -/
theorem altered_pmt_installs_nothing (prober : Prober π) (d : PacketDemuxer π) {pid : Nat}
    (hpid : d.pmtPid = some pid) {pre post : List UInt8} {a b : UInt8}
    (hsection : IsPmtSection (pre ++ a :: post)) (hintact : crc32Mpeg2 (pre ++ a :: post) = 0)
    (hbehind : 3 ≤ pre.length) (hne : a ≠ b) {packets : List (List UInt8)}
    (hdelivery : Delivery pid (pre ++ b :: post) (packets.filterMap tsPayload)) :
    ∃ buf expected, packets.foldl (.processTsPacket prober) d =
      { d with pmtBuf := buf, pmtExpected := expected } := by
  have hodd : (0x04C11DB7 : UInt32).toNat % 2 = 1 := rfl
  have haltered : IsPmtSection (pre ++ b :: post) := by
    obtain ⟨high, low, rest, hbytes, hlen⟩ := hsection
    rcases pre with - | ⟨x, - | ⟨y, - | ⟨z, pre⟩⟩⟩
    · cases hbehind
    · simp at hbehind
    · simp at hbehind
    · obtain ⟨rfl, rfl, rfl, rfl⟩ : x = 0x02 ∧ y = high ∧ z = low ∧ pre ++ a :: post = rest := by
        simpa using hbytes
      exact ⟨y, z, pre ++ b :: post, rfl, by simpa using hlen⟩
  have hinvalid : ¬ValidPmt (pre ++ b :: post) :=
    fun h => hne (Crc.checksum_byte_inj hodd (hintact.trans h.crc.symm))
  rw [foldl_processTsPacket]
  exact foldl_rejected haltered hinvalid hpid hdelivery

def pmtWith (pcrPidHigh : UInt8) : List UInt8 :=
  [0x02, 0xB0, 13, 0, 1, 0xC1, 0, 0] ++ pcrPidHigh :: [0, 0xF0, 0, 101, 245, 31, 55]

theorem altered_pmt_installs_nothing_pcr : ∃ buf expected,
    [[0x47, 0x50, 0x00, 0x10, 0x00] ++ pmtWith 0xE2 ++ List.replicate 167 0xFF].foldl
        (.processTsPacket noProber) { PacketDemuxer.new with pmtPid := some 0x1000 } =
      { PacketDemuxer.new with pmtPid := some 0x1000, pmtBuf := buf, pmtExpected := expected } := by
  have hintact : crc32Mpeg2 (pmtWith 0xE1) = 0 := by decide +kernel
  have hsection : IsPmtSection (pmtWith 0xE1) := ⟨_, _, _, rfl, rfl⟩
  exact altered_pmt_installs_nothing noProber _ rfl hsection hintact (by decide) (by decide)
    (b := 0xE2) ⟨by decide, _, [], 0, [], pmtWith 0xE2 ++ List.replicate 167 0xFF, _, rfl, rfl, rfl,
      by decide +kernel, by decide +kernel, by simp, List.append_nil _⟩

end Restream.Mpegts
