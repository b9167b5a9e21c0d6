import Restream.TsPackets

/-! One elementary stream of the demuxer: however a PES is cut into transport packets,
it becomes one media packet with the whole payload and the times of its header. -/

namespace Restream.Mpegts

open Codec List Option PesAccumulator UInt8

def IsAdtsFrame : List UInt8 → Prop
  | b0 :: b1 :: b2 :: b3 :: b4 :: b5 :: _ :: body =>
    b0 = 0xFF ∧ b1 &&& 0xF6 = 0xF0 ∧ ((b2 >>> 2) &&& 0x0F).toNat < aacSampleRates.length ∧
      (b3 &&& 0x03).toNat * 2 ^ 11 + b4.toNat * 2 ^ 3 + (b5 &&& 0xE0).toNat / 2 ^ 5 = body.length + 7
  | _ => False

instance (frame : List UInt8) : Decidable (IsAdtsFrame frame) := by
  unfold IsAdtsFrame
  split <;> infer_instance

namespace IsAdtsFrame

variable {frame : List UInt8}

theorem exists_bytes (h : IsAdtsFrame frame) : ∃ b1 b2 b3 b4 b5 b6 body,
    frame = 0xFF :: b1 :: b2 :: b3 :: b4 :: b5 :: b6 :: body ∧ b1 &&& 0xF6 = 0xF0 ∧
      ((b2 >>> 2) &&& 0x0F).toNat < aacSampleRates.length ∧
      (b3 &&& 0x03).toNat * 2 ^ 11 + b4.toNat * 2 ^ 3 +
        (b5 &&& 0xE0).toNat / 2 ^ 5 = body.length + 7 := by
  unfold IsAdtsFrame at h
  split at h
  · obtain ⟨rfl, h⟩ := h
    exact ⟨_, _, _, _, _, _, _, rfl, h⟩
  · exact h.elim

theorem ne_nil (h : IsAdtsFrame frame) : frame ≠ [] := by
  rintro rfl
  exact h

theorem frameLen_eq (h : IsAdtsFrame frame) : frameLen frame = some frame.length := by
  obtain ⟨b1, b2, b3, b4, b5, b6, body, rfl, hs, -, hlen⟩ := h.exists_bytes
  simp only [frameLen, hlen, length_cons]
  rw [if_pos ⟨hs, by simp [adtsHeaderLen]⟩]

theorem sync_of_strict {b : UInt8} (h : b &&& 0xF6 = 0xF0) : b &&& 0xF0 = 0xF0 := by
  have hm : b &&& 0xF0 = b &&& 0xF6 &&& 0xF0 := by rw [UInt8.and_assoc]; rfl
  rw [hm, h]
  rfl

variable (h : IsAdtsFrame frame)
include h

theorem step90k_isSome : ∃ step, step90k frame = some step := by
  obtain ⟨b1, b2, b3, b4, b5, b6, body, rfl, hs, hr, -⟩ := h.exists_bytes
  have hl : adtsSampleRate (0xFF :: b1 :: b2 :: b3 :: b4 :: b5 :: b6 :: body) =
      some aacSampleRates[((b2 >>> 2) &&& 0x0F).toNat] := by
    rw [adtsSampleRate, if_neg (by simp [sync_of_strict hs])]
    exact getElem?_eq_getElem hr
  rw [step90k, hl]
  exact ⟨_, rfl⟩

theorem adtsFrameCount_eq : adtsFrameCount frame = 1 := by
  obtain ⟨b1, b2, b3, b4, b5, b6, body, rfl, hs, -, hlen⟩ := h.exists_bytes
  have hl : adtsFrameLength (0xFF :: b1 :: b2 :: b3 :: b4 :: b5 :: b6 :: body) =
      some (body.length + 7) := by
    simp only [adtsFrameLength, hlen, length_cons]
    rw [if_neg (by simp [sync_of_strict hs])]
  have hn (n : Nat) : adtsFrames n [] = 0 := by cases n <;> rfl
  rw [adtsFrameCount, length_cons, adtsFrames, hl]
  dsimp only
  rw [drop_eq_nil_of_le (by simp), hn]

theorem length_le : frame.length ≤ 8191 := by
  obtain ⟨b1, b2, b3, b4, b5, b6, body, rfl, -, -, hlen⟩ := h.exists_bytes
  have ht : (b3 &&& 0x03).toNat ≤ 3 := by
    exact Nat.and_le_right
  have hfo := b4.toNat_lt
  have hf := (b5 &&& 0xE0).toNat_lt
  simp only [length_cons]
  omega

theorem frame_eq {f : AdtsFraming} (hc : f.carry = []) (pts dts : Int)
    (ti : Nat) : ∃ next, f.frame frame (some (pts, dts)) ti =
      ({ carry := [], next := next }, [audioUnit ti pts dts frame], .frames (some frame)) := by
  obtain ⟨step, hs⟩ := h.step90k_isSome
  have hsy : resync frame = some 0 := by
    cases frame with
    | nil => exact (h.ne_nil rfl).elim
    | cons b frame =>
      rw [resync, length_cons, range_succ_eq_map]
      simp [h.frameLen_eq]
  obtain ⟨n, hn⟩ := Nat.exists_eq_succ_of_ne_zero (length_pos_of_ne_nil h.ne_nil).ne'
  simp only [AdtsFraming.frame, hc, if_true, AdtsFraming.frameFrom, hsy, hn]
  simp [AdtsFraming.cutFrames, h.ne_nil, h.frameLen_eq, hs]

end IsAdtsFrame

namespace StreamInfo

def complete (s : StreamInfo) : StreamInfo × List MediaPacket :=
  match s.pes.expectedPayloadLen with
  | none => (s, [])
  | some expected =>
    if expected ≤ s.pes.buf.length then
      let flushed := { s with pes := { s.pes with buf := s.pes.buf.take expected } }.flushPes
      (flushed.1, flushed.2.1)
    else (s, [])

def receive (s : StreamInfo) (p : TsPayload) : StreamInfo × List MediaPacket :=
  if p.payloadUnitStart then
    let flushed := s.flushPes
    match flushed.1.pes.begin p.randomAccess p.payload with
    | none => (flushed.1, flushed.2.1)
    | some pes =>
      let completed := { flushed.1 with pes := pes }.complete
      (completed.1, flushed.2.1 ++ completed.2)
  else { s with pes := s.pes.appendBounded p.payload }.complete

def receiveAll : StreamInfo → List TsPayload → StreamInfo × List MediaPacket
  | s, [] => (s, [])
  | s, p :: ps =>
    let received := s.receive p
    let rest := receiveAll received.1 ps
    (rest.1, received.2 ++ rest.2)

def unitOf (s : StreamInfo) (randomAccess : Bool) (pts dts : Int) (payload : List UInt8) :
    MediaPacket :=
  { mediaType := s.kind.mediaType
    format := .raw
    isKeyframe := match s.kind with
      | .h264 => randomAccess || h264IsKeyframe payload
      | .h265 => h265IsKeyframe payload
      | .aacAdts | .aacLatm => false
    trackIndex := s.trackIndex
    pts := tsToMs pts
    dts := tsToMs dts
    payload := payload }

def Same (s t : StreamInfo) : Prop := t = { s with pes := t.pes }

def Ready (s : StreamInfo) : Prop := s.kind = .aacAdts → s.flushPes.1.pes.adts.carry = []

variable {s : StreamInfo}

theorem complete_none (h : s.pes.expectedPayloadLen = none) : s.complete = (s, []) := by
  unfold complete
  split
  · rfl
  · next hs => cases h.symm.trans hs

theorem complete_some (h : s.pes.expectedPayloadLen = some ex) :
    s.complete = if ex ≤ s.pes.buf.length then
      ({ s with pes := { s.pes with buf := s.pes.buf.take ex } }.flushPes.1,
        { s with pes := { s.pes with buf := s.pes.buf.take ex } }.flushPes.2.1) else (s, []) := by
  unfold complete
  split
  · next hn => cases h.symm.trans hn
  · next hs =>
    obtain rfl := Option.some.inj (h.symm.trans hs)
    rfl

theorem flushPes_idle (hbuf : s.pes.buf = []) :
    s.flushPes = ({ s with pes := s.pes.reset }, [], none) := by
  rw [flushPes, if_pos (.inl hbuf)]

theorem flushPes_loaded (hbuf : s.pes.buf ≠ []) (ht : s.pes.hasTimestamp = true)
    (hf : s.kind = .aacAdts → IsAdtsFrame s.pes.buf ∧ s.pes.adts.carry = []) :
    s.flushPes.2.1 = [s.unitOf s.pes.randomAccess s.pes.pts s.pes.dts s.pes.buf] ∧
    ∃ adts, s.flushPes.1 = { s with pes := { PesAccumulator.new with adts := adts } } ∧
      (s.kind = .aacAdts → adts.carry = []) := by
  rw [flushPes, if_neg (by simp [hbuf, ht])]
  split
  · next hk =>
    obtain ⟨ha, hc⟩ := hf hk
    obtain ⟨next, hp⟩ := ha.frame_eq hc s.pes.pts s.pes.dts s.trackIndex
    simp only [hp]
    refine ⟨?_, _, rfl, fun _ => rfl⟩
    simp [unitOf, audioUnit, hk, StreamKind.mediaType]
  · next hk => exact ⟨rfl, _, rfl, fun ha => (hk ha).elim⟩

theorem flushPes_same (s : StreamInfo) : s.Same s.flushPes.1 := by
  unfold flushPes
  split
  · rfl
  · split
    · dsimp only
      split
      · rfl
      · split <;> rfl
    · rfl

theorem Same.trans (h : s.Same t) (h' : t.Same u) : s.Same u := by
  rw [Same] at h h' ⊢
  rw [h', h]

theorem Same.unitOf_eq (h : s.Same t) : t.unitOf = s.unitOf := by
  rw [h]
  rfl

theorem Same.kind_eq (h : s.Same t) : t.kind = s.kind := by rw [h]

theorem receiveAll_rest (pid : Nat) (ra : Bool) (hpa : pay ≠ []) (hs : pay.length ≤ maxPesBuffer)
    (hr : ∀ c ∈ rest, c ≠ []) {s : StreamInfo} (ht : s.pes.hasTimestamp = true)
    (he : ∀ ex ∈ s.pes.expectedPayloadLen, ex = pay.length)
    (hfr : s.kind = .aacAdts → IsAdtsFrame pay ∧ s.pes.adts.carry = [])
    (hbuf : s.pes.buf ++ rest.flatten = pay) :
    let done := s.complete.1.receiveAll (unitPayloads pid ra false rest)
    s.Same done.1 ∧ done.1.Ready ∧
    s.complete.2 ++ done.2 ++ done.1.flushPes.2.1 =
      [s.unitOf s.pes.randomAccess s.pes.pts s.pes.dts pay] := by
  induction rest generalizing s with
  | nil =>
    rw [flatten_nil, append_nil] at hbuf
    subst hbuf
    obtain ⟨hp, adts, hf, hc⟩ := flushPes_loaded hpa ht hfr
    cases hlen : s.pes.expectedPayloadLen with
    | none =>
      simp only [complete_none hlen, unitPayloads, receiveAll, nil_append]
      refine ⟨rfl, fun hk => ?_, hp⟩
      rw [hf]
      exact hc hk
    | some ex =>
      obtain rfl := he ex hlen
      have hid : s.flushPes.1.pes.buf = [] := by rw [hf]; rfl
      have hw : { s with pes := { s.pes with buf := s.pes.buf.take s.pes.buf.length } } = s := by
        rw [take_length]
      have hco : s.complete = (s.flushPes.1, s.flushPes.2.1) := by
        rw [complete_some hlen, if_pos le_rfl, hw]
      simp only [hco, unitPayloads, receiveAll, append_nil]
      refine ⟨flushPes_same s, fun hk => ?_, ?_⟩
      · rw [hf]
        exact hc ((flushPes_same s).kind_eq.symm.trans hk)
      · rw [flushPes_idle hid, hp, append_nil]
  | cons c rest ih =>
    have hl := congrArg length hbuf
    have hpos := length_pos_of_ne_nil (hr c mem_cons_self)
    rw [flatten_cons, length_append, length_append] at hl
    have hi : s.complete = (s, []) := by
      cases hlen : s.pes.expectedPayloadLen with
      | none => exact complete_none hlen
      | some ex =>
        have hw := he ex hlen
        rw [complete_some hlen, if_neg (by omega)]
    have ha : s.pes.appendBounded c = { s.pes with buf := s.pes.buf ++ c } := by
      rw [appendBounded, if_pos (by omega)]
    have hn := @ih (fun c' hc' => hr c' (mem_cons_of_mem _ hc'))
      { s with pes := { s.pes with buf := s.pes.buf ++ c } } ht he hfr
      (by rw [← hbuf, flatten_cons, append_assoc])
    simp only [hi, unitPayloads, receiveAll, receive, Bool.false_eq_true, if_false, ha, nil_append]
    exact hn

theorem flushPes_buf (s : StreamInfo) : s.flushPes.1.pes.buf = [] := by
  unfold flushPes
  split
  · rfl
  · split
    · dsimp only
      split
      · rfl
      · split <;> rfl
    · rfl

end StreamInfo

def PesAccumulator.headed (pes : PesAccumulator) (randomAccess : Bool)
    (expected : Option Nat) (pts dts : Int) :
    PesAccumulator :=
  { pes with
    randomAccess := randomAccess
    expectedPayloadLen := expected
    pts := pts
    dts := dts
    hasTimestamp := true }

/-- The bytes are read as the header of a PES with this payload length, if it names one,
and these times. -/
def ReadsAs (hdr : List UInt8) (expected : Option Nat) (pts dts : Int) : Prop :=
  ∀ (pes : PesAccumulator) (randomAccess : Bool) (payload : List UInt8),
    pes.begin randomAccess (hdr ++ payload) =
      some ((pes.headed randomAccess expected pts dts).appendBounded payload)

/-- A PES cut into chunks for transport, with its header in the first one. -/
structure Cut (hdr payload : List UInt8) (chunks : List (List UInt8)) : Prop where
  joined : chunks.flatten = hdr ++ payload
  filled : ∀ c ∈ chunks, c ≠ []
  header : ∀ c ∈ chunks.head?, hdr.length ≤ c.length

theorem Cut.exists_start (h : Cut hdr pay cs) (hp : pay ≠ []) :
    ∃ start rest, cs = (hdr ++ start) :: rest ∧ start ++ rest.flatten = pay := by
  obtain ⟨first, rest, rfl⟩ : ∃ first rest, cs = first :: rest := by
    refine exists_cons_of_ne_nil ?_
    rintro rfl
    exact hp (append_eq_nil_iff.mp h.joined.symm).2
  have hj := h.joined
  have hf : hdr <+: first := by
    refine prefix_of_prefix_length_le ⟨pay, hj.symm⟩ ?_ (h.header first rfl)
    exact ⟨rest.flatten, rfl⟩
  obtain ⟨start, rfl⟩ := hf
  rw [flatten_cons, append_assoc, append_cancel_left_eq] at hj
  exact ⟨start, rest, rfl, hj⟩

structure StreamInfo.Carries (s : StreamInfo) (payload : List UInt8) : Prop where
  nonempty : payload ≠ []
  size : payload.length ≤ maxPesBuffer
  frame : s.kind = .aacAdts → IsAdtsFrame payload

theorem StreamInfo.receiveAll_unit {s : StreamInfo} (hre : s.Ready) (pid : Nat) (ra : Bool)
    {pts dts : Int} (hp : s.Carries pay) (hr : ReadsAs hdr ex pts dts)
    (hex : ∀ n ∈ ex, n = pay.length)
    (hcut : Cut hdr pay cs) : let done := s.receiveAll (unitPayloads pid ra true cs)
    s.Same done.1 ∧ done.1.Ready ∧
    done.2 ++ done.1.flushPes.2.1 = s.flushPes.2.1 ++ [s.unitOf ra pts dts pay] := by
  obtain ⟨start, rest, rfl, hj⟩ := hcut.exists_start hp.nonempty
  have hsi := hp.size
  have hle := congrArg length hj
  rw [length_append] at hle
  obtain ⟨loaded, hl⟩ : ∃ loaded, loaded =
      { s.flushPes.1.pes.headed ra ex pts dts with buf := start } := ⟨_, rfl⟩
  have hb : s.flushPes.1.pes.begin ra (hdr ++ start) = some loaded := by
    have he : (s.flushPes.1.pes.headed ra ex pts dts).buf = [] := flushPes_buf s
    rw [hr, appendBounded, if_pos (by rw [he, length_nil]; omega), he, hl]
    rfl
  have hs : s.Same { s.flushPes.1 with pes := loaded } := (flushPes_same s).trans rfl
  obtain ⟨hs', hr', hem⟩ := receiveAll_rest pid ra hp.nonempty hsi
    (fun c hc => hcut.filled c (mem_cons_of_mem _ hc)) (s := { s.flushPes.1 with pes := loaded })
    (by rw [hl]; rfl) (by rw [hl]; exact hex)
    (fun hk => ⟨hp.frame (hs.kind_eq.symm.trans hk), by
      rw [hl]
      exact hre (hs.kind_eq.symm.trans hk)⟩)
    (by rw [hl]; exact hj)
  simp only [unitPayloads, receiveAll, receive, if_true, Bool.true_and, hb]
  refine ⟨hs.trans hs', hr', ?_⟩
  rw [append_assoc, append_assoc, ← append_assoc _ _ (flushPes _).2.1, hem, hs.unitOf_eq, hl]
  rfl

def namedLen (mediaType : MediaType) (pts90k dts90k : Int) (payloadLen : Nat) : Option Nat :=
  if mediaType = .audio ∧ (if pts90k ≠ dts90k then 19 else 14) - 6 +
    payloadLen ≤ 0xFFFF then some payloadLen else none

theorem namedLen_eq {mt : MediaType} : ∀ n ∈ namedLen mt pts90k dts90k len, n = len := by
  intro n hn
  by_cases hna : mt = .audio ∧ (if pts90k ≠ dts90k then 19 else 14) - 6 + len ≤ 0xFFFF
  · rw [namedLen, if_pos hna] at hn
    exact (Option.some.inj hn).symm
  · rw [namedLen, if_neg hna] at hn
    cases hn

theorem pesPayloadLen_bytes (hn : k + 3 + n ≤ 0xFFFF) :
    pesPayloadLen ((ofNat ((k + 3 + n) / 2 ^ 8)).toNat * 2 ^ 8 + (ofNat (k + 3 + n)).toNat) k =
      some n := by
  rw [toNat_ofNat', toNat_ofNat', pesPayloadLen, if_neg (by omega)]
  congr 1
  omega

namespace PesAccumulator

theorem begin_header (pes : PesAccumulator) (ra : Bool)
    (streamId lenHigh lenLow marker pesFlags : UInt8) (hlen : he.toNat = header.length)
    (pay : List UInt8) :
    pes.begin ra ([0x00, 0x00, 0x01, streamId, lenHigh, lenLow, marker, pesFlags, he] ++ header ++
      pay) = some (({ pes with
        randomAccess := ra
        expectedPayloadLen :=
          pesPayloadLen (lenHigh.toNat * 2 ^ 8 + lenLow.toNat) he.toNat }.withTimestamps
          (pesFlags &&& 0x80 ≠ 0) (pesFlags &&& 0x40 ≠ 0) (header ++ pay)).appendBounded pay) := by
  simp only [begin, cons_append, nil_append, hlen, drop_left]

theorem withTimestamps_pts (pes : PesAccumulator) (pts : Int) (marker : Nat) (rest : List UInt8) :
    pes.withTimestamps true false (writeTimestampBuf pts marker ++ rest) =
      { pes with pts := pts % 2 ^ 33, dts := pts % 2 ^ 33, hasTimestamp := true } := by
  simp only [withTimestamps, if_true, parseTimestamp_write, Bool.false_eq_true, if_false]

theorem withTimestamps_dts (pes : PesAccumulator) (pts dts : Int)
    (marker marker' : Nat) (rest : List UInt8) :
    pes.withTimestamps true true (writeTimestampBuf pts marker ++
      writeTimestampBuf dts marker' ++ rest) =
      { pes with pts := pts % 2 ^ 33, dts := dts % 2 ^ 33, hasTimestamp := true } := by
  have hd : (writeTimestampBuf pts marker ++ (writeTimestampBuf dts marker' ++ rest)).drop 5 =
      writeTimestampBuf dts marker' ++ rest := rfl
  simp only [withTimestamps, append_assoc, if_true, parseTimestamp_write, hd]

end PesAccumulator

theorem pesHeader_bytes (mt : MediaType) (pts90k dts90k : Int) (len : Nat) :
    ∃ lenHigh lenLow :
    UInt8, pesHeader mt pts90k dts90k len = [0x00, 0x00,
      0x01, pesStreamId mt, lenHigh, lenLow, 0x80, if pts90k ≠ dts90k then 0xC0 else 0x80,
      if pts90k ≠ dts90k then 10 else 5] ++
        (writeTimestampBuf pts90k (if pts90k ≠ dts90k then 0x03 else 0x02) ++
          if pts90k ≠ dts90k then writeTimestampBuf dts90k 0x01 else []) ∧
            pesPayloadLen (lenHigh.toNat * 2 ^ 8 + lenLow.toNat)
              (if pts90k ≠ dts90k then 10 else 5) = namedLen mt pts90k dts90k len := by
  by_cases hn : mt = .audio ∧ (if pts90k ≠ dts90k then 19 else 14) - 6 + len ≤ 0xFFFF
  · refine ⟨ofNat (((if pts90k ≠ dts90k then 19 else 14) - 6 + len) / 2 ^ 8),
      ofNat ((if pts90k ≠ dts90k then 19 else 14) - 6 + len), ?_, ?_⟩
    · simp only [pesHeader, if_pos hn, cons_append, nil_append]
    · rw [namedLen, if_pos hn]
      obtain ⟨-, hle⟩ := hn
      by_cases hd : pts90k ≠ dts90k
      · simp only [if_pos hd] at hle ⊢
        exact pesPayloadLen_bytes (k := 10) hle
      · simp only [if_neg hd] at hle ⊢
        exact pesPayloadLen_bytes (k := 5) hle
  · refine ⟨0, 0, ?_, ?_⟩
    · simp only [pesHeader, if_neg hn, cons_append, nil_append]
    · rw [namedLen, if_neg hn]
      simp [pesPayloadLen]

theorem pesHeader_readsAs (mt : MediaType) (pts90k dts90k : Int) (len : Nat) :
    ReadsAs (pesHeader mt pts90k dts90k len) (namedLen mt pts90k dts90k len)
      (pts90k % 2 ^ 33) (dts90k % 2 ^ 33) := by
  intro pes ra pay
  obtain ⟨lenHigh, lenLow, hh, hlen⟩ := pesHeader_bytes mt pts90k dts90k len
  rw [hh]
  by_cases hd : pts90k ≠ dts90k
  · simp only [if_pos hd] at hlen ⊢
    rw [begin_header pes ra _ _ _ _ _ rfl]
    have hpts : decide ((0xC0 : UInt8) &&& 0x80 ≠ 0) = true := by decide
    have hdts : decide ((0xC0 : UInt8) &&& 0x40 ≠ 0) = true := by decide
    rw [hpts, hdts, withTimestamps_dts, ← hlen]
    rfl
  · simp only [if_neg hd, append_nil] at hlen ⊢
    rw [begin_header pes ra _ _ _ _ _ rfl]
    have hpts : decide ((0x80 : UInt8) &&& 0x80 ≠ 0) = true := by decide
    have hdts : decide ((0x80 : UInt8) &&& 0x40 ≠ 0) = false := by decide
    rw [hpts, hdts, withTimestamps_pts, ← hlen, ← not_ne_iff.mp hd]
    rfl

end Restream.Mpegts
