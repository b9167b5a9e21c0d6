import Restream.TsDemuxer

/-! Transport packets: what the muxer puts into a packet the demuxer reads back from it, and
whole packets are cut out of the fed bytes where they meet. -/

namespace Restream.Mpegts

open List UInt8 Nat

theorem toNat_pidHigh : (pidHigh pid).toNat = pid / 2 ^ 8 % 32 := by
  rw [pidHigh, UInt8.toNat_and, UInt8.toNat_ofNat']
  have hm : (0x1F : UInt8).toNat = 2 ^ 5 - 1 := rfl
  rw [hm, Nat.and_two_pow_sub_one_eq_mod]
  omega

theorem pidHigh_bits (pid : Nat) :
    ∃ n < 32, n = pid / 2 ^ 8 % 32 ∧ pidHigh pid = UInt8.ofNat n := by
  refine ⟨pid / 2 ^ 8 % 32, mod_lt _ (by decide), rfl, ?_⟩
  rw [← UInt8.toNat_inj, toNat_pidHigh, UInt8.toNat_ofNat']
  omega

variable {pid : Nat} {ra first : Bool} {chunks : List (List UInt8)}

theorem pid13_pidHigh (hf : flags ∈ [0x40, 0x00, 0xE0]) (hpid : pid < 2 ^ 13) :
    pid13 (flags ||| pidHigh pid) (ofNat pid) = pid := by
  obtain ⟨n, hn, heq, hh⟩ := pidHigh_bits pid
  have hb : ∀ flags ∈ ([0x40, 0x00, 0xE0] : List UInt8), ∀ n < 32,
      ((flags ||| ofNat n) &&& 0x1F).toNat = n := by decide +kernel
  rw [pid13, hh, hb flags hf n hn, toNat_ofNat']
  omega

theorem unitStart_pidHigh :
    (((if first then 0x40 else 0x00) ||| pidHigh pid) &&& 0x40 ≠ 0) ↔ first = true := by
  obtain ⟨n, hn, -, hh⟩ := pidHigh_bits pid
  have hb : ∀ first : Bool, ∀ n < 32,
      (((if first then 0x40 else 0x00) ||| ofNat n) &&& 0x40 ≠ 0) ↔ first = true := by decide
  rw [hh]
  exact hb first n hn

theorem startBit_mem (first : Bool) :
    (if first then (0x40 : UInt8) else 0x00) ∈ [0x40, 0x00, 0xE0] := by
  cases first <;> decide

theorem tsPayload_plain (hpid : pid < 2 ^ 13) (first : Bool) (cc : Fin 16) (hp : pay ≠ []) :
    tsPayload (tsHeader pid first (0x10 ||| ccBits cc) ++ pay) = some ⟨pid, first, false, pay⟩ := by
  have hc : ((0x10 ||| ccBits cc) >>> 4) &&& 0x03 = 1 := by revert cc; decide
  simp only [tsHeader, cons_append, nil_append, tsPayload, hc,
    pid13_pidHigh (startBit_mem first) hpid, unitStart_pidHigh]
  simp [hp]

theorem tsPayload_adaptation (hpid : pid < 2 ^ 13) (first : Bool) (cc : Fin 16) {field : List UInt8}
    (hfi : field.length < 256) (hp : pay ≠ []) :
    tsPayload (tsHeader pid first (0x30 ||| ccBits cc) ++ (ofNat field.length :: field) ++ pay) =
      some ⟨pid, first, field.head?.any fun afFlags => afFlags &&& 0x40 ≠ 0, pay⟩ := by
  have hc : ((0x30 ||| ccBits cc) >>> 4) &&& 0x03 = 3 := by revert cc; decide
  have hlen : (ofNat field.length).toNat = field.length := by
    rw [toNat_ofNat', mod_eq_of_lt hfi]
  simp only [tsHeader, cons_append, nil_append, tsPayload, hc,
    pid13_pidHigh (startBit_mem first) hpid, unitStart_pidHigh, lt_iff_toNat_lt, hlen]
  cases field <;> simp [hp]

theorem length_tsHeader (pid : Nat) (first : Bool) (control : UInt8) :
    (tsHeader pid first control).length = 4 :=
  rfl

structure HeaderFor (remaining : Nat) (header : List UInt8) : Prop where
  sync : ∀ rest, (header ++ rest).head? = some tsSyncByte
  room : ∃ available, 176 ≤ available ∧ header.length + min remaining available = tsPacketSize

theorem packetHeader_spec (hpid : pid < 2 ^ 13) (cc : Fin 16) (first key isPcr : Bool) (dts90k : Int)
    (rem : Nat) : HeaderFor rem (packetHeader pid cc first key isPcr dts90k rem) ∧
    ∀ chunk ≠ [], tsPayload (packetHeader pid cc first key isPcr dts90k rem ++ chunk) =
      some ⟨pid, first, first && key, chunk⟩ := by
  unfold packetHeader
  split
  · next hf =>
    rw [Bool.and_eq_true] at hf
    have hpcr : (if isPcr then writePcr dts90k else []).length ≤ 6 := by
      split
      · exact (length_writePcr dts90k).le
      · exact zero_le 6
    generalize (if isPcr then writePcr dts90k else []) = pcr at hpcr
    have hk :
      (((if key then 0x40 else 0x00) ||| (if isPcr then 0x10 else 0x00) : UInt8) &&& 0x40 ≠ 0) ↔
        key = true := by
      decide +revert
    generalize ((if key then 0x40 else 0x00) ||| (if isPcr then 0x10 else 0x00) : UInt8) =
      afFlags at hk
    simp only [tsPacketSize]
    generalize hs : 188 - 4 - 1 - (1 + pcr.length) - min rem (188 - 4 - 1 - (1 + pcr.length)) = stuff
    have hfi : (afFlags :: (pcr ++ replicate stuff 0xFF)).length = 1 + pcr.length + stuff := by
      simp
      omega
    rw [append_assoc, append_assoc, cons_append, cons_append, nil_append, ← hfi]
    refine ⟨⟨fun rest => rfl, 182 - pcr.length, by omega, ?_⟩, fun chunk hc => ?_⟩
    · rw [length_append, length_tsHeader, length_cons, tsPacketSize]
      omega
    · rw [tsPayload_adaptation hpid first cc (by omega) hc]
      simp only [head?_cons, Option.any_some, hf.1, hk, Bool.decide_eq_true, Bool.true_and]
  · next hp =>
    have hfl : (first && key) = false := by
      revert hp
      cases first <;> cases key <;> simp
    rw [hfl]
    obtain ⟨stuff, hs⟩ : ∃ stuff, stuff = tsPacketSize - 4 - min rem (tsPacketSize - 4) := ⟨_, rfl⟩
    simp only [← hs]
    simp only [tsPacketSize] at hs
    split
    · exact ⟨⟨fun rest => rfl, 184, by decide, by simp only [length_tsHeader, tsPacketSize]; omega⟩,
        fun chunk hc => tsPayload_plain hpid first cc hc⟩
    · split
      · exact ⟨⟨fun rest => rfl, 184, by decide, by simp [length_tsHeader, tsPacketSize]; omega⟩,
          fun chunk hc => @tsPayload_adaptation _ _ hpid first cc [] (by decide) hc⟩
      · have hlen : (0x00 :: replicate (stuff - 2) (0xFF : UInt8)).length = stuff - 1 := by
          simp
          omega
        rw [append_assoc, cons_append, cons_append, nil_append, ← hlen]
        refine ⟨⟨fun rest => rfl, 184, by decide, ?_⟩, fun chunk hc => ?_⟩
        · rw [length_append, length_tsHeader, length_cons, tsPacketSize]
          omega
        · rw [tsPayload_adaptation hpid first cc (by omega) hc]
          simp

def IsPacket (pkt : List UInt8) : Prop := pkt.length = tsPacketSize ∧ pkt.head? = some tsSyncByte

def Transports (bytes : List UInt8) (payloads : List TsPayload) : Prop :=
  ∃ packets : List (List UInt8), packets.flatten = bytes ∧ (∀ p ∈ packets, IsPacket p) ∧
    packets.map tsPayload = payloads.map some

namespace Transports

theorem nil : Transports [] [] := ⟨[], rfl, by simp, rfl⟩

theorem single (hpkt : IsPacket pkt) (hp : tsPayload pkt = some p) : Transports pkt [p] :=
  ⟨[pkt], by simp, by simpa using hpkt, by simp [hp]⟩

theorem append (h : Transports bs pays) (h' : Transports bs' pays') :
    Transports (bs ++ bs') (pays ++ pays') := by
  obtain ⟨ps, rfl, hpa, hmap⟩ := h
  obtain ⟨ps', rfl, hp', hmap'⟩ := h'
  refine ⟨ps ++ ps', by simp, fun p hp => ?_, by simp [hmap, hmap']⟩
  exact (mem_append.mp hp).elim (hpa p) (hp' p)

end Transports

def unitPayloads (pid : Nat) (randomAccess : Bool) : Bool → List (List UInt8) → List TsPayload
  | _, [] => []
  | first, chunk :: chunks =>
    ⟨pid, first, first && randomAccess, chunk⟩ :: unitPayloads pid randomAccess false chunks

theorem pid_of_mem_unitPayloads : ∀ p ∈ unitPayloads pid ra first chunks, p.pid = pid := by
  induction chunks generalizing first with
  | nil => simp [unitPayloads]
  | cons c chunks ih =>
    intro p hp
    rcases mem_cons.mp hp with rfl | hp
    · rfl
    · exact ih p hp

theorem exists_mem_unitPayloads (hc : c ∈ chunks) :
    ∃ p ∈ unitPayloads pid ra first chunks, p.payload = c := by
  induction chunks generalizing first with
  | nil => cases hc
  | cons c' chunks ih =>
    rcases mem_cons.mp hc with rfl | hc
    · exact ⟨_, mem_cons_self, rfl⟩
    · obtain ⟨p, hp, hpa⟩ := @ih false hc
      exact ⟨p, mem_cons_of_mem _ hp, hpa⟩

theorem pesPackets_spec (hpid : pid < 2 ^ 13) (key isPcr : Bool) (dts90k : Int)
    (hdr pay : List UInt8) (n : Nat) (first : Bool) (cc : Fin 16) (off : Nat)
    (hn : hdr.length + pay.length ≤ off + n) :
    ∃ chunks : List (List UInt8), chunks.flatten = (hdr ++ pay).drop off ∧ (∀ c ∈ chunks, c ≠ []) ∧
      (∀ c ∈ chunks.head?, min 176 (hdr.length + pay.length - off) ≤ c.length) ∧
      Transports (pesPackets pid key isPcr dts90k hdr pay n first cc off).2
        (unitPayloads pid key first chunks) := by
  induction n generalizing first cc off with
  | zero =>
    refine ⟨[], ?_, by simp, by simp, .nil⟩
    rw [drop_eq_nil_of_le (by simpa using hn)]
    rfl
  | succ n ih =>
    rw [pesPackets]
    split
    · obtain ⟨⟨hs, available, hr, hlen⟩, hp⟩ := packetHeader_spec hpid cc first key isPcr
        dts90k (hdr.length + pay.length - off)
      dsimp only
      generalize packetHeader pid cc first key isPcr dts90k (hdr.length + pay.length - off) =
        header at hs hlen hp
      generalize hco : min (hdr.length + pay.length - off) (tsPacketSize - header.length) = copyLen
      simp only [tsPacketSize] at hco hlen
      have hch : (copyPesSlices hdr pay off copyLen).length = copyLen := by
        rw [copyPesSlices_eq, length_take, length_drop, length_append]
        omega
      have hne : copyPesSlices hdr pay off copyLen ≠ [] := by
        rw [← length_pos_iff]
        omega
      obtain ⟨chunks, hf, hchu, -, ht⟩ := ih false (cc + 1) (off + copyLen) (by omega)
      refine ⟨copyPesSlices hdr pay off copyLen :: chunks,
        ?_, forall_mem_cons.mpr ⟨hne, hchu⟩, ?_, ?_⟩
      · rw [flatten_cons, hf, copyPesSlices_eq, ← drop_drop, take_append_drop]
      · intro c hc
        cases hc
        omega
      · refine Transports.append (.single ⟨?_, hs _⟩ (hp _ hne)) ht
        rw [length_append, tsPacketSize]
        omega
    · refine ⟨[], ?_, by simp, by simp, .nil⟩
      rw [drop_eq_nil_of_le (by simp; omega)]
      rfl

def sectionPayload (pid : Nat) (first : Bool) (bytes : List UInt8) : TsPayload :=
  let payload := (if first then [0x00] else []) ++ bytes
  ⟨pid, first, false, payload ++ List.replicate (tsPacketSize - 4 - payload.length) 0xFF⟩

def sectionPayloads (pid : Nat) : Nat → Bool → List UInt8 → List TsPayload
  | 0, _, _ => []
  | n + 1, first, bytes =>
    if bytes = [] then []
    else
      let capacity := tsPacketSize - (if first then 5 else 4)
      sectionPayload pid first (bytes.take capacity) :: sectionPayloads pid n false
        (bytes.drop capacity)

theorem sectionPacket_transports (hpid : pid < 2 ^ 13) (first : Bool) (cc : Fin 16) (hb : bs ≠ [])
    (hfit : bs.length + (if first then 5 else 4) ≤ tsPacketSize) :
    Transports (sectionPacket pid first cc bs) [sectionPayload pid first bs] := by
  have hp : sectionPacket pid first cc bs =
      tsHeader pid first (0x10 ||| ccBits cc) ++ (sectionPayload pid first bs).payload := by
    simp only [sectionPacket, sectionPayload, append_assoc,
      length_append, length_tsHeader, Nat.sub_sub]
  refine .single ⟨?_, ?_⟩ ?_
  · simp only [sectionPacket, length_append, length_tsHeader,
      length_replicate, tsPacketSize] at hfit ⊢
    split at hfit <;> simp_all <;> omega
  · rfl
  · rw [hp, tsPayload_plain hpid first cc (by simp [sectionPayload, hb])]
    rfl

theorem sectionPackets_transports (hpid : pid < 2 ^ 13) (n : Nat) (first : Bool) (cc : Fin 16)
    (bs : List UInt8) :
    Transports (sectionPackets pid n first cc bs).2 (sectionPayloads pid n first bs) := by
  induction n generalizing first cc bs with
  | zero => exact .nil
  | succ n ih =>
    rw [sectionPackets, sectionPayloads]
    split
    · exact .nil
    · next hb =>
      refine Transports.append (sectionPacket_transports hpid first cc ?_ ?_) (ih false (cc + 1) _)
      · cases first <;> simp [hb, tsPacketSize]
      · cases first <;> simp [tsPacketSize]

variable {π : Type}

def Synced (bytes : List UInt8) : Prop := bytes = [] ∨ bytes.head? = some tsSyncByte

section
variable {ps : List (List UInt8)} (hp : ∀ p ∈ ps, IsPacket p) {rest : List UInt8} (hr : Synced rest)
include ps hp rest hr

theorem sync_at (hs : rest.length < tsPacketSize) {k : Nat}
    (hk : k * tsPacketSize < (ps.flatten ++ rest).length) :
    (ps.flatten ++ rest)[k * tsPacketSize]? = some tsSyncByte := by
  induction ps generalizing k with
  | nil =>
    have hz : k = 0 := by
      simp only [flatten_nil, nil_append] at hk
      by_contra hne
      have := Nat.le_mul_of_pos_left tsPacketSize (Nat.pos_of_ne_zero hne)
      omega
    subst hz
    rcases hr with rfl | hh
    · simp at hk
    · rw [← hh, head?_eq_getElem?]
      simp
  | cons p ps ih =>
    obtain ⟨hlen, hh⟩ := hp p mem_cons_self
    rw [flatten_cons, append_assoc]
    cases k with
    | zero =>
      rw [Nat.zero_mul, ← head?_eq_getElem?, head?_append, hh]
      rfl
    | succ k =>
      rw [getElem?_append_right (by rw [hlen]; exact Nat.le_mul_of_pos_left _ (Nat.succ_pos k)), hlen,
        Nat.succ_mul, Nat.add_sub_cancel]
      refine ih (fun q hq => hp q (mem_cons_of_mem _ hq)) ?_
      rw [flatten_cons, append_assoc, length_append, succ_mul] at hk
      omega

theorem findTsSync_packets (hsh : rest.length < tsPacketSize) :
    findTsSync (ps.flatten ++ rest) = 0 := by
  have hs (k : Nat) := @sync_at ps hp rest hr hsh k
  generalize ps.flatten ++ rest = data at hs
  cases data with
  | nil => rfl
  | cons b data =>
    have hv : tsSyncCandidateIsValid (b :: data) 0 = true := by
      simp only [tsSyncCandidateIsValid, zero_add, Bool.and_eq_true,
        Bool.or_eq_true, decide_eq_true_eq]
      refine ⟨by simpa using hs 0 (by simp), or_iff_not_imp_left.mpr fun h => ⟨?_, or_iff_not_imp_left.mpr fun h => ?_⟩⟩
      · simpa using hs 1 (by omega)
      · simpa [two_mul] using hs 2 (by omega)
    rw [findTsSync, length_cons, range_succ_eq_map, find?_cons, hv]
    rfl

end

/-- The blocks that the loop over a buffer processes, with their places in the input, and
the tail it leaves; `place` is that of the buffer. -/
def framedBlocks : Nat → Nat → List UInt8 → List (Nat × List UInt8) × List UInt8
  | 0, _, buf => ([], buf)
  | n + 1, place, buf =>
    if buf.length < tsPacketSize then ([], buf)
    else if buf.head? ≠ some tsSyncByte then
      framedBlocks n (place + 1 + findTsSync buf.tail) (buf.tail.drop (findTsSync buf.tail))
    else
      let rest := framedBlocks n (place + tsPacketSize) (buf.drop tsPacketSize)
      ((place, buf.take tsPacketSize) :: rest.1, rest.2)

theorem feedPackets_eq (pr : Prober π) (n place : Nat) (d : PacketDemuxer π) (buf : List UInt8) :
    d.feedPackets pr n buf =
      (((framedBlocks n place buf).1.map Prod.snd).foldl (.processTsPacket pr) d,
    (framedBlocks n place buf).2) := by
  induction n generalizing place d buf with
  | zero => rfl
  | succ n ih =>
    unfold PacketDemuxer.feedPackets framedBlocks
    by_cases hs : buf.length < tsPacketSize
    · simp only [if_pos hs]
      rfl
    · by_cases hsy : buf.head? ≠ some tsSyncByte
      · simp only [if_neg hs, if_pos hsy]
        exact ih _ _ _
      · simp only [if_neg hs, if_neg hsy, map_cons, foldl_cons]
        exact ih _ _ _

theorem framedBlocks_packets (hp : ∀ p ∈ ps, IsPacket p) (hs : rest.length < tsPacketSize)
    (hn : ps.length ≤ n) (place : Nat) :
    (framedBlocks n place (ps.flatten ++ rest)).1.map Prod.snd = ps ∧
      (framedBlocks n place (ps.flatten ++ rest)).2 = rest := by
  induction ps generalizing n place with
  | nil =>
    cases n with
    | zero => exact ⟨rfl, rfl⟩
    | succ n =>
      rw [framedBlocks, if_pos (by simpa using hs)]
      exact ⟨rfl, rfl⟩
  | cons p ps ih =>
    obtain ⟨hlen, hh⟩ := hp p mem_cons_self
    cases n with
    | zero => simp at hn
    | succ n =>
      have hbuf : (p :: ps).flatten ++ rest = p ++ (ps.flatten ++ rest) := by simp
      obtain ⟨hb, hr⟩ := ih (fun q hq => hp q (mem_cons_of_mem _ hq)) (by simpa using hn)
        (place + tsPacketSize)
      rw [hbuf, framedBlocks, if_neg (by simp [hlen]), if_neg (by simp [hh]), take_left' hlen,
        drop_left' hlen]
      exact ⟨congrArg (p :: ·) hb, hr⟩

theorem length_flatten_packets {ps : List (List UInt8)} (hp : ∀ p ∈ ps, IsPacket p) :
    ps.flatten.length = ps.length * tsPacketSize := by
  induction ps with
  | nil => simp
  | cons p ps ih =>
    rw [flatten_cons, length_append, (hp p mem_cons_self).1,
      ih fun q hq => hp q (mem_cons_of_mem _ hq), length_cons, succ_mul, add_comm]

theorem TsDemuxer.feed_packets (pr : Prober π) {ps : List (List UInt8)} (hp : ∀ p ∈ ps, IsPacket p)
    (hr : Synced rest) (hs : rest.length < tsPacketSize) {d : TsDemuxer π}
    (hd : d.remainder ++ data = ps.flatten ++ rest) :
    d.feed pr data = { packets := ps.foldl (.processTsPacket pr) d.packets, remainder := rest } := by
  have hn : ps.length ≤ (ps.flatten ++ rest).length := by
    rw [length_append, length_flatten_packets hp, tsPacketSize]
    omega
  obtain ⟨hb, ht⟩ := framedBlocks_packets hp hs hn 0
  rw [TsDemuxer.feed, PacketDemuxer.feedSlice, hd, findTsSync_packets hp hr hs, drop_zero,
    feedPackets_eq pr _ 0, hb, ht]
  have hk : rest.length - (tsPacketSize - 1) = 0 := by omega
  simp [hk]

theorem cut_packets {ps : List (List UInt8)} (hp : ∀ p ∈ ps, IsPacket p) {pre after : List UInt8}
    (hcut : pre ++ after = ps.flatten) :
    ∃ done todo rest, ps = done ++ todo ∧ pre = done.flatten ++ rest ∧ rest ++ after = todo.flatten ∧
      Synced rest ∧ rest.length < tsPacketSize := by
  induction ps generalizing pre with
  | nil =>
    obtain ⟨rfl, rfl⟩ := append_eq_nil_iff.mp hcut
    exact ⟨[], [], [], rfl, rfl, rfl, .inl rfl, by decide⟩
  | cons p ps ih =>
    obtain ⟨hlen, hh⟩ := hp p mem_cons_self
    rw [flatten_cons] at hcut
    by_cases hs : pre.length < tsPacketSize
    · refine ⟨[], p :: ps, pre, rfl, rfl, hcut, ?_, hs⟩
      cases pre with
      | nil => exact .inl rfl
      | cons b pre =>
        have hf := congrArg head? hcut
        rw [head?_append, head?_append, hh] at hf
        exact .inr hf
    · obtain ⟨done, todo, rest, rfl, hd, hto, hr, hlt⟩ := ih (fun q hq => hp q (mem_cons_of_mem _ hq))
        (show pre.drop tsPacketSize ++ after = ps.flatten by
          rw [← drop_append_of_le_length (Nat.le_of_not_lt hs), hcut, drop_left' hlen])
      refine ⟨p :: done, todo, rest, rfl, ?_, hto, hr, hlt⟩
      have ht : pre.take tsPacketSize = p := by
        rw [← take_append_of_le_length (Nat.le_of_not_lt hs), hcut, take_left' hlen]
      rw [flatten_cons, append_assoc, ← hd, ← ht, take_append_drop]

theorem PacketDemuxer.foldl_processTsPacket (ps : List (List UInt8)) :
    ps.foldl (processTsPacket pr) d = (ps.filterMap tsPayload).foldl (processPayload pr) d := by
  induction ps generalizing d with
  | nil => rfl
  | cons pkt ps ih =>
    rw [foldl_cons, ih, processTsPacket]
    cases h : tsPayload pkt with
    | none => rw [filterMap_cons_none h]
    | some p => rw [filterMap_cons_some h, foldl_cons]

end Restream.Mpegts
