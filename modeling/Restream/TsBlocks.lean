import Restream.TsPackets

/-! The blocks of the fed bytes that are processed as transport packets: where they lie in
the input, and that whole packets are processed as they are, however they are fed. -/

namespace Restream.Mpegts

open List Nat

variable {π : Type}

theorem findTsSync_le (data : List UInt8) : findTsSync data ≤ data.length := by
  unfold findTsSync
  cases h : (range data.length).find? (tsSyncCandidateIsValid data) with
  | none => exact le_refl _
  | some k => exact le_of_lt (mem_range.mp (mem_of_find?_eq_some h))

/-- Blocks lie in the input one behind the other, before the bytes that are left, and each
of them has the size and the first byte of a packet. -/
structure InPlace (input : List UInt8) (left : Nat) (blocks : List (Nat × List UInt8)) : Prop where
  ordered : blocks.Pairwise fun a b => a.1 + tsPacketSize ≤ b.1
  bounded : ∀ b ∈ blocks, b.1 + tsPacketSize + left ≤ input.length
  content : ∀ b ∈ blocks, b.2 = (input.drop b.1).take tsPacketSize
  packet : ∀ b ∈ blocks, IsPacket b.2

theorem framedBlocks_spec (pre : List UInt8) (hn : buf.length ≤ n) :
    InPlace (pre ++ buf) (framedBlocks n pre.length buf).2.length (framedBlocks n pre.length buf).1 ∧
      (∀ b ∈ (framedBlocks n pre.length buf).1, pre.length ≤ b.1) ∧
      (framedBlocks n pre.length buf).2 <:+ buf ∧
      (framedBlocks n pre.length buf).2.length < tsPacketSize := by
  induction n generalizing pre buf with
  | zero =>
    obtain rfl : buf = [] := length_eq_zero_iff.mp (le_zero.mp hn)
    exact ⟨⟨.nil, by simp [framedBlocks], by simp [framedBlocks], by simp [framedBlocks]⟩, by simp [framedBlocks],
      suffix_rfl, succ_pos _⟩
  | succ n ih =>
    unfold framedBlocks
    by_cases hs : buf.length < tsPacketSize
    · simp only [if_pos hs]
      exact ⟨⟨.nil, by simp, by simp, by simp⟩, by simp, suffix_rfl, hs⟩
    · by_cases hsy : buf.head? ≠ some tsSyncByte
      · simp only [if_neg hs, if_pos hsy]
        obtain ⟨b, tail, rfl⟩ : ∃ b tail, buf = b :: tail := by
          cases buf with
          | nil => exact (hs (by decide)).elim
          | cons b tail => exact ⟨b, tail, rfl⟩
        have hle := findTsSync_le tail
        simp only [tail_cons]
        generalize findTsSync tail = skip at hle
        have hbuf : pre ++ b :: tail = (pre ++ b :: tail.take skip) ++ tail.drop skip := by simp
        have hp : pre.length + 1 + skip = (pre ++ b :: tail.take skip).length := by
          simp only [length_append, length_cons, length_take]
          omega
        have hr : (tail.drop skip).length ≤ n := by
          simp only [length_cons, length_drop] at hn ⊢
          omega
        rw [hbuf, hp]
        obtain ⟨hi, hf, ht, hlt⟩ := ih (pre ++ b :: tail.take skip) hr
        refine ⟨hi, fun c hc => ?_, ?_, hlt⟩
        · have := hf c hc
          omega
        · exact ht.trans ((drop_suffix skip tail).trans (suffix_cons b tail))
      · simp only [if_neg hs, if_neg hsy]
        have hlen : (buf.take tsPacketSize).length = tsPacketSize :=
          length_take_of_le (Nat.le_of_not_lt hs)
        have hbuf : pre ++ buf = (pre ++ buf.take tsPacketSize) ++ buf.drop tsPacketSize := by simp
        have hp : pre.length + tsPacketSize = (pre ++ buf.take tsPacketSize).length := by
          rw [length_append, hlen]
        have hr : (buf.drop tsPacketSize).length ≤ n := by
          have hpos : 0 < tsPacketSize := succ_pos _
          rw [length_drop]
          omega
        obtain ⟨hi, hf, ht, hlt⟩ := ih (pre ++ buf.take tsPacketSize) hr
        rw [← hp, ← hbuf] at hi
        rw [← hp] at hf ht hlt
        refine ⟨⟨?_, ?_, ?_, ?_⟩, ?_, ht.trans (drop_suffix _ _), hlt⟩
        · exact pairwise_cons.mpr ⟨fun b hb => hf b hb, hi.ordered⟩
        · refine forall_mem_cons.mpr ⟨?_, hi.bounded⟩
          have hle := ht.length_le
          rw [length_drop] at hle
          rw [length_append]
          omega
        · refine forall_mem_cons.mpr ⟨?_, hi.content⟩
          rw [drop_left]
        · refine forall_mem_cons.mpr ⟨⟨hlen, ?_⟩, hi.packet⟩
          have hsi : tsPacketSize ≠ 0 := succ_ne_zero _
          rw [head?_take]
          exact not_not.mp hsy
        · refine forall_mem_cons.mpr ⟨le_refl _, fun b hb => ?_⟩
          have := hf b hb
          omega

theorem InPlace.append (h : InPlace i left blocks) (hnew : InPlace (i ++ data) left' new)
    (hl : left' ≤ left + data.length) (hf : ∀ b ∈ new, i.length ≤ b.1 + left) :
    InPlace (i ++ data) left' (blocks ++ new) where
  ordered := pairwise_append.mpr ⟨h.ordered, hnew.ordered, fun a ha b hb => by
    have := h.bounded a ha
    have := hf b hb
    omega⟩
  bounded := by
    refine forall_mem_append.mpr ⟨fun b hb => ?_, hnew.bounded⟩
    have := h.bounded b hb
    rw [length_append]
    omega
  content := by
    refine forall_mem_append.mpr ⟨fun b hb => ?_, hnew.content⟩
    have hbo := h.bounded b hb
    rw [h.content b hb, drop_append_of_le_length (by omega),
      take_append_of_le_length (by rw [length_drop]; omega)]
  packet := forall_mem_append.mpr ⟨h.packet, hnew.packet⟩

structure FramingRun (π : Type) where
  demuxer : TsDemuxer π
  input : List UInt8
  blocks : List (Nat × List UInt8)

namespace FramingRun

variable {prober : Prober π} {r : FramingRun π}

def start : FramingRun π := { demuxer := .new, input := [], blocks := [] }

def feed (prober : Prober π) (r : FramingRun π) (data : List UInt8) : FramingRun π :=
  let buf := r.demuxer.remainder ++ data
  let place := r.input.length - r.demuxer.remainder.length + findTsSync buf
  { demuxer := r.demuxer.feed prober data
    input := r.input ++ data
    blocks := r.blocks ++ (framedBlocks buf.length place (buf.drop (findTsSync buf))).1 }

structure Inv (prober : Prober π) (r : FramingRun π) : Prop where
  processed : r.demuxer.packets = (r.blocks.map Prod.snd).foldl (.processTsPacket prober) .new
  kept : r.demuxer.remainder <:+ r.input
  short : r.demuxer.remainder.length < tsPacketSize
  inPlace : InPlace r.input r.demuxer.remainder.length r.blocks

theorem Inv.start : Inv prober start where
  processed := rfl
  kept := suffix_rfl
  short := succ_pos _
  inPlace :=
    ⟨.nil, by simp [FramingRun.start], by simp [FramingRun.start], by simp [FramingRun.start]⟩

theorem Inv.feed (h : Inv prober r) (data : List UInt8) : Inv prober (r.feed prober data) := by
  obtain ⟨pre, hin⟩ := h.kept
  have hp : r.input.length - r.demuxer.remainder.length = pre.length := by
    rw [← hin, length_append, Nat.add_sub_cancel]
  have hnew : r.input ++ data = pre ++ (r.demuxer.remainder ++ data) := by rw [← hin, append_assoc]
  unfold FramingRun.feed TsDemuxer.feed PacketDemuxer.feedSlice
  dsimp only
  rw [hp]
  generalize hbuf : r.demuxer.remainder ++ data = buf at hnew
  have hsk := findTsSync_le buf
  generalize findTsSync buf = skip at hsk
  have hs : pre.length + skip = (pre ++ buf.take skip).length := by
    rw [length_append, length_take_of_le hsk]
  have hw : (pre ++ buf.take skip) ++ buf.drop skip = r.input ++ data := by
    rw [append_assoc, take_append_drop, hnew]
  have hn : (buf.drop skip).length ≤ buf.length := by
    rw [length_drop]
    omega
  obtain ⟨hi, hf, ht, hlt⟩ := framedBlocks_spec (pre ++ buf.take skip) hn
  rw [hw] at hi
  rw [feedPackets_eq prober buf.length (pre ++ buf.take skip).length, hs]
  generalize framedBlocks buf.length (pre ++ buf.take skip).length (buf.drop skip) =
    framed at hi hf ht hlt
  have hcap : framed.2.length - (tsPacketSize - 1) = 0 := by omega
  rw [hcap]
  refine ⟨?_, ?_, hlt, h.inPlace.append hi ?_ ?_⟩
  · rw [map_append, foldl_append, ← h.processed]
  · rw [hnew]
    exact ht.trans ((drop_suffix _ _).trans (suffix_append pre buf))
  · show framed.2.length ≤ r.demuxer.remainder.length + data.length
    have hle := ht.length_le
    rw [length_drop, ← hbuf, length_append] at hle
    omega
  · intro b hb
    have := hf b hb
    omega

theorem Inv.feeds (h : Inv prober r) (cs : List (List UInt8)) :
    Inv prober (cs.foldl (.feed prober) r) := by
  induction cs generalizing r with
  | nil => exact h
  | cons chunk cs ih => exact ih (h.feed chunk)

theorem feeds_fields (prober : Prober π) (r : FramingRun π) (cs : List (List UInt8)) :
    (cs.foldl (.feed prober) r).input = r.input ++ cs.flatten ∧
      (cs.foldl (.feed prober) r).demuxer = cs.foldl (.feed prober) r.demuxer := by
  induction cs generalizing r with
  | nil => exact ⟨(append_nil _).symm, rfl⟩
  | cons chunk cs ih =>
    rw [flatten_cons, ← append_assoc]
    exact ih (r.feed prober chunk)

end FramingRun

section Packets

variable {packets : List (List UInt8)}

theorem FramingRun.feeds_packets (prober : Prober π) (cs : List (List UInt8))
    (hp : ∀ p ∈ packets, IsPacket p)
    (r : FramingRun π) (hs : r.demuxer.remainder.length < tsPacketSize)
    (hd : r.demuxer.remainder ++ cs.flatten = packets.flatten) :
    (cs.foldl (.feed prober) r).blocks.map Prod.snd = r.blocks.map Prod.snd ++ packets ∧
      (cs.foldl (.feed prober) r).demuxer.remainder = [] := by
  induction cs generalizing packets r with
  | nil =>
    rw [flatten_nil, append_nil] at hd
    have hlen := length_flatten_packets hp
    rw [← hd] at hlen
    have hno : packets = [] := by
      by_contra hne
      have := Nat.le_mul_of_pos_left tsPacketSize (length_pos_of_ne_nil hne)
      omega
    subst hno
    exact ⟨(append_nil _).symm, hd⟩
  | cons chunk cs ih =>
    rw [flatten_cons, ← append_assoc] at hd
    obtain ⟨done, todo, rest, rfl, hdo, ht, hr, hlt⟩ := cut_packets hp hd
    obtain ⟨hpa, hf⟩ := forall_mem_append.mp hp
    have hfed := TsDemuxer.feed_packets prober hpa hr hlt hdo
    have hn : done.length ≤ (done.flatten ++ rest).length := by
      rw [length_append, length_flatten_packets hpa, tsPacketSize]
      omega
    obtain ⟨hb, hk⟩ := ih hf (r.feed prober chunk)
      (by rw [FramingRun.feed, hfed]; exact hlt) (by rw [FramingRun.feed, hfed]; exact ht)
    refine ⟨hb.trans ?_, hk⟩
    simp only [FramingRun.feed, hdo, findTsSync_packets hpa hr hlt, drop_zero, map_append,
      (framedBlocks_packets hpa hlt hn _).1, append_assoc]

theorem TsDemuxer.feed_chunks (prober : Prober π) {cs : List (List UInt8)}
    (hpa : ∀ p ∈ packets, IsPacket p) (hf : packets.flatten = cs.flatten) :
    (cs.foldl (feed prober) .new).packets = packets.foldl (.processTsPacket prober) .new := by
  have hinv : FramingRun.Inv prober (cs.foldl (.feed prober) .start) := FramingRun.Inv.start.feeds cs
  obtain ⟨hb, -⟩ := FramingRun.feeds_packets prober cs hpa .start (succ_pos _) hf.symm
  have hp := hinv.processed
  rw [(FramingRun.feeds_fields prober .start cs).2, hb] at hp
  exact hp

theorem TsDemuxer.feed_transports (prober : Prober π) {cs : List (List UInt8)}
    (h : Transports cs.flatten pays) :
    (cs.foldl (feed prober) .new).packets = pays.foldl (.processPayload prober) .new := by
  obtain ⟨packets, hf, hpa, hmap⟩ := h
  have hp : packets.filterMap tsPayload = pays := by
    have hr := congrArg (filterMap id) hmap
    simpa using hr
  rw [feed_chunks prober hpa hf, PacketDemuxer.foldl_processTsPacket, hp]

/-- What is processed of the fed bytes are blocks of the size of a packet that start with a
sync byte, one behind the other in the input, and less than a packet is kept. Of an input of
whole packets each is processed once, and the demuxer ends as after a single feed. -/
theorem demuxer_frames_input (prober : Prober π) (chunks : List (List UInt8)) :
    ∃ r : FramingRun π, r = chunks.foldl (.feed prober) .start ∧
      r.demuxer = chunks.foldl (.feed prober) .new ∧
      r.demuxer.packets = (r.blocks.map Prod.snd).foldl (.processTsPacket prober) .new ∧
      (r.blocks.Pairwise fun a b => a.1 + tsPacketSize ≤ b.1) ∧
      (∀ b ∈ r.blocks, b.2 = (chunks.flatten.drop b.1).take tsPacketSize ∧ b.2.length = tsPacketSize ∧
        b.2.head? = some tsSyncByte ∧
        b.1 + tsPacketSize + r.demuxer.remainder.length ≤ chunks.flatten.length) ∧
      r.demuxer.remainder <:+ chunks.flatten ∧ r.demuxer.remainder.length < tsPacketSize ∧
      ∀ packets :
      List (List UInt8), (∀ p ∈ packets, p.length = tsPacketSize ∧ p.head? = some tsSyncByte) →
        packets.flatten = chunks.flatten →
          r.blocks.map Prod.snd = packets ∧ r.demuxer = TsDemuxer.new.feed prober chunks.flatten := by
  have hinv : FramingRun.Inv prober (chunks.foldl (.feed prober) .start) :=
    FramingRun.Inv.start.feeds chunks
  obtain ⟨hinput, hdemuxer⟩ := FramingRun.feeds_fields prober .start chunks
  have hall : (chunks.foldl (.feed prober) (.start : FramingRun π)).input = chunks.flatten := hinput
  refine ⟨_, rfl, hdemuxer, hinv.processed, hinv.inPlace.ordered,
    ?_, hall ▸ hinv.kept, hinv.short, ?_⟩
  · intro b hb
    refine ⟨hall ▸ hinv.inPlace.content b hb, (hinv.inPlace.packet b hb).1,
      (hinv.inPlace.packet b hb).2, ?_⟩
    have hbound := hinv.inPlace.bounded b hb
    rwa [hall] at hbound
  · intro packets hpackets hflat
    obtain ⟨hblocks, hkept⟩ :=
      FramingRun.feeds_packets prober chunks hpackets .start (succ_pos _) hflat.symm
    refine ⟨hblocks, ?_⟩
    have hsingle : (TsDemuxer.new : TsDemuxer π).feed prober chunks.flatten =
        { packets := packets.foldl (.processTsPacket prober) .new, remainder := [] } :=
      TsDemuxer.feed_packets prober hpackets (.inl rfl)
        (succ_pos _) (by rw [List.append_nil]; exact hflat.symm)
    have hprocessed := hinv.processed
    rw [hblocks] at hprocessed
    rw [hsingle, ← hkept]
    exact congrArg (TsDemuxer.mk · _) hprocessed

end Packets

end Restream.Mpegts
