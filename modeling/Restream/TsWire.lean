import Restream.Crc
import Mathlib.Order.Defs.LinearOrder

/-! The wire formats that the MPEG-TS muxer and demuxer share: 33-bit timestamps,
clock references, and the checksum of a table section. -/

namespace Restream.Mpegts

open List Crc UInt8

def tsPacketSize : Nat := 188

def tsSyncByte : UInt8 := 0x47

def patPid : Nat := 0x0000

def sdtPid : Nat := 0x0011

def parseTimestamp : List UInt8 → Option Int
  | b0 :: b1 :: b2 :: b3 :: b4 :: _ =>
    some (((b0.toNat / 2 % 8) * 2 ^ 30 + b1.toNat * 2 ^ 22 +
      b2.toNat / 2 * 2 ^ 15 + b3.toNat * 2 ^ 7 +
      b4.toNat / 2 : Nat) : Int)
  | _ => none

def writeTimestampBuf (ts : Int) (marker : Nat) : List UInt8 :=
  [UInt8.ofNat (marker * 16 + (ts / 2 ^ 30 % 8).toNat * 2 + 1), UInt8.ofNat (ts / 2 ^ 22 % 256).toNat,
    UInt8.ofNat ((ts / 2 ^ 15 % 128).toNat * 2 + 1), UInt8.ofNat (ts / 2 ^ 7 % 256).toNat,
    UInt8.ofNat ((ts % 128).toNat * 2 + 1)]

def writePcr (ts90k : Int) : List UInt8 :=
  let pcrBase := ts90k.toNat
  [UInt8.ofNat (pcrBase / 2 ^ 25), UInt8.ofNat (pcrBase / 2 ^ 17), UInt8.ofNat (pcrBase / 2 ^ 9),
    UInt8.ofNat (pcrBase / 2), UInt8.ofNat (pcrBase % 2 * 2 ^ 7) ||| 0x7E, 0]

def tsToMs (ts90k : Int) : Int := ts90k.tdiv 90

def msToTs (ms : Int) : Int := ms * 90

def copyPesSlices (hdr payload : List UInt8) (offset len : Nat) : List UInt8 :=
  let fromHdr :=
    if offset < hdr.length then (hdr.drop offset).take (min (hdr.length - offset) len) else []
  fromHdr ++ (payload.drop (offset - hdr.length)).take (len - fromHdr.length)

def crc32Bit (crc : UInt32) : UInt32 :=
  if crc &&& 0x80000000 ≠ 0 then (crc <<< 1) ^^^ 0x04C11DB7 else crc <<< 1

def crc32Table (index : UInt8) : UInt32 := Nat.iterate crc32Bit 8 (index.toUInt32 <<< 24)

def crc32Mpeg2 (data : List UInt8) : UInt32 := Crc.checksum crc32Table 0xFFFFFFFF data

theorem crc32Mpeg2_append_bytes (data : List UInt8) :
    crc32Mpeg2 (data ++ bytes (crc32Mpeg2 data)) = 0 :=
  checksum_append_bytes (by decide) _ data

theorem crc32Mpeg2_eq_bitwise (data : List UInt8) :
    crc32Mpeg2 data = bitwise 0x04C11DB7 0xFFFFFFFF data := by
  have htable (byte : UInt8) : (bits byte).foldl (shiftIn 0x04C11DB7) 0 =
      tableOf 0x04C11DB7 byte := by
    have hall : ∀ n < 256, (bits (.ofNat n)).foldl (shiftIn 0x04C11DB7) 0 =
        tableOf 0x04C11DB7 (.ofNat n) := by decide +kernel
    simpa using hall byte.toNat byte.toNat_lt
  exact checksum_eq_bitwise htable _ data

theorem length_writeTimestampBuf : (writeTimestampBuf ts marker).length = 5 := rfl

theorem length_writePcr (ts90k : Int) : (writePcr ts90k).length = 6 := rfl

theorem timestamp_fields (ts : Int) : ts / 2 ^ 30 % 8 * 2 ^ 30 + ts / 2 ^ 22 % 256 * 2 ^ 22 +
    ts / 2 ^ 15 % 128 * 2 ^ 15 + ts / 2 ^ 7 % 256 * 2 ^ 7 + ts % 128 = ts % 2 ^ 33 := by
  have h15 : ts / 2 ^ 7 % 256 * 2 ^ 7 + ts % 128 = ts % 2 ^ 15 := by omega
  have h22 : ts / 2 ^ 15 % 128 * 2 ^ 15 + ts % 2 ^ 15 = ts % 2 ^ 22 := by omega
  have h30 : ts / 2 ^ 22 % 256 * 2 ^ 22 + ts % 2 ^ 22 = ts % 2 ^ 30 := by omega
  have h33 : ts / 2 ^ 30 % 8 * 2 ^ 30 + ts % 2 ^ 30 = ts % 2 ^ 33 := by omega
  rw [← h33, ← h30, ← h22, ← h15]
  simp only [Int.add_assoc]

theorem parseTimestamp_write (ts : Int) (marker : Nat) (rest : List UInt8) :
    parseTimestamp (writeTimestampBuf ts marker ++ rest) = some (ts % 2 ^ 33) := by
  have htop : (ofNat (marker * 16 + (ts / 2 ^ 30 % 8).toNat * 2 + 1)).toNat / 2 % 8 =
      (ts / 2 ^ 30 % 8).toNat := by
    rw [toNat_ofNat']
    omega
  have hb (n : Int) : (ofNat (n % 256).toNat).toNat = (n % 256).toNat := by
    rw [toNat_ofNat']
    omega
  have hodd (n : Int) : (ofNat ((n % 128).toNat * 2 + 1)).toNat / 2 = (n % 128).toNat := by
    rw [toNat_ofNat']
    omega
  simp only [writeTimestampBuf, cons_append, parseTimestamp]
  rw [htop, hb, hb, hodd, hodd, ← timestamp_fields]
  have hc (n : Int) (k : Int) (hk : 0 < k) : ((n % k).toNat : Int) = n % k :=
    Int.toNat_of_nonneg (Int.emod_nonneg n (Int.ne_of_gt hk))
  rw [Int.natCast_add, Int.natCast_add, Int.natCast_add,
    Int.natCast_add, Int.natCast_mul, Int.natCast_mul,
    Int.natCast_mul, Int.natCast_mul, hc _ 8 (by decide), hc _ 256 (by decide), hc _ 128 (by decide),
    hc _ 256 (by decide), hc _ 128 (by decide)]
  rfl

/-- The table computes the bitwise checksum, a checked message leaves no remainder, and a
written timestamp is read back in its 33 bits. -/
theorem checksum_and_timestamp_exact (data : List UInt8) (ts : Int) (marker : Nat) :
    crc32Mpeg2 data = Crc.bitwise 0x04C11DB7 0xFFFFFFFF data ∧
    crc32Mpeg2 (data ++ Crc.bytes (crc32Mpeg2 data)) = 0 ∧
    parseTimestamp (writeTimestampBuf ts marker) = some (ts % 2 ^ 33) :=
  ⟨crc32Mpeg2_eq_bitwise data, crc32Mpeg2_append_bytes data, parseTimestamp_write ts marker []⟩

theorem tsToMs_msToTs : tsToMs (msToTs ms) = ms := Int.mul_tdiv_cancel ms (by decide)

theorem copyPesSlices_eq : copyPesSlices hdr pay off len = ((hdr ++ pay).drop off).take len := by
  rw [copyPesSlices, drop_append, take_append]
  split
  · have ht : (hdr.drop off).take (min (hdr.length - off) len) = (hdr.drop off).take len := by
      rw [Nat.min_comm, ← length_drop, ← take_eq_take_min]
    simp only [ht, length_take, length_drop]
    congr 2
    omega
  · next hle =>
    have hn : hdr.drop off = [] := drop_eq_nil_of_le (Nat.le_of_not_lt hle)
    simp only [hn, take_nil, length_nil, Nat.sub_zero]

end Restream.Mpegts
