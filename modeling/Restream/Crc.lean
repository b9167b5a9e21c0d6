import Mathlib.Algebra.GroupWithZero.Nat
import Mathlib.Algebra.Group.Int.Defs
import Mathlib.Data.List.Basic
import Mathlib.Data.Nat.Bitwise
import Mathlib.Logic.Function.Iterate

/-! Checksums computed a byte at a time with a table, most significant bit first. A
message followed by its own checksum leaves no remainder, and with the table of a
polynomial the checksum is the one of its shift register, fed a bit at a time. -/

namespace Crc

open Nat List

def next (table : UInt8 → UInt32) (crc : UInt32) (byte : UInt8) : UInt32 :=
  (crc <<< 8) ^^^ table ((crc >>> 24).toUInt8 ^^^ byte)

def checksum (table : UInt8 → UInt32) (init : UInt32) (data : List UInt8) : UInt32 :=
  data.foldl (next table) init

def bytes (crc : UInt32) : List UInt8 :=
  [(crc >>> 24).toUInt8, (crc >>> 16).toUInt8, (crc >>> 8).toUInt8, crc.toUInt8]

variable {table : UInt8 → UInt32}

theorem next_of_top (hz : table 0 = 0) {crc : UInt32} {byte : UInt8}
    (h : (crc >>> 24).toUInt8 = byte) : next table crc byte = crc <<< 8 := by
  rw [next, h, UInt8.xor_self, hz, UInt32.xor_zero]

theorem checksum_bytes (hz : table 0 = 0) : checksum table crc (bytes crc) = 0 := by
  have hs : ((crc <<< 8) >>> 24).toUInt8 = (crc >>> 16).toUInt8 := by
    rw [← UInt8.toNat_inj]
    simp [shiftLeft_eq, shiftRight_eq_div_pow]
    omega
  have ht : ((crc <<< 8 <<< 8) >>> 24).toUInt8 = (crc >>> 8).toUInt8 := by
    rw [← UInt8.toNat_inj]
    simp [shiftLeft_eq, shiftRight_eq_div_pow]
    omega
  have hf : ((crc <<< 8 <<< 8 <<< 8) >>> 24).toUInt8 = crc.toUInt8 := by
    rw [← UInt8.toNat_inj]
    simp [shiftLeft_eq, shiftRight_eq_div_pow]
    omega
  have hn : crc <<< 8 <<< 8 <<< 8 <<< 8 = 0 := by
    rw [← UInt32.toNat_inj]
    simp [shiftLeft_eq]
    omega
  simp only [checksum, bytes, foldl_cons, foldl_nil]
  rw [next_of_top hz rfl, next_of_top hz hs, next_of_top hz ht, next_of_top hz hf, hn]

theorem checksum_append_bytes (hz : table 0 = 0) (init : UInt32) (data : List UInt8) :
    checksum table init (data ++ bytes (checksum table init data)) = 0 := by
  rw [checksum, foldl_append]
  exact checksum_bytes hz

/-- One turn of the shift register. -/
def shift (poly crc : UInt32) : UInt32 :=
  if crc &&& 0x80000000 ≠ 0 then (crc <<< 1) ^^^ poly else crc <<< 1

def tableOf (poly : UInt32) (index : UInt8) : UInt32 := (shift poly)^[8] (index.toUInt32 <<< 24)

/-- The register takes in one bit of the message. -/
def shiftIn (poly crc : UInt32) (bit : Bool) : UInt32 :=
  if (decide (crc &&& 0x80000000 ≠ 0) ^^ bit) = true then (crc <<< 1) ^^^ poly else crc <<< 1

def bits (byte : UInt8) : List Bool := (List.range 8).map fun i => byte.toNat.testBit (7 - i)

def bitwise (poly init : UInt32) (data : List UInt8) : UInt32 :=
  (data.flatMap bits).foldl (shiftIn poly) init

section Bitwise

variable {poly : UInt32}

theorem top_iff (crc : UInt32) : crc &&& 0x80000000 ≠ 0 ↔ crc.toNat.testBit 31 = true := by
  have h : (crc &&& 0x80000000).toNat = (crc.toNat.testBit 31).toNat * 2 ^ 31 := Nat.and_two_pow _ 31
  rw [Ne, ← UInt32.toNat_inj, h]
  cases crc.toNat.testBit 31 <;> simp

theorem shift_eq (crc : UInt32) :
    shift poly crc = (crc <<< 1) ^^^ (if crc.toNat.testBit 31 then poly else 0) := by
  simp only [shift, top_iff]
  split <;> simp

theorem shiftIn_eq (crc : UInt32) (bit : Bool) :
    shiftIn poly crc bit = shift poly crc ^^^ (if bit then poly else 0) := by
  simp only [shiftIn, shift_eq, top_iff, Bool.decide_eq_true]
  cases crc.toNat.testBit 31 <;> cases bit <;>
    simp only [Bool.false_eq_true, if_true, if_false, UInt32.xor_assoc,
      UInt32.xor_zero, UInt32.xor_self] <;> rfl

theorem shift_xor : shift poly (a ^^^ b) = shift poly a ^^^ shift poly b := by
  simp only [shift_eq, UInt32.toNat_xor, Nat.testBit_xor, UInt32.shiftLeft_xor]
  cases a.toNat.testBit 31 <;> cases b.toNat.testBit 31 <;> simp
  · rw [UInt32.xor_assoc]
  · rw [UInt32.xor_assoc, UInt32.xor_assoc, UInt32.xor_comm poly]
  · rw [UInt32.xor_assoc, UInt32.xor_comm poly, UInt32.xor_assoc, UInt32.xor_self, UInt32.xor_zero]

theorem shifts_xor : (shift poly)^[n] (a ^^^ b) = (shift poly)^[n] a ^^^ (shift poly)^[n] b := by
  induction n generalizing a b with
  | zero => rfl
  | succ n ih => rw [Function.iterate_succ_apply, shift_xor, ih]; rfl

theorem toNat_shifts {n : Nat} {crc : UInt32} (h : crc.toNat * 2 ^ n < 2 ^ 32) :
    ((shift poly)^[n] crc).toNat = crc.toNat * 2 ^ n := by
  induction n generalizing crc with
  | zero => simp
  | succ n ih =>
    have hlt : crc.toNat < 2 ^ 31 := by
      have hle := mul_le_mul_left crc.toNat (le_self_pow (succ_ne_zero n) 2)
      exact Nat.lt_of_mul_lt_mul_right (Nat.lt_of_le_of_lt hle h)
    have hs : (shift poly crc).toNat = crc.toNat * 2 := by
      rw [shift_eq, testBit_lt_two_pow hlt]
      simp [shiftLeft_eq]
      omega
    rw [Function.iterate_succ_apply, ih, hs, pow_succ, mul_assoc, mul_comm 2]
    rw [hs, mul_assoc, mul_comm 2]
    exact h

/-- Eight turns: the table's word for the top byte, and the rest moved up a byte. -/
theorem shifts_eight :
    (shift poly)^[8] crc = (crc <<< 8) ^^^ tableOf poly (crc >>> 24).toUInt8 := by
  have hsplit : crc = ((crc <<< 8) >>> 8) ^^^ ((crc >>> 24).toUInt8.toUInt32 <<< 24) := by
    have htop : (crc >>> 24).toUInt8.toUInt32 = crc >>> 24 := by
      rw [← UInt32.toNat_inj]
      have hlt := crc.toNat_lt
      simp [shiftRight_eq_div_pow]
      omega
    rw [htop, ← UInt32.toBitVec_inj]
    ext i hi
    by_cases hlt : i < 24
    · simp [hlt, hi]
      omega
    · have ho : ¬8 + i < 32 := by omega
      have hi' : 24 + (i - 24) = i := by omega
      simp [hlt, ho, hi, hi']
  have hlow : (shift poly)^[8] ((crc <<< 8) >>> 8) = crc <<< 8 := by
    rw [← UInt32.toNat_inj, toNat_shifts] <;>
      simp [Nat.shiftLeft_eq, Nat.shiftRight_eq_div_pow] <;> omega
  conv_lhs => rw [hsplit]
  rw [shifts_xor, hlow]
  rfl

theorem foldl_shiftIn (crc : UInt32) (bs : List Bool) :
    bs.foldl (shiftIn poly) crc = (shift poly)^[bs.length] crc ^^^ bs.foldl (shiftIn poly) 0 := by
  induction bs generalizing crc with
  | nil => simp
  | cons b bs ih =>
    have h : shiftIn poly crc b = shift poly crc ^^^ shiftIn poly 0 b := by
      have hz : shift poly 0 = 0 := by simp [shift]
      rw [shiftIn_eq, shiftIn_eq, hz, UInt32.zero_xor]
    rw [List.foldl_cons, List.foldl_cons, ih, ih (shiftIn poly 0 b), h, shifts_xor, UInt32.xor_assoc]
    rfl

variable (hb : ∀ byte, (bits byte).foldl (shiftIn poly) 0 = tableOf poly byte)
include hb

theorem next_tableOf : next (tableOf poly) crc byte = (bits byte).foldl (shiftIn poly) crc := by
  have hx (a b : UInt8) : tableOf poly (a ^^^ b) = tableOf poly a ^^^ tableOf poly b := by
    simp only [tableOf, UInt8.toUInt32_xor, UInt32.shiftLeft_xor, shifts_xor]
  rw [foldl_shiftIn, hb, next, hx, ← UInt32.xor_assoc, ← shifts_eight]
  rfl

theorem checksum_eq_bitwise (init : UInt32)
    (data : List UInt8) : checksum (tableOf poly) init data = bitwise poly init data := by
  induction data generalizing init with
  | nil => rfl
  | cons byte data ih =>
    have h := ih (next (tableOf poly) init byte)
    rw [next_tableOf hb, bitwise, ← foldl_append] at h
    rw [bitwise, flatMap_cons, ← h, ← next_tableOf hb]
    rfl

end Bitwise

section Injective

variable {poly : UInt32} (hodd : poly.toNat % 2 = 1)

theorem next_eq_shifts :
    next (tableOf poly) crc byte = (shift poly)^[8] (crc ^^^ byte.toUInt32 <<< 24) := by
  rw [shifts_xor, shifts_eight, next, UInt32.xor_assoc]
  simp only [tableOf, UInt8.toUInt32_xor, UInt32.shiftLeft_xor, shifts_xor]

include hodd

theorem shift_injective : Function.Injective (shift poly) := by
  intro a b h
  have hz : shift poly (a ^^^ b) = 0 := by rw [shift_xor, h, UInt32.xor_self]
  rw [← UInt32.xor_eq_zero_iff, ← UInt32.toNat_inj]
  generalize a ^^^ b = c at hz
  rw [shift_eq, ← UInt32.toNat_inj, testBit_eq_decide_div_mod_eq] at hz
  have hlt := c.toNat_lt
  split at hz <;> simp_all [shiftLeft_eq] <;> omega

/-- Messages that differ in one byte differ in their checksums. -/
theorem checksum_byte_inj {init : UInt32} {pre post : List UInt8}
    (h : checksum (tableOf poly) init (pre ++ a :: post) =
      checksum (tableOf poly) init (pre ++ b :: post)) : a = b := by
  have hinj := (shift_injective hodd).iterate 8
  simp only [checksum, foldl_append, foldl_cons] at h
  generalize pre.foldl _ _ = crc at h
  have hb : next (tableOf poly) crc a = next (tableOf poly) crc b := by
    generalize next _ crc a = u at h
    generalize next _ crc b = v at h
    induction post generalizing u v with
    | nil => exact h
    | cons c post ih =>
      have hc := ih _ _ h
      rw [next_eq_shifts, next_eq_shifts] at hc
      exact (UInt32.xor_left_inj _).mp (hinj hc)
  rw [next_eq_shifts, next_eq_shifts] at hb
  have hw := congrArg UInt32.toNat ((UInt32.xor_right_inj _).mp (hinj hb))
  have := a.toNat_lt
  have := b.toNat_lt
  rw [← UInt8.toNat_inj]
  simp [shiftLeft_eq] at hw
  omega

end Injective

end Crc
