import Restream.ParameterSets
import Mathlib.Data.FinEnum

/-! Which access units are taken for keyframes: one test reads the header of every NAL
unit both as H.264 and as H.265. -/

namespace Restream.Codec

open List Option

def isIrapType (nalType : UInt8) : Bool := 16 ≤ nalType && nalType ≤ 23

def naluIsKeyframe : Nalu → Bool
  | [] => false
  | first :: rest => first &&& 0x1F = 5 || (!rest.isEmpty && isIrapType ((first >>> 1) &&& 0x3F))

def rawAnnexbIsKeyframe (payload : List UInt8) : Bool := (splitAnnexbNalus payload).any naluIsKeyframe

inductive StreamCodec where
  | h264
  | hevc
  deriving DecidableEq, Repr

namespace StreamCodec

/-- The headers of a stream: an H.264 one has its forbidden bit clear, a base-layer H.265
one an even first byte and a temporal id. -/
def Header : StreamCodec → Nalu → Prop
  | h264, first :: _ => first &&& 0x80 = 0
  | hevc, first :: second :: _ => first &&& 1 = 0 ∧ 1 ≤ second ∧ second ≤ 7
  | _, _ => False

def KeySlice : StreamCodec → Nalu → Prop
  | h264, nalu => h264NalType nalu = some 5
  | hevc, nalu => ∃ nalType, h265NalType nalu = some nalType ∧ 16 ≤ nalType ∧ nalType ≤ 23

instance (codec : StreamCodec) (nalu : Nalu) : Decidable (codec.KeySlice nalu) :=
  match codec with
  | h264 => inferInstanceAs (Decidable (_ = _))
  | hevc => inferInstanceAs (Decidable (∃ nalType ∈ h265NalType nalu, _))

/-- An H.264 unit of reference level 1 and a type up to 15, with a byte after its header:
as H.265 its header reads as that of a key slice. -/
def Misread : StreamCodec → Nalu → Prop
  | h264, first :: _ :: _ => 0x20 ≤ first ∧ first < 0x30
  | _, _ => False

instance (codec : StreamCodec) (nalu : Nalu) : Decidable (codec.Misread nalu) := by
  unfold Misread
  split <;> infer_instance

end StreamCodec

/-- An access unit as a byte stream: each NAL unit behind a start code with any number of
zero bytes before it, and zero bytes at the end. -/
structure AccessUnit (codec : StreamCodec) where
  units : List (Nat × Nalu)
  trailing : Nat
  clean : ∀ u ∈ units, hasStartCode u.2 = false ∧ u.2.getLast? ≠ some 0
  header : ∀ u ∈ units, codec.Header u.2

def unitBytes (unit : Nat × Nalu) : List UInt8 := List.replicate unit.1 0 ++ 0 :: 0 :: 1 :: unit.2

def streamBytes (units : List (Nat × Nalu)) (trailing : Nat) : List UInt8 :=
  units.flatMap unitBytes ++ List.replicate trailing 0

open StreamCodec

def seenUnits : List (Nat × Nalu) → Nat → List Nalu
  | [], _ => []
  | [unit], trailing => [unit.2 ++ List.replicate trailing 0]
  | unit :: next :: units, trailing => unit.2 :: seenUnits (next :: units) trailing

namespace AccessUnit

variable {codec : StreamCodec}

def bytes (unit : AccessUnit codec) : List UInt8 := streamBytes unit.units unit.trailing

def seen (unit : AccessUnit codec) : List Nalu := seenUnits unit.units unit.trailing

def IsKeyframe (unit : AccessUnit codec) : Prop := ∃ u ∈ unit.units, codec.KeySlice u.2

end AccessUnit

section Split

theorem hasStartCode_zeros (count : Nat) : hasStartCode (replicate count 0) = false :=
  hasStartCode_append_zeros (n := []) rfl count

theorem dropTrailingZeros_append_zeros (h : n.getLast? ≠ some 0) (count : Nat) :
    dropTrailingZeros (n ++ replicate count 0) = n := by
  induction count with
  | zero =>
    rw [replicate_zero, append_nil]
    rcases n.eq_nil_or_concat with rfl | ⟨m, b, rfl⟩
    · rfl
    · have hb : b ≠ 0 := by simpa using h
      rw [concat_eq_append]
      exact rdropWhile_concat_neg _ _ _ (by simpa using hb)
  | succ count ih => rw [replicate_succ', ← append_assoc, dropTrailingZeros_concat_zero, ih]

theorem scanNalus_units (hn : n ≠ []) (hc : hasStartCode n = false ∧ n.getLast? ≠ some 0)
    (hun : ∀ u ∈ units, u.2 ≠ [] ∧ hasStartCode u.2 = false ∧ u.2.getLast? ≠ some 0) (zeros : Nat) :
    scanNalus (some []) (n ++ streamBytes units trail) = seenUnits ((zeros, n) :: units) trail := by
  induction units generalizing n zeros with
  | nil =>
    have hcl : n ++ replicate trail 0 ≠ [] := by simp [hn]
    simp only [streamBytes, flatMap_nil, nil_append, seenUnits]
    rw [scanNalus_last (hasStartCode_append_zeros hc.1 trail),
      map_some, nil_append, closeNalu_some hcl]
  | cons u units ih =>
    obtain ⟨⟨hu, hc'⟩, hr⟩ := forall_mem_cons.mp hun
    have hb : n ++ streamBytes (u :: units) trail =
        (n ++ replicate u.1 0) ++ 0 :: 0 :: 1 :: (u.2 ++ streamBytes units trail) := by
      simp [streamBytes, unitBytes]
    rw [hb, scanNalus_code (hasStartCode_append_zeros hc.1 u.1), ih hu hc' hr u.1, map_some,
      nil_append, dropTrailingZeros_append_zeros hc.2, closeNalu_some hn]
    rfl

end Split

section Headers

variable {codec : StreamCodec} {n : Nalu}

theorem isIrapType_h264 : ∀ first : UInt8, first &&& 0x80 = 0 →
    (isIrapType ((first >>> 1) &&& 0x3F) = true ↔ 0x20 ≤ first ∧ first < 0x30) := by
  decide +kernel

theorem even_ne_idr : ∀ first : UInt8, first &&& 1 = 0 → first &&& 0x1F ≠ 5 := by
  decide +kernel

theorem naluIsKeyframe_iff (h : codec.Header n) :
    naluIsKeyframe n = true ↔ codec.KeySlice n ∨ codec.Misread n := by
  cases codec with
  | h264 =>
    rcases n with - | ⟨first, - | ⟨second, rest⟩⟩
    · cases h
    · simp [naluIsKeyframe, KeySlice, Misread, h264NalType]
    · simp only [naluIsKeyframe, KeySlice, Misread, h264NalType, isEmpty_cons,
        Bool.not_false, Bool.true_and, Bool.or_eq_true, decide_eq_true_eq, Option.some.injEq]
      rw [isIrapType_h264 first h]
  | hevc =>
    rcases n with - | ⟨first, - | ⟨second, rest⟩⟩
    · cases h
    · cases h
    · have hidr : first &&& 0x1F ≠ 5 := even_ne_idr first h.1
      simp [naluIsKeyframe, KeySlice, Misread, h265NalType, isIrapType, hidr]

theorem StreamCodec.Header.append (h : codec.Header n) (rest : List UInt8) :
    codec.Header (n ++ rest) := by
  cases codec with
  | h264 => cases n with
    | nil => cases h
    | cons first tail => exact h
  | hevc =>
    rcases n with - | ⟨first, - | ⟨second, tail⟩⟩
    · cases h
    · cases h
    · exact h

theorem keySlice_append (h : codec.Header n) : codec.KeySlice (n ++ rest) ↔
    codec.KeySlice n := by
  cases codec with
  | h264 => cases n with
    | nil => cases h
    | cons first tail => exact Iff.rfl
  | hevc =>
    rcases n with - | ⟨first, - | ⟨second, tail⟩⟩
    · cases h
    · cases h
    · exact Iff.rfl

end Headers

namespace AccessUnit

variable {codec : StreamCodec}

variable {n : Nalu} {units : List (Nat × Nalu)}

theorem header_ne_nil (h : codec.Header n) : n ≠ [] := by
  rintro rfl
  cases codec <;> cases h

theorem splitAnnexbNalus_bytes (unit : AccessUnit codec) :
    splitAnnexbNalus unit.bytes = unit.seen := by
  have hp : ∀ u ∈ unit.units, u.2 ≠ [] ∧ hasStartCode u.2 = false ∧ u.2.getLast? ≠ some 0 :=
    fun u hu => ⟨header_ne_nil (unit.header u hu), unit.clean u hu⟩
  unfold bytes seen splitAnnexbNalus
  generalize unit.units = units at hp
  cases units with
  | nil => exact scanNalus_last (hasStartCode_zeros unit.trailing) none
  | cons u units =>
    obtain ⟨⟨hu, hc⟩, hr⟩ := forall_mem_cons.mp hp
    have hb : streamBytes (u :: units) unit.trailing =
        replicate u.1 0 ++ 0 :: 0 :: 1 :: (u.2 ++ streamBytes units unit.trailing) := by
      simp [streamBytes, unitBytes]
    rw [hb, scanNalus_code (hasStartCode_zeros u.1), scanNalus_units hu hc hr u.1]
    rfl

theorem exists_seenUnits (h : n ∈ seenUnits units trail) :
    ∃ u ∈ units, ∃ count, n = u.2 ++ replicate count 0 := by
  induction units, trail using seenUnits.induct with
  | case1 => cases h
  | case2 u trail => exact ⟨u, mem_singleton_self u, trail, mem_singleton.mp h⟩
  | case3 u next units trail ih =>
    rcases mem_cons.mp h with rfl | hr
    · exact ⟨u, mem_cons_self, 0, (append_nil _).symm⟩
    · obtain ⟨v, hv, count, hn⟩ := ih hr
      exact ⟨v, mem_cons_of_mem _ hv, count, hn⟩

theorem exists_seen_of_mem (h : u ∈ units) (trail : Nat) :
    ∃ count, u.2 ++ replicate count 0 ∈ seenUnits units trail := by
  induction units, trail using seenUnits.induct with
  | case1 => cases h
  | case2 v trail =>
    obtain rfl := mem_singleton.mp h
    exact ⟨trail, mem_singleton_self _⟩
  | case3 v next units trail ih =>
    rcases mem_cons.mp h with rfl | hr
    · exact ⟨0, by simp [seenUnits]⟩
    · obtain ⟨count, hmem⟩ := ih hr
      exact ⟨count, mem_cons_of_mem _ hmem⟩

theorem isKeyframe_iff_seen (unit : AccessUnit codec) :
    unit.IsKeyframe ↔ ∃ n ∈ unit.seen, codec.KeySlice n
    := by
  constructor
  · rintro ⟨u, hu, hkey⟩
    obtain ⟨count, hmem⟩ := exists_seen_of_mem hu unit.trailing
    exact ⟨_, hmem, (keySlice_append (unit.header u hu)).mpr hkey⟩
  · rintro ⟨n, hn, hkey⟩
    obtain ⟨u, hu, count, rfl⟩ := exists_seenUnits hn
    exact ⟨u, hu, (keySlice_append (unit.header u hu)).mp hkey⟩

theorem rawAnnexbIsKeyframe_iff (unit : AccessUnit codec) :
    rawAnnexbIsKeyframe unit.bytes = true ↔ unit.IsKeyframe ∨ ∃ n ∈ unit.seen, codec.Misread n := by
  have hh : ∀ n ∈ unit.seen, codec.Header n := by
    intro n hn
    obtain ⟨u, hu, count, rfl⟩ := exists_seenUnits hn
    exact (unit.header u hu).append _
  rw [rawAnnexbIsKeyframe, splitAnnexbNalus_bytes, List.any_eq_true, isKeyframe_iff_seen, ← exists_or]
  refine exists_congr fun n => ?_
  rw [← and_or_left]
  exact and_congr_right fun hn => naluIsKeyframe_iff (hh n hn)

/-- The units that the test does not misread. -/
def ReadRight (unit : AccessUnit codec) : Prop := unit.IsKeyframe ∨ ∀ n ∈ unit.seen, ¬codec.Misread n

theorem classified_iff (unit : AccessUnit codec) :
    (rawAnnexbIsKeyframe unit.bytes = true ↔ unit.IsKeyframe) ↔ unit.ReadRight := by
  rw [rawAnnexbIsKeyframe_iff, ReadRight]
  by_cases hkey : unit.IsKeyframe <;> simp [hkey]

theorem readRight_hevc (unit : AccessUnit .hevc) : unit.ReadRight := .inr fun n _ hm => by
  rcases n with - | ⟨first, - | ⟨second, rest⟩⟩ <;> cases hm

end AccessUnit

end Restream.Codec
