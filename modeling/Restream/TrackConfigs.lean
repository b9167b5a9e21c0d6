import Mathlib.Data.Nat.Bitwise
import Mathlib.Tactic.Ring
import Restream.MediaPacket

/-! Per-track codec configurations of one ring, and the unit word stored beside each
packet: a presence bit, the low 31 bits of the sequence that wrote it, and the
configuration generation. A generation starts only when a track's bytes change, and
the last few configurations stay resolvable. -/

namespace Restream

open Nat

structure FrameUnit where
  configGeneration : UInt32
  deriving DecidableEq, Repr

def present : UInt64 := (1 : UInt64) <<< 63

def tagMask : UInt64 := (1 : UInt64) <<< 31 - 1

def unitTag (sequence : Nat) : UInt64 := UInt64.ofNat sequence &&& tagMask

def FrameUnit.pack (unit : FrameUnit) (sequence : Nat) : UInt64 :=
  present ||| unitTag sequence <<< 32 ||| unit.configGeneration.toUInt64

def FrameUnit.unpack (raw : UInt64) (sequence : Nat) : Option FrameUnit :=
  if raw &&& present ≠ 0 ∧ (raw >>> 32) &&& tagMask = unitTag sequence then
    some ⟨raw.toUInt32⟩
  else none

theorem present_toNat : present.toNat = 2 ^ 63 := by decide

theorem tagMask_toNat : tagMask.toNat = 2 ^ 31 - 1 := by decide

theorem unitTag_toNat : (unitTag s).toNat = s % 2 ^ 31 := by
  rw [unitTag, UInt64.toNat_and, tagMask_toNat, and_two_pow_sub_one_eq_mod, UInt64.toNat_ofNat']
  omega

namespace FrameUnit

theorem pack_toNat (u : FrameUnit) :
    (u.pack s).toNat = 2 ^ 63 + (2 ^ 32 * (s % 2 ^ 31) + u.configGeneration.toNat) := by
  have hg := u.configGeneration.toNat_lt
  have hs : (unitTag s <<< 32).toNat = 2 ^ 32 * (s % 2 ^ 31) := by
    rw [UInt64.toNat_shiftLeft, unitTag_toNat, show (32 : UInt64).toNat % 64 = 32 by decide]
    omega
  rw [pack, UInt64.toNat_or, UInt64.toNat_or, present_toNat, hs, UInt32.toNat_toUInt64, Nat.or_assoc,
    ← two_pow_add_eq_or_of_lt hg]
  have hlt : 2 ^ 32 * (s % 2 ^ 31) + u.configGeneration.toNat < 2 ^ 63 := by omega
  simpa using (two_pow_add_eq_or_of_lt hlt 1).symm

theorem pack_present (u : FrameUnit) : u.pack s &&& present ≠ 0 := by
  intro h
  have hn := congrArg UInt64.toNat h
  have hbit : ((u.pack s).toNat &&& 2 ^ 63).testBit 63 = true := by
    have hlt : 2 ^ 32 * (s % 2 ^ 31) + u.configGeneration.toNat < 2 ^ 63 := by
      have hg := u.configGeneration.toNat_lt
      omega
    rw [testBit_and, pack_toNat, testBit_two_pow_add_eq, testBit_lt_two_pow hlt]
    rfl
  rw [UInt64.toNat_and, present_toNat] at hn
  rw [hn] at hbit
  simp at hbit

theorem pack_tag (u : FrameUnit) : (u.pack s >>> 32) &&& tagMask = unitTag s := by
  have hg := u.configGeneration.toNat_lt
  apply UInt64.toNat_inj.mp
  rw [UInt64.toNat_and, UInt64.toNat_shiftRight, tagMask_toNat, unitTag_toNat, pack_toNat,
    and_two_pow_sub_one_eq_mod, show (32 : UInt64).toNat % 64 = 32 by decide]
  omega

theorem unpack_pack (u : FrameUnit) :
    unpack (u.pack s) t = if s % 2 ^ 31 = t % 2 ^ 31 then some u else none := by
  have htag : unitTag s = unitTag t ↔ s % 2 ^ 31 = t % 2 ^ 31 := by
    rw [← UInt64.toNat_inj, unitTag_toNat, unitTag_toNat]
  have hgen : (u.pack s).toUInt32 = u.configGeneration := by
    have hg := u.configGeneration.toNat_lt
    apply UInt32.toNat_inj.mp
    rw [UInt64.toNat_toUInt32, pack_toNat]
    omega
  simp only [unpack, pack_present, pack_tag, htag, hgen, ne_eq, not_false_eq_true, true_and]

theorem unpack_zero : unpack 0 t = none := by
  simp [unpack]

theorem unpack_pack_self : unpack (u.pack s) s = some u := by
  simp [unpack_pack]

end FrameUnit

def configTracksPerType : Nat := 4

def configHistory : Nat := 4

structure TrackConfig where
  generation : UInt32
  bytes : List UInt8
  deriving DecidableEq, Repr

structure TrackConfigSlot where
  generation : UInt32
  current : Option TrackConfig
  history : Nat → Option TrackConfig

def TrackConfigSlot.new : TrackConfigSlot :=
  { generation := 0, current := none, history := fun _ => none }

def TrackConfigSlot.historySlot (generation : UInt32) : Nat := generation.toNat % configHistory

def MediaType.index : MediaType → Nat
  | .video => 0
  | .audio => 1

/-- The table of `2 * configTracksPerType` slots; cells past it are never read. -/
structure TrackConfigs where
  tracks : Nat → TrackConfigSlot

namespace TrackConfigs

def new : TrackConfigs := { tracks := fun _ => TrackConfigSlot.new }

def slot (mediaType : MediaType) (trackIndex : Nat) : Option Nat :=
  if trackIndex < configTracksPerType then
    some (mediaType.index * configTracksPerType + trackIndex)
  else none

def generation (c : TrackConfigs) (mediaType : MediaType) (trackIndex : Nat) : UInt32 :=
  match slot mediaType trackIndex with
  | none => 0
  | some i => (c.tracks i).generation

/-- Record `bytes`: the same bytes keep the generation, different bytes start
the next one. Returns the track's generation afterwards. -/
def set (c : TrackConfigs) (mediaType : MediaType) (trackIndex : Nat) (bytes : List UInt8) :
    TrackConfigs × UInt32 :=
  match slot mediaType trackIndex with
  | none => (c, 0)
  | some i =>
    let slot := c.tracks i
    if slot.current.any (fun config => config.bytes == bytes) then (c, slot.generation)
    else
      let next := slot.generation + 1
      let config : TrackConfig := { generation := next, bytes := bytes }
      ({ tracks := Function.update c.tracks i
          { generation := next
            current := some config
            history :=
              Function.update slot.history (TrackConfigSlot.historySlot next) (some config) } },
        next)

def clear (c : TrackConfigs) (mediaType : MediaType) (trackIndex : Nat) : TrackConfigs :=
  match slot mediaType trackIndex with
  | none => c
  | some i =>
    let slot := c.tracks i
    if slot.current.isSome then
      { tracks := Function.update c.tracks i
          { slot with current := none, generation := slot.generation + 1 } }
    else c

def get (c : TrackConfigs) (mediaType : MediaType) (trackIndex : Nat) (generation : UInt32) :
    Option TrackConfig :=
  if generation = 0 then none
  else
    match slot mediaType trackIndex with
    | none => none
    | some i =>
      ((c.tracks i).history (TrackConfigSlot.historySlot generation)).filter
        (fun config => config.generation == generation)

def current (c : TrackConfigs) (mediaType : MediaType) (trackIndex : Nat) : Option TrackConfig :=
  match slot mediaType trackIndex with
  | none => none
  | some i => (c.tracks i).current

def copyFrom (c previous : TrackConfigs) : TrackConfigs :=
  { tracks := fun i =>
      if i < 2 * configTracksPerType then
        { generation := (previous.tracks i).generation
          current := (previous.tracks i).current
          history := fun h =>
            if h < configHistory then (previous.tracks i).history h else (c.tracks i).history h }
      else c.tracks i }

theorem slot_lt {mt : MediaType} (h : slot mt ti = some i) : i < 2 * configTracksPerType := by
  unfold slot at h
  split at h <;> cases h
  · next hlt => cases mt <;> simp only [MediaType.index, configTracksPerType] at hlt ⊢ <;> omega

theorem copyFrom_get (c prev : TrackConfigs) (mt : MediaType) :
    (c.copyFrom prev).get mt ti gen =
      prev.get mt ti gen := by
  unfold get
  split
  · rfl
  · cases hs : slot mt ti with
    | none => rfl
    | some i =>
      have hh : TrackConfigSlot.historySlot gen < configHistory := mod_lt _ (by decide)
      simp [copyFrom, slot_lt hs, hh]

end TrackConfigs

end Restream
