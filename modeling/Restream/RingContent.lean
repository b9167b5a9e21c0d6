import Restream.RingBuffer
import Restream.CyclicSlots

/-! What a ring holds while its producer is anywhere inside a publication.
`log` lists the packets by sequence. Unit words are stored for every sequence
below `units`, packets for every sequence below `stored`, and the ring holds
nothing from below `first`. -/

namespace Restream

open Cyclic RingBuffer FrameUnit

def UnitWord (word : UInt64) : Option Nat → Prop
  | none => word = 0
  | some sequence => ∃ unit : FrameUnit, word = unit.pack sequence

def IsKeyframeAt (log : List MediaPacket) (idx : Nat) : Prop :=
  ∃ packet, log[idx]? = some packet ∧ packet.isVideoKeyframe = true

def IsInterframeAt (log : List MediaPacket) (idx : Nat) : Prop :=
  ∃ packet, log[idx]? = some packet ∧ packet.isVideoInterframe = true

instance (log : List MediaPacket) (idx : Nat) : Decidable (IsInterframeAt log idx) :=
  inferInstanceAs (Decidable (∃ packet ∈ log[idx]?, _))

instance (log : List MediaPacket) (idx : Nat) : Decidable (IsKeyframeAt log idx) :=
  inferInstanceAs (Decidable (∃ packet ∈ log[idx]?, _))

variable {log log' : List MediaPacket} {i : Nat}

theorem getElem?_extend (h : log <+: log') (hp : log[i]? = some p) : log'[i]? = some p := by
  obtain ⟨hlt, rfl⟩ := List.getElem?_eq_some_iff.mp hp
  exact List.prefix_iff_getElem?.mp h i hlt

theorem IsKeyframeAt.mono (h : log <+: log') (hk : IsKeyframeAt log i) : IsKeyframeAt log' i := by
  obtain ⟨p, hp, hkey⟩ := hk
  exact ⟨p, getElem?_extend h hp, hkey⟩

structure RingHolds (r : RingBuffer) (log : List MediaPacket) (first units stored : Nat) : Prop where
  unitWord : ∀ i, UnitWord (r.slots i).unit (holder r.capacity first units i)
  packet : ∀ i, (r.slots i).packet = (holder r.capacity first stored i).bind (log[·]?)
  first_le : first ≤ r.writeIdx
  writeIdx_le : r.writeIdx ≤ stored
  stored_le : stored ≤ units
  units_le : units ≤ r.writeBegin
  writeBegin_le : r.writeBegin ≤ log.length
  keyframe : r.lastKeyframeIdx = usizeMax ∨
    (first ≤ r.lastKeyframeIdx ∧ r.lastKeyframeIdx < stored ∧ IsKeyframeAt log r.lastKeyframeIdx)

/-- The stores still to come take the cursors from where they are to the end of
the log, each at its own place: `begun` and `units` lead `stored` by at most
the packet being written. -/
def Scheduled (log : List MediaPacket) : (writeIdx begun units stored : Nat) → List Store → Prop
  | w, b, u, s, [] => w = log.length ∧ b = log.length ∧ u = log.length ∧ s = log.length
  | w, b, u, s, .writeBegin i :: rest =>
    i = u + 1 ∧ b = u ∧ u = s ∧ u < log.length ∧ Scheduled log w i u s rest
  | w, b, u, s, .unit i word :: rest =>
    i = u ∧ b = u + 1 ∧ u = s ∧ (∃ unit : FrameUnit, word = unit.pack i) ∧
      Scheduled log w b (u + 1) s rest
  | w, b, u, s, .packet i p :: rest =>
    i = s ∧ b = u ∧ u = s + 1 ∧ log[i]? = some p ∧ Scheduled log w b u (s + 1) rest
  | w, b, u, s, .lastKeyframeIdx i :: rest =>
    w ≤ i ∧ i < s ∧ b = u ∧ u = s ∧ IsKeyframeAt log i ∧ Scheduled log w b u s rest
  | _, b, u, s, .writeIdx i :: rest => i = s ∧ b = u ∧ u = s ∧ Scheduled log i b u s rest

theorem unitWord_unpack (hw : UnitWord word o) (hs : s < 2 ^ 31) (ho : ∀ t, o = some t → t < 2 ^ 31) :
    (unpack word s).isSome = true ↔ o = some s := by
  cases o with
  | none =>
    obtain rfl := hw
    simp [unpack_zero]
  | some t =>
    obtain ⟨unit, rfl⟩ := hw
    by_cases hts : t = s
    · simp [hts, unpack_pack_self]
    · rw [unpack_pack, if_neg (by rwa [Nat.mod_eq_of_lt (ho t rfl), Nat.mod_eq_of_lt hs])]
      simp [hts]

namespace RingHolds

variable {r : RingBuffer} {log : List MediaPacket} {first units stored s : Nat}

section

variable (h : RingHolds r log first units stored)

include h

theorem units_le_length : units ≤ log.length :=
  h.units_le.trans h.writeBegin_le

theorem stored_le_length : stored ≤ log.length :=
  h.stored_le.trans h.units_le_length

theorem unpack_unit (hlog : log.length < 2 ^ 31)
    (hs : s < 2 ^ 31) : (unpack (r.slot s).unit s).isSome = true ↔
      first ≤ s ∧ s < units ∧ units ≤ s + r.capacity := by
  have hlen := h.units_le_length
  rw [slot, unitWord_unpack (h.unitWord (s % r.capacity)) hs
    (fun t ht => by have := (holder_eq_some_iff r.capacity_pos).mp ht; omega),
    holder_eq_some_iff r.capacity_pos]
  tauto

theorem slot_packet (hf : first ≤ s) (hs : s < stored)
    (hc : stored ≤ s + r.capacity) : (r.slot s).packet = log[s]? := by
  rw [slot, h.packet, holder_self r.capacity_pos hf hs hc]
  rfl

theorem slot_packet_isSome (hf : first ≤ s)
    (hs : s < stored) : ∃ p, (r.slot s).packet = some p := by
  obtain ⟨t, ht⟩ := exists_holder (c := r.capacity) hf hs
  have hlen := h.stored_le_length
  have hlt := ((holder_eq_some_iff r.capacity_pos).mp ht).2.1
  refine ⟨log[t], ?_⟩
  rw [slot, h.packet, ht, Option.bind_some, List.getElem?_eq_getElem]

end

end RingHolds

theorem RingBuffer.readAt_eq (r : RingBuffer) (s : Nat) : r.readAt s =
    (r.slot s).packet.bind fun p => (unpack (r.slot s).unit s).map fun _ => p := by
  unfold readAt readAtLoads
  rw [Loads.Prog.run_bind, run_packet]
  cases (r.slot s).packet with
  | none | some => rfl

theorem RingBuffer.slot_of_readAt {r : RingBuffer} (h : r.readAt s = some p) :
    (r.slot s).packet = some p ∧ (unpack (r.slot s).unit s).isSome = true := by
  rw [readAt_eq, Option.bind_eq_some_iff] at h
  obtain ⟨q, hq, hmap⟩ := h
  obtain ⟨unit, hunit, rfl⟩ := Option.map_eq_some_iff.mp hmap
  exact ⟨hq, by rw [hunit]; rfl⟩

theorem RingBuffer.fastForward_eq (r : RingBuffer) (w : Nat) : r.fastForward w =
    if r.lastKeyframeIdx ≠ usizeMax ∧ w - r.lastKeyframeIdx < r.capacity then r.lastKeyframeIdx
    else w := rfl

namespace RingHolds

variable {r : RingBuffer} {log : List MediaPacket} {first units stored s : Nat}

section

variable (h : RingHolds r log first units stored)

include h

theorem readAt_of_stored (hlog : log.length < 2 ^ 31)
    (hs : s < stored) :
    r.readAt s = if first ≤ s ∧ units ≤ s + r.capacity then log[s]? else none := by
  have hlen := h.stored_le_length
  have hsu := h.stored_le
  have hun := h.unpack_unit hlog (s := s) (by omega)
  rw [readAt_eq]
  split
  · next hin =>
    rw [h.slot_packet hin.1 hs (by omega)]
    have hso := hun.mpr ⟨hin.1, by omega, hin.2⟩
    obtain ⟨unit, hu⟩ := Option.isSome_iff_exists.mp hso
    simp [hu]
  · have hn : unpack (r.slot s).unit s = none := by
      rw [← Option.not_isSome_iff_eq_none]
      tauto
    simp [hn]

theorem unpack_retained (hf : first ≤ s) (hs : s < units)
    (hu : units ≤ s + r.capacity) : (unpack (r.slot s).unit s).isSome = true := by
  have hun := h.unitWord (s % r.capacity)
  rw [holder_self r.capacity_pos hf hs hu] at hun
  obtain ⟨unit, hw⟩ := hun
  rw [slot, hw, unpack_pack_self]
  rfl

theorem readAt_retained (hf : first ≤ s) (hs : s < stored)
    (hu : units ≤ s + r.capacity) : r.readAt s = log[s]? := by
  have hsu := h.stored_le
  obtain ⟨unit, hun⟩ := Option.isSome_iff_exists.mp (h.unpack_retained hf (hs.trans_le hsu) hu)
  rw [readAt_eq, h.slot_packet hf hs (by omega), hun]
  simp

theorem readAt_some (hlog : log.length < 2 ^ 31) (hs : s < stored) (hp : r.readAt s = some p) :
    log[s]? = some p ∧ units ≤ s + r.capacity := by
  rw [h.readAt_of_stored hlog hs] at hp
  split at hp
  · next hin => exact ⟨hp, hin.2⟩
  · cases hp

theorem readAt_none (hlog : log.length < 2 ^ 31)
    (hf : first ≤ s) (hs : s < stored) (hp : r.readAt s = none) : s + r.capacity < units := by
  rw [h.readAt_of_stored hlog hs] at hp
  split at hp
  · have hlen := h.stored_le_length
    rw [List.getElem?_eq_none_iff] at hp
    omega
  · next hin =>
    by_contra hle
    exact hin ⟨hf, by omega⟩

theorem fastForward_cases (w : Nat) :
    (first ≤ r.fastForward w ∧ r.fastForward w < stored ∧ w < r.fastForward w + r.capacity ∧
      IsKeyframeAt log (r.fastForward w)) ∨ r.fastForward w = w := by
  rw [fastForward_eq]
  split
  · next hk =>
    rcases h.keyframe with hn | ⟨hf, hlt, hkey⟩
    · exact absurd hn hk.1
    · exact .inl ⟨hf, hlt, by omega, hkey⟩
  · exact .inr rfl

theorem log_append (ps : List MediaPacket) : RingHolds r (log ++ ps) first units stored where
  __ := h
  packet i := by
    rw [h.packet i]
    refine Option.bind_congr fun t ht => ?_
    have hlen := h.stored_le_length
    have hlt := (holder_eq_some_iff r.capacity_pos).mp ht
    rw [List.getElem?_append_left (by omega)]
  writeBegin_le := by
    rw [List.length_append]
    exact h.writeBegin_le.trans (Nat.le_add_right _ _)
  keyframe := by
    refine h.keyframe.imp_right fun ⟨hf, hlt, p, hp, hk⟩ => ⟨hf, hlt, p, ?_, hk⟩
    have hlen := h.stored_le_length
    rw [List.getElem?_append_left (by omega), hp]

end

end RingHolds

end Restream
