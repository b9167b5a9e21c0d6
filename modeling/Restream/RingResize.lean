import Restream.ReaderAgreement

/-! Growing a ring. The new ring continues the old ring's sequences, takes over
the part of its log that can still be read with unit words and configurations,
and the old ring is sealed with a link to it. -/

namespace Restream

open Cyclic RingBuffer

namespace RingBuffer

def newContinuing (capacity : Nat) (h : 0 < capacity) (startWriteIdx : Nat) : RingBuffer :=
  { new capacity h with writeIdx := startWriteIdx, writeBegin := startWriteIdx }

/-- The loop of `seedReadableTailFrom`, `n` sequences before the old write
index, with the ring, the number of packets copied and the last keyframe. -/
def seedLoop (old : RingBuffer) : (n idx : Nat) → RingBuffer → (copied lastKeyframeIdx : Nat) →
    RingBuffer × Nat × Nat
  | 0, _, ring, copied, lastKeyframeIdx => (ring, copied, lastKeyframeIdx)
  | n + 1, idx, ring, copied, lastKeyframeIdx =>
    match old.readAt idx with
    | none => seedLoop old n (idx + 1) ring copied lastKeyframeIdx
    | some packet =>
      seedLoop old n (idx + 1)
        (ring.setSlot idx { packet := some packet, unit := (old.slot idx).unit })
        (copied + 1) (if packet.isVideoKeyframe then idx else lastKeyframeIdx)

def seedStart (ring old : RingBuffer) : Nat :=
  old.writeIdx - min (ring.capacity - 1) (old.capacity - 1)

def seedReadableTailFrom (ring old : RingBuffer) : RingBuffer × Nat :=
  let startIdx := ring.seedStart old
  let begun := { ring with writeBegin := old.writeIdx }
  let (seeded, copied, lastKeyframeIdx) :=
    seedLoop old (old.writeIdx - startIdx) startIdx begun 0 usizeMax
  ({ seeded with
      lastKeyframeIdx :=
        if lastKeyframeIdx ≠ usizeMax then lastKeyframeIdx else seeded.lastKeyframeIdx
      trackConfigs := seeded.trackConfigs.copyFrom old.trackConfigs
      writeIdx := old.writeIdx },
    copied)

def sealAndForward (r : RingBuffer) (newRing : RingId) : RingBuffer := { r with next := some newRing }

def markEndOfStream (r : RingBuffer) : RingBuffer := { r with endOfStream := true }

def resized (old : RingBuffer) (capacity : Nat) (h : 0 < capacity) : RingBuffer :=
  ((newContinuing capacity h old.writeIdx).seedReadableTailFrom old).1

theorem eq_slot_of_readAt {r : RingBuffer} (h : r.readAt s = some p) :
    ({ packet := some p, unit := (r.slot s).unit } : RingSlot) = r.slot s := by
  rw [← (slot_of_readAt h).1]

theorem seedLoop_frame (old : RingBuffer) (n idx : Nat) (ring : RingBuffer) (copied last : Nat) :
    (seedLoop old n idx ring copied last).1.capacity = ring.capacity ∧
    (seedLoop old n idx ring copied last).1.writeBegin = ring.writeBegin ∧
    (seedLoop old n idx ring copied last).1.lastKeyframeIdx = ring.lastKeyframeIdx ∧
    (seedLoop old n idx ring copied last).1.trackConfigs = ring.trackConfigs ∧
    (seedLoop old n idx ring copied last).1.next = ring.next := by
  induction n generalizing idx ring copied last with
  | zero => exact ⟨rfl, rfl, rfl, rfl, rfl⟩
  | succ n ih =>
    rw [seedLoop]
    split <;> exact ih _ _ _ _

/-- The copy of the readable slots of `start..idx` out of `old`: each is in its
place, every other slot is empty, and `last` is the last keyframe among them. -/
structure Seeded (old ring : RingBuffer) (start idx last : Nat) : Prop where
  slots : ∀ i, (∃ s, start ≤ s ∧ s < idx ∧ (old.readAt s).isSome = true ∧ s % ring.capacity = i ∧
      ring.slots i = old.slot s) ∨
    (ring.slots i = RingSlot.new ∧
      ∀ s, start ≤ s → s < idx → (old.readAt s).isSome = true → s % ring.capacity ≠ i)
  keyframe : last = usizeMax ∨ (start ≤ last ∧ last < idx ∧
    ∃ packet, old.readAt last = some packet ∧ packet.isVideoKeyframe = true)

variable {old ring : RingBuffer}

theorem Seeded.skip (h : Seeded old ring start idx last) (hn : old.readAt idx = none) :
    Seeded old ring start (idx + 1) last where
  slots i := by
    refine (h.slots i).imp ?_ ?_
    · rintro ⟨s, hs, hlt, hre⟩
      exact ⟨s, hs, Nat.lt_succ_of_lt hlt, hre⟩
    · rintro ⟨hnew, hno⟩
      refine ⟨hnew, fun s hs hlt hr => ?_⟩
      rcases Nat.lt_succ_iff_lt_or_eq.mp hlt with hlt | rfl
      · exact hno s hs hlt hr
      · rw [hn] at hr
        cases hr
  keyframe := h.keyframe.imp_right fun ⟨hs, hlt, hk⟩ => ⟨hs, Nat.lt_succ_of_lt hlt, hk⟩

theorem Seeded.copy (h : Seeded old ring start idx last) (hr : old.readAt idx = some p)
    (hs : start ≤ idx) (hfit : idx < start + ring.capacity) :
    Seeded old (ring.setSlot idx { packet := some p, unit := (old.slot idx).unit }) start
      (idx + 1) (if p.isVideoKeyframe then idx else last) where
  slots i := by
    rw [setSlot_slots, eq_slot_of_readAt hr]
    split
    · next hi => exact .inl ⟨idx, hs, Nat.lt_succ_self idx, by rw [hr]; rfl, hi.symm, rfl⟩
    · next hi =>
      refine (h.slots i).imp ?_ ?_
      · rintro ⟨s, hge, hlt, hre⟩
        exact ⟨s, hge, Nat.lt_succ_of_lt hlt, hre⟩
      · rintro ⟨hnew, hno⟩
        refine ⟨hnew, fun s hge hlt hso hmod => ?_⟩
        rcases Nat.lt_succ_iff_lt_or_eq.mp hlt with hlt | rfl
        · exact hno s hge hlt hso hmod
        · exact hi hmod.symm
  keyframe := by
    split
    · next hk => exact .inr ⟨hs, Nat.lt_succ_self idx, p, hr, hk⟩
    · exact h.keyframe.imp_right fun ⟨hge, hlt, hk⟩ => ⟨hge, Nat.lt_succ_of_lt hlt, hk⟩

theorem Seeded.seedLoop (n : Nat) (copied : Nat) (h : Seeded old ring start idx last)
    (hs : start ≤ idx)
    (hfit : idx + n ≤ start + ring.capacity) :
    Seeded old (seedLoop old n idx ring copied last).1 start (idx + n)
      (seedLoop old n idx ring copied last).2.2 := by
  induction n generalizing idx ring copied last with
  | zero => exact h
  | succ n ih =>
    rw [seedLoop, show idx + (n + 1) = idx + 1 + n by omega]
    split
    · next hn => exact ih copied (h.skip hn) (by omega) (by omega)
    · next p hr =>
      have hc := h.copy hr hs (by omega)
      exact ih (copied + 1) hc (by omega) (by change _ ≤ start + ring.capacity; omega)

section Resized

theorem resized_frame (old : RingBuffer) (hcap : 0 < cap) : (old.resized cap hcap).capacity = cap ∧
    (old.resized cap hcap).writeIdx = old.writeIdx ∧
    (old.resized cap hcap).writeBegin = old.writeIdx ∧
    (old.resized cap hcap).trackConfigs = TrackConfigs.new.copyFrom old.trackConfigs ∧
    (old.resized cap hcap).next = none := by
  obtain ⟨hc, hb, -, hco, hn⟩ := seedLoop_frame old
    (old.writeIdx - (newContinuing cap hcap old.writeIdx).seedStart old)
    ((newContinuing cap hcap old.writeIdx).seedStart old)
    (newContinuing cap hcap old.writeIdx) 0 usizeMax
  exact ⟨hc, rfl, hb, congrArg (·.copyFrom old.trackConfigs) hco, hn⟩

variable {old : RingBuffer} {cap : Nat} (hcap : 0 < cap)

def tailStart (old : RingBuffer) : Nat := old.writeIdx - (old.capacity - 1)

variable (hg : old.capacity < cap)
include hg

theorem seedStart_eq_tailStart :
    (newContinuing cap hcap old.writeIdx).seedStart old = old.tailStart := by
  change old.writeIdx - min (cap - 1) (old.capacity - 1) = _
  rw [Nat.min_eq_right (by omega), tailStart]

theorem resized_seeded : Seeded old (old.resized cap hcap) old.tailStart old.writeIdx
      (old.resized cap hcap).lastKeyframeIdx := by
  have hst := seedStart_eq_tailStart hcap hg
  have he : Seeded old { newContinuing cap hcap old.writeIdx with writeBegin := old.writeIdx }
      old.tailStart old.tailStart usizeMax :=
    ⟨fun i => .inr ⟨rfl, fun s hs hlt => by omega⟩, .inl rfl⟩
  have hfit : old.tailStart + (old.writeIdx - old.tailStart) ≤ old.tailStart + cap := by
    unfold tailStart
    omega
  have hl := he.seedLoop (old.writeIdx - old.tailStart) 0 le_rfl hfit
  rw [show old.tailStart + (old.writeIdx - old.tailStart) =
    old.writeIdx by unfold tailStart; omega] at hl
  refine ⟨?_, ?_⟩
  · have hsl := hl.slots
    rw [← hst] at hsl ⊢
    exact hsl
  · have hkey := hl.keyframe
    rw [← hst] at hkey ⊢
    unfold resized seedReadableTailFrom
    simp only
    split
    · exact hkey
    · exact .inl (seedLoop_frame old _ _ _ _ _).2.2.1

variable (hs : old.tailStart ≤ s) (hlt : s < old.writeIdx) (hr : (old.readAt s).isSome = true)
include hs hlt hr

theorem resized_slot : (old.resized cap hcap).slot s = old.slot s := by
  have hf := (resized_frame old hcap).1
  unfold tailStart at hs
  rcases (resized_seeded hcap hg).slots (s % (old.resized cap hcap).capacity) with
    ⟨t, ht, htw, -, hmod, hsl⟩ | ⟨-, hno⟩
  · unfold tailStart at ht
    have hts : t = s := by
      rcases Nat.le_total t s with hle | hle
      · exact eq_of_mod_eq hmod hle (by omega)
      · exact (eq_of_mod_eq hmod.symm hle (by omega)).symm
    rw [slot, hsl, hts]
  · exact absurd rfl (hno s hs hlt hr)

theorem resized_lookups : (old.resized cap hcap).frameUnit s = old.frameUnit s ∧
    ∀ mt ti, (old.resized cap hcap).trackConfigAt s mt ti =
      old.trackConfigAt s mt ti := by
  obtain ⟨hc, hw, -, hco, -⟩ := resized_frame old hcap
  have hu : (old.resized cap hcap).frameUnit s = old.frameUnit s := by
    unfold tailStart at hs
    rw [frameUnit, frameUnit, resized_slot hcap hg hs hlt hr, if_neg (by omega), if_neg (by omega)]
  refine ⟨hu, fun mt ti => ?_⟩
  simp only [trackConfigAt, hu, hco, TrackConfigs.copyFrom_get]

end Resized

end RingBuffer

theorem RingQuiet.readAt_tail (h : RingQuiet r log first)
    (hs : r.tailStart ≤ s) (hlt : s < log.length) :
    r.readAt s = if first ≤ s then log[s]? else none := by
  have hw := h.writeIdx
  have hpos := r.capacity_pos
  unfold tailStart at hs
  split
  · next hf => exact h.readAt hf hlt (by omega)
  · have he : holder r.capacity first log.length (s % r.capacity) = none := by
      rw [Option.eq_none_iff_forall_ne_some]
      intro t ht
      obtain ⟨hft, htl, hmod, -⟩ := (holder_eq_some_iff hpos).mp ht
      have hts := eq_of_mod_eq hmod.symm (by omega) (by omega)
      omega
    have hwo := h.holds.unitWord (s % r.capacity)
    rw [he] at hwo
    have hz : (r.slot s).unit = 0 := hwo
    simp [readAt_eq, hz, FrameUnit.unpack_zero]

theorem RingQuiet.resized (h : RingQuiet old log first) (hcap : 0 < cap) (hg : old.capacity < cap) :
    RingQuiet (old.resized cap hcap) log (max first old.tailStart) := by
  obtain ⟨hc, hw, hb, -, -⟩ := resized_frame old hcap
  have hse := resized_seeded hcap hg
  have hwl := h.writeIdx
  have hfi := h.holds.first_le
  have hst : old.tailStart ≤ log.length := by
    unfold tailStart
    omega
  have hr {s : Nat} (hs : old.tailStart ≤ s) (hlt : s < log.length) :
      (old.readAt s).isSome = true ↔ first ≤ s := by
    rw [h.readAt_tail hs hlt]
    split
    · next hf => simp [hf, hlt]
    · next hf => simp [hf]
  have hhe (i : Nat) : (old.resized cap hcap).slots i =
      (holder cap (max first old.tailStart) log.length i).elim RingSlot.new old.slot := by
    rcases hse.slots i with ⟨s, hs, hlt, hso, hmod, hsl⟩ | ⟨hnew, hno⟩
    · rw [hc] at hmod
      have hfs := (hr hs (by omega)).mp hso
      have ht := hs
      unfold tailStart at ht
      rw [hsl, ← hmod, holder_self hcap (max_le hfs hs) (by omega) (by omega)]
      rfl
    · cases hh : holder cap (max first old.tailStart) log.length i with
      | none => exact hnew
      | some s =>
        obtain ⟨hfs, hlt, hmod, -⟩ := (holder_eq_some_iff hcap).mp hh
        rw [max_le_iff] at hfs
        exact absurd (hc.symm ▸ hmod) (hno s hfs.2 (by omega) ((hr hfs.2 hlt).mpr hfs.1))
  have hsl {s : Nat} (hfs : max first old.tailStart ≤ s) (hlt : s < log.length) :
      (old.slot s).packet = log[s]? ∧ ∃ unit : FrameUnit, (old.slot s).unit = unit.pack s := by
    rw [max_le_iff] at hfs
    have hpos := old.capacity_pos
    have ht := hfs.2
    unfold tailStart at ht
    refine ⟨h.holds.slot_packet hfs.1 hlt (by omega), ?_⟩
    have hwo := h.holds.unitWord (s % old.capacity)
    rwa [holder_self hpos hfs.1 hlt (by omega)] at hwo
  refine ⟨⟨fun i => ?_, fun i => ?_, ?_, ?_, le_rfl, ?_, ?_, ?_⟩, hw.trans hwl, hb.trans hwl⟩
  · rw [hhe i, hc]
    cases hh : holder cap (max first old.tailStart) log.length i with
    | none => rfl
    | some s =>
      obtain ⟨hfs, hlt, -, -⟩ := (holder_eq_some_iff hcap).mp hh
      exact (hsl hfs hlt).2
  · rw [hhe i, hc]
    cases hh : holder cap (max first old.tailStart) log.length i with
    | none => rfl
    | some s =>
      obtain ⟨hfs, hlt, -, -⟩ := (holder_eq_some_iff hcap).mp hh
      exact (hsl hfs hlt).1
  · omega
  · omega
  · omega
  · omega
  · refine hse.keyframe.imp_right fun ⟨hs, hlt, p, hp, hk⟩ => ?_
    have hlog := h.readAt_tail hs (by omega)
    rw [hp] at hlog
    split at hlog
    · next hf => exact ⟨max_le hf hs, by omega, p, hlog.symm, hk⟩
    · cases hlog

end Restream
