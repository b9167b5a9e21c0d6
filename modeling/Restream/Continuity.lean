import Mathlib.Order.Nat
import Mathlib.Data.Int.Order.Basic
import Mathlib.Data.List.Forall2
import Restream.InputGate
import Restream.OrderedMap

/-! Timestamp continuity across the passes of a source: after a discontinuity the packets
are shifted so that every stream's timestamps keep increasing. The arithmetic is given the
way in which it saturates, so that it can be compared with exact arithmetic. -/

namespace Restream.Publisher

open List Option

structure ContinuousTimestampState where
  offsetMs : Int
  lastTimestampMsByStream : OrderedMap Nat Int
  rebasePending : Bool
  pendingGeneration : Option Nat
  generation : Nat
  lastRawMs : Option Int
  deriving DecidableEq

def streamKey (p : MediaPacket) : Nat :=
  let mediaType := match p.mediaType with
    | .video => 0
    | .audio => 1
  (mediaType <<< 32) ||| p.trackIndex

def continuityTimestampMs (p : MediaPacket) : Int := if 0 ≤ p.dts then p.dts else p.pts

namespace ContinuousTimestampState

def default : ContinuousTimestampState :=
  { offsetMs := 0, lastTimestampMsByStream := .empty, rebasePending := false,
    pendingGeneration := none
    generation := 0, lastRawMs := none }

def joining : ContinuousTimestampState := { default with rebasePending := true }

def latestMs (s : ContinuousTimestampState) : Option Int := s.lastTimestampMsByStream.values.max?

def rebaseTo (s : ContinuousTimestampState) (offsetMs : Int) : ContinuousTimestampState :=
  { s with
    rebasePending := false
    offsetMs := offsetMs
    pendingGeneration := none
    generation := (s.pendingGeneration.map (max s.generation)).getD s.generation }

def markClockDiscontinuity (s : ContinuousTimestampState) : ContinuousTimestampState :=
  if s.rebasePending then s else { s with rebasePending := true }

def markTimelineBreak (s : ContinuousTimestampState) (generation : Nat) : ContinuousTimestampState :=
  { s with rebasePending := true, pendingGeneration := some generation }

def reanchored (clamp : Int → Int) (s : ContinuousTimestampState) (rawMs : Int) :
    ContinuousTimestampState :=
  if s.rebasePending then
    s.rebaseTo ((s.latestMs.map fun latestMs => clamp (clamp (latestMs + 1) - rawMs)).getD s.offsetMs)
  else s

def advanced (clamp : Int → Int) (s : ContinuousTimestampState) (key : Nat) (rawMs : Int) :
    ContinuousTimestampState :=
  match s.lastTimestampMsByStream.get? key with
  | none => s
  | some lastMs =>
    if clamp (rawMs + s.offsetMs) ≤ lastMs then
      { s with offsetMs := clamp (clamp (lastMs + 1) - rawMs) } else s

def apply (clamp : Int → Int) (s : ContinuousTimestampState) (p : MediaPacket) :
    ContinuousTimestampState × MediaPacket :=
  let key := streamKey p
  let rawMs := continuityTimestampMs p
  let s := (s.reanchored clamp rawMs).advanced clamp key rawMs
  let p := { p with pts := clamp (p.pts + s.offsetMs), dts := clamp (p.dts + s.offsetMs) }
  let adjustedMs := continuityTimestampMs p
  let lastMs :=
    ((s.lastTimestampMsByStream.get? key).map
      fun currentMs => max currentMs adjustedMs).getD adjustedMs
  ({ s with lastRawMs := some rawMs, lastTimestampMsByStream := s.lastTimestampMsByStream.insert key lastMs }, p)

def applyAll (clamp : Int → Int) : ContinuousTimestampState → List MediaPacket →
    ContinuousTimestampState × List MediaPacket
  | s, [] => (s, [])
  | s, p :: ps =>
    let applied := s.apply clamp p
    let rest := applyAll clamp applied.1 ps
    (rest.1, applied.2 :: rest.2)

def last? (s : ContinuousTimestampState) (key : Nat) : Option Int :=
  s.lastTimestampMsByStream.get? key

end ContinuousTimestampState

/-- The packet with both its timestamps moved alike. -/
def Shifted (p q : MediaPacket) : Prop := ∃ δ, q = { p with pts := p.pts + δ, dts := p.dts + δ }

theorem Shifted.streamKey_eq (h : Shifted p q) : streamKey q = streamKey p := by
  obtain ⟨δ, rfl⟩ := h
  rfl

def Ordered (s : ContinuousTimestampState) (packets : List MediaPacket) : Prop :=
  ∀ key lastMs, s.last? key = some lastMs →
    (packets.filter fun p => streamKey p = key).Pairwise (fun p q => p.dts < q.dts) ∧
      ∀ p ∈ packets, streamKey p = key → p.dts ≤ lastMs

namespace ContinuousTimestampState

variable {s : ContinuousTimestampState}

@[simp] theorem last?_markClockDiscontinuity : s.markClockDiscontinuity.last? = s.last? := by
  unfold markClockDiscontinuity
  split <;> rfl

theorem last?_advanced (clamp : Int → Int) (s : ContinuousTimestampState) (key : Nat) (rawMs : Int) :
    ((s.reanchored clamp rawMs).advanced clamp key rawMs).last? = s.last? := by
  have hr : (s.reanchored clamp rawMs).last? = s.last? := by
    unfold reanchored
    split <;> rfl
  unfold advanced
  split
  · exact hr
  · split <;> exact hr

theorem lt_advanced (s : ContinuousTimestampState) (rawMs : Int) (hl : s.last? key = some lastMs) :
    lastMs < rawMs + ((s.reanchored id rawMs).advanced id key rawMs).offsetMs := by
  have hk : (s.reanchored id rawMs).lastTimestampMsByStream.get? key = some lastMs := by
    rw [← hl]
    unfold reanchored
    split <;> rfl
  unfold advanced
  rw [hk]
  dsimp only [id]
  split
  · dsimp only
    omega
  · omega

theorem apply_spec (hdts : 0 ≤ p.dts) (hpts : p.dts ≤ p.pts) : Shifted p (s.apply id p).2 ∧
    (∀ lastMs, s.last? (streamKey p) = some lastMs → lastMs < (s.apply id p).2.dts) ∧
    (∃ lastMs, (s.apply id p).1.last? (streamKey p) = some lastMs ∧ (s.apply id p).2.dts ≤ lastMs ∧
      ∀ earlierMs, s.last? (streamKey p) = some earlierMs → earlierMs ≤ lastMs) ∧
    ∀ key, key ≠ streamKey p → (s.apply id p).1.last? key = s.last? key := by
  have hraw : continuityTimestampMs p = p.dts := if_pos hdts
  have hk := last?_advanced id s (streamKey p) p.dts
  unfold apply
  simp only [hraw, id]
  refine ⟨⟨_, rfl⟩, fun lastMs hl => ?_, ?_, fun key hkey => ?_⟩
  · exact lt_advanced s p.dts hl
  · refine ⟨_, OrderedMap.get?_insert_self, ?_, fun earlierMs he => ?_⟩
    · cases (((s.reanchored id p.dts).advanced id (streamKey p) p.dts).lastTimestampMsByStream.get?
        (streamKey p)) with
      | none =>
        simp only [map_none, getD_none]
        unfold continuityTimestampMs
        split
        · exact le_refl _
        · dsimp only
          omega
      | some currentMs =>
        simp only [map_some, getD_some]
        unfold continuityTimestampMs
        split
        · exact le_max_right _ _
        · dsimp only
          omega
    · have hkn : ((s.reanchored id p.dts).advanced id
        (streamKey p) p.dts).lastTimestampMsByStream.get?
          (streamKey p) = some earlierMs := by
        rw [← he]
        exact congrFun hk (streamKey p)
      rw [hkn]
      exact le_max_left _ _
  · unfold last?
    rw [OrderedMap.get?_insert_of_ne hkey]
    exact congrFun hk key

end ContinuousTimestampState

section

open ContinuousTimestampState

theorem Ordered.apply (h : Ordered s pkts) (hdts : 0 ≤ p.dts) (hpts : p.dts ≤ p.pts)
    (hnew : s.last? (streamKey p) = none → ∀ q ∈ pkts, streamKey q ≠ streamKey p) :
    Ordered (s.apply id p).1 (pkts ++ [(s.apply id p).2]) := by
  obtain ⟨hsh, ha, ⟨lastMs, hl, hbe, hg⟩, hot⟩ := apply_spec (s := s) hdts hpts
  have hkey := hsh.streamKey_eq
  intro key keyMs hk
  by_cases hsa : key = streamKey p
  · subst hsa
    obtain rfl := Option.some.inj (hl.symm.trans hk)
    rw [filter_append, filter_cons_of_pos (by simp [hkey])]
    have hold : (pkts.filter fun q => streamKey q = streamKey p).Pairwise (fun q r => q.dts < r.dts) ∧
        ∀ q ∈ pkts, streamKey q = streamKey p → q.dts < (s.apply id p).2.dts ∧ q.dts ≤ lastMs := by
      cases hb : s.last? (streamKey p) with
      | none =>
        have hn : (pkts.filter fun q => streamKey q = streamKey p) = [] :=
          filter_eq_nil_iff.mpr fun q hq => by simp [hnew hb q hq]
        exact ⟨hn ▸ .nil, fun q hq hqk => (hnew hb q hq hqk).elim⟩
      | some earlierMs =>
        obtain ⟨hs, hle⟩ := h _ _ hb
        have hlt := ha earlierMs hb
        exact ⟨hs,
          fun q hq hqk => ⟨by have := hle q hq hqk; omega, (hle q hq hqk).trans (hg earlierMs hb)⟩⟩
    refine ⟨pairwise_append.mpr ⟨hold.1, pairwise_singleton _ _, fun q hq r hr => ?_⟩,
      fun q hq hqk => ?_⟩
    · obtain rfl := mem_singleton.mp hr
      obtain ⟨hmem, hqk⟩ := mem_filter.mp hq
      exact (hold.2 q hmem (of_decide_eq_true hqk)).1
    · rcases mem_append.mp hq with hq | hq
      · exact (hold.2 q hq hqk).2
      · obtain rfl := mem_singleton.mp hq
        exact hbe
  · rw [hot key hsa] at hk
    obtain ⟨hs, hle⟩ := h key keyMs hk
    have ho : streamKey (s.apply id p).2 ≠ key := by
      exact Ne.symm hsa
    rw [filter_append, filter_cons_of_neg (by simp [ho]), filter_nil, append_nil]
    refine ⟨hs, fun q hq hqk => ?_⟩
    rcases mem_append.mp hq with hq | hq
    · exact hle q hq hqk
    · obtain rfl := mem_singleton.mp hq
      exact (ho hqk).elim

theorem applyAll_spec (h : Ordered s pkts) (hps : ∀ p ∈ ps, 0 ≤ p.dts ∧ p.dts ≤ p.pts)
    (hnew : ∀ p ∈ ps, s.last? (streamKey p) = none → ∀ q ∈ pkts, streamKey q ≠ streamKey p) :
    Ordered (s.applyAll id ps).1 (pkts ++ (s.applyAll id ps).2) ∧
    List.Forall₂ Shifted ps (s.applyAll id ps).2 ∧
    ∀ key, (s.applyAll id ps).1.last? key = none ↔ s.last? key = none ∧
      ∀ p ∈ ps, streamKey p ≠ key := by
  induction ps generalizing s pkts with
  | nil =>
    rw [applyAll, append_nil]
    exact ⟨h, .nil, fun key => by simp⟩
  | cons p ps ih =>
    obtain ⟨⟨hdts, hpts⟩, hps⟩ := forall_mem_cons.mp hps
    obtain ⟨hnewp, hn⟩ := forall_mem_cons.mp hnew
    obtain ⟨hs, -, ⟨lastMs, hl, -⟩, hot⟩ := apply_spec (s := s) hdts hpts
    have hk (key : Nat) : (s.apply id p).1.last? key = none ↔
        s.last? key = none ∧ streamKey p ≠ key := by
      by_cases hkey : key = streamKey p
      · subst hkey
        simp [hl]
      · rw [hot key hkey]
        simp [Ne.symm hkey]
    have hnex : ∀ q ∈ ps, (s.apply id p).1.last? (streamKey q) = none →
        ∀ r ∈ pkts ++ [(s.apply id p).2], streamKey r ≠ streamKey q := by
      intro q hq hno r hr
      obtain ⟨hb, hne⟩ := (hk _).mp hno
      rcases mem_append.mp hr with hr | hr
      · exact hn q hq hb r hr
      · obtain rfl := mem_singleton.mp hr
        exact hne
    obtain ⟨ho, hall, hke⟩ := ih (h.apply hdts hpts hnewp) hps hnex
    rw [append_assoc] at ho
    rw [applyAll]
    refine ⟨ho, .cons hs hall, fun key => ?_⟩
    rw [hke, hk, forall_mem_cons, and_assoc]

end

end Restream.Publisher
