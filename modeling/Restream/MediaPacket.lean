import Mathlib.Algebra.GroupWithZero.Nat
import Mathlib.Algebra.Group.Int.Defs
import Mathlib.Data.List.Basic

/-! The packet envelope carried by every ring, and what a reader that resumes mid-stream
lets through. While it waits for a video keyframe it drops video interframes and passes
everything else, and the first keyframe ends the wait. -/

namespace Restream

inductive MediaType where
  | video
  | audio
  deriving DecidableEq, Repr

inductive PayloadFormat where
  | flv
  | raw
  deriving DecidableEq, Repr

structure MediaPacket where
  mediaType : MediaType
  format : PayloadFormat
  isKeyframe : Bool
  trackIndex : Nat
  pts : Int
  dts : Int
  payload : List UInt8
  deriving DecidableEq, Repr

namespace MediaPacket

def raw (mediaType : MediaType) (isKeyframe : Bool) (dts : Int) : MediaPacket :=
  { mediaType := mediaType
    format := .raw
    isKeyframe := isKeyframe
    trackIndex := 0
    pts := dts
    dts := dts
    payload := [] }

def isVideoKeyframe (p : MediaPacket) : Bool :=
  p.mediaType == .video && p.isKeyframe

/-- A video frame that decodes only against earlier frames. An FLV sequence
header carries frame type 1, so it is not one although it is no keyframe. -/
def isVideoInterframe (p : MediaPacket) : Bool :=
  if p.mediaType != .video || p.isKeyframe then false
  else
    match p.format with
    | .flv =>
      match p.payload.head? with
      | some tag => (tag >>> 4) &&& 0x07 == 2 || (tag >>> 4) &&& 0x07 == 3
      | none => false
    | .raw => true

theorem isVideoKeyframe_iff (p : MediaPacket) :
    p.isVideoKeyframe = true ↔ p.mediaType = .video ∧ p.isKeyframe = true := by
  simp [isVideoKeyframe]

theorem isVideoInterframe_video {p : MediaPacket} (h : p.isVideoInterframe = true) :
    p.mediaType = .video ∧ p.isKeyframe = false := by
  by_cases hm : p.mediaType = .video <;>
    simp_all [isVideoInterframe]

theorem isVideoInterframe_of_keyframe {p : MediaPacket} (h : p.isVideoKeyframe = true) :
    p.isVideoInterframe = false := by
  have hk := (isVideoKeyframe_iff p).mp h
  simp [isVideoInterframe, hk.2]

end MediaPacket

open List

def passed : Bool → List MediaPacket → List MediaPacket
  | _, [] => []
  | awaiting, p :: ps =>
    if awaiting && p.isVideoInterframe then passed awaiting ps
    else p :: passed (awaiting && !p.isVideoKeyframe) ps

def awaitingAfter (awaiting : Bool) (packets : List MediaPacket) : Bool :=
  awaiting && !packets.any MediaPacket.isVideoKeyframe

theorem awaitingAfter_cons :
    awaitingAfter aw (p :: ps) = awaitingAfter (aw && !p.isVideoKeyframe) ps := by
  simp [awaitingAfter, Bool.and_assoc]

theorem awaitingAfter_append :
    awaitingAfter aw (xs ++ ys) = awaitingAfter (awaitingAfter aw xs) ys := by
  simp [awaitingAfter, Bool.and_assoc]

theorem awaitingAfter_nil (aw : Bool) : awaitingAfter aw [] = aw := by
  simp [awaitingAfter]

theorem awaitingAfter_false : awaitingAfter false ps = false := rfl

open MediaPacket

theorem awaitingAfter_interframes (aw : Bool) (h : ∀ p ∈ ps, p.isVideoInterframe = true) :
    awaitingAfter aw ps = aw := by
  have hany : ps.any isVideoKeyframe = false := by
    rw [any_eq_false]
    intro p hp hk
    have hi := h p hp
    rw [isVideoInterframe_of_keyframe hk] at hi
    cases hi
  simp [awaitingAfter, hany]

theorem passed_append :
    passed aw (xs ++ ys) = passed aw xs ++ passed (awaitingAfter aw xs) ys := by
  induction xs generalizing aw with
  | nil => simp [passed, awaitingAfter_nil]
  | cons x xs ih =>
    rw [cons_append, passed, passed]
    split
    · next hs =>
      simp only [Bool.and_eq_true] at hs
      have hk : x.isVideoKeyframe = false := by
        by_contra hk
        have hi := isVideoInterframe_of_keyframe (Bool.not_eq_false _ ▸ hk)
        rw [hi] at hs
        cases hs.2
      rw [ih, awaitingAfter_cons, hk, Bool.not_false, Bool.and_true]
    · rw [ih, cons_append, awaitingAfter_cons]

theorem passed_false (ps : List MediaPacket) : passed false ps = ps := by
  induction ps with
  | nil => rfl
  | cons p ps ih => simp [passed, ih]

theorem passed_interframes (h : ∀ p ∈ ps, p.isVideoInterframe = true) : passed true ps = [] := by
  induction ps with
  | nil => rfl
  | cons p ps ih =>
    rw [forall_mem_cons] at h
    simp [passed, h.1, ih h.2]

theorem passed_before_keyframe (h : passed true ps = xs ++ ys)
    (hx : ∀ p ∈ xs, p.isVideoKeyframe = false) : ∀ p ∈ xs, p.isVideoInterframe = false := by
  induction ps generalizing xs with
  | nil =>
    obtain ⟨rfl, -⟩ := append_eq_nil_iff.mp h.symm
    simp
  | cons q ps ih =>
    rw [passed] at h
    split at h
    · exact ih h hx
    · next hs =>
      cases xs with
      | nil => simp
      | cons x xs =>
        rw [cons_append, List.cons.injEq] at h
        obtain ⟨rfl, hr⟩ := h
        rw [forall_mem_cons] at hx ⊢
        rw [hx.1] at hr
        exact ⟨by simpa using hs, ih hr hx.2⟩

end Restream
