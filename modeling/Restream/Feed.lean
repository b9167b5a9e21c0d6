import Restream.RingBuffer
import Restream.MediaPacket

/-! The egress feed over a ring: `readRing` and the cursor a leaf resumes from
after an overrun, load by load. Units are made from packets by `unit`. -/

namespace Restream

open List RingProg

structure FeedCursor where
  epoch : Nat
  nextSequence : Nat
  awaitingKeyframe : Bool
  deriving DecidableEq, Repr

def FeedCursor.new (epoch nextSequence : Nat) : FeedCursor :=
  { epoch := epoch, nextSequence := nextSequence, awaitingKeyframe := false }

def FeedCursor.awaitingKeyframeAt (epoch nextSequence : Nat) : FeedCursor :=
  { new epoch nextSequence with awaitingKeyframe := true }

structure ReadBudget where
  maxUnits : Nat
  maxBytes : Nat
  deriving DecidableEq, Repr

/-- The outcome of a read; its units are in the caller's vector. -/
inductive FeedRead where
  | units (nextCursor : FeedCursor)
  | empty
  | overrun (oldestSequence : Nat)
  | epochMismatch (currentEpoch : Nat)
  deriving DecidableEq, Repr

structure ReadState (U : Type) where
  next : FeedCursor
  totalBytes : Nat
  units : List U

/-- How a loop of `readRing` ends: at a slot it could not read, or not. -/
inductive LoopEnd (U : Type) where
  | lost (state : ReadState U)
  | ends (state : ReadState U)

namespace ReadState

variable {U : Type}

def within (state : ReadState U) (budget : ReadBudget) : Bool :=
  decide (state.units.length < budget.maxUnits ∧ state.totalBytes < budget.maxBytes)

def skip (state : ReadState U) : ReadState U :=
  { state with next := { state.next with nextSequence := state.next.nextSequence + 1 } }

def take (state : ReadState U) (unit : MediaPacket → U) (packet : MediaPacket) : ReadState U :=
  { next := { state.next with nextSequence := state.next.nextSequence + 1 }
    totalBytes := state.totalBytes + packet.payload.length
    units := state.units ++ [unit packet] }

end ReadState

section Reads

variable {U : Type} (capacity : Nat) (unit : MediaPacket → U) (budget : ReadBudget)

def oldestRetainedSequence : RingProg Nat := return (← writeIdx) - capacity

def waitLoop : Nat → ReadState U → RingProg (LoopEnd U)
  | 0, state => pure (.ends state)
  | n + 1, state =>
    if state.next.awaitingKeyframe && state.within budget then do
      match ← RingBuffer.readAtLoads state.next.nextSequence with
      | none => pure (.lost state)
      | some packet =>
        if packet.isVideoInterframe then
          if state.units.isEmpty then waitLoop n state.skip else pure (.ends state)
        else
          let taken := state.take unit packet
          waitLoop n { taken with
            next := { taken.next with awaitingKeyframe := !packet.isVideoKeyframe } }
    else pure (.ends state)

def runLoop : Nat → ReadState U → RingProg (LoopEnd U)
  | 0, state => pure (.ends state)
  | n + 1, state =>
    if !state.next.awaitingKeyframe && state.within budget then do
      match ← packet state.next.nextSequence with
      | none => pure (.lost state)
      | some packet => runLoop n (state.take unit packet)
    else pure (.ends state)

def tagsIntact : Nat → Nat → RingProg Bool
  | 0, _ => pure true
  | n + 1, sequence => do
    let word ← RingProg.unit sequence
    if (FrameUnit.unpack word sequence).isSome then tagsIntact n (sequence + 1) else pure false

def runIntact (start stop : Nat) : RingProg Bool := do
  let begun ← writeBegin
  if begun ≤ min (start + capacity) usizeMax then pure true else tagsIntact (stop - start) start

def checkRun (runStart stop : Nat) : RingProg Bool :=
  if runStart < stop then runIntact capacity runStart stop else pure true

def finishRun (cursor : FeedCursor) (runStart : Nat) (state : ReadState U) :
    RingProg (FeedRead × List U) := do
  let intact ← checkRun capacity runStart state.next.nextSequence
  if !intact then return (.overrun (← oldestRetainedSequence capacity), [])
  else if state.next.nextSequence = cursor.nextSequence then return (.empty, state.units)
  else return (.units state.next, state.units)

def readRing (epoch : Nat) (cursor : FeedCursor) : RingProg (FeedRead × List U) :=
  if cursor.epoch ≠ epoch then pure (.epochMismatch epoch, [])
  else do
    let head ← writeIdx
    let oldest ← oldestRetainedSequence capacity
    if cursor.nextSequence < oldest then return (.overrun oldest, [])
    else
      let start : ReadState U := { next := cursor, totalBytes := 0, units := [] }
      match ← waitLoop unit budget (head - cursor.nextSequence) start with
      | .lost state => return (.overrun (← oldestRetainedSequence capacity), state.units)
      | .ends state =>
        let runStart := state.next.nextSequence
        match ← runLoop unit budget (head - runStart) state with
        | .lost _ => return (.overrun (← oldestRetainedSequence capacity), [])
        | .ends state => finishRun capacity cursor runStart state

def latestSyncPoint (epoch : Nat) : RingProg (Option FeedCursor) := do
  let head ← writeIdx
  if head = 0 then return none
  else
    let kfIdx ← RingBuffer.fastForwardLoads capacity head
    let oldest ← oldestRetainedSequence capacity
    return if oldest ≤ kfIdx ∧ kfIdx < head then some (FeedCursor.new epoch kfIdx) else none

def liveStartCursor (epoch : Nat) : RingProg FeedCursor := do
  let edge ← writeIdx
  match ← latestSyncPoint capacity epoch with
  | some cursor => return cursor
  | none => return FeedCursor.awaitingKeyframeAt epoch edge

end Reads

def payloadBytes (packets : List MediaPacket) : Nat :=
  (packets.map fun p => p.payload.length).sum

/-- What a read's state says once it has skipped `skipped` and taken `packets`
from its cursor on. -/
structure ReadState.Book {U : Type} (unit : MediaPacket → U)
    (cursor : FeedCursor) (budget : ReadBudget)
    (state : ReadState U) (skipped packets : List MediaPacket) : Prop where
  units : state.units = packets.map unit
  skips : ∀ p ∈ skipped, cursor.awaitingKeyframe = true ∧ p.isVideoInterframe = true
  passes : passed cursor.awaitingKeyframe packets = packets
  awaiting : state.next.awaitingKeyframe = awaitingAfter cursor.awaitingKeyframe packets
  position : state.next.nextSequence = cursor.nextSequence + skipped.length + packets.length
  bytes : state.totalBytes = payloadBytes packets
  maxUnits : packets.length ≤ budget.maxUnits
  maxBytes : packets ≠ [] → payloadBytes packets.dropLast < budget.maxBytes
  epoch : state.next.epoch = cursor.epoch

namespace ReadState.Book

variable {U : Type} {unit : MediaPacket → U}

theorem start (unit : MediaPacket → U) (cu : FeedCursor) (budget : ReadBudget) :
    Book unit cu budget { next := cu, totalBytes := 0, units := [] } [] [] where
  units := rfl
  skips := by simp
  passes := rfl
  awaiting := (awaitingAfter_nil _).symm
  position := rfl
  bytes := rfl
  maxUnits := Nat.zero_le _
  maxBytes h := absurd rfl h
  epoch := rfl

theorem skip (h : Book unit cu budget state sk []) (ha : state.next.awaitingKeyframe = true)
    (hp : p.isVideoInterframe = true) : Book unit cu budget state.skip (sk ++ [p]) [] where
  __ := h
  skips q hq := by
    rcases mem_append.mp hq with hold | hnew
    · exact h.skips q hold
    · have haw := h.awaiting
      rw [awaitingAfter_nil, ha] at haw
      exact ⟨haw.symm, mem_singleton.mp hnew ▸ hp⟩
  position := by
    have hpos := h.position
    simp only [length_append, length_singleton, length_nil] at hpos ⊢
    simp only [ReadState.skip]
    omega

theorem take (h : Book unit cu budget state sk ps) (hw : state.within budget = true)
    (hp : (state.next.awaitingKeyframe && p.isVideoInterframe) = false)
    (ha : aw = (state.next.awaitingKeyframe && !p.isVideoKeyframe)) :
    Book unit cu budget { state.take unit p with
        next := { (state.take unit p).next with awaitingKeyframe := aw } }
      sk (ps ++ [p]) := by
  simp only [within, decide_eq_true_eq, h.units, length_map, h.bytes] at hw
  have haw := h.awaiting
  refine ⟨?_, h.skips, ?_, ?_, ?_, ?_, ?_, ?_, h.epoch⟩
  · simp [ReadState.take, h.units]
  · rw [passed_append, h.passes, ← haw, passed, hp]
    simp [passed]
  · rw [awaitingAfter_append, ← haw, awaitingAfter_cons, awaitingAfter_nil, ha]
  · have hpos := h.position
    simp only [ReadState.take, length_append, length_singleton]
    omega
  · simp [ReadState.take, h.bytes, payloadBytes]
  · rw [length_append, length_singleton]
    omega
  · intro _
    rw [dropLast_concat]
    exact hw.2

end ReadState.Book

end Restream
