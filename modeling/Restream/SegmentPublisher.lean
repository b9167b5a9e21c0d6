import Restream.Continuity

/-! The publisher of a segmented source. Each rendition has its own timeline and queue;
what several renditions deliver is merged in the order of its decode times. -/

namespace Restream.Publisher

inductive DiscontinuityKind where
  | clock
  | timeline (generation : Nat)
  deriving DecidableEq

structure Rendition where
  queue : List MediaPacket
  continuous : ContinuousTimestampState
  absent : Bool
  awaitingKeyframe : Bool
  deriving DecidableEq

def Rendition.new : Rendition :=
  { queue := [], continuous := .joining, absent := false, awaitingKeyframe := false }

structure SegmentPublisher where
  renditions : List Rendition
  current : Nat
  expected : Nat
  windowMs : Int
  packets : List MediaPacket
  unbornAbsent : Bool
  continuous : ContinuousTimestampState
  forwarded : List MediaPacket
  deriving DecidableEq

def retainAfterGap : Bool → List MediaPacket → List MediaPacket × Bool
  | awaiting, [] => ([], awaiting)
  | false, p :: ps =>
    let rest := retainAfterGap false ps
    (p :: rest.1, rest.2)
  | true, p :: ps =>
    if p.isVideoInterframe then retainAfterGap true ps
    else
      let rest := retainAfterGap (!p.isVideoKeyframe) ps
      (p :: rest.1, rest.2)

namespace SegmentPublisher

def new : SegmentPublisher :=
  { renditions := [.new], current := 0, expected := 1, windowMs := 0,
    packets := [], unbornAbsent := false
    continuous := .default, forwarded := [] }

def selectRendition (s : SegmentPublisher) (rendition : Nat) : SegmentPublisher :=
  let s := if s.renditions.length ≤ rendition then
      { s with renditions := s.renditions ++ [.new], unbornAbsent := false }
    else s
  { s with current := min rendition (s.renditions.length - 1) }

def forwardBatch (s : SegmentPublisher) : SegmentPublisher :=
  { s with packets := [], forwarded := s.forwarded ++ s.packets }

def continuityOf (s : SegmentPublisher) (rendition : Nat) : ContinuousTimestampState :=
  match s.renditions[rendition]? with
  | some other => if 0 < rendition then other.continuous else s.continuous
  | none => s.continuous

def setContinuity (s : SegmentPublisher) (rendition : Nat) (state : ContinuousTimestampState) :
    SegmentPublisher :=
  if 0 < rendition ∧ rendition < s.renditions.length then
    { s with renditions := s.renditions.modify rendition fun other => { other with continuous := state } }
  else { s with continuous := state }

def oldest (s : SegmentPublisher) : Option (Nat × Int) :=
  s.renditions.zipIdx.foldl (fun oldest x =>
    match x.1.queue.head? with
    | none => oldest
    | some front =>
      match oldest with
      | none => some (x.2, front.dts)
      | some (_, dts) => if front.dts < dts then some (x.2, front.dts) else oldest) none

def newest (s : SegmentPublisher) : Int :=
  s.renditions.foldl (fun newest r =>
    match r.queue.getLast? with
    | none => newest
    | some back => max newest back.dts) i64Min

def waiting (s : SegmentPublisher) : Bool :=
  (s.renditions.zipIdx.any fun x => x.1.queue.isEmpty && x.2 < s.expected && !x.1.absent) ||
    s.renditions.length < s.expected && !s.unbornAbsent

def giveUp (s : SegmentPublisher) : SegmentPublisher :=
  { s with
    renditions := s.renditions.mapIdx fun i r =>
      if i < s.expected ∧ r.queue = [] then { r with absent := true } else r
    unbornAbsent := true }

def popFront (s : SegmentPublisher) (index : Nat) : Option SegmentPublisher :=
  match s.renditions[index]? with
  | none => none
  | some r =>
    match r.queue with
    | [] => none
    | p :: queue =>
      some { s with renditions := s.renditions.set index { r with queue := queue }, packets := s.packets ++ [p] }

def releaseStep (clamp : Int → Int) (all : Bool) (s : SegmentPublisher) : Option SegmentPublisher :=
  match s.oldest with
  | none => none
  | some (index, dts) =>
    if s.waiting && !all then
      if clamp (s.newest - dts) ≤ s.windowMs then none else s.giveUp.popFront index
    else s.popFront index

def releaseLoop (clamp : Int → Int) (all : Bool) : Nat → SegmentPublisher → SegmentPublisher
  | 0, s => s
  | n + 1, s =>
    match s.releaseStep clamp all with
    | none => s
    | some s' => releaseLoop clamp all n s'

def queued (s : SegmentPublisher) : List MediaPacket := s.renditions.flatMap Rendition.queue

def releaseInterleaved (clamp : Int → Int) (all : Bool) (s : SegmentPublisher) : SegmentPublisher :=
  releaseLoop clamp all s.queued.length s

/-- Settle a pending re-anchor with the offset of another rendition on the same timeline,
or right after the latest timestamp of any rendition. -/
def alignRebase (clamp : Int → Int) (s : SegmentPublisher) (rendition : Nat) : SegmentPublisher :=
  let state := s.continuityOf rendition
  if !state.rebasePending then s
  else
    match s.packets.head? with
    | none => s
    | some first =>
      let generation := state.pendingGeneration.getD state.generation
      let rawMs := continuityTimestampMs first
      let others := (List.range s.renditions.length).map fun index => (index, s.continuityOf index)
      let aligned := others.find? fun x =>
        x.1 ≠ rendition && x.2.generation = generation &&
          (state.pendingGeneration.isSome ||
            x.2.lastRawMs.any fun lastMs => (lastMs - rawMs).natAbs ≤ s.windowMs.toNat)
      let latest := (others.filterMap fun x => x.2.latestMs).max?
      let offset := match aligned, latest with
        | some (_, other), _ => other.offsetMs
        | none, some latestMs => clamp (clamp (latestMs + 1) - rawMs)
        | none, none => 0
      s.setContinuity rendition (state.rebaseTo offset)

def keepMedia (s : SegmentPublisher) (packets : List MediaPacket) : List MediaPacket :=
  if 0 < s.current ∨ 1 < s.expected then
    packets.filter fun p => p.mediaType = if s.current = 0 then .video else .audio
  else packets

def enqueue (s : SegmentPublisher) (packets : List MediaPacket) : SegmentPublisher :=
  { s with
    packets := []
    renditions := s.renditions.modify s.current fun r =>
      { r with absent := r.absent && packets.isEmpty, queue := r.queue ++ packets } }

def merged (s : SegmentPublisher) : Bool := 1 < s.renditions.length || 1 < s.expected

def setAwaiting (s : SegmentPublisher) (awaiting : Bool) : SegmentPublisher :=
  { s with renditions := s.renditions.modify s.current fun r => { r with awaitingKeyframe := awaiting } }

def forwardAlone (clamp : Int → Int) (s : SegmentPublisher) (packets : List MediaPacket) :
    SegmentPublisher :=
  let applied := s.continuous.applyAll clamp packets
  { s with continuous := applied.1, packets := applied.2 }.forwardBatch

def forwardMerged (clamp : Int → Int) (s : SegmentPublisher) (packets : List MediaPacket) :
    SegmentPublisher :=
  let s := alignRebase clamp { s with packets := s.keepMedia packets } s.current
  let applied := (s.continuityOf s.current).applyAll clamp s.packets
  let s := (s.setContinuity s.current applied.1).enqueue applied.2
  (s.releaseInterleaved clamp false).forwardBatch

def forward (clamp : Int → Int) (s : SegmentPublisher) (drained : List MediaPacket) :
    SegmentPublisher :=
  match s.renditions[s.current]? with
  | none => s
  | some rendition =>
    if drained = [] then s
    else
      let retained := retainAfterGap rendition.awaitingKeyframe (s.packets ++ drained)
      let s := s.setAwaiting retained.2
      if s.merged then s.forwardMerged clamp retained.1 else s.forwardAlone clamp retained.1

def flushEach (clamp : Int → Int) : Nat → List (List MediaPacket) →
    SegmentPublisher → SegmentPublisher
  | _, [], s => s
  | i, drained :: rest, s =>
    flushEach clamp (i + 1) rest (forward clamp { s with current := i } drained)

def flush (clamp : Int → Int) (s : SegmentPublisher) (drained : List (List MediaPacket)) :
    SegmentPublisher :=
  let flushed := { flushEach clamp 0 drained s with current := s.current }
  if 1 < flushed.renditions.length then (flushed.releaseInterleaved clamp true).forwardBatch
    else flushed

def interleave (clamp : Int → Int) (s : SegmentPublisher) (renditions windowMs : Nat) :
    SegmentPublisher :=
  let expected := max renditions 1
  let next := { s with expected := expected, windowMs := min windowMs i64Max }
  if expected < s.expected then (next.releaseInterleaved clamp false).forwardBatch else next

def afterGap (s : SegmentPublisher) : SegmentPublisher :=
  s.setAwaiting true

def discardFailedObject (s : SegmentPublisher) : SegmentPublisher :=
  let s := { s with packets := [] }
  (s.setContinuity s.current (s.continuityOf s.current).markClockDiscontinuity).afterGap

def reanchor (clamp : Int → Int) (s : SegmentPublisher)
    (drained : List MediaPacket) (kind : DiscontinuityKind) :
    SegmentPublisher :=
  let s := s.forward clamp drained
  match kind with
  | .clock => s.setContinuity s.current (s.continuityOf s.current).markClockDiscontinuity
  | .timeline generation =>
    s.setContinuity s.current ((s.continuityOf s.current).markTimelineBreak generation)

end SegmentPublisher

end Restream.Publisher
