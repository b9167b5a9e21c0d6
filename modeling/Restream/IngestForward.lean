import Restream.StandbyGop
import Restream.InputGate
import Restream.RingBuffer

/-! How each kind of ingest forwards packets into the pipeline ring: through
the input gate, with the packets kept since the last video keyframe replayed on
promotion, and with every timestamp mapped. A call is given the gate state it loads
first. -/

namespace Restream

structure IngestInput where
  gate : InputPacketGate
  timestampMapper : InputTimestampMapper
  standbyGop : StandbyGopCache
  videoSequenceHeader : Option (List UInt8)
  audioSequenceHeader : Option (List UInt8)
  ring : RingId
  deriving DecidableEq, Repr

def IngestInput.new (gate : InputPacketGate) (ring : RingId) : IngestInput :=
  { gate := gate
    timestampMapper := InputTimestampMapper.new
    standbyGop := StandbyGopCache.defaultCache
    videoSequenceHeader := none
    audioSequenceHeader := none
    ring := ring }

structure Selection where
  activated : Bool
  batch : List MediaPacket
  deriving DecidableEq, Repr

structure Published where
  ring : RingId
  selection : Selection
  headers : List MediaPacket
  packets : List MediaPacket
  deriving DecidableEq, Repr

structure ForwardOutcome where
  input : IngestInput
  lastForwardedDts : Int
  published : Option Published
  deriving DecidableEq, Repr

section Mapping

def mapBatch (activated : Nat → Bool) (lastForwardedDts : Int) :
    Nat → InputTimestampMapper → List MediaPacket → InputTimestampMapper × List MediaPacket
  | _, mapper, [] => (mapper, [])
  | index, mapper, p :: ps =>
    let (mapper, q) := mapper.mapPacket p (activated index) lastForwardedDts
    let (mapper, qs) := mapBatch activated lastForwardedDts (index + 1) mapper ps
    (mapper, q :: qs)

def FitsBatch (activated : Nat → Bool) (lastForwardedDts : Int) :
    Nat → InputTimestampMapper → List MediaPacket → Prop
  | _, _, [] => True
  | index, mapper, p :: ps => mapper.Fits p (activated index) lastForwardedDts ∧
    FitsBatch activated lastForwardedDts (index + 1)
      (mapper.mapPacket p (activated index) lastForwardedDts).1 ps

instance (activated : Nat → Bool) (lastForwardedDts : Int) : (index : Nat) →
    (mapper : InputTimestampMapper) → (batch : List MediaPacket) →
    Decidable (FitsBatch activated lastForwardedDts index mapper batch)
  | _, _, [] => inferInstanceAs (Decidable True)
  | index, mapper, p :: ps =>
    have := instDecidableFitsBatch activated lastForwardedDts (index + 1)
      (mapper.mapPacket p (activated index) lastForwardedDts).1 ps
    inferInstanceAs (Decidable (_ ∧ _))

end Mapping

def batchBoundary (packets : List MediaPacket) : InputPacketBoundary :=
  if packets.any MediaPacket.isVideoKeyframe then .videoKeyframe else .other

def replayBoundary (gop : StandbyGopCache) : InputPacketBoundary :=
  if gop.isReplayReady then .replayReady else .other

def followNext (next : RingId → Option RingId) : Nat → RingId → RingId
  | 0, ring => ring
  | fuel + 1, ring =>
    match next ring with
    | none => ring
    | some ring => followNext next fuel ring

namespace IngestInput

/-- The gate part of `forwardIngestPackets` and of `forwardPackets`: an active
input forwards the batch, any other caches it and replays the cache once the
gate lets it in. -/
def selectOrReplay (input : IngestInput) (state : InputForwardState) (packets : List MediaPacket) :
    IngestInput × Option Selection :=
  if state = .active then
    match input.gate.tryEnter (batchBoundary packets) with
    | none => (input, none)
    | some (gate, activated) =>
      ({ input with gate := gate }, some { activated := activated, batch := packets })
  else
    let gop := packets.foldl StandbyGopCache.push input.standbyGop
    match input.gate.tryEnter (replayBoundary gop) with
    | none => ({ input with standbyGop := gop }, none)
    | some (gate, activated) =>
      ({ input with gate := gate, standbyGop := gop.takeReplay.1 },
        some { activated := activated, batch := gop.takeReplay.2 })

def publish (input : IngestInput) (lastForwardedDts : Int) (selection : Selection)
    (activated : Nat → Bool) (headers : List MediaPacket → List MediaPacket) : ForwardOutcome :=
  let mapped := mapBatch activated lastForwardedDts 0 input.timestampMapper selection.batch
  { input := { input with timestampMapper := mapped.1, gate := input.gate.leave }
    lastForwardedDts := InputTimestampMapper.recordForwarded mapped.2 lastForwardedDts
    published := some
      { ring := input.ring, selection := selection, headers := headers mapped.2,
        packets := mapped.2 } }

def publishSelected (lastForwardedDts : Int) (activated : Bool → Nat → Bool)
    (headers : Bool → List MediaPacket → List MediaPacket) :
    IngestInput × Option Selection → ForwardOutcome
  | (input, none) => { input := input, lastForwardedDts := lastForwardedDts, published := none }
  | (input, some selection) =>
    input.publish lastForwardedDts selection (activated selection.activated)
      (headers selection.activated)

def firstOnly (activated : Bool) (index : Nat) : Bool := activated && index == 0

def forwardIngestPackets (input : IngestInput) (next : RingId → Option RingId) (rings : Nat)
    (state : InputForwardState) (lastForwardedDts : Int) (packets : List MediaPacket) :
    ForwardOutcome :=
  let selected := input.selectOrReplay state packets
  let ring :=
    if state = .active ∨ selected.2 = none then input.ring else followNext next rings input.ring
  publishSelected lastForwardedDts firstOnly (fun _ _ => []) ({ selected.1 with ring := ring },
    selected.2)

def forwardPackets (input : IngestInput) (state : InputForwardState) (lastForwardedDts : Int)
    (packets : List MediaPacket) : ForwardOutcome :=
  publishSelected lastForwardedDts firstOnly (fun _ _ => []) (input.selectOrReplay state packets)

def selectBatch (input : IngestInput) (packets : List MediaPacket) : IngestInput × Option Selection :=
  if packets.isEmpty then (input, none)
  else
    match input.gate.tryEnter (batchBoundary packets) with
    | none => (input, none)
    | some (gate, activated) =>
      ({ input with gate := gate }, some { activated := activated
                                           batch := if activated then
                                               packets.dropWhile fun p => !p.isVideoKeyframe
                                             else packets })

def forwardBatch (input : IngestInput) (lastForwardedDts : Int) (packets : List MediaPacket) :
    ForwardOutcome :=
  publishSelected lastForwardedDts (fun activated _ => activated)
    (fun _ _ => []) (input.selectBatch packets)

def promotionHeader (mediaType : MediaType) (timestamp : Int) (payload : List UInt8) : MediaPacket :=
  { mediaType := mediaType
    format := .flv
    isKeyframe := false
    trackIndex := 0
    pts := timestamp
    dts := timestamp
    payload := payload }

def promotionHeaders (input : IngestInput) (activated : Bool) (packets : List MediaPacket) :
    List MediaPacket :=
  match activated, packets.head? with
  | true, some first =>
    (input.videoSequenceHeader.map (promotionHeader .video (saturate (first.dts - 1)))).toList ++
      (input.audioSequenceHeader.map (promotionHeader .audio (saturate (first.dts - 1)))).toList
  | _, _ => []

def selectReplay (input : IngestInput) (state : InputForwardState) : IngestInput × Option Selection :=
  if input.standbyGop.isReplayReady = false ∨ state ≠ .awaitingKeyframe then (input, none)
  else
    match input.gate.tryEnter .replayReady with
    | none => (input, none)
    | some (gate, activated) =>
      ({ input with gate := gate, standbyGop := input.standbyGop.takeReplay.1 },
        some { activated := activated, batch := input.standbyGop.takeReplay.2 })

def tryPromote (input : IngestInput) (state : InputForwardState) (lastForwardedDts : Int) :
    ForwardOutcome :=
  publishSelected lastForwardedDts firstOnly input.promotionHeaders (input.selectReplay state)

def forwardMessage (input : IngestInput) (state : InputForwardState) (lastForwardedDts : Int)
    (packet : MediaPacket) : ForwardOutcome :=
  if state = .active then
    publishSelected lastForwardedDts (fun _ _ => false) (fun _ _ => [])
      (match input.gate.tryEnter (batchBoundary [packet]) with
      | none => (input, none)
      | some (gate, activated) =>
        ({ input with gate := gate }, some { activated := activated, batch := [packet] }))
  else
    tryPromote { input with standbyGop := input.standbyGop.push packet } state lastForwardedDts

/-- A video message; `sequenceHeader` tells whether its data is a header with
parameter sets that can be read. -/
def onVideo (input : IngestInput) (state : InputForwardState) (lastForwardedDts : Int)
    (packet : MediaPacket) (sequenceHeader : Bool) : ForwardOutcome :=
  let input :=
    if sequenceHeader then { input with videoSequenceHeader := some packet.payload } else input
  input.forwardMessage state lastForwardedDts packet

def isAudioSequenceHeader : List UInt8 → Bool
  | tag :: 0 :: _ => tag >>> 4 == 10
  | _ => false

def onAudio (input : IngestInput) (state : InputForwardState) (lastForwardedDts : Int)
    (packet : MediaPacket) : ForwardOutcome :=
  let input :=
    if isAudioSequenceHeader packet.payload then
      { input with audioSequenceHeader := some packet.payload }
    else input
  input.forwardMessage state lastForwardedDts packet

end IngestInput

end Restream
