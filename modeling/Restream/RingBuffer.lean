import Restream.TrackConfigs
import Restream.Loads

/-! The packet ring. A publication is the list of its stores in program order;
a call of `push` or `pushBatch` as one step applies them all. Loads of the
shared cells are programs, so a reader's call can run at one instant or be
interleaved with the producer's stores. -/

namespace Restream

def usizeMax : Nat := 2 ^ 64 - 1

/-- The name of a ring on the heap: what an `Arc<RingBuffer>` points at. -/
abbrev RingId := Nat

structure RingSlot where
  packet : Option MediaPacket
  unit : UInt64
  deriving DecidableEq, Repr

def RingSlot.new : RingSlot := { packet := none, unit := 0 }

structure RingBuffer where
  capacity : Nat
  capacity_pos : 0 < capacity
  slots : Nat → RingSlot
  writeIdx : Nat
  writeBegin : Nat
  lastKeyframeIdx : Nat
  trackConfigs : TrackConfigs
  endOfStream : Bool
  next : Option RingId

inductive Store where
  | writeBegin (idx : Nat)
  | unit (sequence : Nat) (word : UInt64)
  | packet (sequence : Nat) (packet : MediaPacket)
  | lastKeyframeIdx (idx : Nat)
  | writeIdx (idx : Nat)
  deriving DecidableEq, Repr

inductive RingCell where
  | writeIdx
  | writeBegin
  | lastKeyframeIdx
  | packet (sequence : Nat)
  | unit (sequence : Nat)
  deriving DecidableEq, Repr

def RingCell.Value : RingCell → Type
  | .writeIdx | .writeBegin | .lastKeyframeIdx => Nat
  | .packet _ => Option MediaPacket
  | .unit _ => UInt64

abbrev RingProg := Loads.Prog RingCell RingCell.Value

namespace RingProg

def writeIdx : RingProg Nat := .load .writeIdx .ret

def writeBegin : RingProg Nat := .load .writeBegin .ret

def lastKeyframeIdx : RingProg Nat := .load .lastKeyframeIdx .ret

def packet (sequence : Nat) : RingProg (Option MediaPacket) := .load (.packet sequence) .ret

def unit (sequence : Nat) : RingProg UInt64 := .load (.unit sequence) .ret

end RingProg

namespace RingBuffer

def new (capacity : Nat) (h : 0 < capacity) : RingBuffer :=
  { capacity := capacity
    capacity_pos := h
    slots := fun _ => RingSlot.new
    writeIdx := 0
    writeBegin := 0
    lastKeyframeIdx := usizeMax
    trackConfigs := TrackConfigs.new
    endOfStream := false
    next := none }

def slot (r : RingBuffer) (sequence : Nat) : RingSlot := r.slots (sequence % r.capacity)

def setSlot (r : RingBuffer) (sequence : Nat) (s : RingSlot) : RingBuffer :=
  { r with slots := Function.update r.slots (sequence % r.capacity) s }

def apply (r : RingBuffer) : Store → RingBuffer
  | .writeBegin idx => { r with writeBegin := idx }
  | .unit sequence word => r.setSlot sequence { r.slot sequence with unit := word }
  | .packet sequence packet => r.setSlot sequence { r.slot sequence with packet := some packet }
  | .lastKeyframeIdx idx => { r with lastKeyframeIdx := idx }
  | .writeIdx idx => { r with writeIdx := idx }

def nextFrameUnit (r : RingBuffer) (packet : MediaPacket) (sequence : Nat) : UInt64 :=
  FrameUnit.pack ⟨r.trackConfigs.generation packet.mediaType packet.trackIndex⟩ sequence

def packetStores (r : RingBuffer) (idx : Nat) (packet : MediaPacket) : List Store :=
  [.writeBegin (idx + 1), .unit idx (r.nextFrameUnit packet idx), .packet idx packet] ++
    if packet.isVideoKeyframe then [.lastKeyframeIdx idx] else []

def pushStores (r : RingBuffer) (packet : MediaPacket) : List Store :=
  r.packetStores r.writeIdx packet ++ [.writeIdx (r.writeIdx + 1)]

def slotStores (r : RingBuffer) : Nat → List MediaPacket → List Store
  | _, [] => []
  | idx, packet :: packets => r.packetStores idx packet ++ slotStores r (idx + 1) packets

def pushBatchStores (r : RingBuffer) (packets : List MediaPacket) : List Store :=
  r.slotStores r.writeIdx packets ++
    if packets.length > 0 then [.writeIdx (r.writeIdx + packets.length)] else []

def push (r : RingBuffer) (packet : MediaPacket) : RingBuffer :=
  (r.pushStores packet).foldl apply r

def pushBatch (r : RingBuffer) (packets : List MediaPacket) : RingBuffer :=
  (r.pushBatchStores packets).foldl apply r

def setTrackConfig (r : RingBuffer) (mediaType : MediaType) (trackIndex : Nat)
    (bytes : List UInt8) : RingBuffer × UInt32 :=
  if bytes.isEmpty then (r, r.trackConfigs.generation mediaType trackIndex)
  else
    let (configs, generation) := r.trackConfigs.set mediaType trackIndex bytes
    ({ r with trackConfigs := configs }, generation)

def clearTrackConfig (r : RingBuffer) (mediaType : MediaType) (trackIndex : Nat) : RingBuffer :=
  { r with trackConfigs := r.trackConfigs.clear mediaType trackIndex }

def answer (r : RingBuffer) : (cell : RingCell) → cell.Value
  | .writeIdx => r.writeIdx
  | .writeBegin => r.writeBegin
  | .lastKeyframeIdx => r.lastKeyframeIdx
  | .packet sequence => (r.slot sequence).packet
  | .unit sequence => (r.slot sequence).unit

theorem run_packet (r : RingBuffer) :
    (RingProg.packet s).run r.answer = (r.slot s).packet := rfl

theorem run_unit (r : RingBuffer) :
    (RingProg.unit s).run r.answer = (r.slot s).unit := rfl

/-- `readAt` load by load: the packet first, then the unit word whose tag tells
whether the slot still holds `sequence`. -/
def readAtLoads (sequence : Nat) : RingProg (Option MediaPacket) := do
  match ← RingProg.packet sequence with
  | none => pure none
  | some packet => return (FrameUnit.unpack (← RingProg.unit sequence) sequence).map fun _ => packet

def readAt (r : RingBuffer) (sequence : Nat) : Option MediaPacket :=
  (readAtLoads sequence).run r.answer

def fastForwardLoads (capacity currentWriteIdx : Nat) : RingProg Nat := do
  let kfIdx ← RingProg.lastKeyframeIdx
  return if kfIdx ≠ usizeMax ∧ currentWriteIdx - kfIdx < capacity then kfIdx else currentWriteIdx

def fastForward (r : RingBuffer) (currentWriteIdx : Nat) : Nat :=
  (fastForwardLoads r.capacity currentWriteIdx).run r.answer

def frameUnit (r : RingBuffer) (sequence : Nat) : Option FrameUnit :=
  if r.writeIdx ≤ sequence ∨ r.capacity ≤ r.writeIdx - sequence then none
  else FrameUnit.unpack (r.slot sequence).unit sequence

inductive NotRetained where
  | notRetained
  deriving DecidableEq, Repr

def trackConfigAt (r : RingBuffer) (sequence : Nat) (mediaType : MediaType) (trackIndex : Nat) :
    Except NotRetained (Option TrackConfig) :=
  match r.frameUnit sequence with
  | none => .error .notRetained
  | some unit =>
    if unit.configGeneration = 0 then .ok none
    else
      match r.trackConfigs.get mediaType trackIndex unit.configGeneration with
      | some config => .ok (some config)
      | none => .error .notRetained

end RingBuffer

end Restream
