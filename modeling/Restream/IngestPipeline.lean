import Restream.IngestForward
import Restream.RingResize
import Restream.Tables

/-! One pipeline whose inputs each keep a handle on a ring. The probe of the
selected SRT or MoQ input may replace the pipeline ring, and the input adopts the new
ring when the answer reaches it; every call of a publisher, registration, selection
and message of a probe is one step. -/

namespace Restream

inductive IngestProtocol where
  | srt
  | moq
  | rtmp
  | hls
  | file
  | recirculation
  deriving DecidableEq, Repr

/-- The protocols that forward through `forwardIngestPackets`. -/
def IngestProtocol.probes : IngestProtocol → Bool
  | .srt | .moq => true
  | .rtmp | .hls | .file | .recirculation => false

/-- The protocols that take their ring before they register. -/
def IngestProtocol.takesRingFirst : IngestProtocol → Bool
  | .srt | .moq | .file => true
  | .rtmp | .hls | .recirculation => false

/-- An input, with the probes on their way to be applied, by revision, and the
answers on their way back. -/
structure PipelineInput where
  protocol : IngestProtocol
  registered : Bool
  attached : Bool
  input : IngestInput
  probePending : Bool
  probeRevision : Nat
  probes : List Nat
  answers : List (Nat × Option RingId)

/-- The rings ever made for the pipeline, the one its table names, and its inputs. -/
structure IngestPipeline where
  rings : List RingBuffer
  pipeline : RingId
  ringCapacity : Nat
  inputs : List PipelineInput
  current : Option Nat
  lastForwardedDts : Int

inductive PipelineEvent where
  | connect (protocol : IngestProtocol)
  | attach (k : Nat)
  | register (k : Nat) (selected : Bool)
  | select (k : Nat)
  | sendProbe (k : Nat)
  | applyProbe (k packets : Nat)
  | probeApplied (k : Nat)
  | releaseHeld (k : Nat)
  | retain (k : Nat) (keep : MediaPacket → Bool)
  | packets (k : Nat) (batch : List MediaPacket)
  | video (k : Nat) (packet : MediaPacket) (sequenceHeader : Bool)
  | audio (k : Nat) (packet : MediaPacket)

namespace IngestPipeline

def maxRingCapacity : Nat := 16384

def start (ringCapacity : Nat) (h : 0 < ringCapacity) : IngestPipeline :=
  { rings := [RingBuffer.new ringCapacity h]
    pipeline := 0
    ringCapacity := ringCapacity
    inputs := []
    current := none
    lastForwardedDts := i64Min }

def next (t : IngestPipeline) (id : RingId) : Option RingId := (t.rings[id]?).bind RingBuffer.next

def endOfChain (t : IngestPipeline) (id : RingId) : RingId := followNext t.next t.rings.length id

def neededCapacity (t : IngestPipeline) (packets : Nat) : Nat :=
  min (max packets t.ringCapacity) maxRingCapacity

/-- Replace the pipeline ring when `packets`, the packets of the headroom time,
do not fit; the new ring is returned. -/
def adaptPipelineRing (t : IngestPipeline) (packets : Nat) : IngestPipeline × Option RingId :=
  match t.rings[t.pipeline]? with
  | none => (t, none)
  | some old =>
    if h : old.capacity < t.neededCapacity packets then
      ({ t with
          rings := t.rings.set t.pipeline (old.sealAndForward t.rings.length) ++
            [old.resized (t.neededCapacity packets) (Nat.zero_lt_of_lt h)]
          pipeline := t.rings.length },
        some t.rings.length)
    else (t, none)

def modifyInput (t : IngestPipeline) (k : Nat) (f : IngestInput → IngestInput) : IngestPipeline :=
  { t with inputs := t.inputs.modify k fun x => { x with input := f x.input } }

def setGate (t : IngestPipeline) (k : Nat) (state : InputForwardState) : IngestPipeline :=
  t.modifyInput k fun input => { input with gate := input.gate.setState state }

def setInput (t : IngestPipeline) (k : Nat) (x : PipelineInput) : IngestPipeline :=
  { t with inputs := t.inputs.set k x }

def demoteCurrent (t : IngestPipeline) : IngestPipeline :=
  match t.current with
  | none => t
  | some k => t.setGate k .standby

def connect (t : IngestPipeline) (protocol : IngestProtocol) : IngestPipeline :=
  { t with
    inputs := t.inputs ++
      [{ protocol := protocol
         registered := false
         attached := false
         input := .new InputPacketGate.standby t.pipeline
         probePending := false
         probeRevision := 0
         probes := []
         answers := [] }] }

def attach (t : IngestPipeline) (k : Nat) : Option IngestPipeline := do
  let x ← t.inputs[k]?
  if x.attached = false ∧ x.registered = !x.protocol.takesRingFirst then
    some (t.setInput k { x with attached := true, input := { x.input with ring := t.pipeline } })
  else none

def registeredState (t : IngestPipeline) (selected : Bool) : InputForwardState :=
  if selected = false then .standby
  else if t.lastForwardedDts = i64Min then .active
  else .awaitingKeyframe

def markRegistered (t : IngestPipeline) (k : Nat) : IngestPipeline :=
  { t with inputs := t.inputs.modify k fun x => { x with registered := true } }

def register (t : IngestPipeline) (k : Nat) (selected : Bool) : Option IngestPipeline := do
  let x ← t.inputs[k]?
  if x.registered = false ∧ x.attached = x.protocol.takesRingFirst then
    if selected then
      some { (t.demoteCurrent.markRegistered k).setGate k (t.registeredState selected) with
        current := some k }
    else some (t.markRegistered k)
  else none

def select (t : IngestPipeline) (k : Nat) : IngestPipeline :=
  if t.current = some k then t
  else if (t.inputs[k]?).any PipelineInput.registered then
    { t.demoteCurrent.setGate k .awaitingKeyframe with current := some k }
  else { t.demoteCurrent with current := none }

/-- An SRT input sends a probe for every new topology, a MoQ input one. Packets are
held from then on. -/
def sendProbe (t : IngestPipeline) (k : Nat) : Option IngestPipeline := do
  let x ← t.inputs[k]?
  if x.registered ∧ x.attached ∧
      (x.protocol = .srt ∨ x.protocol = .moq ∧ x.probeRevision = 0) then
    some (t.setInput k { x with
      probePending := true
      probeRevision := x.probeRevision + 1
      probes := x.probes ++ [x.probeRevision + 1] })
  else none

/-- The next probe of an input is applied: the answer has the pipeline ring for an
SRT input, and for a MoQ input the ring that its probe made. -/
def applyProbe (t : IngestPipeline) (k packets : Nat) : Option IngestPipeline := do
  let x ← t.inputs[k]?
  match x.protocol.probes, x.probes with
  | true, revision :: probes =>
    let (t', made) := if t.current = some k then t.adaptPipelineRing packets else (t, none)
    let ring := if x.protocol = .srt then some t'.pipeline else made
    some (t'.setInput k { x with probes := probes, answers := x.answers ++ [(revision, ring)] })
  | _, _ => none

/-- The end of a hold: the SRT owner follows the links first, the MoQ one does not. -/
def released (t : IngestPipeline) (x : PipelineInput) : PipelineInput :=
  { x with
    probePending := false
    input := { x.input with
      ring := if x.protocol = .srt then t.endOfChain x.input.ring else x.input.ring } }

/-- The next answer reaches an input. An SRT input ignores it when it has sent
another probe since. -/
def probeApplied (t : IngestPipeline) (k : Nat) : Option IngestPipeline := do
  let x ← t.inputs[k]?
  match x.protocol.probes, x.answers with
  | true, (revision, ring) :: answers =>
    if x.protocol = .srt ∧ revision ≠ x.probeRevision then
      some (t.setInput k { x with answers := answers })
    else
      some (t.setInput k (t.released { x with
        answers := answers, input := { x.input with ring := ring.getD x.input.ring } }))
  | _, _ => none

/-- A hold that ends without an answer, on its bound or with the session. -/
def releaseHeld (t : IngestPipeline) (k : Nat) : Option IngestPipeline := do
  let x ← t.inputs[k]?
  if x.protocol = .srt ∨ x.protocol = .moq ∧ x.probePending then
    some (t.setInput k (t.released x))
  else none

def retain (t : IngestPipeline) (k : Nat) (keep : MediaPacket → Bool) : IngestPipeline :=
  t.modifyInput k fun input => { input with standbyGop := input.standbyGop.retain keep }

structure Call where
  k : Nat
  x : PipelineInput
  outcome : ForwardOutcome

def caller : PipelineEvent → Option Nat
  | .packets k _ | .video k _ _ | .audio k _ => some k
  | _ => none

def outcome (t : IngestPipeline) (x : PipelineInput) : PipelineEvent → Option ForwardOutcome
  | .packets _ batch =>
    match x.protocol with
    | .srt | .moq =>
      if x.probePending then none
      else some (x.input.forwardIngestPackets t.next t.rings.length x.input.gate.state
        t.lastForwardedDts batch)
    | .hls | .file => some (x.input.forwardBatch t.lastForwardedDts batch)
    | .recirculation => some (x.input.forwardPackets x.input.gate.state t.lastForwardedDts batch)
    | .rtmp => none
  | .video _ packet sequenceHeader =>
    if x.protocol = .rtmp then
      some (x.input.onVideo x.input.gate.state t.lastForwardedDts packet sequenceHeader)
    else none
  | .audio _ packet =>
    if x.protocol = .rtmp then some (x.input.onAudio x.input.gate.state t.lastForwardedDts packet)
      else none
  | _ => none

def call (t : IngestPipeline) (e : PipelineEvent) : Option Call := do
  let k ← caller e
  let x ← t.inputs[k]?
  if x.registered ∧ x.attached then return ⟨k, x, ← t.outcome x e⟩ else none

def deliver (t : IngestPipeline) (c : Call) : IngestPipeline :=
  let t' := { t with
    inputs := t.inputs.set c.k { c.x with input := c.outcome.input }
    lastForwardedDts := c.outcome.lastForwardedDts }
  match c.outcome.published with
  | none => t'
  | some p => { t' with rings := t.rings.modify p.ring fun r => r.pushBatch (p.headers ++ p.packets) }

def step (t : IngestPipeline) : PipelineEvent → Option IngestPipeline
  | .connect protocol => some (t.connect protocol)
  | .attach k => t.attach k
  | .register k selected => t.register k selected
  | .select k => some (t.select k)
  | .sendProbe k => t.sendProbe k
  | .applyProbe k packets => t.applyProbe k packets
  | .probeApplied k => t.probeApplied k
  | .releaseHeld k => t.releaseHeld k
  | .retain k keep => some (t.retain k keep)
  | e => (t.call e).map t.deliver

def HoldsPipelineRing (t : IngestPipeline) (k : Nat) : Prop :=
  ∀ x ∈ t.inputs[k]?, x.attached = true → x.input.ring = t.pipeline

instance (t : IngestPipeline) (k : Nat) : Decidable (t.HoldsPipelineRing k) := by
  unfold HoldsPipelineRing
  infer_instance

def Fixed (t : IngestPipeline) (k : Nat) : Prop := ∃ x ∈ t.inputs[k]?, x.protocol.probes = false

instance (t : IngestPipeline) (k : Nat) : Decidable (t.Fixed k) :=
  inferInstanceAs (Decidable (∃ x ∈ t.inputs[k]?, _))

/-- What is asked of the steps. An input that is to publish without following the
links, because its protocol never does, because its gate starts active or because it
is a MoQ input that forwards, has the pipeline ring; and no probe replaces the
pipeline ring while its input forwards without holding. -/
def InPlace (t : IngestPipeline) : PipelineEvent → Prop
  | .select k => t.Fixed k → t.HoldsPipelineRing k
  | .register k selected =>
    selected = true → t.lastForwardedDts = i64Min ∨ t.Fixed k → t.HoldsPipelineRing k
  | .applyProbe k packets => ∀ x ∈ t.inputs[k]?,
    x.input.gate.state = .active → x.probePending = false → (t.adaptPipelineRing packets).2 = none
  | .probeApplied k => ∀ x ∈ t.inputs[k]?, x.protocol = .moq → x.input.gate.state = .active →
    ∀ answer ∈ x.answers.head?, answer.2.getD x.input.ring = t.pipeline
  | .releaseHeld k => ∀ x ∈ t.inputs[k]?, x.protocol = .moq → x.input.gate.state = .active →
    x.input.ring = t.pipeline
  | _ => True

instance (t : IngestPipeline) (e : PipelineEvent) : Decidable (t.InPlace e) := by
  unfold InPlace
  split <;> infer_instance

end IngestPipeline

end Restream
