import Restream.InputGate
import Restream.Exec
import Restream.Tables

/-! The input tables of one pipeline. The operations on them hold the selection
lock from their first step to their last and can be dropped wherever they
await; the publisher of every session ever registered enters and leaves its
gate at any time. -/

namespace Restream

abbrev InputId := Nat

/-- A registered session: its gate, its live leases with their `activated`
flags, and whether its publisher has ended. `arms` counts the calls of
`armForPromotion`, `activations` has the number of the last one for each lease
that activated the gate. -/
structure IngestSession where
  inputId : InputId
  gate : InputPacketGate
  leases : List Bool
  ended : Bool
  arms : Nat
  activations : List Nat
  deriving DecidableEq, Repr

namespace IngestSession

def setState (x : IngestSession) (state : InputForwardState) : IngestSession :=
  { x with
    gate := x.gate.setState state
    arms := if state = .awaitingKeyframe then x.arms + 1 else x.arms }

def fresh (inputId : InputId) (gate : InputPacketGate) : IngestSession :=
  { inputId := inputId, gate := gate, leases := [], ended := false, arms := 0, activations := [] }

def new (inputId : InputId) : InputForwardState → IngestSession
  | .active => fresh inputId InputPacketGate.active
  | .awaitingKeyframe => (fresh inputId InputPacketGate.standby).setState .awaitingKeyframe
  | .standby => fresh inputId InputPacketGate.standby

def tryEnter (x : IngestSession) (boundary : InputPacketBoundary) : Option IngestSession := do
  if x.ended then none
  else
    let (gate, activated) ← x.gate.tryEnter boundary
    return { x with
      gate := gate
      leases := activated :: x.leases
      activations := if activated then x.arms :: x.activations else x.activations }

def dropLease (x : IngestSession) (i : Nat) : Option IngestSession :=
  if i < x.leases.length then some { x with gate := x.gate.leave, leases := x.leases.eraseIdx i }
    else none

def finish (x : IngestSession) : Option IngestSession :=
  if x.leases = [] then some { x with ended := true } else none

def Forwards (x : IngestSession) : Prop :=
  x.leases ≠ [] ∨ (x.gate.state ≠ .standby ∧ x.ended = false)

instance (x : IngestSession) : Decidable x.Forwards := inferInstanceAs (Decidable (_ ∨ _))

end IngestSession

inductive SelectionOp where
  | registerTokens (inputId : InputId) (selected : Bool)
  | registerSelection (inputId : InputId) (selected : Bool)
  | registerActive (inputId : InputId)
  | registerDemote (inputId : InputId) (previous : Nat) (state : InputForwardState)
  | registerIdle (inputId : InputId) (previous : Nat) (state : InputForwardState)
  | registerSlots (inputId : InputId) (selected : Bool) (demoted : Option (Nat × InputForwardState))
  | registerInsert (inputId : InputId) (selected : Bool) (demoted : Option (Nat × InputForwardState))
    (gate : InputForwardState)
  | selectActive (inputId : InputId)
  | selectKeep (inputId : InputId)
  | selectIdle (inputId : InputId) (previous : Nat)
  | selectInsert (inputId : InputId)
  | selectSessions (inputId : InputId)
  | selectActivate (replacement : Nat)
  | selectRemove
  | releaseSessions (release : Nat → Bool) (forgetSelection : Bool)
  | releaseTokens (release : Nat → Bool) (forgetSelection : Bool) (removed : InputId → Bool)
  | releaseActive (release : Nat → Bool) (forgetSelection : Bool)
  | releaseSelection
  | unregisterSessions (attempt : Nat)
  | unregisterTokens (attempt : Nat)
  | unregisterActive (attempt : Nat)

/-- `all` has every session ever registered, by attempt; `tokens` tells whether
an input's token is cancelled; `op` is the operation that holds the lock. -/
structure InputTables where
  all : List IngestSession
  tokens : InputId → Option Bool
  sessions : InputId → Option Nat
  selectedInput : Option InputId
  active : Option Nat
  lastForwardedDts : Int
  op : Option SelectionOp

inductive SelectionEvent where
  | tryRegisterPipelineInputAttempt (inputId : InputId) (selected : Bool)
  | selectPipelineInput (inputId : InputId)
  | releaseIngestSessions (release : Nat → Bool) (forgetSelection : Bool)
  | unregisterIngestIfCurrent (attempt : Nat)
  | resume
  | drop
  | cancelPipelineInput (inputId : InputId)
  | tryEnter (attempt : Nat) (boundary : InputPacketBoundary)
  | dropLease (attempt i : Nat)
  | recordForwarded (attempt : Nat) (dts : Int)
  | finish (attempt : Nat)

namespace InputTables

def start : InputTables :=
  { all := []
    tokens := fun _ => none
    sessions := fun _ => none
    selectedInput := none
    active := none
    lastForwardedDts := i64Min
    op := none }

def inputOf (t : InputTables) (attempt : Nat) : Option InputId :=
  (t.all[attempt]?).map IngestSession.inputId

def isIdle (t : InputTables) (attempt : Nat) : Bool :=
  (t.all[attempt]?).all fun x => x.gate.isIdle

def setState (t : InputTables) (attempt : Nat) (state : InputForwardState) : InputTables :=
  { t with all := t.all.modify attempt fun x => x.setState state }

def await (t : InputTables) (op : SelectionOp) : InputTables := { t with op := some op }

def done (t : InputTables) : InputTables := { t with op := none }

def gateState (t : InputTables) (selected : Bool) : InputForwardState :=
  if selected = false then .standby
  else if t.lastForwardedDts = i64Min then .active
  else .awaitingKeyframe

def insertSession (t : InputTables) (inputId : InputId) (selected : Bool) (gate : InputForwardState) :
    InputTables :=
  { t with
    all := t.all ++ [IngestSession.new inputId gate]
    tokens := Function.update t.tokens inputId (some false)
    sessions := Function.update t.sessions inputId (some t.all.length)
    selectedInput := if selected then some inputId else t.selectedInput
    active := if selected then some t.all.length else t.active }

def removeTokens (t : InputTables) (removed : InputId → Bool) : InputTables :=
  { t with tokens := fun i => if removed i then none else t.tokens i }

def resume (t : InputTables) : SelectionOp → Option InputTables
  | .registerTokens inputId selected =>
    some (if t.tokens inputId = some false then t.done
      else t.await (.registerSelection inputId selected))
  | .registerSelection inputId selected =>
    let selected := (t.selectedInput.map fun i => decide (i = inputId)).getD selected
    some (t.await (if selected then .registerActive inputId else .registerSlots inputId false none))
  | .registerActive inputId =>
    some (match t.active with
    | none => t.await (.registerSlots inputId true none)
    | some previous =>
      if t.inputOf previous = some inputId then t.await (.registerSlots inputId true none)
      else t.await (.registerDemote inputId previous
        (((t.all[previous]?).map fun x => x.gate.state).getD .standby)))
  | .registerDemote inputId previous state =>
    some ((t.setState previous .standby).await (.registerIdle inputId previous state))
  | .registerIdle inputId previous state =>
    if t.isIdle previous then some (t.await (.registerSlots inputId true (some (previous, state))))
      else none
  | .registerSlots inputId selected demoted =>
    some (t.await (.registerInsert inputId selected demoted (t.gateState selected)))
  | .registerInsert inputId selected _ gate => some (t.insertSession inputId selected gate).done
  | .selectActive inputId =>
    some (match t.active with
    | none => t.await (.selectInsert inputId)
    | some previous =>
      if t.inputOf previous = some inputId then t.await (.selectKeep inputId)
      else (t.setState previous .standby).await (.selectIdle inputId previous))
  | .selectKeep inputId => some { t.done with selectedInput := some inputId }
  | .selectIdle inputId previous =>
    if t.isIdle previous then some (t.await (.selectInsert inputId)) else none
  | .selectInsert inputId =>
    some { t.await (.selectSessions inputId) with selectedInput := some inputId }
  | .selectSessions inputId =>
    some (match t.sessions inputId with
    | none => t.await .selectRemove
    | some replacement =>
      (t.setState replacement .awaitingKeyframe).await (.selectActivate replacement))
  | .selectActivate replacement => some { t.done with active := some replacement }
  | .selectRemove => some { t.done with active := none }
  | .releaseSessions release forgetSelection =>
    some { t.await (.releaseTokens release forgetSelection fun i => (t.sessions i).any release) with
      sessions := fun i => if (t.sessions i).any release then none else t.sessions i }
  | .releaseTokens release forgetSelection removed =>
    some ((t.removeTokens removed).await (.releaseActive release forgetSelection))
  | .releaseActive release forgetSelection =>
    let t := if t.active.any release then { t with active := none } else t
    some (if forgetSelection then t.await .releaseSelection else t.done)
  | .releaseSelection => some { t.done with selectedInput := none }
  | .unregisterSessions attempt =>
    (t.inputOf attempt).map fun inputId =>
      if t.sessions inputId = some attempt then
        { t.await
          (.unregisterTokens attempt) with sessions := Function.update t.sessions inputId none }
      else t.done
  | .unregisterTokens attempt =>
    (t.inputOf attempt).map fun inputId =>
      (t.removeTokens fun i => decide (i = inputId)).await (.unregisterActive attempt)
  | .unregisterActive attempt =>
    some { t.done with active := if t.active = some attempt then none else t.active }

/-- The future is dropped. A registration then restores the gate it demoted;
between the load of that gate's state and the demotion it does not await. -/
def dropOp (t : InputTables) : SelectionOp → Option InputTables
  | .registerDemote _ _ _ => none
  | .registerIdle _ previous state => some (t.setState previous state).done
  | .registerSlots _ _ (some (previous, state)) => some (t.setState previous state).done
  | .registerInsert _ _ (some (previous, state)) _ => some (t.setState previous state).done
  | _ => some t.done

def lock (t : InputTables) (op : SelectionOp) : Option InputTables :=
  if t.op.isNone then some (t.await op) else none

def updateSession (t : InputTables) (attempt : Nat) (f : IngestSession → Option IngestSession) :
    Option InputTables := do
  let x ← f (← t.all[attempt]?)
  return { t with all := t.all.set attempt x }

def step (t : InputTables) : SelectionEvent → Option InputTables
  | .tryRegisterPipelineInputAttempt inputId selected => t.lock (.registerTokens inputId selected)
  | .selectPipelineInput inputId => t.lock (.selectActive inputId)
  | .releaseIngestSessions release forgetSelection =>
    t.lock (.releaseSessions release forgetSelection)
  | .unregisterIngestIfCurrent attempt => t.lock (.unregisterSessions attempt)
  | .resume => t.op.bind t.resume
  | .drop => t.op.bind t.dropOp
  | .cancelPipelineInput inputId =>
    some { t with tokens := Function.update t.tokens inputId ((t.tokens inputId).map fun _ => true) }
  | .tryEnter attempt boundary => t.updateSession attempt fun x => x.tryEnter boundary
  | .dropLease attempt i => t.updateSession attempt fun x => x.dropLease i
  | .recordForwarded attempt dts =>
    if (t.all[attempt]?).any fun x => !x.leases.isEmpty then
      some { t with lastForwardedDts := max t.lastForwardedDts dts }
    else none
  | .finish attempt => t.updateSession attempt IngestSession.finish

def leftUndemoted (t : InputTables) : SelectionOp → SelectionEvent → Option Nat
  | .releaseActive release _, .resume => t.active.filter release
  | .unregisterActive attempt, .resume => t.active.filter fun a => a == attempt
  | .registerInsert inputId true none _, .resume =>
    t.active.filter fun a => t.inputOf a == some inputId
  | .selectActivate replacement, .drop => some replacement
  | _, _ => none

/-- Every session such a step leaves behind forwards no more. -/
def LeavesQuiet (t : InputTables) (e : SelectionEvent) : Prop :=
  ∀ op ∈ t.op, ∀ a ∈ t.leftUndemoted op e, ∀ x ∈ t.all[a]?, ¬x.Forwards

instance (t : InputTables) (e : SelectionEvent) : Decidable (t.LeavesQuiet e) := by
  unfold LeavesQuiet
  infer_instance

end InputTables

end Restream
