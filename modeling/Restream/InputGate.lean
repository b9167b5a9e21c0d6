import Restream.MediaPacket

/-! The gate through which an input forwards packets, one word that holds its
state and the number of leases, and the timestamp shift each activation fixes. -/

namespace Restream

inductive InputForwardState where
  | standby
  | awaitingKeyframe
  | active
  deriving DecidableEq, Repr

inductive InputPacketBoundary where
  | videoKeyframe
  | replayReady
  | other
  deriving DecidableEq, Repr

def InputForwardState.code : InputForwardState → Nat
  | .standby => 0
  | .awaitingKeyframe => 1
  | .active => 2

/-- The state in the low two bits, four times the leases above them. -/
structure InputPacketGate where
  stateAndInFlight : Nat
  deriving DecidableEq, Repr

namespace InputPacketGate

def stateMask : Nat := 3

def inFlightOne : Nat := 4

def standby : InputPacketGate := ⟨InputForwardState.standby.code⟩

def active : InputPacketGate := ⟨InputForwardState.active.code⟩

def state (g : InputPacketGate) : InputForwardState :=
  match g.stateAndInFlight % inFlightOne with
  | 1 => .awaitingKeyframe
  | 2 => .active
  | _ => .standby

def setState (g : InputPacketGate) (state : InputForwardState) : InputPacketGate :=
  ⟨g.stateAndInFlight / inFlightOne * inFlightOne + state.code⟩

def activate (g : InputPacketGate) : InputPacketGate := g.setState .active

def armForPromotion (g : InputPacketGate) : InputPacketGate := g.setState .awaitingKeyframe

def demote (g : InputPacketGate) : InputPacketGate := g.setState .standby

def enter (g : InputPacketGate) (activated : Bool) : Option (InputPacketGate × Bool) :=
  let counted := g.stateAndInFlight / inFlightOne * inFlightOne + inFlightOne
  if counted < 2 ^ 64 then some (⟨counted + InputForwardState.active.code⟩, activated) else none

def tryEnter (g : InputPacketGate) (boundary : InputPacketBoundary) :
    Option (InputPacketGate × Bool) :=
  match g.stateAndInFlight % inFlightOne with
  | 1 => if boundary = .other then none else g.enter true
  | 2 => g.enter false
  | _ => none

def leave (g : InputPacketGate) : InputPacketGate :=
  ⟨if inFlightOne ≤ g.stateAndInFlight then g.stateAndInFlight - inFlightOne
    else g.stateAndInFlight + (2 ^ 64 - inFlightOne)⟩

def isIdle (g : InputPacketGate) : Bool := decide (g.stateAndInFlight ≤ stateMask)

theorem state_setState (g : InputPacketGate) (s : InputForwardState) : (g.setState s).state = s := by
  have hmod : (g.stateAndInFlight / inFlightOne * inFlightOne + s.code) % inFlightOne = s.code := by
    rw [Nat.mul_add_mod_self_right]
    cases s <;> rfl
  unfold setState state
  simp only [hmod]
  cases s <;> rfl

theorem tryEnter_eq_some {g g' : InputPacketGate} (h : g.tryEnter bd = some (g', act)) :
    ((act = true ∧ g.state = .awaitingKeyframe ∧ bd ≠ .other) ∨
      (act = false ∧ g.state = .active)) ∧ g'.leave.state = .active := by
  have hl {a : Bool} (he : g.enter a = some (g', act)) :
      a = act ∧ g'.leave.state = .active := by
    simp only [enter, Option.ite_none_right_eq_some, Option.some.injEq, Prod.mk.injEq] at he
    obtain ⟨hlt, rfl, rfl⟩ := he
    refine ⟨rfl, ?_⟩
    have hle : inFlightOne ≤ g.stateAndInFlight / inFlightOne * inFlightOne + inFlightOne +
        InputForwardState.active.code := by
      omega
    have hmod : (g.stateAndInFlight / inFlightOne * inFlightOne + inFlightOne +
        InputForwardState.active.code - inFlightOne) % inFlightOne = 2 := by
      simp only [inFlightOne, InputForwardState.code]
      omega
    simp only [leave, state, hle, if_true, hmod]
  unfold tryEnter at h
  split at h
  · next hw =>
    split at h
    · cases h
    · next hne =>
      obtain ⟨rfl, ha⟩ := hl h
      exact ⟨.inl ⟨rfl, by simp only [state, hw], hne⟩, ha⟩
  · next hw =>
    obtain ⟨rfl, ha⟩ := hl h
    exact ⟨.inr ⟨rfl, by simp only [state, hw]⟩, ha⟩
  · cases h

end InputPacketGate

def i64Min : Int := -2 ^ 63

def i64Max : Int := 2 ^ 63 - 1

def saturate (x : Int) : Int := max i64Min (min i64Max x)

def InI64 (x : Int) : Prop := i64Min ≤ x ∧ x ≤ i64Max

instance (x : Int) : Decidable (InI64 x) := inferInstanceAs (Decidable (_ ∧ _))

theorem saturate_of_inI64 (h : InI64 x) : saturate x = x := by
  obtain ⟨hmin, hmax⟩ := h
  unfold saturate
  omega

structure InputTimestampMapper where
  initialized : Bool
  offsetMs : Int
  deriving DecidableEq, Repr

def MediaPacket.shift (p : MediaPacket) (offset : Int) : MediaPacket :=
  { p with dts := p.dts + offset, pts := p.pts + offset }

namespace InputTimestampMapper

def new : InputTimestampMapper := { initialized := false, offsetMs := 0 }

def nextOffset (sat : Int → Int) (m : InputTimestampMapper) (dts : Int) (activated : Bool)
    (lastForwardedDts : Int) : Int :=
  if activated then
    if lastForwardedDts = i64Min then 0 else sat (sat (lastForwardedDts + 1) - dts)
  else if m.initialized then m.offsetMs
  else 0

def mapPacket (m : InputTimestampMapper) (p : MediaPacket) (activated : Bool)
    (lastForwardedDts : Int) : InputTimestampMapper × MediaPacket :=
  let offsetMs := m.nextOffset saturate p.dts activated lastForwardedDts
  ({ initialized := true, offsetMs := offsetMs },
    { p with dts := saturate (p.dts + offsetMs), pts := saturate (p.pts + offsetMs) })

def recordForwarded (packets : List MediaPacket) (lastForwardedDts : Int) : Int :=
  match (packets.map MediaPacket.dts).max? with
  | none => lastForwardedDts
  | some dts => max lastForwardedDts dts

def Fits (m : InputTimestampMapper) (p : MediaPacket) (activated : Bool)
    (lastForwardedDts : Int) : Prop :=
  (activated = true → lastForwardedDts ≠ i64Min →
    InI64 (lastForwardedDts + 1) ∧ InI64 (lastForwardedDts + 1 - p.dts)) ∧
  InI64 (p.dts + m.nextOffset id p.dts activated lastForwardedDts) ∧
  InI64 (p.pts + m.nextOffset id p.dts activated lastForwardedDts)

instance (m : InputTimestampMapper) (p : MediaPacket) (activated : Bool) (lastForwardedDts : Int) :
    Decidable (m.Fits p activated lastForwardedDts) := inferInstanceAs (Decidable (_ ∧ _ ∧ _))

theorem mapPacket_fits {m : InputTimestampMapper} (h : m.Fits p act last) : m.mapPacket p act last =
      ({ initialized := true, offsetMs := m.nextOffset id p.dts act last },
        p.shift (m.nextOffset id p.dts act last)) := by
  obtain ⟨hsum, hdts, hpts⟩ := h
  have ho : m.nextOffset saturate p.dts act last =
      m.nextOffset id p.dts act last := by
    unfold nextOffset
    split
    · next hact =>
      split
      · rfl
      · next hl =>
        obtain ⟨hn, hd⟩ := hsum hact hl
        rw [saturate_of_inI64 hn, saturate_of_inI64 hd]
        rfl
    · rfl
  simp only [mapPacket, ho, saturate_of_inI64 hdts, saturate_of_inI64 hpts]
  rfl

end InputTimestampMapper

end Restream
