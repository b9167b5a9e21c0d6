import Mathlib.Data.List.Count
import Mathlib.Logic.Function.Basic
import Restream.Exec

/-! The feed wakes of an egress shard. Publishers share one pending flag, and the one
that sets it owes the shard one wake command; a full command channel turns the wake into
a second flag that the shard looks at once in each iteration of its loop. Every load,
swap and channel operation is a step of its own. -/

namespace Restream

open List Option Exec

structure WakeGate where
  pending : Bool
  fullRetry : Bool
  deriving DecidableEq, Repr

namespace WakeGate

def new : WakeGate := { pending := false, fullRetry := false }

def notify (gate : WakeGate) : WakeGate × Bool := ({ gate with pending := true }, !gate.pending)

def take (gate : WakeGate) : WakeGate := { gate with pending := false }

def setFullRetry (gate : WakeGate) : WakeGate := { gate with fullRetry := true }

def takeFullDelivery (gate : WakeGate) : WakeGate × Bool :=
  ({ gate with fullRetry := false }, gate.fullRetry)

end WakeGate

inductive EgressCommand where
  | feedWake
  | other
  deriving DecidableEq, Repr

inductive WakeDelivery where
  | done
  | published
  | notified
  | full
  | taken
  deriving DecidableEq, Repr

/-- Where the loop of the shard goes on: in the command batch, in the idle wait, or at the
end of the iteration. -/
inductive ShardPhase where
  | batch (processed : Nat)
  | idleWait
  | iterationEnd
  deriving DecidableEq, Repr

/-- What the shard has in hand: nothing, a wake whose flag is still to be cleared, or a
cleared flag with the heads still to be read. -/
inductive ShardHand where
  | empty
  | woken
  | cleared
  deriving DecidableEq, Repr

structure EgressShardConfig where
  commandChannelCapacity : Nat
  commandBatchBudget : Nat
  capacity_pos : 0 < commandChannelCapacity
  budget_pos : 0 < commandBatchBudget

/-- A shard with its publishers. Publications are counted by `head`, those the shard has
seen by `observed`. -/
structure WakeRun (P : Type) where
  gate : WakeGate
  channel : List EgressCommand
  head : Nat
  observed : Nat
  delivery : P → WakeDelivery
  phase : ShardPhase
  hand : ShardHand

inductive WakeEvent (P : Type) where
  | publish (p : P)
  | notify (p : P)
  | trySend (p : P)
  | takePending (p : P)
  | setFullRetry (p : P)
  | sendOther
  | receive
  | takeWake
  | observe
  | endBatch (quiet : Bool)
  | timeout
  | takeFullDelivery

namespace WakeRun

variable {P : Type} [DecidableEq P]

def start : WakeRun P :=
  { gate := .new
    channel := []
    head := 0
    observed := 0
    delivery := fun _ => .done
    phase := .batch 0
    hand := .empty }

def deliver (r : WakeRun P) (p : P) (delivery : WakeDelivery) : WakeRun P :=
  { r with delivery := Function.update r.delivery p delivery }

@[simp] theorem deliver_channel (r : WakeRun P) (p : P) (delivery : WakeDelivery) :
    (r.deliver p delivery).channel = r.channel := rfl

@[simp] theorem deliver_hand (r : WakeRun P) (p : P) (delivery : WakeDelivery) :
    (r.deliver p delivery).hand = r.hand := rfl

def afterCommand (config : EgressShardConfig) : ShardPhase → Option ShardPhase
  | .batch processed =>
    if processed < config.commandBatchBudget then some (.batch (processed + 1)) else none
  | .idleWait => some .iterationEnd
  | .iterationEnd => none

def receive (config : EgressShardConfig) (r : WakeRun P) : Option (WakeRun P) :=
  match r.channel, afterCommand config r.phase with
  | command :: channel, some phase =>
    some { r with
      channel := channel
      phase := phase
      hand := if command = .feedWake then .woken else r.hand }
  | _, _ => none

def step (config : EgressShardConfig) (r : WakeRun P) : WakeEvent P → Option (WakeRun P)
  | .publish p =>
    if r.delivery p = .done then some { r.deliver p .published with head := r.head + 1 } else none
  | .notify p =>
    if r.delivery p = .published then
      some { r.deliver p (if r.gate.notify.2 then .notified else .done) with gate := r.gate.notify.1 }
    else none
  | .trySend p =>
    if r.delivery p = .notified then
      some (if r.channel.length < config.commandChannelCapacity then
        { r.deliver p .done with channel := r.channel ++ [.feedWake] }
      else r.deliver p .full)
    else none
  | .takePending p =>
    if r.delivery p = .full then some { r.deliver p .taken with gate := r.gate.take } else none
  | .setFullRetry p =>
    if r.delivery p = .taken then some { r.deliver p .done with gate := r.gate.setFullRetry }
      else none
  | .sendOther =>
    if r.channel.length < config.commandChannelCapacity then some { r with channel := r.channel ++
      [.other] } else none
  | .receive => if r.hand = .empty then r.receive config else none
  | .takeWake =>
    if r.hand = .woken then some { r with gate := r.gate.take, hand := .cleared } else none
  | .observe => if r.hand = .cleared then some { r with observed := r.head, hand := .empty } else none
  | .endBatch quiet =>
    match r.phase with
    | .batch processed =>
      if r.hand = .empty ∧ (processed = config.commandBatchBudget ∨ r.channel = []) then
        some { r with phase := if quiet ∧ processed = 0 then .idleWait else .iterationEnd }
      else none
    | _ => none
  | .timeout =>
    if r.hand = .empty ∧ r.phase = .idleWait then some { r with phase := .iterationEnd } else none
  | .takeFullDelivery =>
    if r.hand = .empty ∧ r.phase = .iterationEnd then
      some { r with
        gate := r.gate.takeFullDelivery.1
        phase := .batch 0
        hand := if r.gate.takeFullDelivery.2 then .cleared else .empty }
    else none

end WakeRun

inductive WakeOwner (P : Type) where
  | publisher (p : P)
  | channel
  | shard
  deriving DecidableEq

def WakeDelivery.owes : WakeDelivery → Bool
  | .notified | .full => true
  | .done | .published | .taken => false

namespace WakeRun

variable {P : Type} [DecidableEq P] {r r' : WakeRun P} {owner : Option (WakeOwner P)}

/-- The pending flag has one owner while it is set, and an unobserved publication has
someone who will make the shard read the heads. -/
structure Owned (owner : Option (WakeOwner P)) (r : WakeRun P) : Prop where
  pending : r.gate.pending = owner.isSome
  publisher : ∀ p, (r.delivery p).owes = true ↔ owner = some (.publisher p)
  channel : r.channel.count .feedWake = if owner = some .channel then 1 else 0
  shard : r.hand = .woken ↔ owner = some .shard
  kept : r.observed < r.head →
    owner.isSome = true ∨ r.gate.fullRetry = true ∨ r.hand = .cleared ∨ ∃ p, r.delivery p ≠ .done

open WakeDelivery

theorem start_owned : (start : WakeRun P).Owned none :=
  ⟨rfl, fun p => by simp [start, owes], rfl, by simp [start], fun h => absurd h (Nat.lt_irrefl 0)⟩

namespace Owned

variable {p : P} {delivery : WakeDelivery}

theorem kept_deliver (h : delivery ≠ .done) : ∃ q, (r.deliver p delivery).delivery q ≠ .done :=
  ⟨p, by simpa [deliver] using h⟩

section

variable (h : r.Owned owner)

include h

theorem publisher_deliver {owner' : Option (WakeOwner P)}
    (hs : delivery.owes = true ↔ owner' = some (.publisher p))
    (ho : ∀ q, q ≠ p → (owner' = some (.publisher q) ↔ owner = some (.publisher q))) (q : P) :
    ((r.deliver p delivery).delivery q).owes = true ↔ owner' = some (.publisher q) := by
  by_cases hq : q = p
  · subst hq
    simpa [deliver] using hs
  · simpa [deliver, hq, ho q hq] using h.publisher q

theorem publish (hd : r.delivery p = .done) :
    Owned owner { r.deliver p .published with head := r.head + 1 } := by
  have how : owner ≠ some (.publisher p) := fun ho => by
    have := (h.publisher p).mpr ho
    simp [hd, owes] at this
  exact ⟨h.pending, h.publisher_deliver (by simp [owes, how]) fun _ _ => Iff.rfl, h.channel, h.shard,
    fun _ => .inr (.inr (.inr (kept_deliver (by simp))))⟩

theorem notify (hpu : r.delivery p = .published) :
    ∃ owner', Owned owner' { r.deliver p (if r.gate.notify.2 then .notified else .done) with
      gate := r.gate.notify.1 } := by
  have hp : owner ≠ some (.publisher p) := fun ho => by
    have := (h.publisher p).mpr ho
    simp [hpu, owes] at this
  cases owner with
  | none =>
    have hc : r.gate.notify.2 = true := by simp [WakeGate.notify, h.pending]
    rw [hc]
    refine ⟨some (.publisher p), rfl, h.publisher_deliver (by simp [owes]) fun q hq => ?_, ?_, ?_, ?_⟩
    · simp [Ne.symm hq]
    · simpa using h.channel
    · simpa using h.shard
    · exact fun _ => .inl rfl
  | some owner =>
    have hset : r.gate.notify.2 = false := by simp [WakeGate.notify, h.pending]
    rw [hset]
    exact ⟨some owner, rfl, h.publisher_deliver (by simp [owes, hp]) fun _ _ => Iff.rfl,
      h.channel, h.shard,
      fun _ => .inl rfl⟩

theorem trySend (hn : r.delivery p = .notified) (room : Prop) [Decidable room] :
    ∃ owner',
      Owned owner' (if room then { r.deliver p .done with channel := r.channel ++ [.feedWake] }
      else r.deliver p .full) := by
  obtain rfl : owner = some (.publisher p) := (h.publisher p).mp (by rw [hn]; rfl)
  split
  · refine ⟨some .channel, h.pending, h.publisher_deliver (by simp [owes]) fun q hq => ?_, ?_, ?_, ?_⟩
    · simp [Ne.symm hq]
    · have hno := h.channel
      simp [hno]
    · simpa using h.shard
    · exact fun _ => .inl rfl
  · exact ⟨some (.publisher p), h.pending, h.publisher_deliver (by simp [owes]) fun _ _ => Iff.rfl,
      h.channel,
      h.shard, fun _ => .inl rfl⟩

theorem takePending (hf : r.delivery p = .full) :
    Owned none { r.deliver p .taken with gate := r.gate.take } := by
  obtain rfl : owner = some (.publisher p) := (h.publisher p).mp (by rw [hf]; rfl)
  refine ⟨rfl, h.publisher_deliver (by simp [owes]) fun q hq => ?_, ?_, ?_, ?_⟩
  · simp [Ne.symm hq]
  · simpa using h.channel
  · simpa using h.shard
  · exact fun _ => .inr (.inr (.inr (kept_deliver (by simp))))

theorem setFullRetry (ht : r.delivery p = .taken) :
    Owned owner { r.deliver p .done with gate := r.gate.setFullRetry } := by
  have how : owner ≠ some (.publisher p) := fun ho => by
    have := (h.publisher p).mpr ho
    simp [ht, owes] at this
  exact ⟨h.pending, h.publisher_deliver (by simp [owes, how]) fun _ _ => Iff.rfl, h.channel, h.shard,
    fun _ => .inr (.inl rfl)⟩

theorem sendOther : Owned owner { r with channel := r.channel ++ [.other] } :=
  ⟨h.pending, h.publisher, by simpa using h.channel, h.shard, h.kept⟩

theorem receive (hs : r.receive c = some r') : ∃ owner', Owned owner' r' := by
  unfold WakeRun.receive at hs
  split at hs <;> cases hs
  · next command channel phase hch hp =>
    have hc := h.channel
    rw [hch] at hc
    cases command with
    | feedWake =>
      have ho : owner = some .channel := by
        by_contra hne
        simp [hne] at hc
      subst ho
      refine ⟨some .shard, h.pending, fun p => ?_, ?_, by simp, fun _ => .inl rfl⟩
      · simpa using h.publisher p
      · simpa using hc
    | other =>
      refine ⟨owner, h.pending, h.publisher, by simpa using hc, ?_, ?_⟩
      · simpa using h.shard
      · simpa using h.kept

theorem takeWake (hw : r.hand = .woken) :
    Owned none { r with gate := r.gate.take, hand := .cleared } := by
  obtain rfl := h.shard.mp hw
  refine ⟨rfl, fun p => ?_, ?_, by simp, fun _ => .inr (.inr (.inl rfl))⟩
  · simpa using h.publisher p
  · simpa using h.channel

theorem observe (hc : r.hand = .cleared) :
    Owned owner { r with observed := r.head, hand := .empty } := by
  have hs := h.shard
  rw [hc] at hs
  exact ⟨h.pending, h.publisher,
    h.channel, by simpa using hs, fun hlt => absurd hlt (Nat.lt_irrefl _)⟩

theorem phase (phase : ShardPhase) : Owned owner { r with phase := phase } :=
  { h with }

theorem takeFullDelivery (he : r.hand = .empty) : Owned owner { r with
    gate := r.gate.takeFullDelivery.1
    phase := .batch 0
    hand := if r.gate.takeFullDelivery.2 then .cleared else .empty } := by
  have hs := h.shard
  rw [he] at hs
  cases hr : r.gate.fullRetry with
  | false =>
    have hk := h.kept
    simp only [hr, he, reduceCtorEq, false_or] at hk
    refine ⟨h.pending, h.publisher,
      h.channel, by simpa [WakeGate.takeFullDelivery, hr] using hs, fun hlt => ?_⟩
    exact (hk hlt).imp_right fun hp => .inr (.inr hp)
  | true =>
    refine ⟨h.pending, h.publisher, h.channel, ?_, fun _ => .inr (.inr (.inl ?_))⟩
    · simpa [WakeGate.takeFullDelivery, hr] using hs
    · simp [WakeGate.takeFullDelivery, hr]

end

end Owned

theorem step_owned (h : r.Owned owner) (hs : r.step c event = some r') :
    ∃ owner', Owned owner' r' := by
  cases event with
  | publish p =>
    obtain ⟨hd, hr⟩ := ite_none_right_eq_some.mp hs
    exact Option.some.inj hr ▸ ⟨owner, h.publish hd⟩
  | notify p =>
    obtain ⟨hp, hr⟩ := ite_none_right_eq_some.mp hs
    exact Option.some.inj hr ▸ h.notify hp
  | trySend p =>
    obtain ⟨hn, hr⟩ := ite_none_right_eq_some.mp hs
    exact Option.some.inj hr ▸ h.trySend hn _
  | takePending p =>
    obtain ⟨hf, hr⟩ := ite_none_right_eq_some.mp hs
    exact Option.some.inj hr ▸ ⟨none, h.takePending hf⟩
  | setFullRetry p =>
    obtain ⟨ht, hr⟩ := ite_none_right_eq_some.mp hs
    exact Option.some.inj hr ▸ ⟨owner, h.setFullRetry ht⟩
  | sendOther =>
    obtain ⟨-, hr⟩ := ite_none_right_eq_some.mp hs
    exact Option.some.inj hr ▸ ⟨owner, h.sendOther⟩
  | receive =>
    obtain ⟨-, hr⟩ := ite_none_right_eq_some.mp hs
    exact h.receive hr
  | takeWake =>
    obtain ⟨hw, hr⟩ := ite_none_right_eq_some.mp hs
    exact Option.some.inj hr ▸ ⟨none, h.takeWake hw⟩
  | observe =>
    obtain ⟨hc, hr⟩ := ite_none_right_eq_some.mp hs
    exact Option.some.inj hr ▸ ⟨owner, h.observe hc⟩
  | endBatch quiet =>
    simp only [step] at hs
    split at hs
    · obtain ⟨-, hr⟩ := ite_none_right_eq_some.mp hs
      exact Option.some.inj hr ▸ ⟨owner, h.phase _⟩
    · cases hs
  | timeout =>
    obtain ⟨-, hr⟩ := ite_none_right_eq_some.mp hs
    exact Option.some.inj hr ▸ ⟨owner, h.phase _⟩
  | takeFullDelivery =>
    obtain ⟨⟨he, -⟩, hr⟩ := ite_none_right_eq_some.mp hs
    exact Option.some.inj hr ▸ ⟨owner, h.takeFullDelivery he⟩

/-- While a publication is unobserved a wake is queued or received, the retry flag is set,
the shard is about to read the heads, or a delivery is not finished; and no second wake is
queued. -/
theorem feed_wake_not_lost (config : EgressShardConfig)
    (hrun : Reachable (step config) anyLabel start r) :
    (r.observed < r.head → .feedWake ∈ r.channel ∨ r.gate.fullRetry = true ∨ r.hand = .cleared ∨
      r.hand = .woken ∨ ∃ p, r.delivery p ≠ .done) ∧ r.channel.count .feedWake ≤ 1 := by
  obtain ⟨owner, h⟩ := hrun.invariant (fun r => ∃ owner, r.Owned owner)
    (fun _ _ _ ⟨_, h⟩ _ hstep => step_owned h hstep) ⟨none, start_owned⟩
  refine ⟨fun hlt => ?_, ?_⟩
  · rcases h.kept hlt with howner | hretry | hcleared | hp
    · obtain ⟨owner, rfl⟩ := Option.isSome_iff_exists.mp howner
      cases owner with
      | publisher p =>
        refine .inr (.inr (.inr (.inr ⟨p, fun hdone => ?_⟩)))
        have := (h.publisher p).mpr rfl
        simp [hdone, owes] at this
      | channel =>
        have hone := h.channel
        rw [if_pos rfl] at hone
        exact .inl (List.count_pos_iff.mp (by omega))
      | shard => exact .inr (.inr (.inr (.inl (h.shard.mpr rfl))))
    · exact .inr (.inl hretry)
    · exact .inr (.inr (.inl hcleared))
    · exact .inr (.inr (.inr (.inr hp)))
  · rw [h.channel]
    split <;> omega

/-- A run whose last publication is only left to the full channel's retry flag. -/
theorem feed_wake_not_lost_full : ∃ r : WakeRun Unit,
    Reachable (step ⟨1, 1, by decide, by decide⟩) anyLabel start r ∧ r.observed < r.head ∧
      .feedWake ∉ r.channel ∧ (.feedWake ∈ r.channel ∨ r.gate.fullRetry = true ∨ r.hand = .cleared ∨
        r.hand = .woken ∨ ∃ p, r.delivery p ≠ .done) :=
  exists_reachable_of_observed
    [.sendOther, .publish (), .notify (), .trySend (), .takePending (), .setFullRetry ()]
    (fun r => r.observed < r.head ∧ .feedWake ∉ r.channel) (by decide +kernel)
    fun _ hreach ⟨hlt, hchannel⟩ => ⟨hlt, hchannel, (feed_wake_not_lost _ hreach).1 hlt⟩

/-- Between the receipt of a wake and the clearing of its flag, only the shard's hand has
it: the channel is empty, no flag was cleared and the publisher is done. -/
theorem received_wake_in_hand : ∃ r : WakeRun Unit,
    Reachable (step ⟨1, 1, by decide, by decide⟩) anyLabel start r ∧ r.observed < r.head ∧
      .feedWake ∉ r.channel ∧ r.gate.fullRetry = false ∧
      r.hand ≠ .cleared ∧ ∀ p, r.delivery p = .done :=
  exists_reachable_of_observed [.publish (), .notify (), .trySend (), .receive]
    (fun r => r.observed < r.head ∧ .feedWake ∉ r.channel ∧ r.gate.fullRetry = false ∧
      r.hand ≠ .cleared ∧ r.delivery () = .done) (by decide +kernel)
    fun _ _ ⟨hlt, hchannel, hretry, hhand, hdone⟩ => ⟨hlt, hchannel, hretry, hhand, fun _ => hdone⟩

end WakeRun

end Restream
