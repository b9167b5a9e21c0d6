import Restream.TimestampShift
import Restream.Exec

/-! The inputs of one pipeline that take over from each other. Every call of an
input's publisher caches what it was given, or forwards it under the activation in
force, or opens an activation and replays its cache. -/

namespace Restream

open InputPacketGate

abbrev Stream := MediaType × Nat

def MediaPacket.stream (p : MediaPacket) : Stream := (p.mediaType, p.trackIndex)

def StreamsOrdered (packets : List MediaPacket) : Prop :=
  packets.Pairwise fun p q => p.stream = q.stream → p.dts ≤ q.dts

instance (packets : List MediaPacket) : Decidable (StreamsOrdered packets) :=
  inferInstanceAs (Decidable (packets.Pairwise _))

/-- An input with all it delivered and the timestamp of the packet that opened the
activation it forwards under. -/
structure HandoffInput where
  input : IngestInput
  delivered : List MediaPacket
  opening : Option Int

structure Handoff where
  inputs : List HandoffInput
  current : Option Nat
  lastForwardedDts : Int
  log : List MediaPacket

inductive HandoffEvent where
  | register (selected : Bool)
  | select (k : Nat)
  | packets (k : Nat) (batch : List MediaPacket)
  | video (k : Nat) (packet : MediaPacket) (sequenceHeader : Bool)
  | audio (k : Nat) (packet : MediaPacket)
  | retain (k : Nat) (keep : MediaPacket → Bool)

namespace Handoff

def start : Handoff := { inputs := [], current := none, lastForwardedDts := i64Min, log := [] }

def newInput (gate : InputPacketGate) : HandoffInput :=
  { input := .new gate 0, delivered := [], opening := none }

def modifyGate (t : Handoff) (k : Nat) (f : InputPacketGate → InputPacketGate) : Handoff :=
  { t with inputs := t.inputs.modify k fun x => { x with input := { x.input with gate := f x.input.gate } } }

def demoteCurrent (t : Handoff) : Handoff :=
  match t.current with
  | none => t
  | some k => t.modifyGate k demote

structure Call where
  k : Nat
  x : HandoffInput
  delivered : List MediaPacket
  outcome : ForwardOutcome

def call (t : Handoff) : HandoffEvent → Option Call
  | .packets k batch => (t.inputs[k]?).map fun x =>
    ⟨k, x, batch, x.input.forwardIngestPackets
      (fun _ => none) 0 x.input.gate.state t.lastForwardedDts batch⟩
  | .video k packet sequenceHeader => (t.inputs[k]?).map fun x =>
    ⟨k, x, [packet], x.input.onVideo x.input.gate.state t.lastForwardedDts packet sequenceHeader⟩
  | .audio k packet => (t.inputs[k]?).map fun x =>
    ⟨k, x, [packet], x.input.onAudio x.input.gate.state t.lastForwardedDts packet⟩
  | _ => none

def openingAfter (x : HandoffInput) (selection : Selection) : Option Int :=
  if selection.activated then selection.batch.head?.map MediaPacket.dts else x.opening

def deliver (t : Handoff) (c : Call) : Handoff :=
  let y := { c.x with input := c.outcome.input, delivered := c.x.delivered ++ c.delivered }
  match c.outcome.published with
  | none => { t with inputs := t.inputs.set c.k y, lastForwardedDts := c.outcome.lastForwardedDts }
  | some published =>
    { t with
      inputs := t.inputs.set c.k { y with opening := openingAfter c.x published.selection }
      lastForwardedDts := c.outcome.lastForwardedDts
      log := t.log ++ published.headers ++ published.packets }

def register (t : Handoff) (selected : Bool) : Handoff :=
  if selected then
    let gate := if t.lastForwardedDts = i64Min then active
      else standby.armForPromotion
    { t.demoteCurrent with
      inputs := t.demoteCurrent.inputs ++ [newInput gate], current := some t.inputs.length }
  else { t with inputs := t.inputs ++ [newInput standby] }

def select (t : Handoff) (k : Nat) : Handoff :=
  if t.current = some k then t
  else if k < t.inputs.length then
    { t.demoteCurrent.modifyGate k armForPromotion with current := some k }
  else { t.demoteCurrent with current := none }

def step (t : Handoff) : HandoffEvent → Option Handoff
  | .register selected => some (t.register selected)
  | .select k => some (t.select k)
  | .retain k keep => (t.inputs[k]?).map fun x =>
    let input := { x.input with standbyGop := x.input.standbyGop.retain keep }
    { t with inputs := t.inputs.set k { x with input := input } }
  | e => (t.call e).map t.deliver

/-- What is asked of the inputs: each keeps its own streams in order and no
timestamp sum saturates. -/
def WellTimed (t : Handoff) (e : HandoffEvent) : Prop :=
  ∀ c ∈ t.call e, StreamsOrdered (c.x.delivered ++ c.delivered) ∧
    ∀ published ∈ c.outcome.published,
      FitsBatch (IngestInput.firstOnly published.selection.activated) t.lastForwardedDts 0
        c.x.input.timestampMapper published.selection.batch ∧
      ∀ first ∈ published.packets.head?, published.headers ≠ [] → InI64 (first.dts - 1)

instance (t : Handoff) (e : HandoffEvent) : Decidable (t.WellTimed e) :=
  inferInstanceAs (Decidable (∀ c ∈ t.call e, _))

/-- No packet of an input that forwards is more than one below the packet that
opened its activation, and none that an input to be promoted has kept or is given is
more than one below a keyframe before it, all in the input's own timestamps. -/
def Call.KeepsUp (c : Call) : Prop :=
  match c.x.input.gate.state with
  | .standby => True
  | .awaitingKeyframe => (c.x.input.standbyGop.packets ++ c.delivered).Pairwise
      fun p q => p.isVideoKeyframe = true → p.dts ≤ q.dts + 1
  | .active => ∀ opening ∈ c.x.opening, ∀ q ∈ c.delivered, opening ≤ q.dts + 1

instance (c : Call) : Decidable c.KeepsUp := by
  unfold Call.KeepsUp
  split <;> infer_instance

def KeepsUp (t : Handoff) (e : HandoffEvent) : Prop := ∀ c ∈ t.call e, c.KeepsUp

instance (t : Handoff) (e : HandoffEvent) : Decidable (t.KeepsUp e) :=
  inferInstanceAs (Decidable (∀ c ∈ t.call e, _))

def InTime (t : Handoff) (e : HandoffEvent) : Prop := t.WellTimed e ∧ t.KeepsUp e

instance (t : Handoff) (e : HandoffEvent) : Decidable (t.InTime e) :=
  inferInstanceAs (Decidable (_ ∧ _))

end Handoff

open List Option StandbyGopCache IngestInput

inductive Forwarded (input : IngestInput) (last : Int) (delivered : List MediaPacket)
    (outcome : ForwardOutcome) : Prop
  | held (gate : outcome.input.gate = input.gate)
    (mapper : outcome.input.timestampMapper = input.timestampMapper)
    (gop : outcome.input.standbyGop.packets.Sublist (input.standbyGop.packets ++ delivered))
    (forwarded : outcome.lastForwardedDts = last) (published : outcome.published = none)
  | continued (p : Published) (state : input.gate.state = .active)
    (gate : outcome.input.gate.state = .active)
    (gop : outcome.input.standbyGop = input.standbyGop)
    (forwarded : outcome.lastForwardedDts = InputTimestampMapper.recordForwarded p.packets last)
    (published : outcome.published = some p)
    (selection : p.selection = { activated := false, batch := delivered }) (headers : p.headers = [])
    (mapped : (outcome.input.timestampMapper, p.packets) =
      mapBatch (firstOnly false) last 0 input.timestampMapper delivered)
  | promoted (p : Published) (first : MediaPacket) (rest : List MediaPacket)
    (state : input.gate.state = .awaitingKeyframe) (gate : outcome.input.gate.state = .active)
    (gop : outcome.input.standbyGop.packets = [])
    (forwarded : outcome.lastForwardedDts = InputTimestampMapper.recordForwarded p.packets last)
    (published : outcome.published = some p)
    (selection : p.selection = { activated := true, batch := first :: rest })
    (batch : (first :: rest).Sublist (input.standbyGop.packets ++ delivered))
    (keyframe : first.isVideoKeyframe = true)
    (headers : ∀ h ∈ p.headers, ∃ q, p.packets.head? = some q ∧ h.dts = saturate (q.dts - 1))
    (mapped : (outcome.input.timestampMapper, p.packets) =
      mapBatch (firstOnly true) last 0 input.timestampMapper (first :: rest))

inductive Selected (input : IngestInput) (delivered : List MediaPacket) :
    IngestInput × Option Selection → Prop
  | held {input' : IngestInput} (gate : input'.gate = input.gate)
    (mapper : input'.timestampMapper = input.timestampMapper)
    (gop : input'.standbyGop.packets.Sublist (input.standbyGop.packets ++ delivered)) :
    Selected input delivered (input', none)
  | continued {input' : IngestInput} (state : input.gate.state = .active)
    (gate : input'.gate.leave.state = .active) (gop : input'.standbyGop = input.standbyGop)
    (mapper : input'.timestampMapper = input.timestampMapper) :
    Selected input delivered (input', some { activated := false, batch := delivered })
  | promoted {input' : IngestInput} {first : MediaPacket} {rest : List MediaPacket}
    (state : input.gate.state = .awaitingKeyframe) (gate : input'.gate.leave.state = .active)
    (batch : (first :: rest).Sublist (input.standbyGop.packets ++ delivered))
    (keyframe : first.isVideoKeyframe = true)
    (gop : input'.standbyGop.packets = []) (mapper : input'.timestampMapper = input.timestampMapper) :
    Selected input delivered (input', some { activated := true, batch := first :: rest })

namespace Selected

theorem withRing (h : Selected i del sel) (ring : RingId) :
    Selected i del ({ sel.1 with ring := ring }, sel.2) := by
  cases h with
  | held gate mapper gop => exact .held gate mapper gop
  | continued st gate gop mapper => exact .continued st gate gop mapper
  | promoted st gate batch key gop mapper => exact .promoted st gate batch key gop mapper

theorem selectOrReplay (ps : List MediaPacket) :
    Selected i ps (i.selectOrReplay i.gate.state ps) := by
  unfold IngestInput.selectOrReplay
  split
  · next ha =>
    cases he : i.gate.tryEnter (batchBoundary ps) with
    | none => exact .held rfl rfl (sublist_append_left _ _)
    | some lease =>
      obtain ⟨gate, act⟩ := lease
      obtain ⟨hc, hl⟩ := tryEnter_eq_some he
      rcases hc with ⟨-, haw, -⟩ | ⟨rfl, -⟩
      · rw [ha] at haw
        cases haw
      · exact .continued ha hl rfl rfl
  · next hi =>
    simp only
    cases he : i.gate.tryEnter (replayBoundary (ps.foldl push i.standbyGop)) with
    | none => exact .held rfl rfl (foldl_push_sublist ps i.standbyGop)
    | some lease =>
      obtain ⟨gate, act⟩ := lease
      obtain ⟨hc, hl⟩ := tryEnter_eq_some he
      rcases hc with ⟨rfl, haw, hb⟩ | ⟨-, ha⟩
      · have hre : (ps.foldl push i.standbyGop).isReplayReady = true := by
          by_contra hno
          exact hb (by simp [replayBoundary, hno])
        obtain ⟨hcl, hr, first, rest, hf, hkey⟩ := takeReplay_ready hre
        have hsub := foldl_push_sublist ps i.standbyGop
        rw [hf] at hsub
        rw [hr, hf]
        exact .promoted haw hl hsub hkey hcl rfl
      · exact absurd ha hi

theorem selectReplay (hgop : gop.packets.Sublist (i.standbyGop.packets ++ del))
    (hi : i.gate.state ≠ .active) :
    Selected i del ({ i with standbyGop := gop }.selectReplay i.gate.state) := by
  unfold IngestInput.selectReplay
  split
  · exact .held rfl rfl hgop
  · next hr =>
    simp only [not_or, Bool.not_eq_false, ne_eq, not_not] at hr
    cases he : i.gate.tryEnter .replayReady with
    | none => exact .held rfl rfl hgop
    | some lease =>
      obtain ⟨gate, act⟩ := lease
      obtain ⟨hca, hl⟩ := tryEnter_eq_some he
      rcases hca with ⟨rfl, haw, -⟩ | ⟨-, ha⟩
      · obtain ⟨hc, hre, first, rest, hf, hkey⟩ := takeReplay_ready hr.1
        rw [hf] at hgop
        simp only [hre, hf]
        exact .promoted haw hl hgop hkey hc rfl
      · exact absurd ha hi

theorem publish (h : Selected i del sel) (last : Int)
    (headers : Bool → List MediaPacket → List MediaPacket)
    (hn : ∀ ps, headers false ps = [])
    (hdts : ∀ ps, ∀ h ∈ headers true ps, ∃ q, ps.head? = some q ∧ h.dts = saturate (q.dts - 1)) :
    Forwarded i last del (publishSelected last firstOnly headers sel) := by
  cases h with
  | held gate mapper gop => exact .held gate mapper gop rfl rfl
  | continued st gate gop mapper =>
    refine .continued _ st gate gop rfl rfl rfl (hn _) ?_
    rw [← mapper]
    rfl
  | promoted st gate batch key gop mapper =>
    refine .promoted _ _ _ st gate gop rfl rfl rfl batch key (hdts _) ?_
    rfl

end Selected

namespace Forwarded

variable {i : IngestInput}

theorem congr (h : Forwarded i' last del outcome) (hg : i'.gate = i.gate)
    (hm : i'.timestampMapper = i.timestampMapper) (hgop : i'.standbyGop = i.standbyGop) :
    Forwarded i last del outcome := by
  cases h with
  | held gate mapper gop forwarded pub =>
    exact .held (gate.trans hg) (mapper.trans hm) (hgop ▸ gop) forwarded pub
  | continued p st gate gop forwarded pub selection headers mapped =>
    exact .continued p (hg ▸ st) gate (gop.trans hgop) forwarded pub selection headers (hm ▸ mapped)
  | promoted p first rest st gate gop forwarded pub selection batch key headers mapped =>
    exact .promoted p first rest (hg ▸ st) gate gop forwarded pub selection (hgop ▸ batch) key
      headers (hm ▸ mapped)

theorem promotionHeaders_dts (hh : h ∈ i.promotionHeaders act ps) :
    ∃ q, ps.head? = some q ∧ h.dts = saturate (q.dts - 1) := by
  unfold promotionHeaders at hh
  split at hh
  · next q hq =>
    refine ⟨q, hq, ?_⟩
    rcases mem_append.mp hh with hh | hh <;> rw [mem_toList, map_eq_some_iff] at hh
    · obtain ⟨pay, -, rfl⟩ := hh
      rfl
    · obtain ⟨pay, -, rfl⟩ := hh
      rfl
  · cases hh

theorem forwardIngestPackets (next : RingId → Option RingId) (rings : Nat) (ps : List MediaPacket) :
    Forwarded i last ps (i.forwardIngestPackets next rings i.gate.state last ps) := by
  have hs : Selected i ps (i.selectOrReplay i.gate.state ps) := Selected.selectOrReplay ps
  unfold IngestInput.forwardIngestPackets
  exact (hs.withRing _).publish last _ (fun _ => rfl) (by simp)

theorem tryPromote (hgop : gop.packets.Sublist (i.standbyGop.packets ++ del))
    (hi : i.gate.state ≠ .active) :
    Forwarded i last del ({ i with standbyGop := gop }.tryPromote i.gate.state last) := by
  have hs := Selected.selectReplay hgop hi
  exact hs.publish last _ (fun _ => rfl) fun _ _ hh => promotionHeaders_dts hh

theorem forwardMessage (p : MediaPacket) :
    Forwarded i last [p] (i.forwardMessage i.gate.state last p) := by
  unfold IngestInput.forwardMessage
  split
  · next ha =>
    cases he : i.gate.tryEnter (batchBoundary [p]) with
    | none => exact .held rfl rfl (sublist_append_left _ _) rfl rfl
    | some lease =>
      obtain ⟨gate, act⟩ := lease
      obtain ⟨hc, hl⟩ := tryEnter_eq_some he
      rcases hc with ⟨-, haw, -⟩ | ⟨rfl, -⟩
      · rw [ha] at haw
        cases haw
      · have hs : Selected i [p] ({ i with gate := gate },
            some { activated := false, batch := [p] }) := .continued ha hl rfl rfl
        exact hs.publish last (fun _ _ => []) (fun _ => rfl) (by simp)
  · next hi => exact tryPromote (i.standbyGop.push_sublist p) hi

theorem onVideo (p : MediaPacket) (sequenceHeader : Bool) :
    Forwarded i last [p] (i.onVideo i.gate.state last p sequenceHeader) := by
  cases sequenceHeader with
  | false => exact forwardMessage p
  | true =>
    have hm : Forwarded { i with videoSequenceHeader := some p.payload } last [p] _ :=
      forwardMessage p
    exact hm.congr rfl rfl rfl

theorem onAudio (p : MediaPacket) : Forwarded i last [p] (i.onAudio i.gate.state last p) := by
  unfold IngestInput.onAudio
  split
  · have hm : Forwarded { i with audioSequenceHeader := some p.payload } last [p] _ :=
      forwardMessage p
    exact hm.congr rfl rfl rfl
  · exact forwardMessage p

end Forwarded

end Restream
