import Restream.IngestPipeline
import Restream.RingChain

/-! Where published packets go. A promotion of an SRT or MoQ input follows the
links to the pipeline ring; every other input publishes where its handle points. -/

namespace Restream

open List Option InputPacketGate RingBuffer Nat Exec

inductive Routed (input : IngestInput) (dest : RingId) (outcome : ForwardOutcome) : Prop
  | held (gate : outcome.input.gate = input.gate) (ring : outcome.input.ring = input.ring)
    (published : outcome.published = none)
  | sent (p : Published) (state : input.gate.state ≠ .standby)
    (gate : outcome.input.gate.state = .active) (ring : outcome.input.ring = dest)
    (published : outcome.published = some p) (dest : p.ring = dest)

open Routed

inductive Admitted (input : IngestInput) (dest : RingId) : IngestInput × Option Selection → Prop
  | held {input' : IngestInput} (gate : input'.gate = input.gate) (ring : input'.ring = input.ring) :
    Admitted input dest (input', none)
  | entered {input' : IngestInput} {selection : Selection} (state : input.gate.state ≠ .standby)
    (gate : input'.gate.leave.state = .active) (ring : input'.ring = dest) :
    Admitted input dest (input', some selection)

namespace Admitted

variable {selected : IngestInput × Option Selection}

theorem publish (h : Admitted i dest selected) (last : Int) (act : Bool → Nat → Bool)
    (headers : Bool → List MediaPacket → List MediaPacket) :
    Routed i dest (IngestInput.publishSelected last act headers selected) := by
  cases h with
  | held gate ring => exact .held gate ring rfl
  | entered st gate ring => exact .sent _ st gate ring rfl ring

theorem of_tryEnter (h : i.gate.tryEnter bd = some (gate, act)) (hg : i'.gate = gate)
    (hr : i'.ring = dest) : Admitted i dest (i', some sel) := by
  obtain ⟨hc, hl⟩ := tryEnter_eq_some h
  refine .entered ?_ (hg ▸ hl) hr
  rcases hc with ⟨-, hs, -⟩ | ⟨-, hs⟩ <;> simp [hs]

theorem selectOrReplay (ps : List MediaPacket) :
    Admitted i i.ring (i.selectOrReplay i.gate.state ps) := by
  unfold IngestInput.selectOrReplay
  split
  · split
    · exact .held rfl rfl
    · next he => exact of_tryEnter he rfl rfl
  · simp only
    split
    · exact .held rfl rfl
    · next he => exact of_tryEnter he rfl rfl

theorem selectBatch (ps : List MediaPacket) : Admitted i i.ring (i.selectBatch ps) := by
  unfold IngestInput.selectBatch
  split
  · exact .held rfl rfl
  · split
    · exact .held rfl rfl
    · next he => exact of_tryEnter he rfl rfl

theorem selectReplay : Admitted i i.ring (i.selectReplay i.gate.state) := by
  unfold IngestInput.selectReplay
  split
  · exact .held rfl rfl
  · split
    · exact .held rfl rfl
    · next he => exact of_tryEnter he rfl rfl

end Admitted

namespace Routed

variable (last : Int)

variable {outcome : ForwardOutcome}

theorem congr (h : Routed i' dest outcome) (hg : i'.gate = i.gate) (hr : i'.ring = i.ring) :
    Routed i dest outcome := by
  cases h with
  | held gate ring pub => exact .held (gate.trans hg) (ring.trans hr) pub
  | sent p st gate ring pub dest => exact .sent p (hg ▸ st) gate ring pub dest

theorem retarget (h : Routed i dest outcome) (hd : i.gate.state ≠ .standby → dest = dest') :
    Routed i dest' outcome := by
  cases h with
  | held gate ring pub => exact .held gate ring pub
  | sent p st gate ring pub dest =>
    exact .sent p st gate (ring.trans (hd st)) pub (dest.trans (hd st))

theorem forwardPackets (ps : List MediaPacket) :
    Routed i i.ring (i.forwardPackets i.gate.state last ps) :=
  (Admitted.selectOrReplay ps).publish last _ _

theorem forwardBatch (ps : List MediaPacket) : Routed i i.ring (i.forwardBatch last ps) :=
  (Admitted.selectBatch ps).publish last _ _

theorem forwardIngestPackets (next : RingId → Option RingId) (rings : Nat) (ps : List MediaPacket) :
    Routed i (if i.gate.state = .active then i.ring else followNext next rings i.ring)
      (i.forwardIngestPackets next rings i.gate.state last ps) := by
  have ha : Admitted i i.ring (i.selectOrReplay i.gate.state ps) := Admitted.selectOrReplay ps
  unfold IngestInput.forwardIngestPackets
  generalize i.selectOrReplay i.gate.state ps = selected at ha ⊢
  refine Admitted.publish ?_ last _ _
  cases ha with
  | held gate ring => exact .held gate (by simp)
  | entered st gate ring => exact .entered st gate (by simp)

theorem forwardMessage (p : MediaPacket) :
    Routed i i.ring (i.forwardMessage i.gate.state last p) := by
  unfold IngestInput.forwardMessage
  split
  · refine Admitted.publish ?_ last _ _
    split
    · exact .held rfl rfl
    · next he => exact Admitted.of_tryEnter he rfl rfl
  · have hr : Admitted { i with standbyGop := i.standbyGop.push p } i.ring
        (IngestInput.selectReplay { i with standbyGop := i.standbyGop.push p } i.gate.state) :=
      Admitted.selectReplay
    exact (hr.publish last _ _).congr rfl rfl

theorem onVideo (p : MediaPacket) (sequenceHeader : Bool) :
    Routed i i.ring (i.onVideo i.gate.state last p sequenceHeader) := by
  cases sequenceHeader with
  | false => exact forwardMessage last p
  | true =>
    have hm : Routed { i with videoSequenceHeader := some p.payload } i.ring _ :=
      forwardMessage last p
    exact hm.congr rfl rfl

theorem onAudio (p : MediaPacket) : Routed i i.ring (i.onAudio i.gate.state last p) := by
  unfold IngestInput.onAudio
  split
  · have hm : Routed { i with audioSequenceHeader := some p.payload } i.ring _ :=
      forwardMessage last p
    exact hm.congr rfl rfl
  · exact forwardMessage last p

end Routed

namespace IngestPipeline

structure Chained (rings : List RingBuffer) (pipeline : Nat) : Prop where
  length : pipeline + 1 = rings.length
  next : ∀ {id : Nat} {r : RingBuffer}, rings[id]? = some r →
    r.next = if id = pipeline then none else some (id + 1)

/-- Only the current input has a gate that lets packets in, and if it will not
follow the links it already holds the pipeline ring. -/
structure Placed (pipeline : Nat) (current : Option Nat) (k : Nat) (x : PipelineInput) : Prop where
  ring_le : x.input.ring ≤ pipeline
  answers_le : ∀ answer ∈ x.answers, ∀ ring ∈ answer.2, ring ≤ pipeline
  selected : x.input.gate.state ≠ .standby → current = some k
  ring_eq : current = some k → x.attached = true →
    x.protocol.probes = false ∨ x.input.gate.state = .active ∧ x.probePending = false →
    x.input.ring = pipeline

structure Inv (t : IngestPipeline) : Prop where
  rings : Chained t.rings t.pipeline
  inputs : ∀ {k : Nat} {x : PipelineInput}, t.inputs[k]? = some x → Placed t.pipeline t.current k x

namespace Chained

variable {rings : List RingBuffer} {pipeline : Nat}

variable (h : Chained rings pipeline)
include h

theorem followNext {fuel id : Nat} (hid : id ≤ pipeline) (hf : pipeline ≤ id + fuel) :
    Restream.followNext (fun id => (rings[id]?).bind RingBuffer.next) fuel id = pipeline := by
  induction fuel generalizing id with
  | zero => exact le_antisymm hid hf
  | succ fuel ih =>
    have hlt : id < rings.length := by have := h.length; omega
    have hn := h.next (getElem?_eq_getElem hlt)
    rw [Restream.followNext, getElem?_eq_getElem hlt, bind_some, hn]
    by_cases hend : id = pipeline
    · simp [hend]
    · simp only [hend, if_false]
      exact ih (by omega) (by omega)

theorem modify (id : Nat) (ps : List MediaPacket) :
    Chained (rings.modify id fun r => r.pushBatch ps) pipeline where
  length := by rw [length_modify, h.length]
  next {j r} hr := by
    obtain ⟨z, hz, rfl⟩ := getElem?_modify_cases hr
    rw [← h.next hz]
    split
    · exact pushBatch_next z ps
    · rfl

theorem resize (hold : rings[pipeline]? = some old) (hcap : 0 < cap) :
    Chained (rings.set pipeline (old.sealAndForward rings.length) ++ [old.resized cap hcap])
      rings.length where
  length := by simp
  next {j r} hr := by
    have hlen := h.length
    rcases getElem?_concat_cases hr with hr | ⟨hj, rfl⟩
    · have hj : j < rings.length := by
        obtain ⟨hlt, -⟩ := List.getElem?_eq_some_iff.mp hr
        simpa using hlt
      rw [if_neg (Nat.ne_of_lt hj)]
      rcases getElem?_set_cases hr with ⟨rfl, rfl⟩ | ⟨hne, hr⟩
      · simp [sealAndForward, hlen]
      · rw [h.next hr, if_neg hne]
    · rw [length_set] at hj
      rw [if_pos hj]
      exact (resized_frame old hcap).2.2.2.2

end Chained

variable {t t' : IngestPipeline} {k : Nat} {ring : RingId} {e : PipelineEvent} {c : Call}

theorem Placed.replaced {cur : Option Nat} (hx : Placed p cur k x) (hle : p ≤ q)
    (hno : cur = some k → x.protocol.probes = false ∨
      x.input.gate.state = .active ∧ x.probePending = false → False) : Placed q cur k x :=
  ⟨hx.ring_le.trans hle, fun a ha r hr => (hx.answers_le a ha r hr).trans hle, hx.selected,
    fun hk _ hc => (hno hk hc).elim⟩

theorem Placed.answered {cur answer : Option Nat} (hx : Placed p cur k x)
    (hr : ∀ r ∈ answer, r ≤ p) :
    Placed p cur k { x with probes := probes, answers := x.answers ++ [(revision, answer)] } := by
  refine { hx with answers_le := fun answer ha => ?_ }
  rcases mem_append.mp ha with ha | ha
  · exact hx.answers_le answer ha
  · rw [mem_singleton.mp ha]
    exact hr

theorem Inv.endOfChain (h : Inv t) {id : Nat} (hid : id ≤ t.pipeline) :
    t.endOfChain id = t.pipeline :=
  h.rings.followNext hid (by have := h.rings.length; omega)

theorem Inv.setInput (h : Inv t) (hy : Placed t.pipeline t.current k y) :
    Inv { t with inputs := t.inputs.set k y, lastForwardedDts := last } where
  rings := h.rings
  inputs {j x} hx := by
    rcases getElem?_set_cases hx with ⟨rfl, rfl⟩ | ⟨-, hx⟩
    · exact hy
    · exact h.inputs hx

theorem Inv.connect (h : Inv t) (protocol : IngestProtocol) : Inv (t.connect protocol) where
  rings := h.rings
  inputs {j x} hx := by
    rcases getElem?_concat_cases hx with hx | ⟨-, rfl⟩
    · exact h.inputs hx
    · exact ⟨le_refl _, by simp, fun hs => (hs rfl).elim, fun _ ha => by cases ha⟩

theorem Inv.attach (h : Inv t) (he : t.attach k = some t') : Inv t' := by
  unfold IngestPipeline.attach at he
  simp only [bind_eq_bind, bind_eq_some_iff, ite_none_right_eq_some] at he
  obtain ⟨x, hx, -, he⟩ := he
  cases he
  exact h.setInput ⟨le_refl _, (h.inputs hx).answers_le, (h.inputs hx).selected, fun _ _ _ => rfl⟩

/-- The same input but for its registration and its gate. -/
structure SameHandle (x y : PipelineInput) : Prop where
  protocol : x.protocol = y.protocol
  attached : x.attached = y.attached
  pending : x.probePending = y.probePending
  answers : x.answers = y.answers
  ring : x.input.ring = y.input.ring

theorem SameHandle.trans (h : SameHandle x y) (h' : SameHandle y z) : SameHandle x z :=
  ⟨h.protocol.trans h'.protocol, h.attached.trans h'.attached, h.pending.trans h'.pending,
    h.answers.trans h'.answers, h.ring.trans h'.ring⟩

theorem Inv.demoteCurrent (h : Inv t) (hx : t.demoteCurrent.inputs[k]? = some x) :
    x.input.gate.state = .standby ∧ ∃ y, t.inputs[k]? = some y ∧ SameHandle x y := by
  unfold IngestPipeline.demoteCurrent at hx
  have hc : ∀ {y}, t.inputs[k]? = some y → t.current ≠ some k → y.input.gate.state = .standby :=
    fun hy hne => by_contra fun hs => hne ((h.inputs hy).selected hs)
  split at hx
  · next hn => exact ⟨hc hx (by simp [hn]), x, hx, ⟨rfl, rfl, rfl, rfl, rfl⟩⟩
  · next j hj =>
    obtain ⟨y, hy, rfl⟩ := getElem?_modify_cases hx
    by_cases hjk : k = j
    · rw [if_pos hjk]
      exact ⟨state_setState _ _, y, hy, ⟨rfl, rfl, rfl, rfl, rfl⟩⟩
    · rw [if_neg hjk]
      exact ⟨hc hy (by simpa [hj] using Ne.symm hjk), y, hy, ⟨rfl, rfl, rfl, rfl, rfl⟩⟩

theorem demoteCurrent_frame (t : IngestPipeline) :
    t.demoteCurrent.rings = t.rings ∧ t.demoteCurrent.pipeline = t.pipeline := by
  unfold demoteCurrent
  split <;> exact ⟨rfl, rfl⟩

section

variable (h : Inv t)

include h

theorem Inv.takeOver (st : InputForwardState) {inputs : List PipelineInput}
    (hi : ∀ {j : Nat} {x : PipelineInput}, inputs[j]? = some x →
      ∃ y, t.demoteCurrent.inputs[j]? = some y ∧ SameHandle x y ∧
        x.input.gate.state = if j = k then st else y.input.gate.state)
    (hri : ∀ {y : PipelineInput}, t.inputs[k]? = some y → y.attached = true →
      y.protocol.probes = false ∨ st = .active → y.input.ring = t.pipeline) :
    Inv { t.demoteCurrent with inputs := inputs, current := some k } := by
  obtain ⟨hr, hp⟩ := t.demoteCurrent_frame
  refine ⟨by simpa only [hr, hp] using h.rings, fun {j x} hx => ?_⟩
  obtain ⟨z, hz, hxz, hg⟩ := hi hx
  obtain ⟨hs, y, hy, hzy⟩ := h.demoteCurrent hz
  have hxy := hxz.trans hzy
  have hpl := h.inputs hy
  simp only [hp]
  refine ⟨hxy.ring ▸ hpl.ring_le, hxy.answers ▸ hpl.answers_le, fun hst => ?_, fun hk hatt hc => ?_⟩
  · by_contra hne
    rw [if_neg fun hjk => hne (by rw [hjk])] at hg
    exact hst (hg.trans hs)
  · cases hk
    rw [if_pos rfl] at hg
    rw [hxy.protocol, hg] at hc
    rw [hxy.ring]
    exact hri hy (hxy.attached ▸ hatt) (hc.imp_right And.left)

theorem Inv.register (hg : t.InPlace (.register k selected))
    (he : t.register k selected = some t') : Inv t' := by
  unfold IngestPipeline.register at he
  simp only [bind_eq_bind, bind_eq_some_iff, ite_none_right_eq_some] at he
  obtain ⟨x, hx, -, he⟩ := he
  cases selected with
  | false =>
    cases he
    refine ⟨h.rings, fun {j z} hz => ?_⟩
    obtain ⟨y, hy, rfl⟩ := getElem?_modify_cases hz
    have hp := h.inputs hy
    split
    · exact { hp with }
    · exact hp
  | true =>
    cases he
    refine h.takeOver (t.registeredState true) (fun {j z} hz => ?_) fun {y} hy hatt hc => ?_
    · obtain ⟨y, hy, rfl⟩ := getElem?_modify_cases hz
      obtain ⟨w, hw, rfl⟩ := getElem?_modify_cases hy
      refine ⟨w, hw, ?_⟩
      split
      · exact ⟨⟨rfl, rfl, rfl, rfl, rfl⟩, state_setState _ _⟩
      · exact ⟨⟨rfl, rfl, rfl, rfl, rfl⟩, rfl⟩
    · refine hg rfl ?_ y hy hatt
      rcases hc with hpr | hac
      · exact .inr ⟨y, hy, hpr⟩
      · refine .inl (by_contra fun hne => ?_)
        simp [registeredState, hne] at hac

theorem Inv.select (hg : t.InPlace (.select k)) : Inv (t.select k) := by
  unfold IngestPipeline.select
  split
  · exact h
  · split
    · refine h.takeOver .awaitingKeyframe (fun {j z} hz => ?_) fun {y} hy hatt hc => ?_
      · obtain ⟨y, hy, rfl⟩ := getElem?_modify_cases hz
        refine ⟨y, hy, ?_⟩
        split
        · exact ⟨⟨rfl, rfl, rfl, rfl, rfl⟩, state_setState _ _⟩
        · exact ⟨⟨rfl, rfl, rfl, rfl, rfl⟩, rfl⟩
      · rcases hc with hpr | ha
        · exact hg ⟨y, hy, hpr⟩ y hy hatt
        · cases ha
    · obtain ⟨hr, hp⟩ := t.demoteCurrent_frame
      refine ⟨by simpa only [hr, hp] using h.rings, fun {j x} hx => ?_⟩
      obtain ⟨hs, y, hy, hxy⟩ := h.demoteCurrent hx
      have hpl := h.inputs hy
      simp only [hp]
      exact ⟨hxy.ring ▸ hpl.ring_le, hxy.answers ▸ hpl.answers_le, fun hst => (hst hs).elim,
        fun hn => by cases hn⟩

theorem Inv.sendProbe (he : t.sendProbe k = some t') : Inv t' := by
  unfold IngestPipeline.sendProbe at he
  simp only [bind_eq_bind, bind_eq_some_iff, ite_none_right_eq_some] at he
  obtain ⟨x, hx, -, he⟩ := he
  cases he
  have hp := h.inputs hx
  refine h.setInput ⟨hp.ring_le, hp.answers_le, hp.selected, fun hk ha hc => ?_⟩
  exact hp.ring_eq hk ha (.inl (hc.resolve_right (by simp)))

theorem Inv.released {x : PipelineInput} (hpr : x.protocol.probes = true)
    (hle : x.input.ring ≤ t.pipeline)
    (han : ∀ answer ∈ x.answers, ∀ ring ∈ answer.2, ring ≤ t.pipeline)
    (hs : x.input.gate.state ≠ .standby → t.current = some k)
    (hm : x.protocol = .moq → x.input.gate.state = .active → x.input.ring = t.pipeline) :
    Placed t.pipeline t.current k (t.released x) := by
  unfold IngestPipeline.released
  split
  · rw [h.endOfChain hle]
    exact ⟨le_refl _, han, hs, fun _ _ _ => rfl⟩
  · next hsrt =>
    refine ⟨hle, han, hs, fun hk ha hc => ?_⟩
    cases hproto : x.protocol with
    | srt => exact (hsrt hproto).elim
    | moq =>
      rcases hc with hno | ⟨hac, -⟩
      · cases hpr.symm.trans hno
      · exact hm hproto hac
    | rtmp | hls | file | recirculation =>
      rw [hproto] at hpr
      cases hpr

theorem Inv.adaptPipelineRing (ps : Nat) : t.adaptPipelineRing ps = (t, none) ∨
    ∃ rings, Chained rings t.rings.length ∧ t.adaptPipelineRing ps =
      ({ t with rings := rings, pipeline := t.rings.length }, some t.rings.length) := by
  unfold IngestPipeline.adaptPipelineRing
  split
  · exact .inl rfl
  · next old hold =>
    split
    · next hcap => exact .inr ⟨_, h.rings.resize hold _, rfl⟩
    · exact .inl rfl

theorem Inv.applyProbe (hg : t.InPlace (.applyProbe k packets))
    (he : t.applyProbe k packets = some t') : Inv t' := by
  unfold IngestPipeline.applyProbe at he
  simp only [bind_eq_bind, bind_eq_some_iff] at he
  obtain ⟨x, hx, he⟩ := he
  split at he
  · next revision probes hpr hprobes =>
    have hp := h.inputs hx
    have hsame : Inv (t.setInput k { x with
        probes := probes
        answers := x.answers ++
          [(revision, if x.protocol = .srt then some t.pipeline else none)] }) :=
      h.setInput (hp.answered (by split <;> simp))
    by_cases hk : t.current = some k
    · simp only [hk, if_true] at he
      rcases h.adaptPipelineRing packets with ha | ⟨rings, hr, ha⟩
      · rw [ha] at he
        cases he
        exact hsame
      · rw [ha] at he
        cases he
        have hle : t.pipeline ≤ t.rings.length := (le_succ _).trans_eq h.rings.length
        have hx' : Placed t.rings.length t.current k x := by
          refine hp.replaced hle fun _ hc => ?_
          rcases hc with hno | ⟨hac, hpe⟩
          · cases hpr.symm.trans hno
          · have hmade := hg x hx hac hpe
            rw [ha] at hmade
            cases hmade
        refine ⟨hr, fun {j y} hy => ?_⟩
        rcases getElem?_set_cases hy with ⟨rfl, rfl⟩ | ⟨hne, hy⟩
        · exact hx'.answered (by split <;> simp)
        · exact (h.inputs hy).replaced hle fun hj _ => hne (Option.some.inj (hj.symm.trans hk))
    · simp only [hk, if_false] at he
      cases he
      exact hsame
  · cases he

theorem Inv.probeApplied (hg : t.InPlace (.probeApplied k)) (he : t.probeApplied k = some t') :
    Inv t' := by
  unfold IngestPipeline.probeApplied at he
  simp only [bind_eq_bind, bind_eq_some_iff] at he
  obtain ⟨x, hx, he⟩ := he
  split at he
  · next revision ring answers hpr hans =>
    have hp := h.inputs hx
    have han := hp.answers_le
    rw [hans] at han
    obtain ⟨hring, han⟩ := forall_mem_cons.mp han
    split at he
    · cases he
      exact h.setInput { hp with answers_le := han }
    · cases he
      refine h.setInput (h.released hpr ?_ han hp.selected fun hm hac => ?_)
      · cases ring with
        | none => exact hp.ring_le
        | some r => exact hring r rfl
      · exact hg x hx hm hac (revision, ring) (by rw [hans]; rfl)
  · cases he

theorem Inv.releaseHeld (hg : t.InPlace (.releaseHeld k)) (he : t.releaseHeld k = some t') :
    Inv t' := by
  unfold IngestPipeline.releaseHeld at he
  simp only [bind_eq_bind, bind_eq_some_iff, ite_none_right_eq_some] at he
  obtain ⟨x, hx, hproto, he⟩ := he
  cases he
  have hp := h.inputs hx
  have hpr : x.protocol.probes = true := by
    rcases hproto with hproto | ⟨hproto, -⟩ <;> rw [hproto] <;> rfl
  exact h.setInput (h.released hpr hp.ring_le hp.answers_le hp.selected (hg x hx))

theorem Inv.retain (keep : MediaPacket → Bool) : Inv (t.retain k keep) := by
  refine ⟨h.rings, fun {j x} hx => ?_⟩
  obtain ⟨y, hy, rfl⟩ := getElem?_modify_cases hx
  have hp := h.inputs hy
  split
  · exact { hp with }
  · exact hp

theorem Inv.call (hc : t.call e = some c) :
    t.inputs[c.k]? = some c.x ∧ Routed c.x.input t.pipeline c.outcome := by
  unfold IngestPipeline.call at hc
  simp only [bind_eq_bind, bind_eq_some_iff, ite_none_right_eq_some] at hc
  obtain ⟨k, -, x, hx, ⟨-, ha⟩, outcome, ho, hc⟩ := hc
  cases hc
  have hpl := h.inputs hx
  have hf (hpr : x.protocol.probes = false) (hs : x.input.gate.state ≠ .standby) :
      x.input.ring = t.pipeline :=
    hpl.ring_eq (hpl.selected hs) ha (.inl hpr)
  have hfo (hpe : x.probePending = false) (hs : x.input.gate.state ≠ .standby) :
      (if x.input.gate.state = .active then x.input.ring
        else followNext t.next t.rings.length x.input.ring) = t.pipeline := by
    split
    · next hac => exact hpl.ring_eq (hpl.selected hs) ha (.inr ⟨hac, hpe⟩)
    · exact h.endOfChain hpl.ring_le
  refine ⟨hx, ?_⟩
  unfold IngestPipeline.outcome at ho
  split at ho
  · split at ho
    · obtain ⟨hpe, ho⟩ := ite_none_left_eq_some.mp ho
      cases ho
      exact (forwardIngestPackets _ _ _ _).retarget (hfo (by simpa using hpe))
    · obtain ⟨hpe, ho⟩ := ite_none_left_eq_some.mp ho
      cases ho
      exact (forwardIngestPackets _ _ _ _).retarget (hfo (by simpa using hpe))
    · next hp =>
      cases ho
      exact (forwardBatch _ _).retarget (hf (by rw [hp]; rfl))
    · next hp =>
      cases ho
      exact (forwardBatch _ _).retarget (hf (by rw [hp]; rfl))
    · next hp =>
      cases ho
      exact (forwardPackets _ _).retarget (hf (by rw [hp]; rfl))
    · cases ho
  · obtain ⟨hp, ho⟩ := ite_none_right_eq_some.mp ho
    cases ho
    exact (onVideo _ _ _).retarget (hf (by rw [hp]; rfl))
  · obtain ⟨hp, ho⟩ := ite_none_right_eq_some.mp ho
    cases ho
    exact (onAudio _ _).retarget (hf (by rw [hp]; rfl))
  · cases ho

theorem Inv.deliver (hc : t.call e = some c) : Inv (t.deliver c) := by
  obtain ⟨hx, hr⟩ := h.call hc
  have hp := h.inputs hx
  unfold IngestPipeline.deliver
  cases hr with
  | held gate ring pub =>
    simp only [pub]
    refine h.setInput ⟨ring ▸ hp.ring_le, hp.answers_le, fun hs => hp.selected (gate ▸ hs), ?_⟩
    intro hk ha hca
    exact ring.trans (hp.ring_eq hk ha (gate ▸ hca))
  | sent p st gate ring pub dest =>
    simp only [pub]
    have hset : Inv { t with
        inputs := t.inputs.set c.k { c.x with input := c.outcome.input }
        lastForwardedDts := c.outcome.lastForwardedDts } :=
      h.setInput ⟨ring.le, hp.answers_le, fun _ => hp.selected st, fun _ _ _ => ring⟩
    exact ⟨h.rings.modify _ _, hset.inputs⟩

end

theorem Inv.start {ringCapacity : Nat} (hcap : 0 < ringCapacity) :
    Inv (IngestPipeline.start ringCapacity hcap) where
  rings := by
    refine ⟨rfl, fun {id r} hr => ?_⟩
    obtain ⟨rfl, rfl⟩ : id = 0 ∧ new ringCapacity hcap = r := by
      simpa [IngestPipeline.start, getElem?_singleton] using hr
    rfl
  inputs hx := by simp [IngestPipeline.start] at hx

theorem Inv.step (h : Inv t) (hg : t.InPlace e) (he : t.step e = some t') : Inv t' := by
  have hca (he : (t.call e).map t.deliver = some t') : Inv t' := by
    obtain ⟨c, hc, rfl⟩ := map_eq_some_iff.mp he
    exact h.deliver hc
  cases e with
  | connect protocol =>
    cases he
    exact h.connect protocol
  | attach k => exact h.attach he
  | register k selected => exact h.register hg he
  | select k =>
    cases he
    exact h.select hg
  | sendProbe k => exact h.sendProbe he
  | applyProbe k packets => exact h.applyProbe hg he
  | probeApplied k => exact h.probeApplied hg he
  | releaseHeld k => exact h.releaseHeld hg he
  | retain k keep =>
    cases he
    exact h.retain keep
  | packets | video | audio => exact hca he

end IngestPipeline

end Restream
