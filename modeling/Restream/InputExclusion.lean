import Restream.InputSelection

/-! What the gates and the selection lock guarantee: leases are counted, an arm
activates one lease at most, and one session at a time forwards as long as no
session that still forwards is left behind. -/

namespace Restream

open List Option IngestSession Nat Exec

namespace InputPacketGate

def inFlight (g : InputPacketGate) : Nat := g.stateAndInFlight / inFlightOne

theorem inFlight_setState (g : InputPacketGate) (s : InputForwardState) :
    (g.setState s).inFlight = g.inFlight := by
  have hc : s.code < inFlightOne := by cases s <;> decide
  rw [inFlight, setState, add_comm, add_mul_div_right _ _ (by decide), div_eq_of_lt hc,
    zero_add]
  rfl

variable {g : InputPacketGate}

theorem inFlight_tryEnter (h : g.tryEnter bd = some (g', act)) :
    g'.inFlight = g.inFlight + 1 ∧ g'.state = .active := by
  have he {a : Bool} (h : g.enter a = some (g', act)) :
      g'.inFlight = g.inFlight + 1 ∧ g'.state = .active := by
    simp only [enter, ite_none_right_eq_some, Option.some.injEq, Prod.mk.injEq] at h
    obtain ⟨-, rfl, -⟩ := h
    simp only [inFlight, state, InputForwardState.code, inFlightOne]
    have hmod : (g.stateAndInFlight / 4 * 4 + 4 + 2) % 4 = 2 := by omega
    exact ⟨by omega, by simp only [hmod]⟩
  unfold tryEnter at h
  split at h
  · split at h
    · cases h
    · exact he h
  · exact he h
  · cases h

theorem leave_state (g : InputPacketGate) : g.leave.state = g.state := by
  have hmod : g.leave.stateAndInFlight % inFlightOne = g.stateAndInFlight % inFlightOne := by
    simp only [leave]
    split
    · next hle => exact (mod_eq_sub_mod hle).symm
    · rw [add_mod, show (2 ^ 64 - inFlightOne) % inFlightOne = 0 from rfl, add_zero, mod_mod]
  simp only [state, hmod]

theorem inFlight_leave (h : 0 < g.inFlight) : g.leave.inFlight + 1 = g.inFlight := by
  have hle : inFlightOne ≤ g.stateAndInFlight := by
    simp only [inFlight, inFlightOne] at h ⊢
    omega
  have hl : g.leave = ⟨g.stateAndInFlight - inFlightOne⟩ := by rw [leave, if_pos hle]
  simp only [hl, inFlight, inFlightOne] at hle ⊢
  omega

theorem inFlight_of_isIdle (h : g.isIdle = true) : g.inFlight = 0 := by
  have hle : g.stateAndInFlight ≤ stateMask := of_decide_eq_true h
  simp only [inFlight, inFlightOne, stateMask] at hle ⊢
  omega

end InputPacketGate

namespace IngestSession

/-- The gate counts the live leases, and no arm has activated two leases: only
while the gate awaits a keyframe has the last arm activated none. -/
structure Counted (x : IngestSession) : Prop where
  inFlight : x.gate.inFlight = x.leases.length
  nodup : x.activations.Nodup
  arms : ∀ n ∈ x.activations, n ≤ x.arms
  armed : x.gate.state = .awaitingKeyframe → x.arms ∉ x.activations

variable {x y : IngestSession}

theorem Counted.setState (h : x.Counted) (st : InputForwardState) : (x.setState st).Counted := by
  refine ⟨(x.gate.inFlight_setState st).trans h.inFlight, h.nodup, fun n hn => ?_, fun hs => ?_⟩
  · have hle := h.arms n hn
    simp only [IngestSession.setState]
    split <;> omega
  · have ha : st = .awaitingKeyframe := (x.gate.state_setState st).symm.trans hs
    simp only [IngestSession.setState, if_pos ha]
    intro hmem
    exact not_succ_le_self _ (h.arms _ hmem)

theorem Counted.new (inp : InputId) (st : InputForwardState) : (new inp st).Counted := by
  have hf (gate : InputPacketGate) (hg : gate.inFlight = 0) : (fresh inp gate).Counted :=
    ⟨hg, nodup_nil, by simp [fresh], by simp [fresh]⟩
  cases st with
  | standby | active => exact hf _ rfl
  | awaitingKeyframe => exact (hf _ rfl).setState _

theorem tryEnter_eq_some (h : x.tryEnter bd = some y) :
    x.ended = false ∧ ∃ gate act, x.gate.tryEnter bd = some (gate, act) ∧ y = { x with
        gate := gate
        leases := act :: x.leases
        activations := if act then x.arms :: x.activations else x.activations } := by
  unfold tryEnter at h
  split at h
  · cases h
  · next he =>
    simp only [Option.bind_eq_bind, Option.bind_eq_some_iff, Option.pure_def, Option.some.injEq] at h
    obtain ⟨⟨gate, act⟩, hen, rfl⟩ := h
    exact ⟨by simpa using he, gate, act, hen, rfl⟩

theorem Counted.tryEnter (h : x.Counted) (he : x.tryEnter bd = some y) : y.Counted := by
  obtain ⟨-, gate, act, hen, rfl⟩ := tryEnter_eq_some he
  obtain ⟨hc, ha⟩ := InputPacketGate.inFlight_tryEnter hen
  obtain ⟨hca, -⟩ := InputPacketGate.tryEnter_eq_some hen
  refine ⟨?_, ?_, fun n hn => ?_, fun hs => ?_⟩
  · rw [hc, h.inFlight]
    rfl
  · rcases hca with ⟨rfl, hs, -⟩ | ⟨rfl, -⟩
    · exact nodup_cons.mpr ⟨h.armed hs, h.nodup⟩
    · exact h.nodup
  · cases act with
    | false => exact h.arms n hn
    | true =>
      rcases mem_cons.mp hn with rfl | hn
      · exact Nat.le_refl _
      · exact h.arms n hn
  · rw [ha] at hs
    cases hs

theorem dropLease_eq_some (h : x.dropLease i = some y) : i < x.leases.length ∧ y =
    { x with gate := x.gate.leave, leases := x.leases.eraseIdx i } := by
  obtain ⟨hi, h⟩ := ite_none_right_eq_some.mp h
  exact ⟨hi, (Option.some.inj h).symm⟩

theorem Counted.dropLease (h : x.Counted) (he : x.dropLease i = some y) : y.Counted := by
  obtain ⟨hi, rfl⟩ := dropLease_eq_some he
  have hc := InputPacketGate.inFlight_leave (zero_lt_of_lt (h.inFlight.symm ▸ hi))
  refine ⟨?_, h.nodup, h.arms, fun ha => h.armed (x.gate.leave_state ▸ ha)⟩
  have hlen := length_eraseIdx_add_one hi
  have hin := h.inFlight
  simp only
  omega

theorem finish_eq_some (h : x.finish = some y) : x.leases = [] ∧ y = { x with ended := true } := by
  obtain ⟨hl, h⟩ := ite_none_right_eq_some.mp h
  exact ⟨hl, (Option.some.inj h).symm⟩

theorem Counted.finish (h : x.Counted) (he : x.finish = some y) : y.Counted := by
  obtain ⟨-, rfl⟩ := finish_eq_some he
  exact { h with }

structure Calmer (y x : IngestSession) : Prop where
  inputId : y.inputId = x.inputId
  forwards : y.Forwards → x.Forwards
  standby : x.gate.state = .standby → y.gate.state = .standby

theorem Calmer.tryEnter (he : x.tryEnter bd = some y) : y.Calmer x := by
  obtain ⟨hen, gate, act, hent, rfl⟩ := tryEnter_eq_some he
  have ho : x.gate.state ≠ .standby := by
    rcases (InputPacketGate.tryEnter_eq_some hent).1 with ⟨-, hs, -⟩ | ⟨-, hs⟩ <;> simp [hs]
  exact ⟨rfl, fun _ => .inr ⟨ho, hen⟩, fun hs => (ho hs).elim⟩

theorem Calmer.dropLease (he : x.dropLease i = some y) : y.Calmer x := by
  obtain ⟨hi, rfl⟩ := dropLease_eq_some he
  have hl : x.leases ≠ [] := ne_nil_of_length_pos (zero_lt_of_lt hi)
  exact ⟨rfl, fun _ => .inl hl, fun hs => x.gate.leave_state.trans hs⟩

theorem Calmer.finish (he : x.finish = some y) : y.Calmer x := by
  obtain ⟨-, rfl⟩ := finish_eq_some he
  refine ⟨rfl, ?_, id⟩
  rintro (hl | ⟨-, hen⟩)
  · exact .inl hl
  · cases hen

theorem Calmer.demote (x : IngestSession) : (x.setState .standby).Calmer x := by
  refine ⟨rfl, ?_, fun _ => x.gate.state_setState _⟩
  rintro (hl | ⟨ho, -⟩)
  · exact .inl hl
  · exact (ho (x.gate.state_setState _)).elim

end IngestSession

namespace InputTables

open IngestSession

def AllCounted (t : InputTables) : Prop := ∀ x ∈ t.all, x.Counted

variable {t t' : InputTables} {op : SelectionOp}

theorem resume_all (h : t.resume op = some t') :
    t'.all = t.all ∨ (∃ a st, t'.all = t.all.modify a fun x => x.setState st) ∨
      ∃ inp st, t'.all = t.all ++ [IngestSession.new inp st] := by
  cases op with
  | registerDemote inp previous st =>
    cases h
    exact .inr (.inl ⟨previous, .standby, rfl⟩)
  | registerInsert inp sel demoted gate =>
    cases h
    exact .inr (.inr ⟨inp, gate, rfl⟩)
  | selectActive inp =>
    cases h
    split
    · exact .inl rfl
    · next previous _ =>
      split
      · exact .inl rfl
      · exact .inr (.inl ⟨previous, .standby, rfl⟩)
  | selectSessions inp =>
    cases h
    split
    · exact .inl rfl
    · next repl _ => exact .inr (.inl ⟨repl, .awaitingKeyframe, rfl⟩)
  | registerIdle | selectIdle =>
    obtain ⟨-, h⟩ := ite_none_right_eq_some.mp h
    cases h
    exact .inl rfl
  | unregisterSessions | unregisterTokens =>
    obtain ⟨inp, -, rfl⟩ := map_eq_some_iff.mp h
    repeat' split
    all_goals exact .inl rfl
  | _ =>
    cases h
    repeat' split
    all_goals exact .inl rfl

theorem lock_eq_some (h : t.lock op = some t') : t.op = none ∧ t' = t.await op := by
  obtain ⟨hn, h⟩ := ite_none_right_eq_some.mp h
  exact ⟨isNone_iff_eq_none.mp hn, (Option.some.inj h).symm⟩

theorem updateSession_eq_some (h : t.updateSession att f = some t') :
    ∃ x y, t.all[att]? = some x ∧ f x = some y ∧ t' = { t with all := t.all.set att y } := by
  simp only [updateSession, Option.bind_eq_bind, Option.bind_eq_some_iff, Option.pure_def,
    Option.some.injEq] at h
  obtain ⟨x, hx, y, hy, rfl⟩ := h
  exact ⟨x, y, hx, hy, rfl⟩

namespace AllCounted

variable {t t' : InputTables}

theorem setState (h : t.AllCounted) (hall : t'.all = t.all.modify a fun x => x.setState st) :
    t'.AllCounted := by
  intro x hx
  rw [hall] at hx
  obtain ⟨j, hj⟩ := getElem?_of_mem hx
  obtain ⟨y, hy, rfl⟩ := getElem?_modify_cases hj
  have hc := h y (mem_of_getElem? hy)
  split
  · exact hc.setState st
  · exact hc

theorem updateSession (h : t.AllCounted) (hf : ∀ {x y}, x.Counted → f x = some y → y.Counted)
    (he : t.updateSession att f = some t') : t'.AllCounted := by
  obtain ⟨x, y, hx, hy, rfl⟩ := updateSession_eq_some he
  intro z hz
  rcases mem_or_eq_of_mem_set hz with hz | rfl
  · exact h z hz
  · exact hf (h x (mem_of_getElem? hx)) hy

theorem step (h : t.AllCounted) (he : t.step e = some t') : t'.AllCounted := by
  have hl {op : SelectionOp} (he : t.lock op = some t') : t'.AllCounted := by
    obtain ⟨-, rfl⟩ := lock_eq_some he
    exact h
  cases e with
  | tryRegisterPipelineInputAttempt | selectPipelineInput | releaseIngestSessions |
      unregisterIngestIfCurrent => exact hl he
  | resume =>
    obtain ⟨op, -, he⟩ := bind_eq_some_iff.mp he
    rcases resume_all he with hall | ⟨a, st, hall⟩ | ⟨inp, st, hall⟩
    · exact fun x hx => h x (hall ▸ hx)
    · exact h.setState hall
    · intro x hx
      rw [hall, mem_append, mem_singleton] at hx
      rcases hx with hx | rfl
      · exact h x hx
      · exact Counted.new inp st
  | drop =>
    obtain ⟨op, -, he⟩ := bind_eq_some_iff.mp he
    unfold dropOp at he
    split at he <;> cases he
    · exact h.setState rfl
    · exact h.setState rfl
    · exact h.setState rfl
    · exact h
  | cancelPipelineInput inp =>
    cases he
    exact h
  | tryEnter att bd => exact h.updateSession Counted.tryEnter he
  | dropLease att i => exact h.updateSession Counted.dropLease he
  | recordForwarded att dts =>
    obtain ⟨-, he⟩ := ite_none_right_eq_some.mp he
    cases he
    exact h
  | finish att => exact h.updateSession Counted.finish he

end AllCounted

def forwarder (t : InputTables) : Option Nat :=
  match t.op with
  | some (.registerSlots _ _ (some _)) | some (.registerInsert _ _ (some _) _) => none
  | some (.selectInsert _) | some (.selectSessions _) | some .selectRemove => none
  | some (.selectActivate replacement) => some replacement
  | _ => t.active

def Closed (t : InputTables) (a : Nat) : Prop :=
  ∀ {x : IngestSession}, t.all[a]? = some x → x.gate.state = .standby

def Replaces (t : InputTables) (inputId : InputId) (selected : Bool) :
    Option (Nat × InputForwardState) → Prop
  | some (previous, _) => selected = true ∧ t.active = some previous
  | none =>
    selected = true → ∀ {a : Nat} {x : IngestSession}, t.active = some a → t.all[a]? = some x →
    x.inputId = inputId

def Awaits (t : InputTables) : SelectionOp → Prop
  | .registerDemote _ previous _ => t.active = some previous
  | .registerIdle _ previous _ | .selectIdle _ previous =>
    t.active = some previous ∧ t.Closed previous
  | .registerSlots inputId selected demoted => t.Replaces inputId selected demoted
  | .registerInsert inputId selected demoted gate =>
    t.Replaces inputId selected demoted ∧ (selected = false → gate = .standby)
  | _ => True

theorem forwarder_cases (t : InputTables) : t.forwarder = none ∨ t.forwarder = t.active ∨
    ∃ repl, t.op = some (.selectActivate repl) ∧ t.forwarder = some repl := by
  unfold forwarder
  split
  case h_6 repl hop => exact .inr (.inr ⟨repl, hop, rfl⟩)
  case h_7 => exact .inr (.inl rfl)
  all_goals exact .inl rfl

structure Inv (t : InputTables) : Prop where
  forwards : ∀ {a : Nat} {x : IngestSession}, t.all[a]? = some x → x.Forwards → t.forwarder = some a
  awaits : ∀ {op : SelectionOp}, t.op = some op → t.Awaits op

namespace Inv

variable {t t' : InputTables}

theorem keep (h : t.Inv) (hall : t'.all = t.all)
    (hfo : ∀ {a : Nat} {x : IngestSession}, t.all[a]? = some x → x.Forwards →
      t.forwarder = some a → t'.forwarder = some a) (ha : t'.op.elim True t'.Awaits) : t'.Inv where
  forwards hx hf := hfo (hall ▸ hx) hf (h.forwards (hall ▸ hx) hf)
  awaits hop := by rwa [hop] at ha

theorem calm (h : t.Inv) {all : List IngestSession}
    (hca : ∀ {a : Nat} {y : IngestSession}, all[a]? = some y → ∃ x, t.all[a]? = some x ∧ y.Calmer x) :
    Inv { t with all := all } where
  forwards hy hf := by
    obtain ⟨x, hx, hc⟩ := hca hy
    exact h.forwards hx (hc.forwards hf)
  awaits {op} hop := by
    have haw := h.awaits hop
    have hcl {a : Nat} (hcl : t.Closed a) : Closed { t with all := all } a := by
      intro y hy
      obtain ⟨x, hx, hc⟩ := hca hy
      exact hc.standby (hcl hx)
    have hr {inp : InputId} {sel : Bool} {demoted : Option (Nat × InputForwardState)}
        (hr : t.Replaces inp sel demoted) :
        Replaces { t with all := all } inp sel demoted := by
      cases demoted with
      | some d => exact hr
      | none =>
        intro hs a y ha hy
        obtain ⟨x, hx, hc⟩ := hca hy
        exact hc.inputId.trans (hr hs ha hx)
    cases op with
    | registerIdle | selectIdle => exact ⟨haw.1, hcl haw.2⟩
    | registerSlots => exact hr haw
    | registerInsert => exact ⟨hr haw.1, haw.2⟩
    | registerDemote => exact haw
    | _ => trivial

theorem updateSession (h : t.Inv) (hf : ∀ {x y}, f x = some y → y.Calmer x)
    (he : t.updateSession att f = some t') : t'.Inv := by
  obtain ⟨x, y, hx, hy, rfl⟩ := updateSession_eq_some he
  refine h.calm fun {a z} hz => ?_
  rcases getElem?_set_cases hz with ⟨rfl, rfl⟩ | ⟨-, hz⟩
  · exact ⟨x, hx, hf hy⟩
  · exact ⟨z, hz, rfl, id, id⟩

theorem demote (h : t.Inv) (previous : Nat) : (t.setState previous .standby).Inv := by
  refine h.calm fun {a z} hz => ?_
  obtain ⟨x, hx, rfl⟩ := getElem?_modify_cases hz
  refine ⟨x, hx, ?_⟩
  split
  · exact Calmer.demote x
  · exact ⟨rfl, id, id⟩

theorem closed_demote (t : InputTables) (previous : Nat) :
    (t.setState previous .standby).Closed previous := by
  intro x hx
  obtain ⟨y, -, rfl⟩ := getElem?_modify_cases hx
  rw [if_pos rfl]
  exact y.gate.state_setState _

variable {previous a : Nat} {x : IngestSession}

theorem stay (h : t.Inv) (hf : t.forwarder = t.active) (hall : t'.all = t.all)
    (hac : t'.active = t.active)
    (hf' : t'.forwarder = t'.active) (haw : t'.op.elim True t'.Awaits) : t'.Inv :=
  h.keep hall (fun _ _ ha => hf'.trans (hac.trans (hf.symm.trans ha))) haw

theorem drained (h : t.Inv) (hc : t.AllCounted) (hf : t.forwarder = some previous)
    (hcl : t.Closed previous)
    (hi : t.isIdle previous = true) (hx : t.all[a]? = some x) : ¬x.Forwards := by
  intro hfo
  obtain rfl := Option.some.inj (hf.symm.trans (h.forwards hx hfo))
  have hg : x.gate.isIdle = true := by simpa [isIdle, hx] using hi
  have hlen := (hc x (mem_of_getElem? hx)).inFlight.symm.trans (InputPacketGate.inFlight_of_isIdle hg)
  rcases hfo with hl | ⟨ho, -⟩
  · exact hl (eq_nil_of_length_eq_zero hlen)
  · exact ho (hcl hx)

theorem ofQuiet (hall : t'.all = t.all)
    (hq : ∀ {a : Nat} {x : IngestSession}, t.all[a]? = some x → ¬x.Forwards)
    (haw : t'.op.elim True t'.Awaits) : t'.Inv where
  forwards hx hf := (hq (hall ▸ hx) hf).elim
  awaits hop := by rwa [hop] at haw

theorem quiet_of_none (h : t.Inv) (hf : t.forwarder = none) (hx : t.all[a]? = some x) :
    ¬x.Forwards := by
  intro hfo
  cases hf.symm.trans (h.forwards hx hfo)

theorem insertSession (h : t.Inv) {gate : InputForwardState}
    (hq : sel = true → ∀ {a : Nat} {x : IngestSession}, t.all[a]? = some x → ¬x.Forwards)
    (hf : sel = false → t.forwarder = t.active) (hg : sel = false → gate = .standby) :
    (t.insertSession inp sel gate).done.Inv where
  forwards {a x} hx hfo := by
    rcases getElem?_concat_cases hx with hold | ⟨rfl, rfl⟩
    · cases sel with
      | true => exact (hq rfl hold hfo).elim
      | false => exact (hf rfl).symm.trans (h.forwards hold hfo)
    · cases sel with
      | true => rfl
      | false =>
        obtain rfl := hg rfl
        rcases hfo with hl | ⟨ho, -⟩
        · exact (hl rfl).elim
        · exact (ho rfl).elim
  awaits hop := by cases hop

theorem arm (hq : ∀ {a : Nat} {x : IngestSession}, t.all[a]? = some x → ¬x.Forwards) (repl : Nat) :
    ((t.setState repl .awaitingKeyframe).await (.selectActivate repl)).Inv where
  forwards {a x} hx hf := by
    obtain ⟨y, hy, rfl⟩ := getElem?_modify_cases hx
    by_cases ha : a = repl
    · rw [ha]
      rfl
    · rw [if_neg ha] at hf
      exact (hq hy hf).elim
  awaits hop := by
    cases hop
    trivial

theorem quiet_of_left (h : t.Inv) (hf : t.forwarder = t.active) (hg : t.LeavesQuiet .resume)
    (hop : t.op = some op)
    (hl : t.active = some a → t.all[a]? = some x → t.leftUndemoted op .resume = some a)
    (hx : t.all[a]? = some x) : ¬x.Forwards := by
  intro hfo
  have ha : t.active = some a := hf.symm.trans (h.forwards hx hfo)
  exact hg op hop a (hl ha hx) x hx hfo

theorem resume (h : t.Inv) (hc : t.AllCounted) (hop : t.op = some op) (hg : t.LeavesQuiet .resume)
    (he : t.resume op = some t') : t'.Inv := by
  have haw := h.awaits hop
  have hf : t.forwarder = (t.await op).forwarder := by simp only [forwarder, hop, await]
  cases op with
  | registerTokens inp sel =>
    cases he
    split <;> exact h.stay hf rfl rfl rfl trivial
  | registerSelection inp sel =>
    cases he
    split
    · exact h.stay hf rfl rfl rfl trivial
    · exact h.stay hf rfl rfl rfl fun hs => by cases hs
  | registerActive inp =>
    cases he
    split
    · next hn => exact h.stay hf rfl rfl rfl fun _ _ _ ha => by cases hn.symm.trans ha
    · next previous hp =>
      split
      · next hsa =>
        refine h.stay hf rfl rfl rfl fun _ a x ha hx => ?_
        obtain rfl := Option.some.inj (hp.symm.trans ha)
        have hx : t.all[previous]? = some x := hx
        simpa [inputOf, hx] using hsa
      · exact h.stay hf rfl rfl rfl hp
  | registerDemote inp previous st =>
    cases he
    exact (h.demote previous).stay hf rfl rfl rfl ⟨haw, closed_demote t previous⟩
  | registerIdle inp previous st =>
    obtain ⟨hi, he⟩ := ite_none_right_eq_some.mp he
    cases he
    exact ofQuiet rfl (h.drained hc (hf.trans haw.1) haw.2 hi) ⟨rfl, haw.1⟩
  | registerSlots inp sel demoted =>
    cases he
    refine h.keep rfl (fun _ _ ha => ?_) ⟨haw, fun hs => by simp [gateState, hs]⟩
    cases demoted <;> exact hf.symm.trans ha
  | registerInsert inp sel demoted gate =>
    cases he
    obtain ⟨hre, hga⟩ := haw
    cases demoted with
    | some d =>
      obtain ⟨rfl, -⟩ := hre
      exact h.insertSession (fun _ => h.quiet_of_none hf) (fun hs => by cases hs) hga
    | none =>
      refine h.insertSession (fun hs => h.quiet_of_left hf hg hop fun ha hx => ?_) (fun _ => hf) hga
      simp [leftUndemoted, hs, ha, inputOf, hx, hre hs ha hx]
  | selectActive inp =>
    cases he
    split
    · next hn => exact ofQuiet rfl (h.quiet_of_none (hf.trans hn)) trivial
    · next previous hp =>
      split
      · exact h.stay hf rfl rfl rfl trivial
      · exact (h.demote previous).stay hf rfl rfl rfl ⟨hp, closed_demote t previous⟩
  | selectIdle inp previous =>
    obtain ⟨hi, he⟩ := ite_none_right_eq_some.mp he
    cases he
    exact ofQuiet rfl (h.drained hc (hf.trans haw.1) haw.2 hi) trivial
  | selectInsert | selectRemove =>
    cases he
    exact ofQuiet rfl (h.quiet_of_none hf) trivial
  | selectSessions inp =>
    cases he
    split
    · exact ofQuiet rfl (h.quiet_of_none hf) trivial
    · next repl _ => exact arm (h.quiet_of_none hf) repl
  | selectActivate repl =>
    cases he
    exact h.keep rfl (fun _ _ ha => hf.symm.trans ha) trivial
  | selectKeep | releaseSessions | releaseTokens | releaseSelection =>
    cases he
    exact h.stay hf rfl rfl rfl trivial
  | releaseActive rel forgetSelection =>
    cases he
    by_cases hr : t.active.any rel
    · have hl {a : Nat} (ha : t.active = some a) :
          t.leftUndemoted (.releaseActive rel forgetSelection) .resume = some a := by
        have hr : rel a = true := by simpa [ha] using hr
        simp [leftUndemoted, ha, hr]
      split <;> exact ofQuiet rfl (h.quiet_of_left hf hg hop fun ha _ => hl ha) trivial
    · split <;> exact h.stay hf rfl rfl rfl trivial
  | unregisterSessions att =>
    obtain ⟨inp, -, rfl⟩ := map_eq_some_iff.mp he
    split <;> exact h.stay hf rfl rfl rfl trivial
  | unregisterTokens att =>
    obtain ⟨inp, -, rfl⟩ := map_eq_some_iff.mp he
    exact h.stay hf rfl rfl rfl trivial
  | unregisterActive att =>
    cases he
    by_cases hat : t.active = some att
    · refine ofQuiet rfl (h.quiet_of_left hf hg hop fun ha _ => ?_) trivial
      simp [leftUndemoted, ha, Option.some.inj (hat.symm.trans ha)]
    · exact h.stay hf rfl (if_neg hat) rfl trivial

theorem restore (h : t.Inv) (ha : t.active = some previous)
    (hf : t.forwarder = none ∨ t.forwarder = t.active) : (t.setState previous st).done.Inv where
  forwards {a x} hx hfo := by
    obtain ⟨y, hy, rfl⟩ := getElem?_modify_cases hx
    by_cases hap : a = previous
    · rw [hap]
      exact ha
    · rw [if_neg hap] at hfo
      have hfy := h.forwards hy hfo
      rcases hf with hf | hf
      · cases hf.symm.trans hfy
      · exact hf.symm.trans hfy
  awaits hop := by cases hop

theorem dropOp (h : t.Inv) (hop : t.op = some op) (hg : t.LeavesQuiet .drop)
    (he : t.dropOp op = some t') : t'.Inv := by
  have haw := h.awaits hop
  unfold InputTables.dropOp at he
  split at he <;> cases he
  · exact h.restore haw.1 (.inr (by simp only [forwarder, hop]))
  · exact h.restore haw.2 (.inl (by simp only [forwarder, hop]))
  · exact h.restore haw.1.2 (.inl (by simp only [forwarder, hop]))
  · refine h.keep rfl (fun {a x} hx hfo ha => ?_) trivial
    rcases t.forwarder_cases with hf | hf | ⟨repl, hac, hf⟩
    · cases hf.symm.trans ha
    · exact hf.symm.trans ha
    · obtain rfl := Option.some.inj (hf.symm.trans ha)
      exact (hg _ hac _ rfl x hx hfo).elim

theorem step (h : t.Inv) (hc : t.AllCounted) (hg : t.LeavesQuiet e) (he : t.step e = some t') :
    t'.Inv := by
  have hl {op : SelectionOp} (he : t.lock op = some t') (hf' : (t.await op).forwarder = t.active)
      (ha : t.Awaits op) : t'.Inv := by
    obtain ⟨hn, rfl⟩ := lock_eq_some he
    exact h.stay (by simp only [forwarder, hn]) rfl rfl hf' (by cases op <;> exact ha)
  cases e with
  | tryRegisterPipelineInputAttempt | selectPipelineInput | releaseIngestSessions |
      unregisterIngestIfCurrent => exact hl he rfl trivial
  | resume =>
    obtain ⟨op, hop, he⟩ := bind_eq_some_iff.mp he
    exact h.resume hc hop hg he
  | drop =>
    obtain ⟨op, hop, he⟩ := bind_eq_some_iff.mp he
    exact h.dropOp hop hg he
  | cancelPipelineInput inp =>
    cases he
    exact ⟨h.forwards, h.awaits⟩
  | tryEnter att bd => exact h.updateSession Calmer.tryEnter he
  | dropLease att i => exact h.updateSession Calmer.dropLease he
  | recordForwarded att dts =>
    obtain ⟨-, he⟩ := ite_none_right_eq_some.mp he
    cases he
    exact ⟨h.forwards, h.awaits⟩
  | finish att => exact h.updateSession Calmer.finish he

theorem start : InputTables.start.Inv where
  forwards {a x} hx := by simp [InputTables.start] at hx
  awaits hop := by cases hop

end Inv

theorem AllCounted.start : InputTables.start.AllCounted := fun x hx => by cases hx

/-- In every run a gate counts its live leases and no arm activates two leases.
In every run in which no session that still forwards is left out of the active
entry undemoted, two sessions never hold leases at the same time. -/
theorem one_session_holds_leases (t : InputTables) : (Reachable step anyLabel start t →
      ∀ x ∈ t.all, x.gate.inFlight = x.leases.length ∧ x.activations.Nodup) ∧
    (Reachable step LeavesQuiet start t → ∀ (a b : Nat) (x y : IngestSession),
      t.all[a]? = some x → t.all[b]? = some y → x.leases ≠ [] → y.leases ≠ [] → a = b) := by
  refine ⟨fun h x hx => ?_, fun h a b x y hx hy hxl hyl => ?_⟩
  · have hcounted := Reachable.invariant AllCounted (fun _ _ _ hc _ he => hc.step he) .start h
    exact ⟨(hcounted x hx).inFlight, (hcounted x hx).nodup⟩
  · obtain ⟨-, hinv⟩ := Reachable.invariant (fun t => t.AllCounted ∧ t.Inv)
      (fun _ _ _ hi hg he => ⟨hi.1.step he, hi.2.step hi.1 hg he⟩) ⟨.start, .start⟩ h
    exact Option.some.inj ((hinv.forwards hx (.inl hxl)).symm.trans (hinv.forwards hy (.inl hyl)))

def registerEvents (inputId : InputId) : List SelectionEvent :=
  .tryRegisterPipelineInputAttempt inputId true :: List.replicate 5 .resume

/-- An input that holds a lease is deselected; the other one forwards once the
lease is dropped. -/
theorem one_session_holds_leases_handover : ∃ t x y, Reachable step LeavesQuiet start t ∧
    t.all[0]? = some x ∧ t.all[1]? = some y ∧ y.leases = [true] ∧
    y.gate.inFlight = 1 ∧ x.leases = [] := by
  obtain ⟨t, hreach, ⟨x, hx⟩, y, hy, hleases⟩ : ∃ t, Reachable step LeavesQuiet start t ∧
      (∃ x, t.all[0]? = some x) ∧ ∃ y ∈ t.all[1]?, y.leases = [true] := by
    refine exists_reachable_of_observed (registerEvents 0 ++
      [.tryEnter 0 .videoKeyframe, .recordForwarded 0 40, .tryRegisterPipelineInputAttempt 1 false,
        .resume, .resume, .resume, .resume, .selectPipelineInput 1, .resume, .dropLease 0 0,
        .resume, .resume, .resume, .tryEnter 1 .videoKeyframe, .resume])
      (fun t => (t.all[0]?).isSome ∧ ∃ y ∈ t.all[1]?, y.leases = [true]) (by decide +kernel)
      fun t _ h => ⟨Option.isSome_iff_exists.mp h.1, h.2⟩
  obtain ⟨hcounted, hone⟩ := one_session_holds_leases t
  have hany : Reachable step anyLabel start t := hreach.mono fun _ _ _ => trivial
  refine ⟨t, x, y, hreach, hx, hy, hleases, ?_, by_contra fun hne => ?_⟩
  · rw [(hcounted hany y (List.mem_of_getElem? hy)).1, hleases]
    rfl
  · cases hone hreach 0 1 x y hx hy hne (by rw [hleases]; exact List.cons_ne_nil _ _)

/-- A session that holds a lease is released, and the next registration forwards
beside it. -/
theorem released_session_forwards_beside_next : ∃ t x y, Reachable step anyLabel start t ∧
    t.all[0]? = some x ∧ t.all[1]? = some y ∧ x.leases = [false] ∧ y.leases = [false] := by
  obtain ⟨t, hreach, x, hx, y, hy, hleases⟩ : ∃ t, Reachable step anyLabel start t ∧
      ∃ x ∈ t.all[0]?, ∃ y ∈ t.all[1]?, x.leases = [false] ∧ y.leases = [false] :=
    exists_reachable_of_run (registerEvents 0 ++ [.tryEnter 0 .videoKeyframe] ++
      [.releaseIngestSessions (fun _ => true) true, .resume, .resume, .resume, .resume] ++
      registerEvents 1 ++ [.tryEnter 1 .videoKeyframe]) (by decide +kernel)
  exact ⟨t, x, y, hreach, hx, hy, hleases⟩

end InputTables

end Restream
