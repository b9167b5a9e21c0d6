import Mathlib.Logic.Relation
import Mathlib.Data.List.Basic

/-! Executions of a labelled step function. A guard restricts the labels that
may be taken in a state; an invariant of every guarded step holds in every
state that guarded steps reach. -/

namespace Exec

variable {σ ε : Type}

def GuardedStep (step : σ → ε → Option σ) (guard : σ → ε → Prop) (s t : σ) : Prop :=
  ∃ e, guard s e ∧ step s e = some t

abbrev Reachable (step : σ → ε → Option σ) (guard : σ → ε → Prop) :=
  Relation.ReflTransGen (GuardedStep step guard)

def anyLabel (_ : σ) (_ : ε) : Prop := True

instance (s : σ) (e : ε) : Decidable (anyLabel s e) := inferInstanceAs (Decidable True)

def runGuarded (step : σ → ε → Option σ) (guard : σ → ε → Prop) [∀ s e, Decidable (guard s e)] :
    List ε → σ → Option σ
  | [], s => some s
  | e :: es, s => if guard s e then (step s e).bind (runGuarded step guard es) else none

variable {step : σ → ε → Option σ} {guard : σ → ε → Prop}

variable {s t : σ} {es : List ε}

theorem Reachable.invariant (Inv : σ → Prop)
    (hst : ∀ s e t, Inv s → guard s e → step s e = some t → Inv t)
    (hs : Inv s) (h : Reachable step guard s t) : Inv t := by
  induction h with
  | refl => exact hs
  | tail _ hl ih =>
    obtain ⟨e, hg, he⟩ := hl
    exact hst _ e _ ih hg he

theorem Reachable.mono {guard' : σ → ε → Prop} (hgu : ∀ s e, guard s e → guard' s e)
    (h : Reachable step guard s t) : Reachable step guard' s t := by
  have hle : GuardedStep step guard ≤ GuardedStep step guard' :=
    fun s _ ⟨e, hg, he⟩ => ⟨e, hgu s e hg, he⟩
  exact Relation.ReflTransGen.mono hle s t h

/-- An invariant that steps keep only while a size stays below a bound, when no
step makes the size smaller. -/
theorem Reachable.invariant_below (Base Inv : σ → Prop) (size : σ → Nat) (bound : Nat)
    (hb : ∀ s e t, Base s → step s e = some t → Base t ∧ size s ≤ size t)
    (hst : ∀ s e t, Base s → size t < bound → Inv s → guard s e → step s e = some t → Inv t)
    (hs : Base s)
    (hi : Inv s) (h : Reachable step guard s t) (ht : size t < bound) : Inv t := by
  refine (Reachable.invariant (fun t => Base t ∧ (size t < bound → Inv t)) ?_ ⟨hs,
    fun _ => hi⟩ h).2 ht
  rintro u e v ⟨hu, hinv⟩ hg he
  obtain ⟨hv, hle⟩ := hb u e v hu he
  exact ⟨hv, fun hlt => hst u e v hu hlt (hinv (Nat.lt_of_le_of_lt hle hlt)) hg he⟩

theorem reachable_of_runGuarded [∀ s e, Decidable (guard s e)]
    (h : runGuarded step guard es s = some t) : Reachable step guard s t := by
  induction es generalizing s with
  | nil =>
    cases h
    exact .refl
  | cons e es ih =>
    simp only [runGuarded, Option.ite_none_right_eq_some, Option.bind_eq_some_iff] at h
    obtain ⟨hg, u, hu, hr⟩ := h
    exact .head ⟨e, hg, hu⟩ (ih hr)

/-- A run computed on a list of labels reaches a state with the property that is decided
of its result. -/
theorem exists_reachable_of_run [∀ s e, Decidable (guard s e)] {P : σ → Prop} (es : List ε)
    (h : ∃ t ∈ runGuarded step guard es s, P t) : ∃ t, Reachable step guard s t ∧ P t := by
  obtain ⟨t, ht, hp⟩ := h
  exact ⟨t, reachable_of_runGuarded ht, hp⟩

theorem exists_reachable_of_observed [∀ s e, Decidable (guard s e)] {P : σ → Prop} (es : List ε)
    (Q : σ → Prop) (h : ∃ t ∈ runGuarded step guard es s, Q t)
    (hP : ∀ t, Reachable step guard s t → Q t → P t) : ∃ t, Reachable step guard s t ∧ P t := by
  obtain ⟨t, ht, hq⟩ := exists_reachable_of_run es h
  exact ⟨t, ht, hP t ht hq⟩

theorem exists_reachable_and [∀ s e, Decidable (guard s e)] {P Q : σ → Prop} (es : List ε)
    (h : ∃ t ∈ runGuarded step guard es s, Q t) (hP : ∀ t, Reachable step guard s t → Q t → P t) :
    ∃ t, Reachable step guard s t ∧ Q t ∧ P t :=
  exists_reachable_of_observed es Q h fun t ht hq => ⟨hq, hP t ht hq⟩

end Exec
