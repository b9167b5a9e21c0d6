import Mathlib.Data.List.Nodup
import Mathlib.Logic.Relation

/-! The graph of media stages of a pipeline: a stage is added once, with an edge from the
stage its key names as its upstream. -/

namespace Restream

open List

inductive StageKind where
  | source
  | videoPreset (preset : String) (outputCodec : Option String)
  | audioRoute (operation : String) (upstream : StageKind)
  | codecEdge (operation : String) (upstream : StageKind)
  | preview (preset : String) (upstream : StageKind)
  | hlsSegmenter (upstream : StageKind)
  | hls
  | recording
  deriving DecidableEq, Repr

def StageKind.audioOperation : StageKind → Option String
  | .audioRoute operation _ => some operation
  | _ => none

structure StageKey where
  pipeline : String
  kind : StageKind
  deriving DecidableEq, Repr

structure StagePlan where
  key : StageKey
  kind : StageKind
  input : Option StageKey
  deriving DecidableEq, Repr

structure StageEdge where
  source : StageKey
  target : StageKey
  deriving DecidableEq, Repr

inductive GraphRole where
  | output (outputId : String)
  | hlsPreview
  | hlsOutput (outputId : String)
  | recording
  | diagnostic
  deriving DecidableEq, Repr

structure StageGraphPlan where
  pipelineId : String
  role : GraphRole
  terminalStage : StageKey
  stages : List StagePlan
  edges : List StageEdge
  deriving DecidableEq, Repr

namespace StageGraphPlan

def new (pipelineId : String) (role : GraphRole) (terminalStage : StageKey) : StageGraphPlan :=
  { pipelineId := pipelineId, role := role, terminalStage := terminalStage,
    stages := [], edges := [] }

def keys (plan : StageGraphPlan) : List StageKey := plan.stages.map StagePlan.key

def inputKind : StageKind → Option StageKind
  | .source => none
  | .videoPreset _ _ | .hls | .recording => some .source
  | .audioRoute _ upstream | .codecEdge _ upstream | .preview _ upstream | .hlsSegmenter upstream =>
    some upstream

def addStage (plan : StageGraphPlan) (key : StageKey) : StageGraphPlan :=
  if key ∈ plan.keys then plan
  else
    let input :=
      (inputKind key.kind).map fun kind => { pipeline := plan.pipelineId, kind := kind : StageKey }
    { plan with
      edges := plan.edges ++ input.toList.map fun source => { source := source, target := key }
      stages := plan.stages ++ [{ key := key, kind := key.kind, input := input }] }

def sourceKey (plan : StageGraphPlan) : StageKey := { pipeline := plan.pipelineId, kind := .source }

def Reaches (plan : StageGraphPlan) : StageKey → StageKey → Prop :=
  Relation.ReflTransGen fun a b => { source := a, target := b : StageEdge } ∈ plan.edges

/-- No stage is planned twice, edges join planned stages, and every stage is fed from the
source. -/
structure Connected (plan : StageGraphPlan) : Prop where
  distinct : plan.keys.Nodup
  source : plan.sourceKey ∈ plan.keys
  edges : ∀ edge ∈ plan.edges, edge.source ∈ plan.keys ∧ edge.target ∈ plan.keys
  fed : ∀ key ∈ plan.keys, plan.Reaches plan.sourceKey key

structure WellFormed (plan : StageGraphPlan) : Prop extends Connected plan where
  terminal : plan.terminalStage ∈ plan.keys

variable {plan : StageGraphPlan} {key : StageKey}

theorem addStage_pipelineId (plan : StageGraphPlan) (key : StageKey) :
    (plan.addStage key).pipelineId = plan.pipelineId := by
  unfold addStage
  split <;> rfl

theorem addStage_terminalStage (plan : StageGraphPlan) (key : StageKey) :
    (plan.addStage key).terminalStage = plan.terminalStage := by
  unfold addStage
  split <;> rfl

theorem mem_addStage : k ∈ (plan.addStage key).keys ↔ k = key ∨ k ∈ plan.keys := by
  unfold addStage
  split
  · next hmem =>
    constructor
    · exact .inr
    · rintro (rfl | hk)
      · exact hmem
      · exact hk
  · simp [keys, or_comm]

theorem Connected.addStage (h : plan.Connected) (hki : inputKind key.kind = some kind)
    (hi : { pipeline := plan.pipelineId, kind := kind } ∈ plan.keys) :
    (plan.addStage key).Connected := by
  by_cases hmem : key ∈ plan.keys
  · rwa [StageGraphPlan.addStage, if_pos hmem]
  have hed : (plan.addStage key).edges =
      plan.edges ++ [{ source := { pipeline := plan.pipelineId, kind := kind }, target := key }] := by
    rw [StageGraphPlan.addStage, if_neg hmem, hki]
    rfl
  have hkey : (plan.addStage key).keys = plan.keys ++ [key] := by
    rw [StageGraphPlan.addStage, if_neg hmem]
    simp [keys]
  have hs : (plan.addStage key).sourceKey = plan.sourceKey := by
    rw [sourceKey, addStage_pipelineId, sourceKey]
  have hke {a b : StageKey} (hab : plan.Reaches a b) : (plan.addStage key).Reaches a b := by
    refine Relation.ReflTransGen.mono (fun x y hxy => ?_) _ _ hab
    rw [hed]
    exact mem_append_left _ hxy
  refine ⟨?_, ?_, fun edge he => ?_, fun k hk => ?_⟩
  · rw [hkey]
    exact List.Nodup.append h.distinct (nodup_singleton _) (by simpa using hmem)
  · rw [hs]
    exact mem_addStage.mpr (.inr h.source)
  · rw [hed] at he
    rcases mem_append.mp he with he | he
    · exact ⟨mem_addStage.mpr (.inr (h.edges edge he).1), mem_addStage.mpr (.inr (h.edges edge he).2)⟩
    · obtain rfl := mem_singleton.mp he
      exact ⟨mem_addStage.mpr (.inr hi), mem_addStage.mpr (.inl rfl)⟩
  · rw [hs]
    rcases mem_addStage.mp hk with rfl | hk
    · refine (hke (h.fed _ hi)).tail ?_
      rw [hed]
      exact mem_append_right _ mem_cons_self
    · exact hke (h.fed k hk)

def Supplied (pipeline : String) : List StageKey → List StageKey → Prop
  | _, [] => True
  | planned, key :: keys =>
    (∃ kind, inputKind key.kind = some kind ∧ { pipeline := pipeline, kind := kind } ∈ planned) ∧
      Supplied pipeline (key :: planned) keys

theorem Supplied.mono {keys planned planned' : List StageKey} (h : Supplied pipeline planned keys)
    (hsub : planned ⊆ planned') : Supplied pipeline planned' keys := by
  induction keys generalizing planned planned' with
  | nil => trivial
  | cons key keys ih =>
    obtain ⟨⟨kind, hk, hmem⟩, hr⟩ := h
    exact ⟨⟨kind, hk, hsub hmem⟩, ih hr (cons_subset_cons key hsub)⟩

theorem foldl_addStage (plan : StageGraphPlan) (keys : List StageKey) :
    (keys.foldl addStage plan).pipelineId = plan.pipelineId ∧
      (keys.foldl addStage plan).terminalStage = plan.terminalStage ∧
      ∀ k, k ∈ (keys.foldl addStage plan).keys ↔ k ∈ plan.keys ∨ k ∈ keys := by
  induction keys generalizing plan with
  | nil => simp
  | cons key keys ih =>
    obtain ⟨hid, ht, hmem⟩ := ih (plan.addStage key)
    refine ⟨hid.trans (plan.addStage_pipelineId key), ht.trans (plan.addStage_terminalStage key),
      fun k => ?_⟩
    rw [foldl_cons, hmem, mem_addStage, mem_cons]
    tauto

theorem Connected.foldl_addStage (h : plan.Connected) {keys : List StageKey}
    (hke : Supplied plan.pipelineId plan.keys keys) :
    (keys.foldl StageGraphPlan.addStage plan).Connected := by
  induction keys generalizing plan with
  | nil => exact h
  | cons key keys ih =>
    obtain ⟨⟨kind, hki, hmem⟩, hr⟩ := hke
    refine ih (h.addStage hki hmem) ?_
    rw [addStage_pipelineId]
    exact hr.mono fun k hk => mem_addStage.mpr (mem_cons.mp hk)

theorem connected_source (pipe : String) (role : GraphRole) (terminal : StageKey) :
    ((new pipe role terminal).addStage { pipeline := pipe, kind := .source }).Connected := by
  refine ⟨by simp [addStage, keys, new], ?_, ?_, ?_⟩
  · exact mem_addStage.mpr (.inl rfl)
  · simp [addStage, keys, new, inputKind]
  · intro key hkey
    obtain rfl : key = { pipeline := pipe, kind := .source } := by simpa [addStage, keys, new] using hkey
    exact .refl

theorem Connected.congr {plan' : StageGraphPlan} (h : plan.Connected)
    (hid : plan'.pipelineId = plan.pipelineId)
    (hst : plan'.stages = plan.stages) (he : plan'.edges = plan.edges) : plan'.Connected := by
  have hk : plan'.keys = plan.keys := by rw [keys, hst, keys]
  have hs : plan'.sourceKey = plan.sourceKey := by rw [sourceKey, hid, sourceKey]
  have hr : plan'.Reaches = plan.Reaches := by rw [Reaches, he, Reaches]
  exact ⟨hk ▸ h.distinct, by rw [hs, hk]; exact h.source, by rw [he, hk]; exact h.edges,
    by rw [hk, hr, hs]; exact h.fed⟩

end StageGraphPlan

end Restream
