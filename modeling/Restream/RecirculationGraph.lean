import Restream.Exec
import Restream.OutputValidation

/-! Clients that create, change and delete outputs, each request in its separate steps:
it is checked against the outputs as they are then, and saved later. -/

namespace Restream

open Relation List Option Exec

inductive OutputMutation where
  | create (row : Output)
  | update (row : Output)
  deriving DecidableEq, Repr

namespace OutputMutation

def row : OutputMutation → Output
  | create row | update row => row

def Names (row output : Output) : Prop := output.id = row.id ∧ output.pipelineId = row.pipelineId

instance (row output : Output) : Decidable (Names row output) := inferInstanceAs (Decidable (_ ∧ _))

def persist (outputs : List Output) : OutputMutation → Option (List Output)
  | create row => if outputs.any (·.id = row.id) then none else some (outputs ++ [row])
  | update row =>
    if outputs.any fun output => Names row output then
      some (outputs.map fun output =>
        if Names row output then
          { output with name := row.name, url := row.url, monitoringUrl := row.monitoringUrl, config := row.config }
        else output)
    else none

theorem recirculates_of_persist {mutation : OutputMutation} (h : mutation.persist outs = some saved)
    (he : Recirculates lib saved a b) :
    Recirculates lib outs a b ∨ (a = mutation.row.pipelineId ∧ mutation.row.feeds lib = some b) := by
  obtain ⟨o, hmem, rfl, hf⟩ := he
  cases mutation with
  | create row =>
    obtain ⟨-, hs⟩ := ite_none_left_eq_some.mp h
    cases hs
    rcases mem_append.mp hmem with hmem | hmem
    · exact .inl ⟨o, hmem, rfl, hf⟩
    · obtain rfl := mem_singleton.mp hmem
      exact .inr ⟨rfl, hf⟩
  | update row =>
    obtain ⟨-, hs⟩ := ite_none_right_eq_some.mp h
    cases hs
    obtain ⟨pre, hb, rfl⟩ := mem_map.mp hmem
    by_cases hn : Names row pre
    · simp only [if_pos hn] at hf ⊢
      exact .inr ⟨hn.2, hf⟩
    · simp only [if_neg hn] at hf ⊢
      exact .inl ⟨pre, hb, rfl, hf⟩

end OutputMutation

/-- A request that has passed its checks and is not saved yet. `listed` is the target that
was searched for cycles with the outputs listed for the search; `loaded` says that the row
to change, if there is one, has been read. -/
structure OutputRequest where
  mutation : OutputMutation
  listed : Option (RecirculationTarget × List Output)
  fromAgent : Bool
  loaded : Bool
  deriving DecidableEq, Repr

structure OutputRun (Client : Type) where
  outputs : List Output
  pending : Client → Option OutputRequest

inductive OutputEvent (Client : Type) where
  | httpCreate (client : Client) (pipelineId id : String)
    (payload : OutputPayload) (input : Option TargetInput)
  | httpUpdate (client : Client) (pipelineId id : String)
    (payload : OutputPayload) (input : Option TargetInput)
  | agentAdd (client : Client) (pipelineId fresh : String) (change : ProposedChange)
  | agentUpdate (client : Client) (pipelineId : String) (change : ProposedChange)
  | load (client : Client)
  | persist (client : Client)
  | delete (pipelineId id : String)
  | setDesiredState (pipelineId id : String) (state : DesiredOutputState) (retriesExhausted : Bool)

namespace OutputRun

variable {Client : Type} [DecidableEq Client]

def start : OutputRun Client := { outputs := [], pending := fun _ => none }

def await (r : OutputRun Client) (client : Client) (request : Option OutputRequest) :
    OutputRun Client :=
  { r with pending := Function.update r.pending client request }

def payloadRow (pipelineId id : String) (payload : OutputPayload)
    (validated : ValidatedOutputPayload) : Output :=
  { id, pipelineId, name := payload.name, url := validated.url,
    monitoringUrl := validated.monitoringUrl,
    desiredState := .stopped, retriesExhausted := false, config := validated.outputConfig }

def validate (rules : OutputRules) (r : OutputRun Client) (client : Client) (pipelineId : String)
    (payload : OutputPayload) (input : Option TargetInput)
    (mutation : ValidatedOutputPayload → OutputMutation)
    (loaded : Bool) : Option (OutputRun Client) :=
  match validateOutputPayloadForPipeline rules r.outputs input pipelineId payload with
  | .error _ => none
  | .ok validated =>
    some (r.await client (some
      { mutation := mutation validated
        listed := (payload.checkedTarget rules.toUrlLibrary).map (·, r.outputs)
        fromAgent := false
        loaded }))

def Refuses (existing row : Output) : Prop :=
  existing.desiredState = .running ∧ existing.retriesExhausted = false ∧
    (existing.url ≠ row.url ∨ existing.config ≠ row.config)

instance (existing row : Output) : Decidable (Refuses existing row) :=
  inferInstanceAs (Decidable (_ ∧ _ ∧ _))

def load (r : OutputRun Client) (client : Client) (request : OutputRequest) : OutputRun Client :=
  match r.outputs.find? fun output => OutputMutation.Names request.mutation.row output with
  | none => r.await client none
  | some existing =>
    if request.fromAgent = false ∧ Refuses existing request.mutation.row then r.await client none
    else r.await client (some { request with loaded := true })

def step (rules : OutputRules) (r : OutputRun Client) : OutputEvent Client → Option (OutputRun Client)
  | .httpCreate client pipelineId id payload input =>
    r.validate rules client pipelineId payload input
      (fun v => .create (payloadRow pipelineId id payload v)) true
  | .httpUpdate client pipelineId id payload input =>
    r.validate rules client pipelineId payload input
      (fun v => .update (payloadRow pipelineId id payload v)) false
  | .agentAdd client pipelineId fresh change =>
    match prepareAddOutput rules pipelineId fresh change with
    | .error _ => none
    | .ok row =>
      some (r.await client (some { mutation := .create row, listed := none, fromAgent := true, loaded := true }))
  | .agentUpdate client pipelineId change =>
    match prepareUpdateOutput rules r.outputs pipelineId change with
    | .error _ => none
    | .ok row =>
      some (r.await client (some { mutation := .update row, listed := none, fromAgent := true, loaded := false }))
  | .load client => (r.pending client).map (r.load client)
  | .persist client =>
    match r.pending client with
    | none => none
    | some request =>
      if request.loaded then
        some { r.await client none with outputs :=
          (request.mutation.persist r.outputs).getD r.outputs }
      else none
  | .delete pipelineId id =>
    some { r with outputs := r.outputs.filter fun output => ¬(output.id = id ∧
      output.pipelineId = pipelineId) }
  | .setDesiredState pipelineId id desiredState retriesExhausted =>
    some { r with outputs := r.outputs.map fun output =>
      if output.id = id ∧ output.pipelineId = pipelineId then
        { output with desiredState, retriesExhausted }
      else output }

/-- An edge that a request may save: the graph has it already, or it is the one that was
searched for, and the search listed every edge that the graph has now. -/
def EdgeChecked (lib : UrlLibrary) (outputs : List Output)
    (request : OutputRequest) (fed : String) : Prop :=
  Recirculates lib outputs request.mutation.row.pipelineId fed ∨
    ∃ check ∈ request.listed, check.1.pipelineId = fed ∧
      ∀ output ∈ outputs, ∀ b ∈ output.feeds lib, Recirculates lib check.2 output.pipelineId b

/-- A request saves only checked edges. -/
def SavesChecked (lib : UrlLibrary) (r : OutputRun Client) : OutputEvent Client → Prop
  | .persist client =>
    ∀ request ∈ r.pending client, ∀ fed ∈ request.mutation.row.feeds lib,
      EdgeChecked lib r.outputs request fed
  | _ => True

instance (lib : UrlLibrary) (outputs : List Output) (a b : String) :
    Decidable (Recirculates lib outputs a b) :=
  inferInstanceAs (Decidable (∃ output ∈ outputs, _ ∧ _))

instance (lib : UrlLibrary) (outputs : List Output) (request : OutputRequest) (fed : String) :
    Decidable (EdgeChecked lib outputs request fed) := by
  unfold EdgeChecked
  infer_instance

instance (lib : UrlLibrary) (r : OutputRun Client) (e : OutputEvent Client) :
    Decidable (SavesChecked lib r e) := by
  unfold SavesChecked
  split <;> infer_instance

structure Inv (lib : UrlLibrary) (r : OutputRun Client) : Prop where
  acyclic : Acyclic (Recirculates lib r.outputs)
  searched : ∀ client request check, r.pending client = some request → request.listed = some check →
    ¬ReflTransGen (Recirculates lib check.2) check.1.pipelineId request.mutation.row.pipelineId

section Steps

variable {rules : OutputRules} {r r' : OutputRun Client}

section

omit [DecidableEq Client]

theorem inv_start : Inv lib (start : OutputRun Client) where
  acyclic := acyclic_empty.mono fun _ _ ⟨_, hmem, _⟩ => not_mem_nil hmem
  searched _ _ _ h := by cases h

theorem Inv.shrink (hinv : Inv lib r) {outputs : List Output}
    (hsub : ∀ a b, Recirculates lib outputs a b → Recirculates lib r.outputs a b) :
    Inv lib { r with outputs } where
  acyclic := hinv.acyclic.mono hsub
  searched := hinv.searched

theorem Inv.acyclic_persist (hinv : Inv lib r) (hp : r.pending cl = some req)
    (hc : ∀ fed ∈ req.mutation.row.feeds lib, EdgeChecked lib r.outputs req fed)
    (hs : req.mutation.persist r.outputs = some saved) : Acyclic (Recirculates lib saved) := by
  cases hf : req.mutation.row.feeds lib with
  | none =>
    refine hinv.acyclic.mono fun a b he => ?_
    rcases OutputMutation.recirculates_of_persist hs he with hold | ⟨-, hnew⟩
    · exact hold
    · rw [hf] at hnew
      cases hnew
  | some fed =>
    have hsub : ∀ a b, Recirculates lib saved a b →
        WithEdge (Recirculates lib r.outputs) req.mutation.row.pipelineId fed a b := by
      intro a b he
      rcases OutputMutation.recirculates_of_persist hs he with hold | ⟨ha, hnew⟩
      · exact .inl hold
      · exact .inr ⟨ha, Option.some.inj (hnew.symm.trans hf)⟩
    rcases hc fed hf with hold | ⟨check, hl, rfl, hco⟩
    · refine hinv.acyclic.mono fun a b he => ?_
      rcases hsub a b he with he | ⟨rfl, rfl⟩
      · exact he
      · exact hold
    · refine Acyclic.mono (hinv.acyclic.withEdge fun hpa => ?_) hsub
      refine hinv.searched cl req check hp hl (ReflTransGen.mono ?_ _ _ hpa)
      rintro a b ⟨o, hmem, rfl, hb⟩
      exact hco o hmem b hb

end

theorem Inv.await (hinv : Inv lib r) {req : Option OutputRequest}
    (hr : ∀ q check, req = some q → q.listed = some check →
      ¬ReflTransGen (Recirculates lib check.2) check.1.pipelineId q.mutation.row.pipelineId) :
    Inv lib (r.await cl req) where
  acyclic := hinv.acyclic
  searched c q check hp hl := by
    by_cases hc : c = cl
    · subst hc
      simp only [OutputRun.await, Function.update_self] at hp
      exact hr q check hp hl
    · simp only [OutputRun.await, Function.update_of_ne hc] at hp
      exact hinv.searched c q check hp hl

theorem Inv.validate (hinv : Inv rules.toUrlLibrary r)
    (hrow : ∀ v, (mutation v).row.pipelineId = pipe)
    (hs : r.validate rules cl pipe pay i mutation loaded = some r') : Inv rules.toUrlLibrary r' := by
  unfold OutputRun.validate at hs
  split at hs <;> cases hs
  · next validated hok =>
    refine hinv.await fun q check hq hl => ?_
    cases hq
    obtain ⟨target, ht, rfl⟩ := map_eq_some_iff.mp hl
    rw [hrow]
    exact not_reaches_of_validated hok ht

theorem Inv.load (hinv : Inv lib r) (hp : r.pending cl = some req) : Inv lib (r.load cl req) := by
  have hd : Inv lib (r.await cl none) := hinv.await fun _ _ h => by cases h
  unfold OutputRun.load
  split
  · exact hd
  · split
    · exact hd
    · refine hinv.await fun q check hq hl => ?_
      cases hq
      exact hinv.searched cl req check hp hl

theorem step_inv (hinv : Inv rules.toUrlLibrary r) (hguard : SavesChecked rules.toUrlLibrary r e)
    (hstep : r.step rules e = some r') : Inv rules.toUrlLibrary r' := by
  cases e with
  | httpCreate | httpUpdate =>
    exact hinv.validate (by exact fun _ => rfl) hstep
  | agentAdd | agentUpdate =>
    simp only [step] at hstep
    split at hstep <;> cases hstep
    exact hinv.await fun q check hq hlisted => by obtain rfl := Option.some.inj hq; cases hlisted
  | load cl =>
    obtain ⟨req, hpending, rfl⟩ := map_eq_some_iff.mp hstep
    exact hinv.load hpending
  | persist cl =>
    simp only [step] at hstep
    split at hstep
    · cases hstep
    · next req hpending =>
      obtain ⟨-, hstep⟩ := ite_none_right_eq_some.mp hstep
      cases hstep
      have hdrop : Inv rules.toUrlLibrary (r.await cl none) := hinv.await fun _ _ h => by cases h
      refine ⟨?_, hdrop.searched⟩
      cases hsaved : req.mutation.persist r.outputs with
      | none => exact hinv.acyclic
      | some saved => exact hinv.acyclic_persist hpending (hguard req hpending) hsaved
  | delete pipelineId id =>
    cases hstep
    refine hinv.shrink ?_
    rintro a b ⟨output, hmem, hedge⟩
    exact ⟨output, mem_of_mem_filter hmem, hedge⟩
  | setDesiredState pipelineId id desiredState retriesExhausted =>
    cases hstep
    refine hinv.shrink ?_
    rintro a b ⟨output, hmem, ha, hb⟩
    obtain ⟨before, hbefore, rfl⟩ := mem_map.mp hmem
    refine ⟨before, hbefore, ?_⟩
    split at ha <;> split at hb <;> exact ⟨ha, hb⟩

end Steps

/-- While every request saves only edges that were checked against all that are there, the
recirculation graph has no cycle. -/
theorem recirculation_acyclic {rules : OutputRules} {r : OutputRun Client}
    (h : Reachable (step rules) (SavesChecked rules.toUrlLibrary) start r) :
    Acyclic (Recirculates rules.toUrlLibrary r.outputs) := by
  have hinv : Inv rules.toUrlLibrary r :=
    h.invariant (Inv rules.toUrlLibrary)
      (fun _ _ _ hinv hguard hstep => step_inv hinv hguard hstep) inv_start
  exact hinv.acyclic

section Pipelines

def pipelineUrl (host : String) : ParsedUrl :=
  { text := "pipeline://" ++ host ++ "/in", scheme := "pipeline",
    host := some host, pathSegments := some ["in"] }

def fourPipelines : OutputRules where
  trim url := url
  parse url := (["a", "b", "c", "A"].map pipelineUrl).find? (·.text = url)
  setHost _ host := some (pipelineUrl host)
  parsesRtmpUrl _ := true
  parseMoqUrl _ := .ok ()
  validateSrtEgressUrl _ := .ok ()
  configJson _ := ""

def sourceConfig : OutputConfig :=
  { video := .source .auto, audio := .passthrough, protocol := .auto }

def standbyInput (pipelineId : String) : Option TargetInput :=
  some { pipelineId, enabled := true, selected := false }

def createFeed {Client : Type} (client : Client) (source id target : String) : OutputEvent Client :=
  .httpCreate client source id
    { name := "feed", url := (pipelineUrl target).text,
      monitoringUrl := none, config := sourceConfig }
    (standbyInput target)

def feeds {Client : Type} (r : OutputRun Client) : List (String × Option String) :=
  r.outputs.map fun output => (output.pipelineId, output.feeds fourPipelines.toUrlLibrary)

/-- Two outputs that were checked, one of them then renamed by the agent. -/
theorem recirculation_acyclic_chain :
    ∃ r : OutputRun Unit,
      Reachable (step fourPipelines) (SavesChecked fourPipelines.toUrlLibrary) start r ∧
      r.outputs.map Output.name = ["renamed", "feed"] ∧ feeds r = [("a", some "b"), ("b", some "c")] ∧
      Acyclic (Recirculates fourPipelines.toUrlLibrary r.outputs) :=
  exists_reachable_of_observed
    [createFeed () "a" "w" "b", .persist (), createFeed () "b" "x" "c",
      .persist (), .agentUpdate () "a"
        { outputId := some "w", name := some "renamed", url := none, monitoringUrl := none,
          desiredState := none, config := none }, .load (), .persist ()]
    (fun r => r.outputs.map Output.name = ["renamed", "feed"] ∧
      feeds r = [("a", some "b"), ("b", some "c")]) (by decide +kernel)
    fun _ hr ⟨hnames, hfeeds⟩ => ⟨hnames, hfeeds, recirculation_acyclic hr⟩

theorem recirculates_of_feeds (h : (a, some b) ∈ feeds r) :
    Recirculates fourPipelines.toUrlLibrary r.outputs a b := by
  obtain ⟨o, hmem, heq⟩ := mem_map.mp h
  exact ⟨o, hmem, congrArg Prod.fst heq, congrArg Prod.snd heq⟩

/-- Three ways into a cycle: the agent saves an output whose target nobody searches; two
requests are both checked before either is saved; and the host that is saved is the lower
case of the one that was checked. -/
theorem recirculation_cycle_saved :
    (∃ r : OutputRun Unit, Reachable (step fourPipelines) anyLabel start r ∧
      feeds r = [("a", some "a")] ∧ ¬Acyclic (Recirculates fourPipelines.toUrlLibrary r.outputs)) ∧
    (∃ r : OutputRun Bool, Reachable (step fourPipelines) anyLabel start r ∧
      feeds r = [("a", some "b"), ("b", some "a")] ∧
      ¬Acyclic (Recirculates fourPipelines.toUrlLibrary r.outputs)) ∧
    (∃ r : OutputRun Unit, Reachable (step fourPipelines) anyLabel start r ∧
      feeds r = [("a", some "a")] ∧
      ¬Acyclic (Recirculates fourPipelines.toUrlLibrary r.outputs)) := by
  have hloop (r : OutputRun Unit) (_ : Reachable (step fourPipelines) anyLabel start r)
      (hfeeds : feeds r = [("a", some "a")]) :
      ¬Acyclic (Recirculates fourPipelines.toUrlLibrary r.outputs) :=
    fun hacyclic => hacyclic "a" (.single (recirculates_of_feeds (by simp [hfeeds])))
  refine ⟨exists_reachable_and [.agentAdd () "a" "x"
        { outputId := none, name := some "feed", url := some (pipelineUrl "a").text,
          monitoringUrl := none, desiredState := none, config := some sourceConfig }, .persist ()]
      (by decide +kernel) hloop,
    exists_reachable_and
      [createFeed true "a" "x" "b", createFeed false "b" "y" "a", .persist true, .persist false]
      (by decide +kernel) fun s _ hfeeds hacyclic => ?_,
    exists_reachable_and [createFeed () "a" "x" "A", .persist ()] (by decide +kernel) hloop⟩
  have hab : Recirculates fourPipelines.toUrlLibrary s.outputs "a" "b" :=
    recirculates_of_feeds (by simp [hfeeds])
  have hba : Recirculates fourPipelines.toUrlLibrary s.outputs "b" "a" :=
    recirculates_of_feeds (by simp [hfeeds])
  exact hacyclic "a" (.tail (.single hab) hba)

end Pipelines

end OutputRun

end Restream
