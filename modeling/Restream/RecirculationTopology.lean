import Restream.OutputConfig
import Restream.AcyclicRelation

/-! Outputs that feed their pipeline into an input of another one. Before such an output
is saved, the pipelines its target leads to are searched for its own. -/

namespace Restream

open Relation List Option

structure ParsedUrl where
  text : String
  scheme : String
  host : Option String
  pathSegments : Option (List String)
  deriving DecidableEq, Repr

/-- What the URL parser and the standard library make of a text. -/
structure UrlLibrary where
  trim : String → String
  parse : String → Option ParsedUrl
  setHost : ParsedUrl → String → Option ParsedUrl

def UrlLibrary.schemeOf (lib : UrlLibrary) (url : String) : Option String :=
  (lib.parse (lib.trim url)).map ParsedUrl.scheme

inductive RecirculationTargetParseError where
  | malformedUrl
  | unsupportedScheme
  | missingPipeline
  | missingInput
  deriving DecidableEq, Repr

def RecirculationTargetParseError.message : RecirculationTargetParseError → String
  | .malformedUrl => "recirculation URL must be a valid absolute URL"
  | .unsupportedScheme => "recirculation URL scheme must be pipeline://"
  | .missingPipeline => "recirculation URL must include a target pipeline"
  | .missingInput => "recirculation URL must include a target input"

structure RecirculationTarget where
  pipelineId : String
  inputId : String
  deriving DecidableEq, Repr

def RecirculationTarget.parse (lib : UrlLibrary) (url : String) :
    Except RecirculationTargetParseError RecirculationTarget :=
  match lib.parse (lib.trim url) with
  | none => .error .malformedUrl
  | some parsed =>
    if OutputUrlScheme.fromUrl lib.schemeOf parsed.text = .pipeline then
      match parsed.host.filter (· ≠ "") with
      | none => .error .missingPipeline
      | some pipelineId =>
        match parsed.pathSegments.bind (·.find? (· ≠ "")) with
        | none => .error .missingInput
        | some inputId => .ok { pipelineId, inputId }
    else .error .unsupportedScheme

inductive DesiredOutputState where
  | running
  | stopped
  deriving DecidableEq, Repr

structure Output where
  id : String
  pipelineId : String
  name : String
  url : String
  monitoringUrl : Option String
  desiredState : DesiredOutputState
  retriesExhausted : Bool
  config : OutputConfig
  deriving DecidableEq, Repr

def Output.feeds (lib : UrlLibrary) (output : Output) : Option String :=
  (RecirculationTarget.parse lib output.url).toOption.map RecirculationTarget.pipelineId

def Recirculates (lib : UrlLibrary) (outputs : List Output) (a b : String) : Prop :=
  ∃ output ∈ outputs, output.pipelineId = a ∧ output.feeds lib = some b

inductive RecirculationTopologyError where
  | directCycle
  | indirectCycle
  deriving DecidableEq, Repr

def RecirculationTopologyError.message : RecirculationTopologyError → String
  | .directCycle => "pipeline recirculation cannot target an input on the same pipeline"
  | .indirectCycle => "pipeline recirculation would create a pipeline cycle"

def recirculationEdges (lib : UrlLibrary) (outputs : List Output) (pipelineId : String) :
    List String :=
  outputs.filterMap fun output => if output.pipelineId = pipelineId then output.feeds lib else none

/-- The search with its stack, the top first, and the pipelines it has visited. Every
round pops one pipeline; the fuel bounds the rounds. -/
def searchTopology (source : String) (edges : String → List String) :
    (fuel : Nat) → (stack visited : List String) → Except RecirculationTopologyError Unit
  | 0, _, _ => .ok ()
  | _ + 1, [], _ => .ok ()
  | fuel + 1, pipelineId :: stack, visited =>
    if pipelineId ∈ visited then searchTopology source edges fuel stack visited
    else if source ∈ edges pipelineId then .error .indirectCycle
    else searchTopology source edges fuel ((edges pipelineId).reverse ++ stack)
      (pipelineId :: visited)

def validateRecirculationTopology (lib : UrlLibrary) (source : String) (target : RecirculationTarget)
    (outputs : List Output) : Except RecirculationTopologyError Unit :=
  if source = target.pipelineId then .error .directCycle
  else searchTopology source (recirculationEdges lib outputs)
    (outputs.length + 1) [target.pipelineId] []

section Search

variable {lib : UrlLibrary} {outputs : List Output} {source : String} {stack visited : List String}

theorem mem_recirculationEdges :
    b ∈ recirculationEdges lib outputs a ↔ Recirculates lib outputs a b := by
  simp only [recirculationEdges, mem_filterMap, ite_none_right_eq_some, Recirculates]

def unvisited (visited : List String) (outputs : List Output) : List Output :=
  outputs.filter fun output => output.pipelineId ∉ visited

variable {p : String} {edges : String → List String} {target : RecirculationTarget}

theorem length_unvisited_cons (hp : p ∉ visited) :
    (recirculationEdges lib outputs p).length + (unvisited (p :: visited) outputs).length ≤
      (unvisited visited outputs).length := by
  induction outputs with
  | nil => exact Nat.le_refl _
  | cons o outputs ih =>
    simp only [recirculationEdges, unvisited] at ih ⊢
    by_cases hs : o.pipelineId = p
    · subst hs
      cases hf : o.feeds lib <;> simp [hf, hp] at ih ⊢ <;> omega
    · by_cases hse : o.pipelineId ∈ visited
      · simpa [hs, hse] using ih
      · simp [hs, hse] at ih ⊢
        omega

def Explored (source : String) (edges : String → List String) (visited stack : List String) : Prop :=
  ∀ p ∈ visited, source ∉ edges p ∧ ∀ q ∈ edges p, q ∈ visited ∨ q ∈ stack

theorem Explored.pop (h : Explored source edges visited (p :: stack)) (hse : p ∈ visited) :
    Explored source edges visited stack := by
  refine fun v hv => ⟨(h v hv).1, fun q hq => ?_⟩
  rcases (h v hv).2 q hq with hvi | hs
  · exact .inl hvi
  · rcases mem_cons.mp hs with rfl | hs
    · exact .inl hse
    · exact .inr hs

theorem Explored.visit (h : Explored source edges visited (p :: stack)) (hso : source ∉ edges p) :
    Explored source edges (p :: visited) ((edges p).reverse ++ stack) := by
  intro v hv
  rcases mem_cons.mp hv with rfl | hv
  · exact ⟨hso, fun q hq => .inr (mem_append_left _ (mem_reverse.mpr hq))⟩
  · refine ⟨(h v hv).1, fun q hq => ?_⟩
    rcases (h v hv).2 q hq with hvi | hs
    · exact .inl (mem_cons_of_mem _ hvi)
    · rcases mem_cons.mp hs with rfl | hs
      · exact .inl mem_cons_self
      · exact .inr (mem_append_right _ hs)

inductive Searches (source : String) (edges : String → List String) :
    (stack visited : List String) → Except RecirculationTopologyError Unit → Prop
  | done (visited : List String) : Searches source edges [] visited (.ok ())
  | again {p : String} {stack visited : List String} {result : _} (hse : p ∈ visited)
    (h : Searches source edges stack visited result) : Searches source edges
      (p :: stack) visited result
  | found {p : String} {visited : List String} (stack : List String) (hf : p ∉ visited)
    (hso : source ∈ edges p) : Searches source edges (p :: stack) visited (.error .indirectCycle)
  | visit {p : String} {stack visited : List String} {result : _}
    (hf : p ∉ visited) (hso : source ∉ edges p)
    (h : Searches source edges ((edges p).reverse ++ stack) (p :: visited) result) :
    Searches source edges (p :: stack) visited result

theorem searchTopology_searches (hfu : stack.length + (unvisited visited outputs).length ≤ fuel) :
    Searches source (recirculationEdges lib outputs) stack visited
      (searchTopology source (recirculationEdges lib outputs) fuel stack visited) := by
  induction fuel generalizing stack visited with
  | zero =>
    obtain rfl : stack = [] := eq_nil_of_length_eq_zero (by omega)
    exact .done visited
  | succ fuel ih =>
    cases stack with
    | nil => exact .done visited
    | cons p stack =>
      rw [length_cons] at hfu
      rw [searchTopology]
      split
      · next hse => exact .again hse (ih (by omega))
      · next hf =>
        split
        · next hso => exact .found stack hf hso
        · next hso =>
          have hpa : (recirculationEdges lib outputs p).length + _ ≤ _ := length_unvisited_cons hf
          exact .visit hf hso (ih (by rw [length_append, length_reverse]; omega))

theorem Searches.closed (h : Searches source edges stack visited (.ok ()))
    (he : Explored source edges visited stack) :
    ∃ closed, visited ⊆ closed ∧ stack ⊆ closed ∧ Explored source edges closed [] := by
  generalize hr : (Except.ok () : Except RecirculationTopologyError Unit) = result at h
  induction h with
  | done visited => exact ⟨visited, List.Subset.refl _, nil_subset _, he⟩
  | again hse _ ih =>
    obtain ⟨closed, hv, hs, hclosed⟩ := ih (he.pop hse) hr
    exact ⟨closed, hv, cons_subset.mpr ⟨hv hse, hs⟩, hclosed⟩
  | found => cases hr
  | visit _ hso _ ih =>
    obtain ⟨closed, hv, hs, hclosed⟩ := ih (he.visit hso) hr
    obtain ⟨hp, hv⟩ := cons_subset.mp hv
    exact ⟨closed, hv, cons_subset.mpr ⟨hp, List.Subset.trans (subset_append_right _ _) hs⟩, hclosed⟩

theorem Searches.reaches (h : Searches source (recirculationEdges lib outputs) stack visited
    (.error e)) :
    e = .indirectCycle ∧ ∃ p ∈ stack, TransGen (Recirculates lib outputs) p source := by
  generalize hr : (Except.error e : Except RecirculationTopologyError Unit) = result at h
  induction h with
  | done => cases hr
  | again _ _ ih =>
    obtain ⟨he, q, hq, hpa⟩ := ih hr
    exact ⟨he, q, mem_cons_of_mem _ hq, hpa⟩
  | found stack _ hso =>
    exact ⟨Except.error.inj hr, _, mem_cons_self, .single (mem_recirculationEdges.mp hso)⟩
  | visit _ _ _ ih =>
    obtain ⟨he, q, hq, hpa⟩ := ih hr
    rcases mem_append.mp hq with hq | hq
    · have hed := mem_recirculationEdges.mp (mem_reverse.mp hq)
      exact ⟨he, _, mem_cons_self, .head hed hpa⟩
    · exact ⟨he, q, mem_cons_of_mem _ hq, hpa⟩

section Closed

variable {closed : List String} {p q : String}
  (hclosed : Explored source (recirculationEdges lib outputs) closed []) (hp : p ∈ closed)

include hclosed hp

theorem Explored.mem_of_reaches (hpath : ReflTransGen (Recirculates lib outputs) p q) :
    q ∈ closed := by
  induction hpath with
  | refl => exact hp
  | tail _ hstep ih =>
    have hnext := (hclosed _ ih).2 _ (mem_recirculationEdges.mpr hstep)
    exact hnext.resolve_right not_mem_nil

theorem Explored.not_reaches : ¬TransGen (Recirculates lib outputs) p source := by
  intro hpath
  obtain ⟨q, hpq, hlast⟩ := TransGen.tail'_iff.mp hpath
  exact (hclosed q (hclosed.mem_of_reaches hp hpq)).1 (mem_recirculationEdges.mpr hlast)

end Closed

theorem validateRecirculationTopology_searches (hne : source ≠ target.pipelineId) :
    Searches source (recirculationEdges lib outputs) [target.pipelineId] []
      (validateRecirculationTopology lib source target outputs) := by
  rw [validateRecirculationTopology, if_neg hne]
  exact searchTopology_searches (by simp [unvisited, Nat.add_comm])

open Classical in
theorem validateRecirculationTopology_eq : validateRecirculationTopology lib source target outputs =
    if source = target.pipelineId then .error .directCycle
    else if TransGen (Recirculates lib outputs) target.pipelineId source then .error .indirectCycle
    else .ok () := by
  by_cases hsame : source = target.pipelineId
  · rw [if_pos hsame, validateRecirculationTopology, if_pos hsame]
  · have hs : Searches _ (recirculationEdges lib outputs) _ _ _ :=
      validateRecirculationTopology_searches hsame
    rw [if_neg hsame]
    cases hr : validateRecirculationTopology lib source target outputs with
    | ok =>
      rw [hr] at hs
      obtain ⟨closed, -, hstack, hclosed⟩ := hs.closed fun _ h => (not_mem_nil h).elim
      rw [if_neg (hclosed.not_reaches (hstack mem_cons_self))]
    | error e =>
      rw [hr] at hs
      obtain ⟨rfl, p, hp, hreaches⟩ := hs.reaches
      obtain rfl := mem_singleton.mp hp
      rw [if_pos hreaches]

theorem validateRecirculationTopology_ok_iff :
    validateRecirculationTopology lib source target outputs = .ok () ↔
      ¬ReflTransGen (Recirculates lib outputs) target.pipelineId source := by
  rw [validateRecirculationTopology_eq]
  grind

/-- A path that first comes to the source uses no output of the source itself. -/
theorem reaches_without (hown : output.pipelineId = source)
    (hpath : TransGen (Recirculates lib (pre ++ output :: post)) p source) (hne : p ≠ source) :
    TransGen (Recirculates lib (pre ++ post)) p source := by
  have hkeep {a b : String} (ha : a ≠ source) (h : Recirculates lib (pre ++ output :: post) a b) :
      Recirculates lib (pre ++ post) a b := by
    obtain ⟨o, hmem, rfl, hfeeds⟩ := h
    exact ⟨o, by grind, rfl, hfeeds⟩
  induction hpath using TransGen.head_induction_on with
  | single hedge => exact .single (hkeep hne hedge)
  | @head a b hedge _ ih =>
    by_cases hb : b = source
    · exact hb ▸ .single (hkeep hne hedge)
    · exact .head (hkeep hne hedge) (ih hb)

/-- The search ends, it finds whether a path leads from the target back to the source, and
an output of the source itself does not change its answer. -/
theorem recirculation_search_exact (lib : UrlLibrary) (source : String) (target : RecirculationTarget)
    (outputs : List Output) :
    (source ≠ target.pipelineId →
      Searches source (recirculationEdges lib outputs) [target.pipelineId] []
      (validateRecirculationTopology lib source target outputs)) ∧
    (validateRecirculationTopology lib source target outputs = .ok () ↔
      target.pipelineId ≠ source ∧ ¬TransGen (Recirculates lib outputs) target.pipelineId source) ∧
    ∀ pre output post, outputs = pre ++ output :: post → output.pipelineId = source →
      validateRecirculationTopology lib source target (pre ++ post) =
        validateRecirculationTopology lib source target outputs := by
  refine ⟨validateRecirculationTopology_searches, ?_, fun pre output post heq hown => ?_⟩
  · rw [validateRecirculationTopology_ok_iff, reflTransGen_iff_eq_or_transGen, not_or]
    exact and_congr_left' ne_comm
  · subst heq
    have hadd (a b : String) (h : Recirculates lib (pre ++ post) a b) :
        Recirculates lib (pre ++ output :: post) a b := by
      obtain ⟨o, ho, he⟩ := h
      exact ⟨o, by grind, he⟩
    rw [validateRecirculationTopology_eq, validateRecirculationTopology_eq]
    split
    · rfl
    · next hne =>
      rw [show TransGen (Recirculates lib (pre ++ post)) _ source ↔ _ from
        ⟨TransGen.mono hadd _ _, fun h => reaches_without hown h (Ne.symm hne)⟩]

end Search

end Restream
