import Restream.OutputConfig
import Restream.StageGraph

/-! The planner of an output: the stages its video, its codec and its audio need form a
chain from the source whose end delivers the resolved codec. The codec a stage delivers
is read off its key. -/

namespace Restream

open List OutputConfig

structure EncodingStagePlan where
  pipeline : String
  videoStage : Option StageKind
  audioStage : Option StageKind
  deriving DecidableEq, Repr

namespace EncodingStagePlan

def fromOutputConfig (pipeline : String) (config : OutputConfig) : EncodingStagePlan :=
  let videoStage :=
    match config.video with
    | .preset preset .auto => some (.videoPreset preset none)
    | .preset preset .h264 => some (.videoPreset preset (some "h264"))
    | .preset preset .hevc => some (.videoPreset preset (some "hevc"))
    | .source _ | .custom => none
  { pipeline := pipeline
    videoStage := videoStage
    audioStage := config.audio.operationString.map
      fun operation => .audioRoute operation (videoStage.getD .source) }

def key (plan : EncodingStagePlan) (kind : StageKind) : StageKey :=
  { pipeline := plan.pipeline, kind := kind }

def audioStageFromUpstream (plan : EncodingStagePlan) (upstream : StageKind) : Option StageKey :=
  (plan.audioStage.bind StageKind.audioOperation).map
    fun operation => plan.key (.audioRoute operation upstream)

def videoTerminalKind (plan : EncodingStagePlan) : StageKind := plan.videoStage.getD .source

def terminalKind (plan : EncodingStagePlan) : StageKind :=
  (plan.audioStage <|> plan.videoStage).getD .source

end EncodingStagePlan

structure OutputPath where
  stagePlan : EncodingStagePlan
  protocol : EgressProtocol
  config : OutputConfig
  deriving DecidableEq, Repr

def normalizedInputCodec (ingestCodec : Option String) : VideoCodecKind :=
  (ingestCodec.map VideoCodecKind.fromCodecName).getD .unknown

namespace OutputPath

variable (path : OutputPath) (ingestCodec : Option String)

def resolve (parse : String → Option String) (pipeline : String)
    (config : OutputConfig) (url : String) : OutputPath :=
  { stagePlan := .fromOutputConfig pipeline config
    protocol := .fromUrl parse url
    config := config }

def capabilities : ProtocolCapabilities :=
  { protocol := path.protocol
    rtmpMode := if path.protocol = .rtmp then some path.config.rtmpMode else none }

def resolvedConfig : Except OutputConfigError ResolvedOutputConfig :=
  path.config.resolveForInputCodec path.capabilities (normalizedInputCodec ingestCodec)

def videoStage : Option StageKey :=
  match path.resolvedConfig ingestCodec with
  | .ok { video := .preset preset codec, .. } =>
    some (path.stagePlan.key (.videoPreset preset codec.asStageCodec))
  | _ => path.stagePlan.videoStage.map path.stagePlan.key

def codecEdgeUpstreamStageKind : StageKind :=
  ((path.videoStage ingestCodec).map StageKey.kind).getD path.stagePlan.videoTerminalKind

def needsH264CodecEdge : Bool :=
  decide (normalizedInputCodec ingestCodec = .hevc) &&
    match path.resolvedConfig ingestCodec with
    | .ok { video := .source .h264, .. } => true
    | _ => false

def codecEdgeStage : Option StageKey :=
  if path.needsH264CodecEdge ingestCodec then
    some (path.stagePlan.key
      (.codecEdge "hevc_to_h264" (path.codecEdgeUpstreamStageKind ingestCodec)))
  else none

def routedAudioStage : Option StageKey :=
  match path.codecEdgeStage ingestCodec, path.videoStage ingestCodec with
  | some codecEdge, _ => path.stagePlan.audioStageFromUpstream codecEdge.kind
  | none, some videoStage => path.stagePlan.audioStageFromUpstream videoStage.kind
  | none, none => path.stagePlan.audioStage.map path.stagePlan.key

def terminalStageKind : StageKind :=
  ((path.routedAudioStage ingestCodec <|> path.codecEdgeStage ingestCodec <|>
    path.videoStage ingestCodec).map StageKey.kind).getD path.stagePlan.terminalKind

def terminalStageKey : StageKey := path.stagePlan.key (path.terminalStageKind ingestCodec)

def neededStageKeys : List StageKey :=
  (path.videoStage ingestCodec).toList ++ (path.codecEdgeStage ingestCodec).toList ++
    (path.routedAudioStage ingestCodec).toList

end OutputPath

structure PlannedOutput where
  id : String
  config : OutputConfig
  url : String
  deriving DecidableEq, Repr

def isHevcPreviewCodec (codec : String) : Bool :=
  eqIgnoreAsciiCase codec "hevc" || eqIgnoreAsciiCase codec "h265"

def hevcSourceBridgeKind : StageKind := .codecEdge "hevc_to_h264" .source

def planOutput (parse : String → Option String) (pipelineId : String) (ingestCodec : Option String)
    (plan : StageGraphPlan) (output : PlannedOutput × Nat) : StageGraphPlan :=
  let path := OutputPath.resolve parse pipelineId output.1.config output.1.url
  let plan :=
    if output.2 = 0 then { plan with terminalStage := path.terminalStageKey ingestCodec } else plan
  (path.neededStageKeys ingestCodec).foldl StageGraphPlan.addStage plan

def planSource (pipelineId : String) (outputs : List PlannedOutput) : StageGraphPlan :=
  let source : StageKey := { pipeline := pipelineId, kind := .source }
  let outputId := (outputs.head?.map PlannedOutput.id).getD ""
  (StageGraphPlan.new pipelineId (.output outputId) source).addStage source

def planPipelineGraph (parse : String → Option String) (pipelineId : String)
    (ingestCodec : Option String)
    (outputs : List PlannedOutput) (hlsPreviewActive : Bool) : StageGraphPlan :=
  let plan :=
    outputs.zipIdx.foldl (planOutput parse pipelineId ingestCodec) (planSource pipelineId outputs)
  if hlsPreviewActive ∧ ingestCodec.any isHevcPreviewCodec then
    let bridge : StageKey := { pipeline := pipelineId, kind := hevcSourceBridgeKind }
    let plan := plan.addStage bridge
    if outputs.isEmpty then { plan with terminalStage := bridge } else plan
  else plan

def planHlsOutputGraph (parse : String → Option String)
    (pipelineId : String) (ingestCodec : Option String)
    (output : PlannedOutput) : StageGraphPlan :=
  let plan := planPipelineGraph parse pipelineId ingestCodec [output] false
  let hls : StageKey := { pipeline := pipelineId, kind := .hlsSegmenter plan.terminalStage.kind }
  { plan.addStage hls with terminalStage := hls, role := .hlsOutput output.id }

/-- The video codec at a stage: the source passes on what comes in, the codec edge makes
H.264, a preset its own codec, and audio and HLS stages change nothing. -/
def StageKind.delivered (ingest : VideoCodecKind) : StageKind → Option VideoCodecKind
  | .source | .hls => some ingest
  | .videoPreset _ outputCodec => outputCodec.map VideoCodecKind.fromCodecName
  | .codecEdge operation _ => if operation = "hevc_to_h264" then some .h264 else none
  | .audioRoute _ upstream | .hlsSegmenter upstream => upstream.delivered ingest
  | .preview _ _ | .recording => none

open EncodingStagePlan

namespace OutputPath

variable {path : OutputPath} {pipeline : String} {ingestCodec : Option String}

/-- The stages of an output: at most one for its video, fed by the source, and one for its
audio, fed by that. -/
structure Planned (path : OutputPath) (pipeline : String)
    (ingestCodec : Option String) (media : StageKind) :
    Prop where
  fed : media = .source ∨ StageGraphPlan.inputKind media = some .source
  needed : path.neededStageKeys ingestCodec =
    (if media = .source then [] else [{ pipeline := pipeline, kind := media }]) ++
      (path.config.audio.operationString.map fun o => { pipeline := pipeline, kind := .audioRoute o media }).toList
  terminal : path.terminalStageKey ingestCodec =
    { pipeline := pipeline
      kind := (path.config.audio.operationString.map fun o => .audioRoute o media).getD media }

variable {media : StageKind}

section

variable (h : path.Planned pipeline ingestCodec media)

include h

theorem Planned.delivered (ingest : VideoCodecKind) :
    (path.terminalStageKey ingestCodec).kind.delivered ingest = media.delivered ingest := by
  rw [h.terminal]
  cases path.config.audio.operationString <;> rfl

theorem Planned.terminal_mem :
    path.terminalStageKey ingestCodec = { pipeline := pipeline, kind := .source } ∨
      path.terminalStageKey ingestCodec ∈ path.neededStageKeys ingestCodec := by
  rw [h.terminal, h.needed]
  cases path.config.audio.operationString with
  | some o => exact .inr (by simp)
  | none =>
    by_cases hm : media = .source
    · exact .inl (by simp [hm])
    · exact .inr (by simp [hm])

theorem Planned.supplied (hs : { pipeline := pipeline, kind := .source } ∈ planned) :
    StageGraphPlan.Supplied pipeline planned (path.neededStageKeys ingestCodec) := by
  have ha (planned : List StageKey) (hm : { pipeline := pipeline, kind := media } ∈ planned) :
      StageGraphPlan.Supplied pipeline planned (path.config.audio.operationString.map fun o =>
        { pipeline := pipeline, kind := .audioRoute o media }).toList := by
    cases path.config.audio.operationString with
    | none => trivial
    | some o => exact ⟨⟨media, rfl, hm⟩, trivial⟩
  rw [h.needed]
  split
  · next hm => exact ha _ (hm ▸ hs)
  · next hm =>
    have hi := h.fed.resolve_left hm
    exact ⟨⟨.source, hi, hs⟩, ha _ mem_cons_self⟩

end

section

variable (hplan : path.stagePlan = .fromOutputConfig pipeline path.config) (ingestCodec)

include hplan

theorem key_eq : path.stagePlan.key kind = { pipeline := pipeline, kind := kind } := by
  rw [hplan]
  rfl

theorem audioStage_eq : path.stagePlan.audioStage =
    path.config.audio.operationString.map fun o =>
      .audioRoute o (path.stagePlan.videoStage.getD .source) := by
  rw [hplan]
  rfl

theorem audioStageFromUpstream_eq : path.stagePlan.audioStageFromUpstream upstream =
    path.config.audio.operationString.map fun o => { pipeline := pipeline, kind := .audioRoute o upstream }
    := by
  rw [audioStageFromUpstream, audioStage_eq hplan]
  cases path.config.audio.operationString with
  | none => rfl
  | some o => exact congrArg some (key_eq hplan)

section

variable (hvideo : ∀ preset codec, path.config.video ≠ .preset preset codec)

include hvideo

theorem planVideoStage_source : path.stagePlan.videoStage = none := by
  rw [hplan]
  simp only [fromOutputConfig]
  split <;> simp_all

theorem videoStage_source : path.videoStage ingestCodec = none := by
  unfold videoStage
  split
  · next preset codec audio protocol hresolved =>
    have hcodec := video_of_resolve hresolved
    split at hcodec
    · cases hcodec
    · cases hcodec
    · next chosen _ heq => exact absurd heq (hvideo _ _)
  · rw [planVideoStage_source hplan hvideo]
    rfl

theorem planned_source :
    path.Planned pipeline ingestCodec
      (if path.needsH264CodecEdge ingestCodec then hevcSourceBridgeKind else .source) := by
  have hstage := videoStage_source ingestCodec hplan hvideo
  have hnone := planVideoStage_source hplan hvideo
  by_cases hneeds : path.needsH264CodecEdge ingestCodec = true
  · have hedge : path.codecEdgeStage ingestCodec =
        some { pipeline := pipeline, kind := hevcSourceBridgeKind } := by
      rw [codecEdgeStage, if_pos hneeds, codecEdgeUpstreamStageKind, hstage, videoTerminalKind,
        hnone, key_eq hplan]
      rfl
    have haudio : path.routedAudioStage ingestCodec = path.config.audio.operationString.map fun o =>
        { pipeline := pipeline, kind := .audioRoute o hevcSourceBridgeKind } := by
      rw [routedAudioStage, hedge]
      exact audioStageFromUpstream_eq hplan
    rw [if_pos hneeds]
    refine ⟨.inr rfl, ?_, ?_⟩
    · rw [neededStageKeys, hstage, hedge, haudio]
      rfl
    · rw [terminalStageKey, terminalStageKind, hedge, haudio, key_eq hplan]
      cases path.config.audio.operationString <;> rfl
  · have hedge : path.codecEdgeStage ingestCodec = none := if_neg hneeds
    have haudio : path.routedAudioStage ingestCodec = path.config.audio.operationString.map fun o =>
        { pipeline := pipeline, kind := .audioRoute o .source } := by
      rw [routedAudioStage, hedge, hstage]
      rw [audioStage_eq hplan, hnone]
      cases path.config.audio.operationString with
      | none => rfl
      | some o => exact congrArg some (key_eq hplan)
    rw [if_neg hneeds]
    refine ⟨.inl rfl, ?_, ?_⟩
    · rw [neededStageKeys, hstage, hedge, haudio]
      rfl
    · rw [terminalStageKey, terminalStageKind, hstage, hedge, haudio, key_eq hplan, terminalKind,
        audioStage_eq hplan, hnone]
      cases path.config.audio.operationString <;> rfl

end

theorem planned_preset (hvideo : path.config.video = .preset preset chosen) :
    ∃ codec, path.Planned pipeline ingestCodec (.videoPreset preset codec) ∧
      ∀ resolved, path.resolvedConfig ingestCodec = .ok resolved →
        codec = resolved.video.codec.asStageCodec := by
  have hstages : path.codecEdgeStage ingestCodec = none ∧ ∃ codec, path.videoStage ingestCodec =
      some { pipeline := pipeline, kind := .videoPreset preset codec } ∧
      ∀ resolved, path.resolvedConfig ingestCodec = .ok resolved →
        codec = resolved.video.codec.asStageCodec := by
    cases h : path.resolvedConfig ingestCodec with
    | error e =>
      have hcodec : ∃ codec, path.stagePlan.videoStage = some (.videoPreset preset codec) := by
        simp only [hplan, fromOutputConfig, hvideo]
        cases chosen <;> exact ⟨_, rfl⟩
      obtain ⟨codec, hcodec⟩ := hcodec
      refine ⟨by simp [codecEdgeStage, needsH264CodecEdge, h], codec, ?_, by rintro _ ⟨⟩⟩
      rw [videoStage, h, hcodec]
      exact congrArg some (key_eq hplan)
    | ok resolved =>
      have hcodec := video_of_resolve h
      rw [hvideo] at hcodec
      obtain ⟨video, audio, protocol⟩ := resolved
      subst hcodec
      refine ⟨by simp [codecEdgeStage, needsH264CodecEdge, h], _, ?_, by rintro _ ⟨⟩; rfl⟩
      rw [videoStage, h]
      exact congrArg some (key_eq hplan)
  obtain ⟨hedge, codec, hstage, hcodec⟩ := hstages
  have haudio : path.routedAudioStage ingestCodec = path.config.audio.operationString.map fun o =>
      { pipeline := pipeline, kind := .audioRoute o (.videoPreset preset codec) } := by
    rw [routedAudioStage, hedge, hstage]
    exact audioStageFromUpstream_eq hplan
  refine ⟨codec, ⟨.inr rfl, ?_, ?_⟩, hcodec⟩
  · rw [neededStageKeys, hstage, hedge, haudio]
    rfl
  · rw [terminalStageKey, terminalStageKind, hstage, hedge, haudio, key_eq hplan]
    cases path.config.audio.operationString <;> rfl

theorem planned : ∃ media, path.Planned pipeline ingestCodec media := by
  by_cases hvideo : ∃ preset codec, path.config.video = .preset preset codec
  · obtain ⟨preset, chosen, hvideo⟩ := hvideo
    obtain ⟨codec, h, -⟩ := planned_preset ingestCodec hplan hvideo
    exact ⟨_, h⟩
  · push Not at hvideo
    exact ⟨_, planned_source ingestCodec hplan hvideo⟩

/-- The codec of an output is the one it resolves to, unless it takes the source's H.264
and asks for HEVC: there is no edge for that. -/
theorem delivered_terminal (h : path.resolvedConfig ingestCodec = .ok resolved)
    (hingest : normalizedInputCodec ingestCodec ≠ .unknown) (hk : resolved.video.codec ≠ .unknown) :
    let ingest := normalizedInputCodec ingestCodec
    let delivered := (path.terminalStageKey ingestCodec).kind.delivered ingest
    delivered = some resolved.video.codec ∨
      ((∀ preset codec, path.config.video ≠ .preset preset codec) ∧ ingest = .h264 ∧
        resolved.video.codec = .hevc ∧ delivered = some .h264) := by
  by_cases hvideo : ∃ preset codec, path.config.video = .preset preset codec
  · obtain ⟨preset, chosen, hvideo⟩ := hvideo
    obtain ⟨codec, hpath, hcodec⟩ := planned_preset ingestCodec hplan hvideo
    refine .inl ?_
    rw [hpath.delivered, hcodec resolved h]
    change resolved.video.codec.asStageCodec.map VideoCodecKind.fromCodecName =
      some resolved.video.codec
    cases hc : resolved.video.codec with
    | unknown => exact absurd hc hk
    | h264 | hevc => decide +kernel
  · push Not at hvideo
    have hsource : resolved.video = .source resolved.video.codec := by
      have := video_of_resolve h
      split at this
      · rw [this]
        rfl
      · rw [this]
        rfl
      · next heq => exact absurd heq (hvideo _ _)
    obtain ⟨video, audio, protocol⟩ := resolved
    dsimp only at hsource hk ⊢
    have hneeds : path.needsH264CodecEdge ingestCodec =
        (decide (normalizedInputCodec ingestCodec = .hevc) && decide (video.codec = .h264)) := by
      rw [needsH264CodecEdge, h, hsource]
      cases video.codec <;> rfl
    have hpath := planned_source ingestCodec hplan hvideo
    rw [hpath.delivered, hneeds]
    cases hin : normalizedInputCodec ingestCodec with
    | unknown => exact absurd hin hingest
    | hevc =>
      refine .inl ?_
      cases hcodec : video.codec with
      | unknown => exact absurd hcodec hk
      | h264 | hevc => decide
    | h264 =>
      cases hcodec : video.codec with
      | unknown => exact absurd hcodec hk
      | h264 => exact .inl (by decide)
      | hevc => exact .inr ⟨hvideo, rfl, rfl, by decide⟩

end

end OutputPath

open OutputPath StageGraphPlan

section

variable (parse : String → Option String) {pipelineId : String} (ingestCodec : Option String)

section
variable {plan : StageGraphPlan} (h : plan.WellFormed) (hid : plan.pipelineId = pipelineId)
include h hid

theorem StageGraphPlan.WellFormed.planOutput (o : PlannedOutput × Nat) :
    (planOutput parse pipelineId ingestCodec plan o).WellFormed ∧
      (planOutput parse pipelineId ingestCodec plan o).pipelineId = pipelineId ∧
      (planOutput parse pipelineId ingestCodec plan o).terminalStage =
        if o.2 = 0 then
          (resolve parse pipelineId o.1.config o.1.url).terminalStageKey ingestCodec
        else plan.terminalStage := by
  have hp := planned ingestCodec
    (rfl : (resolve parse pipelineId o.1.config o.1.url).stagePlan = _)
  unfold Restream.planOutput
  generalize resolve parse pipelineId o.1.config o.1.url = path at hp
  obtain ⟨media, hpa⟩ := hp
  subst hid
  have hs : { pipeline := plan.pipelineId, kind := .source } ∈ plan.keys := h.source
  split
  · have hc : StageGraphPlan.Connected
        { plan with terminalStage := path.terminalStageKey ingestCodec } :=
      h.toConnected.congr rfl rfl rfl
    obtain ⟨hid, ht, hmem⟩ := foldl_addStage
      { plan with terminalStage := path.terminalStageKey ingestCodec }
        (path.neededStageKeys ingestCodec)
    refine ⟨⟨hc.foldl_addStage (hpa.supplied hs), ?_⟩, hid, ht⟩
    rw [ht, hmem]
    refine hpa.terminal_mem.imp_left fun heq => ?_
    rw [heq]
    exact hs
  · obtain ⟨hid, ht, hmem⟩ := plan.foldl_addStage (path.neededStageKeys ingestCodec)
    refine ⟨⟨h.toConnected.foldl_addStage (hpa.supplied hs), ?_⟩, hid, ht⟩
    rw [ht, hmem]
    exact .inl h.terminal

theorem StageGraphPlan.WellFormed.planOutputs (outs : List (PlannedOutput × Nat)) :
    (outs.foldl (Restream.planOutput parse pipelineId ingestCodec) plan).WellFormed ∧
    (outs.foldl (Restream.planOutput parse pipelineId ingestCodec) plan).pipelineId = pipelineId ∧
    ((∀ out ∈ outs, out.2 ≠ 0) → (outs.foldl (Restream.planOutput parse pipelineId ingestCodec)
    plan).terminalStage = plan.terminalStage) := by
  induction outs generalizing plan with
  | nil => exact ⟨h, hid, fun _ => rfl⟩
  | cons out outs ih =>
    obtain ⟨hp, hid', ht⟩ := h.planOutput parse ingestCodec hid out
    obtain ⟨hr, hid'', hk⟩ := ih hp hid'
    refine ⟨hr, hid'', fun hne => ?_⟩
    rw [foldl_cons, hk fun o ho => hne o (mem_cons_of_mem _ ho), ht,
      if_neg (hne out mem_cons_self)]

end

theorem planPipelineGraph_wellFormed (pipelineId : String) (outs : List PlannedOutput) (hl : Bool) :
    (planPipelineGraph parse pipelineId ingestCodec outs hl).WellFormed ∧
      (planPipelineGraph parse pipelineId ingestCodec outs hl).pipelineId = pipelineId ∧
      ∀ out rest, outs = out :: rest →
        (planPipelineGraph parse pipelineId ingestCodec outs hl).terminalStage =
          (resolve parse pipelineId out.config out.url).terminalStageKey ingestCodec := by
  have hst : (planSource pipelineId outs).WellFormed :=
    ⟨connected_source _ _ _, mem_addStage.mpr (.inl rfl)⟩
  have hs : (planSource pipelineId outs).pipelineId = pipelineId := rfl
  obtain ⟨hp, hid, -⟩ := hst.planOutputs parse ingestCodec hs outs.zipIdx
  have hf : ∀ out rest, outs = out :: rest →
      (outs.zipIdx.foldl (planOutput parse pipelineId ingestCodec)
        (planSource pipelineId outs)).terminalStage =
        (resolve parse pipelineId out.config out.url).terminalStageKey ingestCodec := by
    rintro out rest rfl
    obtain ⟨hone, hid, ht⟩ := hst.planOutput parse ingestCodec hs (out, 0)
    obtain ⟨-, -, hk⟩ := hone.planOutputs parse ingestCodec hid (rest.zipIdx 1)
    refine (hk fun o ho => ?_).trans ht
    have := le_snd_of_mem_zipIdx ho
    omega
  unfold planPipelineGraph
  generalize outs.zipIdx.foldl (planOutput parse pipelineId ingestCodec) _ = plan at hp hid hf
  subst hid
  split
  · have hb : (plan.addStage { pipeline := plan.pipelineId, kind := hevcSourceBridgeKind }).Connected :=
      hp.toConnected.addStage rfl hp.source
    split
    · next he =>
      refine ⟨⟨hb.congr rfl rfl rfl, mem_addStage.mpr (.inl rfl)⟩, plan.addStage_pipelineId _, ?_⟩
      rintro out rest rfl
      cases he
    · refine ⟨⟨hb, ?_⟩, plan.addStage_pipelineId _, fun out rest h => ?_⟩
      · rw [plan.addStage_terminalStage]
        exact mem_addStage.mpr (.inr hp.terminal)
      · rw [plan.addStage_terminalStage]
        exact hf out rest h
  · exact ⟨hp, rfl, hf⟩

theorem planHlsOutputGraph_wellFormed (pipelineId : String) (o : PlannedOutput) :
    (planHlsOutputGraph parse pipelineId ingestCodec o).WellFormed ∧
      (planHlsOutputGraph parse pipelineId ingestCodec o).terminalStage.kind = .hlsSegmenter
        ((resolve parse pipelineId o.config o.url).terminalStageKey ingestCodec).kind := by
  obtain ⟨hp, hid, ht⟩ := planPipelineGraph_wellFormed parse ingestCodec pipelineId [o] false
  have hf := ht o [] rfl
  unfold planHlsOutputGraph
  generalize planPipelineGraph parse pipelineId ingestCodec [o] false = plan at hp hid hf
  subst hid
  have hmem : { pipeline := plan.pipelineId, kind := plan.terminalStage.kind } ∈ plan.keys := by
    have heq : plan.terminalStage = { pipeline := plan.pipelineId, kind := plan.terminalStage.kind } := by
      rw [hf]
      rfl
    exact heq ▸ hp.terminal
  have hc : (plan.addStage
      { pipeline := plan.pipelineId, kind := .hlsSegmenter plan.terminalStage.kind }).Connected :=
    hp.toConnected.addStage rfl hmem
  refine ⟨⟨hc.congr rfl rfl rfl, mem_addStage.mpr (.inl rfl)⟩, ?_⟩
  dsimp only
  rw [hf]

end

/-- The plans of any outputs are connected graphs with their terminal stage, and the first
output is delivered in the codec it resolves to. The exception is an output of an H.264
source that asks for HEVC without a preset: the planner has no stage for that, and it is
delivered in H.264. -/
theorem planner_sound (parse : String → Option String) (pipelineId : String)
    (ingestCodec : Option String) :
    (∀ outputs hlsPreviewActive,
      (planPipelineGraph parse pipelineId ingestCodec outputs hlsPreviewActive).WellFormed) ∧
    (∀ output, (planHlsOutputGraph parse pipelineId ingestCodec output).WellFormed) ∧
    ∀ output rest hlsPreviewActive resolved,
      (resolve parse pipelineId output.config output.url).resolvedConfig ingestCodec = .ok resolved →
      normalizedInputCodec ingestCodec ≠ .unknown → resolved.video.codec ≠ .unknown →
      ∀ plan ∈ [planPipelineGraph parse pipelineId ingestCodec (output :: rest) hlsPreviewActive,
          planHlsOutputGraph parse pipelineId ingestCodec output],
        plan.terminalStage.kind.delivered (normalizedInputCodec ingestCodec) =
          some resolved.video.codec ∨
          ((∀ preset codec, output.config.video ≠ .preset preset codec) ∧
            normalizedInputCodec ingestCodec = .h264 ∧ resolved.video.codec = .hevc ∧
            plan.terminalStage.kind.delivered (normalizedInputCodec ingestCodec) = some .h264) := by
  refine ⟨fun outputs active =>
    (planPipelineGraph_wellFormed parse ingestCodec pipelineId outputs active).1,
    fun output => (planHlsOutputGraph_wellFormed parse ingestCodec pipelineId output).1,
    fun output rest active resolved hresolved hingest hcodec plan hplan => ?_⟩
  have hdelivered := delivered_terminal ingestCodec
    (rfl : (resolve parse pipelineId output.config output.url).stagePlan = _) hresolved hingest hcodec
  have hpipeline :=
    (planPipelineGraph_wellFormed parse ingestCodec pipelineId
      (output :: rest) active).2.2 output rest rfl
  have hhls := (planHlsOutputGraph_wellFormed parse ingestCodec pipelineId output).2
  rcases mem_cons.mp hplan with rfl | hplan
  · rw [hpipeline]
    exact hdelivered
  · obtain rfl := mem_singleton.mp hplan
    rw [hhls]
    exact hdelivered

/-- An HEVC source sent to a legacy RTMP destination goes through the bridge. -/
theorem planner_sound_bridge : ∃ plan : StageGraphPlan, plan.WellFormed ∧
    plan.terminalStage = { pipeline := "pipe", kind := hevcSourceBridgeKind } ∧
    plan.terminalStage.kind.delivered .hevc = some .h264 := by
  have hsound := planner_sound (fun _ => some "rtmp") "pipe" (some "hevc")
  have hcodec : normalizedInputCodec (some "hevc") = .hevc := by decide +kernel
  have hdelivered := hsound.2.2
    { id := "out", config := ⟨.source .auto, .passthrough, .auto⟩,
      url := "rtmp://host/live" } [] false
    { video := .source .h264, audio := .passthrough, protocol := .rtmp } (by decide +kernel)
    (by rw [hcodec]; decide) (by decide) _ mem_cons_self
  rw [hcodec] at hdelivered
  refine ⟨_, hsound.1 _ _, by decide +kernel, hdelivered.resolve_right fun h => ?_⟩
  exact absurd h.2.1 (by decide)

/-- An H.264 source asked for as HEVC over SRT resolves to HEVC and is delivered as it is. -/
theorem source_hevc_delivered_h264 : ∃ parse output resolved, output.config.video = .source .hevc ∧
      (resolve parse "pipe" output.config output.url).resolvedConfig (some "h264") = .ok resolved ∧
      resolved.video.codec = .hevc ∧
      (planPipelineGraph parse "pipe" (some "h264")
        [output] false).terminalStage.kind.delivered .h264 = some .h264 := by
  refine ⟨fun _ => some "srt",
    { id := "out", config := ⟨.source .hevc, .passthrough, .auto⟩, url := "srt://host:9000" },
    { video := .source .hevc, audio := .passthrough, protocol := .srt }, rfl, ?_, rfl, ?_⟩ <;>
      decide +kernel

end Restream
