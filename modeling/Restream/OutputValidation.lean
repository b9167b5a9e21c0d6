import Restream.RecirculationTopology

/-! What an output must meet before it is saved: the checks of the HTTP handlers and
those of the agent, which share the rules on a URL but not the search for cycles. -/

namespace Restream

open OutputUrlScheme

def maxNameLen : Nat := 256

def maxUrlLen : Nat := 2048

def maxOutputConfigLen : Nat := 512

def outputUrlSchemeError : String :=
  "Invalid URL scheme. Supported schemes are rtmp://, rtmps://, srt://, hls://, sink://, pipeline://, " ++
    "http://, https://, and moqt://"

def monitoringUrlSchemeError : String :=
  "Invalid monitoring URL scheme. Supported schemes are http://, https://, and srt://"

def outputUrlParseError : String := "Output URL must be a valid absolute URL with a host"

def rtmpOutputUrlError : String :=
  "RTMP output URL must name an app and a stream key: rtmp://host[:port]/app/stream-key"

def monitoringUrlParseError : String := "Monitoring URL must be a valid absolute URL with a host"

def customOutputEncodingError : String :=
  "Custom output encoding is not available yet; choose source or a preset encoding"

def outputProtocolConfigError : String := "RTMP protocol settings require an RTMP or RTMPS output URL"

def pipelineOutputConfigError : String :=
  "Pipeline recirculation outputs must use source video and passthrough audio"

namespace OutputUrlScheme

def isSupportedOutput (scheme : OutputUrlScheme) : Bool := scheme ≠ .unknown

def supportsMonitoring : OutputUrlScheme → Bool
  | .srt | .http | .https => true
  | _ => false

def isRtmpFamily : OutputUrlScheme → Bool
  | .rtmp | .rtmps => true
  | _ => false

end OutputUrlScheme

def OutputConfig.isCustomOutput (config : OutputConfig) : Bool := config.video = .custom

def OutputConfig.isSourcePassthrough (config : OutputConfig) : Bool :=
  config.video = .source .auto && config.audio = .passthrough

def OutputConfigError.message : OutputConfigError → String
  | .unsupportedCodecForProtocol =>
    "Output video codec is not supported by the selected protocol mode"

def ProtocolCapabilities.fromOutput (parse : String → Option String)
    (url : String) (config : OutputConfig) :
    ProtocolCapabilities :=
  let protocol := EgressProtocol.fromUrl parse url
  { protocol, rtmpMode := if protocol = .rtmp then some config.rtmpMode else none }

/-- The URL library, the protocols' own URL parsers and the JSON text of a configuration. -/
structure OutputRules extends UrlLibrary where
  parsesRtmpUrl : String → Bool
  parseMoqUrl : String → Except String Unit
  validateSrtEgressUrl : String → Except String Unit
  configJson : OutputConfig → String

def checkFieldLen (field s : String) (max : Nat) : Except String Unit :=
  if s.utf8ByteSize > max then .error s!"{field} exceeds maximum length of {max} bytes" else .ok ()

def normalizeSupportedUrl (lib : UrlLibrary) (url : String) (supports : OutputUrlScheme → Bool) :
    Option String :=
  (lib.parse (lib.trim url)).bind fun parsed =>
    parsed.host.bind fun host =>
      if supports (fromUrl lib.schemeOf parsed.text) then
        (lib.setHost parsed host.toLower).map ParsedUrl.text
      else none

def normalizeOutputUrl (lib : UrlLibrary) (url : String) : Option String :=
  normalizeSupportedUrl lib url isSupportedOutput

def normalizeMonitoringUrl (lib : UrlLibrary) (url : Option String) : Except String (Option String) :=
  let trimmed := lib.trim (url.getD "")
  if trimmed = "" then .ok none
  else
    match normalizeSupportedUrl lib trimmed supportsMonitoring with
    | some url => .ok (some url)
    | none => .error monitoringUrlParseError

def validateOutputUrlForConfig (rules : OutputRules) (url : String) (config : OutputConfig) :
    Except String Unit := do
  let scheme := fromUrl rules.schemeOf url
  if scheme.isRtmpFamily && !rules.parsesRtmpUrl url then
    throw rtmpOutputUrlError
  if scheme = .moqt then
    rules.parseMoqUrl url
  if scheme = .srt then
    rules.validateSrtEgressUrl url
  if config.protocol ≠ .auto && !scheme.isRtmpFamily then
    throw outputProtocolConfigError
  (config.validateCapabilities (.fromOutput rules.schemeOf url config)).mapError
    OutputConfigError.message

inductive ValidationError where
  | badRequest (message : String)
  | conflict (message : String)
  | notFound (message : String)
  deriving DecidableEq, Repr

structure OutputPayload where
  name : String
  url : String
  monitoringUrl : Option String
  config : OutputConfig
  deriving DecidableEq, Repr

structure ValidatedOutputPayload where
  outputConfig : OutputConfig
  url : String
  monitoringUrl : Option String
  deriving DecidableEq, Repr

def validateOutputPayloadFields (rules : OutputRules) (payload : OutputPayload) :
    Except String OutputConfig := do
  checkFieldLen "name" payload.name maxNameLen
  checkFieldLen "url" payload.url maxUrlLen
  checkFieldLen "config" (rules.configJson payload.config) maxOutputConfigLen
  if let some monitoringUrl := payload.monitoringUrl then
    checkFieldLen "monitoring_url" monitoringUrl maxUrlLen
  if payload.config.isCustomOutput then
    throw customOutputEncodingError
  return payload.config

def validateOutputTransport (rules : OutputRules) (payload : OutputPayload)
    (outputConfig : OutputConfig) :
    Except String ValidatedOutputPayload := do
  match normalizeOutputUrl rules.toUrlLibrary payload.url with
  | none => throw outputUrlParseError
  | some url =>
    validateOutputUrlForConfig rules url outputConfig
    let monitoringUrl ← normalizeMonitoringUrl rules.toUrlLibrary payload.monitoringUrl
    return { outputConfig, url, monitoringUrl }

structure TargetInput where
  pipelineId : String
  enabled : Bool
  selected : Bool
  deriving DecidableEq, Repr

inductive RecirculationTargetInputError where
  | missing
  | wrongPipeline
  | disabled
  | selected
  deriving DecidableEq, Repr

def RecirculationTargetInputError.toValidationError : RecirculationTargetInputError → ValidationError
  | .missing => .notFound "pipeline recirculation target input not found"
  | .wrongPipeline => .conflict "pipeline recirculation target input belongs to a different pipeline"
  | .disabled => .conflict "pipeline recirculation target input must be enabled"
  | .selected => .conflict "pipeline recirculation target input must not be selected"

def validateRecirculationTargetInput (target : RecirculationTarget) :
    Option TargetInput → Except RecirculationTargetInputError Unit
  | none => .error .missing
  | some input =>
    if input.pipelineId ≠ target.pipelineId then .error .wrongPipeline
    else if !input.enabled then .error .disabled
    else if input.selected then .error .selected
    else .ok ()

def validateOutputCandidate (lib : UrlLibrary) (outputs : List Output) (input : Option TargetInput)
    (source : String) (target : RecirculationTarget) : Except ValidationError Unit := do
  (validateRecirculationTopology lib source target outputs).mapError fun e => .conflict e.message
  (validateRecirculationTargetInput target input).mapError
    RecirculationTargetInputError.toValidationError

def validateReservedRecirculationCandidate (lib : UrlLibrary) (outputs : List Output)
    (input : Option TargetInput) (source url : String) : Except ValidationError Unit := do
  let target ← (RecirculationTarget.parse lib url).mapError fun e => .badRequest e.message
  validateOutputCandidate lib outputs input source target

/-- The checks of the HTTP create and update of an output of pipeline `source`; `outputs`
and `input` are what the store answers. -/
def validateOutputPayloadForPipeline (rules : OutputRules) (outputs : List Output)
    (input : Option TargetInput) (source : String) (payload : OutputPayload) :
    Except ValidationError ValidatedOutputPayload := do
  let outputConfig ← (validateOutputPayloadFields rules payload).mapError .badRequest
  if fromUrl rules.schemeOf payload.url = .pipeline then
    if !outputConfig.isSourcePassthrough then
      throw (.badRequest pipelineOutputConfigError)
    validateReservedRecirculationCandidate rules.toUrlLibrary outputs input source payload.url
  (validateOutputTransport rules payload outputConfig).mapError .badRequest

def OutputPayload.checkedTarget (lib : UrlLibrary) (payload : OutputPayload) :
    Option RecirculationTarget :=
  if fromUrl lib.schemeOf payload.url = .pipeline then
    (RecirculationTarget.parse lib payload.url).toOption
  else none

theorem not_reaches_of_validated
    (hok : validateOutputPayloadForPipeline rules outs i src pay = .ok validated)
    (ht : pay.checkedTarget rules.toUrlLibrary = some target) :
    ¬Relation.ReflTransGen (Recirculates rules.toUrlLibrary outs) target.pipelineId src := by
  rw [OutputPayload.checkedTarget, Option.ite_none_right_eq_some] at ht
  obtain ⟨hs, ht⟩ := ht
  rw [← validateRecirculationTopology_ok_iff]
  cases hp : RecirculationTarget.parse rules.toUrlLibrary pay.url with
  | error e => simp [hp, Except.toOption] at ht
  | ok parsed =>
    obtain rfl : parsed = target := by simpa [hp, Except.toOption] using ht
    cases hto : validateRecirculationTopology rules.toUrlLibrary src parsed outs with
    | ok => rfl
    | error e =>
      simp only [validateOutputPayloadForPipeline, hs, validateReservedRecirculationCandidate, hp,
        validateOutputCandidate, hto, Except.mapError, bind, Except.bind, if_true] at hok
      split at hok
      · cases hok
      · split at hok <;> cases hok

structure ProposedChange where
  outputId : Option String
  name : Option String
  url : Option String
  monitoringUrl : Option String
  desiredState : Option String
  config : Option OutputConfig
  deriving DecidableEq, Repr

def requiredChangeField (lib : UrlLibrary) (value : Option String) (field : String) :
    Except String String :=
  match value.filter fun value => lib.trim value ≠ "" with
  | some value => .ok value
  | none => .error s!"change is missing required field '{field}'"

def validateOutputFields (rules : OutputRules) (name url : String) (monitoringUrl : Option String)
    (config : OutputConfig) (desiredState : String) : Except String Unit := do
  checkFieldLen "name" name maxNameLen
  checkFieldLen "url" url maxUrlLen
  checkFieldLen "config" (rules.configJson config) maxOutputConfigLen
  if let some monitoringUrl := monitoringUrl then
    checkFieldLen "monitoring_url" monitoringUrl maxUrlLen
  if config.isCustomOutput then
    throw customOutputEncodingError
  if !(fromUrl rules.schemeOf url).isSupportedOutput then
    throw outputUrlSchemeError
  validateOutputUrlForConfig rules url config
  if let some monitoringUrl := monitoringUrl then
    if !(fromUrl rules.schemeOf monitoringUrl).supportsMonitoring then
      throw monitoringUrlSchemeError
  if desiredState ≠ "running" ∧ desiredState ≠ "stopped" then
    throw "desiredState must be either 'running' or 'stopped'"

def DesiredOutputState.asStr : DesiredOutputState → String
  | .running => "running"
  | .stopped => "stopped"

def DesiredOutputState.fromStr (s : String) : DesiredOutputState :=
  if s = "running" then .running else .stopped

def prepareAddOutput (rules : OutputRules) (pipelineId fresh : String) (change : ProposedChange) :
    Except String Output := do
  let name ← requiredChangeField rules.toUrlLibrary change.name "name"
  let url := rules.trim (← requiredChangeField rules.toUrlLibrary change.url "url")
  let monitoringUrl ← normalizeMonitoringUrl rules.toUrlLibrary change.monitoringUrl
  match change.config with
  | none => throw "change is missing required field 'config'"
  | some config =>
    let desiredState := rules.trim (change.desiredState.getD DesiredOutputState.stopped.asStr)
    validateOutputFields rules name url monitoringUrl config desiredState
    return { id := change.outputId.getD fresh, pipelineId, name := rules.trim name, url, monitoringUrl,
             desiredState := .fromStr desiredState, retriesExhausted := false, config }

def prepareUpdateOutput (rules : OutputRules) (outputs : List Output) (pipelineId : String)
    (change : ProposedChange) : Except String Output := do
  let outputId ← requiredChangeField rules.toUrlLibrary change.outputId "outputId"
  match outputs.find? fun output => output.id = outputId ∧ output.pipelineId = pipelineId with
  | none => throw s!"failed to read output: not found: output {outputId} not found"
  | some existing =>
    let name := change.name.getD existing.name
    let url := rules.trim (change.url.getD existing.url)
    let monitoringUrl := (change.monitoringUrl.map rules.trim).or existing.monitoringUrl
    let config := change.config.getD existing.config
    let desiredState := rules.trim (change.desiredState.getD existing.desiredState.asStr)
    validateOutputFields rules name url monitoringUrl config desiredState
    return { existing with name := rules.trim name, url, monitoringUrl, config,
                           desiredState := .fromStr desiredState }

end Restream
