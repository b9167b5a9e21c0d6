import Mathlib.Data.List.Basic

/-! What an output asks for: its video and audio, the protocol of its URL, and the codec
it is given for the codec that comes in. -/

namespace Restream

inductive AudioRouting where
  | passthrough
  | selectTracks (tracks : List Nat)
  | remap (track left right : Nat)
  | downmix (track : Nat)
  deriving DecidableEq, Repr

def AudioRouting.operationString : AudioRouting → Option String
  | .passthrough | .selectTracks [] => none
  | .selectTracks tracks => some ("atrack:" ++ ",".intercalate (tracks.map toString))
  | .remap 0 left right => some ("remap:" ++ toString left ++ ":" ++ toString right)
  | .remap track left right =>
    some ("remap:" ++ toString left ++ ":" ++ toString right ++ ":" ++ toString track)
  | .downmix track => some ("downmix:" ++ toString track)

inductive VideoCodecKind where
  | h264
  | hevc
  | unknown
  deriving DecidableEq, Repr

def eqIgnoreAsciiCase (a b : String) : Bool := a.toLower = b.toLower

def VideoCodecKind.fromCodecName (codec : String) : VideoCodecKind :=
  if eqIgnoreAsciiCase codec "h264" || eqIgnoreAsciiCase codec "avc" then .h264
  else if eqIgnoreAsciiCase codec "h265" || eqIgnoreAsciiCase codec "hevc" then .hevc
  else .unknown

def VideoCodecKind.asStageCodec : VideoCodecKind → Option String
  | .h264 => some "h264"
  | .hevc => some "hevc"
  | .unknown => none

inductive OutputVideoCodec where
  | auto
  | h264
  | hevc
  deriving DecidableEq, Repr

def OutputVideoCodec.explicitKind : OutputVideoCodec → Option VideoCodecKind
  | .auto => none
  | .h264 => some .h264
  | .hevc => some .hevc

inductive OutputVideoConfig where
  | source (codec : OutputVideoCodec)
  | preset (preset : String) (codec : OutputVideoCodec)
  | custom
  deriving DecidableEq, Repr

def OutputVideoConfig.codec : OutputVideoConfig → OutputVideoCodec
  | .source codec | .preset _ codec => codec
  | .custom => .auto

inductive RtmpOutputMode where
  | legacy
  | enhanced
  deriving DecidableEq, Repr

inductive OutputProtocolConfig where
  | auto
  | rtmp (mode : RtmpOutputMode)
  deriving DecidableEq, Repr

inductive EgressProtocol where
  | rtmp
  | srt
  | hls
  | sink
  | pipeline
  | moq
  | unknown
  deriving DecidableEq, Repr

inductive OutputUrlScheme where
  | rtmp
  | rtmps
  | srt
  | hls
  | sink
  | pipeline
  | http
  | https
  | moqt
  | unknown
  deriving DecidableEq, Repr

def OutputUrlScheme.fromUrl (parse : String → Option String) (url : String) : OutputUrlScheme :=
  match (parse url).map String.toLower with
  | some "rtmp" => .rtmp
  | some "rtmps" => .rtmps
  | some "srt" => .srt
  | some "hls" => .hls
  | some "sink" => .sink
  | some "pipeline" => .pipeline
  | some "http" => .http
  | some "https" => .https
  | some "moqt" => .moqt
  | _ => .unknown

def OutputUrlScheme.protocol : OutputUrlScheme → EgressProtocol
  | .rtmp | .rtmps => .rtmp
  | .srt => .srt
  | .hls | .http | .https => .hls
  | .sink => .sink
  | .pipeline => .pipeline
  | .unknown => .unknown
  | .moqt => .moq

def EgressProtocol.fromUrl (parse : String → Option String) (url : String) : EgressProtocol :=
  (OutputUrlScheme.fromUrl parse url).protocol

structure ProtocolCapabilities where
  protocol : EgressProtocol
  rtmpMode : Option RtmpOutputMode
  deriving DecidableEq, Repr

def ProtocolCapabilities.supports (c : ProtocolCapabilities) (codec : VideoCodecKind) : Bool :=
  match c.protocol, c.rtmpMode, codec with
  | .rtmp, some .legacy, .h264 => true
  | .rtmp, some .enhanced, .h264 | .rtmp, some .enhanced, .hevc => true
  | .srt, _, .h264 | .srt, _, .hevc => true
  | .pipeline, _, _ => true
  | .hls, _, .h264 => true
  | .moq, _, .h264 | .moq, _, .hevc => true
  | .sink, _, _ => true
  | _, _, _ => false

def ProtocolCapabilities.defaultCodec (c : ProtocolCapabilities) : VideoCodecKind :=
  match c.protocol, c.rtmpMode with
  | .rtmp, some .legacy | .hls, _ | .moq, _ => .h264
  | _, _ => .unknown

structure OutputConfig where
  video : OutputVideoConfig
  audio : AudioRouting
  protocol : OutputProtocolConfig
  deriving DecidableEq, Repr

inductive OutputConfigError where
  | unsupportedCodecForProtocol
  deriving DecidableEq, Repr

inductive ResolvedOutputVideo where
  | source (codec : VideoCodecKind)
  | preset (preset : String) (codec : VideoCodecKind)
  deriving DecidableEq, Repr

def ResolvedOutputVideo.codec : ResolvedOutputVideo → VideoCodecKind
  | .source codec | .preset _ codec => codec

structure ResolvedOutputConfig where
  video : ResolvedOutputVideo
  audio : AudioRouting
  protocol : EgressProtocol
  deriving DecidableEq, Repr

namespace OutputConfig

def rtmpMode (config : OutputConfig) : RtmpOutputMode :=
  match config.protocol with
  | .rtmp mode => mode
  | .auto => .legacy

def validateCapabilities (config : OutputConfig) (c : ProtocolCapabilities) :
    Except OutputConfigError Unit :=
  match config.video.codec.explicitKind with
  | none => .ok ()
  | some codec => if c.supports codec then .ok () else .error .unsupportedCodecForProtocol

/-- The codec of an output: the one it asks for, else the one that comes in, else the
default of the protocol. -/
def codecFor (config : OutputConfig) (c : ProtocolCapabilities) (input : VideoCodecKind) :
    VideoCodecKind :=
  (config.video.codec.explicitKind <|> if c.supports input ∧ input ≠ .unknown then some input
    else none).getD
    c.defaultCodec

def resolveForInputCodec (config : OutputConfig) (c : ProtocolCapabilities) (input : VideoCodecKind) :
    Except OutputConfigError ResolvedOutputConfig := do
  config.validateCapabilities c
  let codec := config.codecFor c input
  if c.supports codec then
    .ok
      { video :=
          match config.video with
          | .source _ | .custom => .source codec
          | .preset preset _ => .preset preset codec
        audio := config.audio
        protocol := c.protocol }
  else .error .unsupportedCodecForProtocol

theorem video_of_resolve {cfg : OutputConfig} (h : cfg.resolveForInputCodec c i = .ok res) :
    res.video = match cfg.video with
      | .source _ | .custom => .source (cfg.codecFor c i)
      | .preset preset _ => .preset preset (cfg.codecFor c i) := by
  unfold resolveForInputCodec at h
  cases hv : cfg.validateCapabilities c with
  | error e =>
    rw [hv] at h
    cases h
  | ok _ =>
    rw [hv] at h
    simp only [bind, Except.bind] at h
    split at h
    · obtain rfl := Except.ok.inj h
      rfl
    · cases h

end OutputConfig

end Restream
