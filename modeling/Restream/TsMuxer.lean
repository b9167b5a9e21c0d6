import Restream.Adts
import Restream.TsWire
import Restream.InputGate

/-! The MPEG-TS muxer: every packet becomes one PES, cut into transport packets, with
the program tables before the first one, before keyframes and every 500 ms. -/

namespace Restream.Mpegts

open Codec

def streamTypeH264 : UInt8 := 0x1B

def streamTypeH265 : UInt8 := 0x24

def streamTypeAacAdts : UInt8 := 0x0F

def streamTypeAacLatm : UInt8 := 0x11

def isAsciiAlphabetic (b : UInt8) : Bool := (0x41 ≤ b && b ≤ 0x5A) || (0x61 ≤ b && b ≤ 0x7A)

def toAsciiLowercase (b : UInt8) : UInt8 := if 0x41 ≤ b ∧ b ≤ 0x5A then b + 0x20 else b

def iso639LanguageDescriptor : Option (List UInt8) → List UInt8
  | none => []
  | some language =>
    match ((language.filter isAsciiAlphabetic).take 3).map toAsciiLowercase with
    | [a, b, c] => [0x0A, 0x04, a, b, c, 0x00]
    | _ => []

structure AudioMeta where
  trackIndex : Nat
  sampleRate : Nat
  language : Option (List UInt8)

structure MuxStreamConfig where
  streamType : UInt8
  pid : Nat
  mediaType : MediaType
  trackIndex : Nat
  sampleRate : Nat
  language : Option (List UInt8)

structure TsServiceMetadata where
  providerName : List UInt8
  serviceName : List UInt8

def TsServiceMetadata.disabled : TsServiceMetadata := { providerName := [], serviceName := [] }

structure PacketMeta where
  ptsMs : Int
  dtsMs : Int
  isKeyframe : Bool

structure TsMuxer where
  streams : List MuxStreamConfig
  continuity : List (Fin 16)
  patCc : Fin 16
  pmtCc : Fin 16
  sdtCc : Fin 16
  pmtPid : Nat
  pcrPid : Nat
  lastPatPmtDts : Option Int
  lastDts90k : List Int
  serviceMetadata : TsServiceMetadata

def ccBits (cc : Fin 16) : UInt8 := UInt8.ofNat cc.val

def pidHigh (pid : Nat) : UInt8 := UInt8.ofNat (pid / 2 ^ 8) &&& 0x1F

def tsHeader (pid : Nat) (first : Bool) (control : UInt8) : List UInt8 :=
  [tsSyncByte, (if first then 0x40 else 0x00) ||| pidHigh pid, UInt8.ofNat pid, control]

def sectionPacket (pid : Nat) (first : Bool) (cc : Fin 16) (bytes : List UInt8) : List UInt8 :=
  let packet := tsHeader pid first (0x10 ||| ccBits cc) ++ (if first then [0x00] else []) ++ bytes
  packet ++ List.replicate (tsPacketSize - packet.length) 0xFF

def withCrc (data : List UInt8) : List UInt8 := data ++ Crc.bytes (crc32Mpeg2 data)

def patSection (pmtPid : Nat) : List UInt8 :=
  withCrc [0x00, 0xB0, 13, 0x00, 0x01, 0xC1, 0x00, 0x00,
    0x00, 0x01, 0xE0 ||| pidHigh pmtPid, UInt8.ofNat pmtPid]

def MuxStreamConfig.descriptors (s : MuxStreamConfig) : List UInt8 :=
  match s.mediaType with
  | .audio => iso639LanguageDescriptor s.language
  | .video => []

def pmtSectionLen (streams : List MuxStreamConfig) : Nat :=
  9 + (streams.map fun s => 5 + s.descriptors.length).sum + 4

def MuxStreamConfig.pmtEntry (s : MuxStreamConfig) : List UInt8 :=
  [s.streamType, 0xE0 ||| pidHigh s.pid, UInt8.ofNat s.pid,
    0xF0 ||| (UInt8.ofNat (s.descriptors.length / 2 ^ 8) &&& 0x0F),
    UInt8.ofNat s.descriptors.length] ++
    s.descriptors

def pmtSection (streams : List MuxStreamConfig) (pcrPid : Nat) : List UInt8 :=
  let sectionLen := pmtSectionLen streams
  withCrc ([0x02, 0xB0 ||| (UInt8.ofNat (sectionLen / 2 ^ 8) &&& 0x0F),
    UInt8.ofNat sectionLen, 0x00, 0x01, 0xC1,
    0x00, 0x00, 0xE0 ||| pidHigh pcrPid, UInt8.ofNat pcrPid, 0xF0, 0x00] ++
    streams.flatMap MuxStreamConfig.pmtEntry)

def sectionPackets (pid : Nat) : Nat → Bool → Fin 16 → List UInt8 → Fin 16 × List UInt8
  | 0, _, cc, _ => (cc, [])
  | n + 1, first, cc, bytes =>
    if bytes = [] then (cc, [])
    else
      let capacity := tsPacketSize - (if first then 5 else 4)
      let (cc', rest) := sectionPackets pid n false (cc + 1) (bytes.drop capacity)
      (cc', sectionPacket pid first cc (bytes.take capacity) ++ rest)

def truncateUtf8Bytes (value : List UInt8) (maxBytes : Nat) : List UInt8 :=
  if value.length ≤ maxBytes then value
  else value.take (lastBoundary maxBytes)
where
  lastBoundary : Nat → Nat
    | 0 => 0
    | n + 1 => if value[n + 1]?.any fun b => b &&& 0xC0 = 0x80 then lastBoundary n else n + 1

def sdtSection (service : TsServiceMetadata) : List UInt8 :=
  let provider := truncateUtf8Bytes service.providerName 48
  let serviceName := truncateUtf8Bytes service.serviceName 110
  let descriptorLen := 3 + provider.length + serviceName.length
  let sectionLen := 12 + (5 + 2 + descriptorLen)
  withCrc ([0x42, 0xF0 ||| (UInt8.ofNat (sectionLen / 2 ^ 8) &&& 0x0F),
    UInt8.ofNat sectionLen, 0x00, 0x01, 0xC1,
    0x00, 0x00, 0x00, 0x01, 0xFF, 0x00, 0x01, 0xFC,
    0x80 ||| (UInt8.ofNat (descriptorLen / 2 ^ 8) &&& 0x0F),
    UInt8.ofNat descriptorLen, 0x48, UInt8.ofNat descriptorLen,
    0x01, UInt8.ofNat provider.length] ++ provider ++
    [UInt8.ofNat serviceName.length] ++ serviceName)

def pesStreamId : MediaType → UInt8
  | .video => 0xE0
  | .audio => 0xC0

def pesHeader (mediaType : MediaType) (pts90k dts90k : Int) (payloadLen : Nat) : List UInt8 :=
  let ptsDiffers := pts90k ≠ dts90k
  let hdrLen := if ptsDiffers then 19 else 14
  let pesDataLen := hdrLen - 6 + payloadLen
  let lengthBytes := if mediaType = .audio ∧ pesDataLen ≤ 0xFFFF then
      [UInt8.ofNat (pesDataLen / 2 ^ 8), UInt8.ofNat pesDataLen]
    else [0x00, 0x00]
  [0x00, 0x00, 0x01, pesStreamId mediaType] ++ lengthBytes ++
    [0x80, if ptsDiffers then 0xC0 else 0x80, if ptsDiffers then 10 else 5] ++
    writeTimestampBuf pts90k (if ptsDiffers then 0x03 else 0x02) ++
    (if ptsDiffers then writeTimestampBuf dts90k 0x01 else [])

/-- What precedes the payload in a transport packet: its header and, where the packet is
flagged or not filled by the `remaining` bytes, an adaptation field. -/
def packetHeader (pid : Nat) (cc : Fin 16) (first isKeyframe isPcr : Bool)
    (dts90k : Int) (remaining : Nat) :
    List UInt8 :=
  if first && (isKeyframe || isPcr) then
    let pcr := if isPcr then writePcr dts90k else []
    let afFlags : UInt8 := (if isKeyframe then 0x40 else 0x00) ||| (if isPcr then 0x10 else 0x00)
    let minAfLen := 1 + pcr.length
    let available := tsPacketSize - 4 - 1 - minAfLen
    let stuff := available - min remaining available
    tsHeader pid first (0x30 ||| ccBits cc) ++ [UInt8.ofNat (minAfLen + stuff), afFlags] ++ pcr ++
      List.replicate stuff 0xFF
  else
    let available := tsPacketSize - 4
    let stuff := available - min remaining available
    if stuff = 0 then tsHeader pid first (0x10 ||| ccBits cc)
    else if stuff = 1 then tsHeader pid first (0x30 ||| ccBits cc) ++ [0x00]
    else
      tsHeader pid first (0x30 ||| ccBits cc) ++ [UInt8.ofNat (stuff - 1), 0x00] ++
        List.replicate (stuff - 2) 0xFF

def pesPackets (pid : Nat) (isKeyframe isPcr : Bool) (dts90k : Int) (hdr payload : List UInt8) :
    Nat → Bool → Fin 16 → Nat → Fin 16 × List UInt8
  | 0, _, cc, _ => (cc, [])
  | n + 1, first, cc, pesOffset =>
    let totalPes := hdr.length + payload.length
    if pesOffset < totalPes then
      let remaining := totalPes - pesOffset
      let header := packetHeader pid cc first isKeyframe isPcr dts90k remaining
      let copyLen := min remaining (tsPacketSize - header.length)
      let (cc', rest) :=
        pesPackets pid isKeyframe isPcr dts90k hdr payload n false (cc + 1) (pesOffset + copyLen)
      (cc', header ++ copyPesSlices hdr payload pesOffset copyLen ++ rest)
    else (cc, [])

namespace TsMuxer

def videoStreamType (codec : String) : UInt8 :=
  if codec = "h264" then streamTypeH264 else if codec = "hevc" then streamTypeH265 else streamTypeH264

def videoStream (codec : String) : MuxStreamConfig :=
  { streamType := videoStreamType codec
    pid := 0x100
    mediaType := .video
    trackIndex := 0
    sampleRate := 0
    language := none }

def audioStream (pid : Nat) (a : AudioMeta) : MuxStreamConfig :=
  { streamType := streamTypeAacAdts
    pid := pid
    mediaType := .audio
    trackIndex := a.trackIndex
    sampleRate := a.sampleRate
    language := a.language }

def configStreams (video : Option String) (audioTracks : List AudioMeta) : List MuxStreamConfig :=
  let videoStreams := (video.map videoStream).toList
  videoStreams ++ audioTracks.mapIdx fun i a => audioStream (0x100 + videoStreams.length + i) a

def newWithMetadata (video : Option String) (audioTracks : List AudioMeta)
    (service : TsServiceMetadata) :
    TsMuxer :=
  let streams := configStreams video audioTracks
  { streams := streams
    continuity := List.replicate streams.length 0
    patCc := 0
    pmtCc := 0
    sdtCc := 0
    pmtPid := 0x1000
    pcrPid := (streams.head?.map MuxStreamConfig.pid).getD 0x100
    lastPatPmtDts := none
    lastDts90k := List.replicate streams.length i64Min
    serviceMetadata := service }

def streamIndex (m : TsMuxer) (mediaType : MediaType) (trackIndex : Nat) : Option Nat :=
  m.streams.findIdx? fun s => s.mediaType = mediaType ∧ s.trackIndex = trackIndex

def packetSpanEnd90k (m : TsMuxer) (streamIdx : Nat) (dts90k : Int) (payload : List UInt8) : Int :=
  match m.streams[streamIdx]? with
  | none => dts90k
  | some stream =>
    if stream.mediaType ≠ .audio ∨ stream.sampleRate = 0 then dts90k
    else
      let frameCount := adtsFrameCount payload
      if frameCount ≤ 1 then dts90k
      else dts90k + 90000 * 1024 / (stream.sampleRate : Int) * ((frameCount : Int) - 1)

def writePat (m : TsMuxer) : TsMuxer × List UInt8 :=
  ({ m with patCc := m.patCc + 1 }, sectionPacket patPid true m.patCc (patSection m.pmtPid))

def writePmt (m : TsMuxer) : TsMuxer × List UInt8 :=
  if 1021 < pmtSectionLen m.streams then (m, [])
  else
    let bytes := pmtSection m.streams m.pcrPid
    let (cc, out) := sectionPackets m.pmtPid bytes.length true m.pmtCc bytes
    ({ m with pmtCc := cc }, out)

def writeSdt (m : TsMuxer) : TsMuxer × List UInt8 :=
  ({ m with sdtCc := m.sdtCc + 1 }, sectionPacket sdtPid true m.sdtCc (sdtSection m.serviceMetadata))

def writeTables (m : TsMuxer) (dtsMs : Int) : TsMuxer × List UInt8 :=
  let (m, pat) := m.writePat
  let (m, pmt) := m.writePmt
  let (m, sdt) :=
    if m.serviceMetadata.providerName ≠ [] ∨ m.serviceMetadata.serviceName ≠ [] then m.writeSdt
    else (m, [])
  ({ m with lastPatPmtDts := some dtsMs }, pat ++ pmt ++ sdt)

def shouldInsertTables (m : TsMuxer) (info : PacketMeta) : Bool :=
  match m.lastPatPmtDts with
  | none => true
  | some last => info.isKeyframe || decide (500 ≤ (info.dtsMs - last).natAbs)

/-- The 90 kHz (pts, dts) of a packet. A decode time that does not follow the last one of
its stream is moved behind it, with the presentation time. -/
def timestamps (m : TsMuxer) (streamIdx : Nat) (info : PacketMeta) : Int × Int :=
  let pts90k := msToTs info.ptsMs
  let dts90k := msToTs info.dtsMs
  let ptsOffset90k := max (pts90k - dts90k) 0
  let (pts90k, dts90k) := match m.lastDts90k[streamIdx]? with
    | some prev => if dts90k ≤ prev then (prev + 1 + ptsOffset90k, prev + 1) else (pts90k, dts90k)
    | none => (pts90k, dts90k)
  (max pts90k dts90k, dts90k)

def muxPacketAt (m : TsMuxer) (streamIdx : Nat) (mediaType : MediaType) (info : PacketMeta)
    (payload : List UInt8) : TsMuxer × List UInt8 :=
  match m.streams[streamIdx]?, m.continuity[streamIdx]? with
  | some stream, some cc =>
    if payload = [] then (m, [])
    else
      let (pts90k, dts90k) := m.timestamps streamIdx info
      let m := { m with lastDts90k := m.lastDts90k.set streamIdx (m.packetSpanEnd90k streamIdx dts90k payload) }
      let (m, tables) := if m.shouldInsertTables info then m.writeTables info.dtsMs else (m, [])
      let hdr := pesHeader mediaType pts90k dts90k payload.length
      let (cc, packets) :=
        pesPackets stream.pid info.isKeyframe (stream.pid = m.pcrPid) dts90k hdr payload
        (hdr.length + payload.length) true cc 0
      ({ m with continuity := m.continuity.set streamIdx cc }, tables ++ packets)
  | _, _ => (m, [])

def muxPacketInto (m : TsMuxer) (mediaType : MediaType) (trackIndex : Nat) (info : PacketMeta)
    (payload : List UInt8) : TsMuxer × List UInt8 :=
  match m.streamIndex mediaType trackIndex with
  | none => (m, [])
  | some streamIdx => m.muxPacketAt streamIdx mediaType info payload

end TsMuxer

end Restream.Mpegts
