import Mathlib.Algebra.GroupWithZero.Nat
import Mathlib.Data.List.Basic

/-! What an HLS PUT output uploads, in what order, and what it does on each
response. Times and durations are whole milliseconds; sequence numbers and
counters are unbounded. -/

namespace Restream.HlsUpload

abbrev playlistWindow : Nat := 3

abbrev maxPendingSegments : Nat := 5

abbrev backoffFirst : Nat := 200

abbrev backoffMax : Nat := 5000

abbrev minSegmentRetry : Nat := 1000

abbrev segmentDueAfter : Nat := 6000

def hlsPlaylistContentType : String := "application/vnd.apple.mpegurl"

def hlsSegmentContentType : String := "video/mp2t"

structure Awaiting where
  sequence : Nat
  bytes : Nat
  dueAt : Nat

structure SegmentDelivery where
  awaiting : List Awaiting := []
  dueBytes : Nat := 0
  onTimeBytes : Nat := 0

namespace SegmentDelivery

def settle (d : SegmentDelivery) (now : Nat) : SegmentDelivery :=
  { d with
    awaiting := d.awaiting.dropWhile (·.dueAt ≤ now)
    dueBytes := d.dueBytes + ((d.awaiting.takeWhile (·.dueAt ≤ now)).map Awaiting.bytes).sum }

def published (d : SegmentDelivery) (sequence bytes now : Nat) : SegmentDelivery :=
  let d := d.settle now
  { d with awaiting := d.awaiting ++ [⟨sequence, bytes, now + segmentDueAfter⟩] }

def acknowledged (d : SegmentDelivery) (sequence now : Nat) : SegmentDelivery :=
  let d := d.settle now
  match d.awaiting.find? (·.sequence = sequence) with
  | none => d
  | some segment =>
    { awaiting := d.awaiting.eraseP (·.sequence = sequence)
      dueBytes := d.dueBytes + segment.bytes
      onTimeBytes := d.onTimeBytes + segment.bytes }

end SegmentDelivery

structure HlsSegment where
  index : Nat
  duration : Nat
  data : List UInt8

inductive UploadTarget where
  | segment (sequence : Nat)
  | playlist (lastSequence : Option Nat) (ended : Bool)
  deriving DecidableEq

structure AckedSegment where
  sequence : Nat
  duration : Nat
  deriving DecidableEq

structure Playlist where
  session : String
  targetDuration : Nat
  mediaSequence : Nat
  segments : List AckedSegment
  ended : Bool
  deriving DecidableEq

def segmentName (session : String) (sequence : Nat) : String :=
  session ++ "-" ++ toString sequence ++ ".ts"

def seconds (millis : Nat) : String :=
  let fraction := toString (millis % 1000)
  toString (millis / 1000) ++ "." ++ "".pushn '0' (3 - fraction.length) ++ fraction

def Playlist.text (p : Playlist) : String :=
  let header := "#EXTM3U\n#EXT-X-VERSION:3\n#EXT-X-TARGETDURATION:" ++ toString p.targetDuration ++
    "\n#EXT-X-MEDIA-SEQUENCE:" ++ toString p.mediaSequence ++ "\n"
  let listed := p.segments.map fun segment =>
    "#EXTINF:" ++ seconds segment.duration ++ ",\n" ++ segmentName p.session segment.sequence ++ "\n"
  listed.foldl (· ++ ·) header ++ if p.ended then "#EXT-X-ENDLIST\n" else ""

inductive UploadBody where
  | media (data : List UInt8)
  | playlist (content : Playlist)
  deriving DecidableEq

def UploadBody.length : UploadBody → Nat
  | .media data => data.length
  | .playlist content => content.text.utf8ByteSize

structure UploadRequest where
  target : UploadTarget
  fileName : String
  contentType : String
  body : UploadBody
  freshConnection : Bool
  deriving DecidableEq

inductive UploadOutcome where
  | status (code : Nat)
  | transport

inductive Stopped where
  | rejected (status : Nat)
  | ended
  deriving DecidableEq

inductive Next where
  | put (request : UploadRequest)
  | wait (til : Option Nat)
  | stop (stopped : Stopped)
  deriving DecidableEq

inductive ResultEffect where
  | acknowledged (bytes : Nat)
  | willRetry (attempts : Nat)
  | rejected (status : Nat)
  | endNotDelivered
  deriving DecidableEq

structure PendingSegment where
  sequence : Nat
  duration : Nat
  data : List UInt8
  firstAttempt : Option Nat

structure InFlight where
  target : UploadTarget
  duration : Nat
  bytes : Nat

structure UploadPolicy where
  session : String
  lastStoreIndex : Option Nat := none
  nextSequence : Nat := 0
  pending : List PendingSegment := []
  window : List AckedSegment := []
  sentWindow : List AckedSegment := []
  windowFloor : Nat := 0
  targetDuration : Nat := 1
  playlistDirty : Bool := false
  inFlight : Option InFlight := none
  attempts : Nat := 0
  backoffUntil : Option Nat := none
  ending : Bool := false
  stopped : Option Stopped := none
  dropped : Nat := 0
  backlogDropped : Nat := 0
  delivery : SegmentDelivery := {}

inductive Class where
  | acknowledged
  | rejected (status : Nat)
  | retry
  deriving DecidableEq

def classify : UploadOutcome → Class
  | .transport => .retry
  | .status code =>
    if 200 ≤ code ∧ code ≤ 299 then .acknowledged
    else if code = 408 ∨ code = 425 ∨ code = 429 then .retry
    else if 400 ≤ code ∧ code ≤ 499 then .rejected code
    else .retry

def backoff (attempts : Nat) : Nat :=
  min (backoffFirst * 2 ^ min (attempts - 1) 16) backoffMax

def retryWindow (duration : Nat) : Nat :=
  max duration minSegmentRetry

def ceilSeconds (millis : Nat) : Nat :=
  (millis + 999) / 1000

def PendingSegment.expired (segment : PendingSegment) (now : Nat) : Bool :=
  segment.firstAttempt.any fun first => first + retryWindow segment.duration ≤ now

namespace UploadPolicy

def new (session : String) : UploadPolicy := { session := session }

def taken (p : UploadPolicy) (snapshot : List HlsSegment) : List HlsSegment :=
  if p.ending ∨ p.stopped.isSome then []
  else
    match (snapshot.map HlsSegment.index).max? with
    | none => []
    | some newest =>
      match p.lastStoreIndex with
      | none => snapshot.filter (·.index = newest)
      | some last => if newest < last then snapshot else snapshot.filter (last < ·.index)

def dropSegment (p : UploadPolicy) (sequence : Nat) : UploadPolicy :=
  { p with
    window := []
    windowFloor := max p.windowFloor (sequence + 1)
    dropped := p.dropped + 1 }

def enqueue (now : Nat) (p : UploadPolicy) (segment : HlsSegment) : UploadPolicy :=
  { p with
    delivery := p.delivery.published p.nextSequence segment.data.length now
    pending := p.pending ++ [⟨p.nextSequence, segment.duration, segment.data, none⟩]
    nextSequence := p.nextSequence + 1 }

def capBacklog (p : UploadPolicy) : List PendingSegment → UploadPolicy
  | [] => { p with pending := [] }
  | front :: rest =>
    if maxPendingSegments < (front :: rest).length then
      capBacklog { p.dropSegment front.sequence with backlogDropped := p.backlogDropped + 1 } rest
    else { p with pending := front :: rest }

def onPublish (p : UploadPolicy) (snapshot : List HlsSegment) (now : Nat) : UploadPolicy :=
  if p.ending ∨ p.stopped.isSome then p
  else
    match (snapshot.map HlsSegment.index).max? with
    | none => p
    | some newest =>
      let p := (p.taken snapshot).foldl (enqueue now) { p with lastStoreIndex := some newest }
      p.capBacklog p.pending

def finish (p : UploadPolicy) : UploadPolicy :=
  { p with
    ending := true
    pending := []
    backoffUntil := none
    window := if p.window = [] then p.sentWindow else p.window }

def renderPlaylist (p : UploadPolicy) (ended : Bool) : Playlist :=
  { session := p.session
    targetDuration := p.targetDuration
    mediaSequence := p.window.head?.elim 0 AckedSegment.sequence
    segments := p.window
    ended := ended }

def playlistRequest (p : UploadPolicy) : UploadPolicy × UploadRequest :=
  let target := .playlist (p.window.getLast?.map AckedSegment.sequence) p.ending
  let body := .playlist (p.renderPlaylist p.ending)
  ({ p with sentWindow := p.window, inFlight := some ⟨target, 0, body.length⟩ },
    { target := target
      fileName := ""
      contentType := hlsPlaylistContentType
      body := body
      freshConnection := 0 < p.attempts })

def sendPending (p : UploadPolicy) (now : Nat) : List PendingSegment → UploadPolicy × Next
  | [] =>
    if p.ending then ({ p with pending := [], stopped := some .ended }, .stop .ended)
    else ({ p with pending := [] }, .wait none)
  | front :: rest =>
    if front.expired now then
      sendPending { p.dropSegment front.sequence with attempts := 0 } now rest
    else
      let target := .segment front.sequence
      let body := .media front.data
      ({ p with
          pending := { front with firstAttempt := some (front.firstAttempt.getD now) } :: rest
          inFlight := some ⟨target, front.duration, body.length⟩ },
        .put
          { target := target
            fileName := segmentName p.session front.sequence
            contentType := hlsSegmentContentType
            body := body
            freshConnection := 0 < p.attempts })

def send (p : UploadPolicy) (now : Nat) : UploadPolicy × Next :=
  let p := if p.playlistDirty ∧ p.window = [] then { p with playlistDirty := false } else p
  if p.playlistDirty ∨ (p.ending ∧ p.window ≠ []) then
    let (p, request) := p.playlistRequest
    (p, .put request)
  else p.sendPending now p.pending

def next (p : UploadPolicy) (now : Nat) : UploadPolicy × Next :=
  match p.stopped with
  | some stopped => (p, .stop stopped)
  | none =>
    if p.inFlight.isSome then (p, .wait none)
    else
      match p.backoffUntil.filter (now < ·) with
      | some til => (p, .wait (some til))
      | none => p.send now

def trimWindow (floor : Nat) : List AckedSegment → Nat × List AckedSegment
  | [] => (floor, [])
  | left :: rest =>
    if playlistWindow < (left :: rest).length then trimWindow (max floor (left.sequence + 1)) rest
    else (floor, left :: rest)

def popSent (p : UploadPolicy) (sequence : Nat) : UploadPolicy :=
  { p with
    pending :=
      match p.pending with
      | [] => []
      | front :: rest => if front.sequence = sequence then rest else front :: rest }

def listAcked (p : UploadPolicy) (segment : AckedSegment) : UploadPolicy :=
  if p.windowFloor ≤ segment.sequence then
    let window :=
      if p.window.getLast?.any (·.sequence + 1 ≠ segment.sequence) then [] else p.window
    let (floor, window) := trimWindow p.windowFloor (window ++ [segment])
    { p with window := window, windowFloor := floor, playlistDirty := true }
  else p

def acknowledge (p : UploadPolicy) (flight : InFlight) (now : Nat) : UploadPolicy :=
  let p := { p with attempts := 0, backoffUntil := none }
  match flight.target with
  | .segment sequence =>
    let p := { p with delivery := p.delivery.acknowledged sequence now }
    let p := p.popSent sequence
    let p := { p with targetDuration := max p.targetDuration (ceilSeconds flight.duration) }
    p.listAcked ⟨sequence, flight.duration⟩
  | .playlist _ ended =>
    { p with playlistDirty := false, stopped := if ended then some .ended else p.stopped }

def retry (p : UploadPolicy) (flight : InFlight) (now : Nat) : UploadPolicy × ResultEffect :=
  match flight.target with
  | .playlist _ true => ({ p with stopped := some .ended }, .endNotDelivered)
  | _ =>
    let attempts := p.attempts + 1
    ({ p with attempts := attempts, backoffUntil := some (now + backoff attempts) },
      .willRetry attempts)

def onResult (p : UploadPolicy) (outcome : UploadOutcome) (now : Nat) :
    UploadPolicy × Option ResultEffect :=
  match p.inFlight with
  | none => (p, none)
  | some flight =>
    let p := { p with inFlight := none }
    match classify outcome with
    | .acknowledged => (p.acknowledge flight now, some (.acknowledged flight.bytes))
    | .rejected status => ({ p with stopped := some (.rejected status) }, some (.rejected status))
    | .retry =>
      let (p, effect) := p.retry flight now
      (p, some effect)

end UploadPolicy

end Restream.HlsUpload
