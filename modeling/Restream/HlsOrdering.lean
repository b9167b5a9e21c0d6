import Mathlib.Algebra.GroupWithZero.Nat
import Mathlib.Order.Nat
import Restream.OrderedMap

/-! The ordering of the segments of one HLS push session: uploads are held until
a followed playlist names them and leave in the order of their media sequence.
Times and durations are milliseconds; counters that saturate count in `Nat`. -/

namespace Restream.Hls

abbrev Path := String

def u64Size : Nat := 2 ^ 64

def checkedSucc (n : Nat) : Option Nat := if n + 1 < u64Size then some (n + 1) else none

structure SegmentEntry where
  sequence : Nat
  path : Path
  duration : Nat
  discontinuity : Bool
  mapUri : Option Path
  deriving DecidableEq, Repr

structure MediaPlaylist where
  targetDuration : Nat
  mediaSequence : Nat
  segments : List SegmentEntry
  ended : Bool
  mapUri : Option Path
  deriving DecidableEq, Repr

structure Variant where
  bandwidth : Nat
  path : Path
  audioGroup : Option String
  deriving DecidableEq, Repr

structure AudioRendition where
  groupId : String
  default : Bool
  autoselect : Bool
  path : Option Path
  deriving DecidableEq, Repr

structure MasterPlaylist where
  variants : List Variant
  audio : List AudioRendition
  deriving DecidableEq, Repr

inductive Playlist where
  | media (playlist : MediaPlaylist)
  | master (playlist : MasterPlaylist)
  deriving DecidableEq, Repr

def MasterPlaylist.highestBandwidth (master : MasterPlaylist) : Option Variant :=
  match master.variants with
  | [] => none
  | first :: rest =>
    some (rest.foldl
      (fun best next => if best.bandwidth < next.bandwidth then next else best) first)

def MasterPlaylist.audioRendition (master : MasterPlaylist) (variant : Variant) :
    Option AudioRendition := do
  let group ← variant.audioGroup
  let members := master.audio.filter fun audio => audio.groupId = group
  (members.find? AudioRendition.default) <|>
    (members.find? AudioRendition.autoselect) <|> members.head?

/-- Segment or init bytes, with the number of the upload that brought them; the
bytes of a seeded init have none. -/
structure Payload where
  bytes : List UInt8
  upload : Option Nat
  deriving DecidableEq, Repr

def Payload.length (p : Payload) : Nat := p.bytes.length

structure SessionLimits where
  holdSegments : Nat
  holdBytes : Nat
  idleFloor : Nat
  deriving DecidableEq, Repr

inductive SegmentOutcome where
  | held
  | attached
  | duplicate
  | otherVariant
  | init
  deriving DecidableEq, Repr

inductive PlaylistOutcome where
  | accepted
  | otherVariant
  deriving DecidableEq, Repr

structure Counters where
  skipped : Nat
  duplicates : Nat
  evicted : Nat
  epochs : Nat
  deriving DecidableEq, Repr

def maxMaps : Nat := 4

def maxRenditions : Nat := 2

def maxOtherVariants : Nat := 16

structure MapState where
  uri : Path
  pending : Option Payload
  delivered : Option UInt64
  last : Option Payload
  deriving DecidableEq, Repr

structure Listed where
  path : Path
  discontinuity : Bool
  duration : Nat
  listedAt : Nat
  mapUri : Option Path
  payload : Option Payload
  deriving DecidableEq, Repr

structure Held where
  path : Path
  payload : Payload
  at' : Nat
  deriving DecidableEq, Repr

structure Window where
  mediaSequence : Nat
  last : Nat
  bySequence : OrderedMap Nat Path

structure Init where
  uri : Path
  payload : Payload
  deriving DecidableEq, Repr

inductive Reanchor where
  | none
  | clock
  | timeline (generation : Nat)
  deriving DecidableEq, Repr

structure Release where
  rendition : Nat
  sequence : Nat
  epoch : Nat
  reanchor : Reanchor
  afterGap : Bool
  duration : Nat
  init : Option Init
  payload : Payload
  deriving DecidableEq, Repr

structure Pool where
  limits : SessionLimits
  held : List Held
  heldBytes : Nat
  counters : Counters
  seeded : List (Path × List UInt8)

namespace Pool

def takeHeld (pool : Pool) (path : Path) : Pool × Option Payload :=
  match pool.held.find? fun held => held.path = path with
  | none => (pool, none)
  | some held =>
    ({ pool with
        held := pool.held.eraseP fun held => held.path = path
        heldBytes := pool.heldBytes - held.payload.length },
      some held.payload)

def popOldestHeld (pool : Pool) : Pool :=
  match pool.held with
  | [] => pool
  | oldest :: held => { pool with held := held, heldBytes := pool.heldBytes - oldest.payload.length }

def skip (pool : Pool) (n : Nat) : Pool :=
  { pool with counters := { pool.counters with skipped := pool.counters.skipped + n } }

def countDuplicate (pool : Pool) : Pool :=
  { pool with counters := { pool.counters with duplicates := pool.counters.duplicates + 1 } }

def countEpoch (pool : Pool) : Pool :=
  { pool with counters := { pool.counters with epochs := pool.counters.epochs + 1 } }

def evictOldest (pool : Pool) : Pool :=
  { pool.popOldestHeld with counters := { pool.counters with evicted := pool.counters.evicted + 1 } }

def overLimits (pool : Pool) : Bool :=
  decide (pool.limits.holdSegments < pool.held.length ∨ pool.limits.holdBytes < pool.heldBytes)

def evictOver : Nat → Pool → Pool
  | 0, pool => pool
  | n + 1, pool => if pool.overLimits then evictOver n pool.evictOldest else pool

def evictAged (now age : Nat) : Nat → Pool → Pool
  | 0, pool => pool
  | n + 1, pool =>
    if pool.held.head?.any fun held => decide (age ≤
      now - held.at') then evictAged now age n pool.evictOldest
    else pool

def hold (pool : Pool) (path : Path) (payload : Payload) (now : Nat) : Pool :=
  let pool := (pool.takeHeld path).1
  let pool : Pool := { pool with
    held := pool.held ++ [{ path := path, payload := payload, at' := now }]
    heldBytes := pool.heldBytes + payload.length }
  evictOver pool.held.length pool

end Pool

structure Track where
  path : Option Path
  target : Option Nat
  listed : OrderedMap Nat Listed
  window : Option Window
  latestListing : Path → Option Nat
  nextSeq : Option Nat
  epoch : Nat
  timelinePending : Option Nat
  clockPending : Bool
  gapPending : Bool
  generation : Nat
  ended : Bool
  maps : List MapState
  currentMap : Option Path
  playlistSeen : Bool
  applied : Option UInt64

namespace Track

def new (path : Option Path) : Track :=
  { path := path
    target := none
    listed := .empty
    window := none
    latestListing := fun _ => none
    nextSeq := none
    epoch := 0
    timelinePending := none
    clockPending := false
    gapPending := false
    generation := 0
    ended := false
    maps := []
    currentMap := none
    playlistSeen := false
    applied := none }

def knowsMap (track : Track) (uri : Path) : Bool := track.maps.any fun map => map.uri = uri

def switchTo (track : Track) (path : Path) : Track :=
  { track with
    path := some path
    listed := .empty
    window := none
    latestListing := fun _ => none
    nextSeq := none
    ended := false
    clockPending := true
    maps := []
    currentMap := none
    playlistSeen := false }

def skipDiscontinuity (track : Track) (discontinuity : Bool) : Track :=
  if discontinuity ∧ track.timelinePending = none then
    { track with
      gapPending := true
      generation := track.generation + 1
      timelinePending := some (track.generation + 1) }
  else { track with gapPending := true }

def takeReanchor (track : Track) (discontinuity replacesInit : Bool) : Track × Reanchor :=
  let taken := { track with timelinePending := none, clockPending := false }
  match track.timelinePending with
  | some generation => (taken, .timeline generation)
  | none =>
    if discontinuity then
      ({ taken with generation := track.generation + 1 }, .timeline (track.generation + 1))
    else (taken, if track.clockPending || replacesInit then .clock else .none)

def moved (track : Track) : Track := { track with applied := none }

def ensureMap (track : Track) (uri : Path) (pool : Pool) : Track × Pool :=
  if track.knowsMap uri then (track, pool)
  else
    let (pool, held) := pool.takeHeld uri
    let seeded := (pool.seeded.find? fun s => s.1 = uri).map fun s => { bytes := s.2, upload := none }
    let maps := if maxMaps ≤ track.maps.length then track.maps.drop 1 else track.maps
    ({ track with
        maps :=
          maps ++ [{ uri := uri, pending := held <|> seeded, delivered := none, last := none }] },
      pool)

def startsNewEpoch (track : Track) (media : MediaPlaylist) (last : Nat) : Bool :=
  match track.window with
  | none => false
  | some window =>
    decide (media.mediaSequence < window.mediaSequence) || decide (last < window.last) ||
      media.segments.any fun segment =>
        (window.bySequence.get? segment.sequence).any fun path => path ≠ segment.path

def initReady (track : Track) : Option Path → Bool
  | none => true
  | some uri => (track.maps.find? fun map => map.uri = uri).any fun map =>
    map.pending.isSome || map.delivered.isSome

def takeMap (hash : List UInt8 → UInt64) (map : MapState) : Option (MapState × List UInt8 × UInt64) :=
  match map.pending with
  | some payload =>
    let hashed := hash payload.bytes
    some ({ map with pending := none, last := some payload, delivered := some hashed },
      payload.bytes, hashed)
  | none =>
    match map.delivered, map.last with
    | some hashed, some kept => some (map, kept.bytes, hashed)
    | _, _ => none

def takeInit (hash : List UInt8 → UInt64) (track : Track) : Option Path → Track × Option Init × Bool
  | none => (track, none, false)
  | some uri =>
    match (track.maps.find? fun map => map.uri = uri).bind (takeMap hash) with
    | none => (track, none, false)
    | some (map, bytes, hashed) =>
      let track :=
        { track with maps := track.maps.replaceF fun m => if m.uri = uri then some map else none }
      if track.applied = some hashed then (track, none, false)
      else
        ({ track with applied := some hashed },
          some { uri := uri, payload := { bytes := bytes, upload := none } }, track.applied.isSome)

def startEpoch (track : Track) (first : Nat) : Track :=
  { track with
    listed := .empty
    latestListing := fun _ => none
    nextSeq := some first
    epoch := track.epoch + 1
    generation := track.generation + 1
    timelinePending := some (track.generation + 1)
    clockPending := false
    ended := false }

def ensureSegmentMap (track : Track) (mapUri : Option Path) (pool : Pool) : Track × Pool :=
  match mapUri with
  | none => (track, pool)
  | some uri => track.ensureMap uri pool

def followSegment (now : Nat) (track : Track) (pool : Pool) (segment : SegmentEntry) : Track × Pool :=
  if track.nextSeq.any fun next => decide (segment.sequence < next) then
    let (pool, held) := pool.takeHeld segment.path
    (track, if held.isSome then pool.countDuplicate else pool)
  else
    match track.listed.get? segment.sequence with
    | some listed =>
      if listed.payload.isNone ∧ listed.path = segment.path then
        match pool.takeHeld segment.path with
        | (pool, none) => (track, pool)
        | (pool, some payload) =>
          ({ track with
              listed := track.listed.modify segment.sequence
                fun listed => { listed with payload := some payload } },
            pool)
      else (track, pool)
    | none =>
      let (track, pool) := track.ensureSegmentMap segment.mapUri pool
      let (pool, payload) := pool.takeHeld segment.path
      let listed : Listed :=
        { path := segment.path
          discontinuity := segment.discontinuity
          duration := segment.duration
          listedAt := now
          mapUri := segment.mapUri
          payload := payload }
      ({ track with listed := track.listed.insert segment.sequence listed }, pool)

def followSegments (now : Nat) : List SegmentEntry → Track → Pool → Track × Pool
  | [], track, pool => (track, pool)
  | segment :: segments, track, pool =>
    let (track, pool) := track.followSegment now pool segment
    followSegments now segments track pool

def listingOf (segments : List SegmentEntry) : Path → Option Nat :=
  segments.foldl (fun listing segment => Function.update listing segment.path
    (some segment.sequence)) fun _ => none

def bySequenceOf (segments : List SegmentEntry) : OrderedMap Nat Path :=
  segments.foldl (fun map segment => map.insert segment.sequence segment.path) .empty

def beginListing (track : Track) (media : MediaPlaylist) (first last : SegmentEntry) (pool : Pool) :
    Track × Pool :=
  if track.startsNewEpoch media last.sequence then (track.startEpoch first.sequence, pool.countEpoch)
  else ({ track with nextSeq := some (track.nextSeq.getD first.sequence) }, pool)

def endListing (track : Track) (media : MediaPlaylist) (last : SegmentEntry) : Track :=
  { track with
    window := some
      { mediaSequence := media.mediaSequence
        last := last.sequence
        bySequence := bySequenceOf media.segments }
    latestListing := listingOf media.segments
    ended := track.ended || media.ended }

def followListing (track : Track) (media : MediaPlaylist)
    (first last : SegmentEntry) (now : Nat) (pool : Pool) :
    Track × Pool :=
  let (track, pool) := track.beginListing media first last pool
  let (track, pool) := followSegments now media.segments track pool
  (track.endListing media last, pool)

def onFollowed (track : Track) (media : MediaPlaylist) (now : Nat) (pool : Pool) : Track × Pool :=
  let seen := { track with playlistSeen := true, currentMap := media.mapUri, target := some media.targetDuration }
  let (track, pool) := seen.ensureSegmentMap media.mapUri pool
  match media.segments.head?, media.segments.getLast? with
  | some first, some last => track.followListing media first last now pool
  | _, _ => ({ track with ended := track.ended || media.ended }, pool)

def laterBytesReady (track : Track) : Bool :=
  (track.listed.values.drop 1).any fun listed => listed.payload.isSome

def gapExpired (track : Track) (head : Listed) (now : Nat) : Bool :=
  (track.target.any fun target => decide (target ≤ now - head.listedAt)) && track.laterBytesReady

def removeHead (track : Track) (sequence : Nat) : Track :=
  { track with listed := track.listed.erase sequence, nextSeq := checkedSucc sequence }

def pollHead (hash : List UInt8 → UInt64) (rendition now : Nat)
    (track : Track) (pool : Pool) (sequence : Nat)
    (head : Listed) : Option (Track × Pool × Option Release) :=
  let skipped := (track.removeHead sequence).skipDiscontinuity head.discontinuity
  match head.payload with
  | none => if track.gapExpired head now then some (skipped, pool.skip 1, none) else none
  | some payload =>
    if track.initReady head.mapUri then
      let (removed, init, replaces) := (track.removeHead sequence).takeInit hash head.mapUri
      let (removed, reanchor) := removed.takeReanchor head.discontinuity replaces
      some ({ removed with gapPending := false }, pool, some
        { rendition := rendition
          sequence := sequence
          epoch := track.epoch
          reanchor := reanchor
          afterGap := track.gapPending
          duration := head.duration
          init := init
          payload := payload })
    else if track.target.any fun target => decide (target ≤ now - head.listedAt) then
      some (skipped, pool.skip 1, none)
    else none

def skipTo (track : Track) (pool : Pool) (next sequence : Nat) : Track × Pool :=
  if next < sequence then
    ({ track with gapPending := true, nextSeq := some sequence }, pool.skip (sequence - next))
  else (track, pool)

def pollLoop (hash : List UInt8 → UInt64) (rendition now : Nat) :
    Nat → Track → Pool → List Release → Track × Pool × List Release
  | 0, track, pool, out => (track, pool, out)
  | n + 1, track, pool, out =>
    match track.nextSeq, track.listed.first? with
    | some next, some (sequence, head) =>
      let (track, pool) := track.skipTo pool next sequence
      match track.pollHead hash rendition now pool sequence head with
      | none => (track, pool, out)
      | some (track, pool, release) =>
        pollLoop hash rendition now n track pool (out ++ release.toList)
    | _, _ => (track, pool, out)

def poll (hash : List UInt8 → UInt64) (rendition now : Nat)
    (track : Track) (pool : Pool) (out : List Release) :
    Track × Pool × List Release :=
  pollLoop hash rendition now track.listed.length track pool out

def entryOf (track : Track) (path : Path) : Option (Nat × Listed) := do
  let sequence ← track.latestListing path
  let listed ← track.listed.get? sequence
  if listed.path = path then some (sequence, listed) else none

def setPayload (track : Track) (sequence : Nat) (payload : Payload) : Track :=
  { track with listed := track.listed.modify sequence fun listed => { listed with payload := some payload } }

def setPending (track : Track) (uri : Path) (payload : Payload) : Track :=
  { track with
    maps := track.maps.replaceF fun map =>
      if map.uri = uri then some { map with pending := some payload } else none }

def voidMap (track : Track) (uri : Path) : Track :=
  { track with
    maps := track.maps.replaceF fun map =>
      if map.uri = uri then some { map with pending := none, delivered := none, last := none }
        else none }

end Track

inductive Follows where
  | unlocked
  | rendition (index : Nat)
  | other
  deriving DecidableEq, Repr

structure Session where
  pool : Pool
  tracks : List Track
  otherVariants : List (Path × List Path)
  masterSeen : Bool

namespace Session

def new (limits : SessionLimits) : Session :=
  { pool :=
      { limits := limits
        held := []
        heldBytes := 0
        counters := { skipped := 0, duplicates := 0, evicted := 0, epochs := 0 }
        seeded := [] }
    tracks := [Track.new none]
    otherVariants := []
    masterSeen := false }

def target (s : Session) : Option Nat := (s.tracks.filterMap Track.target).max?

def idleTimeout (s : Session) : Nat :=
  match s.target with
  | none => s.pool.limits.idleFloor
  | some target => max (target * 3) s.pool.limits.idleFloor

def follows (s : Session) (playlistPath : Path) : Follows :=
  if s.tracks.head?.all fun track => track.path.isNone then .unlocked
  else
    match s.tracks.findIdx? fun track => track.path = some playlistPath with
    | none => .other
    | some index => .rendition index

def seedInit (s : Session) (rendition : Nat) (uri : Path) (bytes : List UInt8) : Session :=
  if maxRenditions ≤ rendition then s
  else
    let pool :=
      { s.pool with seeded := (s.pool.seeded.filter fun seeded => seeded.1 ≠ uri) ++
        [(uri, bytes)] }
    let tracks := s.tracks ++ List.replicate (rendition + 1 - s.tracks.length) (Track.new none)
    match tracks[rendition]? with
    | none => { s with pool := pool, tracks := tracks }
    | some track =>
      let (track, pool) := track.ensureMap uri pool
      { s with pool := pool, tracks := tracks.set rendition track }

def voidMap (s : Session) (uri : Path) : Session :=
  { s with
    tracks := s.tracks.map fun track => track.voidMap uri
    pool := { s.pool with seeded := s.pool.seeded.filter fun seeded => seeded.1 ≠ uri } }

def entryOf (s : Session) (path : Path) : Option (Nat × Nat × Listed) :=
  s.tracks.zipIdx.findSome? fun (track, index) =>
    (track.entryOf path).map fun (sequence, listed) => (index, sequence, listed)

def onSegment (s : Session) (path : Path) (payload : Payload) (now : Nat) :
    Session × SegmentOutcome :=
  match s.tracks.findIdx? fun track => track.knowsMap path with
  | some index =>
    ({ s with tracks := s.tracks.modify index fun track => track.setPending path payload }, .init)
  | none =>
    match s.entryOf path with
    | some (index, sequence, listed) =>
      if listed.payload.isSome then ({ s with pool := s.pool.countDuplicate }, .duplicate)
      else ({ s with tracks := s.tracks.modify index fun track => track.setPayload sequence payload }, .attached)
    | none =>
      if (s.tracks.all fun track => (track.latestListing path).isNone) ∧
          s.otherVariants.any fun variant => variant.2.contains path then (s, .otherVariant)
      else ({ s with pool := s.pool.hold path payload now }, .held)

def takeTrack (old : List (Option Track)) (path : Path) : Option (Nat × Track) := do
  let index ← old.findIdx? fun track => track.any fun track => track.path = some path
  let track ← (old[index]?).join
  return (index, track)

def keepTracks : (rendition : Nat) → List Path → List (Option Track) →
    List (Option Track) × List (Option Track)
  | _, [], old => ([], old)
  | rendition, path :: paths, old =>
    match takeTrack old path with
    | none =>
      let (kept, old) := keepTracks (rendition + 1) paths old
      (none :: kept, old)
    | some (index, track) =>
      let track := if index = rendition then track else track.moved
      let (kept, old) := keepTracks (rendition + 1) paths (old.set index none)
      (some track :: kept, old)

def fillTracks (old : List (Option Track)) :
    (rendition : Nat) → List (Path × Option Track) → List Track
  | _, [] => []
  | rendition, (_, some track) :: rest => track :: fillTracks old (rendition + 1) rest
  | rendition, (path, none) :: rest =>
    let track :=
      match (old[rendition]?).join with
      | some track =>
        if track.path.isSome then track.switchTo path else { track with path := some path }
      | none => Track.new (some path)
    track :: fillTracks old (rendition + 1) rest

def onMaster (s : Session) (master : MasterPlaylist) : Session :=
  let s := { s with masterSeen := true }
  match master.highestBandwidth with
  | none => s
  | some chosen =>
    let audio := ((master.audioRendition chosen).bind AudioRendition.path).filter
      fun path => path ≠ chosen.path
    let wanted := chosen.path :: audio.toList
    let (kept, old) := keepTracks 0 wanted (s.tracks.map some)
    { s with
      tracks := fillTracks old 0 (wanted.zip kept)
      otherVariants := s.otherVariants.filter fun variant => !wanted.contains variant.1 }

def onOtherVariant (s : Session) (playlistPath : Path) (media : MediaPlaylist) : Session :=
  let paths := media.segments.map SegmentEntry.path
  let known := s.otherVariants.any fun variant => variant.1 = playlistPath
  let pool :=
    if s.masterSeen || known then paths.foldl
      (fun pool path => (Pool.takeHeld pool path).1) s.pool else s.pool
  let others := s.otherVariants.filter fun variant => variant.1 ≠ playlistPath
  { s with
    pool := pool
    otherVariants :=
      if known ∨ s.otherVariants.length < maxOtherVariants then others ++ [(playlistPath, paths)]
      else s.otherVariants }

def followMedia (s : Session) (index : Nat) (media : MediaPlaylist) (now : Nat) : Session :=
  match s.tracks[index]? with
  | none => s
  | some track =>
    let (track, pool) := track.onFollowed media now s.pool
    { s with pool := pool, tracks := s.tracks.set index track }

def onPlaylist (s : Session) (playlistPath : Path) (playlist : Playlist) (now : Nat) :
    Session × PlaylistOutcome :=
  match playlist with
  | .master master => (s.onMaster master, .accepted)
  | .media media =>
    match s.follows playlistPath with
    | .other => (s.onOtherVariant playlistPath media, .otherVariant)
    | .unlocked =>
      let named :=
        { s with tracks := s.tracks.modify 0 fun track => { track with path := some playlistPath } }
      (named.followMedia 0 media now, .accepted)
    | .rendition index => (s.followMedia index media now, .accepted)

def pollTracks (hash : List UInt8 → UInt64) (now : Nat) :
    (rendition : Nat) → List Track → Pool → List Release → List Track × Pool × List Release
  | _, [], pool, out => ([], pool, out)
  | rendition, track :: tracks, pool, out =>
    let (track, pool, out) := track.poll hash rendition now pool out
    let (tracks, pool, out) := pollTracks hash now (rendition + 1) tracks pool out
    (track :: tracks, pool, out)

def poll (hash : List UInt8 → UInt64) (s : Session) (now : Nat) (out : List Release) :
    Session × List Release :=
  let (tracks, pool, out) := pollTracks hash now 0 s.tracks s.pool out
  let s := { s with tracks := tracks, pool := pool }
  ({ s with pool := Pool.evictAged now s.idleTimeout pool.held.length pool }, out)

end Session

end Restream.Hls
