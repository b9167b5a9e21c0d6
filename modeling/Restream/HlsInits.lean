import Mathlib.Data.List.Dedup
import Mathlib.Data.Set.Function
import Restream.HlsReleases

/-! The init objects of a push session. A run records the newest bytes given for
every map URI, the bytes each rendition's demuxer holds, and what it held at
each release of a segment listed under a map. -/

namespace Restream.Hls

open List Nat

def MapState.bytes (map : MapState) : Option (List UInt8) :=
  match map.pending, map.delivered with
  | some payload, _ => some payload.bytes
  | none, some _ => map.last.map Payload.bytes
  | none, none => none

def Session.mapOf (s : Session) (rendition sequence : Nat) : Option Path := do
  let track ← s.tracks[rendition]?
  let listed ← track.listed.get? sequence
  listed.mapUri

def MediaPlaylist.maps (media : MediaPlaylist) : List Path :=
  media.mapUri.toList ++ media.segments.filterMap SegmentEntry.mapUri

def Session.followed (s : Session) (path : Path) : Option Track :=
  match s.follows path with
  | .other => none
  | .unlocked => s.tracks[0]?
  | .rendition index => s.tracks[index]?

/-- A playlist naming `paths` makes no map of `uri` from a replaced seed: its seeds are
its newest init, or the track knows the map and has room for all the others. -/
def Track.KeepsInit (uri : Path) (newest : Option (List UInt8)) (paths : List Path)
    (track : Track) (pool : Pool) : Prop :=
  uri ∈ paths → (∀ x ∈ pool.seeded, x.1 = uri → newest = some x.2) ∨
    track.knowsMap uri = true ∧ (track.maps.map MapState.uri ++ paths).dedup.length ≤ maxMaps

instance (uri : Path) (newest : Option (List UInt8)) (paths : List Path) (track : Track)
    (pool : Pool) : Decidable (track.KeepsInit uri newest paths pool) := by
  unfold Track.KeepsInit
  infer_instance

/-- The demuxer of a release under a map, and the newest init of that map. -/
structure Served where
  uri : Path
  newest : Option (List UInt8)
  holds : Option (List UInt8)
  deriving DecidableEq

structure InitRun where
  session : Session
  newest : Path → Option (List UInt8)
  given : List (List UInt8)
  demuxers : Nat → Option (List UInt8)
  served : List Served

structure Seed where
  rendition : Nat
  uri : Path
  bytes : List UInt8

inductive InitEvent where
  | segment (path : Path) (bytes : List UInt8) (now : Nat)
  | playlist (path : Path) (playlist : Playlist) (now : Nat)
  | voidMap (uri : Path)
  | poll (now : Nat)

namespace InitRun

def give (r : InitRun) (uri : Path) (bytes : List UInt8) : InitRun :=
  { r with newest := Function.update r.newest uri (some bytes), given := r.given ++ [bytes] }

def seed (r : InitRun) (seed : Seed) : InitRun :=
  { r.give seed.uri seed.bytes with session := r.session.seedInit seed.rendition seed.uri seed.bytes }

def start (limits : SessionLimits) (seeds : List Seed) : InitRun :=
  seeds.foldl seed
    { session := .new limits, newest := fun _ => none, given := [],
      demuxers := fun _ => none, served := [] }

def deliver (s : Session) (r : InitRun) (release : Release) : InitRun :=
  let demuxers := match release.init with
    | some init => Function.update r.demuxers release.rendition (some init.payload.bytes)
    | none => r.demuxers
  { r with
    demuxers := demuxers
    served := r.served ++ (s.mapOf release.rendition release.sequence).toList.map fun uri =>
      { uri := uri, newest := r.newest uri, holds := demuxers release.rendition } }

def step (hash : List UInt8 → UInt64) (r : InitRun) : InitEvent → Option InitRun
  | .segment path bytes now =>
    some { r.give path bytes with
      session := (r.session.onSegment path { bytes := bytes, upload := none } now).1 }
  | .playlist path playlist now =>
    some { r with session := (r.session.onPlaylist path playlist now).1 }
  | .voidMap uri =>
    some { r with session := r.session.voidMap uri, newest := Function.update r.newest uri none }
  | .poll now =>
    let (session, releases) := r.session.poll hash now []
    some (releases.foldl (deliver r.session) { r with session := session })

/-- An upload for `uri` finds no other init of it: neither in a track behind the
first that knows the map, nor held while the path is a listed segment's. A refused
init has no held upload. -/
def ReplacesInit (uri : Path) (r : InitRun) : InitEvent → Prop
  | .segment path bytes _ => path = uri →
    (∀ x ∈ r.session.tracks.zipIdx, r.session.tracks.findIdx? (·.knowsMap uri) = some x.2 ∨
      ∀ map ∈ x.1.maps, map.uri = uri → ∀ b ∈ map.bytes, b = bytes) ∧
    ((r.session.entryOf uri).isSome ∨
      (r.session.otherVariants.any fun variant => variant.2.contains uri) →
      ∀ x ∈ r.session.pool.held, x.path ≠ uri)
  | .playlist path (.media media) _ => ∀ track ∈ r.session.followed path,
    track.KeepsInit uri (r.newest uri) media.maps r.session.pool
  | .voidMap path => path = uri → ∀ x ∈ r.session.pool.held, x.path ≠ uri
  | .playlist _ (.master _) _ | .poll _ => True

instance (uri : Path) (r : InitRun) (e : InitEvent) : Decidable (r.ReplacesInit uri e) := by
  unfold ReplacesInit
  split <;> infer_instance

end InitRun

namespace Pool

structure Within (pool' pool : Pool) : Prop where
  held : pool'.held.Sublist pool.held
  seeded : pool'.seeded = pool.seeded

theorem Within.refl (pool : Pool) : pool.Within pool := ⟨.refl _, rfl⟩

theorem Within.trans {pool pool' pool'' : Pool} (h : pool''.Within pool') (h' : pool'.Within pool) :
    pool''.Within pool := ⟨h.held.trans h'.held, h.seeded.trans h'.seeded⟩

theorem Drops.within {pool pool' : Pool} (h : pool.Drops pool') : pool'.Within pool :=
  ⟨h.frame.1, h.frame.2.1⟩

theorem takeHeld_within (pool : Pool) (path : Path) : (pool.takeHeld path).1.Within pool :=
  (Drops.take path .refl).within

variable {pool : Pool} (ho : (pool.held.map Held.path).Nodup) (path : Path)
include ho

theorem not_held_of_taken : ∀ x ∈ (pool.takeHeld path).1.held, x.path ≠ path := by
  unfold takeHeld
  split
  · next hn => simpa using hn
  · next held hf =>
    obtain ⟨hp, pre, after, hs, hb⟩ := find?_eq_some_iff_append.mp hf
    obtain rfl := of_decide_eq_true hp
    have he : pool.held.eraseP (fun x => x.path = held.path) = pre ++ after := by
      rw [hs, eraseP_append_right _ (by simpa using hb)]
      simp
    rw [hs, map_append, map_cons, nodup_middle, nodup_cons] at ho
    intro x hx heq
    rw [he] at hx
    rw [← map_append] at ho
    exact ho.1 (heq ▸ mem_map_of_mem hx)

theorem paths_added (pay : Payload)
    (now : Nat) : (((pool.takeHeld path).1.held ++ [Held.mk path pay now]).map Held.path).Nodup := by
  rw [map_append, nodup_append]
  refine ⟨ho.sublist ((pool.takeHeld_within path).held.map _), nodup_singleton _, fun a ha b hb => ?_⟩
  obtain ⟨x, hx, rfl⟩ := mem_map.mp ha
  rw [mem_singleton.mp hb]
  exact not_held_of_taken ho path x hx

end Pool

theorem Track.beginListing_maps (track : Track) (media : MediaPlaylist)
    (first last : SegmentEntry) (pool : Pool) :
    (track.beginListing media first last pool).1.maps = track.maps ∧
    (track.beginListing media first last pool).1.applied = track.applied ∧
    (track.beginListing media first last pool).2.Within pool := by
  unfold beginListing
  split <;> exact ⟨rfl, rfl, .refl _, rfl⟩

theorem Track.skipTo_maps (track : Track) (pool : Pool) (next seq : Nat) :
    (track.skipTo pool next seq).1.maps = track.maps ∧
    (track.skipTo pool next seq).1.applied = track.applied ∧
    (track.skipTo pool next seq).1.listed = track.listed ∧
    (track.skipTo pool next seq).2.Within pool := by
  unfold skipTo
  split <;> exact ⟨rfl, rfl, rfl, .refl _, rfl⟩

/-- What a track may take over when a master renames the renditions: the maps of
any track, and what the demuxer of its own rendition holds. -/
structure Track.CarriedTo (s : Session) (rendition : Nat) (track : Track) : Prop where
  maps : track.maps = [] ∨ ∃ old ∈ s.tracks, track.maps = old.maps
  applied : track.applied = none ∨ ∃ old, s.tracks[rendition]? = some old ∧
    track.applied = old.applied

/-- Where the track of a rendition comes from when a master names the renditions. -/
inductive Track.From (s : Session) (rendition : Nat) : Track → Prop
  | kept {track : Track} (h : s.tracks[rendition]? = some track) : From s rendition track
  | moved {track : Track} (h : track ∈ s.tracks) : From s rendition track.moved
  | switched {track : Track} (path : Path) (h : s.tracks[rendition]? = some track) :
    From s rendition (track.switchTo path)
  | named {track : Track} (path : Path) (h : s.tracks[rendition]? = some track) :
    From s rendition { track with path := some path }
  | new (path : Path) : From s rendition (.new (some path))

theorem Track.From.carried {track : Track} (h : track.From s k) : track.CarriedTo s k := by
  cases h with
  | kept h => exact ⟨.inr ⟨_, mem_of_getElem? h, rfl⟩, .inr ⟨_, h, rfl⟩⟩
  | moved h => exact ⟨.inr ⟨_, h, rfl⟩, .inl rfl⟩
  | switched path h => exact ⟨.inl rfl, .inr ⟨_, h, rfl⟩⟩
  | named path h => exact ⟨.inr ⟨_, mem_of_getElem? h, rfl⟩, .inr ⟨_, h, rfl⟩⟩
  | new path => exact ⟨.inl rfl, .inl rfl⟩

namespace Session

variable {old : List (Option Track)} {track : Track} {s : Session}

theorem takeTrack_eq (h : takeTrack old path = some (ix, track)) : old[ix]? = some (some track) := by
  simp only [takeTrack, Option.bind_eq_bind, Option.bind_eq_some_iff, Option.pure_def,
    Option.some.injEq, Prod.mk.injEq] at h
  obtain ⟨found, -, _, hj, rfl, rfl⟩ := h
  cases hget : old[found]? with
  | none => rw [hget] at hj; cases hj
  | some slot =>
    rw [hget] at hj
    exact congrArg some hj

def Slots (s : Session) (old : List (Option Track)) : Prop :=
  ∀ (j : Nat) (track : Track), old[j]? = some (some track) → s.tracks[j]? = some track

theorem keepTracks_from (rend : Nat) (hold : s.Slots old) :
    (∀ (k : Nat) (track : Track), (keepTracks rend paths old).1[k]? = some (some track) →
      track.From s (rend + k)) ∧
    s.Slots (keepTracks rend paths old).2 := by
  induction paths generalizing rend old with
  | nil => exact ⟨fun k track h => by simp [keepTracks] at h, hold⟩
  | cons path paths ih =>
    rw [keepTracks]
    split
    · obtain ⟨hk, hr⟩ := ih (rend + 1) hold
      refine ⟨fun k track h => ?_, hr⟩
      cases k with
      | zero => cases h
      | succ k =>
        have := hk k track h
        rwa [add_right_comm] at this
    · next ix taken hta =>
      have ht := hold _ _ (takeTrack_eq hta)
      have hset : s.Slots (old.set ix none) := by
        intro j track h
        rw [getElem?_set] at h
        split at h
        · split at h <;> cases h
        · exact hold j track h
      obtain ⟨hk, hr⟩ := ih (rend + 1) hset
      refine ⟨fun k track h => ?_, hr⟩
      cases k with
      | zero =>
        obtain rfl := Option.some.inj (Option.some.inj h)
        split
        · next heq => exact .kept (heq ▸ ht)
        · exact .moved (mem_of_getElem? ht)
      | succ k =>
        have := hk k track h
        rwa [add_right_comm] at this

theorem fillTracks_from (hold : s.Slots old) (rend : Nat)
    (hs : ∀ (k : Nat) (path : Path) (track : Track), slots[k]? = some (path, some track) →
      track.From s (rend + k)) :
    ∀ (k : Nat) (track : Track), (fillTracks old rend slots)[k]? = some track →
      track.From s (rend + k) := by
  induction slots generalizing rend with
  | nil => exact fun k track h => by simp [fillTracks] at h
  | cons slot slots ih =>
    have hr := ih (rend + 1) fun k path track h => by
      have := hs (k + 1) path track h
      rwa [← add_assoc, add_right_comm] at this
    intro k track h
    cases k with
    | succ k =>
      rw [← add_assoc, add_right_comm]
      obtain ⟨path, _ | kept⟩ := slot <;> exact hr k track h
    | zero =>
      obtain ⟨path, _ | kept⟩ := slot
      · cases h
        split
        · next found hf =>
          have hf : s.tracks[rend]? = some found := by
            refine hold rend found ?_
            cases hget : old[rend]? with
            | none => rw [hget] at hf; cases hf
            | some slot =>
              rw [hget] at hf
              exact congrArg some hf
          split
          · exact .switched path hf
          · exact .named path hf
        · exact .new path
      · obtain rfl := Option.some.inj h
        exact hs 0 path kept rfl

theorem onMaster_from (s : Session) (master : MasterPlaylist)
    (h : (s.onMaster master).tracks[i]? = some track) : track.From s i := by
  unfold onMaster at h
  split at h
  · exact .kept h
  · have hold : s.Slots (s.tracks.map some) := by
      intro j track h
      simpa using h
    have hf := fillTracks_from (keepTracks_from 0 hold).2 0 (fun k path track hk =>
      (keepTracks_from 0 hold).1 k track (getElem?_zip_eq_some.mp hk).2) i track h
    rwa [zero_add] at hf

theorem onMaster_pool (s : Session) : (s.onMaster master).pool = s.pool := by
  unfold onMaster
  split <;> rfl

end Session

end Restream.Hls
