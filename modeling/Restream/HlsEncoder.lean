import Mathlib.Data.List.Range
import Mathlib.Data.List.Nodup
import Restream.HlsDeadlines
import Restream.HlsInits
import Restream.HlsPush

/-! An encoder that pushes its segments and, one after the other, the playlists of a
window that slides over them, to one session; what these do to a track that follows it
and to the hold. -/

namespace Restream.Hls

open OrderedMap

/-- The segments `0, …, segments - 1` of an encoder whose playlists list the last
`windowSize` of them. -/
structure Encoder where
  segments : Nat
  windowSize : Nat
  target : Nat
  playlistPath : Path
  path : Nat → Path
  duration : Nat → Nat
  ended : Nat → Bool
  window_pos : 0 < windowSize
  target_pos : 0 < target
  distinct : ∀ i j, i < segments → j < segments → path i = path j → i = j
  inU64 : segments ≤ u64Size

namespace Encoder

def entry (e : Encoder) (j : Nat) : SegmentEntry :=
  { sequence := j, path := e.path j, duration := e.duration j,
    discontinuity := false, mapUri := none }

def first (e : Encoder) (k : Nat) : Nat := k + 1 - e.windowSize

def playlist (e : Encoder) (k : Nat) : MediaPlaylist :=
  { targetDuration := e.target
    mediaSequence := e.first k
    segments := (List.range' (e.first k) (k + 1 - e.first k)).map e.entry
    ended := e.ended k
    mapUri := none }

end Encoder

/-- A session fed by an encoder: the playlists sent and when, the uploads and when, and
the segments that were uploaded only after a playlist without them. -/
structure EncoderRun where
  session : Session
  time : Nat
  sent : Nat
  listedAt : Nat → Nat
  uploadedAt : Nat → Option Nat
  slid : List Nat
  released : List Release

inductive EncoderEvent where
  | playlist (now : Nat)
  | upload (j : Nat) (bytes : List UInt8) (now : Nat)
  | poll (now : Nat)
  deriving DecidableEq

def EncoderEvent.time : EncoderEvent → Nat
  | .playlist now | .upload _ _ now | .poll now => now

namespace EncoderRun

def start (limits : SessionLimits) : EncoderRun :=
  { session := .new limits
    time := 0
    sent := 0
    listedAt := fun _ => 0
    uploadedAt := fun _ => none
    slid := []
    released := [] }

def uploaded (e : Encoder) (r : EncoderRun) (j now : Nat) (session : Session) : EncoderRun :=
  { r with
    session := session
    time := now
    uploadedAt := Function.update r.uploadedAt j (some now)
    slid := if j + e.windowSize < r.sent then r.slid ++ [j] else r.slid }

def step (hash : List UInt8 → UInt64) (e : Encoder) (r : EncoderRun) :
    EncoderEvent → Option EncoderRun
  | .playlist now =>
    if r.time ≤ now ∧ r.sent < e.segments then
      some { r with
        session := (r.session.onPlaylist e.playlistPath (.media (e.playlist r.sent)) now).1
        time := now
        sent := r.sent + 1
        listedAt := Function.update r.listedAt r.sent now }
    else none
  | .upload j bytes now =>
    if r.time ≤ now ∧ j < e.segments ∧ r.uploadedAt j = none then
      some (r.uploaded e j now
        (r.session.onSegment (e.path j) { bytes := bytes, upload := some j } now).1)
    else none
  | .poll now =>
    if r.time ≤ now then
      some { r with
        session := (r.session.poll hash now []).1
        time := now
        released := r.released ++ (r.session.poll hash now []).2 }
    else none

def Room (e : Encoder) (r : EncoderRun) : EncoderEvent → Prop
  | .upload j bytes _ => r.sent ≤ j ∨ j + e.windowSize < r.sent →
    r.session.pool.held.length < r.session.pool.limits.holdSegments ∧
      r.session.pool.heldBytes + bytes.length ≤ r.session.pool.limits.holdBytes
  | _ => True

/-- Nothing happens a target duration after a listed segment that is still to be uploaded,
nor the idle timeout after an upload that is still to be listed; and the hold has room. -/
def Timely (e : Encoder) (r : EncoderRun) (event : EncoderEvent) : Prop :=
  (∀ j < r.sent, r.uploadedAt j = none → event.time < r.listedAt j + e.target) ∧
    (∀ j < e.segments, r.sent ≤ j → ∀ u ∈ r.uploadedAt j, event.time < u + r.session.idleTimeout) ∧
    r.Room e event

/-- The releases are all segments in order in the first epoch, and none was skipped. -/
def Complete (e : Encoder) (r : EncoderRun) : Prop :=
  r.released.map (fun x => (x.sequence, x.epoch)) = (List.range e.segments).map (fun j => (j, 0)) ∧
    r.session.pool.counters.skipped = 0

end EncoderRun

def nextOf (next : Nat) : Option Nat := if next < u64Size then some next else none

/-- What a track knows in a run: it follows the encoder's playlist in its first epoch, and
lists every segment that was sent and has not left. A listed segment has its bytes when it
was uploaded in time. -/
structure Track.Follows (e : Encoder) (r : EncoderRun) (next : Nat) (track : Track) : Prop where
  maps : track.maps = []
  epoch : track.epoch = 0
  path : track.path = if r.sent = 0 then none else some e.playlistPath
  target : r.sent ≠ 0 → track.target = some e.target
  window : track.window =
    if r.sent = 0 then none
    else some
      { mediaSequence := e.first (r.sent - 1)
        last := r.sent - 1
        bySequence := bySequenceOf (e.playlist (r.sent - 1)).segments }
  latest : ∀ j < e.segments, track.latestListing (e.path j) =
    if r.sent ≤ j + e.windowSize ∧ j < r.sent then some j else none
  nextSeq : track.nextSeq = if r.sent = 0 then none else nextOf next
  keys : track.listed.entries.map Prod.fst = List.range' next (r.sent - next)
  listed : ∀ x ∈ track.listed.entries, x.2.path = e.path x.1 ∧
    x.2.mapUri = none ∧ x.2.listedAt = r.listedAt x.1 ∧
    (x.2.payload.isSome = true ↔ r.uploadedAt x.1 ≠ none ∧ x.1 ∉ r.slid)

/-- What the hold has in a run: the segments that are not listed yet, and those uploaded
too late. -/
structure Pool.Holds (e : Encoder) (r : EncoderRun) (pool : Pool) : Prop where
  once : (pool.held.map Held.path).Nodup
  held : ∀ h ∈ pool.held, ∃ j < e.segments, h.path = e.path j ∧ r.uploadedAt j = some h.at' ∧
    (r.sent ≤ j ∨ j ∈ r.slid)
  early : ∀ j < e.segments, r.sent ≤ j → r.uploadedAt j ≠ none → ∃ h ∈ pool.held, h.path = e.path j

def inTime (slid : List Nat) (next : Nat) : List Nat := (List.range next).filter fun j => j ∉ slid

def tooLate (slid : List Nat) (next : Nat) : List Nat := (List.range next).filter fun j => j ∈ slid

/-- Everything below `next` has left: released if it was uploaded in time, skipped if not. -/
structure EncoderRun.Inv (e : Encoder) (r : EncoderRun) (next : Nat) (track : Track) : Prop where
  tracks : r.session.tracks = [track]
  others : r.session.otherVariants = []
  follows : track.Follows e r next
  holds : r.session.pool.Holds e r
  sent_le : r.sent ≤ e.segments
  next_le : next ≤ r.sent
  uploaded : ∀ j < next, r.uploadedAt j ≠ none
  past : ∀ j, ∀ u ∈ r.uploadedAt j, u ≤ r.time
  slid : ∀ j ∈ r.slid, r.uploadedAt j ≠ none ∧ j + e.windowSize < r.sent
  released : r.released.map (fun x => (x.sequence, x.epoch)) =
    (inTime r.slid next).map fun j => (j, 0)
  skipped : r.session.pool.counters.skipped = (tooLate r.slid next).length

open List Option Encoder Session Track

variable {e : Encoder}

namespace Encoder

theorem mem_window : j ∈ range' (e.first k) (k + 1 - e.first k) ↔
    k + 1 ≤ j + e.windowSize ∧ j ≤ k := by
  rw [mem_range'_1]
  unfold first
  omega

theorem segments_eq : (e.playlist k).segments =
    (range' (e.first k) (k - e.first k)).map e.entry ++ [e.entry k] := by
  have hpos := e.window_pos
  have hle : e.first k ≤ k := by
    unfold first
    omega
  have hlen : k + 1 - e.first k = (k - e.first k) + 1 := by omega
  simp only [playlist, hlen, range'_concat, map_append, map_cons, map_nil, Nat.one_mul]
  rw [Nat.add_sub_cancel' hle]

theorem listingOf_playlist (hk : k < e.segments) (hj : j < e.segments) :
    listingOf (e.playlist k).segments (e.path j) =
      if k + 1 ≤ j + e.windowSize ∧ j ≤ k then some j else none := by
  have hf (js : List Nat) (hjs : ∀ i ∈ js, i < e.segments) (listing : Path → Option Nat) :
      (js.map e.entry).foldl (fun (listing : Path → Option Nat) (seg : SegmentEntry) =>
          Function.update listing seg.path (some seg.sequence)) listing (e.path j) =
        if j ∈ js then some j else listing (e.path j) := by
    induction js generalizing listing with
    | nil => simp
    | cons i js ih =>
      rw [map_cons, foldl_cons, ih (fun i hi => hjs i (mem_cons_of_mem _ hi))]
      by_cases hij : j = i
      · subst hij
        simp [entry]
      · have hp : e.path j ≠ e.path i := fun h => hij (e.distinct j i hj (hjs i mem_cons_self) h)
        simp [entry, hij, hp]
  have hw := hf (range' (e.first k) (k + 1 - e.first k)) (fun i hi => by
    have := (mem_window.mp hi).2
    omega) fun _ => none
  simp only [mem_window] at hw
  exact hw

theorem mem_bySequence (h : (bySequenceOf (e.playlist k).segments).get? s = some p) :
    p = e.path s := by
  have hf (segs : List SegmentEntry) (hs : ∀ x ∈ segs, x.path = e.path x.sequence)
      (map : OrderedMap Nat Path) (hmap : ∀ x ∈ map.entries, x.2 = e.path x.1) :
      ∀ x ∈ (segs.foldl (fun map seg => map.insert seg.sequence seg.path) map).entries,
        x.2 = e.path x.1 := by
    induction segs generalizing map with
    | nil => exact hmap
    | cons seg segs ih =>
      refine ih (fun x hx => hs x (mem_cons_of_mem _ hx)) _ fun x hx => ?_
      rcases mem_insert.mp hx with rfl | ⟨hx, -⟩
      · exact hs seg mem_cons_self
      · exact hmap x hx
  refine hf (e.playlist k).segments (fun x hx => ?_) .empty (by rintro x ⟨⟩) (s, p) (mem_of_get? h)
  obtain ⟨j, -, rfl⟩ := mem_map.mp hx
  rfl

end Encoder

namespace Pool

variable {pool : Pool} {path : Path}

theorem takeHeld_absent (h : ∀ held ∈ pool.held, held.path ≠ path) :
    pool.takeHeld path = (pool, none) := by
  have hn : (pool.held.find? fun held => decide (held.path = path)) = none := by simpa using h
  rw [takeHeld, hn]

theorem takeHeld_spec (ho : (pool.held.map Held.path).Nodup) (path : Path) :
    (∀ h, h ∈ (pool.takeHeld path).1.held ↔ h ∈ pool.held ∧ h.path ≠ path) ∧
      ((pool.takeHeld path).2.isSome = true ↔ ∃ h ∈ pool.held, h.path = path) := by
  have hg := not_held_of_taken ho path
  have hsub := pool.takeHeld_sublist path
  rcases pool.takeHeld_cases path with ha | ⟨held, pool', ht, hp, hpe, -⟩
  · rw [ha] at hg hsub ⊢
    simpa using hg
  · rw [ht] at hg hsub ⊢
    refine ⟨fun h => ⟨fun hh => ⟨hsub.subset hh, hg h hh⟩, fun ⟨hh, hne⟩ => ?_⟩, ?_⟩
    · rcases mem_cons.mp (hpe.subset hh) with rfl | hh
      · exact absurd hp hne
      · exact hh
    · simpa using ⟨held, hpe.symm.subset mem_cons_self, hp⟩

theorem takeHeld_counters (pool : Pool) (path : Path) :
    (pool.takeHeld path).1.counters = pool.counters := by
  unfold takeHeld
  split <;> rfl

theorem hold_room (pay : Payload) (ha : ∀ held ∈ pool.held, held.path ≠ path)
    (hr : pool.held.length < pool.limits.holdSegments ∧
      pool.heldBytes + pay.length ≤ pool.limits.holdBytes) :
    pool.hold path pay now = { pool with
      held := pool.held ++ [{ path := path, payload := pay, at' := now }]
      heldBytes := pool.heldBytes + pay.length } := by
  simp only [hold, takeHeld_absent ha, length_append, length_singleton, evictOver]
  refine if_neg ?_
  simp only [overLimits, length_append, length_singleton, decide_eq_true_eq]
  omega

theorem mem_evictAged (hy : ¬age ≤ now - h.at') (n : Nat) (hmem : h ∈ pool.held) :
    h ∈ (evictAged now age n pool).held := by
  induction n generalizing pool with
  | zero => exact hmem
  | succ n ih =>
    rw [evictAged]
    split
    · next hold =>
      refine ih ?_
      cases hh : pool.held with
      | nil =>
        rw [hh] at hmem
        cases hmem
      | cons oldest held =>
        rw [hh, mem_cons] at hmem
        rcases hmem with rfl | hmem
        · rw [hh] at hold
          exact absurd (by simpa using hold) hy
        · simpa only [evictOldest, popOldestHeld, hh] using hmem
    · exact hmem

end Pool

variable {t : Track} {s : Session}

theorem Track.Follows.startsNewEpoch {r : EncoderRun} {next : Nat} (h : t.Follows e r next) :
    t.startsNewEpoch (e.playlist r.sent) r.sent = false := by
  unfold Track.startsNewEpoch
  rw [h.window]
  split
  · rfl
  · next window hw =>
    split at hw <;> cases hw
    have hf : ¬e.first r.sent < e.first (r.sent - 1) := by
      unfold first
      omega
    have hp : ((e.playlist r.sent).segments.any fun seg =>
        ((bySequenceOf (e.playlist (r.sent - 1)).segments).get? seg.sequence).any fun path =>
          decide (path ≠ seg.path)) = false := by
      rw [List.any_eq_false]
      intro seg hs
      obtain ⟨j, -, rfl⟩ := mem_map.mp hs
      cases hget : (bySequenceOf (e.playlist (r.sent - 1)).segments).get? j with
      | none => simp [entry, hget]
      | some path => simp [entry, hget, mem_bySequence hget]
    simp only [hp, Bool.or_false, Bool.or_eq_false_iff, decide_eq_false_iff_not]
    exact ⟨hf, by omega⟩

theorem Session.onPlaylist_single {path : Path} (ht : s.tracks = [t])
    (hp : t.path = none ∨ t.path = some path) :
    (s.onPlaylist path (.media media) now).1 = { s with
        tracks := [(onFollowed { t with path := some path } media now s.pool).1]
        pool := (onFollowed { t with path := some path } media now s.pool).2 } := by
  rcases hp with hp | hp
  · have hf : s.follows path = .unlocked := by simp [follows, ht, hp]
    simp [onPlaylist, hf, followMedia, ht]
  · have hf : s.follows path = .rendition 0 := by simp [follows, ht, hp]
    have hs : { t with path := some path } = t := by rw [← hp]
    simp [onPlaylist, hf, followMedia, ht, hs]

theorem Session.onSegment_single (ht : s.tracks = [t]) (hm : t.maps = [])
    (ho : s.otherVariants = []) (path : Path) (pay : Payload) (now : Nat) :
    (s.onSegment path pay now).1 =
      match t.entryOf path with
      | some (seq, ls) =>
        if ls.payload.isSome then { s with pool := s.pool.countDuplicate }
        else { s with tracks := [t.setPayload seq pay] }
      | none => { s with pool := s.pool.hold path pay now } := by
  have hk : t.knowsMap path = false := by simp [knowsMap, hm]
  cases he : t.entryOf path with
  | none => simp [onSegment, entryOf, ht, ho, hk, he]
  | some en =>
    by_cases hp : en.2.payload.isSome = true <;>
      simp [onSegment, entryOf, ht, hk, he, hp]

namespace Track

variable {pool : Pool} {now next j : Nat}

theorem followSegment_sent (hn : t.nextSeq = some next)
    (hl : next ≤ j → ∃ l, t.listed.get? j = some l) (hh : ∀ held ∈ pool.held, held.path ≠ e.path j) :
    t.followSegment now pool (e.entry j) = (t, pool) := by
  have ha := Pool.takeHeld_absent hh
  unfold followSegment
  by_cases hlt : j < next
  · rw [if_pos (by rw [hn]; exact decide_eq_true hlt)]
    simp [entry, ha]
  · obtain ⟨l, hget⟩ := hl (by omega)
    rw [if_neg (by rw [hn]; exact fun h => hlt (of_decide_eq_true h))]
    simp only [entry, hget, ha]
    split <;> rfl

theorem followSegments_known (h : ∀ s ∈ segs, t.followSegment now pool s = (t, pool)) :
    followSegments now (segs ++ rest) t pool = followSegments now rest t pool := by
  induction segs with
  | nil => rfl
  | cons seg segs ih =>
    rw [cons_append, followSegments, h seg mem_cons_self]
    exact ih fun s hs => h s (mem_cons_of_mem _ hs)

theorem Follows.get? (h : t.Follows e r next) (hle : next ≤ j) (hlt : j < r.sent) :
    ∃ l, t.listed.get? j = some l := by
  have hmem : j ∈ t.listed.entries.map Prod.fst := by
    rw [h.keys, mem_range'_1]
    omega
  obtain ⟨⟨key, l⟩, he, rfl⟩ := mem_map.mp hmem
  exact ⟨l, get?_of_mem he⟩

theorem Follows.mem_keys (h : t.Follows e r next) (hx : x ∈ t.listed.entries) :
    next ≤ x.1 ∧ x.1 < r.sent := by
  have hmem : x.1 ∈ t.listed.entries.map Prod.fst := mem_map_of_mem hx
  rw [h.keys, mem_range'_1] at hmem
  omega

theorem Follows.onFollowed (h : t.Follows e r next) (hse : r.sent < e.segments) (hn : next ≤ r.sent)
    (hhe : ∀ j < r.sent, r.sent < j + e.windowSize → ∀ held ∈ pool.held, held.path ≠ e.path j)
    (now : Nat) :
    onFollowed { t with path := some e.playlistPath } (e.playlist r.sent) now pool = ({ t with
          path := some e.playlistPath
          playlistSeen := true
          currentMap := none
          target := some e.target
          nextSeq := some next
          listed := t.listed.insert r.sent
            { path := e.path r.sent
              discontinuity := false
              duration := e.duration r.sent
              listedAt := now
              mapUri := none
              payload := (pool.takeHeld (e.path r.sent)).2 }
          window := some
            { mediaSequence := e.first r.sent
              last := r.sent
              bySequence := bySequenceOf (e.playlist r.sent).segments }
          latestListing := listingOf (e.playlist r.sent).segments
          ended := t.ended || e.ended r.sent },
        (pool.takeHeld (e.path r.sent)).1) := by
  have hh : (e.playlist r.sent).segments.head? = some (e.entry (e.first r.sent)) := by
    have hpos := e.window_pos
    have hlen : r.sent + 1 - e.first r.sent = r.sent + 1 - e.first r.sent - 1 + 1 := by
      unfold first
      omega
    simp only [playlist]
    rw [hlen]
    rfl
  have hla : (e.playlist r.sent).segments.getLast? = some (e.entry r.sent) := by
    rw [segments_eq]
    simp
  have hst : (t.nextSeq.getD (e.first r.sent)) = next := by
    rw [h.nextSeq]
    split
    · next hz =>
      have hpos := e.window_pos
      simp only [getD_none, first]
      omega
    · have hlt : next < u64Size := lt_of_le_of_lt hn (hse.trans_le e.inU64)
      rw [nextOf, if_pos hlt, getD_some]
  have hget : t.listed.get? r.sent = none := by
    rw [eq_none_iff_forall_ne_some]
    intro l hl
    exact absurd (h.mem_keys (mem_of_get? hl)).2 (lt_irrefl _)
  have he : Track.startsNewEpoch { t with
      path := some e.playlistPath, playlistSeen := true, currentMap := none, target := some e.target }
      (e.playlist r.sent) (e.entry r.sent).sequence = false := h.startsNewEpoch
  have hf (begun : Track) (hli : begun.listed = t.listed) (hb : begun.nextSeq = some next) :
      followSegments now (e.playlist r.sent).segments begun pool =
        begun.followSegment now pool (e.entry r.sent) := by
    rw [segments_eq, followSegments_known]
    · rfl
    · intro s hs
      obtain ⟨j, hj, rfl⟩ := mem_map.mp hs
      rw [mem_range'_1] at hj
      have hw : r.sent < j + e.windowSize ∧ j < r.sent := by
        unfold first at hj
        omega
      exact followSegment_sent hb (fun hle => hli ▸ h.get? hle hw.2) (hhe j hw.2 hw.1)
  have hmap : (e.playlist r.sent).mapUri = none := rfl
  have ht : (e.playlist r.sent).targetDuration = e.target := rfl
  simp only [Track.onFollowed, hmap, ht, ensureSegmentMap, hh, hla, followListing, beginListing, he,
    Bool.false_eq_true, if_false]
  rw [hf, followSegment, if_neg]
  · simp only [endListing, entry, hst, hget, ensureSegmentMap]
    rfl
  · exact fun hlt => absurd (of_decide_eq_true hlt) (Nat.not_lt.mpr (hst.le.trans hn))
  · rfl
  · exact congrArg some hst

theorem pollHead_plain {hash : List UInt8 → UInt64} {head : Listed} (hmap : head.mapUri = none)
    (h : t.pollHead hash k now pool seq head = some (t', pool', rel)) :
    (∃ timeline clock gap gen, t' = (t.removeHead seq).marked timeline clock gap gen) ∧
      ((head.payload = none ∧ t.gapExpired head now = true ∧ rel = none ∧ pool' = pool.skip 1) ∨
        ∃ x, head.payload.isSome = true ∧ rel = some x ∧ x.sequence = seq ∧ x.epoch = t.epoch ∧
          pool' = pool) := by
  obtain ⟨_, _, _, _, ⟨rfl, rfl, rfl, hg⟩ | ⟨x, rfl, rfl, rfl, hp, -, -, hseq, hep, -⟩⟩ :=
    pollHead_cases h
  · obtain ⟨hp, hgap⟩ := hg (by rw [hmap]; rfl)
    exact ⟨⟨_, _, _, _, rfl⟩, .inl ⟨hp, hgap, rfl, rfl⟩⟩
  · rw [hmap]
    exact ⟨⟨_, _, _, _, rfl⟩, .inr ⟨x, by rw [hp]; rfl, rfl, hseq, hep, rfl⟩⟩

theorem Follows.congr (h : t.Follows e r next) (hs : r'.sent = r.sent)
    (hl : r'.listedAt = r.listedAt)
    (hk : ∀ j, next ≤ j → j < r.sent → ((r'.uploadedAt j ≠ none ∧ j ∉ r'.slid) ↔
      (r.uploadedAt j ≠ none ∧ j ∉ r.slid))) : t.Follows e r' next := by
  refine ⟨h.maps,
    h.epoch, by rw [hs]; exact h.path, by rw [hs]; exact h.target, by rw [hs]; exact h.window,
    fun j hj => by rw [hs]; exact h.latest j hj, by rw [hs]; exact h.nextSeq, by rw [hs]; exact h.keys,
    fun x hx => ?_⟩
  obtain ⟨hle, hlt⟩ := h.mem_keys hx
  obtain ⟨hpa, hmap, hat, hp⟩ := h.listed x hx
  exact ⟨hpa, hmap, by rw [hl]; exact hat, hp.trans (hk x.1 hle hlt).symm⟩

end Track

end Restream.Hls
