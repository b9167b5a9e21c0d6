import Restream.HlsInits
import Restream.HlsDeadlines

/-! Runs of a push session whose times do not go back: in any state they reach the hold
is accounted for, and the deadline after a poll is exact. -/

namespace Restream.Hls

open List Option Exec

structure SessionRun where
  session : Session
  time : Nat

inductive SessionEvent where
  | seedInit (rendition : Nat) (uri : Path) (bytes : List UInt8)
  | voidMap (uri : Path)
  | segment (path : Path) (payload : Payload) (now : Nat)
  | playlist (path : Path) (playlist : Playlist) (now : Nat)
  | poll (now : Nat)

namespace SessionRun

def start (limits : SessionLimits) : SessionRun := { session := .new limits, time := 0 }

def at' (r : SessionRun) (now : Nat) (session : Session) : Option SessionRun :=
  if r.time ≤ now then some { session := session, time := now } else none

def step (hash : List UInt8 → UInt64) (r : SessionRun) : SessionEvent → Option SessionRun
  | .seedInit rendition uri bytes => some { r with session := r.session.seedInit rendition uri bytes }
  | .voidMap uri => some { r with session := r.session.voidMap uri }
  | .segment path payload now => r.at' now (r.session.onSegment path payload now).1
  | .playlist path playlist now => r.at' now (r.session.onPlaylist path playlist now).1
  | .poll now => r.at' now (r.session.poll hash now []).1

def InU64 (_ : SessionRun) : SessionEvent → Prop
  | .playlist _ (.media media) _ => ∀ segment ∈ media.segments, segment.sequence < u64Size
  | _ => True

end SessionRun

namespace Track

theorem followSegments_drops (now : Nat) (segs : List SegmentEntry) (t : Track) (pool : Pool) :
    pool.Drops (followSegments now segs t pool).2 := by
  induction segs generalizing t pool with
  | nil => exact .refl
  | cons seg segs ih =>
    have hd : pool.Drops (t.followSegment now pool seg).2 := by
      unfold followSegment
      split
      · dsimp only
        split
        · exact .count _ (.take _ .refl)
        · exact .take _ .refl
      · split
        · split
          · have hd : pool.Drops (pool.takeHeld seg.path).1 := .take _ .refl
            generalize pool.takeHeld seg.path = taken at hd
            obtain ⟨pool', _ | pay⟩ := taken <;> exact hd
          · exact .refl
        · exact .take _ (t.ensureSegmentMap_frame seg.mapUri pool).2
    exact hd.trans (ih _ _)

theorem onFollowed_drops (t : Track) (media : MediaPlaylist) (now : Nat) (pool : Pool) :
    pool.Drops (t.onFollowed media now pool).2 := by
  unfold onFollowed
  have hd := (ensureSegmentMap_frame { t with
    playlistSeen := true, currentMap := media.mapUri, target :=
      some media.targetDuration } media.mapUri pool).2
  dsimp only
  generalize ensureSegmentMap _ media.mapUri pool = mapped at hd
  split
  · next first last _ _ =>
    have hb : mapped.2.Drops (mapped.1.beginListing media first last mapped.2).2 := by
      unfold beginListing
      split
      · exact .count _ .refl
      · exact .refl
    exact (hd.trans hb).trans (followSegments_drops ..)
  · exact hd

end Track

namespace Track.Timed

variable {tr t' : Track} {now : Nat}

theorem of_listing (h : tr.Timed now) (hl : t'.listed = tr.listed)
    (hn : t'.nextSeq = tr.nextSeq) : t'.Timed now :=
  ⟨by rw [hl, hn]; exact h.started, by rw [hl]; exact h.listed⟩

theorem of_empty (h : tr.listed = .empty) : tr.Timed now := by
  refine ⟨fun hne => absurd ?_ hne, fun e he => ?_⟩
  · rw [h]; rfl
  · rw [h] at he
    cases he

variable (h : tr.Timed now)
include h

theorem modify (seq : Nat) (hf : ∀ ls, (f ls).listedAt = ls.listedAt) :
    Track.Timed now { tr with listed := tr.listed.modify seq f } := by
  refine ⟨fun hne => h.started ?_, fun e he => ?_⟩
  · rintro hnil
    exact hne (map_eq_nil_iff.mpr hnil)
  · obtain ⟨ls, hmem, hv⟩ := OrderedMap.mem_modify he
    obtain ⟨hlt, hle⟩ := h.listed _ hmem
    refine ⟨hlt, ?_⟩
    rw [hv]
    split
    · exact (hf ls).trans_le hle
    · exact hle

theorem insert (hn : tr.nextSeq ≠ none) (hseq : seq < u64Size)
    (hat : ls.listedAt ≤ now) : Track.Timed now { tr with listed := tr.listed.insert seq ls } := by
  refine ⟨fun _ => hn, fun e he => ?_⟩
  rcases OrderedMap.mem_insert.mp he with rfl | ⟨hmem, -⟩
  · exact ⟨hseq, hat⟩
  · exact h.listed e hmem

theorem followSegment (hn : tr.nextSeq ≠ none) (hseq : seg.sequence < u64Size)
    (pool : Pool) :
    (tr.followSegment now pool seg).1.Timed now ∧
    (tr.followSegment now pool seg).1.nextSeq = tr.nextSeq := by
  unfold Track.followSegment
  split
  · exact ⟨h, rfl⟩
  · split
    · split
      · generalize pool.takeHeld seg.path = taken
        obtain ⟨pool', _ | pay⟩ := taken
        · exact ⟨h, rfl⟩
        · exact ⟨h.modify seg.sequence fun _ => rfl, rfl⟩
      · exact ⟨h, rfl⟩
    · have hs := (tr.ensureSegmentMap_frame seg.mapUri pool).1
      have ht := h.of_listing hs.listed hs.nextSeq
      exact ⟨ht.insert (hs.nextSeq.trans_ne hn) hseq le_rfl, hs.nextSeq⟩

theorem followSegments (hn : tr.nextSeq ≠ none)
    (hseq : ∀ seg ∈ segs, seg.sequence < u64Size) (pool : Pool) :
    (Track.followSegments now segs tr pool).1.Timed now := by
  induction segs generalizing tr pool with
  | nil => exact h
  | cons seg segs ih =>
    obtain ⟨hf, hn'⟩ := h.followSegment hn (hseq seg mem_cons_self) pool
    exact ih hf (hn'.trans_ne hn) (fun s hs => hseq s (mem_cons_of_mem seg hs)) _

theorem onFollowed (hseq : ∀ seg ∈ media.segments, seg.sequence < u64Size)
    (pool : Pool) : (tr.onFollowed media now pool).1.Timed now := by
  unfold Track.onFollowed
  have hse : Track.Timed now
      { tr with playlistSeen := true, currentMap := media.mapUri, target := some media.targetDuration } :=
    h.of_listing rfl rfl
  generalize ({ tr with playlistSeen := true, currentMap := media.mapUri, target := some media.targetDuration } :
    Track) = seen at hse
  have hs := (seen.ensureSegmentMap_frame media.mapUri pool).1
  have ht := hse.of_listing hs.listed hs.nextSeq
  dsimp only
  generalize seen.ensureSegmentMap media.mapUri pool = mapped at ht
  split
  · next first last _ _ =>
    have hb : (mapped.1.beginListing media first last mapped.2).1.Timed now ∧
        (mapped.1.beginListing media first last mapped.2).1.nextSeq ≠ none := by
      unfold Track.beginListing
      split
      · exact ⟨.of_empty rfl, by simp [Track.startEpoch]⟩
      · exact ⟨⟨fun _ => by simp, ht.listed⟩, by simp⟩
    exact (hb.1.followSegments hb.2 hseq _).of_listing rfl rfl
  · exact ht.of_listing rfl rfl

end Track.Timed

namespace Pool

/-- The hold counts its bytes and keeps one upload of each path, in the order of arrival. -/
structure Accounted (now : Nat) (pool : Pool) : Prop where
  bytes : pool.heldBytes = (pool.held.map fun held => held.payload.length).sum
  paths : (pool.held.map Held.path).Nodup
  times : pool.held.Pairwise fun a b => a.at' ≤ b.at'
  latest : ∀ held ∈ pool.held, held.at' ≤ now

structure Bounded (limits : SessionLimits) (now : Nat) (pool : Pool) :
    Prop extends pool.Accounted now where
  limits_eq : pool.limits = limits
  segments : pool.held.length ≤ limits.holdSegments
  room : pool.heldBytes ≤ limits.holdBytes

variable {pool pool' : Pool} {limits : SessionLimits} {now : Nat}

theorem Accounted.drops (h : pool.Accounted now) (hd : pool.Drops pool') : pool'.Accounted now := by
  have hsub := hd.frame.1
  refine ⟨?_, h.paths.sublist (hsub.map _), h.times.sublist hsub,
    fun held hm => h.latest held (hsub.subset hm)⟩
  clear hsub
  induction hd with
  | refl => exact h.bytes
  | @take pool' path _ ih =>
    rcases pool'.takeHeld_cases path with ht | ⟨held, taken, ht, -, hpe, hb⟩ <;> rw [ht]
    · exact ih
    · have hs := (hpe.map fun held => held.payload.length).sum_nat
      rw [map_cons, sum_cons] at hs
      rw [hb, ih, hs, Nat.add_sub_cancel_left]
  | @pop pool' _ ih =>
    unfold popOldestHeld
    split
    · exact ih
    · next hh => simp [ih, hh]
  | count _ _ ih => exact ih

theorem Bounded.drops (h : pool.Bounded limits now) (hd : pool.Drops pool') :
    pool'.Bounded limits now := by
  obtain ⟨hsub, -, hl, hb⟩ := hd.frame
  exact ⟨h.toAccounted.drops hd, hl.trans h.limits_eq, hsub.length_le.trans h.segments,
    hb.trans h.room⟩

theorem Accounted.evictOver {n : Nat} (h : pool.Accounted now) (hl : pool.limits = limits)
    (hn : pool.held.length ≤ n) : (evictOver n pool).Bounded limits now := by
  induction n generalizing pool with
  | zero =>
    have hnil : pool.held = [] := length_eq_zero_iff.mp (Nat.le_zero.mp hn)
    exact ⟨h, hl, by simp [Pool.evictOver, hnil], by simp [Pool.evictOver, h.bytes, hnil]⟩
  | succ n ih =>
    rw [Pool.evictOver]
    split
    · have hd : pool.Drops pool.evictOldest := .count _ (.pop .refl)
      refine ih (h.drops hd) (hd.frame.2.2.1.trans hl) ?_
      cases hh : pool.held with
      | nil => simp [evictOldest, popOldestHeld, hh]
      | cons => simpa [evictOldest, popOldestHeld, hh] using hn
    · next hlim =>
      simp only [overLimits, decide_eq_true_eq, not_or, not_lt, hl] at hlim
      exact ⟨h, hl, hlim.1, hlim.2⟩

theorem Bounded.hold (h : pool.Bounded limits now) (path : Path) (pay : Payload) :
    (pool.hold path pay now).Bounded limits now := by
  have hb := h.drops (.take path .refl)
  refine Accounted.evictOver
    ⟨by simp [hb.bytes], paths_added h.paths path pay now, ?_, fun held hmem => ?_⟩
    hb.limits_eq le_rfl
  · refine pairwise_append.mpr ⟨hb.times, pairwise_singleton _ _, fun a hmem b hb' => ?_⟩
    rw [mem_singleton.mp hb']
    exact hb.latest a hmem
  · rcases mem_append.mp hmem with hmem | hmem
    · exact hb.latest held hmem
    · rw [mem_singleton.mp hmem]

end Pool

namespace Session

theorem pollTracks_drops {hash : List UInt8 → UInt64} {pool : Pool}
    (he : pollTracks hash now k ts pool out = (ts', pool', out')) : pool.Drops pool' := by
  induction ts generalizing k pool out ts' with
  | nil =>
    cases he
    exact .refl
  | cons tr ts ih =>
    obtain ⟨t₁, pool₁, out₁, ts₁, rfl, hp, hr⟩ := Track.pollTracks_cons he
    have hd : pool.Drops pool₁ := by
      refine Track.pollLoop_keeps (P := fun _ pool' _ => pool.Drops pool')
        (fun {t pool' _ next seq _} h _ _ => ?_) .refl hp
      have hs : pool.Drops (t.skipTo pool' next seq).2 := by
        unfold Track.skipTo
        split
        · exact .count _ h
        · exact h
      refine ⟨hs, fun hh => ?_⟩
      obtain ⟨-, -, -, ⟨-, rfl⟩ | ⟨-, rfl⟩⟩ := Track.pollHead_some hh
      · exact .count _ hs
      · exact hs
    exact hd.trans (ih hr)

theorem poll_drops (s : Session) (hash : List UInt8 → UInt64) (now : Nat) (out : List Release) :
    s.pool.Drops (s.poll hash now out).1.pool :=
  (pollTracks_drops rfl).trans (Pool.evictAged_drops ..)

structure Kept (limits : SessionLimits) (now : Nat) (s : Session) : Prop where
  tracks : ∀ track ∈ s.tracks, track.Timed now
  hold : s.pool.Bounded limits now

end Session

namespace Session.Kept

variable {s : Session} {limits : SessionLimits} {now : Nat}

theorem timed (h : s.Kept limits now) : s.Timed now := ⟨h.tracks, h.hold.latest⟩

theorem mono {later : Nat} (h : s.Kept limits now) (hle : now ≤ later) : s.Kept limits later :=
  ⟨fun tr ht => (h.tracks tr ht).mono hle,
    { h.hold with latest held hm := (h.hold.latest held hm).trans hle }⟩

theorem of_mem_modify {ts : List Track} (h : ∀ tr ∈ ts, tr.Timed now) (ix : Nat)
    (hf : ∀ tr, tr.Timed now → (f tr).Timed now) : ∀ tr ∈ ts.modify ix f, tr.Timed now := by
  intro tr hmem
  obtain ⟨i, hi⟩ := mem_iff_getElem?.mp hmem
  rw [getElem?_modify] at hi
  obtain ⟨old, hold, rfl⟩ := map_eq_some_iff.mp hi
  have ht := h old (mem_of_getElem? hold)
  split
  · exact hf old ht
  · exact ht

theorem of_mem_set {ts : List Track} (h : ∀ tr ∈ ts, tr.Timed now) (ix : Nat) {new : Track}
    (hnew : new.Timed now) : ∀ tr ∈ ts.set ix new, tr.Timed now := by
  intro tr hmem
  rcases mem_or_eq_of_mem_set hmem with hmem | rfl
  · exact h tr hmem
  · exact hnew

section

variable (h : s.Kept limits now)

include h

theorem onSegment (path : Path) (pay : Payload) : (s.onSegment path pay now).1.Kept limits now := by
  unfold Session.onSegment
  split
  · exact ⟨of_mem_modify h.tracks _ fun tr ht => ht.of_listing rfl rfl, h.hold⟩
  · split
    · split
      · exact ⟨h.tracks, { h.hold with }⟩
      · exact ⟨of_mem_modify h.tracks _ fun tr ht => ht.modify _ fun _ => rfl, h.hold⟩
    · split
      · exact h
      · exact ⟨h.tracks, h.hold.hold path pay⟩

theorem followMedia (ix : Nat) (hseq : ∀ seg ∈ media.segments, seg.sequence < u64Size) :
    (s.followMedia ix media now).Kept limits now := by
  unfold Session.followMedia
  split
  · exact h
  · next tr htr =>
    have ht := (h.tracks tr (mem_of_getElem? htr)).onFollowed hseq s.pool
    exact ⟨of_mem_set h.tracks ix ht, h.hold.drops (tr.onFollowed_drops media now s.pool)⟩

theorem onMaster (master : MasterPlaylist) : (s.onMaster master).Kept limits now := by
  refine ⟨fun tr hmem => ?_, by rw [s.onMaster_pool]; exact h.hold⟩
  obtain ⟨i, hi⟩ := mem_iff_getElem?.mp hmem
  cases s.onMaster_from master hi with
  | kept hold => exact h.tracks _ (mem_of_getElem? hold)
  | moved hold => exact (h.tracks _ hold).of_listing rfl rfl
  | switched | new => exact .of_empty rfl
  | named path hold => exact (h.tracks _ (mem_of_getElem? hold)).of_listing rfl rfl

theorem onPlaylist (path : Path)
    (hseq : ∀ media, pl = .media media → ∀ seg ∈ media.segments, seg.sequence < u64Size) :
    (s.onPlaylist path pl now).1.Kept limits now := by
  unfold Session.onPlaylist
  split
  · exact h.onMaster _
  · next media =>
    split
    · exact ⟨h.tracks, h.hold.drops (s.onOtherVariant_drops path media)⟩
    · have hn : Session.Kept limits now
          { s with tracks := s.tracks.modify 0 fun tr => { tr with path := some path } } :=
        ⟨of_mem_modify h.tracks 0 fun tr ht => ht.of_listing rfl rfl, h.hold⟩
      exact hn.followMedia 0 (hseq media rfl)
    · exact h.followMedia _ (hseq media rfl)

theorem seedInit (k : Nat) (uri : Path) (bs : List UInt8) :
    (s.seedInit k uri bs).Kept limits now := by
  unfold Session.seedInit
  split
  · exact h
  · have ht : ∀ tr ∈ s.tracks ++ replicate (k + 1 - s.tracks.length) (Track.new none),
        tr.Timed now := by
      intro tr hmem
      rcases mem_append.mp hmem with hmem | hmem
      · exact h.tracks tr hmem
      · obtain rfl := eq_of_mem_replicate hmem
        exact .of_empty rfl
    dsimp only
    split
    · exact ⟨ht, { h.hold with }⟩
    · next tr htr =>
      have hp : Pool.Bounded limits now
          { s.pool with seeded := (s.pool.seeded.filter fun seeded => seeded.1 ≠ uri) ++
            [(uri, bs)] } :=
        { h.hold with }
      obtain ⟨hs, hd⟩ := tr.ensureMap_frame uri _
      exact ⟨of_mem_set ht k ((ht tr (mem_of_getElem? htr)).of_listing hs.listed hs.nextSeq),
        hp.drops hd⟩

theorem voidMap (uri : Path) : (s.voidMap uri).Kept limits now := by
  refine ⟨fun tr hmem => ?_, { h.hold with }⟩
  obtain ⟨old, hold, rfl⟩ := mem_map.mp hmem
  exact (h.tracks old hold).of_listing rfl rfl

end

end Session.Kept

namespace SessionRun

theorem start_kept (limits : SessionLimits) :
    (start limits).session.Kept limits (start limits).time := by
  refine ⟨fun tr hmem => ?_, ⟨rfl, nodup_nil, .nil, by rintro held ⟨⟩⟩,
    rfl, Nat.zero_le _, Nat.zero_le _⟩
  obtain rfl := mem_singleton.mp hmem
  exact .of_empty rfl

theorem step_kept {hash : List UInt8 → UInt64} {limits : SessionLimits} {r r' : SessionRun}
    {event : SessionEvent}
    (h : r.session.Kept limits r.time) (hseq : r.InU64 event) (hs : r.step hash event = some r') :
    r'.session.Kept limits r'.time := by
  have hat {now : Nat} {sess : Session} (hn : r.time ≤ now → sess.Kept limits now)
      (hs : r.at' now sess = some r') : r'.session.Kept limits r'.time := by
    obtain ⟨hle, hr⟩ := ite_none_right_eq_some.mp hs
    cases hr
    exact hn hle
  cases event with
  | seedInit k uri bs =>
    cases hs
    exact h.seedInit k uri bs
  | voidMap uri =>
    cases hs
    exact h.voidMap uri
  | segment path pay now => exact hat (fun hle => (h.mono hle).onSegment path pay) hs
  | playlist path pl now =>
    refine hat (fun hle => (h.mono hle).onPlaylist path fun media hm => ?_) hs
    subst hm
    exact hseq
  | poll now =>
    refine hat (fun hle => ⟨((h.mono hle).timed.poll hash []).2.tracks, ?_⟩) hs
    exact (h.mono hle).hold.drops (r.session.poll_drops hash now [])

theorem reachable_kept {hash : List UInt8 → UInt64} {limits : SessionLimits} {r : SessionRun}
    (hrun : Reachable (step hash) InU64 (start limits) r) : r.session.Kept limits r.time :=
  hrun.invariant (fun r => r.session.Kept limits r.time)
    (fun _ _ _ h hseq hstep => step_kept h hseq hstep)
    (start_kept limits)

/-- In every state a session reaches, the deadline after a poll is exact. -/
theorem deadline_after_poll_exact (hash : List UInt8 → UInt64)
    (limits : SessionLimits) {r : SessionRun}
    (hrun : Reachable (step hash) InU64 (start limits) r) {now : Nat} (hnow : r.time ≤ now)
    (out : List Release) :
    let polled := (r.session.poll hash now out).1
    (polled.nextDeadline = none → ∀ t, now ≤ t → polled.poll hash t [] = (polled, [])) ∧
    ∀ d, polled.nextDeadline = some d → now < d ∧
      (∀ t, now ≤ t → t < d → polled.poll hash t [] = (polled, [])) ∧
      polled.Moves (polled.poll hash d []).1 (polled.poll hash d []).2 := by
  have hkept := reachable_kept hrun
  exact ((hkept.mono hnow).timed.poll hash out).1.nextDeadline_exact hash

instance (r : SessionRun) (event : SessionEvent) : Decidable (r.InU64 event) := by
  unfold InU64
  split <;> infer_instance

/-- Of two listed segments only the second is uploaded, so that the first is skipped a
target duration after it was listed. -/
def gapEvents : List SessionEvent :=
  [.playlist "live.m3u8" (.media
    { targetDuration := 6
      mediaSequence := 0
      segments := [⟨0, "a.ts", 6, false, none⟩, ⟨1, "b.ts", 6, false, none⟩]
      ended := false
      mapUri := none }) 10,
    .segment "b.ts" { bytes := [1], upload := some 0 } 12]

theorem deadline_after_poll_exact_gap : ∃ r,
    Reachable (step fun _ => 0) InU64 (start ⟨8, 1000, 10⟩) r ∧
    let polled := (r.session.poll (fun _ => 0) 13 []).1
    polled.nextDeadline = some 16 ∧
    (∀ t, 13 ≤ t → t < 16 → polled.poll (fun _ => 0) t [] = (polled, [])) ∧
    polled.Moves (polled.poll (fun _ => 0) 16 []).1 (polled.poll (fun _ => 0) 16 []).2 := by
  refine exists_reachable_of_observed gapEvents (fun r => r.time = 12 ∧
    (r.session.poll (fun _ => 0) 13 []).1.nextDeadline = some 16) (by decide +kernel)
    fun r hr ⟨htime, hdeadline⟩ => ?_
  have hexact :=
    deadline_after_poll_exact (fun _ => 0) ⟨8, 1000, 10⟩ hr (show r.time ≤ 13 by omega) []
  exact ⟨hdeadline, (hexact.2 16 hdeadline).2⟩

/-- In every state a session reaches, the hold is accounted for and within its limits, no
upload it takes or drops is larger than what it counts, and a poll leaves nothing too old. -/
theorem hold_accounted (hash : List UInt8 → UInt64) (limits : SessionLimits) {r : SessionRun}
    (hrun : Reachable (step hash) InU64 (start limits) r) :
    r.session.pool.Bounded limits r.time ∧
    (∀ pool, r.session.pool.Drops pool → ∀ held ∈ pool.held, held.payload.length ≤ pool.heldBytes) ∧
    ∀ now out, r.time ≤ now → ∀ held ∈ (r.session.poll hash now out).1.pool.held,
      now < held.at' + (r.session.poll hash now out).1.idleTimeout := by
  have hk := reachable_kept hrun
  refine ⟨hk.hold, fun pool hd held hmem => ?_, fun now out hle held hmem => ?_⟩
  · obtain ⟨pre, post, hs⟩ := append_of_mem hmem
    rw [(hk.hold.toAccounted.drops hd).bytes, hs, map_append, map_cons, sum_append, sum_cons]
    omega
  · have hs := ((hk.mono hle).timed.poll hash out).1.hold
    have hp := (hk.hold.drops (r.session.poll_drops hash now out)).times
    cases hh : (r.session.poll hash now out).1.pool.held with
    | nil => simp [hh] at hmem
    | cons first rest =>
      rw [hh] at hmem hp
      have hf := (hs first (by rw [hh]; rfl)).1
      rcases mem_cons.mp hmem with rfl | hmem
      · exact hf
      · have := (pairwise_cons.mp hp).1 held hmem
        omega

/-- With room for two, the third upload evicts the first, and a poll ages out the second. -/
theorem hold_accounted_upload : ∃ r,
    Reachable (step fun _ => 0) InU64 (start ⟨2, 1000, 10⟩) r ∧
    r.session.pool.held.map Held.path = ["c.ts"] ∧ r.session.pool.heldBytes = 3 ∧
    r.session.pool.Bounded ⟨2, 1000, 10⟩ r.time :=
  exists_reachable_of_observed
    [.segment "a.ts" { bytes := [1], upload := some 0 } 12,
      .segment "b.ts" { bytes := [1, 2], upload := some 1 } 13,
      .segment "c.ts" { bytes := [1, 2, 3], upload := some 2 } 20, .poll 25]
    (fun r => r.session.pool.held.map Held.path = ["c.ts"] ∧ r.session.pool.heldBytes = 3)
    (by decide +kernel) fun _ hr ⟨hheld, hbytes⟩ => ⟨hheld, hbytes, (hold_accounted _ _ hr).1⟩

end SessionRun

end Restream.Hls
