import Restream.HlsPush

/-! Timeline generations of one followed rendition. The playlists alone give the
generation that counts every break before a sequence; the part of a track that decides
its generations is the breaks still listed. -/

namespace Restream.Hls

open OrderedMap

namespace Track

def turn (hash : List UInt8 → UInt64) (rendition now : Nat) (track : Track) (pool : Pool) :
    Track × Pool × Option Release :=
  match track.nextSeq, track.listed.first? with
  | some next, some (sequence, head) =>
    let (track, pool) := track.skipTo pool next sequence
    (track.pollHead hash rendition now pool sequence head).getD (track, pool, none)
  | _, _ => (track, pool, none)

def turns (hash : List UInt8 → UInt64) (rendition now : Nat) :
    Nat → Track → Pool → List Release → Track × Pool × List Release
  | 0, track, pool, out => (track, pool, out)
  | n + 1, track, pool, out =>
    let (track, pool, release) := track.turn hash rendition now pool
    turns hash rendition now n track pool (out ++ release.toList)

variable {hash : List UInt8 → UInt64} {k now : Nat} {t : Track} {pool : Pool}

theorem turns_idle (h : t.turn hash k now pool = (t, pool, none)) :
    turns hash k now n t pool out = (t, pool, out) := by
  induction n with
  | zero => rfl
  | succ n ih => simpa only [turns, h, Option.toList_none, List.append_nil] using ih

theorem turn_stuck (hn : t.nextSeq = some next) (hf : t.listed.first? = some (seq, head))
    (hstuck : (t.skipTo pool next seq).1.pollHead hash k now (t.skipTo pool next seq).2 seq head =
      none) :
    (t.skipTo pool next seq).1.turn hash k now (t.skipTo pool next seq).2 =
      ((t.skipTo pool next seq).1, (t.skipTo pool next seq).2, none) := by
  unfold skipTo at hstuck ⊢
  split at hstuck
  · next hlt => simp [hlt, turn, hf, skipTo, hstuck]
  · next hle => simp [hle, turn, hn, hf, skipTo, hstuck]

theorem pollLoop_eq_turns (hash : List UInt8 → UInt64) (k now n : Nat) (t : Track) (pool : Pool)
    (out : List Release) : pollLoop hash k now n t pool out = turns hash k now n t pool out := by
  induction n generalizing t pool out with
  | zero => rfl
  | succ n ih =>
    rw [pollLoop, turns]
    split
    · next next seq head hn hf =>
      simp only [turn, hn, hf]
      cases hpoll : (t.skipTo pool next seq).1.pollHead hash k now
        (t.skipTo pool next seq).2 seq head with
      | none =>
        simp only [Option.getD_none, Option.toList_none, List.append_nil]
        rw [turns_idle (turn_stuck hn hf hpoll)]
      | some left => exact ih _ _ _
    · next hnone =>
      have hidle : t.turn hash k now pool = (t, pool, none) := by
        rw [turn]
        split
        · next next seq head hn hf => exact absurd hf (hnone _ _ _ hn)
        · rfl
      simp only [hidle, Option.toList_none, List.append_nil, turns_idle hidle]

end Track

theorem Session.onSegment_track (s : Session) (path : Path) (pay : Payload) (now : Nat) {i : Nat}
    (h : s.tracks[i]? = some t) : ∃ t', (s.onSegment path pay now).1.tracks[i]? = some t' ∧
      (t' = t ∨ (∃ seq, t' = t.setPayload seq pay) ∨ t' = t.setPending path pay) := by
  unfold onSegment
  split
  · rw [List.getElem?_modify, h]
    split
    · exact ⟨_, rfl, .inr (.inr rfl)⟩
    · exact ⟨_, rfl, .inl rfl⟩
  · split
    · next index seq listed _ =>
      split
      · exact ⟨t, h, .inl rfl⟩
      · rw [List.getElem?_modify, h]
        split
        · exact ⟨_, rfl, .inr (.inl ⟨seq, rfl⟩)⟩
        · exact ⟨_, rfl, .inl rfl⟩
    · split <;> exact ⟨t, h, .inl rfl⟩

/-- A track with the playlists it was fed. `fresh` holds from a restart until the
first segment of the new epoch has left. `latest` is the generation of the last
timeline mark, and `generations` has its value at each release. -/
structure TrackRun where
  track : Track
  pool : Pool
  fed : List MediaPlaylist
  fresh : Bool
  latest : Nat
  generations : List (Nat × Nat × Nat)

/-- Uploads attach bytes to listed sequences, bring inits or change the hold. -/
inductive TrackEvent where
  | playlist (media : MediaPlaylist) (now : Nat)
  | turn (rendition now : Nat)
  | attach (sequence : Nat) (payload : Payload)
  | init (uri : Path) (payload : Payload)
  | voidMap (uri : Path)
  | hold (pool : Pool)

namespace TrackRun

def start (path : Option Path) (pool : Pool) : TrackRun :=
  { track := .new path, pool := pool, fed := [], fresh := false, latest := 0, generations := [] }

def mark (latest : Nat) : Reanchor → Nat
  | .timeline generation => generation
  | .clock | .none => latest

def release (r : TrackRun) : Option Release → TrackRun
  | none => r
  | some release =>
    { r with
      latest := mark r.latest release.reanchor
      generations :=
        r.generations ++ [(release.epoch, release.sequence, mark r.latest release.reanchor)] }

def step (hash : List UInt8 → UInt64) (r : TrackRun) : TrackEvent → Option TrackRun
  | .playlist media now =>
    let (track, pool) := r.track.onFollowed media now r.pool
    some { r with
      track := track
      pool := pool
      fed := r.fed ++ [media]
      fresh := r.fresh || decide (track.epoch ≠ r.track.epoch) }
  | .turn rendition now =>
    let (track, pool, released) := r.track.turn hash rendition now r.pool
    some (release { r with
      track := track
      pool := pool
      fresh := r.fresh && decide (track.listed.length = r.track.listed.length) } released)
  | .attach sequence payload => some { r with track := r.track.setPayload sequence payload }
  | .init uri payload => some { r with track := r.track.setPending uri payload }
  | .voidMap uri => some { r with track := r.track.voidMap uri }
  | .hold pool => some { r with pool := pool }

def Numbered (_ : TrackRun) : TrackEvent → Prop
  | .playlist media _ => media.Numbered
  | _ => True

/-- A break that waits behind a pending generation is that of the first segment
of its epoch, and no other break is still listed when an epoch starts. -/
def KeepsBreaks (r : TrackRun) : TrackEvent → Prop
  | .turn _ _ => ∀ e ∈ r.track.listed.first?, e.2.discontinuity = true →
    r.track.timelinePending = none ∨ r.fresh = true
  | .playlist media _ =>
    ∀ last ∈ media.segments.getLast?, r.track.startsNewEpoch media last.sequence = true →
    ∀ e ∈ r.track.listed.entries.drop (if r.fresh then 1 else 0), e.2.discontinuity = false
  | _ => True

instance (r : TrackRun) (e : TrackEvent) : Decidable (r.Numbered e) := by
  unfold Numbered
  split <;> infer_instance

instance (r : TrackRun) (e : TrackEvent) : Decidable (r.KeepsBreaks e) := by
  unfold KeepsBreaks
  split <;> infer_instance

end TrackRun

/-- What playlists say of generations: `count` breaks so far, and for every
listed epoch and sequence the breaks up to it. -/
structure Timeline where
  window : Option Window
  epoch : Nat
  count : Nat
  assigned : List (Nat × Nat × Nat)

namespace Timeline

def empty : Timeline := { window := none, epoch := 0, count := 0, assigned := [] }

def number (epoch : Nat) : (restarted : Bool) → (count : Nat) → List (Nat × Bool) →
    Nat × List (Nat × Nat × Nat)
  | _, count, [] => (count, [])
  | restarted, count, (sequence, discontinuity) :: rest =>
    let count := count + (discontinuity && !restarted).toNat
    let (total, more) := number epoch false count rest
    (total, (epoch, sequence, count) :: more)

def restarts (t : Timeline) (media : MediaPlaylist) (last : SegmentEntry) : Bool :=
  { Track.new none with window := t.window }.startsNewEpoch media last.sequence

def added (media : MediaPlaylist) (known : Option Nat) : List (Nat × Bool) :=
  (media.segments.filter fun s => known.all fun last => decide (last < s.sequence)).map
    fun s => (s.sequence, s.discontinuity)

def follow (t : Timeline) (media : MediaPlaylist) : Timeline :=
  match media.segments.getLast? with
  | none => t
  | some last =>
    let window := some (Windowed.ofPlaylist media last)
    if t.restarts media last then
      let (count, more) := number (t.epoch + 1) true (t.count + 1) (added media none)
      { window := window, epoch := t.epoch + 1, count := count, assigned := t.assigned ++ more }
    else
      let (count, more) := number t.epoch false t.count (added media (t.window.map Window.last))
      { window := window, epoch := t.epoch, count := count, assigned := t.assigned ++ more }

def ofPlaylists (fed : List MediaPlaylist) : Timeline := fed.foldl follow empty

end Timeline

open List Option

open TrackRun

structure BreakView where
  breaks : List (Nat × Bool)
  nextSeq : Option Nat
  epoch : Nat
  window : Option Window
  generation : Nat
  pending : Option Nat

namespace Track

def view (track : Track) : BreakView :=
  { breaks := track.listed.entries.map fun e => (e.1, e.2.discontinuity)
    nextSeq := track.nextSeq
    epoch := track.epoch
    window := track.window
    generation := track.generation
    pending := track.timelinePending }

theorem view_setPayload (t : Track) (seq : Nat) (pay : Payload) :
    (t.setPayload seq pay).view = t.view := by
  have hb : ((t.setPayload seq pay).listed.entries.map fun e => (e.1, e.2.discontinuity)) =
      t.listed.entries.map fun e => (e.1, e.2.discontinuity) := by
    simp only [setPayload, OrderedMap.modify, List.map_map]
    refine List.map_congr_left fun e _ => ?_
    simp only [Function.comp_apply]
    split <;> rfl
  simp only [view, hb]
  rfl

theorem view_ensureMap (t : Track) (uri : Path) (pool : Pool) :
    (t.ensureMap uri pool).1.view = t.view := by
  unfold ensureMap
  split <;> rfl

theorem view_ensureSegmentMap (t : Track) (mapUri : Option Path) (pool : Pool) :
    (t.ensureSegmentMap mapUri pool).1.view = t.view := by
  cases mapUri with
  | none => rfl
  | some uri => exact t.view_ensureMap uri pool

theorem view_removeHead {t : Track} {head : Listed} (hf : t.listed.first? = some (seq, head)) :
    (t.removeHead seq).view =
      { t.view with breaks := t.view.breaks.tail, nextSeq := checkedSucc seq } := by
  simp only [view, removeHead, erase_first hf, map_tail]

end Track

namespace BreakView

/-- The first break leaves: it starts a generation unless one is pending, and a
release carries it away. -/
def leave (v : BreakView) (sequence : Nat) (discontinuity released : Bool) : BreakView :=
  { v with
    breaks := v.breaks.tail
    nextSeq := checkedSucc sequence
    generation := v.generation + (discontinuity && v.pending.isNone).toNat
    pending :=
      if released then none
      else if discontinuity then some (v.pending.getD (v.generation + 1)) else v.pending }

def mark (v : BreakView) (discontinuity : Bool) (latest : Nat) : Nat :=
  v.pending.getD (if discontinuity then v.generation + 1 else latest)

inductive Left (v : BreakView) : BreakView → Option Release → Prop
  | skips {sequence : Nat} {discontinuity : Bool}
      (hfirst : v.breaks.head? = some (sequence, discontinuity)) :
      Left v (v.leave sequence discontinuity false) none
  | releases {sequence : Nat} {discontinuity : Bool} {release : Release}
      (hfirst : v.breaks.head? = some (sequence, discontinuity)) (hepoch : release.epoch = v.epoch)
      (hsequence : release.sequence = sequence)
      (hmark : ∀ latest, TrackRun.mark latest release.reanchor = v.mark discontinuity latest) :
      Left v (v.leave sequence discontinuity true) (some release)

inductive Turned (v : BreakView) : BreakView → Option Release → Prop
  | stays : Turned v v none
  | slides {sequence next : Nat} {discontinuity : Bool}
      (hfirst : v.breaks.head? = some (sequence, discontinuity)) (hnext : v.nextSeq = some next)
      (hlt : next < sequence) : Turned v { v with nextSeq := some sequence } none
  | left {v' : BreakView} {release : Option Release} (h : Left v v' release) : Turned v v' release

theorem Left.of_slide {v v' : BreakView} {rel : Option Release} {nextSeq : Option Nat}
    (h : { v with nextSeq := nextSeq }.Left v' rel) : v.Left v' rel := by
  cases h with
  | skips hf => exact .skips hf
  | releases hf he hs hm => exact .releases hf he hs hm

end BreakView

namespace Track

theorem view_skipDiscontinuity (t : Track) (disc : Bool) :
    (t.skipDiscontinuity disc).view = { t.view with
        generation := t.generation + (disc && t.timelinePending.isNone).toNat
        pending :=
          if disc then some (t.timelinePending.getD (t.generation + 1))
          else t.timelinePending } := by
  unfold skipDiscontinuity
  cases hd : disc <;> cases hp : t.timelinePending <;> simp [view, hp]

theorem view_takeReanchor (t : Track) (disc rep : Bool) :
    (t.takeReanchor disc rep).1.view = { t.view with
        generation := t.generation + (disc && t.timelinePending.isNone).toNat
        pending := none } ∧
    ∀ latest, mark latest (t.takeReanchor disc rep).2 =
      t.view.mark disc latest := by
  unfold takeReanchor
  cases hp : t.timelinePending with
  | some gen => simp [view, BreakView.mark, mark, hp]
  | none =>
    cases hd : disc
    · cases t.clockPending || rep <;> simp [view, BreakView.mark, hp, mark]
    · simp [view, BreakView.mark, mark, hp]

variable {t : Track} {seq : Nat} {head : Listed}

section

variable (hf : t.listed.first? = some (seq, head))

include hf

theorem breaks_head? : t.view.breaks.head? = some (seq, head.discontinuity) := by
  obtain ⟨rest, hr⟩ := head?_eq_some_iff.mp hf
  simp [view, hr]

theorem skipped_left :
    t.view.Left ((t.removeHead seq).skipDiscontinuity head.discontinuity).view none := by
  have hl : ((t.removeHead seq).skipDiscontinuity head.discontinuity).view =
      t.view.leave seq head.discontinuity false := by
    rw [view_skipDiscontinuity, view_removeHead hf]
    rfl
  rw [hl]
  exact .skips (breaks_head? hf)

theorem pollHead_left {hash : List UInt8 → UInt64} {k now : Nat} {t' : Track} {pool pool' : Pool}
    {rel : Option Release}
    (h : t.pollHead hash k now pool seq head = some (t', pool', rel)) :
    t.view.Left t'.view rel := by
  unfold pollHead at h
  split at h
  · split at h
    · obtain ⟨rfl, rfl, rfl⟩ := by simpa using h
      exact skipped_left hf
    · cases h
  · split at h
    · obtain ⟨maps, applied, hi⟩ := (t.removeHead seq).takeInit_eq hash head.mapUri
      replace hi := (congrArg view hi).trans (view_removeHead hf)
      generalize (t.removeHead seq).takeInit hash head.mapUri = taken at h hi
      obtain ⟨removed, init, rep⟩ := taken
      obtain ⟨hv, hm⟩ := removed.view_takeReanchor head.discontinuity rep
      simp only at h hi
      generalize removed.takeReanchor head.discontinuity rep = marked at h hv hm
      obtain ⟨removed', reanchor⟩ := marked
      obtain ⟨rfl, rfl, rfl⟩ := by simpa using h
      have hgen : removed.generation = t.generation := congrArg BreakView.generation hi
      have hp : removed.timelinePending = t.timelinePending := congrArg BreakView.pending hi
      rw [hi, hgen, hp] at hv
      have hl : { removed' with gapPending := false }.view =
          t.view.leave seq head.discontinuity true := hv
      rw [hl]
      refine .releases (breaks_head? hf) rfl rfl fun latest => ?_
      rw [hm latest, hi]
      rfl
    · split at h
      · obtain ⟨rfl, rfl, rfl⟩ := by simpa using h
        exact skipped_left hf
      · cases h

end

theorem skipTo_slides (t : Track) (pool : Pool) (next seq : Nat) :
    (t.skipTo pool next seq).1.listed = t.listed ∧ (t.skipTo pool next seq).1.view =
        { t.view with nextSeq := if next < seq then some seq else t.nextSeq } := by
  unfold skipTo
  split <;> exact ⟨rfl, rfl⟩

theorem turn_turned (hash : List UInt8 → UInt64) (k now : Nat) (t : Track) (pool : Pool) :
    t.view.Turned (t.turn hash k now pool).1.view (t.turn hash k now pool).2.2 := by
  unfold turn
  split
  · next next seq head hn hf =>
    obtain ⟨hl, hv⟩ := t.skipTo_slides pool next seq
    generalize t.skipTo pool next seq = slid at hl hv
    obtain ⟨t', pool'⟩ := slid
    simp only at hl hv ⊢
    cases hle : t'.pollHead hash k now pool' seq head with
    | none =>
      simp only [getD_none, hv]
      split
      · next hlt => exact .slides (breaks_head? hf) hn hlt
      · exact .stays
    | some left =>
      have h := pollHead_left (hl ▸ hf) hle
      rw [hv] at h
      exact .left h.of_slide
  · exact .stays

theorem view_sorted (t : Track) : t.view.breaks.Pairwise fun a b => a.1 < b.1 :=
  pairwise_map.mpr t.listed.sorted

theorem mem_breaks : seq ∈ t.view.breaks.map Prod.fst ↔ (t.listed.get? seq).isSome = true := by
  simp only [view, List.map_map, List.mem_map, Function.comp_apply]
  constructor
  · rintro ⟨⟨_, ls⟩, hmem, rfl⟩
    rw [get?_of_mem hmem]
    rfl
  · intro h
    obtain ⟨ls, hget⟩ := Option.isSome_iff_exists.mp h
    exact ⟨(seq, ls), mem_of_get? hget, rfl⟩

section Follow

variable {next : Nat} (now : Nat) (pool : Pool)

theorem followSegment_known (hn : t.nextSeq = some next)
    (hk : seg.sequence < next ∨ seg.sequence ∈ t.view.breaks.map Prod.fst) :
    (t.followSegment now pool seg).1.view = t.view := by
  unfold followSegment
  by_cases hlt : seg.sequence < next
  · rw [if_pos (by simpa [hn] using hlt)]
  · rw [if_neg (by simpa [hn] using hlt)]
    obtain ⟨ls, hget⟩ := isSome_iff_exists.mp (mem_breaks.mp (hk.resolve_left hlt))
    rw [hget]
    dsimp only
    split
    · split
      · rfl
      · exact t.view_setPayload _ _
    · rfl

theorem followSegment_new (hn : t.nextSeq = some next) (hle : next ≤ seg.sequence)
    (hl : ∀ b ∈ t.view.breaks, b.1 < seg.sequence) :
    (t.followSegment now pool seg).1.view =
      { t.view with breaks := t.view.breaks ++ [(seg.sequence, seg.discontinuity)] } := by
  have hget : t.listed.get? seg.sequence = none := by
    rw [← Option.not_isSome_iff_eq_none, ← mem_breaks, List.mem_map]
    rintro ⟨b, hb, heq⟩
    exact absurd heq (hl b hb).ne
  unfold followSegment
  rw [if_neg (by simpa [hn] using hle), hget]
  have hm := t.view_ensureSegmentMap seg.mapUri pool
  generalize t.ensureSegmentMap seg.mapUri pool = mapped at hm
  obtain ⟨t', pool'⟩ := mapped
  rw [← hm] at hl ⊢
  have hk : ∀ e ∈ t'.listed.entries, e.1 < seg.sequence := fun e he =>
    hl (e.1, e.2.discontinuity) (mem_map.mpr ⟨e, he, rfl⟩)
  simp only [view, insert_last hk, map_append, map_cons, map_nil]

theorem followSegments_view (known : Option Nat) (hn : t.nextSeq = some next)
    (hso : segs.Pairwise fun a b => a.sequence < b.sequence)
    (hold : ∀ s ∈ segs, ∀ k ∈ known, s.sequence ≤ k →
      s.sequence < next ∨ s.sequence ∈ t.view.breaks.map Prod.fst)
    (hnew : ∀ s ∈ segs, (∀ k ∈ known, k < s.sequence) →
      next ≤ s.sequence ∧ ∀ b ∈ t.view.breaks, b.1 < s.sequence) :
    (followSegments now segs t pool).1.view = { t.view with
      breaks := t.view.breaks ++
        (segs.filter fun s => known.all fun k => decide (k < s.sequence)).map fun s =>
          (s.sequence, s.discontinuity) } := by
  induction segs generalizing t pool with
  | nil => simp [followSegments]
  | cons seg segs ih =>
    obtain ⟨hla, hso⟩ := pairwise_cons.mp hso
    have hv : (t.followSegment now pool seg).1.view = { t.view with
          breaks := t.view.breaks ++
            if known.all fun k => decide (k < seg.sequence) then
              [(seg.sequence, seg.discontinuity)]
            else [] } := by
      split
      · next hk =>
        obtain ⟨hle, hl⟩ := hnew seg mem_cons_self
          fun k hmem => by simpa [mem_def.mp hmem] using hk
        exact followSegment_new now pool hn hle hl
      · next hk =>
        obtain ⟨k, hmem, hle⟩ : ∃ k, known = some k ∧ seg.sequence ≤ k := by
          cases known with
          | none => simp at hk
          | some k => exact ⟨k, rfl, by simpa using hk⟩
        rw [append_nil]
        exact followSegment_known now pool hn (hold seg mem_cons_self k hmem hle)
    rw [followSegments]
    generalize t.followSegment now pool seg = followed at hv
    obtain ⟨t', pool'⟩ := followed
    have hn' : t'.nextSeq = some next := (congrArg BreakView.nextSeq hv).trans hn
    have hke : ∀ b ∈ t.view.breaks, b ∈ t'.view.breaks := by
      rw [hv]
      exact fun b hb => mem_append_left _ hb
    rw [ih pool' hn' hso ?_ ?_, hv, filter_cons]
    · split <;> simp
    · intro s hs k hk hle
      rcases hold s (mem_cons_of_mem _ hs) k hk hle with hlt | hmem
      · exact .inl hlt
      · obtain ⟨b, hb, heq⟩ := mem_map.mp hmem
        exact .inr (mem_map.mpr ⟨b, hke b hb, heq⟩)
    · intro s hs hks
      obtain ⟨hle, hl⟩ := hnew s (mem_cons_of_mem _ hs) hks
      refine ⟨hle, fun b hb => ?_⟩
      rw [hv] at hb
      rcases mem_append.mp hb with hb | hb
      · exact hl b hb
      · split at hb
        · rw [mem_singleton.mp hb]
          exact hla s hs
        · cases hb

end Follow

end Track

end Restream.Hls
