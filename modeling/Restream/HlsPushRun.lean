import Restream.HlsPush
import Restream.Tables

/-! Runs of a push session without a master playlist: uploads, media playlists,
seeded inits, voided maps and polls in any order. -/

namespace Restream.Hls

open List Option Session Exec

structure PushRun where
  session : Session
  uploads : Uploads
  listings : Listings
  releases : List Release

inductive PushEvent where
  | segment (path : Path) (bytes : List UInt8) (now : Nat)
  | playlist (path : Path) (media : MediaPlaylist) (now : Nat)
  | seedInit (rendition : Nat) (uri : Path) (bytes : List UInt8)
  | voidMap (uri : Path)
  | poll (now : Nat)

namespace PushRun

def start (limits : SessionLimits) : PushRun :=
  { session := Session.new limits, uploads := [], listings := [], releases := [] }

def epoch (s : Session) : Nat := (s.tracks.head?.map Track.epoch).getD 0

def step (hash : List UInt8 → UInt64) (r : PushRun) : PushEvent → Option PushRun
  | .segment path bytes now =>
    let payload := { bytes := bytes, upload := some r.uploads.length }
    some { r with
      session := (r.session.onSegment path payload now).1
      uploads := r.uploads ++ [(path, bytes)] }
  | .playlist path media now =>
    match r.session.onPlaylist path (.media media) now with
    | (session, .accepted) =>
      some { r with session := session, listings := r.listings ++ media.entries (epoch session) }
    | (session, .otherVariant) => some { r with session := session }
  | .seedInit rendition uri bytes => some { r with session := r.session.seedInit rendition uri bytes }
  | .voidMap uri => some { r with session := r.session.voidMap uri }
  | .poll now =>
    let (session, releases) := r.session.poll hash now r.releases
    some { r with session := session, releases := releases }

def Numbered (_ : PushRun) : PushEvent → Prop
  | .playlist _ media _ => media.Numbered
  | _ => True

instance (r : PushRun) (e : PushEvent) : Decidable (r.Numbered e) := by
  unfold Numbered
  split <;> infer_instance

end PushRun

structure Track.Unfollowed (track : Track) : Prop where
  path : track.path = none
  listed : track.listed.entries = []
  latestListing : ∀ p, track.latestListing p = none

structure Track.Quiet (track' track : Track) : Prop where
  listing : track'.SameListing track
  unfollowed : track.Unfollowed → track'.Unfollowed

namespace Track.Quiet

theorem of_eq {t' t : Track} (hs : t'.SameListing t) (hp : t'.path = t.path)
    (hl : t'.latestListing = t.latestListing) : t'.Quiet t where
  listing := hs
  unfollowed h := ⟨hp.trans h.path, hs.listed ▸ h.listed, fun p => hl ▸ h.latestListing p⟩

theorem refl (t : Track) : t.Quiet t := of_eq ⟨rfl, rfl, rfl, rfl⟩ rfl rfl

variable (t : Track) (uri : Path)
include t uri

theorem setPending (pay : Payload) : (t.setPending uri pay).Quiet t :=
  of_eq ⟨rfl, rfl, rfl, rfl⟩ rfl rfl

theorem voidMap : (t.voidMap uri).Quiet t := of_eq ⟨rfl, rfl, rfl, rfl⟩ rfl rfl

theorem ensureMap (pool : Pool) : (t.ensureMap uri pool).1.Quiet t := by
  refine of_eq (t.ensureMap_frame uri pool).1 ?_ ?_
  · unfold Track.ensureMap
    split <;> rfl
  · unfold Track.ensureMap
    split <;> rfl

end Track.Quiet

open PushRun

structure Inv (r : PushRun) : Prop where
  nonempty : 0 < r.session.tracks.length
  followed : ∀ {t : Track}, r.session.tracks[0]? = some t →
    Consistent r.uploads r.listings r.releases t r.session.pool ∧ Windowed r.listings t
  unfollowed : ∀ {i : Nat} {t : Track}, r.session.tracks[i + 1]? = some t → t.Unfollowed

namespace Inv

variable {r : PushRun}

theorem start (limits : SessionLimits) : Inv (PushRun.start limits) where
  nonempty := Nat.zero_lt_one
  followed {t} ht := by
    cases ht
    refine ⟨⟨?_, ?_, ?_, ?_, .nil, ?_, Multiset.nodup_zero⟩, ⟨?_, ?_, ?_⟩⟩
    all_goals simp [PushRun.start, Session.new, Track.new, OrderedMap.empty]
  unfollowed ht := by simp [PushRun.start, Session.new] at ht

section
variable (h : Inv r)
include h

theorem frame (hn : 0 < sess.tracks.length)
    (htr : ∀ {i : Nat} {t' : Track}, sess.tracks[i]? = some t' →
      (i ≠ 0 ∧ t'.Unfollowed) ∨ ∃ t, r.session.tracks[i]? = some t ∧ t'.Quiet t)
    (hh : sess.pool.held.Sublist r.session.pool.held) : Inv { r with session := sess } where
  nonempty := hn
  followed {t'} ht' := by
    rcases htr ht' with ⟨hne, -⟩ | ⟨t, ht, hq⟩
    · exact (hne rfl).elim
    · obtain ⟨hc, hw⟩ := h.followed ht
      exact ⟨hc.frame hq.listing hh, hw.frame hq.listing.epoch hq.listing.window⟩
  unfollowed {i t'} ht' := by
    rcases htr ht' with ⟨-, hu⟩ | ⟨t, ht, hq⟩
    · exact hu
    · exact hq.unfollowed (h.unfollowed ht)

theorem modify (ix : Nat) (hf : ∀ t, (f t).Quiet t) :
    Inv { r with session := { r.session with tracks := r.session.tracks.modify ix f } } := by
  refine h.frame (by simpa using h.nonempty) (fun {i t'} ht' => .inr ?_) (.refl _)
  obtain ⟨t, ht, rfl⟩ := getElem?_modify_cases ht'
  refine ⟨t, ht, ?_⟩
  split
  · exact hf t
  · exact .refl t

theorem append_upload (path : Path) (bs : List UInt8) :
    Inv { r with uploads := r.uploads ++ [(path, bs)] } where
  __ := h
  followed ht := ⟨(h.followed ht).1.append_uploads _, (h.followed ht).2⟩

theorem voidMap (uri : Path) : Inv { r with session := r.session.voidMap uri } := by
  refine h.frame (by simpa [Session.voidMap] using h.nonempty) (fun {i t'} ht' => .inr ?_) (.refl _)
  simp only [Session.voidMap, getElem?_map, map_eq_some_iff] at ht'
  obtain ⟨t, ht, rfl⟩ := ht'
  exact ⟨t, ht, .voidMap t uri⟩

theorem seedInit (k : Nat) (uri : Path) (bs : List UInt8) :
    Inv { r with session := r.session.seedInit k uri bs } := by
  have hnew : (Track.new none).Unfollowed := ⟨rfl, rfl, fun _ => rfl⟩
  have hg {i : Nat} {t : Track} {n : Nat}
      (ht : (r.session.tracks ++ replicate n (Track.new none))[i]? = some t) :
      (i ≠ 0 ∧ t.Unfollowed) ∨ r.session.tracks[i]? = some t := by
    rcases Nat.lt_or_ge i r.session.tracks.length with hlt | hge
    · rw [getElem?_append_left hlt] at ht
      exact .inr ht
    · rw [getElem?_append_right hge, getElem?_replicate] at ht
      have hpos := h.nonempty
      split at ht <;> cases ht
      exact .inl ⟨by omega, hnew⟩
  unfold Session.seedInit
  split
  · exact h
  · simp only
    split
    · refine h.frame (by simp; omega) (fun {i t'} ht' => ?_) (.refl _)
      exact (hg ht').imp_right fun ht => ⟨t', ht, .refl t'⟩
    · next tr htr =>
      refine h.frame (by simp; omega) (fun {i t'} ht' => ?_)
        (tr.ensureMap_frame uri _).2.frame.1
      rcases getElem?_set_cases ht' with ⟨rfl, rfl⟩ | ⟨-, ht'⟩
      · have hq := Track.Quiet.ensureMap tr uri { r.session.pool with
          seeded := (r.session.pool.seeded.filter fun seeded => seeded.1 ≠ uri) ++ [(uri, bs)] }
        exact (hg htr).imp (fun hx => ⟨hx.1, hq.unfollowed hx.2⟩) fun ht => ⟨tr, ht, hq⟩
      · exact (hg ht').imp_right fun ht => ⟨t', ht, .refl t'⟩

theorem exists_followed : ∃ t, r.session.tracks[0]? = some t :=
  ⟨_, getElem?_eq_getElem h.nonempty⟩

end

variable {path : Path} {hash : List UInt8 → UInt64}

section
variable (h : Inv r)
include h

theorem entryOf (he : r.session.entryOf path = some (ix, seq, ls)) : ix = 0 ∧ ls.path = path ∧
      ∀ {t : Track}, r.session.tracks[0]? = some t → t.listed.get? seq = some ls := by
  obtain ⟨⟨t, i⟩, hmem, hmap⟩ := exists_of_findSome?_eq_some he
  have ht : r.session.tracks[i]? = some t := mk_mem_zipIdx_iff_getElem?.mp hmem
  obtain ⟨⟨s, l⟩, hen, hp⟩ := map_eq_some_iff.mp hmap
  obtain ⟨rfl, rfl, rfl⟩ : i = ix ∧ s = seq ∧ l = ls := by simpa using hp
  simp only [Track.entryOf, bind_eq_bind, bind_eq_some_iff, ite_none_right_eq_some] at hen
  obtain ⟨s', hl, l', hget, hpa, heq⟩ := hen
  obtain ⟨rfl, rfl⟩ : s' = s ∧ l' = l := by simpa using heq
  cases i with
  | zero =>
    refine ⟨rfl, hpa, fun {t'} ht' => ?_⟩
    obtain rfl := Option.some.inj (ht.symm.trans ht')
    exact hget
  | succ i =>
    have hn := (h.unfollowed ht).latestListing path
    cases hn.symm.trans hl

theorem segment (path : Path) (bs : List UInt8) (now : Nat) : Inv { r with
      session := (r.session.onSegment path { bytes := bs, upload := some r.uploads.length } now).1
      uploads := r.uploads ++ [(path, bs)] } := by
  have h' := h.append_upload path bs
  have hup : Uploaded (r.uploads ++ [(path, bs)]) path { bytes := bs, upload := some r.uploads.length } :=
    ⟨r.uploads.length, rfl, getElem?_concat_length⟩
  unfold onSegment
  split
  · next ix _ => exact h'.modify ix fun t => .setPending t path _
  · split
    · next ix seq ls he =>
      obtain ⟨rfl, hp, hget⟩ := h.entryOf he
      split
      · exact h'.frame h.nonempty (fun {_ t'} ht' => .inr ⟨t', ht', .refl t'⟩) (.refl _)
      · next hn =>
        refine ⟨by simpa using h.nonempty, fun {t'} ht' => ?_, fun {i t'} ht' => ?_⟩
        · obtain ⟨t, ht, rfl⟩ := getElem?_modify_cases ht'
          obtain ⟨hc, hw⟩ := h'.followed ht
          refine ⟨hc.setPayload (hget ht) (by simpa using hn) (hp ▸ hup) ?_, hw.frame rfl rfl⟩
          exact (h.followed ht).1.fresh rfl
        · obtain ⟨t, ht, rfl⟩ := getElem?_modify_cases ht'
          exact h.unfollowed ht
    · split
      · exact h'
      · refine ⟨h.nonempty, fun {t} ht => ?_, fun {i t} ht => h.unfollowed ht⟩
        obtain ⟨hc, hw⟩ := h'.followed ht
        exact ⟨hc.hold hup ((h.followed ht).1.fresh rfl), hw⟩

theorem followMedia (hnum : media.Numbered) (now : Nat) : Inv { r with
      session := r.session.followMedia 0 media now
      listings := r.listings ++ media.entries (epoch (r.session.followMedia 0 media now)) } := by
  obtain ⟨t, ht⟩ := h.exists_followed
  obtain ⟨hc, hw⟩ := h.followed ht
  rcases hf : t.onFollowed media now r.session.pool with ⟨t', pool'⟩
  obtain ⟨hc', hw'⟩ := hc.onFollowed hw hnum hf
  simp only [Session.followMedia, ht, hf]
  have he : epoch { r.session with pool := pool', tracks := r.session.tracks.set 0 t' } =
      t'.epoch := by
    rw [PushRun.epoch, head?_eq_getElem?, getElem?_set_self h.nonempty]
    rfl
  rw [he]
  refine ⟨by simpa using h.nonempty, fun {t'} ht' => ?_, fun {i t'} ht' => ?_⟩
  · rcases getElem?_set_cases ht' with ⟨-, rfl⟩ | ⟨hne, -⟩
    · exact ⟨hc', hw'⟩
    · exact (hne rfl).elim
  · rcases getElem?_set_cases ht' with ⟨hi, -⟩ | ⟨-, ht'⟩
    · cases hi
    · exact h.unfollowed ht'

theorem named (path : Path) :
    Inv { r with session := { r.session with tracks := r.session.tracks.modify 0 fun tr =>
      { tr with path := some path } } } where
  nonempty := by simpa using h.nonempty
  followed {t'} ht' := by
    obtain ⟨t, ht, rfl⟩ := getElem?_modify_cases ht'
    obtain ⟨hc, hw⟩ := h.followed ht
    exact ⟨hc.frame ⟨rfl, rfl, rfl, rfl⟩ (.refl _), hw.frame rfl rfl⟩
  unfollowed {i t'} ht' := by
    obtain ⟨t, ht, rfl⟩ := getElem?_modify_cases ht'
    exact h.unfollowed ht

theorem onOtherVariant (path : Path) (media : MediaPlaylist) :
    Inv { r with session := r.session.onOtherVariant path media } :=
  h.frame h.nonempty (fun {_ t'} ht' => .inr ⟨t', ht', .refl t'⟩)
    (r.session.onOtherVariant_drops path media).frame.1

theorem rendition_eq (hf : r.session.follows path = .rendition ix) : ix = 0 := by
  unfold follows at hf
  split at hf
  · cases hf
  · split at hf
    · cases hf
    · next i hi =>
      obtain rfl := Follows.rendition.inj hf
      obtain ⟨hlt, hp, -⟩ := findIdx?_eq_some_iff_getElem.mp hi
      cases i with
      | zero => rfl
      | succ i =>
        have hn := (h.unfollowed (getElem?_eq_getElem hlt)).path
        simp [hn] at hp

theorem playlist (hnum : media.Numbered) (he : step hash r (.playlist path media now) = some r') :
    Inv r' := by
  simp only [step, onPlaylist] at he
  cases hf : r.session.follows path with
  | other =>
    simp only [hf, Option.some.injEq] at he
    subst he
    exact h.onOtherVariant path media
  | unlocked =>
    simp only [hf, Option.some.injEq] at he
    subst he
    exact (h.named path).followMedia hnum now
  | rendition ix =>
    simp only [hf, Option.some.injEq] at he
    subst he
    obtain rfl := h.rendition_eq hf
    exact h.followMedia hnum now

end

theorem pollTracks_unfollowed (hash : List UInt8 → UInt64) (now : Nat) (h : ∀ t ∈ ts, t.Unfollowed)
    (k : Nat) (pool : Pool) (out : List Release) :
    pollTracks hash now k ts pool out = (ts, pool, out) := by
  induction ts generalizing k with
  | nil => rfl
  | cons t ts ih =>
    have hp : t.poll hash k now pool out = (t, pool, out) := by
      rw [Track.poll, OrderedMap.length, (h t mem_cons_self).listed]
      rfl
    rw [pollTracks, hp]
    simp only
    rw [ih fun x hx => h x (mem_cons_of_mem _ hx)]

theorem poll (h : Inv r) (hash : List UInt8 → UInt64) (now : Nat) : Inv { r with
      session := (r.session.poll hash now r.releases).1
      releases := (r.session.poll hash now r.releases).2 } := by
  obtain ⟨followed, rest, htr⟩ := exists_cons_of_length_pos h.nonempty
  have hr : ∀ t ∈ rest, t.Unfollowed := by
    intro t ht
    obtain ⟨i, hi⟩ := getElem?_of_mem ht
    exact h.unfollowed (i := i) (by rw [htr, getElem?_cons_succ, hi])
  obtain ⟨hc, hw⟩ := h.followed (by rw [htr]; rfl)
  obtain ⟨hc', he, hwi⟩ :=
    hc.pollLoop (rfl : Track.pollLoop hash 0 now followed.listed.length followed _ _ = _)
  unfold Session.poll
  rw [htr, pollTracks]
  simp only [pollTracks_unfollowed hash now hr]
  refine ⟨Nat.succ_pos _, fun {t} ht => ?_, fun {i t} ht => ?_⟩
  · cases ht
    exact ⟨hc'.shrink (Pool.evictAged_drops _ _ _ _).frame.1, hw.frame he hwi⟩
  · exact hr t (mem_of_getElem? ht)

theorem step (h : Inv r) (hg : r.Numbered e) (he : step hash r e = some r') : Inv r' := by
  cases e with
  | segment path bs now =>
    cases he
    exact h.segment path bs now
  | playlist path media now => exact h.playlist hg he
  | seedInit k uri bs =>
    cases he
    exact h.seedInit k uri bs
  | voidMap uri =>
    cases he
    exact h.voidMap uri
  | poll now =>
    cases he
    exact h.poll hash now

end Inv

namespace PushRun

/-- The releases of a run go up in epoch and sequence, each has the bytes of an
upload under the one path listed for its sequence in its epoch, and no upload
is released twice. -/
theorem releases_ordered_and_listed (hash : List UInt8 → UInt64)
    (limits : SessionLimits) {r : PushRun}
    (h : Reachable (step hash) Numbered (start limits) r) :
    r.releases.Pairwise Release.Earlier ∧
    (∀ x ∈ r.releases, ∃ path, (x.epoch, x.sequence, path) ∈ r.listings ∧
      (∀ path', (x.epoch, x.sequence, path') ∈ r.listings → path' = path) ∧
      ∃ i : Nat, x.payload.upload = some i ∧ r.uploads[i]? = some (path, x.payload.bytes)) ∧
    r.releases.Pairwise fun x y => x.payload.upload ≠ y.payload.upload := by
  have hinv : Inv r :=
    Reachable.invariant Inv (fun _ _ _ hi hg he => hi.step hg he) (.start limits) h
  obtain ⟨t, ht⟩ := hinv.exists_followed
  obtain ⟨hc, hw⟩ := hinv.followed ht
  refine ⟨hc.sorted, fun x hx => ?_, ?_⟩
  · obtain ⟨path, hlisting, i, hi, hget⟩ := hc.sourced x hx
    exact ⟨path, hlisting, fun path' hlisting' => hw.unique hlisting' hlisting, i, hi, hget⟩
  · have honce := hc.once_of_le (Multiset.le_add_left (releasedPayloads r.releases) _)
    rw [releasedPayloads, Multiset.filterMap_coe, Multiset.coe_nodup, List.filterMap_map, List.Nodup,
      List.pairwise_filterMap] at honce
    refine honce.imp_of_mem fun {x y} hx _ hne heq => ?_
    obtain ⟨path, -, i, hi, -⟩ := hc.sourced x hx
    exact hne i hi i (heq.symm.trans hi) rfl

def restartEvents : List PushEvent :=
  let entry (sequence : Nat) (path : Path) : SegmentEntry :=
    { sequence := sequence, path := path, duration := 2000, discontinuity := false, mapUri := none }
  let listing (segments : List SegmentEntry) : MediaPlaylist :=
    { targetDuration := 2000, mediaSequence := 0, segments := segments,
      ended := false, mapUri := none }
  [.segment "index0.ts" [1] 0, .playlist "live.m3u8" (listing [entry 0 "index0.ts"]) 0, .poll 0,
    .playlist "live.m3u8" (listing [entry 0 "index0.ts", entry 1 "index1.ts"]) 2000,
    .segment "index1.ts" [2] 2000, .poll 2000, .segment "index0.ts" [3] 9000,
    .playlist "live.m3u8" (listing [entry 0 "index0.ts"]) 9000, .poll 9000]

theorem releases_ordered_and_listed_restart : ∃ r, Reachable (step fun _ => 0) Numbered
    (start { holdSegments := 4, holdBytes := 100, idleFloor := 10000 }) r ∧
    r.releases.map (fun x => (x.epoch, x.sequence, x.payload.bytes)) =
      [(0, 0, [1]), (0, 1, [2]), (1, 0, [3])] ∧
    r.releases.Pairwise Release.Earlier :=
  exists_reachable_and restartEvents (by decide +kernel)
    fun _ hreach _ => (releases_ordered_and_listed _ _ hreach).1

end PushRun

end Restream.Hls
