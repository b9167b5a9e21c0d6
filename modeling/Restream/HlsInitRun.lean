import Restream.HlsInits

/-! The init in force. Uploads replace every other init of their map, and no playlist
brings back a replaced seed. So each track's map and the hold have its newest bytes, and
a demuxer holds them whenever a segment of the map leaves. -/

namespace Restream.Hls

open Exec List Option OrderedMap Nat

section Inits

variable (hash : List UInt8 → UInt64) (uri : Path) (newest : Option (List UInt8))
  (given : List (List UInt8))

structure MapInit (map : MapState) : Prop where
  pending : ∀ payload ∈ map.pending, payload.bytes ∈ given
  delivered : ∀ hashed ∈ map.delivered, ∃ payload, map.last = some payload ∧
    hash payload.bytes = hashed ∧
    payload.bytes ∈ given
  current : map.uri = uri → ∀ bytes ∈ map.bytes, newest = some bytes

structure MapInits (maps : List MapState) : Prop where
  unique : (maps.map MapState.uri).Nodup
  maps : ∀ map ∈ maps, MapInit hash uri newest given map

def Applies (holds : Option (List UInt8)) (applied : Option UInt64) : Prop :=
  ∀ hashed ∈ applied, ∃ bytes ∈ given, holds = some bytes ∧ hash bytes = hashed

structure PoolInits (pool : Pool) : Prop where
  once : (pool.held.map Held.path).Nodup
  held : ∀ x ∈ pool.held, x.payload.bytes ∈ given ∧ (x.path = uri → newest = some x.payload.bytes)
  seeded : ∀ x ∈ pool.seeded, x.2 ∈ given

def Apart (track : Track) (pool : Pool) : Prop :=
  track.knowsMap uri = true → ∀ x ∈ pool.held, x.path ≠ uri

end Inits

variable {hash : List UInt8 → UInt64} {uri : Path} {newest : Option (List UInt8)}
  {given : List (List UInt8)}
  {t t' : Track} {pool pool' : Pool} {maps : List MapState}

theorem knowsMap_iff : t.knowsMap uri = true ↔ uri ∈ t.maps.map MapState.uri := by
  simp [Track.knowsMap]

theorem Apart.of_uris (h : Apart uri t pool) (hu : t'.maps.map MapState.uri = t.maps.map MapState.uri)
    (hh : pool'.held ⊆ pool.held) : Apart uri t' pool' := by
  intro hk x hx
  rw [knowsMap_iff, hu, ← knowsMap_iff] at hk
  exact h hk x (hh hx)

theorem PoolInits.within (h : PoolInits uri newest given pool) (hp : pool'.Within pool) :
    PoolInits uri newest given pool' where
  once := h.once.sublist (hp.held.map _)
  held x hx := h.held x (hp.held.subset hx)
  seeded := hp.seeded ▸ h.seeded

theorem PoolInits.taken (h : PoolInits uri newest given pool)
    (ht : (pool.takeHeld path).2 = some pay) :
    pay.bytes ∈ given ∧ (path = uri → newest = some pay.bytes) := by
  rcases pool.takeHeld_cases path with hta | ⟨held, pool', hta, hp, hpe, -⟩ <;> rw [hta] at ht
  · cases ht
  · cases ht
    have := h.held held (hpe.symm.subset mem_cons_self)
    rwa [hp] at this

theorem MapInit.new {pending : Option Payload}
    (hpending : ∀ payload ∈ pending, payload.bytes ∈ given ∧
      (path = uri → newest = some payload.bytes)) :
    MapInit hash uri newest given { uri := path, pending := pending, delivered := none, last := none } where
  pending payload hp := (hpending payload hp).1
  delivered hashed hd := by cases hd
  current huri bytes hbytes := by
    cases pending with
    | none => cases hbytes
    | some payload =>
      cases hbytes
      exact (hpending payload rfl).2 huri

namespace MapInits

theorem nil : MapInits hash uri newest given [] := ⟨nodup_nil, fun _ h => nomatch h⟩

theorem replace (h : MapInits hash uri newest given maps) (path : Path) {f : MapState → MapState}
    (huri : ∀ map, map.uri = path → (f map).uri = path)
    (hc : ∀ map ∈ maps, map.uri = path → MapInit hash uri newest' given' (f map))
    (ho : ∀ map ∈ maps, map.uri ≠ path → MapInit hash uri newest' given' map) :
    MapInits hash uri newest' given' (maps.replaceF fun map =>
      if map.uri = path then some (f map) else none) ∧
    (maps.replaceF fun map => if map.uri = path then some (f map) else none).map MapState.uri =
      maps.map MapState.uri := by
  have hu (maps : List MapState) :
      (maps.replaceF fun map => if map.uri = path then some (f map) else none).map MapState.uri =
        maps.map MapState.uri := by
    induction maps with
    | nil => rfl
    | cons map maps ih =>
      by_cases hp : map.uri = path
      · simp [huri map hp, hp]
      · simp [if_neg hp, ih]
  refine ⟨⟨hu maps ▸ h.unique, ?_⟩, hu maps⟩
  have hun := h.unique
  clear h
  induction maps with
  | nil => exact fun _ hmap => nomatch hmap
  | cons map maps ih =>
    obtain ⟨hn, hr⟩ := nodup_cons.mp hun
    have hf := ih (fun m hm => hc m (mem_cons_of_mem _ hm))
      (fun m hm => ho m (mem_cons_of_mem _ hm)) hr
    rw [replaceF_cons]
    by_cases hp : map.uri = path
    · rw [if_pos hp]
      intro m hm
      rcases mem_cons.mp hm with rfl | hm
      · exact hc map mem_cons_self hp
      · refine ho m (mem_cons_of_mem _ hm) fun heq => hn ?_
        rw [hp, ← heq]
        exact mem_map_of_mem hm
    · rw [if_neg hp]
      intro m hm
      rcases mem_cons.mp hm with rfl | hm
      · exact ho m mem_cons_self hp
      · exact hf m hm

theorem ensureMap (h : MapInits hash uri newest given t.maps) (hpo : PoolInits uri newest given pool)
    (hk : t.KeepsInit uri newest paths pool) (hpath : path ∈ paths) :
    MapInits hash uri newest given (t.ensureMap path pool).1.maps := by
  unfold Track.ensureMap
  split
  · exact h
  · next hu =>
    have hnew : MapInit hash uri newest given
        { uri := path
          pending :=
            (pool.takeHeld path).2 <|> ((pool.takeHeld path).1.seeded.find? fun s => s.1 = path).map
            fun s => { bytes := s.2, upload := none }
          delivered := none
          last := none } := by
      refine .new fun pay hp => ?_
      cases ht : (pool.takeHeld path).2 with
      | some held =>
        rw [ht] at hp
        cases hp
        exact hpo.taken ht
      | none =>
        rw [ht, (pool.takeHeld_within path).seeded] at hp
        obtain ⟨seed, hs, rfl⟩ := map_eq_some_iff.mp hp
        have hf := find?_some hs
        have hmem := mem_of_find?_eq_some hs
        refine ⟨hpo.seeded seed hmem, ?_⟩
        rintro rfl
        rcases hk hpath with hseed | ⟨hknown, -⟩
        · exact hseed seed hmem (of_decide_eq_true hf)
        · exact absurd hknown hu
    have hsub : (if maxMaps ≤ t.maps.length then t.maps.drop 1 else t.maps).Sublist t.maps := by
      split
      · exact drop_sublist _ _
      · exact .refl _
    refine ⟨?_, fun map hmap => ?_⟩
    · rw [map_append, nodup_append]
      refine ⟨h.unique.sublist (hsub.map _), nodup_singleton _, fun a ha b hb => ?_⟩
      rw [mem_singleton.mp hb]
      rintro rfl
      exact hu (knowsMap_iff.mpr ((hsub.map _).subset ha))
    · rcases mem_append.mp hmap with hmap | hmap
      · exact h.maps map (hsub.subset hmap)
      · rw [mem_singleton.mp hmap]
        exact hnew

end MapInits

theorem Track.KeepsInit.frame (h : t.KeepsInit uri newest paths pool) (hm : t'.maps = t.maps)
    (hp : pool'.Within pool) : t'.KeepsInit uri newest paths pool' := by
  unfold Track.KeepsInit Track.knowsMap at *
  rwa [hm, hp.seeded]

/-- Known maps and named ones fit together, so that making one of them evicts none. -/
theorem Track.KeepsInit.ensureMap (h : t.KeepsInit uri newest paths pool)
    (hu : (t.maps.map MapState.uri).Nodup) {path : Path} (hpath : path ∈ paths) :
    (t.ensureMap path pool).1.KeepsInit uri newest paths (t.ensureMap path pool).2 := by
  unfold Track.ensureMap
  split
  · exact h
  · next hn =>
    intro huri
    rcases h huri with hs | ⟨hk, hlen⟩
    · exact .inl ((pool.takeHeld_within path).seeded ▸ hs)
    · have hroom : ¬maxMaps ≤ t.maps.length := by
        have hnd : (path :: t.maps.map MapState.uri).Nodup :=
          nodup_cons.mpr ⟨fun hmem => hn (knowsMap_iff.mpr hmem), hu⟩
        have hsub : path :: t.maps.map MapState.uri ⊆ (t.maps.map MapState.uri ++ paths).dedup :=
          cons_subset.mpr ⟨by simp [hpath], fun x hx => by simp [hx]⟩
        have hle := (subperm_of_subset hnd hsub).length_le
        rw [length_cons, length_map] at hle
        omega
      simp only [if_neg hroom]
      refine .inr ⟨?_, (subperm_of_subset (nodup_dedup _) fun x hx => ?_).length_le.trans hlen⟩
      · rw [knowsMap_iff] at hk ⊢
        simp [hk]
      · simp only [map_append, map_cons, map_nil, mem_dedup, mem_append, mem_singleton] at hx ⊢
        rcases hx with (hx | rfl) | hx
        · exact .inl hx
        · exact .inr hpath
        · exact .inr hx

theorem Apart.ensureMap (h : Apart uri t pool) (ho : (pool.held.map Held.path).Nodup) (path : Path) :
    Apart uri (t.ensureMap path pool).1 (t.ensureMap path pool).2 := by
  unfold Track.ensureMap
  split
  · exact h
  · intro hk
    rw [knowsMap_iff, map_append, mem_append] at hk
    rcases hk with hk | hk
    · refine fun x hx => h (knowsMap_iff.mpr ?_) x ((pool.takeHeld_within path).held.subset hx)
      split at hk
      · exact ((drop_sublist _ _).map _).subset hk
      · exact hk
    · obtain rfl : uri = path := by simpa using hk
      exact Pool.not_held_of_taken ho uri

structure Fitted (hash : List UInt8 → UInt64) (uri : Path) (newest : Option (List UInt8))
    (given : List (List UInt8)) (paths : List Path) (track : Track) (pool : Pool) : Prop where
  maps : MapInits hash uri newest given track.maps
  hold : PoolInits uri newest given pool
  apart : Apart uri track pool
  keeps : track.KeepsInit uri newest paths pool

namespace Fitted

def Step (hash : List UInt8 → UInt64) (uri : Path) (newest : Option (List UInt8))
    (given : List (List UInt8)) (paths : List Path)
    (track : Track) (pool : Pool) (after : Track × Pool) : Prop :=
  Fitted hash uri newest given paths after.1 after.2 ∧ after.1.applied = track.applied ∧ after.2.Within pool

theorem Step.trans {after after' : Track × Pool} (h : Step hash uri newest given paths t pool after)
    (h' : Step hash uri newest given paths after.1 after.2 after') :
    Step hash uri newest given paths t pool after' :=
  ⟨h'.1, h'.2.1.trans h.2.1, h'.2.2.trans h.2.2⟩

section

variable (h : Fitted hash uri newest given paths t pool)

include h

theorem frame (hm : t'.maps = t.maps)
    (hp : pool'.Within pool) : Fitted hash uri newest given paths t' pool' :=
  ⟨hm ▸ h.maps, h.hold.within hp, h.apart.of_uris (congrArg _ hm) hp.held.subset,
    h.keeps.frame hm hp⟩

theorem stay : Step hash uri newest given paths t pool (t, pool) := ⟨h, rfl, .refl _⟩

theorem ensureMap (hpath : path ∈ paths) : Step hash uri newest given paths t pool (t.ensureMap path pool) := by
  have hw : (t.ensureMap path pool).2.Within pool ∧
      (t.ensureMap path pool).1.applied = t.applied := by
    unfold Track.ensureMap
    split
    · exact ⟨.refl _, rfl⟩
    · exact ⟨pool.takeHeld_within path, rfl⟩
  exact ⟨⟨h.maps.ensureMap h.hold h.keeps hpath, h.hold.within hw.1,
    h.apart.ensureMap h.hold.once path, h.keeps.ensureMap h.maps.unique hpath⟩, hw.2, hw.1⟩

theorem ensureSegmentMap (hmap : ∀ path ∈ mapUri, path ∈ paths) :
    Step hash uri newest given paths t pool (t.ensureSegmentMap mapUri pool) := by
  cases mapUri with
  | none => exact h.stay
  | some path => exact h.ensureMap (hmap path rfl)

theorem followSegment (now : Nat) {seg : SegmentEntry} (hmap : ∀ path ∈ seg.mapUri, path ∈ paths) :
    Step hash uri newest given paths t pool (t.followSegment now pool seg) := by
  have ht := pool.takeHeld_within seg.path
  unfold Track.followSegment
  split
  · have hc : (if (pool.takeHeld seg.path).2.isSome then (pool.takeHeld seg.path).1.countDuplicate
        else (pool.takeHeld seg.path).1).Within pool := by
      split
      · exact ⟨ht.held, ht.seeded⟩
      · exact ht
    exact ⟨h.frame rfl hc, rfl, hc⟩
  · split
    · split
      · split
        · next hp =>
          rw [hp] at ht
          exact ⟨h.frame rfl ht, rfl, ht⟩
        · next hp =>
          rw [hp] at ht
          exact ⟨h.frame rfl ht, rfl, ht⟩
      · exact h.stay
    · have hm := h.ensureSegmentMap hmap
      have ht := (t.ensureSegmentMap seg.mapUri pool).2.takeHeld_within seg.path
      exact hm.trans ⟨hm.1.frame rfl ht, rfl, ht⟩

theorem followSegments (now : Nat) (segs : List SegmentEntry)
    (hmaps : ∀ seg ∈ segs, ∀ path ∈ seg.mapUri, path ∈ paths) :
    Step hash uri newest given paths t pool (Track.followSegments now segs t pool) := by
  induction segs generalizing t pool with
  | nil => exact h.stay
  | cons seg segs ih =>
    have hf := h.followSegment now (hmaps seg mem_cons_self)
    exact hf.trans (ih hf.1 fun s hs => hmaps s (mem_cons_of_mem _ hs))

theorem followListing {media : MediaPlaylist} (hmaps : media.maps ⊆ paths)
    (first last : SegmentEntry) (now : Nat) :
    Step hash uri newest given paths t pool (t.followListing media first last now pool) := by
  obtain ⟨hm, ha, hw⟩ := t.beginListing_maps media first last pool
  obtain ⟨hf, ha', hw'⟩ := (h.frame hm hw).followSegments now media.segments
    fun seg hseg path hpath => hmaps (mem_append_right _ (mem_filterMap.mpr ⟨seg, hseg, hpath⟩))
  exact ⟨hf.frame rfl (.refl _), ha'.trans ha, hw'.trans hw⟩

theorem onFollowed {media : MediaPlaylist} (hmaps : media.maps ⊆ paths) (now : Nat) :
    Step hash uri newest given paths t pool (t.onFollowed media now pool) := by
  have hs : Fitted hash uri newest given paths
      { t with playlistSeen := true, currentMap := media.mapUri, target := some media.targetDuration } pool :=
    h.frame rfl (.refl _)
  obtain ⟨hm, ha, hw⟩ := hs.ensureSegmentMap fun path hpath =>
    hmaps (mem_append_left _ (Option.mem_toList.mpr hpath))
  unfold Track.onFollowed
  split
  · next first last _ _ =>
    exact Step.trans ⟨hm, ha, hw⟩ (hm.followListing hmaps first last now)
  · exact ⟨hm.frame rfl (.refl _), ha, hw⟩

end

end Fitted

open Track

variable {hash : List UInt8 → UInt64} {uri : Path} {newest : Option (List UInt8)}
  {given : List (List UInt8)} {tr t' : Track} {pool pool' : Pool}

theorem MapInit.takeMap {map : MapState} (h : MapInit hash uri newest given map)
    (hr : map.pending.isSome = true ∨ map.delivered.isSome = true) :
    ∃ map' bs, takeMap hash map = some (map', bs, hash bs) ∧ map'.uri = map.uri ∧
      MapInit hash uri newest given map' ∧ map.bytes = some bs ∧ bs ∈ given := by
  cases hpe : map.pending with
  | some pay =>
    have hby : map.bytes = some pay.bytes := by simp [MapState.bytes, hpe]
    have hg := h.pending pay hpe
    refine ⟨{ map with pending := none, last := some pay, delivered := some (hash pay.bytes) },
      pay.bytes, by simp [Track.takeMap, hpe], rfl, ?_, hby, hg⟩
    refine ⟨fun _ hp => (by cases hp), fun ha hd => ?_, fun huri bs hb => ?_⟩
    · cases hd
      exact ⟨pay, rfl, rfl, hg⟩
    · cases hb
      exact h.current huri _ hby
  | none =>
    obtain ⟨ha, hde⟩ := isSome_iff_exists.mp (by simpa [hpe] using hr)
    obtain ⟨pay, hl, rfl, hg⟩ := h.delivered ha hde
    refine ⟨map, pay.bytes, by simp [Track.takeMap, hpe, hde, hl], rfl, h, ?_, hg⟩
    simp [MapState.bytes, hpe, hde, hl]

theorem MapInits.takeInit (h : MapInits hash uri newest given tr.maps)
    (ha : Applies hash given ho tr.applied) (hinj : Set.InjOn hash {b | b ∈ given}) {path : Path}
    (hre : tr.initReady (some path) = true) :
    MapInits hash uri newest given (tr.takeInit hash (some path)).1.maps ∧
    (tr.takeInit hash (some path)).1.maps.map MapState.uri = tr.maps.map MapState.uri ∧
    ∃ bs, ((tr.takeInit hash (some path)).2.1.map (·.payload.bytes) <|> ho) = some bs ∧
      Applies hash given (some bs) (tr.takeInit hash (some path)).1.applied ∧
      (path = uri → newest = some bs) := by
  obtain ⟨map, hf, hmap⟩ := (any_eq_true _ _).mp hre
  have hmem := mem_of_find?_eq_some hf
  have huri : map.uri = path := by simpa using find?_some hf
  obtain ⟨map', bs, ht, huri', hi, hb, hg⟩ := (h.maps map hmem).takeMap (by simpa using hmap)
  have hr := h.replace path (f := fun _ => map') (fun _ _ => huri'.trans huri)
    (fun _ _ _ => hi) fun m hm _ => h.maps m hm
  have hto : (tr.maps.find? fun map => map.uri = path).bind (takeMap hash) =
      some (map', bs, hash bs) := by rw [hf, bind_some, ht]
  have hn (hp : path = uri) : newest = some bs := (h.maps map hmem).current (huri.trans hp) _ hb
  unfold Track.takeInit
  simp only [hto]
  split
  · next hs =>
    obtain ⟨held, hhe, rfl, hh⟩ := ha _ hs
    obtain rfl := hinj hhe hg hh
    exact ⟨hr.1, hr.2, held, rfl, ha, hn⟩
  · refine ⟨hr.1, hr.2, bs, rfl, fun has h => ?_, hn⟩
    cases h
    exact ⟨bs, hg, rfl, rfl⟩

theorem Session.poll_tracks (s : Session) (hash : List UInt8 → UInt64)
    (now : Nat) (out : List Release) :
    ∃ pool, pollTracks hash now 0 s.tracks s.pool out =
        ((s.poll hash now out).1.tracks, pool, (s.poll hash now out).2) ∧
      (s.poll hash now out).1.pool.Within pool := by
  unfold poll
  generalize pollTracks hash now 0 s.tracks s.pool out = polled
  obtain ⟨ts, pool, out'⟩ := polled
  exact ⟨pool, rfl, (Pool.evictAged_drops _ _ _ _).within⟩

namespace InitRun

variable {s : Session} {base : InitRun} {out out' : List Release}

theorem deliver_demuxers (s : Session) (r : InitRun) (rel : Release) (j : Nat) :
    (deliver s r rel).demuxers j =
      if j = rel.rendition then rel.init.map (·.payload.bytes) <|> r.demuxers j
      else r.demuxers j := by
  unfold deliver
  cases rel.init with
  | none => simp
  | some init =>
    by_cases hj : j = rel.rendition <;> simp [hj]

theorem foldl_deliver (s : Session) (out : List Release) (r : InitRun) :
    (out.foldl (deliver s) r).session = r.session ∧ (out.foldl (deliver s) r).newest = r.newest ∧
    (out.foldl (deliver s) r).given = r.given := by
  induction out generalizing r with
  | nil => exact ⟨rfl, rfl, rfl⟩
  | cons rel out ih => exact ih (deliver s r rel)

def Current (uri : Path) (served : List Served) : Prop :=
  ∀ x ∈ served, x.uri = uri → ∃ bytes, x.newest = some bytes ∧ x.holds = some bytes

structure Polled (hash : List UInt8 → UInt64) (uri : Path)
    (s : Session) (base : InitRun) (rendition : Nat)
    (track : Track) (out : List Release) : Prop where
  maps : MapInits hash uri (base.newest uri) base.given track.maps
  applied : Applies hash base.given ((out.foldl (deliver s) base).demuxers rendition) track.applied
  listed : ∀ e ∈ track.listed.entries, s.mapOf rendition e.1 = e.2.mapUri

structure PolledFrame (s : Session) (base : InitRun) (rendition : Nat) (track : Track) (pool : Pool)
    (out : List Release) (track' : Track) (pool' : Pool) (out' : List Release) : Prop where
  uris : track'.maps.map MapState.uri = track.maps.map MapState.uri
  pool : pool'.Within pool
  others : ∀ j, j ≠ rendition →
    (out'.foldl (deliver s) base).demuxers j = (out.foldl (deliver s) base).demuxers j

theorem PolledFrame.refl : PolledFrame s base k tr pool out tr pool out :=
  ⟨rfl, .refl _, fun _ _ => rfl⟩

theorem PolledFrame.trans (h : PolledFrame s base k tr pool out t' pool' out')
    (h' : PolledFrame s base k t' pool' out' t'' pool'' out'') :
    PolledFrame s base k tr pool out t'' pool'' out'' :=
  ⟨h'.uris.trans h.uris, h'.pool.trans h.pool, fun j hj => (h'.others j hj).trans (h.others j hj)⟩

theorem release_current (tr : Track) (hm : MapInits hash uri (base.newest uri) base.given tr.maps)
    (ha : Applies hash base.given ((out.foldl (deliver s) base).demuxers k) tr.applied)
    (hc : Current uri (out.foldl (deliver s) base).served)
    (hinj : Set.InjOn hash {b | b ∈ base.given})
    (hmap : s.mapOf k x.sequence = mapUri) (hr : x.rendition = k) (hre : tr.initReady mapUri = true)
    (hi : x.init = (tr.takeInit hash mapUri).2.1) :
    MapInits hash uri (base.newest uri) base.given (tr.takeInit hash mapUri).1.maps ∧
    (tr.takeInit hash mapUri).1.maps.map MapState.uri = tr.maps.map MapState.uri ∧
    Applies hash base.given (((out ++ [x]).foldl (deliver s) base).demuxers k)
      (tr.takeInit hash mapUri).1.applied ∧
    Current uri ((out ++ [x]).foldl (deliver s) base).served := by
  obtain rfl := hr
  have hd := deliver_demuxers s (out.foldl (deliver s) base) x x.rendition
  rw [if_pos rfl] at hd
  rw [foldl_append, foldl_cons, foldl_nil, hd]
  obtain ⟨-, hn, -⟩ := foldl_deliver s out base
  cases mapUri with
  | none =>
    refine ⟨hm, rfl, ?_, ?_⟩
    · rw [hi]
      exact ha
    · simpa [deliver, hmap] using hc
  | some path =>
    obtain ⟨hm, hu, bs, hh, ha, hp⟩ := hm.takeInit ha hinj hre
    rw [← hi] at hh
    refine ⟨hm, hu, hh ▸ ha, fun y hy hyu => ?_⟩
    have hs : (deliver s (out.foldl (deliver s) base) x).served =
      (out.foldl (deliver s) base).served ++
        [{ uri := path, newest := base.newest path, holds := some bs }] := by
      rw [← hh, ← hd, ← hn]
      simp only [deliver, hmap]
      rfl
    rw [hs] at hy
    rcases mem_append.mp hy with hy | hy
    · exact hc y hy hyu
    · obtain rfl := mem_singleton.mp hy
      obtain rfl : path = uri := hyu
      exact ⟨bs, hp rfl, rfl⟩

theorem Polled.pollHead {head : Listed} (h : Polled hash uri s base k tr out)
    (hc : Current uri (out.foldl (deliver s) base).served)
    (hinj : Set.InjOn hash {b | b ∈ base.given})
    (hmem : (seq, head) ∈ tr.listed.entries)
    (he : tr.pollHead hash k now pool seq head = some (t', pool', rel)) :
    Polled hash uri s base k t' (out ++ rel.toList) ∧
    Current uri ((out ++ rel.toList).foldl (deliver s) base).served ∧
    PolledFrame s base k tr pool out t' pool' (out ++ rel.toList) := by
  have hl : ∀ e ∈ (tr.removeHead seq).listed.entries, s.mapOf k e.1 = e.2.mapUri :=
    fun e he => h.listed e (mem_erase.mp he).1
  obtain ⟨_, _, _, _, ⟨rfl, rfl, rfl, -⟩ | ⟨x, rfl, rfl, rfl, -, hre, hr, rfl, -, hin⟩⟩ :=
    pollHead_cases he
  · simp only [toList_none, append_nil]
    exact ⟨⟨h.maps, h.applied, hl⟩, hc, rfl, ⟨.refl _, rfl⟩, fun _ _ => rfl⟩
  · have hot (j : Nat) (hj : j ≠ k) : ((out ++ [x]).foldl (deliver s) base).demuxers j =
        (out.foldl (deliver s) base).demuxers j := by
      rw [foldl_append, foldl_cons, foldl_nil, deliver_demuxers, if_neg (hr ▸ hj)]
    obtain ⟨hi, hu, hap, hs⟩ := release_current (tr.removeHead x.sequence) h.maps h.applied hc hinj
        (h.listed _ hmem) hr hre hin
    refine ⟨⟨hi, hap, ?_⟩, hs, hu, .refl _, hot⟩
    obtain ⟨maps, applied, ht⟩ := takeInit_eq hash (tr.removeHead x.sequence) head.mapUri
    rw [ht]
    exact hl

theorem Polled.pollLoop (hinj : Set.InjOn hash {b | b ∈ base.given}) (n : Nat)
    (h : Polled hash uri s base k tr out)
    (hc : Current uri (out.foldl (deliver s) base).served) {t' : Track} {pool' : Pool}
    {out' : List Release} (he : pollLoop hash k now n tr pool out = (t', pool', out')) :
    Polled hash uri s base k t' out' ∧ Current uri (out'.foldl (deliver s) base).served ∧
    PolledFrame s base k tr pool out t' pool' out' := by
  refine pollLoop_keeps (P := fun t' pool' out' => Polled hash uri s base k t' out' ∧
    Current uri (out'.foldl (deliver s) base).served ∧ PolledFrame s base k tr pool out t' pool' out')
    ?_ ⟨h, hc, .refl⟩ he
  rintro t pool out' next seq head ⟨h, hc, hfr⟩ hn hfi
  obtain ⟨hm, ha, hl, hp⟩ := t.skipTo_maps pool next seq
  generalize t.skipTo pool next seq = slid at hm ha hl hp ⊢
  have hs : Polled hash uri s base k slid.1 out' := ⟨hm ▸ h.maps, ha ▸ h.applied, hl ▸ h.listed⟩
  have hf : PolledFrame s base k tr _ out slid.1 slid.2 out' :=
    hfr.trans ⟨congrArg _ hm, hp, fun _ _ => rfl⟩
  refine ⟨⟨hs, hc, hf⟩, fun {_ _ _} hh => ?_⟩
  obtain ⟨hle, hse, hst⟩ := hs.pollHead hc hinj (hl ▸ mem_of_first? hfi) hh
  exact ⟨hle, hse, hf.trans hst⟩

/-- The tracks are polled one after another. A track polled before keeps its
demuxer, since a release goes to the demuxer of its own rendition. -/
theorem pollTracks_polled (h : ∀ (i : Nat) (tr : Track), ts[i]? = some tr →
      Polled hash uri s base (k + i) tr out) (hc : Current uri (out.foldl (deliver s) base).served)
    (hinj : Set.InjOn hash {b | b ∈ base.given})
    (he : Session.pollTracks hash now k ts pool out = (ts', pool', out')) :
    (∀ (i : Nat) (tr : Track), ts'[i]? = some tr → Polled hash uri s base (k + i) tr out' ∧
      ∃ old ∈ ts, tr.maps.map MapState.uri = old.maps.map MapState.uri) ∧
    Current uri (out'.foldl (deliver s) base).served ∧ pool'.Within pool ∧
    ∀ j < k, (out'.foldl (deliver s) base).demuxers j = (out.foldl (deliver s) base).demuxers j := by
  induction ts generalizing k pool out ts' pool' out' with
  | nil =>
    cases he
    exact ⟨fun i tr hi => (by simp at hi), hc, .refl _, fun _ _ => rfl⟩
  | cons tr ts ih =>
    obtain ⟨track₁, pool₁, out₁, tracks₂, rfl, hl, hr⟩ := pollTracks_cons he
    obtain ⟨hfi, hcurrent₁, hf⟩ := (h 0 tr rfl).pollLoop hinj _ hc hl
    have hta (i : Nat) (t : Track) (hi : ts[i]? = some t) :
        Polled hash uri s base (k + 1 + i) t out₁ := by
      have hold := h (i + 1) t hi
      rw [← add_assoc, add_right_comm] at hold
      exact ⟨hold.maps, (hf.others (k + 1 + i) (by omega)) ▸ hold.applied, hold.listed⟩
    obtain ⟨hd, hcurrent₂, hp, hb⟩ := ih hta hcurrent₁ hr
    refine ⟨fun i t hi => ?_, hcurrent₂, hp.trans hf.pool, fun j hj => ?_⟩
    · cases i with
      | zero =>
        cases hi
        exact ⟨⟨hfi.maps, (hb k (lt_succ_self _)) ▸ hfi.applied, hfi.listed⟩,
          tr, mem_cons_self, hf.uris⟩
      | succ i =>
        obtain ⟨ht, old, hold, hu⟩ := hd i t hi
        rw [add_assoc, add_comm 1 i] at ht
        exact ⟨ht, old, mem_cons_of_mem _ hold, hu⟩
    · rw [hb j (Nat.lt_succ_of_lt hj), hf.others j (Nat.ne_of_lt hj)]

structure Inv (hash : List UInt8 → UInt64) (uri : Path) (r : InitRun) : Prop where
  hold : PoolInits uri (r.newest uri) r.given r.session.pool
  maps : ∀ track ∈ r.session.tracks, MapInits hash uri (r.newest uri) r.given track.maps
  applied : ∀ (i : Nat) (track : Track), r.session.tracks[i]? = some track →
    Applies hash r.given (r.demuxers i) track.applied
  apart : ∀ track ∈ r.session.tracks, Apart uri track r.session.pool
  current : Current uri r.served

namespace Inv

theorem of_tracks (hp : PoolInits uri (r.newest uri) r.given r.session.pool)
    (hc : Current uri r.served)
    (ht : ∀ (i : Nat) (track : Track), r.session.tracks[i]? = some track →
      MapInits hash uri (r.newest uri) r.given track.maps ∧
      Applies hash r.given (r.demuxers i) track.applied ∧
        Apart uri track r.session.pool) : Inv hash uri r := by
  refine ⟨hp, fun tr hmem => ?_, fun i tr hi => (ht i tr hi).2.1, fun tr hmem => ?_, hc⟩ <;>
    obtain ⟨i, hi⟩ := getElem?_of_mem hmem
  · exact (ht i tr hi).1
  · exact (ht i tr hi).2.2

theorem poll (h : Inv hash uri r) (hinj : Set.InjOn hash {b | b ∈ r.given}) (now : Nat) :
    Inv hash uri ((r.session.poll hash now []).2.foldl (deliver r.session)
      { r with session := (r.session.poll hash now []).1 }) := by
  obtain ⟨pool, ht, hw⟩ := r.session.poll_tracks hash now []
  generalize r.session.poll hash now [] = polled at ht hw
  obtain ⟨sess, out⟩ := polled
  have hst (i : Nat) (tr : Track) (hi : r.session.tracks[i]? = some tr) :
      Polled hash uri r.session { r with session := sess } (0 + i) tr [] := by
    rw [zero_add]
    refine ⟨h.maps tr (mem_of_getElem? hi), h.applied i tr hi, fun e he => ?_⟩
    simp only [Session.mapOf, hi, bind_eq_bind, bind_some, get?_of_mem he]
  obtain ⟨hd, hc, hpo, -⟩ := pollTracks_polled hst h.current hinj ht
  obtain ⟨hs, hn, hg⟩ := foldl_deliver r.session out { r with session := sess }
  have hl := hw.trans hpo
  refine of_tracks ?_ hc ?_ <;> rw [hs, hn, hg]
  · exact h.hold.within hl
  · intro i tr hi
    obtain ⟨hp, old, hold, hu⟩ := hd i tr hi
    rw [zero_add] at hp
    exact ⟨hp.maps, hp.applied, (h.apart old hold).of_uris hu hl.held.subset⟩

end Inv

end InitRun

end Restream.Hls
