import Restream.HlsInitRun
import Restream.Tables

/-! The newest init of a map through the steps of a session: uploads, playlists,
refused inits and seeds. -/

namespace Restream.Hls

open Exec List Option Function List.Subset

variable {hash : List UInt8 → UInt64} {uri : Path} {newest newest' : Option (List UInt8)}
  {given : List (List UInt8)} {tr : Track} {maps : List MapState} {bytes : List UInt8}

theorem MapInit.give {map : MapState} (h : MapInit hash uri newest given map)
    (hn : map.uri = uri → ∀ b ∈ map.bytes, newest' = some b) :
    MapInit hash uri newest' (given ++ [bytes]) map where
  pending pay hp := mem_append_left _ (h.pending pay hp)
  delivered ha hd := by
    obtain ⟨pay, hl, hh, hmem⟩ := h.delivered ha hd
    exact ⟨pay, hl, hh, mem_append_left _ hmem⟩
  current := hn

theorem MapInits.give (h : MapInits hash uri newest given maps)
    (hn : ∀ map ∈ maps, map.uri = uri → ∀ b ∈ map.bytes, newest' = some b) :
    MapInits hash uri newest' (given ++ [bytes]) maps :=
  ⟨h.unique, fun map hmap => (h.maps map hmap).give (hn map hmap)⟩

theorem Applies.give (h : Applies hash given ho applied) :
    Applies hash (given ++ [bytes]) ho applied := by
  intro has ha
  obtain ⟨b, hb, hh⟩ := h has ha
  exact ⟨b, mem_append_left _ hb, hh⟩

theorem PoolInits.give (h : PoolInits uri newest given pool)
    (hh : ∀ x ∈ pool.held, x.path = uri → newest' = some x.payload.bytes) :
    PoolInits uri newest' (given ++ [bytes]) pool where
  once := h.once
  held x hx := ⟨mem_append_left _ (h.held x hx).1, hh x hx⟩
  seeded x hx := mem_append_left _ (h.seeded x hx)

theorem PoolInits.countDuplicate (h : PoolInits uri newest given pool) :
    PoolInits uri newest given pool.countDuplicate := h.within ⟨.refl _, rfl⟩

theorem Pool.hold_within (pool : Pool) (path : Path) (pay : Payload) (now : Nat) :
    (pool.hold path pay now).held.Sublist
      ((pool.takeHeld path).1.held ++ [{ path := path, payload := pay, at' := now }]) ∧
    (pool.hold path pay now).seeded = pool.seeded :=
  ⟨(evictOver_drops _ _).frame.1,
    (evictOver_drops _ _).frame.2.1.trans (pool.takeHeld_within path).seeded⟩

theorem PoolInits.hold (h : PoolInits uri newest given pool) (now : Nat)
    (hn : newest' = if path = uri then some bytes else newest) :
    PoolInits uri newest' (given ++ [bytes]) (pool.hold path { bytes := bytes, upload := none } now) := by
  obtain ⟨hh, hsa⟩ := pool.hold_within path { bytes := bytes, upload := none } now
  have hg := Pool.not_held_of_taken h.once path
  refine ⟨(hh.map _).nodup (Pool.paths_added h.once path _ now), fun x hx => ?_, fun x hx => ?_⟩
  · rcases mem_append.mp (hh.subset hx) with hx | hx
    · have hold := h.held x ((pool.takeHeld_within path).held.subset hx)
      refine ⟨mem_append_left _ hold.1, fun huri => ?_⟩
      rw [hn, if_neg (huri ▸ (hg x hx).symm)]
      exact hold.2 huri
    · obtain rfl := mem_singleton.mp hx
      exact ⟨mem_append_right _ (mem_singleton_self _), fun huri => by rw [hn, if_pos huri]⟩
  · rw [hsa] at hx
    exact mem_append_left _ (h.seeded x hx)

theorem MapInits.setPending (h : MapInits hash uri newest given tr.maps)
    (hn : newest' = if path = uri then some bytes else newest) :
    MapInits hash uri newest' (given ++ [bytes])
      (tr.setPending path { bytes := bytes, upload := none }).maps ∧
    (tr.setPending path { bytes := bytes, upload := none }).maps.map MapState.uri =
      tr.maps.map MapState.uri := by
  refine h.replace path
    (f := fun map => { map with pending := some { bytes := bytes, upload := none } })
    (fun _ => id) (fun map hmap hpa => ?_) fun map hmap hpa => ?_
  · refine ⟨fun pay hp => ?_, fun ha hd => ?_, fun huri b hb => ?_⟩
    · cases hp
      exact mem_append_right _ (mem_singleton_self _)
    · obtain ⟨pay, hl, hh, hmem⟩ := (h.maps map hmap).delivered ha hd
      exact ⟨pay, hl, hh, mem_append_left _ hmem⟩
    · cases hb
      rw [hn, if_pos (hpa ▸ huri)]
  · refine (h.maps map hmap).give fun huri b hb => ?_
    rw [hn, if_neg fun heq => hpa (huri.trans heq.symm)]
    exact (h.maps map hmap).current huri b hb

theorem MapInits.voidMap (h : MapInits hash uri newest given tr.maps)
    (hn : newest' = if path = uri then none else newest) :
    MapInits hash uri newest' given (tr.voidMap path).maps ∧
    (tr.voidMap path).maps.map MapState.uri = tr.maps.map MapState.uri := by
  refine h.replace path (f := fun map => { map with pending := none, delivered := none, last := none })
    (fun _ => id) (fun map hmap hp => ?_) fun map hmap hp => ?_
  · exact ⟨(by rintro _ ⟨⟩), (by rintro _ ⟨⟩), (by rintro _ _ ⟨⟩)⟩
  · refine { h.maps map hmap with current := fun huri b hb => ?_ }
    rw [hn, if_neg fun heq => hp (huri.trans heq.symm)]
    exact (h.maps map hmap).current huri b hb

namespace InitRun.Inv

variable {r : InitRun}

variable {ix now : Nat} {path : Path}

theorem new_track : MapInits hash uri newest given (Track.new none).maps ∧
    Applies hash given ho (Track.new none).applied ∧ Apart uri (Track.new none) pool :=
  ⟨.nil, fun _ ha => (by cases ha), fun hk => (by cases hk)⟩

section

variable (h : Inv hash uri r)

include h

theorem carried (hp : sess.pool.Within r.session.pool)
    (ht : ∀ (i : Nat) (tr : Track), sess.tracks[i]? = some tr → tr.CarriedTo r.session i) :
    Inv hash uri { r with session := sess } := by
  refine of_tracks (h.hold.within hp) h.current fun i tr hi => ⟨?_, ?_, ?_⟩
  · rcases (ht i tr hi).maps with hnil | ⟨old, hold, hm⟩
    · rw [hnil]
      exact .nil
    · rw [hm]
      exact h.maps old hold
  · rcases (ht i tr hi).applied with hn | ⟨old, hold, hap⟩
    · rw [hn]
      exact fun _ ha => nomatch ha
    · rw [hap]
      exact h.applied i old hold
  · rcases (ht i tr hi).maps with hnil | ⟨old, hold, hm⟩
    · intro hk
      rw [knowsMap_iff, hnil] at hk
      cases hk
    · exact (h.apart old hold).of_uris (congrArg _ hm) hp.held.subset

theorem setTrack (htr : r.session.tracks[ix]? = some tr)
    (hf : Fitted hash uri (r.newest uri) r.given paths t' pool') (ha : t'.applied = tr.applied)
    (hp : pool'.Within r.session.pool) : Inv hash uri { r with
      session := { r.session with pool := pool', tracks := r.session.tracks.set ix t' } } := by
  refine of_tracks hf.hold h.current fun i t hi => ?_
  rcases getElem?_set_cases hi with ⟨rfl, rfl⟩ | ⟨-, hi⟩
  · exact ⟨hf.maps, ha ▸ h.applied _ tr htr, hf.apart⟩
  · have hmem := mem_of_getElem? hi
    exact ⟨h.maps t hmem, h.applied i t hi, (h.apart t hmem).of_uris rfl hp.held.subset⟩

theorem followMedia (ix now : Nat) {media : MediaPlaylist}
    (hk : ∀ tr ∈ r.session.tracks[ix]?, tr.KeepsInit uri (r.newest uri) media.maps r.session.pool) :
    Inv hash uri { r with session := r.session.followMedia ix media now } := by
  unfold Session.followMedia
  split
  · exact h
  · next tr ht =>
    have hmem := mem_of_getElem? ht
    obtain ⟨hf, ha, hp⟩ := Fitted.onFollowed
      ⟨h.maps tr hmem, h.hold, h.apart tr hmem, hk tr ht⟩ (refl _) now
    exact h.setTrack ht hf ha hp

theorem onPlaylist (hg : r.ReplacesInit uri (.playlist path pl now)) :
    Inv hash uri { r with session := (r.session.onPlaylist path pl now).1 } := by
  cases pl with
  | master master =>
    refine h.carried ?_ fun i tr hi => (r.session.onMaster_from master hi).carried
    rw [Session.onPlaylist, Session.onMaster_pool]
    exact .refl _
  | media media =>
    have hs (i : Nat) (tr : Track) (hi : r.session.tracks[i]? = some tr) : tr.CarriedTo r.session i :=
      ⟨.inr ⟨tr, mem_of_getElem? hi, rfl⟩, .inr ⟨tr, hi, rfl⟩⟩
    simp only [ReplacesInit, Session.followed] at hg
    rw [Session.onPlaylist]
    split
    · exact h.carried (r.session.onOtherVariant_drops path media).within hs
    · next hfollows =>
      have hn : Inv hash uri { r with session := { r.session with
          tracks := r.session.tracks.modify 0 fun tr => { tr with path := some path } } } := by
        refine h.carried (.refl _) fun i tr hi => ?_
        rw [getElem?_modify] at hi
        obtain ⟨old, hold, rfl⟩ := map_eq_some_iff.mp hi
        have hc := hs i old hold
        split <;> exact ⟨hc.maps, hc.applied⟩
      refine hn.followMedia 0 now fun tr htr => ?_
      rw [hfollows] at hg
      obtain ⟨old, hold, rfl⟩ := map_eq_some_iff.mp ((getElem?_modify ..).symm.trans htr)
      exact (hg old hold).frame rfl (.refl _)
    · next hfollows =>
      rw [hfollows] at hg
      exact h.followMedia _ now hg

theorem voidMap (hg : r.ReplacesInit uri (.voidMap path)) : Inv hash uri { r with
      session := r.session.voidMap path, newest := update r.newest path none } := by
  have hn : update r.newest path none uri = if path = uri then none else r.newest uri := by
    rw [update_apply]
    simp only [eq_comm]
  refine of_tracks ⟨h.hold.once, fun x hx => ⟨(h.hold.held x hx).1, fun huri => ?_⟩,
    fun x hx => ?_⟩ h.current
    fun i t hi => ?_
  · dsimp only
    rw [hn, if_neg fun heq => hg heq x hx huri]
    exact (h.hold.held x hx).2 huri
  · exact h.hold.seeded x (mem_filter.mp hx).1
  · simp only [Session.voidMap, getElem?_map] at hi
    obtain ⟨old, hget, rfl⟩ := map_eq_some_iff.mp hi
    have hold := mem_of_getElem? hget
    obtain ⟨hm, hu⟩ := (h.maps old hold).voidMap hn
    exact ⟨hm, h.applied i old hget, (h.apart old hold).of_uris hu (refl _)⟩

end

theorem give_newest (r : InitRun) (path : Path) (bytes : List UInt8) :
    (r.give path bytes).newest uri = if path = uri then some bytes else r.newest uri := by
  simp only [give, update_apply, eq_comm]

section

variable (h : Inv hash uri r)

include h

theorem unmapped (hu : ∀ tr ∈ r.session.tracks, tr.knowsMap path = false)
    (hpo : PoolInits uri ((r.give path bytes).newest uri) (r.give path bytes).given sess.pool)
    (hh : ∀ x ∈ sess.pool.held, x ∈ r.session.pool.held ∨ x.path = path)
    (htr : ∀ (i : Nat) (tr : Track), sess.tracks[i]? = some tr →
      ∃ old, r.session.tracks[i]? = some old ∧ tr.maps = old.maps ∧
        tr.applied = old.applied) : Inv hash uri { r.give path bytes with session := sess } := by
  refine of_tracks hpo h.current fun i t hi => ?_
  obtain ⟨old, hold, hm, ha⟩ := htr i t hi
  have hmem := mem_of_getElem? hold
  refine ⟨?_, ha ▸ (h.applied i old hold).give, fun hk x hx huri => ?_⟩
  · rw [hm]
    refine (h.maps old hmem).give fun map hmap huri b hb => ?_
    rw [give_newest, if_neg]
    · exact ((h.maps old hmem).maps map hmap).current huri b hb
    · rintro rfl
      have hk : old.knowsMap path = true := knowsMap_iff.mpr (mem_map.mpr ⟨map, hmap, huri⟩)
      rw [hu old hmem] at hk
      cases hk
  · have hk : old.knowsMap uri = true := by rwa [knowsMap_iff, ← hm, ← knowsMap_iff]
    rcases hh x hx with hx | hp
    · exact h.apart old hmem hk x hx huri
    · rw [← hp, huri] at hu
      rw [hu old hmem] at hk
      cases hk

theorem kept (bytes : List UInt8) (hh : path = uri → ∀ x ∈ r.session.pool.held, x.path ≠ uri) :
    PoolInits uri ((r.give path bytes).newest uri) (r.give path bytes).given r.session.pool := by
  refine h.hold.give fun x hx huri => ?_
  rw [give_newest, if_neg fun hp => hh hp x hx huri]
  exact (h.hold.held x hx).2 huri

section
variable (hg : r.ReplacesInit uri (.segment path bytes now))
include hg

theorem mapped (hin : r.session.tracks.findIdx? (·.knowsMap path) = some ix) :
    Inv hash uri { r.give path bytes with session := { r.session with
      tracks := r.session.tracks.modify ix fun tr =>
        tr.setPending path { bytes := bytes, upload := none } } } := by
  obtain ⟨hlt, hkn, -⟩ := findIdx?_eq_some_iff_getElem.mp hin
  have hn : (r.give path bytes).newest uri = _ := give_newest r path bytes
  refine of_tracks (h.kept bytes ?_) h.current fun i t hi => ?_
  · rintro rfl
    exact h.apart _ (getElem_mem hlt) hkn
  · rw [getElem?_modify] at hi
    obtain ⟨old, hold, rfl⟩ := map_eq_some_iff.mp hi
    have hmem := mem_of_getElem? hold
    have hm := h.maps old hmem
    have ha : Applies hash (r.given ++ [bytes]) _ _ := (h.applied i old hold).give
    split
    · obtain ⟨hmaps, hu⟩ := hm.setPending hn
      exact ⟨hmaps, ha, (h.apart old hmem).of_uris hu (refl _)⟩
    · next hne =>
      refine ⟨hm.give fun map hmap huri b hb => ?_, ha, h.apart old hmem⟩
      by_cases hp : path = uri
      · subst hp
        rcases (hg rfl).1 (old, i) (mk_mem_zipIdx_iff_getElem?.mpr hold) with hs | ha
        · exact absurd (Option.some.inj (hin.symm.trans hs)) hne
        · rw [hn, if_pos rfl, ha map hmap huri b hb]
      · rw [hn, if_neg hp]
        exact (hm.maps map hmap).current huri b hb

theorem onSegment : Inv hash uri { r.give path bytes with
      session := (r.session.onSegment path { bytes := bytes, upload := none } now).1 } := by
  unfold Session.onSegment
  split
  · next ix hin => exact h.mapped hg hin
  · next hn =>
    have hu : ∀ tr ∈ r.session.tracks, tr.knowsMap path = false := by
      simpa using hn
    have hs (i : Nat) (tr : Track) (hi : r.session.tracks[i]? = some tr) :
        ∃ old, r.session.tracks[i]? = some old ∧ tr.maps = old.maps ∧ tr.applied = old.applied :=
      ⟨tr, hi, rfl, rfl⟩
    split
    · next ix seq ls he =>
      have hpo := h.kept bytes fun hp => (hg hp).2 (.inl (by rw [← hp, he]; rfl))
      split
      · exact h.unmapped hu hpo.countDuplicate (fun x hx => .inl hx) hs
      · refine h.unmapped hu hpo (fun x hx => .inl hx) fun i tr hi => ?_
        rw [getElem?_modify] at hi
        obtain ⟨old, hold, rfl⟩ := map_eq_some_iff.mp hi
        split <;> exact ⟨old, hold, rfl, rfl⟩
    · split
      · next ho =>
        have hpo := h.kept bytes fun hp => (hg hp).2 (.inr (hp ▸ ho.2))
        exact h.unmapped hu hpo (fun x hx => .inl hx) hs
      · refine h.unmapped hu ?_ (fun x hx => ?_) hs
        · exact h.hold.hold now (give_newest r path bytes)
        · rcases mem_append.mp ((Pool.hold_within _ _ _ _).1.subset hx) with hx | hx
          · exact .inl ((Pool.takeHeld_within _ _).held.subset hx)
          · exact .inr (congrArg Held.path (mem_singleton.mp hx))

end

theorem ensureMap (ht : r.session.tracks[ix]? = some tr)
    (hk : tr.KeepsInit uri (r.newest uri) [path] r.session.pool) :
    Inv hash uri { r with session := { r.session with
      pool := (tr.ensureMap path r.session.pool).2
      tracks := r.session.tracks.set ix (tr.ensureMap path r.session.pool).1 } } := by
  have hmem := mem_of_getElem? ht
  obtain ⟨hf, ha, hp⟩ := Fitted.ensureMap
    ⟨h.maps tr hmem, h.hold, h.apart tr hmem, hk⟩ (mem_singleton_self path)
  exact h.setTrack ht hf ha hp

theorem seed {seed : Seed}
    (hag : seed.uri = uri → ∀ b ∈ r.newest uri, b = seed.bytes) : Inv hash uri (r.seed seed) := by
  have hm (b : List UInt8) (hb : r.newest uri = some b) :
      (r.give seed.uri seed.bytes).newest uri = some b := by
    rw [give_newest]
    split
    · next huri => rw [hag huri b hb]
    · exact hb
  have hp : PoolInits uri ((r.give seed.uri seed.bytes).newest uri) (r.give seed.uri seed.bytes).given
      r.session.pool :=
    h.hold.give fun x hx huri => hm _ ((h.hold.held x hx).2 huri)
  have hma (tr : Track) (hmem : tr ∈ r.session.tracks) : MapInits hash uri
      ((r.give seed.uri seed.bytes).newest uri) (r.give seed.uri seed.bytes).given tr.maps :=
    (h.maps tr hmem).give fun map hmap huri b hb =>
      hm b (((h.maps tr hmem).maps map hmap).current huri b hb)
  unfold InitRun.seed Session.seedInit
  split
  · exact ⟨hp, hma, fun i t hi => (h.applied i t hi).give, h.apart, h.current⟩
  · have hpa : Inv hash uri { r.give seed.uri seed.bytes with session := { r.session with
        pool := { r.session.pool with seeded :=
          (r.session.pool.seeded.filter fun seeded => seeded.1 ≠ seed.uri) ++
            [(seed.uri, seed.bytes)] }
        tracks := r.session.tracks ++
          replicate (seed.rendition + 1 - r.session.tracks.length) (Track.new none) } } := by
      refine of_tracks ⟨hp.once, hp.held, fun x hx => ?_⟩ h.current fun i t hi => ?_
      · rcases mem_append.mp hx with hx | hx
        · exact hp.seeded x (mem_of_mem_filter hx)
        · obtain rfl := mem_singleton.mp hx
          exact mem_append_right _ (mem_singleton_self _)
      · rw [getElem?_append] at hi
        split at hi
        · have hmem := mem_of_getElem? hi
          exact ⟨hma t hmem, (h.applied i t hi).give, h.apart t hmem⟩
        · rw [eq_of_mem_replicate (mem_of_getElem? hi)]
          exact new_track
    dsimp only
    split
    · exact hpa
    · next tr htr =>
      refine hpa.ensureMap htr fun huri => .inl fun x hx hxu => ?_
      obtain rfl := mem_singleton.mp huri
      rcases mem_append.mp hx with hx | hx
      · exact absurd hxu (of_decide_eq_true (mem_filter.mp hx).2)
      · rw [mem_singleton.mp hx]
        exact (give_newest r _ seed.bytes).trans (if_pos rfl)

end

theorem start {limits : SessionLimits} {seeds : List Seed}
    (hag : ∀ a ∈ seeds, ∀ b ∈ seeds, a.uri = uri → b.uri = uri → a.bytes = b.bytes) :
    Inv hash uri (start limits seeds) := by
  suffices hseeds : ∀ (seeded : List Seed) (r : InitRun), seeded ⊆ seeds → Inv hash uri r →
      (∀ b ∈ r.newest uri, ∃ a ∈ seeds, a.uri = uri ∧ a.bytes = b) →
      Inv hash uri (seeded.foldl InitRun.seed r) by
    refine hseeds seeds _ (refl _) (of_tracks ⟨nodup_nil, ?_, ?_⟩ ?_ fun i t hi => ?_)
      (by rintro _ ⟨⟩)
    · rintro _ ⟨⟩
    · rintro _ ⟨⟩
    · rintro _ ⟨⟩
    · rw [mem_singleton.mp (mem_of_getElem? hi)]
      exact new_track
  intro seeded
  induction seeded with
  | nil => exact fun r _ h _ => h
  | cons seed seeded ih =>
    intro r hsub h hn
    have hmem := hsub mem_cons_self
    refine ih _ (fun x hx => hsub (mem_cons_of_mem _ hx)) (h.seed fun huri b hb => ?_) fun b hb => ?_
    · obtain ⟨a, ha, hau, rfl⟩ := hn b hb
      exact hag a ha seed hmem hau huri
    · have hg : (if seed.uri = uri then some seed.bytes else r.newest uri) = some b :=
        (give_newest r seed.uri seed.bytes).symm.trans hb
      split at hg
      · next huri => exact ⟨seed, hmem, huri, Option.some.inj hg⟩
      · exact hn b hg

theorem step (h : Inv hash uri r) (hinj : Set.InjOn hash {b | b ∈ r.given})
    (hg : r.ReplacesInit uri e)
    (hs : r.step hash e = some r') : Inv hash uri r' := by
  cases e with
  | segment path bytes now =>
    cases hs
    exact h.onSegment hg
  | playlist path pl now =>
    cases hs
    exact h.onPlaylist hg
  | voidMap path =>
    cases hs
    exact h.voidMap hg
  | poll now =>
    cases hs
    exact h.poll hinj now

end InitRun.Inv

namespace InitRun

theorem given_subset {r r' : InitRun} (hs : r.step hash e = some r') :
    {b | b ∈ r.given} ⊆ {b | b ∈ r'.given} := by
  cases e with
  | segment path bytes now =>
    cases hs
    exact fun b hb => mem_append_left _ hb
  | playlist | voidMap =>
    cases hs
    exact fun b hb => hb
  | poll now =>
    cases hs
    intro b hb
    rw [(foldl_deliver _ _ _).2.2]
    exact hb

/-- Whenever a segment listed under `uri` is released, the demuxer of its
rendition holds the newest bytes given for `uri` since the map was voided. -/
theorem init_in_force (hash : List UInt8 → UInt64) (uri : Path)
    {limits : SessionLimits} {seeds : List Seed}
    (hseeds : ∀ a ∈ seeds, ∀ b ∈ seeds, a.uri = uri → b.uri = uri → a.bytes = b.bytes) {r : InitRun}
    (hrun : Reachable (step hash) (ReplacesInit uri) (start limits seeds) r)
    (hinj : Set.InjOn hash {b | b ∈ r.given}) :
    ∀ x ∈ r.served, x.uri = uri → ∃ bytes, x.newest = some bytes ∧ x.holds = some bytes := by
  have hinv := hrun.invariant (fun r => Set.InjOn hash {b | b ∈ r.given} → Inv hash uri r)
    (fun _ _ _ h hguard hstep hinj =>
      have hinj := hinj.mono (given_subset hstep)
      (h hinj).step hinj hguard hstep)
    (fun _ => .start hseeds)
  exact (hinv hinj).current

def firstByte (bytes : List UInt8) : UInt64 := (bytes.headD 0).toUInt64

def mappedListing (mediaSequence : Nat) (paths : List Path) : Playlist :=
  .media
    { targetDuration := 2000
      mediaSequence := mediaSequence
      segments := paths.zipIdx.map fun (path, n) =>
        { sequence := mediaSequence + n, path := path, duration := 2000, discontinuity := false
          mapUri := some "init.mp4" }
      ended := false
      mapUri := some "init.mp4" }

def newInitEvents : List InitEvent :=
  [.segment "init.mp4" [1] 0, .segment "v0.m4s" [2] 0,
    .playlist "v.m3u8" (mappedListing 0 ["v0.m4s"]) 0,
    .poll 0, .segment "init.mp4" [3] 2000, .segment "v1.m4s" [4] 2000,
    .playlist "v.m3u8" (mappedListing 0 ["v0.m4s", "v1.m4s"]) 2000, .poll 2000]

theorem init_in_force_replaced : ∃ r, Reachable (step firstByte) (ReplacesInit "init.mp4")
      (start { holdSegments := 4, holdBytes := 100, idleFloor := 10000 } [⟨0, "init.mp4", [9]⟩]) r ∧
    r.served.map (fun x => (x.uri, x.newest)) = [("init.mp4", some [1]), ("init.mp4", some [3])] ∧
    ∀ x ∈ r.served, x.uri = "init.mp4" → ∃ bytes, x.newest = some bytes ∧ x.holds = some bytes := by
  refine exists_reachable_of_observed newInitEvents
    (fun r => r.served.map (fun x => (x.uri, x.newest)) =
      [("init.mp4", some [1]), ("init.mp4", some [3])] ∧ r.given = [[9], [1], [2], [3], [4]])
    (by decide +kernel) fun r hreach ⟨hserved, hgiven⟩ => ⟨hserved, ?_⟩
  have hinj : Set.InjOn firstByte {b | b ∈ r.given} := by
    rw [hgiven]
    intro a ha b hb
    revert a b
    simp only [Set.mem_ofPred_eq]
    decide
  exact init_in_force firstByte "init.mp4" (by simp) hreach hinj

def sharedMapEvents : List InitEvent :=
  [.playlist "master.m3u8" (.master
      { variants := [{ bandwidth := 1, path := "v.m3u8", audioGroup := some "audio" }]
        audio :=
          [{ groupId := "audio", default := true, autoselect := true, path := some "a.m3u8" }] }) 0,
    .playlist "v.m3u8" (mappedListing 0 ["v0.m4s"]) 0,
    .playlist "a.m3u8" (mappedListing 0 ["a0.m4s"]) 0,
    .segment "init.mp4" [2] 0, .segment "v0.m4s" [3] 0, .segment "a0.m4s" [4] 0, .poll 0]

theorem shared_map_keeps_old_init : ∃ r,
    Reachable (step firstByte) anyLabel (start { holdSegments := 4, holdBytes := 100, idleFloor := 10000 }
      [⟨0, "init.mp4", [1]⟩, ⟨1, "init.mp4", [1]⟩]) r ∧
    r.given = [[1], [1], [2], [3], [4]] ∧
    r.served = [⟨"init.mp4", some [2], some [2]⟩, ⟨"init.mp4", some [2], some [1]⟩] :=
  exists_reachable_of_run sharedMapEvents (by decide +kernel)

end InitRun

end Restream.Hls
