import Mathlib.Data.List.Nodup
import Restream.HlsBreakListing

/-! The generation of a release is the one the playlists give its epoch and
sequence, so two tracks fed the same playlists agree wherever both release. -/

namespace Restream.Hls

open Exec List Track

namespace Timeline

def key (x : Nat × Nat × Nat) : Nat × Nat := (x.1, x.2.1)

theorem number_keys (epoch : Nat) (restarted : Bool) (count : Nat) (breaks : List (Nat × Bool)) :
    (number epoch restarted count breaks).2.map key = breaks.map fun b => (epoch, b.1) := by
  induction breaks generalizing restarted count with
  | nil => rfl
  | cons b rest ih => simp only [number, map_cons, key, ih]

/-- Generations are assigned once, and in the current epoch up to its window. -/
structure Ordered (t : Timeline) : Prop where
  epochs : ∀ x ∈ t.assigned, x.1 ≤ t.epoch
  window : ∀ x ∈ t.assigned, x.1 = t.epoch → ∃ w, t.window = some w ∧ x.2.1 ≤ w.last
  distinct : (t.assigned.map key).Nodup

variable {epoch count : Nat} {media : MediaPlaylist} {t : Timeline}

theorem mem_number (hx : x ∈ (number epoch restarted count breaks).2) :
    x.1 = epoch ∧ ∃ b ∈ breaks, b.1 = x.2.1 := by
  have hkey := mem_map_of_mem (f := key) hx
  rw [number_keys] at hkey
  obtain ⟨b, hb, heq⟩ := mem_map.mp hkey
  obtain ⟨he, hs⟩ := Prod.mk.inj heq
  exact ⟨he.symm, b, hb, hs⟩

theorem Ordered.extend {t' : Timeline} (h : t.Ordered) (hnum : media.Numbered)
    (hl : media.segments.getLast? = some last)
    (ha : t'.assigned = t.assigned ++ (number t'.epoch restarted count (added media known)).2)
    (hw : t'.window = some (Windowed.ofPlaylist media last)) (he : t.epoch ≤ t'.epoch)
    (hkn : ∀ x ∈ t.assigned, x.1 = t'.epoch → x.2.1 ≤ last.sequence ∧ ∃ k ∈ known, x.2.1 ≤ k) :
    t'.Ordered := by
  refine ⟨fun x hx => ?_, fun x hx hc => ⟨_, hw, ?_⟩, ?_⟩
  · rw [ha] at hx
    rcases mem_append.mp hx with hold | hnew
    · exact (h.epochs x hold).trans he
    · exact (mem_number hnew).1.le
  · rw [ha] at hx
    rcases mem_append.mp hx with hold | hnew
    · exact (hkn x hold hc).1
    · obtain ⟨-, b, hb, hse⟩ := mem_number hnew
      obtain ⟨-, s, hs, heq⟩ := BreakView.Tracked.mem_added hb
      rw [← hse, ← heq]
      exact (hnum.le_last hl hs).2
  · rw [ha, map_append, number_keys]
    refine nodup_append'.mpr ⟨h.distinct, ?_, ?_⟩
    · rw [added, map_map, List.Nodup, pairwise_map]
      exact (hnum.sorted.filter _).imp fun hlt heq => hlt.ne (Prod.mk.inj heq).2
    rintro _ hold hnew
    obtain ⟨x, hx, rfl⟩ := mem_map.mp hold
    obtain ⟨b, hb, heq⟩ := mem_map.mp hnew
    obtain ⟨he', hse⟩ := Prod.mk.inj heq
    obtain ⟨-, k, hk, hle⟩ := hkn x hx he'.symm
    have hlt := (BreakView.Tracked.mem_added hb).1 k hk
    omega

theorem restarts_eq (t : Timeline) {tr : Track} (hw : tr.window = t.window) (media : MediaPlaylist)
    (last : SegmentEntry) : t.restarts media last = tr.startsNewEpoch media last.sequence := by
  simp only [restarts, startsNewEpoch, hw]

theorem Ordered.follow (h : t.Ordered) (hnum : media.Numbered) : (t.follow media).Ordered := by
  unfold Timeline.follow
  cases hl : media.segments.getLast? with
  | none => exact h
  | some last =>
    dsimp only
    cases hr : t.restarts media last with
    | true =>
      refine h.extend hnum hl rfl rfl (Nat.le_succ _) fun x hx heq => ?_
      have hle := h.epochs x hx
      rw [heq] at hle
      exact absurd hle (Nat.not_succ_le_self _)
    | false =>
      refine h.extend hnum hl rfl rfl le_rfl fun x hx heq => ?_
      obtain ⟨w, hw, hle⟩ := h.window x hx heq
      exact ⟨hle.trans (window_le hr hw).2, w.last, by rw [hw]; rfl, hle⟩

theorem ofPlaylists_concat (fed : List MediaPlaylist) (media : MediaPlaylist) :
    ofPlaylists (fed ++ [media]) = (ofPlaylists fed).follow media := by
  simp [ofPlaylists]

theorem ofPlaylists_ordered (hnum : ∀ media ∈ fed, media.Numbered) : (ofPlaylists fed).Ordered := by
  induction fed using reverseRecOn with
  | nil => exact ⟨by rintro x ⟨⟩, by rintro x ⟨⟩, nodup_nil⟩
  | append_singleton fed media ih =>
    rw [ofPlaylists_concat]
    exact (ih fun m hm => hnum m (mem_append_left _ hm)).follow (hnum media (by simp))

theorem Ordered.unique (h : t.Ordered) (hg : (epoch, seq, g) ∈ t.assigned)
    (hg' : (epoch, seq, g') ∈ t.assigned) : g = g' := by
  have heq := inj_on_of_nodup_map h.distinct hg hg' rfl
  exact (Prod.mk.inj (Prod.mk.inj heq).2).2

end Timeline

/-- The breaks of a listing, counted from `generation` on, are the assigned
generations, and end with `count`. -/
def Counted (assigned : List (Nat × Nat × Nat)) (epoch : Nat) :
    (fresh : Bool) → (generation : Nat) → List (Nat × Bool) → (count : Nat) → Prop
  | _, generation, [], count => generation = count
  | fresh, generation, (sequence, discontinuity) :: rest, count =>
    (epoch, sequence, generation + (discontinuity && !fresh).toNat) ∈ assigned ∧
      Counted assigned epoch false (generation + (discontinuity && !fresh).toNat) rest count

namespace Counted

variable {assigned assigned' : List (Nat × Nat × Nat)} {epoch gen count : Nat} {fresh : Bool}
  {breaks : List (Nat × Bool)}

theorem mono (h : Counted assigned epoch fresh gen breaks count)
    (hsub : ∀ x ∈ assigned, x ∈ assigned') : Counted assigned' epoch fresh gen breaks count := by
  induction breaks generalizing fresh gen with
  | nil => exact h
  | cons b rest ih => exact ⟨hsub _ h.1, ih h.2⟩

theorem number (epoch : Nat) (fresh : Bool) (gen : Nat) (breaks : List (Nat × Bool)) :
    Counted (Timeline.number epoch fresh gen breaks).2 epoch fresh gen breaks
      (Timeline.number epoch fresh gen breaks).1 := by
  induction breaks generalizing fresh gen with
  | nil => rfl
  | cons b rest ih =>
    exact ⟨mem_cons_self, (ih false _).mono fun x hx => mem_cons_of_mem _ hx⟩

variable (h : Counted assigned epoch fresh gen breaks count)
include h

theorem append (hf : fresh = true → breaks ≠ []) (more : List (Nat × Bool)) :
    Counted (assigned ++ (Timeline.number epoch false count more).2) epoch fresh gen (breaks ++ more)
      (Timeline.number epoch false count more).1 := by
  induction breaks generalizing fresh gen with
  | nil =>
    obtain rfl : fresh = false := by
      cases fresh
      · rfl
      · exact absurd rfl (hf rfl)
    obtain rfl : gen = count := h
    exact (number epoch false gen more).mono fun x hx => mem_append_right _ hx
  | cons b rest ih => exact ⟨mem_append_left _ h.1, ih h.2 (by simp)⟩

theorem settled (hn : ∀ b ∈ breaks.drop (if fresh then 1 else 0), b.2 = false) : gen = count := by
  induction breaks generalizing fresh gen with
  | nil => exact h
  | cons b rest ih =>
    obtain ⟨seq, disc⟩ := b
    have hz : (disc && !fresh).toNat = 0 := by
      cases fresh with
      | true => simp
      | false =>
        have hd := hn (seq, disc) mem_cons_self
        simp only at hd
        simp [hd]
    have hr := h.2
    rw [hz] at hr
    refine ih hr fun b hb => hn b ?_
    cases fresh with
    | true => exact hb
    | false => exact mem_cons_of_mem _ hb

end Counted

theorem Track.listed_length (tr : Track) : tr.listed.length = tr.view.breaks.length := by
  simp [view, OrderedMap.length]

theorem Track.view_onFollowed {tr : Track} (h : tr.view.Tracked) (hnum : media.Numbered) (now : Nat)
    (pool : Pool) :
    (media.segments.getLast? = none ∧ (tr.onFollowed media now pool).1.view = tr.view) ∨
      ∃ first last, media.segments.head? = some first ∧ media.segments.getLast? = some last ∧
        (tr.onFollowed media now pool).1.view =
          tr.view.follow (tr.startsNewEpoch media last.sequence) media first last := by
  unfold onFollowed
  have hv : ((ensureSegmentMap
      { tr with playlistSeen := true, currentMap := media.mapUri, target := some media.targetDuration }
      media.mapUri pool).1).view = tr.view := view_ensureSegmentMap _ _ _
  dsimp only
  generalize ensureSegmentMap _ _ _ = mapped at hv
  obtain ⟨t', pool'⟩ := mapped
  cases hf : media.segments.head? with
  | none =>
    rw [head?_eq_none_iff.mp hf]
    exact .inl ⟨rfl, hv⟩
  | some first =>
    obtain ⟨last, hl⟩ : ∃ last, media.segments.getLast? = some last := by
      rw [← Option.ne_none_iff_exists', Ne, getLast?_eq_none_iff]
      rintro hnil
      rw [hnil] at hf
      cases hf
    have hw : t'.window = tr.window := congrArg BreakView.window hv
    refine .inr ⟨first, last, rfl, hl, ?_⟩
    rw [hl]
    rw [view_followListing (hv ▸ h) hnum hf, hv]
    simp only [startsNewEpoch, hw]

structure Agrees (v : BreakView) (fed : List MediaPlaylist) (fresh : Bool) (latest : Nat)
    (generations : List (Nat × Nat × Nat)) : Prop where
  numbered : ∀ media ∈ fed, media.Numbered
  tracked : v.Tracked
  window : v.window = (Timeline.ofPlaylists fed).window
  epoch : v.epoch = (Timeline.ofPlaylists fed).epoch
  counted : Counted (Timeline.ofPlaylists fed).assigned v.epoch fresh v.generation v.breaks
    (Timeline.ofPlaylists fed).count
  fresh : fresh = true → v.breaks ≠ [] ∧ v.pending ≠ none
  pending : ∀ g, v.pending = some g → g = v.generation
  latest : v.pending = none → latest = v.generation
  released : ∀ x ∈ generations, x ∈ (Timeline.ofPlaylists fed).assigned

namespace Agrees

variable {v v' : BreakView} {fed : List MediaPlaylist} {fresh : Bool} {latest : Nat}
  {generations : List (Nat × Nat × Nat)} {media : MediaPlaylist} {first last : SegmentEntry}

section

variable (h : Agrees v fed fresh latest generations)

include h

theorem numbered_concat (hnum : media.Numbered) : ∀ m ∈ fed ++ [media], m.Numbered := by
  intro m hm
  rcases mem_append.mp hm with hold | hnew
  · exact h.numbered m hold
  · rw [mem_singleton.mp hnew]
    exact hnum

theorem follow_empty (hnum : media.Numbered)
    (hl : media.segments.getLast? = none) : Agrees v (fed ++ [media]) fresh latest generations := by
  have hf := Timeline.ofPlaylists_concat fed media
  simp only [Timeline.follow, hl] at hf
  refine ⟨h.numbered_concat hnum, h.tracked, ?_, ?_, ?_, h.fresh, h.pending, h.latest, ?_⟩
  all_goals rw [hf]
  exacts [h.window, h.epoch, h.counted, h.released]

section
variable (hnum : media.Numbered) (hfi : media.segments.head? = some first)
  (hl : media.segments.getLast? = some last)
include hnum hfi hl

theorem follow_restart (hr : (Timeline.ofPlaylists fed).restarts media last = true)
    (hs : ∀ b ∈ v.breaks.drop (if fresh then 1 else 0), b.2 = false) :
    Agrees (v.follow true media first last) (fed ++ [media]) true latest generations := by
  have hc := h.counted.settled hs
  have hf := Timeline.ofPlaylists_concat fed media
  simp only [Timeline.follow, hl, hr, if_true] at hf
  rw [← h.epoch, ← hc] at hf
  have ha : Timeline.added media none ≠ [] := by
    obtain ⟨rest, hre⟩ := head?_eq_some_iff.mp hfi
    simp [Timeline.added, hre]
  refine ⟨h.numbered_concat hnum, .follow_restart hnum hfi hl,
    ?_, ?_, ?_, fun _ => ⟨ha, ?_⟩, ?_, ?_, ?_⟩
  · rw [hf]
    rfl
  · rw [hf]
    rfl
  · rw [hf]
    exact (Counted.number _ _ _ _).mono fun x hx => mem_append_right _ hx
  · rintro ⟨⟩
  · rintro g ⟨⟩
    rfl
  · rintro ⟨⟩
  · rw [hf]
    exact fun x hx => mem_append_left _ (h.released x hx)

theorem follow_continue (hr : (Timeline.ofPlaylists fed).restarts media last = false) :
    Agrees (v.follow false media first last) (fed ++ [media]) fresh latest generations := by
  have hfo := Timeline.ofPlaylists_concat fed media
  simp only [Timeline.follow, hl, hr] at hfo
  rw [← h.epoch, ← h.window] at hfo
  have ht : (v.follow false media first last).Tracked := by
    refine h.tracked.follow_continue hnum hfi hl fun w hw => ?_
    exact window_le hr (h.window.symm.trans hw)
  refine ⟨h.numbered_concat hnum, ht, ?_, ?_, ?_, fun hf => ⟨?_, (h.fresh hf).2⟩,
    h.pending, h.latest, ?_⟩
  · rw [hfo]
    rfl
  · rw [hfo]
    rfl
  · rw [hfo]
    exact h.counted.append (fun hf => (h.fresh hf).1) _
  · intro hnil
    exact (h.fresh hf).1 (append_eq_nil_iff.mp hnil).1
  · rw [hfo]
    exact fun x hx => mem_append_left _ (h.released x hx)

end

theorem leave (hs : v.breaks.Pairwise fun a b => a.1 < b.1) (hfi : v.breaks.head? = some (seq, disc))
    (hk : disc = true → v.pending = none ∨ fresh = true) :
    Agrees (v.leave seq disc false) fed false latest generations ∧
      Agrees (v.leave seq disc true) fed false (v.mark disc latest)
        (generations ++ [(v.epoch, seq, v.mark disc latest)]) := by
  obtain ⟨rest, hr⟩ := head?_eq_some_iff.mp hfi
  have hc := h.counted
  rw [hr] at hc
  obtain ⟨ha, hc⟩ := hc
  have hgen : v.generation + (disc && !fresh).toNat =
      v.generation + (disc && v.pending.isNone).toNat := by
    cases disc with
    | false => rfl
    | true =>
      rcases hk rfl with hn | rfl
      · have hst : fresh = false := by
          cases hf : fresh
          · rfl
          · exact absurd hn (h.fresh hf).2
        rw [hn, hst]
        rfl
      · have hso : v.pending.isNone = false := by
          cases hp : v.pending
          · exact absurd hp (h.fresh rfl).2
          · rfl
        rw [hso]
        rfl
  have hm : v.mark disc latest = v.generation + (disc && v.pending.isNone).toNat := by
    unfold BreakView.mark
    cases hp : v.pending with
    | some g => simp [h.pending g hp]
    | none =>
      cases disc
      · simpa using h.latest hp
      · rfl
  have hc' (released : Bool) : Counted (Timeline.ofPlaylists fed).assigned v.epoch false
      (v.leave seq disc released).generation (v.leave seq disc released).breaks
      (Timeline.ofPlaylists fed).count := by
    simp only [BreakView.leave, hr, tail_cons]
    rw [← hgen]
    exact hc
  constructor
  · refine ⟨h.numbered, h.tracked.leave hs hfi false, h.window,
      h.epoch, hc' false, by simp, ?_, ?_, h.released⟩
    · intro g hg
      cases disc <;> cases hp : v.pending <;> simp [BreakView.leave, hp] at hg ⊢
      · exact hg ▸ h.pending _ hp
      · exact hg.symm
      · exact hg ▸ h.pending _ hp
    · intro hn
      cases disc <;> cases hp : v.pending <;> simp [BreakView.leave, hp] at hn ⊢
      exact h.latest hp
  · refine ⟨h.numbered, h.tracked.leave hs hfi true, h.window,
      h.epoch, hc' true, by simp, by rintro g ⟨⟩, ?_, ?_⟩
    · exact fun _ => hm
    · intro x hx
      rcases mem_append.mp hx with hold | hnew
      · exact h.released x hold
      · rw [mem_singleton.mp hnew, hm, ← hgen]
        exact ha

theorem turned {released : Option Release}
    (hs : v.breaks.Pairwise fun a b => a.1 < b.1) (htu : v.Turned v' released)
    (hk : ∀ b ∈ v.breaks.head?, b.2 = true → v.pending = none ∨ fresh = true) :
    Agrees v' fed (fresh && decide (v'.breaks.length = v.breaks.length))
      (released.elim latest fun rel => TrackRun.mark latest rel.reanchor)
      (generations ++ (released.map fun rel =>
        (rel.epoch, rel.sequence, TrackRun.mark latest rel.reanchor)).toList) := by
  have hd {seq : Nat} {disc : Bool} (hf : v.breaks.head? = some (seq, disc)) (released : Bool) :
      (fresh && decide ((v.leave seq disc released).breaks.length = v.breaks.length)) = false := by
    obtain ⟨rest, hr⟩ := head?_eq_some_iff.mp hf
    simp [BreakView.leave, hr]
  have ht := h.tracked.turned hs htu
  cases htu with
  | stays => simpa using h
  | slides hfi hn hlt =>
    refine ⟨h.numbered, ht, h.window, h.epoch, ?_, ?_, h.pending, h.latest, by simpa using h.released⟩
    · simpa using h.counted
    · simpa using h.fresh
  | left hl =>
    cases hl with
    | skips hfi =>
      rw [hd hfi, Option.map_none, Option.toList_none, append_nil]
      exact (h.leave hs hfi (hk _ hfi)).1
    | releases hfi he hse hm =>
      rw [hd hfi, Option.map_some, Option.elim_some, hm, he, hse]
      exact (h.leave hs hfi (hk _ hfi)).2

end

end Agrees

namespace TrackRun

variable {r t : TrackRun}

def Inv (r : TrackRun) : Prop := Agrees r.track.view r.fed r.fresh r.latest r.generations

theorem Inv.start (path : Option Path) (pool : Pool) : Inv (start path pool) where
  numbered := by rintro media ⟨⟩
  tracked := ⟨fun _ => rfl, by rintro w ⟨⟩, by rintro b ⟨⟩⟩
  window := rfl
  epoch := rfl
  counted := rfl
  fresh := by rintro ⟨⟩
  pending := by rintro g ⟨⟩
  latest _ := rfl
  released := by rintro x ⟨⟩

variable {hash : List UInt8 → UInt64}

theorem Inv.playlist (h : Inv r) (hnum : media.Numbered) (hk : KeepsBreaks r (.playlist media now))
    (hst : r.step hash (.playlist media now) = some t) : Inv t := by
  have hv := r.track.view_onFollowed h.tracked hnum now r.pool
  rw [step] at hst
  generalize r.track.onFollowed media now r.pool = followed at hv hst
  obtain ⟨tr, pool⟩ := followed
  cases hst
  dsimp only [Inv] at hv ⊢
  rcases hv with ⟨hl, hv⟩ | ⟨first, last, hfi, hl, hv⟩
  · have hep : tr.epoch = r.track.epoch := congrArg BreakView.epoch hv
    have hf : (r.fresh || decide (tr.epoch ≠ r.track.epoch)) = r.fresh := by simp [hep]
    rw [hv, hf]
    exact h.follow_empty hnum hl
  · have hr := (Timeline.ofPlaylists r.fed).restarts_eq h.window media last
    cases hs : r.track.startsNewEpoch media last.sequence with
    | true =>
      rw [hs] at hv hr
      have hep : tr.epoch = r.track.epoch + 1 := congrArg BreakView.epoch hv
      have hf : (r.fresh || decide (tr.epoch ≠ r.track.epoch)) = true := by simp [hep]
      rw [hv, hf]
      refine h.follow_restart hnum hfi hl hr fun b hb => ?_
      simp only [view, ← map_drop] at hb
      obtain ⟨e, he, rfl⟩ := mem_map.mp hb
      exact hk last hl hs e he
    | false =>
      rw [hs] at hv hr
      have hep : tr.epoch = r.track.epoch := congrArg BreakView.epoch hv
      have hf : (r.fresh || decide (tr.epoch ≠ r.track.epoch)) = r.fresh := by simp [hep]
      rw [hv, hf]
      exact h.follow_continue hnum hfi hl hr

theorem Inv.turn (h : Inv r) (hkeeps : KeepsBreaks r (.turn rendition now))
    (hstep : r.step hash (.turn rendition now) = some t) : Inv t := by
  have hturn := r.track.turn_turned hash rendition now r.pool
  rw [step] at hstep
  generalize r.track.turn hash rendition now r.pool = turned at hturn hstep
  obtain ⟨track, pool, released⟩ := turned
  cases hstep
  have hnext := Agrees.turned h r.track.view_sorted hturn fun b hb hd => ?_
  · rw [Inv]
    rw [← track.listed_length, ← r.track.listed_length] at hnext
    cases released with
    | none => simpa [release] using hnext
    | some release => exact hnext
  · simp only [view, head?_map] at hb
    obtain ⟨e, he, rfl⟩ := Option.map_eq_some_iff.mp hb
    exact hkeeps e he hd

theorem Inv.of_view (h : Inv r) (hv : tr.view = r.track.view) (pool : Pool) :
    Inv { r with track := tr, pool := pool } := by
  rw [Inv, hv]
  exact h

theorem Inv.step (h : Inv r) (hg : Numbered r event ∧ KeepsBreaks r event)
    (hs : r.step hash event = some t) : Inv t := by
  cases event with
  | playlist media now => exact h.playlist hg.1 hg.2 hs
  | turn k now => exact h.turn hg.2 hs
  | attach seq pay =>
    cases hs
    exact h.of_view (r.track.view_setPayload seq pay) r.pool
  | init | voidMap =>
    cases hs
    exact h.of_view rfl r.pool
  | hold pool =>
    cases hs
    exact h.of_view rfl pool

/-- Two tracks fed the same playlists give a segment that both release the same
generation, however its bytes and the others' came. -/
theorem generations_agree (hash : List UInt8 → UInt64) {path path' : Option Path} {pool pool' : Pool}
    {r r' : TrackRun}
    (hrun : Reachable (step hash) (fun r e => Numbered r e ∧ KeepsBreaks r e) (start path pool) r)
    (hrun' : Reachable (step hash) (fun r e => Numbered r e ∧ KeepsBreaks r e) (start path' pool') r')
    (hfed : r.fed = r'.fed) {epoch sequence g g' : Nat} (hg : (epoch, sequence, g) ∈ r.generations)
    (hg' : (epoch, sequence, g') ∈ r'.generations) : g = g' := by
  have hinv :=
    hrun.invariant Inv (fun _ _ _ h hguard hstep => h.step hguard hstep) (Inv.start path pool)
  have hinv' :=
    hrun'.invariant Inv (fun _ _ _ h hguard hstep => h.step hguard hstep) (Inv.start path' pool')
  have hassigned := hinv'.released _ hg'
  rw [← hfed] at hassigned
  exact (Timeline.ofPlaylists_ordered hinv.numbered).unique (hinv.released _ hg) hassigned

def arrivals (media : MediaPlaylist) (sequences : List Nat) (turns : Nat) : List TrackEvent :=
  .playlist media 0 ::
    (sequences.map fun n => .attach n { bytes := [], upload := none }) ++
      List.replicate turns (.turn 0 2000)

def broken (breaks : List Bool) : MediaPlaylist :=
  { targetDuration := 2000
    mediaSequence := 0
    segments := breaks.zipIdx.map fun (b, n) =>
      { sequence := n, path := toString n, duration := 2000, discontinuity := b, mapUri := none }
    ended := false
    mapUri := none }

def emptyPool : Pool := (Session.new { holdSegments := 8, holdBytes := 8, idleFloor := 0 }).pool

/-- One track has every segment, the other never gets the one before the break. -/
theorem generations_agree_after_gap : ∃ r r' : TrackRun,
    Reachable (step fun _ => 0) (fun r e => Numbered r e ∧ KeepsBreaks r e) (start none emptyPool) r ∧
    Reachable (step fun _ => 0) (fun r e => Numbered r e ∧
      KeepsBreaks r e) (start none emptyPool) r' ∧
    r.fed = r'.fed ∧ (0, 1, 1) ∈ r.generations ∧ (0, 1, 1) ∈ r'.generations ∧
    r.generations ≠ r'.generations ∧ ∀ g, (0, 1, g) ∈ r.generations → g = 1 := by
  obtain ⟨r, hreach, hfed, hgen⟩ : ∃ r, Reachable (step fun _ => 0)
      (fun r e => Numbered r e ∧ KeepsBreaks r e) (start none emptyPool) r ∧
      r.fed = [broken [false, true, false]] ∧ r.generations = [(0, 0, 0), (0, 1, 1)] :=
    exists_reachable_of_run (arrivals (broken [false, true, false]) [0, 1] 2) (by decide +kernel)
  obtain ⟨r', hreach', hfed', hgen'⟩ : ∃ r, Reachable (step fun _ => 0)
      (fun r e => Numbered r e ∧ KeepsBreaks r e) (start none emptyPool) r ∧
      r.fed = [broken [false, true, false]] ∧ r.generations = [(0, 1, 1)] :=
    exists_reachable_of_run (arrivals (broken [false, true, false]) [1] 2) (by decide +kernel)
  have hsame : r.fed = r'.fed := hfed.trans hfed'.symm
  have hmem : (0, 1, 1) ∈ r'.generations := by simp [hgen']
  refine ⟨r, r', hreach, hreach', hsame, by simp [hgen], hmem, by simp [hgen, hgen'], fun g hg => ?_⟩
  exact generations_agree _ hreach hreach' hsame hg hmem

/-- The second break is passed while the skipped first one still has its
generation pending, and both become one. -/
theorem generations_merged_after_gap : ∃ r r' : TrackRun,
    Reachable (step fun _ => 0) Numbered (start none emptyPool) r ∧
    Reachable (step fun _ => 0) Numbered (start none emptyPool) r' ∧
    r.fed = r'.fed ∧ (0, 2, 2) ∈ r.generations ∧ (0, 2, 1) ∈ r'.generations := by
  obtain ⟨r, hreach, hfed, hgen⟩ : ∃ r, Reachable (step fun _ => 0) Numbered
      (start none emptyPool) r ∧ r.fed = [broken [false, true, true]] ∧
      r.generations = [(0, 0, 0), (0, 1, 1), (0, 2, 2)] :=
    exists_reachable_of_run (arrivals (broken [false, true, true]) [0, 1, 2] 3) (by decide +kernel)
  obtain ⟨r', hreach', hfed', hgen'⟩ : ∃ r, Reachable (step fun _ => 0) Numbered
      (start none emptyPool) r ∧ r.fed = [broken [false, true, true]] ∧
      r.generations = [(0, 0, 0), (0, 2, 1)] :=
    exists_reachable_of_run (arrivals (broken [false, true, true]) [0, 2] 3) (by decide +kernel)
  exact ⟨r, r', hreach, hreach', hfed.trans hfed'.symm, by simp [hgen], by simp [hgen']⟩

end TrackRun

end Restream.Hls
