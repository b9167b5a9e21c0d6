import Restream.HlsTimeline

/-! What a followed playlist does to the breaks of a track that are still
listed. -/

namespace Restream.Hls

open List Option Nat

structure BreakView.Tracked (v : BreakView) : Prop where
  unlisted : v.window = none → v.nextSeq = none
  next : ∀ w, v.window = some w → ∃ next, v.nextSeq = some next ∧ next ≤ w.last + 1 ∧
    ∀ s, w.mediaSequence ≤ s → s ≤ w.last → s < next ∨ s ∈ v.breaks.map Prod.fst
  breaks : ∀ b ∈ v.breaks, ∃ next w, v.nextSeq = some next ∧ v.window = some w ∧ next ≤ b.1 ∧
    b.1 ≤ w.last ∧ b.1 + 1 < u64Size

def BreakView.follow (v : BreakView) (restarts : Bool) (media : MediaPlaylist)
    (first last : SegmentEntry) : BreakView :=
  if restarts then
    { breaks := Timeline.added media none
      nextSeq := some first.sequence
      epoch := v.epoch + 1
      window := some (Windowed.ofPlaylist media last)
      generation := v.generation + 1
      pending := some (v.generation + 1) }
  else
    { v with
      breaks := v.breaks ++ Timeline.added media (v.window.map Window.last)
      nextSeq := some (v.nextSeq.getD first.sequence)
      window := some (Windowed.ofPlaylist media last) }

namespace MediaPlaylist.Numbered

variable {media : MediaPlaylist}

theorem first_eq (h : media.Numbered) (hf : media.segments.head? = some first) :
    first.sequence = media.mediaSequence := by
  rw [head?_eq_getElem?] at hf
  exact (h.sequence_eq hf).1

variable (h : media.Numbered) {seg : SegmentEntry} (hs : seg ∈ media.segments)
include h hs

theorem first_le : media.mediaSequence ≤ seg.sequence := by
  obtain ⟨i, hi⟩ := getElem?_of_mem hs
  rw [(h.sequence_eq hi).1]
  exact le_add_right _ _

theorem bound : seg.sequence + 1 < u64Size := by
  obtain ⟨i, hi⟩ := getElem?_of_mem hs
  exact (h.sequence_eq hi).2

end MediaPlaylist.Numbered

namespace Track

variable {t : Track} {first last : SegmentEntry}

theorem window_le (hs : t.startsNewEpoch media last.sequence = false) (hw : t.window = some w) :
    w.mediaSequence ≤ media.mediaSequence ∧ w.last ≤ last.sequence := by
  simp only [startsNewEpoch, hw, Bool.or_eq_false_iff, decide_eq_false_iff_not, not_lt] at hs
  exact hs.1

theorem view_endListing :
    (t.endListing media last).view =
      { t.view with window := some (Windowed.ofPlaylist media last) } := rfl

theorem continue_new (h : t.view.Tracked) {s : SegmentEntry} (hge : first.sequence ≤ s.sequence)
    (hnew : ∀ k ∈ t.window.map Window.last, k < s.sequence) :
    t.nextSeq.getD first.sequence ≤ s.sequence ∧ ∀ b ∈ t.view.breaks, b.1 < s.sequence := by
  cases hw : t.window with
  | none =>
    rw [show t.nextSeq = none from h.unlisted hw]
    refine ⟨hge, fun b hb => ?_⟩
    obtain ⟨-, w, -, hwi, -⟩ := h.breaks b hb
    cases hw.symm.trans hwi
  | some w =>
    have hlt := hnew w.last (by rw [hw]; rfl)
    obtain ⟨next, hn, hle, -⟩ := h.next w hw
    rw [show t.nextSeq = some next from hn, getD_some]
    refine ⟨by omega, fun b hb => ?_⟩
    obtain ⟨-, w', -, hwi, -, hb', -⟩ := h.breaks b hb
    obtain rfl := Option.some.inj (hw.symm.trans hwi)
    omega

theorem view_followListing (h : t.view.Tracked) (hnum : media.Numbered)
    (hf : media.segments.head? = some first) :
    (t.followListing media first last now pool).1.view =
      t.view.follow (t.startsNewEpoch media last.sequence) media first last := by
  have hge : ∀ s ∈ media.segments, first.sequence ≤ s.sequence := by
    rw [hnum.first_eq hf]
    exact fun s hs => hnum.first_le hs
  unfold followListing beginListing
  cases hst : t.startsNewEpoch media last.sequence with
  | true =>
    rw [if_pos rfl]
    rw [view_endListing, followSegments_view now pool.countEpoch none rfl hnum.sorted (by simp)
      fun s hs _ => ⟨hge s hs, by rintro b ⟨⟩⟩]
    rfl
  | false =>
    have hv : (followSegments now media.segments
        { t with nextSeq := some (t.nextSeq.getD first.sequence) } pool).1.view = _ :=
      followSegments_view now pool (t.window.map Window.last) rfl hnum.sorted
        (fun s hs k hk hle => by
          obtain ⟨w, hw, rfl⟩ := map_eq_some_iff.mp hk
          obtain ⟨next, hn, -, hc⟩ := h.next w hw
          rw [show t.nextSeq = some next from hn]
          exact hc s.sequence ((window_le hst hw).1.trans (hnum.first_le hs)) hle)
        fun s hs hnew => continue_new h (hge s hs) hnew
    rw [if_neg (by decide)]
    rw [view_endListing, hv]
    rfl

end Track

namespace BreakView.Tracked

variable {v : BreakView}

theorem mem_added (hb : b ∈ Timeline.added media known) :
    (∀ k ∈ known, k < b.1) ∧ ∃ s ∈ media.segments, s.sequence = b.1 := by
  obtain ⟨s, hs, rfl⟩ := mem_map.mp hb
  obtain ⟨hmem, hall⟩ := mem_filter.mp hs
  refine ⟨fun k hk => ?_, s, hmem, rfl⟩
  rw [mem_def.mp hk] at hall
  simpa using hall

theorem listed_added (hnum : media.Numbered) (hl : media.segments.getLast? = some last)
    (hge : media.mediaSequence ≤ s) (hle : s ≤ last.sequence) (hnew : ∀ k ∈ known, k < s) :
    s ∈ (Timeline.added media known).map Prod.fst := by
  obtain ⟨seg, hs, rfl⟩ := hnum.exists_segment hl hge hle
  refine mem_map.mpr ⟨_, mem_map.mpr ⟨seg, mem_filter.mpr ⟨hs, ?_⟩, rfl⟩, rfl⟩
  cases known with
  | none => rfl
  | some k => simpa using hnew k rfl

theorem follow_restart (hnum : media.Numbered) (hf : media.segments.head? = some first)
    (hl : media.segments.getLast? = some last) : (v.follow true media first last).Tracked where
  unlisted h := by cases h
  next w hw := by
    cases hw
    have hle := hnum.first_eq hf ▸ (hnum.le_last hl (mem_of_getLast? hl)).1
    refine ⟨first.sequence, rfl, le_succ_of_le hle, fun s hge hs => .inr ?_⟩
    exact listed_added hnum hl hge hs (by simp)
  breaks b hb := by
    obtain ⟨-, s, hs, heq⟩ := mem_added hb
    refine ⟨first.sequence, _, rfl, rfl, ?_, ?_, ?_⟩
    · rw [hnum.first_eq hf, ← heq]
      exact hnum.first_le hs
    · rw [← heq]
      exact (hnum.le_last hl hs).2
    · rw [← heq]
      exact hnum.bound hs

theorem follow_continue (h : v.Tracked) (hnum : media.Numbered)
    (hf : media.segments.head? = some first)
    (hl : media.segments.getLast? = some last)
    (hwi : ∀ w, v.window = some w → w.mediaSequence ≤ media.mediaSequence ∧ w.last ≤ last.sequence) :
    (v.follow false media first last).Tracked := by
  have hfi : first.sequence ≤ last.sequence :=
    hnum.first_eq hf ▸ (hnum.le_last hl (mem_of_getLast? hl)).1
  have hbr : (v.follow false media first last).breaks =
      v.breaks ++ Timeline.added media (v.window.map Window.last) := rfl
  have hn : v.nextSeq.getD first.sequence ≤ last.sequence + 1 ∧
      ∀ s, media.mediaSequence ≤ s → (∀ k ∈ v.window.map Window.last, k < s) →
        v.nextSeq.getD first.sequence ≤ s := by
    cases hw : v.window with
    | none =>
      rw [h.unlisted hw]
      exact ⟨le_succ_of_le hfi, fun s hs _ => hnum.first_eq hf ▸ hs⟩
    | some w =>
      obtain ⟨next, hn, hle, -⟩ := h.next w hw
      rw [hn, getD_some]
      have hlt := (hwi w hw).2
      refine ⟨by omega, fun s _ hk => ?_⟩
      have := hk w.last rfl
      omega
  refine ⟨by rintro ⟨⟩, fun w hw => ?_, fun b hb => ?_⟩
  · cases hw
    refine ⟨_, rfl, hn.1, fun s hge hle => ?_⟩
    by_cases hkn : ∀ k ∈ v.window.map Window.last, k < s
    · refine .inr ?_
      rw [hbr, map_append, mem_append]
      exact .inr (listed_added hnum hl hge hle hkn)
    · obtain ⟨k, hk, hsk⟩ : ∃ k, k ∈ v.window.map Window.last ∧ s ≤ k := by
        simpa only [not_forall, not_lt, exists_prop] using hkn
      obtain ⟨w', hw', rfl⟩ := map_eq_some_iff.mp hk
      obtain ⟨next, hso, -, hc⟩ := h.next w' hw'
      rw [hso]
      rcases hc s ((hwi w' hw').1.trans hge) hsk with hlt | hmem
      · exact .inl hlt
      · refine .inr ?_
        rw [hbr, map_append, mem_append]
        exact .inl hmem
  · rcases mem_append.mp hb with hold | ha
    · obtain ⟨next, w, hso, hw, hle, hlt, hbo⟩ := h.breaks b hold
      refine ⟨next, _, ?_, rfl, hle, hlt.trans (hwi w hw).2, hbo⟩
      simp [follow, hso]
    · obtain ⟨hkn, s, hs, heq⟩ := mem_added ha
      refine ⟨_, _, rfl, rfl, ?_, ?_, ?_⟩
      · rw [← heq] at hkn ⊢
        exact hn.2 s.sequence (hnum.first_le hs) hkn
      · rw [← heq]
        exact (hnum.le_last hl hs).2
      · rw [← heq]
        exact hnum.bound hs

variable (h : v.Tracked) (hso : v.breaks.Pairwise fun a b => a.1 < b.1)
include h hso

theorem leave (hf : v.breaks.head? = some (seq, disc)) (released : Bool) :
    (v.leave seq disc released).Tracked := by
  obtain ⟨rest, hr⟩ := head?_eq_some_iff.mp hf
  rw [hr, pairwise_cons] at hso
  obtain ⟨next, w, hn, hw, hle, hl, hbo⟩ := h.breaks (seq, disc) (mem_of_mem_head? hf)
  have hsu : checkedSucc seq = some (seq + 1) := if_pos hbo
  refine ⟨fun hno => ?_, fun w' hw' => ?_, fun b hb => ?_⟩
  · cases hw.symm.trans hno
  · obtain rfl := Option.some.inj (hw.symm.trans hw')
    refine ⟨seq + 1, hsu, succ_le_succ hl, fun s hge hs => ?_⟩
    obtain ⟨next', hn', -, hc⟩ := h.next w hw
    obtain rfl := Option.some.inj (hn.symm.trans hn')
    rcases hc s hge hs with hlt | hmem
    · exact .inl (by omega)
    · rw [hr, map_cons, mem_cons] at hmem
      rcases hmem with rfl | hmem
      · exact .inl (lt_succ_self _)
      · refine .inr ?_
        simp only [BreakView.leave, hr, tail_cons]
        exact hmem
  · simp only [BreakView.leave, hr, tail_cons] at hb
    obtain ⟨-, w', -, hw', -, hl', hb'⟩ := h.breaks b (by rw [hr]; exact mem_cons_of_mem _ hb)
    exact ⟨seq + 1, w', hsu, hw', hso.1 b hb, hl', hb'⟩

theorem turned (ht : v.Turned v' rel) : v'.Tracked := by
  cases ht with
  | stays => exact h
  | slides hf hn hlt =>
    obtain ⟨rest, hr⟩ := head?_eq_some_iff.mp hf
    rw [hr, pairwise_cons] at hso
    obtain ⟨-, w, -, hw, -, hl, -⟩ := h.breaks _ (mem_of_mem_head? hf)
    refine ⟨fun hno => ?_, fun w' hw' => ?_, fun b hb => ?_⟩
    · cases hw.symm.trans hno
    · obtain rfl := Option.some.inj (hw.symm.trans hw')
      refine ⟨_, rfl, le_succ_of_le hl, fun s hge hs => ?_⟩
      obtain ⟨next', hn', -, hc⟩ := h.next w hw
      obtain rfl := Option.some.inj (hn.symm.trans hn')
      exact (hc s hge hs).imp_left fun hs => hs.trans hlt
    · obtain ⟨-, w', -, hw', -, hl', hb'⟩ := h.breaks b hb
      refine ⟨_, w', rfl, hw', ?_, hl', hb'⟩
      rw [hr, mem_cons] at hb
      rcases hb with rfl | hb
      · exact le_rfl
      · exact (hso.1 b hb).le
  | left hle =>
    cases hle with
    | skips hf => exact h.leave hso hf false
    | releases hf _ _ _ => exact h.leave hso hf true

end BreakView.Tracked

end Restream.Hls
