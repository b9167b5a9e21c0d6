import Restream.PublisherForward

/-! One call that forwards demuxed packets: which of them are due, and that the order of
the streams and the count of the packets survive it. -/

namespace Restream.Publisher

open List

def passesGap (awaiting : Bool) (packets : List MediaPacket) : List MediaPacket :=
  if awaiting then
    (packets.takeWhile fun p => !p.isVideoKeyframe).filter (fun p => !p.isVideoInterframe) ++
      packets.dropWhile fun p => !p.isVideoKeyframe
  else packets

theorem retainAfterGap_false : retainAfterGap false ps = (ps, false) := by
  induction ps with
  | nil => rfl
  | cons p ps ih => rw [retainAfterGap, ih]

variable {p : MediaPacket}

theorem isVideoInterframe_of_keyframe (h : p.isVideoKeyframe = true) :
    p.isVideoInterframe = false := by
  cases hi : p.isVideoInterframe with
  | false => rfl
  | true =>
    have hkey := (MediaPacket.isVideoKeyframe_iff p).mp h
    cases hkey.2.symm.trans (MediaPacket.isVideoInterframe_video hi).2

theorem retainAfterGap_fst : (retainAfterGap aw ps).1 = passesGap aw ps := by
  cases aw with
  | false => rw [retainAfterGap_false, passesGap, if_neg Bool.false_ne_true]
  | true =>
    induction ps with
    | nil => rfl
    | cons p ps ih =>
      rw [passesGap, if_pos rfl] at ih ⊢
      rw [retainAfterGap]
      by_cases hkey : p.isVideoKeyframe = true
      · rw [if_neg (by simp [isVideoInterframe_of_keyframe hkey]),
          hkey, Bool.not_true, retainAfterGap_false,
          takeWhile_cons_of_neg (by simp [hkey]), dropWhile_cons_of_neg (by simp [hkey])]
        rfl
      · rw [takeWhile_cons_of_pos (by simpa using hkey), dropWhile_cons_of_pos (by simpa using hkey)]
        split
        · next hi => rw [ih, filter_cons_of_neg (by simp [hi])]
        · next hi =>
          rw [(Bool.not_eq_true _).mp hkey, Bool.not_false, filter_cons_of_pos (by simpa using hi),
            cons_append, ← ih]

theorem mem_of_mem_passesGap (h : p ∈ passesGap aw ps) : p ∈ ps := by
  unfold passesGap at h
  split at h
  · rcases mem_append.mp h with h | h
    · exact ( takeWhile_prefix _).subset (mem_filter.mp h).1
    · exact (dropWhile_suffix _).subset h
  · exact h

theorem exists_of_mem_shifted (h : List.Forall₂ Shifted ps shifted) (hq : q ∈ shifted) :
    ∃ p ∈ ps, Shifted p q := by
  induction h with
  | nil => cases hq
  | @cons p r _ _ hpr _ ih =>
    rcases mem_cons.mp hq with rfl | hq
    · exact ⟨p, mem_cons_self, hpr⟩
    · obtain ⟨p', hp', hs⟩ := ih hq
      exact ⟨p', mem_cons_of_mem _ hp', hs⟩

namespace SegmentPublisher

variable {s s' t : SegmentPublisher} {kept ps dr : List MediaPacket} {st : ContinuousTimestampState}

def due (s : SegmentPublisher) (drained : List MediaPacket) : List MediaPacket :=
  s.keepMedia (passesGap (s.awaitingOf s.current) drained)

theorem mem_of_mem_due (h : p ∈ s.due dr) : p ∈ dr := by
  unfold due keepMedia at h
  split at h
  · exact mem_of_mem_passesGap (mem_filter.mp h).1
  · exact mem_of_mem_passesGap h

def Separate (s : SegmentPublisher) (packets : List MediaPacket) : Prop :=
  ∀ p ∈ packets, p.dts ≤ p.pts ∧
    ∀ j < s.renditions.length, j ≠ s.current → (s.continuityOf j).last? (streamKey p) = none

structure Enqueued (s s' : SegmentPublisher) (state : ContinuousTimestampState)
    (packets : List MediaPacket) :
    Prop where
  length : s'.renditions.length = s.renditions.length
  current : s'.current = s.current
  forwarded : s'.forwarded = s.forwarded
  batch : s'.packets = []
  queue : ∀ j, s'.queueOf j = if j = s.current then s.queueOf j ++ packets else s.queueOf j
  continuity : ∀ j < s.renditions.length, s'.continuityOf j =
    if j = s.current then state else s.continuityOf j
  queued : s'.queued.Perm (s.queued ++ packets)

theorem InOrder.enqueued (h : s.InOrder) (hpa : s.packets = [])
    (hl : st.last? = (s.continuityOf s.current).last?) (hdts : ∀ p ∈ ps, 0 ≤ p.dts)
    (hs : s.Separate ps)
    (he : Enqueued s s' (st.applyAll id ps).1 (st.applyAll id ps).2) :
    s'.InOrder ∧ List.Forall₂ Shifted ps (st.applyAll id ps).2 ∧
      ∀ key, (st.applyAll id ps).1.last? key = none ↔
        (s.continuityOf s.current).last? key = none ∧ ∀ p ∈ ps, streamKey p ≠ key := by
  have hc := h.current
  have ho := (h.ordered s.current hc).of_last?_eq hl
  rw [hpa, append_nil] at ho
  have hnew : ∀ p ∈ ps, st.last? (streamKey p) = none →
      ∀ q ∈ s.forwarded ++ s.queueOf s.current, streamKey q ≠ streamKey p := by
    intro p hp hn q hq hkey
    rw [hl, ← hkey] at hn
    rcases mem_append.mp hq with hq | hq
    · obtain ⟨i, hi, hkn⟩ := h.source q (mem_append_left _ hq)
      by_cases hic : i = s.current
      · rw [hic] at hkn
        exact hkn hn
      · rw [hkey] at hkn
        exact hkn ((hs p hp).2 i hi hic)
    · exact h.owned s.current hc q hq hn
  obtain ⟨ha, hsh, hke⟩ := applyAll_spec ho (fun p hp => ⟨hdts p hp, (hs p hp).1⟩) hnew
  have hkn {key : Nat} (hkey : (s.continuityOf s.current).last? key ≠ none) :
      (st.applyAll id ps).1.last? key ≠ none := by
    intro hn
    rw [hke, hl] at hn
    exact hkey hn.1
  refine ⟨?_, hsh, fun key => by rw [hke, hl]⟩
  refine ⟨?_, fun i hi => ?_, fun i hi p hp => ?_, fun p hp => ?_, fun i hi j hj key hik hjk => ?_⟩
  · rw [he.length, he.current]
    exact hc
  · rw [he.length] at hi
    rw [he.forwarded, he.batch, append_nil, he.queue, he.continuity i hi]
    split
    · next hic =>
      subst hic
      rw [← append_assoc]
      exact ha
    · have hot := h.ordered i hi
      rw [hpa, append_nil] at hot
      exact hot
  · rw [he.length] at hi
    rw [he.queue] at hp
    rw [he.continuity i hi]
    split at hp
    · next hic =>
      subst hic
      rw [if_pos rfl]
      rcases mem_append.mp hp with hp | hp
      · exact hkn (h.owned s.current hc p hp)
      · obtain ⟨q, hq, hpq⟩ := exists_of_mem_shifted hsh hp
        intro hn
        rw [hke] at hn
        exact hn.2 q hq hpq.streamKey_eq.symm
    · next hic =>
      rw [if_neg hic]
      exact h.owned i hi p hp
  · rw [he.forwarded, he.batch, append_nil] at hp
    obtain ⟨i, hi, hikn⟩ := h.source p (mem_append_left _ hp)
    refine ⟨i, he.length.symm ▸ hi, ?_⟩
    rw [he.continuity i hi]
    split
    · next hic =>
      subst hic
      exact hkn hikn
    · exact hikn
  · rw [he.length] at hi hj
    have hca {k : Nat} (hk : k < s.renditions.length) (hne : k ≠ s.current)
        (hkk : (s.continuityOf k).last? key ≠ none) : (st.applyAll id ps).1.last? key = none := by
      rw [hke, hl]
      refine ⟨?_, fun p hp hkey => ?_⟩
      · by_contra hsome
        exact hne (h.disjoint k hk s.current hc key hkk hsome)
      · rw [← hkey] at hkk
        exact hkk ((hs p hp).2 k hk hne)
    rw [he.continuity i hi] at hik
    rw [he.continuity j hj] at hjk
    by_cases hic : i = s.current
    · rw [if_pos hic] at hik
      by_cases hjc : j = s.current
      · rw [hic, hjc]
      · rw [if_neg hjc] at hjk
        exact (hik (hca hj hjc hjk)).elim
    · rw [if_neg hic] at hik
      by_cases hjc : j = s.current
      · rw [if_pos hjc] at hjk
        exact (hjk (hca hi hic hik)).elim
      · rw [if_neg hjc] at hjk
        exact h.disjoint i hi j hj key hik hjk

theorem Delivers.enqueued (h : s.Delivers kept) (hp : s.packets = [])
    (hs : List.Forall₂ Shifted ps shifted) (he : Enqueued s s' st shifted) :
    s'.Delivers (kept ++ ps) := by
  obtain ⟨del, hk, hpe⟩ := h
  refine ⟨del ++ shifted, rel_append hk hs, ?_⟩
  rw [hp, append_nil] at hpe
  rw [he.forwarded, he.batch, append_nil]
  refine (he.queued.append_left _).trans ?_
  rw [← append_assoc]
  exact hpe.append_right _

structure HandsOver (s t : SegmentPublisher) : Prop where
  single : s.renditions.length = 1
  length : t.renditions.length = 1
  current : t.current = s.current
  out : t.forwarded ++ t.packets = s.forwarded ++ s.packets ++ s.queueOf 0
  queue : t.queueOf 0 = []
  continuity : t.continuityOf 0 = s.continuityOf 0

theorem InOrder.handsOver (h : s.InOrder) (ho : HandsOver s t) : t.InOrder := by
  have hz : 0 < s.renditions.length := by rw [ho.single]; decide
  refine ⟨?_, fun i hi => ?_, fun i hi p hp => ?_, fun p hp => ?_, fun i hi j hj _ _ _ => ?_⟩
  · rw [ho.length, ho.current]
    exact ho.single ▸ h.current
  · rw [ho.length] at hi
    obtain rfl : i = 0 := by omega
    rw [ho.out, ho.queue, append_nil, ho.continuity]
    exact h.ordered 0 hz
  · rw [ho.length] at hi
    obtain rfl : i = 0 := by omega
    rw [ho.queue] at hp
    cases hp
  · rw [ho.out] at hp
    refine ⟨0, by rw [ho.length]; decide, ?_⟩
    rw [ho.continuity]
    rcases mem_append.mp hp with hp | hp
    · obtain ⟨i, hi, hk⟩ := h.source p hp
      rw [ho.single] at hi
      obtain rfl : i = 0 := by omega
      exact hk
    · exact h.owned 0 hz p hp
  · rw [ho.length] at hi hj
    omega

theorem queued_single (h : s.renditions.length = 1) : s.queued = s.queueOf 0 := by
  rw [queued_eq, h, range_one, flatMap_singleton]

theorem Delivers.handsOver (h : s.Delivers kept) (ho : HandsOver s t) : t.Delivers kept := by
  obtain ⟨del, hk, hp⟩ := h
  refine ⟨del, hk, ?_⟩
  rw [queued_single ho.length, ho.queue, append_nil, ho.out, ← queued_single ho.single]
  exact hp

structure Frame (s t : SegmentPublisher) : Prop where
  length : t.renditions.length = s.renditions.length
  current : t.current = s.current
  expected : t.expected = s.expected
  unborn : s.unbornAbsent = true → t.unbornAbsent = true
  awaiting : ∀ j, j ≠ s.current → t.awaitingOf j = s.awaitingOf j

theorem enqueued_of_frame (hf : Frame s s') (hcu : s.current < s.renditions.length)
    (hfo : s'.forwarded = s.forwarded) (hs : ∀ j, s'.queueOf j = s.queueOf j)
    (hc : ∀ j < s.renditions.length, j ≠ s.current → s'.continuityOf j = s.continuityOf j)
    (st : ContinuousTimestampState) (ps : List MediaPacket) :
    Enqueued s ((s'.setContinuity s'.current st).enqueue ps) st ps ∧
      Frame s ((s'.setContinuity s'.current st).enqueue ps) := by
  obtain ⟨hl, hc', he, hu, hf', -, hq⟩ := setContinuity_frame s' s'.current st
  have hlt : s'.current < s'.renditions.length := by rw [hf.length, hf.current]; exact hcu
  have hlt' : (s'.setContinuity s'.current st).current <
      (s'.setContinuity s'.current st).renditions.length := by
    rw [hl, hc']
    exact hlt
  have hqu : (s'.setContinuity s'.current st).queued = s.queued := by
    rw [queued_eq, queued_eq, hl, hf.length]
    exact flatMap_congr fun j _ => (hq j).1.trans (hs j)
  have hl' : ((s'.setContinuity s'.current st).enqueue ps).renditions.length = s.renditions.length :=
    (length_modify ..).trans (hl.trans hf.length)
  refine ⟨⟨hl', hc'.trans hf.current, hf'.trans hfo, rfl, fun j => ?_, fun j hj => ?_, ?_⟩,
    ⟨hl', hc'.trans hf.current, he.trans hf.expected, fun h => hu.trans (hf.unborn h),
      fun j hj => ?_⟩⟩
  · rw [queueOf_enqueue hlt', hc', (hq j).1, hs, hf.current]
  · rw [(enqueue_frame ..).1, continuityOf_setContinuity hlt (hf.length.symm ▸ hj), hf.current]
    split
    · rfl
    · next hne => exact hc j hj hne
  · rw [← hqu]
    exact queued_enqueue hlt'
  · rw [(enqueue_frame ..).2, (hq j).2, hf.awaiting j hj]

structure Inv (s : SegmentPublisher) (kept : List MediaPacket) : Prop where
  batch : s.packets = []
  inOrder : s.InOrder
  delivers : s.Delivers kept
  settled : s.renditions.length = 1 → s.expected ≤ 1 ∨ s.unbornAbsent = true → s.queued = []

theorem Inv.release (hi : s.InOrder) (hd : s.Delivers kept) (all : Bool) :
    Inv (s.releaseInterleaved id all).forwardBatch kept := by
  have hs := releaseStep_releaseInterleaved id all s
  refine ⟨rfl, ?_, ?_, fun hl he => ?_⟩
  · have hm : (s.releaseInterleaved id all).InOrder :=
      releaseInterleaved_keeps (fun _ _ _ _ h hp => h.pops hp) hi
    exact hm.of_same (forwardBatch_same _)
  · have hm : (s.releaseInterleaved id all).Delivers kept :=
      releaseInterleaved_keeps (P := fun t => t.Delivers kept) (fun _ _ _ _ h hp => h.pops hp) hd
    exact hm.of_same (forwardBatch_same _)
  · change (s.releaseInterleaved id all).queued = []
    cases all with
    | false => exact queued_nil_of_single hl he hs
    | true => exact queued_nil_of_all hs

theorem release_frame (clamp : Int → Int) (all : Bool) (s : SegmentPublisher) :
    Frame s (s.releaseInterleaved clamp all).forwardBatch ∧
      ∀ j, (s.releaseInterleaved clamp all).forwardBatch.continuityOf j = s.continuityOf j := by
  refine releaseInterleaved_keeps (P := fun t => Frame s t.forwardBatch ∧
    ∀ j, t.forwardBatch.continuityOf j = s.continuityOf j) (fun t t' i p h hp => ?_)
    ⟨⟨rfl, rfl, rfl, id, fun _ _ => rfl⟩, fun _ => rfl⟩
  obtain ⟨hf, hc⟩ := h
  refine ⟨⟨hp.length.trans hf.length, hp.current.trans hf.current,
    hp.expected.trans hf.expected, fun h => hp.unborn (hf.unborn h),
    fun j hj => (hp.awaiting j).trans (hf.awaiting j hj)⟩,
    fun j => (hp.continuity j).trans (hc j)⟩

theorem alignRebase_frame (clamp : Int → Int) (hc : s.current < s.renditions.length) :
    Frame s (s.alignRebase clamp s.current) ∧
    (s.alignRebase clamp s.current).forwarded = s.forwarded ∧
    (s.alignRebase clamp s.current).packets = s.packets ∧
    (∀ j, (s.alignRebase clamp s.current).queueOf j = s.queueOf j) ∧
    (∀ j < s.renditions.length, j ≠ s.current →
      (s.alignRebase clamp s.current).continuityOf j = s.continuityOf j) ∧
    ((s.alignRebase clamp s.current).continuityOf s.current).last? =
      (s.continuityOf s.current).last? := by
  rcases alignRebase_cases clamp s s.current with hs | ⟨offsetMs, hset⟩
  · rw [hs]
    exact ⟨⟨rfl, rfl, rfl, id, fun _ _ => rfl⟩, rfl, rfl, fun _ => rfl, fun _ _ _ => rfl, rfl⟩
  · rw [hset]
    obtain ⟨hl, hc', he, hu, hf, hp, hq⟩ :=
      setContinuity_frame s s.current ((s.continuityOf s.current).rebaseTo offsetMs)
    refine ⟨⟨hl, hc', he, hu.trans, fun j _ => (hq j).2⟩,
      hf, hp, fun j => (hq j).1, fun j hj hne => ?_, ?_⟩
    · rw [continuityOf_setContinuity hc hj, if_neg hne]
    · rw [continuityOf_setContinuity hc hc, if_pos rfl]
      rfl

theorem forwardMerged_enqueues (hc : s.current < s.renditions.length) (ps : List MediaPacket) :
    ∃ (st : ContinuousTimestampState)
    (s' : SegmentPublisher), st.last? = (s.continuityOf s.current).last? ∧
      Enqueued s s' (st.applyAll id (s.keepMedia ps)).1 (st.applyAll id (s.keepMedia ps)).2 ∧
      Frame s s' ∧ s.forwardMerged id ps = (s'.releaseInterleaved id false).forwardBatch := by
  unfold forwardMerged
  dsimp only
  generalize s.keepMedia ps = kept
  obtain ⟨hf, hfo, hp, hq, ho, hl⟩ :=
    alignRebase_frame (s := { s with packets := kept }) id hc
  generalize ({ s with packets := kept } : SegmentPublisher).alignRebase id s.current = ready
    at hf hfo hp hq ho hl
  rw [hp]
  have hr : Frame s ready := { hf with }
  obtain ⟨he, hd⟩ := enqueued_of_frame hr hc hfo hq ho
    ((ready.continuityOf ready.current).applyAll id kept).1
      ((ready.continuityOf ready.current).applyAll id kept).2
  refine ⟨_, _, ?_, he, hd, rfl⟩
  rw [hr.current]
  exact hl

theorem forwardAlone_enqueues (hs : s.renditions.length = 1) (hc : s.current = 0)
    (hem : s.queueOf 0 = []) (ps : List MediaPacket) :
    ∃ s', Enqueued s s' (s.continuous.applyAll id ps).1 (s.continuous.applyAll id ps).2 ∧ Frame s s' ∧
      HandsOver s' (s.forwardAlone id ps) := by
  obtain ⟨he, hf⟩ := enqueued_of_frame (s := s) ⟨rfl, rfl, rfl, id, fun _ _ => rfl⟩ (by omega) rfl
    (fun _ => rfl) (fun _ _ _ => rfl) (s.continuous.applyAll id ps).1 (s.continuous.applyAll id ps).2
  refine ⟨_, he, hf, hf.length.trans hs, hs, hf.current.symm, ?_, hem, ?_⟩
  · rw [he.forwarded, he.batch, he.queue, if_pos hc.symm, hem, append_nil]
    exact append_nil _
  · rw [he.continuity 0 (by omega), if_pos hc.symm, continuityOf_zero]
    rfl

theorem forward_enqueues (h : Inv s kept) (hd : dr ≠ []) :
    ∃ (st : ContinuousTimestampState)
    (s' : SegmentPublisher), st.last? = (s.continuityOf s.current).last? ∧
      Enqueued s s' (st.applyAll id (s.due dr)).1 (st.applyAll id (s.due dr)).2 ∧ Frame s s' ∧
      (s.forward id dr = (s'.releaseInterleaved id false).forwardBatch ∨
        HandsOver s' (s.forward id dr) ∧ Frame s (s.forward id dr) ∧
          (s.forward id dr).packets = []) := by
  have hcu := h.inOrder.current
  obtain ⟨r, hr⟩ : ∃ r, s.renditions[s.current]? = some r := ⟨_, getElem?_eq_getElem hcu⟩
  have ha : s.awaitingOf s.current = r.awaitingKeyframe := by rw [awaitingOf, hr]; rfl
  unfold forward
  rw [hr]
  dsimp only
  rw [if_neg hd, h.batch, nil_append, retainAfterGap_fst, due, ha]
  generalize (retainAfterGap r.awaitingKeyframe dr).2 = awaiting
  generalize passesGap r.awaitingKeyframe dr = retained
  have hsa := setAwaiting_same s awaiting
  have hm : Frame s (s.setAwaiting awaiting) :=
    ⟨hsa.length, rfl, rfl, id, fun j hj => (setAwaiting_frame s awaiting j).2.2 hj⟩
  have hc (j : Nat) := (setAwaiting_frame s awaiting j).2.1
  have hb {st : ContinuousTimestampState} {ps : List MediaPacket} {s' : SegmentPublisher}
      (he : Enqueued (s.setAwaiting awaiting) s' st ps) (hf : Frame (s.setAwaiting awaiting) s') :
      Enqueued s s' st ps ∧ Frame s s' := by
    refine ⟨⟨he.length.trans hm.length, he.current, he.forwarded, he.batch,
      fun j => ?_, fun j hj => ?_, ?_⟩,
      ⟨hf.length.trans hm.length, hf.current, hf.expected, hf.unborn,
        fun j hj => (hf.awaiting j hj).trans (hm.awaiting j hj)⟩⟩
    · rw [he.queue, hsa.queue]
      rfl
    · rw [he.continuity j (hm.length.symm ▸ hj), hc]
      rfl
    · rw [← hsa.queued]
      exact he.queued
  by_cases hme : (s.setAwaiting awaiting).merged = true
  · rw [if_pos hme]
    obtain ⟨st, s', hl, he, hf, hfo⟩ :=
      forwardMerged_enqueues (s := s.setAwaiting awaiting) (hm.length.symm ▸ hcu) retained
    obtain ⟨he, hf⟩ := hb he hf
    exact ⟨st, s', hl.trans (congrArg _ (hc _)), he, hf, .inl hfo⟩
  · rw [if_neg hme]
    have hs : s.renditions.length = 1 ∧ s.expected ≤ 1 := by
      rw [merged, hm.length] at hme
      simp only [Bool.or_eq_true, decide_eq_true_eq, not_or, not_lt] at hme
      exact ⟨by omega, hme.2⟩
    have hz : s.current = 0 := by omega
    have hk : s.keepMedia retained = retained := by
      unfold keepMedia
      rw [if_neg (by omega)]
    have hem : (s.setAwaiting awaiting).queueOf 0 = [] := by
      rw [hsa.queue, ← queued_single hs.1]
      exact h.settled hs.1 (.inl hs.2)
    obtain ⟨s', he, hf, ho⟩ := forwardAlone_enqueues (s := s.setAwaiting awaiting)
      (hm.length.trans hs.1) hz hem retained
    obtain ⟨he, hf⟩ := hb he hf
    rw [hk]
    refine ⟨_, s', ?_, he, hf, .inr ⟨ho, ?_, rfl⟩⟩
    · rw [hz, continuityOf_zero]
      rfl
    · exact ⟨hm.length, rfl, rfl, id, hm.awaiting⟩

theorem Inv.forward (h : Inv s kept) (hdts : ∀ p ∈ dr, 0 ≤ p.dts) (hs : s.Separate (s.due dr)) :
    Inv (s.forward id dr) (kept ++ s.due dr) ∧ Frame s (s.forward id dr) ∧
    (∀ j < s.renditions.length, j ≠ s.current →
      ((s.forward id dr).continuityOf j).last? = (s.continuityOf j).last?) ∧
    ∀ key, ((s.forward id dr).continuityOf s.current).last? key = none ↔
      (s.continuityOf s.current).last? key = none ∧ ∀ p ∈ s.due dr, streamKey p ≠ key := by
  by_cases hdr : dr = []
  · have hn : s.due [] = [] := by
      refine eq_nil_iff_forall_not_mem.mpr fun p hp => ?_
      cases mem_of_mem_due hp
    have hsa : s.forward id [] = s := by
      unfold SegmentPublisher.forward
      split <;> rfl
    subst hdr
    rw [hsa, hn, append_nil]
    exact ⟨h, ⟨rfl, rfl, rfl, id, fun _ _ => rfl⟩, fun _ _ _ => rfl, fun key => by simp⟩
  · obtain ⟨st, s', hla, he, hf, hfo⟩ := forward_enqueues h hdr
    obtain ⟨hi, hsh, hk⟩ :=
      h.inOrder.enqueued h.batch hla (fun p hp => hdts p (mem_of_mem_due hp)) hs he
    have hd := h.delivers.enqueued h.batch hsh he
    rcases hfo with hfo | ⟨ho, hf', hb⟩
    · obtain ⟨hr, hc⟩ := release_frame id false s'
      rw [hfo]
      refine ⟨Inv.release hi hd false, ⟨hr.length.trans hf.length,
        hr.current.trans hf.current, hr.expected.trans hf.expected,
        fun h => hr.unborn (hf.unborn h), fun j hj => ?_⟩,
        fun j hj hne => ?_, fun key => ?_⟩
      · rw [hr.awaiting j (hf.current.symm ▸ hj), hf.awaiting j hj]
      · rw [hc, he.continuity j hj, if_neg hne]
      · rw [hc, he.continuity _ h.inOrder.current, if_pos rfl, hk]
    · have hsi : s.renditions.length = 1 := hf.length.symm.trans ho.single
      have hz : s.current = 0 := by
        have := h.inOrder.current
        omega
      refine ⟨⟨hb, hi.handsOver ho, hd.handsOver ho, fun hl _ => ?_⟩, hf',
        fun j hj hne => by omega, fun key => ?_⟩
      · rw [queued_single hl, ho.queue]
      · rw [hz, ho.continuity, he.continuity 0 (by omega), if_pos hz.symm, hk, hz]

end SegmentPublisher

end Restream.Publisher
