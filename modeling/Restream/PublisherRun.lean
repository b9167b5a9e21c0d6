import Restream.PublisherSteps
import Restream.Exec

/-! The publisher over any sequence of calls: the decode times of every stream increase,
and every packet that is due is forwarded once. -/

namespace Restream.Publisher

open List Exec ContinuousTimestampState

namespace SegmentPublisher

variable {s : SegmentPublisher} {kept : List MediaPacket}

section

variable (h : Inv s kept)

include h

theorem Inv.setContinuity (hla : st.last? = (s.continuityOf s.current).last?) :
    Inv (s.setContinuity s.current st) kept := by
  have hs := setContinuity_same h.inOrder.current hla
  obtain ⟨hl, -, he, hu, -, hp, -⟩ := setContinuity_frame s s.current st
  refine ⟨hp.trans h.batch, h.inOrder.of_same hs, h.delivers.of_same hs, fun hone hn => ?_⟩
  rw [hs.queued]
  rw [he, hu] at hn
  exact h.settled (hl.symm.trans hone) hn

theorem Inv.setAwaiting (aw : Bool) : Inv (s.setAwaiting aw) kept := by
  have hs := setAwaiting_same s aw
  refine ⟨h.batch, h.inOrder.of_same hs, h.delivers.of_same hs, fun hone hn => ?_⟩
  rw [hs.queued]
  exact h.settled (hs.length.symm.trans hone) hn

theorem Inv.setCurrent (hi : i < s.renditions.length) : Inv { s with current := i } kept :=
  ⟨h.batch, ⟨hi, h.inOrder.ordered, h.inOrder.owned, h.inOrder.source, h.inOrder.disjoint⟩,
    h.delivers, h.settled⟩

theorem Inv.addRendition :
    Inv { s with renditions := s.renditions ++ [.new], unbornAbsent := false } kept := by
  have hpos : 0 < s.renditions.length := Nat.zero_lt_of_lt h.inOrder.current
  have hold {i : Nat} (hi : i < s.renditions.length) : (s.renditions ++ [Rendition.new])[i]? =
      s.renditions[i]? :=
    getElem?_append_left hi
  have hnew : (s.renditions ++ [Rendition.new])[s.renditions.length]? = some .new :=
    getElem?_concat_length
  generalize hs' : ({ s with renditions := s.renditions ++ [.new], unbornAbsent := false } : SegmentPublisher) = s'
  have hle : s'.renditions.length = s.renditions.length + 1 := by
    rw [← hs']
    exact length_append
  have hout : s'.forwarded ++ s'.packets = s.forwarded ++ s.packets := by rw [← hs']
  have hq {i : Nat} (hi : i < s'.renditions.length) :
      s'.queueOf i = if i < s.renditions.length then s.queueOf i else [] := by
    rw [← hs']
    unfold queueOf
    split
    · next hlt => rw [hold hlt]
    · obtain rfl : i = s.renditions.length := by omega
      rw [hnew]
      rfl
  have hl {i : Nat} (hi : i < s'.renditions.length) (key : Nat) : (s'.continuityOf i).last? key =
      if i < s.renditions.length then (s.continuityOf i).last? key else none := by
    rw [← hs']
    split
    · next hlt =>
      unfold continuityOf
      rw [hold hlt]
    · obtain rfl : i = s.renditions.length := by omega
      rw [continuityOf_pos hnew hpos]
      rfl
  have hqu : s'.queued = s.queued := by
    rw [← hs', queued, flatMap_append]
    exact append_nil _
  refine ⟨by rw [← hs']; exact h.batch, ⟨?_, fun i hi key lastMs hk => ?_, fun i hi p hp => ?_, fun p hp => ?_,
    fun i hi j hj key hik hjk => ?_⟩, ?_, fun hone => by omega⟩
  · rw [hle, ← hs']
    exact Nat.lt_succ_of_lt h.inOrder.current
  · rw [hl hi] at hk
    rw [hout, hq hi]
    by_cases hlt : i < s.renditions.length
    · rw [if_pos hlt] at hk ⊢
      exact h.inOrder.ordered i hlt key lastMs hk
    · rw [if_neg hlt] at hk
      cases hk
  · rw [hq hi] at hp
    rw [hl hi]
    by_cases hlt : i < s.renditions.length
    · rw [if_pos hlt] at hp ⊢
      exact h.inOrder.owned i hlt p hp
    · rw [if_neg hlt] at hp
      cases hp
  · rw [hout] at hp
    obtain ⟨i, hi, hk⟩ := h.inOrder.source p hp
    have hi' : i < s'.renditions.length := by omega
    exact ⟨i, hi', by rw [hl hi', if_pos hi]; exact hk⟩
  · rw [hl hi] at hik
    rw [hl hj] at hjk
    by_cases hilt : i < s.renditions.length
    · by_cases hjlt : j < s.renditions.length
      · rw [if_pos hilt] at hik
        rw [if_pos hjlt] at hjk
        exact h.inOrder.disjoint i hilt j hjlt key hik hjk
      · rw [if_neg hjlt] at hjk
        exact (hjk rfl).elim
    · rw [if_neg hilt] at hik
      exact (hik rfl).elim
  · unfold Delivers
    rw [hout, hqu]
    exact h.delivers

theorem Inv.selectRendition (k : Nat) : Inv (s.selectRendition k) kept := by
  have hpos : 0 < s.renditions.length := Nat.zero_lt_of_lt h.inOrder.current
  unfold SegmentPublisher.selectRendition
  split
  · exact h.addRendition.setCurrent (by rw [length_append]; omega)
  · exact h.setCurrent (by omega)

theorem Inv.interleave (renditions windowMs : Nat) :
    Inv (s.interleave id renditions windowMs) kept := by
  have hs : SameContent s { s with expected := max renditions 1, windowMs := min windowMs i64Max } :=
    ⟨rfl, rfl, rfl, fun _ => rfl, fun _ _ => rfl⟩
  unfold SegmentPublisher.interleave
  dsimp only
  split
  · exact Inv.release (h.inOrder.of_same hs) (h.delivers.of_same hs) false
  · refine ⟨h.batch, h.inOrder.of_same hs, h.delivers.of_same hs, fun hone hn => ?_⟩
    refine h.settled hone (hn.imp_left fun hle => ?_)
    dsimp only at hle
    omega

theorem Inv.reanchor (hdts : ∀ p ∈ dr, 0 ≤ p.dts) (hs : s.Separate (s.due dr))
    (kind : DiscontinuityKind) : Inv (s.reanchor id dr kind) (kept ++ s.due dr) := by
  have hf := (h.forward hdts hs).1
  cases kind with
  | clock => exact hf.setContinuity last?_markClockDiscontinuity
  | timeline gen => exact hf.setContinuity rfl

theorem Inv.discardFailedObject : Inv s.discardFailedObject kept := by
  have he : ({ s with packets := [] } : SegmentPublisher) = s := by rw [← h.batch]
  unfold SegmentPublisher.discardFailedObject
  rw [he]
  exact (h.setContinuity last?_markClockDiscontinuity).setAwaiting true

end

section Flush

def dueOf (s : SegmentPublisher) (x : List MediaPacket × Nat) : List MediaPacket :=
  { s with current := x.2 }.due x.1

def SeparateAll (s : SegmentPublisher) (drained : List (List MediaPacket × Nat)) : Prop :=
  ∀ x ∈ drained, { s with current := x.2 }.Separate (s.dueOf x) ∧
    ∀ y ∈ drained, y.2 ≠ x.2 → ∀ p ∈ s.dueOf x, ∀ q ∈ s.dueOf y, streamKey q ≠ streamKey p

theorem Inv.flushEach (h : Inv s kept) (hl : i + dr.length = s.renditions.length)
    (hdts : ∀ d ∈ dr, ∀ p ∈ d, 0 ≤ p.dts) (hs : s.SeparateAll (dr.zipIdx i)) :
    Inv (s.flushEach id i dr) (kept ++ (dr.zipIdx i).flatMap s.dueOf) ∧
      (s.flushEach id i dr).renditions.length = s.renditions.length ∧
      (s.flushEach id i dr).expected = s.expected ∧
      (s.unbornAbsent = true → (s.flushEach id i dr).unbornAbsent = true) := by
  induction dr generalizing i s kept with
  | nil =>
    rw [zipIdx_nil, flatMap_nil, append_nil]
    exact ⟨h, rfl, rfl, id⟩
  | cons d dr ih =>
    rw [length_cons] at hl
    obtain ⟨hd, hdr⟩ := forall_mem_cons.mp hdts
    obtain ⟨⟨hfi, hap⟩, hr⟩ := forall_mem_cons.mp hs
    have hi : i < s.renditions.length := by omega
    obtain ⟨hn, hf, ho, hk⟩ := (h.setCurrent hi).forward hd hfi
    rw [SegmentPublisher.flushEach]
    generalize SegmentPublisher.forward id { s with current := i } d = next at hn hf ho hk
    have hdue : ∀ x ∈ dr.zipIdx (i + 1), next.dueOf x = s.dueOf x ∧ x.2 ≠ i := by
      intro x hx
      have hne : x.2 ≠ i := by
        have := (le_snd_of_mem_zipIdx hx)
        omega
      refine ⟨?_, hne⟩
      unfold dueOf due keepMedia
      rw [hf.expected]
      have ha : next.awaitingOf x.2 = s.awaitingOf x.2 := hf.awaiting x.2 hne
      change (if _ then (passesGap (next.awaitingOf x.2) x.1).filter _
        else passesGap (next.awaitingOf x.2) x.1) = _
      rw [ha]
      rfl
    have hs' : next.SeparateAll (dr.zipIdx (i + 1)) := by
      intro x hx
      obtain ⟨hxd, hne⟩ := hdue x hx
      obtain ⟨hxs, hxa⟩ := hr x hx
      rw [hxd]
      refine ⟨fun p hp => ⟨(hxs p hp).1, fun j hj hjx => ?_⟩, fun y hy hyx p hp q hq => ?_⟩
      · have hj' : j < s.renditions.length := by
          rw [← hf.length]
          exact hj
        have hb := (hxs p hp).2 j hj' hjx
        change (next.continuityOf j).last? (streamKey p) = none
        by_cases hji : j = i
        · rw [hji]
          rw [hji] at hb
          exact (hk (streamKey p)).mpr
            ⟨hb, fun q hq => (hap x (mem_cons_of_mem _ hx) hne q hq p hp).symm⟩
        · rw [ho j hj' hji]
          exact hb
      · rw [(hdue y hy).1] at hq
        exact hxa y (mem_cons_of_mem _ hy) hyx p hp q hq
    obtain ⟨hdo, hl', he, hu⟩ := ih hn (by rw [hf.length]; dsimp only; omega) hdr hs'
    refine ⟨?_, hl'.trans hf.length, he.trans hf.expected, fun h => hu (hf.unborn h)⟩
    rw [zipIdx_cons, flatMap_cons, ← append_assoc]
    have hfl : (dr.zipIdx (i + 1)).flatMap next.dueOf = (dr.zipIdx (i + 1)).flatMap s.dueOf :=
      flatMap_congr fun x hx => (hdue x hx).1
    rw [hfl] at hdo
    exact hdo

theorem Inv.flush (h : Inv s kept) (hl : dr.length = s.renditions.length)
    (hdts : ∀ d ∈ dr, ∀ p ∈ d, 0 ≤ p.dts) (hse : s.SeparateAll dr.zipIdx)
    (hb : 1 < s.renditions.length ∨ s.expected ≤ 1 ∨ s.unbornAbsent = true) :
    Inv (s.flush id dr) (kept ++ dr.zipIdx.flatMap s.dueOf) ∧ (s.flush id dr).queued = [] := by
  obtain ⟨hd, hl', he, hu⟩ := h.flushEach (by rw [Nat.zero_add]; exact hl) hdts hse
  unfold SegmentPublisher.flush
  dsimp only
  generalize s.flushEach id 0 dr = flushed at hd hl' he hu
  have hr := hd.setCurrent (hl'.symm ▸ h.inOrder.current)
  split
  · have hem :=
      queued_nil_of_all (releaseStep_releaseInterleaved id true
        { flushed with current := s.current })
    exact ⟨Inv.release hr.inOrder hr.delivers true, hem⟩
  · next hs =>
    refine ⟨hr, hr.settled ?_ ?_⟩
    · have hpos := h.inOrder.current
      dsimp only at hs ⊢
      omega
    · rw [he]
      rcases hb with hsev | hone | hg
      · omega
      · exact .inl hone
      · exact .inr (hu hg)

end Flush

end SegmentPublisher

open Option MediaPacket

inductive PublisherEvent where
  | publish (drained : List MediaPacket)
  | selectRendition (rendition : Nat)
  | reanchor (drained : List MediaPacket) (kind : DiscontinuityKind)
  | afterGap
  | discardFailedObject
  | interleave (renditions windowMs : Nat)
  | flush (drained : List (List MediaPacket))

def PublisherEvent.drained : PublisherEvent → List MediaPacket
  | .publish drained | .reanchor drained _ => drained
  | .flush drained => drained.flatten
  | _ => []

structure PublisherRun where
  publisher : SegmentPublisher
  kept : List MediaPacket
  flushed : Bool
  deriving DecidableEq

namespace PublisherRun

def start : PublisherRun := { publisher := .new, kept := [], flushed := false }

def step (clamp : Int → Int) (r : PublisherRun) : PublisherEvent → Option PublisherRun
  | .publish drained =>
    some { publisher := r.publisher.forward clamp drained, kept := r.kept ++ r.publisher.due drained, flushed := false }
  | .selectRendition rendition =>
    some { r with publisher := r.publisher.selectRendition rendition, flushed := false }
  | .reanchor drained kind => some {
      publisher := r.publisher.reanchor clamp drained kind
      kept := r.kept ++ r.publisher.due drained
      flushed := false }
  | .afterGap => some { r with publisher := r.publisher.afterGap, flushed := false }
  | .discardFailedObject =>
    some { r with publisher := r.publisher.discardFailedObject, flushed := false }
  | .interleave renditions windowMs =>
    some { r with publisher := r.publisher.interleave clamp renditions windowMs, flushed := false }
  | .flush drained =>
    if drained.length = r.publisher.renditions.length then
      some {
        publisher := r.publisher.flush clamp drained
        kept := r.kept ++ drained.zipIdx.flatMap r.publisher.dueOf
        flushed := true }
    else none

/-- Demuxed packets have no negative decode time, and no sum saturates. -/
def Valid (r : PublisherRun) (e : PublisherEvent) : Prop :=
  (∀ p ∈ e.drained, 0 ≤ p.dts) ∧ r.step saturate e = r.step id e

/-- The packets that are due are decoded before they are shown and belong to streams that
no other rendition has; no flush comes while an expected rendition is not there. -/
def Separate (r : PublisherRun) : PublisherEvent → Prop
  | .publish drained | .reanchor drained _ => r.publisher.Separate (r.publisher.due drained)
  | .flush drained => r.publisher.SeparateAll drained.zipIdx ∧
      (1 < r.publisher.renditions.length ∨ r.publisher.expected ≤ 1 ∨ r.publisher.unbornAbsent = true)
  | _ => True

def Sound (r : PublisherRun) (e : PublisherEvent) : Prop := r.Valid e ∧ r.Separate e

/-- Every stream's decode times increase, and every packet that was due is forwarded once,
shifted as a whole, or waits in a queue; after a flush none does. -/
structure Delivered (r : PublisherRun) : Prop where
  increasing : ∀ mediaType trackIndex, ((r.publisher.forwarded.filter fun p =>
    p.mediaType = mediaType ∧ p.trackIndex = trackIndex).map dts).Pairwise (· < ·)
  once : ∃ delivered, List.Forall₂ Shifted r.kept delivered ∧
    (r.publisher.forwarded ++ r.publisher.queued).Perm delivered
  flushed : r.flushed = true → r.publisher.queued = []

theorem step_inv {r r' : PublisherRun} (h : r.publisher.Inv r.kept)
    (hdts : ∀ p ∈ e.drained, 0 ≤ p.dts)
    (hse : r.Separate e) (hs : r.step id e = some r') :
    r'.publisher.Inv r'.kept ∧ (r'.flushed = true → r'.publisher.queued = []) := by
  cases e with
  | publish dr =>
    cases hs
    exact ⟨(h.forward hdts hse).1, nofun⟩
  | selectRendition k =>
    cases hs
    exact ⟨h.selectRendition k, nofun⟩
  | reanchor dr kind =>
    cases hs
    exact ⟨h.reanchor hdts hse kind, nofun⟩
  | afterGap =>
    cases hs
    exact ⟨h.setAwaiting true, nofun⟩
  | discardFailedObject =>
    cases hs
    exact ⟨h.discardFailedObject, nofun⟩
  | interleave renditions windowMs =>
    cases hs
    exact ⟨h.interleave renditions windowMs, nofun⟩
  | flush dr =>
    obtain ⟨hl, hs⟩ := ite_none_right_eq_some.mp hs
    cases hs
    obtain ⟨hdo, he⟩ := h.flush hl (fun d hd p hp => hdts p (mem_flatten.mpr ⟨d, hd, hp⟩)) hse.1 hse.2
    exact ⟨hdo, fun _ => he⟩

theorem inv_start : start.publisher.Inv start.kept := by
  have hone {i : Nat} (hi : i < start.publisher.renditions.length) : i = 0 := Nat.lt_one_iff.mp hi
  refine ⟨rfl, ⟨by decide, fun i hi key lastMs hl => ?_, fun i hi p hp => ?_, fun p hp => ?_,
    fun i hi j hj _ _ _ => (hone hi).trans (hone hj).symm⟩, ⟨[], .nil, .refl _⟩, fun _ _ => rfl⟩
  · obtain rfl := hone hi
    cases hl
  · obtain rfl := hone hi
    cases hp
  · cases hp

theorem increasing_of_inOrder {s : SegmentPublisher} (h : s.InOrder) (mt : MediaType) (ti : Nat) :
    ((s.forwarded.filter fun p => p.mediaType = mt ∧ p.trackIndex = ti).map dts).Pairwise (· <
      ·) := by
  rw [pairwise_map]
  cases hs : s.forwarded.filter fun p => p.mediaType = mt ∧ p.trackIndex = ti with
  | nil => exact .nil
  | cons p ps =>
    rw [← hs]
    have hp : p ∈ s.forwarded.filter fun p => p.mediaType = mt ∧ p.trackIndex = ti :=
      hs ▸ mem_cons_self
    obtain ⟨hmem, hof⟩ := mem_filter.mp hp
    obtain ⟨rfl, rfl⟩ := of_decide_eq_true hof
    obtain ⟨i, hi, hk⟩ := h.source p (mem_append_left _ hmem)
    obtain ⟨lastMs, hl⟩ := ne_none_iff_exists'.mp hk
    refine (h.ordered i hi (streamKey p) lastMs hl).1.sublist ?_
    have hkey : (s.forwarded.filter fun q => q.mediaType = p.mediaType ∧
      q.trackIndex = p.trackIndex) =
        (s.forwarded.filter fun q => streamKey q = streamKey p).filter fun q =>
          q.mediaType = p.mediaType ∧ q.trackIndex = p.trackIndex := by
      rw [List.filter_filter]
      refine List.filter_congr fun q _ => ?_
      rw [Bool.eq_iff_iff]
      simp only [decide_eq_true_eq, Bool.and_eq_true]
      refine ⟨fun hsa => ⟨hsa, ?_⟩, And.left⟩
      unfold streamKey
      rw [hsa.1, hsa.2]
    rw [hkey, filter_append, filter_append, append_assoc]
    exact filter_sublist.trans (sublist_append_left _ _)

end PublisherRun

open PublisherRun

/-- Calls in which no two renditions share a stream, packets are decoded before they are
shown and no flush comes too early deliver every packet that is due, in order. -/
theorem publisher_delivers {r : PublisherRun}
    (h : Reachable (PublisherRun.step saturate) PublisherRun.Sound PublisherRun.start r) :
    r.Delivered := by
  have hinv :=
    h.invariant (fun r => r.publisher.Inv r.kept ∧ (r.flushed = true → r.publisher.queued = []))
    (fun _ _ _ hinv hguard hstep =>
      step_inv hinv.1 hguard.1.1 hguard.2 (hguard.1.2.symm.trans hstep))
    ⟨inv_start, fun hflushed => Bool.noConfusion hflushed⟩
  obtain ⟨delivered, hkept, hperm⟩ := hinv.1.delivers
  rw [hinv.1.batch, List.append_nil] at hperm
  exact ⟨increasing_of_inOrder hinv.1.inOrder, ⟨delivered, hkept, hperm⟩, hinv.2⟩

section Runs

instance (s : SegmentPublisher) (packets : List MediaPacket) : Decidable (s.Separate packets) := by
  unfold SegmentPublisher.Separate
  infer_instance

instance (s : SegmentPublisher) (drained : List (List MediaPacket × Nat)) :
    Decidable (s.SeparateAll drained) := by
  unfold SegmentPublisher.SeparateAll
  infer_instance

instance (r : PublisherRun) (e : PublisherEvent) : Decidable (r.Valid e) := by
  unfold Valid
  infer_instance

instance (r : PublisherRun) (e : PublisherEvent) : Decidable (r.Separate e) := by
  unfold Separate
  split <;> infer_instance

instance (r : PublisherRun) (e : PublisherEvent) : Decidable (r.Sound e) :=
  inferInstanceAs (Decidable (r.Valid e ∧ r.Separate e))

def keyframeAt (dts : Int) : MediaPacket := .raw .video true dts

def audioAt (dts : Int) : MediaPacket := .raw .audio false dts

/-- A variant and its audio rendition, merged across a re-anchor and flushed. -/
theorem publisher_delivers_merged : ∃ r : PublisherRun,
    Reachable (PublisherRun.step saturate) PublisherRun.Sound PublisherRun.start r ∧
      r.publisher.forwarded.map dts = [0, 10, 40, 50, 51, 61] ∧ r.Delivered :=
  exists_reachable_and
    [.interleave 2 1000, .publish [keyframeAt 0, keyframeAt 40], .selectRendition 1,
      .publish [audioAt 10, audioAt 50], .reanchor [] (.timeline 1), .selectRendition 0,
      .reanchor [] (.timeline 1), .publish [keyframeAt 9000], .selectRendition 1,
      .publish [audioAt 9010], .flush [[], []]]
        (by decide +kernel) fun _ hr _ => publisher_delivers hr

/-- The variant's own audio comes back behind that of the audio rendition; a flush loses
what waits for a rendition that never came; and packets shown before they are decoded are
compared by the wrong time once they are shifted below 0. -/
theorem publisher_loses_order_and_packets :
    (∃ r, Reachable (PublisherRun.step saturate) PublisherRun.Valid PublisherRun.start r ∧
      (r.publisher.forwarded.filter fun p => p.mediaType = .audio ∧ p.trackIndex = 0).map dts =
        [0, 100, 50]) ∧
    (∃ r, Reachable (PublisherRun.step saturate) PublisherRun.Valid PublisherRun.start r ∧
      r.flushed = true ∧ r.kept = [keyframeAt 0] ∧ r.publisher.forwarded = []) ∧
    ∃ r, Reachable (PublisherRun.step saturate) PublisherRun.Valid PublisherRun.start r ∧
      (r.publisher.forwarded.filter fun p => p.mediaType = .audio ∧ p.trackIndex = 0).map dts =
        [-889, -939] :=
  ⟨exists_reachable_of_run
      [.interleave 2 1000, .publish [keyframeAt 0], .selectRendition 1,
        .publish [audioAt 0, audioAt 100], .interleave 1 1000, .selectRendition 0,
        .publish [keyframeAt 200, audioAt 50]] (by decide +kernel),
    exists_reachable_of_run [.interleave 2 1000, .publish [keyframeAt 0], .flush [[]]]
      (by decide +kernel),
    exists_reachable_of_run
      [.publish [keyframeAt 10], .reanchor [] .clock,
        .publish [keyframeAt 1000, { audioAt 100 with pts := 0 }, audioAt 50]] (by decide +kernel)⟩

end Runs

end Restream.Publisher
