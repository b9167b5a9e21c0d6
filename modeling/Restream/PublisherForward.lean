import Restream.PublisherRelease

/-! What the publisher forwards: every stream belongs to one rendition and keeps its order,
and every packet that is due is forwarded or queued once. -/

namespace Restream.Publisher

open List Option

theorem Ordered.of_last?_eq (h : Ordered s ps) (hl : s'.last? = s.last?) : Ordered s' ps := by
  unfold Ordered
  rw [hl]
  exact h

namespace SegmentPublisher

variable {s s' t : SegmentPublisher} {i j : Nat} {kept : List MediaPacket}

structure InOrder (s : SegmentPublisher) : Prop where
  current : s.current < s.renditions.length
  ordered : ∀ i < s.renditions.length, Ordered (s.continuityOf i)
    (s.forwarded ++ s.packets ++ s.queueOf i)
  owned : ∀ i < s.renditions.length, ∀ p ∈ s.queueOf i, (s.continuityOf i).last? (streamKey p) ≠ none
  source : ∀ p ∈ s.forwarded ++ s.packets, ∃ i < s.renditions.length,
    (s.continuityOf i).last? (streamKey p) ≠ none
  disjoint : ∀ i < s.renditions.length, ∀ j < s.renditions.length,
    ∀ key, (s.continuityOf i).last? key ≠ none →
    (s.continuityOf j).last? key ≠ none → i = j

def Delivers (s : SegmentPublisher) (kept : List MediaPacket) : Prop :=
  ∃ delivered, List.Forall₂ Shifted kept delivered ∧
    (s.forwarded ++ s.packets ++ s.queued).Perm delivered

structure SameContent (s s' : SegmentPublisher) : Prop where
  length : s'.renditions.length = s.renditions.length
  current : s'.current = s.current
  out : s'.forwarded ++ s'.packets = s.forwarded ++ s.packets
  queue : ∀ i, s'.queueOf i = s.queueOf i
  last : ∀ i < s.renditions.length, (s'.continuityOf i).last? = (s.continuityOf i).last?

theorem queued_eq : s.queued = (range s.renditions.length).flatMap s.queueOf := by
  rw [queued, flatMap_def]
  congr 1
  refine ext_getElem? fun i => ?_
  rw [getElem?_map, getElem?_map]
  by_cases hi : i < s.renditions.length
  · rw [getElem?_eq_getElem hi, getElem?_range hi, map_some, map_some,
      queueOf_eq (getElem?_eq_getElem hi)]
  · rw [getElem?_eq_none (by omega), getElem?_eq_none (by rw [length_range]; omega)]
    rfl

theorem SameContent.queued (h : SameContent s s') : s'.queued = s.queued := by
  rw [queued_eq, queued_eq, h.length]
  exact flatMap_congr fun i _ => h.queue i

theorem InOrder.of_same (h : s.InOrder) (hs : SameContent s s') : s'.InOrder := by
  refine ⟨?_, fun i hi => ?_, fun i hi p hp => ?_, fun p hp => ?_, fun i hi j hj key hik hjk => ?_⟩
  · rw [hs.length, hs.current]
    exact h.current
  · rw [hs.length] at hi
    rw [hs.out, hs.queue]
    exact (h.ordered i hi).of_last?_eq (hs.last i hi)
  · rw [hs.length] at hi
    rw [hs.queue] at hp
    rw [hs.last i hi]
    exact h.owned i hi p hp
  · rw [hs.out] at hp
    obtain ⟨i, hi, hk⟩ := h.source p hp
    exact ⟨i, hs.length.symm ▸ hi, by rw [hs.last i hi]; exact hk⟩
  · rw [hs.length] at hi hj
    rw [hs.last i hi] at hik
    rw [hs.last j hj] at hjk
    exact h.disjoint i hi j hj key hik hjk

theorem Delivers.of_same (h : s.Delivers kept) (hs : SameContent s s') : s'.Delivers kept := by
  unfold Delivers
  rw [hs.out, hs.queued]
  exact h

section Pops

theorem InOrder.pops (h : s.InOrder) (hp : Pops s s' i p) : s'.InOrder := by
  have hout : s'.forwarded ++ s'.packets = s.forwarded ++ s.packets ++ [p] := by
    rw [hp.forwarded, hp.packets, append_assoc]
  have hkn : (s.continuityOf i).last? (streamKey p) ≠ none :=
    h.owned i hp.index p (by rw [hp.front]; exact mem_cons_self)
  refine ⟨?_, fun j hj => ?_, fun j hj q hq => ?_, fun q hq => ?_, fun j hj k hk key hjk hkk => ?_⟩
  · rw [hp.length, hp.current]
    exact h.current
  · rw [hp.length] at hj
    rw [hout, hp.continuity]
    by_cases hji : j = i
    · subst hji
      have ho := h.ordered j hj
      rw [hp.front, append_cons] at ho
      exact ho
    · rw [hp.queue j hji]
      intro key lastMs hl
      have hne : streamKey p ≠ key := by
        rintro rfl
        exact hji (h.disjoint j hj i hp.index _ (by rw [hl]; simp) hkn)
      obtain ⟨hs, hle⟩ := h.ordered j hj key lastMs hl
      have hf : (s.forwarded ++ s.packets ++ [p] ++ s.queueOf j).filter (fun q => streamKey q = key) =
          (s.forwarded ++ s.packets ++ s.queueOf j).filter fun q => streamKey q = key := by
        simp [filter_append, hne]
      rw [hf]
      refine ⟨hs, fun q hq hkey => ?_⟩
      rcases mem_append.mp hq with hq | hq
      · rcases mem_append.mp hq with hq | hq
        · exact hle q (mem_append_left _ hq) hkey
        · obtain rfl := mem_singleton.mp hq
          exact (hne hkey).elim
      · exact hle q (mem_append_right _ hq) hkey
  · rw [hp.length] at hj
    rw [hp.continuity]
    by_cases hji : j = i
    · subst hji
      exact h.owned j hj q (by rw [hp.front]; exact mem_cons_of_mem _ hq)
    · rw [hp.queue j hji] at hq
      exact h.owned j hj q hq
  · rw [hout] at hq
    rcases mem_append.mp hq with hq | hq
    · obtain ⟨j, hj, hjkn⟩ := h.source q hq
      exact ⟨j, hp.length.symm ▸ hj, by rw [hp.continuity]; exact hjkn⟩
    · obtain rfl := mem_singleton.mp hq
      exact ⟨i, hp.length.symm ▸ hp.index, by rw [hp.continuity]; exact hkn⟩
  · rw [hp.length] at hj hk
    rw [hp.continuity] at hjk hkk
    exact h.disjoint j hj k hk key hjk hkk

theorem Delivers.pops (h : s.Delivers kept) (hp : Pops s s' i p) : s'.Delivers kept := by
  obtain ⟨del, hs, hpe⟩ := h
  refine ⟨del, hs, ?_⟩
  rw [hp.forwarded, hp.packets, ← append_assoc, append_assoc]
  exact (hp.queued.symm.append_left _).trans hpe

end Pops

theorem forwardBatch_same (s : SegmentPublisher) : SameContent s s.forwardBatch where
  length := rfl
  current := rfl
  out := append_nil _
  queue _ := rfl
  last _ _ := rfl

section Parts

theorem continuityOf_zero : s.continuityOf 0 = s.continuous := by
  unfold continuityOf
  split <;> rfl

theorem continuityOf_pos (h : s.renditions[i]? = some r) (hi : 0 < i) :
    s.continuityOf i = r.continuous := by
  unfold continuityOf
  rw [h]
  exact if_pos hi

theorem continuityOf_setContinuity (hi : i < s.renditions.length) (hj : j < s.renditions.length) :
    (s.setContinuity i st).continuityOf j = if j = i then st else s.continuityOf j := by
  obtain ⟨r, hr⟩ : ∃ r, s.renditions[j]? = some r := ⟨_, getElem?_eq_getElem hj⟩
  unfold setContinuity
  by_cases hpos : 0 < i
  · rw [if_pos ⟨hpos, hi⟩]
    by_cases hji : j = i
    · subst hji
      rw [if_pos rfl, continuityOf_pos (r := { r with continuous := st }) (by
        rw [getElem?_modify_eq, hr]
        rfl) hpos]
    · rw [if_neg hji]
      unfold continuityOf
      rw [getElem?_modify_ne _ _ (Ne.symm hji)]
  · obtain rfl : i = 0 := by omega
    rw [if_neg (by simp)]
    by_cases hj0 : j = 0
    · subst hj0
      rw [if_pos rfl, continuityOf_zero]
    · rw [if_neg hj0, continuityOf_pos hr (by omega),
        continuityOf_pos (s := { s with continuous := st }) hr (by omega)]

theorem setContinuity_frame (s : SegmentPublisher) (i : Nat) (st : ContinuousTimestampState) :
    (s.setContinuity i st).renditions.length = s.renditions.length ∧
    (s.setContinuity i st).current = s.current ∧ (s.setContinuity i st).expected = s.expected ∧
    (s.setContinuity i st).unbornAbsent = s.unbornAbsent ∧
    (s.setContinuity i st).forwarded = s.forwarded ∧ (s.setContinuity i st).packets = s.packets ∧
    ∀ j, (s.setContinuity i st).queueOf j = s.queueOf j ∧
      (s.setContinuity i st).awaitingOf j = s.awaitingOf j := by
  unfold setContinuity
  split
  · refine ⟨length_modify .., rfl, rfl, rfl, rfl, rfl, fun j => ?_⟩
    unfold queueOf awaitingOf
    by_cases hji : j = i
    · subst hji
      rw [getElem?_modify_eq]
      cases s.renditions[j]? <;> exact ⟨rfl, rfl⟩
    · rw [getElem?_modify_ne _ _ (Ne.symm hji)]
      exact ⟨rfl, rfl⟩
  · exact ⟨rfl, rfl, rfl, rfl, rfl, rfl, fun j => ⟨rfl, rfl⟩⟩

theorem setContinuity_same (hi : i < s.renditions.length)
    (hla : st.last? = (s.continuityOf i).last?) : SameContent s (s.setContinuity i st) := by
  obtain ⟨hl, hc, -, -, hf, hp, hq⟩ := setContinuity_frame s i st
  refine ⟨hl, hc, by rw [hf, hp], fun j => (hq j).1, fun j hj => ?_⟩
  rw [continuityOf_setContinuity hi hj]
  split
  · next hji => rw [hji, hla]
  · rfl

theorem alignRebase_cases (clamp : Int → Int) (s : SegmentPublisher) (i : Nat) :
    s.alignRebase clamp i = s ∨
    ∃ offsetMs, s.alignRebase clamp i = s.setContinuity i ((s.continuityOf i).rebaseTo offsetMs) := by
  unfold alignRebase
  dsimp only
  split
  · exact .inl rfl
  · split
    · exact .inl rfl
    · exact .inr ⟨_, rfl⟩

theorem setAwaiting_frame (s : SegmentPublisher) (aw : Bool) (j : Nat) :
    (s.setAwaiting aw).queueOf j = s.queueOf j ∧
    (s.setAwaiting aw).continuityOf j = s.continuityOf j ∧
      (j ≠ s.current → (s.setAwaiting aw).awaitingOf j = s.awaitingOf j) := by
  unfold setAwaiting queueOf continuityOf awaitingOf
  by_cases hj : j = s.current
  · subst hj
    rw [getElem?_modify_eq]
    cases s.renditions[s.current]? <;> exact ⟨rfl, rfl, fun h => (h rfl).elim⟩
  · rw [getElem?_modify_ne _ _ (Ne.symm hj)]
    exact ⟨rfl, rfl, fun _ => rfl⟩

theorem setAwaiting_same (s : SegmentPublisher) (aw : Bool) : SameContent s (s.setAwaiting aw) where
  length := length_modify ..
  current := rfl
  out := rfl
  queue j := (setAwaiting_frame s aw j).1
  last j _ := by rw [(setAwaiting_frame s aw j).2.1]

theorem queueOf_enqueue (hc : s.current < s.renditions.length) :
    (s.enqueue ps).queueOf j = if j = s.current then s.queueOf j ++ ps else s.queueOf j := by
  unfold enqueue queueOf
  split
  · next hj =>
    subst hj
    rw [getElem?_modify_eq, getElem?_eq_getElem hc]
    rfl
  · next hj => rw [getElem?_modify_ne _ _ (Ne.symm hj)]

theorem enqueue_frame :
    (s.enqueue ps).continuityOf j = s.continuityOf j ∧
    (s.enqueue ps).awaitingOf j = s.awaitingOf j := by
  unfold enqueue continuityOf awaitingOf
  by_cases hj : j = s.current
  · subst hj
    rw [getElem?_modify_eq]
    cases s.renditions[s.current]? <;> exact ⟨rfl, rfl⟩
  · rw [getElem?_modify_ne _ _ (Ne.symm hj)]
    exact ⟨rfl, rfl⟩

theorem queued_enqueue (hc : s.current < s.renditions.length) :
    (s.enqueue ps).queued.Perm (s.queued ++ ps) := by
  have hl : (s.enqueue ps).renditions.length = s.renditions.length := length_modify ..
  have hr : (s.enqueue ps).renditions.eraseIdx s.current = s.renditions.eraseIdx s.current := by
    unfold enqueue
    rw [modify_eq_set_getElem?, getElem?_eq_getElem hc]
    exact eraseIdx_set_eq
  refine (queued_perm (hl.symm ▸ hc)).trans ?_
  rw [queueOf_enqueue hc, if_pos rfl, hr, append_assoc]
  refine (perm_append_comm.append_left _).trans ?_
  rw [← append_assoc]
  exact (queued_perm hc).symm.append_right _

end Parts

end SegmentPublisher

end Restream.Publisher
