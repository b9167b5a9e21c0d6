import Restream.PublisherSteps
import Restream.Tables

/-! Runs of the merge from any queues: packets arrive at renditions, and every arrival
and every forced release moves queued packets to the output. -/

namespace Restream.Publisher.SegmentPublisher

open List Option Int

inductive MergeEvent where
  | arrive (rendition : Nat) (packets : List MediaPacket)
  | release (all : Bool)

namespace MergeEvent

def all : MergeEvent → Bool
  | arrive _ _ => false
  | release all => all

def At (renditions : Nat) : MergeEvent → Prop
  | arrive rendition _ => rendition < renditions
  | release _ => True

def arriving (i : Nat) : MergeEvent → List MediaPacket
  | arrive rendition packets => if rendition = i then packets else []
  | release _ => []

end MergeEvent

def entered (s : SegmentPublisher) : MergeEvent → SegmentPublisher
  | .arrive rendition packets => { s with current := rendition }.enqueue packets
  | .release _ => s

def mergeStep (s : SegmentPublisher) (e : MergeEvent) : SegmentPublisher :=
  ((s.entered e).releaseInterleaved saturate e.all).forwardBatch

def arrived (s : SegmentPublisher) (events : List MergeEvent) (i : Nat) : List MediaPacket :=
  s.queueOf i ++ events.flatMap (MergeEvent.arriving i)

def output (s : SegmentPublisher) : List MediaPacket := s.forwarded ++ s.packets

def Nondecreasing (packets : List MediaPacket) : Prop := packets.Pairwise fun p q => p.dts ≤ q.dts

def expired (s : SegmentPublisher) : Prop :=
  s.waiting = true ∧ ∃ index dts, s.oldest = some (index, dts) ∧
    s.windowMs < saturate (s.newest - dts)

variable {s s' u : SegmentPublisher} {i n : Nat} {p : MediaPacket} {all : Bool} {e : MergeEvent}
  {queues : Nat → List MediaPacket}

theorem popFront_eq (h : s.popFront i = some s') :
    ∃ r p rest, s.renditions[i]? = some r ∧ r.queue = p :: rest ∧
    s' = { s with renditions := s.renditions.set i { r with queue := rest }, packets := s.packets ++ [p] } := by
  unfold popFront at h
  split at h
  · cases h
  · next r hr =>
    split at h <;> cases h
    · next p rest hq => exact ⟨r, p, rest, hr, hq, rfl⟩

def PopsOldest (s s' : SegmentPublisher) (i : Nat) (p : MediaPacket) : Prop :=
  Pops s s' i p ∧ ∀ j q, (s.queueOf j).head? = some q → p.dts ≤ q.dts

theorem oldest_le (h : s.oldest = some (index, dts)) :
    (∃ front, (s.queueOf index).head? = some front ∧ front.dts = dts) ∧
      ∀ j q, (s.queueOf j).head? = some q → dts ≤ q.dts := by
  have hf := oldest_found s
  rw [h] at hf
  obtain ⟨⟨r, front, hr, hh, hd⟩, hmin⟩ := hf
  refine ⟨⟨front, by rw [queueOf_eq hr, hh], hd⟩, fun j q hq => ?_⟩
  cases hj : s.renditions[j]? with
  | none => simp [queueOf, hj] at hq
  | some other => exact hmin (other, j) (mem_zipIdx_iff_getElem?.mpr hj) q (queueOf_eq hj ▸ hq)

theorem Pops.oldest {index : Nat} (h : Pops s s' index p) (ho : s.oldest = some (index, dts)) :
    PopsOldest s s' index p := by
  obtain ⟨⟨front, hh, hd⟩, hmin⟩ := oldest_le ho
  rw [h.front, head?_cons, Option.some.injEq] at hh
  exact ⟨h, fun j q hq => hh ▸ hd ▸ hmin j q hq⟩

theorem releaseStep_popsOldest (h : s.releaseStep saturate all = some s') :
    ∃ i p, PopsOldest s s' i p := by
  unfold releaseStep at h
  split at h
  · cases h
  · next index dts ho =>
    split at h
    · obtain ⟨-, h⟩ := ite_none_left_eq_some.mp h
      obtain ⟨p, hp⟩ := giveUp_popFront_pops h
      exact ⟨index, p, hp.oldest ho⟩
    · obtain ⟨p, hp⟩ := popFront_pops h
      exact ⟨index, p, hp.oldest ho⟩

theorem releaseLoop_induct {P : SegmentPublisher → Prop}
    (hst : ∀ s s', P s → s.releaseStep saturate all = some s' → P s') (hs : P s) :
    P (s.releaseLoop saturate all n) := by
  induction n generalizing s with
  | zero => exact hs
  | succ n ih =>
    rw [releaseLoop]
    split
    · exact hs
    · next s' h => exact ih (hst s s' hs h)

theorem Pops.output (h : Pops s s' i p) : s'.output = s.output ++ [p] := by
  simp only [SegmentPublisher.output, h.packets, h.forwarded, append_assoc]

def Kept (queues : Nat → List MediaPacket) (s : SegmentPublisher) : Prop :=
  ∃ out : List (Nat × MediaPacket), out.map Prod.snd = s.output ∧
    ∀ i, queues i = (out.filter fun x => x.1 = i).map Prod.snd ++ s.queueOf i

theorem Kept.pops (h : Kept queues s) (hp : Pops s s' i p) : Kept queues s' := by
  obtain ⟨out, hout, hq⟩ := h
  refine ⟨out ++ [(i, p)], by simp [hout, hp.output], fun j => ?_⟩
  rw [hq j]
  by_cases hj : j = i
  · simp [hj, hp.front]
  · simp [hp.queue j hj, Ne.symm hj]

structure Below (queues : Nat → List MediaPacket) (s : SegmentPublisher) : Prop where
  suffix : ∀ i, s.queueOf i <:+ queues i
  sorted : Nondecreasing s.output
  below : ∀ p ∈ s.output, ∀ i, ∀ q ∈ s.queueOf i, p.dts ≤ q.dts

theorem Below.pops (h : Below queues s) (hs : ∀ i, Nondecreasing (queues i))
    (hp : PopsOldest s s' i p) : Below queues s' := by
  obtain ⟨hp, hmin⟩ := hp
  have hsub (j : Nat) : s'.queueOf j <:+ s.queueOf j := by
    by_cases hj : j = i
    · rw [hj, hp.front]
      exact suffix_cons p _
    · exact hp.queue j hj ▸ suffix_rfl
  have hpi : p ∈ s.queueOf i := by simp [hp.front]
  have hle (j : Nat) {q : MediaPacket} (hq : q ∈ s.queueOf j) : p.dts ≤ q.dts := by
    obtain ⟨front, rest, heq⟩ := exists_cons_of_ne_nil (ne_nil_of_mem hq)
    have hfront := hmin j front (by rw [heq]; rfl)
    have hord := (hs j).sublist (h.suffix j).sublist
    rw [heq] at hq hord
    rcases mem_cons.mp hq with rfl | hq
    · exact hfront
    · exact le_trans hfront ((pairwise_cons.mp hord).1 q hq)
  refine ⟨fun j => (hsub j).trans (h.suffix j), ?_, fun q hq j r hr => ?_⟩
  · rw [hp.output]
    refine pairwise_append.mpr ⟨h.sorted, pairwise_singleton _ _, fun q hq r hr => ?_⟩
    exact mem_singleton.mp hr ▸ h.below q hq i p hpi
  · have hr := (hsub j).subset hr
    rw [hp.output] at hq
    rcases mem_append.mp hq with hq | hq
    · exact h.below q hq j r hr
    · exact mem_singleton.mp hq ▸ hle j hr

/-- Every rendition has arrived up to the end of the output: nothing that comes later is
older. -/
structure Covered (queues : Nat → List MediaPacket) (s : SegmentPublisher) :
    Prop extends Below queues s where
  present : ∀ r ∈ s.renditions, r.absent = false
  expected : s.renditions.length ≤ s.expected
  covered : ∀ p ∈ s.output, ∀ i < s.renditions.length, ∃ a ∈ queues i, p.dts ≤ a.dts

theorem queue_ne_nil_of_present (hw : s.waiting = false) (hp : ∀ r ∈ s.renditions, r.absent = false)
    (he : s.renditions.length ≤ s.expected) (hi : i < s.renditions.length) : s.queueOf i ≠ [] := by
  have hr : s.renditions[i]? = some s.renditions[i] := getElem?_eq_getElem hi
  rw [queueOf_eq hr]
  intro hq
  have hfound : (s.renditions.zipIdx.any fun x => x.1.queue.isEmpty && x.2 <
      s.expected && !x.1.absent) = true := by
    refine any_eq_true.mpr ⟨(s.renditions[i], i), mem_zipIdx_iff_getElem?.mpr hr, ?_⟩
    simp [hq, hp _ (getElem_mem hi), Nat.lt_of_lt_of_le hi he]
  simp [waiting, hfound] at hw

theorem releaseStep_in_time (hin : ¬s.expired) (h : s.releaseStep saturate false = some s') :
    s.waiting = false ∧ ∃ i, s.popFront i = some s' := by
  unfold releaseStep at h
  split at h
  · cases h
  · next index dts ho =>
    cases hw : s.waiting with
    | false => exact ⟨rfl, index, by simpa [hw] using h⟩
    | true =>
      have hle : saturate (s.newest - dts) ≤ s.windowMs :=
        not_lt.mp fun hlt => hin ⟨hw, index, dts, ho, hlt⟩
      simp [hw, hle] at h

theorem Covered.step (h : Covered queues s) (hs : ∀ i, Nondecreasing (queues i)) (hin : ¬s.expired)
    (hr : s.releaseStep saturate false = some s') : Covered queues s' := by
  obtain ⟨i, p, hp⟩ := releaseStep_popsOldest hr
  obtain ⟨hw, k, hk⟩ := releaseStep_in_time hin hr
  obtain ⟨r, front, rest, hget, -, rfl⟩ := popFront_eq hk
  refine { h.toBelow.pops hs hp with present := fun x hx => ?_, expected := ?_, covered := fun q hq j hj => ?_ }
  · rcases mem_or_eq_of_mem_set hx with hx | rfl
    · exact h.present x hx
    · exact h.present r (mem_of_getElem? hget)
  · simpa using h.expected
  · have hj : j < s.renditions.length := length_set ▸ hj
    rw [hp.1.output] at hq
    rcases mem_append.mp hq with hq | hq
    · exact h.covered q hq j hj
    · obtain ⟨a, more, heq⟩ :=
        exists_cons_of_ne_nil (queue_ne_nil_of_present hw h.present h.expected hj)
      have ha : a ∈ queues j := (h.suffix j).subset (by simp [heq])
      exact ⟨a, ha, mem_singleton.mp hq ▸ hp.2 j a (by rw [heq]; rfl)⟩

theorem Covered.releaseLoop (h : Covered queues s) (hs : ∀ i, Nondecreasing (queues i))
    (hin : ∀ m, ¬(s.releaseLoop saturate false m).expired) (n : Nat) :
    Covered queues (s.releaseLoop saturate false n) := by
  induction n generalizing s with
  | zero => exact h
  | succ n ih =>
    rw [SegmentPublisher.releaseLoop]
    split
    · exact h
    · next s' hr =>
      refine ih (h.step hs (hin 0) hr) fun m => ?_
      have hnext := hin (m + 1)
      rwa [SegmentPublisher.releaseLoop, hr] at hnext

open MergeEvent

theorem queueOf_entered (hat : e.At s.renditions.length) :
    (s.entered e).queueOf j = s.queueOf j ++ e.arriving j := by
  cases e with
  | release all => exact (append_nil _).symm
  | arrive k ps =>
    simp only [entered, enqueue, queueOf, arriving, getElem?_modify]
    by_cases hj : k = j
    · subst hj
      simp [getElem?_eq_getElem hat]
    · simp [hj]

theorem output_entered (hp : s.packets = []) (e : MergeEvent) : (s.entered e).output = s.output := by
  cases e with
  | release all => rfl
  | arrive k ps => simp [entered, enqueue, output, hp]

theorem output_forwardBatch (s : SegmentPublisher) : s.forwardBatch.output = s.output := by
  simp [forwardBatch, output]

theorem Kept.mergeStep (h : Kept queues s) (hp : s.packets = []) (hat : e.At s.renditions.length) :
    Kept (fun i => queues i ++ e.arriving i) (s.mergeStep e) := by
  obtain ⟨out, hout, hq⟩ := h
  have hent : Kept (fun i => queues i ++ e.arriving i) (s.entered e) :=
    ⟨out, by rw [hout, output_entered hp], fun i => by rw [queueOf_entered hat, ← append_assoc, ← hq i]⟩
  obtain ⟨out, hout, hq⟩ := releaseInterleaved_keeps (fun _ _ _ _ h hp => Kept.pops h hp) hent
  exact ⟨out, hout.trans (output_forwardBatch _).symm, hq⟩

theorem Below.forwardBatch (h : Below queues s) : Below queues s.forwardBatch :=
  ⟨h.suffix, (output_forwardBatch s).symm ▸ h.sorted, (output_forwardBatch s).symm ▸ h.below⟩

theorem Covered.mergeStep (h : Covered queues s) (hp : s.packets = [])
    (hat : e.At s.renditions.length)
    (hs : ∀ i, Nondecreasing (queues i ++ e.arriving i)) (hall : e.all = false)
    (hin : ∀ m, ¬((s.entered e).releaseLoop saturate false m).expired) :
    Covered (fun i => queues i ++ e.arriving i) (s.mergeStep e) := by
  have hout := output_entered hp e
  have hlen : (s.entered e).renditions.length = s.renditions.length := by
    cases e <;> simp [entered, enqueue]
  have hent : Covered (fun i => queues i ++ e.arriving i) (s.entered e) := by
    refine ⟨⟨fun i => ?_, hout ▸ h.sorted, fun p hp i q hq => ?_⟩,
      fun r hr => ?_, ?_, fun p hp i hi => ?_⟩
    · obtain ⟨t, ht⟩ := h.suffix i
      exact ⟨t, by rw [queueOf_entered hat, ← ht, append_assoc]⟩
    · rw [hout] at hp
      rw [queueOf_entered hat] at hq
      rcases mem_append.mp hq with hq | hq
      · exact h.below p hp i q hq
      · have hi : i < s.renditions.length := by
          cases e with
          | release all => cases hq
          | arrive k ps =>
            simp only [arriving] at hq
            split at hq
            · next hk => exact hk ▸ hat
            · cases hq
        obtain ⟨a, ha, hle⟩ := h.covered p hp i hi
        exact le_trans hle ((pairwise_append.mp (hs i)).2.2 a ha q hq)
    · cases e with
      | release all => exact h.present r hr
      | arrive k ps =>
        obtain ⟨j, hj⟩ := getElem?_of_mem hr
        obtain ⟨x, hx, rfl⟩ := getElem?_modify_cases hj
        have hpresent := h.present x (mem_of_getElem? hx)
        split
        · simp [hpresent]
        · exact hpresent
    · rw [hlen]
      cases e <;> exact h.expected
    · obtain ⟨a, ha, hle⟩ := h.covered p (hout ▸ hp) i (hlen ▸ hi)
      exact ⟨a, mem_append_left _ ha, hle⟩
  have hrun := hent.releaseLoop hs hin (s.entered e).queued.length
  rw [SegmentPublisher.mergeStep, hall]
  exact ⟨hrun.toBelow.forwardBatch, hrun.present, hrun.expected,
    (output_forwardBatch _).symm ▸ hrun.covered⟩

theorem popFront_ne_none (h : s.queueOf i ≠ []) : s.popFront i ≠ none := by
  intro hnone
  unfold popFront at hnone
  split at hnone
  · next hr => exact h (by simp [queueOf, hr])
  · next r hr =>
    split at hnone
    · next hq => exact h (by rw [queueOf_eq hr, hq])
    · cases hnone

theorem not_expired_of_stuck (h : s.releaseStep saturate all = none) : ¬s.expired := by
  rintro ⟨hw, index, dts, ho, hlt⟩
  obtain ⟨⟨front, hh, -⟩, -⟩ := oldest_le ho
  have hq : s.queueOf index ≠ [] := fun hq => by simp [hq] at hh
  have hq' : s.giveUp.queueOf index ≠ [] := (giveUp_same s index).1 ▸ hq
  simp only [releaseStep, ho, if_neg (not_le.mpr hlt)] at h
  split at h
  · exact popFront_ne_none hq' h
  · exact popFront_ne_none hq h

theorem back_le_newest (hr : r ∈ s.renditions) (hb : r.queue.getLast? = some back) :
    back.dts ≤ s.newest := by
  have hmax {f : Int → Rendition → Int} (hf : ∀ d r, d ≤ f d r)
      (rs : List Rendition) (d : Int) : d ≤ rs.foldl f d := by
    induction rs generalizing d with
    | nil => exact le_refl d
    | cons r rs ih => exact le_trans (hf d r) (ih _)
  obtain ⟨pre, post, heq⟩ := append_of_mem hr
  rw [newest, heq, foldl_append, foldl_cons, hb]
  refine le_trans (le_max_right _ _) (hmax (fun d r => ?_) post _)
  split
  · exact le_refl d
  · exact le_max_left d _

theorem span_le_window (hx : ¬s.expired) (hw : s.waiting = true) (hwin : s.windowMs < i64Max)
    (hs : Nondecreasing (s.queueOf j)) (hf : (s.queueOf i).head? = some front)
    (hq : q ∈ s.queueOf j) : q.dts - front.dts ≤ s.windowMs := by
  cases hj : s.renditions[j]? with
  | none => simp [queueOf, hj] at hq
  | some r =>
    rw [queueOf_eq hj] at hq hs
    have hne : r.queue ≠ [] := ne_nil_of_mem hq
    have hback := back_le_newest (mem_of_getElem? hj) (getLast?_eq_some_getLast hne)
    have hqb : q.dts ≤ (r.queue.getLast hne).dts := by
      rw [← dropLast_append_getLast hne] at hq hs
      rcases mem_append.mp hq with hq | hq
      · exact (pairwise_append.mp hs).2.2 q hq _ (mem_singleton_self _)
      · exact le_of_eq (congrArg _ (mem_singleton.mp hq))
    cases ho : s.oldest with
    | none =>
      have hnil := queued_nil_of_oldest ho
      exact absurd (mem_flatMap.mpr ⟨r, mem_of_getElem? hj, hq⟩) (by rw [queued] at hnil; simp [hnil])
    | some o =>
      have hle : saturate (s.newest - o.2) ≤ s.windowMs :=
        not_lt.mp fun hlt => hx ⟨hw, o.1, o.2, ho, hlt⟩
      have hmin := (oldest_le ho).2 i front hf
      simp only [saturate] at hle
      omega

/-- The publisher without its timelines and its batch. -/
def untimed (s : SegmentPublisher) : SegmentPublisher :=
  { s with
    renditions := s.renditions.map fun r => { r with continuous := .default }
    packets := []
    continuous := .default }

theorem untimed_setContinuity (s : SegmentPublisher) (i : Nat) (st : ContinuousTimestampState) :
    (s.setContinuity i st).untimed = s.untimed := by
  unfold setContinuity
  split
  · refine congrArg (fun rs => { s.untimed with renditions := rs }) (ext_getElem? fun j => ?_)
    rw [getElem?_map, getElem?_map, getElem?_modify]
    cases s.renditions[j]? with
    | none => rfl
    | some r =>
      by_cases hij : i = j
      · simp [hij]
      · simp [hij]
  · rfl

theorem forwardMerged_arrives (s : SegmentPublisher) (ps : List MediaPacket) :
    ∃ (u : SegmentPublisher) (qs : List MediaPacket), u.untimed = s.untimed ∧
      s.forwardMerged saturate ps = u.mergeStep (.arrive s.current qs) := by
  generalize halign : alignRebase saturate { s with packets := s.keepMedia ps } s.current = a
  have ha : a.untimed = s.untimed := by
    rcases alignRebase_cases saturate { s with packets := s.keepMedia ps } s.current with h | ⟨_, h⟩
    · rw [← halign, h]
      rfl
    · rw [← halign, h, untimed_setContinuity]
      rfl
  have hu := (a.untimed_setContinuity a.current
    ((a.continuityOf a.current).applyAll saturate a.packets).1).trans ha
  refine ⟨_, ((a.continuityOf a.current).applyAll saturate a.packets).2, hu, ?_⟩
  rw [forwardMerged, halign, show s.current = s.untimed.current from rfl, ← hu]
  rfl

/-- In no call before the last has a rendition been given up. -/
def InTime (s : SegmentPublisher) (events : List MergeEvent) : Prop :=
  ∀ pre e post, events = pre ++ e :: post → e.all = false ∧
    ∀ n, ¬(((pre.foldl mergeStep s).entered e).releaseLoop saturate false n).expired

theorem length_mergeStep (e : MergeEvent) :
    (s.mergeStep e).renditions.length = s.renditions.length := by
  have hent : (s.entered e).renditions.length = s.renditions.length := by
    cases e <;> simp [entered, enqueue]
  exact releaseInterleaved_keeps (P := fun u => u.renditions.length = s.renditions.length)
    (fun _ _ _ _ h hp => hp.length.trans h) hent

theorem arrived_concat (s : SegmentPublisher) (events : List MergeEvent) (e : MergeEvent) :
    s.arrived (events ++ [e]) = fun i => s.arrived events i ++ e.arriving i :=
  funext fun i => by simp [arrived]

section
variable (hp : s.packets = []) (hf : s.forwarded = []) {events : List MergeEvent}
  (hat : ∀ e ∈ events, e.At s.renditions.length)
include hp hf hat

theorem run_kept :
    (events.foldl mergeStep s).packets = [] ∧
    (events.foldl mergeStep s).renditions.length = s.renditions.length ∧
      Kept (s.arrived events) (events.foldl mergeStep s) := by
  induction events using reverseRecOn with
  | nil => exact ⟨hp, rfl, [], by simp [output, hp, hf], fun i => by simp [arrived]⟩
  | append_singleton pre e ih =>
    obtain ⟨hpack, hlen, hkept⟩ := ih fun x hx => hat x (mem_append_left _ hx)
    have he : e.At (pre.foldl mergeStep s).renditions.length := hlen ▸ hat e (by simp)
    rw [foldl_concat]
    exact ⟨rfl, (length_mergeStep e).trans hlen, arrived_concat s pre e ▸ hkept.mergeStep hpack he⟩

theorem run_covered (hs : ∀ i, Nondecreasing (s.arrived events i))
    (he : s.renditions.length ≤ s.expected) (ha : ∀ r ∈ s.renditions, r.absent = false)
    (hin : s.InTime events) : Covered (s.arrived events) (events.foldl mergeStep s) := by
  induction events using reverseRecOn with
  | nil =>
    have hout : s.output = [] := by simp [output, hp, hf]
    exact ⟨⟨fun i => by simp [arrived], by simp [hout, Nondecreasing], by simp [hout]⟩,
      ha, he, by simp [hout]⟩
  | append_singleton pre e ih =>
    have hpre : ∀ x ∈ pre, x.At s.renditions.length := fun x hx => hat x (mem_append_left _ hx)
    obtain ⟨hpack, hlen, -⟩ := run_kept hp hf hpre
    obtain ⟨hall, htime⟩ := hin pre e [] rfl
    rw [arrived_concat] at hs ⊢
    have hc := ih hpre (fun i => (hs i).sublist (sublist_append_left _ _))
      fun p x post heq => hin p x (post ++ [e]) (by rw [heq]; simp)
    rw [foldl_concat]
    exact hc.mergeStep hpack (hlen ▸ hat e (by simp)) hs hall htime

end

/-- From any queues, and for every list of arrivals and releases: what has arrived at a
rendition leaves in its order or is still queued. Each turn of the merge takes the oldest
front and the merge stops. A call that ends while a rendition is awaited leaves a span of
the window at most between the oldest front and the latest back, and between any queued
packets of queues in order. A release of all empties the queues. If no wait has run out
before it, the output of renditions in order is in order. -/
theorem merge_in_order (s : SegmentPublisher) (hp : s.packets = []) (hf : s.forwarded = [])
    (events : List MergeEvent) (hat : ∀ e ∈ events, e.At s.renditions.length) :
    Kept (s.arrived events) (events.foldl mergeStep s) ∧
    (∀ (u u' : SegmentPublisher) (all : Bool), u.releaseStep saturate all = some u' →
      ∃ i p, u.queueOf i = p :: u'.queueOf i ∧ u'.packets = u.packets ++ [p] ∧
        ∀ j q, (u.queueOf j).head? = some q → p.dts ≤ q.dts) ∧
    (∀ (u : SegmentPublisher) (all : Bool),
      (u.releaseInterleaved saturate all).releaseStep saturate all = none) ∧
    (∀ (u : SegmentPublisher) (e : MergeEvent), ¬(u.mergeStep e).expired ∧
      ((u.mergeStep e).waiting = true → (u.mergeStep e).windowMs < i64Max →
        ∀ (i j : Nat) (front q : MediaPacket),
        Nondecreasing ((u.mergeStep e).queueOf j) → ((u.mergeStep e).queueOf i).head? = some front →
        q ∈ (u.mergeStep e).queueOf j → q.dts - front.dts ≤ (u.mergeStep e).windowMs)) ∧
    (∀ u : SegmentPublisher, (u.mergeStep (.release true)).queued = []) ∧
    ((∀ i, Nondecreasing (s.arrived events i)) → s.renditions.length ≤ s.expected →
      (∀ r ∈ s.renditions, r.absent = false) → s.InTime events →
      Nondecreasing ((events.foldl mergeStep s).mergeStep (.release true)).forwarded) := by
  have hstop (u : SegmentPublisher) (e : MergeEvent) : ¬(u.mergeStep e).expired := fun hx =>
    not_expired_of_stuck (releaseStep_releaseInterleaved saturate e.all (u.entered e)) hx
  refine ⟨(run_kept hp hf hat).2.2, fun u u' all h => ?_,
    fun u all => releaseStep_releaseInterleaved _ _ _,
    fun u e => ⟨hstop u e,
      fun hw hwin i j front q hs hfront hq => span_le_window (hstop u e) hw hwin hs hfront hq⟩,
    fun u => show (u.releaseInterleaved saturate true).queued = [] from queued_nil_of_all
      (releaseStep_releaseInterleaved _ _ _), fun hs he ha hin => ?_⟩
  · obtain ⟨i, p, hpop, hmin⟩ := releaseStep_popsOldest h
    exact ⟨i, p, hpop.front, hpop.packets, hmin⟩
  · have hc := (run_covered hp hf hat hs he ha hin).toBelow
    have hlast : Below (s.arrived events)
        ((events.foldl mergeStep s).releaseInterleaved saturate true) := by
      refine releaseLoop_induct (fun _ _ h hr => ?_) hc
      obtain ⟨i, p, hpop⟩ := releaseStep_popsOldest hr
      exact h.pops hs hpop
    exact hlast.sorted

def twoRenditions (queue : List Int) : SegmentPublisher :=
  { new with
    renditions := [{ Rendition.new with queue := queue.map (.raw .video false) }, .new], expected :=
      2, windowMs := 10 }

theorem merge_in_order_two :
    ([.arrive 1 [.raw .audio false 3],
      .release false].foldl mergeStep (twoRenditions [0, 5])).forwarded =
      [.raw .video false 0, .raw .audio false 3] ∧
    Kept ((twoRenditions [0, 5]).arrived [.arrive 1 [.raw .audio false 3], .release false])
      ([.arrive 1 [.raw .audio false 3], .release false].foldl mergeStep (twoRenditions [0, 5])) :=
  ⟨by decide +kernel, (merge_in_order (twoRenditions [0, 5]) rfl rfl _ (by simp [At, twoRenditions])).1⟩

/-- The latest back is not the latest packet of a queue out of order: 100 ms are queued
behind a window of 10 ms. -/
theorem span_exceeds_window :
    ((twoRenditions [0, 100, 5]).mergeStep (.release false)).waiting = true ∧
    (((twoRenditions [0, 100, 5]).mergeStep (.release false)).queueOf 0).map MediaPacket.dts =
      [0, 100, 5] ∧
    ((twoRenditions [0, 100, 5]).mergeStep (.release false)).windowMs = 10 := by
  decide +kernel

end Restream.Publisher.SegmentPublisher
