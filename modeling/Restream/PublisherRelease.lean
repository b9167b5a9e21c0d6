import Mathlib.Data.List.Perm.Basic
import Restream.SegmentPublisher

/-! The merge of the renditions' queues: each turn moves one packet from the front of a
queue to the batch, and the merge stops by itself. -/

namespace Restream.Publisher.SegmentPublisher

open List Option

variable {all : Bool} {s s' : SegmentPublisher} {i : Nat} {p : MediaPacket}

def queueOf (s : SegmentPublisher) (i : Nat) : List MediaPacket :=
  (s.renditions[i]?.map Rendition.queue).getD []

def awaitingOf (s : SegmentPublisher) (i : Nat) : Bool :=
  s.renditions[i]?.any Rendition.awaitingKeyframe

theorem queueOf_eq (h : s.renditions[i]? = some r) : s.queueOf i = r.queue := by
  rw [queueOf, h]
  rfl

theorem queued_perm (h : i < s.renditions.length) :
    s.queued.Perm (s.queueOf i ++ (s.renditions.eraseIdx i).flatMap Rendition.queue) := by
  have hi : s.renditions[i]? = some s.renditions[i] := getElem?_eq_getElem h
  have hp : s.renditions.Perm (s.renditions[i] :: s.renditions.eraseIdx i) :=
    (getElem_cons_eraseIdx_perm h).symm
  rw [queueOf_eq hi]
  exact hp.flatMap_right _

structure Pops (s s' : SegmentPublisher) (i : Nat) (p : MediaPacket) : Prop where
  index : i < s.renditions.length
  length : s'.renditions.length = s.renditions.length
  packets : s'.packets = s.packets ++ [p]
  forwarded : s'.forwarded = s.forwarded
  current : s'.current = s.current
  expected : s'.expected = s.expected
  unborn : s.unbornAbsent = true → s'.unbornAbsent = true
  front : s.queueOf i = p :: s'.queueOf i
  queue : ∀ j, j ≠ i → s'.queueOf j = s.queueOf j
  continuity : ∀ j, s'.continuityOf j = s.continuityOf j
  awaiting : ∀ j, s'.awaitingOf j = s.awaitingOf j
  queued : s.queued.Perm (p :: s'.queued)

theorem popFront_pops (h : s.popFront i = some s') : ∃ p, Pops s s' i p := by
  unfold popFront at h
  split at h
  · cases h
  · next r hr =>
    split at h <;> cases h
    · next p queue hq =>
      have hlt := (List.getElem?_eq_some_iff.mp hr).1
      have hs : (s.renditions.set i { r with queue := queue })[i]? = some { r with queue := queue } :=
        getElem?_set_self hlt
      have ho (j : Nat) (hj : j ≠ i) : (s.renditions.set i { r with queue := queue })[j]? =
          s.renditions[j]? :=
        getElem?_set_ne (Ne.symm hj)
      refine ⟨p, hlt, length_set, rfl, rfl, rfl, rfl, id,
        ?_, fun j hj => ?_, fun j => ?_, fun j => ?_, ?_⟩
      · rw [queueOf_eq hr, hq, queueOf, hs]
        rfl
      · rw [queueOf, ho j hj]
        rfl
      · unfold continuityOf
        by_cases hj : j = i
        · rw [hj, hs, hr]
        · rw [ho j hj]
      · unfold awaitingOf
        by_cases hj : j = i
        · rw [hj, hs, hr]
          rfl
        · rw [ho j hj]
      · refine (queued_perm hlt).trans ?_
        have hre := queued_perm (s := { s with
          renditions := s.renditions.set i { r with queue := queue }
          packets := s.packets ++ [p] }) (i := i) (by rw [length_set]; exact hlt)
        rw [queueOf_eq hs, eraseIdx_set_eq] at hre
        rw [queueOf_eq hr, hq]
        exact hre.symm.cons p

theorem getElem?_giveUp : s.giveUp.renditions[i]? =
    s.renditions[i]?.map fun r => if i < s.expected ∧
    r.queue = [] then { r with absent := true } else r :=
  getElem?_mapIdx

theorem giveUp_same (s : SegmentPublisher) (j : Nat) : s.giveUp.queueOf j = s.queueOf j ∧
    s.giveUp.continuityOf j = s.continuityOf j ∧ s.giveUp.awaitingOf j = s.awaitingOf j := by
  unfold queueOf continuityOf awaitingOf
  rw [getElem?_giveUp]
  cases s.renditions[j]? with
  | none => exact ⟨rfl, rfl, rfl⟩
  | some r =>
    simp only [map_some]
    split <;> exact ⟨rfl, rfl, rfl⟩

theorem queued_giveUp : s.giveUp.queued = s.queued := by
  unfold queued
  rw [flatMap_def]
  congr 1
  refine List.ext_getElem? fun i => ?_
  rw [List.getElem?_map, getElem?_giveUp, List.getElem?_map, Option.map_map]
  refine Option.map_congr fun r hr => ?_
  simp only [Function.comp_apply]
  split <;> rfl

theorem giveUp_popFront_pops (h : s.giveUp.popFront i = some s') : ∃ p, Pops s s' i p := by
  obtain ⟨p, hp⟩ := popFront_pops h
  have hl : s.giveUp.renditions.length = s.renditions.length := length_mapIdx
  refine ⟨p, hl ▸ hp.index, hp.length.trans hl, hp.packets, hp.forwarded, hp.current, hp.expected,
    fun _ => hp.unborn rfl, ?_, fun j hj => ?_, fun j => ?_, fun j => ?_, ?_⟩
  · rw [← (giveUp_same s i).1, hp.front]
  · rw [hp.queue j hj, (giveUp_same s j).1]
  · rw [hp.continuity j, (giveUp_same s j).2.1]
  · rw [hp.awaiting j, (giveUp_same s j).2.2]
  · rw [← queued_giveUp]
    exact hp.queued

theorem releaseStep_pops (h : s.releaseStep clamp all = some s') : ∃ i p, Pops s s' i p := by
  unfold releaseStep at h
  split at h
  · cases h
  · next ix dts _ =>
    split at h
    · obtain ⟨-, h⟩ := ite_none_left_eq_some.mp h
      exact ⟨ix, giveUp_popFront_pops h⟩
    · exact ⟨ix, popFront_pops h⟩

section
variable {P : SegmentPublisher → Prop} (hst : ∀ s s' i p, P s → Pops s s' i p → P s')
include hst

theorem releaseLoop_keeps (hs : P s) : P (s.releaseLoop clamp all n) := by
  induction n generalizing s with
  | zero => exact hs
  | succ n ih =>
    rw [releaseLoop]
    split
    · exact hs
    · next s' h =>
      obtain ⟨i, p, hp⟩ := releaseStep_pops h
      exact ih (hst s s' i p hs hp)

theorem releaseInterleaved_keeps (hs : P s) : P (s.releaseInterleaved clamp all) :=
  releaseLoop_keeps hst hs

end

theorem releaseStep_releaseInterleaved (clamp : Int → Int) (all : Bool) (s : SegmentPublisher) :
    (s.releaseInterleaved clamp all).releaseStep clamp all = none := by
  unfold releaseInterleaved
  generalize hn : s.queued.length = n
  induction n generalizing s with
  | zero =>
    rw [releaseLoop]
    cases hs : s.releaseStep clamp all with
    | none => rfl
    | some s' =>
      obtain ⟨i, p, hp⟩ := releaseStep_pops hs
      have hl := hp.queued.length_eq
      rw [length_cons] at hl
      omega
  | succ n ih =>
    rw [releaseLoop]
    split
    · next hst => exact hst
    · next s' hs =>
      obtain ⟨i, p, hp⟩ := releaseStep_pops hs
      have hl := hp.queued.length_eq
      rw [length_cons] at hl
      exact ih s' (by omega)

section Oldest

def Found (s : SegmentPublisher) (seen : List (Rendition × Nat)) : Option (Nat × Int) → Prop
  | none => ∀ x ∈ seen, x.1.queue = []
  | some (index, dts) =>
    (∃ r front, s.renditions[index]? = some r ∧ r.queue.head? = some front ∧ front.dts = dts) ∧
    ∀ x ∈ seen, ∀ front, x.1.queue.head? = some front → dts ≤ front.dts

theorem oldest_found (s : SegmentPublisher) : s.Found s.renditions.zipIdx s.oldest := by
  have hfold {f : Option (Nat × Int) → Rendition × Nat → Option (Nat × Int)}
      (hf : ∀ seen found x, s.Found seen found → x ∈ s.renditions.zipIdx →
        s.Found (seen ++ [x]) (f found x))
      (rest seen : List (Rendition × Nat)) (found : Option (Nat × Int)) (h : s.Found seen found)
      (hr : ∀ x ∈ rest, x ∈ s.renditions.zipIdx) : s.Found (seen ++ rest) (rest.foldl f found) := by
    induction rest generalizing seen found with
    | nil =>
      rw [append_nil]
      exact h
    | cons x rest ih =>
      obtain ⟨hx, hr⟩ := forall_mem_cons.mp hr
      rw [append_cons]
      exact ih _ _ (hf _ _ _ h hx) hr
  refine hfold (fun seen found x hf hx => ?_) _ [] none (by simp [Found]) fun _ hx => hx
  have hx := mem_zipIdx_iff_getElem?.mp hx
  have hlast {P : Rendition × Nat → Prop} (hseen : ∀ y ∈ seen, P y) (hnew : P x) : ∀ y ∈
      seen ++ [x], P y := by
    intro y hy
    rcases mem_append.mp hy with hy | hy
    · exact hseen y hy
    · exact mem_singleton.mp hy ▸ hnew
  cases hh : x.1.queue.head? with
  | none =>
    cases found with
    | none => exact hlast hf (head?_eq_none_iff.mp hh)
    | some best => exact ⟨hf.1, hlast hf.2 fun f hfront => by cases hh.symm.trans hfront⟩
  | some front =>
    have hself {d : Int} (hd : d ≤ front.dts) : ∀ f, x.1.queue.head? = some f → d ≤ f.dts := by
      intro f hfront
      rwa [← Option.some.inj (hh.symm.trans hfront)]
    cases found with
    | none =>
      refine ⟨⟨x.1, front, hx, hh, rfl⟩, hlast (fun y hy f hfront => ?_) (hself (Int.le_refl _))⟩
      rw [hf y hy] at hfront
      cases hfront
    | some best =>
      dsimp only
      split
      · next hlt =>
        exact ⟨⟨x.1, front, hx, hh, rfl⟩, hlast (fun y hy f hfront =>
          Int.le_trans (Int.le_of_lt hlt) (hf.2 y hy f hfront)) (hself (Int.le_refl _))⟩
      · next hle => exact ⟨hf.1, hlast hf.2 (hself (Int.not_lt.mp hle))⟩

theorem queued_nil_of_oldest (h : s.oldest = none) : s.queued = [] := by
  have hf := oldest_found s
  rw [h] at hf
  refine flatMap_eq_nil_iff.mpr fun r hr => ?_
  obtain ⟨i, hi⟩ := getElem?_of_mem hr
  exact hf (r, i) (mem_zipIdx_iff_getElem?.mpr hi)

theorem popFront_oldest (h : s.oldest = some (ix, dts)) : s.popFront ix ≠ none := by
  have hf := oldest_found s
  rw [h] at hf
  obtain ⟨⟨r, front, hr, hh, -⟩, -⟩ := hf
  obtain ⟨queue, hc⟩ := head?_eq_some_iff.mp hh
  simp [popFront, hr, hc]

theorem queued_nil_of_all (h : s.releaseStep clamp true = none) : s.queued = [] := by
  unfold releaseStep at h
  split at h
  · next hn => exact queued_nil_of_oldest hn
  · next ix dts ho =>
    rw [if_neg (by simp)] at h
    exact (popFront_oldest ho h).elim

theorem queued_nil_of_single (hl : s.renditions.length = 1)
    (he : s.expected ≤ 1 ∨ s.unbornAbsent = true)
    (h : s.releaseStep clamp false = none) : s.queued = [] := by
  obtain ⟨r, hr⟩ := length_eq_one_iff.mp hl
  unfold releaseStep at h
  split at h
  · next hn => exact queued_nil_of_oldest hn
  · next ix dts ho =>
    split at h
    · next hw =>
      rw [Bool.not_false, Bool.and_true, waiting, Bool.or_eq_true] at hw
      rcases hw with hem | hu
      · obtain ⟨x, hx, hx'⟩ := List.any_eq_true.mp hem
        simp only [Bool.and_eq_true, List.isEmpty_iff] at hx'
        rw [hr] at hx
        obtain rfl := mem_singleton.mp hx
        rw [queued, hr, List.flatMap_singleton]
        exact hx'.1.1
      · simp only [Bool.and_eq_true, decide_eq_true_eq, Bool.not_eq_true', hl] at hu
        rcases he with hle | hg
        · omega
        · rw [hg] at hu
          cases hu.2
    · exact (popFront_oldest ho h).elim

end Oldest

end Restream.Publisher.SegmentPublisher
