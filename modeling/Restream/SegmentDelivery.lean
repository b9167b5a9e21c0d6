import Restream.UploadPolicy

/-! Segment delivery of one HLS output. Every published segment resolves once: delivered
when it is acknowledged before it is due, missed otherwise. -/

namespace Restream.HlsUpload

open List

/-- The bytes on time and the bytes resolved, after what is past due is settled. -/
def SegmentDelivery.totals (d : SegmentDelivery) (now : Nat) : SegmentDelivery × Nat × Nat :=
  let d := d.settle now
  (d, d.onTimeBytes, d.dueBytes)

inductive DeliveryCall where
  | published (sequence bytes : Nat)
  | acknowledged (sequence : Nat)
  | totals
  deriving DecidableEq

def SegmentDelivery.call (d : SegmentDelivery) (now : Nat) : DeliveryCall → SegmentDelivery
  | .published sequence bytes => d.published sequence bytes now
  | .acknowledged sequence => d.acknowledged sequence now
  | .totals => (d.totals now).1

abbrev Calls := List (DeliveryCall × Nat)

def SegmentDelivery.run (d : SegmentDelivery) (calls : Calls) : SegmentDelivery :=
  calls.foldl (fun d c => d.call c.2 c.1) d

/-- The first acknowledgement among the later calls comes before the segment is due. -/
def Awaiting.onTime (segment : Awaiting) (later : Calls) : Bool :=
  (later.find? fun c => c.1 = .acknowledged segment.sequence).any fun c => c.2 < segment.dueAt

/-- What a segment counts for, by the calls after its publication. -/
def share (count : Awaiting → Bool → Nat) (later : Calls) (segment : Awaiting) : Nat :=
  count segment (segment.onTime later)

def account (count : Awaiting → Bool → Nat) : Calls → Nat
  | [] => 0
  | (.published sequence bytes, time) :: later =>
    share count later ⟨sequence, bytes, time + segmentDueAfter⟩ + account count later
  | _ :: later => account count later

def delivered (segment : Awaiting) (onTime : Bool) : Nat := if onTime then segment.bytes else 0

def resolved (now : Nat) (segment : Awaiting) (onTime : Bool) : Nat :=
  if onTime ∨ segment.dueAt ≤ now then segment.bytes else 0

def publishedSequence : DeliveryCall × Nat → Option Nat
  | (.published sequence _, _) => some sequence
  | _ => none

variable {d : SegmentDelivery} {now time : Nat} {later : Calls} {w : Awaiting} {l : List Awaiting}
  {count : Awaiting → Bool → Nat}

open Awaiting

theorem share_cons (h : ∀ w ∈ l, c ≠ .acknowledged w.sequence) :
    l.map (share count ((c, time) :: later)) = l.map (share count later) := by
  refine map_congr_left fun w hw => ?_
  rw [share, onTime, find?_cons_of_neg (by simpa using h w hw), share, onTime]

theorem settle_sum (hc : ∀ x ∈ later, time ≤ x.2) (hn : time ≤ now) (l : List Awaiting) :
    (l.map (share delivered later)).sum =
      ((l.dropWhile (·.dueAt ≤ time)).map (share delivered later)).sum ∧
    (l.map (share (resolved now) later)).sum = ((l.takeWhile (·.dueAt ≤ time)).map bytes).sum +
      ((l.dropWhile (·.dueAt ≤ time)).map (share (resolved now) later)).sum := by
  induction l with
  | nil => exact ⟨rfl, rfl⟩
  | cons w l ih =>
    by_cases hw : w.dueAt ≤ time
    · have hmiss : w.onTime later = false := by
        rw [onTime, Option.any_eq_false]
        intro x hx
        simpa using Nat.le_trans hw (hc x (mem_of_find?_eq_some hx))
      simp [hw, hmiss, Nat.le_trans hw hn, share, delivered, resolved, ih, Nat.add_assoc]
    · simp [hw]

structure Awaits (d : SegmentDelivery) (calls : Calls) : Prop where
  distinct : (d.awaiting.map Awaiting.sequence ++ calls.filterMap publishedSequence).Nodup
  sorted : d.awaiting.Pairwise fun a b => a.dueAt ≤ b.dueAt
  due : ∀ w ∈ d.awaiting, ∀ x ∈ calls, w.dueAt ≤ x.2 + segmentDueAfter

theorem Awaits.sublist (h : Awaits d ((c, time) :: later)) (hs : e.awaiting.Sublist d.awaiting) :
    Awaits e later :=
  ⟨h.distinct.sublist ((hs.map _).append ((sublist_cons_self _ _).filterMap _)), h.sorted.sublist hs,
    fun w hw x hx => h.due w (hs.subset hw) x (mem_cons_of_mem _ hx)⟩

theorem Awaits.lt_due (h : d.awaiting.Pairwise fun a b => a.dueAt ≤ b.dueAt)
    (hw : w ∈ (d.settle time).awaiting) : time < w.dueAt := by
  have hs := h.sublist (dropWhile_sublist fun x : Awaiting => decide (x.dueAt ≤ time))
  have hhead := head?_dropWhile_not (fun x : Awaiting => decide (x.dueAt ≤ time)) d.awaiting
  change w ∈ d.awaiting.dropWhile (·.dueAt ≤ time) at hw
  generalize d.awaiting.dropWhile (·.dueAt ≤ time) = l at hs hhead hw
  cases l with
  | nil => cases hw
  | cons x l =>
    have hx : time < x.dueAt := by simpa using hhead
    rcases mem_cons.mp hw with rfl | hw
    · exact hx
    · exact Nat.lt_of_lt_of_le hx ((pairwise_cons.mp hs).1 w hw)

open SegmentDelivery

theorem call_account (now : Nat) (h : Awaits d ((c, time) :: later)) (hl : ∀ x ∈ later, time ≤ x.2) :
    Awaits (d.call time c) later ∧
    (d.call time c).onTimeBytes + ((d.call time c).awaiting.map (share delivered later)).sum +
        account delivered later =
      d.onTimeBytes + ((d.settle time).awaiting.map (share delivered ((c, time) :: later))).sum +
        account delivered ((c, time) :: later) ∧
    (d.call time c).dueBytes + ((d.call time c).awaiting.map (share (resolved now) later)).sum +
        account (resolved now) later =
      (d.settle time).dueBytes +
        ((d.settle time).awaiting.map (share (resolved now) ((c, time) :: later))).sum +
        account (resolved now) ((c, time) :: later) := by
  have hsub : (d.settle time).awaiting.Sublist d.awaiting := dropWhile_sublist _
  have hs := h.sublist hsub
  cases c with
  | totals =>
    exact ⟨hs, rfl, rfl⟩
  | published sequence bytes =>
    have hd := h.distinct.sublist ((hsub.map _).append_right _)
    rw [share_cons (by simp), share_cons (by simp)]
    refine ⟨⟨?_, ?_, ?_⟩, ?_, ?_⟩
    · simpa [call, published, publishedSequence] using hd
    · refine pairwise_append.mpr ⟨hs.sorted, by simp, fun w hw x hx => ?_⟩
      rw [mem_singleton.mp hx]
      exact h.due w (hsub.subset hw) _ mem_cons_self
    · intro w hw x hx
      rcases mem_append.mp hw with hw | hw
      · exact hs.due w hw x hx
      · rw [mem_singleton.mp hw]
        exact Nat.add_le_add_right (hl x hx) _
    all_goals
      simp [call, published, account, settle]
      omega
  | acknowledged sequence =>
    simp only [call, acknowledged]
    cases hf : (d.settle time).awaiting.find? (·.sequence = sequence) with
    | none =>
      have hne : ∀ w ∈ (d.settle time).awaiting, DeliveryCall.acknowledged sequence ≠
          .acknowledged w.sequence := by
        simpa [eq_comm] using find?_eq_none.mp hf
      rw [share_cons hne, share_cons hne]
      exact ⟨hs, rfl, rfl⟩
    | some w =>
      obtain ⟨hw, pre, post, hsplit, hpre⟩ := find?_eq_some_iff_append.mp hf
      obtain rfl : w.sequence = sequence := of_decide_eq_true hw
      have herase : (d.settle time).awaiting.eraseP (·.sequence = w.sequence) = pre ++ post := by
        rw [hsplit, eraseP_append_right _ (by simpa using hpre), eraseP_cons_of_pos (by simp)]
      have hne : ∀ x ∈ pre ++ post, DeliveryCall.acknowledged w.sequence ≠
          .acknowledged x.sequence := by
        have hd := (nodup_append.mp hs.distinct).1
        rw [hsplit, (perm_middle.map _).nodup_iff, map_cons, nodup_cons] at hd
        intro x hx heq
        exact hd.1 (DeliveryCall.acknowledged.inj heq ▸ mem_map_of_mem hx)
      have hon : w.onTime ((.acknowledged w.sequence, time) :: later) = true := by
        have hlt : time < w.dueAt := Awaits.lt_due h.sorted (by rw [hsplit]; simp)
        simpa [onTime] using hlt
      have hsum (f : Awaiting → Nat) : ((d.settle time).awaiting.map f).sum =
          f w + ((pre ++ post).map f).sum := by
        simp [hsplit, Nat.add_left_comm]
      refine ⟨h.sublist (eraseP_sublist.trans hsub), ?_, ?_⟩
      all_goals
        rw [herase, hsum, share_cons hne]
        simp [share, hon, delivered, resolved, account, settle, Nat.add_assoc]

theorem run_account (calls : Calls) (d : SegmentDelivery) (h : Awaits d calls)
    (ht : calls.Pairwise fun a b => a.2 ≤ b.2) (hn : ∀ x ∈ calls, x.2 ≤ now) :
    ((d.run calls).totals now).2.1 = d.onTimeBytes + (d.awaiting.map (share delivered calls)).sum +
      account delivered calls ∧
    ((d.run calls).totals now).2.2 = d.dueBytes + (d.awaiting.map (share (resolved now) calls)).sum +
      account (resolved now) calls := by
  induction calls generalizing d with
  | nil =>
    obtain ⟨ho, hr⟩ :=
      settle_sum (show ∀ x ∈ ([] : Calls), now ≤ x.2 by simp) (Nat.le_refl now) d.awaiting
    have hmissed : (d.settle now).awaiting.map (share (resolved now) []) =
        (d.settle now).awaiting.map fun _ => 0 := by
      refine map_congr_left fun w hw => ?_
      simp [share, resolved, onTime, Nat.not_le.mpr (Awaits.lt_due h.sorted hw)]
    have hnone : share delivered [] = fun _ => 0 := by
      funext w
      simp [share, delivered, onTime]
    change _ = _ + ((d.settle now).awaiting.map _).sum at hr
    rw [hr, hmissed, hnone]
    simp [run, totals, settle, account]
  | cons x calls ih =>
    obtain ⟨c, time⟩ := x
    rw [pairwise_cons] at ht
    rw [forall_mem_cons] at hn
    have hc : ∀ x ∈ (c, time) :: calls, time ≤ x.2 := forall_mem_cons.mpr ⟨Nat.le_refl _, ht.1⟩
    obtain ⟨ho, hr⟩ := settle_sum hc hn.1 d.awaiting
    obtain ⟨ha, hoc, hrc⟩ := call_account now h ht.1
    obtain ⟨hoi, hri⟩ := ih (d.call time c) ha ht.2 hn.2
    refine ⟨hoi.trans (hoc.trans ?_), hri.trans (hrc.trans ?_)⟩
    · rw [ho]
      rfl
    · rw [hr, ← Nat.add_assoc]
      rfl

theorem account_le (more : Calls) (h : ∀ w (b b' : Bool), (b → b') → count w b ≤ count' w b')
    (calls : Calls) : account count calls ≤ account count' (calls ++ more) := by
  have hon (w : Awaiting) (later : Calls) (hw : w.onTime later) : w.onTime (later ++ more) := by
    rw [onTime, Option.any_eq_true] at hw ⊢
    obtain ⟨x, hx, hlt⟩ := hw
    exact ⟨x, by rw [find?_append, hx]; rfl, hlt⟩
  induction calls with
  | nil => exact Nat.zero_le _
  | cons x calls ih =>
    obtain ⟨c, time⟩ := x
    cases c with
    | published => exact Nat.add_le_add (h _ _ _ (hon _ _)) ih
    | acknowledged => exact ih
    | totals => exact ih

/-- The totals are the bytes of the segments acknowledged in time, and those with the bytes of
the others past due. Both only grow. -/
theorem totals_account {calls : Calls} (ht : calls.Pairwise fun a b => a.2 ≤ b.2)
    (hd : (calls.filterMap publishedSequence).Nodup) (hn : ∀ x ∈ calls, x.2 ≤ now) :
    ((SegmentDelivery.run {} calls).totals now).2 =
      (account delivered calls, account (resolved now) calls) ∧
    account delivered calls ≤ account (resolved now) calls ∧
    account (resolved now) calls ≤ account (fun w _ => w.bytes) calls ∧
    ∀ more later, now ≤ later → account delivered calls ≤ account delivered (calls ++ more) ∧
      account (resolved now) calls ≤ account (resolved later) (calls ++ more) := by
  have hrun := run_account calls {} ⟨hd, .nil, by simp⟩ ht hn
  simp only [map_nil, sum_nil, Nat.zero_add] at hrun
  refine ⟨Prod.ext hrun.1 hrun.2, ?_, ?_, fun more t hle => ⟨account_le _ ?_ _, account_le _ ?_ _⟩⟩
  · have hle : ∀ w (b b' : Bool), (b → b') →
        delivered w b ≤ resolved now w b' := by grind [delivered, resolved]
    simpa using account_le [] hle calls
  · have hle : ∀ w (b b' : Bool), (b → b') →
        resolved now w b ≤ (fun w _ => w.bytes) w b' := by grind [resolved]
    simpa using account_le [] hle calls
  · grind [delivered]
  · grind [resolved]

theorem totals_account_late : ((SegmentDelivery.run {} [(.published 1 10, 0), (.published 2 5, 0),
    (.acknowledged 1, 5999), (.acknowledged 2, 6000)]).totals 6000).2 = (10, 15) := by
  rw [(totals_account (by decide) (by decide) (by decide)).1]
  decide

end Restream.HlsUpload
