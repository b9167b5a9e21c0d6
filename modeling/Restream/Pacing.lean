import Restream.Exec
import Restream.InputGate

/-! Real-time pacing of released segments. The pacer sees the wall clock and the media time
published so far, and says how long to wait. -/

namespace Restream.Hls

open Exec

structure Pacer where
  anchor : Option (Int × Int)
  deriving DecidableEq

def Pacer.delay (p : Pacer) (now : Int) (mediaMs : Option Int) (lead : Nat) : Pacer × Int :=
  match mediaMs with
  | none => (p, 0)
  | some mediaMs =>
    let reset : Pacer := { anchor := some (now, mediaMs) }
    match p.anchor with
    | none => (reset, 0)
    | some (anchorWall, anchorMs) =>
      let elapsedMs := saturate (mediaMs - anchorMs)
      let due := anchorWall + elapsedMs
      if elapsedMs < 0 then (reset, 0)
      else if now ≤ due then if lead < due - now then (reset, 0) else (p, due - now)
      else if lead < now - due then (reset, 0)
      else (p, 0)

structure Turn where
  now : Int
  publishAt : Int
  step : Int

structure PacedRun where
  pacer : Pacer
  media : Int
  called : Int
  time : Int
  mediaAt : Int → Int

namespace PacedRun

def start (first time : Int) : PacedRun :=
  { pacer := { anchor := none }, media := first, called := time,
    time := time, mediaAt := fun _ => first }

def step (lead : Nat) (r : PacedRun) (turn : Turn) : Option PacedRun :=
  let (pacer, wait) := r.pacer.delay turn.now (some r.media) lead
  if r.time ≤ turn.now ∧ turn.now + wait ≤ turn.publishAt then
    let media := r.media + turn.step
    some
      { pacer := pacer
        media := media
        called := turn.now
        time := turn.publishAt
        mediaAt := fun t => if turn.publishAt ≤ t then media else r.mediaAt t }
  else none

/-- Media never goes back, grows by at most `largest` at once, and spans less than an `i64`. -/
def Steps (first : Int) (largest : Nat) (r : PacedRun) (turn : Turn) : Prop :=
  0 ≤ turn.step ∧ turn.step ≤ largest ∧ r.media + turn.step - first ≤ i64Max

instance (first : Int) (largest : Nat) (r : PacedRun) (turn : Turn) :
    Decidable (r.Steps first largest turn) :=
  inferInstanceAs (Decidable (_ ∧ _ ∧ _))

/-- What the pacer knows of the media: it is not `lead` behind the clock of the anchor when it
is asked, and ahead of it by what was published last. -/
structure Inv (first : Int) (lead largest : Nat) (r : PacedRun) : Prop where
  order : r.called ≤ r.time
  span : first ≤ r.media ∧ r.media - first ≤ i64Max
  late : ∀ t, r.time ≤ t → r.mediaAt t = r.media
  since : ∀ t, r.called ≤ t → r.media - largest ≤ r.mediaAt t
  fresh : r.pacer.anchor = none → ∀ t, r.mediaAt t = r.media
  anchored : ∀ wall ms, r.pacer.anchor = some (wall, ms) → first ≤ ms ∧ ms ≤ r.media ∧
    r.media ≤ ms - wall + r.time + largest ∧
    ∀ t ≤ r.called, ms - wall + t ≤ r.mediaAt t + lead + largest
  burst : ∀ t₁ t₂, t₁ ≤ t₂ → r.mediaAt t₂ - r.mediaAt t₁ ≤ t₂ - t₁ + lead + 2 * largest

variable {first : Int} {lead largest : Nat} {r : PacedRun}

theorem delay_spec (h : r.Inv first lead largest) (hl : largest ≤ lead) (hn : r.time ≤ now) :
    ∃ wall ms, (r.pacer.delay now (some r.media) lead).1.anchor = some (wall, ms) ∧
      first ≤ ms ∧ ms ≤ r.media ∧
      r.media ≤ ms - wall + now + (r.pacer.delay now (some r.media) lead).2 ∧
      0 ≤ (r.pacer.delay now (some r.media) lead).2 ∧
      ∀ t ≤ now, ms - wall + t ≤ r.mediaAt t + lead + largest := by
  have hlate : ∀ t, r.called ≤ t → t ≤ now → r.media - now + t ≤ r.mediaAt t + lead + largest := by
    intro t hc ht
    have := h.since t hc
    omega
  cases ha : r.pacer.anchor with
  | none =>
    simp only [Pacer.delay, ha]
    refine ⟨now, r.media, rfl, h.span.1, Int.le_refl _, by omega, Int.le_refl _, fun t ht => ?_⟩
    rw [h.fresh ha t]
    omega
  | some anchor =>
    obtain ⟨wall, ms⟩ := anchor
    obtain ⟨hf, hm, hup, hlow⟩ := h.anchored wall ms ha
    have hs : saturate (r.media - ms) = r.media - ms := by
      have := h.span
      refine saturate_of_inI64 ⟨?_, ?_⟩
      · unfold i64Min
        omega
      · omega
    have hahead : ¬ (lead : Int) < wall + (r.media - ms) - now := by omega
    simp only [Pacer.delay, ha, hs, if_neg hahead, if_neg (show ¬ r.media - ms < 0 by omega)]
    by_cases hdue : now ≤ wall + (r.media - ms)
    · rw [if_pos hdue]
      refine ⟨wall, ms, ha, hf, hm, by omega, by omega, fun t ht => ?_⟩
      by_cases hc : t ≤ r.called
      · exact hlow t hc
      · have := hlate t (by omega) ht
        omega
    · rw [if_neg hdue]
      by_cases hbehind : (lead : Int) < now - (wall + (r.media - ms))
      · rw [if_pos hbehind]
        refine ⟨now, r.media, rfl, h.span.1, Int.le_refl _, by omega, Int.le_refl _, fun t ht => ?_⟩
        by_cases hc : t ≤ r.called
        · have := hlow t hc
          omega
        · exact hlate t (by omega) ht
      · rw [if_neg hbehind]
        refine ⟨wall, ms, ha, hf, hm, by omega, Int.le_refl _, fun t ht => ?_⟩
        by_cases hc : t ≤ r.called
        · exact hlow t hc
        · have := h.since t (by omega)
          omega

theorem Inv.step (h : r.Inv first lead largest) (hl : largest ≤ lead)
    (hg : r.Steps first largest turn)
    (hs : r.step lead turn = some r') : r'.Inv first lead largest := by
  obtain ⟨h0, hle, hspan⟩ := hg
  simp only [PacedRun.step, Option.ite_none_right_eq_some, Option.some.injEq] at hs
  obtain ⟨⟨hn, hp⟩, rfl⟩ := hs
  obtain ⟨wall, ms, ha, hf, hm, hdue, hw, hlow⟩ := delay_spec h hl hn
  refine ⟨?_, ⟨?_, hspan⟩, fun t ht => if_pos ht, fun t ht => ?_, fun hnone => ?_, fun w m hwm => ?_,
    fun t₁ t₂ ht => ?_⟩
  · dsimp only
    omega
  · dsimp only
    omega
  · have := h.late t (by dsimp only at ht; omega)
    dsimp only
    split <;> omega
  · cases ha.symm.trans hnone
  · cases ha.symm.trans hwm
    refine ⟨hf, by dsimp only; omega, by dsimp only; omega, fun t ht => ?_⟩
    have := hlow t ht
    have hlate : r.time ≤ t → r.mediaAt t = r.media := h.late t
    dsimp only
    split <;> omega
  · have hold := h.burst t₁ t₂ ht
    have hlow₁ := hlow t₁
    have hlate₁ := h.late t₁
    dsimp only
    split <;> omega

/-- Every wait is within the lead. Media never gains on the clock by more than the lead and
two steps: the one in flight while the pacer was last asked, and the one it lets out. -/
theorem rate_bounded {time : Int} (hl : largest ≤ lead)
    (h : Reachable (step lead) (Steps first largest) (start first time) r) :
    (∀ (p : Pacer) now media, (p.delay now media lead).2 ≤ lead) ∧
      ∀ t₁ t₂, t₁ ≤ t₂ → r.mediaAt t₂ - r.mediaAt t₁ ≤ t₂ - t₁ + lead + 2 * largest := by
  refine ⟨fun p now media => ?_, (Reachable.invariant (Inv first lead largest)
    (fun r turn r' hr hg hs => hr.step hl hg hs) ?_ h).burst⟩
  · unfold Pacer.delay
    split
    · exact Int.natCast_nonneg lead
    · dsimp only
      repeat' split
      all_goals omega
  · refine ⟨Int.le_refl _, ⟨Int.le_refl _, by simp [start, i64Max]⟩, fun _ _ => rfl, fun _ _ => ?_,
      fun _ _ => rfl, (by rintro _ _ ⟨⟩), fun t₁ t₂ ht => ?_⟩
    all_goals
      dsimp only [start]
      omega

/-- A late publish, a catch-up and one step ahead: three steps of 2 ms in a millisecond. -/
def lateTurns : List Turn := [⟨0, 0, 0⟩, ⟨2, 4, 2⟩, ⟨4, 4, 2⟩, ⟨4, 4, 2⟩]

theorem rate_bounded_late : ∃ r, Reachable (step 2) (Steps 0 2) (start 0 0) r ∧ r.media = 6 ∧
    r.mediaAt 4 - r.mediaAt 3 ≤ 7 :=
  exists_reachable_and lateTurns (by decide)
    fun _ hr _ => (rate_bounded (by decide) hr).2 3 4 (by decide)

theorem burst_of_two_steps : ∃ r, Reachable (step 2) (Steps 0 2) (start 0 0) r ∧
    ¬ r.mediaAt 4 - r.mediaAt 3 ≤ 4 - 3 + 2 + 2 := exists_reachable_of_run lateTurns (by decide)

end PacedRun

end Restream.Hls
