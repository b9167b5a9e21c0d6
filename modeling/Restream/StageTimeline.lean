import Restream.Exec
import Restream.InputGate

/-! The timeline of a transcoding stage: raw timestamps are moved to an epoch that all
streams share, the decode times of each stream are made to grow, and nothing below zero
is let out. -/

namespace Restream.Ffmpeg

open List Option Exec

structure DtsEnforcer where
  lastDts : List Int
  deriving DecidableEq, Repr

namespace DtsEnforcer

def new (numStreams : Nat) : DtsEnforcer := { lastDts := List.replicate numStreams i64Min }

def follow (e : DtsEnforcer) (streamIdx : Nat) (dts : Int) : Int :=
  match e.lastDts[streamIdx]? with
  | some prev => if dts ≤ prev then saturate (prev + 1) else dts
  | none => dts

def enforce (e : DtsEnforcer) (streamIdx : Nat) (pts dts : Int) : DtsEnforcer × Int × Int :=
  let dts := e.follow streamIdx dts
  ({ lastDts := e.lastDts.set streamIdx dts }, if pts < dts then dts else pts, dts)

end DtsEnforcer

def wrapI64 (x : Int) : Int := (x + 2 ^ 63) % 2 ^ 64 - 2 ^ 63

structure NormalizedTs where
  ptsMs : Int
  dtsMs : Int
  deriving DecidableEq, Repr

structure StageTimeline where
  baseDtsMs : Option Int
  epochOffsetMs : Int
  lastRawDtsMs : Option Int
  lastOutDtsMs : Option Int
  dtsEnforcer : DtsEnforcer
  deriving DecidableEq, Repr

namespace StageTimeline

def new (numStreams : Nat) : StageTimeline :=
  { baseDtsMs := none, epochOffsetMs := 0, lastRawDtsMs := none, lastOutDtsMs := none
    dtsEnforcer := .new numStreams }

/-- A jump back by more than two seconds, as of a file that loops, or ahead by more than
thirty, to where output has not been. -/
def jumps (base lastRaw lastOut dtsMs : Int) : Bool :=
  wrapI64 (dtsMs - lastRaw) < -2000 ||
    (wrapI64 (dtsMs - lastRaw) > 30000 && wrapI64 (dtsMs - base) > lastOut)

def epochAt (t : StageTimeline) (base dtsMs : Int) : Int :=
  match t.lastRawDtsMs, t.lastOutDtsMs with
  | some lastRaw, some lastOut =>
    if jumps base lastRaw lastOut dtsMs then saturate
      (saturate (lastOut + 1) - wrapI64 (dtsMs - base))
    else t.epochOffsetMs
  | _, _ => t.epochOffsetMs

def normalize (t : StageTimeline) (streamIdx : Nat) (ptsMs dtsMs : Int) :
    StageTimeline × NormalizedTs :=
  let base := t.baseDtsMs.getD dtsMs
  let epoch := t.epochAt base dtsMs
  let (enforcer, outPts, outDts) := t.dtsEnforcer.enforce streamIdx
    (saturate (epoch + saturate (ptsMs - base))) (saturate (epoch + saturate (dtsMs - base)))
  ({ baseDtsMs := some base, epochOffsetMs := epoch, lastRawDtsMs := some dtsMs, lastOutDtsMs := some outDts
     dtsEnforcer := enforcer },
    { ptsMs := max outPts 0, dtsMs := max outDts 0 })

end StageTimeline

structure TimelineCall where
  streamIdx : Nat
  ptsMs : Int
  dtsMs : Int

structure TimelineRun where
  timeline : StageTimeline
  emitted : List (Nat × NormalizedTs)

namespace TimelineRun

def start (numStreams : Nat) : TimelineRun := { timeline := .new numStreams, emitted := [] }

def step (r : TimelineRun) (call : TimelineCall) : Option TimelineRun :=
  let normalized := r.timeline.normalize call.streamIdx call.ptsMs call.dtsMs
  some { timeline := normalized.1, emitted := r.emitted ++ [(call.streamIdx, normalized.2)] }

def Increasing (r : TimelineRun) : Prop :=
  r.emitted.Pairwise fun a b => a.1 = b.1 → a.2.dtsMs < b.2.dtsMs

end TimelineRun

def Near (x : Int) : Prop := -2 ^ 60 ≤ x ∧ x ≤ 2 ^ 60

open StageTimeline

instance (x : Int) : Decidable (Near x) := inferInstanceAs (Decidable (_ ∧ _))

namespace StageTimeline

@[mk_iff]
structure AllNear (t : StageTimeline) : Prop where
  epoch : Near t.epochOffsetMs
  lastOut : ∀ x ∈ t.lastOutDtsMs, Near x
  lastDts : ∀ x ∈ t.dtsEnforcer.lastDts, x = i64Min ∨ Near x

def Lands (t : StageTimeline) (dtsMs : Int) : Prop :=
  ∀ base ∈ t.baseDtsMs, ∀ lastRaw ∈ t.lastRawDtsMs, ∀ lastOut ∈ t.lastOutDtsMs,
    0 ≤ t.epochOffsetMs + (dtsMs - base) ∨ jumps base lastRaw lastOut dtsMs = true

instance (t : StageTimeline) : Decidable t.AllNear := decidable_of_iff' _ (allNear_iff t)

instance (t : StageTimeline) (dtsMs : Int) : Decidable (t.Lands dtsMs) := by
  unfold Lands
  infer_instance

end StageTimeline

namespace TimelineRun

/-- The calls of a stage: a known stream, shown no earlier than decoded, and no value
near a limit. -/
def Regular (r : TimelineRun) (call : TimelineCall) : Prop :=
  call.streamIdx < r.timeline.dtsEnforcer.lastDts.length ∧ call.dtsMs ≤ call.ptsMs ∧
    Near call.dtsMs ∧ Near call.ptsMs ∧ r.timeline.AllNear

/-- The first decode time of a stream is not before the stage's zero. -/
def FirstLands (r : TimelineRun) (call : TimelineCall) : Prop :=
  r.timeline.dtsEnforcer.lastDts[call.streamIdx]? = some i64Min → r.timeline.Lands call.dtsMs

instance (r : TimelineRun) (call : TimelineCall) : Decidable (r.Regular call) :=
  inferInstanceAs (Decidable (_ ∧ _))

instance (r : TimelineRun) (call : TimelineCall) : Decidable (r.FirstLands call) :=
  inferInstanceAs (Decidable (_ → _))

end TimelineRun

section Arithmetic

variable {x : Int}

theorem wrapI64_of_abs_le (hmin : -2 ^ 62 ≤ x) (hmax : x ≤ 2 ^ 62) : wrapI64 x = x := by
  unfold wrapI64
  omega

theorem saturate_of_small (hmin : -2 ^ 62 ≤ x) (hmax : x ≤ 2 ^ 62) : saturate x = x :=
  saturate_of_inI64 ⟨by unfold i64Min; omega, by unfold i64Max; omega⟩

end Arithmetic

namespace DtsEnforcer

variable {e : DtsEnforcer} {prev dts : Int}

theorem follow_first (hp : e.lastDts[streamIdx]? = some i64Min) (hdts : 0 ≤ dts) :
    e.follow streamIdx dts =
    dts := by
  have hl : ¬dts ≤ i64Min := by
    unfold i64Min
    omega
  simp only [follow, hp, if_neg hl]

theorem lt_follow (hp : e.lastDts[streamIdx]? = some prev) (hn : Near prev) (dts : Int) :
    prev < e.follow streamIdx dts := by
  unfold Near at hn
  simp only [follow, hp]
  split
  · rw [saturate_of_small (by omega) (by omega)]
    omega
  · omega

theorem le_enforce (e : DtsEnforcer) (streamIdx : Nat) (pts dts : Int) :
    (e.enforce streamIdx pts dts).2.2 ≤ (e.enforce streamIdx pts dts).2.1 := by
  unfold enforce
  dsimp only
  split <;> omega

end DtsEnforcer

namespace StageTimeline

variable {t : StageTimeline} {dtsMs : Int}

structure Sound (t : StageTimeline) : Prop where
  fresh : t.baseDtsMs = none → t.epochOffsetMs = 0 ∧ t.lastRawDtsMs = none
  seen : ∀ base ∈ t.baseDtsMs, Near base ∧
    ∃ lastRaw ∈ t.lastRawDtsMs, ∃ lastOut ∈ t.lastOutDtsMs, 0 ≤ lastOut
  streams : ∀ x ∈ t.dtsEnforcer.lastDts, x = i64Min ∨ 0 ≤ x

def landing (t : StageTimeline) (dtsMs : Int) : Int :=
  saturate (t.epochAt (t.baseDtsMs.getD dtsMs) dtsMs + saturate (dtsMs - t.baseDtsMs.getD dtsMs))

theorem epochAt_stay
    (hs : ∀ lastRaw ∈ t.lastRawDtsMs, ∀ lastOut ∈ t.lastOutDtsMs,
      jumps base lastRaw lastOut dtsMs = false) : t.epochAt base dtsMs = t.epochOffsetMs := by
  unfold epochAt
  split
  · next lastRaw lastOut hraw hout => simp [hs lastRaw hraw lastOut hout]
  · rfl

theorem landing_nonneg (hso : t.Sound) (hne : t.AllNear) (hdts : Near dtsMs) (hl : t.Lands dtsMs) :
    0 ≤ t.landing dtsMs := by
  unfold landing
  cases hb : t.baseDtsMs with
  | none =>
    obtain ⟨he, hraw⟩ := hso.fresh hb
    have hs : t.epochAt dtsMs dtsMs = 0 := by
      rw [epochAt_stay (fun lastRaw hmem => by rw [hraw] at hmem; cases hmem), he]
    rw [getD_none, hs, Int.sub_self]
    decide
  | some base =>
    obtain ⟨hn, lastRaw, hraw, lastOut, hout, hpos⟩ := hso.seen base hb
    have hsm := hne.lastOut lastOut hout
    have he := hne.epoch
    unfold Near at hdts hn hsm he
    rw [getD_some]
    by_cases hj : jumps base lastRaw lastOut dtsMs = true
    · simp only [epochAt, mem_def.mp hraw, mem_def.mp hout, hj, if_true]
      rw [saturate_of_small (x := lastOut + 1) (by omega) (by omega),
        wrapI64_of_abs_le (by omega) (by omega),
        saturate_of_small (x := dtsMs - base) (by omega) (by omega),
        saturate_of_small (x := lastOut + 1 - _) (by omega) (by omega),
        saturate_of_small (by omega) (by omega)]
      omega
    · have hs : t.epochAt base dtsMs = t.epochOffsetMs := by
        refine epochAt_stay fun raw hraw' out hout' => ?_
        obtain rfl := Option.some.inj (hraw.symm.trans hraw')
        obtain rfl := Option.some.inj (hout.symm.trans hout')
        exact Bool.eq_false_iff.mpr hj
      rw [hs, saturate_of_small (x := dtsMs - base) (by omega) (by omega),
        saturate_of_small (by omega) (by omega)]
      exact (hl base hb lastRaw hraw lastOut hout).resolve_right hj

theorem follow_landing (hs : t.Sound) (hn : t.AllNear) (hdts : Near dtsMs) {prev : Int}
    (hp : t.dtsEnforcer.lastDts[streamIdx]? = some prev) (hla : prev = i64Min → t.Lands dtsMs) :
    0 ≤ t.dtsEnforcer.follow streamIdx (t.landing dtsMs) ∧
      (prev = i64Min ∨ prev < t.dtsEnforcer.follow streamIdx (t.landing dtsMs)) := by
  have hmem := mem_of_getElem? hp
  rcases hs.streams prev hmem with rfl | hpos
  · have hl := landing_nonneg hs hn hdts (hla rfl)
    rw [DtsEnforcer.follow_first hp hl]
    exact ⟨hl, .inl rfl⟩
  · have hsm : Near prev := by
      refine (hn.lastDts prev hmem).resolve_left fun hmin => ?_
      unfold i64Min at hmin
      omega
    have hlt := DtsEnforcer.lt_follow hp hsm (t.landing dtsMs)
    exact ⟨by omega, .inr hlt⟩

theorem normalize_fst :
    (t.normalize streamIdx ptsMs dtsMs).1 =
      { baseDtsMs := some (t.baseDtsMs.getD dtsMs),
        epochOffsetMs := t.epochAt (t.baseDtsMs.getD dtsMs) dtsMs
        lastRawDtsMs := some dtsMs
        lastOutDtsMs := some (t.dtsEnforcer.follow streamIdx (t.landing dtsMs))
        dtsEnforcer :=
          { lastDts := t.dtsEnforcer.lastDts.set streamIdx (t.dtsEnforcer.follow streamIdx (t.landing dtsMs)) } } :=
  rfl

theorem normalize_dts :
    (t.normalize streamIdx ptsMs dtsMs).2.dtsMs =
      max (t.dtsEnforcer.follow streamIdx (t.landing dtsMs)) 0 := rfl

theorem normalize_ordered (t : StageTimeline) (streamIdx : Nat) (ptsMs dtsMs : Int) :
    0 ≤ (t.normalize streamIdx ptsMs dtsMs).2.dtsMs ∧
      (t.normalize streamIdx ptsMs dtsMs).2.dtsMs ≤ (t.normalize streamIdx ptsMs dtsMs).2.ptsMs := by
  refine ⟨Int.le_max_right _ _, ?_⟩
  have hle := t.dtsEnforcer.le_enforce streamIdx
    (saturate (t.epochAt (t.baseDtsMs.getD dtsMs) dtsMs + saturate (ptsMs - t.baseDtsMs.getD dtsMs)))
    (t.landing dtsMs)
  exact Int.max_le.mpr ⟨Int.le_trans hle (Int.le_max_left _ _), Int.le_max_right _ _⟩

theorem Sound.normalize (hs : t.Sound) (hn : t.AllNear) (hdts : Near dtsMs) {prev : Int}
    (hp : t.dtsEnforcer.lastDts[streamIdx]? = some prev) (hl : prev = i64Min → t.Lands dtsMs)
    (ptsMs : Int) : (t.normalize streamIdx ptsMs dtsMs).1.Sound := by
  obtain ⟨hpos, -⟩ := follow_landing hs hn hdts hp hl
  refine ⟨fun h => (nomatch h), fun base hb => ⟨?_, dtsMs, rfl, _, rfl, hpos⟩, fun x hx => ?_⟩
  · cases hb
    cases hold : t.baseDtsMs with
    | none => exact hdts
    | some old => exact (hs.seen old hold).1
  · rcases mem_or_eq_of_mem_set hx with hmem | rfl
    · exact hs.streams x hmem
    · exact .inr hpos

end StageTimeline

namespace TimelineRun

structure Inv (r : TimelineRun) : Prop where
  sound : r.timeline.Sound
  increasing : r.Increasing
  emitted : ∀ e ∈ r.emitted, ∃ d, r.timeline.dtsEnforcer.lastDts[e.1]? = some d ∧
    e.2.dtsMs ≤ d ∧ 0 ≤ d

variable {r r' : TimelineRun} {call : TimelineCall}

theorem inv_start (numStreams : Nat) : (start numStreams).Inv where
  sound := ⟨fun _ => ⟨rfl, rfl⟩, fun _ h => (nomatch h), fun _ h => .inl (eq_of_mem_replicate h)⟩
  increasing := .nil
  emitted := forall_mem_nil _

theorem Inv.step (h : r.Inv) (hr : r.Regular call) (hf : r.FirstLands call)
    (hs : r.step call = some r') : r'.Inv := by
  obtain ⟨hidx, -, hdts, -, hn⟩ := hr
  obtain ⟨prev, hp⟩ : ∃ prev, r.timeline.dtsEnforcer.lastDts[call.streamIdx]? = some prev :=
    ⟨_, getElem?_eq_getElem hidx⟩
  have hl : prev = i64Min → r.timeline.Lands call.dtsMs := fun hmin => hf (hmin ▸ hp)
  obtain ⟨hpos, hla⟩ := follow_landing h.sound hn hdts hp hl
  cases hs
  refine ⟨h.sound.normalize hn hdts hp hl call.ptsMs, ?_, ?_⟩
  · refine pairwise_append.mpr ⟨h.increasing, pairwise_singleton _ _, ?_⟩
    intro e he
    refine forall_mem_singleton.mpr fun hid => ?_
    obtain ⟨d, hd, hle, hd0⟩ := h.emitted e he
    obtain rfl := Option.some.inj (hp.symm.trans (hid ▸ hd))
    have hlt := hla.resolve_left (by unfold i64Min; omega)
    rw [normalize_dts]
    omega
  · intro e he
    rw [normalize_fst]
    rcases mem_append.mp he with hold | hnew
    · obtain ⟨d, hd, hle, hd0⟩ := h.emitted e hold
      by_cases hid : call.streamIdx = e.1
      · obtain rfl := Option.some.inj (hp.symm.trans (hid ▸ hd))
        have hlt := hla.resolve_left (by unfold i64Min; omega)
        refine ⟨_, by rw [← hid, getElem?_set_self hidx], by omega, hpos⟩
      · exact ⟨d, by rw [getElem?_set_ne hid, hd], hle, hd0⟩
    · obtain rfl := mem_singleton.mp hnew
      refine ⟨_, getElem?_set_self hidx, ?_, hpos⟩
      rw [normalize_dts]
      omega

/-- No timestamp that comes out is negative or shown before it is decoded; and decode
times grow stream by stream if each stream's first one is not before the stage's zero. -/
theorem stage_timeline_monotone (numStreams : Nat) :
    (∀ r, Reachable step Regular (start numStreams) r →
      ∀ e ∈ r.emitted, 0 ≤ e.2.dtsMs ∧ 0 ≤ e.2.ptsMs ∧ e.2.dtsMs ≤ e.2.ptsMs) ∧
    ∀ r, Reachable step (fun r call => r.Regular call ∧ r.FirstLands call) (start numStreams) r →
      r.Increasing := by
  refine ⟨fun r h e he => ?_, fun r h => ?_⟩
  · obtain ⟨hpos, hle⟩ :=
      h.invariant (fun r => ∀ e ∈ r.emitted, 0 ≤ e.2.dtsMs ∧ e.2.dtsMs ≤ e.2.ptsMs)
      (fun r call _ hr _ hstep => by
        cases hstep
        exact forall_mem_append.mpr ⟨hr, forall_mem_singleton.mpr
          (r.timeline.normalize_ordered call.streamIdx call.ptsMs call.dtsMs)⟩)
            (List.forall_mem_nil _) e he
    exact ⟨hpos, Int.le_trans hpos hle, hle⟩
  · exact (h.invariant Inv (fun _ _ _ hinv hguard hstep => hinv.step hguard.1 hguard.2 hstep)
      (inv_start numStreams)).increasing

section Runs

def twoLate : List TimelineCall := [⟨0, 1000, 1000⟩, ⟨1, 900, 900⟩, ⟨1, 950, 950⟩]

/-- A file that loops, with its audio a little late. -/
theorem stage_timeline_monotone_loop :
    ∃ r, Reachable step (fun r call => r.Regular call ∧ r.FirstLands call) (start 2) r ∧
      r.emitted.map (fun e => (e.1, e.2.dtsMs)) = [(0, 0), (1, 5), (0, 4000), (0, 4001), (1, 4006)] ∧
      r.Increasing :=
  exists_reachable_and
    [⟨0, 1040, 1000⟩, ⟨1, 1005, 1005⟩, ⟨0, 5000, 5000⟩, ⟨0, 1000, 1000⟩, ⟨1, 1005, 1005⟩]
    (by decide +kernel) fun r hr _ => (stage_timeline_monotone 2).2 r hr

/-- Two decode times before the stage's zero both come out as zero. -/
theorem stage_timeline_repeats_zero : ∃ r, Reachable step Regular (start 2) r ∧
      r.emitted.map (fun e => (e.1, e.2.dtsMs)) = [(0, 0), (1, 0), (1, 0)] ∧ ¬r.Increasing := by
  refine exists_reachable_of_observed twoLate
    (fun r => r.emitted = [(0, ⟨0, 0⟩), (1, ⟨0, 0⟩), (1, ⟨0, 0⟩)]) (by decide +kernel)
    fun r _ hseen => ⟨by rw [hseen]; rfl, fun hgrows => ?_⟩
  unfold Increasing at hgrows
  rw [hseen] at hgrows
  revert hgrows
  decide

end Runs

end TimelineRun

end Restream.Ffmpeg
