import Mathlib.Data.Int.DivMod
import Mathlib.Data.List.Sort
import Restream.Exec

/-! The occurrences of scheduled events in the 64-bit arithmetic of the scheduler, and the
scheduler with the clients that create, change and delete schedules, each database
statement a step of its own. -/

namespace Restream.Schedules

open Int

def InI64 (x : Int) : Prop := -9223372036854775808 ≤ x ∧ x ≤ 9223372036854775807

instance (x : Int) : Decidable (InI64 x) := inferInstanceAs (Decidable (_ ∧ _))

def wrap (x : Int) : Int := (x + 9223372036854775808) % 18446744073709551616 - 9223372036854775808

theorem wrap_of_inI64 (h : InI64 x) : wrap x = x := by
  unfold InI64 at h
  unfold wrap
  omega

def runGraceMs : Int := 60000

def dayMs : Int := 86400000

inductive Repeat where
  | once
  | daily
  | weekly
  deriving DecidableEq, Repr

def Repeat.periodMs : Repeat → Option Int
  | once => none
  | daily => some dayMs
  | weekly => some (7 * dayMs)

def latestOccurrence (atMs : Int) (repeats : Repeat) (nowMs : Int) : Option Int :=
  if nowMs < atMs then none
  else
    match repeats.periodMs with
    | none => some atMs
    | some period => some (wrap (atMs + wrap ((wrap (nowMs - atMs)).tdiv period * period)))

def nextOccurrence (atMs : Int) (repeats : Repeat) (nowMs : Int) : Option Int :=
  if nowMs < atMs then some atMs
  else
    repeats.periodMs.map fun period =>
      wrap (atMs + wrap (wrap ((wrap (nowMs - atMs)).tdiv period + 1) * period))

inductive Due where
  | nothing
  | run (occurrenceMs : Int)
  | skip (occurrenceMs : Int)
  deriving DecidableEq, Repr

def due (atMs : Int) (repeats : Repeat) (enabled : Bool)
    (lastRunMs : Option Int) (nowMs : Int) : Due :=
  if !enabled then .nothing
  else
    match latestOccurrence atMs repeats nowMs with
    | none => .nothing
    | some occurrence =>
      if lastRunMs.any (occurrence ≤ ·) then .nothing
      else if wrap (nowMs - occurrence) ≤ runGraceMs then .run occurrence
      else .skip occurrence

def IsOccurrence (atMs : Int) (repeats : Repeat) (o : Int) : Prop :=
  o = atMs ∨ ∃ period ∈ repeats.periodMs, ∃ k : Nat, o = atMs + k * period

def LatestFits (atMs : Int) (repeats : Repeat) (nowMs : Int) : Prop :=
  atMs ≤ nowMs → ∀ period ∈ repeats.periodMs, InI64 (nowMs - atMs) ∧
    InI64 ((nowMs - atMs).tdiv period * period) ∧ InI64 (atMs + (nowMs - atMs).tdiv period * period)

def NextFits (atMs : Int) (repeats : Repeat) (nowMs : Int) : Prop :=
  atMs ≤ nowMs → ∀ period ∈ repeats.periodMs, InI64 (nowMs - atMs) ∧
    InI64 ((nowMs - atMs).tdiv period + 1) ∧ InI64 (((nowMs - atMs).tdiv period + 1) * period) ∧
    InI64 (atMs + ((nowMs - atMs).tdiv period + 1) * period)

def DueFits (atMs : Int) (repeats : Repeat) (nowMs : Int) : Prop :=
  LatestFits atMs repeats nowMs ∧ ∀ o ∈ latestOccurrence atMs repeats nowMs, InI64 (nowMs - o)

def Reading (nowMs : Int) : Prop := 0 ≤ nowMs ∧ nowMs < 9007199254740992

instance (nowMs : Int) : Decidable (Reading nowMs) := inferInstanceAs (Decidable (_ ∧ _))

def earliestMs : Int := 9007199254740992 + 7 * dayMs - 9223372036854775808

section Exact

variable {atMs nowMs o : Int} {reps : Repeat}

theorem period_cases (h : per ∈ reps.periodMs) : per = 86400000 ∨ per = 604800000 := by
  cases reps with
  | once => cases h
  | daily => exact .inl (Option.some.inj h).symm
  | weekly => exact .inr (Option.some.inj h).symm

theorem IsOccurrence.le (h : IsOccurrence atMs reps o) : atMs ≤ o := by
  rcases h with rfl | ⟨per, hp, k, rfl⟩
  · exact le_refl _
  · have hpos : 0 ≤ (k : Int) * per := by rcases period_cases hp with rfl | rfl <;> omega
    omega

variable (hat : earliestMs ≤ atMs) (hnow : Reading nowMs)

include hat hnow

theorem occurrence_fits : LatestFits atMs reps nowMs ∧ NextFits atMs reps nowMs := by
  constructor
  all_goals
    intro hle per hp
    unfold earliestMs dayMs at hat
    unfold Reading at hnow
    rw [tdiv_eq_ediv_of_nonneg (by omega)]
    unfold InI64
    rcases period_cases hp with rfl | rfl <;> omega

theorem latestOccurrence_exact : latestOccurrence atMs reps nowMs =
    if nowMs < atMs then none
    else some (match reps.periodMs with
      | none => atMs
      | some per => atMs + (nowMs - atMs) / per * per) := by
  unfold latestOccurrence
  by_cases hlt : nowMs < atMs
  · rw [if_pos hlt, if_pos hlt]
  · cases hp : reps.periodMs with
    | none => rfl
    | some per =>
      obtain ⟨hsub, hmul, hadd⟩ := (occurrence_fits hat hnow).1 (by omega) per hp
      simp only [wrap_of_inI64 hsub, wrap_of_inI64 hmul, wrap_of_inI64 hadd]
      rw [tdiv_eq_ediv_of_nonneg (by omega)]

theorem latest_spec (h : latestOccurrence atMs reps nowMs = some o) :
    IsOccurrence atMs reps o ∧ o ≤ nowMs ∧ ∀ o', IsOccurrence atMs reps o' → o' ≤ nowMs → o' ≤ o := by
  rw [latestOccurrence_exact hat hnow, Option.ite_none_left_eq_some] at h
  obtain ⟨hge, h⟩ := h
  cases h
  cases hpe : reps.periodMs with
  | none =>
    refine ⟨.inl rfl, by simp only; omega, ?_⟩
    rintro o' (rfl | ⟨per, hp, -⟩) -
    · exact le_refl _
    · rw [hpe] at hp
      cases hp
  | some per =>
    have hpos : 0 < per := by rcases period_cases hpe with rfl | rfl <;> omega
    have hq : 0 ≤ (nowMs - atMs) / per := ediv_nonneg (by omega) (by omega)
    have hle : (nowMs - atMs) / per * per ≤ nowMs - atMs := Int.ediv_mul_le _ (by omega)
    refine ⟨.inr ⟨per, hpe, ((nowMs - atMs) / per).toNat, ?_⟩, by simp only; omega, ?_⟩
    · rw [toNat_of_nonneg hq]
    · rintro o' (rfl | ⟨per', hp, k, rfl⟩) ho'
      · have := Int.mul_nonneg hq (Int.le_of_lt hpos)
        simp only
        omega
      · obtain rfl := Option.some.inj (hpe.symm.trans hp)
        have hk : (k : Int) ≤ (nowMs - atMs) / per := (Int.le_ediv_iff_mul_le hpos).mpr (by omega)
        have := Int.mul_le_mul_of_nonneg_right hk (Int.le_of_lt hpos)
        simp only
        omega

theorem exists_latest (ho' : IsOccurrence atMs reps o') (hle : o' ≤ nowMs) :
    ∃ o, latestOccurrence atMs reps nowMs = some o := by
  have hge : ¬nowMs < atMs := not_lt.mpr (le_trans ho'.le hle)
  rw [latestOccurrence_exact hat hnow, if_neg hge]
  exact ⟨_, rfl⟩

theorem latest_of_recent (ho : IsOccurrence atMs reps o) (hle : o ≤ nowMs) (hlt : nowMs < o + dayMs) :
    latestOccurrence atMs reps nowMs = some o := by
  obtain ⟨l, hl⟩ := exists_latest hat hnow ho hle
  obtain ⟨hocc, hln, hmax⟩ := latest_spec hat hnow hl
  have hol : o ≤ l := hmax o ho hle
  have heq : l = o := by
    unfold dayMs at hlt
    rcases hocc with rfl | ⟨per, hp, k, rfl⟩
    · have hge := ho.le
      omega
    · rcases ho with rfl | ⟨per', hp', j, rfl⟩
      · rcases period_cases hp with rfl | rfl <;> omega
      · obtain rfl := Option.some.inj (hp.symm.trans hp')
        rcases period_cases hp with rfl | rfl <;> omega
  rw [hl, heq]

theorem due_fits : DueFits atMs reps nowMs := by
  refine ⟨(occurrence_fits hat hnow).1, fun o ho => ?_⟩
  obtain ⟨hocc, hle, -⟩ := latest_spec hat hnow ho
  have hge := hocc.le
  unfold earliestMs dayMs at hat
  unfold Reading at hnow
  unfold InI64
  omega

theorem lt_next (h : nextOccurrence atMs reps nowMs = some o) : nowMs < o := by
  unfold nextOccurrence at h
  split at h
  · next hlt => exact Option.some.inj h ▸ hlt
  · obtain ⟨per, hp, rfl⟩ := Option.map_eq_some_iff.mp h
    obtain ⟨hsub, hs, hmul, hadd⟩ := (occurrence_fits hat hnow).2 (by omega) per hp
    rw [wrap_of_inI64 hsub, wrap_of_inI64 hs, wrap_of_inI64 hmul, wrap_of_inI64 hadd,
      tdiv_eq_ediv_of_nonneg (by omega)]
    rcases period_cases hp with rfl | rfl <;> omega

theorem due_cases (reps : Repeat) (enabled : Bool) (lastRunMs : Option Int) :
    due atMs reps enabled lastRunMs nowMs = .nothing ∨
      ∃ o, latestOccurrence atMs reps nowMs = some o ∧ (∀ m ∈ lastRunMs, m < o) ∧
        due atMs reps enabled lastRunMs nowMs =
          if nowMs ≤ o + runGraceMs then .run o else .skip o := by
  unfold due
  cases enabled with
  | false => exact .inl rfl
  | true =>
    cases hl : latestOccurrence atMs reps nowMs with
    | none => exact .inl rfl
    | some o =>
      by_cases hma : lastRunMs.any (o ≤ ·)
      · exact .inl (if_pos hma)
      · refine .inr ⟨o, rfl, fun m hm => ?_, ?_⟩
        · obtain rfl := hm
          simpa using hma
        · have hg : wrap (nowMs - o) = nowMs - o := wrap_of_inI64 ((due_fits hat hnow).2 o hl)
          have hiff : nowMs - o ≤ runGraceMs ↔ nowMs ≤ o + runGraceMs := by omega
          simp only [Bool.not_true, Bool.false_eq_true, if_false, if_neg hma, hg, hiff]

end Exact

open List

inductive ScheduleAction where
  | startOutputs
  | stopOutputs
  | startFile
  | stopFile
  deriving DecidableEq, Repr

/-- A schedule as created or edited; its time is any 64-bit integer. -/
structure ScheduleDraft where
  name : String
  action : ScheduleAction
  outputIds : List String
  atMs : Int
  repeats : Repeat
  enabled : Bool
  fits : InI64 atMs

def check (blank : String → Bool) (draft : ScheduleDraft) : Except String Unit :=
  if blank draft.name || draft.name.utf8ByteSize > 120 then
    .error "A schedule needs a name of 1-120 characters."
  else if draft.outputIds.length > 1000 then .error "A schedule names at most 1000 destinations."
  else if (draft.action = .startFile || draft.action = .stopFile) && !draft.outputIds.isEmpty then
    .error "A file action names no destinations."
  else .ok ()

/-- A saved schedule with its mark, the occurrence last run or skipped. -/
structure Schedule where
  id : String
  action : ScheduleAction
  outputIds : List String
  atMs : Int
  repeats : Repeat
  enabled : Bool
  lastRunMs : Option Int
  deriving DecidableEq, Repr

def recordOf (id : String) (draft : ScheduleDraft) (lastRunMs : Option Int) : Schedule :=
  { id, action := draft.action, outputIds := draft.outputIds,
    atMs := draft.atMs, repeats := draft.repeats,
    enabled := draft.enabled, lastRunMs }

section Table

variable (rows : List Schedule)

def save (row : Schedule) : List Schedule :=
  if rows.any (·.id = row.id) then rows.map fun other => if other.id = row.id then row else other
  else rows ++ [row]

def recordRun (id : String) (occurrenceMs : Int) : List Schedule :=
  rows.map fun row => if row.id = id then { row with lastRunMs := some occurrenceMs } else row

def ListedBefore (a b : Schedule) : Prop := a.atMs < b.atMs ∨ (a.atMs = b.atMs ∧ a.id ≤ b.id)

instance : DecidableRel ListedBefore := fun _ _ => inferInstanceAs (Decidable (_ ∨ (_ ∧ _)))

def list : List Schedule := rows.insertionSort ListedBefore

end Table

inductive ScheduleRequest where
  | create (draft : ScheduleDraft) (nowMs : Int)
  | update (id : String) (draft : ScheduleDraft) (nowMs : Int) (current : Option Schedule)

/-- How far a tick has come: the clock is read, the listed schedules are looked at one by
one, and one that is due is recorded, executed and recorded again. -/
inductive TickPhase where
  | clock
  | walk (rest : List Schedule)
  | recorded (schedule : Schedule) (occurrenceMs : Int) (rest : List Schedule)
  | executed (schedule : Schedule) (occurrenceMs : Int) (rest : List Schedule)

structure Tick where
  nowMs : Int
  phase : TickPhase

def Tick.open : Tick → List Schedule
  | { phase := .clock, .. } => []
  | { phase := .walk rest, .. } => rest
  | { phase := .recorded schedule _ rest, .. } | { phase := .executed schedule _ rest, .. } =>
    schedule :: rest

/-- What has happened: settings saved with a reading of the clock, and occurrences
executed in a tick. -/
inductive ScheduleLog where
  | saved (id : String) (atMs : Int) (repeats : Repeat) (nowMs : Int)
  | ran (id : String) (occurrenceMs nowMs : Int)
  deriving DecidableEq, Repr

def ScheduleLog.id : ScheduleLog → String
  | saved id _ _ _ | ran id _ _ => id

structure ScheduleRun (Client : Type) where
  clock : Int
  rows : List Schedule
  usedIds : List String
  pending : Client → Option ScheduleRequest
  tick : Option Tick
  lastTickMs : Option Int
  log : List ScheduleLog

inductive ScheduleEvent (Client : Type) where
  | createRequest (client : Client) (draft : ScheduleDraft) (nowMs : Int)
  | createSave (client : Client) (id : String)
  | updateRequest (client : Client) (id : String) (draft : ScheduleDraft) (nowMs : Int)
  | updateRead (client : Client)
  | updateSave (client : Client)
  | delete (id : String)
  | tickStart (nowMs : Int)
  | tickList
  | tickNext
  | tickExecute
  | tickRecord

def laterMark : Option Int → Option Int → Option Int
  | some a, some b => some (max a b)
  | none, mark | mark, none => mark

namespace ScheduleRun

variable {Client : Type} [DecidableEq Client]

def start : ScheduleRun Client :=
  { clock := 0, rows := [], usedIds := [], pending := fun _ => none,
    tick := none, lastTickMs := none, log := [] }

def await (r : ScheduleRun Client) (client : Client) (request : Option ScheduleRequest) :
    ScheduleRun Client :=
  { r with pending := Function.update r.pending client request }

def readClock (r : ScheduleRun Client) (nowMs : Int) : Option (ScheduleRun Client) :=
  if r.clock ≤ nowMs ∧ Reading nowMs then some { r with clock := nowMs } else none

def saveRow (r : ScheduleRun Client) (row : Schedule) (nowMs : Int) : ScheduleRun Client :=
  { r with rows := save r.rows row, usedIds := row.id :: r.usedIds
           log := r.log ++ [.saved row.id row.atMs row.repeats nowMs] }

/-- The next schedule of a tick: nothing, a skip that is recorded, or a run that is
recorded before it is executed. -/
def next (r : ScheduleRun Client) (nowMs : Int) (schedule : Schedule) (rest : List Schedule) :
    ScheduleRun Client :=
  match due schedule.atMs schedule.repeats schedule.enabled schedule.lastRunMs nowMs with
  | .nothing => { r with tick := some { nowMs, phase := .walk rest } }
  | .skip occurrence =>
    { r with rows := recordRun r.rows schedule.id occurrence, tick := some { nowMs, phase := .walk rest } }
  | .run occurrence =>
    { r with rows := recordRun r.rows schedule.id occurrence
             tick := some { nowMs, phase := .recorded schedule occurrence rest } }

def step (blank : String → Bool) (r : ScheduleRun Client) :
    ScheduleEvent Client → Option (ScheduleRun Client)
  | .createRequest client draft nowMs =>
    match check blank draft with
    | .error _ => none
    | .ok () => (r.readClock nowMs).map fun r => r.await client (some (.create draft nowMs))
  | .createSave client id =>
    match r.pending client with
    | some (.create draft nowMs) =>
      if id ∈ r.usedIds then none
      else
        let row := recordOf id draft (latestOccurrence draft.atMs draft.repeats nowMs)
        some ((r.await client none).saveRow row nowMs)
    | _ => none
  | .updateRequest client id draft nowMs =>
    match check blank draft with
    | .error _ => none
    | .ok () => (r.readClock nowMs).map fun r => r.await client (some (.update id draft nowMs none))
  | .updateRead client =>
    match r.pending client with
    | some (.update id draft nowMs none) =>
      match r.rows.find? (·.id = id) with
      | none => some (r.await client none)
      | some row => some (r.await client (some (.update id draft nowMs (some row))))
    | _ => none
  | .updateSave client =>
    match r.pending client with
    | some (.update id draft nowMs (some current)) =>
      let mark := laterMark (latestOccurrence draft.atMs draft.repeats nowMs) current.lastRunMs
      some ((r.await client none).saveRow (recordOf id draft mark) nowMs)
    | _ => none
  | .delete id => some { r with rows := r.rows.filter (·.id ≠ id) }
  | .tickStart nowMs =>
    if r.tick.isNone then
      (r.readClock nowMs).map fun r => { r with tick := some { nowMs, phase := .clock } }
    else none
  | .tickList =>
    match r.tick with
    | some { nowMs, phase := .clock } =>
      some { r with tick := some { nowMs, phase := .walk (list r.rows) } }
    | _ => none
  | .tickNext =>
    match r.tick with
    | some { nowMs, phase := .walk [] } => some { r with tick := none, lastTickMs := some nowMs }
    | some { nowMs, phase := .walk (schedule :: rest) } => some (r.next nowMs schedule rest)
    | _ => none
  | .tickExecute =>
    match r.tick with
    | some { nowMs, phase := .recorded schedule occurrence rest } =>
      some { r with tick := some { nowMs, phase := .executed schedule occurrence rest }
                    log := r.log ++ [.ran schedule.id occurrence nowMs] }
    | _ => none
  | .tickRecord =>
    match r.tick with
    | some { nowMs, phase := .executed schedule occurrence rest } =>
      some { r with rows := recordRun r.rows schedule.id occurrence
                    tick := some { nowMs, phase := .walk rest } }
    | _ => none

end ScheduleRun

section Table

variable {id : String}

theorem mem_save (h : other ∈ save rows row) : other = row ∨ (other ∈ rows ∧ other.id ≠ row.id) := by
  unfold save at h
  split at h
  · obtain ⟨pre, hmem, rfl⟩ := mem_map.mp h
    by_cases hid : pre.id = row.id
    · exact .inl (if_pos hid)
    · rw [if_neg hid]
      exact .inr ⟨hmem, hid⟩
  · next hnew =>
    rcases mem_append.mp h with hmem | hmem
    · exact .inr ⟨hmem, fun hid => hnew (any_eq_true.mpr ⟨other, hmem, decide_eq_true hid⟩)⟩
    · exact .inl (mem_singleton.mp hmem)

theorem mem_recordRun : other ∈ recordRun rows id o ↔
    ∃ pre ∈ rows, other = if pre.id = id then { pre with lastRunMs := some o } else pre := by
  simp only [recordRun, mem_map, eq_comm]

theorem mem_save_of_ne (h : other ∈ rows) (hne : other.id ≠ row.id) : other ∈ save rows row := by
  unfold save
  split
  · exact mem_map.mpr ⟨other, h, if_neg hne⟩
  · exact mem_append_left _ h

theorem nodup_save (h : (rows.map Schedule.id).Nodup) : ((save rows row).map Schedule.id).Nodup := by
  unfold save
  split
  · have hids : (rows.map fun other => if other.id = row.id then row else other).map Schedule.id =
        rows.map Schedule.id := by
      rw [map_map]
      refine map_congr_left fun other _ => ?_
      by_cases hid : other.id = row.id
      · rw [Function.comp_apply, if_pos hid, hid]
      · rw [Function.comp_apply, if_neg hid]
    exact hids ▸ h
  · next hnew =>
    have hf : row.id ∉ rows.map Schedule.id := by
      intro hmem
      obtain ⟨other, ho, hid⟩ := mem_map.mp hmem
      exact hnew (any_eq_true.mpr ⟨other, ho, decide_eq_true hid⟩)
    rw [map_append]
    exact nodup_append_comm.mp (nodup_cons.mpr ⟨hf, h⟩)

theorem map_id_recordRun (rows : List Schedule) (id : String) (o : Int) :
    (recordRun rows id o).map Schedule.id = rows.map Schedule.id := by
  rw [recordRun, map_map]
  refine map_congr_left fun row _ => ?_
  rw [Function.comp_apply, apply_ite Schedule.id, ite_self]

theorem mem_list : row ∈ list rows ↔ row ∈ rows := mem_insertionSort _

end Table

end Restream.Schedules
