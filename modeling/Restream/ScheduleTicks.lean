import Restream.ScheduleMarks

/-! Ticks that follow one another closely lose no occurrence: while a schedule is left
alone, every occurrence after its mark is executed by the tick that reads the clock next. -/

namespace Restream.Schedules

open List Option ScheduleLog Exec

/-- An occurrence of the settings of a schedule that is to be executed. -/
structure Awaited where
  id : String
  atMs : Int
  repeats : Repeat
  dueMs : Int
  occurs : IsOccurrence atMs repeats dueMs

namespace Awaited

variable (w : Awaited)

structure Awaits (s : Schedule) : Prop where
  same_id : s.id = w.id
  same_at : s.atMs = w.atMs
  same_repeats : s.repeats = w.repeats
  enabled : s.enabled = true
  mark : ∀ m ∈ s.lastRunMs, m < w.dueMs

def Ahead (rows : List Schedule) (nowMs : Int) (rest : List Schedule) : Prop :=
  (∃ row ∈ rows, w.Awaits row) ∧ (w.dueMs ≤ nowMs → ∃ s ∈ rest, w.Awaits s)

def Waiting (rows : List Schedule) : Option Tick → Prop
  | none | some { phase := .clock, .. } => ∃ row ∈ rows, w.Awaits row
  | some { nowMs, phase := .walk rest } => w.Ahead rows nowMs rest
  | some { nowMs, phase := .recorded s o rest } =>
    (s.id = w.id ∧ o = w.dueMs) ∨ (w.Ahead rows nowMs rest ∧ (s.id = w.id → o < w.dueMs))
  | some { nowMs, phase := .executed s o rest } =>
    w.Ahead rows nowMs rest ∧ (s.id = w.id → o < w.dueMs)

variable {w} {rows rows' rest : List Schedule} {s row : Schedule} {tick : Option Tick} {nowMs : Int}

theorem Ahead.mono (h : w.Ahead rows nowMs rest) (hro : ∀ row ∈ rows, w.Awaits row → row ∈ rows') :
    w.Ahead rows' nowMs rest := by
  obtain ⟨⟨row, hrow, ha⟩, hr⟩ := h
  exact ⟨⟨row, hro row hrow ha, ha⟩, hr⟩

theorem Waiting.mono (h : w.Waiting rows tick) (hr : ∀ row ∈ rows, w.Awaits row → row ∈ rows') :
    w.Waiting rows' tick := by
  have hex : (∃ row ∈ rows, w.Awaits row) → ∃ row ∈ rows', w.Awaits row := by
    rintro ⟨row, hrow, ha⟩
    exact ⟨row, hr row hrow ha, ha⟩
  rcases tick with - | ⟨now, phase⟩
  · exact hex h
  · cases phase with
    | clock => exact hex h
    | walk rest => exact Ahead.mono h hr
    | recorded s o rest =>
      rcases h with hnow | ⟨hah, hlt⟩
      · exact .inl hnow
      · exact .inr ⟨hah.mono hr, hlt⟩
    | executed s o rest => exact ⟨h.1.mono hr, h.2⟩

theorem exists_awaits_recordRun {id : String} (h : ∃ row ∈ rows, w.Awaits row)
    (hlt : id = w.id → o < w.dueMs) : ∃ row ∈ recordRun rows id o, w.Awaits row := by
  obtain ⟨row, hrow, ha⟩ := h
  refine ⟨_, mem_recordRun.mpr ⟨row, hrow, rfl⟩, ?_⟩
  by_cases hid : row.id = id
  · rw [if_pos hid]
    exact { ha with mark := fun m hm => Option.some.inj hm ▸ hlt (hid ▸ ha.same_id) }
  · rw [if_neg hid]
    exact ha

theorem Awaits.due_eq (h : w.Awaits s) (hat : earliestMs ≤ w.atMs)
    (hnow : Reading nowMs) (hc : w.dueMs ≤ nowMs)
    (hg : nowMs ≤ w.dueMs + runGraceMs) :
    due s.atMs s.repeats s.enabled s.lastRunMs nowMs = .run w.dueMs := by
  rw [h.same_at, h.same_repeats, h.enabled]
  have hl : latestOccurrence w.atMs w.repeats nowMs = some w.dueMs := by
    refine latest_of_recent hat hnow w.occurs hc ?_
    unfold runGraceMs at hg
    unfold dayMs
    omega
  have hf : wrap (nowMs - w.dueMs) = nowMs - w.dueMs := wrap_of_inI64 ((due_fits hat hnow).2 _ hl)
  have hm : ¬s.lastRunMs.any (w.dueMs ≤ ·) := by
    cases hla : s.lastRunMs with
    | none => exact Bool.false_ne_true
    | some m =>
      have hlt := h.mark m hla
      simpa using hlt
  unfold due
  rw [hl]
  simp only [Bool.not_true, Bool.false_eq_true, if_false, if_neg hm, hf]
  exact if_pos (by omega)

end Awaited

def ScheduleLog.execution : ScheduleLog → Option (String × Int)
  | saved _ _ _ _ => none
  | ran id occurrenceMs _ => some (id, occurrenceMs)

namespace ScheduleRun

variable {Client : Type}

/-- The schedule is left alone, and a tick comes soon after the one before. -/
def LeftAlone (id : String) (r : ScheduleRun Client) : ScheduleEvent Client → Prop
  | .createSave _ other | .delete other => other ≠ id
  | .updateSave client =>
    ∀ other draft nowMs current, r.pending client = some (.update other draft nowMs current) →
      other ≠ id
  | .tickStart nowMs => ∀ t ∈ r.lastTickMs, nowMs ≤ t + runGraceMs
  | _ => True

structure Pending (w : Awaited) (r : ScheduleRun Client) : Prop where
  last : ∃ t ∈ r.lastTickMs, t < w.dueMs
  gap : ∀ t ∈ r.lastTickMs, ∀ k ∈ r.tick, k.nowMs ≤ t + runGraceMs
  waiting : w.Waiting r.rows r.tick

section Steps

variable {w : Awaited} {r r' : ScheduleRun Client} {nowMs : Int} {s row : Schedule}

theorem Pending.setTick (h : Pending w r) {rows : List Schedule} {log : List ScheduleLog}
    (hti : r.tick = some { nowMs, phase }) (hw : w.Waiting rows (some { nowMs, phase := phase' })) :
    Pending w { r with rows, log, tick := some { nowMs, phase := phase' } } where
  last := h.last
  gap t ht k hk := by
    cases hk
    exact h.gap t ht { nowMs, phase } hti
  waiting := hw

theorem Pending.saveRow (h : Pending w r) (hid : row.id ≠ w.id) : Pending w (r.saveRow row nowMs) :=
  { h with
    waiting := h.waiting.mono fun _ ho ha => mem_save_of_ne ho (ha.same_id.trans_ne hid.symm) }

theorem Pending.readClock (h : Pending w r) (hre : r.readClock nowMs = some r') : Pending w r' := by
  obtain ⟨-, hr⟩ := ite_none_right_eq_some.mp hre
  exact Option.some.inj hr ▸ { h with }

theorem Pending.next (h : Pending w r) (hinv : r.Inv) (hat : earliestMs ≤ w.atMs)
    (ht : r.tick = some { nowMs, phase := .walk (s :: rest) }) : Pending w (r.next nowMs s rest) := by
  obtain ⟨hnow, hl⟩ := hinv.tick _ ht
  obtain ⟨t, hlas, hlt⟩ := h.last
  have hgap : nowMs ≤ t + runGraceMs := h.gap t hlas _ ht
  have hw : w.Waiting r.rows (some { nowMs, phase := .walk (s :: rest) }) := ht ▸ h.waiting
  obtain ⟨hro, hr⟩ := hw
  by_cases hrun : s.id = w.id ∧ w.dueMs ≤ nowMs
  · obtain ⟨other, ho, ha⟩ := hr hrun.2
    have hs : w.Awaits s := by
      rcases mem_cons.mp ho with rfl | hmem
      · exact ha
      · have hids : other.id = s.id := ha.same_id.trans hrun.1.symm
        exact (hl.taken.fresh (hids ▸ mem_map_of_mem hmem)).elim
    rw [ScheduleRun.next, hs.due_eq hat hnow hrun.2 (by omega)]
    exact h.setTick ht (.inl ⟨hrun.1, rfl⟩)
  · have hr' : w.dueMs ≤ nowMs → ∃ s ∈ rest, w.Awaits s := by
      intro hc
      obtain ⟨other, ho, ha⟩ := hr hc
      rcases mem_cons.mp ho with rfl | hmem
      · exact (hrun ⟨ha.same_id, hc⟩).elim
      · exact ⟨other, hmem, ha⟩
    have hsat : earliestMs ≤ s.atMs := hl.early s mem_cons_self
    unfold ScheduleRun.next
    rcases due_cases hsat hnow s.repeats s.enabled s.lastRunMs with hn | ⟨o, hla, -, hdue⟩
    · rw [hn]
      exact h.setTick ht ⟨hro, hr'⟩
    · have he : s.id = w.id → o < w.dueMs := by
        intro hid
        have hle := (latest_spec hsat hnow hla).2.1
        have hnot : ¬w.dueMs ≤ nowMs := fun hc => hrun ⟨hid, hc⟩
        omega
      have hah : w.Ahead (recordRun r.rows s.id o) nowMs rest :=
        ⟨Awaited.exists_awaits_recordRun hro he, hr'⟩
      rw [hdue]
      by_cases hg : nowMs ≤ o + runGraceMs
      · rw [if_pos hg]
        exact h.setTick ht (.inr ⟨hah, he⟩)
      · rw [if_neg hg]
        exact h.setTick ht hah

variable [DecidableEq Client]

theorem Pending.step (h : Pending w r) (hinv : r.Inv) (hat : earliestMs ≤ w.atMs)
    (hg : r.LeftAlone w.id e) (hst : r.step blank e = some r') :
    (∃ nowMs, .ran w.id w.dueMs nowMs ∈ r'.log) ∨ Pending w r' := by
  cases e <;> simp only [ScheduleRun.step] at hst
  case createRequest | updateRequest =>
    split at hst
    · cases hst
    · obtain ⟨r₁, hre, rfl⟩ := map_eq_some_iff.mp hst
      exact .inr { h.readClock hre with }
  case createSave cl id =>
    split at hst
    · obtain ⟨-, hr⟩ := ite_none_left_eq_some.mp hst
      have hw : Pending w (r.await cl none) := { h with }
      exact .inr (Option.some.inj hr ▸ hw.saveRow hg)
    · cases hst
  case updateRead cl =>
    split at hst
    · split at hst <;> exact .inr (Option.some.inj hst ▸ { h with })
    · cases hst
  case updateSave cl =>
    split at hst
    · next id draft nowMs cur hreq =>
      have hw : Pending w (r.await cl none) := { h with }
      exact .inr (Option.some.inj hst ▸ hw.saveRow (hg _ _ _ _ hreq))
    · cases hst
  case delete id =>
    refine .inr (Option.some.inj hst ▸ { h with waiting := h.waiting.mono fun other ho ha => ?_ })
    exact mem_filter.mpr ⟨ho, decide_eq_true (ha.same_id.trans_ne (Ne.symm hg))⟩
  case tickStart nowMs =>
    obtain ⟨hi, hr⟩ := ite_none_right_eq_some.mp hst
    obtain ⟨r₁, hre, rfl⟩ := map_eq_some_iff.mp hr
    obtain ⟨-, hr₁⟩ := ite_none_right_eq_some.mp hre
    cases hr₁
    have hw : w.Waiting r.rows none := isNone_iff_eq_none.mp hi ▸ h.waiting
    exact .inr ⟨h.last, fun t ht k hk => Option.some.inj hk ▸ hg t ht, hw⟩
  case tickList =>
    split at hst
    · next nowMs hti =>
      have hw : w.Waiting r.rows (some { nowMs, phase := .clock }) := hti ▸ h.waiting
      obtain ⟨row, hrow, ha⟩ := hw
      exact .inr (Option.some.inj hst ▸
        h.setTick hti ⟨⟨row, hrow, ha⟩, fun _ => ⟨row, mem_list.mpr hrow, ha⟩⟩)
    · cases hst
  case tickNext =>
    split at hst
    · next nowMs hti =>
      have hw : w.Waiting r.rows (some { nowMs, phase := .walk [] }) := hti ▸ h.waiting
      obtain ⟨hro, hres⟩ := hw
      have he : nowMs < w.dueMs := by
        by_contra hcome
        obtain ⟨s, hs, -⟩ := hres (Int.not_lt.mp hcome)
        cases hs
      exact .inr (Option.some.inj hst ▸ ⟨⟨nowMs, rfl, he⟩, fun _ _ _ hk => (by cases hk), hro⟩)
    · next nowMs s rest hti => exact .inr (Option.some.inj hst ▸ h.next hinv hat hti)
    · cases hst
  case tickExecute =>
    split at hst <;> cases hst
    · next nowMs s o rest hti =>
      have hw : w.Waiting r.rows (some { nowMs, phase := .recorded s o rest }) := hti ▸ h.waiting
      rcases hw with ⟨hid, rfl⟩ | hah
      · exact .inl ⟨nowMs, mem_append_right _ (hid ▸ mem_singleton_self _)⟩
      · exact .inr (h.setTick hti hah)
  case tickRecord =>
    split at hst
    · next nowMs s o rest hti =>
      have hw : w.Waiting r.rows (some { nowMs, phase := .executed s o rest }) := hti ▸ h.waiting
      obtain ⟨⟨hro, hres⟩, hlt⟩ := hw
      exact .inr (Option.some.inj hst ▸ h.setTick hti ⟨Awaited.exists_awaits_recordRun hro hlt, hres⟩)
    · cases hst

theorem mem_log_step (hmem : en ∈ r.log) (hs : r.step blank e = some r') : en ∈ r'.log := by
  cases e <;> grind [ScheduleRun.step, readClock, await, saveRow, next]

variable {blank : String → Bool}

theorem Pending.executed (h₀ : Pending w r₀) (hinv₀ : r₀.Inv) (hat : earliestMs ≤ w.atMs)
    (hrun : Reachable (ScheduleRun.step blank)
      (fun r e => r.Undisturbed e ∧ r.LeftAlone w.id e) r₀ r)
    (hc : ∃ t ∈ r.lastTickMs, w.dueMs ≤ t) : ∃ nowMs, .ran w.id w.dueMs nowMs ∈ r.log := by
  have hk : r.Inv ∧ ((∃ nowMs, .ran w.id w.dueMs nowMs ∈ r.log) ∨ Pending w r) := by
    refine hrun.invariant (fun r => r.Inv ∧ ((∃ nowMs, .ran w.id w.dueMs nowMs ∈ r.log) ∨
      Pending w r))
      ?_ ⟨hinv₀, .inr h₀⟩
    rintro r e r' ⟨hinv, hd | hp⟩ ⟨hg, ha⟩ hs
    · obtain ⟨nowMs, hmem⟩ := hd
      exact ⟨hinv.step hg hs, .inl ⟨nowMs, mem_log_step hmem hs⟩⟩
    · exact ⟨hinv.step hg hs, hp.step hinv hat ha hs⟩
  rcases hk.2 with hd | hp
  · exact hd
  · obtain ⟨t, ht, hle⟩ := hc
    obtain ⟨t', ht', hlt⟩ := hp.last
    obtain rfl := Option.some.inj (ht.symm.trans ht')
    omega

end Steps

def Uses (r : ScheduleRun Client) (atMs : Int) : Prop :=
  (∃ row ∈ r.rows, row.atMs = atMs) ∨ (∃ client q, r.pending client = some q ∧ q.draft.atMs = atMs) ∨
    ∃ t ∈ r.tick, ∃ s ∈ t.open, s.atMs = atMs

section Results

variable {r : ScheduleRun Client} {atMs : Int}

theorem Inv.early_of_uses (h : r.Inv) (hat : r.Uses atMs) : earliestMs ≤ atMs := by
  rcases hat with ⟨row, hrow, rfl⟩ | ⟨cl, q, hq, rfl⟩ | ⟨t, ht, s, hs, rfl⟩
  · exact h.early row hrow
  · exact (h.pending cl q hq).1
  · exact (h.open_known ht s hs).2

theorem nodup_execution {log : List ScheduleLog} (h : log.Pairwise After) :
    (log.filterMap execution).Nodup := by
  refine pairwise_filterMap.mpr (h.imp ?_)
  intro e f haf a ha b hb hab
  obtain rfl := hab
  cases e with
  | saved => cases ha
  | ran id o now =>
    cases f with
    | saved => cases hb
    | ran id' o' now' =>
      obtain ⟨rfl, rfl⟩ := Prod.mk.inj (Option.some.inj (ha.trans hb.symm))
      exact Int.lt_irrefl o (haf rfl o rfl)

theorem Inv.not_ran_past (h : r.Inv) {pre after : List ScheduleLog} {id : String}
    (hlog : r.log = pre ++ .saved id atMs reps u :: after) (hocc : IsOccurrence atMs reps o)
    (hle : o ≤ u) : .ran id o nowMs ∉ after := by
  intro hmem
  obtain ⟨he, hr⟩ := h.saves id atMs reps u (hlog ▸ mem_append_right _ mem_cons_self)
  have ho : (pre ++ .saved id atMs reps u :: after).Pairwise After := hlog ▸ h.order
  have ha := (pairwise_cons.mp (pairwise_append.mp ho).2.1).1 _ hmem
  obtain ⟨l, hl⟩ := exists_latest he hr hocc hle
  have hlt : l < o := ha rfl l hl
  have hge : o ≤ l := (latest_spec he hr hl).2.2 o hocc hle
  omega

end Results

/-- As long as updates do not race with the scheduler and times are not absurdly early,
each occurrence is executed at most once and within its grace, none that had passed when
its settings were saved, nothing overflows, and ticks that follow closely miss nothing. -/
theorem schedules_run_once [DecidableEq Client] {blank : String → Bool} {r : ScheduleRun Client}
    (h : Reachable (ScheduleRun.step blank) Undisturbed start r) :
    (r.log.filterMap execution).Nodup ∧
    (∀ id o nowMs, .ran id o nowMs ∈ r.log → o ≤ nowMs ∧ nowMs ≤ o + 60000) ∧
    (∀ before after id atMs repeats u, r.log = before ++ .saved id atMs repeats u :: after →
      ∀ o nowMs, IsOccurrence atMs repeats o → o ≤ u → .ran id o nowMs ∉ after) ∧
    (∀ atMs, r.Uses atMs → ∀ repeats nowMs, Reading nowMs →
      LatestFits atMs repeats nowMs ∧ NextFits atMs repeats nowMs ∧ DueFits atMs repeats nowMs ∧
      (∀ o ∈ latestOccurrence atMs repeats nowMs, o ≤ nowMs) ∧
      ∀ o ∈ nextOccurrence atMs repeats nowMs, nowMs < o) ∧
    ∀ (w : Awaited) (r' : ScheduleRun Client), r.tick = none → (∃ t ∈ r.lastTickMs, t < w.dueMs) →
      (∃ row ∈ r.rows, w.Awaits row) →
      Reachable (ScheduleRun.step blank) (fun r e => r.Undisturbed e ∧ r.LeftAlone w.id e) r r' →
      (∃ t ∈ r'.lastTickMs, w.dueMs ≤ t) → ∃ nowMs, .ran w.id w.dueMs nowMs ∈ r'.log := by
  have hinv : r.Inv := .reachable h
  refine ⟨nodup_execution hinv.order, hinv.times, ?_, ?_, ?_⟩
  · exact fun before after id atMs repeats u hlog o nowMs => hinv.not_ran_past hlog
  · intro atMs huses repeats nowMs hnow
    have hat := hinv.early_of_uses huses
    exact ⟨(occurrence_fits hat hnow).1, (occurrence_fits hat hnow).2, due_fits hat hnow,
      fun o ho => (latest_spec hat hnow ho).2.1, fun o ho => lt_next hat hnow ho⟩
  · intro w r' hidle hlast hrow hrun hcome
    have hpending : Pending w r := by
      refine ⟨hlast, fun t _ k hk => ?_, hidle ▸ hrow⟩
      rw [hidle] at hk
      cases hk
    obtain ⟨row, hmem, hawaits⟩ := hrow
    exact hpending.executed hinv (hawaits.same_at ▸ hinv.early row hmem) hrun hcome

section Runs

def dailyShow (atMs : Int) (fits : InI64 atMs) : ScheduleDraft :=
  { name := "show", action := .startOutputs, outputIds := [],
    atMs, repeats := .daily, enabled := true, fits }

def blankName (name : String) : Bool := name.toList.all Char.isWhitespace

def dueTick (nowMs : Int) : List (ScheduleEvent Unit) :=
  [.tickStart nowMs, .tickList, .tickNext, .tickExecute, .tickRecord, .tickNext]

def createShow (atMs : Int) (fits : InI64 atMs) (nowMs : Int) : List (ScheduleEvent Unit) :=
  [.createRequest () (dailyShow atMs fits) nowMs, .createSave () "s"]

/-- A show that runs on two days and is moved in between. -/
theorem schedules_run_once_moved :
    ∃ r : ScheduleRun Unit, Reachable (ScheduleRun.step blankName) Undisturbed start r ∧
      r.log.filterMap execution = [("s", 100000), ("s", 86500001)] ∧
      (r.log.filterMap execution).Nodup := by
  refine exists_reachable_and (createShow 100000 (by decide) 0 ++ dueTick 100000 ++
    [.updateRequest () "s" (dailyShow 100001 (by decide)) 100001, .updateRead (), .updateSave ()] ++
    dueTick 86500001) ?_ fun _ hr _ => (schedules_run_once hr).1
  decide +kernel

/-- An update that read before a tick undoes its mark, and the occurrence is executed
again; a tick that listed before an update executes an occurrence that had passed at the
update; and a time at the end of the 64-bit range overflows. -/
theorem schedule_run_twice :
    (∃ r : ScheduleRun Unit, Reachable (ScheduleRun.step blankName) anyLabel start r ∧
      ¬(r.log.filterMap execution).Nodup) ∧
    (∃ r : ScheduleRun Unit, Reachable (ScheduleRun.step blankName) anyLabel start r ∧
      ∃ before after id atMs repeats u o nowMs, r.log = before ++ .saved id atMs repeats u :: after ∧
        IsOccurrence atMs repeats o ∧ o ≤ u ∧ .ran id o nowMs ∈ after) ∧
    ∃ (r : ScheduleRun Unit)
    (atMs : Int), Reachable (ScheduleRun.step blankName) anyLabel start r ∧
      r.Uses atMs ∧ ¬LatestFits atMs .daily 0 := by
  refine ⟨?_, ?_, ?_⟩
  · refine exists_reachable_of_run (createShow 100000 (by decide) 0 ++
      [.updateRequest () "s" (dailyShow 100000 (by decide)) 99999, .updateRead ()] ++
        dueTick 100000 ++
      [.updateSave ()] ++ dueTick 105000) ?_
    decide +kernel
  · refine exists_reachable_of_observed (createShow 100000 (by decide) 0 ++
      [.tickStart 100000, .tickList, .updateRequest () "s" (dailyShow 100000 (by decide)) 100000,
        .updateRead (), .updateSave (), .tickNext, .tickExecute])
      (fun r => r.log = [.saved "s" 100000 .daily 0, .saved "s" 100000 .daily 100000,
        .ran "s" 100000 100000]) ?_ fun r _ hlog => ?_
    · decide +kernel
    · exact ⟨[.saved "s" 100000 .daily 0], [.ran "s" 100000 100000], "s", 100000, .daily, 100000,
        100000, 100000, hlog, .inl rfl, Int.le_refl _, List.mem_singleton_self _⟩
  · obtain ⟨r, hr, hmem⟩ : ∃ r : ScheduleRun Unit,
        Reachable (ScheduleRun.step blankName) anyLabel start r ∧
        ∃ row ∈ r.rows, row.atMs = -9223372036854775808 := by
      refine exists_reachable_of_run (createShow (-9223372036854775808) (by decide) 0) ?_
      decide +kernel
    refine ⟨r, -9223372036854775808, hr, .inl hmem, fun hfits => ?_⟩
    have hrange : InI64 (0 - -9223372036854775808) := (hfits (by decide) dayMs rfl).1
    exact absurd hrange (by decide)

end Runs

end ScheduleRun

end Restream.Schedules
