import Restream.ScheduleRun

/-! The marks of the schedules: no mark falls behind an occurrence that was executed or
that had passed when settings were saved, as long as no save loses a mark. -/

namespace Restream.Schedules

open List Option Int

def ScheduleLog.bar : ScheduleLog → Option Int
  | saved _ atMs repeats nowMs => latestOccurrence atMs repeats nowMs
  | ran _ occurrenceMs _ => some occurrenceMs

def Dominates (log : List ScheduleLog) (id : String) (mark : Option Int) : Prop :=
  ∀ e ∈ log, e.id = id → ∀ b ∈ e.bar, ∃ m ∈ mark, b ≤ m

def Beyond (log : List ScheduleLog) (id : String) (o : Int) : Prop :=
  ∀ e ∈ log, e.id = id → ∀ b ∈ e.bar, b < o

section Bars

variable {log : List ScheduleLog} {e : ScheduleLog} {id : String} {o : Int}

theorem Dominates.beyond (h : Dominates log id mark) (hma : ∀ m ∈ mark, m < o) : Beyond log id o := by
  intro e he hid b hb
  obtain ⟨m, hm, hbm⟩ := h e he hid b hb
  exact lt_of_le_of_lt hbm (hma m hm)

theorem Beyond.dominates (h : Beyond log id o) : Dominates log id (some o) :=
  fun e he hid b hb => ⟨o, rfl, le_of_lt (h e he hid b hb)⟩

theorem Dominates.append (h : Dominates log id mark)
    (he : e.id = id → ∀ b ∈ e.bar, ∃ m ∈ mark, b ≤ m) : Dominates (log ++ [e]) id mark :=
  forall_mem_append.mpr ⟨h, forall_mem_singleton.mpr he⟩

theorem Dominates.append_ne (h : Dominates log id mark) (he : e.id ≠ id) :
    Dominates (log ++ [e]) id mark :=
  h.append fun hid => (he hid).elim

end Bars

/-- The listed schedules of a tick: each id once, with a mark as good as that of its row. -/
structure Listed (log : List ScheduleLog) (usedIds : List String) (rest : List Schedule) : Prop where
  nodup : (rest.map Schedule.id).Nodup
  used : ∀ s ∈ rest, s.id ∈ usedIds
  early : ∀ s ∈ rest, earliestMs ≤ s.atMs
  marks : ∀ s ∈ rest, Dominates log s.id s.lastRunMs

def InGrace (o nowMs : Int) : Prop := o ≤ nowMs ∧ nowMs ≤ o + runGraceMs

structure Taken (usedIds : List String) (rest : List Schedule) (s : Schedule) : Prop where
  fresh : s.id ∉ rest.map Schedule.id
  used : s.id ∈ usedIds
  early : earliestMs ≤ s.atMs

def Tick.Inv (rows : List Schedule) (log : List ScheduleLog) (usedIds : List String) : Tick → Prop
  | { nowMs, phase := .clock } => Reading nowMs
  | { nowMs, phase := .walk rest } => Reading nowMs ∧ Listed log usedIds rest
  | { nowMs, phase := .recorded s o rest } =>
    Reading nowMs ∧ Listed log usedIds rest ∧ Taken usedIds rest s ∧
      InGrace o nowMs ∧ Beyond log s.id o ∧
      ∀ row ∈ rows, row.id = s.id → row.lastRunMs = some o
  | { nowMs, phase := .executed s o rest } =>
    Reading nowMs ∧ Listed log usedIds rest ∧ Taken usedIds rest s ∧
      InGrace o nowMs ∧ Dominates log s.id (some o)

section Frames

variable {rows rows' : List Schedule} {log : List ScheduleLog} {e : ScheduleLog}
  {usedIds : List String} {s row : Schedule} {t : Tick}

theorem Listed.append (h : Listed log usedIds rest) (he : e.id ∉ rest.map Schedule.id) (id : String) :
    Listed (log ++ [e]) (id :: usedIds) rest where
  __ := h
  used s hs := mem_cons_of_mem _ (h.used s hs)
  marks s hs := (h.marks s hs).append_ne fun hid => he (hid ▸ mem_map_of_mem hs)

theorem Listed.tail (h : Listed log usedIds (s :: rest)) : Listed log usedIds rest where
  nodup := (nodup_cons.mp h.nodup).2
  used t ht := h.used t (mem_cons_of_mem _ ht)
  early t ht := h.early t (mem_cons_of_mem _ ht)
  marks t ht := h.marks t (mem_cons_of_mem _ ht)

theorem Listed.taken (h : Listed log usedIds (s :: rest)) : Taken usedIds rest s where
  fresh := (nodup_cons.mp h.nodup).1
  used := h.used s mem_cons_self
  early := h.early s mem_cons_self

theorem Taken.save (h : Taken usedIds rest s) (id : String) : Taken (id :: usedIds) rest s :=
  { h with used := mem_cons_of_mem _ h.used }

theorem Tick.Inv.save {atMs nowMs : Int} {reps : Repeat} (h : t.Inv rows log usedIds)
    (ho : row.id ∉ t.open.map Schedule.id) :
    t.Inv (save rows row) (log ++ [.saved row.id atMs reps nowMs]) (row.id :: usedIds) := by
  obtain ⟨now, phase⟩ := t
  cases phase with
  | clock => exact h
  | walk rest => exact ⟨h.1, h.2.append (e := .saved _ _ _ _) ho _⟩
  | recorded s o rest =>
    obtain ⟨hnow, hl, ht, hg, hb, hro⟩ := h
    obtain ⟨hne, hr⟩ := not_or.mp (mem_cons.not.mp ho)
    refine ⟨hnow, hl.append (e := .saved _ _ _ _) hr _, ht.save _, hg, ?_, ?_⟩
    · exact forall_mem_append.mpr ⟨hb, forall_mem_singleton.mpr fun hid => (hne hid).elim⟩
    · intro other hot hid
      rcases mem_save hot with rfl | ⟨hmem, -⟩
      · exact (hne hid).elim
      · exact hro other hmem hid
  | executed s o rest =>
    obtain ⟨hnow, hl, ht, hg, hd⟩ := h
    obtain ⟨hne, hr⟩ := not_or.mp (mem_cons.not.mp ho)
    exact ⟨hnow, hl.append (e := .saved _ _ _ _) hr _, ht.save _, hg, hd.append_ne hne⟩

theorem Tick.Inv.mono (h : t.Inv rows log usedIds) (hsub : ∀ row ∈ rows', row ∈ rows) :
    t.Inv rows' log usedIds := by
  obtain ⟨now, phase⟩ := t
  cases phase with
  | recorded s o rest =>
    obtain ⟨hnow, hl, ht, hg, hb, hr⟩ := h
    exact ⟨hnow, hl, ht, hg, hb, fun row hrow => hr row (hsub row hrow)⟩
  | clock | walk | executed => exact h

end Frames

def ScheduleRequest.draft : ScheduleRequest → ScheduleDraft
  | create draft _ | update _ draft _ _ => draft

def ScheduleRequest.nowMs : ScheduleRequest → Int
  | create _ nowMs | update _ _ nowMs _ => nowMs

def After (e f : ScheduleLog) : Prop :=
  match f with
  | .saved _ _ _ _ => True
  | .ran id o _ => e.id = id → ∀ b ∈ e.bar, b < o

section Marks

theorem le_laterMark_left (h : m ∈ a) : ∃ m' ∈ laterMark a b, m ≤ m' := by
  obtain rfl := h
  cases b with
  | none => exact ⟨m, rfl, le_refl m⟩
  | some n => exact ⟨max m n, rfl, le_max_left m n⟩

theorem le_laterMark_right (h : m ∈ b) : ∃ m' ∈ laterMark a b, m ≤ m' := by
  obtain rfl := h
  cases a with
  | none => exact ⟨m, rfl, le_refl m⟩
  | some n => exact ⟨max n m, rfl, le_max_right n m⟩

end Marks

namespace ScheduleRun

variable {Client : Type}

/-- The condition on the steps: times are not absurdly early, and an update saves only
while the mark in the row is the one it read and no tick holds the schedule. -/
def Undisturbed (r : ScheduleRun Client) : ScheduleEvent Client → Prop
  | .createRequest _ draft _ | .updateRequest _ _ draft _ => earliestMs ≤ draft.atMs
  | .updateSave client =>
    match r.pending client with
    | some (.update id _ _ (some current)) =>
      (∃ row ∈ r.rows, row.id = id ∧ row.lastRunMs = current.lastRunMs) ∧
        ∀ t ∈ r.tick, id ∉ t.open.map Schedule.id
    | _ => True
  | _ => True

instance (r : ScheduleRun Client) (e : ScheduleEvent Client) : Decidable (r.Undisturbed e) := by
  unfold Undisturbed
  split
  · infer_instance
  · infer_instance
  · split <;> infer_instance
  · infer_instance

structure Inv (r : ScheduleRun Client) : Prop where
  nodup : (r.rows.map Schedule.id).Nodup
  used : ∀ row ∈ r.rows, row.id ∈ r.usedIds
  logged : ∀ e ∈ r.log, e.id ∈ r.usedIds
  early : ∀ row ∈ r.rows, earliestMs ≤ row.atMs
  marks : ∀ row ∈ r.rows, Dominates r.log row.id row.lastRunMs
  pending : ∀ client request, r.pending client = some request →
    earliestMs ≤ request.draft.atMs ∧ Reading request.nowMs
  tick : ∀ t ∈ r.tick, t.Inv r.rows r.log r.usedIds
  order : r.log.Pairwise After
  times : ∀ id o nowMs, .ran id o nowMs ∈ r.log → InGrace o nowMs
  saves : ∀ id atMs repeats nowMs, .saved id atMs repeats nowMs ∈ r.log →
    earliestMs ≤ atMs ∧ Reading nowMs

section Steps

variable {r r' : ScheduleRun Client} {id : String}

theorem inv_start : (start : ScheduleRun Client).Inv where
  nodup := nodup_nil
  used := forall_mem_nil _
  logged := forall_mem_nil _
  early := forall_mem_nil _
  marks := forall_mem_nil _
  pending _ _ h := nomatch h
  tick _ h := nomatch h
  order := .nil
  times _ _ _ h := nomatch h
  saves _ _ _ _ h := nomatch h

section

variable (h : r.Inv)

include h

theorem Inv.open_known (ht : t ∈ r.tick) : ∀ s ∈ t.open, s.id ∈ r.usedIds ∧ earliestMs ≤ s.atMs
    := by
  have hti := h.tick t ht
  obtain ⟨now, phase⟩ := t
  cases phase with
  | clock => exact forall_mem_nil _
  | walk rest => exact fun s hs => ⟨hti.2.used s hs, hti.2.early s hs⟩
  | recorded | executed =>
    obtain ⟨-, hl, hta, -⟩ := hti
    exact forall_mem_cons.mpr ⟨⟨hta.used, hta.early⟩, fun s hs => ⟨hl.used s hs, hl.early s hs⟩⟩

theorem Inv.readClock (hrea : r.readClock nowMs = some r') : r'.Inv ∧ Reading nowMs := by
  obtain ⟨⟨-, hre⟩, hr⟩ := ite_none_right_eq_some.mp hrea
  cases hr
  exact ⟨{ h with }, hre⟩

theorem Inv.setTick (ht : t.Inv r.rows r.log r.usedIds) :
    ({ r with tick := some t } : ScheduleRun Client).Inv :=
  { h with tick := fun _ ht' => Option.some.inj ht' ▸ ht }

theorem Inv.saveRow (hea : earliestMs ≤ row.atMs) (hr : Reading nowMs)
    (hm : Dominates r.log row.id row.lastRunMs)
    (hl : ∀ b ∈ latestOccurrence row.atMs row.repeats nowMs, ∃ m ∈ row.lastRunMs, b ≤ m)
    (hop : ∀ t ∈ r.tick, row.id ∉ t.open.map Schedule.id) : (r.saveRow row nowMs).Inv where
  nodup := nodup_save h.nodup
  used other ho := by
    rcases mem_save ho with rfl | ⟨hmem, -⟩
    · exact mem_cons_self
    · exact mem_cons_of_mem _ (h.used other hmem)
  logged := forall_mem_append.mpr
    ⟨fun e he => mem_cons_of_mem _ (h.logged e he), forall_mem_singleton.mpr mem_cons_self⟩
  early other ho := by
    rcases mem_save ho with rfl | ⟨hmem, -⟩
    · exact hea
    · exact h.early other hmem
  marks other ho := by
    rcases mem_save ho with rfl | ⟨hmem, hne⟩
    · exact hm.append fun _ => hl
    · exact (h.marks other hmem).append_ne (Ne.symm hne)
  pending := h.pending
  tick t ht := (h.tick t ht).save (hop t ht)
  order := pairwise_append.mpr
    ⟨h.order, pairwise_singleton _ _, fun _ _ => forall_mem_singleton.mpr trivial⟩
  times id o now hmem := by
    rcases mem_append.mp hmem with hold | hnew
    · exact h.times id o now hold
    · exact nomatch mem_singleton.mp hnew
  saves id atMs reps now hmem := by
    rcases mem_append.mp hmem with hold | hnew
    · exact h.saves id atMs reps now hold
    · obtain ⟨-, rfl, -, rfl⟩ := ScheduleLog.saved.inj (mem_singleton.mp hnew)
      exact ⟨hea, hr⟩

theorem Inv.recordRun (hm : Dominates r.log id (some o))
    (ht : t.Inv (recordRun r.rows id o) r.log r.usedIds) :
    ({ r with rows := recordRun r.rows id o, tick := some t } : ScheduleRun Client).Inv :=
  { h with
    nodup := (map_id_recordRun _ _ _).symm ▸ h.nodup
    used := fun row hrow => by
      obtain ⟨pre, hmem, rfl⟩ := mem_recordRun.mp hrow
      rw [apply_ite Schedule.id, ite_self]
      exact h.used pre hmem
    early := fun row hrow => by
      obtain ⟨pre, hmem, rfl⟩ := mem_recordRun.mp hrow
      rw [apply_ite Schedule.atMs, ite_self]
      exact h.early pre hmem
    marks := fun row hrow => by
      obtain ⟨pre, hmem, rfl⟩ := mem_recordRun.mp hrow
      by_cases hid : pre.id = id
      · rw [if_pos hid]
        exact hid.symm ▸ hm
      · rw [if_neg hid]
        exact h.marks pre hmem
    tick := fun _ ht' => Option.some.inj ht' ▸ ht }

theorem Inv.delete (id : String) :
    ({ r with rows := r.rows.filter (·.id ≠ id) } : ScheduleRun Client).Inv :=
  have hsub : ∀ row ∈ r.rows.filter (·.id ≠ id), row ∈ r.rows := fun _ hrow => mem_of_mem_filter hrow
  { h with
    nodup := h.nodup.sublist (filter_sublist.map _)
    used := fun row hrow => h.used row (hsub row hrow)
    early := fun row hrow => h.early row (hsub row hrow)
    marks := fun row hrow => h.marks row (hsub row hrow)
    tick := fun t ht => (h.tick t ht).mono hsub }

theorem Inv.listed : Listed r.log r.usedIds (list r.rows) where
  nodup := ((perm_insertionSort _ _).map _).nodup_iff.mpr h.nodup
  used s hs := h.used s (mem_list.mp hs)
  early s hs := h.early s (mem_list.mp hs)
  marks s hs := h.marks s (mem_list.mp hs)

theorem Inv.next (hnow : Reading nowMs) (hl : Listed r.log r.usedIds (s :: rest)) :
    (r.next nowMs s rest).Inv := by
  have hat : earliestMs ≤ s.atMs := hl.early s mem_cons_self
  unfold ScheduleRun.next
  rcases due_cases hat hnow s.repeats s.enabled s.lastRunMs with hn | ⟨o, hla, hm, hdue⟩
  · rw [hn]
    exact h.setTick ⟨hnow, hl.tail⟩
  · have hb : Beyond r.log s.id o := (hl.marks s mem_cons_self).beyond hm
    rw [hdue]
    by_cases hg : nowMs ≤ o + runGraceMs
    · rw [if_pos hg]
      refine h.recordRun hb.dominates ⟨hnow, hl.tail, hl.taken, ⟨?_, hg⟩, hb, ?_⟩
      · exact (latest_spec hat hnow hla).2.1
      · intro row hrow hid
        obtain ⟨pre, -, rfl⟩ := mem_recordRun.mp hrow
        rw [apply_ite Schedule.id, ite_self] at hid
        rw [if_pos hid]
    · rw [if_neg hg]
      exact h.recordRun hb.dominates ⟨hnow, hl.tail⟩

theorem Inv.execute (ht : r.tick = some { nowMs, phase := .recorded s o rest }) :
    ({ r with tick := some { nowMs, phase := .executed s o rest }
              log := r.log ++ [.ran s.id o nowMs] } : ScheduleRun Client).Inv := by
  obtain ⟨hnow, hl, hta, hg, hbe, hr⟩ := h.tick _ ht
  exact { h with
      logged := forall_mem_append.mpr ⟨h.logged, forall_mem_singleton.mpr hta.used⟩
      marks := fun row hrow => (h.marks row hrow).append fun hid b hb =>
        ⟨o, hr row hrow hid.symm, Int.le_of_eq (Option.some.inj hb).symm⟩
      tick := fun _ ht' => by
        cases ht'
        refine ⟨hnow, ?_, hta, hg, ?_⟩
        · exact { hl with marks := (hl.append (e := .ran _ _ _) hta.fresh s.id).marks }
        · exact hbe.dominates.append fun _ b hb => ⟨o, rfl, Int.le_of_eq (Option.some.inj hb).symm⟩
      order := pairwise_append.mpr
        ⟨h.order, pairwise_singleton _ _, fun e he => forall_mem_singleton.mpr (hbe e he)⟩
      times := fun id o' now hmem => by
        rcases mem_append.mp hmem with hold | hnew
        · exact h.times id o' now hold
        · obtain ⟨rfl, rfl, rfl⟩ := ScheduleLog.ran.inj (mem_singleton.mp hnew)
          exact hg
      saves := fun id atMs reps now hmem => by
        rcases mem_append.mp hmem with hold | hnew
        · exact h.saves id atMs reps now hold
        · exact nomatch mem_singleton.mp hnew }

end

variable [DecidableEq Client]

theorem Inv.await (h : r.Inv) (hr : ∀ q ∈ req, earliestMs ≤ q.draft.atMs ∧ Reading q.nowMs) :
    (r.await cl req).Inv :=
  { h with
    pending := fun other q hq => by
      replace hq : Function.update r.pending cl req other = some q := hq
      rw [Function.update_apply] at hq
      split at hq
      · exact hr q hq
      · exact h.pending other q hq }

theorem Inv.createSave (h : r.Inv) (hre : r.pending cl = some (.create draft nowMs))
    (hid : id ∉ r.usedIds) : ((r.await cl none).saveRow
      (recordOf id draft (latestOccurrence draft.atMs draft.repeats nowMs)) nowMs).Inv := by
  have hw : (r.await cl none).Inv := h.await fun _ hq => by cases hq
  obtain ⟨hea, hr⟩ := h.pending cl _ hre
  refine hw.saveRow hea hr ?_ (fun b hb => ⟨b, hb, le_refl b⟩) ?_
  · intro e he (heid : e.id = id)
    exact (hid (heid ▸ h.logged e he)).elim
  · intro t ht hmem
    obtain ⟨s, hs, (hsid : s.id = id)⟩ := mem_map.mp hmem
    exact hid (hsid ▸ (h.open_known ht s hs).1)

theorem Inv.updateSave (h : r.Inv) (hre : r.pending cl = some (.update id draft nowMs (some cur)))
    (hc : ∃ row ∈ r.rows, row.id = id ∧ row.lastRunMs = cur.lastRunMs)
    (ho : ∀ t ∈ r.tick, id ∉ t.open.map Schedule.id) : ((r.await cl none).saveRow (recordOf id draft
      (laterMark (latestOccurrence draft.atMs draft.repeats nowMs) cur.lastRunMs)) nowMs).Inv := by
  have hw : (r.await cl none).Inv := h.await fun _ hq => by cases hq
  obtain ⟨row, hrow, rfl, hma⟩ := hc
  obtain ⟨hea, hr⟩ := h.pending cl _ hre
  refine hw.saveRow hea hr ?_ (fun b hb => le_laterMark_left hb) ho
  intro e he heid b hb
  obtain ⟨m, hm, hbm⟩ := h.marks row hrow e he heid b hb
  obtain ⟨m', hm', hmm'⟩ := le_laterMark_right (hma ▸ hm)
  exact ⟨m', hm', le_trans hbm hmm'⟩

theorem Inv.step (h : r.Inv) (hg : r.Undisturbed e) (hs : r.step blank e = some r') : r'.Inv := by
  cases e <;> simp only [ScheduleRun.step] at hs
  case createRequest | updateRequest =>
    split at hs
    · cases hs
    · obtain ⟨r₁, hread, rfl⟩ := map_eq_some_iff.mp hs
      obtain ⟨h₁, hrea⟩ := h.readClock hread
      exact h₁.await fun q hq => Option.some.inj hq ▸ ⟨hg, hrea⟩
  case createSave cl id =>
    split at hs
    · next draft nowMs hre =>
      obtain ⟨hid, hr⟩ := ite_none_left_eq_some.mp hs
      exact Option.some.inj hr ▸ h.createSave hre hid
    · cases hs
  case updateRead cl =>
    split at hs
    · next id draft nowMs hre =>
      have hp := h.pending cl _ hre
      split at hs
      · exact Option.some.inj hs ▸ h.await fun _ hq => by cases hq
      · exact Option.some.inj hs ▸ h.await fun q hq => Option.some.inj hq ▸ hp
    · cases hs
  case updateSave cl =>
    simp only [Undisturbed] at hg
    split at hs
    · next id draft nowMs cur hre =>
      simp only [hre] at hg
      exact Option.some.inj hs ▸ h.updateSave hre hg.1 hg.2
    · cases hs
  case delete id => exact Option.some.inj hs ▸ h.delete id
  case tickStart nowMs =>
    obtain ⟨-, hr⟩ := ite_none_right_eq_some.mp hs
    obtain ⟨r₁, hread, rfl⟩ := map_eq_some_iff.mp hr
    obtain ⟨h₁, hrea⟩ := h.readClock hread
    exact h₁.setTick hrea
  case tickList =>
    split at hs
    · next nowMs ht => exact Option.some.inj hs ▸ h.setTick ⟨h.tick _ ht, h.listed⟩
    · cases hs
  case tickNext =>
    split at hs
    · exact Option.some.inj hs ▸ { h with tick := fun _ ht => by cases ht }
    · next nowMs s rest ht =>
      obtain ⟨hnow, hl⟩ := h.tick _ ht
      exact Option.some.inj hs ▸ h.next hnow hl
    · cases hs
  case tickExecute =>
    split at hs
    · next nowMs s o rest ht => exact Option.some.inj hs ▸ h.execute ht
    · cases hs
  case tickRecord =>
    split at hs
    · next nowMs s o rest ht =>
      obtain ⟨hnow, hl, -, -, hm⟩ := h.tick _ ht
      exact Option.some.inj hs ▸ h.recordRun hm ⟨hnow, hl⟩
    · cases hs

theorem Inv.reachable (h : Exec.Reachable (ScheduleRun.step blank) Undisturbed start r) : r.Inv :=
  h.invariant Inv (fun _ _ _ hinv hg hs => hinv.step hg hs) inv_start

end Steps

end ScheduleRun

end Restream.Schedules
