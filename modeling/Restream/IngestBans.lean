import Restream.IngestSecurity
import Restream.Exec

/-! The bans of the rate limiter against the history of failures they should
follow from. -/

namespace Restream.IngestSecurity

open List Option IngestSecurityService FailureRecord AList Nat Bool Exec

def failuresIn (window : Nat) (history : List Nat) (f : Nat) : Nat :=
  (history.filter fun x => x ≤ f ∧ f < x + window).length

/-- The policy: some failure not older than the ban was the last of at least
`failureLimit` in its window. -/
def Banned (config : IngestSecurityConfig) (history : List Nat) (t : Nat) : Prop :=
  ∃ f ∈ history, f ≤ t ∧ t < f + config.banMs.toNat ∧
    config.failureLimit.toNat ≤ failuresIn config.failureWindowMs.toNat history f

instance (config : IngestSecurityConfig) (history : List Nat) (t : Nat) :
    Decidable (Banned config history t) :=
  inferInstanceAs (Decidable (∃ f ∈ history, _))

structure LimiterRun where
  service : IngestSecurityService
  now : Nat
  history : RateLimitScope → String → List Nat

inductive LimiterEvent where
  | elapse (millis : Nat)
  | failure (scope : RateLimitScope) (ip : String) (delay : Nat)
  | success (scope : RateLimitScope) (ip : String)
  | rehash (state : FailureTable)

def updateHistory (history : RateLimitScope → String → List Nat)
    (scope : RateLimitScope) (ip : String)
    (failures : List Nat) : RateLimitScope → String → List Nat :=
  fun scope' ip' => if scope' = scope ∧ ip' = ip then failures else history scope' ip'

def LimiterRun.start (config : IngestSecurityConfig) : LimiterRun :=
  { service := .new config, now := 0, history := fun _ _ => [] }

def LimiterRun.step (isLoopbackIp : String → Bool) (r : LimiterRun) : LimiterEvent → Option LimiterRun
  | .elapse millis => some { r with now := r.now + millis }
  | .failure scope ip delay =>
    some
      { service := (r.service.recordFailureFor isLoopbackIp scope ip r.now (r.now + delay)).1
        now := r.now + delay
        history := updateHistory r.history scope ip (r.history scope ip ++ [r.now]) }
  | .success scope ip =>
    some
      { r with
        service := r.service.recordSuccessFor isLoopbackIp scope ip
        history := updateHistory r.history scope ip [] }
  | .rehash state =>
    if state.entries.isPerm r.service.state.entries then
      some { r with service := { r.service with state := state } }
    else none

def FailureRecord.stale (window now : Nat) (r : FailureRecord) : Bool :=
  !r.bannedAt now && r.failures.all (· + window ≤ now)

/-- A failure finds room in the table or a record that says nothing any more. -/
def LimiterRun.RoomOrStale (r : LimiterRun) : LimiterEvent → Prop
  | .failure _ _ _ =>
    r.service.state.entries.length < r.service.config.trackedIpLimit.toNat ∨
      ∃ entry ∈ r.service.state.entries,
        entry.2.stale r.service.config.failureWindowMs.toNat r.now = true
  | _ => True

instance (r : LimiterRun) (e : LimiterEvent) : Decidable (r.RoomOrStale e) := by
  unfold LimiterRun.RoomOrStale
  split <;> infer_instance

theorem scopedKey_inj (h : scopedKey scope ip = scopedKey scope' ip') :
    scope = scope' ∧ ip = ip' := by
  have hl := congrArg String.toList h
  cases scope <;> cases scope' <;>
    simp [scopedKey, RateLimitScope.key] at hl ⊢ <;>
    exact String.toList_inj.mp hl

theorem FailureTable.lookup_retain (t : FailureTable) (keep : String → FailureRecord → Bool)
    (key : String) : (t.retain keep).lookup key = (t.lookup key).filter (keep key) := by
  refine ext fun record => ?_
  rw [← mem_def, mem_lookup_iff, filter_eq_some_iff, ← mem_def, mem_lookup_iff]
  simp [FailureTable.retain]

variable {r : FailureRecord} {now later window f : Nat} {t : FailureTable} {history : List Nat}

theorem FailureRecord.bannedAt_mono (hle : now ≤ later) (h : r.bannedAt now = false) :
    r.bannedAt later = false := by
  cases hb : r.bannedUntil with
  | none => simp [bannedAt, hb]
  | some til =>
    simp only [bannedAt, hb, any_some, decide_eq_false_iff_not] at h ⊢
    omega

theorem FailureRecord.stale_of_rank_le {s : FailureRecord}
    (hle : now ≤ later) (hs : s.stale window now = true)
    (hne : s.failures ≠ []) (hr : r.rank later ≤ s.rank later) :
    r.bannedAt later = false ∧ ∀ x ∈ r.failures, x + window ≤ now := by
  simp only [stale, and_eq_true, not_eq_true', List.all_eq_true, decide_eq_true_eq] at hs
  obtain ⟨hb, hold⟩ := hs
  have hl := bannedAt_mono hle hb
  obtain ⟨m, hm⟩ := Option.isSome_iff_exists.mp (List.isSome_max?_iff.mpr hne)
  have hmem := hold m (List.max?_mem hm)
  simp only [rank, hl, hm, Option.getD_some, Prod.Lex.toLex_le_toLex] at hr
  rcases hr with hlt | ⟨heq, hmax⟩
  · exact absurd hlt (by simp)
  · refine ⟨heq, fun x hx => ?_⟩
    exact Nat.le_trans (Nat.add_le_add_right (Nat.le_trans (le_max?_getD_of_mem hx) hmax) window) hmem

theorem FailureTable.retain_all (h : ∀ e ∈ t.entries, keep e.1 e.2 = true) : t.retain keep = t :=
  ext (filter_eq_self.mpr h)

theorem evict_stale (hle : now ≤ later) (hl : t.entries.length = limit + 1)
    (hf : ∀ en ∈ t.entries, en.2.failures ≠ []) (hen : en ∈ t.entries)
    (hst : en.2.stale window now = true) :
    ∃ gone ∈ t.entries, gone.2.bannedAt later = false ∧ (∀ x ∈ gone.2.failures, x + window ≤ now) ∧
      evictOldestIfNeeded t limit later = t.retain fun key _ => key ≠ gone.1 := by
  let le := fun a b : (_ : String) × FailureRecord => a.2.rank later ≤ b.2.rank later
  have hk : (t.retain fun _ r => r.bannedAt later || !r.failures.isEmpty) = t :=
    FailureTable.retain_all fun e he => by simp [hf e he]
  obtain ⟨gone, rest, hs⟩ : ∃ gone rest, t.entries.insertionSort le = gone :: rest :=
    exists_cons_of_length_eq_add_one ((length_insertionSort le _).trans hl)
  have hmem (e : (_ : String) × FailureRecord) : e ∈ gone :: rest ↔ e ∈ t.entries := by
    rw [← hs, mem_insertionSort]
  have hfi : ∀ e ∈ t.entries, gone.2.rank later ≤ e.2.rank later := by
    have hp := pairwise_insertionSort le t.entries
    rw [hs] at hp
    intro e he
    rcases mem_cons.mp ((hmem e).mpr he) with rfl | hr
    · exact le_refl _
    · exact (pairwise_cons.mp hp).1 e hr
  obtain ⟨hb, hold⟩ := stale_of_rank_le hle hst (hf en hen) (hfi en hen)
  refine ⟨gone, (hmem gone).mp mem_cons_self, hb, hold, ?_⟩
  have hone : limit + 1 - limit = 1 := by omega
  simp [evictOldestIfNeeded, hk, hl, hs, le, hone, contains_eq_mem]

/-- A record agrees with its history: it holds the failures that still count and
from `since` on it is banned when the policy says so. -/
structure Matches (config : IngestSecurityConfig) (now since : Nat) (history : List Nat)
    (r : FailureRecord) : Prop where
  past : ∀ x ∈ history, x ≤ now
  failures : r.failures.filter (now < · + config.failureWindowMs.toNat) =
    history.filter (now < · + config.failureWindowMs.toNat)
  banned : ∀ t, since ≤ t → (r.bannedAt t = true ↔ Banned config history t)

theorem filter_later (hle : now ≤ later) {l l' : List Nat}
    (h : l.filter (now < · + window) = l'.filter (now < · + window)) :
    l.filter (later < · + window) = l'.filter (later < · + window) := by
  have hsub (l : List Nat) : (l.filter (now < · + window)).filter (later < · + window) =
      l.filter (later < · + window) := by
    rw [List.filter_filter]
    refine List.filter_congr fun x _ => ?_
    have : later < x + window → now < x + window := fun hlt => lt_of_le_of_lt hle hlt
    simpa using this
  rw [← hsub l, ← hsub l', h]

theorem failuresIn_append_of_lt (history : List Nat) (hlt : g < f) :
    failuresIn window (history ++ [f]) g = failuresIn window history g := by
  simp [failuresIn, filter_append, Nat.not_le_of_lt hlt]

theorem banned_append_iff {config : IngestSecurityConfig} {t : Nat} (hp : ∀ x ∈ history, x ≤ now)
    (hl : ¬config.failureLimit.toNat ≤
      failuresIn config.failureWindowMs.toNat (history ++ [now]) now) :
    Banned config history t ↔ Banned config (history ++ [now]) t := by
  have hb {f : Nat} (hf : f ∈ history ++ [now]) (hc : config.failureLimit.toNat ≤
      failuresIn config.failureWindowMs.toNat (history ++ [now]) f) : f ∈ history ∧ f < now := by
    rcases mem_append.mp hf with hold | hnew
    · refine ⟨hold, lt_of_le_of_ne (hp f hold) ?_⟩
      rintro rfl
      exact hl hc
    · obtain rfl := mem_singleton.mp hnew
      exact absurd hc hl
  have hg (f : Nat) : failuresIn config.failureWindowMs.toNat history f ≤
      failuresIn config.failureWindowMs.toNat (history ++ [now]) f := by
    simp [failuresIn, filter_append]
  constructor
  · rintro ⟨f, hf, hle, hlt, hc⟩
    exact ⟨f, mem_append_left _ hf, hle, hlt, le_trans hc (hg f)⟩
  · rintro ⟨f, hf, hle, hlt, hc⟩
    obtain ⟨hold, he⟩ := hb hf hc
    rw [failuresIn_append_of_lt history he] at hc
    exact ⟨f, hold, hle, hlt, hc⟩

namespace Matches

variable {config : IngestSecurityConfig} {now since : Nat} {history : List Nat} {r : FailureRecord}

theorem empty : Matches config now since [] .empty where
  past := by simp
  failures := rfl
  banned := by simp [Banned, bannedAt, FailureRecord.empty]

section

variable (h : Matches config now since history r)

include h

theorem elapse (hnow : now ≤ now') (hs : since ≤ since') : Matches config now' since' history r where
  past x hx := le_trans (h.past x hx) hnow
  failures := filter_later hnow h.failures
  banned t ht := h.banned t (le_trans hs ht)

theorem forget (hs : since ≤ later) (hb : r.bannedAt later = false)
    (hold : ∀ x ∈ r.failures, x + config.failureWindowMs.toNat ≤ now) :
    Matches config now later history .empty where
  past := h.past
  failures := by
    have hn : r.failures.filter (now < · + config.failureWindowMs.toNat) = [] :=
      filter_eq_nil_iff.mpr fun x hx => by simpa using hold x hx
    rw [← h.failures, hn]
    rfl
  banned t ht := by
    have hnot := bannedAt_mono ht hb
    rw [← h.banned t (le_trans hs ht), hnot]
    simp [bannedAt, FailureRecord.empty]

theorem note_failures (hw : 0 < config.failureWindowMs.toNat) :
    (note config r now).failures =
      (history ++ [now]).filter (now < · + config.failureWindowMs.toNat) := by
  have hs : (r.failures ++ [now]).filter (now - · < config.failureWindowMs.toNat) =
      (r.failures ++ [now]).filter (now < · + config.failureWindowMs.toNat) :=
    filter_congr fun x _ => by simp only [decide_eq_decide]; omega
  simp only [note, hs, filter_append, h.failures]

theorem note (hle : now ≤ since)
    (hw : 0 < config.failureWindowMs.toNat) :
    Matches config now since (history ++ [now]) (note config r now) := by
  have hp : ∀ x ∈ history ++ [now], x ≤ now := forall_mem_append.mpr ⟨h.past, by simp⟩
  have hfa := h.note_failures hw
  refine ⟨hp, ?_, fun t ht => ?_⟩
  · rw [hfa]
    simp
  · have hc : (IngestSecurityService.note config r now).failures.length =
        failuresIn config.failureWindowMs.toNat (history ++ [now]) now := by
      rw [hfa]
      refine congrArg length (filter_congr fun x hx => ?_)
      simp [hp x hx]
    by_cases hl : config.failureLimit.toNat ≤ failuresIn config.failureWindowMs.toNat
      (history ++ [now]) now
    · have hban : (IngestSecurityService.note config r now).bannedUntil =
          some (now + config.banMs.toNat) := if_pos (hc ▸ hl)
      simp only [bannedAt, hban, any_some, decide_eq_true_eq]
      constructor
      · exact fun hlt => ⟨now, by simp, le_trans hle ht, hlt, hl⟩
      · rintro ⟨f, hf, -, hlt, -⟩
        have := hp f hf
        omega
    · have hban : (IngestSecurityService.note config r now).bannedUntil = r.bannedUntil :=
        if_neg (hc ▸ hl)
      simp only [bannedAt, hban]
      exact (h.banned t ht).trans (banned_append_iff h.past hl)

end

end Matches

structure Inv (isLoopbackIp : String → Bool) (config : IngestSecurityConfig)
    (history : RateLimitScope → String → List Nat) (now since : Nat) (state : FailureTable) :
    Prop where
  bound : state.entries.length ≤ config.trackedIpLimit.toNat
  full : ∀ entry ∈ state.entries, entry.2.failures ≠ []
  agrees : ∀ scope ip, isExempt isLoopbackIp scope ip = false →
    Matches config now since (history scope ip)
      ((state.lookup (scopedKey scope ip)).getD .empty)

namespace Inv

variable {isLoopbackIp : String → Bool} {config : IngestSecurityConfig}
  {history : RateLimitScope → String → List Nat} {now since : Nat} {st : FailureTable}

theorem start : Inv isLoopbackIp config (fun _ _ => []) now since ∅ where
  bound := zero_le _
  full := by simp
  agrees _ _ _ := .empty

section

variable (h : Inv isLoopbackIp config history now since st)

include h

theorem elapse (hnow : now ≤ now') (hs : since ≤ since') :
    Inv isLoopbackIp config history now' since' st where
  __ := h
  agrees scope ip hkey := (h.agrees scope ip hkey).elapse hnow hs

theorem rehash (hp : st'.entries.Perm st.entries) :
    Inv isLoopbackIp config history now since st' where
  bound := hp.length_eq ▸ h.bound
  full e he := h.full e (hp.mem_iff.mp he)
  agrees scope ip hkey := perm_lookup hp ▸ h.agrees scope ip hkey

theorem retain (hs : since ≤ later) (hg : gone ∈ st.entries) (hb : gone.2.bannedAt later = false)
    (hold : ∀ x ∈ gone.2.failures, x + config.failureWindowMs.toNat ≤ now) :
    Inv isLoopbackIp config history now later (st.retain fun key _ => key ≠ gone.1) where
  bound := le_trans (length_filter_le _ _) h.bound
  full e he := h.full e (mem_of_mem_filter he)
  agrees scope ip hkey := by
    have hm := h.agrees scope ip hkey
    rw [FailureTable.lookup_retain]
    by_cases hsa : scopedKey scope ip = gone.1
    · rw [hsa, mem_lookup_iff.mpr hg] at hm
      rw [hsa]
      simpa using hm.forget hs hb hold
    · cases hl : st.lookup (scopedKey scope ip) with
      | none =>
        rw [hl] at hm
        exact hm.elapse (le_refl _) hs
      | some record =>
        rw [hl] at hm
        have hk : (some record).filter (fun _ => decide (scopedKey scope ip ≠ gone.1)) =
            some record := filter_some_pos (decide_eq_true hsa)
        rw [hk]
        exact hm.elapse (le_refl _) hs

end

theorem evict (h : Inv isLoopbackIp config history now now st) (hli : 0 < config.trackedIpLimit.toNat)
    (hl : now ≤ later) (hr : st.entries.length < config.trackedIpLimit.toNat ∨
      ∃ e ∈ st.entries, e.2.stale config.failureWindowMs.toNat now = true) :
    Inv isLoopbackIp config history now later
        (evictOldestIfNeeded st (config.trackedIpLimit.toNat - 1) later) ∧
      (evictOldestIfNeeded st (config.trackedIpLimit.toNat - 1) later).entries.length <
        config.trackedIpLimit.toNat := by
  by_cases hlt : st.entries.length < config.trackedIpLimit.toNat
  · have hsa : evictOldestIfNeeded st (config.trackedIpLimit.toNat - 1) later = st :=
      if_pos (le_sub_one_of_lt hlt)
    rw [hsa]
    exact ⟨h.elapse (le_refl _) hl, hlt⟩
  · have hbo := h.bound
    have hle : st.entries.length = config.trackedIpLimit.toNat - 1 + 1 := by omega
    obtain ⟨e, he, hs⟩ := hr.resolve_left hlt
    obtain ⟨gone, hg, hb, hold, hev⟩ := evict_stale hl hle h.full he hs
    rw [hev]
    refine ⟨h.retain hl hg hb hold, ?_⟩
    refine lt_of_lt_of_le (length_filter_lt_length_iff_exists.mpr ⟨gone, hg, ?_⟩) hbo
    simp

section

variable (h : Inv isLoopbackIp config history now since st)

include h

theorem note
    (hw : 0 < config.failureWindowMs.toNat) (hle : now ≤ since)
    (hl : st.entries.length < config.trackedIpLimit.toNat) (scope : RateLimitScope) (ip : String) :
    Inv isLoopbackIp config (updateHistory history scope ip (history scope ip ++ [now])) now since
      (st.insert (IngestSecurityService.scopedKey scope ip) (IngestSecurityService.note config
        ((st.lookup (IngestSecurityService.scopedKey scope ip)).getD .empty) now)) where
  bound := by
    exact lt_of_le_of_lt (kerase_sublist _ _).length_le hl
  full e he := by
    rcases mem_cons.mp he with rfl | hold
    · refine ne_nil_of_mem (a := now) ?_
      simp only [IngestSecurityService.note, mem_filter, mem_append, mem_singleton]
      simpa using hw
    · exact h.full e ((kerase_sublist _ _).subset hold)
  agrees scope' ip' hkey := by
    by_cases hk : scope' = scope ∧ ip' = ip
    · obtain ⟨rfl, rfl⟩ := hk
      have hn := (h.agrees scope' ip' hkey).note hle hw
      simpa [updateHistory] using hn
    · have ho : IngestSecurityService.scopedKey scope' ip' ≠
          IngestSecurityService.scopedKey scope ip :=
        fun heq => hk (scopedKey_inj heq)
      rw [lookup_insert_ne ho, updateHistory, if_neg hk]
      exact h.agrees scope' ip' hkey

theorem erase (scope : RateLimitScope) (ip : String) :
    Inv isLoopbackIp config (updateHistory history scope ip []) now since
      (st.erase (scopedKey scope ip)) where
  bound := le_trans (kerase_sublist _ _).length_le h.bound
  full e he := h.full e ((kerase_sublist _ _).subset he)
  agrees scope' ip' hkey := by
    by_cases hk : scope' = scope ∧ ip' = ip
    · obtain ⟨rfl, rfl⟩ := hk
      simpa [updateHistory] using Matches.empty
    · have ho : scopedKey scope' ip' ≠ scopedKey scope ip :=
        fun heq => hk (scopedKey_inj heq)
      rw [lookup_erase_ne ho, updateHistory, if_neg hk]
      exact h.agrees scope' ip' hkey

theorem exempt (he : isExempt isLoopbackIp scope ip = true) (failures : List Nat) :
    Inv isLoopbackIp config (updateHistory history scope ip failures) now since st where
  __ := h
  agrees scope' ip' hkey := by
    have hk : ¬(scope' = scope ∧ ip' = ip) := by
      rintro ⟨rfl, rfl⟩
      simp [he] at hkey
    rw [updateHistory, if_neg hk]
    exact h.agrees scope' ip' hkey

end

end Inv

namespace LimiterRun

variable {isLoopbackIp : String → Bool} {config : IngestSecurityConfig} {r r' : LimiterRun}

theorem normalize_pos (config : IngestSecurityConfig) :
    0 < config.normalize.trackedIpLimit.toNat ∧ 0 < config.normalize.failureWindowMs.toNat := by
  simp only [IngestSecurityConfig.normalize]
  omega

def Agrees (isLoopbackIp : String → Bool) (config : IngestSecurityConfig) (r : LimiterRun) : Prop :=
  r.service.config = config.normalize ∧
    Inv isLoopbackIp config.normalize r.history r.now r.now r.service.state

section
variable (h : Agrees isLoopbackIp config r)
include h

theorem Agrees.failure (hr : r.RoomOrStale (.failure scope ip delay))
    (hs : r.step isLoopbackIp (.failure scope ip delay) = some r') :
    Agrees isLoopbackIp config r' := by
  cases hs
  obtain ⟨hc, hinv⟩ := h
  obtain ⟨hli, hw⟩ := normalize_pos config
  have hl : r.now ≤ r.now + delay := le_add_right _ _
  cases he : isExempt isLoopbackIp scope ip with
  | true =>
    simp only [recordFailureFor, he, if_true]
    exact ⟨hc, (hinv.exempt he _).elapse hl hl⟩
  | false =>
    rw [RoomOrStale, hc] at hr
    obtain ⟨hev, hle⟩ := hinv.evict hli hl hr
    have hmax : (max config.normalize.trackedIpLimit 1).toNat =
        config.normalize.trackedIpLimit.toNat := by
      omega
    simp only [recordFailureFor, he, false_eq_true, if_false, hc, hmax]
    exact ⟨rfl, (hev.note hw hl hle scope ip).elapse hl (le_refl _)⟩

theorem Agrees.success (hs : r.step isLoopbackIp (.success scope ip) = some r') :
    Agrees isLoopbackIp config r' := by
  cases hs
  obtain ⟨hc, hinv⟩ := h
  cases he : isExempt isLoopbackIp scope ip with
  | true =>
    simp only [recordSuccessFor, he, if_true]
    exact ⟨hc, hinv.exempt he _⟩
  | false =>
    simp only [recordSuccessFor, he, false_eq_true, if_false]
    exact ⟨hc, hinv.erase scope ip⟩

theorem Agrees.step (hr : r.RoomOrStale e) (hs : r.step isLoopbackIp e = some r') :
    Agrees isLoopbackIp config r' := by
  cases e with
  | elapse millis =>
    cases hs
    exact ⟨h.1, h.2.elapse (le_add_right _ _) (le_add_right _ _)⟩
  | failure scope ip delay => exact h.failure hr hs
  | success scope ip => exact h.success hs
  | rehash st =>
    simp only [LimiterRun.step, ite_none_right_eq_some, Option.some.injEq] at hs
    obtain ⟨hp, rfl⟩ := hs
    exact ⟨h.1, h.2.rehash (isPerm_iff.mp hp)⟩

end

/-- In every run in which each failure finds room in the table, or a record that
says nothing any more, an address is banned exactly when the policy says so. -/
theorem banned_iff_policy (config : IngestSecurityConfig)
    (isLoopbackIp : String → Bool) (r : LimiterRun)
    (h : Reachable (step isLoopbackIp) RoomOrStale (start config) r) (scope : RateLimitScope)
    (ip : String) (hkey : isExempt isLoopbackIp scope ip = false) :
    (r.service.isIpBannedFor isLoopbackIp scope ip r.now).isSome ↔
      Banned config.normalize (r.history scope ip) r.now := by
  obtain ⟨-, hinv⟩ :=
    h.invariant (Agrees isLoopbackIp config) (fun _ _ _ hs hroom hstep => hs.step hroom hstep)
    ⟨rfl, .start⟩
  rw [← (hinv.agrees scope ip hkey).banned r.now (le_refl _)]
  simp only [isIpBannedFor, hkey, false_eq_true, if_false]
  cases r.service.state.lookup (scopedKey scope ip) with
  | none => simp [bannedAt, empty]
  | some record =>
    cases hb : record.bannedUntil with
    | none => simp [bannedAt, hb]
    | some til =>
      simp only [hb, Option.getD_some, bannedAt, Option.any_some, decide_eq_true_eq]
      split <;> simp_all

def twoFailures (trackedIpLimit : Int) : IngestSecurityConfig :=
  { failureLimit := 2, failureWindowMs := 60000, banMs := 600000, trackedIpLimit := trackedIpLimit }

def failTwice (ip : String) : List LimiterEvent :=
  [.failure .rtmpPublish ip 0, .elapse 1000, .failure .rtmpPublish ip 0, .elapse 1000]

/-- Two addresses in a table of two: the second failure of the second finds no
room, but the record of the first has been stale for long. -/
theorem banned_iff_policy_second_address :
    ∃ r, Reachable (step fun _ => false) RoomOrStale (start (twoFailures 2)) r ∧
      r.history .rtmpPublish "b" = [3700000, 3701000] ∧
      (r.service.isIpBannedFor (fun _ => false) .rtmpPublish "b" r.now).isSome := by
  refine exists_reachable_of_observed
    ([.failure .rtmpPublish "a" 0, .elapse 3700000] ++ failTwice "b")
    (fun r => r.history .rtmpPublish "b" = [3700000, 3701000] ∧ r.now = 3702000) (by decide +kernel)
    fun r hreach ⟨hhistory, hnow⟩ => ⟨hhistory, ?_⟩
  refine (banned_iff_policy _ _ r hreach .rtmpPublish "b" (by decide)).mpr ?_
  rw [hhistory, hnow]
  decide

/-- One address in a table of one: its second failure evicts its own record, so
it is not banned although the policy bans it. -/
theorem failure_evicts_own_record :
    ∃ r, Reachable (step fun _ => false) anyLabel (start (twoFailures 1)) r ∧
      r.history .rtmpPublish "a" = [0, 1000] ∧
      r.service.isIpBannedFor (fun _ => false) .rtmpPublish "a" r.now = none ∧
      Banned (twoFailures 1).normalize (r.history .rtmpPublish "a") r.now :=
  exists_reachable_of_run (failTwice "a") (by decide +kernel)

end LimiterRun

end Restream.IngestSecurity
