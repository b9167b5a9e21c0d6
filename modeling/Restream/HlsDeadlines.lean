import Restream.HlsReleases

/-! When a session may next make progress without a new object: the deadline computed
for a driver against what a poll does at that time and before it. -/

namespace Restream.Hls

open List Option Pool Track OrderedMap Session Nat

namespace Track

def waits (track : Track) (head : Listed) : Bool :=
  (head.payload.isNone && track.laterBytesReady) ||
    (head.payload.isSome && !track.initReady head.mapUri)

def nextDeadline (track : Track) : Option Nat := do
  let (_, head) ← track.listed.first?
  if track.waits head then track.target.map fun target => head.listedAt + target else none

def expired (track : Track) (head : Listed) (now : Nat) : Bool :=
  track.target.any fun target => decide (target ≤ now - head.listedAt)

variable {hash : List UInt8 → UInt64} {k now seq later : Nat} {tr t' : Track} {pool pool' : Pool}
  {head : Listed}

theorem pollHead_eq_none : tr.pollHead hash k now pool seq head = none ↔
      ¬(head.payload.isSome = true ∧ tr.initReady head.mapUri = true) ∧
        ¬(tr.waits head = true ∧ tr.expired head now = true) := by
  unfold pollHead gapExpired waits expired
  cases hp : head.payload with
  | none =>
    cases tr.laterBytesReady <;> simp
  | some pay =>
    cases hr : tr.initReady head.mapUri <;> simp

theorem pollHead_some (h : tr.pollHead hash k now pool seq head = some (t', pool', rel)) :
    t'.listed = tr.listed.erase seq ∧ t'.nextSeq = checkedSucc seq ∧ t'.target = tr.target ∧
      ((rel = none ∧ pool' = pool.skip 1) ∨ (rel.isSome = true ∧ pool' = pool)) := by
  obtain ⟨_, _, _, _, ⟨rfl, rfl, rfl, -⟩ | ⟨x, rfl, rfl, rfl, -⟩⟩ := pollHead_cases h
  · exact ⟨rfl, rfl, rfl, .inl ⟨rfl, rfl⟩⟩
  · obtain ⟨maps, applied, hi⟩ := takeInit_eq hash (tr.removeHead seq) head.mapUri
    rw [hi]
    exact ⟨rfl, rfl, rfl, .inr ⟨rfl, rfl⟩⟩

def Settled (now : Nat) (track : Track) : Prop :=
  ∀ next sequence head, track.nextSeq = some next → track.listed.first? = some (sequence, head) →
    sequence ≤ next ∧ ¬(head.payload.isSome = true ∧ track.initReady head.mapUri = true) ∧
      ¬(track.waits head = true ∧ track.expired head now = true)

structure Timed (now : Nat) (track : Track) : Prop where
  started : track.listed.entries ≠ [] → track.nextSeq ≠ none
  listed : ∀ e ∈ track.listed.entries, e.1 < u64Size ∧ e.2.listedAt ≤ now

theorem Timed.mono (h : tr.Timed now) (hle : now ≤ later) : tr.Timed later :=
  ⟨h.started, fun e he => ⟨(h.listed e he).1, (h.listed e he).2.trans hle⟩⟩

def left (pool : Pool) (out : List Release) : Nat := pool.counters.skipped + out.length

structure Polled (track : Track) (pool : Pool) (out : List Release) (track' : Track) (pool' : Pool)
    (out' : List Release) : Prop where
  target : track'.target = track.target
  held : pool'.held = pool.held
  limits : pool'.limits = pool.limits
  evicted : pool'.counters.evicted = pool.counters.evicted
  left : left pool out ≤ left pool' out'

theorem Polled.refl (tr : Track) (pool : Pool) (out : List Release) :
    Polled tr pool out tr pool out :=
  ⟨rfl, rfl, rfl, rfl, le_rfl⟩

theorem Polled.trans (h : Polled tr pool out t' pool' out')
    (h' : Polled t' pool' out' t'' pool'' out'') : Polled tr pool out t'' pool'' out'' :=
  ⟨h'.target.trans h.target, h'.held.trans h.held, h'.limits.trans h.limits,
    h'.evicted.trans h.evicted,
    h.left.trans h'.left⟩

theorem skipTo_polled (tr : Track) (pool : Pool) (next seq : Nat) (out : List Release) :
    Polled tr pool out (tr.skipTo pool next seq).1 (tr.skipTo pool next seq).2 out := by
  unfold skipTo
  split
  · refine ⟨rfl, rfl, rfl, rfl, ?_⟩
    simp only [Track.left, skip]
    omega
  · exact .refl _ _ _

theorem pollHead_polled (h : tr.pollHead hash k now pool seq head = some (t', pool', rel))
    (out : List Release) :
    Polled tr pool out t' pool' (out ++ rel.toList) ∧
    left pool out < left pool' (out ++ rel.toList) := by
  obtain ⟨-, -, ht, ⟨rfl, rfl⟩ | ⟨hs, rfl⟩⟩ := pollHead_some h
  · simp only [toList_none, append_nil]
    refine ⟨⟨ht, rfl, rfl, rfl, ?_⟩, ?_⟩ <;> simp only [Track.left, skip] <;> omega
  · obtain ⟨x, rfl⟩ := isSome_iff_exists.mp hs
    refine ⟨⟨ht, rfl, rfl, rfl, ?_⟩, ?_⟩ <;> simp [Track.left]

theorem pollLoop_polled (he : pollLoop hash k now n tr pool out = (t', pool', out')) :
    Polled tr pool out t' pool' out' := by
  refine pollLoop_keeps (P := Polled tr pool out)
    (fun {t pool' out' next seq head} h _ _ => ?_) (.refl _ _ _) he
  have hs := h.trans (t.skipTo_polled pool' next seq out')
  exact ⟨hs, fun hh => hs.trans (pollHead_polled hh out').1⟩

theorem skipTo_next (tr : Track) (pool : Pool) (next seq : Nat) (hn : tr.nextSeq = some next) :
    (tr.skipTo pool next seq).1.listed = tr.listed ∧
      ∀ next', (tr.skipTo pool next seq).1.nextSeq = some next' → seq ≤ next' := by
  unfold skipTo
  split
  · exact ⟨rfl, by rintro _ ⟨⟩; exact le_rfl⟩
  · refine ⟨rfl, fun next' h => ?_⟩
    obtain rfl := Option.some.inj (hn.symm.trans h)
    omega

theorem pollLoop_settled (hn : tr.listed.length ≤ n)
    (he : pollLoop hash k now n tr pool out = (t', pool', out')) : t'.Settled now := by
  induction n generalizing tr pool out with
  | zero =>
    cases he
    intro next seq head _ hf
    have hmem := mem_of_first? hf
    rw [length_eq_zero_iff.mp (le_zero.mp hn)] at hmem
    cases hmem
  | succ n ih =>
    rw [pollLoop] at he
    split at he
    · next next seq head hne hf =>
      obtain ⟨hl, hle⟩ := tr.skipTo_next pool next seq hne
      dsimp only at hl hle he
      split at he
      · next hs =>
        cases he
        intro next' seq' head' hn' hf'
        rw [hl, hf] at hf'
        obtain ⟨rfl, rfl⟩ : seq = seq' ∧ head = head' := by simpa using hf'
        exact ⟨hle next' hn', pollHead_eq_none.mp hs⟩
      · next hh =>
        refine ih ?_ he
        rw [(pollHead_some hh).1, hl, OrderedMap.length, OrderedMap.erase_first hf, length_tail]
        have hlen : tr.listed.entries.length ≤ n + 1 := hn
        omega
    · next hno =>
      cases he
      intro next seq head hne hf
      exact absurd hf (hno _ _ _ hne)

theorem Settled.pollLoop_eq (h : tr.Settled now)
    (hs : ∀ seq head, tr.listed.first? = some (seq, head) →
      ¬(tr.waits head = true ∧ tr.expired head later = true)) :
    pollLoop hash k later n tr pool out = (tr, pool, out) := by
  cases n with
  | zero => rfl
  | succ n =>
    rw [pollLoop]
    split
    · next next seq head hn hf =>
      obtain ⟨hle, hr, -⟩ := h next seq head hn hf
      have hsk : tr.skipTo pool next seq = (tr, pool) := if_neg (by omega)
      have hst : tr.pollHead hash k later pool seq head = none :=
        pollHead_eq_none.mpr ⟨hr, hs seq head hf⟩
      rw [hsk]
      dsimp only
      rw [hst]
    · rfl

theorem Settled.pollLoop_left (h : tr.Settled now) {next : Nat} (hn : tr.nextSeq = some next)
    (hf : tr.listed.first? = some (seq, head))
    (hl : tr.waits head = true ∧ tr.expired head later = true)
    (he : pollLoop hash k later (n + 1) tr pool out = (t', pool', out')) :
    left pool out < left pool' out' := by
  obtain ⟨hle, -⟩ := h next seq head hn hf
  have hs : tr.skipTo pool next seq = (tr, pool) := if_neg (by omega)
  rw [pollLoop, hn, hf] at he
  dsimp only at he
  rw [hs] at he
  split at he
  · next hh => exact absurd hl (pollHead_eq_none.mp hh).2
  · next hh => exact (pollHead_polled hh out).2.trans_le (pollLoop_polled he).left

theorem Timed.pollLoop {time : Nat} (h : tr.Timed time)
    (he : pollLoop hash k now n tr pool out = (t', pool', out')) : t'.Timed time := by
  refine pollLoop_keeps (P := fun t _ _ => t.Timed time)
    (fun {t pool out next seq head} h hn hf => ?_) h he
  obtain ⟨hl, -⟩ := t.skipTo_next pool next seq hn
  refine ⟨⟨fun _ hno => ?_, hl ▸ h.listed⟩, fun {t' pool' rel} hh => ?_⟩
  · unfold skipTo at hno
    split at hno
    · cases hno
    · cases hn.symm.trans hno
  · obtain ⟨her, hn', -⟩ := pollHead_some hh
    rw [hl] at her
    refine ⟨fun hne hno => hne ?_, fun e he => ?_⟩
    · have hla : u64Size ≤ seq + 1 := by
        by_contra hlt
        rw [hn', checkedSucc, if_pos (by omega)] at hno
        cases hno
      refine eq_nil_iff_forall_not_mem.mpr fun e he => ?_
      rw [her] at he
      obtain ⟨hmem, ho⟩ := mem_erase.mp he
      have hle := first?_le hf hmem
      have hlt := (h.listed e hmem).1
      omega
    · rw [her] at he
      exact h.listed e (mem_erase.mp he).1

theorem Timed.expired_iff (h : tr.Timed now) (hle : now ≤ later)
    (hf : tr.listed.first? = some (seq, head)) :
    (tr.waits head = true ∧ tr.expired head later = true) ↔
      ∃ d, tr.nextDeadline = some d ∧ d ≤ later := by
  have hl := (h.listed _ (mem_of_first? hf)).2
  dsimp only at hl
  simp only [nextDeadline, hf, bind_eq_bind, bind_some, expired]
  cases tr.waits head with
  | false => simp
  | true =>
    cases tr.target with
    | none => simp
    | some target =>
      simp only [any_some, decide_eq_true_eq, true_and, if_true, map_some, Option.some.injEq,
        exists_eq_left']
      omega

theorem nextDeadline_none_of_nil (h : tr.listed.first? = none) : tr.nextDeadline = none := by
  simp [nextDeadline, h]

end Track

namespace Session

def nextDeadline (s : Session) : Option Nat :=
  let gap := (s.tracks.filterMap Track.nextDeadline).min?
  let hold := s.pool.held.head?.map fun held => held.at' + s.idleTimeout
  match gap, hold with
  | some gap, some hold => some (min gap hold)
  | gap, hold => gap <|> hold

structure Settled (now : Nat) (s : Session) : Prop where
  tracks : ∀ track ∈ s.tracks, track.Settled now ∧ track.Timed now
  hold : ∀ held ∈ s.pool.held.head?, now < held.at' + s.idleTimeout ∧ held.at' ≤ now

def Due (t : Nat) (s : Session) : Prop :=
  (∃ track ∈ s.tracks, ∃ d, track.nextDeadline = some d ∧ d ≤ t) ∨
    ∃ held ∈ s.pool.held.head?, held.at' + s.idleTimeout ≤ t

theorem exists_le_iff_min? (times : List Nat) (t : Nat) :
    (∃ d ∈ times, d ≤ t) ↔ ∃ d, times.min? = some d ∧ d ≤ t := by
  constructor
  · rintro ⟨d, hd, hle⟩
    cases hmin : times.min? with
    | none =>
      rw [min?_eq_none_iff.mp hmin] at hd
      cases hd
    | some first => exact ⟨first, rfl, ((min?_eq_some_iff.mp hmin).2 d hd).trans hle⟩
  · rintro ⟨d, hmin, hle⟩
    exact ⟨d, (min?_eq_some_iff.mp hmin).1, hle⟩

theorem due_iff (s : Session) (t : Nat) : s.Due t ↔ ∃ d, s.nextDeadline = some d ∧ d ≤ t := by
  have hgap : (∃ tr ∈ s.tracks, ∃ d, tr.nextDeadline = some d ∧ d ≤ t) ↔
      ∃ d, (s.tracks.filterMap Track.nextDeadline).min? = some d ∧ d ≤ t := by
    rw [← exists_le_iff_min?]
    simp only [mem_filterMap]
    constructor
    · rintro ⟨tr, hmem, d, hd, hle⟩
      exact ⟨d, ⟨tr, hmem, hd⟩, hle⟩
    · rintro ⟨d, ⟨tr, hmem, hd⟩, hle⟩
      exact ⟨tr, hmem, d, hd, hle⟩
  rw [Due, hgap, nextDeadline]
  cases s.pool.held.head? with
  | none | some => cases (s.tracks.filterMap Track.nextDeadline).min? <;> simp

variable {hash : List UInt8 → UInt64} {s : Session} {now age t : Nat}
  {pool : Pool} {tracks : List Track}

theorem pollTracks_polled (he : pollTracks hash now k tracks pool out = (ts', pool', out')) :
    ts'.map Track.target = tracks.map Track.target ∧ pool'.held = pool.held ∧
    pool'.limits = pool.limits ∧
      pool'.counters.evicted = pool.counters.evicted ∧
      Track.left pool out ≤ Track.left pool' out' := by
  induction tracks generalizing k pool out ts' with
  | nil =>
    cases he
    exact ⟨rfl, rfl, rfl, rfl, le_rfl⟩
  | cons tr tracks ih =>
    obtain ⟨t₁, pool₁, out₁, ts₁, rfl, hp, hr⟩ := pollTracks_cons he
    have hf := pollLoop_polled hp
    obtain ⟨ht, hh, hl, he, hle⟩ := ih hr
    exact ⟨congrArg₂ List.cons hf.target ht, hh.trans hf.held, hl.trans hf.limits,
      he.trans hf.evicted, hf.left.trans hle⟩

theorem idleTimeout_congr {s' : Session}
    (hta : s'.tracks.map Track.target = s.tracks.map Track.target)
    (hl : s'.pool.limits = s.pool.limits) : s'.idleTimeout = s.idleTimeout := by
  have ht (u : Session) : u.target = ((u.tracks.map Track.target).filterMap id).max? := by
    rw [filterMap_map]
    rfl
  rw [idleTimeout, idleTimeout, ht, ht, hta, hl]

theorem evictAged_head (now age n : Nat) (pool : Pool) (hn : pool.held.length ≤ n) :
    ∀ held ∈ (evictAged now age n pool).held.head?, ¬age ≤ now - held.at' := by
  induction n generalizing pool with
  | zero =>
    have hnil : pool.held = [] := length_eq_zero_iff.mp (le_zero.mp hn)
    simp [evictAged, hnil]
  | succ n ih =>
    rw [evictAged]
    split
    · refine ih _ ?_
      cases hh : pool.held with
      | nil => simp [evictOldest, popOldestHeld, hh]
      | cons oldest held =>
        rw [hh, length_cons] at hn
        simp only [evictOldest, popOldestHeld, hh]
        omega
    · next hy =>
      intro held hh hage
      refine hy ?_
      rw [hh]
      simpa using hage

theorem evictAged_of_young (h : ∀ held ∈ pool.held.head?, ¬age ≤ now - held.at') :
    evictAged now age n pool = pool := by
  cases n with
  | zero => rfl
  | succ n =>
    rw [evictAged, if_neg]
    cases hh : pool.held.head? with
    | none => simp
    | some held => simpa using h held hh

theorem evictAged_counters (now age n : Nat) (pool : Pool) :
    pool.counters.evicted ≤ (evictAged now age n pool).counters.evicted ∧
      (evictAged now age n pool).counters.skipped = pool.counters.skipped := by
  induction n generalizing pool with
  | zero => exact ⟨le_rfl, rfl⟩
  | succ n ih =>
    rw [evictAged]
    split
    · obtain ⟨hle, hs⟩ := ih pool.evictOldest
      exact ⟨(le_succ _).trans hle, hs⟩
    · exact ⟨le_rfl, rfl⟩

structure Timed (now : Nat) (s : Session) : Prop where
  tracks : ∀ track ∈ s.tracks, track.Timed now
  held : ∀ held ∈ s.pool.held, held.at' ≤ now

theorem pollTracks_settled (h : ∀ tr ∈ tracks, tr.Timed now)
    (he : pollTracks hash now k tracks pool out = (ts', pool', out')) :
    ∀ tr ∈ ts', tr.Settled now ∧ tr.Timed now := by
  induction tracks generalizing k pool out ts' with
  | nil =>
    cases he
    exact forall_mem_nil _
  | cons tr tracks ih =>
    obtain ⟨t₁, pool₁, out₁, ts₁, rfl, hp, hr⟩ := pollTracks_cons he
    have hti := (h tr mem_cons_self).pollLoop hp
    exact forall_mem_cons.mpr ⟨⟨pollLoop_settled le_rfl hp, hti⟩,
      ih (fun t ht => h t (mem_cons_of_mem tr ht)) hr⟩

theorem Timed.poll (h : s.Timed now) (hash : List UInt8 → UInt64) (out : List Release) :
    (s.poll hash now out).1.Settled now ∧ (s.poll hash now out).1.Timed now := by
  simp only [Session.poll]
  rcases he : pollTracks hash now 0 s.tracks s.pool out with ⟨tracks, pool, out'⟩
  have htr := pollTracks_settled h.tracks he
  obtain ⟨-, hh, -⟩ := pollTracks_polled he
  generalize hage : idleTimeout { s with tracks := tracks, pool := pool } = age
  have hy := evictAged_head now age pool.held.length pool le_rfl
  obtain ⟨hsub, -, hli, -⟩ := (evictAged_drops now age pool.held.length pool).frame
  have hti : ∀ held ∈ (evictAged now age pool.held.length pool).held, held.at' ≤ now :=
    fun held hmem => h.held held (hh ▸ hsub.subset hmem)
  refine ⟨⟨htr, fun held hhe => ?_⟩, fun tr ht => (htr tr ht).2, hti⟩
  have hold := hy held hhe
  have hle := hti held (mem_of_head? hhe)
  have hs : idleTimeout { s with
      tracks := tracks, pool := evictAged now age pool.held.length pool } = age := by
    refine Eq.trans ?_ hage
    exact idleTimeout_congr rfl hli
  rw [hs]
  omega

def Moves (s s' : Session) (out : List Release) : Prop :=
  out ≠ [] ∨ s.pool.counters.skipped < s'.pool.counters.skipped ∨
    s.pool.counters.evicted < s'.pool.counters.evicted

theorem pollTracks_still (hle : now ≤ t) (h : ∀ tr ∈ tracks, tr.Settled now ∧ tr.Timed now)
    (hdue : ¬∃ tr ∈ tracks, ∃ d, tr.nextDeadline = some d ∧ d ≤ t) :
    pollTracks hash t k tracks pool out = (tracks, pool, out) := by
  induction tracks generalizing k with
  | nil => rfl
  | cons tr tracks ih =>
    obtain ⟨hs, ht⟩ := h tr mem_cons_self
    rw [pollTracks, Track.poll, hs.pollLoop_eq fun seq head hf hl =>
      hdue ⟨tr, mem_cons_self, (ht.expired_iff hle hf).mp hl⟩]
    dsimp only
    rw [ih (fun u hu => h u (mem_cons_of_mem tr hu)) fun ⟨u, hu, hd⟩ => hdue ⟨u,
      mem_cons_of_mem tr hu, hd⟩]

theorem Settled.poll_still (h : s.Settled now) (hle : now ≤ t)
    (hdue : ¬s.Due t) (hash : List UInt8 → UInt64)
    (out : List Release) : s.poll hash t out = (s, out) := by
  have ht : pollTracks hash t 0 s.tracks s.pool out = _ :=
    pollTracks_still hle h.tracks fun hd => hdue (.inl hd)
  simp only [poll, ht]
  rw [evictAged_of_young]
  intro held hh hage
  have hold := (h.hold held hh).2
  have hy : ¬held.at' + s.idleTimeout ≤ t := fun hd => hdue (.inr ⟨held, hh, hd⟩)
  have hage : s.idleTimeout ≤ t - held.at' := hage
  omega

theorem pollTracks_left (hle : now ≤ t) (h : ∀ tr ∈ tracks, tr.Settled now ∧ tr.Timed now)
    (hdue : ∃ tr ∈ tracks, ∃ d, tr.nextDeadline = some d ∧ d ≤ t)
    (he : pollTracks hash t k tracks pool out = (ts', pool', out')) :
    Track.left pool out < Track.left pool' out' := by
  induction tracks generalizing k pool out ts' with
  | nil =>
    obtain ⟨tr, hmem, -⟩ := hdue
    cases hmem
  | cons tr tracks ih =>
    obtain ⟨hs, ht⟩ := h tr mem_cons_self
    obtain ⟨t₁, pool₁, out₁, ts₁, rfl, hp, hr⟩ := pollTracks_cons he
    obtain ⟨u, hu, hd⟩ := hdue
    rcases mem_cons.mp hu with rfl | hu
    · refine lt_of_lt_of_le ?_ (pollTracks_polled hr).2.2.2.2
      cases hf : u.listed.first? with
      | none =>
        obtain ⟨d, hd, -⟩ := hd
        rw [nextDeadline_none_of_nil hf] at hd
        cases hd
      | some e =>
        have hmem := mem_of_first? hf
        obtain ⟨next, hne⟩ := ne_none_iff_exists'.mp (ht.started (ne_nil_of_mem hmem))
        obtain ⟨n, hn⟩ := exists_eq_succ_of_ne_zero (length_pos_of_mem hmem).ne'
        rw [OrderedMap.length, hn] at hp
        exact hs.pollLoop_left hne hf ((ht.expired_iff hle hf).mpr hd) hp
    · exact (pollLoop_polled hp).left.trans_lt
        (ih (fun v hv => h v (mem_cons_of_mem tr hv)) ⟨u, hu, hd⟩ hr)

theorem Settled.poll_moves (h : s.Settled now) (hle : now ≤ t)
    (hdue : s.Due t) (hash : List UInt8 → UInt64) :
    s.Moves (s.poll hash t []).1 (s.poll hash t []).2 := by
  simp only [poll]
  rcases hp : pollTracks hash t 0 s.tracks s.pool [] with ⟨tracks, pool, out⟩
  obtain ⟨ht, hh, hl, he, -⟩ := pollTracks_polled hp
  have hsa : idleTimeout { s with tracks := tracks, pool := pool } = s.idleTimeout :=
    idleTimeout_congr ht hl
  rw [hsa]
  rcases hdue with hgap | ⟨held, hhe, hold⟩
  · have hs := (evictAged_counters t s.idleTimeout pool.held.length pool).2
    have hm := pollTracks_left hle h.tracks hgap hp
    simp only [Track.left, length_nil, add_zero] at hm
    cases out with
    | cons rel out => exact .inl (cons_ne_nil _ _)
    | nil =>
      refine .inr (.inl ?_)
      rw [hs]
      simpa using hm
  · have hh' : pool.held.head? = some held := by rw [hh]; exact hhe
    obtain ⟨n, hn⟩ := exists_eq_succ_of_ne_zero (length_pos_of_mem (mem_of_head? hh')).ne'
    refine .inr (.inr ?_)
    rw [← he, hn, evictAged, if_pos (by rw [hh']; simpa using by omega)]
    exact (lt_succ_self _).trans_le (evictAged_counters t s.idleTimeout n pool.evictOldest).1

/-- A deadline is exact: without one nothing leaves any more, and with one nothing leaves
before it and something leaves at it. -/
theorem Settled.nextDeadline_exact (h : s.Settled now) (hash : List UInt8 → UInt64) :
    (s.nextDeadline = none → ∀ t, now ≤ t → s.poll hash t [] = (s, [])) ∧
      ∀ d, s.nextDeadline = some d → now < d ∧ (∀ t, now ≤ t → t < d → s.poll hash t [] = (s, [])) ∧
        s.Moves (s.poll hash d []).1 (s.poll hash d []).2 := by
  have hnow : ¬s.Due now := by
    rintro (⟨tr, hmem, d, hd, hle⟩ | ⟨held, hh, hold⟩)
    · obtain ⟨hs, ht⟩ := h.tracks tr hmem
      cases hf : tr.listed.first? with
      | none =>
        rw [nextDeadline_none_of_nil hf] at hd
        cases hd
      | some e =>
        obtain ⟨next, hn⟩ := ne_none_iff_exists'.mp
          (ht.started (ne_nil_of_mem (mem_of_first? hf)))
        exact (hs next e.1 e.2 hn hf).2.2 ((ht.expired_iff le_rfl hf).mpr ⟨d, hd, hle⟩)
    · exact absurd (h.hold held hh).1 (by omega)
  have ha : ∀ d, s.nextDeadline = some d → now < d := by
    intro d hd
    by_contra hlt
    exact hnow ((s.due_iff now).mpr ⟨d, hd, by omega⟩)
  refine ⟨fun hno t hle => h.poll_still hle ?_ hash [],
    fun d hd => ⟨ha d hd, fun t hle hlt => ?_, ?_⟩⟩
  · rw [due_iff, hno]
    rintro ⟨d, ⟨⟩, -⟩
  · refine h.poll_still hle ?_ hash []
    rw [due_iff]
    rintro ⟨d', hd', hle'⟩
    obtain rfl := Option.some.inj (hd.symm.trans hd')
    omega
  · exact h.poll_moves (ha d hd).le ((s.due_iff d).mpr ⟨d, hd, le_rfl⟩) hash

end Session

end Restream.Hls
