import Restream.HlsEncoder

/-! A session that takes every upload while it is in the last playlist delivers all
segments of an encoder, and no other one does. -/

namespace Restream.Hls

open List Option Function Pool Track Exec

variable {e : Encoder}

namespace EncoderRun.Inv

variable {r r' : EncoderRun} {next now : Nat} {t : Track}

theorem inTime_succ (slid : List Nat) (next : Nat) :
    inTime slid (next + 1) = if next ∈ slid then inTime slid next else inTime slid next ++
      [next] := by
  rw [inTime, range_succ]
  split <;> simp_all [inTime]

theorem tooLate_succ (slid : List Nat) (next : Nat) :
    tooLate slid (next + 1) = if next ∈ slid then tooLate slid next ++
      [next] else tooLate slid next := by
  rw [tooLate, range_succ]
  split <;> simp_all [tooLate]

variable {j : Nat} {held : Held}

section

variable (h : r.Inv e next t)

include h

theorem not_held (hj : j < r.sent) (hw : r.sent ≤ j + e.windowSize)
    (hh : held ∈ r.session.pool.held) : held.path ≠ e.path j := by
  intro heq
  obtain ⟨i, hi, hp, -, hwhy⟩ := h.holds.held held hh
  obtain rfl := e.distinct i j hi (hj.trans_le h.sent_le) (hp.symm.trans heq)
  rcases hwhy with hle | hs
  · omega
  · have := (h.slid i hs).2
    omega

theorem playlist (hs : r.sent < e.segments) (hnow : r.time ≤ now) : ∃ t', Inv e { r with
      session := (r.session.onPlaylist e.playlistPath (.media (e.playlist r.sent)) now).1
      time := now
      sent := r.sent + 1
      listedAt := update r.listedAt r.sent now } next t' := by
  have hf := h.follows
  have hp : t.path = none ∨ t.path = some e.playlistPath := by
    rw [hf.path]
    split
    · exact .inl rfl
    · exact .inr rfl
  have hl : r.sent ∉ r.slid := fun hmem => by
    have := (h.slid _ hmem).2
    omega
  have ht := takeHeld_spec h.holds.once (e.path r.sent)
  have hlt : next < u64Size := lt_of_le_of_lt h.next_le (hs.trans_le e.inU64)
  rw [Session.onPlaylist_single h.tracks hp,
    hf.onFollowed hs h.next_le (fun j hj hw held hh => h.not_held hj hw.le hh) now]
  refine ⟨_, rfl, h.others, ?_, ?_, hs, h.next_le.trans (Nat.le_succ _), h.uploaded,
    fun j u hu => (h.past j u hu).trans hnow, fun j hj => ?_, h.released,
    (congrArg Counters.skipped (takeHeld_counters _ _)).trans h.skipped⟩
  · refine ⟨hf.maps, hf.epoch, rfl, fun _ => rfl, rfl, fun j hj => ?_, ?_, ?_, fun x hx => ?_⟩
    · simp only [Encoder.listingOf_playlist hs hj, Nat.lt_succ_iff]
    · simp [nextOf, hlt]
    · have hlen : r.sent + 1 - next = (r.sent - next) + 1 := by have := h.next_le; omega
      rw [OrderedMap.insert_last fun x hx => (hf.mem_keys hx).2,
        map_append, hf.keys, hlen, range'_concat,
        Nat.one_mul, Nat.add_sub_cancel' h.next_le]
      rfl
    · rcases OrderedMap.mem_insert.mp hx with rfl | ⟨hx, hne⟩
      · refine ⟨rfl, rfl, by simp, ht.2.trans ⟨?_, fun hup => h.holds.early _ hs le_rfl hup.1⟩⟩
        rintro ⟨held, hh, heq⟩
        obtain ⟨i, hi, hp, hat, -⟩ := h.holds.held held hh
        obtain rfl := e.distinct i r.sent hi hs (hp.symm.trans heq)
        exact ⟨by simp [hat], hl⟩
      · obtain ⟨hp, hmap, hat, hpa⟩ := hf.listed x hx
        exact ⟨hp, hmap, by simpa [hne] using hat, hpa⟩
  · refine ⟨h.holds.once.sublist ((takeHeld_sublist _ _).map _),
      fun held hh => ?_, fun j hj hle hup => ?_⟩
    · obtain ⟨hh, hne⟩ := (ht.1 held).mp hh
      obtain ⟨j, hj, hp, hat, hwhy⟩ := h.holds.held held hh
      refine ⟨j, hj, hp, hat, hwhy.imp_left fun hle => Nat.lt_of_le_of_ne hle ?_⟩
      rintro rfl
      exact hne hp
    · obtain ⟨held, hh, hp⟩ := h.holds.early j hj (Nat.le_of_succ_le hle) hup
      refine ⟨held, (ht.1 held).mpr ⟨hh, fun heq => ?_⟩, hp⟩
      have := e.distinct j r.sent hj hs (hp.symm.trans heq)
      dsimp only at hle
      omega
  · exact ⟨(h.slid j hj).1, (h.slid j hj).2.trans (Nat.lt_succ_self _)⟩

theorem of_upload (hn : r.uploadedAt j = none) (hnow : r.time ≤ now)
    (hs : sess.pool.counters.skipped = r.session.pool.counters.skipped) (ht : sess.tracks = [t'])
    (ho : sess.otherVariants = []) (hf : t'.Follows e (r.uploaded e j now sess) next)
    (hh : sess.pool.Holds e (r.uploaded e j now sess)) : (r.uploaded e j now sess).Inv e next t' := by
  have hl {i : Nat} (hi : i < next) : i ≠ j := by
    rintro rfl
    exact h.uploaded i hi hn
  have hsa : ∀ i ∈ range next, (i ∈ (r.uploaded e j now sess).slid ↔ i ∈ r.slid) := by
    intro i hi
    have hne := hl (mem_range.mp hi)
    dsimp only [EncoderRun.uploaded]
    split
    · simp [hne]
    · exact Iff.rfl
  refine ⟨ht, ho, hf, hh, h.sent_le, h.next_le, fun i hi => ?_,
    fun i u hu => ?_, fun i hi => ?_, ?_, ?_⟩
  · dsimp only [EncoderRun.uploaded]
    rw [update_of_ne (hl hi)]
    exact h.uploaded i hi
  · by_cases hij : i = j
    · subst hij
      simp only [EncoderRun.uploaded, update_self, mem_some_iff] at hu
      exact hu.ge
    · simp only [EncoderRun.uploaded, update_of_ne hij] at hu
      exact (h.past i u hu).trans hnow
  · dsimp only [EncoderRun.uploaded] at hi ⊢
    by_cases hij : i = j
    · subst hij
      refine ⟨by simp, ?_⟩
      split at hi
      · assumption
      · exact absurd hn (h.slid i hi).1
    · rw [update_of_ne hij]
      refine h.slid i ?_
      split at hi
      · simpa [hij] using hi
      · exact hi
  · refine h.released.trans (congrArg (map _) ?_)
    exact filter_congr fun i hi => by simp only [hsa i hi]
  · refine (hs.trans h.skipped).trans (congrArg length ?_)
    exact filter_congr fun i hi => by simp only [hsa i hi]

theorem entryOf (hj : j < e.segments) (hn : r.uploadedAt j = none) :
    if r.sent ≤ j + e.windowSize ∧ j < r.sent then ∃ l, t.entryOf (e.path j) = some (j, l) ∧
      l.payload = none else t.entryOf (e.path j) = none := by
  have hla := h.follows.latest j hj
  split
  · next hw =>
    rw [if_pos hw] at hla
    have hle : next ≤ j := by
      by_contra hlt
      exact h.uploaded j (by omega) hn
    obtain ⟨l, hget⟩ := h.follows.get? hle hw.2
    obtain ⟨hpa, -, -, hp⟩ := h.follows.listed _ (OrderedMap.mem_of_get? hget)
    refine ⟨l, by simpa [Track.entryOf, hla, hget] using hpa, ?_⟩
    cases hl : l.payload with
    | none => rfl
    | some pay => exact absurd hn (hp.mp (by simp [hl])).1
  · next hw =>
    rw [if_neg hw] at hla
    simp [Track.entryOf, hla]

theorem held_upload (hn : r.uploadedAt j = none)
    (hh : held ∈ r.session.pool.held) (now : Nat) (sess : Session) :
    ∃ i < e.segments, held.path = e.path i ∧ (r.uploaded e j now sess).uploadedAt i = some held.at' ∧
      (r.sent ≤ i ∨ i ∈ (r.uploaded e j now sess).slid) := by
  obtain ⟨i, hi, hp, hat, hwhy⟩ := h.holds.held held hh
  have hne : i ≠ j := by
    rintro rfl
    rw [hn] at hat
    cases hat
  refine ⟨i, hi, hp, (update_of_ne hne _ _).trans hat, hwhy.imp_right fun hs => ?_⟩
  dsimp only [EncoderRun.uploaded]
  split
  · exact mem_append_left _ hs
  · exact hs

theorem early_upload (hij : i ≠ j) (hi : i < e.segments) (hle : r.sent ≤ i)
    (hup : (r.uploaded e j now sess).uploadedAt i ≠ none) :
    ∃ held ∈ r.session.pool.held, held.path = e.path i := by
  dsimp only [EncoderRun.uploaded] at hup
  rw [update_of_ne hij] at hup
  exact h.holds.early i hi hle hup

theorem upload (hj : j < e.segments) (hn : r.uploadedAt j = none) (hnow : r.time ≤ now)
    (hr : r.Room e (.upload j bs now)) : ∃ t', Inv e (r.uploaded e j now
      (r.session.onSegment (e.path j) { bytes := bs, upload := some j } now).1) next t' := by
  have he := h.entryOf hj hn
  have hla : j ∉ r.slid := fun hs => (h.slid j hs).1 hn
  rw [Session.onSegment_single h.tracks h.follows.maps h.others]
  split at he
  · next hw =>
    obtain ⟨l, he, hl⟩ := he
    rw [he]
    simp only [hl, isSome_none, Bool.false_eq_true, if_false]
    have hin : ¬j + e.windowSize < r.sent := by omega
    have hho (sess : Session) : r.session.pool.Holds e (r.uploaded e j now sess) :=
      ⟨h.holds.once, fun held hh => h.held_upload hn hh now sess,
        fun i hi hle hup => h.early_upload (hw.2.trans_le hle).ne' hi hle hup⟩
    refine ⟨_, h.of_upload hn hnow (by rfl) (by rfl) h.others ?_ (hho _)⟩
    have hf := h.follows
    refine ⟨hf.maps, hf.epoch, hf.path, hf.target, hf.window,
      hf.latest, hf.nextSeq, ?_, fun x hx => ?_⟩
    · refine Eq.trans ?_ hf.keys
      simp [setPayload, OrderedMap.modify]
    · obtain ⟨v, hv, hx⟩ := OrderedMap.mem_modify hx
      obtain ⟨hp, hmap, hat, hpa⟩ := hf.listed _ hv
      rw [hx]
      dsimp only [EncoderRun.uploaded] at hp hmap hat hpa ⊢
      rw [if_neg hin]
      by_cases hxj : x.1 = j
      · rw [hxj]
        rw [hxj] at hp hat
        simp [hp, hmap, hat, hla]
      · rw [if_neg hxj, update_of_ne hxj]
        exact ⟨hp, hmap, hat, hpa⟩
  · rw [he]
    have hab : ∀ held ∈ r.session.pool.held, held.path ≠ e.path j := by
      intro held hh heq
      obtain ⟨i, hi, hp, hat, -⟩ := h.holds.held held hh
      obtain rfl := e.distinct i j hi hj (hp.symm.trans heq)
      rw [hn] at hat
      cases hat
    rw [hold_room { bytes := bs, upload := some j } hab (hr (by omega))]
    refine ⟨t, h.of_upload hn hnow (by rfl) h.tracks h.others ?_ ?_⟩
    · refine h.follows.congr rfl rfl fun i hle hlt => ?_
      dsimp only [EncoderRun.uploaded]
      by_cases hij : i = j
      · subst hij
        rw [if_pos (by omega)]
        simp [hn]
      · rw [update_of_ne hij]
        split
        · simp [hij]
        · exact Iff.rfl
    · refine ⟨?_, fun held hh => ?_, fun i hi hle hup => ?_⟩
      · rw [map_append, nodup_append]
        refine ⟨h.holds.once, nodup_singleton _, fun a ha b hb => ?_⟩
        obtain ⟨held, hh, rfl⟩ := mem_map.mp ha
        rw [mem_singleton.mp hb]
        exact hab held hh
      · rcases mem_append.mp hh with hh | hh
        · exact h.held_upload hn hh now _
        · obtain rfl := mem_singleton.mp hh
          refine ⟨j, hj, rfl, update_self _ _ _, ?_⟩
          dsimp only [EncoderRun.uploaded]
          by_cases hle : r.sent ≤ j
          · exact .inl hle
          · rw [if_pos (by omega)]
            exact .inr (by simp)
      · by_cases hij : i = j
        · exact ⟨_, mem_append_right _ mem_cons_self, congrArg e.path hij.symm⟩
        · obtain ⟨held, hh, hp⟩ := h.early_upload hij hi hle hup
          exact ⟨held, mem_append_left _ hh, hp⟩

end

end EncoderRun.Inv

open OrderedMap

def EncoderRun.polling (r : EncoderRun) (track : Track) (pool : Pool) (out : List Release) :
    EncoderRun :=
  { r with
    session := { r.session with tracks := [track], pool := pool }
    released := r.released ++ out }

def EncoderRun.Awaited (e : Encoder) (r : EncoderRun) (now : Nat) : Prop :=
  ∀ j < r.sent, r.uploadedAt j = none → now < r.listedAt j + e.target

namespace EncoderRun.Inv

variable {r : EncoderRun} {next now : Nat} {track : Track} {pool : Pool} {out : List Release}

theorem first (h : r.Inv e next track) {seq : Nat} {head : Listed}
    (hf : track.listed.first? = some (seq, head)) : seq = next ∧ next < r.sent := by
  have hk := h.follows.keys
  obtain ⟨rest, hr⟩ := head?_eq_some_iff.mp hf
  rw [hr] at hk
  obtain ⟨-, hlt⟩ := h.follows.mem_keys (mem_of_first? hf)
  cases hlen : r.sent - next with
  | zero =>
    rw [hlen] at hk
    cases hk
  | succ n =>
    rw [hlen] at hk
    obtain ⟨rfl, -⟩ := List.cons.inj hk
    exact ⟨rfl, hlt⟩

section
variable (h : (r.polling track pool out).Inv e next track) (ha : r.Awaited e now)
include h ha

theorem pollHead {hash : List UInt8 → UInt64} {k seq : Nat}
    {head : Listed} {t' : Track} {pool' : Pool}
    {rel : Option Release} (hfi : track.listed.first? = some (seq, head))
    (hpo : track.pollHead hash k now pool seq head = some (t', pool', rel)) :
    (r.polling t' pool' (out ++ rel.toList)).Inv e (next + 1) t' := by
  obtain ⟨rfl, hlt⟩ := h.first hfi
  have hf := h.follows
  have hh := mem_of_first? hfi
  obtain ⟨-, hmap, hat, hp⟩ := hf.listed _ hh
  obtain ⟨⟨timeline, clock, gap, gen, htr⟩, hle⟩ := pollHead_plain hmap hpo
  have hfo : t'.Follows e (r.polling track pool out) (seq + 1) := by
    subst htr
    refine ⟨hf.maps, hf.epoch, hf.path, hf.target, hf.window, hf.latest, ?_, ?_, fun x hx => ?_⟩
    · rw [if_neg (by omega)]
      rfl
    · have hlen : (r.polling track pool out).sent - seq =
          (r.polling track pool out).sent - (seq + 1) + 1 := by
        omega
      dsimp only [marked, removeHead]
      rw [erase_first hfi, map_tail, hf.keys, hlen, range'_succ, tail_cons]
    · exact hf.listed x (mem_erase.mp hx).1
  have hl : r.uploadedAt seq ≠ none ∧ (head.payload = none → seq ∈ r.slid) := by
    have hm : head.payload = none → r.uploadedAt seq ≠ none → seq ∈ r.slid := by
      intro hn hup
      by_contra hs
      have := hp.mpr ⟨hup, hs⟩
      simp [hn] at this
    rcases hle with ⟨hn, hgap, -⟩ | ⟨x, hso, -⟩
    · have hup : r.uploadedAt seq ≠ none := by
        intro hmi
        have hw := ha seq hlt hmi
        have ht : track.target = some e.target := hf.target (by omega)
        have hpos := e.target_pos
        simp only [gapExpired, ht, any_some, Bool.and_eq_true, decide_eq_true_eq] at hgap
        have hat : head.listedAt = r.listedAt seq := hat
        omega
      exact ⟨hup, fun hn => hm hn hup⟩
    · have hup := (hp.mp hso).1
      exact ⟨hup, fun hn => hm hn hup⟩
  have hup : ∀ j < seq + 1, r.uploadedAt j ≠ none := by
    intro j hj
    rcases Nat.lt_succ_iff_lt_or_eq.mp hj with hj | rfl
    · exact h.uploaded j hj
    · exact hl.1
  have hr := h.released
  have hsk := h.skipped
  dsimp only [polling] at hr hsk
  rcases hle with ⟨hn, -, rfl, rfl⟩ | ⟨x, hso, rfl, hseq, he, rfl⟩ <;>
    refine ⟨rfl, h.others, hfo.congr rfl rfl fun _ _ _ => Iff.rfl,
      { h.holds with }, h.sent_le, hlt, hup, h.past, h.slid, ?_, ?_⟩ <;>
    dsimp only [polling]
  · rw [inTime_succ, if_pos (hl.2 hn)]
    simpa only [toList_none, append_nil] using hr
  · rw [tooLate_succ, if_pos (hl.2 hn), length_append, ← hsk]
    rfl
  · have hs : seq ∉ r.slid := (hp.mp hso).2
    rw [inTime_succ, if_neg hs, ← append_assoc, map_append, hr]
    simp [hseq, he, hf.epoch]
  · have hs : seq ∉ r.slid := (hp.mp hso).2
    rw [tooLate_succ, if_neg hs]
    exact hsk

theorem pollLoop {hash : List UInt8 → UInt64}
    (he : pollLoop hash k now n track pool out = (t', pool', out')) :
    ∃ next', (r.polling t' pool' out').Inv e next' t' := by
  refine pollLoop_keeps (P := fun t pool out => ∃ next, (r.polling t pool out).Inv e next t) ?_
    ⟨next, h⟩ he
  rintro t pool out start seq head ⟨next, h⟩ hne hf
  have hs : t.skipTo pool start seq = (t, pool) := by
    obtain ⟨rfl, hlt⟩ := h.first hf
    have hn := h.follows.nextSeq
    rw [if_neg (by omega), nextOf, hne] at hn
    split at hn <;> cases hn
    exact if_neg (lt_irrefl _)
  rw [hs]
  exact ⟨⟨next, h⟩, fun hp => ⟨_, h.pollHead ha hf hp⟩⟩

end

theorem poll (h : r.Inv e next track) (hnow : r.time ≤ now) (ha : r.Awaited e now)
    (hy : ∀ j < e.segments, r.sent ≤ j → ∀ u ∈ r.uploadedAt j, now < u + r.session.idleTimeout)
    (hash : List UInt8 → UInt64) :
    ∃ next' t', Inv e { r with
      session := (r.session.poll hash now []).1
      time := now
      released := r.released ++ (r.session.poll hash now []).2 } next' t' ∧ t'.Settled now := by
  have hst : (r.polling track r.session.pool []).Inv e next track :=
    ⟨rfl, h.others, h.follows.congr rfl rfl fun _ _ _ => Iff.rfl, { h.holds with },
      h.sent_le, h.next_le, h.uploaded, h.past,
      h.slid, by simpa only [polling, append_nil] using h.released, h.skipped⟩
  rcases hl : Track.pollLoop hash 0 now track.listed.length track r.session.pool
    [] with ⟨t', pool', out'⟩
  obtain ⟨next', hinv⟩ := hst.pollLoop ha hl
  have hs := Track.pollLoop_settled le_rfl hl
  have hp := Track.pollLoop_polled hl
  have hid : Session.idleTimeout { r.session with tracks := [t'], pool := pool' } =
      r.session.idleTimeout := by
    refine Session.idleTimeout_congr ?_ hp.limits
    simpa [h.tracks] using hp.target
  have hpo : r.session.poll hash now [] = ({ r.session with
      tracks := [t']
      pool := evictAged now r.session.idleTimeout pool'.held.length pool' }, out') := by
    simp only [Session.poll, h.tracks, Session.pollTracks, Track.poll, hl]
    rw [hid]
  rw [hpo]
  have hsub := (evictAged_drops now r.session.idleTimeout pool'.held.length pool').frame.1
  have hc := (Session.evictAged_counters now r.session.idleTimeout pool'.held.length pool').2
  refine ⟨next', t', ⟨rfl, h.others, hinv.follows.congr rfl rfl fun _ _ _ => Iff.rfl,
    ⟨?_, ?_, ?_⟩, h.sent_le,
    hinv.next_le, hinv.uploaded, fun j u hu => (h.past j u hu).trans hnow,
    h.slid, hinv.released, hc.trans hinv.skipped⟩, hs⟩
  · exact hinv.holds.once.sublist (hsub.map _)
  · exact fun held hh => hinv.holds.held held (hsub.subset hh)
  · intro j hj hle hup
    obtain ⟨held, hh, hpa⟩ := hinv.holds.early j hj hle hup
    obtain ⟨i, hi, hp', hat, -⟩ := hinv.holds.held held hh
    obtain rfl := e.distinct i j hi hj (hp'.symm.trans hpa)
    have hlt := hy i hj hle held.at' hat
    have hle := (h.past i held.at' hat).trans hnow
    exact ⟨held, mem_evictAged (by omega) _ hh, hpa⟩

end EncoderRun.Inv

namespace EncoderRun

variable {r r' : EncoderRun} {hash : List UInt8 → UInt64}

theorem start_inv (limits : SessionLimits) : (start limits).Inv e 0 (new none) :=
  ⟨rfl, rfl, ⟨rfl, rfl, rfl, fun h => absurd rfl h, rfl,
    fun _ _ => by simp [start, new], rfl, rfl, by rintro x ⟨⟩⟩,
    ⟨nodup_nil, by rintro h ⟨⟩, fun _ _ _ h => absurd rfl h⟩,
    Nat.zero_le _, le_rfl, fun _ h => absurd h (Nat.not_lt_zero _),
    by rintro j u ⟨⟩, by rintro j ⟨⟩, rfl, rfl⟩

theorem step_inv {next : Nat} {track : Track} {event : EncoderEvent} (h : r.Inv e next track)
    (ht : r.Timely e event) (hs : r.step hash e event = some r') :
    ∃ next track, r'.Inv e next track := by
  obtain ⟨ha, hy, hro⟩ := ht
  cases event with
  | playlist now =>
    obtain ⟨⟨hnow, hse⟩, hr⟩ := ite_none_right_eq_some.mp hs
    cases hr
    exact ⟨next, h.playlist hse hnow⟩
  | upload j bs now =>
    obtain ⟨⟨hnow, hj, hn⟩, hr⟩ := ite_none_right_eq_some.mp hs
    cases hr
    exact ⟨next, h.upload hj hn hnow hro⟩
  | poll now =>
    obtain ⟨hnow, hr⟩ := ite_none_right_eq_some.mp hs
    cases hr
    obtain ⟨next', t', hinv, -⟩ := h.poll hnow ha hy hash
    exact ⟨next', t', hinv⟩

theorem Inv.complete_iff {next now : Nat} {track : Track}
    (h : r.Inv e next track) (hsen : r.sent = e.segments)
    (hu : ∀ j < e.segments, r.uploadedAt j ≠ none) (hse : track.Settled now) :
    r.Complete e ↔ r.slid = [] := by
  constructor
  · rintro ⟨hr, -⟩
    refine eq_nil_iff_forall_not_mem.mpr fun j hj => ?_
    have hlt := (h.slid j hj).2
    have hmem : (j, 0) ∈ (range e.segments).map fun j => (j, 0) :=
      mem_map.mpr ⟨j, mem_range.mpr (by omega), rfl⟩
    rw [← hr, h.released] at hmem
    obtain ⟨i, hi, heq⟩ := mem_map.mp hmem
    obtain rfl : i = j := congrArg Prod.fst heq
    simp [inTime, hj] at hi
  · intro hs
    have hnex : next = e.segments := by
      have hle := h.next_le
      by_contra hne
      have hlt : next < r.sent := by omega
      have hn := h.follows.nextSeq
      rw [if_neg (by omega), nextOf, if_pos (by have := e.inU64; omega)] at hn
      obtain ⟨l, hget⟩ := h.follows.get? le_rfl hlt
      cases hf : track.listed.first? with
      | none =>
        have hmem := mem_of_get? hget
        rw [head?_eq_none_iff.mp hf] at hmem
        cases hmem
      | some x =>
        obtain ⟨-, hre, -⟩ := hse next x.1 x.2 hn hf
        have hmem := mem_of_first? hf
        obtain ⟨-, hmap, -, hp⟩ := h.follows.listed x hmem
        have hup := hu x.1 (hsen ▸ (h.follows.mem_keys hmem).2)
        exact hre ⟨hp.mpr ⟨hup, by simp [hs]⟩, by rw [hmap]; rfl⟩
    refine ⟨?_, ?_⟩
    · rw [h.released, hnex, hs]
      simp [inTime]
    · rw [h.skipped, hs]
      simp [tooLate]

/-- All segments of an encoder are delivered if and only if each was uploaded before the
first playlist without it. -/
theorem complete_iff_none_slid (hash : List UInt8 → UInt64) (e : Encoder) (limits : SessionLimits)
    (hrun : Reachable (step hash e) (Timely e) (start limits) r) (hsent : r.sent = e.segments)
    (huploaded : ∀ j < e.segments, r.uploadedAt j ≠ none) {now : Nat}
    (hpoll : r.step hash e (.poll now) = some r') : r'.Complete e ↔ r.slid = [] := by
  obtain ⟨next, track, hinv⟩ := hrun.invariant (fun r => ∃ next track, r.Inv e next track)
    (fun _ _ _ ⟨_, _, h⟩ htimely hstep => step_inv h htimely hstep) ⟨0, _, start_inv limits⟩
  obtain ⟨hnow, hr⟩ := Option.ite_none_right_eq_some.mp hpoll
  cases hr
  have hawaited : r.Awaited e now := fun j hj hnone => absurd hnone (huploaded j (hsent ▸ hj))
  obtain ⟨next', track', hinv', hsettled⟩ :=
    hinv.poll hnow hawaited (fun j hj hle => absurd hj (by omega)) hash
  exact hinv'.complete_iff hsent huploaded hsettled

def pair : Encoder where
  segments := 2
  windowSize := 1
  target := 6
  playlistPath := "live.m3u8"
  path := fun j => if j = 0 then "a.ts" else "b.ts"
  duration := fun _ => 6
  ended := fun _ => false
  window_pos := by decide
  target_pos := by decide
  distinct := by
    intro i j hi hj hpath
    have hi : i = 0 ∨ i = 1 := by omega
    have hj : j = 0 ∨ j = 1 := by omega
    rcases hi with rfl | rfl <;> rcases hj with rfl | rfl <;> simp_all
  inU64 := by decide

instance (e : Encoder) (r : EncoderRun) (event : EncoderEvent) : Decidable (r.Room e event) := by
  unfold Room
  split <;> infer_instance

instance (e : Encoder) (r : EncoderRun) (event : EncoderEvent) : Decidable (r.Timely e event) := by
  unfold Timely
  infer_instance

def Ready (r : EncoderRun) : Prop := r.sent = 2 ∧ (∀ j < 2, r.uploadedAt j ≠ none) ∧ r.time ≤ 6

instance (r : EncoderRun) : Decidable r.Ready := inferInstanceAs (Decidable (_ ∧ (∀ j < 2, _) ∧ _))

theorem complete_iff_none_slid_pair : ∃ r r',
    Reachable (step (fun _ => 0) pair) (Timely pair) (start ⟨8, 1000, 30⟩) r ∧ r.Ready ∧
      r.step (fun _ => 0) pair (.poll 6) = some r' ∧ r.slid = [] ∧ r'.Complete pair := by
  obtain ⟨r, hreach, ⟨hsent, huploaded, htime⟩, hslid⟩ : ∃ r, Reachable (step (fun _ => 0) pair)
      (Timely pair) (start ⟨8, 1000, 30⟩) r ∧ r.Ready ∧ r.slid = [] :=
    exists_reachable_of_run
      [.playlist 0, .upload 1 [2] 1, .upload 0 [1] 2, .poll 3, .playlist 4] (by decide +kernel)
  have hpoll : r.step (fun _ => 0) pair (.poll 6) = some _ := if_pos htime
  have hcomplete := complete_iff_none_slid _ pair _ hreach hsent huploaded hpoll
  exact ⟨r, _, hreach, ⟨hsent, huploaded, htime⟩, hpoll, hslid, hcomplete.mpr hslid⟩

/-- A segment that the encoder uploads while it is still waited for, but after the first
playlist without it, is skipped with its bytes in the hold. -/
theorem slid_upload_skipped : ∃ r r',
    Reachable (step (fun _ => 0) pair) (Timely pair) (start ⟨8, 1000, 30⟩) r ∧ r.Ready ∧
      r.step (fun _ => 0) pair (.poll 6) = some r' ∧ r'.released.map Release.sequence = [1] ∧
      r'.session.pool.counters.skipped = 1 ∧ r'.session.pool.held.map Held.path = ["a.ts"] ∧
      ¬r'.Complete pair := by
  obtain ⟨r, hreach, hready, r', hpoll, hreleased, hskipped, hheld⟩ : ∃ r,
      Reachable (step (fun _ => 0) pair) (Timely pair) (start ⟨8, 1000, 30⟩) r ∧ r.Ready ∧
      ∃ r' ∈ r.step (fun _ => 0) pair (.poll 6), r'.released.map Release.sequence = [1] ∧
        r'.session.pool.counters.skipped = 1 ∧ r'.session.pool.held.map Held.path = ["a.ts"] :=
    exists_reachable_of_run [.playlist 0, .playlist 1, .upload 0 [1] 2, .upload 1 [2] 3]
      (by decide +kernel)
  refine ⟨r, r', hreach, hready, hpoll, hreleased, hskipped, hheld, fun hcomplete => ?_⟩
  rw [hcomplete.2] at hskipped
  cases hskipped

end EncoderRun

end Restream.Hls
