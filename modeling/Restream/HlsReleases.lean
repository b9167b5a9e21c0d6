import Mathlib.Algebra.Order.Group.Multiset
import Restream.HlsOrdering
import Restream.Exec

/-! What leaves a push session: segments in the order of epoch and sequence,
each with the bytes uploaded under the path listed for it, and no upload twice. -/

namespace Restream.Hls

open List Option OrderedMap Payload

namespace Pool

theorem takeHeld_cases (pool : Pool) (path : Path) : pool.takeHeld path = (pool, none) ∨
    ∃ held pool', pool.takeHeld path = (pool', some held.payload) ∧ held.path = path ∧
      pool.held.Perm (held :: pool'.held) ∧
      pool'.heldBytes = pool.heldBytes - held.payload.length := by
  unfold takeHeld
  split
  · exact .inl rfl
  · next held hf =>
    obtain ⟨hp, pre, after, hs, hb⟩ := find?_eq_some_iff_append.mp hf
    refine .inr ⟨held, _, rfl, of_decide_eq_true hp, ?_, rfl⟩
    have he : pool.held.eraseP (fun held => held.path = path) = pre ++ after := by
      rw [hs, eraseP_append_right _ (by simpa using hb),
        eraseP_cons_of_pos (p := fun held : Held => decide (held.path = path)) hp]
    simp only [he]
    rw [hs]
    exact perm_middle

def payloads (pool : Pool) : Multiset Payload := (pool.held.map Held.payload : List Payload)

theorem payloads_le {pool pool' : Pool} (h : pool'.held.Sublist pool.held) :
    pool'.payloads ≤ pool.payloads :=
  Multiset.coe_le.mpr (h.map _).subperm

theorem payloads_perm {pool pool' : Pool} {held : Held} (h : pool.held.Perm (held :: pool'.held)) :
    pool.payloads = held.payload ::ₘ pool'.payloads :=
  Multiset.coe_eq_coe.mpr (h.map _)

/-- The pools that a pool comes to while it only gives uploads away. -/
inductive Drops (pool : Pool) : Pool → Prop
  | refl : Drops pool pool
  | take {pool' : Pool} (path : Path) (h : Drops pool pool') : Drops pool (pool'.takeHeld path).1
  | pop {pool' : Pool} (h : Drops pool pool') : Drops pool pool'.popOldestHeld
  | count {pool' : Pool} (counters : Counters) (h : Drops pool pool') :
    Drops pool { pool' with counters := counters }

theorem Drops.trans {pool pool' pool'' : Pool} (h : pool.Drops pool') (h' : pool'.Drops pool'') :
    pool.Drops pool'' := by
  induction h' with
  | refl => exact h
  | take path _ ih => exact .take path ih
  | pop _ ih => exact .pop ih
  | count counters _ ih => exact .count counters ih

theorem Drops.frame {pool pool' : Pool} (h : pool.Drops pool') :
    pool'.held.Sublist pool.held ∧ pool'.seeded = pool.seeded ∧ pool'.limits = pool.limits ∧
      pool'.heldBytes ≤ pool.heldBytes := by
  induction h with
  | refl => exact ⟨.refl _, rfl, rfl, le_rfl⟩
  | take path _ ih =>
    obtain ⟨hh, hs, hl, hb⟩ := ih
    unfold takeHeld
    split
    · exact ⟨hh, hs, hl, hb⟩
    · exact ⟨eraseP_sublist.trans hh, hs, hl, (Nat.sub_le _ _).trans hb⟩
  | @pop pool' _ ih =>
    obtain ⟨hh, hs, hl, hb⟩ := ih
    unfold popOldestHeld
    split
    · exact ⟨hh, hs, hl, hb⟩
    · next held he =>
      rw [he] at hh
      exact ⟨(sublist_cons_self _ _).trans hh, hs, hl, (Nat.sub_le _ _).trans hb⟩
  | count _ _ ih => exact ih

theorem takeHeld_sublist (pool : Pool) (path : Path) :
    (pool.takeHeld path).1.held.Sublist pool.held :=
  (Drops.take path .refl).frame.1

theorem foldl_takeHeld_drops (paths : List Path) (pool : Pool) :
    pool.Drops (paths.foldl (fun pool path => (pool.takeHeld path).1) pool) := by
  induction paths generalizing pool with
  | nil => exact .refl
  | cons path paths ih => exact (Drops.take path .refl).trans (ih _)

theorem evictOver_drops (n : Nat) (pool : Pool) : pool.Drops (evictOver n pool) := by
  induction n generalizing pool with
  | zero => exact .refl
  | succ n ih =>
    rw [evictOver]
    split
    · exact (Drops.count _ (.pop .refl)).trans (ih _)
    · exact .refl

theorem evictAged_drops (now age n : Nat) (pool : Pool) : pool.Drops (evictAged now age n pool) := by
  induction n generalizing pool with
  | zero => exact .refl
  | succ n ih =>
    rw [evictAged]
    split
    · exact (Drops.count _ (.pop .refl)).trans (ih _)
    · exact .refl

end Pool

theorem Session.onOtherVariant_drops (s : Session) (path : Path) (media : MediaPlaylist) :
    s.pool.Drops (s.onOtherVariant path media).pool := by
  unfold onOtherVariant
  dsimp only
  split
  · exact Pool.foldl_takeHeld_drops _ _
  · exact .refl

structure Track.SameListing (track' track : Track) : Prop where
  listed : track'.listed = track.listed
  nextSeq : track'.nextSeq = track.nextSeq
  epoch : track'.epoch = track.epoch
  window : track'.window = track.window

namespace Track

def payloads (track : Track) : Multiset Payload :=
  (track.listed.entries.filterMap fun e => e.2.payload : List Payload)

variable {t : Track} {listed : Listed}

theorem payloads_setPayload (hget : t.listed.get? seq = some listed) (hn : listed.payload = none) :
    (t.setPayload seq pay).payloads = pay ::ₘ t.payloads := by
  obtain ⟨pre, after, hs, hb, ha⟩ := exists_split (mem_of_get? hget)
  have hm := modify_split hs hb ha
  simp only [payloads, setPayload, hm, hs, filterMap_append, filterMap_cons, hn]
  exact Multiset.coe_eq_coe.mpr perm_middle

theorem payloads_insert (hget : t.listed.get? seq = none) :
    payloads { t with listed := t.listed.insert seq listed } =
      (listed.payload.toList : Multiset Payload) + t.payloads := by
  have hpe := (insert_perm hget listed).filterMap fun e => e.2.payload
  refine (Multiset.coe_eq_coe.mpr hpe).trans ?_
  cases hp : listed.payload with
  | none | some => simp [payloads, hp]

theorem payloads_erase (hmem : (seq, listed) ∈ t.listed.entries) :
    t.payloads = (listed.payload.toList : Multiset Payload) +
      payloads { t with listed := t.listed.erase seq } := by
  obtain ⟨pre, after, hs, hb, ha⟩ := exists_split hmem
  have he := erase_split hs hb ha
  simp only [payloads, he, hs, filterMap_append, filterMap_cons]
  cases listed.payload with
  | none => exact (zero_add _).symm
  | some pay => exact Multiset.coe_eq_coe.mpr perm_middle

theorem ensureMap_frame (t : Track) (uri : Path) (pool : Pool) :
    (t.ensureMap uri pool).1.SameListing t ∧
    pool.Drops (t.ensureMap uri pool).2 := by
  unfold ensureMap
  split
  · exact ⟨⟨rfl, rfl, rfl, rfl⟩, .refl⟩
  · exact ⟨⟨rfl, rfl, rfl, rfl⟩, .take uri .refl⟩

theorem ensureSegmentMap_frame (t : Track) (mapUri : Option Path) (pool : Pool) :
    (t.ensureSegmentMap mapUri pool).1.SameListing t ∧
    pool.Drops (t.ensureSegmentMap mapUri pool).2 := by
  cases mapUri with
  | none => exact ⟨⟨rfl, rfl, rfl, rfl⟩, .refl⟩
  | some uri => exact t.ensureMap_frame uri pool

theorem takeInit_eq (hash : List UInt8 → UInt64) (t : Track) (uri : Option Path) :
    ∃ maps applied, (t.takeInit hash uri).1 = { t with maps := maps, applied := applied } := by
  unfold takeInit
  split
  · exact ⟨_, _, rfl⟩
  · split
    · exact ⟨_, _, rfl⟩
    · simp only
      split <;> exact ⟨_, _, rfl⟩

def marked (track : Track) (timeline : Option Nat) (clock gap : Bool) (generation : Nat) : Track :=
  { track with
    timelinePending := timeline
    clockPending := clock
    gapPending := gap
    generation := generation }

variable {hash : List UInt8 → UInt64} {pool pool' : Pool} {head : Listed}

theorem pollHead_cases (h : t.pollHead hash k now pool seq head = some (t', pool', rel)) :
    ∃ timeline clock gap gen,
      (t' = (t.removeHead seq).marked timeline clock gap gen ∧ pool' = pool.skip 1 ∧ rel = none ∧
        (t.initReady head.mapUri = true → head.payload = none ∧ t.gapExpired head now = true)) ∨
      ∃ x, t' = ((t.removeHead seq).takeInit hash head.mapUri).1.marked timeline clock gap gen ∧
        pool' = pool ∧
        rel = some x ∧ head.payload = some x.payload ∧ t.initReady head.mapUri = true ∧
        x.rendition = k ∧
        x.sequence = seq ∧ x.epoch = t.epoch ∧
        x.init = ((t.removeHead seq).takeInit hash head.mapUri).2.1 := by
  have hskip : ∃ timeline clock gap gen, (t.removeHead seq).skipDiscontinuity head.discontinuity =
      (t.removeHead seq).marked timeline clock gap gen := by
    unfold skipDiscontinuity
    split <;> exact ⟨_, _, _, _, rfl⟩
  obtain ⟨timeline, clock, gap, gen, hskip⟩ := hskip
  unfold pollHead at h
  simp only [hskip] at h
  split at h
  · next hp =>
    obtain ⟨hgap, h⟩ := ite_none_right_eq_some.mp h
    cases h
    exact ⟨timeline, clock, gap, gen, .inl ⟨rfl, rfl, rfl, fun _ => ⟨hp, hgap⟩⟩⟩
  · next pay hp =>
    split at h
    · next hr =>
      unfold takeReanchor at h
      split at h
      · cases h
        exact ⟨_, _, _, _, .inr ⟨_, rfl, rfl, rfl, hp, hr, rfl, rfl, rfl, rfl⟩⟩
      · split at h <;> cases h <;>
          exact ⟨_, _, _, _, .inr ⟨_, rfl, rfl, rfl, hp, hr, rfl, rfl, rfl, rfl⟩⟩
    · next hr =>
      obtain ⟨-, h⟩ := ite_none_right_eq_some.mp h
      cases h
      exact ⟨timeline, clock, gap, gen, .inl ⟨rfl, rfl, rfl, fun hr' => (hr hr').elim⟩⟩

theorem pollLoop_keeps {P : Track → Pool → List Release → Prop}
    (hstep : ∀ {t pool out next seq head}, P t pool out → t.nextSeq = some next →
      t.listed.first? = some (seq, head) →
      P (t.skipTo pool next seq).1 (t.skipTo pool next seq).2 out ∧ ∀ {t' pool' rel},
        (t.skipTo pool next seq).1.pollHead hash k now (t.skipTo pool next seq).2 seq head =
          some (t', pool', rel) → P t' pool' (out ++ rel.toList)) (h : P t pool out)
    (he : pollLoop hash k now n t pool out = (t', pool', out')) : P t' pool' out' := by
  induction n generalizing t pool out with
  | zero =>
    cases he
    exact h
  | succ n ih =>
    rw [pollLoop] at he
    split at he
    · next next seq head hn hf =>
      obtain ⟨hs, hh⟩ := hstep h hn hf
      simp only at he
      split at he
      · cases he
        exact hs
      · next hp => exact ih (hh hp) he
    · cases he
      exact h

theorem pollTracks_cons (he : Session.pollTracks hash now k (t :: ts) pool out = (ts', pool', out')) :
    ∃ t₁ pool₁ out₁ ts₁, ts' = t₁ :: ts₁ ∧
      pollLoop hash k now t.listed.length t pool out = (t₁, pool₁, out₁) ∧
      Session.pollTracks hash now (k + 1) ts pool₁ out₁ = (ts₁, pool', out') := by
  cases he
  exact ⟨_, _, _, _, rfl, rfl, rfl⟩

end Track

abbrev Uploads := List (Path × List UInt8)

abbrev Listings := List (Nat × Nat × Path)

def Uploaded (uploads : Uploads) (path : Path) (payload : Payload) : Prop :=
  ∃ i : Nat, payload.upload = some i ∧ uploads[i]? = some (path, payload.bytes)

def Release.Earlier (a b : Release) : Prop :=
  a.epoch < b.epoch ∨ (a.epoch = b.epoch ∧ a.sequence < b.sequence)

def Release.Left (r : Release) (track : Track) : Prop :=
  r.epoch < track.epoch ∨ (r.epoch = track.epoch ∧ ∃ next, track.nextSeq = some next ∧
    r.sequence < next)

def releasedPayloads (releases : List Release) : Multiset Payload :=
  (releases.map Release.payload : List Payload)

open Track

structure Consistent (uploads : Uploads) (listings : Listings)
    (releases : List Release) (track : Track)
    (pool : Pool) : Prop where
  held : ∀ h ∈ pool.held, Uploaded uploads h.path h.payload
  listed : ∀ e ∈ track.listed.entries, (track.epoch, e.1, e.2.path) ∈ listings ∧
    ∀ p ∈ e.2.payload, Uploaded uploads e.2.path p
  next : ∀ e ∈ track.listed.entries, e.1 + 1 < u64Size ∧
    ∃ next, track.nextSeq = some next ∧ next ≤ e.1
  left : ∀ r ∈ releases, r.Left track
  sorted : releases.Pairwise Release.Earlier
  sourced : ∀ r ∈ releases, ∃ path, (r.epoch, r.sequence, path) ∈ listings ∧
    Uploaded uploads path r.payload
  once : ((pool.payloads + track.payloads + releasedPayloads releases).filterMap Payload.upload).Nodup

namespace Consistent

variable {ups : Uploads} {lists : Listings} {rels : List Release} {t t' : Track}
  {pool pool' : Pool}

section

variable (h : Consistent ups lists rels t pool)

include h

theorem once_of_le (hle : pays ≤ pool.payloads + t.payloads + releasedPayloads rels) :
    (pays.filterMap upload).Nodup :=
  Multiset.nodup_of_le (Multiset.filterMap_le_filterMap _ hle) h.once

theorem frame (hs : t'.SameListing t)
    (hh : pool'.held.Sublist pool.held) : Consistent ups lists rels t' pool' where
  held x hx := h.held x (hh.subset hx)
  listed := by
    rw [hs.listed, hs.epoch]
    exact h.listed
  next := by
    rw [hs.listed, hs.nextSeq]
    exact h.next
  left r hr := by
    rw [Release.Left, hs.epoch, hs.nextSeq]
    exact h.left r hr
  __ := h
  once := by
    refine h.once_of_le (add_le_add (add_le_add (Pool.payloads_le hh) ?_) le_rfl)
    rw [payloads, hs.listed]
    exact le_rfl

theorem shrink (hh : pool'.held.Sublist pool.held) : Consistent ups lists rels t pool' :=
  h.frame ⟨rfl, rfl, rfl, rfl⟩ hh

theorem setPayload {listed : Listed} (hget : t.listed.get? seq = some listed)
    (hn : listed.payload = none) (hup : Uploaded ups listed.path pay)
    (ho : ((pay ::ₘ (pool.payloads + t.payloads + releasedPayloads rels)).filterMap upload).Nodup) :
    Consistent ups lists rels (t.setPayload seq pay) pool where
  __ := h
  listed e he := by
    obtain ⟨v, hv, hsnd⟩ := mem_modify he
    obtain ⟨hl, hpa⟩ := h.listed (e.1, v) hv
    by_cases hseq : e.1 = seq
    · rw [hsnd, if_pos hseq]
      refine ⟨hl, fun p hp => ?_⟩
      cases hp
      obtain rfl := eq_of_mem (mem_of_get? hget) (hseq ▸ hv)
      exact hup
    · rw [hsnd, if_neg hseq]
      exact ⟨hl, hpa⟩
  next e he := by
    obtain ⟨v, hv, -⟩ := mem_modify he
    exact h.next (e.1, v) hv
  once := by
    rw [payloads_setPayload hget hn, Multiset.add_cons]
    exact ho

theorem taken {held : Held} (hh : pool.held.Perm (held :: pool'.held)) :
    Consistent ups lists rels t pool' ∧ Uploaded ups held.path held.payload ∧
    ((held.payload ::ₘ (pool'.payloads + t.payloads +
      releasedPayloads rels)).filterMap upload).Nodup := by
  have hle : pool'.payloads ≤ pool.payloads := by
    rw [Pool.payloads_perm hh]
    exact Multiset.le_cons_self _ _
  refine ⟨{ h with
      held := fun x hx => h.held x (hh.symm.subset (mem_cons_of_mem _ hx))
      once := h.once_of_le (add_le_add (add_le_add hle le_rfl) le_rfl) },
    h.held held (hh.symm.subset mem_cons_self), ?_⟩
  have ho := h.once
  rw [Pool.payloads_perm hh] at ho
  exact ho

theorem insert (hget : t.listed.get? seq = none) {listed : Listed}
    (hl : (t.epoch, seq, listed.path) ∈ lists)
    (hn : seq + 1 < u64Size ∧ ∃ next, t.nextSeq = some next ∧ next ≤ seq)
    (hup : ∀ p ∈ listed.payload, Uploaded ups listed.path p)
    (ho : (((listed.payload.toList : Multiset Payload) +
      (pool.payloads + t.payloads + releasedPayloads rels)).filterMap upload).Nodup)
        : Consistent ups lists rels { t with listed := t.listed.insert seq listed } pool where
  __ := h
  listed e he := by
    rcases mem_insert.mp he with rfl | ⟨he, -⟩
    · exact ⟨hl, hup⟩
    · exact h.listed e he
  next e he := by
    rcases mem_insert.mp he with rfl | ⟨he, -⟩
    · exact hn
    · exact h.next e he
  once := by
    rw [payloads_insert hget, ← add_assoc, add_comm pool.payloads, add_assoc _ pool.payloads,
      add_assoc]
    exact ho

theorem followSegment (now : Nat) (hl : (t.epoch, seg.sequence, seg.path) ∈ lists)
    (hb : seg.sequence + 1 < u64Size) (hn : t.nextSeq.isSome = true) :
    Consistent ups lists rels (t.followSegment now pool seg).1 (t.followSegment now pool seg).2 ∧
    (t.followSegment now pool seg).1.epoch = t.epoch ∧
    (t.followSegment now pool seg).1.nextSeq = t.nextSeq := by
  unfold Track.followSegment
  split
  · refine ⟨?_, rfl, rfl⟩
    simp only
    split <;> exact h.shrink (pool.takeHeld_sublist seg.path)
  · next hpa =>
    split
    · next listed hget =>
      split
      · next hw =>
        obtain ⟨hno, hpat⟩ := hw
        rcases pool.takeHeld_cases seg.path with ht | ⟨held, pool', ht, hh, hpe, -⟩ <;> rw [ht]
        · exact ⟨h, rfl, rfl⟩
        · obtain ⟨hpo, hup, ho⟩ := h.taken hpe
          refine ⟨hpo.setPayload hget (isNone_iff_eq_none.mp hno) ?_ ho, rfl, rfl⟩
          rw [hpat, ← hh]
          exact hup
      · exact ⟨h, rfl, rfl⟩
    · next hget =>
      obtain ⟨hs, hd⟩ := t.ensureSegmentMap_frame seg.mapUri pool
      have hm := h.frame hs hd.frame.1
      obtain ⟨next, hn⟩ := isSome_iff_exists.mp hn
      have hge : next ≤ seg.sequence := by simpa [hn] using hpa
      generalize t.ensureSegmentMap seg.mapUri pool = mapped at hs hm ⊢
      obtain ⟨t', pool'⟩ := mapped
      simp only at hs hm ⊢
      rw [← hs.epoch] at hl
      rw [← hs.listed] at hget
      rw [← hs.nextSeq] at hn
      rcases pool'.takeHeld_cases seg.path with ht | ⟨held, pool'', ht, hh, hpe, -⟩ <;> rw [ht]
      · refine ⟨hm.insert hget hl ⟨hb, next, hn, hge⟩ (by simp) ?_, hs.epoch, hs.nextSeq⟩
        simpa using hm.once
      · obtain ⟨hpo, hup, ho⟩ := hm.taken hpe
        refine ⟨hpo.insert hget hl ⟨hb, next, hn, hge⟩ ?_ ?_, hs.epoch, hs.nextSeq⟩
        · rintro p hp
          cases hp
          rw [← hh]
          exact hup
        · exact ho

end

theorem followSegments (now : Nat) (h : Consistent ups lists rels t pool)
    (hl : ∀ s ∈ segs, (t.epoch, s.sequence, s.path) ∈ lists)
    (hb : ∀ s ∈ segs, s.sequence + 1 < u64Size)
    (hn : t.nextSeq.isSome = true) : Consistent ups lists rels (followSegments now segs t pool).1
      (followSegments now segs t pool).2 ∧
    (followSegments now segs t pool).1.epoch = t.epoch := by
  induction segs generalizing t pool with
  | nil => exact ⟨h, rfl⟩
  | cons seg segs ih =>
    obtain ⟨hf, he, hseq⟩ := h.followSegment now (hl seg mem_cons_self) (hb seg mem_cons_self) hn
    have hr := ih hf (fun s hs => he.symm ▸ hl s (mem_cons_of_mem _ hs))
      (fun s hs => hb s (mem_cons_of_mem _ hs)) (hseq.symm ▸ hn)
    exact ⟨hr.1, hr.2.trans he⟩

variable (h : Consistent ups lists rels t pool)
include h

theorem append_listings (more : Listings) : Consistent ups (lists ++ more) rels t pool where
  __ := h
  listed e he := ⟨mem_append_left _ (h.listed e he).1, (h.listed e he).2⟩
  sourced r hr := by
    obtain ⟨path, hl, hup⟩ := h.sourced r hr
    exact ⟨path, mem_append_left _ hl, hup⟩

theorem startEpoch (first : Nat) : Consistent ups lists rels (t.startEpoch first) pool where
  __ := h
  listed e he := by cases he
  next e he := by cases he
  left r hr := by
    refine .inl ?_
    have hle : r.epoch ≤ t.epoch := by
      rcases h.left r hr with hlt | ⟨heq, -⟩
      · exact hlt.le
      · exact heq.le
    exact Nat.lt_succ_of_le hle
  once := by
    refine h.once_of_le (add_le_add (add_le_add le_rfl ?_) le_rfl)
    exact Multiset.zero_le _

theorem ensureNext (first : Nat) :
    Consistent ups lists rels { t with nextSeq := some (t.nextSeq.getD first) } pool := by
  cases hn : t.nextSeq with
  | some next =>
    rw [getD_some, ← hn]
    exact h
  | none =>
    refine { h with next := fun e he => ?_, left := fun r hr => ?_ }
    · obtain ⟨-, next, hs, -⟩ := h.next e he
      cases hn.symm.trans hs
    · rcases h.left r hr with hlt | ⟨-, next, hs, -⟩
      · exact .inl hlt
      · cases hn.symm.trans hs

end Consistent

end Restream.Hls
