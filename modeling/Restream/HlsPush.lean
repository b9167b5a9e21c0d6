import Restream.HlsReleases

/-! The steps of a followed track: a playlist is merged into the listing, and the
heads of the listing leave. -/

namespace Restream.Hls

open List Option Track OrderedMap Nat

def MediaPlaylist.Numbered (media : MediaPlaylist) : Prop :=
  ∀ s ∈ media.segments.zipIdx, s.1.sequence = media.mediaSequence + s.2 ∧ s.1.sequence + 1 < u64Size

instance (media : MediaPlaylist) : Decidable media.Numbered :=
  inferInstanceAs (Decidable (∀ s ∈ media.segments.zipIdx, _))

/-- What the last listing tells about everything listed in the epoch. -/
structure Windowed (listings : Listings) (track : Track) : Prop where
  epochs : ∀ l ∈ listings, l.1 ≤ track.epoch
  window : ∀ {s : Nat} {p : Path}, (track.epoch, s, p) ∈ listings → ∃ w, track.window = some w ∧
    s ≤ w.last ∧ (w.mediaSequence ≤ s → w.bySequence.get? s = some p)
  unique : ∀ {e s : Nat} {p p' : Path}, (e, s, p) ∈ listings → (e, s, p') ∈ listings → p = p'

namespace MediaPlaylist.Numbered

variable {media : MediaPlaylist}

variable (h : media.Numbered)
include h

theorem sequence_eq (hi : media.segments[i]? = some s) :
    s.sequence = media.mediaSequence + i ∧ s.sequence + 1 < u64Size :=
  h (s, i) (mk_mem_zipIdx_iff_getElem?.mpr hi)

theorem sorted : media.segments.Pairwise fun a b => a.sequence < b.sequence := by
  rw [pairwise_iff_getElem]
  intro i j hi hj hij
  rw [(h.sequence_eq (getElem?_eq_getElem hi)).1, (h.sequence_eq (getElem?_eq_getElem hj)).1]
  omega

theorem pairwise : media.segments.Pairwise fun a b => a.sequence ≠ b.sequence :=
  h.sorted.imp ne_of_lt

theorem exists_segment (hl : media.segments.getLast? = some last) (hf : media.mediaSequence ≤ s)
    (hle : s ≤ last.sequence) : ∃ seg ∈ media.segments, seg.sequence = s := by
  rw [getLast?_eq_getElem?] at hl
  have hend := (h.sequence_eq hl).1
  obtain ⟨hpos, -⟩ := List.getElem?_eq_some_iff.mp hl
  have hlt : s - media.mediaSequence < media.segments.length := by omega
  have hseq := (h.sequence_eq (getElem?_eq_getElem hlt)).1
  exact ⟨_, getElem_mem hlt, by omega⟩

theorem le_last (hl : media.segments.getLast? = some last) (hs : seg ∈ media.segments) :
    media.mediaSequence ≤ seg.sequence ∧ seg.sequence ≤ last.sequence := by
  rw [getLast?_eq_getElem?] at hl
  have hend := (h.sequence_eq hl).1
  obtain ⟨i, hi⟩ := getElem?_of_mem hs
  have hseq := (h.sequence_eq hi).1
  obtain ⟨hlt, -⟩ := List.getElem?_eq_some_iff.mp hi
  omega

end MediaPlaylist.Numbered

theorem Track.mem_bySequenceOf (hd : segs.Pairwise fun a b => a.sequence ≠ b.sequence)
    (hs : seg ∈ segs) : (bySequenceOf segs).get? seg.sequence = some seg.path := by
  have hk (rest : List SegmentEntry) (map : OrderedMap Nat Path) {s : Nat} {path : Path}
      (hmem : (s, path) ∈ map.entries) (hne : ∀ x ∈ rest, x.sequence ≠ s) :
      (s, path) ∈ (rest.foldl (fun map x => map.insert x.sequence x.path) map).entries := by
    induction rest generalizing map with
    | nil => exact hmem
    | cons x rest ih =>
      refine ih _ (mem_insert.mpr (.inr ⟨hmem, ?_⟩)) fun y hy => hne y (mem_cons_of_mem _ hy)
      exact (hne x mem_cons_self).symm
  have hall (map : OrderedMap Nat Path) : (seg.sequence, seg.path) ∈
      (segs.foldl (fun map x => map.insert x.sequence x.path) map).entries := by
    induction segs generalizing map with
    | nil => cases hs
    | cons x rest ih =>
      obtain ⟨hne, hr⟩ := pairwise_cons.mp hd
      rcases mem_cons.mp hs with rfl | hs
      · exact hk rest _ (mem_insert.mpr (.inl rfl)) fun y hy => (hne y hy).symm
      · exact ih hr hs _
  exact get?_of_mem (hall _)

def MediaPlaylist.entries (media : MediaPlaylist) (epoch : Nat) : Listings :=
  media.segments.map fun s => (epoch, s.sequence, s.path)

namespace Windowed

variable {lists : Listings} {t : Track} {media : MediaPlaylist} {last : SegmentEntry}

def ofPlaylist (media : MediaPlaylist) (last : SegmentEntry) : Window :=
  { mediaSequence := media.mediaSequence
    last := last.sequence
    bySequence := bySequenceOf media.segments }

theorem mem_entries {epoch e : Nat} (h : (e, s, p) ∈ media.entries epoch) :
    e = epoch ∧ ∃ seg ∈ media.segments, seg.sequence = s ∧ seg.path = p := by
  obtain ⟨seg, hs, heq⟩ := mem_map.mp h
  obtain ⟨rfl, rfl, rfl⟩ : epoch = e ∧ seg.sequence = s ∧ seg.path = p := by simpa using heq
  exact ⟨rfl, seg, hs, rfl, rfl⟩

theorem path_eq (hnum : media.Numbered) (ha : a ∈ media.segments) (hb : b ∈ media.segments)
    (h : a.sequence = b.sequence) : a.path = b.path := by
  have hpa := mem_bySequenceOf hnum.pairwise ha
  have hpb := mem_bySequenceOf hnum.pairwise hb
  rw [h, hpb] at hpa
  exact (Option.some.inj hpa).symm

variable (h : Windowed lists t)
include h

theorem agree (hnum : media.Numbered)
    (hl : media.segments.getLast? = some last) (hsa : t.startsNewEpoch media last.sequence = false)
    (hmem : (t.epoch, s, p) ∈ lists) :
    s ≤ last.sequence ∧ ∀ seg ∈ media.segments, seg.sequence = s → seg.path = p := by
  obtain ⟨w, hw, hle, hby⟩ := h.window hmem
  simp only [startsNewEpoch, hw, Bool.or_eq_false_iff, decide_eq_false_iff_not, not_lt,
    List.any_eq_false, Option.any_eq_true, not_exists, not_and, decide_eq_true_eq, not_not] at hsa
  obtain ⟨⟨hf, hend⟩, ha⟩ := hsa
  refine ⟨hle.trans hend, fun seg hs hseq => ?_⟩
  have hge : w.mediaSequence ≤ s := hf.trans (hseq ▸ (hnum.le_last hl hs).1)
  exact (ha seg hs p (hseq ▸ hby hge)).symm

theorem followed (hnum : media.Numbered) (hla : media.segments.getLast? = some last)
    (he : t.epoch ≤ t'.epoch) (hw : t'.window = some (ofPlaylist media last))
    (hag : ∀ {s p}, (t'.epoch, s, p) ∈ lists →
      s ≤ last.sequence ∧ ∀ seg ∈ media.segments, seg.sequence = s → seg.path = p) :
    Windowed (lists ++ media.entries t'.epoch) t' := by
  refine ⟨fun l hl => ?_, fun {s p} hmem => ⟨_, hw, ?_⟩, fun {e s p p'} hp hp' => ?_⟩
  · rcases mem_append.mp hl with hl | hl
    · exact (h.epochs l hl).trans he
    · exact (mem_entries hl).1.le
  · rcases mem_append.mp hmem with hmem | hmem
    · obtain ⟨hle, hpa⟩ := hag hmem
      refine ⟨hle, fun hge => ?_⟩
      obtain ⟨seg, hs, rfl⟩ := hnum.exists_segment hla hge hle
      rw [← hpa seg hs rfl]
      exact mem_bySequenceOf hnum.pairwise hs
    · obtain ⟨-, seg, hs, rfl, rfl⟩ := mem_entries hmem
      exact ⟨(hnum.le_last hla hs).2, fun _ => mem_bySequenceOf hnum.pairwise hs⟩
  · rcases mem_append.mp hp with hp | hp <;> rcases mem_append.mp hp' with hp' | hp'
    · exact h.unique hp hp'
    · obtain ⟨rfl, seg, hs, hseq, rfl⟩ := mem_entries hp'
      exact ((hag hp).2 seg hs hseq).symm
    · obtain ⟨rfl, seg, hs, hseq, rfl⟩ := mem_entries hp
      exact (hag hp').2 seg hs hseq
    · obtain ⟨-, a, ha, hsa, rfl⟩ := mem_entries hp
      obtain ⟨-, b, hb, hsb, rfl⟩ := mem_entries hp'
      exact path_eq hnum ha hb (hsa.trans hsb.symm)

theorem frame (he : t'.epoch = t.epoch)
    (hw : t'.window = t.window) : Windowed lists t' := by
  refine ⟨fun l hl => he ▸ h.epochs l hl, fun {s p} hmem => ?_, h.unique⟩
  rw [he] at hmem
  rw [hw]
  exact h.window hmem

end Windowed

variable {ups : Uploads} {lists : Listings} {rels : List Release} {t : Track} {pool : Pool}

section

variable (h : Consistent ups lists rels t pool)

include h

theorem Consistent.beginListing (media : MediaPlaylist)
    (first last : SegmentEntry) :
    Consistent ups lists rels (t.beginListing media first last pool).1
      (t.beginListing media first last pool).2 ∧
    (t.beginListing media first last pool).1.nextSeq.isSome = true ∧
    (t.beginListing media first last pool).1.epoch =
      if t.startsNewEpoch media last.sequence then t.epoch + 1 else t.epoch := by
  unfold Track.beginListing
  split
  · exact ⟨(h.startEpoch first.sequence).shrink (.refl _), rfl, rfl⟩
  · exact ⟨h.ensureNext first.sequence, rfl, rfl⟩

theorem Consistent.endListing (media : MediaPlaylist)
    (last : SegmentEntry) : Consistent ups lists rels (t.endListing media last) pool :=
  { h with }

variable (hw : Windowed lists t) {media : MediaPlaylist} (hnum : media.Numbered)
include hw hnum

theorem Consistent.followListing (hl : media.segments.getLast? = some last)
    (hf : t.followListing media first last now pool = (t', pool')) :
    Consistent ups (lists ++ media.entries t'.epoch) rels t' pool' ∧
    Windowed (lists ++ media.entries t'.epoch) t' := by
  obtain ⟨hb, hn, he⟩ := h.beginListing media first last
  have hbo : ∀ s ∈ media.segments, s.sequence + 1 < u64Size := by
    intro s hs
    obtain ⟨i, hi⟩ := getElem?_of_mem hs
    exact (hnum.sequence_eq hi).2
  unfold Track.followListing at hf
  generalize t.beginListing media first last pool = begun at hb hn he hf
  obtain ⟨begun, pool'⟩ := begun
  cases hf
  obtain ⟨hc, hsa⟩ := (hb.append_listings (media.entries begun.epoch)).followSegments now
    (fun s hs => mem_append_right _ (mem_map.mpr ⟨s, hs, rfl⟩)) hbo hn
  rw [← hsa] at hc he
  refine ⟨hc.endListing media last, ?_⟩
  by_cases hnew : t.startsNewEpoch media last.sequence = true
  · rw [if_pos hnew] at he
    refine hw.followed hnum hl (le_of_lt (lt_of_succ_le he.ge)) rfl fun hmem => ?_
    exact absurd (he.ge.trans (hw.epochs _ hmem)) (not_succ_le_self _)
  · rw [if_neg hnew] at he
    exact hw.followed hnum hl he.ge rfl fun hmem => hw.agree hnum hl (by simpa using hnew) (he ▸ hmem)

theorem Consistent.onFollowed (hf : t.onFollowed media now pool = (t', pool')) :
    Consistent ups (lists ++ media.entries t'.epoch) rels t' pool' ∧
    Windowed (lists ++ media.entries t'.epoch) t' := by
  unfold Track.onFollowed at hf
  obtain ⟨hse, hd⟩ := ensureSegmentMap_frame { t with
    playlistSeen := true, currentMap := media.mapUri, target :=
      some media.targetDuration } media.mapUri pool
  have hsa : Track.SameListing _ t := { hse with }
  have hc := h.frame hsa hd.frame.1
  have hw := hw.frame hsa.epoch hsa.window
  split at hf
  · next hl => exact hc.followListing hw hnum hl hf
  · next he =>
    cases hf
    have hnil : media.segments = [] := by
      cases hs : media.segments with
      | nil => rfl
      | cons first rest =>
        exact (he first _ (by rw [hs]; rfl) (by rw [hs]; exact getLast?_cons)).elim
    simp only [MediaPlaylist.entries, hnil, map_nil, append_nil]
    exact ⟨hc.frame ⟨rfl, rfl, rfl, rfl⟩ (.refl _), hw.frame rfl rfl⟩

end

namespace Consistent

variable {seq : Nat} {head : Listed}

section

variable (h : Consistent ups lists rels t pool)

include h

section

variable (hf : t.listed.first? = some (seq, head))

include hf

theorem removeHead (hn : t.nextSeq = some seq) :
    Consistent ups lists rels (t.removeHead seq) pool := by
  have hmem := mem_of_first? hf
  have hs : checkedSucc seq = some (seq + 1) := if_pos (h.next _ hmem).1
  refine ⟨h.held, fun e he => ?_, fun e he => ?_, fun r hr => ?_, h.sorted, h.sourced, ?_⟩
  · exact h.listed e (mem_erase.mp he).1
  · obtain ⟨he, hne⟩ := mem_erase.mp he
    have hle : seq ≤ e.1 := first?_le hf he
    exact ⟨(h.next e he).1, seq + 1, hs, by omega⟩
  · rcases h.left r hr with hlt | ⟨heq, next, hso, hlt⟩
    · exact .inl hlt
    · obtain rfl := Option.some.inj (hn.symm.trans hso)
      exact .inr ⟨heq, seq + 1, hs, lt_succ_of_lt hlt⟩
  · refine h.once_of_le (add_le_add (add_le_add le_rfl ?_) le_rfl)
    rw [payloads_erase hmem]
    exact Multiset.le_add_left _ _

theorem release (hn : t.nextSeq = some seq) (he : r.epoch = t.epoch) (hseq : r.sequence = seq)
    (hp : head.payload = some r.payload) :
    Consistent ups lists (rels ++ [r]) (t.removeHead seq) pool := by
  have hmem := mem_of_first? hf
  have hr := h.removeHead hf hn
  have hsu : checkedSucc seq = some (seq + 1) := if_pos (h.next _ hmem).1
  refine ⟨hr.held, hr.listed, hr.next, fun x hx => ?_, ?_, fun x hx => ?_, ?_⟩
  · rcases mem_append.mp hx with hx | hx
    · exact hr.left x hx
    · obtain rfl := mem_singleton.mp hx
      exact .inr ⟨he, seq + 1, hsu, hseq ▸ Nat.lt_succ_self _⟩
  · refine pairwise_append.mpr ⟨h.sorted, pairwise_singleton _ _, fun x hx y hy => ?_⟩
    obtain rfl := mem_singleton.mp hy
    rcases h.left x hx with hlt | ⟨heq, next, hs, hlt⟩
    · exact .inl (he ▸ hlt)
    · obtain rfl := Option.some.inj (hn.symm.trans hs)
      exact .inr ⟨heq.trans he.symm, hseq ▸ hlt⟩
  · rcases mem_append.mp hx with hx | hx
    · exact h.sourced x hx
    · obtain rfl := mem_singleton.mp hx
      obtain ⟨hl, hup⟩ := h.listed _ hmem
      exact ⟨head.path, by rw [he, hseq]; exact hl, hup _ hp⟩
  · refine h.once_of_le (le_of_eq ?_)
    have hre : releasedPayloads (rels ++ [r]) = {r.payload} + releasedPayloads rels := by
      rw [releasedPayloads, map_append, add_comm]
      rfl
    rw [payloads_erase hmem, hp, hre, ← add_assoc, add_assoc pool.payloads,
      add_comm (t.removeHead seq).payloads]
    rfl

theorem skipTo {next : Nat} (hn : t.nextSeq = some next) :
    Consistent ups lists rels (t.skipTo pool next seq).1 (t.skipTo pool next seq).2 ∧
    (t.skipTo pool next seq).1.listed = t.listed ∧
    (t.skipTo pool next seq).1.nextSeq = some seq ∧
    (t.skipTo pool next seq).1.epoch = t.epoch ∧
    (t.skipTo pool next seq).1.window = t.window := by
  obtain ⟨-, next', hs, hle⟩ := h.next _ (mem_of_first? hf)
  obtain rfl := Option.some.inj (hn.symm.trans hs)
  unfold Track.skipTo
  split
  · refine ⟨⟨h.held, h.listed, fun e he => ?_, fun r hr => ?_, h.sorted, h.sourced, h.once⟩,
      rfl, rfl, rfl, rfl⟩
    · exact ⟨(h.next e he).1, seq, rfl, first?_le hf he⟩
    · rcases h.left r hr with hlt | ⟨heq, next, hs, hlt⟩
      · exact .inl hlt
      · obtain rfl := Option.some.inj (hn.symm.trans hs)
        exact .inr ⟨heq, seq, rfl, hlt.trans_le hle⟩
  · next hge =>
    have heq : next = seq := le_antisymm hle (not_lt.mp hge)
    exact ⟨h, rfl, heq ▸ hn, rfl, rfl⟩

end

theorem pollHead
    (hfi : t.listed.first? = some (seq, head)) (hn : t.nextSeq = some seq)
    {hash : List UInt8 → UInt64} {k now : Nat} {t' : Track} {pool' : Pool} {rel : Option Release}
    (he : t.pollHead hash k now pool seq head = some (t', pool', rel)) :
    Consistent ups lists (rels ++ rel.toList) t' pool' ∧
    t'.epoch = t.epoch ∧ t'.window = t.window := by
  obtain ⟨timeline, clock, gap, gen, hl | hr⟩ := pollHead_cases he
  · obtain ⟨rfl, rfl, rfl, -⟩ := hl
    rw [toList_none, append_nil]
    exact ⟨(h.removeHead hfi hn).frame ⟨rfl, rfl, rfl, rfl⟩ (.refl _), rfl, rfl⟩
  · obtain ⟨x, rfl, rfl, rfl, hp, -, -, hseq, hep, -⟩ := hr
    obtain ⟨maps, applied, hi⟩ := takeInit_eq hash (t.removeHead seq) head.mapUri
    rw [hi]
    exact ⟨(h.release hfi hn hep hseq hp).frame ⟨rfl, rfl, rfl, rfl⟩ (.refl _), rfl, rfl⟩

end

theorem pollLoop {hash : List UInt8 → UInt64} (h : Consistent ups lists rels t pool)
    (hl : pollLoop hash k now n t pool rels = (t', pool', out)) :
    Consistent ups lists out t' pool' ∧ t'.epoch = t.epoch ∧ t'.window = t.window := by
  refine pollLoop_keeps (P := fun t' pool' out =>
    Consistent ups lists out t' pool' ∧ t'.epoch = t.epoch ∧ t'.window = t.window) ?_ ⟨h, rfl, rfl⟩ hl
  rintro t' pool' out next seq head ⟨hc, he, hw⟩ hn hf
  obtain ⟨hs, hl, hn', hep, hwin⟩ := hc.skipTo hf hn
  refine ⟨⟨hs, hep.trans he, hwin.trans hw⟩, fun {_ _ _} hpo => ?_⟩
  obtain ⟨hh, he', hw'⟩ := hs.pollHead (hl ▸ hf) hn' hpo
  exact ⟨hh, he'.trans (hep.trans he), hw'.trans (hwin.trans hw)⟩

variable (h : Consistent ups lists rels t pool)
include h

theorem fresh (hpa : pay.upload = some ups.length) :
    ((pay ::ₘ (pool.payloads + t.payloads +
      releasedPayloads rels)).filterMap Payload.upload).Nodup := by
  have hold {path : Path} {p : Payload} (hup : Uploaded ups path p) : p.upload ≠ some ups.length := by
    obtain ⟨i, hi, hget⟩ := hup
    obtain ⟨hlt, -⟩ := List.getElem?_eq_some_iff.mp hget
    rw [hi]
    exact fun heq => Nat.ne_of_lt hlt (Option.some.inj heq)
  rw [Multiset.filterMap_cons_some _ _ _ hpa, Multiset.nodup_cons]
  refine ⟨fun hmem => ?_, h.once⟩
  obtain ⟨p, hp, hn⟩ := (Multiset.mem_filterMap _ _).mp hmem
  rw [Multiset.mem_add, Multiset.mem_add] at hp
  rcases hp with (hp | hp) | hp
  · obtain ⟨x, hx, rfl⟩ := mem_map.mp (Multiset.mem_coe.mp hp)
    exact hold (h.held x hx) hn
  · obtain ⟨e, he, hs⟩ := mem_filterMap.mp (Multiset.mem_coe.mp hp)
    exact hold ((h.listed e he).2 p hs) hn
  · obtain ⟨r, hr, rfl⟩ := mem_map.mp (Multiset.mem_coe.mp hp)
    obtain ⟨path, -, hup⟩ := h.sourced r hr
    exact hold hup hn

theorem append_uploads (more : Uploads) : Consistent (ups ++ more) lists rels t pool := by
  have hm {path : Path} {p : Payload} (hup : Uploaded ups path p) : Uploaded
      (ups ++ more) path p := by
    obtain ⟨i, hi, hget⟩ := hup
    obtain ⟨hlt, -⟩ := List.getElem?_eq_some_iff.mp hget
    exact ⟨i, hi, (List.getElem?_append_left hlt).trans hget⟩
  refine { h with held := fun x hx => hm (h.held x hx), listed := fun e he => ?_, sourced := fun r hr => ?_ }
  · exact ⟨(h.listed e he).1, fun p hp => hm ((h.listed e he).2 p hp)⟩
  · obtain ⟨path, hl, hup⟩ := h.sourced r hr
    exact ⟨path, hl, hm hup⟩

theorem hold {path : Path} (hup : Uploaded ups path pay)
    (ho : ((pay ::ₘ (pool.payloads + t.payloads +
      releasedPayloads rels)).filterMap Payload.upload).Nodup) :
    Consistent ups lists rels t (pool.hold path pay now) := by
  unfold Pool.hold
  have ht := h.shrink (pool.takeHeld_sublist path)
  have hle := Pool.payloads_le (pool.takeHeld_sublist path)
  generalize (pool.takeHeld path).1 = pool' at ht hle ⊢
  refine Consistent.shrink ?_ (Pool.evictOver_drops _ _).frame.1
  refine { ht with held := fun x hx => ?_, once := ?_ }
  · rcases mem_append.mp hx with hx | hx
    · exact ht.held x hx
    · obtain rfl := mem_singleton.mp hx
      exact hup
  · refine Multiset.nodup_of_le (Multiset.filterMap_le_filterMap _ ?_) ho
    have hadd : Pool.payloads { pool' with
        held := pool'.held ++ [{ path := path, payload := pay, at' := now }]
        heldBytes := pool'.heldBytes + pay.length } = pay ::ₘ pool'.payloads := by
      rw [Pool.payloads, map_append, ← Multiset.coe_add, add_comm]
      rfl
    rw [hadd]
    exact Multiset.cons_le_cons _ (add_le_add (add_le_add hle le_rfl) le_rfl)

end Consistent

end Restream.Hls
