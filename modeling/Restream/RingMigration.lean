import Restream.RingChain

/-! A reader that is never lapped returns every packet from its start on, once
and in order, whichever ring of the chain holds it. -/

namespace Restream

open List Option RingBuffer Reader Nat Exec

namespace RingChain

variable {c d : RingChain} {x : ChainReader}

theorem published_append {start mid stop : Nat} (h : start ≤ mid) (h' : mid ≤ stop) :
    c.published start stop = c.published start mid ++ c.published mid stop := by
  have ht : c.log.take stop = c.log.take mid ++ (c.log.take stop).drop mid := by
    have hs := take_append_drop mid (c.log.take stop)
    rw [take_take, min_eq_left h'] at hs
    exact hs.symm
  unfold published
  rcases le_total mid c.log.length with hle | hge
  · rw [ht, drop_append_of_le_length (by simpa [h] using h.trans hle), ← ht]
  · rw [take_of_length_le hge, take_of_length_le (hge.trans h'), drop_of_length_le hge, append_nil]

theorem Grows.published (h : Grows c d) {start stop : Nat} (hs : stop ≤ c.log.length) :
    d.published start stop = c.published start stop := by
  obtain ⟨more, hlog⟩ := h.log
  unfold RingChain.published
  rw [← hlog, take_append_of_le_length hs]

structure Positioned (c : RingChain) (rd : Reader) (r : RingBuffer) : Prop where
  ring : c.ring rd.buffer = some r
  oldest_le : c.oldest rd.buffer ≤ rd.readIdx
  le : rd.readIdx ≤ r.writeIdx

structure Follows (c : RingChain) (x : ChainReader) : Prop where
  positioned : ∃ r, c.Positioned x.reader r
  start_le : x.start ≤ x.reader.readIdx
  awaiting : x.reader.awaitingKeyframe = false
  preroll : x.reader.migrationPrerollPackets = 0
  failed : x.failed = false
  returned : x.returned = c.published x.start x.reader.readIdx

theorem Follows.grow (h : c.Follows x) (hc : c.Linked) (hg : Grows c d) : d.Follows x := by
  obtain ⟨r, hpos⟩ := h.positioned
  obtain ⟨hold, r', hr', hle⟩ := hg.ring hpos.ring
  have hlen : x.reader.readIdx ≤ c.log.length := hpos.le.trans (hc.writeIdx_le hpos.ring)
  refine { h with positioned := ⟨r', hr', hold ▸ hpos.oldest_le, hpos.le.trans hle⟩, returned := ?_ }
  rw [h.returned, hg.published hlen]

theorem Positioned.readsFrom (h : c.Positioned rd r) (hc : c.Linked)
    (hlag : r.writeIdx - rd.readIdx < r.capacity) :
    ReadsFrom r (c.log.take r.writeIdx) rd.readIdx := by
  have hq := hc.quiet h.ring
  have hw := hq.writeIdx
  exact hq.readsFrom h.oldest_le (hw ▸ h.le) (hw ▸ hlag)

theorem lag_of_not_lapsReader (hr : c.ring rd.buffer = some r) (h : c.lapsReader rd = false) :
    r.writeIdx - rd.readIdx < r.capacity := by
  simpa [lapsReader, hr] using h

theorem Positioned.readRun (hpos : c.Positioned rd r) (hc : c.Linked)
    (hlag : r.writeIdx - rd.readIdx < r.capacity) (haw : rd.awaitingKeyframe = false)
    (run : ReadRun r rd rd' sk ret) (hend : rd'.readIdx ≤ r.writeIdx) :
    rd.readIdx ≤ rd'.readIdx ∧ rd'.awaitingKeyframe = false ∧
      ret = c.published rd.readIdx rd'.readIdx := by
  have hat := hpos.readsFrom hc hlag
  have hw := hat.writeIdx
  have hidx := run.readIdx
  have hsk : sk = [] := by
    cases sk with
    | nil => rfl
    | cons p ps =>
      have hno := (run.skips p mem_cons_self).1
      rw [haw] at hno
      cases hno
  subst hsk
  simp only [length_nil, add_zero] at hidx
  have hs := run.slice
  rw [nil_append] at hs
  have hd := hat.slice_eq hs (by omega)
  refine ⟨by omega, by rw [run.awaiting, haw, awaitingAfter_false], ?_⟩
  have ht := congrArg (take ret.length) hd
  rw [take_left, take_drop, take_take, min_eq_left (by omega), ← hidx] at ht
  exact ht.symm

theorem Follows.run (h : c.Follows x) (hc : c.Linked) (hpos : c.Positioned x.reader r)
    (hlag : r.writeIdx - x.reader.readIdx < r.capacity) (run : ReadRun r x.reader rd' sk ret)
    (hend : rd'.readIdx ≤ r.writeIdx) :
    c.Follows { x with reader := rd', returned := x.returned ++ ret } := by
  obtain ⟨hle, haw, hret⟩ := hpos.readRun hc hlag h.awaiting run hend
  refine ⟨⟨r, ?_, ?_, hend⟩, h.start_le.trans hle, haw, run.preroll.trans h.preroll, h.failed, ?_⟩
  · simp only [run.buffer, hpos.ring]
  · simp only [run.buffer]
    exact hpos.oldest_le.trans hle
  · rw [h.returned, hret, ← published_append h.start_le hle]

theorem Positioned.waitForData (hpos : c.Positioned rd r) (hc : c.Linked)
    (hpre : rd.migrationPrerollPackets = 0) (hfu : c.older.length - rd.buffer < fuel) :
    ∃ id r' ready, rd.waitForData c.ring fuel = some ({ rd with buffer := id }, ready) ∧
      c.Positioned { rd with buffer := id } r' ∧
      (rd.readIdx < c.log.length → ready = true ∧ rd.readIdx < r'.writeIdx) := by
  induction fuel generalizing rd r with
  | zero => omega
  | succ fuel ih =>
    by_cases hlt : rd.readIdx < r.writeIdx
    · exact ⟨rd.buffer, r,
        true, by simp [Reader.waitForData, hpos.ring, hlt], hpos, fun _ => ⟨rfl, hlt⟩⟩
    · have hw : rd.readIdx = r.writeIdx := Nat.le_antisymm hpos.le (Nat.le_of_not_lt hlt)
      rcases ring_cases hpos.ring with hold | ⟨hid, rfl⟩
      · obtain ⟨hn, hf, hle⟩ := hc.links hold
        have hlen := (List.getElem?_eq_some_iff.mp hold).1
        obtain ⟨r', hr'⟩ : ∃ r', c.ring (rd.buffer + 1) = some r' := by
          refine ⟨_, getElem?_eq_getElem (lt_of_le_of_lt hlen ?_)⟩
          simp
        have hm : rd.migrateTo (rd.buffer + 1) r' = { rd with buffer := rd.buffer + 1 } := by
          simp [migrateTo, hpre]
        have hpos' : c.Positioned { rd with buffer := rd.buffer + 1 } r' :=
          ⟨hr', hf.trans hw.ge, hw.le.trans (hle r' hr')⟩
        obtain ⟨id, r'', ready, hwa, hr⟩ := ih hpos' hpre (by simp only; omega)
        refine ⟨id, r'', ready, ?_, hr⟩
        simp [Reader.waitForData, hpos.ring, hlt, hn, hr', hm, hwa]
      · refine ⟨rd.buffer, c.newest, c.newest.endOfStream, ?_, hpos, fun hmo => ?_⟩
        · simp [Reader.waitForData, hpos.ring, hlt, hc.newest_next]
        · rw [hw, hc.newest_writeIdx] at hmo
          exact absurd hmo (lt_irrefl _)

theorem attach_positioned (hc : c.Linked) {id : Nat} (hr : c.ring id = some r)
    (hh : c.PrerollHeld (.attach id how)) :
    c.oldest id ≤ (how.reader id r).readIdx ∧ (how.reader id r).readIdx ≤ r.writeIdx := by
  have hq := hc.quiet hr
  have hw := hq.writeIdx
  have hfi := hq.holds.first_le
  have hff : c.oldest id ≤ r.fastForward r.writeIdx ∧ r.fastForward r.writeIdx ≤ r.writeIdx := by
    rcases hq.holds.fastForward_cases r.writeIdx with ⟨hf, hlt, -, -⟩ | heq
    · exact ⟨hf, by omega⟩
    · exact ⟨hfi.trans heq.ge, heq.le⟩
  have hpre (n : Nat) : prerollStart r n ≤ r.writeIdx := by
    unfold prerollStart
    simp only
    split <;> omega
  cases how with
  | new => exact hff
  | live => exact ⟨hfi, le_rfl⟩
  | keyframePreroll n => exact ⟨hh id n rfl r hr, hpre n⟩
  | stageInput =>
    refine ⟨?_, hpre 0⟩
    change c.oldest id ≤ prerollStart r 0
    unfold prerollStart
    dsimp only
    split
    · exact le_max_of_le_left hff.1
    · exact hff.1

theorem attach_reader (id : RingId) (r : RingBuffer) (how : Attach) :
    (how.reader id r).buffer = id ∧ (how.reader id r).awaitingKeyframe = false ∧
      (how.reader id r).migrationPrerollPackets = 0 := by
  cases how <;> exact ⟨rfl, rfl, rfl⟩

structure Inv (c : RingChain) : Prop where
  linked : c.Linked
  follows : ∀ x ∈ c.readers, x.lapped = false → c.Follows x ∧ c.lapsReader x.reader = false

theorem Inv.noteLag (hc : c.Linked) (hf : ∀ x ∈ c.readers, x.lapped = false → c.Follows x) :
    c.noteLag.Inv := by
  refine ⟨{ hc with }, fun x hx hlap => ?_⟩
  obtain ⟨y, hy, rfl⟩ := mem_map.mp hx
  simp only [Bool.or_eq_false_iff] at hlap
  have hy := hf y hy hlap.1
  obtain ⟨r, hpos⟩ := hy.positioned
  exact ⟨{ hy with positioned := ⟨r, { hpos with }⟩ }, hlap.2⟩

theorem Follows.congr (h : c.Follows x) (hol : d.older = c.older) (hn : d.newest = c.newest)
    (ho : d.oldest = c.oldest) (hlog : d.log = c.log) : d.Follows x := by
  obtain ⟨r, hpos⟩ := h.positioned
  refine { h with positioned := ⟨r, ?_, ho ▸ hpos.oldest_le, hpos.le⟩, returned := ?_ }
  · rw [ring, hol, hn]
    exact hpos.ring
  · rw [h.returned, published, published, hlog]

theorem Inv.setReader (h : c.Inv) (hx : c.readers[i]? = some x) (hlap : y.lapped = x.lapped)
    (hy : c.Follows x → c.lapsReader x.reader = false → c.Follows y) :
    (c.setReader i y).noteLag.Inv := by
  refine Inv.noteLag { h.linked with } fun z hz hzl => ?_
  have hmem := mem_of_getElem? hx
  rcases mem_or_eq_of_mem_set hz with hz | rfl
  · exact (h.follows z hz hzl).1.congr rfl rfl rfl rfl
  · obtain ⟨hfx, hlag⟩ := h.follows x hmem (hlap ▸ hzl)
    exact (hy hfx hlag).congr rfl rfl rfl rfl

theorem Inv.grow (h : c.Inv) (hd : d.Linked) (hg : Grows c d) : d.noteLag.Inv := by
  refine Inv.noteLag hd fun x hx hlap => ?_
  rw [hg.readers] at hx
  exact (h.follows x hx hlap).1.grow h.linked hg

theorem Inv.publish (h : c.Inv) {newest : RingBuffer}
    (hq : RingQuiet newest (c.log ++ ps) (c.oldest c.older.length)) (hn : newest.next = none) :
    (RingChain.noteLag { c with newest := newest, log := c.log ++ ps }).Inv := by
  obtain ⟨hd, hg⟩ := h.linked.publish hq hn
  exact h.grow hd hg

theorem Inv.configure (h : c.Inv) (cs : TrackConfigs) (endOfStream : Bool) :
    (RingChain.noteLag { c with newest :=
      { c.newest with trackConfigs := cs, endOfStream := endOfStream } }).Inv := by
  have hq := h.linked.quiet_newest.withConfigs cs endOfStream c.newest.next
  rw [← append_nil c.log] at hq
  have hpub := h.publish hq h.linked.newest_next
  rwa [append_nil] at hpub

section
variable (hf : c.Follows x) (hlag : c.lapsReader x.reader = false) (hc : c.Linked)
  {r : RingBuffer} (hr : c.ring x.reader.buffer = some r)
include hf hlag hc hr

theorem Follows.pull (hpull : x.reader.pull r = some (rd, res)) :
    ∃ p, res = .ok p ∧ c.Follows { x with reader := rd, returned := x.returned ++ p.toList } := by
  obtain ⟨r', hpos⟩ := hf.positioned
  obtain rfl : r' = r := Option.some.inj (hpos.ring.symm.trans hr)
  have hlt := lag_of_not_lapsReader hr hlag
  have hat := hpos.readsFrom hc hlt
  obtain ⟨rd', sk, p, hp, run, hend, -⟩ := hat.pull
  obtain ⟨rfl, rfl⟩ := Prod.mk.inj (Option.some.inj (hpull.symm.trans hp))
  exact ⟨p, rfl, hf.run hc hpos hlt run (hat.writeIdx ▸ hend)⟩

theorem Follows.pullBurst (maxP : Nat) :
    ∃ rd loaded n, x.reader.pullBurst r x.returned maxP = (rd, x.returned ++ loaded, .ok n) ∧
      c.Follows { x with reader := rd, returned := x.returned ++ loaded } := by
  obtain ⟨r', hpos⟩ := hf.positioned
  obtain rfl : r' = r := Option.some.inj (hpos.ring.symm.trans hr)
  have hlt := lag_of_not_lapsReader hr hlag
  have hat := hpos.readsFrom hc hlt
  obtain ⟨rd, sk, loaded, hb, run, hend, -⟩ := hat.pullBurst x.returned maxP
  exact ⟨rd, loaded, _, hb, hf.run hc hpos hlt run (hat.writeIdx ▸ hend)⟩

end

theorem Inv.step (h : c.Inv) (hh : c.PrerollHeld e) (hs : c.step e = some d) : d.Inv := by
  obtain ⟨mid, hact, rfl⟩ := map_eq_some_iff.mp hs
  have hq := h.linked.quiet_newest
  cases e with
  | push p =>
    cases hact
    have hpu : c.newest.push p = c.newest.pushBatch [p] := by
      rw [push, pushStores_eq_pushBatchStores, pushBatch]
    rw [hpu]
    exact h.publish (hq.pushBatch [p]) ((pushBatch_next _ _).trans h.linked.newest_next)
  | pushBatch ps =>
    cases hact
    exact h.publish (hq.pushBatch ps) ((pushBatch_next _ _).trans h.linked.newest_next)
  | setTrackConfig mt ti bs =>
    cases hact
    have hset : (c.newest.setTrackConfig mt ti bs).1 = { c.newest with
        trackConfigs := (c.newest.setTrackConfig mt ti bs).1.trackConfigs
        endOfStream := c.newest.endOfStream } := by
      rw [setTrackConfig]
      split <;> rfl
    rw [hset]
    exact h.configure _ _
  | clearTrackConfig | markEndOfStream =>
    cases hact
    exact h.configure _ _
  | resize cap =>
    obtain ⟨hd, hg⟩ := h.linked.resize hact
    exact h.grow hd hg
  | attach id how =>
    simp only [act, Option.bind_eq_bind, Option.bind_eq_some_iff,
      Option.pure_def, Option.some.injEq] at hact
    obtain ⟨r, hr, rfl⟩ := hact
    obtain ⟨hfi, hle⟩ := attach_positioned h.linked hr hh
    obtain ⟨hbuf, haw, hpre⟩ := attach_reader id r how
    refine Inv.noteLag { h.linked with } fun x hx hlap => ?_
    rcases mem_append.mp hx with hx | hx
    · exact (h.follows x hx hlap).1.congr rfl rfl rfl rfl
    · obtain rfl := mem_singleton.mp hx
      refine ⟨⟨r, ?_, ?_, hle⟩, le_rfl, haw, hpre, rfl, ?_⟩
      · rw [hbuf]
        exact hr
      · rw [hbuf]
        exact hfi
      · simp [published]
  | waitForData i =>
    simp only [act, Option.bind_eq_bind, Option.bind_eq_some_iff,
      Option.pure_def, Option.some.injEq] at hact
    obtain ⟨x, hx, ⟨rd, ready⟩, hw, rfl⟩ := hact
    refine h.setReader hx rfl fun hf _ => ?_
    obtain ⟨r, hpos⟩ := hf.positioned
    obtain ⟨id, r', ready', hw', hpos', -⟩ :=
      hpos.waitForData h.linked hf.preroll (lt_succ_of_le (sub_le _ _))
    obtain ⟨rfl, -⟩ := Prod.mk.inj (Option.some.inj (hw.symm.trans hw'))
    exact { hf with positioned := ⟨r', hpos'⟩ }
  | pull i =>
    simp only [act, bind_eq_bind, bind_eq_some_iff] at hact
    obtain ⟨x, hx, r, hr, ⟨rd, res⟩, hp, hact⟩ := hact
    cases res with
    | ok | error =>
      cases hact
      refine h.setReader hx rfl fun hf hlag => ?_
      obtain ⟨p', hok, hf'⟩ := hf.pull hlag h.linked hr hp
      cases hok <;> exact hf'
  | pullBurst i maxP =>
    simp only [act, bind_eq_bind, bind_eq_some_iff] at hact
    obtain ⟨x, hx, r, hr, hact⟩ := hact
    rcases hburst : x.reader.pullBurst r x.returned maxP with ⟨rd, ret, res⟩
    rw [hburst] at hact
    cases res with
    | ok | error =>
      cases hact
      refine h.setReader hx rfl fun hf hlag => ?_
      obtain ⟨rd', loaded, n', hb', hf'⟩ := hf.pullBurst hlag h.linked hr maxP
      rw [hburst] at hb'
      cases hb' <;> exact hf'

/-- `waitForData` returns on a ring, and unless that ring has lapped the reader
the next `pull` returns the packet at the read position and every `pullBurst`
some packets from there on. -/
def ReadsNext (c : RingChain) (rd : Reader) : Prop :=
  ∃ rd' r, rd.waitForData c.ring (c.older.length + 1) = some (rd', true) ∧
    c.ring rd'.buffer = some r ∧
    (r.writeIdx - rd'.readIdx < r.capacity →
      (∃ rd'', rd'.pull r = some (rd'', .ok c.log[rd.readIdx]?)) ∧
      ∀ maxPackets, 0 < maxPackets → ∃ rd'' n, rd.readIdx < rd''.readIdx ∧
        rd'.pullBurst r [] maxPackets = (rd'', c.published rd.readIdx rd''.readIdx, .ok n))

theorem getElem?_published {start stop : Nat} (h : start < stop) :
    (c.published start stop)[0]? = c.log[start]? := by
  rw [published, getElem?_drop, add_zero, getElem?_take_of_lt h]

theorem Follows.readsNext (h : c.Follows x) (hc : c.Linked) (hmo : x.reader.readIdx < c.log.length) :
    c.ReadsNext x.reader := by
  obtain ⟨r, hpos⟩ := h.positioned
  obtain ⟨id, r', ready, hwa, hpos', hr⟩ :=
    hpos.waitForData hc h.preroll (lt_succ_of_le (sub_le _ _))
  obtain ⟨rfl, hlt⟩ := hr hmo
  refine ⟨_, r', hwa, hpos'.ring, fun hlag => ?_⟩
  have hat := hpos'.readsFrom hc hlag
  have hw := hat.writeIdx
  constructor
  · obtain ⟨rd'', sk, pkt, hp, run, hend, hm⟩ := hat.pull
    rw [← hw] at hend
    obtain ⟨-, -, hret⟩ := hpos'.readRun hc hlag h.awaiting run hend
    have hlt' : x.reader.readIdx < rd''.readIdx := by
      cases pkt with
      | none => exact hlt.trans_le (hw.trans hm.symm).le
      | some p => exact hm
    have hf := getElem?_published (c := c) hlt'
    rw [← hret] at hf
    refine ⟨rd'', ?_⟩
    rw [hp, ← hf]
    cases pkt <;> rfl
  · intro maxP hmax
    obtain ⟨rd'', sk, loaded, hb, run, hend, hm⟩ := hat.pullBurst [] maxP
    rw [← hw] at hend
    obtain ⟨-, -, hret⟩ := hpos'.readRun hc hlag h.awaiting run hend
    exact ⟨rd'', loaded.length, hm hmax (hw ▸ hlt), hret ▸ hb⟩

/-- Resizes are invisible: a reader that attached inside what its ring holds and
was never lapped has returned exactly the packets from its start to its
position, goes on to return the rest, and lookups of a copied sequence give the
answers they gave before the resize. -/
theorem resize_invisible (capacity : Nat) (h : 0 < capacity) :
    (∀ c : RingChain, Reachable step PrerollHeld (start capacity h) c →
      ∀ x ∈ c.readers, x.lapped = false →
        x.failed = false ∧ x.start ≤ x.reader.readIdx ∧ x.reader.readIdx ≤ c.log.length ∧
        x.returned = c.published x.start x.reader.readIdx ∧
        (x.reader.readIdx < c.log.length → c.ReadsNext x.reader)) ∧
    (∀ old : RingBuffer, old.capacity < capacity → ∀ s packet,
        (newContinuing capacity h old.writeIdx).seedStart old ≤ s →
        s < old.writeIdx → old.readAt s = some packet →
        (old.resized capacity h).frameUnit s = old.frameUnit s ∧
        (old.resized capacity h).trackConfigAt s packet.mediaType packet.trackIndex =
          old.trackConfigAt s packet.mediaType packet.trackIndex) := by
  constructor
  · intro c hreach x hx hlap
    have hstart : (start capacity h).Inv := ⟨start_linked capacity h, by simp [start]⟩
    have hinv := Reachable.invariant Inv (fun c e d hc hg he => hc.step hg he) hstart hreach
    obtain ⟨hf, -⟩ := hinv.follows x hx hlap
    obtain ⟨r, hpos⟩ := hf.positioned
    exact ⟨hf.failed, hf.start_le, hpos.le.trans (hinv.linked.writeIdx_le hpos.ring), hf.returned,
      hf.readsNext hinv.linked⟩
  · intro old hgrow s packet hs hlt hread
    rw [seedStart_eq_tailStart h hgrow] at hs
    obtain ⟨hunit, hconfig⟩ := resized_lookups h hgrow hs hlt (by rw [hread]; rfl)
    exact ⟨hunit, hconfig _ _⟩

/-- Five packets with a keyframe at 3 in a ring of four, then a resize to
sixteen, which copies 2, 3 and 4. -/
def resizedOnce : List ChainEvent :=
  [.pushBatch (List.replicate 3 (.raw .video false 0)), .push (.raw .video true 3),
    .push (.raw .audio false 4), .resize 16]

theorem four_slots : 0 < 4 := by decide

def keyframeRing : RingBuffer :=
  (RingBuffer.new 4 four_slots).pushBatch
    [.raw .video false 0, .raw .video false 1, .raw .video true 2]

/-- A reader of the first ring returns 3 and 4 there, moves to the second and
returns 5; the keyframe's unit is the one it had. -/
theorem resize_invisible_across :
    (∃ (c : RingChain) (x : ChainReader), c.readers = [x] ∧ x.lapped = false ∧
    x.start = 3 ∧ x.reader.buffer = 1 ∧ x.failed = false ∧ x.returned = c.published 3 6) ∧
    (keyframeRing.resized 16 (by decide)).frameUnit 2 = keyframeRing.frameUnit 2 := by
  constructor
  · obtain ⟨c, hreach, hobs⟩ : ∃ c, Reachable step PrerollHeld (start 4 (Nat.succ_pos 3)) c ∧
        c.readers.map (fun x => (x.lapped, x.start, x.reader.buffer, x.reader.readIdx)) =
          [(false, 3, 1, 6)] :=
      exists_reachable_of_run (resizedOnce ++ [.attach 0 .new, .pullBurst 0 9,
        .push (.raw .audio false 5), .waitForData 0, .pull 0]) (by decide +kernel)
    obtain ⟨x, hx, hrest⟩ := List.map_eq_singleton_iff.mp hobs
    simp only [Prod.mk.injEq] at hrest
    obtain ⟨hlap, hstart, hbuf, hidx⟩ := hrest
    have hlaw := (resize_invisible 4 (by decide)).1 c hreach x
      (by rw [hx]; exact List.mem_singleton_self x) hlap
    refine ⟨c, x, hx, hlap, hstart, hbuf, hlaw.1, ?_⟩
    rw [← hstart, ← hidx]
    exact hlaw.2.2.2.1
  · exact ((resize_invisible 16 (by decide)).2 keyframeRing
      (by decide) 2 (.raw .video true 2) (by decide +kernel)
      (by decide +kernel) (by decide +kernel)).1

/-- A reader with a preroll of two attaches to the resized ring at 1, which was
not copied: its first pull fails although it is four packets behind in a ring of
sixteen. -/
theorem preroll_below_copied_tail_fails :
    (runGuarded step anyLabel
      (resizedOnce ++ [.attach 1 (.keyframePreroll 2), .waitForData 0, .pull 0])
      (start 4 (by decide))).map
        (fun c => (c.readers.map fun x => (x.lapped, x.start, x.returned, x.failed))) =
      some [(false, 1, [], true)] := by
  decide +kernel

end RingChain

end Restream
