import Restream.RingRecording

/-! The configuration of a published packet, looked up by its sequence, against a
history that keeps every configuration a track ever had. -/

namespace Restream

open List Option TrackConfigs Function UInt32

/-- The generations of a track: the bytes that started one, or none where the
configuration was removed. -/
abbrev TrackHistory := List (Option (List UInt8))

namespace TrackHistory

def current (h : TrackHistory) : Option (List UInt8) := h.getLast?.join

def set (h : TrackHistory) (bytes : List UInt8) : TrackHistory :=
  if bytes = [] ∨ h.current = some bytes then h else h ++ [some bytes]

def clear (h : TrackHistory) : TrackHistory := if h.current.isSome then h ++ [none] else h

end TrackHistory

inductive ConfigOp where
  | setTrackConfig (mediaType : MediaType) (trackIndex : Nat) (bytes : List UInt8)
  | removeVideoTrack
  | setAudioTracks (tracks : List Nat)
  | push (packet : MediaPacket)
  | pushBatch (packets : List MediaPacket)

/-- A packet with the configuration and the generation of its track when it was
published. -/
structure PublishedPacket where
  packet : MediaPacket
  current : Option (List UInt8)
  generation : Nat
  deriving DecidableEq

structure LookupRun where
  ring : RingBuffer
  histories : MediaType → Nat → TrackHistory
  log : List PublishedPacket

namespace LookupRun

def start (capacity : Nat) (h : 0 < capacity) : LookupRun :=
  { ring := .new capacity h, histories := fun _ _ => [], log := [] }

def history (r : LookupRun) (packet : MediaPacket) : TrackHistory :=
  r.histories packet.mediaType packet.trackIndex

def published (r : LookupRun) (packet : MediaPacket) : PublishedPacket :=
  { packet := packet, current := (r.history packet).current, generation := (r.history packet).length }

def step (r : LookupRun) : ConfigOp → LookupRun
  | .setTrackConfig mediaType trackIndex bytes =>
    { r with
      ring := (r.ring.setTrackConfig mediaType trackIndex bytes).1
      histories := fun m t => if m = mediaType ∧ t = trackIndex ∧ t < configTracksPerType then
          (r.histories m t).set bytes
        else r.histories m t }
  | .removeVideoTrack =>
    { r with
      ring := r.ring.removeVideoTrack
      histories :=
        fun m t => if m = .video ∧ t = 0 then (r.histories m t).clear else r.histories m t }
  | .setAudioTracks tracks =>
    { r with
      ring := r.ring.setAudioTracks tracks
      histories :=
        fun m t => if m = .audio ∧ t < configTracksPerType ∧ t ∉ tracks then (r.histories m t).clear
        else r.histories m t }
  | .push packet => { r with ring := r.ring.push packet, log := r.log ++ [r.published packet] }
  | .pushBatch packets =>
    { r with ring := r.ring.pushBatch packets, log := r.log ++ packets.map r.published }

def run (r : LookupRun) (ops : List ConfigOp) : LookupRun := ops.foldl step r

end LookupRun

open TrackHistory

open LookupRun

/-- A track's slot against its history. A generation is found as long as the counter
has not come round. -/
structure TrackConfigSlot.Follows (slot : TrackConfigSlot) (h : TrackHistory) : Prop where
  generation : slot.generation = UInt32.ofNat h.length
  current : slot.current.map TrackConfig.bytes = h.current
  newest : ∀ config, slot.current = some config → config.generation = slot.generation
  kept : h.length < 2 ^ 32 → ∀ n bytes, h[n]? = some (some bytes) → h.length ≤ n + configHistory →
    slot.history ((n + 1) % configHistory) = some ⟨UInt32.ofNat (n + 1), bytes⟩
  sound : h.length < 2 ^ 32 → ∀ i config, slot.history i = some config →
    ∃ n, config.generation = UInt32.ofNat (n + 1) ∧ h[n]? = some (some config.bytes)

namespace TrackHistory

variable {h : TrackHistory} {bytes : List UInt8}

theorem current_concat : (h ++ [en]).current = en := by
  simp [current]

theorem current_take (hn : n < h.length) : current (h.take (n + 1)) = h[n]?.join := by
  rw [take_add_one, getElem?_eq_getElem hn, toList_some, current_concat]
  rfl

def ExtendedTo (h h' : TrackHistory) : Prop := h <+: h' ∧ (some [] ∈ h' → some [] ∈ h)

theorem ExtendedTo.refl (h : TrackHistory) : h.ExtendedTo h := ⟨prefix_refl _, id⟩

theorem ExtendedTo.append (hx : x ≠ some []) : h.ExtendedTo (h ++ [x]) := by
  refine ⟨prefix_append _ _, fun hmem => ?_⟩
  rcases mem_append.mp hmem with hmem | hmem
  · exact hmem
  · exact absurd (mem_singleton.mp hmem).symm hx

theorem set_extended : h.ExtendedTo (h.set bytes) := by
  unfold set
  split
  · exact .refl h
  · next hne => exact .append fun hb => hne (.inl (Option.some.inj hb))

theorem clear_extended : h.ExtendedTo h.clear := by
  unfold clear
  split
  · exact .append (by rintro ⟨⟩)
  · exact .refl h

end TrackHistory

namespace TrackConfigSlot

variable {slot : TrackConfigSlot} {bytes : List UInt8}

theorem Follows.new : Follows .new [] := ⟨rfl, rfl, by rintro _ ⟨⟩, fun _ n bytes hn => by simp at hn,
    fun _ i cfg hi => by cases hi⟩

theorem toNat_ofNat_lt (hn : n < 2 ^ 32) : (ofNat n).toNat = n := by
  exact Nat.mod_eq_of_lt hn

theorem historySlot_ofNat : historySlot (ofNat n) = n % configHistory := by
  rw [historySlot, toNat_ofNat', configHistory]
  omega

theorem Follows.append (hf : slot.Follows h) (bytes : List UInt8) : Follows
      { generation := slot.generation + 1
        current := some ⟨slot.generation + 1, bytes⟩
        history := update slot.history (historySlot (slot.generation + 1))
          (some ⟨slot.generation + 1, bytes⟩) } (h ++ [some bytes]) := by
  have hne : slot.generation + 1 = ofNat (h.length + 1) := by
    rw [hf.generation, ofNat_add]
    rfl
  rw [hne, historySlot_ofNat]
  refine ⟨by simp, by simp [current_concat], ?_, fun hfew n b hn hr => ?_, fun hfew i cfg hi => ?_⟩
  · rintro _ ⟨⟩
    rfl
  · simp only [length_append, length_singleton] at hfew hr
    rcases List.getElem?_concat_cases hn with hold | ⟨rfl, hb⟩
    · have hlt := (List.getElem?_eq_some_iff.mp hold).1
      have ho : (n + 1) % configHistory ≠ (h.length + 1) % configHistory := by
        unfold configHistory at hr ⊢
        omega
      simp only [update_of_ne ho]
      exact hf.kept (by omega) n b hold (by omega)
    · cases hb
      simp only [update_self]
  · simp only [length_append, length_singleton] at hfew
    by_cases hs : i = (h.length + 1) % configHistory
    · subst hs
      simp only [update_self] at hi
      cases hi
      exact ⟨h.length, rfl, by simp⟩
    · simp only [update_of_ne hs] at hi
      obtain ⟨n, hg, hn⟩ := hf.sound (by omega) i cfg hi
      exact ⟨n, hg, by rw [List.getElem?_append_left (List.getElem?_eq_some_iff.mp hn).1, hn]⟩

theorem Follows.remove (hf : slot.Follows h) :
    Follows { slot with current := none, generation := slot.generation + 1 } (h ++ [none]) := by
  have hne : slot.generation + 1 = ofNat (h.length + 1) := by
    rw [hf.generation, ofNat_add]
    rfl
  refine ⟨by simp [hne], by simp [current_concat], by rintro _ ⟨⟩,
    fun hfew n b hn hr => ?_, fun hfew i cfg hi => ?_⟩
  · simp only [length_append, length_singleton] at hfew hr
    rcases getElem?_concat_cases hn with hold | ⟨-, hb⟩
    · exact hf.kept (by omega) n b hold (by omega)
    · cases hb
  · simp only [length_append, length_singleton] at hfew
    obtain ⟨n, hg, hn⟩ := hf.sound (by omega) i cfg hi
    exact ⟨n, hg, by rw [List.getElem?_append_left (List.getElem?_eq_some_iff.mp hn).1, hn]⟩

theorem Follows.current_of_get (hf : slot.Follows h) (hfew : h.length < 2 ^ 32)
    (hg : g ≤ h.length) (hne : g ≠ 0)
    (hget : (slot.history (historySlot (ofNat g))).filter (fun cfg => cfg.generation == ofNat g) =
      some cfg) : TrackHistory.current (h.take g) = some cfg.bytes := by
  obtain ⟨he, hge⟩ := Option.filter_eq_some_iff.mp hget
  obtain ⟨n, hn, hb⟩ := hf.sound hfew _ cfg he
  have hlt := (List.getElem?_eq_some_iff.mp hb).1
  obtain rfl : n + 1 = g := by
    have heq := congrArg toNat (hn.symm.trans (beq_iff_eq.mp hge))
    rwa [toNat_ofNat_lt (by omega), toNat_ofNat_lt (by omega)] at heq
  rw [current_take hlt, hb]
  rfl

end TrackConfigSlot

namespace TrackConfigs

def FollowAll (c : TrackConfigs) (histories : MediaType → Nat → TrackHistory) : Prop :=
  ∀ mediaType trackIndex i, slot mediaType trackIndex = some i →
    (c.tracks i).Follows (histories mediaType trackIndex)

theorem slot_inj (h : slot m t = some i) (h' : slot m' t' = some i) : m = m' ∧ t = t' := by
  unfold slot at h h'
  split at h
  · split at h'
    · next hlt hlt' =>
      have hi := Option.some.inj h
      have hi' := Option.some.inj h'
      cases m <;> cases m' <;> simp only [MediaType.index] at hi hi' <;> simp <;> omega
    · cases h'
  · cases h

variable {c : TrackConfigs} {histories : MediaType → Nat → TrackHistory} {mediaType : MediaType}

section

variable (h : c.FollowAll histories)

include h

theorem FollowAll.update {i : Nat} (hi : slot mediaType ti = some i)
    {s : TrackConfigSlot} {history : TrackHistory} (hs : s.Follows history) :
    FollowAll { tracks := update c.tracks i s }
      (fun m t => if m = mediaType ∧ t = ti then history else histories m t) := by
  intro m t j hj
  by_cases hij : j = i
  · subst hij
    obtain ⟨rfl, rfl⟩ := slot_inj hj hi
    simpa using hs
  · have ho : ¬(m = mediaType ∧ t = ti) := by
      rintro ⟨rfl, rfl⟩
      exact hij (Option.some.inj (hj.symm.trans hi))
    simp only [if_neg ho, update_of_ne hij]
    exact h m t j hj

theorem FollowAll.congr (heq : ∀ m t i, slot m t = some i → hi' m t = histories m t) :
    c.FollowAll hi' := by
  intro m t i hi
  rw [heq m t i hi]
  exact h m t i hi

theorem FollowAll.modify {f : TrackHistory → TrackHistory} (hn : slot mediaType ti = none → c' = c)
    (hs : ∀ i, slot mediaType ti = some i → ∃ s : TrackConfigSlot,
      c' = { tracks := Function.update c.tracks i s } ∧ s.Follows (f (histories mediaType ti))) :
    c'.FollowAll fun m t => if m = mediaType ∧ t = ti then f (histories m t) else histories m t := by
  cases hi : slot mediaType ti with
  | none =>
    rw [hn hi]
    refine h.congr fun m t i hi' => ?_
    rw [if_neg]
    rintro ⟨rfl, rfl⟩
    cases hi.symm.trans hi'
  | some i =>
    obtain ⟨s, rfl, hf⟩ := hs i hi
    refine (h.update hi hf).congr fun m t j hj => ?_
    split
    · next heq =>
      obtain ⟨rfl, rfl⟩ := heq
      rfl
    · rfl

theorem FollowAll.set (mediaType : MediaType) (ti : Nat) (hb : bytes ≠ []) :
    (c.set mediaType ti bytes).1.FollowAll fun m t =>
      if m = mediaType ∧ t = ti then (histories m t).set bytes else histories m t := by
  refine h.modify (f := fun history => history.set bytes) (fun hs => by rw [TrackConfigs.set, hs])
    fun i hs => ?_
  have hf := h mediaType ti i hs
  have hsa : (c.tracks i).current.any (fun cfg => cfg.bytes == bytes) = true ↔
      (histories mediaType ti).current = some bytes := by
    rw [← hf.current]
    cases (c.tracks i).current <;> simp
  simp only [TrackConfigs.set, hs, hsa, TrackHistory.set, hb, false_or]
  split
  · exact ⟨_, by rw [update_eq_self], hf⟩
  · exact ⟨_, rfl, hf.append bytes⟩

theorem FollowAll.clear (mediaType : MediaType) (ti : Nat) :
    (c.clear mediaType ti).FollowAll fun m t =>
      if m = mediaType ∧ t = ti then (histories m t).clear else histories m t := by
  refine h.modify (f := TrackHistory.clear) (fun hs => by rw [TrackConfigs.clear, hs]) fun i hs => ?_
  have hf := h mediaType ti i hs
  have hsa : (c.tracks i).current.isSome = (histories mediaType ti).current.isSome := by
    rw [← hf.current, isSome_map]
  simp only [TrackConfigs.clear, hs, hsa, TrackHistory.clear]
  split
  · exact ⟨_, rfl, hf.remove⟩
  · exact ⟨_, by rw [update_eq_self], hf⟩

end

theorem FollowAll.clearAll {r : RingBuffer} (h : r.trackConfigs.FollowAll histories)
    (unlisted : Nat → Bool) (n : Nat) :
    ((range n).foldl (fun r t =>
      if unlisted t then r.clearTrackConfig .audio t else r) r).trackConfigs.FollowAll fun m t =>
        if m = .audio ∧ t < n ∧ unlisted t then (histories m t).clear else histories m t := by
  induction n with
  | zero => simpa using h
  | succ n ih =>
    rw [range_succ, foldl_append]
    simp only [foldl_cons, foldl_nil]
    by_cases hn : unlisted n = true
    · rw [if_pos hn]
      refine (ih.clear .audio n).congr fun m t i hi => ?_
      by_cases ht : m = .audio ∧ t = n
      · obtain ⟨rfl, rfl⟩ := ht
        simp [hn]
      · have hlt : m = .audio ∧ t < n + 1 ∧ unlisted t = true ↔
            m = .audio ∧ t < n ∧ unlisted t = true := by
          refine and_congr_right fun hm => and_congr_left fun _ => ?_
          have htn : t ≠ n := fun h' => ht ⟨hm, h'⟩
          omega
        simp only [hlt, if_neg ht]
    · rw [if_neg hn]
      refine ih.congr fun m t i hi => ?_
      have hlt : m = .audio ∧ t < n + 1 ∧ unlisted t = true ↔
          m = .audio ∧ t < n ∧ unlisted t = true := by
        refine and_congr_right fun _ => and_congr_left fun ht => ?_
        have htn : t ≠ n := fun h' => hn (h' ▸ ht)
        omega
      simp only [hlt]

end TrackConfigs

namespace LookupRun

variable {r : LookupRun}

structure Inv (capacity : Nat) (r : LookupRun) : Prop where
  capacity : r.ring.capacity = capacity
  writeIdx : r.ring.writeIdx = r.log.length
  stamped : Stamped r.ring (r.log.map fun e => (e.packet, UInt32.ofNat e.generation))
  tracks : r.ring.trackConfigs.FollowAll r.histories
  outside : ∀ m t, configTracksPerType ≤ t → r.histories m t = []
  nonempty : ∀ m t, some [] ∉ r.histories m t
  logged : ∀ e ∈ r.log, e.generation ≤ (r.history e.packet).length ∧
    e.current = TrackHistory.current ((r.history e.packet).take e.generation)

variable {capacity : Nat} {histories : MediaType → Nat → TrackHistory} {e : PublishedPacket}
  {history : TrackHistory}

theorem Inv.start (h : 0 < capacity) : Inv capacity (.start capacity h) :=
  ⟨rfl, rfl, fun s en hs => by simp [LookupRun.start] at hs, fun _ _ _ _ => .new, fun _ _ _ => rfl,
    by simp [LookupRun.start], by simp [LookupRun.start]⟩

theorem Inv.configure (h : Inv capacity r) {ring : RingBuffer}
    (hcap : ring.capacity = r.ring.capacity)
    (hidx : ring.writeIdx = r.ring.writeIdx) (hs : ring.slots = r.ring.slots)
    (htr : ring.trackConfigs.FollowAll histories)
    (hx : ∀ m t, (r.histories m t).ExtendedTo (histories m t))
    (ho : ∀ m t, configTracksPerType ≤ t → histories m t = r.histories m t) :
    Inv capacity { r with ring := ring, histories := histories } :=
  ⟨hcap.trans h.capacity, hidx.trans h.writeIdx, h.stamped.congr hcap hs, htr,
    fun m t ht => (ho m t ht).trans (h.outside m t ht),
    fun m t hmem => h.nonempty m t ((hx m t).2 hmem),
    fun e he => by
      obtain ⟨hle, hc⟩ := h.logged e he
      obtain ⟨more, hm⟩ := (hx e.packet.mediaType e.packet.trackIndex).1
      simp only [history, ← hm, length_append] at hle ⊢
      exact ⟨by omega, by rw [take_append_of_le_length hle]; exact hc⟩⟩

theorem Inv.stamps (h : Inv capacity r) (ps : List MediaPacket) :
    Stamped.stamps r.ring ps = (ps.map r.published).map fun e => (e.packet, ofNat e.generation) := by
  rw [List.map_map]
  refine List.map_congr_left fun p _ => Prod.ext rfl ?_
  simp only [generation, comp_apply, published]
  cases hs : slot p.mediaType p.trackIndex with
  | none =>
    have hlt : configTracksPerType ≤ p.trackIndex := by
      by_contra hlt
      rw [slot, if_pos (by omega)] at hs
      cases hs
    rw [history, h.outside _ _ hlt]
    rfl
  | some i => exact (h.tracks _ _ i hs).generation

theorem Inv.pushBatch (h : Inv capacity r) (ps : List MediaPacket) :
    Inv capacity (r.step (.pushBatch ps)) := by
  obtain ⟨hs, hcap, hc, hidx⟩ := h.stamped.pushBatch (by simp [h.writeIdx]) ps
  rw [h.stamps] at hs hidx
  refine ⟨hcap.trans h.capacity, by simpa [step] using hidx, by simpa [step] using hs, ?_, h.outside,
    h.nonempty, fun e he => ?_⟩
  · show (r.ring.pushBatch ps).trackConfigs.FollowAll r.histories
    rw [hc]
    exact h.tracks
  · rcases mem_append.mp he with he | he
    · exact h.logged e he
    · obtain ⟨p, -, rfl⟩ := mem_map.mp he
      exact ⟨le_rfl, by simp [published, history, step]⟩

theorem step_extended (r : LookupRun) (op : ConfigOp) (m : MediaType) (t : Nat) :
    (r.histories m t).ExtendedTo ((r.step op).histories m t) := by
  cases op with
  | push | pushBatch => exact .refl _
  | setTrackConfig mediaType ti bytes =>
    simp only [step]
    split
    · exact set_extended
    · exact .refl _
  | removeVideoTrack | setAudioTracks =>
    simp only [step]
    split
    · exact clear_extended
    · exact .refl _

theorem setAudioTracks_fields (ring : RingBuffer) (ts : List Nat) :
    (ring.setAudioTracks ts).capacity = ring.capacity ∧
      (ring.setAudioTracks ts).writeIdx = ring.writeIdx ∧
      (ring.setAudioTracks ts).slots = ring.slots := by
  unfold RingBuffer.setAudioTracks
  generalize range configTracksPerType = range
  induction range generalizing ring with
  | nil => exact ⟨rfl, rfl, rfl⟩
  | cons t range ih =>
    have hr := ih (if t ∈ ts then ring else ring.clearTrackConfig .audio t)
    rw [foldl_cons]
    split at hr
    · next ht => rwa [if_pos ht]
    · next ht => rwa [if_neg ht]

section

variable (h : Inv capacity r)

include h

theorem Inv.setTrackConfig (mediaType : MediaType) (ti : Nat) (bytes : List UInt8) :
    Inv capacity (r.step (.setTrackConfig mediaType ti bytes)) := by
  have hx := r.step_extended (.setTrackConfig mediaType ti bytes)
  have ho : ∀ m t, configTracksPerType ≤ t →
      (if m = mediaType ∧ t = ti ∧ t < configTracksPerType then (r.histories m t).set bytes
        else r.histories m t) = r.histories m t := by
    intro m t ht
    rw [if_neg]
    omega
  simp only [step, RingBuffer.setTrackConfig]
  split
  · next he =>
    refine h.configure rfl rfl rfl (h.tracks.congr fun m t i hi => ?_) hx ho
    have hset : (r.histories m t).set bytes = r.histories m t := if_pos (.inl (isEmpty_iff.mp he))
    rw [hset, ite_self]
  · next he =>
    have hb : bytes ≠ [] := fun h' => he (isEmpty_iff.mpr h')
    refine h.configure rfl rfl rfl ((h.tracks.set mediaType ti hb).congr fun m t i hi => ?_) hx ho
    have hlt : t < configTracksPerType := by
      by_contra hlt
      rw [slot, if_neg hlt] at hi
      cases hi
    simp only [hlt, and_true]

theorem Inv.removeVideoTrack : Inv capacity (r.step .removeVideoTrack) := by
  refine h.configure rfl rfl rfl (h.tracks.clear .video 0)
    (r.step_extended .removeVideoTrack) fun m t ht => ?_
  rw [if_neg]
  rintro ⟨-, rfl⟩
  exact absurd ht (by decide)

theorem Inv.setAudioTracks (ts : List Nat) : Inv capacity (r.step (.setAudioTracks ts)) := by
  obtain ⟨hcap, hidx, hs⟩ := setAudioTracks_fields r.ring ts
  have hc := h.tracks.clearAll (fun t => decide (t ∉ ts)) configTracksPerType
  simp only [decide_eq_true_eq, ite_not] at hc
  refine h.configure hcap hidx hs hc (r.step_extended (.setAudioTracks ts)) fun m t ht => ?_
  rw [if_neg]
  omega

theorem Inv.step (op : ConfigOp) : Inv capacity (r.step op) := by
  cases op with
  | setTrackConfig mediaType ti bytes => exact h.setTrackConfig mediaType ti bytes
  | removeVideoTrack => exact h.removeVideoTrack
  | setAudioTracks ts => exact h.setAudioTracks ts
  | push p =>
    have hb := h.pushBatch [p]
    simpa only [LookupRun.step, RingBuffer.push_eq_pushBatch, map_cons, map_nil] using hb
  | pushBatch ps => exact h.pushBatch ps

theorem Inv.run (ops : List ConfigOp) : Inv capacity (r.run ops) := by
  induction ops generalizing r with
  | nil => exact h
  | cons op ops ih => exact ih (h.step op)

end

theorem run_append : r.run (ops ++ more) = (r.run ops).run more :=
  foldl_append

theorem getElem?_stamps {s : Nat} (hs : r.log[s]? = some e) :
    (r.log.map fun e => (e.packet, ofNat e.generation))[s]? = some (e.packet,
      ofNat e.generation) := by
  simp [hs]

theorem Inv.trackConfigAt (h : Inv capacity r) (hs : r.log[s]? = some e)
    (hret : r.ring.writeIdx - s < capacity) :
    r.ring.trackConfigAt s e.packet.mediaType e.packet.trackIndex =
      if ofNat e.generation = 0 then .ok none
      else
        match r.ring.trackConfigs.get e.packet.mediaType e.packet.trackIndex (ofNat e.generation) with
        | some cfg => .ok (some cfg)
        | none => .error .notRetained := by
  refine h.stamped.trackConfigAt (by simp [h.writeIdx]) (getElem?_stamps hs) ?_ _ _
  rw [length_map, ← h.writeIdx, h.capacity]
  exact hret

/-- The bytes a lookup gives were current when the packet was published, for every
published packet. A packet that the next publication does not overwrite is read back, and
its lookup gives its bytes until its track has started four later generations; without
any configuration up to then it gives none. -/
theorem trackConfigAt_published {capacity : Nat} (hcap : 0 < capacity) (ops : List ConfigOp) {s : Nat}
    {e : PublishedPacket} (hs : ((start capacity hcap).run ops).log[s]? = some e)
    (htrack : e.packet.trackIndex < configTracksPerType)
    (hfew : (((start capacity hcap).run ops).history e.packet).length < 2 ^ 32) :
    let r := (start capacity hcap).run ops
    let lookup := r.ring.trackConfigAt s e.packet.mediaType e.packet.trackIndex
    (∀ config, lookup = .ok (some config) → e.current = some config.bytes) ∧
    (r.ring.writeIdx - s < capacity → r.ring.readAt s = some e.packet ∧
      (∀ bytes, e.current = some bytes →
        (r.history e.packet).length - e.generation < configHistory →
        ∃ config, config.bytes = bytes ∧ lookup = .ok (some config)) ∧
      (e.generation = 0 → lookup = .ok none)) := by
  have hinv := (Inv.start hcap).run ops
  generalize (start capacity hcap).run ops = r at hs hfew hinv
  obtain ⟨hle, hcurrent⟩ := hinv.logged e (List.mem_of_getElem? hs)
  have hslot : slot e.packet.mediaType e.packet.trackIndex =
      some (e.packet.mediaType.index * configTracksPerType + e.packet.trackIndex) := if_pos htrack
  have hfollows := hinv.tracks _ _ _ hslot
  have hzero : ofNat e.generation = 0 ↔ e.generation = 0 := by
    rw [← UInt32.toNat_inj, TrackConfigSlot.toNat_ofNat_lt (by omega)]
    rfl
  refine ⟨fun config hconfig => ?_,
    fun hret => ⟨?_, fun bytes hbytes hrecent => ?_, fun hnever => ?_⟩⟩
  · have hret : r.ring.writeIdx - s < capacity := by
      by_contra hout
      rw [RingBuffer.trackConfigAt, RingBuffer.frameUnit, hinv.capacity, if_pos (by omega)] at hconfig
      cases hconfig
    rw [hinv.trackConfigAt hs hret] at hconfig
    split at hconfig
    · cases hconfig
    · next hne =>
      split at hconfig
      · next found hget =>
        obtain rfl : found = config := by simpa using hconfig
        rw [TrackConfigs.get, if_neg hne, hslot] at hget
        exact hcurrent.trans (hfollows.current_of_get hfew hle (mt hzero.mpr hne) hget)
      · cases hconfig
  · refine hinv.stamped.readAt (getElem?_stamps hs) ?_
    rw [List.length_map, ← hinv.writeIdx, hinv.capacity]
    omega
  · have hne : e.generation ≠ 0 := by
      intro h0
      rw [hcurrent, h0] at hbytes
      cases hbytes
    have hz : ofNat e.generation ≠ 0 := mt hzero.mp hne
    have hfewer : (r.history e.packet).length < e.generation + configHistory := by omega
    obtain ⟨n, hn⟩ := Nat.exists_eq_succ_of_ne_zero hne
    have hc := hcurrent.symm.trans hbytes
    rw [hn, history] at hle hc hfewer
    rw [current_take hle, join_eq_some_iff] at hc
    rw [hinv.trackConfigAt hs hret, if_neg hz, TrackConfigs.get, if_neg hz, hslot, hn]
    dsimp only
    rw [TrackConfigSlot.historySlot_ofNat, hfollows.kept hfew n bytes hc (by omega)]
    simp [Option.filter]
  · rw [hinv.trackConfigAt hs hret, if_pos (hzero.mpr hnever)]

/-- The first packet of two, whose track has changed its configuration twice since. -/
theorem trackConfigAt_published_first :
    let ops : List ConfigOp := [.setTrackConfig .video 0 [1], .push (.raw .video true 0),
      .setTrackConfig .video 0 [2], .push (.raw .video false 1), .removeVideoTrack]
    ∃ config, config.bytes = [1] ∧
      ((start 4 (by decide)).run ops).ring.trackConfigAt 0 .video 0 = .ok (some config) :=
  ((trackConfigAt_published (s := 0) (e := ⟨.raw .video true 0, some [1], 1⟩) (by decide)
      [.setTrackConfig .video 0 [1], .push (.raw .video true 0), .setTrackConfig .video 0 [2],
        .push (.raw .video false 1), .removeVideoTrack]
      (by decide +kernel) (by decide +kernel) (by decide +kernel)).2
        (by decide +kernel)).2.1 [1] (by decide +kernel)
    (by decide +kernel)

def turns : Nat → List ConfigOp
  | 0 => []
  | n + 1 => turns n ++ [.setTrackConfig .video 0 [UInt8.ofNat ((n + 2) % 3)]]

theorem run_turns (r : LookupRun) (hc : (r.ring.trackConfigs.tracks 0).current = some ⟨1, [1]⟩)
    (hg : (r.ring.trackConfigs.tracks 0).generation = 1)
    (hh : (r.ring.trackConfigs.tracks 0).history 1 = some ⟨1, [1]⟩) (n : Nat) :
    (r.run (turns n)).log = r.log ∧
      ((r.run (turns n)).ring.trackConfigs.tracks 0).generation = ofNat (n + 1) ∧
      ((r.run (turns n)).ring.trackConfigs.tracks 0).current =
        some ⟨ofNat (n + 1), [UInt8.ofNat ((n + 1) % 3)]⟩ ∧
      ((r.run (turns n)).ring.trackConfigs.tracks 0).history ((n + 1) % configHistory) =
        some ⟨ofNat (n + 1), [UInt8.ofNat ((n + 1) % 3)]⟩ := by
  induction n with
  | zero => exact ⟨rfl, hg, hc, hh⟩
  | succ n ih =>
    obtain ⟨hlog, hgen, hcur, -⟩ := ih
    have ho : UInt8.ofNat ((n + 1) % 3) ≠ UInt8.ofNat ((n + 2) % 3) := by
      intro h
      have heq := congrArg UInt8.toNat h
      rw [UInt8.toNat_ofNat', UInt8.toNat_ofNat'] at heq
      omega
    have hn : ofNat (n + 1) + 1 = ofNat (n + 2) := (ofNat_add (n + 1) 1).symm
    rw [turns, run_append, run]
    generalize r.run (turns n) = r' at hlog hgen hcur
    have hset :
      (r'.step (.setTrackConfig .video 0 [UInt8.ofNat ((n + 2) % 3)])).ring.trackConfigs.tracks 0 =
        { generation := ofNat (n + 2)
          current := some ⟨ofNat (n + 2), [UInt8.ofNat ((n + 2) % 3)]⟩
          history := update (r'.ring.trackConfigs.tracks 0).history ((n + 2) % configHistory)
            (some ⟨ofNat (n + 2), [UInt8.ofNat ((n + 2) % 3)]⟩) } := by
      simp [step, RingBuffer.setTrackConfig, TrackConfigs.set, TrackConfigs.slot_video, hcur, ho,
        hgen, hn, TrackConfigSlot.historySlot_ofNat, -ofNat_add]
    refine ⟨hlog, ?_⟩
    rw [foldl_cons, foldl_nil, hset]
    exact ⟨rfl, rfl, update_self ..⟩

theorem trackConfigAt_turns {n : Nat} (hr : ofNat (n + 1) = 1) :
    let r := (start 2 (by decide)).run
      ([.setTrackConfig .video 0 [1], .push (.raw .video true 0)] ++ turns n);
    r.log[0]? = some ⟨.raw .video true 0, some [1], 1⟩ ∧ r.ring.readAt 0 = some (.raw .video true 0) ∧
      r.ring.trackConfigAt 0 .video 0 = .ok (some ⟨1, [UInt8.ofNat ((n + 1) % 3)]⟩) := by
  have hinv := (Inv.start (show 0 < 2 by decide)).run
    ([.setTrackConfig .video 0 [1], .push (.raw .video true 0)] ++ turns n)
  have ht :=
    run_turns ((start 2 (by decide)).run [.setTrackConfig .video 0 [1], .push (.raw .video true 0)])
    (by decide +kernel) (by decide +kernel) (by decide +kernel) n
  have hlog : ((start 2 (by decide)).run [.setTrackConfig .video 0 [1],
    .push (.raw .video true 0)]).log =
      [⟨.raw .video true 0, some [1], 1⟩] := by decide +kernel
  rw [← run_append, ← TrackConfigSlot.historySlot_ofNat, hr] at ht
  generalize (start 2 (by decide)).run _ = r at hinv ht
  obtain ⟨hlog, -, -, hh⟩ := ht
  have hs : r.log[0]? = some ⟨.raw .video true 0, some [1], 1⟩ := by rw [hlog]; rfl
  have hone : r.ring.writeIdx = 1 := by rw [hinv.writeIdx, hlog]; rfl
  refine ⟨hs, hinv.stamped.readAt (getElem?_stamps hs) ?_, ?_⟩
  · rw [length_map, ← hinv.writeIdx, hinv.capacity, hone]
    decide
  · have hget : r.ring.trackConfigs.get .video 0 1 = some ⟨1, [UInt8.ofNat ((n + 1) % 3)]⟩ := by
      rw [TrackConfigs.get, TrackConfigs.slot_video]
      dsimp only
      rw [hh]
      rfl
    simpa [MediaPacket.raw, hget] using hinv.trackConfigAt hs (by rw [hone]; decide)

/-- A packet published after its track was cleared, a packet that the next publication
overwrites, and a generation that came round to the packet's own. -/
theorem trackConfigAt_of_current_fails :
    (let r := (start 4 (by decide)).run [.setTrackConfig .video 0 [1],
      .removeVideoTrack, .push (.raw .video true 0)]; r.log[0]? =
        some ⟨.raw .video true 0, none, 2⟩ ∧ r.ring.readAt 0 = some (.raw .video true 0) ∧
        r.ring.trackConfigAt 0 .video 0 = .error .notRetained) ∧
          (let r := (start 2 (by decide)).run [.setTrackConfig .video 0 [1],
            .push (.raw .video true 0), .push (.raw .video false 1)]; r.log[0]? =
              some ⟨.raw .video true 0, some [1], 1⟩ ∧ r.histories .video 0 = [some [1]] ∧
              r.ring.readAt 0 = some (.raw .video true 0) ∧
              r.ring.trackConfigAt 0 .video 0 = .error .notRetained) ∧
                (let r := (start 2 (by decide)).run ([.setTrackConfig .video 0 [1],
                  .push (.raw .video true 0)] ++ turns (2 ^ 32)); r.log[0]? =
                    some ⟨.raw .video true 0, some [1], 1⟩ ∧
                    r.ring.readAt 0 = some (.raw .video true 0) ∧
                    ∃ config, r.ring.trackConfigAt 0 .video 0 = .ok (some config) ∧
                      config.bytes = [2]) := by
  refine ⟨by decide +kernel, by decide +kernel, ?_⟩
  obtain ⟨hlog, hread, hlookup⟩ := trackConfigAt_turns (show ofNat (2 ^ 32 + 1) = 1 by decide)
  exact ⟨hlog, hread, _, hlookup, by decide⟩

end LookupRun

end Restream
