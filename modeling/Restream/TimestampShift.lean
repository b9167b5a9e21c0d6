import Restream.IngestForward

/-! The shift a forwarded batch gets. All paths but one map only the first
packet of an activation against the last forwarded timestamp, so a batch moves
as a whole; the segment path maps every packet against it. -/

namespace Restream

open List Option IngestInput InputTimestampMapper MediaPacket

namespace InputTimestampMapper

def offset (m : InputTimestampMapper) : Int := if m.initialized then m.offsetMs else 0

/-- The offset of a packet that activates the gate: it is to follow on from the
last forwarded timestamp, if there is one. -/
def activationOffset (lastForwardedDts dts : Int) : Int :=
  if lastForwardedDts = i64Min then 0 else lastForwardedDts + 1 - dts

theorem nextOffset_true (m : InputTimestampMapper) (dts lastForwardedDts : Int) :
    m.nextOffset id dts true lastForwardedDts = activationOffset lastForwardedDts dts := rfl

end InputTimestampMapper

section Batch

variable {flag : Nat → Bool} {last : Int}

variable {batch : List MediaPacket}

theorem mapBatch_false (hfl : ∀ i, ix ≤ i → flag i = false) (h : FitsBatch flag last ix m batch) :
    (mapBatch flag last ix m batch).2 = batch.map (·.shift m.offset) ∧
      (mapBatch flag last ix m batch).1.offset = m.offset := by
  induction batch generalizing ix m with
  | nil => exact ⟨rfl, rfl⟩
  | cons p ps ih =>
    obtain ⟨hp, hps⟩ := h
    have hf := hfl ix le_rfl
    rw [hf] at hp hps
    have hmap := mapPacket_fits hp
    rw [hmap] at hps
    obtain ⟨hr, ho⟩ := ih (fun i hi => hfl i (by omega)) hps
    simp only [mapBatch, hf, hmap, map_cons]
    exact ⟨by rw [hr]; rfl, ho⟩

theorem mapBatch_firstOnly (h : FitsBatch (firstOnly act) last 0 m (p :: ps)) :
    (mapBatch (firstOnly act) last 0 m (p :: ps)).2 =
      (p :: ps).map (·.shift (m.nextOffset id p.dts act last)) ∧
    (mapBatch (firstOnly act) last 0 m (p :: ps)).1.offset =
      m.nextOffset id p.dts act last := by
  have hz : firstOnly act 0 = act := by simp [firstOnly]
  obtain ⟨hp, hps⟩ := h
  rw [hz] at hp hps
  have hmap := mapPacket_fits hp
  rw [hmap] at hps
  have hf : ∀ i, 1 ≤ i → firstOnly act i = false := by
    intro i hi
    simp [firstOnly, show i ≠ 0 by omega]
  obtain ⟨hr, ho⟩ := mapBatch_false hf hps
  simp only [mapBatch, hz, hmap, map_cons]
  exact ⟨by rw [hr]; rfl, ho⟩

theorem mapBatch_true (h : FitsBatch (fun _ => true) last ix m batch) :
    (mapBatch (fun _ => true) last ix m batch).2 =
      batch.map fun p => p.shift (activationOffset last p.dts) := by
  induction batch generalizing ix m with
  | nil => rfl
  | cons p ps ih =>
    obtain ⟨hp, hps⟩ := h
    have hmap := mapPacket_fits hp
    rw [hmap] at hps
    simp only [mapBatch, hmap, map_cons]
    exact congrArg (_ :: ·) (ih hps)

end Batch

inductive ForwardCall where
  | ingestPackets (next : RingId → Option RingId) (rings : Nat) (state : InputForwardState)
    (packets : List MediaPacket)
  | tryPromote (state : InputForwardState)
  | recirculation (state : InputForwardState) (packets : List MediaPacket)
  | segment (packets : List MediaPacket)

namespace ForwardCall

def run (input : IngestInput) (lastForwardedDts : Int) : ForwardCall → ForwardOutcome
  | .ingestPackets next rings state packets =>
    input.forwardIngestPackets next rings state lastForwardedDts packets
  | .tryPromote state => input.tryPromote state lastForwardedDts
  | .recirculation state packets => input.forwardPackets state lastForwardedDts packets
  | .segment packets => input.forwardBatch lastForwardedDts packets

def select (input : IngestInput) : ForwardCall → Option Selection
  | .ingestPackets _ _ state packets => (input.selectOrReplay state packets).2
  | .tryPromote state => (input.selectReplay state).2
  | .recirculation state packets => (input.selectOrReplay state packets).2
  | .segment packets => (input.selectBatch packets).2

def flag (activated : Bool) : ForwardCall → Nat → Bool
  | .segment _ => fun _ => activated
  | _ => firstOnly activated

def Fits (input : IngestInput) (lastForwardedDts : Int) (call : ForwardCall) : Prop :=
  ∀ selection, call.select input = some selection →
    FitsBatch (call.flag selection.activated) lastForwardedDts 0 input.timestampMapper selection.batch

/-- A segment batch that activates the gate, when something was forwarded
before, has one timestamp from its first keyframe on. -/
def OneTimestamp (input : IngestInput) (lastForwardedDts : Int) : ForwardCall → Prop
  | .segment packets =>
    (∃ gate, input.gate.tryEnter (batchBoundary packets) = some (gate, true)) →
      lastForwardedDts ≠ i64Min → ∀ p ∈ packets.dropWhile (fun p => !p.isVideoKeyframe),
        ∀ q ∈ packets.dropWhile (fun p => !p.isVideoKeyframe), p.dts = q.dts
  | _ => True

end ForwardCall

structure OneShift (lastForwardedDts : Int) (published : Published) : Prop where
  offset : ∃ offset, published.packets = published.selection.batch.map (·.shift offset)
  differences : ∀ {i j : Nat} {p q p' q' : MediaPacket}, published.selection.batch[i]? = some p →
    published.selection.batch[j]? = some q → published.packets[i]? = some p' →
    published.packets[j]? = some q' → p'.dts - q'.dts = p.dts - q.dts
  composition : ∀ {i : Nat} {p p' : MediaPacket}, published.selection.batch[i]? = some p →
    published.packets[i]? = some p' → p'.pts - p'.dts = p.pts - p.dts
  first : published.selection.activated = true → lastForwardedDts ≠ i64Min →
    ∀ p, published.packets.head? = some p → p.dts = lastForwardedDts + 1

theorem OneShift.of_offset (h : published.packets = published.selection.batch.map (·.shift off))
    (hf : published.selection.activated = true → last ≠ i64Min →
      ∀ p, published.selection.batch.head? = some p → p.dts + off = last + 1) :
    OneShift last published where
  offset := ⟨off, h⟩
  differences hp hq hp' hq' := by
    rw [h, getElem?_map, hp, map_some, Option.some.injEq] at hp'
    rw [h, getElem?_map, hq, map_some, Option.some.injEq] at hq'
    subst hp' hq'
    simp only [shift]
    omega
  composition hp hp' := by
    rw [h, getElem?_map, hp, map_some, Option.some.injEq] at hp'
    subst hp'
    simp only [shift]
    omega
  first hact hl p hp := by
    rw [h, head?_map, map_eq_some_iff] at hp
    obtain ⟨q, hq, rfl⟩ := hp
    exact hf hact hl q hq

theorem publishSelected_some
    (h : (publishSelected last flag headers selected).published = some published) :
    selected.2 = some published.selection ∧ published.packets =
      (mapBatch (flag published.selection.activated) last 0 selected.1.timestampMapper
        published.selection.batch).2 := by
  obtain ⟨input, sel⟩ := selected
  cases sel with
  | none => cases h
  | some sel =>
    cases h
    exact ⟨rfl, rfl⟩

theorem selectOrReplay_mapper (input : IngestInput) (st : InputForwardState) (ps : List MediaPacket) :
    (input.selectOrReplay st ps).1.timestampMapper = input.timestampMapper := by
  unfold selectOrReplay
  split
  · split <;> rfl
  · simp only
    split <;> rfl

theorem selectReplay_mapper (input : IngestInput) (st : InputForwardState) :
    (input.selectReplay st).1.timestampMapper = input.timestampMapper := by
  unfold selectReplay
  split
  · rfl
  · split <;> rfl

open OneShift

theorem selectBatch_mapper (input : IngestInput) (ps : List MediaPacket) :
    (input.selectBatch ps).1.timestampMapper = input.timestampMapper := by
  unfold selectBatch
  split
  · rfl
  · split <;> rfl

namespace ForwardCall

variable {input : IngestInput} {last : Int} {published : Published}

theorem run_published {call : ForwardCall} (h : (call.run input last).published = some published) :
    call.select input = some published.selection ∧
    published.packets =
      (mapBatch (call.flag published.selection.activated)
        last 0 input.timestampMapper published.selection.batch).2 := by
  cases call with
  | ingestPackets | tryPromote | recirculation | segment =>
    obtain ⟨hs, hp⟩ := publishSelected_some h
    simp only [selectOrReplay_mapper, selectReplay_mapper, selectBatch_mapper] at hp
    exact ⟨hs, hp⟩

theorem firstOnly_oneShift
    (hf : FitsBatch (firstOnly published.selection.activated) last 0 input.timestampMapper
      published.selection.batch)
    (hp : published.packets = (mapBatch (firstOnly published.selection.activated) last 0
      input.timestampMapper published.selection.batch).2) : OneShift last published := by
  cases hb : published.selection.batch with
  | nil =>
    have hs : published.packets = published.selection.batch.map (·.shift 0) := by
      rw [hp, hb]
      rfl
    exact of_offset hs (by simp [hb])
  | cons p ps =>
    rw [hb] at hf hp
    obtain ⟨hmap, -⟩ := mapBatch_firstOnly hf
    refine of_offset (by rw [hp, hb, hmap]) fun hact hl q hq => ?_
    rw [hb, head?_cons, Option.some.injEq] at hq
    rw [← hq, hact, nextOffset_true]
    simp only [activationOffset, hl, if_false]
    omega

theorem selectBatch_activated (h : (input.selectBatch ps).2 = some sel) :
    (sel.activated = true ↔ ∃ gate, input.gate.tryEnter (batchBoundary ps) = some (gate, true)) ∧
    (sel.activated = true → sel.batch = ps.dropWhile fun p => !p.isVideoKeyframe) := by
  unfold selectBatch at h
  split at h
  · cases h
  · split at h <;> cases h
    · next gate act he =>
      constructor
      · rw [he]
        simp
      · rintro rfl
        rfl

theorem segment_oneShift
    (hf : FitsBatch (fun _ => published.selection.activated) last 0 input.timestampMapper
      published.selection.batch)
    (hpa : published.packets = (mapBatch (fun _ => published.selection.activated) last 0
      input.timestampMapper published.selection.batch).2) :
    OneShift last published ↔ (published.selection.activated = true → last ≠ i64Min →
      ∀ p ∈ published.selection.batch, ∀ q ∈ published.selection.batch, p.dts = q.dts) := by
  cases hact : published.selection.activated with
  | false =>
    rw [hact] at hf hpa
    obtain ⟨hmap, -⟩ := mapBatch_false (fun _ _ => rfl) hf
    refine ⟨fun _ h => (by cases h), fun _ => of_offset (hpa.trans hmap) fun h => ?_⟩
    rw [hact] at h
    cases h
  | true =>
    rw [hact] at hf hpa
    have hmap := hpa.trans (mapBatch_true hf)
    constructor
    · rintro ⟨⟨off, ho⟩, -, -, -⟩ - hl p hp q hq
      rw [hmap] at ho
      have hall := map_inj_left.mp ho
      have hs {x : MediaPacket} (hx : x ∈ published.selection.batch) : x.dts = last + 1 - off := by
        have hx := congrArg dts (hall x hx)
        simp only [shift, activationOffset, hl, if_false] at hx
        omega
      rw [hs hp, hs hq]
    · intro hsa
      by_cases hl : last = i64Min
      · have hz : published.packets = published.selection.batch.map (·.shift 0) := by
          simpa [activationOffset, hl] using hmap
        exact of_offset hz fun _ h => absurd hl h
      · cases hb : published.selection.batch with
        | nil =>
          have hnil : published.packets = published.selection.batch.map (·.shift 0) := by
            rw [hmap, hb]
            rfl
          exact of_offset hnil (by simp [hb])
        | cons first rest =>
          have hone : published.packets =
              published.selection.batch.map (·.shift (last + 1 - first.dts)) := by
            rw [hmap]
            refine map_congr_left fun p hp => ?_
            have hdts := hsa rfl hl p hp first (by rw [hb]; exact mem_cons_self)
            simp only [activationOffset, hl, if_false, hdts]
          refine of_offset hone fun _ _ p hp => ?_
          rw [hb, head?_cons, Option.some.injEq] at hp
          rw [← hp]
          omega

/-- Without saturation a call publishes its batch with one shift, following on
from the last forwarded timestamp when it activates the gate, exactly unless it
is a segment batch of several timestamps that activates the gate. -/
theorem one_shift_per_activation (call : ForwardCall) (input : IngestInput) (lastForwardedDts : Int)
    (hfits : call.Fits input lastForwardedDts) :
    (∀ published, (call.run input lastForwardedDts).published = some published →
      OneShift lastForwardedDts published) ↔ call.OneTimestamp input lastForwardedDts := by
  have hfirst (hflag : ∀ activated, call.flag activated = firstOnly activated)
      (published : Published) (hpub : (call.run input lastForwardedDts).published = some published) :
      OneShift lastForwardedDts published := by
    obtain ⟨hselect, hpackets⟩ := run_published hpub
    have hbatch := hfits _ hselect
    rw [hflag] at hpackets hbatch
    exact firstOnly_oneShift hbatch hpackets
  cases call with
  | ingestPackets | tryPromote | recirculation => exact iff_of_true (hfirst fun _ => rfl) trivial
  | segment packets =>
    have hsegment (published : Published)
        (hpub : ((segment packets).run input lastForwardedDts).published = some published) :
        OneShift lastForwardedDts published ↔
          (segment packets).OneTimestamp input lastForwardedDts := by
      obtain ⟨hselect, hpackets⟩ := run_published hpub
      obtain ⟨hact, hbatch⟩ := selectBatch_activated hselect
      rw [segment_oneShift (hfits _ hselect) hpackets]
      constructor
      · intro hsame henter
        have hyes := hact.mpr henter
        rw [hbatch hyes] at hsame
        exact hsame hyes
      · intro hone hyes
        rw [hbatch hyes]
        exact hone (hact.mp hyes)
    constructor
    · intro hall
      by_cases hempty : packets = []
      · subst hempty
        intro _ _ p hp
        cases hp
      · rintro ⟨gate, henter⟩
        have hpub : ∃ published,
            ((segment packets).run input lastForwardedDts).published = some published := by
          simp [run, forwardBatch, selectBatch, hempty, henter, publishSelected, publish]
        obtain ⟨published, hpub⟩ := hpub
        exact (hsegment published hpub).mp (hall published hpub) ⟨gate, henter⟩
    · intro hone published hpub
      exact (hsegment published hpub).mpr hone

def promotedInput : IngestInput := .new InputPacketGate.standby.armForPromotion 0

def takeover : List MediaPacket := [.raw .video true 100, .raw .video false 140]

theorem one_shift_per_activation_replay :
    ∃ published, ((ingestPackets (fun _ => none) 1 .awaitingKeyframe takeover).run
      promotedInput 999).published = some published ∧ OneShift 999 published := by
  have hfits :
      (ingestPackets (fun _ => none) 1 .awaitingKeyframe takeover).Fits promotedInput 999 := by
    intro selection hselect
    obtain rfl : selection = { activated := true, batch := takeover } := by
      have hvalue : (promotedInput.selectOrReplay .awaitingKeyframe takeover).2 =
          some { activated := true, batch := takeover } := by decide +kernel
      exact Option.some.inj (hselect.symm.trans hvalue)
    decide +kernel
  have hsome : ((ingestPackets (fun _ => none) 1 .awaitingKeyframe takeover).run
      promotedInput 999).published.isSome := by decide +kernel
  obtain ⟨published, hpublished⟩ := Option.isSome_iff_exists.mp hsome
  exact ⟨published, hpublished,
    (one_shift_per_activation _ promotedInput 999 hfits).mpr trivial _ hpublished⟩

/-- The segment path publishes both packets at 1000 although they are 40 apart. -/
theorem segment_activation_collapses : (segment takeover).Fits promotedInput 999 ∧
    ∃ published, ((segment takeover).run promotedInput 999).published = some published ∧
      published.packets.map dts = [1000, 1000] ∧ ¬OneShift 999 published := by
  constructor
  · intro selection hselect
    have hvalue : (promotedInput.selectBatch takeover).2 =
        some { activated := true, batch := takeover } := by
      decide +kernel
    obtain rfl := Option.some.inj (hselect.symm.trans hvalue)
    decide +kernel
  · refine ⟨{ ring := 0
              selection := { activated := true, batch := takeover }
              headers := []
              packets := [.raw .video true 1000, .raw .video false 1000] }, by decide +kernel,
              rfl, ?_⟩
    intro h
    have hdiff := h.differences (i := 1) (j := 0) rfl rfl rfl rfl
    revert hdiff
    decide

end ForwardCall

end Restream
