import Restream.RingContent
import Restream.Exec

/-! The producer of one ring as a step system: a call of `push` or `pushBatch`
queues its stores, and each store is a step of its own. -/

namespace Restream

open List RingBuffer Nat Cyclic Option

def Store.isUnit : Store → Bool
  | .unit _ _ => true
  | _ => false

def Store.isPacket : Store → Bool
  | .packet _ _ => true
  | _ => false

/-- A ring, the stores its producer has yet to make, and every packet handed to
the producer's calls, by sequence. -/
structure Publication where
  ring : RingBuffer
  todo : List Store
  log : List MediaPacket

inductive ProducerEvent where
  | push (packet : MediaPacket)
  | pushBatch (packets : List MediaPacket)
  | setTrackConfig (mediaType : MediaType) (trackIndex : Nat) (bytes : List UInt8)
  | clearTrackConfig (mediaType : MediaType) (trackIndex : Nat)
  | store

namespace Publication

def start (capacity : Nat) (h : 0 < capacity) : Publication :=
  { ring := RingBuffer.new capacity h, todo := [], log := [] }

def step (p : Publication) : ProducerEvent → Option Publication
  | .push packet =>
    if p.todo.isEmpty then
      some { p with todo := p.ring.pushStores packet, log := p.log ++ [packet] }
    else none
  | .pushBatch packets =>
    if p.todo.isEmpty then
      some { p with todo := p.ring.pushBatchStores packets, log := p.log ++ packets }
    else none
  | .setTrackConfig mediaType trackIndex bytes =>
    if p.todo.isEmpty then
      some { p with ring := (p.ring.setTrackConfig mediaType trackIndex bytes).1 }
    else none
  | .clearTrackConfig mediaType trackIndex =>
    if p.todo.isEmpty then
      some { p with ring := p.ring.clearTrackConfig mediaType trackIndex }
    else none
  | .store =>
    match p.todo with
    | [] => none
    | store :: rest => some { p with ring := p.ring.apply store, todo := rest }

def units (p : Publication) : Nat := p.log.length - p.todo.countP Store.isUnit

def stored (p : Publication) : Nat := p.log.length - p.todo.countP Store.isPacket

def Inv (p : Publication) : Prop :=
  ∃ units stored, RingHolds p.ring p.log 0 units stored ∧
    Scheduled p.log p.ring.writeIdx p.ring.writeBegin units stored p.todo

end Publication

namespace Scheduled

variable {log : List MediaPacket}

theorem units_eq (h : Scheduled log w b u s todo) :
    log.length - todo.countP Store.isUnit = u := by
  suffices hsum : u + todo.countP Store.isUnit = log.length by omega
  induction todo generalizing w b u s with
  | nil => simpa using h.2.2.1
  | cons store rest ih =>
    cases store with
    | unit i word =>
      have := ih h.2.2.2.2
      simp only [countP_cons, Store.isUnit, if_true]
      omega
    | writeBegin | packet => simpa [Store.isUnit] using ih h.2.2.2.2
    | lastKeyframeIdx i => simpa [Store.isUnit] using ih h.2.2.2.2.2
    | writeIdx i => simpa [Store.isUnit] using ih h.2.2.2

theorem stored_eq (h : Scheduled log w b u s todo) :
    log.length - todo.countP Store.isPacket = s := by
  suffices hsum : s + todo.countP Store.isPacket = log.length by omega
  induction todo generalizing w b u s with
  | nil => simpa using h.2.2.2
  | cons store rest ih =>
    cases store with
    | packet i p =>
      have := ih h.2.2.2.2
      simp only [countP_cons, Store.isPacket, if_true]
      omega
    | writeBegin | unit => simpa [Store.isPacket] using ih h.2.2.2.2
    | lastKeyframeIdx i => simpa [Store.isPacket] using ih h.2.2.2.2.2
    | writeIdx i => simpa [Store.isPacket] using ih h.2.2.2

end Scheduled

variable {r : RingBuffer} {log : List MediaPacket}

theorem packetStores_scheduled (hw : w ≤ n) (hp : log[n]? = some pkt)
    (hr : Scheduled log w (n + 1) (n + 1) (n + 1) rest) :
    Scheduled log w n n n (r.packetStores n pkt ++ rest) := by
  have hlt : n < log.length := by
    by_contra hge
    rw [getElem?_eq_none (by omega)] at hp
    cases hp
  unfold packetStores
  by_cases hk : pkt.isVideoKeyframe = true
  · simp only [hk, if_true, cons_append, nil_append]
    exact ⟨rfl, rfl, rfl, hlt, rfl, rfl, rfl, ⟨_, rfl⟩, rfl, rfl, rfl, hp, hw, lt_succ_self n, rfl,
      rfl, ⟨pkt, hp, hk⟩, hr⟩
  · simp only [hk, Bool.false_eq_true, if_false, cons_append, nil_append]
    exact ⟨rfl, rfl, rfl, hlt, rfl, rfl, rfl, ⟨_, rfl⟩, rfl, rfl, rfl, hp, hr⟩

theorem slotStores_scheduled (hw : w ≤ done.length)
    (hr : Scheduled (done ++ ps) w (done ++ ps).length (done ++ ps).length (done ++ ps).length rest) :
    Scheduled (done ++ ps) w done.length done.length done.length
      (r.slotStores done.length ps ++ rest) := by
  induction ps generalizing done with
  | nil => simpa [slotStores] using hr
  | cons pkt ps ih =>
    have happ : done ++ pkt :: ps = (done ++ [pkt]) ++ ps := by simp
    rw [slotStores, append_assoc]
    refine packetStores_scheduled hw (by simp) ?_
    rw [happ] at hr ⊢
    have hd : w ≤ (done ++ [pkt]).length := hw.trans (by simp)
    simpa only [length_append, length_singleton] using ih hd hr

theorem RingBuffer.pushStores_eq_pushBatchStores :
    r.pushStores pkt = r.pushBatchStores [pkt] := by
  simp [pushStores, pushBatchStores, slotStores]

theorem RingBuffer.setSlot_slots :
    (r.setSlot seq x).slots i = if i = seq % r.capacity then x else r.slots i := by
  simp [setSlot, Function.update_apply]

theorem RingBuffer.apply_capacity : (r.apply store).capacity = r.capacity := by
  cases store <;> rfl

namespace RingHolds

variable {log : List MediaPacket} {first units stored : Nat}

theorem apply_unit (h : RingHolds r log first units stored) (hb : r.writeBegin = units + 1)
    (unit : FrameUnit) :
    RingHolds (r.apply (.unit units (unit.pack units))) log first (units + 1) stored where
  unitWord i := by
    have hf : first ≤ units := h.first_le.trans (h.writeIdx_le.trans h.stored_le)
    change UnitWord ((r.setSlot _ _).slots i).unit (holder r.capacity first (units + 1) i)
    rw [setSlot_slots, holder_succ hf]
    by_cases hi : units % r.capacity = i
    · simpa [hi] using ⟨unit, rfl⟩
    · simpa [hi, Ne.symm hi] using h.unitWord i
  packet i := by
    change ((r.setSlot _ _).slots i).packet = (holder r.capacity first stored i).bind _
    rw [setSlot_slots, ← h.packet i]
    split
    · next hi => rw [hi]; rfl
    · rfl
  __ := h
  stored_le := h.stored_le.trans (le_succ _)
  units_le := hb.ge

theorem apply_packet (h : RingHolds r log first (stored + 1) stored) (hp : log[stored]? = some p) :
    RingHolds (r.apply (.packet stored p)) log first (stored + 1) (stored + 1) where
  unitWord i := by
    change UnitWord ((r.setSlot _ _).slots i).unit (holder r.capacity first (stored + 1) i)
    rw [setSlot_slots]
    split
    · next hi => rw [hi]; exact h.unitWord _
    · exact h.unitWord i
  packet i := by
    have hf : first ≤ stored := h.first_le.trans h.writeIdx_le
    change ((r.setSlot _ _).slots i).packet = (holder r.capacity first (stored + 1) i).bind _
    rw [setSlot_slots, holder_succ hf]
    by_cases hi : stored % r.capacity = i
    · simp [hi, hp]
    · simpa [hi, Ne.symm hi] using h.packet i
  __ := h
  writeIdx_le := h.writeIdx_le.trans (le_succ _)
  stored_le := le_refl _
  keyframe := h.keyframe.imp_right fun hk => ⟨hk.1, lt_succ_of_lt hk.2.1, hk.2.2⟩

theorem store (h : RingHolds r log first units stored) {store : Store}
    (hs : Scheduled log r.writeIdx r.writeBegin units stored (store :: rest)) :
    ∃ units' stored', RingHolds (r.apply store) log first units' stored' ∧
      Scheduled log (r.apply store).writeIdx (r.apply store).writeBegin units' stored' rest ∧
      units ≤ units' ∧ stored ≤ stored' ∧ r.writeIdx ≤ (r.apply store).writeIdx := by
  cases store with
  | writeBegin i =>
    obtain ⟨rfl, hb, rfl, hlt, hr⟩ := hs
    refine ⟨units, units, ?_, hr, le_rfl, le_rfl, le_rfl⟩
    exact { h with units_le := le_succ _, writeBegin_le := hlt }
  | unit i word =>
    obtain ⟨rfl, hb, rfl, ⟨unit, rfl⟩, hr⟩ := hs
    exact ⟨_, _, h.apply_unit hb unit, hr, le_succ _, le_rfl, le_rfl⟩
  | packet i p =>
    obtain ⟨rfl, hb, rfl, hp, hr⟩ := hs
    exact ⟨_, _, h.apply_packet hp, hr, le_rfl, le_succ _, le_rfl⟩
  | lastKeyframeIdx i =>
    obtain ⟨hle, hlt, hb, rfl, hk, hr⟩ := hs
    refine ⟨_, _, ?_, hr, le_rfl, le_rfl, le_rfl⟩
    exact { h with keyframe := .inr ⟨h.first_le.trans hle, hlt, hk⟩ }
  | writeIdx i =>
    obtain ⟨rfl, hb, rfl, hr⟩ := hs
    refine ⟨_, _, ?_, hr, le_rfl, le_rfl, h.writeIdx_le⟩
    exact { h with first_le := h.first_le.trans h.writeIdx_le, writeIdx_le := le_rfl }

theorem stores (todo : List Store) (h : RingHolds r log first units stored)
    (hs : Scheduled log r.writeIdx r.writeBegin units stored todo) :
    RingHolds (todo.foldl apply r) log first log.length log.length ∧
      (todo.foldl apply r).writeIdx = log.length ∧
      (todo.foldl apply r).writeBegin = log.length := by
  induction todo generalizing r units stored with
  | nil =>
    obtain ⟨hw, hb, rfl, rfl⟩ := hs
    exact ⟨h, hw, hb⟩
  | cons store rest ih =>
    obtain ⟨u, s, hr, hre, -, -, -⟩ := h.store hs
    exact ih hr hre

theorem pushBatchStores (h : RingHolds r log first log.length log.length)
    (hw : r.writeIdx = log.length) (hb : r.writeBegin = log.length) (ps : List MediaPacket) :
    RingHolds r (log ++ ps) first log.length log.length ∧
    Scheduled (log ++ ps) r.writeIdx r.writeBegin log.length log.length (r.pushBatchStores ps) := by
  refine ⟨h.log_append ps, ?_⟩
  rw [hb, RingBuffer.pushBatchStores, hw]
  refine slotStores_scheduled le_rfl ?_
  cases ps with
  | nil | cons => simp [Scheduled]

end RingHolds

namespace Publication

structure Advances (p q : Publication) : Prop where
  capacity : q.ring.capacity = p.ring.capacity
  log : p.log <+: q.log
  units : p.units ≤ q.units
  stored : p.stored ≤ q.stored
  writeIdx : p.ring.writeIdx ≤ q.ring.writeIdx

theorem Advances.refl (p : Publication) : Advances p p := ⟨rfl, prefix_rfl, le_rfl, le_rfl, le_rfl⟩

variable {p q : Publication}

theorem Advances.trans {r : Publication} (h : Advances p q) (h' : Advances q r) : Advances p r :=
  ⟨h'.capacity.trans h.capacity, h.log.trans h'.log, h.units.trans h'.units,
    h.stored.trans h'.stored, h.writeIdx.trans h'.writeIdx⟩

theorem Inv.holds (h : p.Inv) : RingHolds p.ring p.log 0 p.units p.stored := by
  obtain ⟨units, stored, hr, hs⟩ := h
  rwa [Publication.units, Publication.stored, hs.units_eq, hs.stored_eq]

theorem step_cases (h : p.step e = some q) : (∃ ps, p.todo = [] ∧
      q = { p with todo := p.ring.pushBatchStores ps, log := p.log ++ ps }) ∨
    (∃ cs, p.todo = [] ∧ q = { p with ring := { p.ring with trackConfigs := cs } }) ∨
    (∃ store rest, p.todo = store :: rest ∧
      q = { p with ring := p.ring.apply store, todo := rest }) := by
  cases e with
  | push pkt =>
    simp only [step, ite_none_right_eq_some, List.isEmpty_iff, some.injEq] at h
    exact .inl ⟨[pkt], h.1, by rw [← h.2, pushStores_eq_pushBatchStores]⟩
  | pushBatch ps =>
    simp only [step, ite_none_right_eq_some, List.isEmpty_iff, some.injEq] at h
    exact .inl ⟨ps, h.1, h.2.symm⟩
  | setTrackConfig mt ti bs =>
    simp only [step, ite_none_right_eq_some, List.isEmpty_iff, some.injEq] at h
    refine .inr (.inl ⟨(p.ring.setTrackConfig mt ti bs).1.trackConfigs, h.1, ?_⟩)
    rw [← h.2, setTrackConfig]
    split <;> rfl
  | clearTrackConfig mt ti =>
    simp only [step, ite_none_right_eq_some, List.isEmpty_iff, some.injEq] at h
    exact .inr (.inl ⟨_, h.1, h.2.symm⟩)
  | store =>
    cases ht : p.todo with
    | nil => simp [step, ht] at h
    | cons store rest =>
      simp only [step, ht, some.injEq] at h
      exact .inr (.inr ⟨store, rest, rfl, h.symm⟩)

theorem start_inv (cap : Nat) (h : 0 < cap) : (start cap h).Inv := by
  refine ⟨0, 0, ?_, rfl, rfl, rfl, rfl⟩
  exact
    { unitWord := fun _ => rfl
      packet := fun _ => rfl
      first_le := le_rfl
      writeIdx_le := le_rfl
      stored_le := le_rfl
      units_le := le_rfl
      writeBegin_le := le_rfl
      keyframe := .inl rfl }

theorem Inv.step (h : p.Inv) (hst : p.step e = some q) : q.Inv ∧ Advances p q := by
  obtain ⟨units, stored, hr, hs⟩ := h
  have hpu : p.units = units := hs.units_eq
  have hps : p.stored = stored := hs.stored_eq
  obtain ⟨ps, ht, rfl⟩ | ⟨cs, ht, rfl⟩ | ⟨store, rest, ht, rfl⟩ := step_cases hst
  · rw [ht] at hs
    obtain ⟨hw, hb, rfl, rfl⟩ := hs
    obtain ⟨hr', hs'⟩ := hr.pushBatchStores hw hb ps
    exact ⟨⟨_, _, hr', hs'⟩, rfl, prefix_append _ _, (hpu.trans hs'.units_eq.symm).le,
      (hps.trans hs'.stored_eq.symm).le, le_rfl⟩
  · have hr' : RingHolds { p.ring with trackConfigs := cs } p.log 0 units stored :=
      { hr with }
    exact ⟨⟨units, stored, hr', hs⟩, rfl, prefix_rfl, le_rfl, le_rfl, le_rfl⟩
  · rw [ht] at hs
    obtain ⟨u, s, hr', hs', hule, hsle, hwle⟩ := hr.store hs
    exact ⟨⟨u, s, hr', hs'⟩, apply_capacity, prefix_rfl,
      (hpu.le.trans hule).trans hs'.units_eq.ge, (hps.le.trans hsle).trans hs'.stored_eq.ge, hwle⟩

end Publication

end Restream
