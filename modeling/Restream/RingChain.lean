import Restream.RingResize
import Restream.Tables

/-! A ring and the rings that replaced it. The producer publishes into the
newest ring and may resize it between two calls; readers attach to any ring,
pull, and move along the links when they have drained a sealed one. -/

namespace Restream

open List Option Function

namespace Reader

def migrateTo (rd : Reader) (newRing : RingId) (r : RingBuffer) : Reader :=
  if 0 < rd.migrationPrerollPackets ∧ rd.readIdx = r.writeIdx ∧
      r.fastForward r.writeIdx < r.writeIdx then
    { rd with
      buffer := newRing
      readIdx := max (r.fastForward r.writeIdx - rd.migrationPrerollPackets)
        (r.writeIdx - (r.capacity - 1)) }
  else { rd with buffer := newRing }

/-- `waitForData` up to its return (`true`) or to the point where it sleeps until
the next notification (`false`), `none` if it follows more links than the fuel. -/
def waitForData (ring : RingId → Option RingBuffer) : Nat → Reader → Option (Reader × Bool)
  | 0, _ => none
  | fuel + 1, rd => do
    let r ← ring rd.buffer
    if rd.readIdx < r.writeIdx then return (rd, true)
    else
      match r.next with
      | some next => waitForData ring fuel (rd.migrateTo next (← ring next))
      | none => return (rd, r.endOfStream)

end Reader

/-- A reader with its start sequence, what it has returned, whether a call
failed, and whether it ever was a capacity or more behind its ring. -/
structure ChainReader where
  reader : Reader
  start : Nat
  returned : List MediaPacket
  failed : Bool
  lapped : Bool

inductive Attach where
  | new
  | live
  | keyframePreroll (prerollPackets : Nat)
  | stageInput

def Attach.reader (id : RingId) (r : RingBuffer) : Attach → Reader
  | .new => Reader.new id r
  | .live => Reader.newLive id r
  | .keyframePreroll prerollPackets => Reader.newWithKeyframePreroll id r prerollPackets
  | .stageInput => Reader.newStageInput id r 0

/-- The sealed rings, the ring the producer publishes into, the oldest sequence
each ring was made with, every packet published, and the readers. -/
structure RingChain where
  older : List RingBuffer
  newest : RingBuffer
  oldest : RingId → Nat
  log : List MediaPacket
  readers : List ChainReader

inductive ChainEvent where
  | push (packet : MediaPacket)
  | pushBatch (packets : List MediaPacket)
  | setTrackConfig (mediaType : MediaType) (trackIndex : Nat) (bytes : List UInt8)
  | clearTrackConfig (mediaType : MediaType) (trackIndex : Nat)
  | markEndOfStream
  | resize (capacity : Nat)
  | attach (ring : RingId) (how : Attach)
  | waitForData (reader : Nat)
  | pull (reader : Nat)
  | pullBurst (reader maxPackets : Nat)

namespace RingChain

def start (capacity : Nat) (h : 0 < capacity) : RingChain :=
  { older := [], newest := RingBuffer.new capacity h, oldest := fun _ => 0, log := [], readers := [] }

def ring (c : RingChain) (id : RingId) : Option RingBuffer := (c.older ++ [c.newest])[id]?

def lapsReader (c : RingChain) (rd : Reader) : Bool :=
  (c.ring rd.buffer).any fun r => decide (r.capacity ≤ r.writeIdx - rd.readIdx)

def noteLag (c : RingChain) : RingChain :=
  { c with readers := c.readers.map fun x => { x with lapped := x.lapped || c.lapsReader x.reader } }

def resize (c : RingChain) (capacity : Nat) : Option RingChain :=
  if h : c.newest.capacity < capacity then
    some { c with
      older := c.older ++ [c.newest.sealAndForward (c.older.length + 1)]
      newest := c.newest.resized capacity (Nat.zero_lt_of_lt h)
      oldest := Function.update c.oldest (c.older.length + 1)
        (max (c.oldest c.older.length) c.newest.tailStart) }
  else none

def setReader (c : RingChain) (i : Nat) (x : ChainReader) : RingChain :=
  { c with readers := c.readers.set i x }

def act (c : RingChain) : ChainEvent → Option RingChain
  | .push packet => some { c with newest := c.newest.push packet, log := c.log ++ [packet] }
  | .pushBatch packets =>
    some { c with newest := c.newest.pushBatch packets, log := c.log ++ packets }
  | .setTrackConfig mediaType trackIndex bytes =>
    some { c with newest := (c.newest.setTrackConfig mediaType trackIndex bytes).1 }
  | .clearTrackConfig mediaType trackIndex =>
    some { c with newest := c.newest.clearTrackConfig mediaType trackIndex }
  | .markEndOfStream => some { c with newest := c.newest.markEndOfStream }
  | .resize capacity => c.resize capacity
  | .attach id how => do
    let rd := how.reader id (← c.ring id)
    let x : ChainReader :=
      { reader := rd, start := rd.readIdx, returned := [], failed := false, lapped := false }
    return { c with readers := c.readers ++ [x] }
  | .waitForData i => do
    let x ← c.readers[i]?
    let (rd, _) ← x.reader.waitForData c.ring (c.older.length + 1)
    return c.setReader i { x with reader := rd }
  | .pull i => do
    let x ← c.readers[i]?
    match ← x.reader.pull (← c.ring x.reader.buffer) with
    | (rd, .ok packet) =>
      return c.setReader i { x with reader := rd, returned := x.returned ++ packet.toList }
    | (rd, .error _) => return c.setReader i { x with reader := rd, failed := true }
  | .pullBurst i maxPackets => do
    let x ← c.readers[i]?
    match x.reader.pullBurst (← c.ring x.reader.buffer) x.returned maxPackets with
    | (rd, returned, .ok _) => return c.setReader i { x with reader := rd, returned := returned }
    | (rd, returned, .error _) =>
      return c.setReader i { x with reader := rd, returned := returned, failed := true }

def step (c : RingChain) (e : ChainEvent) : Option RingChain := (c.act e).map noteLag

/-- A reader with a preroll attaches at a sequence its ring was made with. -/
def PrerollHeld (c : RingChain) (e : ChainEvent) : Prop :=
  ∀ id prerollPackets, e = .attach id (.keyframePreroll prerollPackets) →
    ∀ r, c.ring id = some r → c.oldest id ≤ Reader.prerollStart r prerollPackets

def prerollHeld (c : RingChain) : ChainEvent → Bool
  | .attach id (.keyframePreroll prerollPackets) =>
    (c.ring id).all fun r => decide (c.oldest id ≤ Reader.prerollStart r prerollPackets)
  | _ => true

instance (c : RingChain) (e : ChainEvent) : Decidable (c.PrerollHeld e) :=
  decidable_of_iff (c.prerollHeld e = true) (by
    unfold prerollHeld PrerollHeld
    split
    · simp [Option.all_eq_true]
    · next hne => simpa using fun id n h => (hne id n h).elim)

def published (c : RingChain) (start stop : Nat) : List MediaPacket := (c.log.take stop).drop start

theorem ring_newest (c : RingChain) : c.ring c.older.length = some c.newest := by
  simp [ring]

variable {c : RingChain} {id : Nat} {r : RingBuffer}

theorem ring_older (h : c.older[id]? = some r) : c.ring id = some r := by
  obtain ⟨hlt, -⟩ := List.getElem?_eq_some_iff.mp h
  rw [ring, List.getElem?_append_left hlt, h]

theorem ring_cases (h : c.ring id = some r) :
    c.older[id]? = some r ∨ (id = c.older.length ∧ r = c.newest) :=
  getElem?_concat_cases h

/-- Each ring holds its part of the log, and each sealed ring leads to the one
that continues it. -/
structure Linked (c : RingChain) : Prop where
  quiet : ∀ {id : Nat} {r}, c.ring id = some r → RingQuiet r (c.log.take r.writeIdx) (c.oldest id)
  newest_writeIdx : c.newest.writeIdx = c.log.length
  newest_next : c.newest.next = none
  links : ∀ {id : Nat} {r}, c.older[id]? = some r → r.next = some (id + 1) ∧
    c.oldest (id + 1) ≤ r.writeIdx ∧
    ∀ r', c.ring (id + 1) = some r' → r.writeIdx ≤ r'.writeIdx

structure Grows (c d : RingChain) : Prop where
  log : c.log <+: d.log
  ring : ∀ {id : Nat} {r}, c.ring id = some r →
    d.oldest id = c.oldest id ∧ ∃ r', d.ring id = some r' ∧ r.writeIdx ≤ r'.writeIdx
  readers : d.readers = c.readers

end RingChain

theorem RingQuiet.pushBatch (h : RingQuiet r log first) (ps : List MediaPacket) :
    RingQuiet (r.pushBatch ps) (log ++ ps) first := by
  obtain ⟨hr, hs⟩ := h.holds.pushBatchStores h.writeIdx h.writeBegin ps
  obtain ⟨hr', hw, hb⟩ := hr.stores _ hs
  exact ⟨hr', hw, hb⟩

theorem RingQuiet.withConfigs (h : RingQuiet r log first)
    (cs : TrackConfigs) (endOfStream : Bool) (next : Option RingId) :
    RingQuiet { r with trackConfigs := cs, endOfStream := endOfStream, next := next } log first :=
  ⟨{ h.holds with }, h.writeIdx, h.writeBegin⟩

theorem RingBuffer.pushBatch_next (r : RingBuffer) (ps : List MediaPacket) :
    (r.pushBatch ps).next = r.next := by
  unfold pushBatch
  induction r.pushBatchStores ps generalizing r with
  | nil => rfl
  | cons store rest ih =>
    rw [foldl_cons, ih]
    cases store <;> rfl

namespace RingChain

variable {c : RingChain}

theorem start_linked (cap : Nat) (h : 0 < cap) : (start cap h).Linked where
  quiet hr := by
    rcases ring_cases hr with hold | ⟨-, rfl⟩
    · simp [start] at hold
    · exact (Publication.start_inv cap h).quiet rfl
  newest_writeIdx := rfl
  newest_next := rfl
  links hr := by simp [start] at hr

theorem Linked.quiet_newest (h : c.Linked) : RingQuiet c.newest c.log (c.oldest c.older.length) := by
  have hq := h.quiet c.ring_newest
  rwa [h.newest_writeIdx, take_length] at hq

theorem Linked.writeIdx_le (h : c.Linked) {id : Nat} (hr : c.ring id = some r) :
    r.writeIdx ≤ c.log.length := by
  have hw := (h.quiet hr).writeIdx
  rw [length_take] at hw
  omega

theorem Linked.publish (h : c.Linked) {newest : RingBuffer}
    (hq : RingQuiet newest (c.log ++ ps) (c.oldest c.older.length)) (hn : newest.next = none) :
    Linked { c with newest := newest, log := c.log ++ ps } ∧
      Grows c { c with newest := newest, log := c.log ++ ps } := by
  have hw := hq.writeIdx
  have hlen : c.newest.writeIdx ≤ newest.writeIdx := by
    rw [h.newest_writeIdx, hw, length_append]
    exact Nat.le_add_right _ _
  have hg {id : Nat} {r : RingBuffer} (hr : c.ring id = some r) :
      ∃ r', ring { c with newest := newest, log := c.log ++ ps } id = some r' ∧
        r.writeIdx ≤ r'.writeIdx := by
    rcases ring_cases hr with hold | ⟨rfl, rfl⟩
    · exact ⟨r, ring_older hold, le_rfl⟩
    · exact ⟨newest, ring_newest _, hlen⟩
  refine ⟨⟨fun {id r} hr => ?_, hw, hn, fun {id r} hr => ?_⟩,
    ⟨prefix_append _ _, fun hr => ⟨rfl, hg hr⟩, rfl⟩⟩
  · rcases ring_cases hr with hold | ⟨rfl, rfl⟩
    · have hq' := h.quiet (ring_older hold)
      rwa [← take_append_of_le_length (h.writeIdx_le (ring_older hold))] at hq'
    · rw [hw, take_length]
      exact hq
  · obtain ⟨hl, hold, hle⟩ := h.links hr
    refine ⟨hl, hold, fun r' hr' => ?_⟩
    rcases ring_cases hr' with hold' | ⟨hid, rfl⟩
    · exact hle r' (ring_older hold')
    · have hnew := hle c.newest (by rw [hid]; exact c.ring_newest)
      exact hnew.trans hlen

theorem Linked.resize (h : c.Linked) (hd : c.resize cap = some d) : d.Linked ∧ Grows c d := by
  simp only [RingChain.resize, dite_none_right_eq_some, Option.some.injEq] at hd
  obtain ⟨hg, rfl⟩ := hd
  have hcap : 0 < cap := Nat.zero_lt_of_lt hg
  have hn := h.quiet_newest
  obtain ⟨-, hw, -, -, hne⟩ := RingBuffer.resized_frame c.newest hcap
  have hnew := hn.resized hcap hg
  have hf := hnew.holds.first_le
  have hk {id : Nat} (hid : id ≤ c.older.length) : update c.oldest (c.older.length + 1)
      (max (c.oldest c.older.length) c.newest.tailStart) id = c.oldest id :=
    update_of_ne (Nat.lt_succ_of_le hid).ne _ _
  let mid : RingChain := { c with newest := c.newest.sealAndForward (c.older.length + 1) }
  have hmid {id : Nat} {r : RingBuffer} (hr : mid.ring id = some r) :
      id ≤ c.older.length ∧ (c.older[id]? = some r ∨
        (id = c.older.length ∧ r = c.newest.sealAndForward (c.older.length + 1))) := by
    have hc := ring_cases hr
    refine ⟨?_, hc⟩
    rcases hc with hold | ⟨rfl, -⟩
    · exact (List.getElem?_eq_some_iff.mp hold).1.le
    · exact le_rfl
  refine ⟨⟨fun {id r} hr => ?_, hw.trans h.newest_writeIdx, hne, fun {id r} hr => ?_⟩,
    ⟨prefix_rfl, fun {id r} hr => ?_, rfl⟩⟩
  · rcases ring_cases hr with hold | ⟨rfl, rfl⟩
    · obtain ⟨hid, hold | ⟨rfl, rfl⟩⟩ := hmid hold
      · simp only [hk hid]
        exact h.quiet (ring_older hold)
      · simp only [hk le_rfl]
        rw [show (c.newest.sealAndForward _).writeIdx = c.log.length from h.newest_writeIdx,
          take_length]
        exact hn.withConfigs _ _ _
    · simp only [length_append, length_singleton, update_self]
      rw [hw, h.newest_writeIdx, take_length]
      exact hnew
  · obtain ⟨hid, hold | ⟨rfl, rfl⟩⟩ := hmid hr
    · have hlt := (List.getElem?_eq_some_iff.mp hold).1
      obtain ⟨hl, hs, hle⟩ := h.links hold
      simp only [hk (Nat.succ_le_of_lt hlt)]
      refine ⟨hl, hs, fun r' hr' => ?_⟩
      rcases ring_cases hr' with hold' | ⟨hid', -⟩
      · obtain ⟨-, hold' | ⟨hid', rfl⟩⟩ := hmid hold'
        · exact hle r' (ring_older hold')
        · exact hle c.newest (by rw [hid']; exact c.ring_newest)
      · simp only [length_append, length_singleton] at hid'
        omega
    · simp only [update_self]
      refine ⟨rfl, hw ▸ hf, fun r' hr' => ?_⟩
      rcases ring_cases hr' with hold' | ⟨-, rfl⟩
      · have hid' := (hmid hold').1
        omega
      · exact hw.ge
  · rcases ring_cases hr with hold | ⟨rfl, rfl⟩
    · have hlt := (List.getElem?_eq_some_iff.mp hold).1
      refine ⟨hk hlt.le, r, ring_older ?_, le_rfl⟩
      rw [getElem?_append_left hlt]
      exact hold
    · exact ⟨hk le_rfl, c.newest.sealAndForward (c.older.length + 1), ring_older (by simp), le_rfl⟩

end RingChain

end Restream
