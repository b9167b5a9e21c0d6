import Restream.RtmpEncoder

/-! The shared memo of Raw to FLV conversions of a shard. Payloads are ranges of a memory that
may be written again once no handle to them is left. -/

namespace Restream.Rtmp

open List Option

structure Buffer where
  address : Nat
  length : Nat
  deriving DecidableEq

abbrev Memory := Nat → UInt8

def Memory.read (memory : Memory) (buffer : Buffer) : List UInt8 :=
  (range buffer.length).map fun i => memory (buffer.address + i)

structure SharedPacket where
  mediaType : MediaType
  format : PayloadFormat
  isKeyframe : Bool
  trackIndex : Nat
  pts : Int
  dts : Int
  payload : Buffer
  deriving DecidableEq

def SharedPacket.packet (p : SharedPacket) (memory : Memory) : MediaPacket :=
  { mediaType := p.mediaType
    format := p.format
    isKeyframe := p.isKeyframe
    trackIndex := p.trackIndex
    pts := p.pts
    dts := p.dts
    payload := memory.read p.payload }

def entries : Nat := 64

structure Slot where
  source : Buffer
  mediaType : MediaType
  enhancedHevc : Bool
  isKeyframe : Bool
  pts : Int
  dts : Int
  converted : Option (List UInt8)

def Slot.matches (slot : Slot) (packet : SharedPacket) (enhancedHevc : Bool) : Bool :=
  slot.source.address = packet.payload.address && slot.source.length = packet.payload.length &&
    slot.mediaType = packet.mediaType && slot.enhancedHevc = enhancedHevc &&
    slot.isKeyframe = packet.isKeyframe && slot.pts = packet.pts && slot.dts = packet.dts

structure RtmpPayloadCache where
  recent : List Slot

def RtmpPayloadCache.convert (cache : RtmpPayloadCache) (memory : Memory) (packet : SharedPacket)
    (enhancedHevc : Bool) : RtmpPayloadCache × Option (List UInt8) :=
  match cache.recent.reverse.find? (·.matches packet enhancedHevc) with
  | some slot => (cache, slot.converted)
  | none =>
    let converted := convertRaw (packet.packet memory) enhancedHevc
    let recent := if cache.recent.length = entries then cache.recent.drop 1 else cache.recent
    ({ recent := recent ++ [
        { source := packet.payload
          mediaType := packet.mediaType
          enhancedHevc := enhancedHevc
          isKeyframe := packet.isKeyframe
          pts := packet.pts
          dts := packet.dts
          converted := converted }] }, converted)

/-- A cache with the handles its callers hold, and every answer beside the conversion of its
packet at that time. -/
structure CacheRun where
  memory : Memory
  callers : List Buffer
  cache : RtmpPayloadCache
  answers : List (Option (List UInt8) × Option (List UInt8))

inductive CacheEvent where
  | acquire (buffer : Buffer)
  | drop (index : Nat)
  | write (memory : Memory)
  | convert (packet : SharedPacket) (enhancedHevc : Bool)

namespace CacheRun

def start (memory : Memory) : CacheRun :=
  { memory := memory, callers := [], cache := { recent := [] }, answers := [] }

def step (r : CacheRun) : CacheEvent → Option CacheRun
  | .acquire buffer => some { r with callers := r.callers ++ [buffer] }
  | .drop index => some { r with callers := r.callers.eraseIdx index }
  | .write memory => some { r with memory := memory }
  | .convert packet enhancedHevc =>
    let (cache, answer) := r.cache.convert r.memory packet enhancedHevc
    some
      { r with
        cache := cache
        answers := r.answers ++ [(answer, convertRaw (packet.packet r.memory) enhancedHevc)] }

def live (r : CacheRun) : List Buffer := r.callers ++ r.cache.recent.map Slot.source

/-- Memory under a handle stays as it is, and a caller holds the payload it converts. -/
def Allowed (r : CacheRun) : CacheEvent → Prop
  | .write memory => ∀ buffer ∈ r.live, memory.read buffer = r.memory.read buffer
  | .convert packet _ => packet.payload ∈ r.callers
  | .acquire _ | .drop _ => True

instance (r : CacheRun) (e : CacheEvent) : Decidable (r.Allowed e) := by
  unfold Allowed
  split <;> infer_instance

structure Inv (r : CacheRun) : Prop where
  bound : r.cache.recent.length ≤ entries
  entry : ∀ slot ∈ r.cache.recent, ∀ packet enhancedHevc, slot.matches packet enhancedHevc = true →
    slot.converted = convertRaw (packet.packet r.memory) enhancedHevc
  answers : ∀ x ∈ r.answers, x.1 = x.2

variable {r r' : CacheRun} {memory : Memory}

theorem Slot.payload_eq {slot : Slot} (h : slot.matches packet hevc = true) :
    packet.payload = slot.source := by
  obtain ⟨⟨address, length⟩, _⟩ := slot
  simp only [Slot.matches, Bool.and_eq_true, decide_eq_true_eq] at h
  obtain ⟨⟨⟨⟨⟨⟨rfl, rfl⟩, _⟩, _⟩, _⟩, _⟩, _⟩ := h
  rfl

theorem Inv.convert (h : r.Inv) (packet : SharedPacket) (hevc : Bool) :
    (r.cache.convert r.memory packet hevc).2 = convertRaw (packet.packet r.memory) hevc ∧
    (r.cache.convert r.memory packet hevc).1.recent.length ≤ entries ∧
    ∀ slot ∈ (r.cache.convert r.memory packet hevc).1.recent,
      ∀ q enhanced, slot.matches q enhanced = true →
      slot.converted = convertRaw (q.packet r.memory) enhanced := by
  unfold RtmpPayloadCache.convert
  split
  · next slot hf =>
    have hmem := mem_reverse.mp (mem_of_find?_eq_some hf)
    exact ⟨h.entry slot hmem packet hevc (by simpa using find?_some hf), h.bound, h.entry⟩
  · have hle := h.bound
    have hpos : entries = 64 := rfl
    refine ⟨rfl, ?_, fun slot hs q enhanced hm => ?_⟩
    · simp only [length_append, length_singleton]
      split
      · rw [length_drop]
        omega
      · omega
    · rcases mem_append.mp hs with hs | hs
      · refine h.entry slot ?_ q enhanced hm
        split at hs
        · exact mem_of_mem_drop hs
        · exact hs
      · obtain rfl := mem_singleton.mp hs
        have hb := Slot.payload_eq hm
        simp only [Slot.matches, Bool.and_eq_true, decide_eq_true_eq] at hm
        obtain ⟨⟨⟨⟨⟨-, hmt⟩, rfl⟩, hk⟩, hp⟩, hd⟩ := hm
        simp only [SharedPacket.packet, convertRaw, hb, hmt, hk, hp, hd]

theorem Inv.step (h : r.Inv) (hg : r.Allowed e) (hs : r.step e = some r') : r'.Inv := by
  cases e with
  | acquire | drop =>
    cases hs
    exact { h with }
  | write memory =>
    cases hs
    refine { h with entry := fun slot hmem packet hevc hm => ?_ }
    have hb := hg slot.source (mem_append_right _ (mem_map_of_mem hmem))
    rw [h.entry slot hmem packet hevc hm, SharedPacket.packet,
      SharedPacket.packet, Slot.payload_eq hm, hb]
  | convert packet hevc =>
    cases hs
    obtain ⟨ha, hle, he⟩ := h.convert packet hevc
    refine ⟨hle, he, fun x hx => ?_⟩
    rcases mem_append.mp hx with hx | hx
    · exact h.answers x hx
    · rw [mem_singleton.mp hx]
      exact ha

/-- Whatever is dropped and written again between the calls, every call answers with the
conversion of its packet, and the cache stays within its bound. -/
theorem shared_conversion (h : Exec.Reachable step Allowed (start memory) r) :
    (∀ x ∈ r.answers, x.1 = x.2) ∧ r.cache.recent.length ≤ 64 := by
  have hinv := h.invariant Inv (fun _ _ _ h hg hs => h.step hg hs)
    ⟨Nat.zero_le _, fun _ hs => (by cases hs), fun _ hx => (by cases hx)⟩
  exact ⟨hinv.answers, hinv.bound⟩

def audioAt (address : Nat) : CacheEvent :=
  .convert ⟨.audio, .raw, false, 0, 0, 0, ⟨address, 2⟩⟩ false

/-- A hit, and a payload in memory that was dropped and written again. -/
theorem shared_conversion_rewritten : ∃ r, Exec.Reachable step Allowed (start fun _ => 1) r ∧
    r.cache.recent.length = 2 ∧
    r.answers.map Prod.fst =
      [some [0xAF, 1, 1, 1], some [0xAF, 1, 1, 1], some [0xAF, 1, 2, 2]] ∧
    ∀ x ∈ r.answers, x.1 = x.2 :=
  Exec.exists_reachable_of_observed
    [.acquire ⟨0, 2⟩, .acquire ⟨2, 2⟩, audioAt 0, audioAt 0, .drop 1,
      .write fun i => if i < 2 then 1 else 2, .acquire ⟨2, 2⟩, audioAt 2]
    (fun r => r.cache.recent.length = 2 ∧ r.answers.map Prod.fst =
      [some [0xAF, 1, 1, 1], some [0xAF, 1, 1, 1], some [0xAF, 1, 2, 2]]) (by decide)
    fun _ hr ⟨hlen, hanswers⟩ => ⟨hlen, hanswers, (shared_conversion hr).1⟩

end CacheRun

end Restream.Rtmp
