import Restream.Producer
import Restream.Reader

/-! One ring, its producer's stores and the whole calls of any number of
readers, interleaved. What a reader returned is kept with the sequence of each
packet. -/

namespace Restream

open List Option Reader Exec

/-- The packets of a call with their sequences, the run that ends just before
the reader's next sequence. -/
def Reader.sequenced (rd : Reader) (packets : List MediaPacket) : List (Nat × MediaPacket) :=
  (packets.zipIdx (rd.readIdx - packets.length)).map Prod.swap

structure RingClient where
  reader : Reader
  returned : List (Nat × MediaPacket)

namespace RingClient

def new (r : RingBuffer) : RingClient := { reader := Reader.new 0 r, returned := [] }

def pull (c : RingClient) (r : RingBuffer) : Option RingClient :=
  (c.reader.pull r).map fun (rd, result) =>
    match result with
    | .ok (some p) => { reader := rd, returned := c.returned ++ rd.sequenced [p] }
    | .ok none | .error _ => { c with reader := rd }

def pullBurst (c : RingClient) (r : RingBuffer) (maxPackets : Nat) : RingClient :=
  let (rd, packets, _) := c.reader.pullBurst r [] maxPackets
  { reader := rd, returned := c.returned ++ rd.sequenced packets }

end RingClient

structure Delivery where
  pub : Publication
  clients : List RingClient

inductive DeliveryEvent where
  | producer (e : ProducerEvent)
  | newReader
  | pull (i : Nat)
  | pullBurst (i maxPackets : Nat)

namespace Delivery

def start (capacity : Nat) (h : 0 < capacity) : Delivery :=
  { pub := Publication.start capacity h, clients := [] }

def step (d : Delivery) : DeliveryEvent → Option Delivery
  | .producer e => (d.pub.step e).map fun pub => { d with pub := pub }
  | .newReader => some { d with clients := d.clients ++ [RingClient.new d.pub.ring] }
  | .pull i => do
    let c ← d.clients[i]?
    let c ← c.pull d.pub.ring
    return { d with clients := d.clients.set i c }
  | .pullBurst i maxPackets => do
    let c ← d.clients[i]?
    return { d with clients := d.clients.set i (c.pullBurst d.pub.ring maxPackets) }

/-- A `pull` reads no further than the packets already stored: at most at the
write index, or at a later sequence whose packet is in its slot. -/
def PullsStored (d : Delivery) : DeliveryEvent → Prop
  | .pull i => ∀ c ∈ d.clients[i]?,
    c.reader.readIdx ≤ d.pub.ring.writeIdx ∨ c.reader.readIdx < d.pub.stored
  | _ => True

instance (d : Delivery) (e : DeliveryEvent) : Decidable (d.PullsStored e) := by
  unfold PullsStored
  split <;> infer_instance

end Delivery

theorem Reader.mem_sequenced {rd : Reader} (hx : x ∈ rd.sequenced packets) :
    ∃ i, x.1 = rd.readIdx - packets.length + i ∧ packets[i]? = some x.2 := by
  simp only [sequenced, List.mem_map, Prod.exists] at hx
  obtain ⟨p, s, hmem, rfl⟩ := hx
  rw [mem_zipIdx_iff_le_and_getElem?_sub] at hmem
  exact ⟨s - (rd.readIdx - packets.length), by simp only [Prod.fst_swap]; omega, hmem.2⟩

/-- What holds between a publication and one of its readers at every step. A
sequence already returned lies behind the read position, unless it has been
overwritten and cannot be read again. -/
structure RingClient.Inv (pub : Publication) (c : RingClient) : Prop where
  readIdx_le : c.reader.readIdx ≤ pub.stored
  position : c.reader.readIdx ≤ pub.ring.writeIdx ∨ c.reader.awaitingKeyframe = false ∨
    IsKeyframeAt pub.log c.reader.readIdx
  published : ∀ x ∈ c.returned, pub.log[x.1]? = some x.2
  increasing : (c.returned.map Prod.fst).Pairwise (· < ·)
  behind : ∀ x ∈ c.returned, x.1 < c.reader.readIdx ∨ x.1 + pub.ring.capacity < pub.units

namespace RingClient.Inv

variable {pub pub' : Publication} {c : RingClient}

theorem advance (h : Inv pub c) (ha : pub.Advances pub') : Inv pub' c where
  readIdx_le := h.readIdx_le.trans ha.stored
  position := by
    rcases h.position with hw | hf | hk
    · exact .inl (hw.trans ha.writeIdx)
    · exact .inr (.inl hf)
    · exact .inr (.inr (hk.mono ha.log))
  published x hx := getElem?_extend ha.log (h.published x hx)
  increasing := h.increasing
  behind x hx := by
    have hu := ha.units
    rw [ha.capacity]
    exact (h.behind x hx).imp_right fun hlt => by omega

theorem new (hp : pub.Inv) : Inv pub (RingClient.new pub.ring) where
  readIdx_le := by
    have hw := hp.holds.writeIdx_le
    rcases hp.holds.fastForward_cases pub.ring.writeIdx with ⟨-, hlt, -, -⟩ | heq
    · exact hlt.le
    · simp only [RingClient.new, Reader.new, register, heq]
      exact hw
  position := .inr (.inl rfl)
  published := by simp [RingClient.new]
  increasing := by simp [RingClient.new]
  behind := by simp [RingClient.new]

variable (h : Inv pub c) (hp : pub.Inv)
include h hp

theorem returns (hlog : pub.log.length < 2 ^ 31)
    (run : ReadRun pub.ring c.reader rd' sk packets) (hend : rd'.readIdx ≤ pub.stored)
    (hpos : rd'.readIdx ≤ pub.ring.writeIdx ∨ rd'.awaitingKeyframe = false ∨
      IsKeyframeAt pub.log rd'.readIdx) :
    Inv pub { reader := rd', returned := c.returned ++ rd'.sequenced packets } := by
  have hidx := run.readIdx
  have hr (i : Nat) (p : MediaPacket) (hi : packets[i]? = some p) :
      pub.log[rd'.readIdx - packets.length + i]? = some p ∧
        pub.units ≤ rd'.readIdx - packets.length + i + pub.ring.capacity := by
    have hi' : (sk ++ packets)[sk.length + i]? = some p := by
      rwa [getElem?_append_right (Nat.le_add_right _ _), Nat.add_sub_cancel_left]
    have hlt := (List.getElem?_eq_some_iff.mp hi).1
    have := hp.holds.readAt_some hlog (by omega) (run.slice.readAt hi')
    rwa [← Nat.add_assoc, show c.reader.readIdx + sk.length =
      rd'.readIdx - packets.length by omega] at this
  refine ⟨hend, hpos, ?_, ?_, ?_⟩
  · intro x hx
    rcases mem_append.mp hx with hold | hnew
    · exact h.published x hold
    · obtain ⟨i, hxi, hi⟩ := mem_sequenced hnew
      rw [hxi]
      exact (hr i x.2 hi).1
  · rw [map_append, pairwise_append]
    refine ⟨h.increasing, ?_, ?_⟩
    · simpa [sequenced, Function.comp_def] using pairwise_lt_range'
    · intro a ha b hb
      obtain ⟨x, hx, rfl⟩ := mem_map.mp ha
      obtain ⟨y, hy, rfl⟩ := mem_map.mp hb
      obtain ⟨i, hyi, hi⟩ := mem_sequenced hy
      have hu := (hr i y.2 hi).2
      rcases h.behind x hx with hlt | hl <;> omega
  · intro x hx
    rcases mem_append.mp hx with hold | hnew
    · exact (h.behind x hold).imp_left fun hlt => by simp only; omega
    · obtain ⟨i, hxi, hi⟩ := mem_sequenced hnew
      have hlt : i < packets.length := (List.getElem?_eq_some_iff.mp hi).1
      exact .inl (by simp only; omega)

theorem resync {mid : Reader} (hmid : c.reader.readIdx ≤ mid.readIdx)
    (hl : mid.lagsALap pub.ring pub.ring.writeIdx = true ∨
      mid.readIdx + pub.ring.capacity < pub.units) :
    Inv pub { c with reader := mid.resync pub.ring pub.ring.writeIdx } := by
  have hc := hp.holds.fastForward_cases pub.ring.writeIdx
  refine ⟨?_, ?_, h.published, h.increasing, ?_⟩
  · have hw := hp.holds.writeIdx_le
    simp only [Reader.resync]
    rcases hc with ⟨-, hlt, -, -⟩ | heq <;> omega
  · rcases hc with ⟨-, -, -, hk⟩ | heq
    · exact .inr (.inr hk)
    · exact .inl heq.le
  · intro x hx
    simp only [Reader.resync]
    rcases h.behind x hx with hlt | hold
    · rcases hl with hlag | ho
      · simp only [Reader.lagsALap, decide_eq_true_eq] at hlag
        rcases hc with ⟨-, -, hin, -⟩ | heq <;> exact .inl (by omega)
      · exact .inr (by omega)
    · exact .inr hold

variable (hlog : pub.log.length < 2 ^ 31)
include hlog

theorem pullBurst (maxP : Nat) : Inv pub (c.pullBurst pub.ring maxP) := by
  have hst := hp.holds.writeIdx_le
  have hle := h.readIdx_le
  rcases hcall : c.reader.pullBurst pub.ring [] maxP with ⟨rd', o, res⟩
  obtain ⟨packets, rfl, hres⟩ := pullBurst_result hcall
  simp only [RingClient.pullBurst, hcall]
  cases hres with
  | packets run hw _ _ =>
    refine h.returns hp hlog run (by omega) ?_
    by_cases hpa : rd'.readIdx ≤ pub.ring.writeIdx
    · exact .inl hpa
    · have hidx := run.readIdx
      have hnil : o = [] := length_eq_zero_iff.mp (by omega)
      have haw : rd'.awaitingKeyframe = c.reader.awaitingKeyframe := by
        rw [run.awaiting, hnil, awaitingAfter_nil]
      rw [haw, show rd'.readIdx = c.reader.readIdx by omega]
      exact h.position
  | overflow lost =>
    have hl := lost.imp_right fun ⟨s, hge, hlt, hs⟩ =>
      (Nat.add_le_add_right hge _).trans_lt (hp.holds.readAt_none hlog (Nat.zero_le s) (by omega) hs)
    simpa [sequenced] using h.resync hp le_rfl hl

theorem skips_nothing (hw : pub.ring.writeIdx < c.reader.readIdx) (hs : c.reader.readIdx < pub.stored)
    (run : ReadRun pub.ring c.reader rd' sk packets) : sk = [] := by
  cases sk with
  | nil => rfl
  | cons p ps =>
    obtain ⟨haw, hi⟩ := run.skips p mem_cons_self
    rcases h.position with hle | hf | ⟨q, hq, hk⟩
    · omega
    · rw [hf] at haw
      cases haw
    · have hr := (hp.holds.readAt_some hlog hs run.slice.1).1
      obtain rfl : q = p := Option.some.inj (hq.symm.trans hr)
      rw [MediaPacket.isVideoInterframe_of_keyframe hk] at hi
      cases hi

theorem pull (hg : c.reader.readIdx ≤ pub.ring.writeIdx ∨ c.reader.readIdx < pub.stored)
    (hc : c.pull pub.ring = some c') : Inv pub c' := by
  have hst := hp.holds.writeIdx_le
  simp only [RingClient.pull, map_eq_some_iff, Prod.exists] at hc
  obtain ⟨rd', res, hpu, rfl⟩ := hc
  cases pull_result hpu with
  | caughtUp run hw =>
    have hinv := h.returns hp hlog run (by omega) (.inl hw.le)
    simpa [sequenced] using hinv
  | @packet _ sk p run hw =>
    by_cases hle : c.reader.readIdx ≤ pub.ring.writeIdx
    · exact h.returns hp hlog run ((hw hle).trans hst) (.inl (hw hle))
    · have hs : c.reader.readIdx < pub.stored := hg.resolve_left hle
      obtain rfl := h.skips_nothing hp hlog (by omega) hs run
      have hidx := run.readIdx
      refine h.returns hp hlog run (by simp only [length_nil, length_singleton] at hidx; omega) ?_
      rcases h.position with hle' | hf | ⟨q, hq, hk⟩
      · exact absurd hle' hle
      · exact .inr (.inl (by rw [run.awaiting, hf, awaitingAfter_false]))
      · have hr := (hp.holds.readAt_some hlog hs run.slice.1).1
        obtain rfl : q = p := Option.some.inj (hq.symm.trans hr)
        exact .inr (.inl (by rw [run.awaiting, awaitingAfter_cons, hk, Bool.not_true, Bool.and_false,
          awaitingAfter_nil]))
  | @overflow mid sk run hw lost =>
    have hidx := run.readIdx
    have hmid : mid.readIdx < pub.stored := by
      by_cases hle : c.reader.readIdx ≤ pub.ring.writeIdx
      · exact (hw hle).trans_le hst
      · have hs : c.reader.readIdx < pub.stored := hg.resolve_left hle
        obtain rfl := h.skips_nothing hp hlog (by omega) hs run
        simp only [length_nil] at hidx
        omega
    exact h.resync hp (by omega) (lost.imp_right fun hn =>
      hp.holds.readAt_none hlog (Nat.zero_le _) hmid hn)

end RingClient.Inv

namespace Delivery

structure Inv (d : Delivery) : Prop where
  pub : d.pub.Inv
  clients : ∀ c ∈ d.clients, c.Inv d.pub

variable {d d' : Delivery}

theorem step_inv (hs : d.step e = some d') (h : d.Inv) (hg : d.PullsStored e)
    (hlog : d.pub.log.length < 2 ^ 31) : d'.Inv := by
  have replace (i : Nat) (c : RingClient) (hc : c.Inv d.pub) :
      Inv { d with clients := d.clients.set i c } := by
    refine ⟨h.pub, fun c' hc' => ?_⟩
    rcases mem_or_eq_of_mem_set hc' with hmem | rfl
    · exact h.clients c' hmem
    · exact hc
  cases e with
  | producer e =>
    simp only [step, map_eq_some_iff] at hs
    obtain ⟨pub, hpub, rfl⟩ := hs
    obtain ⟨hinv, hadv⟩ := h.pub.step hpub
    exact ⟨hinv, fun c hc => (h.clients c hc).advance hadv⟩
  | newReader =>
    cases hs
    refine ⟨h.pub, fun c hc => ?_⟩
    rcases mem_append.mp hc with hmem | hnew
    · exact h.clients c hmem
    · obtain rfl := mem_singleton.mp hnew
      exact .new h.pub
  | pull i =>
    simp only [step, Option.bind_eq_bind, Option.bind_eq_some_iff,
      Option.pure_def, Option.some.injEq] at hs
    obtain ⟨c, hc, c', hc', rfl⟩ := hs
    exact replace i c' ((h.clients c (mem_of_getElem? hc)).pull h.pub hlog (hg c hc) hc')
  | pullBurst i maxP =>
    simp only [step, Option.bind_eq_bind, Option.bind_eq_some_iff,
      Option.pure_def, Option.some.injEq] at hs
    obtain ⟨c, hc, rfl⟩ := hs
    exact replace i _ ((h.clients c (mem_of_getElem? hc)).pullBurst h.pub hlog maxP)

theorem step_log (hs : d.step e = some d') (h : d.pub.Inv) :
    d'.pub.Inv ∧ d.pub.log.length ≤ d'.pub.log.length := by
  cases e with
  | producer e =>
    simp only [step, map_eq_some_iff] at hs
    obtain ⟨pub, hpub, rfl⟩ := hs
    exact ⟨(h.step hpub).1, (h.step hpub).2.log.length_le⟩
  | newReader =>
    cases hs
    exact ⟨h, le_rfl⟩
  | pull | pullBurst =>
    simp only [step, Option.bind_eq_bind, Option.bind_eq_some_iff,
      Option.pure_def, Option.some.injEq] at hs
    have hpub : d'.pub = d.pub := by grind
    rw [hpub]
    exact ⟨h, le_rfl⟩

theorem start_inv (cap : Nat) (h : 0 < cap) : (start cap h).Inv :=
  ⟨Publication.start_inv cap h, fun c hc => by cases hc⟩

theorem reachable_inv {h : 0 < cap} (hrun : Reachable step PullsStored (start cap h) d)
    (hlog : d.pub.log.length < 2 ^ 31) : d.Inv := by
  refine Reachable.invariant_below (fun d => d.pub.Inv) Inv (fun d => d.pub.log.length) (2 ^ 31)
    (fun d e d' hpub hs => step_log hs hpub) (fun d e d' hpub hlt hinv hg hs => ?_)
    (Publication.start_inv cap h) (start_inv cap h) hrun hlog
  exact step_inv hs hinv hg ((step_log hs hpub).2.trans_lt hlt)

/-- In every run whose pulls read stored packets, each packet a reader returned
is the one published at its sequence, and its sequences only increase. -/
theorem returned_in_order {capacity : Nat} {h : 0 < capacity} {d : Delivery}
    (hrun : Reachable step PullsStored (start capacity h) d)
    (hlog : d.pub.log.length < 2 ^ 31) {c : RingClient} (hc : c ∈ d.clients) :
    (∀ x ∈ c.returned, d.pub.log[x.1]? = some x.2) ∧ (c.returned.map Prod.fst).Pairwise (· < ·) :=
  have hinv := (reachable_inv hrun hlog).clients c hc
  ⟨hinv.published, hinv.increasing⟩

/-- A reader of a ring of three that a batch laps: it returns sequence 0, is
resynchronised onto keyframe 2 and goes on from there. -/
def lappedRun : List DeliveryEvent := flatten [
  [.newReader, .producer (.push (.raw .audio false 0))], replicate 4 (.producer .store), [.pull 0],
  [.producer (.pushBatch [.raw .audio false 1, .raw .video true 2, .raw .audio false 3])],
  replicate 11 (.producer .store), [.pull 0, .pull 0, .pullBurst 0 8]]

theorem returned_in_order_lapped : ∃ d, Reachable step PullsStored (start 3 (by decide)) d ∧
    ∃ c ∈ d.clients, c.returned.map Prod.fst = [0, 2, 3] ∧
      (∀ x ∈ c.returned, d.pub.log[x.1]? = some x.2) ∧
      (c.returned.map Prod.fst).Pairwise (· < ·) := by
  refine exists_reachable_of_observed lappedRun
    (fun d => d.pub.log.length = 4 ∧ ∃ c ∈ d.clients, c.returned.map Prod.fst = [0, 2, 3])
    (by decide +kernel) fun d hreach ⟨hlog, c, hc, hseq⟩ => ?_
  exact ⟨c, hc, hseq, returned_in_order hreach (by omega) hc⟩

/-- With the first two packets of a batch stored, a new reader starts on the
keyframe past the write index; its second pull finds nothing there, goes back
to that keyframe, and the third returns it again. -/
def halfBatchRun : List DeliveryEvent := flatten [
  [.producer (.pushBatch [.raw .audio false 0, .raw .video true 1, .raw .audio false 2])],
  replicate 7 (.producer .store), [.newReader, .pull 0, .pull 0, .pull 0]]

theorem pull_past_writeIdx_returns_twice :
    ∃ d, Reachable step anyLabel (start 2 (by decide)) d ∧
      d.pub.log.length < 2 ^ 31 ∧ ∃ c ∈ d.clients, c.returned.map Prod.fst = [1, 1] :=
  exists_reachable_of_run halfBatchRun (by decide +kernel)

end Delivery

end Restream
