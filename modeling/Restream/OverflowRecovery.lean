import Restream.Reader

/-! A reader after an overflow, over any calls on any ring contents: until it
returns a video keyframe it returns no interframe, and it returns every audio
packet it passes over. -/

namespace Restream

open List Option MediaPacket

inductive ReaderCall where
  | pull
  | pullBurst (maxPackets : Nat)
  deriving DecidableEq, Repr

def Reader.call (rd : Reader) (r : RingBuffer) :
    ReaderCall → Option (Reader × List MediaPacket × Bool)
  | .pull => (rd.pull r).map fun (rd, result) =>
    match result with
    | .ok packet => (rd, packet.toList, false)
    | .error _ => (rd, [], true)
  | .pullBurst maxPackets =>
    match rd.pullBurst r [] maxPackets with
    | (rd, packets, .ok _) => some (rd, packets, false)
    | (rd, packets, .error _) => some (rd, packets, true)

structure CallTrace where
  reader : Reader
  returned : List MediaPacket
  passedOver : List MediaPacket
  deriving DecidableEq

def movedOver (r : RingBuffer) (rd rd' : Reader) : List MediaPacket :=
  (List.range' rd.readIdx (rd'.readIdx - rd.readIdx)).filterMap r.readAt

def runCalls : Reader → List (RingBuffer × ReaderCall) → Option CallTrace
  | rd, [] => some { reader := rd, returned := [], passedOver := [] }
  | rd, (r, call) :: rest => do
    let (rd', returned, overflowed) ← rd.call r call
    let trace ← runCalls rd' rest
    return { reader := trace.reader
             returned := returned ++ trace.returned
             passedOver := (if overflowed then [] else movedOver r rd rd') ++ trace.passedOver }

def MediaPacket.isAudio (p : MediaPacket) : Bool := p.mediaType == .audio

theorem filter_isAudio_passed (aw : Bool) (ps : List MediaPacket) :
    (passed aw ps).filter isAudio = ps.filter isAudio := by
  induction ps generalizing aw with
  | nil => rfl
  | cons p ps ih =>
    rw [passed]
    split
    · next hs =>
      rw [Bool.and_eq_true] at hs
      have hv := (isVideoInterframe_video hs.2).1
      have hp : p.isAudio = false := by simp [isAudio, hv]
      rw [ih, filter_cons_of_neg (by simp [hp])]
    · rw [filter_cons, filter_cons, ih]

theorem Slice.filterMap_readAt (h : Slice r start xs) :
    (range' start xs.length).filterMap r.readAt = xs := by
  induction xs generalizing start with
  | nil => rfl
  | cons x xs ih =>
    rw [length_cons, range'_succ, filterMap_cons, h.1]
    simp only [ih h.2]

namespace Reader

theorem call_cases {call : ReaderCall} (h : rd.call r call = some (rd', returned, ovf)) :
    (ovf = false ∧ ∃ sk, ReadRun r rd rd' sk returned) ∨
      (ovf = true ∧ returned = [] ∧ rd'.awaitingKeyframe = true) := by
  cases call with
  | pull =>
    simp only [call, map_eq_some_iff, Prod.exists] at h
    obtain ⟨rd₁, res, hp, hres⟩ := h
    cases pull_result hp with
    | caughtUp run _ =>
      obtain ⟨rfl, rfl, rfl⟩ := hres
      exact .inl ⟨rfl, _, run⟩
    | packet run _ =>
      obtain ⟨rfl, rfl, rfl⟩ := hres
      exact .inl ⟨rfl, _, run⟩
    | overflow _ _ _ =>
      obtain ⟨rfl, rfl, rfl⟩ := hres
      exact .inr ⟨rfl, rfl, rfl⟩
  | pullBurst maxP =>
    rcases hburst : rd.pullBurst r [] maxP with ⟨rd₁, o, res⟩
    obtain ⟨ps, hout, hres⟩ := pullBurst_result hburst
    subst hout
    simp only [call, hburst] at h
    cases hres with
    | packets run _ _ _ =>
      obtain ⟨rfl, rfl, rfl⟩ := h
      exact .inl ⟨rfl, _, run⟩
    | overflow _ =>
      obtain ⟨rfl, rfl, rfl⟩ := h
      exact .inr ⟨rfl, rfl, rfl⟩

end Reader

theorem ReadRun.movedOver_eq (run : ReadRun r rd rd' sk returned) :
    movedOver r rd rd' = sk ++ returned := by
  have hlen : rd'.readIdx - rd.readIdx = (sk ++ returned).length := by
    have := run.readIdx
    rw [length_append]
    omega
  rw [movedOver, hlen, run.slice.filterMap_readAt]

theorem runCalls_cons (h : runCalls rd ((r, call) :: rest) = some trace) :
    ∃ rd' returned ovf trace', rd.call r call = some (rd', returned, ovf) ∧
      runCalls rd' rest = some trace' ∧ trace.returned = returned ++ trace'.returned ∧
      trace.passedOver = (if ovf then [] else movedOver r rd rd') ++ trace'.passedOver := by
  simp only [runCalls, Option.bind_eq_bind, Option.bind_eq_some_iff, Option.pure_def,
    Option.some.injEq, Prod.exists] at h
  obtain ⟨rd', returned, ovf, hc, trace', hr, rfl⟩ := h
  exact ⟨rd', returned, ovf, trace', hc, hr, rfl, rfl⟩

theorem runCalls_before_keyframe (h : runCalls rd calls = some trace)
    (ha : rd.awaitingKeyframe = true)
    (hs : trace.returned = xs ++ ys) (hx : ∀ p ∈ xs, p.isVideoKeyframe = false) :
    ∀ p ∈ xs, p.isVideoInterframe = false := by
  induction calls generalizing rd trace xs with
  | nil =>
    cases h
    obtain ⟨rfl, -⟩ := append_eq_nil_iff.mp hs.symm
    simp
  | cons head rest ih =>
    obtain ⟨rd', returned, ovf, trace', hc, hre, hr, -⟩ := runCalls_cons h
    rw [hr] at hs
    rcases Reader.call_cases hc with ⟨-, sk, run⟩ | ⟨-, rfl, ha'⟩
    · have hpa := run.passes
      rw [ha] at hpa
      rcases append_eq_append_iff.mp hs with ⟨more, hxs, hm⟩ | ⟨more, hret, -⟩
      · rw [hxs] at hx ⊢
        rw [forall_mem_append] at hx ⊢
        have hk : rd'.awaitingKeyframe = true := by
          rw [run.awaiting, ha, awaitingAfter, any_eq_false.mpr fun p hp => by simp [hx.1 p hp]]
          rfl
        have hall : passed true returned = returned ++ [] := by simpa using hpa
        exact ⟨passed_before_keyframe hall hx.1, ih hre hk hm hx.2⟩
      · rw [hret] at hpa
        exact passed_before_keyframe hpa hx
    · exact ih hre ha' hs hx

theorem runCalls_audio (h : runCalls rd calls = some trace) :
    trace.returned.filter isAudio = trace.passedOver.filter isAudio := by
  induction calls generalizing rd trace with
  | nil =>
    cases h
    rfl
  | cons head rest ih =>
    obtain ⟨rd', returned, ovf, trace', hc, hre, hr, ho⟩ := runCalls_cons h
    rw [hr, ho, filter_append, filter_append, ih hre]
    rcases Reader.call_cases hc with ⟨rfl, sk, run⟩ | ⟨rfl, rfl, -⟩
    · have hf := filter_isAudio_passed rd.awaitingKeyframe (sk ++ returned)
      rw [run.passed_eq.1] at hf
      rw [if_neg (by simp), run.movedOver_eq, hf]
    · rfl

end Restream
