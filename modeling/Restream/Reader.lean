import Restream.RingBuffer
import Restream.MediaPacket

/-! The ring reader: `pull` and `pullBurst` with their overflow resync. Each reads a run
of consecutive sequences, skips the interframes at its start if it awaits a keyframe,
and returns the rest. -/

namespace Restream

def overflow : String := "Overflow: reader lagged and was fast-forwarded"

structure Reader where
  buffer : RingId
  readIdx : Nat
  migrationPrerollPackets : Nat
  awaitingKeyframe : Bool
  deriving DecidableEq, Repr

namespace Reader

def register (buffer : RingId) (startIdx migrationPrerollPackets : Nat) : Reader :=
  { buffer := buffer
    readIdx := startIdx
    migrationPrerollPackets := migrationPrerollPackets
    awaitingKeyframe := false }

def new (buffer : RingId) (r : RingBuffer) : Reader :=
  register buffer (r.fastForward r.writeIdx) 0

/-- Where a reader with a preroll starts: that many packets before the last
keyframe, as far as the ring reaches back. -/
def prerollStart (r : RingBuffer) (prerollPackets : Nat) : Nat :=
  let currentWrite := r.writeIdx
  let keyframeStart := r.fastForward currentWrite
  let oldestAvailable := currentWrite - (r.capacity - 1)
  if keyframeStart < currentWrite then max (keyframeStart - prerollPackets) oldestAvailable
  else keyframeStart

def newWithKeyframePreroll (buffer : RingId) (r : RingBuffer) (prerollPackets : Nat) : Reader :=
  register buffer (prerollStart r prerollPackets) 0

def newStageInput (buffer : RingId) (r : RingBuffer) (prerollPackets : Nat) : Reader :=
  register buffer (prerollStart r prerollPackets) prerollPackets

def newLive (buffer : RingId) (r : RingBuffer) : Reader :=
  register buffer r.writeIdx 0

def resync (rd : Reader) (r : RingBuffer) (writeIdx : Nat) : Reader :=
  { rd with readIdx := r.fastForward writeIdx, awaitingKeyframe := true }

def lagsALap (rd : Reader) (r : RingBuffer) (writeIdx : Nat) : Bool :=
  decide (rd.readIdx < writeIdx ∧ r.capacity ≤ writeIdx - rd.readIdx)

def pullLoop (r : RingBuffer) : Nat → Reader → Option (Reader × Except String (Option MediaPacket))
  | 0, _ => none
  | fuel + 1, rd =>
    if rd.readIdx = r.writeIdx then some (rd, .ok none)
    else
      match if rd.lagsALap r r.writeIdx then none else r.readAt rd.readIdx with
      | none => some (rd.resync r r.writeIdx, .error overflow)
      | some packet =>
        let rd := { rd with readIdx := rd.readIdx + 1 }
        if rd.awaitingKeyframe then
          if packet.isVideoInterframe then pullLoop r fuel rd
          else some ({ rd with awaitingKeyframe := !packet.isVideoKeyframe }, .ok (some packet))
        else some (rd, .ok (some packet))

/-- `pull`: up to the write index every skip is one packet nearer to it, and
past it each of the `capacity` slots answers for one sequence at most. -/
def pull (r : RingBuffer) (rd : Reader) : Option (Reader × Except String (Option MediaPacket)) :=
  pullLoop r (r.writeIdx - rd.readIdx + r.capacity + 1) rd

def load (r : RingBuffer) (start : Nat) : Nat → Option (List MediaPacket)
  | 0 => some []
  | count + 1 => do
    let packet ← r.readAt start
    let packets ← load r (start + 1) count
    return packet :: packets

def loadAfterResync (r : RingBuffer) (maxPackets : Nat) :
    (n sequence : Nat) → List MediaPacket → Bool → Option (Nat × List MediaPacket × Bool)
  | 0, sequence, loaded, awaiting => some (sequence, loaded, awaiting)
  | n + 1, sequence, loaded, awaiting =>
    if loaded.length < maxPackets then
      match r.readAt sequence with
      | none => none
      | some packet =>
        if awaiting && packet.isVideoInterframe then
          if loaded.length > 0 then some (sequence, loaded, awaiting)
          else loadAfterResync r maxPackets n (sequence + 1) loaded awaiting
        else
          loadAfterResync r maxPackets n (sequence + 1) (loaded ++ [packet])
            (awaiting && !packet.isVideoKeyframe)
    else some (sequence, loaded, awaiting)

def pullBurst (r : RingBuffer) (rd : Reader) (output : List MediaPacket) (maxPackets : Nat) :
    Reader × List MediaPacket × Except String Nat :=
  if maxPackets = 0 then (rd, output, .ok 0)
  else if rd.lagsALap r r.writeIdx then (rd.resync r r.writeIdx, output, .error overflow)
  else
    let next :=
      if rd.awaitingKeyframe then
        loadAfterResync r maxPackets (r.writeIdx - rd.readIdx) rd.readIdx [] true
      else
        let available := min (r.writeIdx - rd.readIdx) maxPackets
        (load r rd.readIdx available).map fun loaded => (rd.readIdx + available, loaded, false)
    match next with
    | none => (rd.resync r r.writeIdx, output, .error overflow)
    | some (next, loaded, awaiting) =>
      ({ rd with readIdx := next, awaitingKeyframe := awaiting }, output ++ loaded, .ok loaded.length)

end Reader

open List Option

def Slice (r : RingBuffer) : Nat → List MediaPacket → Prop
  | _, [] => True
  | start, p :: ps => r.readAt start = some p ∧ Slice r (start + 1) ps

theorem Slice.readAt (h : Slice r start xs) (hi : xs[i]? = some p) :
    r.readAt (start + i) = some p := by
  induction xs generalizing start i with
  | nil => simp at hi
  | cons x xs ih =>
    cases i with
    | zero =>
      exact hi ▸ h.1
    | succ i =>
      rw [Nat.add_comm i 1, ← Nat.add_assoc]
      exact ih h.2 hi

/-- A call read `skipped`, all interframes dropped by a keyframe wait, and then
`returned`, of which the wait drops nothing. -/
structure ReadRun (r : RingBuffer) (rd rd' : Reader) (skipped returned : List MediaPacket) :
    Prop where
  slice : Slice r rd.readIdx (skipped ++ returned)
  skips : ∀ p ∈ skipped, rd.awaitingKeyframe = true ∧ p.isVideoInterframe = true
  passes : passed rd.awaitingKeyframe returned = returned
  readIdx : rd'.readIdx = rd.readIdx + skipped.length + returned.length
  awaiting : rd'.awaitingKeyframe = awaitingAfter rd.awaitingKeyframe returned
  buffer : rd'.buffer = rd.buffer
  preroll : rd'.migrationPrerollPackets = rd.migrationPrerollPackets

namespace ReadRun

variable {r : RingBuffer} {rd rd' : Reader} {skipped ret : List MediaPacket}

theorem refl (r : RingBuffer) (rd : Reader) : ReadRun r rd rd [] [] where
  slice := trivial
  skips := by simp
  passes := rfl
  readIdx := rfl
  awaiting := (awaitingAfter_nil _).symm
  buffer := rfl
  preroll := rfl

theorem skip (hr : r.readAt rd.readIdx = some p) (ha : rd.awaitingKeyframe = true)
    (hp : p.isVideoInterframe = true)
    (h : ReadRun r { rd with readIdx := rd.readIdx + 1 } rd' skipped ret) :
    ReadRun r rd rd' (p :: skipped) ret where
  slice := ⟨hr, h.slice⟩
  skips := forall_mem_cons.mpr ⟨⟨ha, hp⟩, h.skips⟩
  __ := h
  readIdx := by
    have := h.readIdx
    simp only [length_cons] at this ⊢
    omega

theorem single {awaiting : Bool} (hr : r.readAt rd.readIdx = some p)
    (hp : rd.awaitingKeyframe = true → p.isVideoInterframe = false)
    (ha : awaiting = (rd.awaitingKeyframe && !p.isVideoKeyframe)) :
    ReadRun r rd { rd with readIdx := rd.readIdx + 1, awaitingKeyframe := awaiting } [] [p] where
  slice := ⟨hr, trivial⟩
  skips := by simp
  passes := by
    cases hw : rd.awaitingKeyframe with
    | false => exact passed_false [p]
    | true => simp [passed, hp hw]
  readIdx := rfl
  awaiting := by rw [awaitingAfter_cons, awaitingAfter_nil, ha]
  buffer := rfl
  preroll := rfl

theorem passed_eq (h : ReadRun r rd rd' skipped ret) :
    passed rd.awaitingKeyframe (skipped ++ ret) = ret ∧
      awaitingAfter rd.awaitingKeyframe (skipped ++ ret) = rd'.awaitingKeyframe := by
  have haw := awaitingAfter_interframes rd.awaitingKeyframe fun p hp => (h.skips p hp).2
  have hnil : passed rd.awaitingKeyframe skipped = [] := by
    cases skipped with
    | nil => rfl
    | cons p ps =>
      rw [(h.skips p mem_cons_self).1]
      exact passed_interframes fun q hq => (h.skips q hq).2
  rw [passed_append, awaitingAfter_append, haw, hnil, h.passes, h.awaiting]
  exact ⟨rfl, rfl⟩

end ReadRun

namespace Reader

variable {r : RingBuffer} {rd rd' : Reader}

/-- The three ways a `pull` returns: caught up, with a packet, or with an
overflow found at `mid` after some skipped interframes. -/
inductive PullResult (r : RingBuffer) (rd : Reader) :
    Reader → Except String (Option MediaPacket) → Prop
  | caughtUp {rd' skipped} (run : ReadRun r rd rd' skipped []) (hw : rd'.readIdx = r.writeIdx) :
    PullResult r rd rd' (.ok none)
  | packet {rd' skipped p} (run : ReadRun r rd rd' skipped [p])
    (hw : rd.readIdx ≤ r.writeIdx → rd'.readIdx ≤ r.writeIdx) : PullResult r rd rd' (.ok (some p))
  | overflow {mid skipped} (run : ReadRun r rd mid skipped [])
    (hw : rd.readIdx ≤ r.writeIdx → mid.readIdx < r.writeIdx)
    (lost : mid.lagsALap r r.writeIdx = true ∨ r.readAt mid.readIdx = none) :
    PullResult r rd (mid.resync r r.writeIdx) (.error Restream.overflow)

variable {start n maxP seq : Nat} {loaded : List MediaPacket} {awaiting : Bool}

theorem pullLoop_result (h : pullLoop r fuel rd = some (rd', out)) : PullResult r rd rd' out := by
  induction fuel generalizing rd with
  | zero => cases h
  | succ fuel ih =>
    rw [pullLoop] at h
    split at h
    · next hw =>
      obtain ⟨rfl, rfl⟩ := Prod.mk.inj (Option.some.inj h)
      exact .caughtUp (.refl r rd) hw
    · split at h
      · next hl =>
        obtain ⟨rfl, rfl⟩ := Prod.mk.inj (Option.some.inj h)
        refine .overflow (.refl r rd) (fun hle => by omega) ?_
        by_cases hlag : rd.lagsALap r r.writeIdx = true
        · exact .inl hlag
        · exact .inr (by simpa [hlag] using hl)
      · next p hp =>
        have hr : r.readAt rd.readIdx = some p := by
          by_cases hlag : rd.lagsALap r r.writeIdx = true
          · simp [hlag] at hp
          · simpa [hlag] using hp
        simp only at h
        split at h
        · next haw =>
          split at h
          · next hi =>
            cases ih h with
            | caughtUp run hw' => exact .caughtUp (run.skip hr haw hi) hw'
            | packet run hw' => exact .packet (run.skip hr haw hi) fun hle => hw' (by simp; omega)
            | overflow run hw' lost =>
              exact .overflow (run.skip hr haw hi) (fun hle => hw' (by simp; omega)) lost
          · next hi =>
            obtain ⟨rfl, rfl⟩ := Prod.mk.inj (Option.some.inj h)
            have hf : p.isVideoInterframe = false := by simpa using hi
            exact .packet (.single hr (fun _ => hf) (by simp [haw])) fun hle => by simp; omega
        · next haw =>
          obtain ⟨rfl, rfl⟩ := Prod.mk.inj (Option.some.inj h)
          have hf : rd.awaitingKeyframe = false := by simpa using haw
          have hrun : ReadRun r rd { rd with readIdx := rd.readIdx + 1 } [] [p] :=
            .single hr (fun ht => absurd ht haw) (by simp [hf])
          exact .packet hrun fun hle => by simp; omega

theorem pull_result (h : pull r rd = some (rd', out)) : PullResult r rd rd' out := pullLoop_result h

theorem pull_isSome (h : rd.readIdx ≤ r.writeIdx) : (pull r rd).isSome = true := by
  suffices hloop : ∀ fuel rd, rd.readIdx ≤ r.writeIdx → r.writeIdx - rd.readIdx < fuel →
      (pullLoop r fuel rd).isSome = true from hloop _ rd h (by omega)
  intro fuel
  induction fuel with
  | zero => omega
  | succ fuel ih =>
    intro rd hle hlt
    rw [pullLoop]
    split
    · rfl
    · split
      · rfl
      · simp only
        split
        · split
          · exact ih _ (by simp; omega) (by simp; omega)
          · rfl
        · rfl

theorem load_slice (h : load r start n = some xs) : Slice r start xs ∧ xs.length = n := by
  induction n generalizing start xs with
  | zero =>
    cases h
    exact ⟨trivial, rfl⟩
  | succ n ih =>
    simp only [load, Option.bind_eq_bind, Option.bind_eq_some_iff,
      Option.pure_def, Option.some.injEq] at h
    obtain ⟨p, hp, ps, hps, rfl⟩ := h
    obtain ⟨hs, hlen⟩ := ih hps
    exact ⟨⟨hp, hs⟩, by rw [length_cons, hlen]⟩

theorem load_none (h : load r start n = none) :
    ∃ s, start ≤ s ∧ s < start + n ∧ r.readAt s = none := by
  induction n generalizing start with
  | zero => cases h
  | succ n ih =>
    simp only [load, bind_eq_bind, bind_eq_none_iff] at h
    cases hp : r.readAt start with
    | none => exact ⟨start, le_rfl, by omega, hp⟩
    | some p =>
      have hr : load r (start + 1) n = none := by
        cases hl : load r (start + 1) n with
        | none => rfl
        | some ps => cases h p hp ps hl
      obtain ⟨s, hge, hlt, hs⟩ := ih hr
      exact ⟨s, by omega, by omega, hs⟩

structure ResyncRun (r : RingBuffer) (maxPackets n sequence : Nat) (loaded : List MediaPacket)
    (awaiting : Bool) (next : Nat) (loaded' : List MediaPacket) (awaiting' : Bool)
    (skipped more : List MediaPacket) : Prop where
  loaded_eq : loaded' = loaded ++ more
  slice : Slice r sequence (skipped ++ more)
  skips : ∀ p ∈ skipped, loaded = [] ∧ awaiting = true ∧ p.isVideoInterframe = true
  passes : passed awaiting more = more
  awaiting_eq : awaiting' = awaitingAfter awaiting more
  next_eq : next = sequence + skipped.length + more.length
  next_le : skipped.length + more.length ≤ n
  length_le : loaded.length ≤ maxPackets → loaded'.length ≤ maxPackets
  progress : loaded = [] → 0 < maxPackets → 0 < n → sequence < next

theorem loadAfterResync_run {next : Nat} {loaded' : List MediaPacket} {aw' : Bool}
    (h : loadAfterResync r maxP n seq loaded awaiting = some (next, loaded', aw')) :
    ∃ skipped more,
      ResyncRun r maxP n seq loaded awaiting next loaded' aw' skipped more := by
  induction n generalizing seq loaded awaiting with
  | zero =>
    obtain ⟨rfl, rfl, rfl⟩ := h
    exact ⟨[], [], by simp, trivial, by simp, rfl, (awaitingAfter_nil _).symm, rfl, le_rfl, id,
      fun _ _ hn => absurd hn (lt_irrefl 0)⟩
  | succ n ih =>
    have stops : next = seq → loaded' = loaded → aw' = awaiting →
        (loaded = [] → 0 < maxP → False) → ∃ skipped more, ResyncRun r maxP (n + 1)
          seq loaded awaiting next loaded' aw' skipped more := by
      rintro rfl rfl rfl hst
      exact ⟨[], [], by simp, trivial, by simp, rfl, (awaitingAfter_nil _).symm, rfl, by simp, id,
        fun hl hm _ => (hst hl hm).elim⟩
    rw [loadAfterResync] at h
    split at h
    · next hr =>
      split at h
      · cases h
      · next p hp =>
        split at h
        · next hs =>
          rw [Bool.and_eq_true] at hs
          split at h
          · next hpos =>
            simp only [Option.some.injEq, Prod.mk.injEq] at h
            exact stops h.1.symm h.2.1.symm h.2.2.symm fun hl => by simp [hl] at hpos
          · next hpos =>
            have hnil : loaded = [] := by simpa using hpos
            obtain ⟨skipped, more, run⟩ := ih h
            have hne := run.next_eq
            have hle := run.next_le
            refine ⟨p :: skipped, more, run.loaded_eq, ⟨hp, run.slice⟩,
              forall_mem_cons.mpr ⟨⟨hnil, hs⟩, run.skips⟩, run.passes, run.awaiting_eq, ?_, ?_,
              run.length_le, fun _ _ _ => by omega⟩
            · rw [length_cons]
              omega
            · rw [length_cons]
              omega
        · next hpa =>
          obtain ⟨skipped, more, run⟩ := ih h
          have hnil : skipped = [] := by
            refine eq_nil_iff_forall_not_mem.mpr fun q hq => ?_
            simpa using (run.skips q hq).1
          subst hnil
          have hne := run.next_eq
          have hle := run.next_le
          simp only [length_nil] at hne hle
          refine ⟨[],
            p :: more, by simpa using run.loaded_eq, ⟨hp, run.slice⟩, by simp, ?_, ?_, ?_, ?_,
            fun _ => run.length_le (by simpa [Nat.succ_le_iff] using hr), fun _ _ _ => by omega⟩
          · rw [passed, if_neg hpa, run.passes]
          · rw [awaitingAfter_cons, run.awaiting_eq]
          · rw [length_cons, length_nil]
            omega
          · rw [length_cons, length_nil]
            omega
    · next hr =>
      simp only [Option.some.injEq, Prod.mk.injEq] at h
      exact stops h.1.symm h.2.1.symm h.2.2.symm fun hl hm => by simp [hl] at hr; omega

theorem loadAfterResync_none (h : loadAfterResync r maxP n seq loaded awaiting = none) :
    ∃ s, seq ≤ s ∧ s < seq + n ∧ r.readAt s = none := by
  induction n generalizing seq loaded awaiting with
  | zero => cases h
  | succ n ih =>
    have later : (∃ s, seq + 1 ≤ s ∧ s < seq + 1 + n ∧ r.readAt s = none) →
        ∃ s, seq ≤ s ∧ s < seq + (n + 1) ∧ r.readAt s = none :=
      fun ⟨s, hge, hlt, hs⟩ => ⟨s, by omega, by omega, hs⟩
    rw [loadAfterResync] at h
    split at h
    · split at h
      · next hp => exact ⟨seq, le_rfl, by omega, hp⟩
      · split at h
        · split at h
          · cases h
          · exact later (ih h)
        · exact later (ih h)
    · cases h

/-- The two ways a `pullBurst` returns: with the packets of a run, empty at the
write index, or with an overflow. -/
inductive BurstResult (r : RingBuffer) (rd : Reader) (maxPackets : Nat) :
    Reader → List MediaPacket → Except String Nat → Prop
  | packets {rd' skipped loaded} (run : ReadRun r rd rd' skipped loaded)
    (hw : rd'.readIdx ≤ max rd.readIdx r.writeIdx) (hmax : loaded.length ≤ maxPackets)
    (progress : 0 < maxPackets → rd.readIdx < r.writeIdx → rd.readIdx < rd'.readIdx) :
    BurstResult r rd maxPackets rd' loaded (.ok loaded.length)
  | overflow (lost : rd.lagsALap r r.writeIdx = true ∨
      ∃ s, rd.readIdx ≤ s ∧ s < r.writeIdx ∧ r.readAt s = none) :
    BurstResult r rd maxPackets (rd.resync r r.writeIdx) [] (.error Restream.overflow)

theorem pullBurst_result (h : pullBurst r rd o maxP = (rd', o', res)) :
    ∃ ps, o' = o ++ ps ∧ BurstResult r rd maxP rd' ps res := by
  unfold pullBurst at h
  split at h
  · obtain ⟨rfl, rfl, rfl⟩ := h
    exact ⟨[], by simp, .packets (.refl r rd) (by omega) (Nat.zero_le _) fun hpos => by omega⟩
  · split at h
    · next hlag =>
      obtain ⟨rfl, rfl, rfl⟩ := h
      exact ⟨[], by simp, .overflow (.inl hlag)⟩
    · simp only at h
      split at h
      · next hn =>
        obtain ⟨rfl, rfl, rfl⟩ := h
        refine ⟨[], by simp, .overflow (.inr ?_)⟩
        split at hn
        · obtain ⟨s, hge, hlt, hs⟩ := loadAfterResync_none hn
          exact ⟨s, hge, by omega, hs⟩
        · rw [map_eq_none_iff] at hn
          obtain ⟨s, hge, hlt, hs⟩ := load_none hn
          exact ⟨s, hge, by omega, hs⟩
      · next next loaded awaiting hso =>
        obtain ⟨rfl, rfl, rfl⟩ := h
        refine ⟨loaded, rfl, ?_⟩
        split at hso
        · next haw =>
          obtain ⟨skipped, more, run⟩ := loadAfterResync_run hso
          obtain rfl : loaded = more := by simpa using run.loaded_eq
          have hne := run.next_eq
          have hle := run.next_le
          have hrun : ReadRun r rd { rd with readIdx := next, awaitingKeyframe := awaiting } skipped loaded :=
            ⟨run.slice, fun p hp => ⟨haw, (run.skips p hp).2.2⟩, by rw [haw]; exact run.passes, hne,
              by rw [haw]; exact run.awaiting_eq, rfl, rfl⟩
          exact .packets hrun (by simp only; omega) (run.length_le (Nat.zero_le _))
            fun hm hlt => run.progress rfl hm (by omega)
        · next haw =>
          simp only [map_eq_some_iff, Prod.mk.injEq] at hso
          obtain ⟨xs, hl, rfl, rfl, rfl⟩ := hso
          obtain ⟨hsl, hlen⟩ := load_slice hl
          have hf : rd.awaitingKeyframe = false := by simpa using haw
          have hrun : ReadRun r rd { rd with
              readIdx := rd.readIdx + min (r.writeIdx - rd.readIdx) maxP
              awaitingKeyframe := false } [] xs :=
            ⟨hsl, by simp, by rw [hf, passed_false], by simp [hlen],
              by simp [hf, awaitingAfter_false], rfl, rfl⟩
          exact .packets hrun (by simp only; omega) (by omega) fun hm hlt => by simp only; omega

end Reader

end Restream
