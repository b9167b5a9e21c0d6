import Restream.Feed
import Restream.OverflowRecovery
import Restream.RingResize

/-! On a ring that can be read from the read position on, `readRing`, repeated until
it is empty, returns what the readers return. -/

namespace Restream

open Loads Prog Reader

def readAll (r : RingBuffer) (epoch : Nat) : Nat → (Nat → ReadBudget) → FeedCursor →
    Option (List MediaPacket × FeedCursor)
  | 0, _, _ => none
  | fuel + 1, budgets, cursor =>
    match (readRing r.capacity id (budgets 0) epoch cursor).run r.answer with
    | (.empty, units) => some (units, cursor)
    | (.units next, units) => do
      let (packets, cursor) ← readAll r epoch fuel (fun i => budgets (i + 1)) next
      return (units ++ packets, cursor)
    | (.overrun _, _) | (.epochMismatch _, _) => none

open RingBuffer List Publication

section Quiet

variable {r : RingBuffer} {log : List MediaPacket}

structure WentOver {U : Type} (log : List MediaPacket) (unit : MediaPacket → U) (cursor : FeedCursor)
    (budget : ReadBudget) (state : ReadState U) (skipped packets : List MediaPacket) : Prop where
  book : state.Book unit cursor budget skipped packets
  drop_eq : log.drop cursor.nextSequence = (skipped ++ packets) ++ log.drop state.next.nextSequence

namespace WentOver

variable {U : Type} {cursor : FeedCursor} {sk packets : List MediaPacket}

theorem skip (h : WentOver log unit cursor b st sk [])
    (hlt : st.next.nextSequence < log.length) (ha : st.next.awaitingKeyframe = true)
    (hi : log[st.next.nextSequence].isVideoInterframe = true) :
    WentOver log unit cursor b st.skip (sk ++ [log[st.next.nextSequence]]) [] := by
  refine ⟨h.book.skip ha hi, ?_⟩
  have hd := h.drop_eq
  simpa [ReadState.skip] using hd

theorem take (h : WentOver log unit cursor b st sk packets) (hlt : st.next.nextSequence < log.length)
    (hw : st.within b = true)
    (hp : (st.next.awaitingKeyframe && log[st.next.nextSequence].isVideoInterframe) = false)
    (ha : aw = (st.next.awaitingKeyframe && !log[st.next.nextSequence].isVideoKeyframe)) :
    WentOver log unit cursor b { st.take unit log[st.next.nextSequence] with
        next := { (st.take unit log[st.next.nextSequence]).next with awaitingKeyframe := aw } }
      sk (packets ++ [log[st.next.nextSequence]]) := by
  refine ⟨h.book.take hw hp ha, ?_⟩
  have hd := h.drop_eq
  simpa [ReadState.take] using hd

theorem waitLoop (hr : ∀ s (hs : s < log.length), cursor.nextSequence ≤ s → r.readAt s = some log[s])
    (h : WentOver log unit cursor b st sk packets) (hn : st.next.nextSequence + n = log.length) :
    ∃ st' sk' ps', (Restream.waitLoop unit b n st).run r.answer = .ends st' ∧
      WentOver log unit cursor b st' sk' ps' ∧
      st.next.nextSequence ≤ st'.next.nextSequence ∧ st'.next.nextSequence ≤ log.length ∧
      (0 < n → st.within b = true → st.next.awaitingKeyframe = true → st.units = [] →
        st.next.nextSequence < st'.next.nextSequence) ∧
      (st.next.awaitingKeyframe = false → st' = st) := by
  induction n generalizing st sk packets with
  | zero => exact ⟨st, sk, packets, rfl, h, le_rfl, by omega, fun hpos => by omega, fun _ => rfl⟩
  | succ n ih =>
    by_cases hgo : (st.next.awaitingKeyframe && st.within b) = true
    · rw [Bool.and_eq_true] at hgo
      have hlt : st.next.nextSequence < log.length := by omega
      have hpos := h.book.position
      have hv : (readAtLoads st.next.nextSequence).run r.answer =
          some log[st.next.nextSequence] := hr _ hlt (by omega)
      rw [Restream.waitLoop, if_pos (by simp [hgo]), run_bind, hv]
      simp only
      split
      · next hi =>
        split
        · next he =>
          have hnil : packets = [] := by
            have hu := h.book.units
            rw [isEmpty_iff.mp he] at hu
            exact map_eq_nil_iff.mp hu.symm
          subst hnil
          obtain ⟨st', sk', ps', hrun, ho, hle, hend, -, -⟩ :=
            ih (h.skip hlt hgo.1 hi) (by simp only [ReadState.skip]; omega)
          simp only [ReadState.skip] at hle
          exact ⟨st', sk', ps', hrun, ho, by omega, hend, fun _ _ _ _ => by omega,
            fun hf => by simp [hf] at hgo⟩
        · next hso =>
          refine ⟨st, sk, packets, rfl, h, le_rfl, by omega, fun _ _ _ hnil => ?_, fun _ => rfl⟩
          simp [hnil] at hso
      · next hi =>
        have hp : (st.next.awaitingKeyframe &&
            log[st.next.nextSequence].isVideoInterframe) = false := by simpa [hgo.1] using hi
        have haw : (!log[st.next.nextSequence].isVideoKeyframe) =
            (st.next.awaitingKeyframe && !log[st.next.nextSequence].isVideoKeyframe) := by
          simp [hgo.1]
        obtain ⟨st', sk', ps', hrun, ho, hle, hend, -, -⟩ :=
          ih (h.take hlt hgo.2 hp haw) (by simp only [ReadState.take]; omega)
        simp only [ReadState.take] at hle
        exact ⟨st', sk', ps', hrun, ho, by omega, hend, fun _ _ _ _ => by omega,
          fun hf => by simp [hf] at hgo⟩
    · refine ⟨st, sk, packets, ?_, h, le_rfl, by omega, fun _ hw ha _ => ?_, fun _ => rfl⟩
      · rw [Restream.waitLoop, if_neg hgo]
        rfl
      · simp [hw, ha] at hgo

theorem runLoop
    (hsl : ∀ s (hs : s < log.length), cursor.nextSequence ≤ s → (r.slot s).packet = some log[s])
    (h : WentOver log unit cursor b st sk packets) (hn : st.next.nextSequence + n = log.length) :
    ∃ st' ps', (Restream.runLoop unit b n st).run r.answer = .ends st' ∧
      WentOver log unit cursor b st' sk ps' ∧
      st.next.nextSequence ≤ st'.next.nextSequence ∧ st'.next.nextSequence ≤ log.length ∧
      (0 < n → st.within b = true → st.next.awaitingKeyframe = false →
        st.next.nextSequence < st'.next.nextSequence) := by
  induction n generalizing st packets with
  | zero => exact ⟨st, packets, rfl, h, le_rfl, by omega, fun hpos => by omega⟩
  | succ n ih =>
    by_cases hgo : (!st.next.awaitingKeyframe && st.within b) = true
    · rw [Bool.and_eq_true, Bool.not_eq_true'] at hgo
      have hlt : st.next.nextSequence < log.length := by omega
      have hpos := h.book.position
      rw [Restream.runLoop, if_pos (by simp [hgo]), run_bind, run_packet,
        hsl _ hlt (by omega)]
      have ht : WentOver log unit cursor b (st.take unit log[st.next.nextSequence]) sk
          (packets ++ [log[st.next.nextSequence]]) := by
        have hk : st.next.awaitingKeyframe =
            (st.next.awaitingKeyframe && !log[st.next.nextSequence].isVideoKeyframe) := by
          rw [hgo.1, Bool.false_and]
        exact h.take hlt hgo.2 (by rw [hgo.1, Bool.false_and]) hk
      obtain ⟨st', ps', hrun, ho, hle, hend, -⟩ := ih ht (by simp only [ReadState.take]; omega)
      simp only [ReadState.take] at hle
      exact ⟨st', ps', hrun, ho, by omega, hend, fun _ _ _ => by omega⟩
    · refine ⟨st, packets, ?_, h, le_rfl, by omega, fun _ hw ha => ?_⟩
      · rw [Restream.runLoop, if_neg hgo]
        rfl
      · simp [hw, ha] at hgo

end WentOver

variable {start epoch : Nat} {U : Type} {cursor : FeedCursor}

theorem tagsIntact_quiet
    (htag : ∀ s, start ≤ s → s < start + n → (FrameUnit.unpack (r.slot s).unit s).isSome = true) :
    (tagsIntact n start).run r.answer = true := by
  induction n generalizing start with
  | zero => rfl
  | succ n ih =>
    rw [tagsIntact, run_bind, run_unit, if_pos (htag start le_rfl (by omega))]
    exact ih fun s hge hlt => htag s (by omega) (by omega)

theorem ReadsFrom.checkRun {p stop : Nat} (h : ReadsFrom r log p) (hp : p ≤ start)
    (hs : stop ≤ log.length) : (checkRun r.capacity start stop).run r.answer = true := by
  have htag (s : Nat) (hge : start ≤ s) (hlt : s < start + (stop - start)) :
      (FrameUnit.unpack (r.slot s).unit s).isSome = true :=
    (slot_of_readAt (h.readAt (hp.trans hge) (by omega))).2
  unfold Restream.checkRun runIntact
  split
  · rw [run_bind]
    split
    · rfl
    · exact tagsIntact_quiet htag
  · rfl

theorem WentOver.emits (h : WentOver log unit cursor b st sk packets)
    (hend : st.next.nextSequence ≤ log.length) :
    Emits log cursor.nextSequence cursor.awaitingKeyframe packets st.next.nextSequence
      st.next.awaitingKeyframe := by
  have hpos := h.book.position
  have hd := h.drop_eq
  rw [hpos] at hend hd ⊢
  exact .of_append hend hd h.book.skips h.book.passes h.book.awaiting

theorem ReadsFrom.finishRun (h : ReadsFrom r log cursor.nextSequence)
    (hs : cursor.nextSequence ≤ start) (hend : st.next.nextSequence ≤ log.length) :
    (finishRun r.capacity cursor start st).run r.answer =
      if st.next.nextSequence = cursor.nextSequence then (.empty, st.units)
      else (.units st.next, st.units) := by
  unfold Restream.finishRun
  rw [run_bind, h.checkRun hs hend]
  simp only [Bool.not_true, Bool.false_eq_true, if_false]
  split <;> rfl

theorem ReadsFrom.readRing (unit : MediaPacket → U) (h : ReadsFrom r log cursor.nextSequence)
    (he : cursor.epoch = epoch) (hu : 0 < b.maxUnits) (hby : 0 < b.maxBytes) :
    (cursor.nextSequence = log.length ∧
      (readRing r.capacity unit b epoch cursor).run r.answer = (.empty, [])) ∨
    ∃ next packets, (readRing r.capacity unit b epoch cursor).run r.answer =
        (.units next, packets.map unit) ∧ cursor.nextSequence < next.nextSequence ∧
      next.epoch = epoch ∧ Emits log cursor.nextSequence cursor.awaitingKeyframe packets
        next.nextSequence next.awaitingKeyframe := by
  have hw := h.writeIdx
  have hle := h.le
  have hlag := h.lag
  have hre (s : Nat) (hs : s < log.length) (hge : cursor.nextSequence ≤ s) :
      r.readAt s = some log[s] := h.readAt hge hs
  have hsl (s : Nat) (hs : s < log.length) (hge : cursor.nextSequence ≤ s) :
      (r.slot s).packet = some log[s] := (slot_of_readAt (h.readAt hge hs)).1
  have hb : WentOver log unit cursor b { next := cursor, totalBytes := 0, units := [] } [] [] :=
    ⟨.start unit cursor b, rfl⟩
  obtain ⟨st, sk, packets, hwa, ho, hm, hend, hp, hst⟩ :=
    hb.waitLoop hre (n := log.length - cursor.nextSequence) (by simp only; omega)
  obtain ⟨st', ps', hrun, ho', hm', hend', hp'⟩ :=
    ho.runLoop hsl (n := log.length - st.next.nextSequence) (by omega)
  have hr : (Restream.readRing r.capacity unit b epoch cursor).run r.answer =
      if st'.next.nextSequence = cursor.nextSequence then (.empty, st'.units)
      else (.units st'.next, st'.units) := by
    have hold : ¬cursor.nextSequence < r.writeIdx - r.capacity := by omega
    unfold Restream.readRing
    rw [if_neg (by simp [he]), run_bind]
    change run r.answer (if cursor.nextSequence < r.writeIdx - r.capacity then _ else _) = _
    rw [if_neg hold, run_bind, show (RingProg.writeIdx).run r.answer = log.length from hw, hwa]
    rw [run_bind, hrun]
    exact h.finishRun hm hend'
  have hmo : cursor.nextSequence < log.length → cursor.nextSequence < st'.next.nextSequence := by
    intro hlt
    have hwi : ReadState.within { next := cursor, totalBytes := 0, units := ([] : List U) } b =
        true := by simp [ReadState.within, hu, hby]
    by_cases ha : cursor.awaitingKeyframe = true
    · have := hp (by omega) hwi ha rfl
      simp only at this
      omega
    · have hf : cursor.awaitingKeyframe = false := by simpa using ha
      rw [hst hf] at hp'
      exact hp' (by simp only; omega) hwi hf
  rw [hr]
  rcases Nat.eq_or_lt_of_le hle with heq | hlt
  · have hpos := ho'.book.position
    have hnil : ps' = [] := length_eq_zero_iff.mp (by omega)
    refine .inl ⟨heq, ?_⟩
    rw [if_pos (by omega), ho'.book.units, hnil]
    rfl
  · have hlt' := hmo hlt
    refine .inr ⟨st'.next, ps', ?_, hlt', ho'.book.epoch.trans he, ho'.emits hend'⟩
    rw [if_neg (by omega), ho'.book.units]

theorem readAll_quiet (hu : ∀ i, 0 < (budgets i).maxUnits) (hb : ∀ i, 0 < (budgets i).maxBytes)
    (hep : cursor.epoch = epoch) (h : ReadsFrom r log cursor.nextSequence)
    (hf : log.length - cursor.nextSequence < fuel) : ∃ cu', readAll r epoch fuel budgets cursor =
        some (passed cursor.awaitingKeyframe (log.drop cursor.nextSequence), cu') ∧
      cu'.nextSequence = log.length ∧ cu'.awaitingKeyframe =
        awaitingAfter cursor.awaitingKeyframe (log.drop cursor.nextSequence) := by
  induction fuel generalizing cursor budgets with
  | zero => omega
  | succ fuel ih =>
    rcases h.readRing id hep (hu 0) (hb 0) with ⟨hend, hr⟩ | ⟨next, packets, hr, hlt, hn, he⟩
    · refine ⟨cursor, ?_, hend, ?_⟩
      · simp [readAll, hr, hend, passed]
      · rw [hend, drop_length, awaitingAfter_nil]
    · have hle := he.le_length
      obtain ⟨cu', hre, hidx, ha⟩ := ih (fun i => hu (i + 1)) (fun i => hb (i + 1))
        hn (h.mono he.le hle) (by omega)
      refine ⟨cu', ?_, hidx, ha.trans he.awaiting_eq.symm⟩
      simp [readAll, hr, hre, he.passed_eq]

end Quiet

/-- After an overflow a reader returns no interframe before a keyframe and
every audio packet it passes over; on a ring that can be read from a position up to
the write index, less than a capacity on, the three drivers return the same packets
from there with the same flag; and a ring between publications can be read so. -/
theorem readers_recover_and_agree :
    (∀ (r : RingBuffer) (rd rd' : Reader) (call : ReaderCall) (out : List MediaPacket),
      rd.call r call = some (rd', out, true) →
      ∀ (calls : List (RingBuffer × ReaderCall)) (trace : CallTrace),
        runCalls rd' calls = some trace →
        (∀ xs ys, trace.returned = xs ++ ys → (∀ p ∈ xs, p.isVideoKeyframe = false) →
          ∀ p ∈ xs, p.isVideoInterframe = false) ∧
        trace.returned.filter MediaPacket.isAudio = trace.passedOver.filter MediaPacket.isAudio) ∧
    (∀ (r : RingBuffer) (rd : Reader) (cursor : FeedCursor) (sizes : Nat → Nat)
      (budgets : Nat → ReadBudget),
      rd.readIdx ≤ r.writeIdx → r.writeIdx - rd.readIdx < r.capacity →
      (∀ s, rd.readIdx ≤ s → s < r.writeIdx → (r.readAt s).isSome = true) →
      cursor.nextSequence = rd.readIdx → cursor.awaitingKeyframe = rd.awaitingKeyframe →
      (∀ i, 0 < sizes i) → (∀ i, 0 < (budgets i).maxUnits) → (∀ i, 0 < (budgets i).maxBytes) →
      ∃ packets awaiting, ∀ fuel, r.writeIdx - rd.readIdx < fuel →
        (∃ rd', pullAll r fuel rd = some (packets, rd') ∧
          rd'.readIdx = r.writeIdx ∧ rd'.awaitingKeyframe = awaiting) ∧
        (∃ rd', burstAll r fuel sizes rd = some (packets, rd') ∧
          rd'.readIdx = r.writeIdx ∧ rd'.awaitingKeyframe = awaiting) ∧
        (∃ cursor', readAll r cursor.epoch fuel budgets cursor = some (packets, cursor') ∧
          cursor'.nextSequence = r.writeIdx ∧ cursor'.awaitingKeyframe = awaiting)) ∧
    (∀ (capacity : Nat) (h : 0 < capacity) (pub : Publication),
      Exec.Reachable Publication.step Exec.anyLabel (Publication.start capacity h) pub →
      pub.todo = [] → ∀ s, pub.ring.writeIdx - s < capacity → s < pub.ring.writeIdx →
        (pub.ring.readAt s).isSome = true) := by
  refine ⟨?_, ?_, ?_⟩
  · intro r rd rd' call out hcall calls trace hrun
    have ha : rd'.awaitingKeyframe = true := by
      rcases call_cases hcall with ⟨hfalse, -⟩ | ⟨-, -, ha⟩
      · cases hfalse
      · exact ha
    exact ⟨fun xs ys hsplit hx => runCalls_before_keyframe hrun ha hsplit hx, runCalls_audio hrun⟩
  · intro r rd cursor sizes budgets hle hlag hread hseq hflag hsizes hunits hbytes
    obtain ⟨log, hat⟩ := exists_readsFrom hle hlag hread
    refine ⟨passed rd.awaitingKeyframe (log.drop rd.readIdx),
      awaitingAfter rd.awaitingKeyframe (log.drop rd.readIdx), fun fuel hfuel => ?_⟩
    rw [hat.writeIdx] at hfuel ⊢
    refine ⟨pullAll_quiet hat hfuel, burstAll_quiet hsizes hat hfuel, ?_⟩
    rw [← hseq] at hat hfuel
    have hall := readAll_quiet hunits hbytes rfl hat hfuel
    rwa [hseq, hflag] at hall
  · intro capacity h pub hrun htodo s hlag hlt
    have hinv : pub.Inv ∧ pub.ring.capacity = capacity :=
      Exec.Reachable.invariant (fun p => p.Inv ∧ p.ring.capacity = capacity)
        (fun p e q hp _ hstep => ⟨(hp.1.step hstep).1, (hp.1.step hstep).2.capacity.trans hp.2⟩)
        ⟨start_inv capacity h, rfl⟩ hrun
    have hquiet := hinv.1.quiet htodo
    rw [hquiet.writeIdx] at hlag hlt
    have hat := hquiet.readsFrom (Nat.zero_le s) hlt.le (hinv.2.symm ▸ hlag)
    rw [hat.readAt le_rfl hlt]
    rfl

def lappedRing : RingBuffer :=
  (RingBuffer.new 4 (by decide)).pushBatch (List.replicate 5 (.raw .video false 0))

def recoveredRing : RingBuffer :=
  lappedRing.pushBatch [.raw .video false 5, .raw .audio false 6, .raw .video true 7]

def resumedReader (readIdx : Nat) (awaitingKeyframe : Bool) : Reader :=
  { register 0 readIdx 0 with awaitingKeyframe }

/-- The reader of `lappedRing` resumes at 5, skips the interframe there and returns
the audio packet and the keyframe, and from there the drivers agree. -/
theorem readers_recover_and_agree_from_five : (∃ trace, runCalls (resumedReader 5 true)
        [(recoveredRing, .pullBurst 8)] = some trace ∧
      trace.returned = [.raw .audio false 6, .raw .video true 7] ∧
      trace.returned.filter MediaPacket.isAudio = trace.passedOver.filter MediaPacket.isAudio) ∧
    (∃ packets awaiting, ∀ fuel, 3 < fuel →
      (∃ rd', pullAll recoveredRing fuel (resumedReader 5 true) = some (packets, rd') ∧
        rd'.readIdx = 8 ∧ rd'.awaitingKeyframe = awaiting) ∧
      (∃ rd', burstAll recoveredRing fuel (fun _ => 2) (resumedReader 5 true) =
          some (packets, rd') ∧ rd'.readIdx = 8 ∧ rd'.awaitingKeyframe = awaiting) ∧
      (∃ cursor', readAll recoveredRing 0 fuel (fun _ => ⟨1, 1⟩)
          { FeedCursor.new 0 5 with awaitingKeyframe := true } = some (packets, cursor') ∧
        cursor'.nextSequence = 8 ∧ cursor'.awaitingKeyframe = awaiting)) := by
  constructor
  · have hover : (register 0 0 0).call lappedRing .pull = some (resumedReader 5 true, [], true) := by
      decide +kernel
    have hrun : runCalls (resumedReader 5 true) [(recoveredRing, .pullBurst 8)] = some {
          reader := resumedReader 8 false
          returned := [.raw .audio false 6, .raw .video true 7]
          passedOver := [.raw .video false 5, .raw .audio false 6, .raw .video true 7] } := by
      decide +kernel
    exact ⟨_, hrun, rfl, (readers_recover_and_agree.1 _ _ _ _ _ hover _ _ hrun).2⟩
  · have hread : ∀ s, 5 ≤ s → s < recoveredRing.writeIdx →
        (recoveredRing.readAt s).isSome = true := by
      intro s hs hlt
      have hcases : ∀ s : Fin 8, 5 ≤ s.val → (recoveredRing.readAt s.val).isSome = true := by
        decide +kernel
      exact hcases ⟨s, hlt⟩ hs
    exact readers_recover_and_agree.2.1 recoveredRing (resumedReader 5 true)
      { FeedCursor.new 0 5 with awaitingKeyframe := true } (fun _ => 2) (fun _ => ⟨1, 1⟩)
      (by decide) (by decide) hread rfl rfl (by simp) (by simp) (by simp)

/-- A ring of 4 that has published 5 packets, grown to 16: sequence 1 is not copied. -/
def grownRing : RingBuffer :=
  ((RingBuffer.new 4 (by decide)).pushBatch
    [.raw .video true 0, .raw .video false 1, .raw .video false 2, .raw .video true 3,
      .raw .video false 4]).resized 16 (by decide)

/-- From position 1 of `grownRing`, less than its capacity behind, the readers skip to
the keyframe and catch up, while `readRing` never gets past the lost packet. -/
theorem grown_ring_readers_differ : grownRing.writeIdx - 1 < grownRing.capacity ∧
    (pullAll grownRing 6 (register 0 1 0)).map (fun x => (x.1, x.2.readIdx)) =
      some ([.raw .video true 3, .raw .video false 4], 5) ∧
    (burstAll grownRing 6 (fun _ => 2) (register 0 1 0)).map (fun x => (x.1, x.2.readIdx)) =
      some ([.raw .video true 3, .raw .video false 4], 5) ∧
    ∀ fuel, readAll grownRing 0 fuel (fun _ => ⟨1, 1⟩) (.new 0 1) = none := by
  refine ⟨by decide, by decide +kernel, by decide +kernel, fun fuel => ?_⟩
  cases fuel with
  | zero => rfl
  | succ fuel =>
    have hlost : ((readRing grownRing.capacity id ⟨1, 1⟩ 0 (.new 0 1)).run grownRing.answer).1 =
        .overrun 0 := by decide +kernel
    rcases hread : (readRing grownRing.capacity id ⟨1, 1⟩ 0 (.new 0 1)).run grownRing.answer with
      ⟨result, units⟩
    rw [hread] at hlost
    simp only at hlost
    simp [readAll, hread, hlost]

end Restream
