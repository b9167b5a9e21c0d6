import Restream.Producer
import Restream.Reader

/-! On a ring that can be read from the read position on, `pull` and `pullBurst`,
each repeated until it has caught up, return what a keyframe wait passes of the
packets there. -/

namespace Restream

open List Option Reader

/-- A ring whose last publication is complete and that holds the log from
`first` on. -/
structure RingQuiet (r : RingBuffer) (log : List MediaPacket) (first : Nat) : Prop where
  holds : RingHolds r log first log.length log.length
  writeIdx : r.writeIdx = log.length
  writeBegin : r.writeBegin = log.length

open RingQuiet

theorem Publication.Inv.quiet {p : Publication} (h : p.Inv) (ht : p.todo = []) :
    RingQuiet p.ring p.log 0 := by
  obtain ⟨units, stored, hr, hs⟩ := h
  rw [ht] at hs
  obtain ⟨hw, hb, rfl, rfl⟩ := hs
  exact ⟨hr, hw, hb⟩

section Drivers

def pullAll (r : RingBuffer) : Nat → Reader → Option (List MediaPacket × Reader)
  | 0, _ => none
  | fuel + 1, rd => do
    match ← rd.pull r with
    | (rd, .ok none) => return ([], rd)
    | (rd, .ok (some packet)) =>
      let (packets, rd) ← pullAll r fuel rd
      return (packet :: packets, rd)
    | (rd, .error _) => pullAll r fuel rd

def burstAll (r : RingBuffer) : Nat → (Nat → Nat) → Reader → Option (List MediaPacket × Reader)
  | 0, _, _ => none
  | fuel + 1, sizes, rd =>
    match rd.pullBurst r [] (sizes 0) with
    | (rd, loaded, result) =>
      if result.toOption = some 0 ∧ rd.readIdx = r.writeIdx then some (loaded, rd)
      else do
        let (packets, rd) ← burstAll r fuel (fun i => sizes (i + 1)) rd
        return (loaded ++ packets, rd)

end Drivers

section Quiet

variable {r : RingBuffer} {log : List MediaPacket} {first : Nat}

variable {s p fuel : Nat} {aw aw' : Bool} {rd : Reader}

theorem RingQuiet.readAt (h : RingQuiet r log first) (hf : first ≤ s) (hs : s < log.length)
    (hc : log.length ≤ s + r.capacity) : r.readAt s = log[s]? :=
  h.holds.readAt_retained hf hs hc

/-- A ring that can be read from `p` up to its write index, less than a capacity
on, and what is read there. -/
structure ReadsFrom (r : RingBuffer) (log : List MediaPacket) (p : Nat) : Prop where
  writeIdx : r.writeIdx = log.length
  le : p ≤ log.length
  lag : log.length - p < r.capacity
  readAt : ∀ {s : Nat}, p ≤ s → (hs : s < log.length) → r.readAt s = some log[s]

theorem ReadsFrom.mono (h : ReadsFrom r log p) (hpq : p ≤ q) (hq : q ≤ log.length) :
    ReadsFrom r log q :=
  ⟨h.writeIdx, hq, by have := h.lag; omega, fun hs => h.readAt (hpq.trans hs)⟩

theorem RingQuiet.readsFrom (h : RingQuiet r log first) (hf : first ≤ p) (hle : p ≤ log.length)
    (hlag : log.length - p < r.capacity) : ReadsFrom r log p := by
  refine ⟨h.writeIdx, hle, hlag, fun {s} hp hs => ?_⟩
  rw [h.readAt (hf.trans hp) hs (by omega), getElem?_eq_getElem hs]

theorem RingBuffer.exists_readsFrom (hle : p ≤ r.writeIdx) (hlag : r.writeIdx - p < r.capacity)
    (hr : ∀ s, p ≤ s → s < r.writeIdx → (r.readAt s).isSome = true) :
    ∃ log, ReadsFrom r log p := by
  have hlen : ((range r.writeIdx).map fun s =>
      (r.readAt s).getD (.raw .video false 0)).length = r.writeIdx := by simp
  refine ⟨_, hlen.symm, hle.trans hlen.ge, by rwa [hlen], fun {s} hp hs => ?_⟩
  obtain ⟨packet, hs'⟩ := isSome_iff_exists.mp (hr s hp (hs.trans_eq hlen))
  simp [hs']

theorem ReadsFrom.slice_eq (h : ReadsFrom r log p) (hs : Slice r p xs)
    (hend : p + xs.length ≤ log.length) : log.drop p = xs ++ log.drop (p + xs.length) := by
  induction xs generalizing p with
  | nil => rfl
  | cons x xs ih =>
    rw [length_cons] at hend ⊢
    have hlt : p < log.length := by omega
    have hx : x = log[p] := by
      have hr := hs.1
      rw [h.readAt le_rfl hlt, Option.some.injEq] at hr
      exact hr.symm
    rw [drop_eq_getElem_cons hlt, ← hx, ih (h.mono (Nat.le_succ p) hlt) hs.2 (by omega),
      cons_append, show p + 1 + xs.length = p + (xs.length + 1) by omega]

/-- Moving from `p` with flag `aw` to `p'` with flag `aw'` returns `out`, and
leaves of what a keyframe wait passes from `p` on just the rest. -/
structure Emits (log : List MediaPacket) (p : Nat) (aw : Bool) (out : List MediaPacket) (p' : Nat)
    (aw' : Bool) : Prop where
  le : p ≤ p'
  le_length : p' ≤ log.length
  passed_eq : passed aw (log.drop p) = out ++ passed aw' (log.drop p')
  awaiting_eq : awaitingAfter aw (log.drop p) = awaitingAfter aw' (log.drop p')

theorem Emits.of_append (hp : p + sk.length + ret.length ≤ log.length)
    (hd : log.drop p = (sk ++ ret) ++ log.drop (p + sk.length + ret.length))
    (hs : ∀ q ∈ sk, aw = true ∧ q.isVideoInterframe = true) (hpa : passed aw ret = ret)
    (haw : aw' = awaitingAfter aw ret) : Emits log p aw ret (p + sk.length + ret.length) aw' := by
  have hk := awaitingAfter_interframes aw fun q hq => (hs q hq).2
  have hnil : passed aw sk = [] := by
    cases sk with
    | nil => rfl
    | cons q qs =>
      rw [(hs q mem_cons_self).1]
      exact passed_interframes fun x hx => (hs x hx).2
  refine ⟨by omega, hp, ?_, ?_⟩
  · rw [hd, passed_append, passed_append, awaitingAfter_append, hk, hnil, hpa, ← haw]
    rfl
  · rw [hd, awaitingAfter_append, awaitingAfter_append, hk, ← haw]

theorem ReadRun.emits (run : ReadRun r rd rd' sk ret) (h : ReadsFrom r log rd.readIdx)
    (hend : rd'.readIdx ≤ log.length) :
    Emits log rd.readIdx rd.awaitingKeyframe ret rd'.readIdx rd'.awaitingKeyframe := by
  have hidx := run.readIdx
  have hd := h.slice_eq run.slice (by rw [length_append]; omega)
  rw [length_append, ← Nat.add_assoc] at hd
  rw [hidx] at hend ⊢
  exact .of_append hend hd run.skips run.passes run.awaiting

theorem Emits.at_end (h : Emits log p aw out log.length aw') :
    passed aw (log.drop p) = out ∧ awaitingAfter aw (log.drop p) = aw' := by
  have hp := h.passed_eq
  have ha := h.awaiting_eq
  rw [drop_length] at hp ha
  rw [passed, append_nil] at hp
  rw [awaitingAfter_nil] at ha
  exact ⟨hp, ha⟩

section

variable (h : ReadsFrom r log rd.readIdx)

include h

theorem ReadsFrom.pull : ∃ rd' sk packet, rd.pull r = some (rd', .ok packet) ∧
    ReadRun r rd rd' sk packet.toList ∧ rd'.readIdx ≤ log.length ∧
    match packet with | none => rd'.readIdx = log.length | some _ => rd.readIdx < rd'.readIdx := by
  have hw := h.writeIdx
  have hle := h.le
  have hlag := h.lag
  obtain ⟨⟨rd', result⟩, hpull⟩ := isSome_iff_exists.mp (pull_isSome (hw ▸ hle))
  cases pull_result hpull with
  | @caughtUp _ sk run hcaught =>
    exact ⟨rd', sk, none, hpull, run, by omega, by omega⟩
  | @packet _ sk p run hend =>
    have hidx := run.readIdx
    rw [length_singleton] at hidx
    exact ⟨rd', sk, some p, hpull, run, hw ▸ hend (by omega), by omega⟩
  | @overflow mid sk run hend lost =>
    have hidx := run.readIdx
    rcases lost with hlags | hnone
    · simp only [lagsALap, decide_eq_true_eq] at hlags
      omega
    · rw [h.readAt (by omega) (by omega)] at hnone
      cases hnone

theorem pullAll_quiet (hf : log.length - rd.readIdx < fuel) :
    ∃ rd', pullAll r fuel rd = some (passed rd.awaitingKeyframe (log.drop rd.readIdx), rd') ∧
      rd'.readIdx = log.length ∧
      rd'.awaitingKeyframe = awaitingAfter rd.awaitingKeyframe (log.drop rd.readIdx) := by
  induction fuel generalizing rd with
  | zero => omega
  | succ fuel ih =>
    obtain ⟨rd', sk, pkt, hp, run, hend, hm⟩ := h.pull
    have he := run.emits h hend
    cases pkt with
    | none =>
      rw [hm] at he
      obtain ⟨hnil, ha⟩ := he.at_end
      exact ⟨rd', by simp [pullAll, hp, hnil], hm, ha.symm⟩
    | some p =>
      have hn := h.mono he.le he.le_length
      obtain ⟨rd'', hr, hidx, ha⟩ := ih hn (by omega)
      refine ⟨rd'', ?_, hidx, ha.trans he.awaiting_eq.symm⟩
      simp [pullAll, hp, hr, he.passed_eq]

theorem ReadsFrom.pullBurst (out : List MediaPacket) (maxPackets : Nat) :
    ∃ rd' sk loaded, rd.pullBurst r out maxPackets = (rd', out ++ loaded, .ok loaded.length) ∧
      ReadRun r rd rd' sk loaded ∧ rd'.readIdx ≤ log.length ∧
      (0 < maxPackets → rd.readIdx < log.length → rd.readIdx < rd'.readIdx) := by
  have hw := h.writeIdx
  have hle := h.le
  have hlag := h.lag
  rcases hburst : rd.pullBurst r out maxPackets with ⟨rd', out', result⟩
  obtain ⟨loaded, rfl, hres⟩ := pullBurst_result hburst
  cases hres with
  | @packets _ sk _ run hend _ hprogress =>
    exact ⟨rd', sk, loaded, rfl, run, by omega, fun hmax hlt => hprogress hmax (by omega)⟩
  | overflow lost =>
    rcases lost with hlags | ⟨s, hge, hlt, hnone⟩
    · simp only [lagsALap, decide_eq_true_eq] at hlags
      omega
    · rw [h.readAt hge (by omega)] at hnone
      cases hnone

end

theorem burstAll_quiet (hs : ∀ i, 0 < sizes i) (h : ReadsFrom r log rd.readIdx)
    (hf : log.length - rd.readIdx < fuel) :
    ∃ rd', burstAll r fuel sizes rd = some (passed rd.awaitingKeyframe (log.drop rd.readIdx), rd') ∧
      rd'.readIdx = log.length ∧
      rd'.awaitingKeyframe = awaitingAfter rd.awaitingKeyframe (log.drop rd.readIdx) := by
  induction fuel generalizing rd sizes with
  | zero => omega
  | succ fuel ih =>
    obtain ⟨rd', sk, loaded, hb, run, hend, hpr⟩ := h.pullBurst [] (sizes 0)
    rw [nil_append] at hb
    have hpr := hpr (hs 0)
    have he := run.emits h hend
    have hw := h.writeIdx
    by_cases hd : loaded.length = 0 ∧ rd'.readIdx = r.writeIdx
    · have hidx : rd'.readIdx = log.length := hd.2.trans hw
      rw [hidx] at he
      obtain ⟨hp, ha⟩ := he.at_end
      refine ⟨rd', ?_, hidx, ha.symm⟩
      simp [burstAll, hb, hd, hp, Except.toOption]
    · have hlt : rd.readIdx < log.length := by
        by_contra hge
        have hidx : rd'.readIdx = log.length := by
          have hle := he.le
          omega
        have hp := he.passed_eq
        rw [drop_eq_nil_of_le (by omega)] at hp
        have hnil := (append_eq_nil_iff.mp hp.symm).1
        exact hd ⟨by rw [hnil]; rfl, hidx.trans hw.symm⟩
      have hn := h.mono he.le he.le_length
      obtain ⟨rd'', hr, hidx, ha⟩ := ih (fun i => hs (i + 1)) hn (by omega)
      refine ⟨rd'', ?_, hidx, ha.trans he.awaiting_eq.symm⟩
      have hgo : ¬((Except.ok loaded.length : Except String Nat).toOption = some 0 ∧
          rd'.readIdx = r.writeIdx) := by simpa [Except.toOption] using hd
      simp [burstAll, hb, hgo, hr, he.passed_eq]

end Quiet

end Restream
