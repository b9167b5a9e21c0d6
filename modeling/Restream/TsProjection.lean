import Restream.TsTopology

/-! One stream of the demuxer among any others: as long as the program map stays, what
the stream emits depends on the payloads of its own PID alone. -/

namespace Restream.Mpegts

open Codec List Option

variable {π : Type}

theorem StreamInfo.receiveAll_append (s : StreamInfo) :
    s.receiveAll (ps ++ qs) = (((s.receiveAll ps).1.receiveAll qs).1,
      (s.receiveAll ps).2 ++ ((s.receiveAll ps).1.receiveAll qs).2) := by
  induction ps generalizing s with
  | nil => rfl
  | cons p ps ih => simp only [cons_append, receiveAll, ih, append_assoc]

open StreamInfo

theorem StreamInfo.receiveAll_same (s : StreamInfo) (ps : List TsPayload) :
    s.Same (s.receiveAll ps).1 := by
  induction ps generalizing s with
  | nil => rfl
  | cons p ps ih => exact (receive_spec s p).1.trans (ih _)

namespace PacketDemuxer

variable {d : PacketDemuxer π}

theorem topology_run (pr : Prober π) (pays : List TsPayload) (h : Topology d) :
    Topology (pays.foldl (processPayload pr) d) := by
  induction pays generalizing d with
  | nil => exact h
  | cons p pays ih => exact ih (h.processPayload pr p)

def program (d : PacketDemuxer π) : Option Nat × List UInt8 := (d.pmtPid, d.pmtLayout)

def Stays (prober : Prober π) (d : PacketDemuxer π) (payloads : List TsPayload) : Prop :=
  ∀ k ≤ payloads.length, ((payloads.take k).foldl (processPayload prober) d).program = d.program

theorem Stays.cons (h : Stays pr d (p :: pays)) :
    (d.processPayload pr p).program = d.program ∧ Stays pr (d.processPayload pr p) pays := by
  have hf : (d.processPayload pr p).program = d.program := h 1 (by simp)
  refine ⟨hf, fun k hk => ?_⟩
  rw [hf]
  exact h (k + 1) (by simpa using hk)

structure Holds (d : PacketDemuxer π) (pid i : Nat) (s : StreamInfo) (out : List MediaPacket) :
    Prop where
  topology : Topology d
  index : d.pidToStream pid = some i
  stream : d.streams[i]? = some s
  output : d.output.filter (fun q => Mpegts.tag q = s.tag) = out

variable {pid i : Nat} {s : StreamInfo} {out : List MediaPacket}

theorem Holds.emit {next : PacketDemuxer π} {j : Nat} {t t' : StreamInfo} {ps : List MediaPacket}
    (h : Holds d pid i s out) (ht : d.streams[j]? = some t) (hsa : t.Same t')
    (hp : ∀ q ∈ ps, Mpegts.tag q = t.tag) (hc : next.core = d.core.emit j t' ps)
    (hn : Topology next) :
    Holds next pid i (if j = i then t' else s) (if j = i then out ++ ps else out) := by
  have hi : next.pidToStream pid = some i :=
    (congrFun (congrArg DemuxCore.pidToStream hc) pid).trans h.index
  have ho : next.output = d.output ++ ps := congrArg DemuxCore.output hc
  have hs : next.streams[i]? = if i = j then some t' else d.streams[i]? := by
    have hat : (d.core.emit j t' ps).streams[i]? = _ := Delivers.getElem?_emit ht i
    rw [← hc] at hat
    exact hat
  by_cases hji : j = i
  · subst hji
    obtain rfl : t = s := some.inj (ht.symm.trans h.stream)
    rw [if_pos rfl] at hs
    rw [if_pos rfl, if_pos rfl]
    refine ⟨hn, hi, hs, ?_⟩
    rw [ho, hsa.tag_eq, filter_append, h.output,
      filter_eq_self.mpr fun q hq => decide_eq_true (hp q hq)]
  · rw [if_neg (Ne.symm hji), h.stream] at hs
    rw [if_neg hji, if_neg hji]
    refine ⟨hn, hi, hs, ?_⟩
    have hno : ps.filter (fun q => Mpegts.tag q = s.tag) = [] := by
      rw [filter_eq_nil_iff]
      intro q hq htag
      exact hji (h.topology.distinct ht h.stream ((hp q hq).symm.trans (of_decide_eq_true htag)))
    rw [ho, filter_append, hno, append_nil, h.output]

theorem Holds.process (h : Holds d pid i s out) (hpat : pid ≠ patPid) (hpmt : d.pmtPid ≠ some pid)
    (hs : (d.processPayload pr p).program = d.program) :
    Holds (d.processPayload pr p) pid i (if p.pid = pid then (s.receive p).1 else s)
      (if p.pid = pid then out ++ (s.receive p).2 else out) := by
  have hn := h.topology.processPayload pr p
  have hro : p.pid = pid → d.route p = some i := by
    rintro rfl
    rw [route, if_neg (not_or.mpr ⟨hpat, fun h' => hpmt h'.symm⟩), h.index]
  rcases processPayload_cases pr d p with
    ⟨j, hr, heq⟩ | ⟨hr, ⟨pmtPid, buf, ex, heq⟩ | ⟨lay, es, buf, ex, hnew, heq⟩⟩
  · obtain ⟨t, ht, htp⟩ := exists_routed h.topology hr
    obtain ⟨hsa, hp⟩ := t.receive_spec p
    rw [heq] at hn ⊢
    have hre := h.emit ht hsa hp (core_receive ht p) hn
    by_cases hown : p.pid = pid
    · obtain rfl : j = i := some.inj (hr.symm.trans (hro hown))
      obtain rfl : t = s := some.inj (ht.symm.trans h.stream)
      rw [if_pos rfl, if_pos rfl] at hre
      rwa [if_pos hown, if_pos hown]
    · have hji : j ≠ i := by
        rintro rfl
        obtain ⟨u, hu, hup⟩ := h.topology.routes pid j h.index
        obtain rfl := some.inj (ht.symm.trans hu)
        exact hown (htp.symm.trans hup)
      rw [if_neg hji, if_neg hji] at hre
      rwa [if_neg hown, if_neg hown]
  · have ho : p.pid ≠ pid := fun hown => by cases hr.symm.trans (hro hown)
    rw [if_neg ho, if_neg ho]
    rw [heq] at hn ⊢
    exact ⟨hn, h.index, h.stream, h.output⟩
  · refine (hnew ?_).elim
    rw [heq] at hs
    exact (installPmt_layout pr d lay es).symm.trans (congrArg Prod.snd hs)

theorem Holds.run (pr : Prober π) (hpat : pid ≠ patPid) (h : Holds d pid i s out)
    (hpmt : d.pmtPid ≠ some pid) (hs : Stays pr d pays) :
    Holds (pays.foldl (processPayload pr) d) pid i (s.receiveAll (pays.filter (·.pid = pid))).1
      (out ++ (s.receiveAll (pays.filter (·.pid = pid))).2) := by
  induction pays generalizing d s out with
  | nil => simpa [receiveAll] using h
  | cons p pays ih =>
    obtain ⟨hf, hr⟩ := hs.cons
    have hpmt' : (d.processPayload pr p).pmtPid ≠ some pid := by
      rw [show (d.processPayload pr p).pmtPid = d.pmtPid from congrArg Prod.fst hf]
      exact hpmt
    have hn := ih (h.process hpat hpmt hf) hpmt' hr
    by_cases hown : p.pid = pid
    · rw [if_pos hown, if_pos hown] at hn
      rw [filter_cons_of_pos (by simpa using hown)]
      simpa [receiveAll] using hn
    · rw [if_neg hown, if_neg hown] at hn
      rw [filter_cons_of_neg (by simpa using hown)]
      exact hn

variable (h : Holds d pid i s out) (pr : Prober π)
include h

theorem Holds.flushPes (j : Nat) : Holds (d.flushPes pr j) pid i (if j = i then s.flushPes.1 else s)
      (if j = i then out ++ s.flushPes.2.1 else out) := by
  have hn := h.topology.flushPes pr j
  cases ht : d.streams[j]? with
  | none =>
    have hji : j ≠ i := by
      rintro rfl
      cases ht.symm.trans h.stream
    rw [if_neg hji, if_neg hji, PacketDemuxer.flushPes, ht]
    exact h
  | some t =>
    have hf := h.emit ht t.flushPes_same t.flushPes_pushed (core_flushPes ht) hn
    by_cases hji : j = i
    · subst hji
      obtain rfl : t = s := some.inj (ht.symm.trans h.stream)
      exact hf
    · rw [if_neg hji, if_neg hji] at hf ⊢
      exact hf

theorem Holds.flush_first (n : Nat) :
    Holds ((range n).foldl (PacketDemuxer.flushPes pr) d) pid i (if i < n then s.flushPes.1 else s)
      (if i < n then out ++ s.flushPes.2.1 else out) := by
  induction n with
  | zero => simpa using h
  | succ n ih =>
    rw [range_succ, foldl_append]
    have hn := ih.flushPes pr n
    rcases Nat.lt_trichotomy i n with hlt | rfl | hgt
    · simp only [if_pos hlt, if_neg hlt.ne'] at hn
      rw [if_pos (by omega), if_pos (by omega)]
      exact hn
    · simp only [lt_irrefl, if_false, if_true] at hn
      rw [if_pos (by omega), if_pos (by omega)]
      exact hn
    · simp only [if_neg hgt.not_gt, if_neg hgt.ne] at hn
      rw [if_neg (by omega), if_neg (by omega)]
      exact hn

theorem Holds.flush :
    (d.flush pr).output.filter (fun q => Mpegts.tag q = s.tag) = out ++ s.flushPes.2.1 := by
  have hlt := (List.getElem?_eq_some_iff.mp h.stream).1
  have hf := (h.flush_first pr d.streams.length).output
  rw [if_pos hlt, if_pos hlt, (flushPes_same s).tag_eq] at hf
  exact hf

end PacketDemuxer

end Restream.Mpegts
