import Restream.PesUnits

/-! The demuxer as its elementary streams: a payload changes its own stream as it would
alone, and what every stream has emitted or still holds is kept by flushing. -/

namespace Restream.Mpegts

open List StreamInfo Function

variable {π : Type}

structure DemuxCore where
  streams : List StreamInfo
  pidToStream : Nat → Option Nat
  pmtPid : Option Nat
  output : List MediaPacket
  pmtLayout : List UInt8
  pmtBuf : List UInt8
  pmtExpected : Nat

def DemuxCore.emit (c : DemuxCore) (i : Nat) (s : StreamInfo) (packets : List MediaPacket) :
    DemuxCore :=
  { c with streams := c.streams.set i s, output := c.output ++ packets }

theorem DemuxCore.emit_emit (c : DemuxCore) (i : Nat) (s s' : StreamInfo)
    (ps ps' : List MediaPacket) : (c.emit i s ps).emit i s' ps' = c.emit i s' (ps ++ ps') := by
  simp [emit]

open DemuxCore

theorem DemuxCore.emit_self {c : DemuxCore} (hs : c.streams[i]? = some s) : c.emit i s [] = c := by
  obtain ⟨hlt, rfl⟩ := List.getElem?_eq_some_iff.mp hs
  simp [emit]

namespace PacketDemuxer

def core (d : PacketDemuxer π) : DemuxCore :=
  { streams := d.streams
    pidToStream := d.pidToStream
    pmtPid := d.pmtPid
    output := d.output
    pmtLayout := d.pmtLayout
    pmtBuf := d.pmtBuf
    pmtExpected := d.pmtExpected }

variable {d : PacketDemuxer π} {i : Nat} {s : StreamInfo}

theorem core_tryBuildProbe : (tryBuildProbe pr d i pay).core = d.core := by
  unfold tryBuildProbe
  dsimp only
  split
  · split
    · rfl
    · split <;> rfl
  · rfl

theorem core_flushPes (hs : d.streams[i]? = some s) :
    (d.flushPes pr i).core = d.core.emit i s.flushPes.1 s.flushPes.2.1 := by
  unfold flushPes
  rw [hs]
  dsimp only
  split
  · rfl
  · split
    · rfl
    · rw [core_tryBuildProbe]
      rfl

theorem core_flushCompletedPes (hs : d.streams[i]? = some s) :
    (d.flushCompletedPes pr i).core = d.core.emit i s.complete.1 s.complete.2 := by
  unfold flushCompletedPes
  rw [hs]
  dsimp only
  cases hlen : s.pes.expectedPayloadLen with
  | none =>
    rw [complete_none hlen, emit_self hs]
  | some ex =>
    rw [complete_some hlen]
    dsimp only
    split
    · rw [core_flushPes (List.getElem?_set_self (List.getElem?_eq_some_iff.mp hs).1)]
      simp [core, emit, hlen]
    · rw [emit_self hs]

theorem core_receive (hs : d.streams[i]? = some s) (p : TsPayload) :
    (d.receive pr i p).core = d.core.emit i (s.receive p).1 (s.receive p).2 := by
  have hlt := (List.getElem?_eq_some_iff.mp hs).1
  unfold receive StreamInfo.receive
  split
  · have hc : (d.flushPes pr i).core = _ := core_flushPes hs
    generalize d.flushPes pr i = flushed at hc
    have hst : flushed.streams = d.streams.set i s.flushPes.1 := congrArg DemuxCore.streams hc
    have hf : flushed.streams[i]? = some s.flushPes.1 := by rw [hst, getElem?_set_self hlt]
    dsimp only
    rw [hf]
    dsimp only
    cases s.flushPes.1.pes.begin p.randomAccess p.payload with
    | none => exact hc
    | some pes =>
      rw [core_flushCompletedPes (List.getElem?_set_self (List.getElem?_eq_some_iff.mp hf).1)]
      have hset :
        ({ flushed with streams := flushed.streams.set i { s.flushPes.1 with pes := pes } } :
          PacketDemuxer π).core = flushed.core.emit i { s.flushPes.1 with pes := pes } [] := by
        simp [core, emit]
      rw [hset, emit_emit, hc, emit_emit]
      rfl
  · rw [hs]
    rw [core_flushCompletedPes (getElem?_set_self hlt)]
    simp [core, emit]

theorem core_receiveAll {pid : Nat} (hpat : pid ≠ patPid) (hpa : ∀ p ∈ pays, p.pid = pid)
    (hpmt : d.pmtPid ≠ some pid) (hpid : d.pidToStream pid = some i) (hs : d.streams[i]? = some s) :
    (pays.foldl (processPayload pr) d).core =
      d.core.emit i (s.receiveAll pays).1 (s.receiveAll pays).2 := by
  induction pays generalizing d s with
  | nil => exact (emit_self hs).symm
  | cons p pays ih =>
    have hp := hpa p mem_cons_self
    have hst : (d.processPayload pr p).core = d.core.emit i (s.receive p).1 (s.receive p).2 := by
      rw [processPayload, hp, if_neg hpat, if_neg fun h => hpmt h.symm, hpid]
      exact core_receive hs p
    rw [foldl_cons]
    generalize d.processPayload pr p = next at hst
    have hpmt' : next.pmtPid = d.pmtPid := congrArg DemuxCore.pmtPid hst
    have hpid' : next.pidToStream = d.pidToStream := congrArg DemuxCore.pidToStream hst
    have hstr : next.streams = d.streams.set i (s.receive p).1 := congrArg DemuxCore.streams hst
    rw [ih (fun q hq => hpa q (List.mem_cons_of_mem _ hq)) (hpmt'.trans_ne hpmt) (by rw [hpid', hpid])
      (by rw [hstr, List.getElem?_set_self (List.getElem?_eq_some_iff.mp hs).1]), hst, emit_emit]
    rfl

end PacketDemuxer

def tag (p : MediaPacket) : MediaType × Nat := (p.mediaType, p.trackIndex)

def StreamInfo.tag (s : StreamInfo) : MediaType × Nat := (s.kind.mediaType, s.trackIndex)

theorem StreamInfo.Same.tag_eq {s t : StreamInfo} (h : s.Same t) : t.tag = s.tag := by rw [h]; rfl

open PacketDemuxer

structure Delivers (emitted : Nat → List MediaPacket) (c : DemuxCore) : Prop where
  distinct : ∀ (i j : Nat) (s t : StreamInfo), c.streams[i]? = some s →
    c.streams[j]? = some t → s.tag = t.tag → i = j
  tagged : ∀ (i : Nat) (s : StreamInfo), c.streams[i]? = some s → ∀ p ∈ emitted i, tag p = s.tag
  split : ∀ (i : Nat) (s : StreamInfo), c.streams[i]? = some s →
    c.output.filter (fun p => tag p = s.tag) ++ s.flushPes.2.1 = emitted i
  ready : ∀ (i : Nat) (s : StreamInfo), c.streams[i]? = some s → s.Ready
  known : ∀ p ∈ c.output, ∃ (i : Nat) (s : StreamInfo), c.streams[i]? = some s ∧ tag p = s.tag

namespace Delivers

variable {c : DemuxCore}

theorem getElem?_emit (hs : c.streams[i]? = some s) (j : Nat) :
    (c.emit i s' out).streams[j]? = if j = i then some s' else c.streams[j]? := by
  obtain ⟨hlt, -⟩ := List.getElem?_eq_some_iff.mp hs
  rw [emit, List.getElem?_set]
  split
  · next h => simp [h]
  · next h => rw [if_neg fun hji => h hji.symm]

theorem emit (h : Delivers emitted c) (hs : c.streams[i]? = some s) (hsa : s.Same s') (hr : s'.Ready)
    (hm : ∀ p ∈ more, tag p = s.tag) (hsp : out ++ s'.flushPes.2.1 = s.flushPes.2.1 ++ more) :
    Delivers (update emitted i (emitted i ++ more)) (c.emit i s' out) := by
  have hown : ∀ p ∈ s.flushPes.2.1 ++ more, tag p = s.tag := by
    intro p hp
    rcases mem_append.mp hp with hp | hp
    · exact h.tagged i s hs p (h.split i s hs ▸ mem_append_right _ hp)
    · exact hm p hp
  have hout : ∀ p ∈ out, tag p = s.tag := fun p hp => hown p (hsp ▸ mem_append_left _ hp)
  have hat (j : Nat) (t : StreamInfo) (ht : (c.emit i s' out).streams[j]? = some t) :
      (j = i ∧ t = s') ∨ (j ≠ i ∧ c.streams[j]? = some t) := by
    rw [getElem?_emit hs] at ht
    split at ht
    · next hji => exact .inl ⟨hji, (Option.some.inj ht).symm⟩
    · next hji => exact .inr ⟨hji, ht⟩
  have hold (j : Nat) (t : StreamInfo) (ht : (c.emit i s' out).streams[j]? = some t) :
      ∃ u, c.streams[j]? = some u ∧ t.tag = u.tag := by
    rcases hat j t ht with ⟨rfl, rfl⟩ | ⟨-, ht⟩
    · exact ⟨s, hs, hsa.tag_eq⟩
    · exact ⟨t, ht, rfl⟩
  refine ⟨fun j k t u ht hu htag => ?_, fun j t ht p hp => ?_,
    fun j t ht => ?_, fun j t ht => ?_, fun p hp => ?_⟩
  · obtain ⟨t', ht', htt⟩ := hold j t ht
    obtain ⟨u', hu', huu⟩ := hold k u hu
    exact h.distinct j k t' u' ht' hu' (htt.symm.trans (htag.trans huu))
  · rcases hat j t ht with ⟨rfl, rfl⟩ | ⟨hji, ht⟩
    · rw [update_self, mem_append] at hp
      rw [hsa.tag_eq]
      exact hp.elim (h.tagged j s hs p) (hm p)
    · rw [update_of_ne hji] at hp
      exact h.tagged j t ht p hp
  · rcases hat j t ht with ⟨rfl, rfl⟩ | ⟨hji, ht⟩
    · rw [update_self, hsa.tag_eq, ← h.split j s hs, append_assoc, ← hsp]
      simp only [DemuxCore.emit, filter_append, append_assoc]
      rw [filter_eq_self.mpr fun p hp => decide_eq_true (hout p hp)]
    · have hn : out.filter (fun p => tag p = t.tag) = [] := by
        rw [filter_eq_nil_iff]
        intro p hp htag
        exact hji (h.distinct j i t s ht hs ((of_decide_eq_true htag).symm.trans (hout p hp)))
      rw [update_of_ne hji, ← h.split j t ht]
      simp only [DemuxCore.emit, filter_append, hn, append_nil]
  · rcases hat j t ht with ⟨rfl, rfl⟩ | ⟨-, ht⟩
    · exact hr
    · exact h.ready j t ht
  · rcases mem_append.mp hp with hp | hp
    · obtain ⟨j, t, ht, htag⟩ := h.known p hp
      by_cases hji : j = i
      · subst hji
        obtain rfl := Option.some.inj (ht.symm.trans hs)
        exact ⟨j, s', by rw [getElem?_emit hs, if_pos rfl], htag.trans hsa.tag_eq.symm⟩
      · exact ⟨j, t, by rw [getElem?_emit hs, if_neg hji, ht], htag⟩
    · exact ⟨i, s', by rw [getElem?_emit hs, if_pos rfl], (hout p hp).trans hsa.tag_eq.symm⟩

theorem flushPes (h : Delivers emitted c) (hs : c.streams[i]? = some s) :
    Delivers emitted (c.emit i s.flushPes.1 s.flushPes.2.1) := by
  have hi := flushPes_idle (flushPes_buf s)
  have hr : s.flushPes.1.Ready := by
    intro hk
    rw [hi]
    exact h.ready i s hs ((flushPes_same s).kind_eq.symm.trans hk)
  have hn : Delivers (update emitted i (emitted i ++ [])) (c.emit i s.flushPes.1 s.flushPes.2.1) :=
    h.emit hs (flushPes_same s) hr (by simp) (by rw [hi])
  rwa [append_nil, update_eq_self] at hn

end Delivers

namespace PacketDemuxer

theorem flush_first (pr : Prober π) (h : Delivers emitted d.core)
    (n : Nat) (hn : n ≤ d.streams.length) :
    let done := (range n).foldl (flushPes pr) d
    Delivers emitted done.core ∧ done.streams.length = d.streams.length ∧
      (∀ (i : Nat) (s : StreamInfo), done.streams[i]? = some s →
        ∃ t, d.streams[i]? = some t ∧ s.tag = t.tag) ∧
      ∀ i < n, ∀ s, done.streams[i]? = some s → s.pes.buf = [] := by
  induction n with
  | zero => exact ⟨h, rfl, fun i s hs => ⟨s, hs, rfl⟩, by simp⟩
  | succ n ih =>
    obtain ⟨hd, hl, hold, hid⟩ := ih (by omega)
    simp only [range_succ, foldl_append, foldl_cons, foldl_nil]
    generalize (range n).foldl (flushPes pr) d = done at hd hl hold hid
    obtain ⟨s, hs⟩ : ∃ s, done.streams[n]? = some s := ⟨_, getElem?_eq_getElem (by omega)⟩
    have hc : (done.flushPes pr n).core = _ := core_flushPes hs
    generalize done.flushPes pr n = next at hc
    have hst (i : Nat) : next.streams[i]? = if i = n then some s.flushPes.1
        else done.streams[i]? := by
      have hat : (done.core.emit n s.flushPes.1 s.flushPes.2.1).streams[i]? = _ :=
        Delivers.getElem?_emit hs i
      rw [← hc] at hat
      exact hat
    refine ⟨hc ▸ hd.flushPes hs, ?_, fun i t ht => ?_, fun i hi t ht => ?_⟩
    · rw [show next.streams = done.streams.set n s.flushPes.1 from congrArg DemuxCore.streams hc,
        length_set, hl]
    · rw [hst] at ht
      split at ht
      · next hin =>
        subst hin
        cases ht
        obtain ⟨u, hu, htag⟩ := hold i s hs
        exact ⟨u, hu, (flushPes_same s).tag_eq.trans htag⟩
      · exact hold i t ht
    · rw [hst] at ht
      split at ht
      · cases ht
        exact flushPes_buf s
      · next hin => exact hid i (by omega) t ht

theorem flush_delivers (pr : Prober π) {d : PacketDemuxer π} (h : Delivers emitted d.core) :
    (∀ (i : Nat) (s : StreamInfo), d.streams[i]? = some s →
      (d.flush pr).output.filter (fun p => Mpegts.tag p = s.tag) = emitted i) ∧
    ∀ p ∈ (d.flush pr).output, ∃ (i : Nat) (s : StreamInfo), d.streams[i]? = some s ∧
      Mpegts.tag p = s.tag := by
  obtain ⟨hd, hl, hold, hi⟩ := flush_first pr h d.streams.length le_rfl
  rw [flush]
  generalize (range d.streams.length).foldl (flushPes pr) d = done at hd hl hold hi
  refine ⟨fun i s hs => ?_, fun p hp => ?_⟩
  · have hlt := (List.getElem?_eq_some_iff.mp hs).1
    obtain ⟨t, ht⟩ : ∃ t, done.streams[i]? = some t := ⟨_, List.getElem?_eq_getElem (hl.symm ▸ hlt)⟩
    obtain ⟨u, hu, htag⟩ := hold i t ht
    obtain rfl := Option.some.inj (hu.symm.trans hs)
    have hsp := hd.split i t ht
    rw [flushPes_idle (hi i hlt t ht), append_nil, htag] at hsp
    exact hsp
  · obtain ⟨i, t, ht, htag⟩ := hd.known p hp
    obtain ⟨u, hu, htu⟩ := hold i t ht
    exact ⟨i, u, hu, htag.trans htu⟩

end PacketDemuxer

end Restream.Mpegts
