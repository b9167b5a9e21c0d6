import Restream.Handoff
import Restream.Tables

/-! The published streams stay in order across every handoff, as long as no
packet of an activation is far below the packet that opened it. -/

namespace Restream

open List Option InputTimestampMapper MediaPacket InputPacketGate IngestInput Forwarded Exec

theorem InputTimestampMapper.le_recordForwarded : last ≤ recordForwarded ps last := by
  unfold recordForwarded
  split
  · exact le_rfl
  · exact le_max_left _ _

theorem InputTimestampMapper.dts_le_recordForwarded (h : p ∈ ps) :
    p.dts ≤ recordForwarded ps last := by
  unfold recordForwarded
  split
  · next hn =>
    rw [max?_eq_none_iff, map_eq_nil_iff] at hn
    subst hn
    cases h
  · next dts hs =>
    have hle := (max?_eq_some_iff.mp hs).2 p.dts (mem_map_of_mem h)
    exact hle.trans (le_max_right _ _)

theorem StreamsOrdered.map_shift (h : StreamsOrdered ps) :
    StreamsOrdered (ps.map (·.shift off)) := by
  refine pairwise_map.mpr (h.imp fun {p q} hpq hs => ?_)
  have hle := hpq hs
  simp only [shift]
  omega

theorem StreamsOrdered.sublist (h : StreamsOrdered ys) (hsub : xs.Sublist ys) : StreamsOrdered xs :=
  List.Pairwise.sublist hsub h

theorem StreamsOrdered.append (hx : StreamsOrdered xs) (hy : StreamsOrdered ys)
    (h : ∀ p ∈ xs, ∀ q ∈ ys, p.stream = q.stream → p.dts ≤ q.dts) : StreamsOrdered (xs ++ ys) :=
  pairwise_append.mpr ⟨hx, hy, h⟩

theorem i64Min_le_saturate : i64Min ≤ saturate x := le_max_left _ _

open StreamsOrdered

theorem mapBatch_i64Min_le (h : q ∈ (mapBatch flag last ix m batch).2) : i64Min ≤ q.dts := by
  induction batch generalizing ix m with
  | nil => cases h
  | cons p ps ih =>
    rcases mem_cons.mp h with rfl | h
    · exact i64Min_le_saturate
    · exact ih h

namespace Handoff

/-- What an activation published is its packets shifted by one offset, after packets
that are below its opening one. -/
def Continues (t : Handoff) (x : HandoffInput) : Prop :=
  ∃ before sources : List MediaPacket,
    t.log = before ++ sources.map (·.shift x.input.timestampMapper.offset) ∧
    sources.Sublist x.delivered ∧ ∀ p ∈ before,
      p.dts ≤ i64Min ∨ ∃ opening ∈ x.opening, p.dts < opening + x.input.timestampMapper.offset

structure Inv (t : Handoff) : Prop where
  ordered : StreamsOrdered t.log
  bounded : ∀ p ∈ t.log, p.dts ≤ t.lastForwardedDts
  standby : ∀ {k : Nat} {x : HandoffInput}, t.inputs[k]? = some x → t.current ≠ some k →
    x.input.gate.state = .standby
  cached : ∀ {k : Nat} {x : HandoffInput}, t.inputs[k]? = some x →
    x.input.standbyGop.packets.Sublist x.delivered
  delivered : ∀ {k : Nat} {x : HandoffInput}, t.inputs[k]? = some x → StreamsOrdered x.delivered
  active : ∀ {k : Nat} {x : HandoffInput}, t.inputs[k]? = some x →
    x.input.gate.state = .active → t.Continues x

theorem start_inv : start.Inv :=
  ⟨List.Pairwise.nil, by simp [start], by simp [start], by simp [start], by simp [start], by simp [start]⟩

theorem call_forwarded {t : Handoff} (h : t.call e = some c) :
    t.inputs[c.k]? = some c.x ∧ Forwarded c.x.input t.lastForwardedDts c.delivered c.outcome := by
  cases e with
  | packets k batch =>
    obtain ⟨x, hx, rfl⟩ := map_eq_some_iff.mp h
    exact ⟨hx, forwardIngestPackets _ _ batch⟩
  | video k p sequenceHeader =>
    obtain ⟨x, hx, rfl⟩ := map_eq_some_iff.mp h
    exact ⟨hx, onVideo p sequenceHeader⟩
  | audio k p =>
    obtain ⟨x, hx, rfl⟩ := map_eq_some_iff.mp h
    exact ⟨hx, onAudio p⟩
  | register | select | retain => cases h

section Inputs

variable {t : Handoff} {j k : Nat} {x z : HandoffInput}

structure Sound (t : Handoff) (k : Nat) (x : HandoffInput) : Prop where
  standby : t.current ≠ some k → x.input.gate.state = .standby
  cached : x.input.standbyGop.packets.Sublist x.delivered
  delivered : StreamsOrdered x.delivered
  active : x.input.gate.state = .active → t.Continues x

theorem Inv.sound (h : t.Inv) (hx : t.inputs[k]? = some x) : t.Sound k x :=
  ⟨h.standby hx, h.cached hx, h.delivered hx, h.active hx⟩

theorem Inv.of_sound (ho : StreamsOrdered t.log) (hb : ∀ p ∈ t.log, p.dts ≤ t.lastForwardedDts)
    (h : ∀ {k x}, t.inputs[k]? = some x → t.Sound k x) : t.Inv :=
  ⟨ho, hb, fun hx => (h hx).standby, fun hx => (h hx).cached, fun hx => (h hx).delivered, fun hx =>
    (h hx).active⟩

theorem Sound.of_standby (hs : x.input.gate.state = .standby)
    (hc : x.input.standbyGop.packets.Sublist x.delivered) (hd : StreamsOrdered x.delivered) :
    t.Sound k x :=
  ⟨fun _ => hs, hc, hd, fun ha => by cases hs.symm.trans ha⟩

theorem modifyGate_cases (h : (t.modifyGate k f).inputs[j]? = some z) :
    ∃ x, t.inputs[j]? = some x ∧ z.delivered = x.delivered ∧ z.opening = x.opening ∧
      z.input.standbyGop = x.input.standbyGop ∧
      z.input.gate = (if j = k then f x.input.gate else x.input.gate) := by
  obtain ⟨x, hx, rfl⟩ := getElem?_modify_cases h
  refine ⟨x, hx, ?_⟩
  split <;> exact ⟨rfl, rfl, rfl, rfl⟩

theorem Inv.demoteCurrent (h : t.Inv) (hz : t.demoteCurrent.inputs[j]? = some z) :
    z.input.gate.state = .standby ∧ z.input.standbyGop.packets.Sublist z.delivered ∧
      StreamsOrdered z.delivered := by
  unfold Handoff.demoteCurrent at hz
  split at hz
  · next hcur => exact ⟨h.standby hz (by rw [hcur]; simp), h.cached hz, h.delivered hz⟩
  · next k hcur =>
    obtain ⟨x, hx, hd, -, hgop, hg⟩ := modifyGate_cases hz
    refine ⟨?_, by rw [hgop, hd]; exact h.cached hx, by rw [hd]; exact h.delivered hx⟩
    rw [hg]
    split
    · exact state_setState _ _
    · next hjk => exact h.standby hx (by rw [hcur]; simpa using Ne.symm hjk)

theorem demoteCurrent_frame (t : Handoff) : t.demoteCurrent.log = t.log ∧
    t.demoteCurrent.lastForwardedDts = t.lastForwardedDts ∧
    t.demoteCurrent.inputs.length = t.inputs.length := by
  unfold Handoff.demoteCurrent
  split
  · exact ⟨rfl, rfl, rfl⟩
  · exact ⟨rfl, rfl, by simp [modifyGate]⟩

section

variable (h : t.Inv)

include h

theorem Inv.register (sel : Bool) : (t.register sel).Inv := by
  obtain ⟨hlog, hl, hlen⟩ := demoteCurrent_frame t
  unfold Handoff.register
  split
  · refine .of_sound (hlog ▸ h.ordered) (hlog ▸ hl ▸ h.bounded) fun {k z} hz => ?_
    rcases getElem?_concat_cases hz with hz | ⟨rfl, rfl⟩
    · obtain ⟨hs, hc, hd⟩ := h.demoteCurrent hz
      exact .of_standby hs hc hd
    · refine ⟨fun hcur => absurd (by rw [hlen]) hcur, nil_sublist _, .nil, fun ha => ?_⟩
      refine ⟨t.log, [], by simp [hlog], nil_sublist _, fun p hp => .inl ?_⟩
      have hmin : t.lastForwardedDts = i64Min := by
        by_contra hne
        simp [hne, newInput, IngestInput.new, armForPromotion, state_setState] at ha
      exact hmin ▸ h.bounded p hp
  · refine .of_sound h.ordered h.bounded fun {k z} hz => ?_
    rcases getElem?_concat_cases hz with hz | ⟨-, rfl⟩
    · exact { h.sound hz with }
    · exact .of_standby rfl (nil_sublist _) .nil

theorem Inv.select (k : Nat) : (t.select k).Inv := by
  obtain ⟨hlog, hl, -⟩ := demoteCurrent_frame t
  unfold Handoff.select
  split
  · exact h
  · split
    · refine .of_sound (hlog ▸ h.ordered) (hlog ▸ hl ▸ h.bounded) fun {j z} hz => ?_
      obtain ⟨x, hx, hd, -, hgop, hg⟩ := modifyGate_cases hz
      obtain ⟨hs, hc, ho⟩ := h.demoteCurrent hx
      refine ⟨fun hcur => ?_, by rwa [hgop, hd], by rwa [hd], fun ha => ?_⟩
      · rwa [hg, if_neg fun hjk => hcur (by rw [hjk])]
      · rw [hg] at ha
        split at ha
        · rw [armForPromotion, state_setState] at ha
          cases ha
        · cases hs.symm.trans ha
    · refine .of_sound (hlog ▸ h.ordered) (hlog ▸ hl ▸ h.bounded) fun {j z} hz => ?_
      obtain ⟨hs, hc, hd⟩ := h.demoteCurrent hz
      exact .of_standby hs hc hd

theorem Inv.held (hx : t.inputs[c.k]? = some c.x) (hg : c.outcome.input.gate = c.x.input.gate)
    (hm : c.outcome.input.timestampMapper = c.x.input.timestampMapper)
    (hgop : c.outcome.input.standbyGop.packets.Sublist (c.x.input.standbyGop.packets ++ c.delivered))
    (hl : c.outcome.lastForwardedDts = t.lastForwardedDts) (hn : c.outcome.published = none)
    (hor : StreamsOrdered (c.x.delivered ++ c.delivered)) : (t.deliver c).Inv := by
  unfold Handoff.deliver
  simp only [hn, hl]
  refine .of_sound h.ordered h.bounded fun {j z} hz => ?_
  rcases getElem?_set_cases hz with ⟨rfl, rfl⟩ | ⟨-, hz⟩
  · refine ⟨fun hcur => ?_, hgop.trans ((h.cached hx).append_right _), hor, fun ha => ?_⟩
    · rw [hg]
      exact h.standby hx hcur
    · rw [hg] at ha
      obtain ⟨pre, sources, hlog, hsub, ho⟩ := h.active hx ha
      refine ⟨pre, sources, ?_, hsub.trans (sublist_append_left _ _), ?_⟩
      · simp only [hm]
        exact hlog
      · simp only [hm]
        exact ho
  · exact { h.sound hz with }

theorem Inv.published (hx : t.inputs[c.k]? = some c.x) (hstate : c.x.input.gate.state ≠ .standby)
    (hpub : c.outcome.published = some p)
    (hlast : c.outcome.lastForwardedDts = recordForwarded p.packets t.lastForwardedDts)
    (hgop : c.outcome.input.standbyGop.packets.Sublist (c.x.delivered ++ c.delivered))
    (hdelivered : StreamsOrdered (c.x.delivered ++ c.delivered))
    (hheaders : ∀ q ∈ p.headers, ∃ first ∈ p.packets, q.dts ≤ first.dts)
    (hordered : StreamsOrdered (t.log ++ p.headers ++ p.packets))
    (hcontinues : Continues (t.deliver c)
      { input := c.outcome.input
        delivered := c.x.delivered ++ c.delivered
        opening := openingAfter c.x p.selection }) : (t.deliver c).Inv := by
  have hcurrent : t.current = some c.k := by
    by_contra hne
    exact hstate (h.standby hx hne)
  unfold Handoff.deliver at hcontinues ⊢
  simp only [hpub, hlast] at hcontinues ⊢
  refine .of_sound hordered (fun q hq => ?_) fun {j z} hz => ?_
  · rcases mem_append.mp hq with hq | hq
    · rcases mem_append.mp hq with hq | hq
      · exact (h.bounded q hq).trans (le_recordForwarded)
      · obtain ⟨first, hfirst, hle⟩ := hheaders q hq
        exact hle.trans (dts_le_recordForwarded hfirst)
    · exact dts_le_recordForwarded hq
  · rcases getElem?_set_cases hz with ⟨rfl, rfl⟩ | ⟨hjk, hz⟩
    · exact ⟨fun hcur => absurd hcurrent hcur, hgop, hdelivered, fun _ => hcontinues⟩
    · have hstandby := h.standby hz (by rw [hcurrent]; simpa using Ne.symm hjk)
      exact .of_standby hstandby (h.cached hz) (h.delivered hz)

theorem Inv.continued (hx : t.inputs[c.k]? = some c.x) (hst : c.x.input.gate.state = .active)
    (hgop : c.outcome.input.standbyGop = c.x.input.standbyGop)
    (hla : c.outcome.lastForwardedDts = recordForwarded p.packets t.lastForwardedDts)
    (hpub : c.outcome.published = some p)
    (hse : p.selection = { activated := false, batch := c.delivered }) (hh : p.headers = [])
    (hm : (c.outcome.input.timestampMapper, p.packets) = mapBatch (firstOnly false)
      t.lastForwardedDts 0 c.x.input.timestampMapper c.delivered)
    (hf : FitsBatch (firstOnly false) t.lastForwardedDts 0 c.x.input.timestampMapper c.delivered)
    (hd : StreamsOrdered (c.x.delivered ++ c.delivered))
    (hk : ∀ opening ∈ c.x.opening, ∀ q ∈ c.delivered, opening ≤ q.dts + 1) : (t.deliver c).Inv := by
  have hfl : ∀ i, 0 ≤ i → firstOnly false i = false := fun _ _ => rfl
  obtain ⟨hmap, ho⟩ := mapBatch_false hfl hf
  have hma := congrArg Prod.fst hm
  have hp := congrArg Prod.snd hm
  simp only at hma hp
  have hmin : ∀ q ∈ p.packets, i64Min ≤ q.dts := by
    intro q hq
    rw [hp] at hq
    exact mapBatch_i64Min_le hq
  rw [hmap] at hp
  rw [← hma] at ho
  obtain ⟨pre, sources, hlog, hsub, hbe⟩ := h.active hx hst
  have hso : (sources ++ c.delivered).Sublist (c.x.delivered ++ c.delivered) := hsub.append_right _
  have hall : t.log ++ p.headers ++ p.packets =
      pre ++ (sources ++ c.delivered).map (·.shift c.x.input.timestampMapper.offset) := by
    rw [hh, append_nil, hlog, hp, map_append, append_assoc]
  have hl := h.ordered
  rw [hlog] at hl
  obtain ⟨hbo, -, hc⟩ := pairwise_append.mp hl
  have hnew : ∀ b ∈ pre, ∀ q ∈ c.delivered, b.dts ≤ q.dts + c.x.input.timestampMapper.offset := by
    intro b hb q hq
    rcases hbe b hb with hle | ⟨opening, hope, hlt⟩
    · exact hle.trans (hmin (q.shift _) (hp ▸ mem_map_of_mem hq))
    · have hup := hk opening hope q hq
      omega
  refine h.published hx (by rw [hst]; simp) hpub hla ?_ hd (by simp [hh]) ?_ ?_
  · rw [hgop]
    exact (h.cached hx).trans (sublist_append_left _ _)
  · rw [hall]
    refine append hbo ((sublist hd hso).map_shift) fun b hb q hq hs => ?_
    rw [map_append, mem_append] at hq
    rcases hq with hq | hq
    · exact hc b hb q hq hs
    · obtain ⟨src, hsou, rfl⟩ := mem_map.mp hq
      exact hnew b hb src hsou
  · refine ⟨pre, sources ++ c.delivered, ?_, hso, ?_⟩
    · simp only [Handoff.deliver, hpub, ho]
      exact hall
    · simp only [openingAfter, hse, ho]
      exact hbe

theorem Inv.promoted (hx : t.inputs[c.k]? = some c.x)
    (hstate : c.x.input.gate.state = .awaitingKeyframe)
    (hgop : c.outcome.input.standbyGop.packets = [])
    (hlast : c.outcome.lastForwardedDts = recordForwarded p.packets t.lastForwardedDts)
    (hpub : c.outcome.published = some p)
    (hselection : p.selection = { activated := true, batch := first :: rest })
    (hbatch : (first :: rest).Sublist (c.x.input.standbyGop.packets ++ c.delivered))
    (hheaders : ∀ q ∈ p.headers, ∃ b, p.packets.head? = some b ∧ q.dts = saturate (b.dts - 1))
    (hmapped : (c.outcome.input.timestampMapper, p.packets) = mapBatch (firstOnly true)
      t.lastForwardedDts 0 c.x.input.timestampMapper (first :: rest))
    (hfits : FitsBatch (firstOnly true) t.lastForwardedDts 0 c.x.input.timestampMapper
      (first :: rest)) (hin : ∀ b, p.packets.head? = some b → p.headers ≠ [] → InI64 (b.dts - 1))
    (hdelivered : StreamsOrdered (c.x.delivered ++ c.delivered))
    (hkeep : ∀ q ∈ rest, first.dts ≤ q.dts + 1) : (t.deliver c).Inv := by
  obtain ⟨hmap, hoffset⟩ := mapBatch_firstOnly hfits
  have hmapper := congrArg Prod.fst hmapped
  have hpackets := congrArg Prod.snd hmapped
  simp only at hmapper hpackets
  have hmin : ∀ q ∈ p.packets, i64Min ≤ q.dts := by
    intro q hq
    rw [hpackets] at hq
    exact mapBatch_i64Min_le hq
  rw [hmap, nextOffset_true] at hpackets
  rw [← hmapper, nextOffset_true] at hoffset
  have hsources : (first :: rest).Sublist (c.x.delivered ++ c.delivered) :=
    hbatch.trans ((h.cached hx).append_right _)
  have hhead : p.packets.head? =
      some (first.shift (activationOffset t.lastForwardedDts first.dts)) := by
    rw [hpackets]
    rfl
  have hdts : ∀ q ∈ p.headers, q.dts =
      first.dts + activationOffset t.lastForwardedDts first.dts - 1 ∧
        t.lastForwardedDts ≤ q.dts := by
    intro q hq
    obtain ⟨b, hb, hqb⟩ := hheaders q hq
    have hfit := hin b hb (ne_nil_of_mem hq)
    obtain rfl := Option.some.inj (hhead.symm.trans hb)
    rw [saturate_of_inI64 hfit] at hqb
    refine ⟨hqb, ?_⟩
    rw [hqb]
    by_cases hmin : t.lastForwardedDts = i64Min
    · rw [hmin] at hfit ⊢
      exact hfit.1
    · simp only [shift, activationOffset, hmin, if_false]
      omega
  have hbefore : ∀ b ∈ t.log ++ p.headers, b.dts ≤ i64Min ∨
      b.dts < first.dts + activationOffset t.lastForwardedDts first.dts := by
    intro b hb
    rcases mem_append.mp hb with hb | hb
    · have hle := h.bounded b hb
      unfold activationOffset
      split <;> omega
    · exact .inr (by have hb := (hdts b hb).1; omega)
  refine h.published hx (by rw [hstate]; simp) hpub hlast (by simp [hgop]) hdelivered ?_ ?_ ?_
  · intro q hq
    refine ⟨_, mem_of_mem_head? hhead, ?_⟩
    have hq := (hdts q hq).1
    simp only [shift]
    omega
  · have hheadersord : StreamsOrdered p.headers := by
      refine pairwise_of_forall_mem_list fun a ha b hb _ => ?_
      rw [(hdts a ha).1, (hdts b hb).1]
    refine append ?_ ?_ ?_
    · refine append h.ordered hheadersord fun a ha b hb _ => ?_
      exact (h.bounded a ha).trans (hdts b hb).2
    · rw [hpackets]
      exact (sublist hdelivered hsources).map_shift
    · intro a ha q hq _
      have hq64 := hmin q hq
      rw [hpackets] at hq
      obtain ⟨source, hsource, rfl⟩ := mem_map.mp hq
      have hup : first.dts ≤ source.dts + 1 := by
        rcases mem_cons.mp hsource with rfl | hsource
        · omega
        · exact hkeep source hsource
      simp only [shift] at hq64 ⊢
      rcases hbefore a ha with hle | hlt <;> omega
  · refine ⟨t.log ++ p.headers, first :: rest, ?_, hsources, ?_⟩
    · simp only [Handoff.deliver, hpub, hoffset, hpackets]
    · simpa only [openingAfter, hselection, hoffset, if_true, head?_cons, map_some, mem_def,
        Option.some.injEq, exists_eq_left'] using hbefore

theorem Inv.deliver (hc : t.call e = some c) (hw : t.WellTimed e) (hk : t.KeepsUp e) :
    (t.deliver c).Inv := by
  obtain ⟨hx, hf⟩ := call_forwarded hc
  obtain ⟨ho, hfi⟩ := hw c hc
  cases hf with
  | held gate mapper gop forwarded pub => exact h.held hx gate mapper gop forwarded pub ho
  | continued p st gate gop forwarded pub sel headers mapped =>
    obtain ⟨hfit, -⟩ := hfi p pub
    rw [sel] at hfit
    have hup := hk c hc
    simp only [Call.KeepsUp, st] at hup
    exact h.continued hx st gop forwarded pub sel headers mapped hfit ho hup
  | promoted p first rest st gate gop forwarded pub sel batch key headers mapped =>
    obtain ⟨hfit, hin⟩ := hfi p pub
    rw [sel] at hfit
    have hup := hk c hc
    simp only [Call.KeepsUp, st] at hup
    have hrest := (pairwise_cons.mp (hup.sublist batch)).1
    exact h.promoted hx st gop forwarded pub sel batch headers mapped hfit hin ho
      fun q hq => hrest q hq key

theorem Inv.step (ht : t.InTime e) (hs : t.step e = some s) : s.Inv := by
  obtain ⟨hw, hk⟩ := ht
  cases e with
  | register sel =>
    cases hs
    exact h.register sel
  | select k =>
    cases hs
    exact h.select k
  | packets | video | audio =>
    obtain ⟨c, hc, rfl⟩ := map_eq_some_iff.mp hs
    exact h.deliver hc hw hk
  | retain k keep =>
    obtain ⟨x, hx, rfl⟩ := map_eq_some_iff.mp hs
    refine .of_sound h.ordered h.bounded fun {j z} hz => ?_
    rcases getElem?_set_cases hz with ⟨rfl, rfl⟩ | ⟨-, hz⟩
    · exact { h.sound hx with cached := (x.input.standbyGop.retain_sublist keep).trans (h.cached hx) }
    · exact { h.sound hz with }

end

end Inputs

/-- In every run whose inputs keep up with the packets that open their activations,
the published streams are in order. -/
theorem streams_ordered_across_handoffs {t : Handoff} (h : Reachable step InTime start t) :
    StreamsOrdered t.log :=
  (Reachable.invariant Inv (fun _ _ _ hi hg hs => hi.step hg hs) start_inv h).ordered

def takeoverEvents (first second : List MediaPacket) : List HandoffEvent :=
  [.register true, .register false, .packets 0 first, .packets 1 second, .select 1,
    .packets 1 [.raw .video false 1040]]

/-- The second input's audio is level with its keyframe: all goes on from 41. -/
theorem streams_ordered_across_handoffs_level : ∃ t, Reachable step InTime start t ∧
    t.log.map dts = [0, 40, 41, 41, 81] ∧ StreamsOrdered t.log :=
  exists_reachable_and (takeoverEvents [.raw .video true 0, .raw .audio false 40]
    [.raw .video true 1000, .raw .audio false 1000]) (by decide +kernel)
    fun _ hreach _ => streams_ordered_across_handoffs hreach

/-- The second input's audio trails its keyframe by 50 and goes back from 40 to
-9, with every input in order by itself. -/
theorem trailing_audio_goes_back : ∃ t, Reachable step WellTimed start t ∧
    ¬StreamsOrdered t.log :=
  exists_reachable_of_run (takeoverEvents [.raw .video true 0, .raw .audio false 40]
    [.raw .video true 1000, .raw .audio false 950]) (by decide +kernel)

end Handoff

end Restream
