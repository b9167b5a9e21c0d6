import Restream.PesUnits

/-! AAC frames come out of the framing as they went into the stream, with their own times,
wherever the stream is cut into PES packets. -/

namespace Restream.Mpegts

open Codec List Option AdtsFraming Nat

/-- Frames of one sample rate and their 90 kHz (pts, dts). In the bytes of all of them
nothing but a frame's start looks like a header. -/
structure TimedFrames where
  frames : List (List UInt8)
  rate : Nat
  times : Nat → Int × Int
  wellFormed : ∀ f ∈ frames, IsAdtsFrame f
  rated : ∀ f ∈ frames, adtsSampleRate f = some rate
  apart : ∀ i b, frames.flatten[i]? = some 0xFF → frames.flatten[i + 1]? = some b →
    b &&& 0xF6 = 0xF0 →
    ∃ k < frames.length, i = (frames.take k).flatten.length
  stepped : ∀ k, k + 1 < frames.length →
    times (k + 1) = ((times k).1 + frameTicks90k / (rate : Int),
      (times k).2 + frameTicks90k / (rate : Int))
  inRange : ∀ k < frames.length, InI64 (times k).1 ∧ InI64 (times k).2

namespace TimedFrames

def startOf (t : TimedFrames) (k : Nat) : Nat := (t.frames.take k).flatten.length

def timeWithin (t : TimedFrames) (a b : Nat) : Option (Int × Int) :=
  ((range t.frames.length).find? fun k => a ≤ t.startOf k && t.startOf k < b).map t.times

def stamped (t : TimedFrames) : Nat → List (List UInt8) → List (List UInt8 × Option (Int × Int))
  | _, [] => []
  | a, data :: cuts => (data, t.timeWithin a (a + data.length)) :: t.stamped (a + data.length) cuts

def units (t : TimedFrames) (trackIndex k : Nat) (frames : List (List UInt8)) : List MediaPacket :=
  frames.mapIdx fun i frame => audioUnit trackIndex (t.times (k + i)).1 (t.times (k + i)).2 frame

end TimedFrames

def frameAll (trackIndex : Nat) :
    AdtsFraming → List (List UInt8 × Option (Int × Int)) →
    AdtsFraming × List MediaPacket × List (List UInt8)
  | f, [] => (f, [], [])
  | f, (data, timestamps) :: pes =>
    let framed := f.frame data timestamps trackIndex
    let rest := frameAll trackIndex framed.1 pes
    (rest.1, framed.2.1 ++ rest.2.1, match framed.2.2 with
      | .frames _ => rest.2.2
      | .whole payload => payload :: rest.2.2)

section Headers

variable {g d more x : List UInt8}

theorem frameLen_short (h : d.length < adtsHeaderLen) : frameLen d = none := by
  unfold frameLen
  split
  · simp only [length_cons, adtsHeaderLen] at h
    omega
  · rfl

theorem frameLen_take : frameLen (d.take adtsHeaderLen) = frameLen d := by
  by_cases hs : d.length < adtsHeaderLen
  · rw [take_of_length_le (le_of_lt hs)]
  · match d, hs with
    | a :: b1 :: b2 :: b3 :: b4 :: b5 :: b6 :: rest, _ =>
      show frameLen [a, b1, b2, b3, b4, b5, b6] = _
      by_cases ha : a = 0xFF
      · subst ha
        rfl
      · simp [frameLen, ha]
    | [], h | [_], h | [_, _], h | [_, _, _], h | [_, _, _, _],
      h | [_, _, _, _, _], h | [_, _, _, _, _, _], h =>
      exact absurd (by simp [adtsHeaderLen]) h

variable (h : IsAdtsFrame g)
include h

theorem IsAdtsFrame.header_le : adtsHeaderLen ≤ g.length := by
  obtain ⟨b1, b2, b3, b4, b5, b6, body, rfl, -⟩ := h.exists_bytes
  simp [adtsHeaderLen]

theorem IsAdtsFrame.frameLen_cut (hcut : d ++ more = g ++ x)
    (hl : adtsHeaderLen ≤ d.length) : frameLen d = some g.length := by
  have ht := congrArg (take adtsHeaderLen) hcut
  rw [take_append_of_le_length hl, take_append_of_le_length h.header_le] at ht
  rw [← frameLen_take, ht, frameLen_take, h.frameLen_eq]

theorem IsAdtsFrame.syncPrefix_cut (hcut : d ++ more = g ++ x) (hne : d ≠ []) :
    syncPrefix d = true := by
  obtain ⟨b1, b2, b3, b4, b5, b6, body, rfl, hs, -⟩ := h.exists_bytes
  rcases d with - | ⟨a, - | ⟨b, d⟩⟩
  · exact (hne rfl).elim
  · obtain rfl : a = 0xFF := (List.cons.inj hcut).1
    rfl
  · obtain ⟨rfl, ht⟩ := List.cons.inj hcut
    obtain rfl : b = b1 := (List.cons.inj ht).1
    exact decide_eq_true hs

theorem step90k_append : step90k (g ++ x) = step90k g := by
  obtain ⟨b1, b2, b3, b4, b5, b6, body, rfl, -⟩ := h.exists_bytes
  rfl

end Headers

namespace TimedFrames

variable {t : TimedFrames} {k : Nat} {g : List UInt8}

section Places

theorem startOf_succ (h : t.frames[k]? = some g) : t.startOf (k + 1) = t.startOf k + g.length := by
  rw [startOf, startOf, take_add_one, h]
  simp

theorem startOf_le (t : TimedFrames) (h : j ≤ k) : t.startOf j ≤ t.startOf k := by
  have hp : (t.frames.take k).take j ++ (t.frames.take k).drop j = t.frames.take k :=
    take_append_drop _ _
  rw [take_take, min_eq_left h] at hp
  rw [startOf, startOf, ← hp, flatten_append, length_append]
  omega

theorem drop_eq (h : t.frames[k]? = some g) : t.frames.drop k = g :: t.frames.drop (k + 1) := by
  obtain ⟨hlt, rfl⟩ := List.getElem?_eq_some_iff.mp h
  exact drop_eq_getElem_cons hlt

theorem wellFormed_at (h : t.frames[k]? = some g) : IsAdtsFrame g :=
  t.wellFormed g (mem_of_getElem? h)

theorem startOf_lt (hjk : j < k) (hk : k ≤ t.frames.length) : t.startOf j < t.startOf k := by
  obtain ⟨g, hg⟩ : ∃ g, t.frames[j]? = some g := ⟨_, getElem?_eq_getElem (lt_of_lt_of_le hjk hk)⟩
  have hpos := length_pos_of_ne_nil (wellFormed_at hg).ne_nil
  have hle : t.startOf (j + 1) ≤ t.startOf k := t.startOf_le hjk
  rw [startOf_succ hg] at hle
  omega

theorem flatten_split (t : TimedFrames) (k : Nat) :
    t.frames.flatten = (t.frames.take k).flatten ++ (t.frames.drop k).flatten := by
  rw [← flatten_append, take_append_drop]

theorem frameLen_within (h : t.frames[k]? = some g) (hc : c ≠ []) (hsh : c.length < g.length)
    (hd : c ++ data ++ more = (t.frames.drop k).flatten) : frameLen data = none := by
  by_contra hlen
  obtain ⟨b1, rest, rfl, hsy⟩ : ∃ b1 rest, data = 0xFF :: b1 :: rest ∧ b1 &&& 0xF6 = 0xF0 := by
    unfold frameLen at hlen
    split at hlen
    · next b1 b2 b3 b4 b5 b6 rest =>
      by_contra hno
      exact hlen (if_neg fun hb => hno ⟨b1, _, rfl, hb.1⟩)
    · exact (hlen rfl).elim
  have hall : t.frames.flatten = (t.frames.take k).flatten ++ c ++ (0xFF :: b1 :: rest ++ more) := by
    rw [flatten_split t k, ← hd, append_assoc, append_assoc]
  have hp : ((t.frames.take k).flatten ++ c).length = t.startOf k + c.length := length_append
  obtain ⟨j, hj, hs⟩ := t.apart (t.startOf k + c.length) b1
    (by rw [hall, ← hp, getElem?_append_right (Nat.le_refl _), Nat.sub_self]; rfl)
    (by rw [hall, ← hp, getElem?_append_right (by omega), Nat.add_sub_cancel_left]; rfl) hsy
  have hpos := length_pos_of_ne_nil hc
  have hn := startOf_succ h
  change t.startOf k + c.length = t.startOf j at hs
  rcases lt_or_ge k j with hlt | hge
  · have := t.startOf_le (show k + 1 ≤ j from hlt)
    omega
  · have := t.startOf_le hge
    omega

end Places

section Cutting

variable {data more whole : List UInt8} {trackIndex : Nat} {carried : Bool}

/-- A framing that has emitted the frames before the `k`th and holds the start of that,
with the bytes that are to come. -/
structure AtFrame (t : TimedFrames) (f : AdtsFraming) (k : Nat) (more : List UInt8) : Prop where
  le : k ≤ t.frames.length
  todo : f.carry ++ more = (t.frames.drop k).flatten
  carried : f.carry ≠ [] → ∃ g, t.frames[k]? = some g ∧
    f.carry.length < g.length ∧ f.next = some (t.times k)

theorem exists_frame (hd : data ++ more = (t.frames.drop k).flatten) (hne : data ≠ []) :
    ∃ g, t.frames[k]? = some g ∧ data ++ more = g ++ (t.frames.drop (k + 1)).flatten := by
  cases hk : t.frames[k]? with
  | none =>
    rw [drop_eq_nil_of_le (getElem?_eq_none_iff.mp hk)] at hd
    exact (hne (append_eq_nil_iff.mp hd).1).elim
  | some g =>
    rw [drop_eq hk] at hd
    exact ⟨g, rfl, hd⟩

theorem step90k_at (h : t.frames[k]? = some g) :
    step90k g = some (frameTicks90k / (t.rate : Int)) := by
  rw [step90k, t.rated g (mem_of_getElem? h), map_some]

theorem units_cons :
    t.units trackIndex k (g :: gs) =
      audioUnit trackIndex (t.times k).1 (t.times k).2 g :: t.units trackIndex (k + 1) gs := by
  simp only [units, mapIdx_cons, add_zero, add_assoc, add_comm 1]

theorem units_append :
    t.units trackIndex k (gs ++ hs) = t.units trackIndex k gs ++
      t.units trackIndex (k + gs.length) hs := by
  simp only [units, mapIdx_append, add_assoc, add_comm gs.length]

theorem cutFrames_spec (hn : data.length < n) (hk : k ≤ t.frames.length)
    (hd : data ++ more = (t.frames.drop k).flatten)
    (hti : data ≠ [] → (pesFirst <|> ex) = some (t.times k)) :
    ∃ f m first', cutFrames trackIndex carried whole n pesFirst ex first data =
        (f, t.units trackIndex k ((t.frames.drop k).take m), .frames first') ∧
        t.AtFrame f (k + m) more := by
  induction n generalizing k data pesFirst ex first with
  | zero => exact (not_lt_zero _ hn).elim
  | succ n ih =>
    rw [cutFrames]
    by_cases hnil : data = []
    · rw [if_pos hnil]
      rw [hnil] at hd
      exact ⟨_, 0, first, rfl, hk, hd, fun h => (h rfl).elim⟩
    · rw [if_neg hnil, hti hnil]
      obtain ⟨g, hg, hcut⟩ := exists_frame hd hnil
      have hf := wellFormed_at hg
      have hke (f : AdtsFraming) (hc : f.carry = data) (hne : f.next = some (t.times k))
          (hs : data.length < g.length) : t.AtFrame f (k + 0) more :=
        ⟨hk, by rw [hc]; exact hd, fun _ => ⟨g, hg, by rw [hc]; exact hs, hne⟩⟩
      by_cases hh : data.length < adtsHeaderLen
      · have hs : data.length < g.length := lt_of_lt_of_le hh hf.header_le
        simp only [frameLen_short hh]
        rw [if_pos ⟨hh, hf.syncPrefix_cut hcut hnil⟩]
        exact ⟨_, 0, first, rfl, hke _ rfl rfl hs⟩
      · simp only [hf.frameLen_cut hcut (Nat.le_of_not_lt hh)]
        by_cases hs : data.length < g.length
        · rw [if_neg (Nat.not_le_of_lt hs)]
          exact ⟨_, 0, first, rfl, hke _ rfl rfl hs⟩
        · have hle := Nat.le_of_not_lt hs
          have ht : data.take g.length = g := by
            have := congrArg (take g.length) hcut
            rwa [take_append_of_le_length hle, take_left] at this
          have hsp : g ++ data.drop g.length = data := by
            rw [← ht, length_take_of_le hle, take_append_drop]
          have hr : data.drop g.length ++ more = (t.frames.drop (k + 1)).flatten := by
            rw [← hsp, append_assoc] at hcut
            exact append_cancel_left hcut
          have hst : step90k data = some (frameTicks90k / (t.rate : Int)) := by
            rw [← hsp, step90k_append hf, step90k_at hg]
          have hlt : (data.drop g.length).length < n := by
            have hpos := length_pos_of_ne_nil hf.ne_nil
            rw [length_drop]
            omega
          have hne : data.drop g.length ≠ [] →
              (none <|> some (saturate ((t.times k).1 + frameTicks90k / (t.rate : Int)),
                saturate ((t.times k).2 + frameTicks90k / (t.rate : Int)))) =
                  some (t.times (k + 1)) := by
            intro hm
            obtain ⟨g', hg', -⟩ := exists_frame hr hm
            have hk := (List.getElem?_eq_some_iff.mp hg').1
            have hr' := t.inRange (k + 1) hk
            rw [t.stepped k hk] at hr' ⊢
            rw [saturate_of_inI64 hr'.1, saturate_of_inI64 hr'.2]
            rfl
          obtain ⟨f, m, first', hcu, hat⟩ := ih hlt (List.getElem?_eq_some_iff.mp hg).1 hr hne
          simp only [if_pos hle, hst, ht]
          refine ⟨f, m + 1, first', ?_, by rw [add_comm m, ← add_assoc]; exact hat⟩
          rw [hcu, drop_eq hg, take_succ_cons, units_cons]

theorem resync_start (hd : data ++ more = (t.frames.drop k).flatten) (hne : data ≠ []) :
    resync data = some 0 := by
  obtain ⟨g, hg, hcut⟩ := exists_frame hd hne
  have hf := wellFormed_at hg
  obtain ⟨b, tail, ht⟩ := exists_cons_of_ne_nil hne
  rw [resync, ht, length_cons, range_succ_eq_map, find?_cons, ← ht, drop_zero]
  by_cases hh : data.length < adtsHeaderLen
  · simp only [frameLen_short hh, hh, hf.syncPrefix_cut hcut hne, decide_true, Bool.and_self]
  · simp only [hf.frameLen_cut hcut (Nat.le_of_not_lt hh)]
    by_cases hs : data.length ≤ g.length
    · simp only [hs, decide_true, Bool.true_or]
    · have hle : g.length ≤ data.length := Nat.le_of_not_le hs
      have hr : data.drop g.length ++ more = (t.frames.drop (k + 1)).flatten := by
        have := congrArg (drop g.length) hcut
        rwa [drop_append_of_le_length hle, drop_left] at this
      have hm : data.drop g.length ≠ [] := by
        rw [ne_eq, drop_eq_nil_iff]
        omega
      obtain ⟨g', hg', hcut'⟩ := exists_frame hr hm
      simp only [(wellFormed_at hg').syncPrefix_cut hcut' hm, Bool.or_true]

end Cutting

section Carrying

variable {data more : List UInt8}

theorem completeCarry_spec (h : t.AtFrame f k (data ++ more))
    (hc : f.carry ≠ []) (hg : t.frames[k]? = some g)
    (hs : f.carry.length < g.length) :
    (f.carry.length + data.length < g.length ∧
        f.completeCarry data = ({ f with carry := f.carry ++ data }, .pending)) ∨
      ∃ need, g = f.carry ++ data.take need ∧ need ≤ data.length ∧ f.carry.length + need = g.length ∧
        data.drop need ++ more = (t.frames.drop (k + 1)).flatten ∧
        f.completeCarry data = ({ f with carry := [] }, .completed g need) := by
  have hf := wellFormed_at hg
  have ht : f.carry ++ data ++ more = (t.frames.drop k).flatten := by rw [append_assoc, h.todo]
  have ha : frameLen data = none := frameLen_within hg hc hs ht
  have hj : f.carry ++ data ≠ [] := append_ne_nil_of_left_ne_nil hc _
  have hcut : f.carry ++ data ++ more = g ++ (t.frames.drop (k + 1)).flatten := by
    rw [ht, drop_eq hg, flatten_cons]
  unfold completeCarry
  simp only [ha, isSome_none, Bool.not_false, true_and, Bool.false_eq_true, if_false, frameLen_take]
  by_cases hh : (f.carry ++ data).length < adtsHeaderLen
  · left
    have hle := hf.header_le
    have hta : (f.carry ++ data).take adtsHeaderLen = f.carry ++ data :=
      take_of_length_le (Nat.le_of_lt hh)
    simp only [frameLen_short hh, hta]
    rw [if_pos ⟨hh, hf.syncPrefix_cut hcut hj⟩]
    rw [length_append] at hh
    exact ⟨by omega, rfl⟩
  · simp only [hf.frameLen_cut hcut (Nat.le_of_not_lt hh)]
    by_cases hp : f.carry.length + data.length < g.length
    · left
      rw [if_neg (by omega)]
      exact ⟨hp, rfl⟩
    · right
      have hn : g.length - f.carry.length ≤ data.length := by omega
      have hlen : (f.carry ++ data.take (g.length - f.carry.length)).length = g.length := by
        rw [length_append, length_take_of_le hn]
        omega
      have hsp : f.carry ++ data.take (g.length - f.carry.length) ++
        (data.drop (g.length - f.carry.length) ++ more) =
          g ++ (t.frames.drop (k + 1)).flatten := by
        rw [← hcut, append_assoc, ← append_assoc (data.take _), take_append_drop, append_assoc]
      obtain ⟨hw, hr⟩ := append_inj hsp hlen
      have haf : data.drop (g.length - f.carry.length) = [] ∨
          syncPrefix (data.drop (g.length - f.carry.length)) := by
        by_cases hm : data.drop (g.length - f.carry.length) = []
        · exact .inl hm
        · obtain ⟨g', hg', hcut'⟩ := exists_frame hr hm
          exact .inr ((wellFormed_at hg').syncPrefix_cut hcut' hm)
      refine ⟨_, hw.symm, hn, by omega, hr, ?_⟩
      rw [if_pos hn, if_pos haf, hw]

theorem AtFrame.place (h : t.AtFrame f k more) :
    t.startOf k + f.carry.length + more.length = t.frames.flatten.length := by
  rw [flatten_split t k, length_append, ← h.todo, length_append, startOf, add_assoc]

theorem timeWithin_some (hk : k < t.frames.length) (hbe : ∀ j < k, t.startOf j < a)
    (ha : a ≤ t.startOf k) (hb : t.startOf k < b) : t.timeWithin a b = some (t.times k) := by
  have hf : (range t.frames.length).find? (fun k => a ≤ t.startOf k && t.startOf k < b) = some k := by
    rw [find?_range_eq_some]
    refine ⟨by simp [ha, hb], mem_range.mpr hk, fun j hj => ?_⟩
    simp [Nat.not_le_of_lt (hbe j hj)]
  rw [timeWithin, hf, map_some]

theorem frame_spec (h : t.AtFrame f k (data ++ more)) (hne : data ≠ [])
    (ha : a = t.startOf k + f.carry.length) (trackIndex : Nat) :
    ∃ f' m first, f.frame data (t.timeWithin a (a + data.length)) trackIndex =
        (f', t.units trackIndex k ((t.frames.drop k).take m), .frames first) ∧
        t.AtFrame f' (k + m) more := by
  have hpos := length_pos_of_ne_nil hne
  unfold frame
  by_cases hc : f.carry = []
  · have hd : data ++ more = (t.frames.drop k).flatten := by
      have := h.todo
      rwa [hc] at this
    obtain ⟨g, hg, -⟩ := exists_frame hd hne
    have hk := (List.getElem?_eq_some_iff.mp hg).1
    rw [hc, length_nil] at ha
    have ht : t.timeWithin a (a + data.length) = some (t.times k) :=
      timeWithin_some hk (fun j hj => ha ▸ startOf_lt hj h.le) (le_of_eq ha) (by omega)
    have hst : (none <|> resync data) = some 0 := resync_start hd hne
    rw [if_pos hc, ht, frameFrom, hst]
    exact cutFrames_spec (lt_succ_self _) h.le hd fun _ => rfl
  · obtain ⟨g, hg, hs, hn⟩ := h.carried hc
    have hk := (List.getElem?_eq_some_iff.mp hg).1
    rw [if_neg hc]
    rcases completeCarry_spec h hc hg hs with ⟨hpa, hp⟩ | ⟨need, -, hnee, hlen, hr, hco⟩
    · rw [hp]
      refine ⟨_, 0, none, rfl, h.le, ?_, fun _ => ⟨g, hg, ?_, hn⟩⟩
      · rw [append_assoc]
        exact h.todo
      · rw [length_append]
        exact hpa
    · have ht : data.drop need ≠ [] → (t.timeWithin a (a + data.length) <|>
          some (saturate ((t.times k).1 + frameTicks90k / (t.rate : Int)),
            saturate ((t.times k).2 + frameTicks90k / (t.rate : Int)))) = some (t.times (k + 1)) := by
        intro hm
        obtain ⟨g', hg', -⟩ := exists_frame hr hm
        have haf := startOf_succ hg
        have hw : need < data.length := by
          rw [ne_eq, drop_eq_nil_iff] at hm
          omega
        have hca := length_pos_of_ne_nil hc
        rw [timeWithin_some (List.getElem?_eq_some_iff.mp hg').1
          (fun j hj => ?_) (by omega) (by omega)]
        · rfl
        · have := t.startOf_le (le_of_lt_succ hj)
          omega
      have hf : (data.drop need).length < data.length + 1 := by
        rw [length_drop]
        omega
      have hre (ex : Option (Int × Int)) : frameFrom data (t.timeWithin a (a + data.length))
          trackIndex ex (some g) (some need) = cutFrames trackIndex true (data.drop need)
            (data.length + 1) (t.timeWithin a (a + data.length)) ex (some g) (data.drop need) := rfl
      rw [hco, hn]
      simp only [step90k_at hg, hre]
      obtain ⟨f', m, first, hcu, hat⟩ := cutFrames_spec hf hk hr ht
      refine ⟨f', m + 1, first, ?_, by rw [add_comm m, ← add_assoc]; exact hat⟩
      rw [hcu, drop_eq hg, take_succ_cons, units_cons]

end Carrying

theorem frameAll_spec (hne : ∀ data ∈ cuts, data ≠ []) (trackIndex : Nat)
    (ha : a = t.startOf k + f.carry.length) (h : t.AtFrame f k (cuts.flatten ++ more)) :
    ∃ f' m, frameAll trackIndex f (t.stamped a cuts) =
    (f', t.units trackIndex k ((t.frames.drop k).take m), []) ∧ t.AtFrame f' (k + m) more := by
  induction cuts generalizing f k a with
  | nil => exact ⟨f, 0, rfl, h⟩
  | cons data cuts ih =>
    obtain ⟨hd, hr⟩ := forall_mem_cons.mp hne
    rw [flatten_cons, append_assoc] at h
    obtain ⟨f', m, first, hf, hat⟩ := frame_spec h hd ha trackIndex
    have hp : a + data.length = t.startOf (k + m) + f'.carry.length := by
      have hb := h.place
      have haf := hat.place
      rw [length_append] at hb
      omega
    obtain ⟨f'', m', hall, hend⟩ := ih hr hp hat
    refine ⟨f'', m + m', ?_, by rw [← add_assoc]; exact hend⟩
    have hm : ((t.frames.drop k).take m).length = m := by
      have := hat.le
      rw [length_take_of_le]
      rw [length_drop]
      omega
    simp only [stamped, frameAll, hf, hall]
    rw [take_add, units_append, hm, drop_drop]

theorem AtFrame.all (h : t.AtFrame f k []) : t.frames.drop k = [] := by
  by_contra hmore
  obtain ⟨g, rest, hr⟩ := exists_cons_of_ne_nil hmore
  have hmem : g ∈ t.frames := mem_of_mem_drop (hr ▸ mem_cons_self)
  have hpos := length_pos_of_ne_nil (t.wellFormed g hmem).ne_nil
  have ht := congrArg length h.todo
  rw [append_nil, hr, flatten_cons, length_append] at ht
  obtain ⟨g', hg', hs, -⟩ := h.carried (ne_nil_of_length_pos (by omega))
  rw [drop_eq hg'] at hr
  obtain rfl := (List.cons.inj hr).1
  omega

end TimedFrames

open TimedFrames

/-- However the bytes of the frames are cut into PES packets, each with the time of the first
frame that starts in it, the framing emits the frames with their own times, and never keeps
more than the start of one. -/
theorem adts_frames_come_out (t : TimedFrames) (trackIndex : Nat) {cuts : List (List UInt8)}
    (hcuts : cuts.flatten = t.frames.flatten) (hne : ∀ data ∈ cuts, data ≠ []) :
    (frameAll trackIndex .new (t.stamped 0 cuts)).2 =
        (t.frames.mapIdx fun k frame => audioUnit trackIndex (t.times k).1 (t.times k).2 frame, []) ∧
      ∀ done todo, cuts = done ++ todo → done ≠ [] →
        ∃ frame ∈ t.frames, (frameAll trackIndex .new (t.stamped 0 done)).1.carry <+: frame ∧
          (frameAll trackIndex .new (t.stamped 0 done)).1.carry.length < frame.length := by
  have hstart {more : List UInt8} (hmore : more = t.frames.flatten) : t.AtFrame .new 0 more :=
    ⟨zero_le _, hmore, fun h => (h rfl).elim⟩
  constructor
  · obtain ⟨f, m, hall, hend⟩ := frameAll_spec hne trackIndex rfl (hstart (by rw [append_nil, hcuts]))
    rw [zero_add] at hend
    have htake : (t.frames.drop 0).take m = t.frames := by
      rw [drop_zero, take_of_length_le (drop_eq_nil_iff.mp hend.all)]
    have hunits : t.units trackIndex 0 t.frames =
        t.frames.mapIdx fun k frame => audioUnit trackIndex (t.times k).1 (t.times k).2 frame := by
      simp only [units, zero_add]
    rw [htake, hunits] at hall
    exact congrArg Prod.snd hall
  · rintro done todo rfl hdone
    obtain ⟨f, m, hall, hend⟩ := frameAll_spec (fun data hdata => hne data (mem_append_left _ hdata))
      trackIndex rfl (hstart (by rw [← hcuts, flatten_append]))
    have hcarry : (frameAll trackIndex .new (t.stamped 0 done)).1 = f := congrArg Prod.fst hall
    rw [hcarry]
    by_cases hnil : f.carry = []
    · obtain ⟨data, rest, rfl⟩ := exists_cons_of_ne_nil hdone
      have hdata := hne data mem_cons_self
      have hframes : t.frames ≠ [] := by
        intro hnone
        rw [hnone] at hcuts
        exact hdata (append_eq_nil_iff.mp hcuts).1
      obtain ⟨g, gs, hg⟩ := exists_cons_of_ne_nil hframes
      have hmem : g ∈ t.frames := hg ▸ mem_cons_self
      rw [hnil]
      exact ⟨g, hmem, nil_prefix, length_pos_of_ne_nil (t.wellFormed g hmem).ne_nil⟩
    · obtain ⟨g, hg, hshort, -⟩ := hend.carried hnil
      refine ⟨g, mem_of_getElem? hg, ?_, hshort⟩
      have htodo := hend.todo
      rw [drop_eq hg] at htodo
      exact prefix_of_prefix_length_le ⟨_, htodo⟩ (prefix_append g _) (le_of_lt hshort)

def twoFrames : TimedFrames where
  frames := [[0xFF, 0xF1, 0x50, 0x80, 0x00, 0xE0, 0xFC], [0xFF, 0xF1, 0x50, 0x80, 0x00, 0xE0, 0xFC]]
  rate := 44100
  times := fun k => (90000 + 2089 * k, 90000 + 2089 * k)
  wellFormed := by decide
  rated := by decide
  apart := by
    intro i b hi hb hsync
    match i with
    | 0 => exact ⟨0, by decide, rfl⟩
    | 7 => exact ⟨1, by decide, rfl⟩
    | 1 | 2 | 3 | 4 | 5 | 6 | 8 | 9 | 10 | 11 | 12 | 13 => exact absurd hi (by decide)
    | _ + 14 => cases hi
  stepped := by
    intro k hk
    match k with
    | 0 => decide
    | _ + 1 => exact absurd hk (by simp)
  inRange := by
    intro k hk
    match k with
    | 0 | 1 => decide
    | _ + 2 => exact absurd hk (by simp)

theorem adts_frames_come_out_cut :
    (frameAll 0 .new (twoFrames.stamped 0 [[0xFF, 0xF1, 0x50, 0x80, 0x00, 0xE0, 0xFC, 0xFF],
      [0xF1, 0x50, 0x80, 0x00, 0xE0, 0xFC]])).2 =
        (twoFrames.frames.mapIdx fun k frame =>
          audioUnit 0 (twoFrames.times k).1 (twoFrames.times k).2 frame, []) :=
  (adts_frames_come_out twoFrames 0 (by decide) (by decide)).1

end Restream.Mpegts
