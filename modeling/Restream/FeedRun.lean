import Restream.Producer
import Restream.Feed

/-! `readRing` interleaved with the producer: what each of its loops has read
when the producer may store anything between two loads. -/

namespace Restream

open Loads List Option FrameUnit Nat Meets

structure LivePub (capacity : Nat) where
  pub : Publication
  inv : pub.Inv
  short : pub.log.length < 2 ^ 31
  capacity_eq : pub.ring.capacity = capacity

def LivePub.Later {c : Nat} (p q : LivePub c) : Prop := p.pub.Advances q.pub

/-- When a read that awaits a keyframe, and has met none up to `s`, finds the
slot of `s` overwritten, all it has passed are interframes. -/
def CleanLoss (cursor : FeedCursor) (p : Publication) : RingCell → Prop
  | .unit s => cursor.awaitingKeyframe = true →
    (∀ i, cursor.nextSequence ≤ i → i < s → ¬IsKeyframeAt p.log i) →
    unpack (p.ring.slot s).unit s = none →
    ∀ i, cursor.nextSequence ≤ i → i < s → IsInterframeAt p.log i
  | _ => True

instance (cursor : FeedCursor) (p : Publication) (cell : RingCell) :
    Decidable (CleanLoss cursor p cell) := by
  unfold CleanLoss
  split <;> infer_instance

abbrev FeedMeets {c : Nat} {α : Type} (cursor : FeedCursor) (prog : RingProg α)
    (post : α → LivePub c → Prop) (p : LivePub c) : Prop :=
  Meets LivePub.Later (fun q => CleanLoss cursor q.pub) (fun q => q.pub.ring.answer) prog post p

def Listed (log : List MediaPacket) (start : Nat) (packets : List MediaPacket) : Prop :=
  ∀ i p, packets[i]? = some p → log[start + i]? = some p

variable {log : List MediaPacket} {start : Nat}

theorem Listed.mono (h : Listed log start ps) (hlog : log <+: log') : Listed log' start ps :=
  fun i p hp => getElem?_extend hlog (h i p hp)

theorem Listed.append (hx : Listed log start xs) (hy : Listed log (start + xs.length) ys) :
    Listed log start (xs ++ ys) := by
  intro i p hp
  rcases lt_or_ge i xs.length with hlt | hge
  · rw [getElem?_append_left hlt] at hp
    exact hx i p hp
  · rw [getElem?_append_right hge] at hp
    have := hy _ p hp
    rwa [show start + xs.length + (i - xs.length) = start + i by omega] at this

open LivePub

theorem Listed.singleton (h : log[start]? = some p) : Listed log start [p] := by
  intro i q hq
  cases i with
  | zero =>
    exact hq ▸ h
  | succ i => simp at hq

namespace LivePub

variable {c : Nat} {p q r : LivePub c} {s : Nat}

theorem Later.refl (p : LivePub c) : Later p p := Publication.Advances.refl p.pub

theorem Later.trans (h : Later p q) (h' : Later q r) : Later p r := Publication.Advances.trans h h'

theorem holds (p : LivePub c) : RingHolds p.pub.ring p.pub.log 0 p.pub.units p.pub.stored :=
  p.inv.holds

theorem loaded (hs : s < p.pub.stored) : ∃ v, (p.pub.ring.slot s).packet = some v ∧
    (p.pub.units ≤ s + c → p.pub.log[s]? = some v) := by
  obtain ⟨v, hv⟩ := p.holds.slot_packet_isSome (zero_le s) hs
  refine ⟨v, hv, fun hu => ?_⟩
  have hsu := p.holds.stored_le
  rw [← p.holds.slot_packet (zero_le s) hs (by rw [p.capacity_eq]; omega), hv]

theorem tag_iff (hs : s < p.pub.stored) :
    (unpack (p.pub.ring.slot s).unit s).isSome = true ↔ p.pub.units ≤ s + c := by
  have hlen := p.holds.stored_le_length
  have hsu := p.holds.stored_le
  have hsh := p.short
  rw [p.holds.unpack_unit p.short (by omega), p.capacity_eq]
  omega

end LivePub

section Loads

variable {c : Nat} {α β : Type} {p : LivePub c} {s : Nat}

theorem meets_later (hq : p.Later q) (h : FeedMeets cu prog post p) : FeedMeets cu prog post q :=
  later hq h fun _ _ _ h h' => Later.trans h h'

theorem meets_bind (hp : FeedMeets cu prog mid p)
    (hk : ∀ a q, p.Later q → mid a q → FeedMeets cu (k a) post q) :
    FeedMeets cu (prog >>= k) post p := by
  refine bind Later.refl ?_
  refine mono (fun a q hq => hk a q hq.1 hq.2) (since hp ?_)
  exact fun _ _ _ h h' => Later.trans h h'

theorem meets_writeIdx (h : ∀ q, Later p q → FeedMeets cu (k q.pub.ring.writeIdx) post q) :
    FeedMeets cu (RingProg.writeIdx >>= k) post p :=
  fun q hq _ => h q hq

theorem meets_oldest (h : ∀ q, Later p q → FeedMeets cu (k (q.pub.ring.writeIdx - c)) post q) :
    FeedMeets cu (oldestRetainedSequence c >>= k) post p :=
  fun q hq _ => h q hq

theorem meets_readAt (hs : s < p.pub.stored)
    (hit : ∀ q v, Later p q → q.pub.log[s]? = some v → q.pub.units ≤ s + c →
      FeedMeets cu (k (some v)) post q) (lost : ∀ q, Later p q → CleanLoss cu q.pub (.unit s) →
      unpack (q.pub.ring.slot s).unit s = none → s + c < q.pub.units →
      FeedMeets cu (k none) post q) : FeedMeets cu (RingBuffer.readAtLoads s >>= k) post p := by
  refine bind Later.refl fun q hq _ => ?_
  obtain ⟨v, hv, hown⟩ := q.loaded (hs.trans_le hq.stored)
  rw [show q.pub.ring.answer (.packet s) = some v from hv]
  intro t ht hc u hu
  have hst := hs.trans_le (hq.stored.trans ht.stored)
  change FeedMeets cu (k ((unpack (t.pub.ring.slot s).unit s).map fun _ => v)) post u
  refine meets_later hu ?_
  cases htag : unpack (t.pub.ring.slot s).unit s with
  | none =>
    have ho := mt (t.tag_iff hst).mpr (by simp [htag])
    exact lost t (hq.trans ht) hc htag (by omega)
  | some unit =>
    have hk := (t.tag_iff hst).mp (by simp [htag])
    have hun := ht.units
    exact hit t v (hq.trans ht) (getElem?_extend ht.log (hown (by omega))) hk

end Loads

/-- Every sequence of a run of `n` from `start` was retained at an instant not
before the units written by then had reached `since`. -/
def Retained (since c start n : Nat) : Prop := ∀ s, start ≤ s → s < start + n → since ≤ s + c

section Loops

variable {c : Nat} {U : Type} {unit : MediaPacket → U}

structure Taken (unit : MediaPacket → U) (cursor : FeedCursor) (budget : ReadBudget) (since : Nat)
    (p : LivePub c) (state : ReadState U) (skipped packets : List MediaPacket) : Prop where
  book : state.Book unit cursor budget skipped packets
  listed : Listed p.pub.log cursor.nextSequence (skipped ++ packets)
  retained : Retained since c (cursor.nextSequence + skipped.length) packets.length
  since_le : since ≤ p.pub.units

namespace Taken

variable {since : Nat} {p q : LivePub c} {v : MediaPacket}

theorem later (h : Taken unit cu b since p st sk ps) (hq : p.Later q) :
    Taken unit cu b since q st sk ps :=
  ⟨h.book, h.listed.mono hq.log, h.retained, h.since_le.trans hq.units⟩

theorem skip (h : Taken unit cu b since p st sk [])
    (ha : st.next.awaitingKeyframe = true) (hv : p.pub.log[st.next.nextSequence]? = some v)
    (hi : v.isVideoInterframe = true) : Taken unit cu b since p st.skip (sk ++ [v]) [] := by
  have hpos := h.book.position
  refine ⟨h.book.skip ha hi, ?_, fun s hge hlt => ?_, h.since_le⟩
  · have hl := h.listed
    rw [append_nil] at hl ⊢
    exact hl.append (.singleton (by rwa [hpos] at hv))
  · simp only [length_nil] at hlt
    omega

theorem take (h : Taken unit cu b since p st sk ps) (hw : st.within b = true)
    (hv : p.pub.log[st.next.nextSequence]? = some v) (hu : p.pub.units ≤ st.next.nextSequence + c)
    (hi : (st.next.awaitingKeyframe && v.isVideoInterframe) = false)
    (ha : aw = (st.next.awaitingKeyframe && !v.isVideoKeyframe)) :
    Taken unit cu b since p { st.take unit v with
        next := { (st.take unit v).next with awaitingKeyframe := aw } }
      sk (ps ++ [v]) := by
  have hpos := h.book.position
  refine ⟨h.book.take hw hi ha, ?_, fun s hge hlt => ?_, h.since_le⟩
  · rw [← append_assoc]
    refine h.listed.append (.singleton ?_)
    rwa [length_append, ← add_assoc, ← hpos]
  · have hs := h.since_le
    rcases lt_or_ge s (cu.nextSequence + sk.length + ps.length) with hold | hnew
    · exact h.retained s hge hold
    · omega

theorem packets_nil (h : Taken unit cu b since p st sk ps)
    (ha : st.next.awaitingKeyframe = true) (hc : CleanLoss cu p.pub (.unit st.next.nextSequence))
    (hl : unpack (p.pub.ring.slot st.next.nextSequence).unit st.next.nextSequence = none) :
    ps = [] := by
  have hpos := h.book.position
  have haw := h.book.awaiting
  rw [ha, awaitingAfter, eq_comm, Bool.and_eq_true, Bool.not_eq_true', List.any_eq_false] at haw
  have hn (i : Nat) (hge : cu.nextSequence ≤ i) (hlt : i < st.next.nextSequence) :
      ¬IsKeyframeAt p.pub.log i := by
    rintro ⟨v, hv, hk⟩
    have hlen : i - cu.nextSequence < (sk ++ ps).length := by
      rw [length_append]
      omega
    have hat := h.listed _ _ (getElem?_eq_getElem hlen)
    rw [show cu.nextSequence + (i - cu.nextSequence) = i by omega, hv, Option.some.injEq] at hat
    rcases mem_append.mp (hat ▸ getElem_mem hlen) with hs | hp
    · have hi := (h.book.skips v hs).2
      rw [MediaPacket.isVideoInterframe_of_keyframe hk] at hi
      cases hi
    · exact haw.2 v hp hk
  have hall := hc haw.1 hn hl
  cases ps with
  | nil => rfl
  | cons v vs =>
    obtain ⟨w, hw, hi⟩ := hall (cu.nextSequence + sk.length) (le_add_right _ _)
      (by rw [hpos, length_cons]; omega)
    have hat := h.listed sk.length v (by simp)
    rw [hw, Option.some.injEq] at hat
    have hpa := h.book.passes
    rw [haw.1, ← append_nil (v :: vs)] at hpa
    have hf := passed_before_keyframe hpa (fun x hx => by simpa using haw.2 x hx) v (by simp)
    rw [← hat, hi] at hf
    cases hf

end Taken

variable {since : Nat}

def WaitEnd (unit : MediaPacket → U) (cursor : FeedCursor) (budget : ReadBudget) (since stop : Nat)
    (result : LoopEnd U) (q : LivePub c) : Prop :=
  match result with
  | .lost state => state.units = [] ∧ cursor.nextSequence + c < q.pub.units
  | .ends state => state.next.nextSequence ≤ stop ∧
    ∃ skipped packets, Taken unit cursor budget since q state skipped packets

variable {n stop start s : Nat} {p q : LivePub c} {tail : List MediaPacket}

theorem waitLoop_meets (h : Taken unit cu b since p st sk ps)
    (hn : st.next.nextSequence + n = stop) (hst : 0 < n → stop ≤ p.pub.stored) :
    FeedMeets cu (waitLoop unit b n st) (WaitEnd unit cu b since stop) p := by
  induction n generalizing st p sk ps with
  | zero => exact fun q hq => ⟨by omega, _, _, h.later hq⟩
  | succ n ih =>
    have hin : stop ≤ p.pub.stored := hst (succ_pos n)
    have stops : FeedMeets cu (pure (LoopEnd.ends st)) (WaitEnd unit cu b since stop) p :=
      fun q hq => ⟨by omega, _, _, h.later hq⟩
    rw [waitLoop]
    split
    · next hgo =>
      rw [Bool.and_eq_true] at hgo
      refine meets_readAt (by omega) (fun q v hq hv hu => ?_) (fun q hq hc hl ho => ?_)
      · have hq' := h.later hq
        have hs (_ : 0 < n) : stop ≤ q.pub.stored := hin.trans hq.stored
        simp only
        split
        · next hi =>
          split
          · next he =>
            have hnil : ps = [] := by
              have hun := h.book.units
              rw [isEmpty_iff.mp he] at hun
              exact (map_eq_nil_iff.mp hun.symm)
            subst hnil
            exact ih (hq'.skip hgo.1 hv hi) (by simp only [ReadState.skip]; omega) hs
          · exact meets_later hq stops
        · next hi =>
          have hp : (st.next.awaitingKeyframe && v.isVideoInterframe) = false := by
            simpa [hgo.1] using hi
          have ha : (!v.isVideoKeyframe) = (st.next.awaitingKeyframe && !v.isVideoKeyframe) := by
            simp [hgo.1]
          exact ih (hq'.take hgo.2 hv hu hp ha) (by simp only [ReadState.take]; omega) hs
      · have hnil := (h.later hq).packets_nil hgo.1 hc hl
        have hpos := h.book.position
        refine fun t ht => ⟨by rw [h.book.units, hnil]; rfl, ?_⟩
        have hun := ht.units
        omega
    · exact stops

/-- Packets loaded from the slots of a run without a check: each is its own
sequence's as long as that sequence has not been overwritten. -/
def Unchecked (p : LivePub c) (start : Nat) (tail : List MediaPacket) : Prop :=
  ∀ i v, tail[i]? = some v → p.pub.units ≤ start + i + c → p.pub.log[start + i]? = some v

theorem Unchecked.later (h : Unchecked p start tail) (hq : p.Later q) : Unchecked q start tail := by
  intro i v hv hu
  have hun := hq.units
  exact getElem?_extend hq.log (h i v hv (by omega))

theorem Unchecked.append (h : Unchecked p start tail)
    (hv : p.pub.units ≤ start + tail.length + c → p.pub.log[start + tail.length]? = some v) :
    Unchecked p start (tail ++ [v]) := by
  intro i w hw hu
  rcases lt_or_ge i tail.length with hlt | hge
  · rw [getElem?_append_left hlt] at hw
    exact h i w hw hu
  · rw [getElem?_append_right hge] at hw
    have hi : i = tail.length := by
      have := (List.getElem?_eq_some_iff.mp hw).1
      simp only [List.length_singleton] at this
      omega
    subst hi
    rw [Nat.sub_self, getElem?_cons_zero] at hw
    exact hw ▸ hv hu

def RunEnd (unit : MediaPacket → U) (cursor : FeedCursor) (budget : ReadBudget) (start stop : Nat)
    (skipped packets : List MediaPacket) (result : LoopEnd U) (q : LivePub c) : Prop :=
  match result with
  | .lost _ => False
  | .ends state => state.next.nextSequence ≤ stop ∧ ∃ tail,
    state.Book unit cursor budget skipped (packets ++ tail) ∧ Unchecked q start tail

theorem runLoop_meets (hb : st.Book unit cu b sk (ps ++ tail))
    (hsta : start = cu.nextSequence + sk.length + ps.length) (ht : Unchecked p start tail)
    (hn : st.next.nextSequence + n = stop) (hst : 0 < n → stop ≤ p.pub.stored) :
    FeedMeets cu (runLoop unit b n st)
      (RunEnd unit cu b start stop sk ps) p := by
  induction n generalizing st p tail with
  | zero => exact fun q hq => ⟨by omega, tail, hb, ht.later hq⟩
  | succ n ih =>
    rw [runLoop]
    split
    · next hgo =>
      rw [Bool.and_eq_true, Bool.not_eq_true'] at hgo
      intro q hq _
      have hs : stop ≤ q.pub.stored := (hst (succ_pos n)).trans hq.stored
      have hpos := hb.position
      rw [length_append] at hpos
      obtain ⟨v, hv, hown⟩ := q.loaded (s := st.next.nextSequence) (by omega)
      have hans : q.pub.ring.answer (.packet st.next.nextSequence) = some v := hv
      simp only [hans]
      have happ : ps ++ tail ++ [v] = ps ++ (tail ++ [v]) := append_assoc _ _ _
      have hk : st.next.awaitingKeyframe = (st.next.awaitingKeyframe && !v.isVideoKeyframe) := by
        rw [hgo.1, Bool.false_and]
      have hta : ReadState.Book unit cu b (st.take unit v) sk _ :=
        hb.take hgo.2 (by rw [hgo.1, Bool.false_and]) hk
      rw [happ] at hta
      refine ih hta ((ht.later hq).append ?_) (by simp only [ReadState.take]; omega) fun _ => hs
      rwa [show start + tail.length = st.next.nextSequence by omega]
    · exact fun q hq => ⟨by omega, tail, hb, ht.later hq⟩

def HeldSince (p q : LivePub c) (s : Nat) : Prop :=
  ∃ t, p.Later t ∧ t.Later q ∧ t.pub.units ≤ s + c

theorem HeldSince.units_le (h : HeldSince p q s) : p.pub.units ≤ s + c := by
  obtain ⟨t, hpt, -, ht⟩ := h
  exact hpt.units.trans ht

theorem HeldSince.extend (hp : p.Later p') (h : HeldSince p' q s) : HeldSince p q s := by
  obtain ⟨t, hpt, htq, ht⟩ := h
  exact ⟨t, hp.trans hpt, htq, ht⟩

theorem Unchecked.listed (h : Unchecked p start tail) (hpq : p.Later q)
    (hh : ∀ s, start ≤ s → s < start + tail.length → HeldSince p q s) :
    Listed q.pub.log start tail := by
  intro i v hv
  have hlt := (List.getElem?_eq_some_iff.mp hv).1
  have hu := (hh (start + i) (le_add_right _ _) (by omega)).units_le
  exact getElem?_extend hpq.log (h i v hv hu)

def Checked (p : LivePub c) (start stop : Nat) (intact : Bool) (q : LivePub c) : Prop :=
  if intact then ∀ s, start ≤ s → s < stop → HeldSince p q s
    else ∃ s, start ≤ s ∧ s < stop ∧ s + c < q.pub.units

theorem tagsIntact_meets (hn : start + n ≤ p.pub.stored) :
    FeedMeets cu (tagsIntact n start) (Checked p start (start + n)) p := by
  induction n generalizing start p with
  | zero => exact fun q hq s hge hlt => by omega
  | succ n ih =>
    intro q hq _
    have hst := hq.stored
    change FeedMeets cu (if (unpack (q.pub.ring.slot start).unit start).isSome then
      tagsIntact n (start + 1) else pure false) _ q
    have htag := q.tag_iff (s := start) (by omega)
    split
    · next hs =>
      have hrec : FeedMeets cu (tagsIntact n (start + 1)) (Checked q (start + 1) (start + 1 + n)) q :=
        ih (by omega)
      refine mono ?_ (since hrec fun _ _ _ h h' => Later.trans h h')
      rintro intact t ⟨hqt, hr⟩
      cases intact with
      | false =>
        obtain ⟨s, hge, hlt, ho⟩ := hr
        exact ⟨s, by omega, by omega, ho⟩
      | true =>
        intro s hge hlt
        rcases eq_or_lt_of_le hge with rfl | hgt
        · exact ⟨q, hq, hqt, htag.mp hs⟩
        · exact (hr s hgt (by omega)).extend hq
    · next hno =>
      intro t ht
      have ho := mt htag.mpr hno
      have hu := ht.units
      exact ⟨start, le_rfl, by omega, by omega⟩

theorem runIntact_meets (hle : start ≤ stop) (hst : stop ≤ p.pub.stored) :
    FeedMeets cu (runIntact c start stop) (Checked p start stop) p := by
  intro q hq _
  change FeedMeets cu (if q.pub.ring.writeBegin ≤ min (start + c) usizeMax then pure true
    else tagsIntact (stop - start) start) _ q
  split
  · have hu := q.holds.units_le
    exact fun t ht s hge hlt => ⟨q, hq, ht, by omega⟩
  · have hs := hq.stored
    have hta : FeedMeets cu (tagsIntact (stop - start) start)
        (Checked q start (start + (stop - start))) q := tagsIntact_meets (by omega)
    rw [Nat.add_sub_cancel' hle] at hta
    refine mono ?_ hta
    intro intact t hr
    cases intact with
    | false => exact hr
    | true => exact fun s hge hlt => (hr s hge hlt).extend hq

/-- What a read has found by the time it returns; `since` is a number of units
already written when it began. -/
def ReadLaw (unit : MediaPacket → U) (cursor : FeedCursor) (budget : ReadBudget) (since : Nat)
    (result : FeedRead × List U) (q : LivePub c) : Prop :=
  match result.1 with
  | .units next => ∃ state skipped packets, state.next = next ∧ state.units = result.2 ∧
    Taken unit cursor budget since q state skipped packets
  | .overrun _ => result.2 = [] ∧ cursor.nextSequence + c < q.pub.units
  | .empty | .epochMismatch _ => result.2 = []

theorem Taken.finish (h : Taken unit cu b since p st sk ps) :
    FeedMeets cu (if st.next.nextSequence = cu.nextSequence then pure (FeedRead.empty,
      st.units) else pure (FeedRead.units st.next, st.units)) (ReadLaw unit cu b since) p := by
  split
  · intro q _
    have hpos := h.book.position
    have hnil : ps = [] := length_eq_zero_iff.mp (by omega)
    rw [h.book.units, hnil]
    rfl
  · exact fun q hq => ⟨st, sk, ps, rfl, rfl, h.later hq⟩

theorem overrun_meets (ho : cu.nextSequence + c < p.pub.units) :
    FeedMeets cu (do return (FeedRead.overrun (← oldestRetainedSequence c), ([] : List U)))
      (ReadLaw unit cu b since) p := by
  refine meets_oldest fun q hq t ht => ⟨rfl, ?_⟩
  have hu := hq.units.trans ht.units
  omega

theorem checkRun_meets (hs : start < stop → stop ≤ p.pub.stored) :
    FeedMeets cu (checkRun c start stop) (Checked p start stop) p := by
  unfold checkRun
  split
  · next hlt => exact runIntact_meets hlt.le (hs hlt)
  · exact fun q hq s hge hlt => by omega

theorem finishRun_meets (h : Taken unit cu b since p pre sk ps)
    (hs : start = cu.nextSequence + sk.length + ps.length) (hb : st.Book unit cu b sk (ps ++ tail))
    (hta : Unchecked p start tail)
    (hst : start < st.next.nextSequence → st.next.nextSequence ≤ p.pub.stored) :
    FeedMeets cu (finishRun c cu start st) (ReadLaw unit cu b since) p := by
  have hpos := hb.position
  rw [length_append] at hpos
  refine meets_bind (checkRun_meets hst) fun intact q hq hc => ?_
  cases intact with
  | false =>
    obtain ⟨s, hge, -, ho⟩ := hc
    exact overrun_meets (by omega)
  | true =>
    have hh (s : Nat) (hge : start ≤ s) (hlt : s < start + tail.length) : HeldSince p q s :=
      hc s hge (by omega)
    have ht : Taken unit cu b since q st sk (ps ++ tail) := by
      refine ⟨hb, ?_, fun s hge hlt => ?_, h.since_le.trans hq.units⟩
      · rw [← append_assoc]
        refine (h.listed.mono hq.log).append ?_
        rw [length_append, ← add_assoc, ← hs]
        exact hta.listed hq hh
      · rw [length_append] at hlt
        rcases lt_or_ge s start with hold | hnew
        · exact h.retained s hge (by omega)
        · exact h.since_le.trans (hh s hnew (by omega)).units_le
    exact ht.finish

/-- Whatever the producer stores during a read whose losses are clean, its
result obeys the law. -/
theorem readRing_meets (unit : MediaPacket → U) (cu : FeedCursor) (b : ReadBudget)
    (epoch : Nat) (p : LivePub c) : FeedMeets cu (readRing c unit b epoch cu)
      (ReadLaw unit cu b p.pub.units) p := by
  unfold readRing
  split
  · exact fun q _ => rfl
  · refine meets_writeIdx fun q hq => meets_oldest fun r hr => ?_
    have hqr := hq.trans hr
    split
    · intro t ht
      have hw := r.holds.writeIdx_le.trans r.holds.stored_le
      have hun := ht.units
      exact ⟨rfl, by omega⟩
    · have hh := q.holds.writeIdx_le.trans hr.stored
      have hbe : Taken unit cu b p.pub.units r
          { next := cu, totalBytes := 0, units := [] } [] [] :=
        ⟨.start unit cu b, fun i v hv => by simp at hv,
          fun s hge hlt => by simp at hge hlt; omega, hqr.units⟩
      refine meets_bind (waitLoop_meets hbe rfl fun _ => by simp only; omega) fun res t ht hend => ?_
      cases res with
      | lost st =>
        obtain ⟨hnil, ho⟩ := hend
        simp only [hnil]
        exact overrun_meets ho
      | ends st =>
        obtain ⟨-, sk, ps, hta⟩ := hend
        have hs := ht.stored
        have hb := hta.book
        rw [← append_nil ps] at hb
        refine meets_bind (runLoop_meets hb hta.book.position (fun i v hv => by simp at hv) rfl
          fun _ => by omega) fun res u hu hrun => ?_
        cases res with
        | lost st => exact hrun.elim
        | ends st' =>
          obtain ⟨hst, tail, hb', htai⟩ := hrun
          have hs' := hu.stored
          exact finishRun_meets (hta.later hu) hta.book.position hb' htai fun hlt => by omega

end Loops

end Restream
