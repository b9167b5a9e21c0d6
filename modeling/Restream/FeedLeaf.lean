import Restream.FeedRun

/-! An egress leaf that reads the feed while the producer publishes. Its reads
and its resynchronisations make one load a step; what each read returned and
the sequences delivered so far are kept. -/

namespace Restream

open List Option Exec

structure ReadRecord (U : Type) where
  cursor : FeedCursor
  budget : ReadBudget
  result : FeedRead
  units : List U

inductive LeafActivity (U : Type) where
  | idle
  | reading (budget : ReadBudget) (prog : RingProg (FeedRead × List U))
  | resyncing (prog : RingProg FeedCursor)

namespace LeafActivity

variable {U : Type}

def LosesClean (cursor : FeedCursor) (pub : Publication) : LeafActivity U → Prop
  | .reading _ (.load cell _) => CleanLoss cursor pub cell
  | _ => True

instance (cursor : FeedCursor) (pub : Publication) (activity : LeafActivity U) :
    Decidable (activity.LosesClean cursor pub) := by
  unfold LosesClean
  split <;> infer_instance

end LeafActivity

structure FeedLeaf (U : Type) where
  cursor : FeedCursor
  activity : LeafActivity U
  records : List (ReadRecord U)
  delivered : List Nat

structure FeedSystem (U : Type) where
  pub : Publication
  leaf : FeedLeaf U

inductive FeedEvent where
  | producer (e : ProducerEvent)
  | read (budget : ReadBudget)
  | load
  | finish

namespace FeedLeaf

variable {U : Type} (capacity epoch : Nat) (unit : MediaPacket → U)

def load (leaf : FeedLeaf U) (ring : RingBuffer) : Option (FeedLeaf U) :=
  match leaf.activity with
  | .reading budget (.load cell k) =>
    some { leaf with activity := .reading budget (k (ring.answer cell)) }
  | .resyncing (.load cell k) => some { leaf with activity := .resyncing (k (ring.answer cell)) }
  | _ => none

def finishRead (leaf : FeedLeaf U) (budget : ReadBudget) (result : FeedRead) (units : List U) :
    FeedLeaf U :=
  let record := { cursor := leaf.cursor, budget := budget, result := result, units := units }
  let leaf := { leaf with activity := .idle, records := leaf.records ++ [record] }
  match result with
  | .units next => { leaf with
      cursor := next
      delivered := leaf.delivered ++ range' (next.nextSequence - units.length) units.length }
  | .overrun _ => { leaf with activity := .resyncing (liveStartCursor capacity epoch) }
  | .empty | .epochMismatch _ => leaf

def finish (leaf : FeedLeaf U) : Option (FeedLeaf U) :=
  match leaf.activity with
  | .reading budget (.ret (result, units)) =>
    some (leaf.finishRead capacity epoch budget result units)
  | .resyncing (.ret cursor) => some { leaf with cursor := cursor, activity := .idle }
  | _ => none

def read (leaf : FeedLeaf U) (budget : ReadBudget) : Option (FeedLeaf U) :=
  match leaf.activity with
  | .idle => some { leaf with
      activity := .reading budget (readRing capacity unit budget epoch leaf.cursor) }
  | _ => none

end FeedLeaf

namespace FeedSystem

variable {U : Type} (unit : MediaPacket → U) (epoch : Nat)

def start (capacity : Nat) (h : 0 < capacity) (cursor : FeedCursor) : FeedSystem U :=
  { pub := Publication.start capacity h
    leaf := { cursor := cursor, activity := .idle, records := [], delivered := [] } }

def step (sys : FeedSystem U) : FeedEvent → Option (FeedSystem U)
  | .producer e => (sys.pub.step e).map fun pub => { sys with pub := pub }
  | .read budget =>
    (sys.leaf.read sys.pub.ring.capacity epoch unit budget).map fun leaf => { sys with leaf := leaf }
  | .load => (sys.leaf.load sys.pub.ring).map fun leaf => { sys with leaf := leaf }
  | .finish =>
    (sys.leaf.finish sys.pub.ring.capacity epoch).map fun leaf => { sys with leaf := leaf }

/-- Every load made by a read finds a clean loss, if it finds a loss. -/
def LosesClean (sys : FeedSystem U) : FeedEvent → Prop
  | .load => sys.leaf.activity.LosesClean sys.leaf.cursor sys.pub
  | _ => True

instance (sys : FeedSystem U) (e : FeedEvent) : Decidable (sys.LosesClean e) := by
  unfold LosesClean
  split <;> infer_instance

end FeedSystem

/-- The law of one read: the units are those of the sequences just before the
next cursor, what lies between the cursor and them was skipped by a keyframe
wait, and the budget is kept. Any other result comes without units. -/
structure UnitsLaw {U : Type} (unit : MediaPacket → U) (log : List MediaPacket) (cursor : FeedCursor)
    (budget : ReadBudget) (next : FeedCursor) (units : List U) : Prop where
  start_le : cursor.nextSequence + units.length ≤ next.nextSequence
  units_eq : units =
    ((log.drop (next.nextSequence - units.length)).take units.length).map unit
  skipped : ∀ s, cursor.nextSequence ≤ s → s < next.nextSequence - units.length →
    cursor.awaitingKeyframe = true ∧ IsInterframeAt log s
  maxUnits : units.length ≤ budget.maxUnits
  maxBytes : units ≠ [] →
    payloadBytes ((log.drop (next.nextSequence - units.length)).take (units.length - 1)) <
      budget.maxBytes

def ReadRecord.Lawful {U : Type} (unit : MediaPacket → U) (log : List MediaPacket)
    (r : ReadRecord U) : Prop :=
  match r.result with
  | .units next => UnitsLaw unit log r.cursor r.budget next r.units
  | _ => r.units = []

section Law

variable {c : Nat} {U : Type} {unit : MediaPacket → U}

def ReadRecord.Kept (unit : MediaPacket → U) (log : List MediaPacket) (r : ReadRecord U) : Prop :=
  match r.result with
  | .units next => ∃ (state : ReadState U) (skipped packets : List MediaPacket), state.next = next ∧
    state.units = r.units ∧ state.Book unit r.cursor r.budget skipped packets ∧
    Listed log r.cursor.nextSequence (skipped ++ packets)
  | _ => r.units = []

variable {log : List MediaPacket} {r : ReadRecord U}

theorem ReadRecord.Kept.mono (h : r.Kept unit log) (hlog : log <+: log') : r.Kept unit log' := by
  unfold ReadRecord.Kept at h ⊢
  split at h
  · obtain ⟨st, sk, ps, hn, hu, hb, hl⟩ := h
    exact ⟨st, sk, ps, hn, hu, hb, hl.mono hlog⟩
  · exact h

theorem Listed.eq_take (h : Listed log start xs) : xs = (log.drop start).take xs.length := by
  apply ext_getElem?
  intro i
  rcases Nat.lt_or_ge i xs.length with hlt | hge
  · rw [getElem?_take_of_lt hlt, getElem?_drop, getElem?_eq_getElem hlt]
    exact (h i _ (getElem?_eq_getElem hlt)).symm
  · rw [getElem?_eq_none hge, getElem?_take_eq_none hge]

theorem ReadRecord.Kept.lawful (h : r.Kept unit log) : r.Lawful unit log := by
  unfold ReadRecord.Kept at h
  unfold ReadRecord.Lawful
  split at h
  · obtain ⟨st, sk, ps, rfl, hu, hb, hl⟩ := h
    have hlen : r.units.length = ps.length := by rw [← hu, hb.units, length_map]
    have hpos := hb.position
    have hst : st.next.nextSequence - r.units.length = r.cursor.nextSequence + sk.length := by
      omega
    have ht : Listed log (r.cursor.nextSequence + sk.length) ps := by
      intro i p hp
      have := hl (sk.length + i) p (by
        rw [getElem?_append_right (Nat.le_add_right _ _), Nat.add_sub_cancel_left, hp])
      rwa [← Nat.add_assoc] at this
    refine ⟨by omega, ?_, fun s hge hlt => ?_, hlen ▸ hb.maxUnits, fun hne => ?_⟩
    · rw [hst, hlen, ← ht.eq_take, ← hu, hb.units]
    · have hs : s - r.cursor.nextSequence < sk.length := by omega
      have hat := hl (s - r.cursor.nextSequence) sk[s - r.cursor.nextSequence] (by
        rw [getElem?_append_left hs, getElem?_eq_getElem hs])
      rw [Nat.add_sub_cancel' hge] at hat
      obtain ⟨haw, hi⟩ := hb.skips _ (getElem_mem hs)
      exact ⟨haw, _, hat, hi⟩
    · have hpa : ps ≠ [] := by
        rintro rfl
        exact hne (length_eq_zero_iff.mp hlen)
      have hta : (log.drop (r.cursor.nextSequence + sk.length)).take (ps.length - 1) =
          ps.dropLast := by
        conv_rhs => rw [dropLast_eq_take, ht.eq_take, take_take]
        congr 1
        rw [← ht.eq_take]
        omega
      rw [hst, hlen, hta]
      exact hb.maxBytes hpa
  · exact h

end Law

namespace FeedLeaf

variable {c epoch : Nat} {U : Type} {unit : MediaPacket → U} {leaf : FeedLeaf U} {p q : LivePub c}

/-- Each sequence delivered lies behind `next`, or was overwritten once `units`
unit words had been written. -/
def Behind (c : Nat) (delivered : List Nat) (next units : Nat) : Prop :=
  ∀ s ∈ delivered, s < next ∨ s + c < units

def ActivityInv (unit : MediaPacket → U) (leaf : FeedLeaf U) (p : LivePub c) : Prop :=
  match leaf.activity with
  | .idle => True
  | .reading budget prog => ∃ since, Behind c leaf.delivered leaf.cursor.nextSequence since ∧
    FeedMeets leaf.cursor prog (ReadLaw unit leaf.cursor budget since) p
  | .resyncing _ => ∀ s ∈ leaf.delivered, s + c < p.pub.units

structure Inv (unit : MediaPacket → U) (leaf : FeedLeaf U) (p : LivePub c) : Prop where
  records : ∀ r ∈ leaf.records, r.Kept unit p.pub.log
  increasing : leaf.delivered.Pairwise (· < ·)
  behind : Behind c leaf.delivered leaf.cursor.nextSequence p.pub.units
  activity : leaf.ActivityInv unit p

theorem Inv.later (h : leaf.Inv unit p) (hq : p.Later q) : leaf.Inv unit q := by
  have hu := hq.units
  refine ⟨fun r hr => (h.records r hr).mono hq.log, h.increasing, ?_, ?_⟩
  · exact fun s hs => (h.behind s hs).imp_right fun hlt => by omega
  · have hact := h.activity
    unfold ActivityInv at hact ⊢
    split at hact
    · trivial
    · obtain ⟨since, hb, hm⟩ := hact
      exact ⟨since, hb, meets_later hq hm⟩
    · exact fun s hs => (hact s hs).trans_le hu

theorem Inv.read (h : leaf.Inv unit p) (hr : leaf.read c epoch unit budget = some leaf') :
    leaf'.Inv unit p := by
  unfold FeedLeaf.read at hr
  split at hr <;> cases hr
  exact ⟨h.records, h.increasing, h.behind, p.pub.units, h.behind,
    readRing_meets unit leaf.cursor budget epoch p⟩

theorem Inv.load (h : leaf.Inv unit p)
    (hc : ∀ budget cell k, leaf.activity = .reading budget (.load cell k) →
      CleanLoss leaf.cursor p.pub cell)
    (hl : leaf.load p.pub.ring = some leaf') : leaf'.Inv unit p := by
  have hact := h.activity
  unfold FeedLeaf.load at hl
  unfold ActivityInv at hact
  split at hl <;> cases hl
  · next budget cell k hr =>
    rw [hr] at hact
    obtain ⟨since, hb, hm⟩ := hact
    exact ⟨h.records, h.increasing, h.behind, since, hb,
      hm p (LivePub.Later.refl p) (hc budget cell k hr)⟩
  · next cell k hre =>
    rw [hre] at hact
    exact ⟨h.records, h.increasing, h.behind, hact⟩

theorem Inv.finishUnits {next : FeedCursor} {units : List U} {since : Nat} (h : leaf.Inv unit p)
    (hb : Behind c leaf.delivered leaf.cursor.nextSequence since)
    (hlaw : ReadLaw unit leaf.cursor budget since (.units next, units) p) :
    (leaf.finishRead c epoch budget (.units next) units).Inv unit p := by
  obtain ⟨st, sk, ps, rfl, hu, hta⟩ := hlaw
  simp only at hu
  have hpos := hta.book.position
  have hlen : units.length = ps.length := by rw [← hu, hta.book.units, length_map]
  have hnew (s : Nat) (hs : s ∈ range' (st.next.nextSequence - units.length) units.length) :
      leaf.cursor.nextSequence ≤ s ∧ s < st.next.nextSequence ∧ since ≤ s + c := by
    rw [mem_range'_1] at hs
    exact ⟨by omega, by omega, hta.retained s (by omega) (by omega)⟩
  refine ⟨fun r hr => ?_, ?_, fun s hs => ?_, trivial⟩
  · rcases mem_append.mp hr with hold | hl
    · exact h.records r hold
    · obtain rfl := mem_singleton.mp hl
      exact ⟨st, sk, ps, rfl, hu, hta.book, hta.listed⟩
  · refine pairwise_append.mpr ⟨h.increasing, pairwise_lt_range', fun s hs t ht => ?_⟩
    obtain ⟨hge, -, hsi⟩ := hnew t ht
    rcases hb s hs with hlt | ho <;> omega
  · rcases mem_append.mp hs with hold | hl
    · refine (h.behind s hold).imp_left fun hlt => ?_
      simp only [finishRead]
      omega
    · exact .inl (hnew s hl).2.1

theorem Inv.finish (h : leaf.Inv unit p) (hfinish : leaf.finish c epoch = some leaf') :
    leaf'.Inv unit p := by
  have hact := h.activity
  unfold FeedLeaf.finish at hfinish
  unfold ActivityInv at hact
  split at hfinish <;> cases hfinish
  · next budget result units hreading =>
    rw [hreading] at hact
    obtain ⟨since, hbehind, hmeets⟩ := hact
    have hlaw : ReadLaw unit leaf.cursor budget since (result, units) p :=
      hmeets p (LivePub.Later.refl p)
    have recorded (hnil : units = []) (hnot : ∀ next, result ≠ .units next) : ∀ r ∈ leaf.records ++
        [{ cursor := leaf.cursor, budget := budget, result := result, units := units }],
        r.Kept unit p.pub.log := by
      intro r hr
      rcases mem_append.mp hr with hold | hlast
      · exact h.records r hold
      · obtain rfl := mem_singleton.mp hlast
        unfold ReadRecord.Kept
        split
        · next next hunits => exact absurd hunits (hnot next)
        · exact hnil
    cases result with
    | units next => exact h.finishUnits hbehind hlaw
    | empty | epochMismatch => exact ⟨recorded hlaw (by simp), h.increasing, h.behind, trivial⟩
    | overrun oldest =>
      obtain ⟨hnil, hover⟩ := hlaw
      refine ⟨recorded hnil (by simp), h.increasing, h.behind, fun s hs => ?_⟩
      rcases h.behind s hs with hlt | hlost <;> omega
  · next cursor hresync =>
    rw [hresync] at hact
    exact ⟨h.records, h.increasing, fun s hs => .inr (hact s hs), trivial⟩

end FeedLeaf

namespace FeedSystem

variable {U : Type} {unit : MediaPacket → U} {epoch : Nat}

def Inv (unit : MediaPacket → U) (sys : FeedSystem U) : Prop :=
  ∀ c (p : LivePub c), p.pub = sys.pub → sys.leaf.Inv unit p

variable {sys sys' : FeedSystem U}

theorem step_pub (h : sys.pub.Inv) (hs : sys.step unit epoch e = some sys') :
    sys'.pub.Inv ∧ sys.pub.Advances sys'.pub := by
  cases e with
  | producer e =>
    simp only [step, map_eq_some_iff] at hs
    obtain ⟨pub, hpub, rfl⟩ := hs
    exact h.step hpub
  | read | load | finish =>
    simp only [step, map_eq_some_iff] at hs
    obtain ⟨leaf, -, rfl⟩ := hs
    exact ⟨h, .refl _⟩

theorem step_inv (hpub : sys.pub.Inv) (h : sys.Inv unit) (hc : sys.LosesClean e)
    (hs : sys.step unit epoch e = some sys') : sys'.Inv unit := by
  intro c p hp
  cases e with
  | producer e =>
    simp only [step, map_eq_some_iff] at hs
    obtain ⟨pub, hpub', rfl⟩ := hs
    obtain ⟨hinv, hadv⟩ := hpub.step hpub'
    rw [← show p.pub = pub from hp] at hadv
    have hsh := hadv.log.length_le.trans_lt p.short
    let old : LivePub c := ⟨sys.pub, hpub, hsh, hadv.capacity.symm.trans p.capacity_eq⟩
    exact (h c old rfl).later hadv
  | read budget =>
    simp only [step, map_eq_some_iff] at hs
    obtain ⟨leaf, hl, rfl⟩ := hs
    rw [← show p.pub = sys.pub from hp, p.capacity_eq] at hl
    exact (h c p hp).read hl
  | load =>
    simp only [step, map_eq_some_iff] at hs
    obtain ⟨leaf, hl, rfl⟩ := hs
    rw [← show p.pub = sys.pub from hp] at hl
    refine (h c p hp).load (fun budget cell k hr => ?_) hl
    simp only [LosesClean, LeafActivity.LosesClean, hr] at hc
    rwa [show p.pub = sys.pub from hp]
  | finish =>
    simp only [step, map_eq_some_iff] at hs
    obtain ⟨leaf, hl, rfl⟩ := hs
    rw [← show p.pub = sys.pub from hp, p.capacity_eq] at hl
    exact (h c p hp).finish hl

/-- In every run whose losses are clean, each read of the leaf is lawful, and no
sequence is delivered twice. -/
theorem feed_reads_lawful {capacity : Nat} {h : 0 < capacity}
    {cursor : FeedCursor} {sys : FeedSystem U}
    (hrun : Reachable (step unit epoch) LosesClean (start capacity h cursor) sys)
    (hlog : sys.pub.log.length < 2 ^ 31) :
    (∀ r ∈ sys.leaf.records, r.Lawful unit sys.pub.log) ∧ sys.leaf.delivered.Pairwise (· < ·) := by
  have hstart : (start capacity h cursor : FeedSystem U).pub.Inv := Publication.start_inv capacity h
  have hpub : sys.pub.Inv := Reachable.invariant (fun sys => sys.pub.Inv)
    (fun s e t hs _ hstep => (step_pub hs hstep).1) hstart hrun
  have hinv : sys.Inv unit := Reachable.invariant_below (fun sys => sys.pub.Inv) (Inv unit)
    (fun sys => sys.pub.log.length) (2 ^ 31)
    (fun s e t hs hstep => ⟨(step_pub hs hstep).1, (step_pub hs hstep).2.log.length_le⟩)
    (fun s e t hs _ hi hclean hstep => step_inv hs hi hclean hstep) hstart
    (fun c p hp => ⟨by simp [start], by simp [start], fun s hs => by simp [start] at hs, trivial⟩)
      hrun hlog
  have hleaf := hinv _ ⟨sys.pub, hpub, hlog, rfl⟩ rfl
  exact ⟨fun r hr => (hleaf.records r hr).lawful, hleaf.increasing⟩

def overrunRun : List FeedEvent := flatten [
  [.producer (.pushBatch [.raw .video false 0, .raw .video true 1])], replicate 8 (.producer .store),
  [.read ⟨8, 8⟩], replicate 6 .load, [.finish],
  [.producer (.pushBatch [.raw .audio false 2, .raw .audio false 3, .raw .video true 4,
    .raw .audio false 5])], replicate 14 (.producer .store),
  [.read ⟨8, 8⟩, .load, .load, .finish], replicate 4 .load, [.finish],
  [.read ⟨8, 8⟩], replicate 5 .load, [.finish]]

theorem feed_reads_lawful_overrun :
    ∃ sys,
      Reachable (step id 0) LosesClean (start 3 (by decide) (.awaitingKeyframeAt 0 0)) sys ∧
      sys.leaf.delivered = [1, 4, 5] ∧ (∀ r ∈ sys.leaf.records, r.Lawful id sys.pub.log) ∧
        sys.leaf.delivered.Pairwise (· < ·) :=
  exists_reachable_of_observed overrunRun
    (fun sys => sys.pub.log.length = 6 ∧ sys.leaf.delivered = [1, 4, 5]) (by decide +kernel)
    fun _ hreach ⟨hlog, hdelivered⟩ => ⟨hdelivered, feed_reads_lawful hreach (by omega)⟩

/-- While a keyframe wait that has taken audio packet 0 loads the slot of 1, a
batch laps it: the read ends in an overrun and leaves packet 0 in its vector. -/
def lappedWaitRun : List FeedEvent := flatten [
  [.producer (.pushBatch [.raw .audio false 0, .raw .audio false 1])], replicate 7 (.producer .store),
  [.read ⟨8, 8⟩], replicate 5 .load,
  [.producer (.pushBatch [.raw .audio false 2, .raw .audio false 3])], replicate 7 (.producer .store),
  [.load, .load, .finish]]

theorem lapped_wait_leaves_units :
    ∃ sys,
      Reachable (step id 0) anyLabel (start 2 (by decide) (.awaitingKeyframeAt 0 0)) sys ∧
      sys.pub.log.length < 2 ^ 31 ∧ ∃ r ∈ sys.leaf.records, r.result = .overrun 2 ∧
        r.units.length = 1 ∧ ¬r.Lawful id sys.pub.log := by
  refine exists_reachable_of_observed lappedWaitRun (fun sys => sys.pub.log.length = 4 ∧
    sys.leaf.records.map (fun r => (r.result, r.units.length)) = [(.overrun 2, 1)])
      (by decide +kernel)
    fun sys _ ⟨hlog, hrecords⟩ => ⟨by omega, ?_⟩
  obtain ⟨r, hr, hobs⟩ := map_eq_singleton_iff.mp hrecords
  obtain ⟨hres, hlen⟩ := Prod.mk.inj hobs
  refine ⟨r, by simp [hr], hres, hlen, fun hlaw => ?_⟩
  simp only [ReadRecord.Lawful, hres] at hlaw
  rw [hlaw] at hlen
  cases hlen

end FeedSystem

end Restream
