import Restream.Exec

/-! The queue of leaves ready to make progress. A table from slots to queued keys makes
membership cheap; to its callers the queue is a list without duplicates. -/

namespace Restream.Egress

open List

structure LeafKey where
  slot : Nat
  epoch : Nat
  deriving DecidableEq

inductive Push where
  | queued
  | alreadyQueued
  | full
  deriving DecidableEq

structure ReadyQueue where
  order : List LeafKey
  member : List (Option LeafKey)
  capacity : Nat

namespace ReadyQueue

def withCapacity (capacity : Nat) : ReadyQueue :=
  { order := [], member := replicate capacity none, capacity := capacity }

def contains (q : ReadyQueue) (key : LeafKey) : Bool := q.member[key.slot]? = some (some key)

def push (q : ReadyQueue) (key : LeafKey) : ReadyQueue × Push :=
  if q.contains key then (q, .alreadyQueued)
  else if q.capacity ≤ q.order.length then (q, .full)
  else
    let member := q.member ++ replicate (key.slot + 1 - q.member.length) none
    ({ q with member := member.set key.slot (some key), order := q.order ++ [key] }, .queued)

def popFrom (q : ReadyQueue) : List LeafKey → ReadyQueue × Option LeafKey
  | [] => ({ q with order := [] }, none)
  | key :: order =>
    if q.contains key then ({ q with member := q.member.set key.slot none, order := order }, some key)
    else q.popFrom order

def pop (q : ReadyQueue) : ReadyQueue × Option LeafKey := q.popFrom q.order

def front (q : ReadyQueue) : Option LeafKey := q.order.find? q.contains

def remove (q : ReadyQueue) (key : LeafKey) : ReadyQueue :=
  if q.contains key then
    { q with member := q.member.set key.slot none, order := q.order.filter (· ≠ key) }
  else q

def len (q : ReadyQueue) : Nat := q.order.length

end ReadyQueue

/-- What a shard does with its queue; a leaf that is removed takes its key along. -/
inductive QueueCall where
  | addLeaf (key : LeafKey)
  | removeLeaf (key : LeafKey)
  | push (key : LeafKey)
  | pop
  | remove (key : LeafKey)
  | front

inductive QueueAnswer where
  | done
  | pushed (push : Push)
  | key (key : Option LeafKey)
  deriving DecidableEq

def ReadyQueue.call (q : ReadyQueue) : QueueCall → ReadyQueue × QueueAnswer
  | .addLeaf _ => (q, .done)
  | .removeLeaf key | .remove key => (q.remove key, .done)
  | .push key => ((q.push key).1, .pushed (q.push key).2)
  | .pop => (q.pop.1, .key q.pop.2)
  | .front => (q, .key q.front)

/-- The same on the list of the queued keys, oldest first. -/
def callFifo (capacity : Nat) (keys : List LeafKey) : QueueCall → List LeafKey × QueueAnswer
  | .addLeaf _ => (keys, .done)
  | .removeLeaf key | .remove key => (keys.filter (· ≠ key), .done)
  | .push key =>
    if key ∈ keys then (keys, .pushed .alreadyQueued)
    else if keys.length = capacity then (keys, .pushed .full)
    else (keys ++ [key], .pushed .queued)
  | .pop => (keys.tail, .key keys.head?)
  | .front => (keys, .key keys.head?)

structure QueueRun where
  queue : ReadyQueue
  keys : List LeafKey
  live : List LeafKey
  answers : List QueueAnswer
  expected : List QueueAnswer

namespace QueueRun

def start (capacity : Nat) : QueueRun :=
  { queue := .withCapacity capacity, keys := [], live := [], answers := [], expected := [] }

def step (capacity : Nat) (r : QueueRun) (c : QueueCall) : Option QueueRun :=
  some
    { queue := (r.queue.call c).1
      keys := (callFifo capacity r.keys c).1
      live := match c with
        | .addLeaf key => key :: r.live
        | .removeLeaf key => r.live.filter (· ≠ key)
        | _ => r.live
      answers := r.answers ++ [(r.queue.call c).2]
      expected := r.expected ++ [(callFifo capacity r.keys c).2] }

/-- Only the keys of live leaves are pushed, and a slot has one leaf at a time. -/
def Allowed (r : QueueRun) : QueueCall → Prop
  | .addLeaf key => ∀ leaf ∈ r.live, leaf.slot ≠ key.slot
  | .push key => key ∈ r.live
  | _ => True

instance (r : QueueRun) (c : QueueCall) : Decidable (r.Allowed c) := by
  unfold Allowed
  split <;> infer_instance

end QueueRun

namespace ReadyQueue

variable {cap : Nat} {q : ReadyQueue} {key k : LeafKey}

structure Mirrors (cap : Nat) (q : ReadyQueue) : Prop where
  capacity : q.capacity = cap
  nodup : q.order.Nodup
  contains : ∀ key, q.contains key = true ↔ key ∈ q.order
  bounded : q.order.length ≤ cap

theorem contains_set {member : List (Option LeafKey)} (h : slot < member.length)
    (entry : Option LeafKey) (order : List LeafKey) :
    contains ⟨order, member.set slot entry, cap⟩ k = true ↔
      if k.slot = slot then entry = some k else member[k.slot]? = some (some k) := by
  simp only [contains, decide_eq_true_eq]
  split
  · next hs => rw [hs, getElem?_set_self h, Option.some.injEq]
  · next hs => rw [getElem?_set_ne (Ne.symm hs)]

theorem contains_clear (h : q.contains key = true) (order : List LeafKey) :
    contains { q with member := q.member.set key.slot none, order := order } k = true ↔
      q.contains k = true ∧ k ≠ key := by
  have hkey : q.member[key.slot]? = some (some key) := by simpa [contains] using h
  rw [contains_set (List.getElem?_eq_some_iff.mp hkey).1]
  by_cases hs : k.slot = key.slot
  · simp only [hs, if_true, contains, hkey, decide_eq_true_eq,
      Option.some.injEq, reduceCtorEq, false_iff]
    exact fun hk => hk.2 hk.1.symm
  · have hne : k ≠ key := fun hk => hs (congrArg LeafKey.slot hk)
    simp [hs, hne, contains]

namespace Mirrors

variable (h : q.Mirrors cap)

include h

theorem remove (key : LeafKey) : (q.remove key).Mirrors cap ∧
    (q.remove key).order = q.order.filter (· ≠ key) := by
  unfold ReadyQueue.remove
  split
  · next hc =>
    refine ⟨⟨h.capacity, h.nodup.filter _, fun k => ?_,
      Nat.le_trans (length_filter_le ..) h.bounded⟩, rfl⟩
    rw [contains_clear hc, h.contains, mem_filter, decide_eq_true_eq]
  · next hc =>
    refine ⟨h, (filter_eq_self.mpr fun k hk => ?_).symm⟩
    have hne : k ≠ key := fun he => hc ((h.contains key).mpr (he ▸ hk))
    simpa using hne

theorem pop : q.pop.1.Mirrors cap ∧ q.pop.1.order = q.order.tail ∧ q.pop.2 = q.order.head? := by
  unfold ReadyQueue.pop
  obtain ⟨order, member, _⟩ := q
  cases order with
  | nil => exact ⟨h, rfl, rfl⟩
  | cons key order =>
    obtain ⟨rfl, hnd, hc, hb⟩ := h
    have hfirst := (hc key).mpr mem_cons_self
    obtain ⟨hfresh, hrest⟩ := nodup_cons.mp hnd
    simp only [popFrom, hfirst, if_true, tail_cons, head?_cons, and_true]
    refine ⟨rfl, hrest, fun k => ?_, Nat.le_of_succ_le hb⟩
    rw [contains_clear hfirst, hc, mem_cons]
    exact ⟨fun hk => hk.1.resolve_left hk.2, fun hk => ⟨.inr hk, fun he => hfresh (he ▸ hk)⟩⟩

theorem front : q.front = q.order.head? := by
  unfold ReadyQueue.front
  cases ho : q.order with
  | nil => rfl
  | cons key order => exact find?_cons_of_pos ((h.contains key).mpr (ho ▸ mem_cons_self))

theorem push (hslot : ∀ k ∈ q.order, k.slot = key.slot → k = key) : (q.push key).1.Mirrors cap ∧
    ((q.push key).1.order, .pushed (q.push key).2) = callFifo cap q.order (.push key) := by
  have hb := h.bounded
  simp only [ReadyQueue.push, callFifo, h.contains, h.capacity]
  by_cases hold : key ∈ q.order
  · simp only [if_pos hold]
    exact ⟨h, trivial⟩
  · simp only [if_neg hold]
    by_cases hfull : cap ≤ q.order.length
    · simp only [if_pos hfull, if_pos (Nat.le_antisymm hb hfull)]
      exact ⟨h, trivial⟩
    · have hroom : q.order.length ≠ cap := fun he => hfull (Nat.le_of_eq he.symm)
      simp only [if_neg hfull, if_neg hroom]
      refine ⟨⟨rfl, ?_, fun k => ?_, by simp; omega⟩, trivial⟩
      · exact (perm_append_singleton key q.order).nodup_iff.mpr (nodup_cons.mpr ⟨hold, h.nodup⟩)
      · rw [contains_set (by simp; omega), mem_append, mem_singleton, ← h.contains]
        split
        · next hs =>
          refine ⟨fun he => .inr (Option.some.inj he).symm, ?_⟩
          rintro (hk | rfl)
          · rw [hslot k ((h.contains k).mp hk) hs]
          · rfl
        · next hs =>
          have hne : k ≠ key := fun he => hs (congrArg LeafKey.slot he)
          simp only [ReadyQueue.contains, decide_eq_true_eq, hne, or_false, getElem?_append]
          split
          · rfl
          · next hlt => simp [getElem?_eq_none (Nat.not_lt.mp hlt), getElem?_replicate]

end Mirrors

end ReadyQueue

namespace QueueRun

structure Inv (cap : Nat) (r : QueueRun) : Prop where
  mirrors : r.queue.Mirrors cap
  keys : r.queue.order = r.keys
  live : ∀ key ∈ r.keys, key ∈ r.live
  slots : ∀ a ∈ r.live, ∀ b ∈ r.live, a.slot = b.slot → a = b
  answers : r.answers = r.expected

variable {cap : Nat} {r r' : QueueRun}

theorem Inv.call (h : r.Inv cap) (hg : r.Allowed c) : (r.queue.call c).1.Mirrors cap ∧
    ((r.queue.call c).1.order, (r.queue.call c).2) = callFifo cap r.keys c := by
  rw [← h.keys]
  cases c with
  | addLeaf key => exact ⟨h.mirrors, rfl⟩
  | removeLeaf key | remove key =>
    obtain ⟨hm, ho⟩ := h.mirrors.remove key
    exact ⟨hm, Prod.ext ho rfl⟩
  | push key => exact h.mirrors.push fun k hk => h.slots k (h.live k (h.keys ▸ hk)) key hg
  | pop =>
    obtain ⟨hm, ho, ha⟩ := h.mirrors.pop
    exact ⟨hm, Prod.ext ho (congrArg QueueAnswer.key ha)⟩
  | front => exact ⟨h.mirrors, Prod.ext rfl (congrArg QueueAnswer.key h.mirrors.front)⟩

theorem Inv.step (h : r.Inv cap) (hg : r.Allowed c) (hs : r.step cap c = some r') :
    r'.Inv cap := by
  obtain ⟨hm, hc⟩ := h.call hg
  cases hs
  refine ⟨hm, congrArg Prod.fst hc, ?_, ?_, by simp [h.answers, ← hc]⟩
  · cases c with
    | addLeaf key => exact fun k hk => mem_cons_of_mem _ (h.live k hk)
    | removeLeaf key =>
      intro k hk
      obtain ⟨hk, hne⟩ := mem_filter.mp hk
      exact mem_filter.mpr ⟨h.live k hk, hne⟩
    | push key =>
      intro k hk
      simp only [callFifo] at hk
      repeat' split at hk
      · exact h.live k hk
      · exact h.live k hk
      · rcases mem_append.mp hk with hk | hk
        · exact h.live k hk
        · exact mem_singleton.mp hk ▸ hg
    | pop => exact fun k hk => h.live k (mem_of_mem_tail hk)
    | remove key => exact fun k hk => h.live k (mem_of_mem_filter hk)
    | front => exact h.live
  · cases c with
    | addLeaf key =>
      intro a ha b hb hs
      rcases mem_cons.mp ha with rfl | hold <;> rcases mem_cons.mp hb with rfl | hold'
      · rfl
      · exact (hg b hold' hs.symm).elim
      · exact (hg a hold hs).elim
      · exact h.slots a hold b hold' hs
    | removeLeaf key =>
      exact fun a ha b hb => h.slots a (mem_of_mem_filter ha) b (mem_of_mem_filter hb)
    | push | pop | remove | front => exact h.slots

/-- The queue answers as the list of the queued keys does. -/
theorem queue_is_fifo (h : Exec.Reachable (step cap) Allowed (start cap) r) :
    r.answers = r.expected ∧ r.keys.Nodup ∧ (∀ key, r.queue.contains key = true ↔ key ∈ r.keys) ∧
      r.queue.len = r.keys.length := by
  have hstart : (start cap).Inv cap := by
    refine ⟨⟨rfl, nodup_nil, fun key => ?_, Nat.zero_le _⟩, rfl, ?_, ?_, rfl⟩
    · simp [start, ReadyQueue.withCapacity, ReadyQueue.contains, getElem?_replicate]
    all_goals simp [start]
  have hinv := h.invariant (Inv cap) (fun _ _ _ hr hg hs => hr.step hg hs) hstart
  exact hinv.keys ▸ ⟨hinv.answers, hinv.mirrors.nodup, hinv.mirrors.contains, rfl⟩

/-- A leaf gives up its slot while it is queued behind another. -/
theorem queue_is_fifo_slot_reused : ∃ r, Exec.Reachable (step 2) Allowed (start 2) r ∧
    r.expected.getLast? = some (.key (some ⟨1, 0⟩)) ∧ r.answers = r.expected :=
  Exec.exists_reachable_and
    [.addLeaf ⟨0, 0⟩, .addLeaf ⟨1, 0⟩, .push ⟨0, 0⟩, .push ⟨1, 0⟩, .removeLeaf ⟨0, 0⟩,
      .addLeaf ⟨0, 1⟩, .push ⟨0, 1⟩, .push ⟨1, 0⟩, .pop]
        (by decide) fun _ hr _ => (queue_is_fifo hr).1

end QueueRun

end Restream.Egress
