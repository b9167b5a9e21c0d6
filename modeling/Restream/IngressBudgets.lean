import Mathlib.Algebra.GroupWithZero.Nat
import Mathlib.Data.List.Perm.Basic
import Restream.Exec

/-! The budgets of the RTMP ingress: bytes held by all parsers together, and
connections of one client. Guards that are dropped give back what they took. -/

namespace Restream

open List Function Exec

theorem perm_cons_eraseIdx {l : List α} {x : α} (h : l[i]? = some x) :
    l.Perm (x :: l.eraseIdx i) := by
  obtain ⟨hi, rfl⟩ := List.getElem?_eq_some_iff.mp h
  exact (getElem_cons_eraseIdx_perm hi).symm

structure ParserBudget where
  held : Nat
  limit : Nat

namespace ParserBudget

/-- A charge of `charged` bytes becomes one of `bytes`, and whether that is within the limit. -/
def update (b : ParserBudget) (charged bytes : Nat) : ParserBudget × Bool :=
  let held := min (b.held - charged + bytes) (2 ^ 64 - 1)
  ({ b with held := held }, held ≤ b.limit)

def releaseTo (b : ParserBudget) (charged bytes : Nat) : ParserBudget :=
  { b with held := min (b.held - charged + min bytes charged) (2 ^ 64 - 1) }

def dropCharge (b : ParserBudget) (charged : Nat) : ParserBudget :=
  { b with held := b.held - charged }

end ParserBudget

/-- The budget with the bytes of each live charge, the last one changed first. -/
structure ParserRun where
  budget : ParserBudget
  charges : List Nat

inductive ParserEvent where
  | charge
  | update (i bytes : Nat)
  | releaseTo (i bytes : Nat)
  | drop (i : Nat)

namespace ParserRun

def start (limit : Nat) : ParserRun := { budget := { held := 0, limit := limit }, charges := [] }

def step (r : ParserRun) : ParserEvent → Option ParserRun
  | .charge => some { r with charges := 0 :: r.charges }
  | .update i bytes => r.charges[i]?.map fun charged =>
    { budget := (r.budget.update charged bytes).1, charges := bytes :: r.charges.eraseIdx i }
  | .releaseTo i bytes => r.charges[i]?.map fun charged =>
    { budget := r.budget.releaseTo charged bytes,
      charges := min bytes charged :: r.charges.eraseIdx i }
  | .drop i => r.charges[i]?.map fun charged =>
    { budget := r.budget.dropCharge charged, charges := r.charges.eraseIdx i }

def Fits (r : ParserRun) : ParserEvent → Prop
  | .update i bytes => bytes + (r.charges.eraseIdx i).sum < 2 ^ 64
  | _ => True

structure Balanced (limit : Nat) (r : ParserRun) : Prop where
  held : r.budget.held = r.charges.sum
  fits : r.charges.sum < 2 ^ 64
  limit : r.budget.limit = limit

theorem Balanced.step {r r' : ParserRun} {limit : Nat} (h : r.Balanced limit) (hf : r.Fits event)
    (hs : r.step event = some r') : r'.Balanced limit := by
  have hlt := h.fits
  cases event with
  | charge =>
    cases hs
    exact ⟨by simpa using h.held, by simpa using hlt, h.limit⟩
  | update i bytes | releaseTo i bytes | drop i =>
    obtain ⟨charged, hc, rfl⟩ := Option.map_eq_some_iff.mp hs
    have hsum := (perm_cons_eraseIdx hc).sum_nat
    simp only [Fits] at hf
    refine ⟨?_, ?_, h.limit⟩ <;>
      simp only [ParserBudget.update, ParserBudget.releaseTo,
        ParserBudget.dropCharge, h.held, sum_cons] at * <;>
      omega

end ParserRun

inductive IpAddr where
  | v4 (address : BitVec 32)
  | v6 (address : BitVec 128)

def toIpv4Mapped (address : BitVec 128) : Option (BitVec 32) :=
  if address.extractLsb' 32 96 = 0xffff then some (address.extractLsb' 0 32) else none

inductive ClientKey where
  | v4 (address : BitVec 32)
  | v6Prefix64 (head : BitVec 64)
  deriving DecidableEq

def ClientKey.of : IpAddr → ClientKey
  | .v4 address => .v4 address
  | .v6 address =>
    match toIpv4Mapped address with
    | some address => .v4 address
    | none => .v6Prefix64 (address.extractLsb' 64 64)

structure ClientSlots where
  perClient : Nat
  held : ClientKey → Option Nat

namespace ClientSlots

def new (perClient : Nat) : ClientSlots := { perClient := max perClient 1, held := fun _ => none }

def tryAcquire (s : ClientSlots) (ip : IpAddr) : ClientSlots × Option ClientKey :=
  let key := ClientKey.of ip
  let count := (s.held key).getD 0
  if s.perClient ≤ count then ({ s with held := update s.held key (some count) }, none)
  else ({ s with held := update s.held key (some (count + 1)) }, some key)

def dropSlot (s : ClientSlots) (key : ClientKey) : ClientSlots :=
  match s.held key with
  | none => s
  | some count =>
    { s with held := update s.held key (if count - 1 = 0 then none else some (count - 1)) }

end ClientSlots

/-- Two addresses are one IPv4 address, mapped or not, or in one IPv6 /64. -/
def SameClient : IpAddr → IpAddr → Prop
  | .v4 a, .v4 b => a = b
  | .v4 a, .v6 b | .v6 b, .v4 a => toIpv4Mapped b = some a
  | .v6 a, .v6 b => toIpv4Mapped a = toIpv4Mapped b ∧
    (toIpv4Mapped a = none → a.extractLsb' 64 64 = b.extractLsb' 64 64)

open ClientKey

theorem ClientKey.of_eq_of_iff (a b : IpAddr) : of a = of b ↔ SameClient a b := by
  cases a with
  | v4 a =>
    cases b with
    | v4 b => simp [of, SameClient]
    | v6 b => cases hb : toIpv4Mapped b <;> simp [of, SameClient, hb, eq_comm]
  | v6 a =>
    cases b with
    | v4 b => cases ha : toIpv4Mapped a <;> simp [of, SameClient, ha]
    | v6 b =>
      cases ha : toIpv4Mapped a <;> cases hb : toIpv4Mapped b <;> simp [of, SameClient, ha, hb]

instance (a b : IpAddr) : Decidable (SameClient a b) :=
  decidable_of_iff _ (ClientKey.of_eq_of_iff a b)

/-- The slots with the address of each live one. -/
structure SlotRun where
  slots : ClientSlots
  live : List IpAddr

inductive SlotEvent where
  | tryAcquire (ip : IpAddr)
  | drop (i : Nat)

namespace SlotRun

def start (perClient : Nat) : SlotRun := { slots := .new perClient, live := [] }

def step (r : SlotRun) : SlotEvent → Option SlotRun
  | .tryAcquire ip =>
    match r.slots.tryAcquire ip with
    | (slots, none) => some { r with slots := slots }
    | (slots, some _) => some { slots := slots, live := ip :: r.live }
  | .drop i => r.live[i]?.map fun ip =>
    { slots := r.slots.dropSlot (ClientKey.of ip), live := r.live.eraseIdx i }

def count (r : SlotRun) (key : ClientKey) : Nat := r.live.countP (ClientKey.of · = key)

structure Counted (perClient : Nat) (r : SlotRun) : Prop where
  limit : r.slots.perClient = perClient
  held : ∀ key, r.slots.held key = if r.count key = 0 then none else some (r.count key)
  le : ∀ key, r.count key ≤ perClient
  pos : 0 < perClient

variable {r r' : SlotRun} {ip : IpAddr} {perClient : Nat}

variable (h : r.Counted perClient)
include h

theorem Counted.tryAcquire_eq : r.slots.tryAcquire ip =
    if perClient ≤ r.count (.of ip) then (r.slots, none)
    else (⟨perClient, update r.slots.held (.of ip) (some (r.count (.of ip) + 1))⟩,
      some (.of ip)) := by
  have hg : (r.slots.held (.of ip)).getD 0 = r.count (.of ip) := by
    rw [h.held]
    split <;> simp [*]
  simp only [ClientSlots.tryAcquire, hg, h.limit]
  split
  · next hle =>
    have hp := h.pos
    rw [update_eq_iff.mpr ⟨by rw [h.held, if_neg (by omega)], fun _ _ => rfl⟩, ← h.limit]
  · rfl

theorem Counted.recount (hp : r'.slots.perClient = perClient)
    (hh : r'.slots.held =
      update r.slots.held key (if r'.count key = 0 then none else some (r'.count key)))
    (hk : r'.count key ≤ perClient) (ho : ∀ k, k ≠ key → r'.count k = r.count k) :
    r'.Counted perClient := by
  refine ⟨hp, fun k => ?_, fun k => ?_, h.pos⟩ <;> by_cases he : k = key
  · rw [hh, he, update_self]
  · rw [hh, update_of_ne he, h.held, ho k he]
  · rw [he]
    exact hk
  · rw [ho k he]
    exact h.le k

theorem Counted.step (hs : r.step event = some r') : r'.Counted perClient := by
  cases event with
  | tryAcquire ip =>
    rw [SlotRun.step, h.tryAcquire_eq] at hs
    by_cases hle : perClient ≤ r.count (.of ip)
    · rw [if_pos hle] at hs
      cases hs
      exact h
    · rw [if_neg hle] at hs
      cases hs
      have hc (s : ClientSlots) : count ⟨s, ip :: r.live⟩ (.of ip) = r.count (.of ip) + 1 :=
        countP_cons_of_pos (by simp)
      refine h.recount rfl (by rw [hc]; rfl) (by rw [hc]; omega) fun k hk => countP_cons_of_neg ?_
      simpa using Ne.symm hk
  | drop i =>
    obtain ⟨ip, hi, rfl⟩ := Option.map_eq_some_iff.mp hs
    have hp (key) : r.count key = _ := (perm_cons_eraseIdx hi).countP_eq (of · = key)
    have hc := hp (.of ip)
    rw [countP_cons_of_pos (by simp)] at hc
    have hd : r.slots.dropSlot (.of ip) = ⟨perClient, update r.slots.held (.of ip)
        (if r.count (.of ip) - 1 = 0 then none else some (r.count (.of ip) - 1))⟩ := by
      rw [ClientSlots.dropSlot, h.held, if_neg (by omega), ← h.limit]
    have hle := h.le (.of ip)
    rw [hd]
    rw [hc] at hle ⊢
    refine h.recount rfl rfl (Nat.le_of_succ_le hle) fun k hk => ?_
    rw [hp, countP_cons_of_neg (by simpa using Ne.symm hk)]
    rfl

end SlotRun

/-- The parsers' budget is the sum of the live charges, and a client has no more live
slots than its share. -/
theorem ingress_budgets_balance (limit perClient : Nat) :
    (∀ r, Reachable ParserRun.step ParserRun.Fits (.start limit) r →
      r.budget.held = r.charges.sum ∧
      (r.charges = [] → r.budget.held = 0) ∧
      ∀ charged bytes, (r.budget.update charged bytes).2 = true →
        (r.budget.update charged bytes).1.held ≤ limit) ∧
    ∀ r, Reachable SlotRun.step anyLabel (.start perClient) r →
      r.Counted (max perClient 1) ∧
      ∀ ip, (r.slots.tryAcquire ip).2 = none ↔ r.live.countP (SameClient · ip) = max perClient 1 := by
  refine ⟨fun r hr => ?_, fun r hr => ?_⟩
  · have hb : r.Balanced limit :=
      hr.invariant _ (fun _ _ _ hi hf hs => hi.step hf hs) ⟨rfl, by simp [ParserRun.start], rfl⟩
    refine ⟨hb.held, fun hnil => by rw [hb.held, hnil]; rfl, fun charged bytes hok => ?_⟩
    rw [← hb.limit]
    simpa [ParserBudget.update] using hok
  · have hc : r.Counted (max perClient 1) := hr.invariant _ (fun _ _ _ hi _ hs => hi.step hs)
      ⟨rfl, fun _ => rfl, fun _ => Nat.zero_le _,
        Nat.lt_of_lt_of_le Nat.one_pos (Nat.le_max_right ..)⟩
    refine ⟨hc, fun ip => ?_⟩
    have he : r.live.countP (SameClient · ip) = r.count (.of ip) := by
      simp only [SlotRun.count, ClientKey.of_eq_of_iff]
    have hle := hc.le (.of ip)
    rw [hc.tryAcquire_eq]
    split
    · exact ⟨fun _ => by omega, fun _ => rfl⟩
    · exact ⟨fun h => absurd h (by simp), fun h => by omega⟩

/-- Two charges of which one is dropped, and a client that holds its two slots under an
address and its mapped form and is refused a third. -/
theorem ingress_budgets_balance_run :
    (∃ r, Reachable ParserRun.step ParserRun.Fits (.start 100) r ∧ r.charges = [30] ∧
      r.budget.held = r.charges.sum) ∧
    ∃ r, Reachable SlotRun.step anyLabel (.start 2) r ∧
      r.live = [.v6 0xffff00000001, .v4 1] ∧ (r.slots.tryAcquire (.v4 1)).2 = none := by
  obtain ⟨hparser, hslots⟩ := ingress_budgets_balance 100 2
  have hcharged : Reachable ParserRun.step ParserRun.Fits (.start 100) ⟨⟨30, 100⟩, [30]⟩ :=
    .tail (.tail (.tail (.tail (.single ⟨.charge, trivial, rfl⟩)
      ⟨.update 0 50, (by decide : 50 + [].sum < 2 ^ 64), rfl⟩) ⟨.charge, trivial, rfl⟩)
      ⟨.update 0 30, (by decide : 30 + [50].sum < 2 ^ 64), rfl⟩) ⟨.drop 1, trivial, rfl⟩
  refine ⟨⟨_, hcharged, rfl, (hparser _ hcharged).1⟩, ?_⟩
  refine exists_reachable_and [.tryAcquire (.v4 1), .tryAcquire (.v6 0xffff00000001)]
    ⟨_, rfl, rfl⟩ fun r hr hlive => ((hslots r hr).2 (.v4 1)).mpr ?_
  rw [hlive]
  decide

end Restream
