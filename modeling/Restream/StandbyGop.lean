import Mathlib.Algebra.Order.BigOperators.Group.List
import Mathlib.Algebra.Order.Group.Nat
import Restream.MediaPacket
import Restream.Exec

/-! The packets an input on standby keeps since its last video keyframe, to be
replayed when it is promoted, over every run of its calls. -/

namespace Restream

open List

def payloadLength (packets : List MediaPacket) : Nat :=
  (packets.map fun p => p.payload.length).sum

structure StandbyGopCache where
  packets : List MediaPacket
  payloadBytes : Nat
  maxPayloadBytes : Nat
  maxPackets : Nat
  deriving DecidableEq, Repr

namespace StandbyGopCache

def new (maxPayloadBytes maxPackets : Nat) : StandbyGopCache :=
  { packets := [], payloadBytes := 0, maxPayloadBytes := maxPayloadBytes, maxPackets := maxPackets }

def defaultCache : StandbyGopCache := new (16 * 1024 * 1024) 2048

def clear (c : StandbyGopCache) : StandbyGopCache := { c with packets := [], payloadBytes := 0 }

def store (c : StandbyGopCache) (packet : MediaPacket) : StandbyGopCache :=
  let nextBytes := min (c.payloadBytes + packet.payload.length) (2 ^ 64 - 1)
  if c.maxPayloadBytes < nextBytes ∨ c.maxPackets ≤ c.packets.length then c.clear
  else { c with packets := c.packets ++ [packet], payloadBytes := nextBytes }

def push (c : StandbyGopCache) (packet : MediaPacket) : StandbyGopCache :=
  if packet.isVideoKeyframe then c.clear.store packet
  else if c.packets.isEmpty then c
  else c.store packet

def isReplayReady (c : StandbyGopCache) : Bool := c.packets.head?.any MediaPacket.isVideoKeyframe

def takeReplay (c : StandbyGopCache) : StandbyGopCache × List MediaPacket :=
  if c.isReplayReady then (c.clear, c.packets) else (c, [])

def retain (c : StandbyGopCache) (keep : MediaPacket → Bool) : StandbyGopCache :=
  let kept := { c with packets := c.packets.filter keep, payloadBytes := payloadLength (c.packets.filter keep) }
  if kept.isReplayReady then kept else kept.clear

theorem store_sublist (c : StandbyGopCache) (p : MediaPacket) :
    (c.store p).packets.Sublist (c.packets ++ [p]) := by
  unfold store
  simp only
  split
  · exact nil_sublist _
  · exact List.Sublist.refl _

theorem push_sublist (c : StandbyGopCache) (p : MediaPacket) :
    (c.push p).packets.Sublist (c.packets ++ [p])
    := by
  unfold push
  split
  · have hs := c.clear.store_sublist p
    exact hs.trans (sublist_append_right _ _)
  · split
    · exact sublist_append_left _ _
    · exact c.store_sublist p

theorem foldl_push_sublist (pkts : List MediaPacket) (c : StandbyGopCache) :
    (pkts.foldl push c).packets.Sublist (c.packets ++ pkts) := by
  induction pkts generalizing c with
  | nil => simp
  | cons p ps ih =>
    have hr := (ih (c.push p)).trans ((c.push_sublist p).append_right ps)
    simpa using hr

theorem retain_sublist (c : StandbyGopCache) (keep : MediaPacket → Bool) :
    (c.retain keep).packets.Sublist c.packets := by
  unfold retain
  simp only
  split
  · exact filter_sublist
  · exact nil_sublist _

theorem takeReplay_ready {c : StandbyGopCache} (h : c.isReplayReady = true) :
    c.takeReplay.1.packets = [] ∧ c.takeReplay.2 = c.packets ∧
      ∃ first rest, c.packets = first :: rest ∧ first.isVideoKeyframe = true := by
  refine ⟨by simp [takeReplay, h, clear], by simp [takeReplay, h], ?_⟩
  cases hp : c.packets with
  | nil => simp [isReplayReady, hp] at h
  | cons first rest => exact ⟨first, rest, rfl, by simpa [isReplayReady, hp] using h⟩

end StandbyGopCache

/-- A standby cache with the packets pushed since the last video keyframe, and whether
every later `retain` kept them. -/
structure StandbyRun where
  cache : StandbyGopCache
  pushed : List (MediaPacket × Bool)

open StandbyGopCache StandbyRun

inductive StandbyEvent where
  | push (packet : MediaPacket)
  | takeReplay
  | retain (keep : MediaPacket → Bool)
  | clear

namespace StandbyRun

def start (maxPayloadBytes maxPackets : Nat) : StandbyRun :=
  { cache := .new maxPayloadBytes maxPackets, pushed := [] }

def step (r : StandbyRun) : StandbyEvent → StandbyRun
  | .push packet =>
    { cache := r.cache.push packet
      pushed := (if packet.isVideoKeyframe then [] else r.pushed) ++ [(packet, true)] }
  | .takeReplay => { r with cache := r.cache.takeReplay.1 }
  | .retain keep =>
    { cache := r.cache.retain keep, pushed := r.pushed.map fun x => (x.1, x.2 && keep x.1) }
  | .clear => { r with cache := r.cache.clear }

/-- The byte count does not saturate below its limit. -/
def Counts (r : StandbyRun) : StandbyEvent → Prop
  | .push packet =>
    r.cache.maxPayloadBytes < 2 ^ 64 - 1 ∨ r.cache.payloadBytes + packet.payload.length < 2 ^ 64
  | _ => True

/-- The cached packets of a group are those since its keyframe that were kept. -/
def Group (pushed : List (MediaPacket × Bool)) (cached : List MediaPacket) : Prop :=
  ∃ first rest, pushed = (first, true) :: rest ∧ first.isVideoKeyframe = true ∧
    (∀ x ∈ rest, x.1.isVideoKeyframe = false) ∧ cached = first :: (rest.filter Prod.snd).map Prod.fst

structure Sound (maxPayloadBytes maxPackets : Nat) (r : StandbyRun) : Prop where
  kept : r.cache.packets = [] ∨ Group r.pushed r.cache.packets
  bytes : r.cache.payloadBytes = payloadLength r.cache.packets
  limits : r.cache.maxPayloadBytes = maxPayloadBytes ∧ r.cache.maxPackets = maxPackets
  bytes_le : payloadLength r.cache.packets ≤ maxPayloadBytes
  length_le : r.cache.packets.length ≤ maxPackets

variable {r : StandbyRun} {maxBytes maxCount : Nat} {pushed : List (MediaPacket × Bool)}
  {p : MediaPacket}

section
variable (h : r.Sound maxBytes maxCount)
include h

theorem Sound.cleared (pushed : List (MediaPacket × Bool)) :
    Sound maxBytes maxCount { cache := r.cache.clear, pushed := pushed } :=
  ⟨.inl rfl, rfl, h.limits, Nat.zero_le _, Nat.zero_le _⟩

theorem Sound.stored (hc : r.Counts (.push p)) (hk : Group pushed (r.cache.packets ++ [p])) :
    Sound maxBytes maxCount { cache := r.cache.store p, pushed := pushed } := by
  obtain ⟨hb, hm⟩ := h.limits
  unfold store
  dsimp only
  split
  · exact h.cleared pushed
  · have hl : payloadLength (r.cache.packets ++ [p]) = r.cache.payloadBytes + p.payload.length := by
      simp [payloadLength, h.bytes]
    simp only [Counts] at hc
    refine ⟨.inr hk, ?_, ⟨hb, hm⟩, ?_, ?_⟩
    · change min _ _ = payloadLength (_ ++ _)
      omega
    · change payloadLength (_ ++ _) ≤ _
      omega
    · rw [length_append, length_singleton]
      omega

theorem Sound.push (hc : r.Counts (.push p)) : (r.step (.push p)).Sound maxBytes maxCount := by
  simp only [step, StandbyGopCache.push]
  cases hp : p.isVideoKeyframe with
  | true =>
    have hc' : Counts { cache := r.cache.clear, pushed := [] } (.push p) :=
      hc.imp_right fun h => by simp only [StandbyGopCache.clear]; omega
    exact (h.cleared []).stored hc' ⟨p, [], rfl, hp, by simp, rfl⟩
  | false =>
    simp only [Bool.false_eq_true, if_false]
    rcases h.kept with hnil | ⟨first, rest, hpu, hf, hr, hpk⟩
    · rw [if_pos (by simp [hnil])]
      exact ⟨.inl hnil, h.bytes, h.limits, h.bytes_le, h.length_le⟩
    · rw [if_neg (by simp [hpk])]
      refine h.stored hc ⟨first,
        rest ++ [(p, true)], by simp [hpu], hf, fun x hx => ?_, by simp [hpk]⟩
      rcases mem_append.mp hx with hx | hx
      · exact hr x hx
      · rw [mem_singleton.mp hx]
        exact hp

theorem Sound.retain (keep : MediaPacket → Bool) :
    (r.step (.retain keep)).Sound maxBytes maxCount := by
  simp only [step, StandbyGopCache.retain]
  split
  · next hready =>
    have hsub : (r.cache.packets.filter keep).Sublist r.cache.packets := filter_sublist
    have hle : payloadLength (r.cache.packets.filter keep) ≤ _ := (hsub.map _).sum_le_sum (by simp)
    refine ⟨?_, rfl, h.limits, hle.trans h.bytes_le, hsub.length_le.trans h.length_le⟩
    rcases h.kept with hnil | ⟨first, rest, hpu, hf, hr, hpk⟩
    · exact .inl (by simp [hnil])
    · cases hk : keep first with
      | true =>
        refine .inr ⟨first,
          rest.map fun x => (x.1, x.2 && keep x.1), by simp [hpu, hk], hf, fun x hx => ?_, ?_⟩
        · obtain ⟨y, hy, rfl⟩ := mem_map.mp hx
          exact hr y hy
        · simp [hpk, hk, filter_map, Function.comp_def, Bool.and_comm]
      | false =>
        obtain ⟨q, hq, hqk⟩ := (Option.any_eq_true _ _).mp hready
        have hmem := mem_of_mem_head? hq
        rw [hpk, filter_cons_of_neg (by simp [hk])] at hmem
        obtain ⟨x, hx, rfl⟩ := mem_map.mp (mem_of_mem_filter hmem)
        exact absurd hqk (by simp [hr x (mem_of_mem_filter hx)])
  · exact h.cleared _

end

theorem Sound.step (h : r.Sound maxBytes maxCount) (hc : r.Counts event) :
    (r.step event).Sound maxBytes maxCount := by
  cases event with
  | push p => exact h.push hc
  | takeReplay =>
    simp only [StandbyRun.step, StandbyGopCache.takeReplay]
    split
    · exact h.cleared _
    · exact h
  | retain keep => exact h.retain keep
  | clear => exact h.cleared _

/-- The cache holds the packets since the last video keyframe or nothing, within its limits,
and what is empty stays so until the next video keyframe. -/
theorem standby_cache_sound
    (h : Exec.Reachable (fun r e => some (step r e)) Counts (start maxBytes maxCount) r) :
    r.Sound maxBytes maxCount ∧ ∀ event, r.cache.packets = [] →
      (∀ p, event = .push p → p.isVideoKeyframe = false) → (r.step event).cache.packets = [] := by
  refine ⟨h.invariant _ (fun _ _ _ hi hc hs => Option.some.inj hs ▸ hi.step hc)
    ⟨.inl rfl, rfl, ⟨rfl, rfl⟩, Nat.zero_le _, Nat.zero_le _⟩, fun event hnil hp => ?_⟩
  cases event with
  | push p => simp [step, push, hp p rfl, hnil]
  | takeReplay => simp [step, takeReplay, isReplayReady, hnil]
  | retain =>
    simp [step, retain, isReplayReady, clear, hnil]
  | clear => rfl

/-- `retain` drops the audio packet, and the next picture joins what is left. -/
theorem standby_cache_sound_retained : ∃ r : StandbyRun, r.Sound 1000 8 ∧
    r.pushed.map Prod.snd = [true, false, true] ∧
    r.cache.packets = [.raw .video true 0, .raw .video false 40] := by
  let keep (p : MediaPacket) : Bool := p.mediaType = .video
  refine ⟨(((step (start 1000 8) (.push (.raw .video true 0))).step
    (.push (.raw .audio false 10))).step
    (.retain keep)).step (.push (.raw .video false 40)), ?_, by decide, by decide⟩
  exact (standby_cache_sound (.tail (.tail (.tail (.single ⟨.push _, Or.inl (by decide), rfl⟩)
    ⟨.push _, Or.inl (by decide), rfl⟩) ⟨.retain _, trivial, rfl⟩)
    ⟨.push _, Or.inl (by decide), rfl⟩)).1

end StandbyRun

end Restream
