import Mathlib.Data.List.AList
import Mathlib.Data.List.Sort
import Mathlib.Data.Prod.Lex

/-! The rate limiter of ingest authentication: failures and bans for each scope
and address, in a table of bounded size. -/

namespace Restream.IngestSecurity

inductive RateLimitScope where
  | dashboardLogin
  | rtmpPublish
  | srtPublish
  | srtRead
  | hlsPublish
  | moqPublish
  deriving DecidableEq

def RateLimitScope.key : RateLimitScope → String
  | dashboardLogin => "dashboard-login"
  | rtmpPublish => "rtmp-publish"
  | srtPublish => "srt-publish"
  | srtRead => "srt-read"
  | hlsPublish => "hls-publish"
  | moqPublish => "moq-publish"

def RateLimitScope.exemptsLoopback : RateLimitScope → Bool
  | dashboardLogin => false
  | _ => true

structure IngestSecurityConfig where
  failureLimit : Int
  failureWindowMs : Int
  banMs : Int
  trackedIpLimit : Int

def IngestSecurityConfig.normalize (c : IngestSecurityConfig) : IngestSecurityConfig :=
  { failureLimit := max c.failureLimit 1
    failureWindowMs := max c.failureWindowMs 1
    banMs := max c.banMs 1
    trackedIpLimit := max c.trackedIpLimit 1 }

structure FailureRecord where
  failures : List Nat
  bannedUntil : Option Nat
  deriving DecidableEq

abbrev FailureTable := AList fun _ : String => FailureRecord

def FailureTable.retain (keep : String → FailureRecord → Bool) (t : FailureTable) : FailureTable where
  entries := t.entries.filter fun entry => keep entry.1 entry.2
  nodupKeys := t.nodupKeys.sublist List.filter_sublist

namespace FailureRecord

def empty : FailureRecord := { failures := [], bannedUntil := none }

def bannedAt (r : FailureRecord) (now : Nat) : Bool := r.bannedUntil.any (now < ·)

/-- Eviction takes the lowest rank first: records without a ban in force, and
among those the one whose last failure is the oldest. -/
def rank (r : FailureRecord) (now : Nat) : Bool ×ₗ Nat :=
  toLex (r.bannedAt now, r.failures.max?.getD now)

end FailureRecord

def evictOldestIfNeeded (t : FailureTable) (limit now : Nat) : FailureTable :=
  if t.entries.length ≤ limit then t
  else
    let t := t.retain fun _ r => r.bannedAt now || !r.failures.isEmpty
    if limit < t.entries.length then
      let entries := t.entries.insertionSort fun a b => a.2.rank now ≤ b.2.rank now
      let keysToRemove := (entries.take (t.entries.length - limit)).map Sigma.fst
      t.retain fun key _ => !keysToRemove.contains key
    else t

structure IngestSecurityService where
  config : IngestSecurityConfig
  state : FailureTable

namespace IngestSecurityService

def new (config : IngestSecurityConfig) : IngestSecurityService :=
  { config := config.normalize, state := ∅ }

def scopedKey (scope : RateLimitScope) (ip : String) : String :=
  scope.key ++ "\x00" ++ ip

def isExempt (isLoopbackIp : String → Bool) (scope : RateLimitScope) (ip : String) : Bool :=
  scope.exemptsLoopback && isLoopbackIp ip

section

variable (isLoopbackIp : String → Bool)

def isIpBannedFor (s : IngestSecurityService) (scope : RateLimitScope) (ip : String) (now : Nat) :
    Option Nat :=
  if isExempt isLoopbackIp scope ip then none
  else
    match s.state.lookup (scopedKey scope ip) with
    | none => none
    | some record =>
      match record.bannedUntil with
      | none => none
      | some til => if now < til then some (til - now) else none

def note (config : IngestSecurityConfig) (record : FailureRecord) (now : Nat) : FailureRecord :=
  let failures := (record.failures ++ [now]).filter (now - · < config.failureWindowMs.toNat)
  { failures := failures
    bannedUntil :=
      if config.failureLimit.toNat ≤ failures.length then some (now + config.banMs.toNat)
      else record.bannedUntil }

def recordFailureFor (s : IngestSecurityService) (scope : RateLimitScope) (ip : String)
    (now evictedAt : Nat) : IngestSecurityService × Bool :=
  if isExempt isLoopbackIp scope ip then (s, false)
  else
    let limit := (max s.config.trackedIpLimit 1).toNat
    let state := evictOldestIfNeeded s.state (limit - 1) evictedAt
    let key := scopedKey scope ip
    let record := note s.config ((state.lookup key).getD .empty) now
    ({ s with state := state.insert key record },
      s.config.failureLimit.toNat ≤ record.failures.length)

def recordSuccessFor (s : IngestSecurityService) (scope : RateLimitScope) (ip : String) :
    IngestSecurityService :=
  if isExempt isLoopbackIp scope ip then s
  else { s with state := s.state.erase (scopedKey scope ip) }

end

end IngestSecurityService

end Restream.IngestSecurity
