import Restream.Exec
import Restream.PullFetch

/-! A pull: it fetches the playlists of a remote origin and the objects they list. What the
origin and everyone else on the network answers is free. -/

namespace Restream.Pull

open List Option Exec

abbrev Join := Url → String → Option Url

structure Encryption where
  method : String
  session : Bool
  deriving DecidableEq, Repr

/-- What the playlist parser reads in a body, with the URIs as they stand there. -/
inductive PlaylistBody where
  | malformed
  | media (segments maps : List String) (encryption : Option Encryption) (byteRange : Bool)
  | master (variants renditions : List String) (sessionKey : Option Encryption)
  deriving DecidableEq, Repr

inductive PullError where
  | fetch (error : FetchError)
  | unparsable
  | privateAddress (target : Url)
  | encrypted (encryption : Encryption)
  | byteRange
  deriving DecidableEq

inductive Prepared where
  | media (objects : List Url)
  | master (variants renditions : List Url)

def Prepared.urls : Prepared → List Url
  | media objects => objects
  | master variants renditions => variants ++ renditions

def resolve (join : Join) (base : Url) (uris : List String) (allowPrivate : Bool) :
    Except PullError (List Url) :=
  match uris.mapM (join base) with
  | none => .error .unparsable
  | some urls =>
    match urls.find? fun url => !allowPrivate && hostRefused url with
    | some target => .error (.privateAddress target)
    | none => .ok urls

def parseAndPrepare (join : Join) (base : Url) (body : PlaylistBody) (allowPrivate : Bool) :
    Except PullError Prepared :=
  match body with
  | .malformed => .error .unparsable
  | .media segments maps encryption byteRange =>
    match resolve join base (segments ++ maps) allowPrivate, encryption, byteRange with
    | .error e, _, _ => .error e
    | .ok _, some encryption, _ => .error (.encrypted encryption)
    | .ok _, none, true => .error .byteRange
    | .ok objects, none, false => .ok (.media objects)
  | .master variants renditions sessionKey =>
    match resolve join base (variants ++ renditions) allowPrivate, sessionKey with
    | .error e, _ => .error e
    | .ok _, some encryption => .error (.encrypted encryption)
    | .ok urls, none => .ok (.master (urls.take variants.length) (urls.drop variants.length))

/-- The source of a pull and its credential. `resolvesPrivate` is whether the name of the
source resolves into a refused range. -/
structure PullConfig where
  source : Url
  web : source.Web
  auth : RequestAuth
  resolvesPrivate : Bool

def PullConfig.allowPrivate (config : PullConfig) : Bool :=
  hostRefused config.source || config.resolvesPrivate

def PullConfig.client (config : PullConfig) : Client :=
  { authConfigured := config.auth.isConfigured, allowPrivate := config.allowPrivate }

/-- The pull with the URLs it will ask for: `nextUrl` is the source until a master has been
resolved, `variant` is chosen from a master and not fetched yet. -/
structure PullRun where
  scope : AuthScope
  nextUrl : Url
  variant : Option Url
  audio : Option Url
  objects : List Url
  exchanges : List Exchange

/-- What the pull does next, with the answers it gets. Which variant and which audio
rendition of a master it chooses, and when it gives up on a rendition, is left free; a pull
that stops takes no more steps. -/
inductive PullEvent where
  | fetchPlaylist (answers : List Answer) (body : PlaylistBody) (variant : Nat) (audio : Option Nat)
  | fetchVariant (answers : List Answer) (body : PlaylistBody)
  | fetchAudio (answers : List Answer) (body : PlaylistBody)
  | fetchObject (index : Nat) (answers : List Answer)
  | dropAudio
  | reResolve

namespace PullRun

def start (config : PullConfig) : PullRun :=
  { scope := .new config.source config.auth, nextUrl := config.source, variant := none, audio := none,
    objects := [], exchanges := [] }

def variantExpired : PullError → Bool
  | .fetch (.status code) => code = 401 || code = 403 || code = 404
  | _ => false

def sendTo (config : PullConfig) (r : PullRun) (url : Url) (answers : List Answer) :
    PullRun × Except FetchError Response :=
  let sent := config.client.send r.scope url answers
  ({ r with scope := sent.scope, exchanges := r.exchanges ++ sent.exchanges }, sent.result)

def fetch (join : Join) (config : PullConfig) (r : PullRun) (url : Url) (answers : List Answer)
    (body : PlaylistBody) : PullRun × Except PullError Prepared :=
  match r.sendTo config url answers with
  | (r, .error e) => (r, .error (.fetch e))
  | (r, .ok _) => (r, parseAndPrepare join url body config.allowPrivate)

def failed (config : PullConfig) (r : PullRun) (e : PullError) : PullRun :=
  if variantExpired e then { r with nextUrl := config.source } else r

def step (join : Join) (config : PullConfig) (r : PullRun) : PullEvent → Option PullRun
  | .fetchPlaylist answers body variant audio =>
    match r.fetch join config r.nextUrl answers body with
    | (r, .error e) => some (r.failed config e)
    | (r, .ok (.media objects)) => some { r with objects }
    | (r, .ok (.master variants renditions)) =>
      some { r with variant := variants[variant]?, audio := audio.bind (renditions[·]?) }
  | .fetchVariant answers body =>
    match r.variant with
    | none => none
    | some url =>
      match r.fetch join config url answers body with
      | (r, .ok (.media objects)) => some { r with nextUrl := url, variant := none, objects }
      | (r, _) => some { r with variant := none }
  | .fetchAudio answers body =>
    match r.audio with
    | none => none
    | some url =>
      match r.fetch join config url answers body with
      | (r, .error e) => some (r.failed config e)
      | (r, .ok (.media objects)) => some { r with objects := r.objects ++ objects }
      | (r, .ok (.master _ _)) => some r
  | .fetchObject index answers => r.objects[index]?.map fun url => (r.sendTo config url answers).1
  | .dropAudio => some { r with audio := none }
  | .reResolve => some { r with nextUrl := config.source }

structure Inv (config : PullConfig) (r : PullRun) : Prop where
  scope : r.scope.Of config.source config.client
  known : config.allowPrivate = false →
    ∀ url, url = r.nextUrl ∨ url ∈ r.variant ∨ url ∈ r.audio ∨
    url ∈ r.objects → hostRefused url = false
  exchanges : ∀ x ∈ r.exchanges, x.Confined config.source config.client

section Steps

variable {join : Join} {config : PullConfig} {r r' : PullRun} {base url : Url}

theorem hostRefused_source (h : config.allowPrivate = false) : hostRefused config.source = false := by
  simp only [PullConfig.allowPrivate, Bool.or_eq_false_iff] at h
  exact h.1

theorem inv_start : Inv config (start config) where
  scope := ⟨rfl, rfl⟩
  known hp url hurl := by
    simp only [start, mem_def, reduceCtorEq, not_mem_nil, or_false] at hurl
    exact hurl ▸ hostRefused_source hp
  exchanges _ hx := (not_mem_nil hx).elim

variable {allowPrivate : Bool} {urls : List Url}

theorem resolve_ok (h : resolve join base uris allowPrivate = .ok urls) (hp : allowPrivate = false) :
    ∀ url ∈ urls, hostRefused url = false := by
  unfold resolve at h
  split at h
  · cases h
  · split at h
    · cases h
    · next hf =>
      obtain rfl := Except.ok.inj h
      simpa [hp] using hf

theorem parseAndPrepare_ok (h : parseAndPrepare join base body allowPrivate = .ok prepared)
    (hp : allowPrivate = false) : ∀ url ∈ prepared.urls, hostRefused url = false := by
  unfold parseAndPrepare at h
  split at h
  · cases h
  · split at h
    · cases h
    · cases h
    · cases h
    · next hr =>
      obtain rfl := Except.ok.inj h
      exact resolve_ok hr hp
  · split at h
    · cases h
    · cases h
    · next hr =>
      obtain rfl := Except.ok.inj h
      simpa only [Prepared.urls, take_append_drop] using resolve_ok hr hp

section

variable (hinv : Inv config r)

include hinv

section
variable (hurl : config.allowPrivate = false → hostRefused url = false)
include hurl

theorem Inv.sendTo (ans : List Answer) : Inv config (r.sendTo config url ans).1 := by
  have hs : (config.client.send r.scope url ans).Confined config.source config.client :=
    (Client.confined_answerChallenges hurl (Client.confined_request hurl hinv.scope _)).checkStatus
  exact ⟨hs.scope, hinv.known, forall_mem_append.mpr ⟨hinv.exchanges, hs.exchanges⟩⟩

theorem Inv.fetch (hf : r.fetch join config url ans body = (r', res)) :
    Inv config r' ∧ ∀ prepared, res = .ok prepared → config.allowPrivate = false →
      ∀ url ∈ prepared.urls, hostRefused url = false := by
  have hs := hinv.sendTo hurl ans
  unfold PullRun.fetch at hf
  split at hf
  · next hse =>
    obtain ⟨rfl, rfl⟩ := Prod.mk.inj hf
    rw [hse] at hs
    exact ⟨hs, fun _ h => by cases h⟩
  · next hse =>
    obtain ⟨rfl, rfl⟩ := Prod.mk.inj hf
    rw [hse] at hs
    exact ⟨hs, fun _ hok => parseAndPrepare_ok hok⟩

end

theorem Inv.hold {nextUrl : Url} {variant audio : Option Url} {objects : List Url}
    (hk : config.allowPrivate = false → ∀ url ∈ urls, hostRefused url = false)
    (hh : ∀ url, url = nextUrl ∨ url ∈ variant ∨ url ∈ audio ∨
      url ∈ objects → url ∈ urls ∨ url = r.nextUrl ∨
      url ∈ r.variant ∨ url ∈ r.audio ∨ url ∈ r.objects) :
    Inv config { r with nextUrl, variant, audio, objects } where
  __ := hinv
  known hp url hurl := (hh url hurl).elim (hk hp url) (hinv.known hp url)

theorem Inv.forgetVariant : Inv config { r with variant := none } where
  __ := hinv
  known hp url hurl := by
    simp only [mem_def, reduceCtorEq, false_or] at hurl
    exact hinv.known hp url (hurl.imp_right .inr)

theorem Inv.back : Inv config { r with nextUrl := config.source } := by
  have hs : config.allowPrivate = false → ∀ url ∈ [config.source], hostRefused url = false :=
    fun hp => forall_mem_singleton.mpr (hostRefused_source hp)
  exact hinv.hold hs fun url hurl => hurl.imp mem_singleton.mpr .inr

theorem Inv.failed (e : PullError) : Inv config (r.failed config e) := by
  unfold PullRun.failed
  split
  · exact hinv.back
  · exact hinv

theorem step_inv (hs : r.step join config e = some r') : Inv config r' := by
  cases e with
  | fetchPlaylist ans body variant audio =>
    rcases hfetch : r.fetch join config r.nextUrl ans body with ⟨r₁, res⟩
    obtain ⟨hinv₁, hk⟩ := hinv.fetch (fun hp => hinv.known hp r.nextUrl (.inl rfl)) hfetch
    simp only [step, hfetch] at hs
    match res with
    | .error e =>
      cases hs
      exact hinv₁.failed e
    | .ok (.media objects) =>
      cases hs
      exact hinv₁.hold (hk _ rfl) fun url hurl => by tauto
    | .ok (.master variants renditions) =>
      cases hs
      refine hinv₁.hold (hk _ rfl) fun url hurl => ?_
      rcases hurl with hurl | hurl | hurl | hurl
      · exact .inr (.inl hurl)
      · exact .inl (mem_append_left _ (mem_of_getElem? hurl))
      · obtain ⟨i, -, hi⟩ := bind_eq_some_iff.mp hurl
        exact .inl (mem_append_right _ (mem_of_getElem? hi))
      · exact .inr (.inr (.inr (.inr hurl)))
  | fetchVariant ans body =>
    cases hv : r.variant with
    | none => simp [step, hv] at hs
    | some url =>
      have hurl (hp) := hinv.known hp url (.inr (.inl hv))
      rcases hfetch : r.fetch join config url ans body with ⟨r₁, res⟩
      obtain ⟨hinv₁, hk⟩ := hinv.fetch hurl hfetch
      simp only [step, hv, hfetch] at hs
      match res with
      | .error e => exact Option.some.inj hs ▸ hinv₁.forgetVariant
      | .ok (.master variants renditions) => exact Option.some.inj hs ▸ hinv₁.forgetVariant
      | .ok (.media objects) =>
        cases hs
        have hk' (hp) : ∀ u ∈ url :: objects, hostRefused u = false :=
          forall_mem_cons.mpr ⟨hurl hp, hk _ rfl hp⟩
        refine hinv₁.hold hk' fun u hu => ?_
        rw [mem_cons]
        tauto
  | fetchAudio ans body =>
    cases ha : r.audio with
    | none => simp [step, ha] at hs
    | some url =>
      have hurl (hp) := hinv.known hp url (.inr (.inr (.inl ha)))
      rcases hfetch : r.fetch join config url ans body with ⟨r₁, res⟩
      obtain ⟨hinv₁, hk⟩ := hinv.fetch hurl hfetch
      simp only [step, ha, hfetch] at hs
      match res with
      | .error e =>
        cases hs
        exact hinv₁.failed e
      | .ok (.master variants renditions) => exact Option.some.inj hs ▸ hinv₁
      | .ok (.media objects) =>
        cases hs
        refine hinv₁.hold (hk _ rfl) fun u hu => ?_
        rw [mem_append] at hu
        tauto
  | fetchObject ix ans =>
    obtain ⟨url, hurl, rfl⟩ := map_eq_some_iff.mp hs
    exact hinv.sendTo (fun hp => hinv.known hp url (.inr (.inr (.inr (mem_of_getElem? hurl))))) ans
  | dropAudio =>
    cases hs
    refine ⟨hinv.scope, fun hp url hurl => hinv.known hp url ?_, hinv.exchanges⟩
    simp only [mem_def, reduceCtorEq, false_or] at hurl
    exact hurl.imp_right (Or.imp_right .inr)
  | reResolve =>
    cases hs
    refine ⟨hinv.scope, fun hp url hurl => ?_, hinv.exchanges⟩
    rcases hurl with rfl | hurl
    · exact hostRefused_source hp
    · exact hinv.known hp url (.inr hurl)

end

end Steps

/-- Every request that a pull makes and every redirect it follows: a credential goes to the
origin of the source only, no redirect leads from https to http, at most ten are followed
in a row, and a pull that may not reach private addresses asks no host that is one. -/
theorem credential_confined {join : Join} {config : PullConfig} {r : PullRun}
    (h : Reachable (step join config) anyLabel (start config) r)
    {x : Exchange} (hx : x ∈ r.exchanges) :
    (x.credential.isSome → ∀ url ∈ x.urls, Origin.of url = Origin.of config.source) ∧
      x.urls.IsChain (fun url next => ¬(url.scheme = "https" ∧ next.scheme = "http")) ∧
      x.followed.length ≤ maxRedirects ∧
      (config.allowPrivate = false → ∀ url ∈ x.urls, hostRefused url = false) := by
  have hinv : Inv config r :=
    h.invariant (Inv config) (fun _ _ _ hinv _ hstep => step_inv hinv hstep) inv_start
  have hconfined := hinv.exchanges x hx
  exact ⟨hconfined.credential, hconfined.noDowngrade, hconfined.bounded, hconfined.allowed⟩

def secureUrl (host path : String) : Url :=
  { scheme := "https", host := some (.domain host.toList),
    port := none, path, hosted := fun _ => rfl }

def cdnPull : PullConfig :=
  { source := secureUrl "cdn" "/live.m3u8", web := .inr rfl,
    auth := .basic "user" "secret", resolvesPrivate := false }

def challenged : Answer :=
  { redirects := [], response := some { status := 401, challenge := .ok { nonce := "n", stale := false } } }

def redirected (target : Url) : Answer :=
  { redirects := [target], response := some { status := 200, challenge := .error .notDigest } }

def cdnExchanges : List Exchange :=
  [{ url := cdnPull.source, credential := some (.basic "user" "secret"), followed := [] },
    { url := cdnPull.source
      credential := some (.digest { nonce := "n", stale := false } "user" "secret" "/live.m3u8" 1)
      followed := [secureUrl "cdn" "/edge/live.m3u8"] },
    { url := secureUrl "ads" "/s0.ts", credential := none, followed := [] }]

/-- The origin asks for a Digest answer and redirects inside itself; the segment is on
another host and gets no credential, nor does its redirect get a request. -/
theorem credential_confined_digest :
    ∃ r : PullRun,
      Reachable (step (fun _ uri => some (secureUrl uri "/s0.ts")) cdnPull) anyLabel
        (start cdnPull) r ∧
      r.exchanges = cdnExchanges ∧
      ∀ x ∈ r.exchanges, x.credential.isSome →
        ∀ url ∈ x.urls, Origin.of url = Origin.of cdnPull.source :=
  exists_reachable_and
    [.fetchPlaylist [challenged, redirected (secureUrl "cdn" "/edge/live.m3u8")]
        (.media ["ads"] [] none false) 0 none,
      .fetchObject 0 [redirected (secureUrl "cdn" "/s0.ts")]] (by decide +kernel)
    fun _ hr _ _ hx => (credential_confined hr hx).1

end PullRun

end Restream.Pull
