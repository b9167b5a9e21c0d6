import Mathlib.Algebra.GroupWithZero.Nat
import Mathlib.Data.List.Basic
import Mathlib.Data.List.Chain

/-! The requests of a pull: the credential each carries, the redirects it follows, and the
origins and hosts that both can lead to. -/

namespace Restream.Pull

open List Option

structure Ipv4Addr where
  a : UInt8
  b : UInt8
  c : UInt8
  d : UInt8
  deriving DecidableEq, Repr

structure Ipv6Addr where
  octets : List UInt8
  size : octets.length = 16
  deriving DecidableEq, Repr

def ipv4Refused (address : Ipv4Addr) : Bool :=
  address.a = 0 || address.a = 10 || address.a = 127 || (address.a = 169 && address.b = 254) ||
    (address.a = 172 && 16 ≤ address.b && address.b ≤ 31) || (address.a = 192 && address.b = 168) ||
    (address.a = 100 && 64 ≤ address.b && address.b ≤ 127)

def embeddedIpv4 (address : Ipv6Addr) : Option Ipv4Addr :=
  match address.octets with
  | [0, 0, 0, 0, 0, 0, 0, 0, 0, 0, 0xff, 0xff, a, b, c, d] => some ⟨a, b, c, d⟩
  | [0, 0x64, 0xff, 0x9b, 0, 0, 0, 0, 0, 0, 0, 0, a, b, c, d] => some ⟨a, b, c, d⟩
  | _ => none

def ipv6Refused (address : Ipv6Addr) : Bool :=
  match embeddedIpv4 address with
  | some embedded => ipv4Refused embedded
  | none =>
    match address.octets with
    | first :: second :: _ =>
      address.octets = List.replicate 15 0 ++ [1] || address.octets = List.replicate 16 0 ||
        (first = 0xfe && second &&& 0xc0 = 0x80) || first &&& 0xfe = 0xfc
    | _ => false

def lower (name : List Char) : List Char := name.map Char.toLower

def stripDot (name : List Char) : List Char :=
  if name.getLast? = some '.' then name.dropLast else name

def lastLabel (name : List Char) : Option (List Char) :=
  if '.' ∈ name then some (name.reverse.takeWhile (· ≠ '.')).reverse else none

def localhost : List Char := "localhost".toList

def localhostName (name : List Char) : Bool :=
  lower (stripDot name) = localhost || (lastLabel (stripDot name)).any (lower · = localhost)

inductive Host where
  | domain (name : List Char)
  | ipv4 (address : Ipv4Addr)
  | ipv6 (address : Ipv6Addr)
  deriving DecidableEq, Repr

def Host.refused : Host → Bool
  | domain name => localhostName name
  | ipv4 address => ipv4Refused address
  | ipv6 address => ipv6Refused address

def Host.toAsciiLowercase : Host → Host
  | domain name => domain (lower name)
  | ipv4 address => ipv4 address
  | ipv6 address => ipv6 address

/-- A URL without its query and fragment. One of a web scheme has a host. -/
structure Url where
  scheme : String
  host : Option Host
  port : Option UInt16
  path : String
  hosted : scheme = "http" ∨ scheme = "https" → host.isSome
  deriving DecidableEq

namespace Url

def Web (url : Url) : Prop := url.scheme = "http" ∨ url.scheme = "https"

instance (url : Url) : Decidable url.Web := inferInstanceAs (Decidable (_ ∨ _))

def knownDefaultPort (scheme : String) : Option UInt16 :=
  if scheme = "http" ∨ scheme = "ws" then some 80
  else if scheme = "https" ∨ scheme = "wss" then some 443
  else if scheme = "ftp" then some 21
  else none

def portOrKnownDefault (url : Url) : Option UInt16 := url.port.or (knownDefaultPort url.scheme)

end Url

def hostRefused (url : Url) : Bool := url.host.any Host.refused

structure Origin where
  scheme : String
  host : Host
  port : UInt16
  deriving DecidableEq

def Origin.of (url : Url) : Option Origin :=
  url.host.bind fun host =>
    url.portOrKnownDefault.map fun port => { scheme := url.scheme, host := host.toAsciiLowercase, port }

section Case

theorem toLower_eq_dot : c.toLower = '.' ↔ c = '.' := by
  unfold Char.toLower
  split
  · next h =>
    constructor
    · intro heq
      have hval := congrArg UInt32.toNat (congrArg Char.val heq)
      simp only [UInt32.le_iff_toNat_le, Char.reduceVal] at h
      simp at h hval
      omega
    · rintro rfl
      revert h
      decide
  · rfl

theorem stripDot_lower : stripDot (lower name) = lower (stripDot name) := by
  have hl : (lower name).getLast? = some '.' ↔ name.getLast? = some '.' := by
    rw [lower, getLast?_map]
    cases name.getLast? with
    | none => simp
    | some c => simp [toLower_eq_dot]
  unfold stripDot
  by_cases h : name.getLast? = some '.'
  · rw [if_pos h, if_pos (hl.mpr h)]
    exact map_dropLast.symm
  · rw [if_neg h, if_neg (fun hdot => h (hl.mp hdot))]

theorem lastLabel_lower : lastLabel (lower name) = (lastLabel name).map lower := by
  have hdot : '.' ∈ lower name ↔ '.' ∈ name := by simp [lower, toLower_eq_dot]
  have hs : ((fun c => decide (c ≠ '.')) ∘ Char.toLower) = fun c => decide (c ≠ '.') := by
    funext c
    simp [toLower_eq_dot]
  unfold lastLabel
  by_cases h : '.' ∈ name
  · rw [if_pos h, if_pos (hdot.mpr h), map_some, lower, ← map_reverse, takeWhile_map, hs,
      lower, map_reverse]
  · rw [if_neg h, if_neg (fun hl => h (hdot.mp hl)), map_none]

theorem localhostName_iff_lower : localhostName name ↔ stripDot (lower name) = localhost ∨
    lastLabel (stripDot (lower name)) = some localhost := by
  rw [stripDot_lower, lastLabel_lower, localhostName, Bool.or_eq_true]
  cases lastLabel (stripDot name) <;> simp

end Case

theorem Host.refused_eq_of_lowercase {h k : Host} (hl : h.toAsciiLowercase = k.toAsciiLowercase) :
    h.refused = k.refused := by
  cases h <;> cases k <;> simp only [toAsciiLowercase, domain.injEq, reduceCtorEq] at hl
  case domain.domain name other =>
    rw [refused, refused, Bool.eq_iff_iff, localhostName_iff_lower, localhostName_iff_lower, hl]
  all_goals rw [hl]

theorem Url.Web.exists_origin (h : url.Web) : ∃ host port, url.host = some host ∧
      Origin.of url = some { scheme := url.scheme, host := host.toAsciiLowercase, port } := by
  obtain ⟨host, hh⟩ := isSome_iff_exists.mp (url.hosted h)
  have hp : url.portOrKnownDefault.isSome := by
    rcases h with h | h <;> simp [portOrKnownDefault, knownDefaultPort, h]
  obtain ⟨port, hp⟩ := isSome_iff_exists.mp hp
  exact ⟨host, port, hh, by rw [Origin.of, hh, hp]; rfl⟩

theorem hostRefused_eq_of_origin (h : url.Web) (hs : Origin.of url = Origin.of other) :
    hostRefused url = hostRefused other := by
  obtain ⟨host, port, hh, ho⟩ := h.exists_origin
  rw [ho] at hs
  obtain ⟨host', hh', port', -, heq⟩ := by
    simpa only [Origin.of, bind_eq_some_iff, map_eq_some_iff] using hs.symm
  have hl : host'.toAsciiLowercase = host.toAsciiLowercase := congrArg Origin.host heq
  simp only [hostRefused, hh, hh', any_some]
  exact Host.refused_eq_of_lowercase hl.symm

open Origin

def maxRedirects : Nat := 10

inductive RequestAuth where
  | none
  | bearer (token : String)
  | cookies (cookies : String)
  | basic (username password : String)
  | headers (headers : List (String × String))
  deriving DecidableEq, Repr

structure Challenge where
  nonce : String
  stale : Bool
  deriving DecidableEq, Repr

inductive Credential where
  | bearer (token : String)
  | cookies (cookies : String)
  | basic (username password : String)
  | headers (headers : List (String × String))
  | digest (challenge : Challenge) (username password uri : String) (uses : Nat)
  deriving DecidableEq, Repr

def RequestAuth.isConfigured (auth : RequestAuth) : Bool := auth ≠ none

def RequestAuth.apply : RequestAuth → Option Credential
  | none => .none
  | bearer token => some (.bearer token)
  | cookies text => some (.cookies text)
  | basic username password => some (.basic username password)
  | headers pairs => some (.headers pairs)

inductive Refusal where
  | notDigest
  | unsupported (reason : String)
  deriving DecidableEq, Repr

inductive FetchError where
  | request
  | auth (reason : String)
  | status (code : Nat)
  deriving DecidableEq, Repr

/-- The credential of a pull, the one origin it belongs to, and the origin's last Digest
challenge with the number of requests that used its nonce. -/
structure AuthScope where
  origin : Option Origin
  auth : RequestAuth
  digest : Option (Challenge × Nat)
  deriving DecidableEq

namespace AuthScope

def new (source : Url) (auth : RequestAuth) : AuthScope :=
  { origin := of source, auth, digest := none }

def inOrigin (scope : AuthScope) (url : Url) : Bool :=
  match scope.origin, of url with
  | some origin, some target => origin = target
  | _, _ => false

def apply (scope : AuthScope) (url : Url) : AuthScope × Option Credential :=
  if scope.inOrigin url then
    match scope.auth, scope.digest with
    | .basic username password, some (challenge, uses) =>
      let uses := min (uses + 1) (2 ^ 32 - 1)
      ({ scope with digest := some (challenge, uses) },
        some (.digest challenge username password url.path uses))
    | auth, _ => (scope, auth.apply)
  else (scope, none)

def learnChallenge (scope : AuthScope) (url : Url) (answer : Except Refusal Challenge) :
    Except FetchError (AuthScope × Bool) :=
  match scope.auth with
  | .basic username _ =>
    if scope.inOrigin url then
      match answer with
      | .error .notDigest => .ok (scope, false)
      | .error (.unsupported reason) => .error (.auth reason)
      | .ok challenge =>
        if username.toUTF8.toList.any fun byte => byte < 0x20 || 0x7e < byte then
          .error (.auth
            "a Digest username outside visible ASCII needs RFC 7616 username*, which is not supported")
        else .ok ({ scope with digest := some (challenge, 0) },
          scope.digest.isNone || challenge.stale)
    else .ok (scope, false)
  | _ => .ok (scope, false)

end AuthScope

def redirectRefusal (previous next : Url) (authConfigured allowPrivate : Bool) : Option String :=
  if previous.scheme = "https" ∧ next.scheme = "http" then some "redirect would take the pull to http"
  else if of previous = of next then none
  else if authConfigured then some "redirect would carry credentials to another origin"
  else if !allowPrivate && hostRefused next then some "redirect points at a private address"
  else none

structure Client where
  authConfigured : Bool
  allowPrivate : Bool

namespace Client

def follows (client : Client) (previous : List Url) (next : Url) : Bool :=
  !(previous.length > maxRedirects || previous.getLast?.any fun last =>
    (redirectRefusal last next client.authConfigured client.allowPrivate).isSome)

/-- The URLs a request is redirected to. The chain ends at the first answer whose target
is not followed or is not one the client can send a request to. -/
def redirects (client : Client) : (previous targets : List Url) → List Url
  | _, [] => []
  | previous, next :: targets =>
    if client.follows previous next ∧ next.Web then next :: client.redirects
      (previous ++ [next]) targets
    else []

end Client

/-- One request and the redirects it followed; its headers stay the same along them. -/
structure Exchange where
  url : Url
  credential : Option Credential
  followed : List Url
  deriving DecidableEq

def Exchange.urls (x : Exchange) : List Url := x.url :: x.followed

structure Response where
  status : Nat
  challenge : Except Refusal Challenge

structure Answer where
  redirects : List Url
  response : Option Response

def Answer.silence : Answer := { redirects := [], response := none }

structure Sent where
  scope : AuthScope
  exchanges : List Exchange
  result : Except FetchError Response

def Sent.checkStatus (sent : Sent) : Sent :=
  match sent.result with
  | .error _ => sent
  | .ok response =>
    if 200 ≤ response.status ∧ response.status < 300 then sent
    else { sent with result := .error (.status response.status) }

namespace Client

def exchange (client : Client) (scope : AuthScope) (url : Url) (answer : Answer) : Exchange :=
  { url, credential := (scope.apply url).2, followed := client.redirects [url] answer.redirects }

def request (client : Client) (scope : AuthScope) (url : Url) (answer : Answer) : Sent :=
  { scope := (scope.apply url).1
    exchanges := if url.Web then [client.exchange scope url answer] else []
    result := if url.Web then answer.response.elim (.error .request) .ok else .error .request }

def answerChallenges (client : Client) (url : Url) : (rounds : Nat) → Sent → List Answer → Sent
  | 0, sent, _ => sent
  | rounds + 1, sent, answers =>
    match sent.result with
    | .error _ => sent
    | .ok response =>
      if response.status = 401 then
        match sent.scope.learnChallenge url response.challenge with
        | .error e => { sent with result := .error e }
        | .ok (scope, false) => { sent with scope }
        | .ok (scope, true) =>
          let again := client.request scope url (answers.headD .silence)
          client.answerChallenges url rounds
            { again with exchanges := sent.exchanges ++ again.exchanges }
            answers.tail
      else sent

def send (client : Client) (scope : AuthScope) (url : Url) (answers : List Answer) : Sent :=
  (client.answerChallenges url 2
    (client.request scope url (answers.headD .silence)) answers.tail).checkStatus

end Client

section Redirects

variable {cl : Client} {prev targets : List Url} {url next : Url}

theorem Client.follows_iff : cl.follows prev next ↔ prev.length ≤ maxRedirects ∧
    ∀ last ∈ prev.getLast?, redirectRefusal last next cl.authConfigured cl.allowPrivate = none := by
  cases hl : prev.getLast? <;> simp [follows, hl]

def Client.Hop (client : Client) (url next : Url) : Prop :=
  redirectRefusal url next client.authConfigured client.allowPrivate = none ∧ next.Web

theorem Client.isChain_redirects (hl : prev.getLast? = some url) :
    (url :: cl.redirects prev targets).IsChain cl.Hop := by
  induction targets generalizing prev url with
  | nil => exact isChain_singleton _
  | cons next targets ih =>
    rw [redirects]
    split
    · next h =>
      have hhop := (follows_iff.mp h.1).2 url hl
      exact .cons_cons ⟨hhop, h.2⟩ (ih getLast?_concat)
    · exact isChain_singleton _

theorem Client.length_redirects :
    (cl.redirects prev targets).length ≤ maxRedirects + 1 - prev.length := by
  induction targets generalizing prev with
  | nil => exact Nat.zero_le _
  | cons next targets ih =>
    rw [redirects]
    split
    · next h =>
      have hs := (follows_iff.mp h.1).1
      have hr := @ih (prev ++ [next])
      rw [length_append, length_singleton] at hr
      rw [length_cons]
      omega
    · exact Nat.zero_le _

theorem Client.Hop.no_downgrade (h : cl.Hop url next) :
    ¬(url.scheme = "https" ∧ next.scheme = "http") := by
  intro hd
  have hr := h.1
  rw [redirectRefusal, if_pos hd] at hr
  cases hr

theorem Client.Hop.same_or_open (h : cl.Hop url next) : of url = of next ∨
      (cl.authConfigured = false ∧ (cl.allowPrivate = false → hostRefused next = false)) := by
  by_cases hs : of url = of next
  · exact .inl hs
  · have ho := h.1
    rw [redirectRefusal, if_neg h.no_downgrade, if_neg hs] at ho
    cases ha : cl.authConfigured <;> cases hp : cl.allowPrivate <;>
      cases hh : hostRefused next <;> simp [ha, hp, hh] at ho ⊢

end Redirects

open AuthScope

structure Exchange.Confined (source : Url) (client : Client) (x : Exchange) : Prop where
  credential : x.credential.isSome → ∀ url ∈ x.urls, of url = of source
  noDowngrade : x.urls.IsChain fun url next => ¬(url.scheme = "https" ∧ next.scheme = "http")
  bounded : x.followed.length ≤ maxRedirects
  allowed : client.allowPrivate = false → ∀ url ∈ x.urls, hostRefused url = false

section Requests

variable {src url : Url} {cl : Client} {scope : AuthScope}

structure AuthScope.Of (source : Url) (client : Client) (scope : AuthScope) : Prop where
  origin : scope.origin = of source
  configured : client.authConfigured = scope.auth.isConfigured

theorem AuthScope.inOrigin_iff : scope.inOrigin url ↔ scope.origin.isSome ∧
    of url = scope.origin := by
  unfold inOrigin
  cases scope.origin <;> cases of url <;> simp [eq_comm]

theorem AuthScope.apply_keeps : (scope.apply url).1.origin = scope.origin ∧ (scope.apply url).1.auth =
    scope.auth := by
  unfold apply
  split
  · split <;> exact ⟨rfl, rfl⟩
  · exact ⟨rfl, rfl⟩

theorem AuthScope.learnChallenge_keeps (h : scope.learnChallenge url answer = .ok (scope', again)) :
    scope'.origin = scope.origin ∧ scope'.auth = scope.auth := by
  unfold learnChallenge at h
  repeat' split at h
  all_goals first
    | cases h; exact ⟨rfl, rfl⟩
    | cases h

theorem AuthScope.of_apply_isSome (h : (scope.apply url).2.isSome) :
    of url = scope.origin ∧ scope.auth.isConfigured := by
  by_cases hin : scope.inOrigin url
  · refine ⟨(inOrigin_iff.mp hin).2, ?_⟩
    rw [RequestAuth.isConfigured, decide_eq_true_iff]
    intro hn
    rw [apply, if_pos hin, hn] at h
    cases h
  · rw [apply, if_neg hin] at h
    cases h

theorem confined_exchange (hsc : scope.Of src cl) (hweb : url.Web)
    (hurl : cl.allowPrivate = false → hostRefused url = false) (answer : Answer) :
    (cl.exchange scope url answer).Confined src cl := by
  have hch : (url :: cl.redirects [url] answer.redirects).IsChain cl.Hop :=
    Client.isChain_redirects rfl
  refine ⟨fun hso => ?_, hch.imp fun _ _ hhop => hhop.no_downgrade,
    Client.length_redirects, fun hp => ?_⟩
  · obtain ⟨hor, hc⟩ := of_apply_isSome hso
    rw [← hsc.configured] at hc
    refine hch.induction (fun u => of u = of src) _ ?_ (fun _ => hor.trans hsc.origin)
    intro u v hhop hu
    rcases hhop.same_or_open with hs | ⟨ho, -⟩
    · exact hs.symm.trans hu
    · rw [hc] at ho
      cases ho
  · have hall :=
      hch.induction (fun u => u.Web ∧ hostRefused u = false) _ ?_ (fun _ => ⟨hweb, hurl hp⟩)
    · exact fun u hu => (hall u hu).2
    · rintro u v hhop ⟨huw, hu⟩
      refine ⟨hhop.2, ?_⟩
      rcases hhop.same_or_open with hs | ⟨-, ho⟩
      · exact (hostRefused_eq_of_origin huw hs).symm.trans hu
      · exact ho hp

theorem AuthScope.Of.keeps {scope' : AuthScope} (h : scope.Of src cl)
    (hk : scope'.origin = scope.origin ∧ scope'.auth = scope.auth) : scope'.Of src cl :=
  ⟨hk.1.trans h.origin, by rw [hk.2]; exact h.configured⟩

structure Sent.Confined (source : Url) (client : Client) (sent : Sent) : Prop where
  scope : sent.scope.Of source client
  exchanges : ∀ x ∈ sent.exchanges, x.Confined source client

theorem Sent.Confined.checkStatus {sent : Sent} (h : sent.Confined src cl) :
    sent.checkStatus.Confined src cl := by
  unfold Sent.checkStatus
  split
  · exact h
  · split
    · exact h
    · exact ⟨h.scope, h.exchanges⟩

section Send

variable (hurl : cl.allowPrivate = false → hostRefused url = false)

include hurl

theorem Client.confined_request (hs : scope.Of src cl) (answer : Answer) :
    (cl.request scope url answer).Confined src cl := by
  refine ⟨hs.keeps apply_keeps, fun x hx => ?_⟩
  simp only [request] at hx
  split at hx
  · next hweb =>
    obtain rfl := mem_singleton.mp hx
    exact confined_exchange hs hweb hurl answer
  · exact (not_mem_nil hx).elim

theorem Client.confined_answerChallenges (hs : sent.Confined src cl) :
    (cl.answerChallenges url rounds sent ans).Confined src cl := by
  induction rounds generalizing sent ans with
  | zero => exact hs
  | succ rounds ih =>
    rw [answerChallenges]
    split
    · exact hs
    · split
      · split
        · exact ⟨hs.scope, hs.exchanges⟩
        · next hl => exact ⟨hs.scope.keeps (learnChallenge_keeps hl), hs.exchanges⟩
        · next hl =>
          have hsc := hs.scope.keeps (learnChallenge_keeps hl)
          have ha := confined_request hurl hsc (ans.headD .silence)
          exact ih ⟨ha.scope, forall_mem_append.mpr ⟨hs.exchanges, ha.exchanges⟩⟩
      · exact hs

end Send

end Requests

end Restream.Pull
