import Fizzpy.Client.Client

/-!
# Requests and their redirects

`Client.request`: one `_perform` for each hop of a chain of redirects. What becomes of each hop, a
response or an exception, is given as a list; `AsyncClient.request` is the same. `urllib.parse` is
the parameter `urls`.
-/

namespace Fizzpy

/-- What `parse_url` reads of `urlsplit(url)`. Reading the port may raise. -/
structure SplitUrl where
  scheme : Str
  hostname : Option Str
  port : Except Str (Option ℕ)
  path : Str
  query : Str

/-- `urlsplit` and `urljoin`, with the text of the `ValueError` that they may raise. -/
structure Urls where
  split : Str → Except Str SplitUrl
  join : Str → Str → Except Str Str

/-- The `ValueError` of a URL. -/
inductive UrlExn
  /-- `fizzpy only supports https:// URLs, got {scheme!r}` -/
  | notHttps (scheme : Str)
  /-- `no host in URL: {url!r}` -/
  | noHost (url : Str)
  /-- Of `urllib.parse`. -/
  | malformed (text : Str)
  deriving DecidableEq

structure Target where
  host : Str
  port : ℕ
  path : Str
  deriving DecidableEq

namespace Target

def key (t : Target) : Key := (t.host, t.port)

end Target

/-- An empty hostname counts as none, a port 0 as none. -/
def parseUrl (urls : Urls) (url : Str) : Except UrlExn Target := do
  let parts ← (urls.split url).mapError .malformed
  if parts.scheme ≠ str "https" then throw (.notHttps parts.scheme)
  let host := parts.hostname.getD []
  if host = [] then throw (.noHost url)
  let path := if parts.path = [] then str "/" else parts.path
  let path := if parts.query = [] then path else path ++ str "?" ++ parts.query
  let port ← parts.port.mapError .malformed
  pure ⟨host, if port.getD 0 = 0 then 443 else port.getD 0, path⟩

def redirectCodes : List ℕ := [301, 302, 303, 307, 308]

/-- The next method and URL. -/
def nextRedirect (urls : Urls) (method url : Str) (statusCode : ℕ) (location : Option Str) :
    Except UrlExn (Option (Str × Str)) := do
  if statusCode ∉ redirectCodes ∨ location.getD [] = [] then return none
  let target ← (urls.join url (location.getD [])).mapError .malformed
  let method := upper method
  if (statusCode = 303 ∧ method ≠ str "HEAD") ∨
      ((statusCode = 301 ∨ statusCode = 302) ∧ method = str "POST") then
    return some (str "GET", target)
  return some (method, target)

def bodyHeaders : List Str := [str "content-length", str "content-type", str "transfer-encoding"]

def stripBodyHeaders (headers : List (Str × Str)) : List (Str × Str) :=
  headers.filter fun p => lower p.1 ∉ bodyHeaders

/-- What `request` raises. -/
inductive RequestError
  | url (e : UrlExn)
  /-- The `UnicodeEncodeError` of `build_request`. -/
  | encode
  | exchange (e : RequestExn)
  /-- `TooManyRedirects`. -/
  | tooManyRedirects (text : Str)
  deriving DecidableEq

/-- One `_perform`: what it is asked for, and the bytes it sends to the target. -/
structure Hop where
  method : Str
  target : Target
  headers : List (Str × Str)
  body : Option Bytes
  raw : Bytes
  raw_eq : buildRequest method target.path target.host headers body = some raw

def Hop.job (hop : Hop) : Job := ⟨hop.target.key, hop.raw⟩

/-- `_perform`, up to its exchange. -/
def perform (urls : Urls) (method url : Str) (headers : List (Str × Str)) (body : Option Bytes) :
    Except RequestError Hop := do
  let target ← (parseUrl urls url).mapError .url
  match h : buildRequest method target.path target.host headers body with
  | some raw => pure ⟨method, target, headers, body, raw, h⟩
  | none => throw .encode

theorem perform_error (urls : Urls) {method url : Str} {headers : List (Str × Str)}
    {body : Option Bytes} {e : UrlExn} (h : parseUrl urls url = .error e) :
    perform urls method url headers body = .error (.url e) := by
  unfold perform
  rw [h]
  rfl

theorem perform_encode (urls : Urls) {method url : Str} {headers : List (Str × Str)}
    {body : Option Bytes} {target : Target} (h : parseUrl urls url = .ok target)
    (hb : buildRequest method target.path target.host headers body = none) :
    perform urls method url headers body = .error .encode := by
  unfold perform
  rw [h]
  show (match _ : buildRequest method target.path target.host headers body with
    | some raw => _ | none => _ : Except RequestError Hop) = _
  split
  · rename_i raw hraw
    rw [hb] at hraw
    cases hraw
  · rfl

theorem perform_ok (urls : Urls) {method url : Str} {headers : List (Str × Str)}
    {body : Option Bytes} {target : Target} {raw : Bytes} (h : parseUrl urls url = .ok target)
    (hb : buildRequest method target.path target.host headers body = some raw) :
    perform urls method url headers body = .ok ⟨method, target, headers, body, raw, hb⟩ := by
  unfold perform
  rw [h]
  show (match _ : buildRequest method target.path target.host headers body with
    | some raw => _ | none => _ : Except RequestError Hop) = _
  split
  · rename_i raw' hraw
    obtain rfl : raw' = raw := Option.some.inj (hraw.symm.trans hb)
    rfl
  · rename_i hraw
    rw [hb] at hraw
    cases hraw

/-- What a `_perform` can come to. -/
theorem perform_cases (urls : Urls) (method url : Str) (headers : List (Str × Str))
    (body : Option Bytes) :
    (∃ e, parseUrl urls url = .error e ∧
      perform urls method url headers body = .error (.url e)) ∨
    (∃ target, parseUrl urls url = .ok target ∧
      buildRequest method target.path target.host headers body = none ∧
      perform urls method url headers body = .error .encode) ∨
    ∃ target raw hb, parseUrl urls url = .ok target ∧
      perform urls method url headers body = .ok ⟨method, target, headers, body, raw, hb⟩ := by
  cases h : parseUrl urls url with
  | error e => exact .inl ⟨e, rfl, perform_error urls h⟩
  | ok target =>
    cases hb : buildRequest method target.path target.host headers body with
    | none => exact .inr (.inl ⟨target, rfl, hb, perform_encode urls h hb⟩)
    | some raw => exact .inr (.inr ⟨target, raw, hb, rfl, perform_ok urls h hb⟩)

theorem perform_asked {urls : Urls} {method url : Str} {headers : List (Str × Str)}
    {body : Option Bytes} {hop : Hop} (h : perform urls method url headers body = .ok hop) :
    hop.method = method ∧ hop.headers = headers ∧ hop.body = body := by
  obtain ⟨e, -, he⟩ | ⟨target, -, -, he⟩ | ⟨target, raw, hb, -, he⟩ :=
    perform_cases urls method url headers body
  · rw [he] at h; cases h
  · rw [he] at h; cases h
  · rw [he] at h; cases h; exact ⟨rfl, rfl, rfl⟩

theorem perform_headers {urls : Urls} {method url : Str} {headers : List (Str × Str)}
    {body : Option Bytes} {hop : Hop} (h : perform urls method url headers body = .ok hop) :
    hop.headers = headers := (perform_asked h).2.1

/-- What comes of a request: the response with its URL, an exception, or an exchange that goes on. -/
inductive Ended
  | returned (response : Response) (url : Str)
  | raised (e : RequestError)
  | exchanging
  deriving DecidableEq

/-- What `request` keeps for the next hop. -/
structure Ask where
  method : Str
  url : Str
  headers : List (Str × Str)
  body : Option Bytes

/-- A change of the method drops the body and its headers. -/
def Ask.redirect (ask : Ask) (method url : Str) : Ask :=
  if method ≠ ask.method then ⟨method, url, stripBodyHeaders ask.headers, none⟩
  else { ask with url }

/-- `self._follow_redirects` and `self._max_redirects`. -/
structure RedirectPolicy where
  follow : Bool := true
  max : ℤ := 10

/-- What follows the response to a hop: the end, or the next one. -/
def RedirectPolicy.next (policy : RedirectPolicy) (urls : Urls) (seen : ℕ) (ask : Ask)
    (r : Response) : Ended ⊕ Ask :=
  match if policy.follow then
    nextRedirect urls ask.method ask.url r.statusCode (r.headers.get (str "Location")) else .ok none with
  | .error e => .inl (.raised (.url e))
  | .ok none => .inl (.returned r ask.url)
  | .ok (some (method, url)) =>
    if policy.max ≤ seen then .inl (.raised (.tooManyRedirects (str "exceeded " ++
      str (toString policy.max) ++ str " redirects (last: " ++ ask.url ++ str ")")))
    else .inr (ask.redirect method url)

theorem RedirectPolicy.next_inr {policy : RedirectPolicy} {urls : Urls} {seen : ℕ} {ask next : Ask}
    {r : Response} (h : policy.next urls seen ask r = .inr next) :
    ∃ method url, next = ask.redirect method url := by
  unfold RedirectPolicy.next at h
  split at h
  · cases h
  · cases h
  · split_ifs at h
    cases h
    exact ⟨_, _, rfl⟩

/-- The loop of `request`: the hops, and the end. -/
def hops (urls : Urls) (policy : RedirectPolicy) :
    ℕ → Ask → List (Except RequestExn Response) → List Hop × Ended
  | seen, ask, replies =>
    match perform urls ask.method ask.url ask.headers ask.body with
    | .error e => ([], .raised e)
    | .ok hop =>
      match replies with
      | [] => ([hop], .exchanging)
      | .error e :: _ => ([hop], .raised (.exchange e))
      | .ok r :: replies =>
        match policy.next urls seen ask r with
        | .inl ended => ([hop], ended)
        | .inr ask =>
          let rest := hops urls policy (seen + 1) ask replies
          (hop :: rest.1, rest.2)

theorem hops_nil (urls : Urls) (policy : RedirectPolicy) {seen : ℕ} {ask : Ask} {hop : Hop}
    (h : hop ∈ (hops urls policy seen ask []).1) : hop.headers = ask.headers := by
  unfold hops at h
  cases hh : perform urls ask.method ask.url ask.headers ask.body with
  | error e => rw [hh] at h; cases h
  | ok first =>
    rw [hh] at h
    rw [List.mem_singleton.mp h, perform_headers hh]

/-- A hop is the first one, or one of those behind the redirect that the first reply is. -/
theorem hops_cons (urls : Urls) (policy : RedirectPolicy) {seen : ℕ} {ask : Ask}
    {reply : Except RequestExn Response} {replies : List (Except RequestExn Response)} {hop : Hop}
    (h : hop ∈ (hops urls policy seen ask (reply :: replies)).1) :
    hop.headers = ask.headers ∨ ∃ r next, reply = .ok r ∧
      policy.next urls seen ask r = .inr next ∧
      hop ∈ (hops urls policy (seen + 1) next replies).1 := by
  unfold hops at h
  cases hh : perform urls ask.method ask.url ask.headers ask.body with
  | error e => rw [hh] at h; cases h
  | ok first =>
    rw [hh] at h
    have hfirst : hop ∈ [first] → hop.headers = ask.headers := fun hmem => by
      rw [List.mem_singleton.mp hmem, perform_headers hh]
    cases reply with
    | error e => exact .inl (hfirst h)
    | ok r =>
      dsimp only at h
      cases hn : policy.next urls seen ask r with
      | inl ended => rw [hn] at h; exact .inl (hfirst h)
      | inr next =>
        rw [hn] at h
        obtain rfl | h := List.mem_cons.mp h
        · exact .inl (hfirst List.mem_cons_self)
        · exact .inr ⟨r, next, rfl, hn, h⟩

def request (urls : Urls) (policy : RedirectPolicy) (method url : Str)
    (headers : List (Str × Str)) (body : Option Bytes) (replies : List (Except RequestExn Response)) :
    List Hop × Ended :=
  hops urls policy 0 ⟨upper method, url, headers, body⟩ replies

end Fizzpy
