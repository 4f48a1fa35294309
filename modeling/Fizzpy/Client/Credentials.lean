import Fizzpy.Client.Redirect

/-!
# Credentials across redirects

`request` does not know credentials: `strip_body_headers` filters by the names of the body's fields
alone. `request_credentials` says what two requests have in common that differ in the values of their
credentials: everything else.
-/

namespace Fizzpy

def credentialNames : List Str := [str "authorization", str "cookie"]

def IsCredential (p : Str × Str) : Prop := lower p.1 ∈ credentialNames

instance (p : Str × Str) : Decidable (IsCredential p) :=
  inferInstanceAs (Decidable (lower p.1 ∈ credentialNames))

def credentials (headers : List (Str × Str)) : List (Str × Str) :=
  headers.filter fun p => IsCredential p

/-- The fields are the same, except for the values of credentials. -/
def SameButCredentials (headers headers' : List (Str × Str)) : Prop :=
  List.Forall₂ (fun p q => p.1 = q.1 ∧ (¬ IsCredential p → p.2 = q.2)) headers headers'

structure SameHop (hop hop' : Hop) : Prop where
  method : hop.method = hop'.method
  target : hop.target = hop'.target
  body : hop.body = hop'.body
  headers : SameButCredentials hop.headers hop'.headers

/-- The credentials can be sent. -/
def CredentialsLatin1 (headers : List (Str × Str)) : Prop :=
  ∀ p ∈ headers, IsCredential p → Latin1 p.2

/-! ## Headers -/

namespace SameButCredentials

variable {headers headers' : List (Str × Str)}

theorem symm (h : SameButCredentials headers headers') : SameButCredentials headers' headers :=
  List.Forall₂.flip (List.Forall₂.imp (fun p q hpq => ⟨hpq.1.symm, fun hq =>
    (hpq.2 fun hp => hq (by unfold IsCredential at hp ⊢; rwa [← hpq.1])).symm⟩) h)

theorem names (h : SameButCredentials headers headers') :
    headers.map Prod.fst = headers'.map Prod.fst := by
  induction h with
  | nil => rfl
  | cons hpq _ ih => rw [List.map_cons, List.map_cons, hpq.1, ih]

theorem defaultFields (h : SameButCredentials headers headers') (host : Str) (body : Option Bytes) :
    defaultFields host headers body = defaultFields host headers' body := by
  have hnames : headers.map (fun p => lower p.1) = headers'.map (fun p => lower p.1) := by
    have := congrArg (List.map lower) h.names
    rwa [List.map_map, List.map_map] at this
  unfold Fizzpy.defaultFields
  rw [hnames]

theorem strip (h : SameButCredentials headers headers') :
    SameButCredentials (stripBodyHeaders headers) (stripBodyHeaders headers') := by
  induction h with
  | nil => exact .nil
  | @cons p q _ _ hpq _ ih =>
    unfold stripBodyHeaders at ih ⊢
    rw [List.filter_cons, List.filter_cons, hpq.1]
    split_ifs
    · exact .cons hpq ih
    · exact ih

/-- With latin-1 credentials the one request can be sent if the other can. -/
theorem latin1_lines (h : SameButCredentials headers headers') (hc' : CredentialsLatin1 headers')
    {method path host : Str} {body : Option Bytes}
    (hlines : ∀ line ∈ requestLines method path host headers body, Latin1 line) :
    ∀ line ∈ requestLines method path host headers' body, Latin1 line := by
  unfold requestLines at hlines ⊢
  rw [List.map_append, List.forall_mem_cons, List.forall_mem_append] at hlines ⊢
  rw [← h.defaultFields host body]
  refine ⟨hlines.1, hlines.2.1, ?_⟩
  have hfields := hlines.2.2
  clear hlines
  induction h with
  | nil => nofun
  | @cons p q _ _ hpq _ ih =>
    rw [List.map_cons, List.forall_mem_cons] at hfields ⊢
    refine ⟨?_, ih (fun r hr => hc' r (List.mem_cons_of_mem _ hr)) hfields.2⟩
    have hp := hfields.1
    rw [latin1_append_iff] at hp ⊢
    rw [← hpq.1]
    refine ⟨hp.1, ?_⟩
    by_cases hcred : IsCredential p
    · refine hc' q List.mem_cons_self ?_
      unfold IsCredential at hcred ⊢
      rwa [← hpq.1]
    · rw [← hpq.2 hcred]
      exact hp.2

end SameButCredentials

/-- No credential is a field of the body. -/
theorem credentials_strip (headers : List (Str × Str)) :
    credentials (stripBodyHeaders headers) = credentials headers := by
  unfold credentials stripBodyHeaders
  rw [List.filter_filter]
  refine List.filter_congr fun p _ => ?_
  have hdisjoint : ∀ name ∈ credentialNames, name ∉ bodyHeaders := by decide
  by_cases hp : IsCredential p
  · simp [hp, hdisjoint _ hp]
  · simp [hp]

theorem credentialsLatin1_iff {headers : List (Str × Str)} :
    CredentialsLatin1 headers ↔ ∀ p ∈ credentials headers, Latin1 p.2 := by
  unfold credentials CredentialsLatin1
  simp only [List.mem_filter, decide_eq_true_eq, and_imp]

/-! ## Hops -/

/-- What was sent can be sent again. -/
theorem credentialsLatin1_of_buildRequest {method path host : Str} {headers : List (Str × Str)}
    {body : Option Bytes} {raw : Bytes}
    (h : buildRequest method path host headers body = some raw) : CredentialsLatin1 headers := by
  intro p hp _
  have hline := latin1_of_buildRequest h (p.1 ++ str ": " ++ p.2)
    (List.mem_cons_of_mem _ (List.mem_map_of_mem (List.mem_append_right _ hp)))
  exact (latin1_append_iff.mp hline).2

/-- What two requests that differ in credentials keep for the next hop. -/
structure SameAsk (ask ask' : Ask) : Prop where
  method : ask.method = ask'.method
  url : ask.url = ask'.url
  body : ask.body = ask'.body
  headers : SameButCredentials ask.headers ask'.headers
  latin1 : CredentialsLatin1 ask.headers
  latin1' : CredentialsLatin1 ask'.headers

theorem SameAsk.redirect {ask ask' : Ask} (h : SameAsk ask ask') (method url : Str) :
    SameAsk (ask.redirect method url) (ask'.redirect method url) := by
  unfold Ask.redirect
  rw [h.method]
  split_ifs
  · refine ⟨rfl, rfl, rfl, h.headers.strip, ?_, ?_⟩
    · rw [credentialsLatin1_iff, credentials_strip, ← credentialsLatin1_iff]
      exact h.latin1
    · rw [credentialsLatin1_iff, credentials_strip, ← credentialsLatin1_iff]
      exact h.latin1'
  · exact ⟨rfl, rfl, h.body, h.headers, h.latin1, h.latin1'⟩

variable (urls : Urls) (policy : RedirectPolicy)

theorem perform_same {ask ask' : Ask} (h : SameAsk ask ask') :
    (∃ e, perform urls ask.method ask.url ask.headers ask.body = .error e ∧
      perform urls ask'.method ask'.url ask'.headers ask'.body = .error e) ∨
    ∃ hop hop', perform urls ask.method ask.url ask.headers ask.body = .ok hop ∧
      perform urls ask'.method ask'.url ask'.headers ask'.body = .ok hop' ∧ SameHop hop hop' := by
  rw [← h.method, ← h.url, ← h.body]
  cases ht : parseUrl urls ask.url with
  | error e => exact .inl ⟨_, perform_error urls ht, perform_error urls ht⟩
  | ok target =>
    have hnone : ∀ {headers headers' : List (Str × Str)}, SameButCredentials headers headers' →
        CredentialsLatin1 headers →
        buildRequest ask.method target.path target.host headers ask.body = none →
        buildRequest ask.method target.path target.host headers' ask.body = none := by
      intro headers headers' hs hc hb
      by_contra hne
      obtain ⟨raw, hraw⟩ := Option.ne_none_iff_exists'.mp hne
      have hlines := hs.symm.latin1_lines hc (latin1_of_buildRequest hraw)
      rw [buildRequest_eq, if_pos hlines] at hb
      cases hb
    cases hb : buildRequest ask.method target.path target.host ask.headers ask.body with
    | none =>
      exact .inl ⟨_, perform_encode urls ht hb,
        perform_encode urls ht (hnone h.headers h.latin1 hb)⟩
    | some raw =>
      cases hb' : buildRequest ask.method target.path target.host ask'.headers ask.body with
      | none =>
        rw [hnone h.headers.symm h.latin1' hb'] at hb
        cases hb
      | some raw' =>
        exact .inr ⟨_, _, perform_ok urls ht hb, perform_ok urls ht hb', rfl, rfl, rfl, h.headers⟩

theorem next_same {ask ask' : Ask} (h : SameAsk ask ask') (seen : ℕ) (r : Response) :
    (∃ ended, policy.next urls seen ask r = .inl ended ∧ policy.next urls seen ask' r = .inl ended) ∨
    ∃ next next', policy.next urls seen ask r = .inr next ∧
      policy.next urls seen ask' r = .inr next' ∧ SameAsk next next' := by
  unfold RedirectPolicy.next
  rw [← h.method, ← h.url]
  split
  · exact .inl ⟨_, rfl, rfl⟩
  · exact .inl ⟨_, rfl, rfl⟩
  · split_ifs
    · exact .inl ⟨_, rfl, rfl⟩
    · exact .inr ⟨_, _, rfl, rfl, h.redirect _ _⟩

/-- The same hops, by induction on the replies. -/
theorem hops_same (replies : List (Except RequestExn Response)) : ∀ (seen : ℕ) {ask ask' : Ask},
    SameAsk ask ask' →
    List.Forall₂ SameHop (hops urls policy seen ask replies).1 (hops urls policy seen ask' replies).1 ∧
      (hops urls policy seen ask replies).2 = (hops urls policy seen ask' replies).2 := by
  induction replies with
  | nil =>
    intro seen ask ask' h
    unfold hops
    obtain ⟨e, he, he'⟩ | ⟨hop, hop', hh, hh', hsame⟩ := perform_same urls h
    · rw [he, he']; exact ⟨.nil, rfl⟩
    · rw [hh, hh']; exact ⟨.cons hsame .nil, rfl⟩
  | cons reply replies ih =>
    intro seen ask ask' h
    unfold hops
    obtain ⟨e, he, he'⟩ | ⟨hop, hop', hh, hh', hsame⟩ := perform_same urls h
    · rw [he, he']; exact ⟨.nil, rfl⟩
    · rw [hh, hh']
      cases reply with
      | error e => exact ⟨.cons hsame .nil, rfl⟩
      | ok r =>
        dsimp only
        obtain ⟨ended, hn, hn'⟩ | ⟨next, next', hn, hn', hnext⟩ := next_same urls policy h seen r
        · rw [hn, hn']; exact ⟨.cons hsame .nil, rfl⟩
        · rw [hn, hn']
          exact ⟨.cons hsame (ih (seen + 1) hnext).1, (ih (seen + 1) hnext).2⟩

theorem credentials_redirect (ask : Ask) (method url : Str) :
    credentials (ask.redirect method url).headers = credentials ask.headers := by
  unfold Ask.redirect
  split_ifs
  · exact credentials_strip _
  · rfl

/-- Every hop carries the credentials. -/
theorem hops_credentials (replies : List (Except RequestExn Response)) : ∀ (seen : ℕ) (ask : Ask),
    ∀ hop ∈ (hops urls policy seen ask replies).1,
      credentials hop.headers = credentials ask.headers := by
  induction replies with
  | nil =>
    intro seen ask hop hmem
    rw [hops_nil urls policy hmem]
  | cons reply replies ih =>
    intro seen ask hop hmem
    obtain hfirst | ⟨r, next, rfl, hn, hrest⟩ := hops_cons urls policy hmem
    · rw [hfirst]
    · obtain ⟨method, url, rfl⟩ := RedirectPolicy.next_inr hn
      rw [ih _ _ hop hrest, credentials_redirect]

/-- **Credentials follow redirects.** Two requests with the same replies that differ in the values of
their credentials take the same hops, whose requests differ in these values alone, and end alike;
unless one of them raises before it sends anything, because a value is no latin-1 text. Every hop, to
whatever target, carries the caller's credentials. -/
theorem request_credentials (method url : Str) {headers headers' : List (Str × Str)}
    (body : Option Bytes) (replies : List (Except RequestExn Response))
    (h : SameButCredentials headers headers') :
    let run := request urls policy method url headers body replies
    let run' := request urls policy method url headers' body replies
    (List.Forall₂ SameHop run.1 run'.1 ∧ run.2 = run'.2 ∨
      run = ([], .raised .encode) ∨ run' = ([], .raised .encode)) ∧
    ∀ hop ∈ run.1, credentials hop.headers = credentials headers := by
  refine ⟨?_, hops_credentials urls policy replies 0 _⟩
  unfold request
  by_cases hsent : CredentialsLatin1 headers ∧ CredentialsLatin1 headers'
  · exact .inl (hops_same urls policy replies 0 ⟨rfl, rfl, rfl, h, hsent.1, hsent.2⟩)
  · have hraises : ∀ {headers : List (Str × Str)}, ¬ CredentialsLatin1 headers →
        ∀ target : Target, buildRequest (upper method) target.path target.host headers body = none := by
      intro headers hc target
      by_contra hne
      obtain ⟨raw, hraw⟩ := Option.ne_none_iff_exists'.mp hne
      exact hc (credentialsLatin1_of_buildRequest hraw)
    have hfirst : ∀ {ask : Ask} {e : RequestError},
        perform urls ask.method ask.url ask.headers ask.body = .error e →
        hops urls policy 0 ask replies = ([], .raised e) := by
      intro ask e he
      unfold hops
      rw [he]
    cases ht : parseUrl urls url with
    | error e =>
      rw [hfirst (perform_error urls ht), hfirst (perform_error urls ht)]
      exact .inl ⟨.nil, rfl⟩
    | ok target =>
      rw [not_and_or] at hsent
      obtain hc | hc := hsent
      · exact .inr (.inl (hfirst (perform_encode urls ht (hraises hc target))))
      · exact .inr (.inr (hfirst (perform_encode urls ht (hraises hc target))))

/-- `urllib.parse` for URLs `https://host/path` without a port and a query. -/
def plainUrls : Urls where
  split url :=
    let rest := url.drop 8
    if str "https://" <+: url then
      .ok ⟨str "https", some (lower (rest.takeWhile (· ≠ '/'))), .ok none, rest.dropWhile (· ≠ '/'), []⟩
    else .ok ⟨[], none, .ok none, url, []⟩
  join _ location := .ok location

def elsewhere : Response :=
  ⟨302, str "Found", str "HTTP/1.1", .ofItems [(str "Location", str "https://c.d/")], []⟩

/-- A request with the credential `v`, redirected from a.b to c.d. -/
def redirected (v : Str) : List Hop × Ended :=
  request plainUrls {} (str "GET") (str "https://a.b/") [(str "Authorization", v)] none [.ok elsewhere]

theorem sameButCredentials_single (v v' : Str) :
    SameButCredentials [(str "Authorization", v)] [(str "Authorization", v')] :=
  .cons ⟨rfl, fun h => absurd (show lower (str "Authorization") ∈ credentialNames by decide) h⟩ .nil

theorem request_credentials_redirected :
    (List.Forall₂ SameHop (redirected (str "x")).1 (redirected (str "y")).1 ∧
        (redirected (str "x")).2 = (redirected (str "y")).2 ∨
      redirected (str "x") = ([], .raised .encode) ∨ redirected (str "y") = ([], .raised .encode)) ∧
    ∀ hop ∈ (redirected (str "x")).1,
      credentials hop.headers = credentials [(str "Authorization", str "x")] :=
  request_credentials plainUrls {} (str "GET") (str "https://a.b/") none [.ok elsewhere]
    (sameButCredentials_single (str "x") (str "y"))

/-- What is sent to other targets than the one asked for. -/
def rawElsewhere (run : List Hop × Ended) : List Bytes :=
  (run.1.filter fun hop => hop.target.key ≠ (str "a.b", 443)).map Hop.raw

/-- The credential is sent to c.d. -/
theorem credential_sent_elsewhere :
    SameButCredentials [(str "Authorization", str "x")] [(str "Authorization", str "y")] ∧
    rawElsewhere (redirected (str "x")) =
      [ascii "GET / HTTP/1.1\r\nHost: c.d\r\nAuthorization: x\r\n\r\n"] ∧
    rawElsewhere (redirected (str "x")) ≠ rawElsewhere (redirected (str "y")) :=
  ⟨sameButCredentials_single _ _, by decide +kernel, by decide +kernel⟩

end Fizzpy
