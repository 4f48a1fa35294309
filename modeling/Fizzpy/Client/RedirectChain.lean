import Fizzpy.Client.Redirect
import Fizzpy.Client.Resend

/-!
# Chains of redirects

A server answers the hops of a request one by one, for as long as it is asked. What each hop asks is
settled by the statuses and locations before it (`Chain`), and the loop of `request` does just that,
up to the first response that is no redirect or to its limit (`request_follows`).
-/

namespace Fizzpy

open Foundation

/-! ## What is meant -/

/-- A redirect with a location. -/
def Response.Redirects (r : Response) : Prop :=
  (r.statusCode = 301 ∨ r.statusCode = 302 ∨ r.statusCode = 303 ∨ r.statusCode = 307 ∨
    r.statusCode = 308) ∧ (r.headers.get (str "Location")).getD [] ≠ []

instance (r : Response) : Decidable r.Redirects := inferInstanceAs (Decidable (_ ∧ _ ≠ []))

/-- The name of a header that is about the body, in any casing. -/
def AboutBody (name : Str) : Prop :=
  lower name = str "content-length" ∨ lower name = str "content-type" ∨
    lower name = str "transfer-encoding"

instance (name : Str) : Decidable (AboutBody name) := inferInstanceAs (Decidable (_ ∨ _ ∨ _))

/-- The method behind a redirect: 303 makes it `GET` unless it is `HEAD`, 301 and 302 make `POST` a
`GET`, and the others keep it. -/
def methodBehind (method : Str) (status : ℕ) : Str :=
  if status = 303 then if method = str "HEAD" then method else str "GET"
  else if status = 301 ∨ status = 302 then if method = str "POST" then str "GET" else method
  else method

/-- What is asked for, and the server's answers to the hops. -/
structure Chain where
  urls : Urls
  method : Str
  url : Str
  headers : List (Str × Str)
  body : Option Bytes
  serve : ℕ → Response

namespace Chain

variable (c : Chain)

def location (k : ℕ) : Str := ((c.serve k).headers.get (str "Location")).getD []

def methodAt : ℕ → Str
  | 0 => upper c.method
  | k + 1 => methodBehind (methodAt k) (c.serve k).statusCode

def urlAt : ℕ → Str
  | 0 => c.url
  | k + 1 => ((c.urls.join (urlAt k) (c.location k)).toOption).getD []

/-- A hop before this one has changed the method. -/
def Changed (k : ℕ) : Prop := ∃ j < k, c.methodAt (j + 1) ≠ c.methodAt j

instance (k : ℕ) : Decidable (c.Changed k) :=
  inferInstanceAs (Decidable (∃ j < k, c.methodAt (j + 1) ≠ c.methodAt j))

/-- The caller's body, until the method changes. -/
def bodyAt (k : ℕ) : Option Bytes := if c.Changed k then none else c.body

/-- The caller's headers; those of a body are left out once the method has changed. -/
def headersAt (k : ℕ) : List (Str × Str) :=
  c.headers.filter fun p => ¬ (c.Changed k ∧ AboutBody p.1)

def askAt (k : ℕ) : Ask := ⟨c.methodAt k, c.urlAt k, c.headersAt k, c.bodyAt k⟩

/-- The first answers are all redirects. -/
def RedirectsTo (k : ℕ) : Prop := ∀ j < k, (c.serve j).Redirects

/-- Up to the limit every exchange has a response, and every location resolves. -/
structure Answered (n : ℕ) : Prop where
  exchange : ∀ k ≤ n, c.RedirectsTo k → ∃ hop,
    perform c.urls (c.methodAt k) (c.urlAt k) (c.headersAt k) (c.bodyAt k) = .ok hop
  resolves : ∀ k ≤ n, c.RedirectsTo (k + 1) → ∃ url, c.urls.join (c.urlAt k) (c.location k) = .ok url

theorem upper_methodAt (k : ℕ) : upper (c.methodAt k) = c.methodAt k := by
  induction k with
  | zero => exact upper_upper c.method
  | succ k ih =>
    have hget : upper (str "GET") = str "GET" := by decide
    show upper (methodBehind (c.methodAt k) _) = methodBehind (c.methodAt k) _
    unfold methodBehind
    split_ifs <;> assumption

theorem changed_succ (k : ℕ) :
    c.Changed (k + 1) ↔ c.Changed k ∨ c.methodAt (k + 1) ≠ c.methodAt k := by
  unfold Changed
  constructor
  · rintro ⟨j, hj, h⟩
    obtain hlt | rfl := Nat.lt_succ_iff_lt_or_eq.mp hj
    · exact .inl ⟨j, hlt, h⟩
    · exact .inr h
  · rintro (⟨j, hj, h⟩ | h)
    · exact ⟨j, Nat.lt_succ_of_lt hj, h⟩
    · exact ⟨k, Nat.lt_succ_self k, h⟩

theorem mem_bodyHeaders {name : Str} : lower name ∈ bodyHeaders ↔ AboutBody name := by
  unfold bodyHeaders AboutBody
  simp only [List.mem_cons, List.not_mem_nil, or_false]

theorem headersAt_of_changed {k : ℕ} (h : c.Changed k) :
    c.headersAt k = stripBodyHeaders c.headers := by
  unfold headersAt stripBodyHeaders
  simp only [h, true_and, mem_bodyHeaders]

theorem headersAt_of_not_changed {k : ℕ} (h : ¬ c.Changed k) : c.headersAt k = c.headers := by
  unfold headersAt
  simp only [h, false_and, not_false_eq_true, decide_true, List.filter_true]

theorem strip_headersAt (k : ℕ) : stripBodyHeaders (c.headersAt k) = stripBodyHeaders c.headers := by
  by_cases h : c.Changed k
  · rw [headersAt_of_changed c h]
    unfold stripBodyHeaders
    rw [List.filter_filter]
    simp only [Bool.and_self]
  · rw [headersAt_of_not_changed c h]

/-- A redirect leads from one ask to the next. -/
theorem redirect_askAt (k : ℕ) :
    (c.askAt k).redirect (c.methodAt (k + 1)) (c.urlAt (k + 1)) = c.askAt (k + 1) := by
  unfold Ask.redirect askAt
  dsimp only
  by_cases hm : c.methodAt (k + 1) ≠ c.methodAt k
  · have hc : c.Changed (k + 1) := (c.changed_succ k).mpr (.inr hm)
    rw [if_pos hm, strip_headersAt, headersAt_of_changed c hc, bodyAt, if_pos hc]
  · have hc : c.Changed (k + 1) ↔ c.Changed k := by rw [c.changed_succ k, or_iff_left hm]
    rw [if_neg hm]
    unfold headersAt bodyAt
    simp only [hc, not_not.mp hm]

/-! ## The loop -/

theorem redirects_iff {r : Response} : r.Redirects ↔
    ¬ (r.statusCode ∉ redirectCodes ∨ (r.headers.get (str "Location")).getD [] = []) := by
  unfold Response.Redirects redirectCodes
  rw [not_or, not_not]
  simp only [List.mem_cons, List.not_mem_nil, or_false, ne_eq]

theorem nextRedirect_of_not {r : Response} (h : ¬ r.Redirects) (urls : Urls) (method url : Str) :
    nextRedirect urls method url r.statusCode (r.headers.get (str "Location")) = .ok none := by
  unfold nextRedirect
  rw [if_pos (not_not.mp (mt redirects_iff.mpr h))]
  rfl

/-- The code's condition for a `GET`. -/
theorem methodBehind_eq (method : Str) (status : ℕ) : methodBehind method status =
    if (status = 303 ∧ method ≠ str "HEAD") ∨
      ((status = 301 ∨ status = 302) ∧ method = str "POST") then str "GET" else method := by
  unfold methodBehind
  by_cases h3 : status = 303
  · have hother : ¬ (status = 301 ∨ status = 302) := by omega
    by_cases hm : method = str "HEAD" <;> simp [h3, hm]
  · by_cases h1 : status = 301 ∨ status = 302
    · by_cases hm : method = str "POST" <;> simp [h3, h1, hm]
    · simp [h3, h1]

theorem nextRedirect_at {k : ℕ} {url : Str} (h : (c.serve k).Redirects)
    (hj : c.urls.join (c.urlAt k) (c.location k) = .ok url) :
    nextRedirect c.urls (c.methodAt k) (c.urlAt k) (c.serve k).statusCode
      ((c.serve k).headers.get (str "Location")) =
        .ok (some (c.methodAt (k + 1), c.urlAt (k + 1))) := by
  have hurl : c.urlAt (k + 1) = url := by
    show ((c.urls.join (c.urlAt k) (c.location k)).toOption).getD [] = url
    rw [hj]
    rfl
  have hj' : c.urls.join (c.urlAt k) (((c.serve k).headers.get (str "Location")).getD []) = .ok url := hj
  unfold nextRedirect
  rw [if_neg (redirects_iff.mp h), hj', c.upper_methodAt k, hurl, methodAt, methodBehind_eq]
  generalize c.methodAt k = method
  show (if _ then .ok (some (str "GET", url)) else .ok (some (method, url)) :
    Except UrlExn (Option (Str × Str))) = _
  split_ifs <;> rfl

theorem next_returns (n : ℤ) {k : ℕ} (h : ¬ (c.serve k).Redirects) :
    RedirectPolicy.next ⟨true, n⟩ c.urls k (c.askAt k) (c.serve k) =
      .inl (.returned (c.serve k) (c.urlAt k)) := by
  have hnext := nextRedirect_of_not h c.urls (c.methodAt k) (c.urlAt k)
  unfold RedirectPolicy.next askAt
  dsimp only
  rw [if_pos rfl, hnext]

theorem next_redirects (n : ℤ) {k : ℕ} {url : Str} (h : (c.serve k).Redirects)
    (hj : c.urls.join (c.urlAt k) (c.location k) = .ok url) :
    (n ≤ k → ∃ text, RedirectPolicy.next ⟨true, n⟩ c.urls k (c.askAt k) (c.serve k) =
      .inl (.raised (.tooManyRedirects text))) ∧
    (k < n → RedirectPolicy.next ⟨true, n⟩ c.urls k (c.askAt k) (c.serve k) =
      .inr (c.askAt (k + 1))) := by
  have hnext := c.nextRedirect_at h hj
  rw [← c.redirect_askAt k]
  unfold RedirectPolicy.next
  constructor
  · intro hn
    refine ⟨str "exceeded " ++ str (toString n) ++ str " redirects (last: " ++ c.urlAt k ++ str ")", ?_⟩
    dsimp only [askAt]
    rw [if_pos rfl, hnext]
    exact if_pos hn
  · intro hn
    dsimp only [askAt]
    rw [if_pos rfl, hnext]
    exact if_neg (not_le.mpr hn)

/-- The answers to `m` hops from the `k`-th on. -/
def answers (k m : ℕ) : List (Except RequestExn Response) :=
  (List.range' k m).map fun j => .ok (c.serve j)

/-- The loop from the `k`-th hop on. -/
structure FollowsFrom (n k : ℕ) (r : List Hop × Ended) : Prop where
  length_le : k + r.1.length ≤ n + 1
  ends : r.2 ≠ .exchanging
  asked : ∀ i hop, r.1[i]? = some hop → hop.method = c.methodAt (k + i) ∧
    hop.headers = c.headersAt (k + i) ∧ hop.body = c.bodyAt (k + i)
  returned : ∀ i, k ≤ i → i ≤ n → c.RedirectsTo i → ¬ (c.serve i).Redirects →
    r.2 = .returned (c.serve i) (c.urlAt i) ∧ k + r.1.length = i + 1
  tooMany : (∃ text, r.2 = .raised (.tooManyRedirects text)) ↔ c.RedirectsTo (n + 1)

theorem asked_cons {k : ℕ} {hop : Hop} {hops : List Hop}
    (h : perform c.urls (c.methodAt k) (c.urlAt k) (c.headersAt k) (c.bodyAt k) = .ok hop)
    (hs : ∀ i hop, hops[i]? = some hop → hop.method = c.methodAt (k + 1 + i) ∧
      hop.headers = c.headersAt (k + 1 + i) ∧ hop.body = c.bodyAt (k + 1 + i)) (i : ℕ) (hop' : Hop)
    (hi : (hop :: hops)[i]? = some hop') : hop'.method = c.methodAt (k + i) ∧
      hop'.headers = c.headersAt (k + i) ∧ hop'.body = c.bodyAt (k + i) := by
  cases i with
  | zero =>
    rw [List.getElem?_cons_zero, Option.some.injEq] at hi
    subst hi
    exact perform_asked h
  | succ i =>
    rw [List.getElem?_cons_succ] at hi
    rw [show k + (i + 1) = k + 1 + i by omega]
    exact hs i hop' hi

theorem RedirectsTo.succ {c : Chain} {k : ℕ} (h : c.RedirectsTo k) (hk : (c.serve k).Redirects) :
    c.RedirectsTo (k + 1) := by
  intro j hj
  obtain hlt | rfl := Nat.lt_succ_iff_lt_or_eq.mp hj
  · exact h j hlt
  · exact hk

/-- Along the hops; the limit leaves one less with each. -/
theorem hops_follow {n : ℕ} (ha : c.Answered n) (m : ℕ) : ∀ {k : ℕ}, k ≤ n → n < k + m →
    c.RedirectsTo k →
    c.FollowsFrom n k (hops c.urls ⟨true, n⟩ k (c.askAt k) (c.answers k m)) := by
  induction m with
  | zero => intro k hk hm; omega
  | succ m ih =>
    intro k hk hm hr
    obtain ⟨hop, hop_eq⟩ := ha.exchange k hk hr
    have hanswers : c.answers k (m + 1) = .ok (c.serve k) :: c.answers (k + 1) m := by
      unfold answers
      rw [List.range'_succ, List.map_cons]
    have hperform : perform c.urls (c.askAt k).method (c.askAt k).url (c.askAt k).headers
      (c.askAt k).body = .ok hop := hop_eq
    have hsingle := @asked_cons c k hop [] hop_eq (fun i hop h => by cases h)
    unfold hops
    rw [hperform, hanswers]
    dsimp only
    by_cases hredirects : (c.serve k).Redirects
    · obtain ⟨url, hurl⟩ := ha.resolves k hk (hr.succ hredirects)
      obtain ⟨hlimit, hon⟩ := c.next_redirects n hredirects hurl
      by_cases hlast : n ≤ k
      · obtain rfl : k = n := Nat.le_antisymm hk hlast
        obtain ⟨text, htext⟩ := hlimit le_rfl
        rw [htext]
        refine ⟨le_rfl, (fun h => by cases h), hsingle, fun i hki hi _ hnot => ?_,
          iff_of_true ⟨text, rfl⟩ (hr.succ hredirects)⟩
        rw [Nat.le_antisymm hi hki] at hnot
        exact absurd hredirects hnot
      · rw [hon (by omega)]
        have hrest := ih (k := k + 1) (by omega) (by omega) (hr.succ hredirects)
        have hlen := hrest.length_le
        refine ⟨?_, hrest.ends, c.asked_cons hop_eq hrest.asked, fun i hki hi hri hnot => ?_,
          hrest.tooMany⟩
        · rw [List.length_cons]
          omega
        · have hne : k ≠ i := fun he => hnot (he ▸ hredirects)
          obtain ⟨hret, hcount⟩ := hrest.returned i (by omega) hi hri hnot
          refine ⟨hret, ?_⟩
          rw [List.length_cons]
          omega
    · rw [c.next_returns n hredirects]
      refine ⟨by rw [List.length_singleton]; omega, (fun h => by cases h), hsingle,
        fun i hki hi hri hnot => ?_, ?_⟩
      · have hik : i = k := by
          by_contra hne
          exact hredirects (hri k (by omega))
        rw [hik]
        exact ⟨rfl, rfl⟩
      · refine iff_of_false ?_ fun hall => hredirects (hall k (by omega))
        rintro ⟨text, h⟩
        cases h

end Chain

/-! ## The operations of a hop -/

namespace Client

def opensConnection : Action → Bool
  | .connect _ => true
  | _ => false

def writesRequest : Action → Bool
  | .write _ => true
  | _ => false

/-- How many connections a `_perform` has begun to open, and how often it has written, by where it
stands. -/
def Spent : Phase → ℕ → ℕ → Prop
  | .take, opened, written | .write _ true, opened, written => opened = 0 ∧ written = 0
  | .read _ true _ _, opened, written | .closeStale _, opened, written
  | .connect, opened, written => opened = 0 ∧ written ≤ 1
  | .write _ false, opened, written => opened ≤ 1 ∧ written ≤ 1
  | _, opened, written => opened ≤ 1 ∧ written ≤ 2

theorem Spent.le {phase : Phase} {opened written : ℕ} (h : Spent phase opened written) :
    opened ≤ 1 ∧ written ≤ 2 := by
  unfold Spent at h
  split at h <;> omega

theorem spent_over {t : Thread} {o : Outcome} {opened written : ℕ} (ho : o.Over)
    (h : opened ≤ 1 ∧ written ≤ 2) : Spent (t.proceed o).phase opened written := by
  cases o with
  | goOn phase =>
    cases phase with
    | give c r => exact h
    | close c r => exact h
    | _ => cases ho
  | returned r => exact h
  | raised e => exact h

theorem spent_write {t : Thread} {c : ConnId} {reused ok : Bool} {opened written : ℕ}
    (h : Spent (.write c reused) opened written) :
    Spent (t.proceed (afterWrite c reused ok)).phase opened (written + 1) := by
  cases reused with
  | true =>
    obtain ⟨ho, hw⟩ : opened = 0 ∧ written = 0 := h
    have hnext : opened = 0 ∧ written + 1 ≤ 1 := ⟨ho, by omega⟩
    cases ok <;> exact hnext
  | false =>
    obtain ⟨ho, hw⟩ : opened ≤ 1 ∧ written ≤ 1 := h
    have hnext : opened ≤ 1 ∧ written + 1 ≤ 2 := ⟨ho, by omega⟩
    cases ok <;> exact hnext

theorem spent_read {codec : Codec} {t : Thread} {c : ConnId} {reused received : Bool}
    {parser : ResponseParser} {reply : ReadReply} {opened written : ℕ}
    (h : Spent (.read c reused parser received) opened written) :
    Spent (t.proceed (afterRead codec c reused parser received reply)).phase opened written := by
  obtain hover | ⟨parser', received', heq⟩ | ⟨rfl, heq⟩ :=
    afterRead_cases codec c reused parser received reply
  · exact spent_over hover h.le
  · rw [heq]
    cases reused <;> exact h
  · rw [heq]
    exact h

/-- One step of the thread. -/
theorem spent_step {codec : Codec} {s s' : Client} {i : ℕ} {a : Action} {ops : List Action}
    (hs : Spent (s.threads i).phase (ops.countP opensConnection) (ops.countP writesRequest))
    (h : Step codec s i a s') :
    Spent (s'.threads i).phase ((courseStep i ops (i, a)).countP opensConnection)
      ((courseStep i ops (i, a)).countP writesRequest) := by
  have hsame (a : Action) (ho : opensConnection a = false) (hw : writesRequest a = false) :
      (ops ++ [a]).countP opensConnection = ops.countP opensConnection ∧
        (ops ++ [a]).countP writesRequest = ops.countP writesRequest := by
    simp [List.countP_append, ho, hw]
  unfold courseStep
  rw [if_pos rfl]
  cases h with
  | perform h => rw [threads_setThread_self]; exact ⟨rfl, rfl⟩
  | takePooled h hp => rw [threads_setThread_self]; rw [h] at hs; exact hs
  | takeNone h hp =>
    rw [threads_setThread_self]
    rw [h] at hs
    exact ⟨hs.1, hs.2.le.trans (Nat.zero_le 1)⟩
  | write h =>
    rw [threads_setThread_self, List.countP_append, List.countP_append]
    rw [h] at hs
    exact spent_write hs
  | read h =>
    rename_i c reused received parser reply
    rw [threads_setThread_self, (hsame (.read reply) rfl rfl).1, (hsame (.read reply) rfl rfl).2]
    rw [h] at hs
    exact spent_read hs
  | connected h =>
    rw [threads_setThread_self, List.countP_append, List.countP_append]
    rw [h] at hs
    obtain ⟨ho, hw⟩ := hs
    exact ⟨by rw [ho]; exact le_rfl, hw⟩
  | connectFailed h =>
    rw [threads_setThread_self, List.countP_append, List.countP_append]
    rw [h] at hs
    obtain ⟨ho, hw⟩ := hs
    exact ⟨by rw [ho]; exact le_rfl, hw.trans (by decide)⟩
  | give h | close h =>
    rw [threads_setThread_self]
    exact hs.le
  | closeStale h =>
    rw [threads_setThread_self]
    rw [h] at hs
    exact hs
  | closeAll h | closeNext h | closeDone h =>
    rw [threads_setThread_self]
    exact hs.le

/-- **The operations of a `_perform`.** At any time it has begun to open one new connection at most,
and has written its request twice at most. -/
theorem spent_run {codec : Codec} {xs : List (ℕ × Action)} {s : Client}
    (h : run (step codec) init xs = some s) (i : ℕ) :
    (course i xs).countP opensConnection ≤ 1 ∧ (course i xs).countP writesRequest ≤ 2 := by
  have hinit : ∀ i, Spent (init.threads i).phase 0 0 := fun _ => ⟨Nat.zero_le 1, Nat.zero_le 2⟩
  have hspent : ∀ i, Spent (s.threads i).phase ((course i xs).countP opensConnection)
      ((course i xs).countP writesRequest) := by
    refine run_history (I := fun xs (s : Client) => ∀ i, Spent (s.threads i).phase
      ((course i xs).countP opensConnection) ((course i xs).countP writesRequest))
      (V := fun _ => True) (fun xs s x s' hs _ h j => ?_) (fun _ _ => trivial) []
      hinit h
    have hstep : Step codec s x.1 x.2 s' := step_sound h
    rw [course_concat]
    by_cases hj : j = x.1
    · subst hj
      exact spent_step (hs _) hstep
    · rw [threads_step_ne hstep hj, courseStep, if_neg (Ne.symm hj)]
      exact hs j
  exact (hspent i).le

end Client

/-! ## Requests -/

namespace Chain

variable (c : Chain)

/-- What is meant by following redirects up to `n` times. -/
structure Meets (n : ℕ) (r : List Hop × Ended) : Prop where
  hops_le : r.1.length ≤ n + 1
  ends : r.2 ≠ .exchanging
  /-- The first response that is no redirect is returned. -/
  returns : ∀ k ≤ n, c.RedirectsTo k → ¬ (c.serve k).Redirects →
    r.2 = .returned (c.serve k) (c.urlAt k) ∧ r.1.length = k + 1
  tooMany : (∃ text, r.2 = .raised (.tooManyRedirects text)) ↔ c.RedirectsTo (n + 1)
  method : ∀ k hop, r.1[k]? = some hop → hop.method = c.methodAt k
  body : ∀ k hop, r.1[k]? = some hop → hop.body = if c.Changed k then none else c.body
  headers : ∀ k hop, r.1[k]? = some hop →
    hop.headers = c.headers.filter fun p => ¬ (c.Changed k ∧ AboutBody p.1)
  /-- The `_perform` of a hop, on whatever thread it runs. -/
  operations : ∀ hop ∈ r.1, ∀ (codec : Codec) (xs : List (ℕ × Client.Action)) (s : Client) (t : ℕ),
    run (Client.step codec) Client.init xs = some s → (s.threads t).job = hop.job →
      (Client.course t xs).countP Client.opensConnection ≤ 1 ∧
      (Client.course t xs).countP Client.writesRequest ≤ 2

theorem askAt_zero : c.askAt 0 = ⟨upper c.method, c.url, c.headers, c.body⟩ := by
  have hc : ¬ c.Changed 0 := fun ⟨j, hj, _⟩ => absurd hj (Nat.not_lt_zero j)
  unfold askAt
  rw [headersAt_of_not_changed c hc, bodyAt, if_neg hc]
  rfl

/-- **Redirects.** However the server answers, `request` follows it as it is meant to, and however
many more answers there are (`m`, which is more than `n`), it asks for no more than it needs. -/
theorem request_meets {n m : ℕ} (h : c.Answered n) (hm : n < m) : c.Meets n
    (request c.urls ⟨true, n⟩ c.method c.url c.headers c.body (c.answers 0 m)) := by
  have hf := c.hops_follow h m (k := 0) (Nat.zero_le n) (by omega) fun j hj => by omega
  rw [askAt_zero] at hf
  refine ⟨?_, hf.ends, fun k hk hr hnot => ?_, hf.tooMany, fun k hop hk => ?_, fun k hop hk => ?_,
    fun k hop hk => ?_, fun hop _ codec xs s t hrun _ => Client.spent_run hrun t⟩
  · have hlen := hf.length_le
    unfold request
    omega
  · obtain ⟨hret, hlen⟩ := hf.returned k (Nat.zero_le k) hk hr hnot
    refine ⟨hret, ?_⟩
    unfold request
    omega
  · have hasked := (hf.asked k hop hk).1
    rwa [Nat.zero_add] at hasked
  · have hasked := (hf.asked k hop hk).2.2
    rwa [Nat.zero_add] at hasked
  · have hasked := (hf.asked k hop hk).2.1
    rwa [Nat.zero_add] at hasked

/-- A `POST` to `https://a.b/`, sent on once by a 302 and then answered. -/
def moved : Chain where
  urls := {
    split := fun _ => .ok ⟨str "https", some (str "a.b"), .ok none, str "/", []⟩
    join := fun _ location => .ok location }
  method := str "post"
  url := str "https://a.b/"
  headers := [(str "Content-TYPE", str "text/plain"), (str "X-A", str "1")]
  body := some (ascii "7")
  serve := fun k => if k = 0
    then ⟨302, [], str "HTTP/1.1", .ofItems [(str "location", str "https://a.b/")], []⟩
    else ⟨200, [], str "HTTP/1.1", .empty, []⟩

theorem moved_answered : moved.Answered 1 := by
  refine ⟨fun k hk _ => ?_, fun k _ _ => ⟨_, rfl⟩⟩
  have hraw : ∀ k ≤ 1, (buildRequest (moved.methodAt k) (str "/") (str "a.b") (moved.headersAt k)
      (moved.bodyAt k)).isSome := by decide +kernel
  obtain ⟨raw, hraw⟩ := Option.isSome_iff_exists.mp (hraw k hk)
  exact ⟨_, perform_ok moved.urls rfl hraw⟩

theorem request_meets_moved : moved.Meets 1 (request moved.urls ⟨true, 1⟩ moved.method moved.url
    moved.headers moved.body (moved.answers 0 2)) :=
  moved.request_meets moved_answered (by decide)

end Chain

end Fizzpy
