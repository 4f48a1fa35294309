import Fizzpy.Client.Redirect
import Fizzpy.Http.Injection

/-!
# The Host of a request

A `Host` field is to name the authority of the URL: the host, an IPv6 literal in its brackets, and
the port unless it is the default one. `_perform` sends the bare hostname.
-/

namespace Fizzpy

/-- The authority, written from what `urlsplit` reads off it. A hostname with a colon is an IPv6
literal without its brackets. -/
def SplitUrl.authority (parts : SplitUrl) : Str :=
  let host := parts.hostname.getD []
  (if ':' ∈ host then str "[" ++ host ++ str "]" else host) ++
    match parts.port with
    | .ok (some port) => if port = 443 then [] else str ":" ++ Nat.toDigits 10 port
    | _ => []

/-- No IPv6 literal, and the default port. -/
structure SplitUrl.Plain (parts : SplitUrl) : Prop where
  host : ':' ∉ parts.hostname.getD []
  port : ∀ port, parts.port = .ok (some port) → port = 443

/-- The caller has no `Host` of its own. -/
def NoHost (headers : List (Str × Str)) : Prop := ∀ p ∈ headers, lower p.1 ≠ str "host"

/-- The field is written behind the request line, and no other has its name. -/
structure SendsHost (hop : Hop) (value : Str) : Prop where
  written : ∃ rest, hop.raw = codes (hop.method ++ str " " ++ hop.target.path ++ str " HTTP/1.1" ++
    str "\r\n" ++ (str "Host: " ++ value ++ str "\r\n")) ++ rest
  single : (emitted hop.target.host hop.headers hop.body).filter (fun p => lower p.1 = str "host") =
    [(str "Host", value)]

theorem SendsHost.unique {hop : Hop} {v v' : Str} (h : SendsHost hop v) (h' : SendsHost hop v') :
    v = v' := by
  have heq := h.single.symm.trans h'.single
  rw [List.cons.injEq, Prod.mk.injEq] at heq
  exact heq.1.2

/-! ## What is sent -/

theorem emitted_host {host : Str} {headers : List (Str × Str)} (h : NoHost headers)
    (body : Option Bytes) : ∃ others, emitted host headers body = (str "Host", host) :: others ∧
      ∀ p ∈ others, lower p.1 ≠ str "host" := by
  have habsent : str "host" ∉ headers.map fun p => lower p.1 := fun hmem => by
    obtain ⟨p, hp, heq⟩ := List.mem_map.mp hmem
    exact h p hp heq
  unfold emitted defaultFields
  dsimp only
  rw [if_neg habsent]
  rw [List.append_assoc, List.singleton_append]
  refine ⟨_, rfl, fun p hp => ?_⟩
  obtain hlength | hcaller := List.mem_append.mp hp
  · have hp1 : p.1 = str "Content-Length" := by
      cases body with
      | none => cases hlength
      | some body =>
        dsimp only at hlength
        split_ifs at hlength
        · cases hlength
        · rw [List.mem_singleton.mp hlength]
    rw [hp1]
    decide
  · exact h p hcaller

/-- Each of the first two lines has its line end. -/
theorem join_two (sep a b : Str) (others : List Str) :
    ∃ rest, join sep (a :: b :: others) ++ sep = a ++ sep ++ (b ++ sep) ++ rest := by
  cases others with
  | nil => exact ⟨[], by simp [join, List.intercalate_cons_cons]⟩
  | cons c others =>
    exact ⟨join sep (c :: others) ++ sep, by simp [join, List.intercalate_cons_cons]⟩

/-- The field sent is the bare hostname. -/
theorem sendsHost_host (hop : Hop) (h : NoHost hop.headers) : SendsHost hop hop.target.host := by
  obtain ⟨others, hfields, hothers⟩ := emitted_host h hop.body
  constructor
  · have hraw := hop.raw_eq
    rw [buildRequest_eq, if_pos (latin1_of_buildRequest hop.raw_eq), Option.some.injEq] at hraw
    have hlines : requestLines hop.method hop.target.path hop.target.host hop.headers hop.body =
        (hop.method ++ str " " ++ hop.target.path ++ str " HTTP/1.1") ::
          (str "Host: " ++ hop.target.host) :: others.map fun p => p.1 ++ str ": " ++ p.2 := by
      show _ :: (emitted _ _ _).map _ = _
      rw [hfields]
      rfl
    obtain ⟨rest, hrest⟩ := join_two (str "\r\n")
      (hop.method ++ str " " ++ hop.target.path ++ str " HTTP/1.1") (str "Host: " ++ hop.target.host)
      (others.map fun p => p.1 ++ str ": " ++ p.2)
    refine ⟨codes (rest ++ str "\r\n") ++ hop.body.getD [], ?_⟩
    rw [← hraw, hlines, show str "\r\n\r\n" = str "\r\n" ++ str "\r\n" from rfl, ← List.append_assoc,
      hrest, List.append_assoc _ rest, codes_append, List.append_assoc]
  · have hname : lower (str "Host") = str "host" := by decide
    have hnone : others.filter (fun p => lower p.1 = str "host") = [] :=
      List.filter_eq_nil_iff.mpr fun p hp => by simpa using hothers p hp
    rw [hfields, List.filter_cons, if_pos (decide_eq_true hname), hnone]

theorem sendsHost_iff {hop : Hop} (h : NoHost hop.headers) {value : Str} :
    SendsHost hop value ↔ value = hop.target.host :=
  ⟨fun hv => hv.unique (sendsHost_host hop h), fun hv => hv ▸ sendsHost_host hop h⟩

/-! ## What is meant -/

theorem authority_eq_iff (parts : SplitUrl) :
    parts.authority = parts.hostname.getD [] ↔ parts.Plain := by
  constructor
  · intro h
    have hlen := congrArg List.length h
    unfold SplitUrl.authority at hlen
    rw [List.length_append] at hlen
    constructor
    · intro hcolon
      rw [if_pos hcolon, List.length_append, List.length_append] at hlen
      have hbracket : (str "[").length = 1 := rfl
      omega
    · intro port hport
      by_contra hne
      have hhost : (parts.hostname.getD []).length ≤ (if ':' ∈ parts.hostname.getD [] then
          str "[" ++ parts.hostname.getD [] ++ str "]" else parts.hostname.getD []).length := by
        split_ifs
        · rw [List.length_append, List.length_append]
          omega
        · exact le_rfl
      have hcolon : (str ":").length = 1 := rfl
      rw [hport] at hlen
      dsimp only at hlen
      rw [if_neg hne, List.length_append] at hlen
      omega
  · rintro ⟨hhost, hport⟩
    unfold SplitUrl.authority
    dsimp only
    rw [if_neg hhost]
    cases hp : parts.port with
    | error e => simp
    | ok port =>
      cases port with
      | none => simp
      | some port => simp [hport port hp]

theorem parseUrl_host {urls : Urls} {url : Str} {target : Target} {parts : SplitUrl}
    (h : parseUrl urls url = .ok target) (hs : urls.split url = .ok parts) :
    target.host = parts.hostname.getD [] := by
  unfold parseUrl at h
  rw [hs] at h
  dsimp only [Except.mapError, bind, Except.bind] at h
  cases hport : parts.port with
  | error e =>
    rw [hport] at h
    split_ifs at h
  | ok port =>
    rw [hport] at h
    split_ifs at h <;> cases h <;> rfl

/-- The hostname of an accepted URL is what `_perform` takes for its host. -/
theorem perform_host {urls : Urls} {method url : Str} {headers : List (Str × Str)}
    {body : Option Bytes} {hop : Hop} {parts : SplitUrl}
    (h : perform urls method url headers body = .ok hop) (hs : urls.split url = .ok parts) :
    hop.target.host = parts.hostname.getD [] := by
  obtain ⟨e, -, he⟩ | ⟨target, -, -, he⟩ | ⟨target, raw, hb, htarget, he⟩ :=
    perform_cases urls method url headers body
  · rw [he] at h; cases h
  · rw [he] at h; cases h
  · rw [he] at h; cases h; exact parseUrl_host htarget hs

/-- **The Host of a request.** Where the caller has no `Host` of its own, the field sent names the
authority of the URL just when that is a plain host; and two requests for different places have
different fields just when they differ in the host. -/
theorem host_iff {urls : Urls} {method url : Str} {headers : List (Str × Str)} {body : Option Bytes}
    {hop : Hop} {parts : SplitUrl} (h : perform urls method url headers body = .ok hop)
    (hs : urls.split url = .ok parts) (hno : NoHost headers) :
    (SendsHost hop parts.authority ↔ parts.Plain) ∧
    ∀ method' url' headers' body' hop', perform urls method' url' headers' body' = .ok hop' →
      NoHost headers' →
      ((hop.target.key ≠ hop'.target.key → ∀ value, SendsHost hop value → ¬ SendsHost hop' value) ↔
        (hop.target.host = hop'.target.host → hop.target.port = hop'.target.port)) := by
  have hno' : NoHost hop.headers := (perform_asked h).2.1 ▸ hno
  refine ⟨?_, fun method' url' headers' body' hop' h' hno'' => ?_⟩
  · rw [sendsHost_iff hno', perform_host h hs, authority_eq_iff]
  · have hother : NoHost hop'.headers := (perform_asked h').2.1 ▸ hno''
    simp only [sendsHost_iff hno', sendsHost_iff hother]
    constructor
    · intro hdiffer hhost
      by_contra hport
      exact hdiffer (fun hkey => hport (congrArg Prod.snd hkey)) _ rfl hhost
    · rintro hport hkey value rfl hhost
      exact hkey (Prod.ext hhost (hport hhost))

/-- What `urlsplit` reads off `https://a.b:8443/`. -/
def ported : SplitUrl := ⟨str "https", some (str "a.b"), .ok (some 8443), str "/", []⟩

/-- `urlsplit`, for that URL. -/
def portedUrls : Urls where
  split url := if url = str "https://a.b:8443/" then .ok ported else .error []
  join _ location := .ok location

def portedHop : Hop where
  method := str "GET"
  target := ⟨str "a.b", 8443, str "/"⟩
  headers := []
  body := none
  raw := ascii "GET / HTTP/1.1\r\nHost: a.b\r\n\r\n"
  raw_eq := by decide +kernel

theorem perform_ported :
    perform portedUrls (str "GET") (str "https://a.b:8443/") [] none = .ok portedHop :=
  perform_ok portedUrls rfl portedHop.raw_eq

theorem host_iff_ported : SendsHost portedHop ported.authority ↔ ported.Plain :=
  (host_iff perform_ported rfl nofun).1

/-- The port of the URL is left out. -/
theorem port_left_out : portedUrls.split (str "https://a.b:8443/") = .ok ported ∧
    perform portedUrls (str "GET") (str "https://a.b:8443/") [] none = .ok portedHop ∧
    ported.authority = str "a.b:8443" ∧ SendsHost portedHop (str "a.b") ∧
    ¬ SendsHost portedHop ported.authority := by
  have hno : NoHost portedHop.headers := nofun
  exact ⟨rfl, perform_ported, by decide, (sendsHost_iff hno).mpr rfl,
    fun h => absurd ((sendsHost_iff hno).mp h) (by decide)⟩

end Fizzpy
