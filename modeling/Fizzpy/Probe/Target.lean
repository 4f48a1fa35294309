import Fizzpy.Numerals
import Fizzpy.Probe.Cli
import Fizzpy.Probe.IpAddress

/-!
# Targets

`parse_target` and what it makes of the spellings of one endpoint. `urlsplit`, `str.lower`,
`str.isprintable` and the `idna` codec are parameters (`Std`), of which their documentation is
assumed: `urlsplit` yields the port and the lower-cased hostname without brackets, but keeps the
letters of a zone. A bare IP literal does not come to `urlsplit`. It is returned as it is written.
-/

namespace Fizzpy

namespace Probe

open Foundation

/-! ## The source -/

/-- What `parse_target` reads of `urlsplit(url)`. Reading the port may raise. -/
structure NetUrl where
  scheme : Str
  netloc : Str
  username : Option Str
  password : Option Str
  hostname : Option Str
  port : Except Str (Option ℕ)

/-- `urlsplit`, with the text of the `ValueError` that it may raise; `idna` tells whether
`encode("idna")` takes a host, `isprintable` whether `repr` shows a character as it is. -/
structure Std where
  lower : Str → Str
  isprintable : ℕ → Bool
  urlsplit : Str → Except Str NetUrl
  idna : Str → Bool

def Std.repr (std : Std) (s : Str) : Str := reprWith std.isprintable s

def valueError (text : Str) : Exn := { kind := .valueError, name := str "ValueError", text }

/-- `rstrip(".")`. -/
def rstripDots (s : Str) : Str := s.rdropWhile (· = '.')

/-- `parse_target` behind `urlsplit`. -/
def readTarget (std : Std) (target : Str) (defaultPort : ℕ) (parts : NetUrl) : Except Exn Target :=
  let host := rstripDots (parts.hostname.getD [])
  if parts.scheme ≠ [] ∧ parts.scheme ≠ str "https" then
    .error (valueError (str "fizzpy probes TLS only, got " ++ std.repr parts.scheme ++ str ": " ++
      std.repr target))
  else if parts.username ≠ none ∨ parts.password ≠ none then
    .error (valueError (str "unexpected user info in " ++ std.repr target))
  else if host = [] then .error (valueError (str "no host in " ++ std.repr target))
  else if ¬ std.idna host then .error (valueError (str "invalid hostname in " ++ std.repr target))
  else if str ":" <:+ parts.netloc then .error (valueError (str "empty port in " ++ std.repr target))
  else
    match parts.port with
    | .error text => .error (valueError text)
    | .ok port =>
      let port := port.getD defaultPort
      if ¬ (1 ≤ port ∧ port ≤ 65535) then
        .error (valueError (str "port out of range in " ++ std.repr target))
      else .ok (host, port)

/-- The URL that is split. -/
def urlOf (text : Str) : Str := if contains (str "://") text then text else str "//" ++ text

def parseTarget (std : Std) (target : Str) (defaultPort : ℕ := 443) : Except Exn Target :=
  let text := strip isSpace target
  if isIpAddress text then .ok (text, defaultPort)
  else
    match std.urlsplit (urlOf text) with
    | .error text => .error (valueError text)
    | .ok parts => readTarget std target defaultPort parts

/-! ## What is assumed -/

/-- The authority of a URL: an IPv6 literal stands in brackets. -/
def netlocOf (host : Str) (port : Option ℕ) : Str :=
  (if ':' ∈ host then '[' :: host ++ [']'] else host) ++
    match port with
    | none => []
    | some port => ':' :: Nat.toDigits 10 port

/-- The zone of a host, with its percent sign. -/
def zone (s : Str) : Str := s.dropWhile (· ≠ '%')

/-- The hostname of a host: lower-case up to its zone. -/
def Std.hostname (std : Std) (host : Str) : Str := std.lower (address host) ++ zone host

/-- `urlsplit` takes the text for a host, under any port and in front of any path. -/
structure Std.Reads (std : Std) (host : Str) : Prop where
  bare : ∀ port : Option ℕ, port.getD 0 ≤ 65535 → std.urlsplit (str "//" ++ netlocOf host port) =
    .ok ⟨[], netlocOf host port, none, none, some (std.hostname host), .ok port⟩
  https : ∀ (port : Option ℕ) (path : Str), port.getD 0 ≤ 65535 → (path = [] ∨ path.head? = some '/') →
    std.urlsplit (str "https://" ++ netlocOf host port ++ path) =
      .ok ⟨str "https", netlocOf host port, none, none, some (std.hostname host), .ok port⟩

/-- What the documentation of `str.lower` and `urlsplit` says. Of a host with a zone, only what is in
front of the zone is lower-case. -/
structure Std.Documented (std : Std) : Prop where
  lower_lower : ∀ s, std.lower (std.lower s) = std.lower s
  lower_rstripDots : ∀ s, std.lower (rstripDots s) = rstripDots (std.lower s)
  lower_zone : ∀ front rest, std.lower (front ++ '%' :: rest) = std.lower front ++ '%' :: std.lower rest
  hostname : ∀ url parts host, std.urlsplit url = .ok parts → parts.hostname = some host →
    std.lower (address host) = address host ∧ '[' ∉ host ∧ ']' ∉ host

/-! ## Endpoints and their spellings -/

/-- The host that is read: the hostname, without the dots behind it. -/
def hostRead (std : Std) (host : Str) : Str := rstripDots (std.hostname host)

/-- A host name or an IP literal, as it may be written. -/
structure IsHost (std : Std) (host : Str) : Prop where
  reads : std.Reads host
  name_or_literal : isIpAddress host = true ∨ ':' ∉ host
  slash : '/' ∉ host
  brackets : '[' ∉ host ∧ ']' ∉ host
  nonempty : hostRead std host ≠ []
  idna : std.idna (hostRead std host) = true

/-- The host that is meant. -/
def hostOf (std : Std) (host : Str) : Str := std.lower (rstripDots host)

/-- The forms of a target: the host alone, with a port, or in an `https` URL. The port may be left
out where it is 443. -/
inductive Form (host : Str) (port : ℕ) : Str → Prop
  | alone (hp : port = 443) : Form host port host
  | netloc {p : Option ℕ} (hp : p.getD 443 = port) : Form host port (netlocOf host p)
  | url {p : Option ℕ} {path : Str} (hp : p.getD 443 = port)
      (hpath : path = [] ∨ path.head? = some '/') :
      Form host port (str "https://" ++ netlocOf host p ++ path)

/-- A spelling of an endpoint, white space around it aside. -/
def Spells (std : Std) (target : Str) (endpoint : Target) : Prop :=
  ∃ host, IsHost std host ∧ hostOf std host = endpoint.1 ∧
    Form host endpoint.2 (strip isSpace target) ∧ 1 ≤ endpoint.2 ∧ endpoint.2 ≤ 65535

/-- In lower case, without a dot behind. -/
def Settled (std : Std) (host : Str) : Prop := std.lower host = host ∧ host.getLast? ≠ some '.'

/-- An endpoint in normal form. -/
def Normal (std : Std) (endpoint : Target) : Prop :=
  Settled std endpoint.1 ∧ '[' ∉ endpoint.1 ∧ ']' ∉ endpoint.1 ∧ 1 ≤ endpoint.2 ∧ endpoint.2 ≤ 65535

/-- A bare literal is written in normal form. Another host has no zone, or one in lower case. -/
def Plain (std : Std) (target : Str) : Prop :=
  let text := strip isSpace target
  if isIpAddress text then Settled std text ∧ '[' ∉ text ∧ ']' ∉ text
  else ∀ parts host, std.urlsplit (urlOf text) = .ok parts → parts.hostname = some host →
    '%' ∈ host → std.lower (rstripDots host) = rstripDots host

variable {std : Std}

theorem plain_literal {target : Str} (hip : isIpAddress (strip isSpace target) = true) :
    Plain std target ↔ Settled std (strip isSpace target) ∧ '[' ∉ strip isSpace target ∧
      ']' ∉ strip isSpace target := by
  unfold Plain
  dsimp only
  rw [if_pos hip]

/-- Of a literal without a zone this is a matter of the letters. -/
theorem plain_zoneless {target : Str} (hip : isIpAddress (strip isSpace target) = true)
    (hzone : '%' ∉ strip isSpace target) :
    Plain std target ↔ std.lower (strip isSpace target) = strip isSpace target := by
  rw [plain_literal hip]
  constructor
  · exact fun h => h.1.1
  · intro h
    obtain ⟨hopen, hclose, hlast⟩ := zoneless_chars hip hzone
    exact ⟨⟨h, hlast⟩, hopen, hclose⟩

/-! ## The normal form -/

theorem getLast?_rstripDots (s : Str) : (rstripDots s).getLast? ≠ some '.' := by
  intro h
  have hne : rstripDots s ≠ [] := by
    intro hnil
    rw [hnil] at h
    cases h
  rw [List.getLast?_eq_some_getLast hne, Option.some.injEq] at h
  have hlast := List.rdropWhile_last_not (fun c : Char => decide (c = '.')) s hne
  exact hlast (decide_eq_true h)

theorem rstripDots_eq_self {s : Str} (h : s.getLast? ≠ some '.') : rstripDots s = s := by
  unfold rstripDots
  rw [List.rdropWhile_eq_self_iff]
  intro hne hdot
  rw [List.getLast?_eq_some_getLast hne] at h
  exact h (congrArg some (of_decide_eq_true hdot))

theorem mem_of_mem_rstripDots {s : Str} {c : Char} (h : c ∈ rstripDots s) : c ∈ s :=
  (List.rdropWhile_prefix _ _).subset h

/-- What the code behind `urlsplit` comes to. -/
theorem readTarget_cases (std : Std) (target : Str) (defaultPort : ℕ) (parts : NetUrl) :
    (∃ text, readTarget std target defaultPort parts = .error (valueError text)) ∨
      ∃ host port, parts.hostname = some host ∧ 1 ≤ port ∧ port ≤ 65535 ∧
        readTarget std target defaultPort parts = .ok (rstripDots host, port) := by
  unfold readTarget
  dsimp only
  split_ifs with hscheme huser hhost hidna hcolon
  · exact .inl ⟨_, rfl⟩
  · exact .inl ⟨_, rfl⟩
  · exact .inl ⟨_, rfl⟩
  · exact .inl ⟨_, rfl⟩
  · cases hname : parts.hostname with
    | none =>
      rw [hname] at hhost
      exact absurd rfl hhost
    | some host =>
      cases hport : parts.port with
      | error text => exact .inl ⟨text, rfl⟩
      | ok port =>
        dsimp only
        split_ifs with hrange
        · exact .inr ⟨host, _, rfl, hrange.1, hrange.2, rfl⟩
        · exact .inl ⟨_, rfl⟩
  · exact .inl ⟨_, rfl⟩

theorem parseTarget_literal {target : Str} (hip : isIpAddress (strip isSpace target) = true) :
    parseTarget std target = .ok (strip isSpace target, 443) := by
  unfold parseTarget
  dsimp only
  rw [if_pos hip]

theorem parseTarget_split {target : Str} {parts : NetUrl}
    (hip : isIpAddress (strip isSpace target) = false)
    (h : std.urlsplit (urlOf (strip isSpace target)) = .ok parts) :
    parseTarget std target = readTarget std target 443 parts := by
  unfold parseTarget
  dsimp only
  rw [hip, if_neg Bool.false_ne_true, h]

/-- A target that is no bare literal is rejected, or its host is what `urlsplit` reads. -/
theorem parseTarget_cases (std : Std) {target : Str} (hip : isIpAddress (strip isSpace target) = false) :
    (∃ text, parseTarget std target = .error (valueError text)) ∨
      ∃ parts host port, std.urlsplit (urlOf (strip isSpace target)) = .ok parts ∧
        parts.hostname = some host ∧ 1 ≤ port ∧ port ≤ 65535 ∧
        parseTarget std target = .ok (rstripDots host, port) := by
  cases hurl : std.urlsplit (urlOf (strip isSpace target)) with
  | error text =>
    refine .inl ⟨text, ?_⟩
    unfold parseTarget
    dsimp only
    rw [hip, if_neg Bool.false_ne_true, hurl]
  | ok parts =>
    rw [parseTarget_split hip hurl]
    exact (readTarget_cases std target 443 parts).imp id
      fun ⟨host, port, hname, hlow, hhigh, heq⟩ => ⟨parts, host, port, rfl, hname, hlow, hhigh, heq⟩

theorem parseTarget_rejects {target : Str} {e : Exn} (h : parseTarget std target = .error e) :
    e.kind = .valueError := by
  cases hip : isIpAddress (strip isSpace target) with
  | true =>
    rw [parseTarget_literal hip] at h
    cases h
  | false =>
    obtain ⟨text, heq⟩ | ⟨parts, host, port, -, -, -, -, heq⟩ := parseTarget_cases std hip
    · rw [heq, Except.error.injEq] at h
      rw [← h]
      rfl
    · rw [heq] at h
      cases h

/-- Of a host that `urlsplit` reads only the zone can have other letters. -/
theorem plain_split (docs : std.Documented) {target host : Str} {parts : NetUrl}
    (hip : isIpAddress (strip isSpace target) = false)
    (hurl : std.urlsplit (urlOf (strip isSpace target)) = .ok parts) (hname : parts.hostname = some host) :
    Plain std target ↔ std.lower (rstripDots host) = rstripDots host := by
  unfold Plain
  dsimp only
  rw [hip, if_neg Bool.false_ne_true]
  constructor
  · intro h
    by_cases hzone : '%' ∈ host
    · exact h parts host hurl hname hzone
    · have hlower := (docs.hostname _ _ _ hurl hname).1
      rw [address_of_not_mem hzone] at hlower
      rw [docs.lower_rstripDots, hlower]
  · intro h parts' host' hurl' hname' _
    obtain rfl : parts = parts' := Except.ok.inj (hurl.symm.trans hurl')
    obtain rfl : host = host' := Option.some.inj (hname.symm.trans hname')
    exact h

/-- What a target is parsed to is in normal form exactly where the target is plain. -/
theorem normal_iff (docs : std.Documented) {target : Str} {endpoint : Target}
    (h : parseTarget std target = .ok endpoint) : Normal std endpoint ↔ Plain std target := by
  cases hip : isIpAddress (strip isSpace target) with
  | true =>
    rw [parseTarget_literal hip, Except.ok.injEq] at h
    rw [← h, plain_literal hip]
    exact ⟨fun ⟨hsettled, hopen, hclose, _⟩ => ⟨hsettled, hopen, hclose⟩,
      fun ⟨hsettled, hopen, hclose⟩ => ⟨hsettled, hopen, hclose, Nat.le_add_left 1 442, by simp⟩⟩
  | false =>
    obtain ⟨text, heq⟩ | ⟨parts, host, port, hurl, hname, hlow, hhigh, heq⟩ :=
      parseTarget_cases std hip
    · rw [heq] at h
      cases h
    · rw [heq, Except.ok.injEq] at h
      rw [← h, plain_split docs hip hurl hname]
      obtain ⟨-, hopen, hclose⟩ := docs.hostname _ _ _ hurl hname
      exact ⟨fun hnormal => hnormal.1.1, fun hlower => ⟨⟨hlower, getLast?_rstripDots host⟩,
        fun hc => hopen (mem_of_mem_rstripDots hc), fun hc => hclose (mem_of_mem_rstripDots hc),
        hlow, hhigh⟩⟩

/-! ## The host that is read and the one that is meant -/

theorem address_append_zone (s : Str) : address s ++ zone s = s := List.takeWhile_append_dropWhile

theorem zone_cases (s : Str) : zone s = [] ∨ ∃ rest, zone s = '%' :: rest := by
  cases hzone : zone s with
  | nil => exact .inl rfl
  | cons c rest =>
    have hhead := List.head?_dropWhile_not (fun c : Char => decide (c ≠ '%')) s
    rw [show s.dropWhile (fun c => decide (c ≠ '%')) = c :: rest from hzone] at hhead
    exact .inr ⟨rest, by rw [of_not_not (of_decide_eq_false hhead)]⟩

/-- The letters apart, a hostname is the host. -/
theorem lower_hostname (docs : std.Documented) (host : Str) :
    std.lower (std.hostname host) = std.lower host := by
  have hhost := address_append_zone host
  unfold Std.hostname
  obtain hzone | ⟨rest, hzone⟩ := zone_cases host
  · rw [hzone, List.append_nil] at hhost ⊢
    rw [docs.lower_lower, hhost]
  · rw [hzone] at hhost ⊢
    rw [docs.lower_zone, docs.lower_lower, ← docs.lower_zone, hhost]

theorem lower_hostRead (docs : std.Documented) (host : Str) :
    std.lower (hostRead std host) = hostOf std host := by
  unfold hostRead hostOf
  rw [docs.lower_rstripDots, docs.lower_rstripDots, lower_hostname docs]

theorem settled_hostOf (docs : std.Documented) (host : Str) : Settled std (hostOf std host) := by
  unfold hostOf
  constructor
  · exact docs.lower_lower _
  · rw [docs.lower_rstripDots]
    exact getLast?_rstripDots _

/-! ## The spellings -/

theorem isDigit_toDigits {n : ℕ} : ∀ c ∈ Nat.toDigits 10 n, c.isDigit = true :=
  fun _ hc => Nat.isDigit_of_mem_toDigits (by decide) (by decide) hc

theorem urlOf_slashless {text : Str} (h : '/' ∉ text) : urlOf text = str "//" ++ text := by
  have hnot : ¬ str "://" <:+: text := fun hin => h (hin.subset (by decide))
  unfold urlOf contains
  rw [decide_eq_false hnot, if_neg Bool.false_ne_true]

theorem slash_netlocOf {host : Str} (h : '/' ∉ host) (port : Option ℕ) : '/' ∉ netlocOf host port := by
  have hdigits : ∀ n, '/' ∉ Nat.toDigits 10 n := fun n hc => absurd (isDigit_toDigits '/' hc) (by decide)
  unfold netlocOf
  cases port with
  | none => split_ifs <;> simp [h]
  | some n => split_ifs <;> simp [h, hdigits n]

/-- An authority does not end in a colon. -/
theorem colon_netlocOf (host : Str) (port : Option ℕ) : ¬ str ":" <:+ netlocOf host port := by
  rintro ⟨front, hfront⟩
  have hlast : (netlocOf host port).getLast? = some ':' := by
    rw [← hfront]
    exact List.getLast?_concat
  unfold netlocOf at hlast
  cases port with
  | none =>
    rw [List.append_nil] at hlast
    split_ifs at hlast with hcolon
    · rw [List.getLast?_concat] at hlast
      exact absurd hlast (by decide)
    · exact hcolon (List.mem_of_getLast? hlast)
  | some n =>
    have hne : Nat.toDigits 10 n ≠ [] := Nat.toDigits_ne_nil
    rw [List.append_cons, List.getLast?_append_of_ne_nil _ hne] at hlast
    exact absurd (isDigit_toDigits ':' (List.mem_of_getLast? hlast)) (by decide)

/-- The authority of a host is read, whatever the scheme. -/
theorem readTarget_host {host : Str} (h : IsHost std host) {port : ℕ}
    (hport : 1 ≤ port ∧ port ≤ 65535) {p : Option ℕ} (hp : p.getD 443 = port) {scheme : Str}
    (hscheme : scheme = [] ∨ scheme = str "https") (target : Str) :
    readTarget std target 443
      ⟨scheme, netlocOf host p, none, none, some (std.hostname host), .ok p⟩ =
        .ok (hostRead std host, port) := by
  have hne : rstripDots (std.hostname host) ≠ [] := h.nonempty
  have hidna : std.idna (rstripDots (std.hostname host)) = true := h.idna
  unfold readTarget
  dsimp only [Option.getD_some]
  rw [if_neg fun hc => hscheme.elim hc.1 hc.2, if_neg (by simp), if_neg hne,
    if_neg (not_not.mpr hidna), if_neg (colon_netlocOf host p), hp, if_neg (not_not.mpr hport)]
  rfl

/-- What `urlsplit` reads of a form that is no bare literal. -/
theorem split_form {host text : Str} (h : IsHost std host) {port : ℕ} (hport : port ≤ 65535)
    (hform : Form host port text) (hip : isIpAddress text = false) :
    ∃ scheme p, std.urlsplit (urlOf text) =
        .ok ⟨scheme, netlocOf host p, none, none, some (std.hostname host), .ok p⟩ ∧
      (scheme = [] ∨ scheme = str "https") ∧ p.getD 443 = port := by
  have hmax : ∀ p : Option ℕ, p.getD 443 = port → p.getD 0 ≤ 65535 := by
    rintro (- | p) hp
    · exact Nat.zero_le _
    · exact hp ▸ hport
  have hnetloc : ∀ p : Option ℕ, p.getD 443 = port → text = netlocOf host p → ∃ scheme p,
      std.urlsplit (urlOf text) =
          .ok ⟨scheme, netlocOf host p, none, none, some (std.hostname host), .ok p⟩ ∧
        (scheme = [] ∨ scheme = str "https") ∧ p.getD 443 = port := by
    rintro p hp rfl
    rw [urlOf_slashless (slash_netlocOf h.slash p)]
    exact ⟨[], p, h.reads.bare p (hmax p hp), .inl rfl, hp⟩
  cases hform with
  | alone hp =>
    have hcolon : ':' ∉ host := by
      refine h.name_or_literal.resolve_left fun hl => ?_
      rw [hl] at hip
      cases hip
    refine hnetloc none hp.symm ?_
    unfold netlocOf
    rw [if_neg hcolon, List.append_nil]
  | netloc hp => exact hnetloc _ hp rfl
  | url hp hpath =>
    rename_i p path
    have hurl : urlOf (str "https://" ++ netlocOf host p ++ path) =
        str "https://" ++ netlocOf host p ++ path := by
      refine if_pos (decide_eq_true ⟨str "https", netlocOf host p ++ path, ?_⟩)
      rw [← List.append_assoc]
      rfl
    rw [hurl]
    exact ⟨_, p, h.reads.https p path (hmax p hp) hpath, .inr rfl, hp⟩

/-- A form is a bare literal only where it is the host itself. -/
theorem Form.literal {host text : Str} {port : ℕ} (h : Form host port text)
    (hip : isIpAddress text = true) : text = host ∧ port = 443 := by
  cases h with
  | alone hp => exact ⟨rfl, hp⟩
  | netloc hp =>
    rename_i p
    by_cases hcolon : ':' ∈ host
    · have hbracket : ∃ rest, netlocOf host p = '[' :: rest := by
        unfold netlocOf
        rw [if_pos hcolon]
        exact ⟨_, rfl⟩
      obtain ⟨rest, hrest⟩ := hbracket
      rw [hrest, not_isIpAddress_bracket] at hip
      cases hip
    · unfold netlocOf at hip ⊢
      rw [if_neg hcolon] at hip ⊢
      cases p with
      | none => exact ⟨List.append_nil host, hp.symm⟩
      | some n =>
        dsimp only at hip
        rw [not_isIpAddress_port hcolon isDigit_toDigits] at hip
        cases hip
  | url hp hpath =>
    refine absurd ?_ (slash_of_isIpAddress hip)
    rw [List.append_assoc]
    exact List.mem_append_left _ (by decide)

/-- A spelling is accepted. A plain one is parsed to its endpoint, and only of a plain one the host
that comes out is settled. -/
theorem parseTarget_spelled (docs : std.Documented) {target : Str} {endpoint : Target}
    (h : Spells std target endpoint) : ∃ parsed, parseTarget std target = .ok parsed ∧
      (Settled std parsed.1 → Plain std target) ∧ (Plain std target → parsed = endpoint) := by
  obtain ⟨host, hhost, heq, hform, hlow, hhigh⟩ := h
  cases hip : isIpAddress (strip isSpace target) with
  | true =>
    obtain ⟨htext, h443⟩ := hform.literal hip
    refine ⟨_, parseTarget_literal hip, ?_, ?_⟩
    · intro hsettled
      rw [plain_literal hip, htext]
      exact ⟨htext ▸ hsettled, hhost.brackets⟩
    · intro hplain
      obtain ⟨⟨hlower, hlast⟩, -⟩ := (plain_literal hip).mp hplain
      refine Prod.ext ?_ h443.symm
      show strip isSpace target = endpoint.1
      rw [htext] at hlower hlast ⊢
      rw [← heq, hostOf, rstripDots_eq_self hlast, hlower]
  | false =>
    obtain ⟨scheme, p, hurl, hscheme, hp⟩ := split_form hhost hhigh hform hip
    have hread := readTarget_host hhost ⟨hlow, hhigh⟩ hp hscheme target
    refine ⟨_, (parseTarget_split hip hurl).trans hread, ?_, ?_⟩
    · exact fun hsettled => (plain_split docs hip hurl rfl).mpr hsettled.1
    · intro hplain
      have hlower : std.lower (hostRead std host) = hostRead std host :=
        (plain_split docs hip hurl rfl).mp hplain
      refine Prod.ext ?_ rfl
      show hostRead std host = endpoint.1
      rw [← heq, ← lower_hostRead docs, hlower]

theorem Spells.settled (docs : std.Documented) {target : Str} {endpoint : Target}
    (h : Spells std target endpoint) : Settled std endpoint.1 := by
  obtain ⟨host, -, heq, -⟩ := h
  exact heq ▸ settled_hostOf docs host

/-- The targets come to their endpoints, each where it is first, exactly where all are plain. -/
theorem firsts_parsed (docs : std.Documented) (targets : List (Str × Target))
    (h : ∀ t ∈ targets, Spells std t.1 t.2) :
    ∃ parsed, (targets.map Prod.fst).mapM (fun t => parseTarget std t) = .ok parsed ∧
      (firsts parsed = firsts (targets.map Prod.snd) ↔ ∀ t ∈ targets, Plain std t.1) := by
  have hspelled : ∀ s ∈ targets.map Prod.fst, ∃ parsed, parseTarget std s = .ok parsed := by
    intro s hs
    obtain ⟨t, ht, rfl⟩ := List.mem_map.mp hs
    obtain ⟨parsed, hparsed, -⟩ := parseTarget_spelled docs (h t ht)
    exact ⟨parsed, hparsed⟩
  choose! parsed hparsed using hspelled
  have hboth : ∀ t ∈ targets, (Settled std (parsed t.1).1 → Plain std t.1) ∧
      (Plain std t.1 → parsed t.1 = t.2) := by
    intro t ht
    obtain ⟨p, hp, hback⟩ := parseTarget_spelled docs (h t ht)
    obtain rfl : parsed t.1 = p := Except.ok.inj ((hparsed t.1 (List.mem_map_of_mem ht)).symm.trans hp)
    exact hback
  refine ⟨_, mapM_ok hparsed, ?_⟩
  rw [List.map_map]
  constructor
  · intro heq t ht
    have hmem : parsed t.1 ∈ firsts (targets.map Prod.snd) := by
      rw [← heq, mem_firsts]
      exact List.mem_map.mpr ⟨t, ht, rfl⟩
    obtain ⟨t', ht', hshown⟩ := List.mem_map.mp (mem_firsts.mp hmem)
    refine (hboth t ht).1 ?_
    rw [← hshown]
    exact (h t' ht').settled docs
  · intro hplain
    congr 1
    exact List.map_congr_left fun t ht => (hboth t ht).2 (hplain t ht)

/-! ## Other letters, and a dot behind -/

theorem hostOf_recased (docs : std.Documented) {host host' : Str} (h : std.lower host' = std.lower host) :
    hostOf std host' = hostOf std host := by
  unfold hostOf
  rw [docs.lower_rstripDots, docs.lower_rstripDots, h]

theorem hostOf_dot (std : Std) (host : Str) : hostOf std (host ++ ['.']) = hostOf std host := by
  unfold hostOf rstripDots
  rw [List.rdropWhile_concat_pos _ _ _ (by decide)]

/-- **Targets.** A target is rejected with a `ValueError` or parsed to the normal form, a spelling of
an endpoint is parsed to it, and of a list of spellings each endpoint is left once: all of these
exactly where a bare IP literal is written in normal form, and a zone that `urlsplit` reads in lower
case. -/
theorem targets_canonical_iff (std : Std) (docs : std.Documented) :
    (∀ target e, parseTarget std target = .error e → e.kind = .valueError) ∧
      (∀ target endpoint, parseTarget std target = .ok endpoint →
        (Normal std endpoint ↔ Plain std target)) ∧
      (∀ host host', std.lower host' = std.lower host → hostOf std host' = hostOf std host) ∧
      (∀ host, hostOf std (host ++ ['.']) = hostOf std host) ∧
      (∀ target endpoint, Spells std target endpoint →
        (parseTarget std target = .ok endpoint ↔ Plain std target)) ∧
      ∀ targets : List (Str × Target), (∀ t ∈ targets, Spells std t.1 t.2) →
        ∃ parsed, (targets.map Prod.fst).mapM (fun t => parseTarget std t) = .ok parsed ∧
          (firsts parsed = firsts (targets.map Prod.snd) ↔ ∀ t ∈ targets, Plain std t.1) := by
  refine ⟨fun target e => parseTarget_rejects, fun target endpoint => normal_iff docs,
    fun host host' => hostOf_recased docs, hostOf_dot std, ?_, firsts_parsed docs⟩
  intro target endpoint h
  obtain ⟨parsed, hparsed, hplain, hmeant⟩ := parseTarget_spelled docs h
  rw [hparsed, Except.ok.injEq]
  constructor
  · rintro rfl
    exact hplain (h.settled docs)
  · exact hmeant

/-! ## An upper-case literal -/

/-- The host and the port of an authority without user info. -/
def hostinfo (netloc : Str) : Str × Str :=
  if netloc.head? = some '[' then
    (netloc.tail.takeWhile (· ≠ ']'), (netloc.tail.dropWhile (· ≠ ']')).drop 2)
  else (netloc.takeWhile (· ≠ ':'), (netloc.dropWhile (· ≠ ':')).drop 1)

def plainParts (scheme netloc : Str) : Except Str NetUrl :=
  let (host, port) := hostinfo netloc
  if '[' ∈ host ∨ ']' ∈ host then .error (str "Invalid IPv6 URL")
  else .ok {
    scheme, netloc
    username := none
    password := none
    hostname := some (lower (address host) ++ zone host)
    port := .ok (if port = [] then none else some (ofDigits 10 (port.map fun c => c.toNat - 48))) }

/-- `urlsplit` of a URL without user info, query and fragment. -/
def plainSplit (url : Str) : Except Str NetUrl :=
  if str "https:" <+: url then plainParts (str "https") ((url.drop 8).takeWhile (· ≠ '/'))
  else plainParts [] ((url.drop 2).takeWhile (· ≠ '/'))

/-- For hosts of ASCII letters and IP literals. -/
def plainStd : Std := ⟨lower, fun n => 32 ≤ n && n < 127, plainSplit, fun _ => true⟩

theorem lowerChar_latin1 : ∀ n : Fin 256,
    lowerChar (lowerChar (Char.ofNat n)) = lowerChar (Char.ofNat n) ∧
      (lowerChar (Char.ofNat n) = '.' ↔ Char.ofNat n = '.') ∧
      (lowerChar (Char.ofNat n) = '[' → Char.ofNat n = '[') ∧
      (lowerChar (Char.ofNat n) = ']' → Char.ofNat n = ']') ∧
      (lowerChar (Char.ofNat n) = '%' → Char.ofNat n = '%') := by
  decide +kernel

/-- A letter stays one, and nothing else changes. -/
theorem lowerChar_facts (c : Char) : lowerChar (lowerChar c) = lowerChar c ∧
    (lowerChar c = '.' ↔ c = '.') ∧ ∀ d ∈ ['[', ']', '%'], lowerChar c = d → c = d := by
  by_cases hc : c.toNat < 256
  · have h := lowerChar_latin1 ⟨c.toNat, hc⟩
    rw [show Char.ofNat (⟨c.toNat, hc⟩ : Fin 256) = c from Char.ofNat_toNat c] at h
    obtain ⟨hlower, hdot, hopen, hclose, hzone⟩ := h
    refine ⟨hlower, hdot, ?_⟩
    simpa using ⟨hopen, hclose, hzone⟩
  · have hsame : lowerChar c = c := by
      unfold lowerChar
      rw [if_neg (by omega)]
    rw [hsame]
    exact ⟨hsame, Iff.rfl, fun _ _ => id⟩

theorem mem_lower {c : Char} (hc : c ∈ ['[', ']', '%']) {s : Str} (h : c ∈ lower s) : c ∈ s := by
  obtain ⟨d, hd, heq⟩ := List.mem_map.mp h
  exact (lowerChar_facts d).2.2 c hc heq ▸ hd

theorem lower_rstripDots (s : Str) : lower (rstripDots s) = rstripDots (lower s) := by
  have hdot : (fun c => decide (c = '.')) ∘ lowerChar = fun c => decide (c = '.') := by
    funext c
    exact decide_eq_decide.mpr (lowerChar_facts c).2.1
  unfold rstripDots lower List.rdropWhile
  rw [← List.map_reverse, List.dropWhile_map, hdot, List.map_reverse]

theorem lower_lower (s : Str) : lower (lower s) = lower s := by
  unfold lower
  rw [List.map_map]
  exact List.map_congr_left fun c _ => (lowerChar_facts c).1

theorem lower_zone (front rest : Str) : lower (front ++ '%' :: rest) = lower front ++ '%' :: lower rest := by
  unfold lower
  rw [List.map_append, List.map_cons]
  rfl

theorem not_mem_address (s : Str) : '%' ∉ address s := fun h =>
  absurd (List.mem_takeWhile_imp h) (by decide)

theorem hostname_plainParts {scheme netloc host : Str} {parts : NetUrl}
    (h : plainParts scheme netloc = .ok parts) (hhost : parts.hostname = some host) :
    lower (address host) = address host ∧ '[' ∉ host ∧ ']' ∉ host := by
  unfold plainParts at h
  dsimp only at h
  by_cases hbracket : '[' ∈ (hostinfo netloc).1 ∨ ']' ∈ (hostinfo netloc).1
  · rw [if_pos hbracket] at h
    cases h
  rw [if_neg hbracket, Except.ok.injEq] at h
  rw [← h, Option.some.injEq] at hhost
  rw [not_or] at hbracket
  have hkept : ∀ c ∈ ['[', ']', '%'], c ∉ (hostinfo netloc).1 → c ∉ host := by
    intro c hc hnot hmem
    rw [← hhost, List.mem_append] at hmem
    obtain hmem | hmem := hmem
    · exact hnot ((List.takeWhile_prefix _).subset (mem_lower hc hmem))
    · exact hnot ((List.dropWhile_suffix _).subset hmem)
  have haddr : address host = lower (address (hostinfo netloc).1) := by
    have hfront : '%' ∉ lower (address (hostinfo netloc).1) := fun hmem =>
      not_mem_address _ (mem_lower (by decide) hmem)
    rw [← hhost]
    obtain hzone | ⟨rest, hzone⟩ := zone_cases (hostinfo netloc).1
    · rw [hzone, List.append_nil, address_of_not_mem hfront]
    · rw [hzone, address_zone hfront]
  refine ⟨?_, hkept '[' (by decide) hbracket.1, hkept ']' (by decide) hbracket.2⟩
  rw [haddr, lower_lower]

theorem plainStd_documented : plainStd.Documented where
  lower_lower := lower_lower
  lower_rstripDots := lower_rstripDots
  lower_zone := lower_zone
  hostname := by
    intro url parts host hurl hhost
    have hurl : plainSplit url = .ok parts := hurl
    unfold plainSplit at hurl
    split_ifs at hurl
    · exact hostname_plainParts hurl hhost
    · exact hostname_plainParts hurl hhost

/-- The text of a port. -/
def portText (port : Option ℕ) : Str := port.elim [] (Nat.toDigits 10)

theorem hostinfo_netlocOf {host : Str} (hopen : '[' ∉ host) (hclose : ']' ∉ host) (port : Option ℕ) :
    hostinfo (netlocOf host port) = (host, portText port) := by
  have hne : ∀ c ∉ host, ∀ d ∈ host, decide (d ≠ c) = true := fun c hc d hd =>
    decide_eq_true fun heq => hc (heq ▸ hd)
  by_cases hcolon : ':' ∈ host
  · have hnetloc : ∃ rest, netlocOf host port = '[' :: (host ++ ']' :: rest) ∧
        rest.drop 1 = portText port := by
      unfold netlocOf
      rw [if_pos hcolon]
      cases port with
      | none => exact ⟨[], by simp, rfl⟩
      | some n => exact ⟨':' :: Nat.toDigits 10 n, by simp, rfl⟩
    obtain ⟨rest, hnetloc, hport⟩ := hnetloc
    rw [hnetloc]
    unfold hostinfo
    rw [List.head?_cons, if_pos rfl, List.tail_cons, List.takeWhile_append_of_pos (hne ']' hclose),
      List.dropWhile_append_of_pos (hne ']' hclose), List.takeWhile_cons_of_neg (by decide),
      List.dropWhile_cons_of_neg (by decide), List.append_nil, ← hport]
    rfl
  · have hnetloc : ∃ rest, netlocOf host port = host ++ rest ∧ (rest = [] ∨ rest.head? = some ':') ∧
        rest.drop 1 = portText port := by
      unfold netlocOf
      rw [if_neg hcolon]
      cases port with
      | none => exact ⟨[], rfl, .inl rfl, rfl⟩
      | some n => exact ⟨':' :: Nat.toDigits 10 n, rfl, .inr rfl, rfl⟩
    obtain ⟨rest, hnetloc, hrest, hport⟩ := hnetloc
    have hhead : (host ++ rest).head? ≠ some '[' := by
      intro h
      cases host with
      | nil =>
        obtain rfl | hrest := hrest
        · cases h
        · exact absurd (hrest.symm.trans h) (by decide)
      | cons c host =>
        rw [List.cons_append, List.head?_cons, Option.some.injEq] at h
        exact hopen (h ▸ List.mem_cons_self ..)
    have hrest' : rest.takeWhile (· ≠ ':') = [] ∧ rest.dropWhile (· ≠ ':') = rest := by
      obtain rfl | hrest := hrest
      · exact ⟨rfl, rfl⟩
      · obtain ⟨digits, rfl⟩ := List.head?_eq_some_iff.mp hrest
        exact ⟨List.takeWhile_cons_of_neg (by decide), List.dropWhile_cons_of_neg (by decide)⟩
    rw [hnetloc]
    unfold hostinfo
    rw [if_neg hhead, List.takeWhile_append_of_pos (hne ':' hcolon),
      List.dropWhile_append_of_pos (hne ':' hcolon), hrest'.1, hrest'.2, List.append_nil, hport]

/-- What `urlsplit` reads of an authority. -/
theorem plainParts_netlocOf {host : Str} (hopen : '[' ∉ host) (hclose : ']' ∉ host) (scheme : Str)
    (port : Option ℕ) : plainParts scheme (netlocOf host port) =
      .ok ⟨scheme, netlocOf host port, none, none, some (plainStd.hostname host), .ok port⟩ := by
  have hread : (if portText port = [] then none
      else some (ofDigits 10 ((portText port).map fun c => c.toNat - 48))) = port := by
    cases port with
    | none => rfl
    | some n =>
      have hne : portText (some n) ≠ [] := Nat.toDigits_ne_nil
      rw [if_neg hne]
      exact congrArg some (ofDigits_toDigits n)
  unfold plainParts
  rw [hostinfo_netlocOf hopen hclose]
  dsimp only
  rw [if_neg (not_or.mpr ⟨hopen, hclose⟩), hread]
  rfl

theorem takeWhile_netlocOf {host path : Str} (hslash : '/' ∉ host) (port : Option ℕ)
    (hpath : path = [] ∨ path.head? = some '/') :
    (netlocOf host port ++ path).takeWhile (· ≠ '/') = netlocOf host port := by
  have hne : ∀ c ∈ netlocOf host port, decide (c ≠ '/') = true := fun c hc =>
    decide_eq_true fun heq => slash_netlocOf hslash port (heq ▸ hc)
  rw [List.takeWhile_append_of_pos hne]
  obtain rfl | hpath := hpath
  · simp
  · obtain ⟨rest, rfl⟩ := List.head?_eq_some_iff.mp hpath
    rw [List.takeWhile_cons_of_neg (by decide), List.append_nil]

theorem plainStd_reads {host : Str} (hslash : '/' ∉ host) (hopen : '[' ∉ host) (hclose : ']' ∉ host) :
    plainStd.Reads host := by
  have hsplit : ∀ url, plainStd.urlsplit url = plainSplit url := fun _ => rfl
  constructor
  · intro port hport
    have hscheme : ¬ str "https:" <+: str "//" ++ netlocOf host port := by
      rintro ⟨rest, hrest⟩
      exact absurd (List.cons.inj hrest).1 (by decide)
    have hnetloc := takeWhile_netlocOf hslash port (.inl rfl)
    rw [List.append_nil] at hnetloc
    rw [hsplit, plainSplit, if_neg hscheme]
    show plainParts [] ((netlocOf host port).takeWhile (· ≠ '/')) = _
    rw [hnetloc, plainParts_netlocOf hopen hclose]
  · intro port path hport hpath
    have hscheme : str "https:" <+: str "https://" ++ netlocOf host port ++ path :=
      ⟨str "//" ++ netlocOf host port ++ path, by simp [str]⟩
    rw [hsplit, plainSplit, if_pos hscheme]
    show plainParts (str "https") ((netlocOf host port ++ path).takeWhile (· ≠ '/')) = _
    rw [takeWhile_netlocOf hslash port hpath, plainParts_netlocOf hopen hclose]

def documentationHost : Str := str "2001:DB8::1"

def documentationEndpoint : Target := (str "2001:db8::1", 443)

theorem documentationHost_isHost : IsHost plainStd documentationHost where
  reads := plainStd_reads (by decide) (by decide) (by decide)
  name_or_literal := .inl (by decide +kernel)
  slash := by decide
  brackets := ⟨by decide, by decide⟩
  nonempty := by decide
  idna := rfl

theorem spells_bracketed : Spells plainStd (str "[2001:DB8::1]:443") documentationEndpoint :=
  ⟨documentationHost, documentationHost_isHost, by decide,
    @Form.netloc documentationHost 443 (some 443) rfl, by decide, by decide⟩

theorem plain_bracketed : Plain plainStd (str "[2001:DB8::1]:443") := by
  have hurl : urlOf (strip isSpace (str "[2001:DB8::1]:443")) =
      str "//" ++ netlocOf documentationHost (some 443) := by
    decide +kernel
  have hsplit := documentationHost_isHost.reads.bare (some 443) (by decide)
  rw [← hurl] at hsplit
  exact (plain_split plainStd_documented (by decide +kernel) hsplit rfl).mpr (by decide +kernel)

/-- In brackets it is parsed to the normal form. -/
theorem bracketed_parsed :
    parseTarget plainStd (str "[2001:DB8::1]:443") = .ok documentationEndpoint :=
  ((targets_canonical_iff plainStd plainStd_documented).2.2.2.2.1 _ _ spells_bracketed).mpr
    plain_bracketed

/-- Bare, it is another target. -/
theorem bare_kept : Spells plainStd (str "2001:DB8::1") documentationEndpoint ∧
    Spells plainStd (str "[2001:DB8::1]:443") documentationEndpoint ∧
    parseTarget plainStd (str "2001:DB8::1") = .ok (documentationHost, 443) ∧
    parseTarget plainStd (str "[2001:DB8::1]:443") = .ok documentationEndpoint ∧
    (documentationHost, 443) ≠ documentationEndpoint ∧
    ¬ Normal plainStd (documentationHost, 443) := by
  have hspells : Spells plainStd (str "2001:DB8::1") documentationEndpoint :=
    ⟨documentationHost, documentationHost_isHost, by decide, .alone rfl, by decide, by decide⟩
  have hbare : parseTarget plainStd (str "2001:DB8::1") = .ok (documentationHost, 443) :=
    parseTarget_literal (by decide +kernel)
  obtain ⟨parsed, hparsed, -, hmeant⟩ := parseTarget_spelled plainStd_documented spells_bracketed
  rw [hmeant plain_bracketed] at hparsed
  refine ⟨hspells, spells_bracketed, hbare, hparsed, by decide, fun h => ?_⟩
  exact absurd h.1.1 (by decide +kernel)

end Probe

end Fizzpy
