import Fizzpy.Contrib.Context
import Fizzpy.Core.Alerts
import Fizzpy.Foundation.Journal

/-!
# The fallback to the standard library

`FizzSSLContext.wrap_socket`: the handshake with Fizz, and with `fallback` another one by `ssl` over a
new connection, when the peer has refused the protocol version. What the calls on the way come to is
given; the connections and handshakes that are begun are kept in a list.
-/

namespace Fizzpy

open Foundation

namespace Fallback

/-- What a call on the way may raise: an `ssl.SSLError`, or any other exception. -/
inductive WrapExn
  | ssl (error : TlsError)
  | other (name text : Str)
  deriving DecidableEq

/-- What a handshake is asked to trust, and the protocols it offers. -/
structure Terms where
  verify : Bool
  cafile : Str
  alpn : List Str
  deriving DecidableEq

/-- `ssl.SSLContext`. -/
structure SSLContext where
  verifyMode : VerifyMode
  checkHostname : Bool
  cafile : Str
  alpn : List Str
  deriving DecidableEq

/-- `ssl.create_default_context(cafile=cafile)`. -/
def SSLContext.createDefault (cafile : Str) : SSLContext := ⟨.certRequired, true, cafile, []⟩

/-- Both the chain and the hostname are verified. -/
def SSLContext.Verifies (ctx : SSLContext) : Prop :=
  ctx.verifyMode = .certRequired ∧ ctx.checkHostname = true

inductive Effect
  | fizzHandshake (serverHostname : Str) (terms : Terms)
  | closeDead
  | newSocket (family : ℕ)
  | connect (peer : Str)
  | stdlibHandshake (ctx : SSLContext) (serverHostname : Option Str)
  | closeNew
  deriving DecidableEq

/-- A second connection is opened. -/
def Effect.opens : Effect → Bool
  | newSocket _ | connect _ => true
  | _ => false

/-- What is returned: a `TlsSocket`, or an `ssl.SSLSocket` of the context. -/
inductive Wrapped
  | tlsSocket
  | sslSocket (ctx : SSLContext)
  deriving DecidableEq

/-- What the calls come to, Fizz's handshake apart. -/
structure World where
  getpeername : Except WrapExn Str
  family : Except WrapExn ℕ
  closeDead : Except WrapExn Unit
  socket : Except WrapExn Unit
  settimeout : Except WrapExn Unit
  connect : Except WrapExn Unit
  createDefaultContext : Str → Except WrapExn Unit
  setAlpnProtocols : List Str → Except WrapExn Unit
  stdlibHandshake : SSLContext → Except WrapExn Unit
  closeNew : Except WrapExn Unit

/-- Python code with the effects it has had, which stay when it raises. -/
abbrev Py := EStateM WrapExn (List Effect)

def ofExcept {α : Type} : Except WrapExn α → Py α
  | .ok a => pure a
  | .error e => throw e

/-- An effect, and what the call for it comes to. -/
def perform (e : Effect) (result : Except WrapExn Unit) : Py Unit := do
  modify (· ++ [e])
  ofExcept result

/-! ## The source -/

/-- `_is_protocol_version_failure`. -/
def isProtocolVersionFailure (error : TlsError) : Bool :=
  if error.cls = .sslCertVerificationError then false
  else
    match error.alert with
    | some (alert, _) => alert = str "protocol_version"
    | none => contains (str "protocol_version") error.msg

/-- What a configuration asks for; `default` is what `default_ca_file()` gives. -/
def termsOf (default : Str) (config : TlsConfig) : Terms :=
  ⟨config.verify, config.resolvedCafile default, config.alpn⟩

/-- `fizz_wrap_socket(sock, server_hostname or "", config)`, which comes to `fizz`. -/
def fizzWrapSocket (fizz : Except WrapExn Unit) (default : Str) (serverHostname : Option Str)
    (config : TlsConfig) : Py Wrapped := do
  perform (.fizzHandshake (serverHostname.getD []) (termsOf default config)) fizz
  return .tlsSocket

/-- The context of the second handshake. -/
def stdlibContext (default : Str) (config : TlsConfig) : SSLContext :=
  let ctx := SSLContext.createDefault (config.resolvedCafile default)
  let ctx := { ctx with alpn := config.alpn }
  if ¬ config.verify then { ctx with checkHostname := false, verifyMode := .certNone } else ctx

/-- The part of `_stdlib_handshake` behind which the new socket is closed when it raises. -/
def overNewSocket (w : World) (default peer : Str) (serverHostname : Option Str)
    (config : TlsConfig) : Py Wrapped := do
  ofExcept w.settimeout
  perform (.connect peer) w.connect
  ofExcept (w.createDefaultContext (config.resolvedCafile default))
  ofExcept (w.setAlpnProtocols config.alpn)
  let ctx := stdlibContext default config
  let name := if serverHostname.getD [] = [] then none else serverHostname
  perform (.stdlibHandshake ctx name) (w.stdlibHandshake ctx)
  return .sslSocket ctx

def stdlibHandshake (w : World) (default peer : Str) (family : ℕ) (serverHostname : Option Str)
    (config : TlsConfig) : Py Wrapped := do
  perform .closeDead w.closeDead
  perform (.newSocket family) w.socket
  try overNewSocket w default peer serverHostname config
  catch e =>
    perform .closeNew w.closeNew
    throw e

/-- What `except ssl.SSLError` makes of what Fizz's handshake has raised. -/
def afterFailure (w : World) (default peer : Str) (family : ℕ) (serverHostname : Option Str)
    (config : TlsConfig) : WrapExn → Py Wrapped
  | .ssl error =>
    if ¬ isProtocolVersionFailure error then throw (.ssl error)
    else stdlibHandshake w default peer family serverHostname config
  | e => throw e

def wrapSocket (w : World) (fizz : Except WrapExn Unit) (default : Str) (ctx : FizzSSLContext)
    (serverHostname : Option Str) : Py Wrapped := do
  let config := ctx.handshakeConfig
  if ¬ ctx.fallback then fizzWrapSocket fizz default serverHostname config
  else
    let peer ← ofExcept w.getpeername
    let family ← ofExcept w.family
    try fizzWrapSocket fizz default serverHostname config
    catch e => afterFailure w default peer family serverHostname config e

/-! ## What a run comes to -/

/-- What the native layer makes a Python error of. -/
structure NativeFailure where
  msg : Str
  certError : Bool
  alertName : Str

namespace NativeFailure

def error (f : NativeFailure) : TlsError := makeTlsError f.msg f.certError f.alertName

/-- The alert it carries, if any: the one in the text, else the typed one. -/
def carried (f : NativeFailure) : Str :=
  if receivedAlertName f.msg = [] then f.alertName else receivedAlertName f.msg

/-- A verification failure, or another alert than a refusal of the protocol version. -/
def Final (f : NativeFailure) : Prop :=
  f.certError = true ∨ f.carried ≠ [] ∧ f.carried ≠ str "protocol_version"

end NativeFailure

/-- What is returned or raised, and the effects. -/
abbrev Outcome := EStateM.Result WrapExn (List Effect) Wrapped

def Outcome.Raises (r : Outcome) (e : WrapExn) : Prop := ∃ effects, r = .error e effects

/-- The failure of Fizz's handshake, once that is begun, is what is raised; no other connection is
opened. -/
structure Reraises (f : NativeFailure) (r : Outcome) : Prop where
  raises : (∃ name terms, .fizzHandshake name terms ∈ journal r) → r.Raises (.ssl f.error)
  once : ∀ e ∈ journal r, e.opens = false

/-- A handshake by the standard library verifies unless the context was told not to, and trusts and
offers what Fizz's was asked to. -/
def Mirrors (ctx : FizzSSLContext) (r : Outcome) : Prop :=
  ∀ sctx name, .stdlibHandshake sctx name ∈ journal r →
    (ctx.verifyMode ≠ .certNone → sctx.Verifies) ∧
    ∃ name' terms, .fizzHandshake name' terms ∈ journal r ∧ sctx.cafile = terms.cafile ∧
      sctx.alpn = terms.alpn

/-! ## The decision -/

theorem alert_error (f : NativeFailure) : f.error.alert.map Prod.fst =
    if f.carried = [] then none else some f.carried := by
  unfold NativeFailure.error NativeFailure.carried makeTlsError
  by_cases h : receivedAlertName f.msg = []
  · by_cases h' : f.alertName = [] <;> simp [h, h']
  · simp [h]

theorem isProtocolVersionFailure_of_final {f : NativeFailure} (h : f.Final) :
    isProtocolVersionFailure f.error = false := by
  unfold isProtocolVersionFailure
  split_ifs with hcert
  · rfl
  obtain hcert' | ⟨hne, hother⟩ := h
  · exact absurd (show f.error.cls = _ from if_pos hcert') hcert
  · have halert := alert_error f
    rw [if_neg hne] at halert
    obtain ⟨⟨alert, remote⟩, hsome, rfl⟩ := Option.map_eq_some_iff.mp halert
    rw [hsome]
    exact decide_eq_false hother

/-! ## The run -/

section

variable (w : World) (fizz : Except WrapExn Unit) (default : Str) (ctx : FizzSSLContext)
  (serverHostname : Option Str)

/-- Fizz's handshake has begun. -/
def began : Effect :=
  .fizzHandshake (serverHostname.getD []) (termsOf default ctx.handshakeConfig)

/-- The handshake is not reached, or is all there is, or has failed and is looked at. -/
inductive Comes : Outcome → Prop
  | before (e : WrapExn) : Comes (.error e [])
  | returned (h : fizz = .ok ()) : Comes (.ok .tlsSocket [began default ctx serverHostname])
  | alone {e : WrapExn} (hf : ctx.fallback = false) (h : fizz = .error e) :
    Comes (.error e [began default ctx serverHostname])
  | failed {e : WrapExn} (peer : Str) (family : ℕ) (hf : ctx.fallback = true) (h : fizz = .error e) :
    Comes (afterFailure w default peer family serverHostname ctx.handshakeConfig e
      [began default ctx serverHostname])

theorem wrapSocket_comes : Comes w fizz default ctx serverHostname
    (wrapSocket w fizz default ctx serverHostname []) := by
  unfold wrapSocket
  cases hf : ctx.fallback with
  | false =>
    cases fizz with
    | ok u => exact .returned rfl
    | error e => exact .alone hf rfl
  | true =>
    cases hpeer : w.getpeername with
    | error e => exact .before e
    | ok peer =>
      cases hfamily : w.family with
      | error e => exact .before e
      | ok family =>
        cases fizz with
        | ok u => exact .returned rfl
        | error e => exact .failed peer family hf rfl

/-- A handshake by the standard library has the one context. -/
def Made (e : Effect) : Prop :=
  ∀ sctx name, e = .stdlibHandshake sctx name → sctx = stdlibContext default ctx.handshakeConfig

theorem writes_ofExcept {P : Effect → Prop} {α : Type} (x : Except WrapExn α) :
    Writes P (ofExcept x) := by
  cases x with
  | ok a => exact writes_pure a
  | error e => exact writes_throw e

theorem writes_perform {P : Effect → Prop} {e : Effect} (h : P e) (x : Except WrapExn Unit) :
    Writes P (perform e x) :=
  (writes_modify h).bind fun _ => writes_ofExcept x

theorem writes_stdlibHandshake (peer : Str) (family : ℕ) : Writes (Made default ctx)
    (stdlibHandshake w default peer family serverHostname ctx.handshakeConfig) := by
  have hplain : ∀ e : Effect, (∀ sctx name, e ≠ .stdlibHandshake sctx name) → Made default ctx e :=
    fun e h sctx name heq => absurd heq (h sctx name)
  unfold stdlibHandshake
  refine (writes_perform (hplain _ (by simp)) _).bind fun _ => ?_
  refine (writes_perform (hplain _ (by simp)) _).bind fun _ => ?_
  refine Writes.tryCatch ?_ fun e => ?_
  · unfold overNewSocket
    refine (writes_ofExcept _).bind fun _ => ?_
    refine (writes_perform (hplain _ (by simp)) _).bind fun _ => ?_
    refine (writes_ofExcept _).bind fun _ => ?_
    refine (writes_ofExcept _).bind fun _ => ?_
    refine (writes_perform ?_ _).bind fun _ => writes_pure _
    rintro sctx name heq
    cases heq
    rfl
  · exact (writes_perform (hplain _ (by simp)) _).bind fun _ => writes_throw e

theorem writes_afterFailure (peer : Str) (family : ℕ) (e : WrapExn) : Writes (Made default ctx)
    (afterFailure w default peer family serverHostname ctx.handshakeConfig e) := by
  unfold afterFailure
  cases e with
  | other name text => exact writes_throw _
  | ssl error =>
    dsimp only
    split_ifs
    · exact writes_stdlibHandshake w default ctx serverHostname peer family
    · exact writes_throw _

theorem stdlibContext_verifies (h : ctx.verifyMode ≠ .certNone) :
    (stdlibContext default ctx.handshakeConfig).Verifies := by
  have hverify : ctx.handshakeConfig.verify = true := decide_eq_true h
  unfold stdlibContext
  dsimp only
  rw [if_neg (not_not.mpr hverify)]
  exact ⟨rfl, rfl⟩

theorem stdlibContext_terms (config : TlsConfig) :
    (stdlibContext default config).cafile = (termsOf default config).cafile ∧
      (stdlibContext default config).alpn = (termsOf default config).alpn := by
  unfold stdlibContext
  dsimp only
  split_ifs <;> exact ⟨rfl, rfl⟩

theorem opens_began : ∀ e ∈ [began default ctx serverHostname], e.opens = false := by
  intro e he
  rw [List.mem_singleton.mp he]
  rfl

theorem stdlibHandshake_ne_began (sctx : SSLContext) (name : Option Str) :
    Effect.stdlibHandshake sctx name ∉ [began default ctx serverHostname] := by
  simp [began]

theorem reraises_wrapSocket {f : NativeFailure} (h : f.Final ∨ ctx.fallback = false) :
    Reraises f (wrapSocket w (.error (.ssl f.error)) default ctx serverHostname []) := by
  have hcomes := wrapSocket_comes w (.error (.ssl f.error)) default ctx serverHostname
  generalize wrapSocket w (.error (.ssl f.error)) default ctx serverHostname [] = r at hcomes
  cases hcomes with
  | before e =>
    refine ⟨?_, by simp [journal]⟩
    rintro ⟨name, terms, hmem⟩
    cases hmem
  | returned hfizz => cases hfizz
  | alone hf hfizz =>
    cases hfizz
    exact ⟨fun _ => ⟨_, rfl⟩, opens_began default ctx serverHostname⟩
  | failed peer family hf hfizz =>
    cases hfizz
    have hfinal : f.Final := h.resolve_right (by rw [hf]; simp)
    have hagain : afterFailure w default peer family serverHostname ctx.handshakeConfig
        (.ssl f.error) = throw (.ssl f.error) :=
      if_pos (by rw [isProtocolVersionFailure_of_final hfinal]; exact Bool.false_ne_true)
    rw [hagain]
    exact ⟨fun _ => ⟨_, rfl⟩, opens_began default ctx serverHostname⟩

theorem mirrors_wrapSocket : Mirrors ctx (wrapSocket w fizz default ctx serverHostname []) := by
  have hcomes := wrapSocket_comes w fizz default ctx serverHostname
  generalize wrapSocket w fizz default ctx serverHostname [] = r at hcomes
  intro sctx name hmem
  cases hcomes with
  | before e => cases hmem
  | returned hfizz => exact absurd hmem (stdlibHandshake_ne_began default ctx serverHostname sctx name)
  | alone hf hfizz => exact absurd hmem (stdlibHandshake_ne_began default ctx serverHostname sctx name)
  | @failed e peer family hf hfizz =>
    obtain ⟨added, heq, hadded⟩ := writes_afterFailure w default ctx serverHostname peer family e
      [began default ctx serverHostname]
    rw [heq] at hmem ⊢
    have hsecond := (List.mem_append.mp hmem).resolve_left
      (stdlibHandshake_ne_began default ctx serverHostname sctx name)
    obtain rfl := hadded _ hsecond sctx name rfl
    refine ⟨stdlibContext_verifies default ctx, serverHostname.getD [],
      termsOf default ctx.handshakeConfig, ?_, stdlibContext_terms default ctx.handshakeConfig⟩
    exact List.mem_append_left added (List.mem_singleton_self _)

end

/-- **No downgrade.** A failure to verify, and any alert but a refusal of the protocol version, is
raised again and nothing else is tried, as is any failure without `fallback`; and whenever the standard
library shakes hands, it is as strict as Fizz was. -/
theorem never_downgrades (w : World) (default : Str) (ctx : FizzSSLContext)
    (serverHostname : Option Str) :
    (∀ f : NativeFailure, f.Final ∨ ctx.fallback = false →
      Reraises f (wrapSocket w (.error (.ssl f.error)) default ctx serverHostname [])) ∧
    ∀ fizz, Mirrors ctx (wrapSocket w fizz default ctx serverHostname []) :=
  ⟨fun _ h => reraises_wrapSocket w default ctx serverHostname h,
    fun fizz => mirrors_wrapSocket w fizz default ctx serverHostname⟩

/-- Nothing raises. -/
def smooth : World where
  getpeername := .ok (str "192.0.2.1")
  family := .ok 2
  closeDead := .ok ()
  socket := .ok ()
  settimeout := .ok ()
  connect := .ok ()
  createDefaultContext _ := .ok ()
  setAlpnProtocols _ := .ok ()
  stdlibHandshake _ := .ok ()
  closeNew := .ok ()

/-- A verification failure, on a context that may fall back. -/
def untrusted : NativeFailure := ⟨str "certificate does not match hostname 'a.b'", true, []⟩

theorem never_downgrades_untrusted : Outcome.Raises
    (wrapSocket smooth (.error (.ssl untrusted.error)) (str "ca.pem") (.new (.new true) true) (str "a.b") [])
    (.ssl untrusted.error) :=
  ((never_downgrades smooth (str "ca.pem") (.new (.new true) true) (str "a.b")).1 untrusted
    (.inl (.inl rfl))).raises ⟨_, _, List.mem_singleton_self _⟩

/-- A peer without TLS 1.3 is reached. -/
example : wrapSocket smooth (.error (.ssl (makeTlsError
      (str "received alert: protocol_version, in state ExpectingServerHello") false [])))
    (str "ca.pem") (.new (.new true) true) (str "a.b") [] =
    .ok (.sslSocket ⟨.certRequired, true, str "ca.pem", [str "http/1.1"]⟩)
      [.fizzHandshake (str "a.b") ⟨true, str "ca.pem", [str "http/1.1"]⟩, .closeDead, .newSocket 2,
        .connect (str "192.0.2.1"),
        .stdlibHandshake ⟨.certRequired, true, str "ca.pem", [str "http/1.1"]⟩ (some (str "a.b"))] := by
  rfl

end Fallback

end Fizzpy
