import Fizzpy.Foundation.Search
import Fizzpy.Text

/-!
# Handshake errors

The Python exception for a failed handshake is built on two paths: from the text of an
`AsyncSocketException` when the core has made the connection itself, and from the exception of Fizz when
it has adopted a socket. An alert that the peer has sent is reported alike on both, unless its text has
the words by which the first one tells a verification failure (`reports_alike_iff`).
-/

namespace Fizzpy

open Foundation

/-! ## The Python exception -/

inductive SslClass
  | sslError
  | sslCertVerificationError
  deriving DecidableEq

/-- The exception, behind the code `SSL_ERROR_SSL`. `alert` is `fizz_alert` and `fizz_alert_remote`;
without it, neither is set. -/
structure TlsError where
  cls : SslClass
  msg : Str
  alert : Option (Str × Bool)
  deriving DecidableEq

def alertLetters : Str := str "abcdefghijklmnopqrstuvwxyz_"

def receivedMarker : Str := str "received alert: "

def receivedAlertName (msg : Str) : Str :=
  match find receivedMarker msg with
  | none => []
  | some pos => (msg.drop (pos + receivedMarker.length)).takeWhile (· ∈ alertLetters)

def makeTlsError (msg : Str) (certError : Bool) (alertName : Str) : TlsError :=
  let received := receivedAlertName msg
  let remote : Bool := received ≠ []
  let alert := if remote then received else alertName
  { cls := if certError then .sslCertVerificationError else .sslError
    msg := if certError then msg else str "handshake failed: " ++ msg
    alert := if alert = [] then none else some (alert, remote) }

/-! ## The connecting path -/

inductive SocketExnType
  | sslError
  | other
  deriving DecidableEq

structure AsyncSocketException where
  what : Str
  type : SocketExnType

/-- `makeError` or `makeTlsError`. -/
inductive ConnectError
  | connectionError (msg : Str)
  | tlsError (e : TlsError)
  deriving DecidableEq

def socketPrefix : Str := str "AsyncSocketException: "

def typeMarker : Str := str ", type = "

/-- The text up to its last type. -/
def cutType (msg : Str) : Str :=
  match rfind typeMarker msg with
  | some pos => msg.take pos
  | none => msg

def cutPrefix (msg : Str) : Str := if socketPrefix <+: msg then msg.drop socketPrefix.length else msg

/-- The words by which a verification failure is told. -/
def saysCertError (msg : Str) : Bool :=
  contains (str "certificate") msg || contains (str "does not match hostname") msg

def tlsErrorFromAsyncSocket (ex : AsyncSocketException) : ConnectError :=
  let msg := cutType (cutPrefix ex.what)
  if ex.type ≠ .sslError then .connectionError (str "connect failed: " ++ msg)
  else .tlsError (makeTlsError msg (saysCertError msg) [])

/-! ## The adopted socket -/

/-- What a handshake fails with, `alert` being what Fizz has set on its own exceptions. -/
inductive HandshakeExn
  | verification (what : Str) (alert : Option Str)
  | fizz (what : Str) (alert : Option Str)
  | other (what : Str)
  deriving DecidableEq

namespace HandshakeExn

def what : HandshakeExn → Str
  | verification what _ | fizz what _ | other what => what

def alert : HandshakeExn → Option Str
  | verification _ alert | fizz _ alert => alert
  | other _ => none

def isVerification : HandshakeExn → Bool
  | verification _ _ => true
  | _ => false

end HandshakeExn

def fizzHandshakeError (ex : HandshakeExn) : TlsError :=
  makeTlsError ex.what ex.isVerification (ex.alert.getD [])

/-! ## An alert of the peer -/

structure AlertName where
  text : Str
  ne : text ≠ []
  letters : ∀ c ∈ text, c ∈ alertLetters

/-- What Fizz says of an alert that it received. -/
def alertText (name : AlertName) (state : Str) : Str :=
  receivedMarker ++ name.text ++ str ", in state " ++ state

/-- As folly flattens it. -/
def flattened (text type : Str) : AsyncSocketException :=
  ⟨socketPrefix ++ text ++ typeMarker ++ type, .sslError⟩

/-- The error has the class of the other path, and says that the peer sent the alert. -/
structure ReportsAlike (name : AlertName) (connect : ConnectError) (adopted : TlsError) : Prop where
  cls : ∃ e, connect = .tlsError e ∧ e.cls = adopted.cls ∧ e.alert = some (name.text, true)
  alert : adopted.alert = some (name.text, true)

/-- What of a type stands before a further one: nothing, unless the type has the marker of a type
itself. -/
def typeRest (type : Str) : Str := cutType (typeMarker ++ type)

/-- Neither of the words by which a verification failure is told. -/
structure Unmistakable (text : Str) : Prop where
  certificate : ¬ str "certificate" <:+: text
  hostname : ¬ str "does not match hostname" <:+: text

theorem saysCertError_eq_false_iff (text : Str) : saysCertError text = false ↔ Unmistakable text := by
  unfold saysCertError contains
  rw [Bool.or_eq_false_iff, decide_eq_false_iff_not, decide_eq_false_iff_not]
  exact ⟨fun h => ⟨h.1, h.2⟩, fun h => ⟨h.certificate, h.hostname⟩⟩

/-- The name is read off the text, whatever stands behind the state. -/
theorem receivedAlertName_alertText (name : AlertName) (state rest : Str) :
    receivedAlertName (alertText name state ++ rest) = name.text := by
  have htext : alertText name state ++ rest =
      receivedMarker ++ (name.text ++ ',' :: (str " in state " ++ state ++ rest)) := by
    unfold alertText
    rw [show str ", in state " = ',' :: str " in state " from rfl]
    simp only [List.append_assoc, List.cons_append]
  have hfind : find receivedMarker (alertText name state ++ rest) = some 0 := by
    rw [htext]
    exact find_cons_hit (List.prefix_append receivedMarker _)
  have hcomma : ',' ∉ alertLetters := by decide
  unfold receivedAlertName
  rw [hfind]
  dsimp only
  rw [Nat.zero_add, htext, List.drop_left,
    List.takeWhile_append_of_pos fun c hc => decide_eq_true (name.letters c hc),
    List.takeWhile_cons_of_neg (by simpa using hcomma), List.append_nil]

theorem makeTlsError_alertText (name : AlertName) (state rest : Str) (certError : Bool)
    (alertName : Str) :
    (makeTlsError (alertText name state ++ rest) certError alertName).alert =
      some (name.text, true) := by
  unfold makeTlsError
  simp [receivedAlertName_alertText, name.ne]

/-- The wrapping is taken off the text, up to the last type. -/
theorem unwrapped (text type : Str) :
    cutType (cutPrefix (flattened text type).what) = text ++ typeRest type := by
  have hwhat : (flattened text type).what = socketPrefix ++ (text ++ (typeMarker ++ type)) := by
    unfold flattened
    simp only [List.append_assoc]
  have hfront : cutPrefix (flattened text type).what = text ++ (typeMarker ++ type) := by
    unfold cutPrefix
    rw [hwhat, if_pos (List.prefix_append _ _), List.drop_left]
  obtain ⟨pos, hpos⟩ := Option.isSome_iff_exists.mp
    (rfind_isSome (List.prefix_append typeMarker type))
  rw [hfront]
  unfold typeRest cutType
  rw [rfind_append_of_some hpos, hpos]
  exact List.take_length_add_append pos

/-- **One alert, two paths.** An alert that the peer sent is reported alike on both paths just when
its text is not mistaken for that of a verification failure. -/
theorem reports_alike_iff (name : AlertName) (state type : Str) (alert : Option Str) :
    ReportsAlike name (tlsErrorFromAsyncSocket (flattened (alertText name state) type))
      (fizzHandshakeError (.fizz (alertText name state) alert)) ↔
    Unmistakable (alertText name state ++ typeRest type) := by
  have hadopted : (fizzHandshakeError (.fizz (alertText name state) alert)).alert =
      some (name.text, true) := by
    have h := makeTlsError_alertText name state [] false (alert.getD [])
    rwa [List.append_nil] at h
  have hconnect : tlsErrorFromAsyncSocket (flattened (alertText name state) type) =
      .tlsError (makeTlsError (alertText name state ++ typeRest type)
        (saysCertError (alertText name state ++ typeRest type)) []) := by
    unfold tlsErrorFromAsyncSocket
    rw [unwrapped]
    rfl
  rw [← saysCertError_eq_false_iff, hconnect]
  generalize hsays : saysCertError (alertText name state ++ typeRest type) = certError
  constructor
  · rintro ⟨⟨e, he, hcls, -⟩, -⟩
    cases he
    cases certError with
    | false => rfl
    | true => cases hcls
  · rintro rfl
    exact ⟨⟨_, rfl, rfl, makeTlsError_alertText name state (typeRest type) false []⟩, hadopted⟩

example : typeRest (str "SSL error") = [] := by decide +kernel

def badCertificate : AlertName where
  text := str "bad_certificate"
  ne := by decide
  letters c hc := by
    have hall : (str "bad_certificate").all (fun c => decide (c ∈ alertLetters)) = true := by decide
    exact of_decide_eq_true (List.all_eq_true.mp hall c hc)

/-- The peer's complaint about a certificate is reported as a failure to verify its own. -/
theorem badCertificate_mistaken :
    tlsErrorFromAsyncSocket (flattened (alertText badCertificate (str "ExpectingFinished"))
      (str "SSL error")) = .tlsError ⟨.sslCertVerificationError,
        str "received alert: bad_certificate, in state ExpectingFinished",
        some (str "bad_certificate", true)⟩ ∧
    ¬ ReportsAlike badCertificate
      (tlsErrorFromAsyncSocket (flattened (alertText badCertificate (str "ExpectingFinished"))
        (str "SSL error")))
      (fizzHandshakeError (.fizz (alertText badCertificate (str "ExpectingFinished")) none)) := by
  have hconnect : tlsErrorFromAsyncSocket (flattened (alertText badCertificate
      (str "ExpectingFinished")) (str "SSL error")) = .tlsError ⟨.sslCertVerificationError,
        str "received alert: bad_certificate, in state ExpectingFinished",
        some (str "bad_certificate", true)⟩ := by decide +kernel
  refine ⟨hconnect, ?_⟩
  rw [hconnect]
  rintro ⟨⟨e, he, hcls, -⟩, -⟩
  cases he
  cases hcls

end Fizzpy
