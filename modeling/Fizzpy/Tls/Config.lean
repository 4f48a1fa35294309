import Fizzpy.Foundation.Rounding
import Fizzpy.Text
import Mathlib.Algebra.Order.Floor.Ring
import Mathlib.Data.Rat.Floor

/-!
# The configuration of a handshake

`TlsConfig`, as it is declared and with whatever a caller may have put into its fields: an object is
given by what the operations that are applied to it come to, which may be an exception. The timeout and
the extensions are converted by `timeout_to_ms` and `normalize_extensions`.
-/

namespace Fizzpy

open Foundation

namespace Tls

inductive PyExn
  | valueError (text : Str)
  | typeError (text : Str)
  | overflowError (text : Str)
  | other (name text : Str)
  deriving DecidableEq

/-! ## The timeout -/

/-- `None`, or an object with what `timeout <= 0` and `math.ceil(timeout * 1000)` come to. -/
inductive Timeout
  | none
  | number (nonpositive : Except PyExn Bool) (ceilMs : Except PyExn ℤ)

namespace Timeout

/-- An `int` or a `Fraction`, whose arithmetic is exact. -/
def exact (q : ℚ) : Timeout := .number (.ok (q ≤ 0)) (.ok ⌈q * 1000⌉)

/-- `math.ceil` of a `float`. -/
def ceil : Floating binary64 → Except PyExn ℤ
  | .finite q _ _ => .ok ⌈q⌉
  | .infinity _ => .error (.overflowError (str "cannot convert float infinity to integer"))

def nonpositive : Floating binary64 → Bool
  | .finite q _ _ => q ≤ 0
  | .infinity negative => negative

/-- A `float` that is not NaN. The product with 1000 is rounded, or infinite. -/
def float (x : Floating binary64) : Timeout := .number (.ok (nonpositive x)) (ceil (x.scale 1000))

/-- `float("inf")`. -/
def infinity : Timeout := .float (.infinity false)

end Timeout

def maxTimeoutMs : ℤ := 0xFFFFFFFF

def timeoutToMs : Timeout → Except PyExn ℕ
  | .none => pure 0
  | .number nonpositive ceilMs => do
    if ← nonpositive then return 1
    return (min maxTimeoutMs (max 1 (← ceilMs))).toNat

/-- The deadline fits the `uint32` it is passed as. -/
theorem timeoutToMs_lt {timeout : Timeout} {ms : ℕ} (h : timeoutToMs timeout = .ok ms) :
    ms < 2 ^ 32 := by
  unfold timeoutToMs at h
  cases timeout with
  | none => cases h; decide
  | number nonpositive ceilMs =>
    cases nonpositive with
    | error e => cases h
    | ok nonpositive =>
      cases nonpositive with
      | true => cases h; decide
      | false =>
        cases ceilMs with
        | error e => cases h
        | ok c =>
          cases h
          unfold maxTimeoutMs
          omega

/-! ## The extensions -/

/-- A pair that is given as an extension: what unpacking it and `int(etype)` come to, and then
`bytes(data)`. -/
structure ExtensionItem where
  etype : Except PyExn ℤ
  data : Except PyExn Bytes

/-- An object that is iterated over: its truth, its items, and how the iteration ends. -/
structure Iterable (α : Type) where
  truth : Except PyExn Bool
  items : List α
  ends : Except PyExn Unit

/-- A sequence of pairs. -/
def ofPairs (pairs : List (ℤ × Bytes)) : Iterable ExtensionItem where
  truth := .ok (pairs ≠ [])
  items := pairs.map fun p => ⟨.ok p.1, .ok p.2⟩
  ends := .ok ()

/-- `list(iterable)`. -/
def Iterable.toList {α : Type} (it : Iterable α) : Except PyExn (List α) := do
  it.ends
  return it.items

/-- `FIZZ_MANAGED_EXTENSIONS`. -/
def fizzManagedExtensions : List ℤ := [0, 10, 13, 16, 41, 42, 43, 44, 45, 47, 50, 51, 0xFE0D]

/-- The loop of `normalize_extensions`, behind the types in `seen`. -/
def normalizeFrom (seen : List ℤ) : List ExtensionItem → Except PyExn (List (ℤ × Bytes))
  | [] => pure []
  | item :: items => do
    let etype ← item.etype
    if ¬ (0 ≤ etype ∧ etype ≤ 0xFFFF) then
      throw (.valueError (str "extension type " ++ str (toString etype) ++ str " out of range 0..65535"))
    let data ← item.data
    if 0xFFFF < data.length then
      throw (.valueError (str "extension " ++ str (toString etype) ++ str " data is " ++
        str (toString data.length) ++ str " bytes; max is 65535"))
    if etype ∈ fizzManagedExtensions then
      throw (.valueError (str "extension type " ++ str (toString etype) ++
        str " is managed by Fizz and cannot be injected"))
    if etype ∈ seen then
      throw (.valueError (str "duplicate extension type " ++ str (toString etype)))
    let out ← normalizeFrom (etype :: seen) items
    return (etype, data) :: out

def normalizeExtensions (extensions : Iterable ExtensionItem) : Except PyExn (List (ℤ × Bytes)) := do
  if ¬ (← extensions.truth) then return []
  let out ← normalizeFrom [] extensions.items
  extensions.ends
  return out

theorem normalizeFrom_types : ∀ {items : List ExtensionItem} {seen : List ℤ} {out : List (ℤ × Bytes)},
    normalizeFrom seen items = .ok out → ∀ p ∈ out, 0 ≤ p.1 ∧ p.1 ≤ 0xFFFF := by
  intro items
  induction items with
  | nil => rintro seen out ⟨⟩ p hp; cases hp
  | cons item items ih =>
    intro seen out h
    unfold normalizeFrom at h
    cases hetype : item.etype with
    | error e => rw [hetype] at h; cases h
    | ok etype =>
      cases hdata : item.data with
      | error e =>
        rw [hetype, hdata] at h
        dsimp only [bind, Except.bind] at h
        split_ifs at h
      | ok data =>
        rw [hetype, hdata] at h
        dsimp only [bind, Except.bind] at h
        split_ifs at h with hrange hlen hmanaged hseen
        cases hout : normalizeFrom (etype :: seen) items with
        | error e => rw [hout] at h; cases h
        | ok rest =>
          rw [hout] at h
          cases h
          rw [List.forall_mem_cons]
          exact ⟨hrange, ih hout⟩

/-- The types fit the `uint16` they are passed as. -/
theorem normalizeExtensions_types {extensions : Iterable ExtensionItem} {out : List (ℤ × Bytes)}
    (h : normalizeExtensions extensions = .ok out) : ∀ p ∈ out, 0 ≤ p.1 ∧ p.1 ≤ 0xFFFF := by
  unfold normalizeExtensions at h
  cases htruth : extensions.truth with
  | error e => rw [htruth] at h; cases h
  | ok truth =>
    cases truth with
    | false => rw [htruth] at h; cases h; exact fun p hp => by cases hp
    | true =>
      cases hout : normalizeFrom [] extensions.items with
      | error e => rw [htruth, hout] at h; cases h
      | ok rest =>
        cases hends : extensions.ends with
        | error e => rw [htruth, hout, hends] at h; cases h
        | ok u =>
          rw [htruth, hout, hends] at h
          cases h
          exact normalizeFrom_types hout

/-! ## The configuration -/

/-- `_core.NamedGroup`. -/
inductive NamedGroup
  | secp256r1
  | secp384r1
  | secp521r1
  | x25519
  | x448
  | mlkem512
  | mlkem768
  | mlkem1024
  | secp256r1Mlkem768
  | x25519Mlkem768
  deriving DecidableEq

/-- An object that is passed to the native layer: its truth, and what is made of it there, `none` if it
has not the type. -/
structure PyObject (α : Type) where
  truth : Except PyExn Bool
  native : Option α

def PyObject.ofStr (s : Str) : PyObject Str := ⟨.ok (s ≠ []), some s⟩

/-- A `TlsConfig` whose fields may hold anything, by what reading each of them comes to. The items of
`alpn` and `groups`, and `verify`, are given by what the native layer makes of them. -/
structure ConfigObject where
  verify : Except PyExn (Option Bool)
  cafile : Except PyExn (PyObject Str)
  alpn : Except PyExn (Iterable (Option Str))
  groups : Except PyExn (Iterable (Option NamedGroup))
  extensions : Except PyExn (Iterable ExtensionItem)
  timeout : Except PyExn Timeout

namespace ConfigObject

/-- `default_ca_file()`; `certifi` is `certifi.where()`, `none` if that raises. -/
def defaultCaFile (certifi : Option Str) : Str := certifi.getD []

def resolvedCafile (certifi : Option Str) (config : ConfigObject) : Except PyExn (PyObject Str) := do
  let cafile ← config.cafile
  if ← cafile.truth then return cafile
  return .ofStr (defaultCaFile certifi)

def timeoutMs (config : ConfigObject) : Except PyExn ℕ := do timeoutToMs (← config.timeout)

def normalizedExtensions (config : ConfigObject) : Except PyExn (List (ℤ × Bytes)) := do
  normalizeExtensions (← config.extensions)

def alpnList (config : ConfigObject) : Except PyExn (List (Option Str)) := do (← config.alpn).toList

def groupList (config : ConfigObject) : Except PyExn (List (Option NamedGroup)) := do
  (← config.groups).toList

end ConfigObject

end Tls

/-- The fields as they are declared. -/
structure TlsConfig where
  verify : Bool := true
  cafile : Option Str := none
  alpn : List Str := [str "http/1.1"]
  groups : List Tls.NamedGroup
  extensions : List (ℤ × Bytes) := []
  timeout : Tls.Timeout := .float (.nearest (30000 / 1000))

namespace TlsConfig

/-- `TlsConfig()`. -/
def new (postQuantum : Bool) : TlsConfig where
  groups := if postQuantum then [.x25519Mlkem768, .x25519] else [.x25519]

/-- `resolved_cafile`; `default` is what `default_ca_file()` gives. -/
def resolvedCafile (default : Str) (config : TlsConfig) : Str :=
  if config.cafile.getD [] = [] then default else config.cafile.getD []

open Tls

/-- What reading the fields comes to. -/
def object (config : TlsConfig) : ConfigObject where
  verify := .ok (some config.verify)
  cafile := .ok (config.cafile.elim ⟨.ok false, none⟩ .ofStr)
  alpn := .ok ⟨.ok (config.alpn ≠ []), config.alpn.map some, .ok ()⟩
  groups := .ok ⟨.ok (config.groups ≠ []), config.groups.map some, .ok ()⟩
  extensions := .ok (ofPairs config.extensions)
  timeout := .ok config.timeout

theorem resolvedCafile_object (certifi : Option Str) (config : TlsConfig) :
    config.object.resolvedCafile certifi =
      .ok (.ofStr (config.resolvedCafile (ConfigObject.defaultCaFile certifi))) := by
  obtain ⟨verify, cafile, alpn, groups, extensions, timeout⟩ := config
  cases cafile with
  | none => rfl
  | some path => cases path <;> rfl

end TlsConfig

end Fizzpy
