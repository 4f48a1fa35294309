import Fizzpy.Tls.Config

/-!
# Handing a socket over

`wrap_socket` and `handshake_async` duplicate the handle of a socket and leave the copy to `wrap_fd`.
What the calls on the way come to is given: each may raise, on either side of the duplication. Either
function is followed up to the end of what `wrap_fd` runs on the loop thread, which blocks or awaits
nothing in between that touches the handle.
-/

namespace Fizzpy

namespace Tls

/-! ## Handles -/

/-- The duplicated handles: which were made, which have a native owner (an `AsyncSocket`, or the
`AsyncFizzClient` it was moved into), and which were closed. -/
structure Handles where
  created : List ℕ := []
  held : List ℕ := []
  closed : List ℕ := []
  deriving DecidableEq

namespace Handles

def create (handle : ℕ) (s : Handles) : Handles := { s with created := handle :: s.created }

def close (handle : ℕ) (s : Handles) : Handles := { s with closed := handle :: s.closed }

/-- An owner takes the handle. -/
def adopt (handle : ℕ) (s : Handles) : Handles := { s with held := handle :: s.held }

/-- The owner goes out of scope; it closes the handle. -/
def drop (handle : ℕ) (s : Handles) : Handles := { s with held := s.held.erase handle }.close handle

/-- No handle was made; or one, which has one owner or was closed once. -/
def OneOwner (s : Handles) : Prop :=
  s = {} ∨ ∃ handle, s = { created := [handle], held := [handle] } ∨
    s = { created := [handle], closed := [handle] }

end Handles

/-- Python code that may raise. The handles stay as they are when it does. -/
abbrev Py := EStateM PyExn Handles

def ofExcept {α : Type} : Except PyExn α → Py α
  | .ok a => pure a
  | .error e => throw e

/-- The handles in the end, whether the call returned or raised. -/
def handlesOf {α : Type} : EStateM.Result PyExn Handles α → Handles
  | .ok _ s => s
  | .error _ s => s

/-! ## The native side -/

/-- The arguments of `wrap_fd` as it takes them. -/
structure WrapArgs where
  sni : Str
  alpns : List Str
  groups : List NamedGroup
  verify : Bool
  caFile : Str
  timeoutMs : ℕ
  extensions : List (ℕ × Bytes)

/-- What the native calls come to. -/
structure Native where
  /-- `_core.TlsConnection()`. -/
  connection : Except PyExn Unit
  /-- The text of the `TypeError` for arguments that do not convert. -/
  incompatible : Str
  newSocket : ℕ → Except Str Unit
  /-- The context and the extensions of a setup. -/
  context : WrapArgs → Except Str Unit
  /-- Whether a verifier can be made from the CA file. -/
  verifier : Str → Bool
  newClient : WrapArgs → Except Str Unit
  connect : WrapArgs → Except Str Unit

def buildSetup (native : Native) (args : WrapArgs) : Except Str Unit := do
  native.context args
  if args.verify ∧ ¬ native.verifier args.caFile then throw (str "failed to build certificate verifier")

/-- What `wrap_fd` runs on the loop thread, with the text that it rejects with, if it does. -/
def wrapBody (native : Native) (handle : ℕ) (args : WrapArgs) (s : Handles) : Handles × Option Str :=
  match native.newSocket handle with
  | .error e => (s.close handle, some (str "wrap failed: " ++ e))
  | .ok () =>
    let s := s.adopt handle
    match buildSetup native args with
    -- the local `sock` is still the owner
    | .error e => (s.drop handle, some (str "wrap failed: " ++ e))
    | .ok () =>
      match native.newClient args with
      -- the argument that `sock` was moved into
      | .error e => (s.drop handle, some (str "wrap failed: " ++ e))
      | .ok () =>
        match native.connect args with
        -- `client_` keeps it
        | .error e => (s, some (str "wrap failed: " ++ e))
        | .ok () => (s, none)

/-- An integer as an unsigned one of so many bits. -/
def castUnsigned (bits : ℕ) (n : ℤ) : Option ℕ :=
  if 0 ≤ n ∧ n < 2 ^ bits then some n.toNat else none

/-- The pairs of the extensions as `wrap_fd` takes them. -/
def marshalExtensions (extensions : List (ℤ × Bytes)) : Option (List (ℕ × Bytes)) :=
  extensions.mapM fun p => do return (← castUnsigned 16 p.1, p.2)

/-- The conversion of the arguments at the call. -/
def convertArgs (sni : Option Str) (alpns : List (Option Str)) (groups : List (Option NamedGroup))
    (verify : Option Bool) (caFile : PyObject Str) (timeoutMs : ℕ) (extensions : List (ℤ × Bytes)) :
    Option WrapArgs := do
  let sni ← sni
  let alpns ← alpns.mapM id
  let groups ← groups.mapM id
  let verify ← verify
  let caFile ← caFile.native
  let timeoutMs ← castUnsigned 32 timeoutMs
  let extensions ← marshalExtensions extensions
  return ⟨sni, alpns, groups, verify, caFile, timeoutMs, extensions⟩

def wrapFd (native : Native) (handle : ℕ) (sni : Option Str) (alpns : List (Option Str))
    (groups : List (Option NamedGroup)) (verify : Option Bool) (caFile : PyObject Str) (timeoutMs : ℕ)
    (extensions : List (ℤ × Bytes)) : Py Unit :=
  match convertArgs sni alpns groups verify caFile timeoutMs extensions with
  | none => throw (.typeError native.incompatible)
  | some args => modify fun s => (wrapBody native handle args s).1

/-! ## The Python side -/

/-- A socket: what `sock.dup().detach()` comes to, or, for another object, `sock.fileno()` and
`os.dup`. -/
inductive Sock
  | socket (dup : Except PyExn ℕ)
  | other (fileno : Except PyExn ℕ) (dup : ℕ → Except PyExn ℕ)

def Sock.duplicate : Sock → Except PyExn ℕ
  | socket dup => dup
  | other fileno dup => do dup (← fileno)

def dupHandle (sock : Sock) : Py ℕ := do
  let handle ← ofExcept sock.duplicate
  modify (·.create handle)
  return handle

/-- What is evaluated before the handle is duplicated. -/
structure Evaluated where
  alpn : List (Option Str)
  groups : List (Option NamedGroup)
  cafile : PyObject Str
  extensions : List (ℤ × Bytes)

def evaluate (certifi : Option Str) (config : ConfigObject) : Except PyExn Evaluated := do
  let alpn ← config.alpnList
  let groups ← config.groupList
  let cafile ← config.resolvedCafile certifi
  let extensions ← config.normalizedExtensions
  return ⟨alpn, groups, cafile, extensions⟩

/-- The `wrap_fd` call: its remaining arguments are evaluated when it is submitted. -/
def submitWrap (native : Native) (serverHostname : Option Str) (config : ConfigObject) (e : Evaluated)
    (handle : ℕ) : Py Unit := do
  let verify ← ofExcept config.verify
  let timeoutMs ← ofExcept config.timeoutMs
  wrapFd native handle serverHostname e.alpn e.groups verify e.cafile timeoutMs e.extensions

def prepareWrap (native : Native) (certifi : Option Str) (sock : Sock) (serverHostname : Option Str)
    (config : ConfigObject) : Py (Py Unit × ℕ) := do
  let e ← ofExcept (evaluate certifi config)
  let handle ← dupHandle sock
  return (submitWrap native serverHostname config e handle, handle)

/-- `run_sync`, up to the wait. -/
def runSync (submit : Py Unit) : Py Unit := submit

/-- `run_async`, up to the wait; `loop` is `asyncio.get_running_loop()`. -/
def runAsync (loop : Except PyExn Unit) (submit : Py Unit) : Py Unit := do
  ofExcept loop
  submit

/-- A call of one of the two. `serverHostname` is what the native layer makes of the name. -/
structure WrapCall where
  native : Native
  certifi : Option Str
  postQuantum : Bool
  sock : Sock
  serverHostname : Option Str
  config : Option ConfigObject

namespace WrapCall

/-- `config or TlsConfig()`. -/
def theConfig (c : WrapCall) : ConfigObject := c.config.getD (TlsConfig.new c.postQuantum).object

def wrapSocket (c : WrapCall) : Py Unit := do
  ofExcept c.native.connection
  let (submit, _) ← prepareWrap c.native c.certifi c.sock c.serverHostname c.theConfig
  runSync submit

def handshakeAsync (loop : Except PyExn Unit) (c : WrapCall) : Py Unit := do
  ofExcept c.native.connection
  let (submit, _) ← prepareWrap c.native c.certifi c.sock c.serverHostname c.theConfig
  runAsync loop submit

/-- The handle is duplicated: nothing before that raises. -/
structure Duplicates (c : WrapCall) (e : Evaluated) (handle : ℕ) : Prop where
  connection : c.native.connection = .ok ()
  evaluated : evaluate c.certifi c.theConfig = .ok e
  duplicated : c.sock.duplicate = .ok handle

/-- Nothing that is left to the call of `wrap_fd` raises: the fields that are read there, and the
conversion of its arguments. -/
structure Submits (c : WrapCall) (e : Evaluated) : Prop where
  verify : ∃ verify, c.theConfig.verify = .ok (some verify)
  timeout : ∃ ms, c.theConfig.timeoutMs = .ok ms
  sni : c.serverHostname.isSome
  alpn : ∀ a ∈ e.alpn, a.isSome
  groups : ∀ g ∈ e.groups, g.isSome
  cafile : e.cafile.native.isSome

end WrapCall

/-! ## The conversion of the arguments -/

theorem isSome_mapM {α β : Type} {f : α → Option β} {xs : List α} :
    (xs.mapM f).isSome ↔ ∀ x ∈ xs, (f x).isSome := by
  induction xs with
  | nil => exact iff_of_true rfl nofun
  | cons x xs ih =>
    rw [List.forall_mem_cons, ← ih, List.mapM_cons]
    cases hx : f x with
    | none => simp
    | some y => cases hxs : xs.mapM f <;> simp

theorem castUnsigned_isSome {bits : ℕ} {n : ℤ} (h : 0 ≤ n ∧ n < 2 ^ bits) :
    (castUnsigned bits n).isSome := by
  unfold castUnsigned
  rw [if_pos h]
  rfl

theorem marshalExtensions_eq {pairs : List (ℤ × Bytes)} (h : ∀ p ∈ pairs, 0 ≤ p.1 ∧ p.1 ≤ 0xFFFF) :
    marshalExtensions pairs = some (pairs.map fun p => (p.1.toNat, p.2)) := by
  unfold marshalExtensions
  induction pairs with
  | nil => rfl
  | cons p pairs ih =>
    obtain ⟨hp, hpairs⟩ := List.forall_mem_cons.mp h
    have hcast : castUnsigned 16 p.1 = some p.1.toNat := if_pos ⟨hp.1, by have := hp.2; omega⟩
    rw [List.mapM_cons, hcast, ih hpairs]
    rfl

/-- The deadline and the extensions always convert. -/
theorem convertArgs_isSome {sni : Option Str} {alpns : List (Option Str)}
    {groups : List (Option NamedGroup)} {verify : Option Bool} {caFile : PyObject Str} {timeoutMs : ℕ}
    {extensions : List (ℤ × Bytes)} (hms : timeoutMs < 2 ^ 32)
    (hext : ∀ p ∈ extensions, 0 ≤ p.1 ∧ p.1 ≤ 0xFFFF) :
    (convertArgs sni alpns groups verify caFile timeoutMs extensions).isSome ↔
      sni.isSome ∧ (∀ a ∈ alpns, a.isSome) ∧ (∀ g ∈ groups, g.isSome) ∧ verify.isSome ∧
        caFile.native.isSome := by
  obtain ⟨ms, hms⟩ : ∃ ms, castUnsigned 32 timeoutMs = some ms :=
    Option.isSome_iff_exists.mp (castUnsigned_isSome ⟨by omega, by exact_mod_cast hms⟩)
  have halpn := @isSome_mapM _ _ id alpns
  have hgroups := @isSome_mapM _ _ id groups
  simp only [id] at halpn hgroups
  unfold convertArgs
  rw [← halpn, ← hgroups, hms, marshalExtensions_eq hext]
  cases sni <;> cases alpns.mapM id <;> cases groups.mapM id <;> cases verify <;>
    cases caFile.native <;> simp

/-! ## The calls -/

namespace Handles

theorem oneOwner_empty : OneOwner {} := .inl rfl

/-- A handle that nobody owns. -/
theorem not_oneOwner_create (handle : ℕ) : ¬ OneOwner (create handle {}) := by
  rintro (h | ⟨_, h | h⟩) <;> cases h

end Handles

/-- Once it runs on the loop thread, it owns the handle on every outcome. -/
theorem oneOwner_wrapBody (native : Native) (handle : ℕ) (args : WrapArgs) :
    (wrapBody native handle args (Handles.create handle {})).1.OneOwner := by
  have hclosed : Handles.drop handle (Handles.adopt handle (Handles.create handle {})) =
      { created := [handle], closed := [handle] } := by
    simp [Handles.drop, Handles.adopt, Handles.create, Handles.close]
  unfold wrapBody
  cases hsock : native.newSocket handle with
  | error e => exact .inr ⟨handle, .inr rfl⟩
  | ok u =>
    cases hsetup : buildSetup native args with
    | error e => exact .inr ⟨handle, .inr hclosed⟩
    | ok u =>
      cases hclient : native.newClient args with
      | error e => exact .inr ⟨handle, .inr hclosed⟩
      | ok u => cases native.connect args <;> exact .inr ⟨handle, .inl rfl⟩

/-- What is evaluated has extensions that fit. -/
theorem evaluate_extensions {certifi : Option Str} {config : ConfigObject} {e : Evaluated}
    (h : evaluate certifi config = .ok e) : ∀ p ∈ e.extensions, 0 ≤ p.1 ∧ p.1 ≤ 0xFFFF := by
  unfold evaluate at h
  cases halpn : config.alpnList with
  | error err => rw [halpn] at h; cases h
  | ok alpn =>
    cases hgroups : config.groupList with
    | error err => rw [halpn, hgroups] at h; cases h
    | ok groups =>
      cases hcafile : config.resolvedCafile certifi with
      | error err => rw [halpn, hgroups, hcafile] at h; cases h
      | ok cafile =>
        cases hext : config.normalizedExtensions with
        | error err => rw [halpn, hgroups, hcafile, hext] at h; cases h
        | ok exts =>
          rw [halpn, hgroups, hcafile, hext] at h
          cases h
          unfold ConfigObject.normalizedExtensions at hext
          cases hread : config.extensions with
          | error err => rw [hread] at hext; cases hext
          | ok given =>
            rw [hread] at hext
            exact normalizeExtensions_types hext

theorem timeoutMs_lt {config : ConfigObject} {ms : ℕ} (h : config.timeoutMs = .ok ms) : ms < 2 ^ 32 := by
  unfold ConfigObject.timeoutMs at h
  cases hread : config.timeout with
  | error err => rw [hread] at h; cases h
  | ok timeout => rw [hread] at h; exact timeoutToMs_lt h

namespace WrapCall

/-- The arguments that `wrap_fd` comes to have. -/
def arguments (c : WrapCall) (e : Evaluated) : Except PyExn WrapArgs := do
  let verify ← c.theConfig.verify
  let timeoutMs ← c.theConfig.timeoutMs
  match convertArgs c.serverHostname e.alpn e.groups verify e.cafile timeoutMs e.extensions with
  | none => throw (.typeError c.native.incompatible)
  | some args => pure args

variable {c : WrapCall} {e : Evaluated} {handle : ℕ}

theorem submitWrap_run (c : WrapCall) (e : Evaluated) (handle : ℕ) (s : Handles) :
    (submitWrap c.native c.serverHostname c.theConfig e handle).run s =
      match c.arguments e with
      | .error err => .error err s
      | .ok args => .ok () (wrapBody c.native handle args s).1 := by
  unfold submitWrap arguments wrapFd
  cases hverify : c.theConfig.verify with
  | error err => rfl
  | ok verify =>
    cases htimeout : c.theConfig.timeoutMs with
    | error err => rfl
    | ok ms =>
      show EStateM.run (match convertArgs c.serverHostname e.alpn e.groups verify e.cafile ms
        e.extensions with | none => _ | some args => _) s = _
      cases hargs : convertArgs c.serverHostname e.alpn e.groups verify e.cafile ms e.extensions <;>
        simp only [bind, Except.bind, hargs] <;> rfl

theorem arguments_ok_iff (h : c.Duplicates e handle) :
    (∃ args, c.arguments e = .ok args) ↔ c.Submits e := by
  have hext := evaluate_extensions h.evaluated
  constructor
  · rintro ⟨args, hargs⟩
    unfold arguments at hargs
    cases hverify : c.theConfig.verify with
    | error err => rw [hverify] at hargs; cases hargs
    | ok verify =>
      cases htimeout : c.theConfig.timeoutMs with
      | error err => rw [hverify, htimeout] at hargs; cases hargs
      | ok ms =>
        rw [hverify, htimeout] at hargs
        dsimp only [bind, Except.bind] at hargs
        cases hconvert : convertArgs c.serverHostname e.alpn e.groups verify e.cafile ms
          e.extensions with
        | none => rw [hconvert] at hargs; cases hargs
        | some args' =>
          obtain ⟨hsni, halpn, hgroups, hv, hcafile⟩ := (convertArgs_isSome (timeoutMs_lt htimeout)
            hext).mp (Option.isSome_of_eq_some hconvert)
          obtain ⟨v, rfl⟩ := Option.isSome_iff_exists.mp hv
          exact ⟨⟨v, hverify⟩, ⟨ms, htimeout⟩, hsni, halpn, hgroups, hcafile⟩
  · rintro ⟨⟨verify, hverify⟩, ⟨ms, htimeout⟩, hsni, halpn, hgroups, hcafile⟩
    obtain ⟨args, hargs⟩ := Option.isSome_iff_exists.mp <|
      (@convertArgs_isSome _ _ _ (some verify) _ _ _ (timeoutMs_lt htimeout) hext).mpr
        ⟨hsni, halpn, hgroups, rfl, hcafile⟩
    refine ⟨args, ?_⟩
    unfold arguments
    rw [hverify, htimeout]
    dsimp only [bind, Except.bind]
    rw [hargs]
    rfl

/-- The call of `wrap_fd` takes the handle over just when nothing raises before. -/
theorem submitWrap_oneOwner_iff (h : c.Duplicates e handle) :
    (handlesOf ((submitWrap c.native c.serverHostname c.theConfig e handle).run
      (Handles.create handle {}))).OneOwner ↔ c.Submits e := by
  rw [← arguments_ok_iff h, submitWrap_run]
  cases hargs : c.arguments e with
  | error err =>
    refine iff_of_false (Handles.not_oneOwner_create handle) ?_
    rintro ⟨args, h⟩
    cases h
  | ok args => exact iff_of_true (oneOwner_wrapBody c.native handle args) ⟨args, rfl⟩

/-- Up to the submission, however the call goes on. -/
theorem prepared_oneOwner_iff (c : WrapCall) (run : Py Unit → Py Unit) {P : Evaluated → Prop}
    (hrun : ∀ e handle, c.Duplicates e handle →
      ((handlesOf ((run (submitWrap c.native c.serverHostname c.theConfig e handle)).run
        (Handles.create handle {}))).OneOwner ↔ P e)) :
    (handlesOf (EStateM.run (do
      ofExcept c.native.connection
      let (submit, _) ← prepareWrap c.native c.certifi c.sock c.serverHostname c.theConfig
      run submit) {})).OneOwner ↔ ∀ e handle, c.Duplicates e handle → P e := by
  have hnone {r : EStateM.Result PyExn Handles Unit} (hr : handlesOf r = {})
      (hno : ∀ e handle, ¬ c.Duplicates e handle) :
      (handlesOf r).OneOwner ↔ ∀ e handle, c.Duplicates e handle → P e :=
    iff_of_true (hr ▸ Handles.oneOwner_empty) fun e handle h => absurd h (hno e handle)
  unfold prepareWrap dupHandle
  cases hconnection : c.native.connection with
  | error err =>
    exact hnone rfl fun e handle h => absurd (hconnection.symm.trans h.connection) (by simp)
  | ok u =>
    cases hevaluated : evaluate c.certifi c.theConfig with
    | error err =>
      exact hnone rfl fun e handle h => absurd (hevaluated.symm.trans h.evaluated) (by simp)
    | ok e =>
      cases hdup : c.sock.duplicate with
      | error err =>
        exact hnone rfl fun e handle h => absurd (hdup.symm.trans h.duplicated) (by simp)
      | ok handle =>
        have h : c.Duplicates e handle := ⟨hconnection, hevaluated, hdup⟩
        refine (hrun e handle h).trans ⟨fun hp e' handle' h' => ?_, fun hp => hp e handle h⟩
        have he := h'.evaluated
        rw [hevaluated, Except.ok.injEq] at he
        exact he ▸ hp

/-- **One owner.** After `wrap_socket` or `handshake_async` the handle has one owner, or was closed
once, just when nothing raises between its duplication and `wrap_fd`. -/
theorem oneOwner_iff (c : WrapCall) (loop : Except PyExn Unit) :
    ((handlesOf (c.wrapSocket.run {})).OneOwner ↔
      ∀ e handle, c.Duplicates e handle → c.Submits e) ∧
    ((handlesOf ((c.handshakeAsync loop).run {})).OneOwner ↔
      ∀ e handle, c.Duplicates e handle → loop = .ok () ∧ c.Submits e) := by
  refine ⟨prepared_oneOwner_iff c runSync fun e handle h => submitWrap_oneOwner_iff h,
    prepared_oneOwner_iff c (runAsync loop) fun e handle h => ?_⟩
  cases loop with
  | error err =>
    refine iff_of_false (Handles.not_oneOwner_create handle) ?_
    rintro ⟨h, -⟩
    cases h
  | ok u => exact (submitWrap_oneOwner_iff h).trans (and_iff_right rfl).symm

/-- A call whose timeout is infinite. -/
def endless : WrapCall where
  native := ⟨.ok (), [], fun _ => .ok (), fun _ => .ok (), fun _ => true, fun _ => .ok (),
    fun _ => .ok ()⟩
  certifi := none
  postQuantum := true
  sock := .socket (.ok 7)
  serverHostname := some (str "a.b")
  config := some { TlsConfig.new true with timeout := .infinity }.object

/-- The duplicated handle is left open. -/
theorem endless_leaks : handlesOf (endless.wrapSocket.run {}) = { created := [7] } ∧
    ¬ (handlesOf (endless.wrapSocket.run {})).OneOwner := by
  have hleft : handlesOf (endless.wrapSocket.run {}) = { created := [7] } := rfl
  exact ⟨hleft, hleft ▸ Handles.not_oneOwner_create 7⟩

end WrapCall

end Tls

end Fizzpy
