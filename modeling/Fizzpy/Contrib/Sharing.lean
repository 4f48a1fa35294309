import Fizzpy.Contrib.Context
import Fizzpy.Foundation.Transition

/-!
# Connections that share a context

All connections of a mounted `FizzAdapter` set their trust on one `FizzSSLContext` and shake hands
with what is set there at that time. `trusted_iff` says for which orders of their steps every
connection has the trust that it set itself.
-/

namespace Fizzpy

open Foundation

/-- The path of a CA file. -/
structure CaFile where
  path : Str
  path_ne : path ≠ []

namespace Sharing

/-- What urllib3 has done for a connection so far. -/
inductive Conn
  | new
  | assigned (mode : VerifyMode)
  | loaded (mode : VerifyMode) (cafile : CaFile)
  /-- After `wrap_socket`: what the connection set itself, and how it was handshaken. -/
  | wrapped (mode : VerifyMode) (cafile : Option CaFile) (config : TlsConfig)

structure Shared where
  context : FizzSSLContext
  conns : ℕ → Conn := fun _ => .new

inductive Action
  | assign (mode : VerifyMode)
  | load (cafile : CaFile)
  | wrap

def Shared.setConn (s : Shared) (i : ℕ) (conn : Conn) : Shared :=
  { s with conns := Function.update s.conns i conn }

/-- A step for connection `i`. A CA file is loaded unless verification is off. -/
def step (s : Shared) (x : ℕ × Action) : Option Shared :=
  match s.conns x.1, x.2 with
  | .new, .assign mode =>
    some ({ s with context := { s.context with verifyMode := mode } }.setConn x.1 (.assigned mode))
  | .assigned mode, .load cafile =>
    if mode = .certNone then none
    else
      match s.context.loadVerifyLocations (some cafile.path) none none with
      | .ok context => some ({ s with context }.setConn x.1 (.loaded mode cafile))
      | .error _ => none
  | .assigned mode, .wrap =>
    if mode = .certNone then
      some (s.setConn x.1 (.wrapped mode none s.context.handshakeConfig))
    else none
  | .loaded mode cafile, .wrap =>
    some (s.setConn x.1 (.wrapped mode (some cafile) s.context.handshakeConfig))
  | _, _ => none

/-- The steps of `step`, one rule for each. -/
inductive Step (s : Shared) (i : ℕ) : Action → Shared → Prop
  | assign {mode : VerifyMode} (h : s.conns i = .new) : Step s i (.assign mode)
      ({ s with context := { s.context with verifyMode := mode } }.setConn i (.assigned mode))
  | load {mode : VerifyMode} {cafile : CaFile} (h : s.conns i = .assigned mode) :
      Step s i (.load cafile)
        ({ s with context := { s.context with cafile := some cafile.path } }.setConn i
          (.loaded mode cafile))
  | wrapUnverified (h : s.conns i = .assigned .certNone) : Step s i .wrap
      (s.setConn i (.wrapped .certNone none s.context.handshakeConfig))
  | wrap {mode : VerifyMode} {cafile : CaFile} (h : s.conns i = .loaded mode cafile) :
      Step s i .wrap (s.setConn i (.wrapped mode (some cafile) s.context.handshakeConfig))

theorem loadVerifyLocations_file (ctx : FizzSSLContext) (cafile : CaFile) :
    ctx.loadVerifyLocations (some cafile.path) none none =
      .ok { ctx with cafile := some cafile.path } := by
  simp [FizzSSLContext.loadVerifyLocations, cafile.path_ne]

theorem step_sound {s s' : Shared} {i : ℕ} {a : Action} (h : step s (i, a) = some s') :
    Step s i a s' := by
  unfold step at h
  dsimp only at h
  split at h
  · cases h; exact .assign ‹_›
  · split_ifs at h
    rw [loadVerifyLocations_file] at h
    cases h
    exact .load ‹_›
  · split_ifs at h with hmode
    subst hmode
    cases h
    exact .wrapUnverified ‹_›
  · cases h; exact .wrap ‹_›
  · cases h

@[simp] theorem conns_setConn_self (s : Shared) (i : ℕ) (conn : Conn) :
    (s.setConn i conn).conns i = conn := Function.update_self ..

theorem conns_setConn_ne (s : Shared) {i j : ℕ} (conn : Conn) (hj : j ≠ i) :
    (s.setConn i conn).conns j = s.conns j := Function.update_of_ne hj ..

theorem conns_step_ne {s s' : Shared} {i j : ℕ} {a : Action} (h : Step s i a s') (hj : j ≠ i) :
    s'.conns j = s.conns j := by
  cases h <;> exact conns_setConn_ne _ _ hj

/-! ## The order of the steps -/

/-- The mode assigned last. -/
def lastMode (xs : List (ℕ × Action)) : Option VerifyMode :=
  (xs.filterMap fun x => match x.2 with
    | .assign mode => some mode
    | _ => none).getLast?

/-- The CA file loaded last. -/
def lastFile (xs : List (ℕ × Action)) : Option Str :=
  (xs.filterMap fun x => match x.2 with
    | .load cafile => some cafile.path
    | _ => none).getLast?

/-- The adapter, with the steps taken so far. -/
abbrev watch : Shared × List (ℕ × Action) → ℕ × Action → Option (Shared × List (ℕ × Action)) :=
  recording step fun xs x => xs ++ [x]

/-- Right after `init_poolmanager`. -/
def start (config : TlsConfig) (fallback : Bool) : Shared × List (ℕ × Action) :=
  ({ context := .new config fallback }, [])

/-- Every connection that set CERT_REQUIRED and a CA file was handshaken so. -/
def Trusted (default : Str) (s : Shared × List (ℕ × Action)) : Prop :=
  ∀ i cafile config, s.1.conns i = .wrapped .certRequired (some cafile) config →
    config.verify = true ∧ config.resolvedCafile default = cafile.path

/-- A connection that set CERT_REQUIRED and a CA file is not wrapped while the mode assigned last, by
whichever connection, is CERT_NONE, or the CA file loaded last is another one. -/
def Undisturbed (s : Shared × List (ℕ × Action)) (x : ℕ × Action) : Prop :=
  match s.1.conns x.1, x.2 with
  | .loaded .certRequired cafile, .wrap =>
    lastMode s.2 ≠ some .certNone ∧ lastFile s.2 = some cafile.path
  | _, _ => True

theorem lastMode_concat (xs : List (ℕ × Action)) (x : ℕ × Action) :
    lastMode (xs ++ [x]) = match x.2 with
      | .assign mode => some mode
      | _ => lastMode xs := by
  unfold lastMode
  rw [List.filterMap_append]
  cases hx : x.2 with
  | assign mode => simp [hx]
  | load cafile => simp [hx]
  | wrap => simp [hx]

theorem lastFile_concat (xs : List (ℕ × Action)) (x : ℕ × Action) :
    lastFile (xs ++ [x]) = match x.2 with
      | .load cafile => some cafile.path
      | _ => lastFile xs := by
  unfold lastFile
  rw [List.filterMap_append]
  cases hx : x.2 with
  | assign mode => simp [hx]
  | load cafile => simp [hx]
  | wrap => simp [hx]

/-! ## What the context holds -/

/-- What is known of the steps from a connection. -/
structure Marked (xs : List (ℕ × Action)) (conn : Conn) : Prop where
  begun : conn ≠ .new → lastMode xs ≠ none
  loaded : ∀ mode cafile, conn = .loaded mode cafile → lastFile xs ≠ none

theorem Marked.later {xs : List (ℕ × Action)} {conn : Conn} (h : Marked xs conn)
    (x : ℕ × Action) : Marked (xs ++ [x]) conn := by
  refine ⟨fun hnew => ?_, fun mode cafile hc => ?_⟩
  · rw [lastMode_concat]
    split
    · nofun
    · exact h.begun hnew
  · rw [lastFile_concat]
    split
    · nofun
    · exact h.loaded mode cafile hc

/-- The context holds what was assigned and loaded last. -/
structure Settled (s : Shared × List (ℕ × Action)) : Prop where
  mode : ∀ mode, lastMode s.2 = some mode → s.1.context.verifyMode = mode
  file : ∀ path, lastFile s.2 = some path → s.1.context.cafile = some path ∧ path ≠ []
  marked : ∀ i, Marked s.2 (s.1.conns i)

theorem settled_start (config : TlsConfig) (fallback : Bool) : Settled (start config fallback) :=
  ⟨nofun, nofun, fun _ => ⟨fun h => absurd rfl h, nofun⟩⟩

theorem settled_step {s s' : Shared × List (ℕ × Action)} {x : ℕ × Action} (hs : Settled s)
    (h : watch s x = some s') : Settled s' := by
  obtain ⟨i, a⟩ := x
  obtain ⟨hsome, hnote⟩ := recording_eq_some step _ h
  have hstep : Step s.1 i a s'.1 := step_sound hsome
  clear h hsome
  obtain ⟨s₁, xs⟩ := s'
  dsimp only at hnote hstep
  subst hnote
  have hmarked : Marked (s.2 ++ [(i, a)]) (s₁.conns i) →
      ∀ j, Marked (s.2 ++ [(i, a)]) (s₁.conns j) := by
    refine (forall_iff_at (Q := fun j => Marked (s.2 ++ [(i, a)]) (s₁.conns j)) fun j hj => ?_).mpr
    rw [conns_step_ne hstep hj]
    exact (hs.marked j).later _
  have hmode := lastMode_concat s.2 (i, a)
  have hfile := lastFile_concat s.2 (i, a)
  cases hstep with
  | assign h =>
    refine ⟨fun mode hm => ?_, fun path hp => hs.file path (hfile.symm.trans hp), hmarked ?_⟩
    · exact Option.some.inj (hmode.symm.trans hm)
    · rw [conns_setConn_self]
      exact ⟨fun _ => by rw [hmode]; nofun, nofun⟩
  | load h =>
    rename_i mode cafile
    refine ⟨fun mode hm => hs.mode mode (hmode.symm.trans hm), fun path hp => ?_, hmarked ?_⟩
    · obtain rfl := Option.some.inj (hfile.symm.trans hp)
      exact ⟨rfl, cafile.path_ne⟩
    · rw [conns_setConn_self]
      refine ⟨fun _ => ?_, fun _ _ _ => by rw [hfile]; nofun⟩
      rw [hmode]
      exact (hs.marked i).begun (by rw [h]; nofun)
  | wrapUnverified h | wrap h =>
    refine ⟨fun mode hm => hs.mode mode (hmode.symm.trans hm),
      fun path hp => hs.file path (hfile.symm.trans hp), hmarked ?_⟩
    rw [conns_setConn_self]
    refine ⟨fun _ => ?_, nofun⟩
    rw [hmode]
    exact (hs.marked i).begun (by rw [h]; nofun)

/-! ## Trust -/

/-- How a connection is handshaken that has set its trust. -/
theorem handshake_iff {s : Shared × List (ℕ × Action)} (hs : Settled s) (default : Str) {i : ℕ}
    {mode : VerifyMode} {cafile : CaFile} (h : s.1.conns i = .loaded mode cafile) :
    (s.1.context.handshakeConfig.verify = true ∧
      s.1.context.handshakeConfig.resolvedCafile default = cafile.path) ↔
    lastMode s.2 ≠ some .certNone ∧ lastFile s.2 = some cafile.path := by
  have hmarked := hs.marked i
  rw [h] at hmarked
  obtain ⟨last, hlast⟩ := Option.ne_none_iff_exists'.mp (hmarked.begun nofun)
  obtain ⟨path, hpath⟩ := Option.ne_none_iff_exists'.mp (hmarked.loaded mode cafile rfl)
  obtain ⟨hfile, hne⟩ := hs.file path hpath
  have hresolved : s.1.context.handshakeConfig.resolvedCafile default = path := by
    unfold TlsConfig.resolvedCafile FizzSSLContext.handshakeConfig
    simp only [hfile, Option.getD_some, if_neg hne]
  have hverify : s.1.context.handshakeConfig.verify = true ↔ last ≠ .certNone := by
    unfold FizzSSLContext.handshakeConfig
    rw [hs.mode last hlast]
    exact decide_eq_true_iff
  rw [hresolved, hverify, hlast, hpath, Option.some.injEq, Ne, Ne, Option.some.injEq]

theorem trusted_step_iff {default : Str} {s s' : Shared × List (ℕ × Action)} {x : ℕ × Action}
    (hs : Settled s) (ht : Trusted default s) (h : watch s x = some s') :
    Trusted default s' ↔ Undisturbed s x := by
  obtain ⟨i, a⟩ := x
  obtain ⟨hstep, -⟩ := recording_eq_some step _ h
  have hstep := step_sound hstep
  have hothers : Trusted default s' ↔
      ∀ cafile config, s'.1.conns i = .wrapped .certRequired (some cafile) config →
        config.verify = true ∧ config.resolvedCafile default = cafile.path := by
    refine forall_iff_at fun j hj => ?_
    rw [conns_step_ne hstep hj]
    exact ht j
  rw [hothers]
  generalize s'.1 = s₁ at hstep ⊢
  clear h hothers
  unfold Undisturbed
  cases hstep with
  | assign h => rw [conns_setConn_self, h]; exact iff_of_true nofun trivial
  | load h => rw [conns_setConn_self, h]; exact iff_of_true nofun trivial
  | wrapUnverified h => rw [conns_setConn_self, h]; exact iff_of_true nofun trivial
  | wrap h =>
    rename_i mode cafile
    rw [conns_setConn_self, h]
    by_cases hmode : mode = .certRequired
    · subst hmode
      refine Iff.trans ?_ (handshake_iff hs default h)
      constructor
      · exact fun hi => hi cafile _ rfl
      · intro hi c config heq
        cases heq
        exact hi
    · refine iff_of_true (fun c config heq => ?_) ?_
      · cases heq; exact absurd rfl hmode
      · cases mode with
        | certRequired => exact absurd rfl hmode
        | certNone => trivial
        | certOptional => trivial

/-- **Trust on a shared context, when.** Whatever the interleaving of the connections of an adapter,
every one that sets CERT_REQUIRED and a CA file is handshaken so exactly if none of them is disturbed
between its own steps. -/
theorem trusted_iff (config : TlsConfig) (fallback : Bool) (default : Str) (xs : List (ℕ × Action)) :
    Throughout watch (Trusted default) (start config fallback) xs ↔
      Along watch Undisturbed (start config fallback) xs :=
  throughout_iff_along (I := Settled) (fun _ _ _ hs h => settled_step hs h)
    (fun _ _ _ hs ht h => trusted_step_iff hs ht h) (settled_start config fallback) nofun xs

def corporate : CaFile := ⟨str "corp.pem", by decide⟩

/-- A verifying connection, and another thread's without verification that begins before the first is
wrapped. -/
def crossed : List (ℕ × Action) :=
  [(0, .assign .certRequired), (0, .load corporate), (1, .assign .certNone), (0, .wrap)]

/-- The first is not verified. -/
theorem crossed_unverified : ∃ s, run watch (start (.new true) false) crossed = some s ∧
    s.1.conns 0 = .wrapped .certRequired (some corporate)
      { TlsConfig.new true with verify := false, cafile := some (str "corp.pem") } ∧ ¬ Trusted [] s := by
  refine ⟨_, rfl, rfl, fun h => ?_⟩
  exact absurd (h 0 corporate _ rfl).1 (by decide)

end Sharing

end Fizzpy
