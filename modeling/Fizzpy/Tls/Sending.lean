import Fizzpy.Core.TlsConnection

/-!
# Sending

The write side of the native connection, under the calls of `TlsSocket` that send. Threads call as they
like, and each is blocked in `run_sync` until its promise is settled. The loop thread runs the lambdas in
the order in which they were queued; the transport calls each `WriteCb` once, at any time and in any order.
What goes to the transport is each accepted call whole, in the order of the calls (`sends_in_order`).
-/

namespace Fizzpy

open Foundation

/-- A call that sends. -/
inductive SendCall
  | sendall (data : Bytes)
  | send (data : Bytes)
  /-- `_TlsRawIO.write`. -/
  | write (b : Bytes)
  deriving DecidableEq

namespace SendCall

def data : SendCall → Bytes
  | sendall data | send data | write data => data

/-- What the call returns: `None`, or a count. -/
def finish : SendCall → Option ℕ
  | sendall _ => none
  | send data | write data => some data.length

end SendCall

/-- A write, with its promise and its deadline. -/
structure Write where
  promise : ℕ
  data : Bytes
  timeoutMs : ℕ
  deriving DecidableEq

/-- A lambda queued for the loop thread. -/
inductive SendTask
  | write (w : Write)
  | close
  deriving DecidableEq

def SendTask.write? : SendTask → Option Write
  | write w => some w
  | close => none

structure SendResult where
  thread : ℕ
  call : SendCall
  promise : ℕ
  outcome : Except CoreError (Option ℕ)

/-- `chain` is what was handed to `writeChain`, each with the send timeout in force, and `callbacks` has the
`WriteCb`s that are still to be called. A thread that is blocked has its call and the promise. -/
structure Sender where
  client : Option ClientState := some .opened
  sendTimeout : ℕ := 0
  chain : List Write := []
  callbacks : List ℕ := []
  tasks : List SendTask := []
  writes : ℕ := 0
  settled : List (ℕ × Except CoreError Unit) := []
  closed : Bool := false
  threads : ℕ → Option (SendCall × ℕ) := fun _ => none
  results : List SendResult := []

namespace Sender

/-- The handshake is done. -/
def wrapped : Sender := {}

/-! ## The loop thread -/

def settle (p : ℕ) (outcome : Except CoreError Unit) (s : Sender) : Sender :=
  { s with settled := s.settled ++ [(p, outcome)] }

def notOpen : Except CoreError Unit := .error (.connectionError (str "connection not open"))

/-- The lambda of `write`, where `good` is what the client answers. -/
def runWrite (good : Bool) (w : Write) (s : Sender) : Sender :=
  if s.client = none ∨ good = false then s.settle w.promise notOpen
  else
    let s := { s with sendTimeout := w.timeoutMs }
    { s with
      callbacks := s.callbacks ++ [w.promise]
      chain := s.chain ++ [⟨w.promise, w.data, s.sendTimeout⟩] }

def runTask (good : Bool) : SendTask → Sender → Sender
  | .write w, s => runWrite good w s
  | .close, s => { s with client := s.client.map fun _ => .closed }

/-- What a `WriteCb` settles its promise with. -/
inductive Written
  | success
  | err (timedOut : Bool) (what : Str)
  deriving DecidableEq

def Written.outcome : Written → Except CoreError Unit
  | success => .ok ()
  | err timedOut what =>
    if timedOut then .error (.timeout (str "write timed out"))
    else .error (.connectionError (str "write failed: " ++ what))

/-! ## Events -/

inductive Event
  /-- A thread calls, and wakes up. -/
  | call (t : ℕ) (c : SendCall) (timeoutMs : ℕ)
  | resume (t : ℕ)
  | close
  | runTask (good : Bool)
  | callback (p : ℕ) (w : Written)
  deriving DecidableEq

/-- A closed client is not good. -/
def step (s : Sender) : Event → Option Sender
  | .call t c timeoutMs =>
    if s.threads t = none then
      some { s with
        tasks := s.tasks ++ [.write ⟨s.writes, c.data, timeoutMs⟩]
        writes := s.writes + 1
        threads := Function.update s.threads t (some (c, s.writes)) }
    else none
  | .resume t =>
    (s.threads t).bind fun x => (s.settled.lookup x.2).map fun outcome =>
      { s with
        threads := Function.update s.threads t none
        results := s.results ++ [⟨t, x.1, x.2, outcome.map fun _ => x.1.finish⟩] }
  | .close => some (if s.closed then s else { s with closed := true, tasks := s.tasks ++ [.close] })
  | .runTask good =>
    if s.client = some .closed ∧ good = true then none
    else
      match s.tasks with
      | task :: tasks => some (runTask good task { s with tasks })
      | [] => none
  | .callback p w =>
    if p ∈ s.callbacks then some ({ s with callbacks := s.callbacks.erase p }.settle p w.outcome) else none

/-- The bytes that went to the transport. -/
def wire (s : Sender) : Bytes := s.chain.flatMap Write.data

/-! ## The calls and their writes -/

/-- The calls, with the timeout of the socket at the time. -/
def calls (es : List Event) : List (SendCall × ℕ) :=
  es.filterMap fun
    | .call _ c timeoutMs => some (c, timeoutMs)
    | _ => none

/-- The writes that they submit. -/
def submitted (es : List Event) : List Write :=
  (calls es).zipIdx.map fun x => ⟨x.2, x.1.1.data, x.1.2⟩

def queued (s : Sender) : List Write := s.tasks.filterMap SendTask.write?

theorem calls_concat (es : List Event) (e : Event) : calls (es ++ [e]) = calls es ++ calls [e] :=
  List.filterMap_append

theorem submitted_call (es : List Event) (t : ℕ) (c : SendCall) (timeoutMs : ℕ) :
    submitted (es ++ [.call t c timeoutMs]) =
      submitted es ++ [⟨(calls es).length, c.data, timeoutMs⟩] := by
  unfold submitted
  rw [calls_concat, List.zipIdx_append, List.map_append, Nat.zero_add]
  rfl

theorem submitted_other (es : List Event) {e : Event} (he : calls [e] = []) :
    submitted (es ++ [e]) = submitted es := by
  unfold submitted
  rw [calls_concat, he, List.append_nil]

theorem mem_submitted {es : List Event} {w : Write} (hw : w ∈ submitted es) :
    ∃ c timeoutMs, (calls es)[w.promise]? = some (c, timeoutMs) ∧ w = ⟨w.promise, c.data, timeoutMs⟩ := by
  obtain ⟨⟨⟨c, timeoutMs⟩, p⟩, hmem, rfl⟩ := List.mem_map.mp hw
  exact ⟨c, timeoutMs, List.mem_zipIdx_iff_getElem?.mp hmem, rfl⟩

/-! ## The invariant -/

structure Ordered (h : List Event) (s : Sender) : Prop where
  count : s.writes = (calls h).length
  /-- What was accepted, and what is queued, is in the order of the calls. -/
  order : (s.chain ++ s.queued).Sublist (submitted h)
  once : (s.settled.map Prod.fst ++ (s.callbacks ++ s.queued.map Write.promise)).Perm (List.range s.writes)
  placed : ∀ p, p ∈ s.chain.map Write.promise ↔
    p ∈ s.callbacks ∨ ∃ o, (p, o) ∈ s.settled ∧ o ≠ notOpen
  blocked : ∀ t c p, s.threads t = some (c, p) → ∃ ms, (calls h)[p]? = some (c, ms)
  apart : ∀ t u c c' p, s.threads t = some (c, p) → s.threads u = some (c', p) → t = u
  answered : ∀ r ∈ s.results, (∃ ms, (calls h)[r.promise]? = some (r.call, ms)) ∧
    ∃ o, (r.promise, o) ∈ s.settled ∧ r.outcome = o.map fun _ => r.call.finish
  returned : (s.results.map SendResult.promise).Nodup ∧
    ∀ t c p, s.threads t = some (c, p) → p ∉ s.results.map SendResult.promise

theorem ordered_wrapped : Ordered [] wrapped where
  count := rfl
  order := List.Sublist.refl []
  once := List.Perm.refl []
  placed := fun p => iff_of_false (List.not_mem_nil) (by rintro (h | ⟨o, h, -⟩) <;> cases h)
  blocked := nofun
  apart := nofun
  answered := nofun
  returned := ⟨List.nodup_nil, nofun⟩

theorem outcome_ne_notOpen (w : Written) : w.outcome ≠ notOpen := by
  rcases w with _ | ⟨_ | _, what⟩
  · nofun
  · intro h
    have hmsg : str "write failed: " ++ what = str "connection not open" :=
      CoreError.connectionError.inj (Except.error.inj h)
    have hhead : some 'w' = some 'c' := congrArg List.head? hmsg
    exact absurd hhead (by decide)
  · nofun

/-- A step of the loop thread or of the transport has no part in the calls. -/
theorem Ordered.loop {h : List Event} {s s' : Sender} {e : Event} (ho : Ordered h s) (he : calls [e] = [])
    (hwrites : s'.writes = s.writes) (horder : (s'.chain ++ s'.queued).Sublist (s.chain ++ s.queued))
    (honce : (s'.settled.map Prod.fst ++ (s'.callbacks ++ s'.queued.map Write.promise)).Perm
      (s.settled.map Prod.fst ++ (s.callbacks ++ s.queued.map Write.promise)))
    (hplaced : ∀ p, p ∈ s'.chain.map Write.promise ↔
      p ∈ s'.callbacks ∨ ∃ o, (p, o) ∈ s'.settled ∧ o ≠ notOpen)
    (hsettled : s.settled ⊆ s'.settled) (hthreads : s'.threads = s.threads)
    (hresults : s'.results = s.results) : Ordered (h ++ [e]) s' where
  count := by rw [hwrites, calls_concat, he, List.append_nil, ho.count]
  order := by
    rw [submitted_other h he]
    exact horder.trans ho.order
  once := by
    rw [hwrites]
    exact honce.trans ho.once
  placed := hplaced
  blocked := by
    rw [hthreads, calls_concat, he, List.append_nil]
    exact ho.blocked
  apart := by
    rw [hthreads]
    exact ho.apart
  answered := by
    rw [hresults, calls_concat, he, List.append_nil]
    intro r hr
    obtain ⟨hcall, o, hmem, hout⟩ := ho.answered r hr
    exact ⟨hcall, o, hsettled hmem, hout⟩
  returned := by
    rw [hthreads, hresults]
    exact ho.returned

section Steps

variable {h : List Event} {s s' : Sender}

theorem ordered_call {t : ℕ} {c : SendCall} {timeoutMs : ℕ} (ho : Ordered h s)
    (hs : step s (.call t c timeoutMs) = some s') : Ordered (h ++ [.call t c timeoutMs]) s' := by
  simp only [step, Option.ite_none_right_eq_some, Option.some.injEq] at hs
  obtain ⟨hidle, rfl⟩ := hs
  have hcalls : calls (h ++ [.call t c timeoutMs]) = calls h ++ [(c, timeoutMs)] := calls_concat h _
  have hlt : ∀ {p : ℕ} {x : SendCall × ℕ}, (calls h)[p]? = some x → p < s.writes := by
    intro p x hx
    rw [ho.count]
    exact (List.getElem?_eq_some_iff.mp hx).1
  have hkeep : ∀ {p : ℕ} {x : SendCall × ℕ}, (calls h)[p]? = some x →
      (calls (h ++ [.call t c timeoutMs]))[p]? = some x := by
    intro p x hx
    rw [hcalls, List.getElem?_append_left (List.getElem?_eq_some_iff.mp hx).1]
    exact hx
  have hwho : ∀ {u : ℕ} {c' : SendCall} {p : ℕ},
      Function.update s.threads t (some (c, s.writes)) u = some (c', p) →
      u = t ∧ c' = c ∧ p = s.writes ∨ s.threads u = some (c', p) := by
    intro u c' p hu
    by_cases htu : u = t
    · subst htu
      rw [Function.update_self, Option.some.injEq, Prod.mk.injEq] at hu
      exact .inl ⟨rfl, hu.1.symm, hu.2.symm⟩
    · rw [Function.update_of_ne htu] at hu
      exact .inr hu
  have hqueued : List.filterMap SendTask.write? (s.tasks ++ [.write ⟨s.writes, c.data, timeoutMs⟩]) =
      s.queued ++ [⟨s.writes, c.data, timeoutMs⟩] := List.filterMap_append
  refine ⟨?_, ?_, ?_, ho.placed, ?_, ?_, ?_, ho.returned.1, ?_⟩
  · rw [hcalls, List.length_append, ← ho.count]
    rfl
  · show (s.chain ++ List.filterMap SendTask.write? _).Sublist _
    rw [hqueued, submitted_call, ← ho.count, ← List.append_assoc]
    exact ho.order.append (List.Sublist.refl _)
  · show (s.settled.map Prod.fst ++ (s.callbacks ++ (List.filterMap SendTask.write? _).map Write.promise)).Perm
      (List.range (s.writes + 1))
    rw [hqueued, List.map_append, ← List.append_assoc, ← List.append_assoc, List.range_succ,
      List.append_assoc (s.settled.map Prod.fst)]
    exact ho.once.append_right [s.writes]
  · intro u c' p hu
    rcases hwho hu with ⟨-, rfl, rfl⟩ | hu
    · exact ⟨timeoutMs, by rw [hcalls, ho.count, List.getElem?_concat_length]⟩
    · obtain ⟨ms, hms⟩ := ho.blocked u c' p hu
      exact ⟨ms, hkeep hms⟩
  · intro u v c₁ c₂ p hu hv
    rcases hwho hu with ⟨rfl, -, rfl⟩ | hu'
    · rcases hwho hv with ⟨rfl, -, -⟩ | hv'
      · rfl
      · obtain ⟨ms, hms⟩ := ho.blocked v c₂ _ hv'
        exact absurd (hlt hms) (lt_irrefl _)
    · rcases hwho hv with ⟨rfl, -, rfl⟩ | hv'
      · obtain ⟨ms, hms⟩ := ho.blocked u c₁ _ hu'
        exact absurd (hlt hms) (lt_irrefl _)
      · exact ho.apart u v c₁ c₂ p hu' hv'
  · intro r hr
    obtain ⟨⟨ms, hms⟩, hout⟩ := ho.answered r hr
    exact ⟨⟨ms, hkeep hms⟩, hout⟩
  · intro u c' p hu hmem
    rcases hwho hu with ⟨-, -, rfl⟩ | hu
    · obtain ⟨r, hr, hp⟩ := List.mem_map.mp hmem
      obtain ⟨⟨ms, hms⟩, -⟩ := ho.answered r hr
      exact absurd (hlt hms) (by omega)
    · exact ho.returned.2 u c' p hu hmem

theorem ordered_resume {t : ℕ} (ho : Ordered h s) (hs : step s (.resume t) = some s') :
    Ordered (h ++ [.resume t]) s' := by
  simp only [step, Option.bind_eq_some_iff, Option.map_eq_some_iff] at hs
  obtain ⟨⟨c, p⟩, ht, o, hlook, rfl⟩ := hs
  have hcalls : calls (h ++ [.resume t]) = calls h := by
    rw [calls_concat]
    exact List.append_nil _
  have hwho : ∀ {u : ℕ} {x : SendCall × ℕ}, Function.update s.threads t none u = some x →
      u ≠ t ∧ s.threads u = some x := by
    intro u x hu
    by_cases htu : u = t
    · subst htu
      rw [Function.update_self] at hu
      cases hu
    · rw [Function.update_of_ne htu] at hu
      exact ⟨htu, hu⟩
  have hmem : (p, o) ∈ s.settled := by
    obtain ⟨l, r, hl, -⟩ := List.lookup_eq_some_iff.mp hlook
    rw [hl]
    exact List.mem_append_right _ List.mem_cons_self
  refine ⟨by rw [hcalls]; exact ho.count, ?_, ho.once, ho.placed, ?_, ?_, ?_, ?_, ?_⟩
  · rw [submitted_other h rfl]
    exact ho.order
  · intro u c' q hu
    rw [hcalls]
    exact ho.blocked u c' q (hwho hu).2
  · intro u v c₁ c₂ q hu hv
    exact ho.apart u v c₁ c₂ q (hwho hu).2 (hwho hv).2
  · intro r hr
    rw [hcalls]
    rcases List.mem_append.mp hr with hr | hr
    · exact ho.answered r hr
    · rw [List.mem_singleton.mp hr]
      exact ⟨ho.blocked t c p ht, o, hmem, rfl⟩
  · show ((s.results ++ [_]).map SendResult.promise).Nodup
    rw [List.map_append, List.map_singleton]
    exact ho.returned.1.append (List.nodup_singleton p)
      (List.disjoint_singleton.mpr (ho.returned.2 t c p ht))
  · intro u c' q hu hq
    obtain ⟨hne, hu'⟩ := hwho hu
    have hq : q ∈ (s.results ++ [_]).map SendResult.promise := hq
    rw [List.map_append, List.mem_append, List.map_singleton, List.mem_singleton] at hq
    rcases hq with hq | rfl
    · exact ho.returned.2 u c' q hu' hq
    · exact hne (ho.apart u t c' c q hu' ht)

theorem ordered_close (ho : Ordered h s) (hs : step s .close = some s') : Ordered (h ++ [.close]) s' := by
  simp only [step, Option.some.injEq] at hs
  subst hs
  split_ifs
  · exact ho.loop rfl rfl (List.Sublist.refl _) (List.Perm.refl _) ho.placed (List.Subset.refl _) rfl rfl
  · have hqueued : List.filterMap SendTask.write? (s.tasks ++ [.close]) = s.queued := by
      rw [List.filterMap_append]
      exact List.append_nil _
    refine ho.loop rfl rfl ?_ ?_ ho.placed (List.Subset.refl _) rfl rfl
    · show (s.chain ++ List.filterMap SendTask.write? _).Sublist _
      rw [hqueued]
    · show (s.settled.map Prod.fst ++ (s.callbacks ++ (List.filterMap SendTask.write? _).map _)).Perm _
      rw [hqueued]

theorem ordered_callback {p : ℕ} {w : Written} (ho : Ordered h s)
    (hs : step s (.callback p w) = some s') : Ordered (h ++ [.callback p w]) s' := by
  simp only [step, Option.ite_none_right_eq_some, Option.some.injEq] at hs
  obtain ⟨hp, rfl⟩ := hs
  refine ho.loop rfl rfl (List.Sublist.refl _) ?_ (fun q => ?_) (List.subset_append_left _ _) rfl rfl
  · show ((s.settled ++ [(p, w.outcome)]).map Prod.fst ++ (s.callbacks.erase p ++ _)).Perm _
    rw [List.map_append, List.append_assoc]
    refine List.Perm.append_left _ ?_
    rw [← List.append_assoc]
    exact (List.perm_cons_erase hp).symm.append_right _
  · show q ∈ s.chain.map Write.promise ↔
      q ∈ s.callbacks.erase p ∨ ∃ o, (q, o) ∈ s.settled ++ [(p, w.outcome)] ∧ o ≠ notOpen
    rw [ho.placed]
    by_cases hq : q = p
    · subst hq
      exact iff_of_true (.inl hp) (.inr ⟨_, List.mem_append_right _ (List.mem_singleton_self _),
        outcome_ne_notOpen w⟩)
    · rw [List.mem_erase_of_ne hq]
      simp [hq]

theorem ordered_runTask {good : Bool} (ho : Ordered h s) (hs : step s (.runTask good) = some s') :
    Ordered (h ++ [.runTask good]) s' := by
  simp only [step] at hs
  split_ifs at hs
  split at hs
  · next task tasks htasks =>
    cases hs
    cases task with
    | close =>
      have hqueued : s.queued = tasks.filterMap SendTask.write? := by
        unfold queued
        rw [htasks]
        rfl
      refine ho.loop rfl rfl ?_ ?_ ho.placed (List.Subset.refl _) rfl rfl
      · rw [hqueued]
        exact List.Sublist.refl _
      · rw [hqueued]
        exact List.Perm.refl _
    | write w =>
      have hqueued : s.queued = w :: tasks.filterMap SendTask.write? := by
        unfold queued
        rw [htasks]
        rfl
      show Ordered _ (runWrite good w { s with tasks })
      unfold runWrite
      split_ifs with hgood
      · refine ho.loop rfl rfl ?_ ?_ (fun q => ?_) (List.subset_append_left _ _) rfl rfl
        · rw [hqueued]
          exact (List.Sublist.refl s.chain).append (List.sublist_cons_self w _)
        · show ((s.settled ++ [(w.promise, notOpen)]).map Prod.fst ++
            (s.callbacks ++ (tasks.filterMap SendTask.write?).map Write.promise)).Perm _
          rw [hqueued, List.map_append, List.map_singleton, List.append_assoc, List.map_cons]
          refine List.Perm.append_left _ ?_
          show (w.promise :: (s.callbacks ++ _)).Perm _
          exact List.perm_middle.symm
        · show q ∈ s.chain.map Write.promise ↔
            q ∈ s.callbacks ∨ ∃ o, (q, o) ∈ s.settled ++ [(w.promise, notOpen)] ∧ o ≠ notOpen
          rw [ho.placed]
          refine or_congr_right (exists_congr fun o => and_congr_left fun hne => ?_)
          rw [List.mem_append, List.mem_singleton, Prod.mk.injEq]
          exact (or_iff_left fun h => hne h.2).symm
      · refine ho.loop rfl rfl ?_ ?_ (fun q => ?_) (List.Subset.refl _) rfl rfl
        · show ((s.chain ++ [w]) ++ tasks.filterMap SendTask.write?).Sublist _
          rw [hqueued, List.append_assoc]
          exact List.Sublist.refl _
        · show (s.settled.map Prod.fst ++ ((s.callbacks ++ [w.promise]) ++ _)).Perm _
          rw [hqueued, List.append_assoc, List.map_cons]
          exact List.Perm.refl _
        · show q ∈ (s.chain ++ [w]).map Write.promise ↔
            q ∈ s.callbacks ++ [w.promise] ∨ ∃ o, (q, o) ∈ s.settled ∧ o ≠ notOpen
          rw [List.map_append, List.mem_append, ho.placed, List.mem_append]
          exact or_right_comm
  · cases hs

theorem ordered_step {e : Event} (ho : Ordered h s) (hs : step s e = some s') : Ordered (h ++ [e]) s' := by
  cases e with
  | call t c timeoutMs => exact ordered_call ho hs
  | resume t => exact ordered_resume ho hs
  | close => exact ordered_close ho hs
  | runTask good => exact ordered_runTask ho hs
  | callback p w => exact ordered_callback ho hs

theorem ordered_run {es : List Event} (hr : run step wrapped es = some s) : Ordered es s :=
  run_history (V := fun _ => True) (fun _ _ _ _ ho _ hs => ordered_step ho hs) (fun _ _ => trivial) []
    ordered_wrapped hr

/-- A closed client takes nothing more. -/
theorem shut_step {e : Event} {chain : List Write} (hi : s.client = some .closed ∧ s.chain = chain)
    (hs : step s e = some s') : s'.client = some .closed ∧ s'.chain = chain := by
  obtain ⟨hclosed, hchain⟩ := hi
  cases e with
  | call t c timeoutMs =>
    simp only [step, Option.ite_none_right_eq_some, Option.some.injEq] at hs
    obtain ⟨-, rfl⟩ := hs
    exact ⟨hclosed, hchain⟩
  | resume t =>
    simp only [step, Option.bind_eq_some_iff, Option.map_eq_some_iff] at hs
    obtain ⟨x, -, o, -, rfl⟩ := hs
    exact ⟨hclosed, hchain⟩
  | close =>
    simp only [step, Option.some.injEq] at hs
    subst hs
    split_ifs
    · exact ⟨hclosed, hchain⟩
    · exact ⟨hclosed, hchain⟩
  | callback p w =>
    simp only [step, Option.ite_none_right_eq_some, Option.some.injEq] at hs
    obtain ⟨-, rfl⟩ := hs
    exact ⟨hclosed, hchain⟩
  | runTask good =>
    simp only [step] at hs
    split_ifs at hs with hgood
    have hgood : good = false := by simpa [hclosed] using hgood
    split at hs
    · next task tasks htasks =>
      cases hs
      cases task with
      | close =>
        refine ⟨?_, hchain⟩
        show s.client.map _ = _
        rw [hclosed]
        rfl
      | write w =>
        show (runWrite good w { s with tasks }).client = _ ∧ (runWrite good w { s with tasks }).chain = chain
        unfold runWrite
        rw [if_pos (.inr hgood)]
        exact ⟨hclosed, hchain⟩
    · cases hs

end Steps

/-- Each promise is settled once. -/
theorem Ordered.settled_once {h : List Event} {s : Sender} (ho : Ordered h s) {p : ℕ}
    {o o' : Except CoreError Unit} (ho₁ : (p, o) ∈ s.settled) (ho₂ : (p, o') ∈ s.settled) : o = o' := by
  have hnodup : (s.settled.map Prod.fst).Nodup :=
    (ho.once.nodup_iff.mpr List.nodup_range).of_append_left
  exact congrArg Prod.snd (List.inj_on_of_nodup_map hnodup ho₁ ho₂ rfl)

theorem Ordered.pending {h : List Event} {s : Sender} (ho : Ordered h s) {p : ℕ}
    {o : Except CoreError Unit} (hs : (p, o) ∈ s.settled) : p ∉ s.callbacks := by
  intro hc
  have hdisj := List.disjoint_of_nodup_append (ho.once.nodup_iff.mpr List.nodup_range)
  exact hdisj (List.mem_map_of_mem hs) (List.mem_append_left _ hc)

/-- What a settled promise says of its write. -/
theorem Ordered.sent_iff {h : List Event} {s : Sender} (ho : Ordered h s) {p : ℕ}
    {o : Except CoreError Unit} (hs : (p, o) ∈ s.settled) :
    p ∈ s.chain.map Write.promise ↔ o ≠ notOpen := by
  rw [ho.placed p, or_iff_right (ho.pending hs)]
  constructor
  · rintro ⟨o', ho', hne⟩
    rwa [ho.settled_once hs ho']
  · exact fun hne => ⟨o, hs, hne⟩

/-- With nothing queued and nothing at the transport, every write is settled. -/
theorem Ordered.settles {h : List Event} {s : Sender} (ho : Ordered h s) (ht : s.tasks = [])
    (hc : s.callbacks = []) {t : ℕ} {c : SendCall} {p : ℕ} (hb : s.threads t = some (c, p)) :
    ∃ s', step s (.resume t) = some s' := by
  obtain ⟨ms, hms⟩ := ho.blocked t c p hb
  have hlt : p ∈ List.range s.writes := by
    rw [List.mem_range, ho.count]
    exact (List.getElem?_eq_some_iff.mp hms).1
  have hqueued : s.queued = [] := by
    unfold queued
    rw [ht]
    rfl
  have hmem := ho.once.mem_iff.mpr hlt
  rw [hc, hqueued, List.map_nil, List.append_nil, List.append_nil] at hmem
  have hsome : s.settled.lookup p ≠ none := by
    intro hnone
    obtain ⟨x, hx, rfl⟩ := List.mem_map.mp hmem
    exact absurd (List.lookup_eq_none_iff.mp hnone x hx) (by simp)
  obtain ⟨o, ho⟩ := Option.ne_none_iff_exists'.mp hsome
  simp only [step, hb, Option.bind_some, ho]
  exact ⟨_, rfl⟩

/-- **Sending.** What goes to the transport are writes of the calls, each whole and with its own deadline,
in the order of the calls. A call that returns has its bytes there, with its own count, one that finds the
connection closed has none; every call returns at most once. No thread stays blocked when the loop thread
has nothing queued and the transport nothing to call, and once the client is closed nothing more is sent. -/
theorem sends_in_order {es : List Event} {s : Sender} (hr : run step wrapped es = some s) :
    s.chain.Sublist (submitted es) ∧
    (∀ r ∈ s.results, ∃ timeoutMs, (calls es)[r.promise]? = some (r.call, timeoutMs) ∧
      (∀ n, r.outcome = .ok n → n = r.call.finish ∧ ⟨r.promise, r.call.data, timeoutMs⟩ ∈ s.chain) ∧
      (r.outcome = .error (.connectionError (str "connection not open")) →
        r.promise ∉ s.chain.map Write.promise)) ∧
    (s.results.map SendResult.promise).Nodup ∧
    (s.tasks = [] → s.callbacks = [] → ∀ t c p, s.threads t = some (c, p) →
      ∃ s', step s (.resume t) = some s') ∧
    (s.client = some .closed → ∀ es' s', run step s es' = some s' → s'.wire = s.wire) := by
  have ho := ordered_run hr
  refine ⟨(List.sublist_append_left s.chain s.queued).trans ho.order, fun r hmem => ?_, ho.returned.1,
    fun ht hc t c p => ho.settles ht hc, fun hclosed es' s' hr' => ?_⟩
  · obtain ⟨⟨timeoutMs, hcall⟩, o, hs, hout⟩ := ho.answered r hmem
    refine ⟨timeoutMs, hcall, fun n hn => ?_, fun hclosed => ?_⟩
    · cases o with
      | error e => cases hout.symm.trans hn
      | ok u =>
        refine ⟨(Except.ok.inj (hout.symm.trans hn)).symm, ?_⟩
        obtain ⟨w, hw, hp⟩ := List.mem_map.mp ((ho.sent_iff hs).mpr nofun)
        obtain ⟨c, ms, hwcall, hweq⟩ :=
          mem_submitted (ho.order.subset (List.mem_append_left s.queued hw))
        rw [hp, hcall, Option.some.injEq, Prod.mk.injEq] at hwcall
        rw [hp, ← hwcall.1, ← hwcall.2] at hweq
        rwa [← hweq]
    · rw [ho.sent_iff hs, not_not]
      cases o with
      | error e => exact congrArg _ (Except.error.inj (hout.symm.trans hclosed))
      | ok u => cases hout.symm.trans hclosed
  · have hshut := run_invariant (fun _ _ _ hi hs => shut_step hi hs) ⟨hclosed, rfl⟩ hr'
    unfold wire
    rw [hshut.2]

/-- Two threads send, and a third one after the socket was closed. -/
def racing : List Event :=
  [.call 0 (.sendall [1, 2]) 500, .call 1 (.send [3]) 0, .runTask true, .close, .runTask true,
    .runTask true, .call 2 (.write [4]) 0, .runTask false, .callback 1 .success,
    .callback 0 (.err true []), .resume 2, .resume 1, .resume 0]

theorem sends_in_order_racing : ∃ s, run step wrapped racing = some s ∧
    s.results.map SendResult.thread = [2, 1, 0] ∧ s.chain.Sublist (submitted racing) ∧
    ∀ es' s', run step s es' = some s' → s'.wire = [1, 2, 3] := by
  have h : (run step wrapped racing).map
      (fun s => (s.results.map SendResult.thread, s.wire, s.client)) =
      some ([2, 1, 0], [1, 2, 3], some .closed) := by
    decide +kernel
  obtain ⟨s, hs, heq⟩ := Option.map_eq_some_iff.mp h
  simp only [Prod.mk.injEq] at heq
  obtain ⟨hresults, hwire, hclosed⟩ := heq
  obtain ⟨hsub, -, -, -, hshut⟩ := sends_in_order hs
  refine ⟨s, hs, hresults, hsub, fun es' s' hr' => ?_⟩
  rw [hshut hclosed es' s' hr', hwire]

end Sender

end Fizzpy
