import Fizzpy.Probe.Scan

/-!
# The command

`fizzpy probe`: the targets read and parsed, each kept where it comes first, the results of the scan
put back in that order for the table, and the exit status. Colours of the terminal are an argument;
the JSON lines and the detail of `--verbose` are left out.
-/

namespace Fizzpy

namespace Probe

open Foundation

/-! ## The table -/

/-- `_COLUMNS`. -/
def columns : List (Str × Str) :=
  [(str "ML-KEM", str "X25519MLKEM768"), (str "x25519", str "x25519"), (str "P-256", str "secp256r1"),
    (str "P-384", str "secp384r1")]

/-- `_CELL`. -/
def Outcome.cell : Outcome → Str
  | accepted => str "ok"
  | rejected => str "rej"
  | failed => str "FAIL"

/-- `_COLOR`. -/
def Verdict.color : Verdict → Str
  | postQuantum => str "32"
  | classicalOnly => str "33"
  | pqBlocked => str "31"
  | noTls13 => str "31"
  | unreachable => str "90"
  | error => str "31"

def Verdict.value : Verdict → Str
  | postQuantum => str "post-quantum"
  | classicalOnly => str "classical-only"
  | pqBlocked => str "pq-blocked"
  | noTls13 => str "no-tls13"
  | unreachable => str "unreachable"
  | error => str "error"

/-- `_paint`. -/
def paint (text code : Str) (enabled : Bool) : Str :=
  if enabled then str "\x1b[" ++ code ++ str "m" ++ text ++ str "\x1b[0m" else text

/-- `_cell`. -/
def cell (result : ProbeResult) (group : Str) : Str :=
  match result.attempts.find? fun a => a.offered = [group] with
  | some attempt => attempt.outcome.cell
  | none => str "-"

/-- `_row`. -/
def row (result : ProbeResult) : List Str :=
  let target :=
    if result.port = 443 then result.host
    else result.host ++ str ":" ++ Nat.toDigits 10 result.port
  [target, result.verdict.value, (result.preferred.bind orNone).getD (str "-")] ++
    columns.map (fun column => cell result column.2) ++ [result.error.getD []]

def header : List Str := [str "HOST", str "VERDICT", str "PREFERRED"] ++ columns.map Prod.fst ++ [[]]

/-- The longest text of each column. -/
def widths (rows : List (List Str)) : List ℕ :=
  (List.range header.length).map fun i => (rows.map fun row => (row.getD i []).length).foldl max 0

def ljust (width : ℕ) (text : Str) : Str := text ++ List.replicate (width - text.length) ' '

/-- One line, with what is done to its second cell. -/
def tableLine (widths : List ℕ) (painted : Str → Str) (row : List Str) : Str :=
  ((str "  ").intercalate ((List.zipWith ljust widths row).modify 1 painted)).rdropWhile isSpace

/-- The line of a result. -/
def resultLine (widths : List ℕ) (color : Bool) (result : ProbeResult) : Str :=
  tableLine widths (fun cell => paint cell result.verdict.color color) (row result)

/-- `_print_table`. -/
def printTable (results : List ProbeResult) (color : Bool) : List Str :=
  let widths := widths (header :: results.map row)
  tableLine widths id header :: results.map (resultLine widths color)

/-! ### What the table shows -/

/-- The target of a result; the usual port is left out. -/
def ProbeResult.shown (result : ProbeResult) : Str :=
  if result.port = 443 then result.host else result.host ++ str ":" ++ Nat.toDigits 10 result.port

/-- A line that begins with the target of a result, set off from its verdict. -/
def Lists (result : ProbeResult) (line : Str) : Prop :=
  ∃ before behind, line = result.shown ++ str "  " ++ before ++ result.verdict.value ++ behind

/-- Below the header there is one line for each result, in order. -/
def Tabulates (results : List ProbeResult) (table : List Str) : Prop :=
  ∃ head lines, table = head :: lines ∧ str "HOST" <+: head ∧ List.Forall₂ Lists results lines

theorem rdropWhile_append_of_last {p : Char → Bool} {text : Str} (rest : Str)
    (h : ∀ hne : text ≠ [], ¬ p (text.getLast hne)) :
    (text ++ rest).rdropWhile p = text ++ rest.rdropWhile p := by
  induction rest using List.reverseRecOn with
  | nil => rw [List.append_nil, List.rdropWhile_nil, List.append_nil, List.rdropWhile_eq_self_iff.mpr h]
  | append_singleton rest c ih =>
    rw [← List.append_assoc]
    by_cases hc : p c
    · rw [List.rdropWhile_concat_pos _ _ _ hc, List.rdropWhile_concat_pos _ _ _ hc, ih]
    · rw [List.rdropWhile_concat_neg _ _ _ hc, List.rdropWhile_concat_neg _ _ _ hc, List.append_assoc]

theorem intercalate_cons_eq (sep cell : Str) (cells : List Str) :
    ∃ rest, sep.intercalate (cell :: cells) = cell ++ rest := by
  cases cells with
  | nil => exact ⟨[], by rw [List.intercalate_singleton, List.append_nil]⟩
  | cons cell' cells => exact ⟨_, by rw [List.intercalate_cons_cons, List.append_assoc]⟩

/-- The first cell of a line stands at its front, and the second is not taken for blanks at its end. -/
theorem tableLine_eq {w v : ℕ} {ws : List ℕ} {painted : Str → Str} {first second : Str}
    {cells : List Str} (hpainted : ∃ pre post, painted (ljust v second) = pre ++ second ++ post)
    (hne : second ≠ []) (hlast : ¬ isSpace (second.getLast hne)) :
    ∃ before behind, tableLine (w :: v :: ws) painted (first :: second :: cells) =
      first ++ str "  " ++ before ++ second ++ behind := by
  obtain ⟨pre, post, hpainted⟩ := hpainted
  obtain ⟨rest, hrest⟩ :=
    intercalate_cons_eq (str "  ") (painted (ljust v second)) (List.zipWith ljust ws cells)
  have hblanks (n : ℕ) : List.replicate n ' ' ++ str "  " = str "  " ++ List.replicate n ' ' := by
    show List.replicate n ' ' ++ List.replicate 2 ' ' = List.replicate 2 ' ' ++ List.replicate n ' '
    rw [List.replicate_append_replicate, List.replicate_append_replicate, Nat.add_comm]
  refine ⟨List.replicate (w - first.length) ' ' ++ pre, (post ++ rest).rdropWhile isSpace, ?_⟩
  have hcells : (List.zipWith ljust (w :: v :: ws) (first :: second :: cells)).modify 1 painted =
      ljust w first :: painted (ljust v second) :: List.zipWith ljust ws cells := rfl
  have hline : first ++ List.replicate (w - first.length) ' ' ++ str "  " ++
      (pre ++ second ++ post ++ rest) =
      first ++ str "  " ++ (List.replicate (w - first.length) ' ' ++ pre) ++ second ++ (post ++ rest) := by
    rw [List.append_assoc first, hblanks]
    simp only [List.append_assoc]
  rw [tableLine, hcells, List.intercalate_cons_cons, hrest, hpainted, ljust, hline,
    rdropWhile_append_of_last]
  intro _
  rwa [List.getLast_append_of_ne_nil _ hne]

theorem widths_eq (rows : List (List Str)) : ∃ w v ws, widths rows = w :: v :: ws := ⟨_, _, _, rfl⟩

theorem paint_eq (text code : Str) (enabled : Bool) :
    ∃ pre post, paint text code enabled = pre ++ text ++ post := by
  unfold paint
  split_ifs
  · exact ⟨_, _, rfl⟩
  · exact ⟨[], [], by rw [List.nil_append, List.append_nil]⟩

theorem lists_resultLine (rows : List (List Str)) (color : Bool) (result : ProbeResult) :
    Lists result (resultLine (widths rows) color result) := by
  obtain ⟨w, v, ws, hwidths⟩ := widths_eq rows
  have hvalue : ∃ hne : result.verdict.value ≠ [], ¬ isSpace (result.verdict.value.getLast hne) := by
    cases result.verdict <;> exact ⟨by decide, by decide⟩
  obtain ⟨hne, hlast⟩ := hvalue
  rw [hwidths]
  refine tableLine_eq ?_ hne hlast
  obtain ⟨pre, post, h⟩ := paint_eq (ljust v result.verdict.value) result.verdict.color color
  exact ⟨pre, _, by rw [h, ljust, ← List.append_assoc, List.append_assoc _ _ post]⟩

theorem tabulates_printTable (results : List ProbeResult) (color : Bool) :
    Tabulates results (printTable results color) := by
  obtain ⟨w, v, ws, hwidths⟩ := widths_eq (header :: results.map row)
  refine ⟨_, _, rfl, ?_, ?_⟩
  · have hline : ∃ before behind,
        tableLine (w :: v :: ws) id (str "HOST" :: str "VERDICT" :: header.drop 2) =
          str "HOST" ++ str "  " ++ before ++ str "VERDICT" ++ behind :=
      tableLine_eq ⟨[], _, rfl⟩ (by decide) (by decide)
    obtain ⟨before, behind, h⟩ := hline
    have hhead : header = str "HOST" :: str "VERDICT" :: header.drop 2 := rfl
    rw [hwidths, hhead, h]
    simp only [List.append_assoc]
    exact List.prefix_append _ _
  · rw [List.forall₂_map_right_iff]
    exact List.forall₂_same.mpr fun result _ => lists_resultLine _ color result

/-! ## The command -/

/-- `file` is what reading the file gives, if one is named. -/
structure Args where
  targets : List Str := []
  file : Option (Except Exn Str) := none
  json : Bool := false
  concurrency : ℕ := 16
  requirePq : Bool := false
  color : Bool := false

def isLineBreak (c : Char) : Bool := c.toNat ∈ [10, 11, 12, 13, 28, 29, 30, 133, 0x2028, 0x2029]

/-- `str.splitlines`, behind the part of a line that is read already. -/
def splitlinesFrom : Str → Str → List Str
  | line, [] => if line = [] then [] else [line]
  | line, '\r' :: '\n' :: rest => line :: splitlinesFrom [] rest
  | line, c :: rest =>
    if isLineBreak c then line :: splitlinesFrom [] rest else splitlinesFrom (line ++ [c]) rest

def splitlines (text : Str) : List Str := splitlinesFrom [] text

/-- `_read_targets`. -/
def readTargets (args : Args) : Except Exn (List Str) := do
  let lines ← match args.file with
    | none => pure []
    | some text => splitlines <$> text
  let raw := args.targets ++ lines.map fun line => strip isSpace (line.takeWhile (· ≠ '#'))
  pure (raw.filter (· ≠ []))

/-- What `asyncio.run(_probe_all(args, targets))` comes to. -/
inductive Collected
  | results (results : List ProbeResult)
  | noPostQuantumSupport
  | interrupted

/-- The exit status, the table on `stdout` and the line on `stderr`. -/
structure Ran where
  status : ℕ
  table : List Str := []
  complaint : Option Str := none

/-- `_cmd_probe`. -/
def cmdProbe (parse : Str → Except Exn Target) (scan : List Target → Collected) (args : Args) :
    Except Exn Ran :=
  match (do (← readTargets args).mapM parse : Except Exn (List Target)) with
  | .error e =>
    if e.kind = .other then .error e
    else .ok { status := 2, complaint := some (str "fizzpy: " ++ e.text) }
  | .ok parsed =>
    let targets := firsts parsed
    if targets = [] then
      .ok { status := 2, complaint := str "fizzpy: no targets given (pass hosts or --file)" }
    else
      match scan targets with
      | .noPostQuantumSupport =>
        .ok {
          status := 2
          complaint := str ("fizzpy: this build of fizzpy has no post-quantum support; " ++
            "install a wheel or build against a liboqs-enabled Fizz") }
      | .interrupted => .ok { status := 130 }
      | .results results =>
        -- No target is given twice, so its index in `order` is the first.
        let sorted := sortByIndex targets ProbeResult.key results
        .ok {
          status := if args.requirePq && results.any (·.verdict ≠ .postQuantum) then 1 else 0
          table := if args.json then [] else printTable sorted args.color }

/-! ## Every target, once -/

variable {Info : Type} {parse : Str → Except Exn Target}

/-- One row for each target, in the order in which the targets come first. -/
structure InOrder (parsed : List Target) (rows : List ProbeResult) : Prop where
  nodup : (rows.map ProbeResult.key).Nodup
  mem : ∀ t, t ∈ rows.map ProbeResult.key ↔ t ∈ parsed
  ordered : (rows.map ProbeResult.key).Pairwise fun t u => parsed.idxOf t < parsed.idxOf u

theorem inOrder_of_map_key {parsed : List Target} {rows : List ProbeResult}
    (h : rows.map ProbeResult.key = firsts parsed) : InOrder parsed rows where
  nodup := h ▸ nodup_firsts parsed
  mem _ := h ▸ mem_firsts
  ordered := h ▸ firsts_ordered parsed

theorem firsts_ne_nil {parsed : List Target} (h : parsed ≠ []) : firsts parsed ≠ [] := by
  obtain ⟨t, ht⟩ := List.exists_mem_of_ne_nil parsed h
  exact List.ne_nil_of_mem (mem_firsts.mpr ht)

theorem cmdProbe_results {scan : List Target → Collected} {args : Args} {raw : List Str}
    {parsed : List Target} {results : List ProbeResult} (hraw : readTargets args = .ok raw)
    (hparsed : raw.mapM parse = .ok parsed) (hne : parsed ≠ [])
    (hscan : scan (firsts parsed) = .results results) :
    cmdProbe parse scan args = .ok {
      status := if args.requirePq && results.any (·.verdict ≠ .postQuantum) then 1 else 0
      table := if args.json then []
        else printTable (sortByIndex (firsts parsed) ProbeResult.key results) args.color } := by
  unfold cmdProbe
  rw [hraw, ok_bind, hparsed]
  dsimp only
  rw [if_neg (firsts_ne_nil hne), hscan]

/-- The pairs that the command hands over are taken as they are. -/
theorem mapM_inr (targets : List Target) :
    (targets.map Sum.inr).mapM (Sum.elim parse .ok) = .ok targets := by
  have h : targets.mapM (Sum.elim parse .ok ∘ Sum.inr) = .ok (targets.map id) := mapM_ok fun _ _ => rfl
  rwa [List.map_id, ← List.mapM_map] at h

/-- After a scan of the given targets, as far as it has come. -/
structure Scanned (parsed : List Target) (c : ℕ) (es : List (Event Info)) (s : Scan Info) : Prop where
  inFlight : s.inFlight ≤ c
  length : es.length ≤ 3 * parsed.length
  goesOn : ∃ es' s', (∀ e ∈ es', Event.Supported e) ∧ run Scan.step s es' = some s' ∧ s'.Ended
  answered : s.Ended → Scan.Answered parsed s

theorem scanned_of_run {given : List (Str ⊕ Target)} {c : ℕ} {s₀ s : Scan Info}
    {es : List (Event Info)} (hc : 1 ≤ c) (hstart : probeMany Info parse given c = .ok s₀)
    (hsupported : ∀ e ∈ es, e.Supported) (hrun : run Scan.step s₀ es = some s) :
    ∃ parsed, given.mapM (Sum.elim parse .ok) = .ok parsed ∧ Scanned parsed c es s := by
  obtain ⟨parsed, hparsed, hinv, hpending⟩ := Scan.probeMany_inv hstart
  have hinv' := Scan.run_inv hinv hsupported hrun
  have hlength := run_length_le (fun _ _ _ => Scan.step_pending) hrun
  rw [hpending] at hlength
  exact ⟨parsed, hparsed, {
    inFlight := Scan.inFlight_le hinv'
    length := (Nat.le_add_right _ _).trans hlength
    goesOn := Scan.exists_ended hinv'
    answered := Scan.answered_of_ended hc hinv' }⟩

/-- What is collected of a scan of the targets that the command hands over. -/
def Collects (Info : Type) (parse : Str → Except Exn Target) (c : ℕ) (targets : List Target)
    (results : List ProbeResult) : Prop :=
  ∃ (s₀ s : Scan Info) (es : List (Event Info)),
    probeMany Info parse (targets.map .inr) c = .ok s₀ ∧ (∀ e ∈ es, e.Supported) ∧
      run Scan.step s₀ es = some s ∧ s.Ended ∧ results = s.yielded

theorem collects_keys {c : ℕ} {targets : List Target} {results : List ProbeResult} (hc : 1 ≤ c)
    (h : Collects Info parse c targets results) :
    (results.map ProbeResult.key).Perm targets := by
  obtain ⟨s₀, s, es, hstart, hsupported, hrun, hended, rfl⟩ := h
  obtain ⟨parsed, hparsed, hscanned⟩ := scanned_of_run hc hstart hsupported hrun
  rw [mapM_inr] at hparsed
  cases hparsed
  exact (hscanned.answered hended).keys

theorem table_inOrder {parsed : List Target} {results : List ProbeResult}
    (hkeys : (results.map ProbeResult.key).Perm (firsts parsed)) :
    InOrder parsed (sortByIndex (firsts parsed) ProbeResult.key results) :=
  inOrder_of_map_key (map_key_sortByIndex (nodup_firsts parsed) hkeys)

/-- A scan answers every target exactly once, and the command lists the targets in their order. -/
theorem every_target_answered :
    (∀ (given : List (Str ⊕ Target)) (c : ℕ) (s₀ s : Scan Info) (es : List (Event Info)),
      1 ≤ c → probeMany Info parse given c = .ok s₀ → (∀ e ∈ es, e.Supported) →
      run Scan.step s₀ es = some s →
      ∃ parsed, given.mapM (Sum.elim parse .ok) = .ok parsed ∧ Scanned parsed c es s) ∧
    ∀ (scan : List Target → Collected) (args : Args) (raw : List Str) (parsed : List Target)
      (results : List ProbeResult),
      1 ≤ args.concurrency → readTargets args = .ok raw → raw.mapM parse = .ok parsed →
      parsed ≠ [] → scan (firsts parsed) = .results results →
      Collects Info parse args.concurrency (firsts parsed) results →
      ∃ ran, cmdProbe parse scan args = .ok ran ∧
        (args.json = false → ∃ rows, InOrder parsed rows ∧ rows.Perm results ∧
          Tabulates rows ran.table) ∧
        (args.requirePq = true → (ran.status = 1 ↔ ∃ r ∈ results, r.verdict ≠ .postQuantum)) := by
  refine ⟨fun given c s₀ s es => scanned_of_run, ?_⟩
  intro scan args raw parsed results hc hraw hparsed hne hscan hcollects
  refine ⟨_, cmdProbe_results hraw hparsed hne hscan, fun hjson => ?_, fun hrequire => ?_⟩
  · refine ⟨_, table_inOrder (collects_keys hc hcollects), sortByIndex_perm _ _ _, ?_⟩
    rw [hjson]
    exact tabulates_printTable _ _
  · rw [hrequire, Bool.true_and, ite_eq_left_iff]
    simp

/-- `fizzpy probe b a b -c 1 --require-pq`. -/
def twiceArgs : Args :=
  { targets := [str "b", str "a", str "b"], concurrency := 1, requirePq := true }

/-- `a` is probed first, and `b` raises. -/
def twiceEvents : List (Event Unit) :=
  [.enter 1, .complete 1 (Scan.unresolved Unit (str "a", 443)), .next, .enter 0,
    .complete 0 { Scan.unresolved Unit (str "b", 443) with
      infos := .error { kind := .other, name := str "RuntimeError" } }, .next]

theorem every_target_answered_twice :
    ∃ results, Collects Unit (fun t => .ok (t, 443)) 1 [(str "b", 443), (str "a", 443)] results ∧
      ∃ ran, cmdProbe (fun t => .ok (t, 443)) (fun _ => .results results) twiceArgs = .ok ran ∧
        ∃ rows, InOrder [(str "b", 443), (str "a", 443), (str "b", 443)] rows ∧
          Tabulates rows ran.table := by
  have hcollects : ∃ results,
      Collects Unit (fun t => .ok (t, 443)) 1 [(str "b", 443), (str "a", 443)] results :=
    ⟨_, _, _, twiceEvents, rfl, by simp [twiceEvents, Event.Supported, Scan.unresolved], rfl,
      Scan.ended_of_pending rfl, rfl⟩
  obtain ⟨results, hcollects⟩ := hcollects
  obtain ⟨ran, hran, htable, -⟩ := every_target_answered.2 (fun _ => .results results) twiceArgs
    twiceArgs.targets [(str "b", 443), (str "a", 443), (str "b", 443)] results (by decide) rfl rfl
    (List.cons_ne_nil _ _) rfl hcollects
  obtain ⟨rows, hrows, -, htable⟩ := htable rfl
  exact ⟨results, hcollects, ran, hran, rows, hrows, htable⟩

end Probe

end Fizzpy
