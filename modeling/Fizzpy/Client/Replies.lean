import Fizzpy.Client.Ownership
import Fizzpy.Http.Waiting

/-!
# What an exchange has read

Beside the client a record is kept of the replies that each thread's exchange has had from its
connection since the write. The parser of an exchange is the one these replies make (`Exchanging`),
so what an exchange does next can be told from what it has read.
-/

namespace Fizzpy

open Foundation ResponseParser

namespace Client

/-- A write begins an exchange. -/
def repliesAfter (replies : List ReadReply) : Action → List ReadReply
  | .write _ => []
  | .read reply => replies ++ [reply]
  | _ => replies

abbrev Record := ℕ → List ReadReply

def note (record : Record) (x : ℕ × Action) : Record :=
  Function.update record x.1 (repliesAfter (record x.1) x.2)

/-- The client, with the record. -/
abbrev watch (codec : Codec) : Client × Record → ℕ × Action → Option (Client × Record) :=
  recording (step codec) note

def watchInit : Client × Record := (init, fun _ => [])

/-- The runs are those of the client. -/
theorem run_watch (codec : Codec) (xs : List (ℕ × Action)) : run (watch codec) watchInit xs =
    (run (step codec) init xs).map fun s => (s, xs.foldl note fun _ => []) :=
  run_recording (step codec) note init _ xs

/-- The bytes of the replies. -/
def bytesOf (replies : List ReadReply) : Bytes :=
  replies.flatMap fun
    | .chunk data => data
    | .failed => []

/-- The replies of an exchange that still reads, and its parser. -/
structure Reads (codec : Codec) (replies : List ReadReply) (parser : ResponseParser)
    (received : Bool) (pieces : List Bytes) : Prop where
  replies : replies = pieces.map .chunk
  nonempty : ∀ d ∈ pieces, d ≠ []
  received : received = false ↔ pieces = []
  fed : feedAll codec fresh pieces = .ok parser
  incomplete : parser.isComplete = false

/-- What the record says of a thread in the phase. -/
def Exchanging (codec : Codec) (replies : List ReadReply) : Phase → Prop
  | .read _ _ parser received => ∃ pieces, Reads codec replies parser received pieces
  | _ => True

theorem reads_nil (codec : Codec) : Reads codec [] fresh false [] :=
  ⟨rfl, nofun, iff_of_true rfl rfl, rfl, rfl⟩

namespace Reads

variable {codec : Codec} {replies : List ReadReply} {parser : ResponseParser} {received : Bool}
  {pieces : List Bytes}

theorem live (h : Reads codec replies parser received pieces) : Live parser :=
  (feedAll_awaits pieces live_fresh awaits_fresh h.fed h.incomplete).1

theorem awaits (h : Reads codec replies parser received pieces) : Awaits parser :=
  (feedAll_awaits pieces live_fresh awaits_fresh h.fed h.incomplete).2

theorem bytes (h : Reads codec replies parser received pieces) : bytesOf replies = pieces.flatten := by
  rw [h.replies, bytesOf, List.flatMap_map]
  exact List.flatMap_id'

/-- One more piece. -/
theorem snoc {q : ResponseParser} {data : Bytes} (h : Reads codec replies parser received pieces)
    (hd : data ≠ []) (hq : parser.feed codec data = .ok q) (hc : q.isComplete = false) :
    Reads codec (replies ++ [.chunk data]) q true (pieces ++ [data]) where
  replies := by rw [h.replies, List.map_append]; rfl
  nonempty := fun d hmem => by
    rcases List.mem_append.mp hmem with hmem | hmem
    · exact h.nonempty d hmem
    · rw [List.mem_singleton.mp hmem]; exact hd
  received := iff_of_false nofun (by simp)
  fed := by rw [feedAll_concat, h.fed]; exact hq
  incomplete := hc

end Reads

/-! ## Outcomes -/

/-- Only an exchange that goes on leaves its thread busy. -/
theorem proceed_goOn {t : Thread} {o : Outcome} {phase : Phase} (h : (t.proceed o).phase = phase)
    (hbusy : phase ≠ .idle) : o = .goOn phase := by
  cases o with
  | goOn phase => exact congrArg Outcome.goOn h
  | returned r => exact absurd h.symm hbusy
  | raised e => exact absurd h.symm hbusy

theorem afterRead_data (codec : Codec) (c : ConnId) (reused : Bool) (parser : ResponseParser)
    (received : Bool) {data : Bytes} (hd : data ≠ []) :
    afterRead codec c reused parser received (.chunk data) =
      match parser.feed codec data with
      | .ok q => if q.isComplete then afterLoop c reused q else .goOn (.read c reused q true)
      | .error e => .raised (.parse e.1) := if_neg hd

theorem afterRead_end (codec : Codec) (c : ConnId) (reused : Bool) (parser : ResponseParser)
    (received : Bool) (h : ¬ (reused = true ∧ received = false)) :
    afterRead codec c reused parser received (.chunk []) =
      match parser.feedEof codec with
      | .ok q => afterLoop c reused q
      | .error e => .raised (.parse e.1) := by
  have hs : ¬ (reused = true ∧ ¬ received = true) := by simpa using h
  unfold afterRead
  dsimp only
  exact (if_pos rfl).trans (if_neg hs)

/-- Behind the loop no exchange reads on. -/
theorem afterLoop_goOn {c : ConnId} {reused : Bool} {parser : ResponseParser} {phase : Phase}
    (h : afterLoop c reused parser = .goOn phase) :
    (∃ r, parser.response = some r ∧ (phase = .give c r ∧ reusable parser r = true ∨
      phase = .close c r ∧ reusable parser r = false)) ∨
    (parser.response = none ∧ reused = true ∧ phase = .closeStale c) := by
  unfold afterLoop at h
  split at h
  · rename_i hr
    split_ifs at h with hu
    cases h
    exact .inr ⟨hr, hu, rfl⟩
  · rename_i r hr
    split_ifs at h with hu
    · cases h; exact .inl ⟨r, hr, .inl ⟨rfl, hu⟩⟩
    · cases h; exact .inl ⟨r, hr, .inr ⟨rfl, by simpa using hu⟩⟩

theorem afterLoop_response {c : ConnId} {reused : Bool} {parser : ResponseParser} {r : Response}
    (h : parser.response = some r) : afterLoop c reused parser =
      if reusable parser r then .goOn (.give c r) else .goOn (.close c r) := by
  unfold afterLoop
  rw [h]

theorem exchanging_afterLoop (codec : Codec) {t : Thread} {c : ConnId} {reused : Bool}
    {parser : ResponseParser} (replies : List ReadReply) :
    Exchanging codec replies (t.proceed (afterLoop c reused parser)).phase := by
  cases ho : afterLoop c reused parser with
  | goOn phase =>
    obtain ⟨r, -, ⟨rfl, -⟩ | ⟨rfl, -⟩⟩ | ⟨-, -, rfl⟩ := afterLoop_goOn ho <;> trivial
  | returned r => trivial
  | raised e => trivial

theorem exchanging_afterRead {codec : Codec} {t : Thread} {c : ConnId} {reused received : Bool}
    {parser : ResponseParser} {replies : List ReadReply} {pieces : List Bytes}
    (h : Reads codec replies parser received pieces) (reply : ReadReply) :
    Exchanging codec (replies ++ [reply])
      (t.proceed (afterRead codec c reused parser received reply)).phase := by
  cases reply with
  | failed =>
    unfold afterRead
    dsimp only
    split_ifs <;> trivial
  | chunk data =>
    by_cases hd : data = []
    · subst hd
      by_cases hs : reused = true ∧ received = false
      · have : afterRead codec c reused parser received (.chunk []) = .goOn (.closeStale c) := by
          unfold afterRead
          dsimp only
          rw [if_pos rfl, if_pos (by simpa using hs)]
        rw [this]
        trivial
      · rw [afterRead_end codec c reused parser received hs]
        cases parser.feedEof codec with
        | ok q => exact exchanging_afterLoop codec _
        | error e => trivial
    · rw [afterRead_data codec c reused parser received hd]
      cases hq : parser.feed codec data with
      | error e => trivial
      | ok q =>
        dsimp only
        cases hc : q.isComplete with
        | true => exact exchanging_afterLoop codec _
        | false => exact ⟨pieces ++ [data], h.snoc hd hq hc⟩

/-! ## Steps -/

/-- In every state, the record fits the phases. -/
def Recorded (codec : Codec) (s : Client × Record) : Prop :=
  ∀ i, Exchanging codec (s.2 i) (s.1.threads i).phase

theorem recorded_init (codec : Codec) : Recorded codec watchInit := fun _ => trivial

/-- Another thread's step leaves a thread and its record alone. -/
theorem watch_ne {codec : Codec} {s s' : Client × Record} {i j : ℕ} {a : Action}
    (h : watch codec s (i, a) = some s') (hj : j ≠ i) :
    s'.1.threads j = s.1.threads j ∧ s'.2 j = s.2 j := by
  obtain ⟨hstep, hnote⟩ := recording_eq_some (step codec) note h
  rw [hnote]
  exact ⟨threads_step_ne (step_sound hstep) hj, Function.update_of_ne hj ..⟩

theorem watch_self {codec : Codec} {s s' : Client × Record} {i : ℕ} {a : Action}
    (h : watch codec s (i, a) = some s') :
    Step codec s.1 i a s'.1 ∧ s'.2 i = repliesAfter (s.2 i) a := by
  obtain ⟨hstep, hnote⟩ := recording_eq_some (step codec) note h
  rw [hnote]
  exact ⟨step_sound hstep, Function.update_self ..⟩

/-- What holds of every thread and its record is, after a step, a matter of the thread that steps. -/
theorem watch_forall_iff {codec : Codec} {P : List ReadReply → Phase → Prop}
    {s s' : Client × Record} {i : ℕ} {a : Action} (hold : ∀ j, P (s.2 j) (s.1.threads j).phase)
    (h : watch codec s (i, a) = some s') :
    (∀ j, P (s'.2 j) (s'.1.threads j).phase) ↔ P (s'.2 i) (s'.1.threads i).phase := by
  refine forall_iff_at fun j hj => ?_
  obtain ⟨hthread, hreplies⟩ := watch_ne h hj
  rw [hthread, hreplies]
  exact hold j

theorem recorded_step {codec : Codec} {s : Client × Record} {x : ℕ × Action}
    {s' : Client × Record} (hs : Recorded codec s) (h : watch codec s x = some s') :
    Recorded codec s' := by
  obtain ⟨i, a⟩ := x
  refine (watch_forall_iff hs h).mpr ?_
  obtain ⟨hstep, hreplies⟩ := watch_self h
  rw [hreplies]
  have hI := hs i
  generalize s'.1 = client' at hstep ⊢
  clear h
  cases hstep with
  | write h =>
    rename_i c reused ok
    rw [threads_setThread_self]
    cases ok with
    | true => exact ⟨[], reads_nil codec⟩
    | false => cases reused <;> trivial
  | read h =>
    rw [threads_setThread_self]
    rw [h] at hI
    obtain ⟨pieces, hreads⟩ := hI
    exact exchanging_afterRead hreads _
  | _ => rw [threads_setThread_self]; trivial

end Client

end Fizzpy
