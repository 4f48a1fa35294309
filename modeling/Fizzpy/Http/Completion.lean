import Fizzpy.Http.Chunking

/-!
# A complete parser has a response

The parser is complete from the moment `_finalize` sets its response: `answers_feedAll`.
-/

namespace Fizzpy

open Foundation

namespace ResponseParser

/-- A parser that comes out complete has a response. -/
def Answers (x : Parse) : Prop := ∀ q, x = .ok q → q.state = .done → q.response ≠ none

theorem answers_error (e : ParseExn × ResponseParser) : Answers (.error e) := fun _ h => by cases h

theorem answers_waiting {p : ResponseParser} (h : p.state ≠ .done) : Answers (.ok p) := by
  intro q hq hs
  cases hq
  exact absurd hs h

theorem answers_bind {x : Parse} {f : ResponseParser → Parse}
    (h : ∀ q, x = .ok q → Answers (f q)) : Answers (x >>= f) := by
  cases x with
  | error e => exact answers_error e
  | ok q => exact h q rfl

theorem answers_inState {s : ParserState} {f : ResponseParser → Parse} {p : ResponseParser}
    (hs : s ≠ .done) (h : Answers (.ok p)) (hf : p.state ≠ .done → Answers (f p)) :
    Answers (inState s f p) := by
  unfold inState
  split_ifs with hp
  · exact hf (hp ▸ hs)
  · exact h

theorem answers_finalize (codec : Codec) (p : ResponseParser) : Answers (finalize codec p) := by
  intro q hq _
  unfold finalize at hq
  split at hq
  · cases hq; nofun
  · cases hq

theorem answers_parseFixedLength (codec : Codec) (n : ℤ) {p : ResponseParser} (h : p.state ≠ .done) :
    Answers (parseFixedLength codec n p) := by
  unfold parseFixedLength
  dsimp only
  split_ifs
  · exact answers_finalize codec _
  · exact answers_waiting h

theorem answers_parseUntilClose (codec : Codec) {p : ResponseParser} (h : p.state ≠ .done) :
    Answers (parseUntilClose codec p) := by
  unfold parseUntilClose
  dsimp only
  split_ifs
  · exact answers_finalize codec _
  · exact answers_waiting h

theorem answers_parseTrailers (codec : Codec) {p : ResponseParser} (h : p.state ≠ .done) :
    Answers (parseTrailers codec p) := by
  unfold parseTrailers
  split
  · exact answers_finalize codec _
  · split
    · split
      · exact answers_finalize codec _
      · exact answers_waiting h
    · exact answers_finalize codec _

/-- A round stays in the body, or leaves with what the loop may return. -/
def RoundAnswers : Iter ResponseParser Parse → Prop
  | .again q => q.state ≠ .done
  | .leave x => Answers x

theorem chunkData_answers {p : ResponseParser} (h : p.state ≠ .done) :
    RoundAnswers (chunkData p) := by
  have ht : (takeChunk p).state ≠ .done := h
  unfold chunkData
  dsimp only
  split_ifs
  · exact answers_error _
  · exact answers_waiting ht
  · exact answers_error _
  · exact answers_waiting ht
  · exact h
  · exact answers_error _

theorem chunkSize_answers {p : ResponseParser} (h : p.state ≠ .done) :
    RoundAnswers (chunkSize p) := by
  unfold chunkSize
  split
  · show Answers _
    split_ifs
    · exact answers_error _
    · exact answers_waiting h
  · dsimp only
    split
    · exact answers_error _
    · split_ifs
      · exact h
      · exact chunkData_answers h

theorem chunkRound_answers (codec : Codec) {p : ResponseParser} (h : p.state ≠ .done) :
    RoundAnswers (chunkRound codec p) := by
  unfold chunkRound
  split_ifs
  · exact answers_parseTrailers codec h
  · exact chunkSize_answers h
  · exact chunkData_answers h

theorem answers_parseChunked (codec : Codec) {p : ResponseParser} (h : p.state ≠ .done) :
    Answers (parseChunked codec p) := by
  induction p using chunkRound_induction codec with
  | h p ih =>
    have hround := chunkRound_answers codec h
    cases hr : chunkRound codec p with
    | again q =>
      rw [hr] at hround
      rw [parseChunked_again hr]
      exact ih q hr hround
    | leave x =>
      rw [hr] at hround
      rw [parseChunked_leave hr]
      exact hround

theorem answers_parseBody (codec : Codec) {p : ResponseParser} (h : p.state ≠ .done) :
    Answers (parseBody codec p) := by
  unfold parseBody
  split_ifs
  · exact answers_parseChunked codec h
  · split
    · exact answers_parseFixedLength codec _ h
    · exact answers_parseUntilClose codec h

theorem answers_parseHeaders (codec : Codec) {p : ResponseParser} (h : p.state ≠ .done) :
    Answers (parseHeaders codec p) := by
  unfold parseHeaders
  split
  · split_ifs
    · exact answers_error _
    · exact answers_waiting h
  · refine answers_bind fun q hq => answers_parseBody codec ?_
    rw [(readBlock_ok hq).1]
    nofun

theorem answers_parseStatusLine {p : ResponseParser} (h : p.state ≠ .done) :
    Answers (parseStatusLine p) := by
  unfold parseStatusLine
  split
  · split_ifs
    · exact answers_error _
    · exact answers_waiting h
  · intro q hq hs
    rw [(readStatusLine_ok hq).1] at hs
    cases hs

/-- **Completion.** A parser that is complete only with a response stays so. -/
theorem answers_parse (codec : Codec) {p : ResponseParser} (h : Answers (.ok p)) :
    Answers (parse codec p) := by
  have next : ∀ {x : Parse} {q}, Answers x → x = .ok q → Answers (.ok q) := fun hx hq => hq ▸ hx
  have hstatus := answers_inState (s := .status) nofun h answers_parseStatusLine
  refine answers_bind fun q hq => ?_
  have hheaders :=
    answers_inState (s := .headers) nofun (next hstatus hq) (answers_parseHeaders codec)
  refine answers_bind fun r hr => ?_
  exact answers_inState nofun (next hheaders hr) (answers_parseBody codec)

theorem answers_feed (codec : Codec) {p : ResponseParser} (h : Answers (.ok p)) (data : Bytes) :
    Answers (feed codec p data) :=
  answers_parse codec fun q hq hs => by cases hq; exact h p rfl hs

theorem answers_feedAll (codec : Codec) (pieces : List Bytes) : ∀ {p : ResponseParser},
    Answers (.ok p) → Answers (feedAll codec p pieces) := by
  induction pieces with
  | nil => exact id
  | cons d ds ih =>
    intro p h
    refine answers_bind fun q hq => ih ?_
    rw [← hq]
    exact answers_feed codec h d

theorem feedAll_concat (codec : Codec) (pieces : List Bytes) (d : Bytes) : ∀ p : ResponseParser,
    feedAll codec p (pieces ++ [d]) = feedAll codec p pieces >>= fun q => feed codec q d := by
  induction pieces with
  | nil =>
    intro p
    show (feed codec p d >>= fun q => .ok q) = feed codec p d
    cases feed codec p d <;> rfl
  | cons x xs ih =>
    intro p
    show (feed codec p x >>= fun q => feedAll codec q (xs ++ [d])) = _ >>= _
    rw [feedAll, bind_assoc]
    exact congrArg _ (funext ih)

theorem answers_fresh : Answers (.ok fresh) := answers_waiting nofun

end ResponseParser

end Fizzpy
