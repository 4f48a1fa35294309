import Fizzpy.Client.Ownership
import Fizzpy.Http.Decode

/-!
# The client and its servers

A server answers a request with interim responses and one final response that says where it ends.
The bytes of the answer are under way on the connection from the write of the request on; the
client reads them in pieces of any lengths. A connection may fail at any time, and it may end its
stream when everything sent on it has been read.
-/

namespace Fizzpy

open Foundation Client ResponseParser

/-- The answer to one request. -/
structure ServerAnswer where
  interims : List InterimResponse
  final : FinalResponse
  delimited : final.framing.isUntilClose = false

def ServerAnswer.encode (answer : ServerAnswer) : Bytes :=
  answer.interims.flatMap (fun m => m.head.encode) ++ answer.final.encode

/-- `inbox` has the bytes sent to the client on a connection and not read yet. `answers` has one
entry for each `_perform` of a thread: the final response of the server to its request, as it was
last written, or none so far. -/
structure Network where
  client : Client := .init
  inbox : ConnId → Bytes := fun _ => []
  answers : ℕ → List (Option FinalResponse) := fun _ => []

namespace Network

def init : Network := {}

inductive Event
  /-- A step of a thread. A request that it writes is not answered. -/
  | act (i : ℕ) (a : Action)
  /-- The write of a request that the server answers. -/
  | answered (i : ℕ) (answer : ServerAnswer)

/-- The bytes under way after the step of a thread; none when the network does not allow it. -/
def inboxAfter (w : Network) (i : ℕ) : Action → Option (ConnId → Bytes)
  | .read (.chunk data) =>
    match (w.client.threads i).phase with
    | .read c _ _ _ =>
      if data <+: w.inbox c ∧ (data = [] → w.inbox c = []) then
        some (Function.update w.inbox c ((w.inbox c).drop data.length))
      else none
    | _ => none
  | _ => some w.inbox

def answersAfter (answers : List (Option FinalResponse)) : Action → List (Option FinalResponse)
  | .perform _ => answers ++ [none]
  | .write _ => answers.dropLast ++ [none]
  | _ => answers

def step (codec : Codec) (w : Network) : Event → Option Network
  | .act i a => do
    let client ← w.client.step codec (i, a)
    let inbox ← w.inboxAfter i a
    some {
      client, inbox
      answers := Function.update w.answers i (answersAfter (w.answers i) a) }
  | .answered i answer =>
    match (w.client.threads i).phase with
    | .write c _ => do
      let client ← w.client.step codec (i, .write true)
      some {
        client
        inbox := Function.update w.inbox c (w.inbox c ++ answer.encode)
        answers := Function.update w.answers i ((w.answers i).dropLast ++ [some answer.final]) }
    | _ => none

/-- What the code should make of a `_perform`: the server's final response, or the exception that
its connection or its content encoding gives rise to. -/
def Pairs (codec : Codec) : Except RequestExn Response → Option FinalResponse → Prop
  | .ok r, some m => ∃ content, decompress codec m.head.headers m.framing.data = .ok content ∧
      r = responseOf m content
  | .ok _, none => False
  | .error .transport, _ => True
  | .error .incomplete, answer => answer = none
  | .error (.parse e), some m => decompress codec m.head.headers m.framing.data = .error e
  | .error (.parse _), none => False

/-- Every result of a thread pairs with the answer to its request. -/
def Paired (codec : Codec) (w : Network) : Prop :=
  ∀ (i k : ℕ) (x : Except RequestExn Response), (w.client.threads i).results[k]? = some x →
    ∃ y, (w.answers i)[k]? = some y ∧ Pairs codec x y

end Network

end Fizzpy
