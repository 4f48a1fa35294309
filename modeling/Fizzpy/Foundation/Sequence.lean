import Fizzpy.Foundation.Incremental
import Fizzpy.Foundation.Loop

/-!
# Reading one item after the other

`parse` takes an item off the front of an input and leaves the rest. `readAll` does so until nothing
is left. An item that is read back whatever comes behind it can be written any number of times, and
the sequence is read back (`readAll_flatMap`). Items that are each computed by a step that may raise
are the results of the steps, one by one (`forall₂_of_mapM`).
-/

namespace Foundation

variable {α β γ : Type*} {parse : List α → Option (β × List α)}

/-- Every item takes something off the input. -/
def Consumes (parse : List α → Option (β × List α)) : Prop :=
  ∀ l v rest, parse l = some (v, rest) → rest.length < l.length

/-- One more item, behind those read so far. -/
def readRound (parse : List α → Option (β × List α)) (s : List α × List β) :
    Iter (List α × List β) (Option (List β)) :=
  if s.1.isEmpty then .leave (some s.2)
  else
    match parse s.1 with
    | some (v, rest) => .again (rest, s.2 ++ [v])
    | none => .leave none

theorem readRound_shortens (h : Consumes parse) {s s' : List α × List β}
    (hs : readRound parse s = .again s') : s'.1.length < s.1.length := by
  unfold readRound at hs
  split_ifs at hs
  split at hs
  · rename_i v rest hp
    rw [Iter.again.injEq] at hs
    subst hs
    exact h s.1 v rest hp
  · cases hs

/-- The items of the whole input; `none` when it does not end behind one. -/
def readAll (parse : List α → Option (β × List α)) (h : Consumes parse) (l : List α) :
    Option (List β) :=
  loop (readRound parse) (fun s => s.1.length) (fun _ _ hs => readRound_shortens h hs) (l, [])

/-- What was written item by item is read back. -/
theorem readAll_flatMap (h : Consumes parse) {write : γ → List α} {view : γ → β}
    {cs : List γ} (hread : ∀ c ∈ cs, ∀ rest, parse (write c ++ rest) = some (view c, rest)) :
    readAll parse h (cs.flatMap write) = some (cs.map view) := by
  have key : ∀ before : List β,
      loop (readRound parse) (fun s => s.1.length) (fun _ _ hs => readRound_shortens h hs)
        (cs.flatMap write, before) = some (before ++ cs.map view) := by
    induction cs with
    | nil =>
      intro before
      rw [List.map_nil, List.append_nil]
      exact loop_leave _ rfl
    | cons c cs ih =>
      intro before
      have hread_c := hread c List.mem_cons_self (cs.flatMap write)
      have hne : ((c :: cs).flatMap write).isEmpty = false := by
        have hlt := h _ _ _ hread_c
        rw [List.flatMap_cons, List.isEmpty_eq_false_iff]
        intro hnil
        rw [hnil] at hlt
        exact Nat.not_lt_zero _ hlt
      have hround : readRound parse ((c :: cs).flatMap write, before) =
          .again (cs.flatMap write, before ++ [view c]) := by
        unfold readRound
        rw [hne, if_neg Bool.false_ne_true, List.flatMap_cons, hread_c]
      rw [loop_again _ hround, ih fun c hc => hread c (List.mem_cons_of_mem _ hc), List.map_cons,
        List.append_assoc]
      rfl
  exact key []

/-- Where every element is taken, the list is. -/
theorem mapM_ok {ε : Type*} {α β : Type} {f : α → Except ε β} {g : α → β} {l : List α}
    (h : ∀ x ∈ l, f x = .ok (g x)) : l.mapM f = .ok (l.map g) := by
  induction l with
  | nil => rfl
  | cons x l ih =>
    rw [List.mapM_cons, h x List.mem_cons_self, ih fun y hy => h y (List.mem_cons_of_mem x hy)]
    rfl

theorem forall₂_of_mapM {ε : Type*} {α β : Type} {f : α → Except ε β} {l : List α} {l' : List β}
    (h : l.mapM f = .ok l') : List.Forall₂ (fun x y => f x = .ok y) l l' := by
  induction l generalizing l' with
  | nil =>
    cases h
    exact .nil
  | cons x l ih =>
    rw [List.mapM_cons, bind_eq_ok] at h
    obtain ⟨y, hy, h⟩ := h
    obtain ⟨ys, hys, h⟩ := bind_eq_ok.mp h
    cases h
    exact .cons hy (ih hys)

end Foundation
