import Mathlib.Tactic

/-!
# Self-delimiting messages

A language gives texts their meanings. It is self-delimiting when no text of it is empty or goes on
where another one has ended; then a stream of messages falls apart in one way only
(`SelfDelimiting.stream_unique`). It is enough that some decoder stops at the end of each message
(`selfDelimiting_of_decoder`).
-/

namespace Foundation

variable {α μ : Type*}

/-- What stands at the front of a stream is one message at most. -/
structure SelfDelimiting (L : List α → μ → Prop) : Prop where
  nonempty : ∀ {w m}, L w m → w ≠ []
  unique : ∀ {w m w' m' r r'}, L w m → L w' m' → w ++ r = w' ++ r' → w = w' ∧ m = m'

variable {L : List α → μ → Prop}

/-- A decoder that comes to the meaning and to what is behind it. -/
theorem selfDelimiting_of_decoder {decode : List α → μ → List α → Prop}
    (hfun : ∀ {s m r m' r'}, decode s m r → decode s m' r' → m = m' ∧ r = r')
    (hne : ∀ {w m}, L w m → w ≠ []) (hdec : ∀ {w m}, L w m → ∀ r, decode (w ++ r) m r) :
    SelfDelimiting L where
  nonempty := hne
  unique := by
    intro w m w' m' r r' h h' heq
    have hr := hdec h r
    rw [heq] at hr
    obtain ⟨hm, rfl⟩ := hfun hr (hdec h' r')
    exact ⟨List.append_cancel_right heq, hm⟩

/-- Messages one after the other. -/
def textOf (ms : List (List α × μ)) : List α := ms.flatMap Prod.fst

/-- **Unique decoding.** Of two streams with the same text, one is the other as far as it goes. -/
theorem SelfDelimiting.stream_prefix (hL : SelfDelimiting L) {r r' : List α} :
    ∀ {ms ms' : List (List α × μ)}, (∀ x ∈ ms, L x.1 x.2) → (∀ x ∈ ms', L x.1 x.2) →
      textOf ms ++ r = textOf ms' ++ r' → ms.length ≤ ms'.length → ms <+: ms' := by
  intro ms
  induction ms with
  | nil => exact fun _ _ _ _ => List.nil_prefix
  | cons x ms ih =>
    intro ms' h h' heq hlen
    cases ms' with
    | nil => cases hlen
    | cons y ms' =>
      have heq : x.1 ++ (textOf ms ++ r) = y.1 ++ (textOf ms' ++ r') := by
        simpa only [textOf, List.flatMap_cons, List.append_assoc] using heq
      obtain ⟨hw, hm⟩ := hL.unique (h x List.mem_cons_self) (h' y List.mem_cons_self) heq
      obtain rfl : x = y := Prod.ext hw hm
      refine List.cons_prefix_cons.mpr ⟨rfl, ih ?_ ?_ (List.append_cancel_left heq) ?_⟩
      · exact fun z hz => h z (List.mem_cons_of_mem _ hz)
      · exact fun z hz => h' z (List.mem_cons_of_mem _ hz)
      · exact Nat.le_of_succ_le_succ hlen

theorem SelfDelimiting.textOf_ne_nil (hL : SelfDelimiting L) {ms : List (List α × μ)}
    (h : ∀ x ∈ ms, L x.1 x.2) (hne : ms ≠ []) : textOf ms ≠ [] := by
  cases ms with
  | nil => exact absurd rfl hne
  | cons x ms =>
    intro hnil
    rw [textOf, List.flatMap_cons, List.append_eq_nil_iff] at hnil
    exact hL.nonempty (h x List.mem_cons_self) hnil.1

/-- A text is the text of one stream only. -/
theorem SelfDelimiting.stream_unique (hL : SelfDelimiting L) {ms ms' : List (List α × μ)}
    (h : ∀ x ∈ ms, L x.1 x.2) (h' : ∀ x ∈ ms', L x.1 x.2) (heq : textOf ms = textOf ms') :
    ms = ms' := by
  -- the longer stream has nothing behind the shorter one
  have hside : ∀ {ms ms' : List (List α × μ)}, (∀ x ∈ ms, L x.1 x.2) → (∀ x ∈ ms', L x.1 x.2) →
      textOf ms = textOf ms' → ms.length ≤ ms'.length → ms = ms' := by
    intro ms ms' h h' heq hlen
    obtain ⟨rest, rfl⟩ := hL.stream_prefix h h' (congrArg (· ++ []) heq) hlen
    by_cases hne : rest = []
    · rw [hne, List.append_nil]
    · have htext : textOf ms ++ [] = textOf ms ++ textOf rest :=
        (List.append_nil _).trans (heq.trans List.flatMap_append)
      refine absurd (List.append_cancel_left htext).symm (hL.textOf_ne_nil ?_ hne)
      exact fun x hx => h' x (List.mem_append_right _ hx)
  rcases Nat.le_total ms.length ms'.length with hlen | hlen
  · exact hside h h' heq hlen
  · exact (hside h' h heq.symm hlen).symm

end Foundation
