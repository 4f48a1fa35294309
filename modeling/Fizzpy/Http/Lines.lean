import Fizzpy.Http.ResponseParser

/-!
# Lines

Lines that are free of CRLF are found again where they were written: the first CRLF behind a line
ends that line, and the first CRLFCRLF behind a block of non-empty lines ends that block.
-/

namespace Fizzpy

open Foundation

/-- No CRLF inside. -/
def CrlfFree (l : Bytes) : Prop := find CRLF l = none

instance (l : Bytes) : Decidable (CrlfFree l) := inferInstanceAs (Decidable (find CRLF l = none))

/-- Lines, each with its CRLF. -/
def writeLines (ls : List Bytes) : Bytes := ls.flatMap (· ++ CRLF)

theorem writeLines_cons (l : Bytes) (ls : List Bytes) :
    writeLines (l :: ls) = l ++ CRLF ++ writeLines ls := by
  simp [writeLines]

theorem crlfFree_nil : CrlfFree [] := rfl

theorem CrlfFree.tail {x : UInt8} {l : Bytes} (h : CrlfFree (x :: l)) : CrlfFree l := by
  unfold CrlfFree at h
  by_cases hx : CRLF <+: x :: l
  · rw [find_cons_hit hx] at h; cases h
  · rw [find_cons_miss hx, Option.map_eq_none_iff] at h
    exact h

theorem crlf_prefix_cons_iff {x : UInt8} {l : Bytes} : CRLF <+: x :: l ↔ x = CR ∧ l.head? = some LF := by
  rw [show CRLF = CR :: [LF] from rfl, List.cons_prefix_cons]
  cases l with
  | nil => simp
  | cons y l => rw [List.cons_prefix_cons]; simp [eq_comm]

theorem CrlfFree.not_prefix {l : Bytes} (h : CrlfFree l) : ¬ CRLF <+: l := by
  intro hp
  cases l with
  | nil => cases hp.length_le
  | cons x l => unfold CrlfFree at h; rw [find_cons_hit hp] at h; cases h

/-- A CRLF-free text that is not empty makes no CRLF at the front, unless a LF follows it. -/
theorem CrlfFree.not_prefix_append {l t : Bytes} (h : CrlfFree l) (hne : l ≠ [])
    (ht : t.head? ≠ some LF) : ¬ CRLF <+: l ++ t := by
  obtain ⟨x, l, rfl⟩ := List.exists_cons_of_ne_nil hne
  rw [List.cons_append, crlf_prefix_cons_iff]
  rintro ⟨rfl, hl⟩
  cases l with
  | nil => exact ht hl
  | cons y l => exact h.not_prefix (crlf_prefix_cons_iff.mpr ⟨rfl, hl⟩)

theorem crlfFree_of_forall {l : Bytes} (h : ∀ b ∈ l, b ≠ CR) : CrlfFree l := by
  induction l with
  | nil => rfl
  | cons x l ih =>
    have hx : ¬ CRLF <+: x :: l := fun hp => h x (by simp) (crlf_prefix_cons_iff.mp hp).1
    unfold CrlfFree
    rw [find_cons_miss hx, ih fun b hb => h b (List.mem_cons_of_mem x hb)]
    rfl

theorem not_crlf_prefix {l : Bytes} (h : CrlfFree l) (hne : l ≠ []) (rest : Bytes) :
    ¬ CRLF <+: l ++ CRLF ++ rest := by
  rw [List.append_assoc]
  exact h.not_prefix_append hne (by simp [CRLF, CR, LF])

/-! ## The end of a line -/

theorem find_crlf {l : Bytes} (h : CrlfFree l) (rest : Bytes) :
    find CRLF (l ++ CRLF ++ rest) = some l.length := by
  refine find_append_self (by decide) rest ?_
  show find CRLF (l ++ [CR]) = none
  induction l with
  | nil => decide
  | cons x l ih =>
    have hx : ¬ CRLF <+: x :: (l ++ [CR]) := h.not_prefix_append (by simp) (by decide)
    rw [List.cons_append, find_cons_miss hx, ih h.tail]
    rfl

theorem split_crlf_cons {l : Bytes} (h : CrlfFree l) (rest : Bytes) :
    split CRLF (l ++ CRLF ++ rest) = l :: split CRLF rest := by
  rw [split_of_find_some (by decide) (find_crlf h rest), List.append_assoc, List.take_left,
    ← List.drop_drop, List.drop_left, List.drop_left]

/-- The lines of a block, put together again. -/
theorem split_join {ls : List Bytes} (h : ∀ l ∈ ls, CrlfFree l) (hne : ls ≠ []) :
    split CRLF (join CRLF ls) = ls := by
  induction ls with
  | nil => exact absurd rfl hne
  | cons l ls ih =>
    cases ls with
    | nil =>
      rw [show join CRLF [l] = l from List.intercalate_singleton]
      exact split_of_find_none (h l (by simp))
    | cons m ms =>
      have hjoin : join CRLF (l :: m :: ms) = l ++ CRLF ++ join CRLF (m :: ms) :=
        List.intercalate_cons_cons
      rw [hjoin, split_crlf_cons (h l (by simp)),
        ih (fun l hl => h l (List.mem_cons_of_mem _ hl)) (by simp)]

/-- The first line of a buffer. -/
theorem line_of_find {buf : Bytes} {idx : ℕ} (h : find CRLF buf = some idx) :
    CrlfFree (buf.take idx) ∧ buf = buf.take idx ++ CRLF ++ buf.drop (idx + 2) := by
  refine ⟨find_take (by decide) h, ?_⟩
  obtain ⟨rest, hrest⟩ : CRLF <+: buf.drop idx := find_spec h
  have hdrop : buf.drop (idx + 2) = rest := by
    rw [← List.drop_drop, ← hrest]
    rfl
  rw [hdrop, List.append_assoc, hrest, List.take_append_drop]

/-! ## The end of a block -/

/-- A CRLF-free line with its CRLF does not begin a CRLFCRLF, unless the next line is blank. -/
theorem find_crlfcrlf_skip {l t : Bytes} (h : CrlfFree l) (ht : ¬ CRLF <+: t) :
    find CRLFCRLF (l ++ CRLF ++ t) = (find CRLFCRLF t).map (· + (l.length + 2)) := by
  have key (l t : Bytes) (h : CrlfFree l) (ht : ¬ CRLF <+: t) : ¬ CRLFCRLF <+: l ++ CRLF ++ t := by
    intro hp
    cases l with
    | nil =>
      rw [List.nil_append, show CRLFCRLF = CRLF ++ CRLF from rfl, List.prefix_append_right_inj] at hp
      exact ht hp
    | cons x l =>
      exact not_crlf_prefix h (by simp) t ((List.prefix_append CRLF CRLF).trans hp)
  induction l with
  | nil =>
    have h1 : ¬ CRLFCRLF <+: CR :: LF :: t := key [] t crlfFree_nil ht
    have h2 : ¬ CRLFCRLF <+: LF :: t := fun hp =>
      absurd (List.cons_prefix_cons.mp hp).1 (by decide)
    show find CRLFCRLF (CR :: LF :: t) = _
    rw [find_cons_miss h1, find_cons_miss h2, Option.map_map]
    rfl
  | cons x l ih =>
    have hx : ¬ CRLFCRLF <+: x :: (l ++ CRLF ++ t) := key (x :: l) t h ht
    show find CRLFCRLF (x :: (l ++ CRLF ++ t)) = _
    rw [find_cons_miss hx, ih h.tail, Option.map_map]
    congr 1

theorem find_crlfcrlf_last {l : Bytes} (h : CrlfFree l) (rest : Bytes) :
    find CRLFCRLF (l ++ CRLFCRLF ++ rest) = some l.length := by
  induction l with
  | nil => exact find_cons_hit ⟨rest, rfl⟩
  | cons x l ih =>
    have hx : ¬ CRLFCRLF <+: x :: (l ++ CRLFCRLF ++ rest) := fun hp => by
      refine not_crlf_prefix h (by simp) (CRLF ++ rest) ?_
      have := (List.prefix_append CRLF CRLF).trans hp
      simpa [CRLFCRLF, CRLF] using this
    show find CRLFCRLF (x :: (l ++ CRLFCRLF ++ rest)) = _
    rw [find_cons_miss hx, ih h.tail]
    rfl

/-- A block of non-empty lines ends at the first blank line. -/
theorem find_crlfcrlf {ls : List Bytes} (h : ∀ l ∈ ls, CrlfFree l ∧ l ≠ []) (hne : ls ≠ [])
    (rest : Bytes) :
    find CRLFCRLF (writeLines ls ++ CRLF ++ rest) = some (join CRLF ls).length := by
  induction ls with
  | nil => exact absurd rfl hne
  | cons l ls ih =>
    obtain ⟨hl, -⟩ := h l (by simp)
    cases ls with
    | nil =>
      rw [show join CRLF [l] = l from List.intercalate_singleton]
      simpa [writeLines, CRLFCRLF, CRLF] using find_crlfcrlf_last hl rest
    | cons m ms =>
      obtain ⟨hm, hmne⟩ := h m (by simp)
      have ht : ¬ CRLF <+: writeLines (m :: ms) ++ CRLF ++ rest := by
        have := not_crlf_prefix hm hmne (writeLines ms ++ CRLF ++ rest)
        rw [writeLines_cons]
        simpa only [List.append_assoc] using this
      have hjoin : join CRLF (l :: m :: ms) = l ++ CRLF ++ join CRLF (m :: ms) :=
        List.intercalate_cons_cons
      rw [writeLines_cons, show l ++ CRLF ++ writeLines (m :: ms) ++ CRLF ++ rest =
        l ++ CRLF ++ (writeLines (m :: ms) ++ CRLF ++ rest) by simp only [List.append_assoc],
        find_crlfcrlf_skip hl ht, ih (fun l hl => h l (List.mem_cons_of_mem _ hl)) (by simp), hjoin]
      simp [CRLF]
      omega

/-- What comes before the first CRLFCRLF is a block of non-empty lines, where no blank one is in front. -/
theorem lines_of_find : ∀ {buf : Bytes} {e : ℕ}, ¬ CRLF <+: buf → find CRLFCRLF buf = some e →
    ∃ ls, (∀ l ∈ ls, CrlfFree l ∧ l ≠ []) ∧ buf = writeLines ls ++ CRLF ++ buf.drop (e + 4) := by
  intro buf
  induction hn : buf.length using Nat.strong_induction_on generalizing buf with
  | h n ih =>
    intro e hfront hf
    cases hline : find CRLF buf with
    | none =>
      have hin : CRLFCRLF <:+: buf := by
        by_contra hnot
        rw [find_eq_none_iff.mpr hnot] at hf
        cases hf
      have hfirst : CRLF <:+: CRLFCRLF := ⟨[], CRLF, rfl⟩
      exact absurd (hfirst.trans hin) (find_eq_none_iff.mp hline)
    | some idx =>
      obtain ⟨hfree, hbuf⟩ := line_of_find hline
      have hne : buf.take idx ≠ [] := by
        intro hnil
        rw [hnil, List.nil_append] at hbuf
        exact hfront ⟨_, hbuf.symm⟩
      generalize hl : buf.take idx = l at hfree hbuf hne
      generalize ht : buf.drop (idx + 2) = t at hbuf
      clear hl ht hline
      subst hbuf
      by_cases hblank : CRLF <+: t
      · obtain ⟨rest, rfl⟩ := hblank
        have hwhole : l ++ CRLF ++ (CRLF ++ rest) = l ++ CRLFCRLF ++ rest := by
          simp [CRLF, CRLFCRLF]
        rw [hwhole, find_crlfcrlf_last hfree, Option.some.injEq] at hf
        refine ⟨[l], by simpa using ⟨hfree, hne⟩, ?_⟩
        rw [← hf, hwhole, List.append_assoc l, ← List.drop_drop, List.drop_left]
        simp [writeLines, CRLF, CRLFCRLF]
      · rw [find_crlfcrlf_skip hfree hblank] at hf
        obtain ⟨e', he', rfl⟩ := Option.map_eq_some_iff.mp hf
        obtain ⟨ls, hls, heq⟩ := ih t.length (by rw [← hn]; simp [CRLF]; omega) rfl hblank he'
        refine ⟨l :: ls, ?_, ?_⟩
        · rintro x (_ | ⟨_, hx⟩)
          · exact ⟨hfree, hne⟩
          · exact hls x hx
        · have hdrop : (l ++ CRLF ++ t).drop (e' + (l.length + 2) + 4) = t.drop (e' + 4) := by
            rw [show e' + (l.length + 2) + 4 = (l ++ CRLF).length + (e' + 4) by simp [CRLF]; omega,
              ← List.drop_drop, List.drop_left]
          rw [hdrop, writeLines_cons, List.append_assoc, List.append_assoc, List.append_assoc,
            ← List.append_assoc (writeLines ls), ← heq]
          simp only [List.append_assoc]

theorem writeLines_eq_join {ls : List Bytes} (hne : ls ≠ []) :
    writeLines ls = join CRLF ls ++ CRLF := by
  induction ls with
  | nil => exact absurd rfl hne
  | cons l ls ih =>
    cases ls with
    | nil => simp [writeLines, join]
    | cons m ms =>
      have hjoin : join CRLF (l :: m :: ms) = l ++ CRLF ++ join CRLF (m :: ms) :=
        List.intercalate_cons_cons
      rw [writeLines_cons, ih (by simp), hjoin]
      simp only [List.append_assoc]

/-- What lies behind the blank line that ends a block. -/
theorem drop_block {ls : List Bytes} (hne : ls ≠ []) (rest : Bytes) :
    (writeLines ls ++ CRLF ++ rest).drop ((join CRLF ls).length + 4) = rest := by
  rw [writeLines_eq_join hne, show join CRLF ls ++ CRLF ++ CRLF ++ rest =
    join CRLF ls ++ (CRLFCRLF ++ rest) by simp [CRLF, CRLFCRLF], ← List.drop_drop, List.drop_left]
  exact List.drop_left' rfl

theorem not_crlf_prefix_lines {ls : List Bytes} (h : ∀ l ∈ ls, CrlfFree l ∧ l ≠ []) (hne : ls ≠ [])
    (rest : Bytes) : ¬ CRLF <+: writeLines ls ++ rest := by
  obtain ⟨l, ls, rfl⟩ := List.exists_cons_of_ne_nil hne
  obtain ⟨hl, hlne⟩ := h l (by simp)
  rw [writeLines_cons, List.append_assoc]
  exact not_crlf_prefix hl hlne _

end Fizzpy
