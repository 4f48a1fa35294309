import Fizzpy.Foundation.Order
import Fizzpy.Http.Decode

/-!
# Folded header fields

A header block in full: field lines, each with the continuation lines that belong to it. The parser
folds a continuation onto the newest name it has met, which is not always the name of the line
before. `folding_iff` says when the two are the same.
-/

namespace Fizzpy

open Foundation

/-! ## The block on the wire -/

/-- A line that goes on with the field before it. -/
structure Continuation where
  blank : UInt8
  text : Bytes
  blank_ok : blank = SP ∨ blank = HTAB
  crlfFree : CrlfFree text

namespace Continuation

def line (c : Continuation) : Bytes := c.blank :: c.text

/-- The line without the white space around it. -/
def value (c : Continuation) : Str := latin1 (strip isSpaceByte c.line)

end Continuation

/-- A field line and the continuations behind it. There may be white space about the name, which is
stripped, but the line does not begin with a blank. -/
structure FoldedField where
  name : Bytes
  text : Bytes
  folds : List Continuation
  name_ne : name ≠ []
  name_ok : ∀ b ∈ name, b ≠ COLON
  name_front : name.head? ≠ some SP ∧ name.head? ≠ some HTAB
  crlfFree : CrlfFree (name ++ COLON :: text)

namespace FoldedField

def title (f : FoldedField) : Str := strip isSpace (latin1 f.name)

/-- The case-insensitive name. -/
def key (f : FoldedField) : Str := lower f.title

def line (f : FoldedField) : Bytes := f.name ++ COLON :: f.text

def lines (f : FoldedField) : List Bytes := f.line :: f.folds.map Continuation.line

/-- What the field line itself says. -/
def own (f : FoldedField) : Str := strip isSpace (latin1 f.text)

/-- What the field means: its own text, and each of its continuations behind a space. -/
def value (f : FoldedField) : Str := f.own ++ f.folds.flatMap fun c => ' ' :: c.value

end FoldedField

/-- A field of the same name with this text behind the colon. -/
def HeaderField.saying (f : HeaderField) (text : Bytes) (h : CrlfFree text) : FoldedField where
  name := f.name
  text := text
  folds := []
  name_ne := f.name_ne
  name_ok := fun b hb => (f.name_ok b hb).1
  name_front := ResponseParser.head_name fun b hb => (f.name_ok b hb).2
  crlfFree := by
    have hname : ∀ x ∈ f.name ++ [COLON], x ≠ CR := by
      intro x hx
      rw [List.mem_append, List.mem_singleton] at hx
      obtain hx | rfl := hx
      · rintro rfl
        exact absurd (f.name_ok CR hx).2 (by decide)
      · decide
    have hline := ResponseParser.crlfFree_append hname h
    rwa [List.append_assoc] at hline

/-- What fields mean for a name, in any casing. -/
def valuesOf (fields : List FoldedField) (k : Str) : List Str :=
  (fields.filter fun f => f.key = lower k).map FoldedField.value

/-- The lines up to the blank one. Continuations before the first field belong to none. -/
structure HeaderBlock where
  orphans : List Continuation
  fields : List FoldedField

namespace HeaderBlock

def lines (b : HeaderBlock) : List Bytes :=
  b.orphans.map Continuation.line ++ b.fields.flatMap FoldedField.lines

def encode (b : HeaderBlock) : Bytes := writeLines b.lines ++ CRLF

end HeaderBlock

/-- A status line of any form that the parser takes. -/
structure StartLine where
  line : Bytes
  groups : ResponseParser.StatusLine
  matched : ResponseParser.matchStatusLine line = some groups
  crlfFree : CrlfFree line

/-- The three digits. -/
def StartLine.status (l : StartLine) : ℕ := ofDigits 10 (l.groups.code.map fun b => b.toNat - 48)

/-- The bytes up to the body. -/
def headBytes (l : StartLine) (b : HeaderBlock) : Bytes := l.line ++ CRLF ++ b.encode

/-! ## What the headers become -/

namespace Headers

/-- The names in the order in which they were first met. -/
def keys (h : Headers) : List Str := h.store.map Entry.key

theorem keys_add (h : Headers) (n v : Str) :
    (h.add n v).keys = if lower n ∈ h.keys then h.keys else h.keys ++ [lower n] := by
  show (h.store.add lower n v).map Entry.key = _
  split_ifs with hn
  · exact keys_add_of_mem hn
  · have hn : lower n ∉ h.store.map Entry.key := hn
    unfold Store.add
    rw [if_neg hn, List.map_append]
    rfl

theorem keys_add_ne (h : Headers) (n v : Str) : (h.add n v).keys ≠ [] := by
  rw [keys_add]
  split_ifs with hn
  · exact List.ne_nil_of_mem hn
  · exact List.append_ne_nil_of_right_ne_nil _ (List.cons_ne_nil _ _)

theorem items_eq_nil_iff (h : Headers) : h.items = [] ↔ h.keys = [] := by
  unfold items Store.items keys
  rw [List.flatMap_eq_nil_iff, List.map_eq_nil_iff]
  constructor
  · intro hnil
    by_contra hne
    obtain ⟨e, es, he⟩ := List.exists_cons_of_ne_nil hne
    have hmem : e ∈ h.store := he ▸ List.mem_cons_self
    exact h.ok.values_ne e hmem (List.map_eq_nil_iff.mp (hnil e hmem))
  · intro hnil e he
    rw [hnil] at he
    cases he

/-- `append_to_last`, called when there is a header. -/
def foldOn (h : Headers) (text : Str) : Headers := (h.appendToLast text).getD h

theorem store_foldOn {h : Headers} (hne : h.keys ≠ []) (text : Str) :
    (h.foldOn text).store = foldLast h.store text := by
  have hstore : h.store ≠ [] := fun he => hne (by unfold keys; rw [he]; rfl)
  unfold foldOn appendToLast
  rw [if_neg hstore]
  rfl

theorem keys_foldOn (h : Headers) (text : Str) : (h.foldOn text).keys = h.keys := by
  by_cases hne : h.keys = []
  · have hstore : h.store = [] := List.map_eq_nil_iff.mp hne
    unfold foldOn appendToLast
    rw [if_pos hstore]
    rfl
  · unfold keys
    rw [store_foldOn hne]
    unfold foldLast
    split
    · rename_i e he
      obtain ⟨init, hinit⟩ : ∃ init, h.store = init ++ [e] :=
        ⟨h.store.dropLast, (List.dropLast_append_getLast? e he).symm⟩
      rw [hinit, List.dropLast_concat, List.map_append, List.map_append]
      rfl
    · rfl

/-- A folded text ends the last value of the newest name and touches no other. -/
theorem getList_foldOn {h : Headers} (hne : h.keys ≠ []) (text k : Str) :
    (h.foldOn text).getList k =
      if h.keys.getLast? = some (lower k) then
        (h.getList k).dropLast ++ [(h.getList k).getLastD [] ++ ' ' :: text]
      else h.getList k := by
  have hstore : h.store ≠ [] := fun he => hne (by unfold keys; rw [he]; rfl)
  obtain ⟨init, e, hinit⟩ : ∃ init e, h.store = init ++ [e] :=
    ⟨h.store.dropLast, h.store.getLast hstore, (List.dropLast_append_getLast hstore).symm⟩
  have hlast : h.keys.getLast? = some e.key := by
    unfold keys
    rw [hinit, List.map_append]
    exact List.getLast?_concat
  have hfold : (h.foldOn text).store = init ++ [Entry.fold e text] := by
    rw [store_foldOn hne, hinit]
    unfold foldLast
    rw [List.getLast?_concat]
    dsimp only
    rw [List.dropLast_concat]
  have hnodup := h.ok.nodup
  rw [hinit, List.map_append, List.nodup_append] at hnodup
  have hfind : ∀ e' : Entry, e'.key = e.key →
      (init ++ [e']).find? (fun e => e.key = lower k) =
        if e.key = lower k then some e' else init.find? (fun e => e.key = lower k) := by
    intro e' hkey
    rw [List.find?_append, List.find?_singleton]
    simp only [decide_eq_true_eq, hkey]
    split_ifs with hk
    · have hnone : init.find? (fun e => e.key = lower k) = none := by
        rw [List.find?_eq_none]
        intro x hx hxk
        exact hnodup.2.2 x.key (List.mem_map_of_mem hx) e.key (by simp)
          ((of_decide_eq_true hxk).trans hk.symm)
      rw [hnone]
      rfl
    · exact Option.or_none
  rw [getList_eq, getList_eq]
  unfold lookup Store.entry
  rw [hfold, hinit, hfind (Entry.fold e text) rfl, hfind e rfl, hlast]
  simp only [Option.some.injEq]
  split_ifs with hk
  · rfl
  · rfl

theorem keys_folds (folds : List Str) (h : Headers) :
    (folds.foldl foldOn h).keys = h.keys := by
  induction folds generalizing h with
  | nil => rfl
  | cons t folds ih => exact (ih (h.foldOn t)).trans (keys_foldOn h t)

/-- Continuations leave the values of every name but the newest alone. -/
theorem getList_folds_other (folds : List Str) {h : Headers} {k : Str} (hne : h.keys ≠ [])
    (hk : h.keys.getLast? ≠ some (lower k)) : (folds.foldl foldOn h).getList k = h.getList k := by
  induction folds generalizing h with
  | nil => rfl
  | cons t folds ih =>
    rw [List.foldl_cons, ih (by rwa [keys_foldOn]) (by rwa [keys_foldOn]), getList_foldOn hne,
      if_neg hk]

/-- They all go to the last value of the newest one. -/
theorem getList_folds_newest (folds : List Str) {h : Headers} {k v : Str} {vs : List Str}
    (hk : h.keys.getLast? = some (lower k)) (hv : h.getList k = vs ++ [v]) :
    (folds.foldl foldOn h).getList k = vs ++ [v ++ folds.flatMap fun t => ' ' :: t] := by
  induction folds generalizing h v with
  | nil => simpa using hv
  | cons t folds ih =>
    have hne : h.keys ≠ [] := fun he => by rw [he] at hk; cases hk
    have hfold : (h.foldOn t).getList k = vs ++ [v ++ ' ' :: t] := by
      rw [getList_foldOn hne, if_pos hk, hv, List.dropLast_concat, List.getLastD_concat]
    rw [List.foldl_cons, ih (by rwa [keys_foldOn]) hfold, List.flatMap_cons, List.append_assoc]

/-- A field and its continuations, as the parser takes them in. -/
def addFolded (h : Headers) (f : FoldedField) : Headers :=
  (f.folds.map Continuation.value).foldl foldOn (h.add f.title f.own)

theorem keys_addFolded (h : Headers) (f : FoldedField) :
    (h.addFolded f).keys = if f.key ∈ h.keys then h.keys else h.keys ++ [f.key] := by
  unfold addFolded
  rw [keys_folds, keys_add]
  rfl

theorem getList_addFolded_other {h : Headers} {f : FoldedField} {k : Str}
    (hk : (h.addFolded f).keys.getLast? ≠ some (lower k)) :
    (h.addFolded f).getList k = h.getList k ++ if f.key = lower k then [f.own] else [] := by
  unfold addFolded at hk ⊢
  rw [keys_folds] at hk
  rw [getList_folds_other _ (keys_add_ne h _ _) hk, getList_add]
  rfl

/-- A field of the newest name gets all its continuations. -/
theorem getList_addFolded_newest {h : Headers} {f : FoldedField} {k : Str} (hf : f.key = lower k)
    (hk : (h.addFolded f).keys.getLast? = some (lower k)) :
    (h.addFolded f).getList k = h.getList k ++ [f.value] := by
  unfold addFolded at hk ⊢
  rw [keys_folds] at hk
  have hadd : (h.add f.title f.own).getList k = h.getList k ++ [f.own] := by
    rw [getList_add]
    exact congrArg (h.getList k ++ ·) (if_pos hf)
  rw [getList_folds_newest _ hk hadd, List.flatMap_map]
  rfl

/-- A field without continuations is just added. -/
theorem getList_addFolded_plain {h : Headers} {f : FoldedField} (hf : f.folds = []) (k : Str) :
    (h.addFolded f).getList k = h.getList k ++ if f.key = lower k then [f.own] else [] := by
  unfold addFolded
  rw [hf]
  exact getList_add h _ _ k

end Headers

/-! ## The reading of a block -/

/-- The headers after these fields. -/
def readFields (fields : List FoldedField) : Headers := fields.foldl Headers.addFolded .empty

/-- The last of the names in the order in which they first appear. -/
def newest (fields : List FoldedField) : Option Str :=
  (firsts (fields.map FoldedField.key)).getLast?

/-- Every field with continuations has the newest name there is up to it. -/
def InPlace (fields : List FoldedField) : Prop :=
  ∀ before f, before ++ [f] <+: fields → f.folds ≠ [] → newest (before ++ [f]) = some f.key

theorem readFields_concat (fields : List FoldedField) (f : FoldedField) :
    readFields (fields ++ [f]) = (readFields fields).addFolded f := List.foldl_concat ..

theorem valuesOf_concat (fields : List FoldedField) (f : FoldedField) (k : Str) :
    valuesOf (fields ++ [f]) k = valuesOf fields k ++ if f.key = lower k then [f.value] else [] := by
  unfold valuesOf
  rw [List.filter_append, List.map_append]
  by_cases hk : f.key = lower k <;> simp [hk]

theorem inPlace_concat (fields : List FoldedField) (f : FoldedField) : InPlace (fields ++ [f]) ↔
    InPlace fields ∧ (f.folds ≠ [] → newest (fields ++ [f]) = some f.key) := by
  unfold InPlace
  constructor
  · intro h
    exact ⟨fun before g hg => h before g (hg.trans (List.prefix_append _ _)),
      h fields f List.prefix_rfl⟩
  · rintro ⟨h, hf⟩ before g hg
    rw [List.prefix_concat_iff] at hg
    obtain heq | hg := hg
    · obtain ⟨rfl, rfl⟩ := List.append_singleton_inj.mp heq
      exact hf
    · exact h before g hg

theorem keys_readFields (fields : List FoldedField) :
    (readFields fields).keys = firsts (fields.map FoldedField.key) := by
  induction fields using List.reverseRecOn with
  | nil => rfl
  | append_singleton fields f ih =>
    rw [readFields_concat, Headers.keys_addFolded, ih, List.map_append, List.map_singleton,
      firsts_concat]

theorem newest_eq (fields : List FoldedField) : newest fields = (readFields fields).keys.getLast? := by
  rw [keys_readFields]
  rfl

theorem newest_concat (fields : List FoldedField) (f : FoldedField) : newest (fields ++ [f]) =
    if f.key ∈ fields.map FoldedField.key then newest fields else some f.key := by
  unfold newest
  rw [List.map_append, List.map_singleton, firsts_concat]
  simp only [mem_firsts]
  split_ifs
  · rfl
  · exact List.getLast?_concat

/-- The headers say what the fields mean. -/
def ReadAsMeant (fields : List FoldedField) : Prop :=
  ∀ k, (readFields fields).getList k = valuesOf fields k

theorem readAsMeant_of_inPlace (fields : List FoldedField) (h : InPlace fields) : ReadAsMeant fields := by
  induction fields using List.reverseRecOn with
  | nil => exact fun k => rfl
  | append_singleton fields f ih =>
    obtain ⟨h, hf⟩ := (inPlace_concat fields f).mp h
    intro k
    rw [readFields_concat, valuesOf_concat, ← ih h k]
    by_cases hfolds : f.folds = []
    · have hown : f.value = f.own := by
        unfold FoldedField.value
        rw [hfolds]
        exact List.append_nil _
      rw [Headers.getList_addFolded_plain hfolds, hown]
    · have hnew := hf hfolds
      rw [newest_eq, readFields_concat] at hnew
      by_cases hk : f.key = lower k
      · rw [Headers.getList_addFolded_newest hk (hnew.trans (congrArg some hk)), if_pos hk]
      · rw [Headers.getList_addFolded_other, if_neg hk, if_neg hk]
        rw [hnew]
        exact fun he => hk (Option.some.inj he)

/-- A value of a name that is no longer the newest differs from what its field means. No later
line mends it. -/
def Strayed (fields : List FoldedField) : Prop :=
  ∃ k, lower k ∈ fields.map FoldedField.key ∧ newest fields ≠ some (lower k) ∧
    ∃ (i : ℕ) (v w : Str), ((readFields fields).getList k)[i]? = some v ∧
      (valuesOf fields k)[i]? = some w ∧ v ≠ w

theorem not_readAsMeant_of_strayed {fields : List FoldedField} (h : Strayed fields) :
    ¬ ReadAsMeant fields := by
  rintro hmeant
  obtain ⟨k, -, -, i, v, w, hv, hw, hne⟩ := h
  rw [hmeant k, hw] at hv
  exact hne (Option.some.inj hv).symm

theorem Strayed.concat {fields : List FoldedField} (h : Strayed fields) (f : FoldedField) :
    Strayed (fields ++ [f]) := by
  obtain ⟨k, hk, hnew, i, v, w, hv, hw, hne⟩ := h
  have hnew' : newest (fields ++ [f]) ≠ some (lower k) := by
    rw [newest_concat]
    split_ifs with hf
    · exact hnew
    · intro he
      exact hf (Option.some.inj he ▸ hk)
  refine ⟨k, by simp [hk], hnew', i, v, w, ?_, ?_, hne⟩
  · rw [newest_eq, readFields_concat] at hnew'
    rw [readFields_concat, Headers.getList_addFolded_other hnew']
    exact (List.getElem?_append_left (List.getElem?_eq_some_iff.mp hv).1).trans hv
  · rw [valuesOf_concat]
    exact (List.getElem?_append_left (List.getElem?_eq_some_iff.mp hw).1).trans hw

/-- A field of an older name loses its continuations for good. -/
theorem strayed_concat {fields : List FoldedField} {f : FoldedField} (h : ReadAsMeant fields)
    (hfolds : f.folds ≠ []) (hf : newest (fields ++ [f]) ≠ some f.key) : Strayed (fields ++ [f]) := by
  have hread := readFields_concat fields f
  refine ⟨f.title, by simp [FoldedField.key], hf, (valuesOf fields f.title).length, f.own, f.value,
    ?_, ?_, ?_⟩
  · rw [newest_eq, hread] at hf
    rw [hread, Headers.getList_addFolded_other hf, h]
    exact (congrArg (fun l => (_ ++ l)[_]?) (if_pos rfl)).trans List.getElem?_concat_length
  · rw [valuesOf_concat]
    exact (congrArg (fun l => (_ ++ l)[_]?) (if_pos rfl)).trans List.getElem?_concat_length
  · intro he
    obtain ⟨c, cs, hc⟩ := List.exists_cons_of_ne_nil hfolds
    have hnil : f.folds.flatMap (fun c => ' ' :: c.value) = [] :=
      List.append_right_eq_self.mp (show f.own ++ _ = f.own from he.symm)
    rw [hc] at hnil
    cases hnil

/-- **Agreement of the headers.** -/
theorem readAsMeant_iff (fields : List FoldedField) : ReadAsMeant fields ↔ InPlace fields := by
  refine ⟨fun h => ?_, readAsMeant_of_inPlace fields⟩
  by_contra hplace
  refine not_readAsMeant_of_strayed ?_ h
  clear h
  induction fields using List.reverseRecOn with
  | nil => exact absurd (fun before f hp => by simp at hp) hplace
  | append_singleton fields f ih =>
    by_cases hinit : InPlace fields
    · rw [inPlace_concat, not_and] at hplace
      have hf := Classical.not_imp.mp (hplace hinit)
      exact strayed_concat (readAsMeant_of_inPlace fields hinit) hf.1 hf.2
    · exact (ih hinit).concat f

namespace ResponseParser

/-! ## Reading the lines -/

theorem parseHeaderLine_continuation {h : Headers} (c : Continuation) : parseHeaderLine h c.line =
    if h.keys = [] then .error (str "header continuation with no prior header")
    else .ok (h.foldOn c.value) := by
  have hfront : c.line.head? = some SP ∨ c.line.head? = some HTAB :=
    c.blank_ok.imp (congrArg some) (congrArg some)
  have hne : c.line ≠ [] := List.cons_ne_nil _ _
  unfold parseHeaderLine
  rw [if_neg hne, if_pos hfront]
  simp only [Headers.items_eq_nil_iff]
  rfl

theorem parseHeaderLines_append (as bs : List Bytes) : ∀ p : ResponseParser,
    parseHeaderLines (as ++ bs) p = parseHeaderLines as p >>= parseHeaderLines bs := by
  induction as with
  | nil => intro p; rfl
  | cons a as ih =>
    intro p
    rw [List.cons_append, parseHeaderLines, parseHeaderLines]
    cases parseHeaderLine p.headers a with
    | ok h => exact ih _
    | error msg => rfl

theorem parseHeaderLines_folds (folds : List Continuation) : ∀ p : ResponseParser,
    p.headers.keys ≠ [] → parseHeaderLines (folds.map Continuation.line) p = .ok { p with
      headers := (folds.map Continuation.value).foldl Headers.foldOn p.headers } := by
  induction folds with
  | nil => intro p _; rfl
  | cons c folds ih =>
    intro p hne
    rw [List.map_cons, parseHeaderLines, parseHeaderLine_continuation, if_neg hne]
    exact ih _ (by rwa [Headers.keys_foldOn])

theorem parseHeaderLines_field (f : FoldedField) (p : ResponseParser) :
    parseHeaderLines f.lines p = .ok { p with headers := p.headers.addFolded f } := by
  unfold FoldedField.lines FoldedField.line
  rw [parseHeaderLines, parseHeaderLine_field p.headers f.name_ne f.name_ok f.name_front]
  exact parseHeaderLines_folds f.folds _ (Headers.keys_add_ne p.headers _ _)

theorem parseHeaderLines_fields (fields : List FoldedField) : ∀ p : ResponseParser,
    parseHeaderLines (fields.flatMap FoldedField.lines) p =
      .ok { p with headers := fields.foldl Headers.addFolded p.headers } := by
  induction fields with
  | nil => intro p; rfl
  | cons f fields ih =>
    intro p
    rw [List.flatMap_cons, parseHeaderLines_append, parseHeaderLines_field, ok_bind]
    exact ih _

theorem crlfFree_continuation (c : Continuation) : CrlfFree c.line ∧ c.line ≠ [] := by
  refine ⟨crlfFree_append (a := [c.blank]) (fun x hx => ?_) c.crlfFree, List.cons_ne_nil _ _⟩
  rw [List.mem_singleton.mp hx]
  obtain hb | hb := c.blank_ok <;> rw [hb] <;> decide

theorem crlfFree_fieldLine (f : FoldedField) : CrlfFree f.line ∧ f.line ≠ [] :=
  ⟨f.crlfFree, List.append_ne_nil_of_right_ne_nil _ (List.cons_ne_nil _ _)⟩

theorem blockLines_ok (b : HeaderBlock) : ∀ l ∈ b.lines, CrlfFree l ∧ l ≠ [] := by
  intro l hl
  unfold HeaderBlock.lines at hl
  rw [List.mem_append, List.mem_map, List.mem_flatMap] at hl
  obtain ⟨c, -, rfl⟩ | ⟨f, -, hl⟩ := hl
  · exact crlfFree_continuation c
  · unfold FoldedField.lines at hl
    rw [List.mem_cons, List.mem_map] at hl
    obtain rfl | ⟨c, -, rfl⟩ := hl
    · exact crlfFree_fieldLine f
    · exact crlfFree_continuation c

/-- The parser when it has read a head. -/
def afterBlock (l : StartLine) (b : HeaderBlock) (rest : Bytes) : ResponseParser :=
  { afterStatusLine l.groups rest with headers := readFields b.fields }

theorem feed_headBytes (codec : Codec) (l : StartLine) (b : HeaderBlock) (rest : Bytes) :
    feed codec fresh (headBytes l b ++ rest) =
      (parseHeaderLines b.lines (afterStatusLine l.groups rest) >>= resolveFraming) >>=
        fun p => parse codec { p with state := .body } := by
  have hbuf : headBytes l b ++ rest = l.line ++ CRLF ++ (writeLines b.lines ++ CRLF ++ rest) := by
    simp only [headBytes, HeaderBlock.encode, List.append_assoc]
  rw [hbuf, feed_lines codec l.matched l.crlfFree (blockLines_ok b)]

/-- A block is read to its end; what comes next depends on its framing. -/
theorem feed_block (codec : Codec) (l : StartLine) {b : HeaderBlock} (h : b.orphans = [])
    (rest : Bytes) : feed codec fresh (headBytes l b ++ rest) =
      resolveFraming (afterBlock l b rest) >>= fun p => parse codec { p with state := .body } := by
  have hlines : b.lines = b.fields.flatMap FoldedField.lines := by
    unfold HeaderBlock.lines
    rw [h]
    rfl
  rw [feed_headBytes, hlines, parseHeaderLines_fields, ok_bind]
  rfl

theorem parseHeaderLines_orphan {b : HeaderBlock} (h : b.orphans ≠ []) (m : StatusLine)
    (rest : Bytes) : parseHeaderLines b.lines (afterStatusLine m rest) =
      raise (str "header continuation with no prior header") (afterStatusLine m rest) := by
  obtain ⟨c, cs, hc⟩ := List.exists_cons_of_ne_nil h
  have hlines : b.lines = c.line :: (cs.map Continuation.line ++ b.fields.flatMap FoldedField.lines) := by
    unfold HeaderBlock.lines
    rw [hc]
    rfl
  rw [hlines, parseHeaderLines, parseHeaderLine_continuation]
  rfl

/-- A continuation before any field is an error. -/
theorem feed_orphan (codec : Codec) (l : StartLine) {b : HeaderBlock} (h : b.orphans ≠ [])
    (rest : Bytes) : feed codec fresh (headBytes l b ++ rest) =
      raise (str "header continuation with no prior header") (afterStatusLine l.groups rest) := by
  rw [feed_headBytes, parseHeaderLines_orphan h]
  rfl

/-! ## Other blocks are refused -/

/-- A line that begins with a blank, or has a name in front of its first colon. -/
def WellFormed (line : Bytes) : Prop :=
  (line.head? = some SP ∨ line.head? = some HTAB) ∨ ∃ n, find [COLON] line = some (n + 1)

/-- Lines that are well-formed make up a block. A field takes the continuations behind it. -/
theorem block_of_wellFormed {ls : List Bytes} (hok : ∀ l ∈ ls, CrlfFree l ∧ l ≠ [])
    (hwell : ∀ l ∈ ls, WellFormed l) : ∃ b : HeaderBlock, b.lines = ls := by
  induction ls with
  | nil => exact ⟨⟨[], []⟩, rfl⟩
  | cons l ls ih =>
    obtain ⟨b, hb⟩ := ih (fun x hx => hok x (List.mem_cons_of_mem l hx))
      fun x hx => hwell x (List.mem_cons_of_mem l hx)
    obtain ⟨hfree, hne⟩ := hok l List.mem_cons_self
    by_cases hblank : l.head? = some SP ∨ l.head? = some HTAB
    · obtain ⟨x, xs, rfl⟩ := List.exists_cons_of_ne_nil hne
      rw [List.head?_cons, Option.some.injEq, Option.some.injEq] at hblank
      let c : Continuation := ⟨x, xs, hblank, hfree.tail⟩
      refine ⟨⟨c :: b.orphans, b.fields⟩, ?_⟩
      rw [← hb]
      rfl
    · obtain ⟨n, hn⟩ := (hwell l List.mem_cons_self).resolve_left hblank
      obtain ⟨text, htext⟩ := find_spec hn
      have hline : l = l.take (n + 1) ++ COLON :: text := by
        conv_lhs => rw [← List.take_append_drop (n + 1) l, ← htext]
        rfl
      have hname : l.take (n + 1) ≠ [] := by
        have hlen := find_add_length_le (by decide) hn
        refine List.ne_nil_of_length_pos ?_
        rw [List.length_take]
        omega
      have hcolon : ∀ x ∈ l.take (n + 1), x ≠ COLON := by
        rintro x hx rfl
        exact find_eq_none_iff.mp (find_take (by decide) hn) ((List.singleton_infix_iff _ _).mpr hx)
      have hfront : (l.take (n + 1)).head? ≠ some SP ∧ (l.take (n + 1)).head? ≠ some HTAB := by
        rw [← not_or]
        rwa [hline, List.head?_append_of_ne_nil _ hname] at hblank
      let f : FoldedField :=
        ⟨l.take (n + 1), text, b.orphans, hname, hcolon, hfront, hline ▸ hfree⟩
      refine ⟨⟨[], f :: b.fields⟩, ?_⟩
      have hf : f.line = l := hline.symm
      show f.line :: (b.orphans.map Continuation.line ++ b.fields.flatMap FoldedField.lines) = l :: ls
      rw [hf, ← hb]
      rfl

theorem parseHeaderLine_malformed (h : Headers) {line : Bytes} (hne : line ≠ [])
    (hbad : ¬ WellFormed line) :
    parseHeaderLine h line = .error (str "malformed header line: " ++ reprBytes line) := by
  obtain ⟨hblank, hcolon⟩ := not_or.mp hbad
  unfold parseHeaderLine
  rw [if_neg hne, if_neg hblank]
  cases hf : find [COLON] line with
  | none => rfl
  | some n =>
    cases n with
    | zero => rfl
    | succ n => exact absurd ⟨n, hf⟩ hcolon

theorem parseHeaderLines_malformed {ls : List Bytes} {line : Bytes} (hl : line ∈ ls)
    (hne : line ≠ []) (hbad : ¬ WellFormed line) :
    ∀ p, ∃ msg q, parseHeaderLines ls p = raise msg q := by
  induction ls with
  | nil => cases hl
  | cons raw ls ih =>
    intro p
    rw [parseHeaderLines]
    cases hraw : parseHeaderLine p.headers raw with
    | error msg => exact ⟨msg, p, rfl⟩
    | ok h =>
      obtain rfl | hl := List.mem_cons.mp hl
      · rw [parseHeaderLine_malformed p.headers hne hbad] at hraw
        cases hraw
      · exact ih hl _

/-- The lines of a head are fields with their continuations, or they are refused. -/
theorem fields_or_raises {ls : List Bytes} (hok : ∀ l ∈ ls, CrlfFree l ∧ l ≠ []) (m : StatusLine)
    (rest : Bytes) : (∃ fields, (HeaderBlock.mk [] fields).lines = ls) ∨
      ∃ msg q, parseHeaderLines ls (afterStatusLine m rest) = raise msg q := by
  by_cases hwell : ∀ l ∈ ls, WellFormed l
  · obtain ⟨⟨orphans, fields⟩, rfl⟩ := block_of_wellFormed hok hwell
    by_cases horphans : orphans = []
    · subst horphans
      exact .inl ⟨fields, rfl⟩
    · exact .inr ⟨_, _, parseHeaderLines_orphan horphans m rest⟩
  · simp only [not_forall] at hwell
    obtain ⟨line, hl, hbad⟩ := hwell
    exact .inr (parseHeaderLines_malformed hl (hok line hl).2 hbad _)

theorem lines_of_headerBlock {buf block rest : Bytes} (h : headerBlock buf = some (block, rest)) :
    ∃ ls, (∀ l ∈ ls, CrlfFree l ∧ l ≠ []) ∧ buf = writeLines ls ++ CRLF ++ rest := by
  unfold headerBlock at h
  split_ifs at h with hcrlf
  · obtain ⟨behind, rfl⟩ := hcrlf
    cases h
    exact ⟨[], by simp, rfl⟩
  · obtain ⟨e, he, hbr⟩ := Option.map_eq_some_iff.mp h
    cases hbr
    obtain ⟨ls, hls, hbuf⟩ := lines_of_find hcrlf he
    exact ⟨ls, hls, hbuf⟩

/-- Behind a status line: the lines of the block are fields, they are refused, or the block goes on. -/
theorem block_cases (codec : Codec) (m : StatusLine) (buf : Bytes) :
    (∃ fields rest, buf = (HeaderBlock.mk [] fields).encode ++ rest) ∨
      (∃ msg p, parse codec (afterStatusLine m buf) = .error (.httpParseError msg, p)) ∨
      parse codec (afterStatusLine m buf) = .ok (afterStatusLine m buf) := by
  cases hb : headerBlock buf with
  | none => exact .inr (.inr (parse_headers_none codec rfl rfl hb))
  | some br =>
    obtain ⟨ls, hls, rfl⟩ := lines_of_headerBlock hb
    obtain ⟨fields, hfields⟩ | ⟨msg, q, hraise⟩ := fields_or_raises hls m br.2
    · refine .inl ⟨fields, br.2, ?_⟩
      rw [HeaderBlock.encode, hfields]
    · refine .inr (.inl ⟨msg, q, ?_⟩)
      rw [parse_headers_some codec rfl rfl (headerBlock_lines hls br.2)]
      unfold readBlock
      rw [parseHeaderLines_split hls]
      show (parseHeaderLines ls (afterStatusLine m br.2) >>= _) >>= _ = _
      rw [hraise]
      rfl

/-- The parser waits for the rest of a head, refuses it, or has one of this form in front. -/
theorem feed_cases (codec : Codec) (data : Bytes) :
    (∃ l fields rest, data = headBytes l ⟨[], fields⟩ ++ rest) ∨
      (∃ msg p, feed codec fresh data = .error (.httpParseError msg, p)) ∨
      ∃ p, feed codec fresh data = .ok p ∧ (p.state = .status ∨ p.state = .headers) := by
  have hstart : feed codec fresh data = parse codec { fresh with buf := data } := rfl
  rw [hstart]
  cases hf : find CRLF data with
  | none => exact .inr (.inr ⟨_, parse_status_none codec rfl rfl hf, .inl rfl⟩)
  | some idx =>
    obtain ⟨hfree, hdata⟩ := line_of_find hf
    rw [parse_status_some codec rfl hf]
    dsimp only
    unfold readStatusLine
    cases hm : matchStatusLine (data.take idx) with
    | none => exact .inr (.inl ⟨_, _, rfl⟩)
    | some m =>
      show _ ∨ (∃ msg p, parse codec (afterStatusLine m (data.drop (idx + 2))) = _) ∨
        ∃ p, parse codec (afterStatusLine m (data.drop (idx + 2))) = _ ∧ _
      obtain ⟨fields, rest, hblock⟩ | hraise | hwait := block_cases codec m (data.drop (idx + 2))
      · refine .inl ⟨⟨data.take idx, m, hm, hfree⟩, fields, rest, ?_⟩
        rw [headBytes, List.append_assoc, ← hblock]
        exact hdata
      · exact .inr (.inl hraise)
      · exact .inr (.inr ⟨_, hwait, .inr rfl⟩)

/-! ## The body leaves the head alone -/

/-- What the head has settled. -/
structure SameHead (p q : ResponseParser) : Prop where
  headers : q.headers = p.headers
  status : q.statusCode = p.statusCode
  chunked : q.chunked = p.chunked
  length : q.contentLength = p.contentLength

theorem SameHead.refl (p : ResponseParser) : SameHead p p := ⟨rfl, rfl, rfl, rfl⟩

theorem SameHead.trans {p q r : ResponseParser} (h : SameHead p q) (h' : SameHead q r) :
    SameHead p r :=
  ⟨h'.headers.trans h.headers, h'.status.trans h.status, h'.chunked.trans h.chunked,
    h'.length.trans h.length⟩

/-- A method begun in `p` leaves the head alone, however it ends. -/
def KeepsHead (p : ResponseParser) (x : Parse) : Prop := SameHead p (left x)

theorem KeepsHead.ite {p : ResponseParser} {c : Prop} [Decidable c] {x y : Parse}
    (hx : KeepsHead p x) (hy : KeepsHead p y) : KeepsHead p (if c then x else y) := by
  split_ifs
  · exact hx
  · exact hy

theorem keepsHead_finalize (codec : Codec) {p q : ResponseParser} (h : SameHead p q) :
    KeepsHead p (finalize codec q) := by
  unfold KeepsHead finalize
  split
  · exact h.trans ⟨rfl, rfl, rfl, rfl⟩
  · exact h

theorem keepsHead_parseTrailers (codec : Codec) (p : ResponseParser) :
    KeepsHead p (parseTrailers codec p) := by
  unfold parseTrailers
  refine .ite (keepsHead_finalize codec ⟨rfl, rfl, rfl, rfl⟩) ?_
  split
  · exact .ite (keepsHead_finalize codec (.refl p)) (SameHead.refl p)
  · exact keepsHead_finalize codec ⟨rfl, rfl, rfl, rfl⟩

/-- A round ends with the head as it was, or goes on with it. -/
def RoundKeeps (p : ResponseParser) : Iter ResponseParser Parse → Prop
  | .again q => SameHead p q
  | .leave x => KeepsHead p x

theorem roundKeeps_chunkData {p q : ResponseParser} (h : SameHead p q) :
    RoundKeeps p (chunkData q) := by
  have htake : SameHead p (takeChunk q) := h.trans ⟨rfl, rfl, rfl, rfl⟩
  unfold chunkData
  dsimp only
  split_ifs
  all_goals first
    | exact htake
    | exact htake.trans ⟨rfl, rfl, rfl, rfl⟩

theorem roundKeeps_chunkSize (p : ResponseParser) : RoundKeeps p (chunkSize p) := by
  unfold chunkSize
  cases find CRLF p.buf with
  | none =>
    dsimp only
    split_ifs <;> exact SameHead.refl p
  | some idx =>
    dsimp only
    split
    · exact SameHead.refl p
    · split_ifs
      · exact ⟨rfl, rfl, rfl, rfl⟩
      · exact roundKeeps_chunkData ⟨rfl, rfl, rfl, rfl⟩

theorem keepsHead_parseChunked (codec : Codec) (p : ResponseParser) :
    KeepsHead p (parseChunked codec p) := by
  induction p using chunkRound_induction codec with
  | h p ih =>
    have hround : RoundKeeps p (chunkRound codec p) := by
      unfold chunkRound
      split_ifs
      · exact keepsHead_parseTrailers codec p
      · exact roundKeeps_chunkSize p
      · exact roundKeeps_chunkData (.refl p)
    cases hr : chunkRound codec p with
    | again q =>
      rw [hr] at hround
      have hq : SameHead p q := hround
      rw [parseChunked_again hr]
      exact hq.trans (ih q hr)
    | leave x =>
      rw [hr] at hround
      rw [parseChunked_leave hr]
      exact hround

theorem keepsHead_parseBody (codec : Codec) (p : ResponseParser) :
    KeepsHead p (parseBody codec p) := by
  unfold parseBody
  refine .ite (keepsHead_parseChunked codec p) ?_
  split
  · exact .ite (keepsHead_finalize codec ⟨rfl, rfl, rfl, rfl⟩) ⟨rfl, rfl, rfl, rfl⟩
  · exact .ite (keepsHead_finalize codec ⟨rfl, rfl, rfl, rfl⟩) ⟨rfl, rfl, rfl, rfl⟩

theorem resolveFraming_error {p q : ResponseParser} {e : ParseExn}
    (h : resolveFraming p = .error (e, q)) : q = p := by
  unfold resolveFraming at h
  dsimp only at h
  split_ifs at h
  split at h
  · split at h
    · cases h
    · unfold raise at h
      rw [Except.error.injEq, Prod.mk.injEq] at h
      exact h.2.symm
  · cases h

theorem headers_resolveFraming (p : ResponseParser) :
    (left (resolveFraming p)).headers = p.headers := by
  cases hr : resolveFraming p with
  | ok q => obtain rfl | ⟨n, rfl⟩ | rfl := resolveFraming_ok hr <;> rfl
  | error e => exact congrArg ResponseParser.headers (resolveFraming_error hr)

/-- Whatever comes behind the block and however it ends, the headers are those of its fields. -/
theorem headers_feed_block (codec : Codec) (l : StartLine) {b : HeaderBlock} (h : b.orphans = [])
    (rest : Bytes) : (left (feed codec fresh (headBytes l b ++ rest))).headers = readFields b.fields := by
  have hframing := headers_resolveFraming (afterBlock l b rest)
  rw [feed_block codec l h]
  cases hr : resolveFraming (afterBlock l b rest) with
  | error e =>
    rw [hr] at hframing
    exact hframing
  | ok p =>
    rw [hr] at hframing
    rw [ok_bind, parse_body codec rfl]
    exact (keepsHead_parseBody codec { p with state := .body }).headers.trans hframing

/-! ## The meaning of a block -/

/-- The parser reads the block as it is meant: each name has the values of its fields in their
order, each with its own continuations, and a continuation before any field is refused. -/
structure ReadsBlock (codec : Codec) (l : StartLine) (b : HeaderBlock) (rest : Bytes) : Prop where
  values : b.orphans = [] → ∀ k,
    (left (feed codec fresh (headBytes l b ++ rest))).headers.getList k = valuesOf b.fields k
  refused : b.orphans ≠ [] →
    ∃ msg p, feed codec fresh (headBytes l b ++ rest) = .error (.httpParseError msg, p)

/-- **Folding.** The block is read as it is meant exactly when every folded field has the newest
name there is up to it. -/
theorem folding_iff (codec : Codec) (l : StartLine) (b : HeaderBlock) (rest : Bytes) :
    ReadsBlock codec l b rest ↔ (b.orphans = [] → InPlace b.fields) := by
  constructor
  · intro h horphans
    rw [← readAsMeant_iff]
    intro k
    rw [← headers_feed_block codec l horphans rest]
    exact h.values horphans k
  · intro h
    refine ⟨fun horphans k => ?_, fun horphans => ?_⟩
    · rw [headers_feed_block codec l horphans]
      exact readAsMeant_of_inPlace b.fields (h horphans) k
    · exact ⟨_, _, feed_orphan codec l horphans rest⟩

/-- `A: 1`, `B: 2` and `A: 3`, the last with the continuation `x`. -/
def interleaved : HeaderBlock where
  orphans := []
  fields := [
    ⟨ascii "A", ascii " 1", [], by decide, by decide +kernel, by decide, by decide +kernel⟩,
    ⟨ascii "B", ascii " 2", [], by decide, by decide +kernel, by decide, by decide +kernel⟩,
    ⟨ascii "A", ascii " 3", [⟨SP, ascii "x", .inl rfl, by decide +kernel⟩], by decide,
      by decide +kernel, by decide, by decide +kernel⟩]

def okLine : StartLine where
  line := ascii "HTTP/1.1 200 OK"
  groups := ⟨ascii "HTTP/1.1", ascii "200", some (ascii "OK")⟩
  matched := by decide +kernel
  crlfFree := by decide +kernel

/-- The continuation of the second `A` ends up in `B`. -/
theorem interleaved_misread : ¬ ReadsBlock noCodec okLine interleaved [] := by
  intro h
  have hb := h.values rfl (str "B")
  rw [headers_feed_block noCodec okLine rfl] at hb
  exact absurd hb (by decide +kernel)

end ResponseParser

end Fizzpy
