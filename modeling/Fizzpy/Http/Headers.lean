import Fizzpy.Text

/-!
# Headers

The case-insensitive multimap of response headers. `_store` is a dictionary from the lower-cased
name to the first casing and the list of values; here it is its list of entries in insertion order,
whose keys are distinct.
-/

namespace Fizzpy

/-- One item of `_store`. -/
structure Entry where
  key : Str
  name : Str
  values : List Str
  deriving DecidableEq

/-- `_store`, in insertion order. -/
abbrev Store := List Entry

/-- What `in` may be asked about. -/
inductive Obj where
  | str (s : Str)
  | other
  deriving DecidableEq

structure KeyError where
  key : Str
  deriving DecidableEq

namespace Store

variable (lower : Str → Str)

/-- One more value under a name: behind the values of the key, or in a new entry. -/
def add (store : Store) (name value : Str) : Store :=
  let key := lower name
  if key ∈ store.map Entry.key then
    store.map fun e => if e.key = key then { e with values := e.values ++ [value] } else e
  else store ++ [⟨key, name, [value]⟩]

/-- `_store.get(key)`. -/
def entry (store : Store) (key : Str) : Option Entry := store.find? fun e => e.key = key

def getList (store : Store) (key : Str) : List Str :=
  match store.entry (lower key) with
  | some e => e.values
  | none => []

def get (store : Store) (key : Str) (default : Option Str) : Option Str :=
  match store.entry (lower key) with
  | some e => some (join (str ", ") e.values)
  | none => default

/-- `__getitem__`. -/
def getitem (store : Store) (key : Str) : Except KeyError Str :=
  match store.entry (lower key) with
  | some e => .ok (join (str ", ") e.values)
  | none => .error ⟨key⟩

/-- `__contains__`. -/
def contains (store : Store) : Obj → Bool
  | .str key => (store.entry (lower key)).isSome
  | .other => false

/-- `__iter__`. -/
def iter (store : Store) : List Str := store.map Entry.name

def items (store : Store) : List (Str × Str) :=
  store.flatMap fun e => e.values.map fun value => (e.name, value)

end Store

/-- What every `_store` satisfies. -/
structure StoreOk (store : Store) : Prop where
  nodup : (store.map Entry.key).Nodup
  values_ne : ∀ e ∈ store, e.values ≠ []
  key_eq : ∀ e ∈ store, e.key = lower e.name

/-- The headers of a response, whose names are of latin-1. -/
structure Headers where
  store : Store
  ok : StoreOk store
  deriving DecidableEq

namespace Headers

theorem keys_add_of_mem {store : Store} {name value : Str}
    (h : lower name ∈ store.map Entry.key) :
    (store.add lower name value).map Entry.key = store.map Entry.key := by
  unfold Store.add
  rw [if_pos h, List.map_map]
  refine List.map_congr_left fun e _ => ?_
  show (if e.key = lower name then _ else _ : Entry).key = e.key
  split_ifs <;> rfl

theorem storeOk_add {store : Store} (h : StoreOk store) (name value : Str) :
    StoreOk (store.add lower name value) := by
  by_cases hk : lower name ∈ store.map Entry.key
  · refine ⟨by rw [keys_add_of_mem hk]; exact h.nodup, ?_, ?_⟩
    all_goals
      intro e he
      unfold Store.add at he
      rw [if_pos hk, List.mem_map] at he
      obtain ⟨e', he', rfl⟩ := he
      split_ifs
    · simp
    · exact h.values_ne e' he'
    · exact h.key_eq e' he'
    · exact h.key_eq e' he'
  · unfold Store.add
    rw [if_neg hk]
    refine ⟨?_, ?_, ?_⟩
    · rw [List.map_append, List.nodup_append]
      refine ⟨h.nodup, by simp, ?_⟩
      intro a ha b hb hab
      rw [List.map_singleton, List.mem_singleton] at hb
      rw [hab, hb] at ha
      exact hk ha
    all_goals
      intro e he
      rw [List.mem_append, List.mem_singleton] at he
      obtain he | rfl := he
    · exact h.values_ne e he
    · simp
    · exact h.key_eq e he
    · rfl

def empty : Headers := ⟨[], ⟨List.nodup_nil, by simp, by simp⟩⟩

def add (h : Headers) (name value : Str) : Headers :=
  ⟨h.store.add lower name value, storeOk_add h.ok name value⟩

/-- `Headers(items)`. -/
def ofItems (items : List (Str × Str)) : Headers :=
  items.foldl (fun h p => h.add p.1 p.2) empty

def lookup (h : Headers) (key : Str) : Option Entry := h.store.entry (lower key)

def getList (h : Headers) (key : Str) : List Str := h.store.getList lower key

def get (h : Headers) (key : Str) : Option Str := h.store.get lower key none

def items (h : Headers) : List (Str × Str) := h.store.items

/-- The text folded onto the last value of an entry. -/
def Entry.fold (e : Entry) (text : Str) : Entry :=
  { e with values := e.values.dropLast ++ [e.values.getLastD [] ++ ' ' :: text] }

def foldLast (store : Store) (text : Str) : Store :=
  match store.getLast? with
  | some e => store.dropLast ++ [Entry.fold e text]
  | none => store

theorem storeOk_foldLast {store : Store} (h : StoreOk store) (text : Str) :
    StoreOk (foldLast store text) := by
  unfold foldLast
  split
  · rename_i e he
    obtain ⟨init, rfl⟩ : ∃ init, store = init ++ [e] :=
      ⟨store.dropLast, (List.dropLast_append_getLast? e he).symm⟩
    rw [List.dropLast_concat]
    refine ⟨?_, ?_, ?_⟩
    · have hn := h.nodup
      rw [List.map_append] at hn ⊢
      exact hn
    all_goals
      intro x hx
      rw [List.mem_append, List.mem_singleton] at hx
      obtain hx | rfl := hx
    · exact h.values_ne x (by simp [hx])
    · simp [Entry.fold]
    · exact h.key_eq x (by simp [hx])
    · exact h.key_eq e (by simp)
  · exact h

/-- Folds a continuation line onto the last key of the dictionary; without any header the call
raises (`none`). -/
def appendToLast (h : Headers) (text : Str) : Option Headers :=
  if h.store = [] then none else some ⟨foldLast h.store text, storeOk_foldLast h.ok text⟩

/-! ## Looking names up -/

@[simp] theorem getList_empty (k : Str) : empty.getList k = [] := rfl

/-- A key is absent exactly when no entry has it. -/
theorem lookup_eq_none_iff (h : Headers) (k : Str) :
    h.lookup k = none ↔ lower k ∉ h.store.map Entry.key := by
  unfold lookup Store.entry
  rw [List.find?_eq_none, List.mem_map]
  constructor
  · rintro hn ⟨e, he, hk⟩
    exact hn e he (by simpa using hk)
  · intro hn e he hk
    exact hn ⟨e, he, by simpa using hk⟩

theorem getList_eq (h : Headers) (k : Str) :
    h.getList k = ((h.lookup k).map Entry.values).getD [] := by
  show (match h.lookup k with | some e => e.values | none => []) = _
  cases h.lookup k <;> rfl

theorem lookup_add (h : Headers) (n v k : Str) :
    (h.add n v).lookup k = (h.store.add lower n v).find? fun e => e.key = lower k := rfl

theorem lookup_add_of_mem (h : Headers) {n : Str} (v k : Str) (hn : lower n ∈ h.store.map Entry.key) :
    (h.add n v).lookup k = (h.lookup k).map fun e =>
      if e.key = lower n then { e with values := e.values ++ [v] } else e := by
  rw [lookup_add, Store.add, if_pos hn, List.find?_map]
  unfold lookup
  congr 2
  funext e
  show decide ((if e.key = lower n then _ else e : Entry).key = lower k) = decide (e.key = lower k)
  split_ifs <;> rfl

theorem lookup_add_of_not_mem (h : Headers) {n : Str} (v k : Str)
    (hn : lower n ∉ h.store.map Entry.key) :
    (h.add n v).lookup k = (h.lookup k).or (if lower n = lower k then some ⟨lower n, n, [v]⟩ else none) := by
  rw [lookup_add, Store.add, if_neg hn, List.find?_append, List.find?_singleton]
  simp only [decide_eq_true_eq]
  rfl

/-- A value is added behind those of its own name, in any casing, and leaves other names alone. -/
theorem getList_add (h : Headers) (n v k : Str) :
    (h.add n v).getList k = h.getList k ++ if lower n = lower k then [v] else [] := by
  rw [getList_eq, getList_eq]
  by_cases hn : lower n ∈ h.store.map Entry.key
  · rw [lookup_add_of_mem h v k hn]
    cases hl : h.lookup k with
    | none =>
      have hk : lower n ≠ lower k := fun e => (lookup_eq_none_iff h k).mp hl (e ▸ hn)
      simp [hk]
    | some e =>
      have hek : e.key = lower k := by simpa using List.find?_some hl
      by_cases hk : lower n = lower k
      · simp [hk, hek]
      · simp [hk, hek, Ne.symm hk]
  · rw [lookup_add_of_not_mem h v k hn]
    by_cases hk : lower n = lower k
    · have hl : h.lookup k = none := (lookup_eq_none_iff h k).mpr (hk ▸ hn)
      simp [hk, hl]
    · simp only [hk, if_false, Option.or_none, List.append_nil]

/-- The values of a name after a run of additions, in their order. -/
theorem getList_foldl_add (items : List (Str × Str)) (h : Headers) (k : Str) :
    (items.foldl (fun h p => h.add p.1 p.2) h).getList k =
      h.getList k ++ (items.filter fun p => lower p.1 = lower k).map Prod.snd := by
  induction items generalizing h with
  | nil => simp
  | cons p items ih =>
    rw [List.foldl_cons, ih, getList_add, List.append_assoc, List.filter_cons]
    by_cases hp : lower p.1 = lower k <;> simp [hp]

theorem getList_ofItems (items : List (Str × Str)) (k : Str) :
    (ofItems items).getList k = (items.filter fun p => lower p.1 = lower k).map Prod.snd := by
  unfold ofItems
  rw [getList_foldl_add, getList_empty, List.nil_append]

/-- `get` joins the list, and is absent exactly when the list is empty. -/
theorem get_eq (h : Headers) (k : Str) :
    h.get k = if h.getList k = [] then none else some (join (str ", ") (h.getList k)) := by
  have hget : h.get k = (h.lookup k).map fun e => join (str ", ") e.values := by
    show (match h.lookup k with | some e => some (join (str ", ") e.values) | none => none) = _
    cases h.lookup k <;> rfl
  rw [hget, getList_eq]
  cases hl : h.lookup k with
  | none => rfl
  | some e =>
    have hne := h.ok.values_ne e (List.mem_of_find?_eq_some hl)
    simp [hne]

end Headers

end Fizzpy
