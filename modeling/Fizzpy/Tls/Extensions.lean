import Fizzpy.Tls.Wrapping

/-!
# Custom extensions

The way of a caller's extensions into the ClientHello: `normalize_extensions` over a sequence of
pairs, the conversion of its result for the native layer, and what `PyClientExtensions` appends.
-/

namespace Fizzpy

namespace Tls

/-! ## The native side -/

/-- `fizz::Extension`. -/
structure Extension where
  extensionType : UInt16
  extensionData : Bytes
  deriving DecidableEq

/-- The extensions of a setup, with the cast of each type; without any there is no
`PyClientExtensions`. -/
def clientExtensions (exts : List (ℕ × Bytes)) : Option (List Extension) :=
  if exts ≠ [] then some (exts.map fun p => ⟨UInt16.ofNat p.1, p.2⟩) else none

/-- What is in the ClientHello behind the extensions `ret` of Fizz itself. -/
def getClientHelloExtensions (exts : Option (List Extension)) (ret : List Extension) :
    List Extension :=
  match exts with
  | some exts => ret ++ exts
  | none => ret

/-! ## What is meant -/

structure Admissible (pairs : List (ℤ × Bytes)) : Prop where
  range : ∀ p ∈ pairs, 0 ≤ p.1 ∧ p.1 ≤ 0xFFFF
  size : ∀ p ∈ pairs, p.2.length ≤ 0xFFFF
  unmanaged : ∀ p ∈ pairs, p.1 ∉ fizzManagedExtensions
  distinct : (pairs.map Prod.fst).Nodup

/-- What there is to say against a pair behind those with the types `seen`. -/
def complaint (seen : List ℤ) (p : ℤ × Bytes) : Option Str :=
  if ¬ (0 ≤ p.1 ∧ p.1 ≤ 0xFFFF) then
    some (str "extension type " ++ str (toString p.1) ++ str " out of range 0..65535")
  else if 0xFFFF < p.2.length then
    some (str "extension " ++ str (toString p.1) ++ str " data is " ++
      str (toString p.2.length) ++ str " bytes; max is 65535")
  else if p.1 ∈ fizzManagedExtensions then
    some (str "extension type " ++ str (toString p.1) ++
      str " is managed by Fizz and cannot be injected")
  else if p.1 ∈ seen then some (str "duplicate extension type " ++ str (toString p.1))
  else none

/-- The pairs as they are, or a `ValueError` about the first of them that is not admissible behind
those before it. -/
inductive Normalized (pairs : List (ℤ × Bytes)) : Except PyExn (List (ℤ × Bytes)) → Prop
  | intact (h : Admissible pairs) : Normalized pairs (.ok pairs)
  | refused {before : List (ℤ × Bytes)} {p : ℤ × Bytes} {behind : List (ℤ × Bytes)} {text : Str}
    (heq : pairs = before ++ p :: behind) (hbefore : Admissible before)
    (hp : ¬ Admissible (before ++ [p])) (htext : complaint (before.map Prod.fst) p = some text) :
    Normalized pairs (.error (.valueError text))

/-- The ClientHello has the pairs behind Fizz's own extensions, each type once. -/
def Reaches (pairs : List (ℤ × Bytes)) (ret hello : List Extension) : Prop :=
  ∃ added, hello = ret ++ added ∧
    added.map (fun e => ((e.extensionType.toNat : ℤ), e.extensionData)) = pairs ∧
    (added.map Extension.extensionType).Nodup

/-! ## The loop -/

theorem admissible_nil : Admissible [] := ⟨by simp, by simp, by simp, List.nodup_nil⟩

theorem Admissible.before {before behind : List (ℤ × Bytes)} (h : Admissible (before ++ behind)) :
    Admissible before where
  range p hp := h.range p (List.mem_append_left _ hp)
  size p hp := h.size p (List.mem_append_left _ hp)
  unmanaged p hp := h.unmanaged p (List.mem_append_left _ hp)
  distinct := by
    have hd := h.distinct
    rw [List.map_append] at hd
    exact hd.of_append_left

theorem complaint_eq_none_iff {seen : List ℤ} {p : ℤ × Bytes} : complaint seen p = none ↔
    (0 ≤ p.1 ∧ p.1 ≤ 0xFFFF) ∧ p.2.length ≤ 0xFFFF ∧ p.1 ∉ fizzManagedExtensions ∧ p.1 ∉ seen := by
  unfold complaint
  split_ifs with hrange hlen hmanaged hseen
  · exact iff_of_false nofun fun h => absurd h.2.1 (not_le.mpr hlen)
  · exact iff_of_false nofun fun h => h.2.2.1 hmanaged
  · exact iff_of_false nofun fun h => h.2.2.2 hseen
  · exact iff_of_true rfl ⟨hrange, not_lt.mp hlen, hmanaged, hseen⟩
  · exact iff_of_false nofun fun h => hrange h.1

/-- One more pair is admissible when nothing is said against it. -/
theorem admissible_concat_iff {before : List (ℤ × Bytes)} (h : Admissible before) (p : ℤ × Bytes) :
    Admissible (before ++ [p]) ↔ complaint (before.map Prod.fst) p = none := by
  rw [complaint_eq_none_iff]
  constructor
  · intro h'
    have hmem : p ∈ before ++ [p] := List.mem_append_right _ (List.mem_singleton_self p)
    refine ⟨h'.range p hmem, h'.size p hmem, h'.unmanaged p hmem, fun hseen => ?_⟩
    have hd := h'.distinct
    rw [List.map_append, List.map_singleton] at hd
    exact List.disjoint_of_nodup_append hd hseen (List.mem_singleton_self p.1)
  · rintro ⟨hrange, hsize, hmanaged, hseen⟩
    refine ⟨?_, ?_, ?_, ?_⟩
    · exact List.forall_mem_append.mpr ⟨h.range, by simpa using hrange⟩
    · exact List.forall_mem_append.mpr ⟨h.size, by simpa using hsize⟩
    · exact List.forall_mem_append.mpr ⟨h.unmanaged, by simpa using hmanaged⟩
    · rw [List.map_append, List.map_singleton]
      exact h.distinct.append (List.nodup_singleton _) (by simpa using hseen)

theorem normalizeFrom_cons (seen : List ℤ) (p : ℤ × Bytes) (items : List ExtensionItem) :
    normalizeFrom seen (⟨.ok p.1, .ok p.2⟩ :: items) =
      match complaint seen p with
      | some text => .error (.valueError text)
      | none => (normalizeFrom (p.1 :: seen) items).map (p :: ·) := by
  unfold complaint
  conv_lhs => unfold normalizeFrom
  dsimp only [bind, Except.bind]
  split_ifs <;> rfl

/-- The types seen are those of the pairs passed, which are admissible; induction on the pairs that are
left. -/
theorem normalizeFrom_cases (pairs : List (ℤ × Bytes)) :
    ∀ (seen : List ℤ) (before : List (ℤ × Bytes)), (∀ t, t ∈ seen ↔ t ∈ before.map Prod.fst) →
      Admissible before →
    (Admissible (before ++ pairs) ∧ normalizeFrom seen (ofPairs pairs).items = .ok pairs) ∨
    ∃ passed p behind text, pairs = passed ++ p :: behind ∧ Admissible (before ++ passed) ∧
      complaint ((before ++ passed).map Prod.fst) p = some text ∧
      normalizeFrom seen (ofPairs pairs).items = .error (.valueError text) := by
  induction pairs with
  | nil =>
    intro seen before _ hbefore
    exact .inl ⟨by rwa [List.append_nil], rfl⟩
  | cons p pairs ih =>
    intro seen before hseen hbefore
    have hround : normalizeFrom seen (ofPairs (p :: pairs)).items = _ :=
      normalizeFrom_cons seen p (ofPairs pairs).items
    have hcomplaint : complaint seen p = complaint (before.map Prod.fst) p := by
      unfold complaint
      simp only [hseen]
    rw [hround, hcomplaint]
    cases htext : complaint (before.map Prod.fst) p with
    | some text =>
      refine .inr ⟨[], p, pairs, text, rfl, by rwa [List.append_nil], ?_, rfl⟩
      rw [List.append_nil]
      exact htext
    | none =>
      have hp := (admissible_concat_iff hbefore p).mpr htext
      have hseen' : ∀ t, t ∈ p.1 :: seen ↔ t ∈ (before ++ [p]).map Prod.fst := by
        intro t
        rw [List.mem_cons, hseen t, List.map_append, List.mem_append, List.map_singleton,
          List.mem_singleton]
        exact or_comm
      obtain ⟨hall, hok⟩ | ⟨passed, q, behind, text, heq, hpassed, hq, herror⟩ :=
        ih (p.1 :: seen) (before ++ [p]) hseen' hp
      · rw [List.append_assoc] at hall
        exact .inl ⟨hall, by rw [hok]; rfl⟩
      · rw [List.append_assoc] at hpassed hq
        exact .inr ⟨p :: passed, q, behind, text, by rw [heq]; rfl, hpassed, hq, by rw [herror]; rfl⟩

theorem normalizeExtensions_ofPairs (pairs : List (ℤ × Bytes)) :
    normalizeExtensions (ofPairs pairs) = normalizeFrom [] (ofPairs pairs).items := by
  cases pairs with
  | nil => rfl
  | cons p pairs =>
    show (normalizeFrom [] (ofPairs (p :: pairs)).items >>= fun out => pure out) = _
    exact bind_pure _

theorem normalized (pairs : List (ℤ × Bytes)) :
    Normalized pairs (normalizeExtensions (ofPairs pairs)) := by
  rw [normalizeExtensions_ofPairs]
  obtain ⟨hall, hok⟩ | ⟨passed, p, behind, text, heq, hpassed, htext, herror⟩ :=
    normalizeFrom_cases pairs [] [] (by simp) admissible_nil
  · rw [hok]
    exact .intact hall
  · rw [herror]
    refine .refused heq hpassed (fun hp => ?_) htext
    exact Option.some_ne_none text (htext.symm.trans ((admissible_concat_iff hpassed p).mp hp))

/-! ## The ClientHello -/

/-- The cast keeps what fits it. -/
theorem cast_toNat {n : ℤ} (h : 0 ≤ n ∧ n ≤ 0xFFFF) : ((UInt16.ofNat n.toNat).toNat : ℤ) = n := by
  rw [UInt16.toNat_ofNat', Nat.mod_eq_of_lt (by omega)]
  exact Int.toNat_of_nonneg h.1

theorem getClientHelloExtensions_eq (exts : List (ℕ × Bytes)) (ret : List Extension) :
    getClientHelloExtensions (clientExtensions exts) ret =
      ret ++ exts.map fun p => ⟨UInt16.ofNat p.1, p.2⟩ := by
  unfold clientExtensions
  split_ifs with h
  · rfl
  · obtain rfl := not_not.mp h
    exact (List.append_nil ret).symm

theorem reaches_of_admissible {pairs : List (ℤ × Bytes)} (h : Admissible pairs) :
    ∃ exts, marshalExtensions pairs = some exts ∧
      ∀ ret, Reaches pairs ret (getClientHelloExtensions (clientExtensions exts) ret) := by
  refine ⟨_, marshalExtensions_eq h.range, fun ret => ⟨_, getClientHelloExtensions_eq _ ret, ?_, ?_⟩⟩
  · rw [List.map_map, List.map_map]
    refine (List.map_congr_left fun p hp => ?_).trans (List.map_id pairs)
    exact Prod.ext (cast_toNat (h.range p hp)) rfl
  · rw [List.map_map, List.map_map]
    refine List.Nodup.map_on (fun p hp q hq heq => ?_) h.distinct.of_map
    -- equal after the cast, so equal before it
    have htype : p.1 = q.1 := by
      rw [← cast_toNat (h.range p hp), ← cast_toNat (h.range q hq)]
      exact congrArg (fun t : UInt16 => (t.toNat : ℤ)) heq
    exact List.inj_on_of_nodup_map h.distinct hp hq htype

/-- **Intact or refused.** The pairs are returned as they are exactly when they are admissible, the
first that is not is complained of, and pairs that are returned are what the ClientHello comes to
have. -/
theorem extensions_intact (pairs : List (ℤ × Bytes)) :
    ((∃ out, normalizeExtensions (ofPairs pairs) = .ok out) ↔ Admissible pairs) ∧
    Normalized pairs (normalizeExtensions (ofPairs pairs)) ∧
    ∀ out, normalizeExtensions (ofPairs pairs) = .ok out →
      out = pairs ∧ normalizeExtensions (ofPairs out) = .ok out ∧
      ∃ exts, marshalExtensions out = some exts ∧
        ∀ ret, Reaches pairs ret (getClientHelloExtensions (clientExtensions exts) ret) := by
  have hn := normalized pairs
  generalize hr : normalizeExtensions (ofPairs pairs) = r at hn ⊢
  refine ⟨?_, hn, ?_⟩
  · cases hn with
    | intact h => exact iff_of_true ⟨pairs, rfl⟩ h
    | refused heq hbefore hp htext =>
      refine iff_of_false (fun ⟨out, h⟩ => by cases h) fun h => hp ?_
      rw [heq, List.append_cons] at h
      exact h.before
  · intro out hout
    cases hn with
    | intact h =>
      cases hout
      exact ⟨rfl, hr, reaches_of_admissible h⟩
    | refused heq hbefore hp htext => cases hout

theorem extensions_intact_one : Admissible [(0x1234, [1])] ∧
    ∃ exts, marshalExtensions [(0x1234, [1])] = some exts ∧ ∀ ret,
      Reaches [(0x1234, [1])] ret (getClientHelloExtensions (clientExtensions exts) ret) := by
  have hok : normalizeExtensions (ofPairs [(0x1234, [1])]) = .ok [(0x1234, [1])] := by decide +kernel
  obtain ⟨hadmissible, -, hreaches⟩ := extensions_intact [(0x1234, [1])]
  exact ⟨hadmissible.mp ⟨_, hok⟩, (hreaches _ hok).2.2⟩

example : normalizeExtensions (ofPairs [(0x1234, [1]), (16, [2])]) =
    .error (.valueError (str "extension type 16 is managed by Fizz and cannot be injected")) := by
  decide +kernel

end Tls

end Fizzpy
