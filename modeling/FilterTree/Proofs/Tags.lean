import FilterTree.Proofs.Branches
import FilterTree.Proofs.Equivalence
import FilterTree.Proofs.Lookup
import FilterTree.Proofs.Operand

/-!
# Tags

A tag says nothing that the value does not say. Values are equal as operands exactly if they are
equal as JSON (`Operand.equiv_ofJson`), and what was made by tagging meets the same contracts when
its value is tagged again, in a query of its own too (`Operand.tagging_lossless`).

Forms are read back without tags. The types of payloads overlap: every form is one of
`Operand.other`, and the array without items is a list of strings and one of numbers. The reader
takes the first tag in the order of declaration, which is the one that tagging gives
(`Operand.decode?_first`).
-/

namespace FilterTree

/-! ## Equality of lists of one kind -/

namespace Json

theorem equivList_strings (xs ys : List String) :
    equivList (xs.map .string) (ys.map .string) = (xs == ys) := by
  induction xs generalizing ys with
  | nil => cases ys <;> rfl
  | cons x xs ih =>
    cases ys with
    | nil => rfl
    | cons y ys =>
      rw [List.map_cons, List.map_cons, equivList, equiv, ih]
      rfl

theorem equivList_numbers (xs ys : List Number) :
    equivList (xs.map .number) (ys.map .number) =
      (xs.length == ys.length && (xs.zip ys).all fun (m, n) => m.equiv n) := by
  induction xs generalizing ys with
  | nil => cases ys <;> rfl
  | cons x xs ih =>
    cases ys with
    | nil => rfl
    | cons y ys =>
      have hlength : ((x :: xs).length == (y :: ys).length) = (xs.length == ys.length) := by simp
      rw [List.map_cons, List.map_cons, equivList, equiv, ih, List.zip_cons_cons, List.all_cons,
        hlength, Bool.and_left_comm]

/-- Equal values are both strings or neither is. -/
theorem isSome_string?_of_equiv {v w : Json} (h : v.equiv w = true) :
    v.string?.isSome = w.string?.isSome := by
  cases v <;> cases w <;> first | rfl | simp [equiv] at h

/-- Equal values are both numbers or neither is. -/
theorem isSome_number?_of_equiv {v w : Json} (h : v.equiv w = true) :
    v.number?.isSome = w.number?.isSome := by
  cases v <;> cases w <;> first | rfl | simp [equiv] at h

/-- If equal values are of the same kind, equal lists are all of that kind or not. -/
theorem all_eq_of_equivList {kind : Json → Bool}
    (hkind : ∀ {v w}, v.equiv w = true → kind v = kind w) :
    ∀ {xs ys : List Json}, equivList xs ys = true → xs.all kind = ys.all kind
  | [], [], _ => rfl
  | [], _ :: _, h | _ :: _, [], h => by simp [equivList] at h
  | x :: xs, y :: ys, h => by
    rw [equivList, Bool.and_eq_true] at h
    rw [List.all_cons, List.all_cons, hkind h.1, all_eq_of_equivList hkind h.2]

end Json

namespace Operand

/-! ## Equality of operands -/

/-- Operands are equal if they have the same tag and equal values. -/
theorem equiv_eq (c d : Operand) :
    c.equiv d = (c.place == d.place && c.toJson.equiv d.toJson) := by
  cases c with
  | null | bool _ | number _ | string _ => cases d <;> simp [equiv, place, toJson, Json.equiv]
  | strings xs =>
    cases d with
    | strings ys =>
      show (xs == ys) = (true && Json.equiv (.array _) (.array _))
      rw [Json.equiv, Json.equivList_strings, Bool.true_and]
    | null | bool _ | number _ | string _ | numbers _ | other _ => rfl
  | numbers xs =>
    cases d with
    | numbers ys =>
      show _ = (true && Json.equiv (.array _) (.array _))
      rw [Json.equiv, Json.equivList_numbers, Bool.true_and]
      rfl
    | null | bool _ | number _ | string _ | strings _ | other _ => rfl
  | other v =>
    cases d with
    | other w => rfl
    | null | bool _ | number _ | string _ | strings _ | numbers _ => rfl

theorem place_ofItems (items : List Json) :
    (ofItems items).place =
      if items.all (·.string?.isSome) then 4 else if items.all (·.number?.isSome) then 5 else 6 := by
  rw [ofItems]
  split
  · rfl
  · split <;> rfl

/-- Equal values are given the same tag. -/
theorem place_ofJson_eq {v w : Json} (h : v.equiv w = true) :
    (ofJson v).place = (ofJson w).place := by
  cases v with
  | array xs =>
    cases w with
    | array ys =>
      rw [Json.equiv] at h
      show (ofItems xs).place = (ofItems ys).place
      rw [place_ofItems, place_ofItems, Json.all_eq_of_equivList Json.isSome_string?_of_equiv h,
        Json.all_eq_of_equivList Json.isSome_number?_of_equiv h]
    | null | bool _ | number _ | string _ | object _ => simp [Json.equiv] at h
  | null | bool _ | number _ | string _ | object _ =>
    cases w <;> first | rfl | simp [Json.equiv] at h

/-- Values are equal as operands exactly if they are equal as JSON. -/
theorem equiv_ofJson (v w : Json) : (ofJson v).equiv (ofJson w) = v.equiv w := by
  rw [equiv_eq, toJson_ofJson, toJson_ofJson]
  cases h : v.equiv w with
  | false => rw [Bool.and_false]
  | true => rw [place_ofJson_eq h, beq_self_eq_true, Bool.and_true]

/-- An operand is equal to itself, if no key is repeated in its value. -/
theorem equiv_refl {c : Operand} (h : c.toJson.DistinctKeys) : c.equiv c = true := by
  rw [equiv_eq, beq_self_eq_true, Json.equiv_refl _ h, Bool.true_and]

/-! ## Contracts -/

/-- Comparisons do not tell one list of one kind from another. -/
theorem accepts_reread (op : Comparison) (c : Operand) : op.accepts c.reread = op.accepts c := by
  unfold reread
  split
  · cases op <;> rfl
  · rfl

theorem reread_of_ne {c : Operand} (h : c ≠ numbers []) : c.reread = c := by
  unfold reread
  split
  · exact absurd rfl h
  · rfl

end Operand

namespace Query

/-- Above the operator that a path leads to there is no other. -/
theorem hasOperator_nest {p : Path} (hp : Path.IsPlain p) (hne : p ≠ []) (fs : Fields) :
    hasOperator (Fields.nest p fs) = false := by
  cases p with
  | nil => exact absurd rfl hne
  | cons name p =>
    rw [Fields.nest, hasOperator, List.any_cons, hp name List.mem_cons_self]
    rfl

/-- A comparison under a path is read with that path. -/
theorem outlineFields_nest (op : Comparison) (v : Json) {p : Path} (hp : Path.IsPlain p)
    (path : Path) {shadowed : Bool} (hshadowed : p ≠ [] → shadowed = false) :
    outlineFields path shadowed (Fields.nest p [(op.symbol, v)]) =
      [.condition () (path ++ p) op (.ofJson v)] := by
  induction p generalizing path shadowed with
  | nil =>
    rw [Fields.nest, outlineFields, outlineFields, Key.ofString_comparison, List.append_nil,
      List.append_nil]
  | cons name p ih =>
    have hname : (Key.ofString name).isOperator = false := hp name List.mem_cons_self
    rw [hshadowed (List.cons_ne_nil name p), Fields.nest, outlineFields, outlineFields,
      Key.ofString_of_not_isOperator hname, List.append_nil]
    show outlineBody (path ++ [name]) _ = _
    rw [outlineBody, ih hp.tail _ fun hne => hasOperator_nest hp.tail hne _, List.append_assoc,
      List.singleton_append]

/-- A condition is written and read back with its value tagged again. -/
theorem toTree_toQuery?_condition (i k : NodeId) {p : Path} (hp : Path.IsPlain p) (op : Comparison)
    (c : Operand) :
    (Forest.toQuery? [.condition i p op c]).map (toTree k) =
      some [.condition k p op (.ofJson c.toJson)] := by
  have hfields : Forest.toFields [Node.condition i p op c] =
      Fields.nest p [(op.symbol, c.toJson)] := Forest.toFields_singleton _
  rw [Forest.toQuery?_of_ne_nil (hfields ▸ Node.nest_ne_nil p _), hfields, Option.map_some, toTree,
    outline, outlineFields_nest op c.toJson hp [] fun _ => rfl]
  rfl

end Query

namespace Operand

/-- Tagging is lossless. A value is found again in its operand, and values are equal as operands
exactly if they are equal, as data or up to the order of keys. What was made by tagging, from JSON
or from a native value, is found again in its value, but for numbers of which there are none. A
comparison accepts it before exactly if it does after, in a query that is written and read too. -/
theorem tagging_lossless (v w : Json) {c : Operand} (hc : Made c) :
    (ofJson v).toJson = v ∧ (ofJson v = ofJson w ↔ v = w) ∧
      (ofJson v).equiv (ofJson w) = v.equiv w ∧
      (c ≠ numbers [] → ofJson c.toJson = c ∧
        (c.toJson.DistinctKeys → (ofJson c.toJson).equiv c = true)) ∧
      ofJson (numbers []).toJson = strings [] ∧
      (∀ op : Comparison, op.accepts (ofJson c.toJson) = op.accepts c) ∧
      ∀ (i k : NodeId) (p : Path) (op : Comparison), Path.IsPlain p →
        (Forest.toQuery? [.condition i p op c]).map (Query.toTree k) =
          some [.condition k p op (ofJson c.toJson)] := by
  have hagain : ofJson c.toJson = c.reread := hc.ofJson_toJson
  have hinjective : Function.Injective ofJson := Function.LeftInverse.injective toJson_ofJson
  refine ⟨toJson_ofJson v, hinjective.eq_iff, equiv_ofJson v w, ?_, rfl, ?_, ?_⟩
  · intro hne
    rw [hagain, reread_of_ne hne]
    exact ⟨rfl, equiv_refl⟩
  · intro op
    rw [hagain, accepts_reread]
  · intro i k p op hp
    exact Query.toTree_toQuery?_condition i k hp op c

/-- A list of one kind beside one that is mixed, and numbers of which there are none. -/
theorem tagging_lossless_ofInts :
    Made (ofInts []) ∧ (ofJson (.array [.string "a", .null])).toJson = .array [.string "a", .null] ∧
      (ofJson (.array [.string "a", .null])).equiv (ofJson (.array [.string "a"])) = false ∧
      ofJson (ofInts []).toJson = strings [] ∧
      Comparison.isIn.accepts (ofJson (ofInts []).toJson) = true ∧
      (Forest.toQuery? [.condition 4 ["a"] .isIn (ofInts [])]).map (Query.toTree 1) =
        some [.condition 1 ["a"] .isIn (strings [])] := by
  have hmade : Made (ofInts []) := Made.ints []
  obtain ⟨hvalue, -, hequiv, -, hnone, haccepts, hquery⟩ :=
    tagging_lossless (.array [.string "a", .null]) (.array [.string "a"]) hmade
  refine ⟨hmade, hvalue, ?_, hnone, ?_, ?_⟩
  · rw [hequiv]
    decide
  · rw [haccepts]
    decide
  · exact hquery 4 1 ["a"] .isIn (by decide)

/-! ## The reader of operands -/

/-- The reader of operands agrees with tagging: it takes the first tag of which the payload accepts
the form, and that is the tag of the value. The form of an operand, whatever it was made of, is its
value. -/
theorem decode?_first (v : Json) :
    decode? v = some (ofJson v) ∧
      (∀ (i : Nat) (read? : Json → Option Operand), readers[i]? = some read? →
        (i < (ofJson v).place → read? v = none) ∧
          (i = (ofJson v).place → read? v = some (ofJson v))) ∧
      ∀ c : Operand, encode c = c.toJson := by
  refine ⟨decodeFirst?_eq_ofJson v, ?_, encodePayload_eq_toJson⟩
  intro i read? hread
  constructor
  · exact readTags_readers.eq_none hread
  · rintro rfl
    exact readTags_readers.eq_some hread

/-- An array without items is no string. It is a list of numbers too, but strings come first. -/
theorem decode?_first_noItems :
    decode? (.array []) = some (strings []) ∧
      readers[3]? = some (fun v => (decode? v).map string) ∧
      (decode? (.array [])).map string = none ∧
      readers[5]? = some (fun v => (decode? v).map numbers) ∧
      (decode? (.array [])).map numbers = some (numbers []) ∧
      encode (numbers []) = .array [] := by
  obtain ⟨hdecode, hfirst, hencode⟩ := decode?_first (.array [])
  exact ⟨hdecode, rfl, (hfirst 3 _ rfl).1 (by decide), rfl, rfl, hencode (numbers [])⟩

end Operand

end FilterTree
