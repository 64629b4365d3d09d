import FilterTree.Proofs.Canonical
import FilterTree.Proofs.Outline

/-!
# Reading and writing again and again

`Query.convert` reads a query and writes it back. What comes out is a filter of single items, and
such a filter loses one thing in the next round: the fields beside operators in the body of a field
(`Query.unmix`). After that nothing changes any more (`Query.convert_convert`).
-/

namespace FilterTree

namespace Query

/-- Reads a query and writes it back; `null` if nothing is written. -/
def convert (q : Json) : Json := (Forest.toQuery? (toTree 1 q)).getD .null

/-! ## Mixed bodies -/

mutual

/-- Deletes the names beside operators from every object that is the value of a name. The values of
comparisons stay as they are. -/
def unmix : Json → Json
  | .array items => .array (unmixItems items)
  | .object fields => .object (unmixEntries false fields)
  | v => v

def unmixItems : List Json → List Json
  | [] => []
  | v :: vs => unmix v :: unmixItems vs

def unmixEntries (shadowed : Bool) : List (String × Json) → Fields
  | [] => []
  | (k, v) :: fields =>
    (match Key.ofString k with
      | .comparison _ => [(k, v)]
      | .connective _ | .quantifier _ => [(k, unmix v)]
      | .field _ => if shadowed then [] else [(k, unmixBody v)]) ++
    unmixEntries shadowed fields

def unmixBody : Json → Json
  | .array items => .array (unmixItems items)
  | .object fields => .object (unmixEntries (hasOperator fields) fields)
  | v => v

end

mutual

/-- Whether no object that is the value of a name holds operators and names side by side, outside
the values of comparisons. -/
def isUnmixed : Json → Bool
  | .array items => areUnmixedItems items
  | .object fields => areUnmixed fields
  | _ => true

def areUnmixedItems : List Json → Bool
  | [] => true
  | v :: vs => isUnmixed v && areUnmixedItems vs

def areUnmixed : List (String × Json) → Bool
  | [] => true
  | (k, v) :: fields =>
    (match Key.ofString k with
      | .comparison _ => true
      | .connective _ | .quantifier _ => isUnmixed v
      | .field _ => isUnmixedBody v) && areUnmixed fields

def isUnmixedBody : Json → Bool
  | .array items => areUnmixedItems items
  | .object fields => (!hasOperator fields || hasOnlyOperators fields) && areUnmixed fields
  | _ => true

end

/-! ## Entries one by one -/

theorem unmixEntries_cons (shadowed : Bool) (f : String × Json) (fields : Fields) :
    unmixEntries shadowed (f :: fields) =
      unmixEntries shadowed [f] ++ unmixEntries shadowed fields := by
  rw [unmixEntries, unmixEntries, unmixEntries, List.append_nil]

/-- An operator keeps its key. -/
theorem unmixEntries_operator (shadowed : Bool) {k : String}
    (h : (Key.ofString k).isOperator = true) (v : Json) :
    ∃ w, unmixEntries shadowed [(k, v)] = [(k, w)] := by
  rw [unmixEntries, unmixEntries]
  cases hk : Key.ofString k with
  | field name =>
    rw [hk] at h
    exact Bool.noConfusion h
  | comparison op => exact ⟨v, rfl⟩
  | connective op => exact ⟨unmix v, rfl⟩
  | quantifier op => exact ⟨unmix v, rfl⟩

theorem unmixEntries_field {k name : String} (hk : Key.ofString k = .field name)
    (shadowed : Bool) (v : Json) :
    unmixEntries shadowed [(k, v)] = if shadowed then [] else [(k, unmixBody v)] := by
  rw [unmixEntries, unmixEntries, hk]
  exact List.append_nil _

/-- Operators are neither added nor taken away. -/
theorem hasOperator_unmixEntries (shadowed : Bool) (fields : Fields) :
    hasOperator (unmixEntries shadowed fields) = hasOperator fields := by
  induction fields with
  | nil => rw [unmixEntries]
  | cons f fields ih =>
    obtain ⟨k, v⟩ := f
    rw [hasOperator] at ih
    rw [unmixEntries_cons, hasOperator, List.any_append, ih, hasOperator, hasOperator,
      List.any_cons]
    congr 1
    rcases Key.isOperator_or_field k with hk | hk
    · obtain ⟨w, hw⟩ := unmixEntries_operator shadowed hk v
      rw [hw, List.any_cons, List.any_nil, Bool.or_false]
    · rw [unmixEntries_field hk, hk]
      cases shadowed with
      | true => rfl
      | false =>
        rw [if_neg Bool.false_ne_true, List.any_cons, List.any_nil, Bool.or_false, hk]

/-- Beside operators only operators stay. -/
theorem hasOnlyOperators_unmixEntries (fields : Fields) :
    hasOnlyOperators (unmixEntries true fields) = true := by
  induction fields with
  | nil =>
    rw [unmixEntries]
    rfl
  | cons f fields ih =>
    obtain ⟨k, v⟩ := f
    rw [hasOnlyOperators] at ih
    rw [unmixEntries_cons, hasOnlyOperators, List.all_append, ih, Bool.and_true]
    rcases Key.isOperator_or_field k with hk | hk
    · obtain ⟨w, hw⟩ := unmixEntries_operator true hk v
      rw [hw, List.all_cons, List.all_nil, hk]
      rfl
    · rw [unmixEntries_field hk]
      rfl

/-! ## Nothing is mixed after deleting -/

mutual

theorem isUnmixed_unmix : ∀ v : Json, isUnmixed (unmix v) = true
  | .null | .bool _ | .number _ | .string _ => by
    rw [unmix]
    · rw [isUnmixed] <;> simp
    all_goals simp
  | .array items => by
    rw [unmix, isUnmixed]
    exact areUnmixedItems_unmixItems items
  | .object fields => by
    rw [unmix, isUnmixed]
    exact areUnmixed_unmixEntries false fields

theorem areUnmixedItems_unmixItems : ∀ vs : List Json, areUnmixedItems (unmixItems vs) = true
  | [] => by rw [unmixItems, areUnmixedItems]
  | v :: vs => by
    rw [unmixItems, areUnmixedItems, isUnmixed_unmix v, areUnmixedItems_unmixItems vs]
    rfl

theorem areUnmixed_unmixEntries :
    ∀ (shadowed : Bool) (fields : List (String × Json)),
      areUnmixed (unmixEntries shadowed fields) = true
  | _, [] => by rw [unmixEntries, areUnmixed]
  | shadowed, (k, v) :: fields => by
    have hrest := areUnmixed_unmixEntries shadowed fields
    rw [unmixEntries]
    cases hk : Key.ofString k with
    | comparison op =>
      change areUnmixed ((k, v) :: unmixEntries shadowed fields) = true
      rw [areUnmixed, hk, hrest]
      rfl
    | connective op =>
      change areUnmixed ((k, unmix v) :: unmixEntries shadowed fields) = true
      rw [areUnmixed, hk, hrest, Bool.and_true]
      exact isUnmixed_unmix v
    | quantifier op =>
      change areUnmixed ((k, unmix v) :: unmixEntries shadowed fields) = true
      rw [areUnmixed, hk, hrest, Bool.and_true]
      exact isUnmixed_unmix v
    | field name =>
      cases shadowed with
      | true => exact hrest
      | false =>
        change areUnmixed ((k, unmixBody v) :: unmixEntries false fields) = true
        rw [areUnmixed, hk, hrest, Bool.and_true]
        exact isUnmixedBody_unmixBody v

theorem isUnmixedBody_unmixBody : ∀ v : Json, isUnmixedBody (unmixBody v) = true
  | .null | .bool _ | .number _ | .string _ => by
    rw [unmixBody]
    · rw [isUnmixedBody] <;> simp
    all_goals simp
  | .array items => by
    rw [unmixBody, isUnmixedBody]
    exact areUnmixedItems_unmixItems items
  | .object fields => by
    rw [unmixBody, isUnmixedBody, hasOperator_unmixEntries, areUnmixed_unmixEntries, Bool.and_true]
    cases hasOperator fields with
    | false => rfl
    | true =>
      rw [hasOnlyOperators_unmixEntries]
      rfl

end

/-! ## Where nothing is mixed nothing is deleted -/

mutual

theorem unmix_of_isUnmixed : ∀ v : Json, isUnmixed v = true → unmix v = v
  | .null, _ | .bool _, _ | .number _, _ | .string _, _ => by
    rw [unmix]
    all_goals simp
  | .array items, h => by
    rw [isUnmixed] at h
    rw [unmix, unmixItems_of_areUnmixedItems items h]
  | .object fields, h => by
    rw [isUnmixed] at h
    rw [unmix, unmixEntries_of_areUnmixed false fields h (Or.inl rfl)]

theorem unmixItems_of_areUnmixedItems :
    ∀ vs : List Json, areUnmixedItems vs = true → unmixItems vs = vs
  | [], _ => by rw [unmixItems]
  | v :: vs, h => by
    rw [areUnmixedItems, Bool.and_eq_true] at h
    rw [unmixItems, unmix_of_isUnmixed v h.1, unmixItems_of_areUnmixedItems vs h.2]

theorem unmixEntries_of_areUnmixed :
    ∀ (shadowed : Bool) (fields : List (String × Json)), areUnmixed fields = true →
      Unshadowed shadowed fields → unmixEntries shadowed fields = fields
  | _, [], _, _ => by rw [unmixEntries]
  | shadowed, (k, v) :: fields, h, hs => by
    rw [areUnmixed, Bool.and_eq_true] at h
    obtain ⟨hv, hfields⟩ := h
    rw [unmixEntries, unmixEntries_of_areUnmixed shadowed fields hfields hs.tail]
    cases hk : Key.ofString k with
    | comparison op => rfl
    | connective op =>
      rw [hk] at hv
      simp only [unmix_of_isUnmixed v hv, List.singleton_append]
    | quantifier op =>
      rw [hk] at hv
      simp only [unmix_of_isUnmixed v hv, List.singleton_append]
    | field name =>
      rw [hk] at hv
      simp only [hs.field hk, Bool.false_eq_true, if_false, unmixBody_of_isUnmixedBody v hv,
        List.singleton_append]

theorem unmixBody_of_isUnmixedBody : ∀ v : Json, isUnmixedBody v = true → unmixBody v = v
  | .null, _ | .bool _, _ | .number _, _ | .string _, _ => by
    rw [unmixBody]
    all_goals simp
  | .array items, h => by
    rw [isUnmixedBody] at h
    rw [unmixBody, unmixItems_of_areUnmixedItems items h]
  | .object fields, h => by
    rw [isUnmixedBody, Bool.and_eq_true, Bool.or_eq_true, Bool.not_eq_true'] at h
    rw [unmixBody, unmixEntries_of_areUnmixed (hasOperator fields) fields h.2 h.1]

end

/-- Deleting changes a value exactly if something is mixed in it. -/
theorem unmix_eq_self_iff (v : Json) : unmix v = v ↔ isUnmixed v = true := by
  constructor
  · intro h
    rw [← h]
    exact isUnmixed_unmix v
  · exact unmix_of_isUnmixed v

theorem unmix_unmix (v : Json) : unmix (unmix v) = unmix v :=
  unmix_of_isUnmixed _ (isUnmixed_unmix v)

/-! ## Single items stay whole -/

mutual

/-- Flattening leaves a single body single. -/
theorem isSingle_flattenBody : ∀ v : Json, isSingle v = true → isSingle (flattenBody v) = true
  | .null, h | .bool _, h | .number _, h | .string _, h | .array _, h => by simp [isSingle] at h
  | .object fields, h => by
    rw [isSingle] at h
    rw [flattenBody, isSingle]
    exact isSingleOf_flattenEntries (hasOperator fields) fields h (Or.inr rfl)

theorem isSingleOf_flattenEntries :
    ∀ (shadowed : Bool) (fields : List (String × Json)), isSingleOf fields = true →
      (shadowed = false ∨ shadowed = hasOperator fields) →
      isSingleOf (flattenEntries shadowed fields) = true
  | _, [], h, _ | _, _ :: _ :: _, h, _ => by simp [isSingleOf] at h
  | shadowed, [(k, v)], h, hs => by
    rcases Key.isOperator_or_field k with hk | hk
    · obtain ⟨w, hw⟩ := flattenEntries_operator shadowed hk v
      rw [hw, isSingleOf]
      cases hkey : Key.ofString k with
      | field name =>
        rw [hkey] at hk
        exact Bool.noConfusion hk
      | comparison op => rfl
      | connective op => rfl
      | quantifier op => rfl
    · have hshadowed : shadowed = false := by
        rcases hs with hs | hs
        · exact hs
        · rw [hs, hasOperator, List.any_cons, List.any_nil, hk]
          rfl
      rw [isSingleOf, hk] at h
      rw [flattenEntries_field hk, hshadowed, if_neg Bool.false_ne_true, isSingleOf, hk]
      exact isSingle_flattenBody v h

end

theorem isSingle_flatten {v : Json} (h : isSingle v = true) : isSingle (flatten v) = true := by
  cases v with
  | object fields =>
    rw [isSingle] at h
    rw [flatten, isSingle]
    exact isSingleOf_flattenEntries false fields h (Or.inl rfl)
  | null | bool _ | number _ | string _ | array _ => simp [isSingle] at h

mutual

/-- In a filter of single items all that flattening does is to delete fields beside operators. -/
theorem flatten_eq_unmix {d : Dialect} (hw : ∀ op, d.wide op = false) :
    ∀ v : Json, isFilter d v = true → flatten v = unmix v
  | .null, h | .bool _, h | .number _, h | .string _, h | .array _, h => by simp [isFilter] at h
  | .object fields, h => by
    rw [flatten, unmix, flattenEntries_eq_unmixEntries hw false false fields (isFilter_object h).2]

theorem flattenEntries_eq_unmixEntries {d : Dialect} (hw : ∀ op, d.wide op = false) :
    ∀ (inner shadowed : Bool) (fields : List (String × Json)), areEntries d inner fields = true →
      flattenEntries shadowed fields = unmixEntries shadowed fields
  | _, _, [], _ => by rw [flattenEntries, unmixEntries]
  | inner, shadowed, (k, v) :: fields, h => by
    obtain ⟨hv, hfields⟩ := areEntries_cons h
    rw [flattenEntries, unmixEntries,
      flattenEntries_eq_unmixEntries hw inner shadowed fields hfields]
    congr 1
    cases hk : Key.ofString k with
    | comparison op => rfl
    | connective op =>
      cases op with
      | not => simp only [flatten_eq_unmix hw v (isFilter_of_areEntries_not hk hv)]
      | and | or =>
        have hlist := isItemList_of_areEntries hk (by simp) hv
        simp only [flattenArray_eq_unmix hw _ v hlist]
    | quantifier op =>
      simp only [flatten_eq_unmix hw v (isFilter_of_areEntries_quantifier hk hv)]
    | field name => simp only [flattenBody_eq_unmixBody hw v (isBody_of_areEntries hk hv)]

theorem flattenBody_eq_unmixBody {d : Dialect} (hw : ∀ op, d.wide op = false) :
    ∀ v : Json, isBody d v = true → flattenBody v = unmixBody v
  | .null, h | .bool _, h | .number _, h | .string _, h | .array _, h => by simp [isBody] at h
  | .object fields, h => by
    rw [flattenBody, unmixBody,
      flattenEntries_eq_unmixEntries hw true (hasOperator fields) fields (isBody_object h).2.1]

theorem flattenArray_eq_unmix {d : Dialect} (hw : ∀ op, d.wide op = false) (op : Connective) :
    ∀ v : Json, isItemList d op v = true → flattenArray v = unmix v
  | .null, h | .bool _, h | .number _, h | .string _, h | .object _, h => by
    simp [isItemList] at h
  | .array items, h => by
    rw [flattenArray, unmix, flattenItems_eq_unmixItems hw op items (isItemList_array h).2]

theorem flattenItems_eq_unmixItems {d : Dialect} (hw : ∀ op, d.wide op = false)
    (op : Connective) : ∀ vs : List Json, areItems d op vs = true → flattenItems vs = unmixItems vs
  | [], _ => by rw [flattenItems, unmixItems]
  | v :: vs, h => by
    obtain ⟨hv, hwide | hsingle, hvs⟩ := areItems_cons h
    · rw [hw op] at hwide
      exact Bool.noConfusion hwide
    -- a single item is its own only branch, so flattening does not cut it apart
    · obtain ⟨fields, hobject, hbranches⟩ := branches_of_isSingle _ (isSingle_flatten hsingle)
      rw [flattenItems, unmixItems, hbranches, flattenItems_eq_unmixItems hw op vs hvs,
        ← flatten_eq_unmix hw v hv, hobject]
      rfl

end

/-! ## Converting -/

theorem convert_eq (q : Json) :
    convert q = .null ∨ convert q = .object (Forest.toFields (outline [] q)) ∧
      Forest.toFields (outline [] q) ≠ [] := by
  have htree : Forest.toFields (toTree 1 q) = Forest.toFields (outline [] q) := by
    rw [Forest.toFields, toTree, Forest.toFieldsList_number]
    rfl
  by_cases hnil : Forest.toFields (outline [] q) = []
  · left
    rw [convert, Forest.toQuery?, htree, hnil]
    rfl
  · right
    rw [convert, Forest.toQuery?_of_ne_nil (by rwa [htree]), htree]
    exact ⟨rfl, hnil⟩

/-- What is written of a query is nothing, or a filter of single items. -/
theorem isFilter_convert {q : Json} (hd : q.DistinctKeys) :
    convert q = .null ∨ isFilter .written (convert q) = true ∧ (convert q).DistinctKeys := by
  rcases convert_eq q with hnull | ⟨hobject, hne⟩
  · exact Or.inl hnull
  · right
    rw [hobject]
    exact ⟨Forest.isFilter_toFields (hasPlainPaths_outline q) hne,
      Forest.distinctKeys_toFields (hasDistinctOperand_outline hd)⟩

/-- Converting again deletes the fields beside operators, and that is all. -/
theorem convert_convert_eq_unmix {q : Json} (hd : q.DistinctKeys) :
    convert (convert q) = unmix (convert q) ∧ (convert q).DistinctKeys := by
  rcases isFilter_convert hd with hnull | ⟨hfilter, hdistinct⟩
  · rw [hnull]
    exact ⟨rfl, trivial⟩
  · refine ⟨?_, hdistinct⟩
    rw [convert, toQuery?_toTree 1 hdistinct hfilter, Option.getD_some]
    exact flatten_eq_unmix (fun _ => rfl) _ hfilter

/-- A query changes in the first two conversions at most, and in the second only where a field and
an operator stand side by side in the body of a field: there the field is deleted. -/
theorem convert_convert (q : Json) (hd : q.DistinctKeys) :
    convert (convert q) = unmix (convert q) ∧
      convert (convert (convert q)) = convert (convert q) ∧
      (convert (convert q) = convert q ↔ isUnmixed (convert q) = true) := by
  obtain ⟨hsecond, hdistinct⟩ := convert_convert_eq_unmix hd
  have hthird := (convert_convert_eq_unmix hdistinct).1
  refine ⟨hsecond, ?_, ?_⟩
  · rw [hthird, hsecond, unmix_unmix]
  · rw [hsecond]
    exact unmix_eq_self_iff (convert q)

/-- An array whose items share the field `a`. -/
def sharedField : Json :=
  .array [
    .object [("a", .object [("$eq", .number (.int 1))])],
    .object [("a", .object [("b", .object [("$eq", .number (.int 2))])])]]

/-- The second conversion deletes `b`, which the first one has put beside `$eq`. -/
theorem convert_convert_sharedField :
    sharedField.DistinctKeys ∧ isUnmixed (convert sharedField) = false ∧
      convert (convert sharedField) =
        .object [("a", .object [("$eq", .number (.int 1))])] := by
  have hd : sharedField.DistinctKeys := by decide
  obtain ⟨hsecond, -, -⟩ := convert_convert sharedField hd
  refine ⟨hd, by decide, ?_⟩
  rw [hsecond]
  decide

end Query

end FilterTree
