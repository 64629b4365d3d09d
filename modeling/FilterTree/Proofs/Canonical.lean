import FilterTree.Proofs.Equivalence
import FilterTree.Proofs.RoundTrip

/-!
# Filters that come back as they were

A canonical filter is flat already, so reading it and writing it back gives it again, key order
included (`Query.toQuery?_toTree_canonical`). Of the filters that are documented these are the only
ones that come back (`Query.toQuery?_toTree_documented`): an item of `$or` with several branches is
cut into that many items.
-/

namespace FilterTree

namespace Query

variable {d : Dialect}

/-! ## Canonical filters are flat -/

/-- The keys of a body are all kept, unless operators and fields are mixed. -/
def Unshadowed (shadowed : Bool) (fields : Fields) : Prop :=
  shadowed = false ∨ hasOnlyOperators fields = true

theorem Unshadowed.tail {shadowed : Bool} {f : String × Json} {fields : Fields}
    (h : Unshadowed shadowed (f :: fields)) : Unshadowed shadowed fields := by
  rcases h with h | h
  · exact Or.inl h
  · rw [hasOnlyOperators, List.all_cons, Bool.and_eq_true] at h
    exact Or.inr h.2

/-- A field is never beside operators. -/
theorem Unshadowed.field {shadowed : Bool} {k name : String} {v : Json} {fields : Fields}
    (h : Unshadowed shadowed ((k, v) :: fields)) (hk : Key.ofString k = .field name) :
    shadowed = false := by
  rcases h with h | h
  · exact h
  · rw [hasOnlyOperators, List.all_cons, hk] at h
    exact absurd h Bool.false_ne_true

theorem Unshadowed.of_subset {shadowed : Bool} {fs fields : Fields}
    (h : Unshadowed shadowed fields) (hsub : fs ⊆ fields) : Unshadowed shadowed fs := by
  refine h.imp_right fun hall => ?_
  rw [hasOnlyOperators, List.all_eq_true] at hall ⊢
  exact fun f hf => hall f (hsub hf)

theorem Unshadowed.kept {shadowed : Bool} {f : String × Json} {fields : Fields}
    (h : Unshadowed shadowed fields) (hf : f ∈ fields) :
    (Key.ofString f.1).isOperator = true ∨ shadowed = false := by
  rcases h with h | h
  · exact Or.inr h
  · exact Or.inl (List.all_eq_true.mp h f hf)

/-- What a body holds where operators and fields are not mixed. -/
theorem isBody_unmixed {fields : Fields} (hm : d.mixed = false)
    (h : isBody d (.object fields) = true) :
    fields ≠ [] ∧ areEntries d true fields = true ∧ Unshadowed (hasOperator fields) fields := by
  obtain ⟨hne, he, hmixed | hnone | hall⟩ := isBody_object h
  · rw [hm] at hmixed
    exact absurd hmixed Bool.false_ne_true
  · exact ⟨hne, he, Or.inl hnone⟩
  · exact ⟨hne, he, Or.inr hall⟩

mutual

/-- A canonical filter is flat. -/
theorem flatten_canonical : ∀ v : Json, isFilter .canonical v = true → flatten v = v
  | .null, h | .bool _, h | .number _, h | .string _, h | .array _, h => by simp [isFilter] at h
  | .object fields, h => by
    rw [flatten,
      flattenEntries_canonical false false fields (isFilter_object h).2 (Or.inl rfl)]

theorem flattenEntries_canonical :
    ∀ (inner shadowed : Bool) (fields : List (String × Json)),
      areEntries .canonical inner fields = true → Unshadowed shadowed fields →
      flattenEntries shadowed fields = fields
  | _, _, [], _, _ => by rw [flattenEntries]
  | inner, shadowed, (k, v) :: fields, h, hs => by
    obtain ⟨hv, hfields⟩ := areEntries_cons h
    rw [flattenEntries, flattenEntries_canonical inner shadowed fields hfields hs.tail]
    cases hk : Key.ofString k with
    | comparison op => rfl
    | connective op =>
      cases op with
      | not => simp only [flatten_canonical v (isFilter_of_areEntries_not hk hv),
          List.singleton_append]
      | and | or =>
        have hlist := isItemList_of_areEntries hk (by simp) hv
        simp only [flattenArray_canonical _ v hlist, List.singleton_append]
    | quantifier op =>
      simp only [flatten_canonical v (isFilter_of_areEntries_quantifier hk hv),
        List.singleton_append]
    | field name =>
      simp only [hs.field hk, Bool.false_eq_true, if_false,
        flattenBody_canonical v (isBody_of_areEntries hk hv), List.singleton_append]

theorem flattenBody_canonical : ∀ v : Json, isBody .canonical v = true → flattenBody v = v
  | .null, h | .bool _, h | .number _, h | .string _, h | .array _, h => by simp [isBody] at h
  | .object fields, h => by
    obtain ⟨-, he, hs⟩ := isBody_unmixed rfl h
    rw [flattenBody, flattenEntries_canonical true (hasOperator fields) fields he hs]

theorem flattenArray_canonical (op : Connective) :
    ∀ v : Json, isItemList .canonical op v = true → flattenArray v = v
  | .null, h | .bool _, h | .number _, h | .string _, h | .object _, h => by
    simp [isItemList] at h
  | .array items, h => by
    rw [flattenArray, flattenItems_canonical op items (isItemList_array h).2]

/-- An item that is single is its own branch. -/
theorem flattenItems_canonical (op : Connective) :
    ∀ vs : List Json, areItems .canonical op vs = true → flattenItems vs = vs
  | [], _ => by rw [flattenItems]
  | v :: vs, h => by
    obtain ⟨hv, hwide | hsingle, hvs⟩ := areItems_cons h
    · exact absurd hwide Bool.false_ne_true
    · obtain ⟨fields, hobject, hbranches⟩ := branches_of_isSingle v hsingle
      rw [flattenItems, flatten_canonical v hv, hbranches, flattenItems_canonical op vs hvs,
        hobject]
      rfl

end

/-- Reading a canonical filter and writing it back gives the filter, with all keys in order. -/
theorem toQuery?_toTree_canonical (first : NodeId) (q : Json) (hd : q.DistinctKeys)
    (hq : isFilter .canonical q = true) : Forest.toQuery? (toTree first q) = some q := by
  rw [toQuery?_toTree first hd hq, flatten_canonical q hq]

/-- A canonical filter with all kinds of keys:
`{"$and": [{"a": {"b": {"$gte": 1}}}, {"$or": [{"c": {"$eq": null}}]}],
"$not": {"d": {"$lt": 5, "$gt": 2}, "e": {"f": {"$ne": "g"}}},
"tags": {"$some": {"name": {"$in": ["u", "v"]}}}}`. -/
def ofAllKinds : Json :=
  .object [
    ("$and", .array [
      .object [("a", .object [("b", .object [("$gte", .number (.int 1))])])],
      .object [("$or", .array [.object [("c", .object [("$eq", .null)])]])]]),
    ("$not", .object [
      ("d", .object [("$lt", .number (.int 5)), ("$gt", .number (.int 2))]),
      ("e", .object [("f", .object [("$ne", .string "g")])])]),
    ("tags", .object [
      ("$some", .object [("name", .object [("$in", .array [.string "u", .string "v"])])])])]

theorem toQuery?_toTree_ofAllKinds :
    ofAllKinds.DistinctKeys ∧ isFilter .canonical ofAllKinds = true ∧
      Forest.toQuery? (toTree 7 ofAllKinds) = some ofAllKinds := by
  have hd : ofAllKinds.DistinctKeys := by decide
  have hq : isFilter .canonical ofAllKinds = true := by decide
  exact ⟨hd, hq, toQuery?_toTree_canonical 7 ofAllKinds hd hq⟩

/-! ## Filters that are not canonical -/

mutual

/-- A body of which the flattened form has one branch is single. -/
theorem isSingle_of_branches (hm : d.mixed = false) :
    ∀ v : Json, isBody d v = true → (branches (flattenBody v)).length = 1 → isSingle v = true
  | .null, h, _ | .bool _, h, _ | .number _, h, _ | .string _, h, _ | .array _, h, _ => by
    simp [isBody] at h
  | .object fields, h, hlen => by
    obtain ⟨hne, he, hs⟩ := isBody_unmixed hm h
    rw [flattenBody, branches] at hlen
    rw [isSingle]
    exact isSingleOf_of_branchesOf hm true (hasOperator fields) fields hne he hs hlen

theorem isSingleOf_of_branchesOf (hm : d.mixed = false) :
    ∀ (inner shadowed : Bool) (fields : List (String × Json)), fields ≠ [] →
      areEntries d inner fields = true → Unshadowed shadowed fields →
      (branchesOf (flattenEntries shadowed fields)).length = 1 → isSingleOf fields = true
  | _, _, [], hne, _, _, _ => absurd rfl hne
  | inner, shadowed, [(k, v)], _, h, hs, hlen => by
    rw [isSingleOf]
    cases hk : Key.ofString k with
    | comparison op => rfl
    | connective op => rfl
    | quantifier op => rfl
    | field name =>
      rw [flattenEntries_field hk, if_neg (by rw [hs.field hk]; exact Bool.false_ne_true),
        branchesOf_field hk, List.length_map] at hlen
      exact isSingle_of_branches hm v (isBody_of_areEntries hk h) hlen
  | inner, shadowed, f :: g :: fields, _, h, hs, hlen => by
    -- two keys have a branch each
    obtain ⟨hf, hrest⟩ := areEntries_cons h
    have hone : branchesOf (flattenEntries shadowed [f]) ≠ [] :=
      branchesOf_flattenEntries_ne_nil inner shadowed [f] hf
        ⟨f, List.mem_cons_self, hs.kept List.mem_cons_self⟩
    have hmore : branchesOf (flattenEntries shadowed (g :: fields)) ≠ [] :=
      branchesOf_flattenEntries_ne_nil inner shadowed (g :: fields) hrest
        ⟨g, List.mem_cons_self, hs.tail.kept List.mem_cons_self⟩
    rw [flattenEntries_cons, branchesOf_append, List.length_append] at hlen
    have := List.length_pos_iff.mpr hone
    have := List.length_pos_iff.mpr hmore
    omega

end

/-- A filter of which the flattened form has one branch is single, and that branch is all of it. -/
theorem isSingle_of_branches_flatten (hm : d.mixed = false) {v : Json} (h : isFilter d v = true)
    (hd : v.DistinctKeys) {b : Fields} (hb : branches (flatten v) = [b]) :
    isSingle v = true ∧ flatten v = .object b := by
  obtain ⟨hmerge, -⟩ := mergeAll_branches_flatten h hd
  cases v with
  | object fields =>
    obtain ⟨hne, he⟩ := isFilter_object h
    have hmem : b ∈ branchesOf (flattenEntries false fields) := by
      rw [flatten, branches] at hb
      rw [hb]
      exact List.mem_singleton_self b
    rw [hb, Fields.mergeAll_singleton (keys_nodup_of_mem_branchesOf hmem)] at hmerge
    refine ⟨?_, hmerge⟩
    rw [flatten, branches] at hb
    rw [isSingle]
    exact isSingleOf_of_branchesOf hm false false fields hne he (Or.inl rfl) (by rw [hb]; rfl)
  | null | bool _ | number _ | string _ | array _ => simp [isFilter] at h

/-- Flattening makes no array shorter. -/
theorem length_le_flattenItems {op : Connective} :
    ∀ {vs : List Json}, areItems d op vs = true → vs.length ≤ (flattenItems vs).length
  | [], _ => Nat.zero_le _
  | v :: vs, h => by
    obtain ⟨hv, -, hvs⟩ := areItems_cons h
    have := List.length_pos_iff.mpr (branches_flatten_ne_nil hv)
    have := length_le_flattenItems hvs
    rw [flattenItems, List.length_append, List.length_map, List.length_cons]
    omega

mutual

/-- A filter that is equivalent to its flattened form is canonical. -/
theorem isFilter_canonical_of_equiv (hm : d.mixed = false) :
    ∀ v : Json, isFilter d v = true → v.DistinctKeys → (flatten v).equiv v = true →
      isFilter .canonical v = true
  | .null, h, _, _ | .bool _, h, _, _ | .number _, h, _, _ | .string _, h, _, _
  | .array _, h, _, _ => by simp [isFilter] at h
  | .object fields, h, hd, heq => by
    obtain ⟨hne, he⟩ := isFilter_object h
    rw [flatten, Json.equiv, Bool.and_eq_true] at heq
    rw [isFilter, areEntries_canonical_of_within hm false false fields fields he (Or.inl rfl) hd.2
      (fun f hf => Fields.get?_of_mem hd.1 hf) heq.2, Bool.and_true, Bool.not_eq_true',
      List.isEmpty_eq_false_iff]
    exact hne

theorem areEntries_canonical_of_within (hm : d.mixed = false) :
    ∀ (inner shadowed : Bool) (all : Fields) (fields : List (String × Json)),
      areEntries d inner fields = true → Unshadowed shadowed fields →
      Json.DistinctKeysFields fields → (∀ f ∈ fields, all.get? f.1 = some f.2) →
      Json.fieldsWithin (flattenEntries shadowed fields) all = true →
      areEntries .canonical inner fields = true
  | _, _, _, [], _, _, _, _, _ => by rw [areEntries]
  | inner, shadowed, all, (k, v) :: fields, h, hs, hd, hget, hwithin => by
    obtain ⟨hv, hfields⟩ := areEntries_cons h
    have hk : all.get? k = some v := hget (k, v) List.mem_cons_self
    have hrest := areEntries_canonical_of_within hm inner shadowed all fields hfields hs.tail hd.2
      fun f hf => hget f (List.mem_cons_of_mem _ hf)
    rw [areEntries, Bool.and_eq_true]
    rw [flattenEntries] at hwithin
    cases hkey : Key.ofString k with
    | comparison op =>
      rw [hkey] at hwithin
      exact ⟨rfl, hrest (Json.fieldsWithin_cons hk hwithin).2⟩
    | connective op =>
      rw [hkey] at hwithin
      obtain ⟨heq, hwithin⟩ := Json.fieldsWithin_cons hk hwithin
      refine ⟨?_, hrest hwithin⟩
      rw [areEntries, areEntries, Bool.and_true, hkey] at hv
      simp only [Bool.and_eq_true] at hv ⊢
      refine ⟨hv.1, ?_⟩
      cases op with
      | not => exact isFilter_canonical_of_equiv hm v hv.2 hd.1 heq
      | and | or => exact isItemList_canonical_of_equiv hm _ v hv.2 hd.1 heq
    | quantifier op =>
      rw [hkey] at hwithin
      obtain ⟨heq, hwithin⟩ := Json.fieldsWithin_cons hk hwithin
      have hfilter := isFilter_of_areEntries_quantifier hkey hv
      exact ⟨isFilter_canonical_of_equiv hm v hfilter hd.1 heq, hrest hwithin⟩
    | field name =>
      rw [hkey] at hwithin
      simp only [hs.field hkey, Bool.false_eq_true, if_false] at hwithin hrest
      obtain ⟨heq, hwithin⟩ := Json.fieldsWithin_cons hk hwithin
      have hbody := isBody_of_areEntries hkey hv
      exact ⟨isBody_canonical_of_equiv hm v hbody hd.1 heq, hrest hwithin⟩

theorem isBody_canonical_of_equiv (hm : d.mixed = false) :
    ∀ v : Json, isBody d v = true → v.DistinctKeys → (flattenBody v).equiv v = true →
      isBody .canonical v = true
  | .null, h, _, _ | .bool _, h, _, _ | .number _, h, _, _ | .string _, h, _, _
  | .array _, h, _, _ => by simp [isBody] at h
  | .object fields, h, hd, heq => by
    obtain ⟨hne, he, hs⟩ := isBody_unmixed hm h
    rw [flattenBody, Json.equiv, Bool.and_eq_true] at heq
    have hcanonical := areEntries_canonical_of_within hm true (hasOperator fields) fields fields he
      hs hd.2 (fun f hf => Fields.get?_of_mem hd.1 hf) heq.2
    rw [isBody, hcanonical, Bool.and_true, Bool.and_eq_true, Bool.not_eq_true',
      List.isEmpty_eq_false_iff]
    refine ⟨hne, ?_⟩
    rcases hs with hs | hs <;> rw [hs]
    · rfl
    · exact Bool.or_true _

theorem isItemList_canonical_of_equiv (hm : d.mixed = false) (op : Connective) :
    ∀ v : Json, isItemList d op v = true → v.DistinctKeys → (flattenArray v).equiv v = true →
      isItemList .canonical op v = true
  | .null, h, _, _ | .bool _, h, _, _ | .number _, h, _, _ | .string _, h, _, _
  | .object _, h, _, _ => by simp [isItemList] at h
  | .array items, h, hd, heq => by
    obtain ⟨hne, hitems⟩ := isItemList_array h
    rw [flattenArray, Json.equiv] at heq
    rw [isItemList, areItems_canonical_of_equiv hm op items hitems hd heq, Bool.and_true,
      Bool.not_eq_true', List.isEmpty_eq_false_iff]
    exact hne

/-- Equivalent arrays have as many items, so no item was cut. -/
theorem areItems_canonical_of_equiv (hm : d.mixed = false) (op : Connective) :
    ∀ vs : List Json, areItems d op vs = true → Json.DistinctKeysList vs →
      Json.equivList (flattenItems vs) vs = true → areItems .canonical op vs = true
  | [], _, _, _ => by rw [areItems]
  | v :: vs, h, hd, heq => by
    obtain ⟨hv, -, hvs⟩ := areItems_cons h
    have hlen := Json.length_eq_of_equivList heq
    rw [flattenItems, List.length_append, List.length_map, List.length_cons] at hlen
    have hone : (branches (flatten v)).length = 1 := by
      have := List.length_pos_iff.mpr (branches_flatten_ne_nil hv)
      have := length_le_flattenItems hvs
      omega
    obtain ⟨b, hb⟩ := List.length_eq_one_iff.mp hone
    obtain ⟨hsingle, hflat⟩ := isSingle_of_branches_flatten hm hv hd.1 hb
    rw [flattenItems, hb, List.map_singleton, List.singleton_append, ← hflat, Json.equivList,
      Bool.and_eq_true] at heq
    rw [areItems, isFilter_canonical_of_equiv hm v hv hd.1 heq.1, hsingle,
      areItems_canonical_of_equiv hm op vs hvs hd.2 heq.2, Bool.or_true]
    rfl

end

/-- A documented filter comes back with the items of `$or` cut into their branches. That is the
filter again, up to the order of keys, if it is canonical and only then. -/
theorem toQuery?_toTree_documented (first : NodeId) (q : Json) (hd : q.DistinctKeys)
    (hq : isFilter .documented q = true) :
    Forest.toQuery? (toTree first q) = some (flatten q) ∧
      ((flatten q).equiv q = true ↔ isFilter .canonical q = true) := by
  refine ⟨toQuery?_toTree first hd hq, ?_, ?_⟩
  · exact isFilter_canonical_of_equiv rfl q hq hd
  · intro hcanonical
    rw [flatten_canonical q hcanonical]
    exact Json.equiv_refl q hd

/-- A conjunction as an item of `$or`: `{"$or": [{"a": {"$eq": 1}, "b": {"$eq": 2}}]}`. -/
def pairInOr : Json :=
  .object [("$or", .array [.object [
    ("a", .object [("$eq", .number (.int 1))]), ("b", .object [("$eq", .number (.int 2))])]])]

theorem toQuery?_toTree_pairInOr :
    pairInOr.DistinctKeys ∧ isFilter .documented pairInOr = true ∧
      Forest.toQuery? (toTree 1 pairInOr) = some (flatten pairInOr) ∧
      ((flatten pairInOr).equiv pairInOr = true ↔ isFilter .canonical pairInOr = true) := by
  have hd : pairInOr.DistinctKeys := by decide
  have hq : isFilter .documented pairInOr = true := by decide
  exact ⟨hd, hq, toQuery?_toTree_documented 1 pairInOr hd hq⟩

/-- Not every documented filter comes back: the conjunction in `$or` becomes a disjunction. -/
theorem not_equiv_of_documented :
    ¬ ∀ q : Json, q.DistinctKeys → isFilter .documented q = true →
      ∃ r, Forest.toQuery? (toTree 1 q) = some r ∧ r.equiv q = true := by
  intro h
  obtain ⟨r, hr, hequiv⟩ := h pairInOr (by decide) (by decide)
  have hback : Forest.toQuery? (toTree 1 pairInOr) = some (.object [("$or", .array [
      .object [("a", .object [("$eq", .number (.int 1))])],
      .object [("b", .object [("$eq", .number (.int 2))])]])]) := by decide
  rw [hback, Option.some.injEq] at hr
  rw [← hr] at hequiv
  exact absurd hequiv (by decide)

end Query

end FilterTree
