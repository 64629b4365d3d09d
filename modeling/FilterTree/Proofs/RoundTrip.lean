import FilterTree.Proofs.Operand
import FilterTree.Proofs.Paths
import FilterTree.Proofs.Slots
import FilterTree.Proofs.Branches

/-!
# Reading a filter and writing it back

The nodes of a filter are written as the branches of its flattened form
(`Query.toFieldsList_outline`), so the whole is written as that form (`Query.toQuery?_toTree`).
-/

namespace FilterTree

variable {ι : Type}

/-! ## Writing forests -/

theorem Forest.toFieldsList_singleton (n : Node ι) : Forest.toFieldsList [n] = [n.toFields] := rfl

/-- A negation is written as its merged children, if there is anything to write. -/
theorem Node.toFields_not (i : ι) {ns : Forest ι}
    (h : Fields.mergeAll (Forest.toFieldsList ns) ≠ []) :
    (Node.logical i .not ns).toFields =
      [(Connective.not.symbol, .object (Fields.mergeAll (Forest.toFieldsList ns)))] := by
  rw [Node.toFields]
  exact if_neg fun hempty => h (List.isEmpty_iff.mp hempty)

/-- A conjunction or disjunction is written as the array of its children, if each of them writes
something. -/
theorem Node.toFields_junction (i : ι) {op : Connective} (hop : op ≠ .not) {ns : Forest ι}
    (hne : Forest.toFieldsList ns ≠ []) (h : ∀ o ∈ Forest.toFieldsList ns, o ≠ []) :
    (Node.logical i op ns).toFields =
      [(op.symbol, .array ((Forest.toFieldsList ns).map .object))] := by
  have hall : (Forest.toFieldsList ns).filter (!·.isEmpty) = Forest.toFieldsList ns :=
    List.filter_eq_self.mpr fun o ho => by
      rw [Bool.not_eq_true', List.isEmpty_eq_false_iff]
      exact h o ho
  cases op with
  | not => exact absurd rfl hop
  | and | or =>
    rw [Node.toFields]
    simp only [hall]
    exact if_neg fun hempty => hne (List.isEmpty_iff.mp hempty)

theorem Node.toFields_embedded (i : ι) (path : Path) (op : Quantifier) {ns : Forest ι}
    (h : Fields.mergeAll (Forest.toFieldsList ns) ≠ []) :
    (Node.embedded i path op ns).toFields =
      Fields.nest path [(op.symbol, .object (Fields.mergeAll (Forest.toFieldsList ns)))] := by
  rw [Node.toFields]
  exact if_neg fun hempty => h (List.isEmpty_iff.mp hempty)

namespace Query

variable {d : Dialect}

/-! ## Roots in the body of a field -/

mutual

/-- A body has no connective, and so no logical node. -/
theorem kind_outlineBody (path : Path) :
    ∀ v : Json, isBody d v = true → ∀ n ∈ outlineBody path v, n.kind ≠ .logical
  | .null, h | .bool _, h | .number _, h | .string _, h | .array _, h => by simp [isBody] at h
  | .object fields, h => by
    rw [outlineBody]
    exact kind_outlineFields path (hasOperator fields) fields (isBody_object h).2.1

theorem kind_outlineFields (path : Path) (shadowed : Bool) :
    ∀ fields : List (String × Json), areEntries d true fields = true →
      ∀ n ∈ outlineFields path shadowed fields, n.kind ≠ .logical
  | [], _ => by
    rw [outlineFields]
    exact fun n hn => absurd hn List.not_mem_nil
  | (k, v) :: fields, h => by
    obtain ⟨hv, hfields⟩ := areEntries_cons h
    intro n hn
    rw [outlineFields, List.mem_append] at hn
    rcases hn with hn | hn
    · cases hk : Key.ofString k with
      | comparison op =>
        rw [hk] at hn
        rw [List.mem_singleton.mp hn]
        exact NodeKind.noConfusion
      | connective op => simp [areEntries, hk] at hv
      | quantifier op =>
        rw [hk] at hn
        rw [List.mem_singleton.mp hn]
        exact NodeKind.noConfusion
      | field name =>
        rw [hk] at hn
        cases shadowed with
        | true => exact absurd hn List.not_mem_nil
        | false => exact kind_outlineBody _ v (isBody_of_areEntries hk hv) n hn
    · exact kind_outlineFields path shadowed fields hfields n hn

end

/-! ## Filters that are not empty -/

/-- Merging the branches of a flattened filter gives the filter, which is not empty. -/
theorem mergeAll_branches_flatten {v : Json} (h : isFilter d v = true) (hd : v.DistinctKeys) :
    flatten v = .object (Fields.mergeAll (branches (flatten v))) ∧
      Fields.mergeAll (branches (flatten v)) ≠ [] := by
  have hproper := isProper_flatten h hd
  exact ⟨mergeAll_branches _ hproper, hproper.mergeAll_ne_nil⟩

theorem ne_nil_of_mem_branches {o : Fields} {v : Json} (h : o ∈ branches v) : o ≠ [] := by
  cases v with
  | object fields => exact ne_nil_of_mem_branchesOf h
  | null | bool _ | number _ | string _ | array _ => simp [branches] at h

/-- The items of a flattened array are the branches of its items. -/
theorem flattenItems_eq_map (vs : List Json) :
    flattenItems vs = (vs.flatMap (branches ∘ flatten)).map .object := by
  induction vs with
  | nil => rw [flattenItems, List.flatMap_nil, List.map_nil]
  | cons v vs ih =>
    rw [flattenItems, ih, List.flatMap_cons, List.map_append, Function.comp_apply]

theorem flatMap_branches_ne_nil {op : Connective} {items : List Json} (hne : items ≠ [])
    (h : areItems d op items = true) : items.flatMap (branches ∘ flatten) ≠ [] := by
  cases items with
  | nil => exact absurd rfl hne
  | cons v vs =>
    rw [List.flatMap_cons]
    exact fun hnil => branches_flatten_ne_nil (areItems_cons h).1 (List.append_eq_nil_iff.mp hnil).1

/-! ## Single keys -/

section

variable {k : String} {v : Json}

theorem toFieldsList_comparison {op : Comparison} (hk : Key.ofString k = .comparison op) :
    Forest.toFieldsList [.condition () [] op (.ofJson v)] = branchesOf [(k, v)] := by
  have htext := Key.text_ofString k
  rw [hk] at htext
  rw [branchesOf_operator (by rw [hk]; rfl), Forest.toFieldsList_singleton, Node.toFields,
    Operand.toJson_ofJson, ← htext]
  rfl

theorem toFieldsList_not (hk : Key.ofString k = .connective .not) (hv : isFilter d v = true)
    (hd : v.DistinctKeys)
    (hread : Forest.toFieldsList (outline [] v) = branches (flatten v)) :
    Forest.toFieldsList [.logical () .not (outline [] v)] = branchesOf [(k, flatten v)] := by
  have htext := Key.text_ofString k
  rw [hk] at htext
  obtain ⟨hmerge, hne⟩ := mergeAll_branches_flatten hv hd
  rw [branchesOf_operator (by rw [hk]; rfl), Forest.toFieldsList_singleton, ← htext,
    Node.toFields_not () (by rwa [hread]), hread, ← hmerge]
  rfl

theorem toFieldsList_junction {op : Connective} (hk : Key.ofString k = .connective op)
    (hop : op ≠ .not)
    (hflat : flattenArray v = .array ((Forest.toFieldsList (outline [] v)).map .object))
    (hne : Forest.toFieldsList (outline [] v) ≠ [])
    (hall : ∀ o ∈ Forest.toFieldsList (outline [] v), o ≠ []) :
    Forest.toFieldsList [.logical () op (outline [] v)] = branchesOf [(k, flattenArray v)] := by
  have htext := Key.text_ofString k
  rw [hk] at htext
  rw [branchesOf_operator (by rw [hk]; rfl), Forest.toFieldsList_singleton, ← htext,
    Node.toFields_junction () hop hne hall, ← hflat]
  rfl

theorem toFieldsList_quantifier {op : Quantifier} (hk : Key.ofString k = .quantifier op)
    (hv : isFilter d v = true) (hd : v.DistinctKeys)
    (hread : Forest.toFieldsList (outline [] v) = branches (flatten v)) :
    Forest.toFieldsList [.embedded () [] op (outline [] v)] = branchesOf [(k, flatten v)] := by
  have htext := Key.text_ofString k
  rw [hk] at htext
  obtain ⟨hmerge, hne⟩ := mergeAll_branches_flatten hv hd
  rw [branchesOf_operator (by rw [hk]; rfl), Forest.toFieldsList_singleton, ← htext,
    Node.toFields_embedded () [] op (by rwa [hread]), hread, ← hmerge]
  rfl

/-- A field goes around each of the branches of its body. -/
theorem toFieldsList_field {name : String} (hk : Key.ofString k = .field name)
    (hv : isBody d v = true)
    (hread : Forest.toFieldsList (outlineBody [] v) = branches (flattenBody v)) :
    Forest.toFieldsList (outlineBody [name] v) = branchesOf [(k, flattenBody v)] := by
  have hunder := outlineBody_append [name] [] v
  rw [List.append_nil] at hunder
  rw [branchesOf_field hk, ← hread, ← Key.name_of_ofString hk, hunder]
  refine Forest.toFieldsList_under [name] (kind_outlineBody [] v hv) fun o ho => ?_
  rw [hread] at ho
  exact ne_nil_of_mem_branches ho

end

/-! ## The main induction -/

mutual

/-- The nodes of a filter are written as the branches of its flattened form. -/
theorem toFieldsList_outline :
    ∀ v : Json, isFilter d v = true → v.DistinctKeys →
      Forest.toFieldsList (outline [] v) = branches (flatten v)
  | .null, h, _ | .bool _, h, _ | .number _, h, _ | .string _, h, _ | .array _, h, _ => by
    simp [isFilter] at h
  | .object fields, h, hd => by
    rw [outline, flatten, branches]
    exact toFieldsList_outlineFields false false fields (isFilter_object h).2 hd.2

/-- The items of `$and` and `$or` are written apart, branch by branch. -/
theorem toFieldsList_outlineArray (op : Connective) :
    ∀ v : Json, isItemList d op v = true → v.DistinctKeys →
      flattenArray v = .array ((Forest.toFieldsList (outline [] v)).map .object) ∧
        Forest.toFieldsList (outline [] v) ≠ [] ∧
        ∀ o ∈ Forest.toFieldsList (outline [] v), o ≠ []
  | .null, h, _ | .bool _, h, _ | .number _, h, _ | .string _, h, _ | .object _, h, _ => by
    simp [isItemList] at h
  | .array items, h, hd => by
    obtain ⟨hne, hitems⟩ := isItemList_array h
    rw [flattenArray, outline, toFieldsList_outlineItems op items hitems hd, flattenItems_eq_map]
    refine ⟨rfl, flatMap_branches_ne_nil hne hitems, ?_⟩
    intro o ho
    obtain ⟨v, -, hov⟩ := List.mem_flatMap.mp ho
    exact ne_nil_of_mem_branches hov

theorem toFieldsList_outlineItems (op : Connective) :
    ∀ vs : List Json, areItems d op vs = true → Json.DistinctKeysList vs →
      Forest.toFieldsList (outlineItems [] vs) = vs.flatMap (branches ∘ flatten)
  | [], _, _ => by
    rw [outlineItems]
    rfl
  | v :: vs, h, hd => by
    obtain ⟨hv, -, hvs⟩ := areItems_cons h
    rw [outlineItems, Forest.toFieldsList_append, List.flatMap_cons,
      toFieldsList_outline v hv hd.1, toFieldsList_outlineItems op vs hvs hd.2]
    rfl

theorem toFieldsList_outlineFields :
    ∀ (inner shadowed : Bool) (fields : List (String × Json)), areEntries d inner fields = true →
      Json.DistinctKeysFields fields →
      Forest.toFieldsList (outlineFields [] shadowed fields) =
        branchesOf (flattenEntries shadowed fields)
  | _, _, [], _, _ => by
    rw [outlineFields, flattenEntries, branchesOf]
    rfl
  | inner, shadowed, (k, v) :: fields, h, hd => by
    obtain ⟨hv, hfields⟩ := areEntries_cons h
    rw [outlineFields, flattenEntries, Forest.toFieldsList_append, branchesOf_append,
      toFieldsList_outlineFields inner shadowed fields hfields hd.2]
    congr 1
    cases hk : Key.ofString k with
    | comparison op => exact toFieldsList_comparison hk
    | connective op =>
      cases op with
      | not =>
        have hfilter := isFilter_of_areEntries_not hk hv
        exact toFieldsList_not hk hfilter hd.1 (toFieldsList_outline v hfilter hd.1)
      | and | or =>
        have hlist := isItemList_of_areEntries hk (by simp) hv
        obtain ⟨hflat, hne, hall⟩ := toFieldsList_outlineArray _ v hlist hd.1
        exact toFieldsList_junction hk (by simp) hflat hne hall
    | quantifier op =>
      have hfilter := isFilter_of_areEntries_quantifier hk hv
      exact toFieldsList_quantifier hk hfilter hd.1 (toFieldsList_outline v hfilter hd.1)
    | field name =>
      cases shadowed with
      | true =>
        simp only [if_true]
        rw [branchesOf]
        rfl
      | false =>
        have hbody := isBody_of_areEntries hk hv
        exact toFieldsList_field hk hbody (toFieldsList_outlineBody v hbody hd.1)

theorem toFieldsList_outlineBody :
    ∀ v : Json, isBody d v = true → v.DistinctKeys →
      Forest.toFieldsList (outlineBody [] v) = branches (flattenBody v)
  | .null, h, _ | .bool _, h, _ | .number _, h, _ | .string _, h, _ | .array _, h, _ => by
    simp [isBody] at h
  | .object fields, h, hd => by
    rw [outlineBody, flattenBody, branches]
    exact toFieldsList_outlineFields true (hasOperator fields) fields (isBody_object h).2.1 hd.2

end

/-- Reading a filter and writing it back flattens it. -/
theorem toQuery?_toTree (first : NodeId) {q : Json} (hd : q.DistinctKeys)
    (hq : isFilter d q = true) : Forest.toQuery? (toTree first q) = some (flatten q) := by
  obtain ⟨hmerge, hne⟩ := mergeAll_branches_flatten hq hd
  rw [Forest.toQuery?, Forest.toFields, toTree, Forest.toFieldsList_number,
    toFieldsList_outline q hq hd]
  rw [if_neg fun hempty => hne (List.isEmpty_iff.mp hempty), ← hmerge]

end Query

end FilterTree
