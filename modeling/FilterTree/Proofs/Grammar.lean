import FilterTree.Query.Reading
import FilterTree.Proofs.Merge

/-!
# The grammar of filters

Which JSON values are filters without empty parts, in one definition for all dialects:
`Query.isFilter d`. A filter has *branches*, one for each operator key that is reached through
fields alone (`Query.branches`); it is *single* if it has no more than the one
(`Query.isSingle`). Dialects differ in whether the items of `$and` and `$or` have to be single, and
in whether a field may hold operators and fields side by side.

`Query.flatten` is what reading a filter and writing it back makes of it: every item of `$and` and
`$or` is cut into its branches, and a field beside operators is dropped.
-/

namespace FilterTree

namespace Query

/-! ## Branches -/

mutual

/-- The branches of a value, from first to last: the fields on the way to an operator, one inside
the other, around that operator alone. -/
def branches : Json → List Fields
  | .object fields => branchesOf fields
  | _ => []

def branchesOf : List (String × Json) → List Fields
  | [] => []
  | (k, v) :: fields =>
    (match Key.ofString k with
      | .field _ => (branches v).map (Fields.wrap k)
      | .comparison _ | .connective _ | .quantifier _ => [[(k, v)]]) ++ branchesOf fields

end

mutual

/-- Whether an object has one key and, if that is a field, its body too, and so on down to the
operator. -/
def isSingle : Json → Bool
  | .object fields => isSingleOf fields
  | _ => false

def isSingleOf : List (String × Json) → Bool
  | [(k, v)] =>
    match Key.ofString k with
    | .field _ => isSingle v
    | .comparison _ | .connective _ | .quantifier _ => true
  | _ => false

end

/-! ## Filters -/

/-- What a grammar of filters leaves open. -/
structure Dialect where
  /-- Whether the items of a connective may have several branches. -/
  wide : Connective → Bool
  /-- Whether a field may hold operators and fields side by side. -/
  mixed : Bool

namespace Dialect

/-- Every item is single, and operators stand apart from fields. -/
def canonical : Dialect where
  wide _ := false
  mixed := false

/-- As documented for users: the items of `$or` are filters of any width. -/
def documented : Dialect where
  wide op := op = .or
  mixed := false

end Dialect

/-- Whether every key of an object is an operator. -/
def hasOnlyOperators (fields : Fields) : Bool :=
  fields.all fun f => (Key.ofString f.1).isOperator

mutual

/-- Whether a value is a filter: an object that is not empty, of operators and fields. -/
def isFilter (d : Dialect) : Json → Bool
  | .object fields => !fields.isEmpty && areEntries d false fields
  | _ => false

/-- Whether the keys of a filter, or of the body of a field (`inner`), have the values they should
have: a comparison any value, `$not` and a quantifier a filter, `$and` and `$or` items, and a field
a body. A connective has no place in a body. -/
def areEntries (d : Dialect) (inner : Bool) : List (String × Json) → Bool
  | [] => true
  | (k, v) :: fields =>
    (match Key.ofString k with
      | .comparison _ => true
      | .connective op =>
        !inner && match op with
          | .not => isFilter d v
          | .and | .or => isItemList d op v
      | .quantifier _ => isFilter d v
      | .field _ => isBody d v) && areEntries d inner fields

/-- Whether a value can stand in a field: an object that is not empty, of comparisons and
quantifiers or else of fields. -/
def isBody (d : Dialect) : Json → Bool
  | .object fields =>
    !fields.isEmpty && areEntries d true fields &&
      (d.mixed || !hasOperator fields || hasOnlyOperators fields)
  | _ => false

/-- Whether a value is an array of items, with at least one. -/
def isItemList (d : Dialect) (op : Connective) : Json → Bool
  | .array items => !items.isEmpty && areItems d op items
  | _ => false

def areItems (d : Dialect) (op : Connective) : List Json → Bool
  | [] => true
  | v :: vs => isFilter d v && (d.wide op || isSingle v) && areItems d op vs

end

/-! ## What filters hold -/

section

variable {d : Dialect} {inner : Bool}

theorem isFilter_object {fields : Fields} (h : isFilter d (.object fields) = true) :
    fields ≠ [] ∧ areEntries d false fields = true := by
  rw [isFilter] at h
  simpa only [Bool.and_eq_true, Bool.not_eq_true', List.isEmpty_eq_false_iff] using h

/-- The entries of a filter, or of a body, one by one. -/
theorem areEntries_cons {f : String × Json} {fields : Fields}
    (h : areEntries d inner (f :: fields) = true) :
    areEntries d inner [f] = true ∧ areEntries d inner fields = true := by
  rw [areEntries, Bool.and_eq_true] at h
  rw [areEntries, areEntries, Bool.and_true]
  exact h

theorem areEntries_iff_forall {fields : Fields} :
    areEntries d inner fields = true ↔ ∀ f ∈ fields, areEntries d inner [f] = true := by
  induction fields with
  | nil => exact iff_of_true (by rw [areEntries]) fun f hf => absurd hf List.not_mem_nil
  | cons f fields ih =>
    constructor
    · intro h g hg
      obtain ⟨hf, hfields⟩ := areEntries_cons h
      rcases List.mem_cons.mp hg with rfl | hg
      · exact hf
      · exact ih.mp hfields g hg
    · intro h
      have hf := h f List.mem_cons_self
      have hfields := ih.mpr fun g hg => h g (List.mem_cons_of_mem _ hg)
      rw [areEntries, areEntries, Bool.and_true] at hf
      rw [areEntries, hf, hfields]
      rfl

theorem isBody_of_areEntries {k name : String} {v : Json} (hk : Key.ofString k = .field name)
    (h : areEntries d inner [(k, v)] = true) : isBody d v = true := by
  rw [areEntries, areEntries, Bool.and_true, hk] at h
  exact h

theorem isBody_object {fields : Fields} (h : isBody d (.object fields) = true) :
    fields ≠ [] ∧ areEntries d true fields = true ∧
      (d.mixed = true ∨ hasOperator fields = false ∨ hasOnlyOperators fields = true) := by
  rw [isBody] at h
  simp only [Bool.and_eq_true, Bool.or_eq_true, Bool.not_eq_true', List.isEmpty_eq_false_iff,
    or_assoc] at h
  exact ⟨h.1.1, h.1.2, h.2⟩

/-- Only an object is a body. -/
theorem exists_object_of_isBody {v : Json} (h : isBody d v = true) :
    ∃ fields, v = .object fields := by
  cases v with
  | object fields => exact ⟨fields, rfl⟩
  | null | bool _ | number _ | string _ | array _ => simp [isBody] at h

theorem isFilter_of_areEntries_not {k : String} {v : Json}
    (hk : Key.ofString k = .connective .not) (h : areEntries d inner [(k, v)] = true) :
    isFilter d v = true := by
  rw [areEntries, areEntries, Bool.and_true, hk] at h
  exact (Bool.and_eq_true_iff.mp h).2

theorem isFilter_of_areEntries_quantifier {k : String} {v : Json} {op : Quantifier}
    (hk : Key.ofString k = .quantifier op) (h : areEntries d inner [(k, v)] = true) :
    isFilter d v = true := by
  rw [areEntries, areEntries, Bool.and_true, hk] at h
  exact h

theorem isItemList_of_areEntries {k : String} {v : Json} {op : Connective}
    (hk : Key.ofString k = .connective op) (hop : op ≠ .not)
    (h : areEntries d inner [(k, v)] = true) : isItemList d op v = true := by
  rw [areEntries, areEntries, Bool.and_true, hk] at h
  cases op with
  | not => exact absurd rfl hop
  | and | or => exact (Bool.and_eq_true_iff.mp h).2

theorem isItemList_array {op : Connective} {items : List Json}
    (h : isItemList d op (.array items) = true) : items ≠ [] ∧ areItems d op items = true := by
  rw [isItemList] at h
  simpa only [Bool.and_eq_true, Bool.not_eq_true', List.isEmpty_eq_false_iff] using h

theorem areItems_cons {op : Connective} {v : Json} {vs : List Json}
    (h : areItems d op (v :: vs) = true) :
    isFilter d v = true ∧ (d.wide op = true ∨ isSingle v = true) ∧ areItems d op vs = true := by
  rw [areItems] at h
  simpa only [Bool.and_eq_true, Bool.or_eq_true, and_assoc] using h

end

/-! ## Flattening -/

mutual

/-- A filter with its items cut into branches and without the fields that operators shadow. -/
def flatten : Json → Json
  | .object fields => .object (flattenEntries false fields)
  | v => v

def flattenEntries (shadowed : Bool) : List (String × Json) → Fields
  | [] => []
  | (k, v) :: fields =>
    (match Key.ofString k with
      | .comparison _ => [(k, v)]
      | .connective op =>
        [(k, match op with
          | .not => flatten v
          | .and | .or => flattenArray v)]
      | .quantifier _ => [(k, flatten v)]
      | .field _ => if shadowed then [] else [(k, flattenBody v)]) ++
    flattenEntries shadowed fields

def flattenBody : Json → Json
  | .object fields => .object (flattenEntries (hasOperator fields) fields)
  | v => v

def flattenArray : Json → Json
  | .array items => .array (flattenItems items)
  | v => v

/-- The branches of all items, side by side. -/
def flattenItems : List Json → List Json
  | [] => []
  | v :: vs => (branches (flatten v)).map .object ++ flattenItems vs

end

end Query

end FilterTree
