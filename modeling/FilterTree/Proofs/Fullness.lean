import FilterTree.Proofs.Output

/-!
# Nothing empty is written

A filter has no empty part, whatever its dialect: no object and no array outside the values of
comparisons is empty (`Query.isFull_of_isFilter`). So what a forest with plain paths writes is
nothing at all, or a filter of single items in which nothing is empty
(`Forest.toQuery?_eq_none_or_isFilter`).
-/

namespace FilterTree

namespace Query

mutual

/-- Whether no object and no array is empty, outside the values of comparisons. -/
def isFull : Json → Bool
  | .array items => !items.isEmpty && areFullItems items
  | .object fields => !fields.isEmpty && areFull fields
  | _ => true

def areFullItems : List Json → Bool
  | [] => true
  | v :: vs => isFull v && areFullItems vs

def areFull : List (String × Json) → Bool
  | [] => true
  | (k, v) :: fields =>
    (match Key.ofString k with
      | .comparison _ => true
      | .connective _ | .quantifier _ | .field _ => isFull v) && areFull fields

end

theorem isFull_object {fields : Fields} (hne : fields ≠ []) (h : areFull fields = true) :
    isFull (.object fields) = true := by
  rw [isFull, h, Bool.and_true, Bool.not_eq_true', List.isEmpty_eq_false_iff]
  exact hne

mutual

/-- A filter has no empty part. -/
theorem isFull_of_isFilter {d : Dialect} : ∀ v : Json, isFilter d v = true → isFull v = true
  | .null, h | .bool _, h | .number _, h | .string _, h | .array _, h => by simp [isFilter] at h
  | .object fields, h => by
    obtain ⟨hne, he⟩ := isFilter_object h
    exact isFull_object hne (areFull_of_areEntries false fields he)

theorem areFull_of_areEntries {d : Dialect} :
    ∀ (inner : Bool) (fields : List (String × Json)),
      areEntries d inner fields = true → areFull fields = true
  | _, [], _ => by rw [areFull]
  | inner, (k, v) :: fields, h => by
    obtain ⟨hv, hfields⟩ := areEntries_cons h
    rw [areFull, areFull_of_areEntries inner fields hfields, Bool.and_true]
    cases hk : Key.ofString k with
    | comparison op => rfl
    | connective op =>
      cases op with
      | not => exact isFull_of_isFilter v (isFilter_of_areEntries_not hk hv)
      | and | or => exact isFull_of_isItemList _ v (isItemList_of_areEntries hk (by simp) hv)
    | quantifier op => exact isFull_of_isFilter v (isFilter_of_areEntries_quantifier hk hv)
    | field name => exact isFull_of_isBody v (isBody_of_areEntries hk hv)

theorem isFull_of_isBody {d : Dialect} : ∀ v : Json, isBody d v = true → isFull v = true
  | .null, h | .bool _, h | .number _, h | .string _, h | .array _, h => by simp [isBody] at h
  | .object fields, h => by
    obtain ⟨hne, he, -⟩ := isBody_object h
    exact isFull_object hne (areFull_of_areEntries true fields he)

theorem isFull_of_isItemList {d : Dialect} (op : Connective) :
    ∀ v : Json, isItemList d op v = true → isFull v = true
  | .null, h | .bool _, h | .number _, h | .string _, h | .object _, h => by
    simp [isItemList] at h
  | .array items, h => by
    obtain ⟨hne, hitems⟩ := isItemList_array h
    rw [isFull, areFullItems_of_areItems op items hitems, Bool.and_true, Bool.not_eq_true',
      List.isEmpty_eq_false_iff]
    exact hne

theorem areFullItems_of_areItems {d : Dialect} (op : Connective) :
    ∀ vs : List Json, areItems d op vs = true → areFullItems vs = true
  | [] => fun _ => by rw [areFullItems]
  | v :: vs => by
    intro h
    obtain ⟨hv, -, hvs⟩ := areItems_cons h
    rw [areFullItems, isFull_of_isFilter v hv, areFullItems_of_areItems op vs hvs]
    rfl

end

end Query

namespace Forest

variable {ι : Type}

/-- What is written of a forest with plain paths, at any depth and with any operands: nothing, or a
filter that is not empty. In it `$and` and `$or` hold arrays of single filters, `$not` and the
quantifiers hold filters, and a field holds a body of comparisons, quantifiers and fields. No part
of it is empty. -/
theorem toQuery?_eq_none_or_isFilter (ns : Forest ι) (h : HasPlainPaths ns) :
    toQuery? ns = none ∨
      ∃ q, toQuery? ns = some q ∧ Query.isFilter .written q = true ∧ Query.isFull q = true := by
  by_cases hnil : toFields ns = []
  · exact Or.inl (toQuery?_eq_none.mpr hnil)
  · have hfilter := isFilter_toFields h hnil
    exact Or.inr ⟨.object (toFields ns), toQuery?_of_ne_nil hnil, hfilter,
      Query.isFull_of_isFilter _ hfilter⟩

/-- Siblings that are merged in `a` and in `$not`, two conjunctions of which the second is written,
and containers with nothing in them. -/
def mergedSiblings : Tree := [
  .condition 1 ["a"] .eq (.other (.object [])),
  .condition 2 ["a", "b"] .lt (.number (.int 5)),
  .embedded 3 ["a"] .someElement [.condition 4 [] .isIn (.strings [])],
  .logical 5 .not [.condition 6 ["c"] .eq .null, .logical 6 .or []],
  .logical 7 .not [.logical 8 .and [.embedded 8 ["d"] .noElement [], .condition 9 [] .ne .null]],
  .logical 10 .and [.condition 11 ["e"] .eq .null],
  .logical 12 .and [.logical 13 .or [.condition 14 ["f", "g"] .gt (.string "h")]],
  .logical 15 .and []]

theorem toQuery?_mergedSiblings :
    HasPlainPaths mergedSiblings ∧
      ∃ q, toQuery? mergedSiblings = some q ∧ Query.isFilter .written q = true ∧
        Query.isFull q = true := by
  have h : HasPlainPaths mergedSiblings := by decide
  exact ⟨h, (toQuery?_eq_none_or_isFilter mergedSiblings h).resolve_left (by decide)⟩

end Forest

end FilterTree
