import FilterTree.Proofs.Convergence
import FilterTree.Proofs.Tidiness

/-!
# Reloading

A reload replaces the tree by that of its own query. The reader takes the body of a field either for
operators or for fields, but edits can put a condition at a path beside one further down, and both
are then written into one body. Such a body loses its fields in a reload; all else is read back as
it was written (`Editor.query?_reload`).
-/

namespace FilterTree

namespace Editor

variable {e : Editor}

/-- What a tidy tree is written as is a filter of single items with distinct keys. -/
theorem IsTidy.isFilter_query? (h : e.IsTidy) {q : Json} (hq : e.query? = some q) :
    Query.isFilter .written q = true ∧ q.DistinctKeys := by
  have hne : Forest.toFields e.tree ≠ [] := by
    intro hnil
    rw [query?, Forest.toQuery?_eq_none.mpr hnil] at hq
    cases hq
  have htree := isTidy_iff.mp h
  rw [query?, Forest.toQuery?_of_ne_nil hne] at hq
  rw [← Option.some.inj hq]
  constructor
  · exact Forest.isFilter_toFields htree.hasPlainPaths hne
  · exact Forest.distinctKeys_toFields htree.hasDistinctOperand

/-- A reload deletes the fields beside operators, and that is all. -/
theorem IsTidy.query?_reload_eq_map (h : e.IsTidy) :
    e.reload.query? = e.query?.map Query.unmix := by
  cases hq : e.query? with
  | none =>
    rw [reload, hq]
    rfl
  | some q =>
    obtain ⟨hfilter, hdistinct⟩ := h.isFilter_query? hq
    rw [reload, hq, Option.getD_some, Option.map_some]
    show Forest.toQuery? (Query.toTree e.nextId q) = some (Query.unmix q)
    rw [Query.toQuery?_toTree e.nextId hdistinct hfilter,
      Query.flatten_eq_unmix (fun _ => rfl) q hfilter]

/-- After a reload the query is the old one without the fields that stand beside operators in the
body of a field. So it is the old one exactly if there are none. -/
theorem query?_reload (h : e.TidyReachable) :
    e.reload.query? = e.query?.map Query.unmix ∧
      (e.reload.query? = e.query? ↔ ∀ q, e.query? = some q → Query.isUnmixed q = true) := by
  have hreload := h.isTidy.query?_reload_eq_map
  refine ⟨hreload, ?_⟩
  rw [hreload]
  cases e.query? with
  | none => exact iff_of_true rfl fun q hq => by cases hq
  | some q =>
    rw [Option.map_some, Option.some_inj, Query.unmix_eq_self_iff]
    constructor
    · intro hunmixed p hp
      rwa [← Option.some.inj hp]
    · exact fun hall => hall q rfl

/-- An editor with a condition at `a` and one at `a.b`. -/
def mixedBody : Editor :=
  run {} [.addCondition ["a"] .eq (.number (.int 1)) none,
    .addCondition ["a", "b"] .eq (.number (.int 2)) none]

theorem tidyReachable_mixedBody : mixedBody.TidyReachable :=
  (TidyReachable.new {}).run (by decide)

theorem query?_reload_mixedBody :
    mixedBody.TidyReachable ∧
      mixedBody.reload.query? = mixedBody.query?.map Query.unmix ∧
      mixedBody.reload.query? ≠ mixedBody.query? := by
  obtain ⟨hreload, hiff⟩ := query?_reload tidyReachable_mixedBody
  refine ⟨tidyReachable_mixedBody, hreload, fun hsame => ?_⟩
  have hunmixed := hiff.mp hsame _ rfl
  revert hunmixed
  decide

/-- The condition at `a.b` does not outlast a reload. -/
theorem exists_query?_reload_ne : ¬ ∀ e : Editor, e.TidyReachable → e.reload.query? = e.query? := by
  intro h
  have hsame := h mixedBody tidyReachable_mixedBody
  have hafter : mixedBody.reload.query? =
      some (.object [("a", .object [("$eq", .number (.int 1))])]) := by decide
  rw [hafter] at hsame
  revert hsame
  decide

end Editor

end FilterTree
