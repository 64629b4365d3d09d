import FilterTree.Proofs.Correspondence
import FilterTree.Proofs.Growth

/-!
# Containers without conditions

Something is written of a forest exactly if there is a condition in it, at any depth
(`Forest.written_eq_nil_iff`). So containers in which there is none may as well be deleted:
`Forest.prune` does that, and what is written stays the same (`Forest.written_prune`). Nothing is
assumed of paths, operands or identifiers.
-/

namespace FilterTree

variable {ι : Type}

namespace Forest

/-- Whether a forest has a condition, at any depth. -/
def HasCondition (ns : Forest ι) : Prop := ∃ n ∈ nodes ns, n.kind = .condition

instance : DecidablePred (HasCondition (ι := ι)) :=
  fun ns => inferInstanceAs (Decidable (∃ n ∈ nodes ns, n.kind = .condition))

end Forest

mutual

/-- Deletes the containers in a node that have no condition in them. -/
def Node.prune : Node ι → Node ι
  | .condition i p o v => .condition i p o v
  | .logical i o ns => .logical i o (Forest.prune ns)
  | .embedded i p o ns => .embedded i p o (Forest.prune ns)

/-- Deletes the containers that have no condition in them, at every depth. -/
def Forest.prune : List (Node ι) → Forest ι
  | [] => []
  | n :: ns => if Forest.HasCondition [n] then Node.prune n :: Forest.prune ns else Forest.prune ns

end

/-! ## One node -/

namespace Node

/-- What a node writes of its children is a matter of what is written of them. -/
theorem value?_hold_congr {n : Node ι} {ms : Forest ι}
    (h : Forest.written ms = Forest.written n.children) : (n.hold ms).value? = n.value? := by
  have hquery : Forest.toQuery? ms = Forest.toQuery? n.children := by
    unfold Forest.toQuery?
    rw [Forest.toFields_eq_mergeAll_written, Forest.toFields_eq_mergeAll_written n.children, h]
  have harray : Forest.toArray? ms = Forest.toArray? n.children := by
    unfold Forest.toArray?
    rw [h]
  cases n with
  | condition i p o v => rfl
  | embedded i p o ns => exact hquery
  | logical i o ns =>
    cases o with
    | not => exact hquery
    | and | or => exact harray

theorem prune_eq_hold (n : Node ι) : n.prune = n.hold (Forest.prune n.children) := by
  cases n <;> rw [prune] <;> rfl

end Node

namespace Forest

variable {n : Node ι} {ns : Forest ι}

theorem hasCondition_singleton :
    HasCondition [n] ↔ n.kind = .condition ∨ HasCondition n.children := by
  unfold HasCondition
  rw [nodes_singleton]
  simp only [List.mem_cons, exists_eq_or_imp]

theorem hasCondition_cons :
    HasCondition (n :: ns) ↔ HasCondition [n] ∨ HasCondition ns := by
  have hnodes : nodes (n :: ns) = nodes [n] ++ nodes ns := nodes_append [n] ns
  unfold HasCondition
  rw [hnodes]
  simp only [List.mem_append, or_and_right, exists_or]

theorem prune_cons (n : Node ι) (ns : Forest ι) :
    prune (n :: ns) =
      if HasCondition [n] then n.hold (prune n.children) :: prune ns else prune ns := by
  rw [prune, Node.prune_eq_hold]

/-! ## What is written -/

theorem written_singleton_eq_nil : written [n] = [] ↔ n.value? = none := by
  rw [written_singleton]
  cases n.value? <;> simp

/-- A forest is written as nothing if none of its nodes writes anything. -/
theorem toFields_eq_nil_iff_written : toFields ns = [] ↔ written ns = [] := by
  rw [toFields_eq_mergeAll_written]
  constructor
  · intro h
    cases hw : written ns with
    | nil => rfl
    | cons o os =>
      have ho : o ≠ [] := by
        have hmem : o ∈ written ns := hw ▸ List.mem_cons_self
        rw [written, List.mem_filter, Bool.not_eq_true', List.isEmpty_eq_false_iff] at hmem
        exact hmem.2
      have hne := Fields.mergeAll_around_ne_nil [] os ho
      rw [Fields.solid_of_ne_nil ho, List.nil_append, List.singleton_append, ← hw] at hne
      exact absurd h hne
  · intro h
    rw [h]
    rfl

theorem toQuery?_eq_none_iff_written : toQuery? ns = none ↔ written ns = [] :=
  toQuery?_eq_none.trans toFields_eq_nil_iff_written

theorem toArray?_eq_none_iff_written : toArray? ns = none ↔ written ns = [] := by
  unfold toArray?
  rw [← List.isEmpty_iff]
  split <;> simp_all

/-- A condition always writes something, a container only what is written of its children. -/
theorem value?_eq_none_iff :
    n.value? = none ↔ n.kind ≠ .condition ∧ written n.children = [] := by
  cases n with
  | condition i p o v => simp [Node.value?, Node.kind]
  | embedded i p o ms =>
    rw [← toQuery?_eq_none_iff_written]
    simp [Node.value?, Node.kind, Node.children, Node.children?]
  | logical i o ms =>
    cases o with
    | not =>
      rw [← toQuery?_eq_none_iff_written]
      simp [Node.value?, Node.kind, Node.children, Node.children?]
    | and | or =>
      rw [← toArray?_eq_none_iff_written]
      simp [Node.value?, Node.kind, Node.children, Node.children?]

/-- Nothing is written of a forest exactly if it has no condition. -/
theorem written_eq_nil_iff : written ns = [] ↔ ¬ HasCondition ns := by
  induction ns using Forest.induction with
  | nil =>
    refine iff_of_true rfl ?_
    rintro ⟨n, hn, -⟩
    exact List.not_mem_nil hn
  | cons n ns ihn ih =>
    have hwritten : written (n :: ns) = written [n] ++ written ns := written_append [n] ns
    rw [hwritten, List.append_eq_nil_iff, written_singleton_eq_nil, value?_eq_none_iff, ihn, ih,
      hasCondition_cons, hasCondition_singleton, not_or, not_or]

/-- A deleted container would have written nothing. -/
theorem written_prune (ns : Forest ι) : written (prune ns) = written ns := by
  induction ns using Forest.induction with
  | nil => rfl
  | cons n ns ihn ih =>
    have hwritten : written (n :: ns) = written [n] ++ written ns := written_append [n] ns
    rw [prune_cons, hwritten, ← ih]
    by_cases hn : HasCondition [n]
    · rw [if_pos hn]
      have hsame : written [n.hold (prune n.children)] = written [n] := by
        rw [written_singleton, written_singleton, Node.value?_hold_congr ihn, Node.path_hold,
          Node.key_hold]
      rw [← hsame]
      exact written_append [_] _
    · rw [if_neg hn, written_eq_nil_iff.mpr hn, List.nil_append]

theorem toQuery?_prune (ns : Forest ι) : toQuery? (prune ns) = toQuery? ns := by
  unfold toQuery?
  rw [toFields_eq_mergeAll_written, written_prune, ← toFields_eq_mergeAll_written]

/-! ## What is deleted -/

theorem prune_eq_nil (h : ¬ HasCondition ns) : prune ns = [] := by
  induction ns with
  | nil => rfl
  | cons n ns ih =>
    rw [hasCondition_cons, not_or] at h
    rw [prune_cons, if_neg h.1]
    exact ih h.2

/-- What is left are the nodes with a condition in them, in their order, each without what is
deleted in it. -/
theorem nodes_prune (ns : Forest ι) :
    nodes (prune ns) = ((nodes ns).filter fun n => HasCondition [n]).map Node.prune := by
  induction ns using Forest.induction with
  | nil => rfl
  | cons n ns ihn ih =>
    rw [prune_cons, nodes_cons, List.filter_cons, List.filter_append]
    by_cases hn : HasCondition [n]
    · have hchildren : (n.hold (prune n.children)).children = prune n.children := by
        cases n <;> rfl
      rw [if_pos hn, if_pos (decide_eq_true hn), nodes_cons, hchildren, List.map_cons,
        List.map_append, ihn, ih, Node.prune_eq_hold]
    · -- what is in a deleted container has no condition in it either
      have hbelow : ¬ HasCondition n.children := fun h => hn (hasCondition_singleton.mpr (Or.inr h))
      rw [prune_eq_nil hbelow] at ihn
      rw [if_neg hn, if_neg (by simpa using hn), List.map_append, ← ihn, ih]
      rfl

/-- There is nothing to write exactly if a forest has no condition at any depth, and otherwise what
is written is not empty. Deleting each container with no condition in it, and nothing else, leaves
what is written as it is. -/
theorem toQuery?_of_conditions (ns : Forest ι) :
    (toQuery? ns = none ↔ ¬ HasCondition ns) ∧ toQuery? ns ≠ some (.object []) ∧
      nodes (prune ns) = ((nodes ns).filter fun n => HasCondition [n]).map Node.prune ∧
      toQuery? (prune ns) = toQuery? ns := by
  refine ⟨toQuery?_eq_none_iff_written.trans written_eq_nil_iff, ?_, nodes_prune ns,
    toQuery?_prune ns⟩
  intro hempty
  obtain ⟨hfields, hne⟩ := toFields_of_toQuery? hempty
  exact hne (Json.object.inj hfields).symm

/-- Without a condition all goes, and with one its containers stay. -/
example : prune [.logical 1 .not [.embedded 2 ["a"] .someElement []],
      .logical 3 .or [.logical 4 .and [], .condition 5 ["b"] .eq .null]] =
    [.logical 3 .or [.condition 5 ["b"] .eq .null]] := by
  decide

end Forest

end FilterTree
