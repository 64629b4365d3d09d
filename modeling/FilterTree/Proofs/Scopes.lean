import FilterTree.Proofs.Drawing
import FilterTree.Proofs.Paths
import FilterTree.Proofs.Rows

/-!
# Scopes

A quantifier opens a scope of its own: the paths of what it holds start at an element. The nodes
that are in no embedded node are in the outer scope (`Forest.outerIds`), inside connectives too.
Reading a value under a path is reading it at the top and putting the path in front of those in the
outer scope; identifiers and everything else stay as they are (`Query.number_outline_under`).
-/

namespace FilterTree

variable {ι : Type}

/-! ## The outer scope -/

mutual

/-- The identifiers of a node and of the nodes in it, except of those that are embedded. -/
def Node.outerIds : Node ι → List ι
  | .condition i .. => [i]
  | .logical i _ ns => i :: Forest.outerIds ns
  | .embedded i .. => [i]

/-- The identifiers of the nodes in the outer scope of a forest, in pre-order. -/
def Forest.outerIds : List (Node ι) → List ι
  | [] => []
  | n :: ns => Node.outerIds n ++ Forest.outerIds ns

end

/-- What a node holds, with names put in front of its path. -/
def Content.under (front : Path) : Content → Content
  | condition path op value => condition (front ++ path) op value
  | logical op => logical op
  | embedded path op => embedded (front ++ path) op

/-- A row with names put in front of the path in it. -/
def Row.under (front : Path) (r : Row ι) : Row ι := { r with content := r.content.under front }

theorem Node.id_mem_outerIds (n : Node ι) : n.id ∈ n.outerIds := by
  cases n <;> exact List.mem_cons_self

theorem Node.mem_of_mem_outerIds {n : Node ι} {i : ι}
    (hchildren : i ∈ Forest.outerIds n.children → i ∈ Forest.ids n.children) (h : i ∈ n.outerIds) :
    i = n.id ∨ i ∈ Forest.ids n.children := by
  cases n with
  | condition j p o v | embedded j p o ns => exact Or.inl (List.mem_singleton.mp h)
  | logical j o ns => exact (List.mem_cons.mp h).imp_right hchildren

theorem Forest.mem_of_mem_outerIds {ns : Forest ι} {i : ι} : i ∈ outerIds ns → i ∈ ids ns := by
  induction ns using Forest.induction with
  | nil => exact id
  | cons n ns ihn ih =>
    intro h
    rw [outerIds, List.mem_append] at h
    rw [ids_cons, List.mem_cons, List.mem_append, ← or_assoc]
    exact h.imp (Node.mem_of_mem_outerIds ihn) ih

/-! ## Paths in the outer scope -/

/-- Names are put in front of the paths in the outer scope and nothing else is changed. The outer
scope may reach beyond the forest (`scope`). -/
theorem Forest.rows_under [DecidableEq ι] (front : Path) {scope : List ι} (ns : Forest ι) :
    ∀ parent : Option ι, (ids ns).Nodup → (∀ i ∈ ids ns, i ∈ scope ↔ i ∈ outerIds ns) →
      rows parent (under front ns) =
        (rows parent ns).map fun r => if r.id ∈ scope then r.under front else r := by
  induction ns using Forest.induction with
  | nil => intro parent _ _; rfl
  | cons n ns ihn ih =>
    intro parent hnodup hscope
    obtain ⟨hchildren, hns, hnot, hdisjoint⟩ := nodup_cons hnodup
    simp only [ids_cons, outerIds, List.forall_mem_cons, List.mem_append] at hscope
    obtain ⟨hn, hrest⟩ := hscope
    have hn : n.id ∈ scope := hn.mpr (Or.inl n.id_mem_outerIds)
    have hinside : ∀ i ∈ ids n.children, i ∈ scope ↔ i ∈ n.outerIds := fun i hi =>
      (hrest i (Or.inl hi)).trans
        (or_iff_left fun hi' => (hdisjoint i hi).2 (mem_of_mem_outerIds hi'))
    have hright : ∀ i ∈ ids ns, i ∈ scope ↔ i ∈ outerIds ns := by
      refine fun i hi => (hrest i (Or.inr hi)).trans (or_iff_right fun hi' => ?_)
      rcases Node.mem_of_mem_outerIds mem_of_mem_outerIds hi' with rfl | hchild
      · exact hnot hi
      · exact (hdisjoint i hchild).2 hi
    rw [under, rows, rows, Node.rows_eq, Node.rows_eq, List.map_append, List.map_cons,
      ih parent hns hright, if_pos hn]
    congr 1
    cases n with
    | condition i p o v => rfl
    | logical i o ms =>
      have hms : ∀ j ∈ ids ms, j ∈ scope ↔ j ∈ outerIds ms := fun j hj =>
        (hinside j hj).trans (List.mem_cons.trans (or_iff_right (hdisjoint j hj).1.symm))
      exact congrArg _ (ihn (some i) hchildren hms)
    | embedded i p o ms =>
      -- what it holds is in a scope of its own
      refine congrArg _ ((List.map_congr_left fun r hr => ?_).trans (List.map_id _)).symm
      have hid : r.id ∈ ids ms := id_mem_of_mem_rows hr
      have hout : r.id ∉ scope := fun hmem =>
        (hdisjoint r.id hid).1 (List.mem_singleton.mp ((hinside r.id hid).mp hmem)).symm
      exact if_neg hout

/-! ## Numbering -/

theorem Forest.size_under (front : Path) (ns : Forest ι) : size (under front ns) = size ns := by
  induction ns using Forest.induction with
  | nil => rfl
  | cons n ns ihn ih =>
    rw [under, size, size, ih, Node.size_eq, Node.size_eq]
    cases n with
    | condition i p o v | embedded i p o ms => rfl
    | logical i o ms => exact congrArg (· + 1 + size ns) ihn

/-- Names in front of paths do not show in the numbers of nodes. -/
theorem Forest.number_under (front : Path) (ns : Outline) :
    ∀ k : NodeId, number k (under front ns) = under front (number k ns) := by
  induction ns using Forest.induction with
  | nil => intro k; rfl
  | cons n ns ihn ih =>
    intro k
    have hn : (n.under front).number k = (n.number k).under front := by
      cases n with
      | condition i p o v | embedded i p o ms => rfl
      | logical i o ms => exact congrArg (Node.logical k o) (ihn (k + 1))
    have hsize : (n.under front).size = n.size := by
      have := size_under front [n]
      rwa [under, under, size, size, size] at this
    rw [under, number, number, under, hn, hsize, ih]

namespace Query

/-- Reading a value under a path gives the tree that it has at the top, with the path in front of
those of the nodes that are in no embedded node. The identifiers are the same and so is the next
one, whether the outline is numbered or the identifiers are drawn on the way. Node by node, what is
called what, what is inside what, operators and values are the same as well. -/
theorem number_outline_under (front : Path) (v : Json) (k : NodeId) :
    Forest.number k (outline front v) = Forest.under front (toTree k v) ∧
      k + Forest.size (outline front v) = nextId k v ∧
      (drawTree front v).run k =
        (Forest.under front ((drawTree [] v).run k).1, ((drawTree [] v).run k).2) ∧
      Forest.rows none (Forest.under front (toTree k v)) =
        (Forest.rows none (toTree k v)).map fun r =>
          if r.id ∈ Forest.outerIds (toTree k v) then r.under front else r := by
  have houtline : outline front v = Forest.under front (outline [] v) := by
    rw [← outline_append front [] v, List.append_nil]
  have hnumber : Forest.number k (outline front v) = Forest.under front (toTree k v) := by
    rw [houtline, Forest.number_under]
    rfl
  have hsize : k + Forest.size (outline front v) = nextId k v := by
    rw [houtline, Forest.size_under]
    rfl
  have hnodup : (Forest.ids (toTree k v)).Nodup := nodup_ids_toTree k v
  refine ⟨hnumber, hsize, ?_, Forest.rows_under front _ none hnodup fun _ _ => Iff.rfl⟩
  rw [draws_drawTree front v k, draws_drawTree [] v k, hnumber, hsize]
  rfl

-- the path goes through `$not` and stops at `$some`
example :
    Forest.number 5 (outline ["a"] (.object [
      ("$not", .object [("b", .object [("$eq", .null)])]),
      ("c", .object [("$some", .object [("d", .object [("$eq", .null)])])])])) =
      [.logical 5 .not [.condition 6 ["a", "b"] .eq .null],
        .embedded 7 ["a", "c"] .someElement [.condition 8 ["d"] .eq .null]] := by
  decide

end Query

end FilterTree
