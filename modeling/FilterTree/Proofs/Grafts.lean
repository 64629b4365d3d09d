import FilterTree.Proofs.Tidiness

/-!
# Grafts

`Forest.graft parent ms ns` puts the nodes of `ms` after all that is in a node of `ns`, or after all
roots. A new node is a graft of one node (`Forest.insert_eq_graft`). Grafts at one place add up
(`Forest.graft_graft`), and what is done to a node that is not in `ns` is done to `ms` alone
(`Forest.alter_graft`).
-/

namespace FilterTree

variable {ι : Type}

@[simp] theorem Content.id_node (c : Content) (id : ι) : (c.node id).id = id := by
  cases c <;> rfl

@[simp] theorem Content.children_node (c : Content) (id : ι) : (c.node id).children = [] := by
  cases c <;> rfl

/-- Whether what becomes of a node, if anything, is called as before. -/
def Node.KeepsId (f : Node ι → Option (Node ι)) : Prop := ∀ n m, f n = some m → m.id = n.id

theorem Node.keepsId_some {g : Node ι → Node ι} (hg : ∀ n, (g n).id = n.id) :
    KeepsId fun n => some (g n) := by
  intro n m h
  rw [← Option.some.inj h, hg]

/-- A container that holds more still holds what it held. -/
theorem Node.rows_subset_hold {n : Node ι} {ms : Forest ι} (outer : Option ι)
    (h : Forest.rows (some n.id) n.children ⊆ Forest.rows (some n.id) ms) :
    n.rows outer ⊆ (n.hold ms).rows outer := by
  cases n with
  | condition i p o v => exact List.Subset.refl _
  | logical i o ns => exact List.cons_subset_cons _ h
  | embedded i p o ns => exact List.cons_subset_cons _ h

variable [DecidableEq ι]

/-- Adds nodes as the last roots, or as the last children of a container. -/
def Forest.graft (parent : Option ι) (ms ns : Forest ι) : Forest ι :=
  match parent with
  | none => ns ++ ms
  | some id => alter id (fun n => some (n.hold (n.children ++ ms))) ns

namespace Forest

variable {id : ι} {f g : Node ι → Option (Node ι)} {n : Node ι} {ns : Forest ι}

/-! ## Alterations one after another -/

theorem alter_some (id : ι) (ns : Forest ι) : alter id some ns = ns := by
  induction ns using Forest.induction with
  | nil => rfl
  | cons n ns ihn ih =>
    rw [alter_cons, ihn, ih, Node.hold_children, ite_self]
    rfl

/-- Another node stays, whatever it holds. -/
theorem alter_hold (h : n.id ≠ id) (ms : Forest ι) :
    alter id f [n.hold ms] = [n.hold (alter id f ms)] := by
  cases n with
  | condition i p o v => exact alter_inside h
  | logical i o ns => exact alter_inside h
  | embedded i p o ns => exact alter_inside h

/-- Altering a node twice, if it is still called the same the second time. -/
theorem alter_alter (hf : Node.KeepsId f) (ns : Forest ι) :
    alter id g (alter id f ns) = alter id (fun n => (f n).bind g) ns := by
  induction ns using Forest.induction with
  | nil => rfl
  | cons n ns ihn ih =>
    rw [alter_cons, alter_append, ih, alter_cons]
    congr 1
    by_cases hid : n.id = id
    · rw [if_pos hid, if_pos hid]
      cases hn : f n with
      | none => rfl
      | some m => exact alter_self ((hf n m hn).trans hid)
    · rw [if_neg hid, if_neg hid, Option.toList_some, alter_hold hid, ihn]
      rfl

/-! ## Grafts one after another -/

theorem graft_nil (parent : Option ι) (ns : Forest ι) : graft parent [] ns = ns := by
  cases parent with
  | none => exact List.append_nil ns
  | some id =>
    simp only [graft, List.append_nil, Node.hold_children]
    exact alter_some id ns

/-- A graft after another at the same place. -/
theorem graft_graft (parent : Option ι) (ls ms ns : Forest ι) :
    graft parent ls (graft parent ms ns) = graft parent (ms ++ ls) ns := by
  cases parent with
  | none => exact List.append_assoc ns ms ls
  | some id =>
    have hnode : ∀ n : Node ι, (n.hold (n.children ++ ms)).hold
        ((n.hold (n.children ++ ms)).children ++ ls) = n.hold (n.children ++ (ms ++ ls)) := by
      intro n
      cases n with
      | condition i p o v => rfl
      | logical i o ns => exact congrArg (Node.logical i o) (List.append_assoc ns ms ls)
      | embedded i p o ns => exact congrArg (Node.embedded i p o) (List.append_assoc ns ms ls)
    rw [graft, graft, graft, alter_alter (Node.keepsId_some fun n => n.id_hold _)]
    simp only [Option.bind_some, hnode]

/-- What is done to a node that is not in the forest is done to the graft. -/
theorem alter_graft (parent : Option ι) (ms : Forest ι) :
    id ∉ ids ns → alter id f (graft parent ms ns) = graft parent (alter id f ms) ns := by
  cases parent with
  | none =>
    intro h
    rw [graft, graft, alter_append, alter_of_notMem h]
  | some p =>
    rw [graft, graft]
    induction ns using Forest.induction with
    | nil =>
      intro h
      rfl
    | cons n ns ihn ih =>
      intro h
      obtain ⟨hid, hchildren, hns⟩ := notMem_ids_cons.mp h
      rw [alter_cons, alter_cons, alter_append, ih hns]
      congr 1
      by_cases hp : n.id = p
      · rw [if_pos hp, if_pos hp, Option.toList_some, alter_hold hid, alter_append,
          alter_of_notMem hchildren]
        rfl
      · rw [if_neg hp, if_neg hp, Option.toList_some, alter_hold hid, ihn hchildren]
        rfl

/-- What was in the forest is still there, at the same places. -/
theorem rows_subset_graft (parent : Option ι) (ms ns : Forest ι) :
    ∀ outer : Option ι, rows outer ns ⊆ rows outer (graft parent ms ns) := by
  cases parent with
  | none =>
    intro outer
    rw [graft, rows_append]
    exact List.subset_append_left _ _
  | some id =>
    rw [graft]
    induction ns using Forest.induction with
    | nil =>
      intro outer
      exact List.nil_subset _
    | cons n ns ihn ih =>
      intro outer
      rw [alter_cons, rows, rows_append]
      refine List.append_subset.mpr ⟨List.subset_append_of_subset_left _ ?_,
        List.subset_append_of_subset_right _ (ih outer)⟩
      by_cases hid : n.id = id
      · rw [if_pos hid, Option.toList_some, rows_singleton]
        refine Node.rows_subset_hold outer ?_
        rw [rows_append]
        exact List.subset_append_left _ _
      · rw [if_neg hid, Option.toList_some, rows_singleton]
        exact Node.rows_subset_hold outer (ihn (some n.id))

/-! ## Edits -/

/-- Replacing the node with an identifier, if there is one. -/
theorem modify_eq_alter (hnodup : (ids ns).Nodup) (h : Node ι → Node ι) :
    modify id h ns = alter id (fun n => some (h n)) ns := by
  rw [modify]
  by_cases hmem : id ∈ ids ns
  · rw [modify?_eq_alter h hnodup hmem, Option.getD_some]
  · rw [modify?_of_notMem hmem, alter_of_notMem hmem, Option.getD_none]

/-- A new node is a graft. -/
theorem insert_eq_graft {ns : Tree} (hnodup : (ids ns).Nodup) (parent : Option NodeId)
    (child : Node NodeId) : insert parent child ns = graft parent [child] ns := by
  cases parent with
  | none => rfl
  | some id =>
    rw [insert, modify_eq_alter hnodup, graft]
    simp only [Node.push_eq_hold]

end Forest

end FilterTree
