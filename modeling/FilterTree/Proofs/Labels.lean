import Mathlib.Data.List.Nodup
import FilterTree.Forest.Numbering
import FilterTree.Proofs.Rows

/-!
# Other labels

`Forest.relabel` gives the nodes of a forest other labels and leaves all else as it is. Numbering an
outline is relabelling any forest that has its shape, as long as the labels of that forest are
distinct (`Forest.exists_number_eq_relabel`).
-/

namespace FilterTree

variable {ι κ : Type}

mutual

/-- Replaces the labels of a node and of the nodes in it. -/
def Node.relabel (f : ι → κ) : Node ι → Node κ
  | .condition i p o v => .condition (f i) p o v
  | .logical i o ns => .logical (f i) o (Forest.relabel f ns)
  | .embedded i p o ns => .embedded (f i) p o (Forest.relabel f ns)

/-- Replaces the labels of a forest. -/
def Forest.relabel (f : ι → κ) : List (Node ι) → Forest κ
  | [] => []
  | n :: ns => Node.relabel f n :: Forest.relabel f ns

end

/-- Replaces the identifiers of a row. -/
def Row.relabel (f : ι → κ) (r : Row ι) : Row κ := ⟨f r.id, r.parent.map f, r.content⟩

theorem Node.rows_relabel (f : ι → κ) (parent : Option κ) (n : Node ι) :
    (n.relabel f).rows parent =
      ⟨f n.id, parent, n.content⟩ :: Forest.rows (some (f n.id)) (Forest.relabel f n.children) := by
  cases n <;> rfl

theorem Forest.relabel_append (f : ι → κ) (ms ns : Forest ι) :
    Forest.relabel f (ms ++ ns) = Forest.relabel f ms ++ Forest.relabel f ns := by
  induction ms with
  | nil => rfl
  | cons m ms ih => rw [List.cons_append, relabel, relabel, ih, List.cons_append]

/-- Relabelling goes through the table. -/
theorem Forest.rows_relabel (f : ι → κ) (ns : Forest ι) :
    ∀ parent : Option ι,
      Forest.rows (parent.map f) (Forest.relabel f ns) =
        (Forest.rows parent ns).map (Row.relabel f) := by
  induction ns using Forest.induction with
  | nil => intro parent; rfl
  | cons n ns ihn ih =>
    intro parent
    have hchildren := ihn (some n.id)
    rw [Option.map_some] at hchildren
    rw [relabel, rows, rows, Node.rows_relabel, hchildren, ih parent, Node.rows_eq, List.map_append,
      List.map_cons]
    rfl

/-! ## Numbers as labels -/

theorem Node.size_eq (n : Node ι) : n.size = Forest.size n.children + 1 := by
  cases n <;> rfl

theorem Node.children_relabel (f : ι → κ) (n : Node ι) :
    (n.relabel f).children = Forest.relabel f n.children := by
  cases n <;> rfl

theorem Forest.length_ids (ns : Forest ι) : (Forest.ids ns).length = Forest.size ns := by
  induction ns using Forest.induction with
  | nil => rfl
  | cons n ns ihn ih =>
    rw [ids_cons, List.length_cons, List.length_append, ihn, ih, size, Node.size_eq,
      Nat.add_right_comm]

theorem Forest.size_relabel (f : ι → κ) (ns : Forest ι) :
    Forest.size (Forest.relabel f ns) = Forest.size ns := by
  induction ns using Forest.induction with
  | nil => rfl
  | cons n ns ihn ih =>
    rw [relabel, size, size, Node.size_eq, Node.size_eq, Node.children_relabel, ihn, ih]

/-- Labels that go up by one from node to node are the numbers. -/
theorem Forest.number_relabel (f : ι → Unit) (g : ι → NodeId) (ns : Forest ι) :
    ∀ {k : NodeId}, (Forest.ids ns).map g = List.range' k (Forest.size ns) →
      Forest.number k (Forest.relabel f ns) = Forest.relabel g ns := by
  induction ns using Forest.induction with
  | nil => intro k h; rfl
  | cons n ns ihn ih =>
    intro k h
    rw [ids_cons, size, Node.size_eq, Nat.add_right_comm, List.range'_succ, List.map_cons,
      List.map_append, ← List.range'_append_1] at h
    obtain ⟨hid, htail⟩ := List.cons.inj h
    obtain ⟨hchildren, hns⟩ :=
      List.append_inj htail (by rw [List.length_map, length_ids, List.length_range'])
    have hn : (n.relabel f).number k = n.relabel g := by
      cases n with
      | condition i p o v => exact congrArg (Node.condition · p o v) hid.symm
      | logical i o ms => exact congrArg₂ (Node.logical · o ·) hid.symm (ihn hchildren)
      | embedded i p o ms => exact congrArg₂ (Node.embedded · p o ·) hid.symm (ihn hchildren)
    rw [Nat.add_right_comm, Nat.add_assoc] at hns
    rw [relabel, number, hn, Node.size_eq, Node.children_relabel, size_relabel, ih hns, relabel]

/-- A forest with distinct labels and the shape of an outline is numbered by the places of its
labels. -/
theorem Forest.number_eq_relabel [BEq ι] [LawfulBEq ι] (f : ι → Unit) (k : NodeId)
    {ns : Forest ι} (h : (Forest.ids ns).Nodup) :
    Forest.number k (Forest.relabel f ns) =
      Forest.relabel (fun i => k + (Forest.ids ns).idxOf i) ns := by
  refine number_relabel f _ ns ?_
  refine List.ext_getElem ?_ ?_
  · rw [List.length_map, length_ids, List.length_range']
  · intro i hi hi'
    rw [List.length_map] at hi
    rw [List.getElem_map, List.getElem_range', h.idxOf_getElem i hi, Nat.one_mul]

/-- Any forest with distinct labels and the shape of an outline can be numbered by its labels. -/
theorem Forest.exists_number_eq_relabel [DecidableEq ι] (f : ι → Unit) (k : NodeId) {ns : Forest ι}
    (h : (Forest.ids ns).Nodup) :
    ∃ g : ι → NodeId, Forest.number k (Forest.relabel f ns) = Forest.relabel g ns :=
  ⟨_, number_eq_relabel f k h⟩

end FilterTree
