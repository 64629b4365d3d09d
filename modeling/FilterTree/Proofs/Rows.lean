import FilterTree.Proofs.Forest

/-!
# Forests as tables

`Forest.rows` has a row for every node of a forest, in pre-order: what the node is called, what the
container around it is called, and what the node holds besides other nodes. An edit replaces or
drops the rows of one node where they stand (`Forest.rows_modify`, `Forest.rows_remove?`), whatever
is around them.
-/

namespace FilterTree

variable {ι : Type}

/-- A node in a table; a root has no parent. -/
structure Row (ι : Type) where
  id : ι
  parent : Option ι
  content : Content
deriving DecidableEq, Repr

mutual

/-- The rows of a node and of the nodes in it, in pre-order. -/
def Node.rows (parent : Option ι) : Node ι → List (Row ι)
  | .condition i p o v => [⟨i, parent, .condition p o v⟩]
  | .logical i o ns => ⟨i, parent, .logical o⟩ :: Forest.rows (some i) ns
  | .embedded i p o ns => ⟨i, parent, .embedded p o⟩ :: Forest.rows (some i) ns

/-- The rows of a forest inside a node, or of a whole tree. -/
def Forest.rows (parent : Option ι) : List (Node ι) → List (Row ι)
  | [] => []
  | n :: ns => Node.rows parent n ++ Forest.rows parent ns

end

/-! ## Equations -/

theorem Node.rows_eq (parent : Option ι) (n : Node ι) :
    n.rows parent = ⟨n.id, parent, n.content⟩ :: Forest.rows (some n.id) n.children := by
  cases n <;> rfl

theorem Node.rows_hold (parent : Option ι) (ns : Forest ι) {n : Node ι}
    (hn : n.isContainer = true) :
    (n.hold ns).rows parent = ⟨n.id, parent, n.content⟩ :: Forest.rows (some n.id) ns := by
  rw [rows_eq, children_hold ns hn, id_hold, content_hold]

@[simp] theorem Content.rows_node (c : Content) (id : ι) (parent : Option ι) :
    (c.node id).rows parent = [⟨id, parent, c⟩] := by
  cases c <;> rfl

theorem Forest.rows_append (parent : Option ι) (ms ns : Forest ι) :
    Forest.rows parent (ms ++ ns) = Forest.rows parent ms ++ Forest.rows parent ns := by
  induction ms with
  | nil => rfl
  | cons m ms ih => rw [List.cons_append, rows, rows, ih, List.append_assoc]

@[simp] theorem Forest.rows_singleton (parent : Option ι) (n : Node ι) :
    Forest.rows parent [n] = n.rows parent := List.append_nil _

/-- A child that is added comes after all that was in the container. -/
theorem Node.rows_push (child : Node ι) (parent : Option ι) {n : Node ι}
    (hn : n.isContainer = true) :
    (push child n).rows parent = n.rows parent ++ child.rows (some n.id) := by
  rw [push_eq_hold, rows_hold parent _ hn, Forest.rows_append, Forest.rows_singleton,
    rows_eq parent n, List.cons_append]

/-- The rows are in the order of the nodes. -/
theorem Forest.map_id_rows (ns : Forest ι) :
    ∀ parent : Option ι, (Forest.rows parent ns).map Row.id = Forest.ids ns := by
  induction ns using Forest.induction with
  | nil => intro parent; rfl
  | cons n ns ihn ih =>
    intro parent
    rw [rows, Node.rows_eq, ids_cons, List.map_append, List.map_cons, ihn, ih, List.cons_append]

/-- A row is that of a node in the forest. -/
theorem Forest.id_mem_of_mem_rows {ns : Forest ι} {parent : Option ι} {r : Row ι}
    (h : r ∈ rows parent ns) : r.id ∈ ids ns := by
  rw [← map_id_rows ns parent]
  exact List.mem_map_of_mem h

/-! ## Replacements -/

/-- Two tables that differ in one stretch: `old` here, `new` there. -/
def Replaces (old new table table' : List (Row ι)) : Prop :=
  ∃ before after, table = before ++ old ++ after ∧ table' = before ++ new ++ after

namespace Replaces

variable {old new table table' : List (Row ι)}

theorem self : Replaces old new old new :=
  ⟨[], [], by rw [List.nil_append, List.append_nil], by rw [List.nil_append, List.append_nil]⟩

theorem append_left (front : List (Row ι)) (h : Replaces old new table table') :
    Replaces old new (front ++ table) (front ++ table') := by
  obtain ⟨before, after, htable, htable'⟩ := h
  refine ⟨front ++ before, after, ?_, ?_⟩
  · rw [htable, List.append_assoc, List.append_assoc, List.append_assoc]
  · rw [htable', List.append_assoc, List.append_assoc, List.append_assoc]

theorem append_right (back : List (Row ι)) (h : Replaces old new table table') :
    Replaces old new (table ++ back) (table' ++ back) := by
  obtain ⟨before, after, htable, htable'⟩ := h
  refine ⟨before, after ++ back, ?_, ?_⟩
  · rw [htable, List.append_assoc]
  · rw [htable', List.append_assoc]

theorem map_eq {α : Type} {f : Row ι → α} (hf : old.map f = new.map f)
    (h : Replaces old new table table') : table.map f = table'.map f := by
  obtain ⟨before, after, htable, htable'⟩ := h
  rw [htable, htable']
  simp only [List.map_append, hf]

/-- What is added to a stretch comes right after it. -/
theorem exists_append {extra : List (Row ι)} (h : Replaces old (old ++ extra) table table') :
    ∃ front back, table = front ++ back ∧ table' = front ++ extra ++ back := by
  obtain ⟨before, after, htable, htable'⟩ := h
  refine ⟨before ++ old, after, htable, ?_⟩
  rw [htable', ← List.append_assoc before]

theorem sublist (h : Replaces old [] table table') : table'.Sublist table := by
  obtain ⟨before, after, htable, htable'⟩ := h
  rw [htable, htable', List.append_nil]
  exact (List.sublist_append_left before old).append_right after

end Replaces

section

variable {old new : List (Row ι)} {parent : Option ι} {m : Node ι} {ms ns : Forest ι}

/-- A replacement among the children of a node is one in the forest that starts with it. -/
theorem Forest.replaces_hold (hm : m.isContainer = true)
    (h : Replaces old new (Forest.rows (some m.id) m.children) (Forest.rows (some m.id) ms)) :
    Replaces old new (Forest.rows parent (m :: ns)) (Forest.rows parent (m.hold ms :: ns)) := by
  rw [rows, rows, Node.rows_hold parent ms hm, Node.rows_eq parent m]
  exact (h.append_left [⟨m.id, parent, m.content⟩]).append_right _

theorem Forest.replaces_cons (h : Replaces old new (Forest.rows parent ns) (Forest.rows parent ms)) :
    Replaces old new (Forest.rows parent (m :: ns)) (Forest.rows parent (m :: ms)) := by
  rw [rows, rows]
  exact h.append_left _

end

variable [DecidableEq ι]

/-- A replaced node has its rows replaced. It is the node that is found. -/
theorem Forest.rows_modify? {id : ι} {f : Node ι → Node ι} (ns : Forest ι) :
    ∀ (parent : Option ι) {ns' : Forest ι}, Forest.modify? id f ns = some ns' →
      ∃ (n : Node ι) (outer : Option ι), Forest.find? id ns = some n ∧
        Replaces (n.rows outer) ((f n).rows outer) (Forest.rows parent ns)
          (Forest.rows parent ns') := by
  induction ns using Forest.induction with
  | nil => intro parent ns' h; cases h
  | cons m ns ihm ih =>
    intro parent ns' h
    rw [modify?_cons] at h
    rw [find?_cons]
    by_cases hm : m.id = id
    · rw [if_pos hm] at h
      rw [if_pos hm, ← Option.some.inj h]
      exact ⟨m, parent, rfl, Replaces.self.append_right _⟩
    · rw [if_neg hm, Option.or_eq_some_iff] at h
      rw [if_neg hm]
      rcases h with h | ⟨hnone, h⟩
      · obtain ⟨ms, hms, rfl⟩ := Option.map_eq_some_iff.mp h
        obtain ⟨n, outer, hn, hrows⟩ := ihm (some m.id) hms
        have hcontainer := Node.isContainer_of_edit (g := Forest.modify? id f) rfl hms
        exact ⟨n, outer, by rw [hn, Option.some_or], replaces_hold hcontainer hrows⟩
      · obtain ⟨ms, hms, rfl⟩ := Option.map_eq_some_iff.mp h
        obtain ⟨n, outer, hn, hrows⟩ := ih parent hms
        rw [Option.map_eq_none_iff, modify?_eq_none] at hnone
        exact ⟨n, outer, by rw [hnone, Option.none_or, hn], replaces_cons hrows⟩

/-- Changing the node that is found changes its rows where they stand. -/
theorem Forest.rows_modify {id : ι} {n : Node ι} {ns : Forest ι}
    (hn : Forest.find? id ns = some n) (f : Node ι → Node ι) (parent : Option ι) :
    ∃ outer : Option ι, Replaces (n.rows outer) ((f n).rows outer) (Forest.rows parent ns)
      (Forest.rows parent (Forest.modify id f ns)) := by
  rw [modify]
  cases hmodify : modify? id f ns with
  | none =>
    rw [modify?_eq_none, hn] at hmodify
    cases hmodify
  | some ns' =>
    obtain ⟨m, outer, hm, hrows⟩ := rows_modify? ns parent hmodify
    obtain rfl : n = m := Option.some.inj (hn.symm.trans hm)
    exact ⟨outer, hrows⟩

theorem Forest.rows_removeRoot? {id : ι} {ns ns' : Forest ι} (parent : Option ι)
    (h : Forest.removeRoot? id ns = some ns') :
    ∃ n : Node ι, n.id = id ∧
      Replaces (n.rows parent) [] (Forest.rows parent ns) (Forest.rows parent ns') := by
  rw [removeRoot?] at h
  split at h
  · rename_i hany
    rw [← Option.some.inj h]
    obtain ⟨n, hmem, hn⟩ := List.any_eq_true.mp hany
    obtain ⟨m, before, after, -, hm, hns, herase⟩ :=
      List.exists_of_eraseP (p := fun m : Node ι => m.id = id) hmem hn
    refine ⟨m, of_decide_eq_true hm, Forest.rows parent before, Forest.rows parent after, ?_, ?_⟩
    · rw [hns, rows_append, rows, List.append_assoc]
    · rw [herase, rows_append, List.append_nil]
  · cases h

theorem Forest.rows_removeBelow? {id : ι} (ns : Forest ι) :
    ∀ (parent : Option ι) {ns' : Forest ι}, Forest.removeBelow? id ns = some ns' →
      ∃ (n : Node ι) (outer : Option ι), n.id = id ∧
        Replaces (n.rows outer) [] (Forest.rows parent ns) (Forest.rows parent ns') := by
  induction ns using Forest.induction with
  | nil => intro parent ns' h; cases h
  | cons m ns ihm ih =>
    intro parent ns' h
    rw [removeBelow?_cons, Option.or_eq_some_iff] at h
    rcases h with h | ⟨-, h⟩
    · obtain ⟨ms, hms, rfl⟩ := Option.map_eq_some_iff.mp h
      have hrows : ∃ (n : Node ι) (outer : Option ι), n.id = id ∧ Replaces (n.rows outer) []
          (Forest.rows (some m.id) m.children) (Forest.rows (some m.id) ms) := by
        rw [remove?_eq, Option.or_eq_some_iff] at hms
        rcases hms with hms | ⟨-, hms⟩
        · obtain ⟨n, hn, hrows⟩ := rows_removeRoot? (some m.id) hms
          exact ⟨n, some m.id, hn, hrows⟩
        · exact ihm (some m.id) hms
      obtain ⟨n, outer, hn, hrows⟩ := hrows
      have hcontainer := Node.isContainer_of_edit (g := Forest.remove? id) rfl hms
      exact ⟨n, outer, hn, replaces_hold hcontainer hrows⟩
    · obtain ⟨ms, hms, rfl⟩ := Option.map_eq_some_iff.mp h
      obtain ⟨n, outer, hn, hrows⟩ := ih parent hms
      exact ⟨n, outer, hn, replaces_cons hrows⟩

/-- A removed node takes its rows with it. -/
theorem Forest.rows_remove? {id : ι} {ns ns' : Forest ι} (parent : Option ι)
    (h : Forest.remove? id ns = some ns') :
    ∃ (n : Node ι) (outer : Option ι), n.id = id ∧
      Replaces (n.rows outer) [] (Forest.rows parent ns) (Forest.rows parent ns') := by
  rw [remove?_eq, Option.or_eq_some_iff] at h
  rcases h with h | ⟨-, h⟩
  · obtain ⟨n, hn, hrows⟩ := rows_removeRoot? parent h
    exact ⟨n, parent, hn, hrows⟩
  · exact rows_removeBelow? ns parent h

end FilterTree
