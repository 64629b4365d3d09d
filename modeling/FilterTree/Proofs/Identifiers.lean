import Mathlib.Data.List.Nodup
import FilterTree.Forest.Numbering
import FilterTree.Proofs.Rows
import FilterTree.Proofs.Steps

/-!
# Identifiers over whole runs

An identifier stands for one node, forever. `Editor.Valid` is the invariant of a state: identifiers
are distinct and below the next free one. `Editor.Follows` compares a state with a later one: what
was there already is unchanged, and what is new has a new identifier. Every change keeps the one and
makes the other (`Editor.Change.valid`, `Editor.Change.follows`), so every run does.
-/

namespace FilterTree

/-- What an edit leaves alone in a node for as long as the node is in a tree. -/
inductive Trait where
  | condition (path : Path)
  | logical (op : Connective)
  | embedded (path : Path) (op : Quantifier)
deriving DecidableEq, Repr

/-- Forgets the comparison and the value of a condition. -/
def Content.trait : Content → Trait
  | condition path _ _ => .condition path
  | logical op => .logical op
  | embedded path op => .embedded path op

/-- What an edit leaves alone in a row. -/
def Row.fixed {ι : Type} (r : Row ι) : ι × Option ι × Trait := (r.id, r.parent, r.content.trait)

namespace Editor

/-- The table of the tree. -/
def rows (e : Editor) : List (Row NodeId) := Forest.rows none e.tree

theorem map_id_rows (e : Editor) : e.rows.map Row.id = e.ids := Forest.map_id_rows e.tree none

theorem mem_ids {e : Editor} {id : NodeId} : id ∈ e.ids ↔ ∃ r ∈ e.rows, r.id = id := by
  rw [← map_id_rows, List.mem_map]

/-! ## What changes do to the table -/

/-- A new node is one new row, and the others stay as they are. -/
theorem exists_rows_insert {e : Editor} {parent : Option NodeId} (c : Content)
    (hparent : ∀ id, parent = some id → ∃ n, e.find? id = some n ∧ n.isContainer = true) :
    ∃ front back, e.rows = front ++ back ∧
      Forest.rows none (Forest.insert parent (c.node e.nextId) e.tree) =
        front ++ ⟨e.nextId, parent, c⟩ :: back := by
  cases parent with
  | none =>
    refine ⟨e.rows, [], (List.append_nil _).symm, ?_⟩
    rw [Forest.insert, Forest.rows_append, Forest.rows_singleton, Content.rows_node]
    rfl
  | some id =>
    obtain ⟨n, hn, hcontainer⟩ := hparent id rfl
    obtain ⟨outer, hrows⟩ := Forest.rows_modify hn (Node.push (c.node e.nextId)) none
    rw [Node.rows_push _ outer hcontainer, Content.rows_node, Forest.id_of_find? e.tree hn] at hrows
    obtain ⟨front, back, hold, hnew⟩ := hrows.exists_append
    refine ⟨front, back, hold, ?_⟩
    rw [Forest.insert, hnew, List.append_assoc]
    rfl

theorem rows_insert {e : Editor} {parent : Option NodeId} (c : Content)
    (hparent : ∀ id, parent = some id → ∃ n, e.find? id = some n ∧ n.isContainer = true) :
    (Forest.rows none (Forest.insert parent (c.node e.nextId) e.tree)).Perm
      (⟨e.nextId, parent, c⟩ :: e.rows) := by
  obtain ⟨front, back, hold, hnew⟩ := exists_rows_insert c hparent
  rw [hold, hnew]
  exact List.perm_middle

/-- A new comparison leaves all else alone. -/
theorem fixed_rows_compare {e : Editor} {id : NodeId} {n : Node NodeId} (hn : e.find? id = some n)
    (op : Comparison) (value : Operand) :
    (Forest.rows none (Forest.modify id (Node.compare op value) e.tree)).map Row.fixed =
      e.rows.map Row.fixed := by
  obtain ⟨outer, hrows⟩ := Forest.rows_modify hn (Node.compare op value) none
  have hfixed : (n.rows outer).map Row.fixed =
      ((Node.compare op value n).rows outer).map Row.fixed := by
    cases n <;> rfl
  exact (hrows.map_eq hfixed).symm

theorem ids_compare {e : Editor} {id : NodeId} {n : Node NodeId} (hn : e.find? id = some n)
    (op : Comparison) (value : Operand) :
    Forest.ids (Forest.modify id (Node.compare op value) e.tree) = e.ids := by
  have hids := congrArg (List.map Prod.fst) (fixed_rows_compare hn op value)
  rw [List.map_map, List.map_map] at hids
  rw [← Forest.map_id_rows _ none, ← map_id_rows]
  exact hids

/-- A removal leaves the other rows in their order. -/
theorem rows_remove {e : Editor} {id : NodeId} {tree : Tree}
    (htree : Forest.remove? id e.tree = some tree) :
    (Forest.rows none tree).Sublist e.rows := by
  obtain ⟨n, outer, -, hrows⟩ := Forest.rows_remove? none htree
  exact hrows.sublist

theorem rows_remove_subset (e : Editor) (id : NodeId) : (e.remove id).2.rows ⊆ e.rows := by
  rw [remove]
  cases htree : Forest.remove? id e.tree with
  | none => exact List.Subset.refl _
  | some tree => exact (rows_remove htree).subset

/-- A loaded tree has the next identifiers, in pre-order. -/
theorem ids_load (e : Editor) (query : Json) :
    (e.load query).ids = List.range' e.nextId (Forest.size (Query.outline [] query)) :=
  Forest.ids_number e.nextId _

theorem nextId_load (e : Editor) (query : Json) :
    (e.load query).nextId = e.nextId + Forest.size (Query.outline [] query) := rfl

/-! ## One state -/

/-- The identifiers of a state are distinct and have been given out. -/
structure Valid (e : Editor) : Prop where
  nodup : e.ids.Nodup
  positive : 1 ≤ e.nextId
  bounds : ∀ id ∈ e.ids, 1 ≤ id ∧ id < e.nextId

theorem Valid.load {e : Editor} (h : e.Valid) (query : Json) : (e.load query).Valid where
  nodup := by
    rw [ids_load]
    exact List.nodup_range'
  positive := by
    rw [nextId_load]
    exact Nat.le_add_right_of_le h.positive
  bounds := by
    intro id hid
    rw [ids_load, List.mem_range'_1] at hid
    rw [nextId_load]
    exact ⟨Nat.le_trans h.positive hid.1, hid.2⟩

theorem valid_of_isStart {e : Editor} (h : e.IsStart) : e.Valid := by
  have hnew : ∀ settings : Settings, Valid { settings := settings } := fun settings =>
    { nodup := List.nodup_nil, positive := Nat.le_refl 1, bounds := fun id hid => by cases hid }
  obtain ⟨settings, rfl⟩ | ⟨query, rfl⟩ := isStart_cases h
  · exact hnew settings
  · exact (hnew {}).load query

/-- Each change keeps identifiers distinct and given out. -/
theorem Change.valid {e e' : Editor} (h : e.Change e') (hv : e.Valid) : e'.Valid := by
  cases h with
  | none => exact hv
  | attach parent c hparent =>
    have hids := (rows_insert c hparent).map Row.id
    rw [List.map_cons, map_id_rows, Forest.map_id_rows] at hids
    have hfresh : e.nextId ∉ e.ids := fun hmem => Nat.lt_irrefl _ (hv.bounds _ hmem).2
    refine ⟨?_, Nat.le_succ_of_le hv.positive, ?_⟩
    · exact hids.nodup_iff.mpr (List.nodup_cons.mpr ⟨hfresh, hv.nodup⟩)
    · intro id hid
      rcases List.mem_cons.mp (hids.mem_iff.mp hid) with rfl | hid
      · exact ⟨hv.positive, Nat.lt_succ_self _⟩
      · exact ⟨(hv.bounds id hid).1, Nat.lt_succ_of_lt (hv.bounds id hid).2⟩
  | update id op value n hn hkind =>
    have hids := ids_compare hn op value
    refine ⟨?_, hv.positive, fun i hi => hv.bounds i ?_⟩
    · rw [ids, hids]
      exact hv.nodup
    · rw [← hids]
      exact hi
  | remove id tree htree =>
    have hids := (rows_remove htree).map Row.id
    rw [map_id_rows, Forest.map_id_rows] at hids
    exact ⟨hids.nodup hv.nodup, hv.positive, fun i hi => hv.bounds i (hids.subset hi)⟩
  | clear => exact ⟨List.nodup_nil, hv.positive, fun id hid => by cases hid⟩
  | load query => exact hv.load query

theorem Valid.run {e : Editor} (hv : e.Valid) (cs : List Command) : (e.run cs).Valid := by
  induction cs generalizing e with
  | nil => exact hv
  | cons c cs ih => exact ih ((change_step e c).valid hv)

theorem Reachable.valid {e : Editor} (h : e.Reachable) : e.Valid := by
  induction h with
  | start h => exact valid_of_isStart h
  | step c h ih => exact (change_step _ c).valid ih

/-! ## Two states -/

/-- A later state: what was not there before has an identifier that was free before. -/
structure Follows (e e' : Editor) : Prop where
  nextId_le : e.nextId ≤ e'.nextId
  rows : ∀ r ∈ e'.rows, r.fixed ∈ e.rows.map Row.fixed ∨ e.nextId ≤ r.id

theorem Follows.refl (e : Editor) : e.Follows e where
  nextId_le := Nat.le_refl _
  rows _ hr := Or.inl (List.mem_map_of_mem hr)

theorem Follows.trans {e e' e'' : Editor} (h : e.Follows e') (h' : e'.Follows e'') :
    e.Follows e'' where
  nextId_le := Nat.le_trans h.nextId_le h'.nextId_le
  rows := by
    intro r'' hr''
    rcases h'.rows r'' hr'' with hold | hnew
    · obtain ⟨r', hr', hfixed⟩ := List.mem_map.mp hold
      have hid : r'.id = r''.id := congrArg Prod.fst hfixed
      rw [← hfixed, ← hid]
      exact h.rows r' hr'
    · exact Or.inr (Nat.le_trans h.nextId_le hnew)

/-- Each change leaves what was there alone, and gives what is new a new identifier. -/
theorem Change.follows {e e' : Editor} (h : e.Change e') : e.Follows e' := by
  cases h with
  | none => exact Follows.refl e
  | attach parent c hparent =>
    refine ⟨Nat.le_succ _, fun r hr => ?_⟩
    rcases List.mem_cons.mp ((rows_insert c hparent).mem_iff.mp hr) with rfl | hold
    · exact Or.inr (Nat.le_refl _)
    · exact Or.inl (List.mem_map_of_mem hold)
  | update id op value n hn hkind =>
    refine ⟨Nat.le_refl _, fun r hr => Or.inl ?_⟩
    rw [← fixed_rows_compare hn op value]
    exact List.mem_map_of_mem hr
  | remove id tree htree =>
    exact ⟨Nat.le_refl _, fun r hr => Or.inl (List.mem_map_of_mem ((rows_remove htree).subset hr))⟩
  | clear => exact ⟨Nat.le_refl _, fun r hr => by cases hr⟩
  | load query =>
    refine ⟨Nat.le_add_right _ _, fun r hr => Or.inr ?_⟩
    have hid : r.id ∈ (e.load query).ids := mem_ids.mpr ⟨r, hr, rfl⟩
    rw [ids_load, List.mem_range'_1] at hid
    exact hid.1

theorem follows_run (e : Editor) (cs : List Command) : e.Follows (e.run cs) := by
  induction cs generalizing e with
  | nil => exact Follows.refl e
  | cons c cs ih => exact (change_step e c).follows.trans (ih (e.step c))

/-- What is not in a tree that follows never comes back. -/
theorem Follows.not_mem_ids {e e' e'' : Editor} (h : e.Follows e') (h' : e'.Follows e'')
    {id : NodeId} (hid : id < e.nextId) (hgone : id ∉ e'.ids) : id ∉ e''.ids := by
  intro hback
  obtain ⟨r'', hr'', rfl⟩ := mem_ids.mp hback
  rcases h'.rows r'' hr'' with hold | hnew
  · obtain ⟨r', hr', hfixed⟩ := List.mem_map.mp hold
    exact hgone (mem_ids.mpr ⟨r', hr', congrArg Prod.fst hfixed⟩)
  · exact absurd (Nat.le_trans h.nextId_le hnew) (Nat.not_le.mpr hid)

/-- What is in both trees has kept its place. -/
theorem Follows.fixed_eq {e e' : Editor} (h : e.Follows e') (hv : e.Valid) {r r' : Row NodeId}
    (hr : r ∈ e.rows) (hr' : r' ∈ e'.rows) (hid : r'.id = r.id) : r'.fixed = r.fixed := by
  rcases h.rows r' hr' with hold | hnew
  · obtain ⟨s, hs, hfixed⟩ := List.mem_map.mp hold
    have hnodup : (e.rows.map Row.id).Nodup := by
      rw [map_id_rows]
      exact hv.nodup
    have hsr : s = r :=
      List.inj_on_of_nodup_map hnodup hs hr ((congrArg Prod.fst hfixed).trans hid)
    rw [← hfixed, hsr]
  · have hlt := (hv.bounds r.id (mem_ids.mpr ⟨r, hr, rfl⟩)).2
    rw [hid] at hnew
    exact absurd hnew (Nat.not_le.mpr hlt)

/-- In every state that a run leads to, identifiers are distinct, at least 1 and below the next one;
and over the rest of the run the next one never gets smaller, an identifier that is gone stays gone,
and a node that stays keeps its parent, its path and, in a container, its operator. -/
theorem identifiers_of_reachable {e : Editor} (h : e.Reachable) (cs ds : List Command) :
    e.ids.Nodup ∧ (∀ id ∈ e.ids, 1 ≤ id ∧ id < e.nextId) ∧ e.nextId ≤ (e.run cs).nextId ∧
      (∀ id ∈ e.ids, id ∉ (e.run cs).ids → id ∉ ((e.run cs).run ds).ids) ∧
      ∀ r ∈ e.rows, ∀ r' ∈ (e.run cs).rows, r'.id = r.id →
        r'.parent = r.parent ∧ r'.content.trait = r.content.trait := by
  have hv := h.valid
  have hf := follows_run e cs
  refine ⟨hv.nodup, hv.bounds, hf.nextId_le, ?_, ?_⟩
  · intro id hid hgone
    exact hf.not_mem_ids (follows_run _ ds) (hv.bounds id hid).2 hgone
  · intro r hr r' hr' hid
    have hfixed := hf.fixed_eq hv hr hr' hid
    exact Prod.mk.inj (Prod.mk.inj hfixed).2

/-- A combination that holds a filter on array elements and a condition. -/
def ofThreeNodes : Editor :=
  run {} [.addLogical .or none, .addEmbedded ["tags"] .someElement (some 1),
    .addCondition ["age"] .gte (.number (.int 18)) (some 1)]

theorem identifiers_ofThreeNodes :
    ofThreeNodes.Reachable ∧ ofThreeNodes.ids = [1, 2, 3] ∧
      (ofThreeNodes.run [.remove 2, .update 3 .lt (.number (.int 65))]).ids = [1, 3] ∧
      2 ∉ ((ofThreeNodes.run [.remove 2, .update 3 .lt (.number (.int 65))]).run
        [.addLogical .not (some 1), .clear, .load (.object [("$not", .object [])])]).ids := by
  have h : ofThreeNodes.Reachable := (Reachable.start .new).run _
  refine ⟨h, by decide, by decide, ?_⟩
  exact (identifiers_of_reachable h _ _).2.2.2.1 2 (by decide) (by decide)

end Editor

end FilterTree
