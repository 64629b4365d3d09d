import FilterTree.Proofs.Grafts

/-!
# What an edit leaves alone

An edit looks for one node, changes it and stops there. `Forest.rewriteAt` takes no such care: it
rebuilds the whole forest from the inside out, and changes every node with the identifier on the
way. Since identifiers are distinct the two come to the same (`Forest.modify_eq_rewriteAt`). So a
successful edit changes one place and nothing else (`Editor.edits_of_reachable`): `Editor.Adds` and
`Editor.Updates` say what is there before, what is there after, and what is found.
-/

namespace FilterTree

variable {ι : Type}

/-! ## Rebuilding a forest -/

mutual

/-- Rebuilds a node from the inside out: first what is in it, then the node itself. -/
def Node.rewrite (f : Node ι → Node ι) : Node ι → Node ι
  | .condition i p o v => f (.condition i p o v)
  | .logical i o ns => f (.logical i o (Forest.rewrite f ns))
  | .embedded i p o ns => f (.embedded i p o (Forest.rewrite f ns))

/-- Rebuilds every node of a forest. -/
def Forest.rewrite (f : Node ι → Node ι) : List (Node ι) → Forest ι
  | [] => []
  | n :: ns => Node.rewrite f n :: Forest.rewrite f ns

end

/-- Rebuilds a forest and applies `f` to every node with an identifier. -/
def Forest.rewriteAt [DecidableEq ι] (id : ι) (f : Node ι → Node ι) : Forest ι → Forest ι :=
  Forest.rewrite fun n => if n.id = id then f n else n

/-- Adds a node as the last root, or rebuilds a forest and adds it as the last child of every
container that is called as its parent is. -/
def Forest.addLast [DecidableEq ι] (parent : Option ι) (child : Node ι) (ns : Forest ι) :
    Forest ι :=
  match parent with
  | none => ns ++ [child]
  | some id => Forest.rewriteAt id (Node.push child) ns

/-- Gives a condition a new comparison and value; other contents stay as they are. -/
def Content.compare (op : Comparison) (value : Operand) : Content → Content
  | condition path _ _ => condition path op value
  | c => c

/-- Gives the row of a condition with an identifier a new comparison and value. -/
def Row.compareAt [DecidableEq ι] (id : ι) (op : Comparison) (value : Operand) (r : Row ι) : Row ι :=
  if r.id = id then { r with content := r.content.compare op value } else r

@[simp] theorem Content.content_node (c : Content) (id : ι) : (c.node id).content = c := by
  cases c <;> rfl

namespace Node

/-- A node holds what its children are made into, if nothing is made of no children. -/
theorem children_hold_map {g : Forest ι → Forest ι} (hg : g [] = []) (n : Node ι) :
    (n.hold (g n.children)).children = g n.children := by
  cases n with
  | condition i p o v => exact hg.symm
  | logical i o ns => rfl
  | embedded i p o ns => rfl

theorem rows_compare (op : Comparison) (value : Operand) (outer : Option ι) (n : Node ι) :
    (compare op value n).rows outer =
      ⟨n.id, outer, n.content.compare op value⟩ :: Forest.rows (some n.id) n.children := by
  cases n <;> rfl

end Node

namespace Forest

theorem rewrite_cons (f : Node ι → Node ι) (n : Node ι) (ns : Forest ι) :
    rewrite f (n :: ns) = f (n.hold (rewrite f n.children)) :: rewrite f ns := by
  rw [rewrite]
  cases n <;> rfl

/-- Where all that is found by name is found once, the list has one such element. -/
theorem filter_eq_singleton {α κ : Type} [DecidableEq κ] {name : α → κ} {xs : List α} {x : α}
    (hnodup : (xs.map name).Nodup) (hx : x ∈ xs) : xs.filter (name · = name x) = [x] := by
  obtain ⟨before, after, rfl⟩ := List.mem_iff_append.mp hx
  rw [List.map_append, List.map_cons, List.nodup_append, List.nodup_cons] at hnodup
  obtain ⟨-, ⟨hafter, -⟩, hbefore⟩ := hnodup
  have hnone : ∀ y, y ∈ before ∨ y ∈ after → ¬ name y = name x := by
    rintro y (hy | hy) heq
    · exact hbefore _ (List.mem_map_of_mem hy) _ List.mem_cons_self heq
    · exact hafter (heq ▸ List.mem_map_of_mem hy)
  rw [List.filter_append, List.filter_cons_of_pos (by simp),
    List.filter_eq_nil_iff.mpr fun y hy => by simpa using hnone y (Or.inl hy),
    List.filter_eq_nil_iff.mpr fun y hy => by simpa using hnone y (Or.inr hy), List.nil_append]

variable [DecidableEq ι] {id : ι} {f : Node ι → Node ι} {n : Node ι} {ns : Forest ι}

theorem rewriteAt_cons (id : ι) (f : Node ι → Node ι) (n : Node ι) (ns : Forest ι) :
    rewriteAt id f (n :: ns) =
      (if n.id = id then f (n.hold (rewriteAt id f n.children))
        else n.hold (rewriteAt id f n.children)) :: rewriteAt id f ns := by
  rw [rewriteAt, rewrite_cons, Node.id_hold]

/-- Without a node to change the forest is rebuilt as it was. -/
theorem rewriteAt_of_notMem : id ∉ ids ns → rewriteAt id f ns = ns := by
  induction ns using Forest.induction with
  | nil => exact fun _ => rfl
  | cons n ns ihn ih =>
    intro h
    obtain ⟨hid, hchildren, hns⟩ := notMem_ids_cons.mp h
    rw [rewriteAt_cons, if_neg hid, ihn hchildren, ih hns, Node.hold_children]

/-- Where identifiers are distinct a node that is changed has no other one like it inside. -/
theorem rewriteAt_eq_alter :
    (ids ns).Nodup → rewriteAt id f ns = alter id (fun n => some (f n)) ns := by
  induction ns using Forest.induction with
  | nil => exact fun _ => rfl
  | cons n ns ihn ih =>
    intro hnodup
    obtain ⟨hchildren, hns, -, hdisjoint⟩ := nodup_cons hnodup
    rw [rewriteAt_cons, alter_cons, ih hns]
    by_cases hid : n.id = id
    · have hinside : id ∉ ids n.children := fun hmem => (hdisjoint id hmem).1 hid
      rw [if_pos hid, if_pos hid, rewriteAt_of_notMem hinside, Node.hold_children]
      rfl
    · rw [if_neg hid, if_neg hid, ihn hchildren]
      rfl

/-- Changing the node that is found is rebuilding the forest. -/
theorem modify_eq_rewriteAt (hnodup : (ids ns).Nodup) (f : Node ι → Node ι) :
    modify id f ns = rewriteAt id f ns := by
  rw [modify_eq_alter hnodup, rewriteAt_eq_alter hnodup]

theorem insert_eq_addLast {ns : Tree} (hnodup : (ids ns).Nodup) (parent : Option NodeId)
    (child : Node NodeId) : insert parent child ns = addLast parent child ns := by
  cases parent with
  | none => rfl
  | some id => exact modify_eq_rewriteAt hnodup _

/-! ## Tables -/

theorem rows_rewriteAt_compare (op : Comparison) (value : Operand) (ns : Forest ι) :
    ∀ outer : Option ι, rows outer (rewriteAt id (Node.compare op value) ns) =
      (rows outer ns).map (Row.compareAt id op value) := by
  induction ns using Forest.induction with
  | nil => exact fun _ => rfl
  | cons n ns ihn ih =>
    intro outer
    have hchildren : (n.hold (rewriteAt id (Node.compare op value) n.children)).children =
        rewriteAt id (Node.compare op value) n.children :=
      n.children_hold_map (g := rewriteAt id (Node.compare op value)) rfl
    rw [rewriteAt_cons, rows, rows, ih, List.map_append, Node.rows_eq outer n, List.map_cons,
      Row.compareAt]
    by_cases hid : n.id = id
    · rw [if_pos hid, if_pos hid, Node.rows_compare, hchildren, Node.id_hold, Node.content_hold, ihn]
    · rw [if_neg hid, if_neg hid, Node.rows_eq, hchildren, Node.id_hold, Node.content_hold, ihn]

/-- An update changes the row of its node. -/
theorem rows_modify_compare (hnodup : (ids ns).Nodup) (id : ι) (op : Comparison) (value : Operand) :
    rows none (modify id (Node.compare op value) ns) =
      (rows none ns).map (Row.compareAt id op value) := by
  rw [modify_eq_rewriteAt hnodup, rows_rewriteAt_compare]

/-! ## Search -/

theorem filter_nodes_of_find? (hnodup : (ids ns).Nodup) (hn : find? id ns = some n) :
    (nodes ns).filter (·.id = id) = [n] := by
  obtain rfl := id_of_find? ns hn
  exact filter_eq_singleton hnodup (mem_nodes_of_find? ns hn)

theorem find?_append (id : ι) (ms ns : Forest ι) :
    find? id (ms ++ ns) = (find? id ms).or (find? id ns) := by
  induction ms with
  | nil => rfl
  | cons m ms ih =>
    rw [List.cons_append, find?_cons, find?_cons, ih]
    by_cases hid : m.id = id
    · rw [if_pos hid, if_pos hid, Option.some_or]
    · rw [if_neg hid, if_neg hid, Option.or_assoc]

/-- A changed node is found in place of the old one. -/
theorem find?_alter_some (hf : ∀ n : Node ι, (f n).id = n.id) (ns : Forest ι) :
    find? id (alter id (fun n => some (f n)) ns) = (find? id ns).map f := by
  induction ns using Forest.induction with
  | nil => rfl
  | cons n ns ihn ih =>
    rw [alter_cons, find?_cons]
    by_cases hid : n.id = id
    · rw [if_pos hid, if_pos hid, Option.toList_some, List.singleton_append, find?_cons,
        if_pos ((hf n).trans hid)]
      rfl
    · have hchildren : (n.hold (alter id (fun n => some (f n)) n.children)).children =
          alter id (fun n => some (f n)) n.children := n.children_hold_map (g := alter id _) rfl
      rw [if_neg hid, if_neg hid, Option.toList_some, List.singleton_append, find?_cons, Node.id_hold,
        if_neg hid, hchildren, ihn, ih, Option.map_or]

/-- A new node is found under its parent. -/
theorem find?_graft_singleton {parent : Option ι} (hnew : n.id ∉ ids ns)
    (hparent : ∀ p, parent = some p → ∃ m, find? p ns = some m ∧ m.isContainer = true) :
    find? n.id (graft parent [n] ns) = some n := by
  have hself : find? n.id [n] = some n := by rw [find?_cons, if_pos rfl]
  cases parent with
  | none => rw [graft, find?_append, find?_eq_none_iff.mpr hnew, Option.none_or, hself]
  | some p =>
    obtain ⟨m, hm, hcontainer⟩ := hparent p rfl
    rw [graft]
    clear hparent
    induction ns using Forest.induction with
    | nil => cases hm
    | cons l ns ihl ih =>
      obtain ⟨hid, hchildren, hns⟩ := notMem_ids_cons.mp hnew
      rw [find?_cons] at hm
      rw [alter_cons]
      by_cases hp : l.id = p
      · rw [if_pos hp] at hm
        obtain rfl := Option.some.inj hm
        rw [if_pos hp, Option.toList_some, List.singleton_append, find?_cons, Node.id_hold,
          if_neg hid, Node.children_hold _ hcontainer, find?_append,
          find?_eq_none_iff.mpr hchildren, Option.none_or, hself, Option.some_or]
      · rw [if_neg hp] at hm
        rw [if_neg hp, Option.toList_some, List.singleton_append, find?_cons, Node.id_hold,
          if_neg hid]
        rw [l.children_hold_map (g := alter p _) rfl]
        rcases Option.or_eq_some_iff.mp hm with hm | ⟨hnone, hm⟩
        · rw [ihl hchildren hm, Option.some_or]
        · rw [alter_of_notMem (find?_eq_none_iff.mp hnone), find?_eq_none_iff.mpr hchildren,
            Option.none_or, ih hns hm]

end Forest

namespace Editor

variable {e e' : Editor} {parent : Option NodeId} {id : NodeId} {op : Comparison} {value : Operand}

/-! ## Edits of an editor -/

/-- What becomes of an editor to which a node is added. The node has the next free identifier, and
its parent, if any, is the one node that is called so, and a container. All rows stay as they are,
and one is new. -/
structure Adds (e : Editor) (parent : Option NodeId) (new : Node NodeId) (e' : Editor) : Prop where
  fresh : new.id = e.nextId ∧ new.id ∉ e.ids
  only : ∀ id, parent = some id →
    ∃ p, (Forest.nodes e.tree).filter (·.id = id) = [p] ∧ p.isContainer = true
  result : e' = { e with tree := Forest.addLast parent new e.tree, nextId := e.nextId + 1 }
  rows : ∃ front back, e.rows = front ++ back ∧
    e'.rows = front ++ ⟨new.id, parent, new.content⟩ :: back
  found : e'.find? new.id = some new

/-- What becomes of an editor in which a condition is updated. The condition is the one node that is
called so, and keeps its path. All rows but its own stay as they are. -/
structure Updates (e : Editor) (id : NodeId) (op : Comparison) (value : Operand) (e' : Editor) :
    Prop where
  only : ∃ path o v, (Forest.nodes e.tree).filter (·.id = id) = [.condition id path o v] ∧
    e'.find? id = some (.condition id path op value)
  result : e' = { e with tree := Forest.rewriteAt id (Node.compare op value) e.tree }
  rows : e'.rows = e.rows.map (Row.compareAt id op value)

theorem adds_of_attach (hv : e.Valid) {c : Content} (h : e.attach parent c.node = .ok id e') :
    e.Adds parent (c.node id) e' := by
  obtain ⟨rfl, rfl, hparent⟩ := eq_of_attach h
  have hfresh : e.nextId ∉ e.ids := fun hmem => Nat.lt_irrefl _ (hv.bounds _ hmem).2
  rw [Forest.insert_eq_addLast hv.nodup]
  constructor
  · rw [Content.id_node]
    exact ⟨rfl, hfresh⟩
  · intro p hp
    obtain ⟨n, hn, hcontainer⟩ := hparent p hp
    exact ⟨n, Forest.filter_nodes_of_find? hv.nodup hn, hcontainer⟩
  · rfl
  · obtain ⟨front, back, hold, hnew⟩ := exists_rows_insert c hparent
    refine ⟨front, back, hold, ?_⟩
    rw [Forest.insert_eq_addLast hv.nodup] at hnew
    rw [Content.id_node, Content.content_node]
    exact hnew
  · rw [← Forest.insert_eq_addLast hv.nodup, find?, Forest.insert_eq_graft hv.nodup]
    apply Forest.find?_graft_singleton
    · rw [Content.id_node]
      exact hfresh
    · exact hparent

theorem updates_of_update (hv : e.Valid) (h : e.update id op value = .ok () e') :
    e.Updates id op value e' := by
  obtain ⟨-, rfl, n, hn, hkind⟩ := eq_of_update h
  constructor
  · cases n with
    | condition i path o v =>
      obtain rfl : i = id := Forest.id_of_find? e.tree hn
      refine ⟨path, o, v, Forest.filter_nodes_of_find? hv.nodup hn, ?_⟩
      rw [find?, Forest.modify_eq_alter hv.nodup, Forest.find?_alter_some (Node.id_compare op value)]
      rw [find?] at hn
      rw [hn]
      rfl
    | logical i o ns => cases hkind
    | embedded i path o ns => cases hkind
  · rw [Forest.modify_eq_rewriteAt hv.nodup]
  · exact Forest.rows_modify_compare hv.nodup id op value

/-- In every state that a run leads to an edit that is not refused changes exactly one place. A new
node, empty if it is a container, becomes the last root or the last child of its parent, and an
update gives one condition its comparison and value. The tree is otherwise the same, as if it had
been rebuilt with that change at every node with the identifier, and the new or updated node is
found. -/
theorem edits_of_reachable (h : e.Reachable) :
    (∀ path op value parent n e', e.addCondition path op value parent = .ok n e' →
      e.Adds parent (.condition n path op value) e') ∧
    (∀ op parent n e', e.addLogical op parent = .ok n e' →
      e.Adds parent (.logical n op []) e') ∧
    (∀ path op parent n e', e.addEmbedded path op parent = .ok n e' →
      e.Adds parent (.embedded n path op []) e') ∧
    ∀ id op value e', e.update id op value = .ok () e' → e.Updates id op value e' := by
  have hv := h.valid
  refine ⟨?_, ?_, ?_, ?_⟩
  · intro path op value parent n e' hadd
    exact adds_of_attach hv (attach_of_addCondition hadd).2
  · intro op parent n e' hadd
    exact adds_of_attach hv (c := .logical op) hadd
  · intro path op parent n e' hadd
    exact adds_of_attach hv (c := .embedded path op) hadd
  · intro id op value e' hupdate
    exact updates_of_update hv hupdate

theorem edits_ofThreeNodes :
    ofThreeNodes.Reachable ∧
      (∃ e', ofThreeNodes.addCondition ["name"] .eq (.string "x") (some 2) = .ok 4 e' ∧
        ofThreeNodes.Adds (some 2) (.condition 4 ["name"] .eq (.string "x")) e') ∧
      (∃ e', ofThreeNodes.addLogical .not none = .ok 4 e' ∧
        ofThreeNodes.Adds none (.logical 4 .not []) e') ∧
      (∃ e', ofThreeNodes.addEmbedded [] .noElement (some 1) = .ok 4 e' ∧
        ofThreeNodes.Adds (some 1) (.embedded 4 [] .noElement []) e') ∧
      ∃ e', ofThreeNodes.update 3 .lt (.number (.int 65)) = .ok () e' ∧
        ofThreeNodes.Updates 3 .lt (.number (.int 65)) e' := by
  have h : ofThreeNodes.Reachable := (Reachable.start .new).run _
  obtain ⟨hcondition, hlogical, hembedded, hupdate⟩ := edits_of_reachable h
  have hfirst : ofThreeNodes.addCondition ["name"] .eq (.string "x") (some 2) =
      .ok 4 (ofThreeNodes.step (.addCondition ["name"] .eq (.string "x") (some 2))) := rfl
  have hsecond : ofThreeNodes.addLogical .not none =
      .ok 4 (ofThreeNodes.step (.addLogical .not none)) := rfl
  have hthird : ofThreeNodes.addEmbedded [] .noElement (some 1) =
      .ok 4 (ofThreeNodes.step (.addEmbedded [] .noElement (some 1))) := rfl
  have hfourth : ofThreeNodes.update 3 .lt (.number (.int 65)) =
      .ok () (ofThreeNodes.step (.update 3 .lt (.number (.int 65)))) := rfl
  exact ⟨h, ⟨_, hfirst, hcondition _ _ _ _ _ _ hfirst⟩, ⟨_, hsecond, hlogical _ _ _ _ hsecond⟩,
    ⟨_, hthird, hembedded _ _ _ _ _ hthird⟩, ⟨_, hfourth, hupdate _ _ _ _ hfourth⟩⟩

end Editor

end FilterTree
