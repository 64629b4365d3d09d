import FilterTree.Forest.Edit

/-!
# Forests, one node at a time

The functions on forests go through the three sorts of nodes. Here all sorts look the same: a node
is its identifier, its `Node.content` and its `Node.children`, of which a condition has none, and
`Forest.induction` goes from the children and the right siblings of a node to the forest that starts
with it. Each function has one equation for such a forest. A search comes back empty only if no node
has the identifier (`Forest.find?_eq_none_iff`).
-/

namespace FilterTree

variable {ι : Type}

/-! ## Nodes -/

/-- What a node holds besides its identifier and other nodes. -/
inductive Content where
  | condition (path : Path) (op : Comparison) (value : Operand)
  | logical (op : Connective)
  | embedded (path : Path) (op : Quantifier)
deriving DecidableEq, Repr

/-- A node with nothing in it. -/
def Content.node : Content → ι → Node ι
  | condition path op value, id => .condition id path op value
  | logical op, id => .logical id op []
  | embedded path op, id => .embedded id path op []

namespace Node

def content : Node ι → Content
  | condition _ path op value => .condition path op value
  | logical _ op _ => .logical op
  | embedded _ path op _ => .embedded path op

/-- The forest in a node. -/
def children (n : Node ι) : Forest ι := n.children?.getD []

/-- Gives a container another forest; a condition stays as it is. -/
def hold (ns : Forest ι) : Node ι → Node ι
  | condition i path op value => .condition i path op value
  | logical i op _ => .logical i op ns
  | embedded i path op _ => .embedded i path op ns

@[simp] theorem id_hold (ns : Forest ι) (n : Node ι) : (n.hold ns).id = n.id := by
  cases n <;> rfl

@[simp] theorem content_hold (ns : Forest ι) (n : Node ι) :
    (n.hold ns).content = n.content := by
  cases n <;> rfl

theorem children_hold (ns : Forest ι) {n : Node ι} (hn : n.isContainer = true) :
    (n.hold ns).children = ns := by
  cases n with
  | condition i p o v => exact absurd hn Bool.false_ne_true
  | logical i o ms => rfl
  | embedded i p o ms => rfl

/-- What has children is a container. -/
theorem isContainer_of_children {n : Node ι} (hn : n.children ≠ []) : n.isContainer = true := by
  cases n with
  | condition i p o v => exact absurd rfl hn
  | logical i o ms => rfl
  | embedded i p o ms => rfl

/-- What has children to edit is a container. -/
theorem isContainer_of_edit {g : Forest ι → Option (Forest ι)} {n : Node ι} {ms : Forest ι}
    (hnil : g [] = none) (h : g n.children = some ms) : n.isContainer = true := by
  refine isContainer_of_children fun hchildren => ?_
  rw [hchildren, hnil] at h
  cases h

/-- A condition takes no child and holds no forest. -/
theorem push_eq_hold (child n : Node ι) : push child n = n.hold (n.children ++ [child]) := by
  cases n <;> rfl

theorem id_push (child n : Node ι) : (push child n).id = n.id := by
  cases n <;> rfl

theorem id_compare (op : Comparison) (value : Operand) (n : Node ι) :
    (compare op value n).id = n.id := by
  cases n <;> rfl

end Node

/-! ## Induction -/

mutual

theorem Node.induction {P : List (Node ι) → Prop} (nil : P [])
    (cons : ∀ (n : Node ι) (ns : List (Node ι)), P n.children → P ns → P (n :: ns)) :
    ∀ n : Node ι, P n.children
  | .condition .. => nil
  | .logical _ _ ns | .embedded _ _ _ ns => Forest.induction nil cons ns

/-- What holds of a forest if it holds of the children and of the right siblings of its first node
holds of all forests. -/
theorem Forest.induction {P : List (Node ι) → Prop} (nil : P [])
    (cons : ∀ (n : Node ι) (ns : List (Node ι)), P n.children → P ns → P (n :: ns)) :
    ∀ ns : List (Node ι), P ns
  | [] => nil
  | n :: ns => cons n ns (Node.induction nil cons n) (Forest.induction nil cons ns)

end

/-! ## All nodes -/

namespace Forest

variable {i : ι} {m n : Node ι} {ns : Forest ι}

theorem nodes_cons (n : Node ι) (ns : Forest ι) :
    nodes (n :: ns) = n :: (nodes n.children ++ nodes ns) := by
  rw [nodes]
  cases n <;> rw [Node.nodes] <;> rfl

theorem nodes_append (ms ns : Forest ι) : nodes (ms ++ ns) = nodes ms ++ nodes ns := by
  induction ms with
  | nil => rfl
  | cons m ms ih => rw [List.cons_append, nodes, nodes, ih, List.append_assoc]

theorem nodes_singleton (n : Node ι) : nodes [n] = n :: nodes n.children :=
  (nodes_cons n []).trans (congrArg (n :: ·) (List.append_nil _))

theorem mem_nodes_cons : m ∈ nodes (n :: ns) ↔ m = n ∨ m ∈ nodes n.children ∨ m ∈ nodes ns := by
  rw [nodes_cons, List.mem_cons, List.mem_append]

theorem mem_nodes_singleton : m ∈ nodes [n] ↔ m = n ∨ m ∈ nodes n.children := by
  rw [nodes_singleton, List.mem_cons]

theorem mem_nodes_of_mem (h : n ∈ ns) : n ∈ nodes ns := by
  induction ns with
  | nil => exact absurd h List.not_mem_nil
  | cons m ns ih =>
    rw [mem_nodes_cons]
    rcases List.mem_cons.mp h with rfl | h
    · exact Or.inl rfl
    · exact Or.inr (Or.inr (ih h))

theorem nodes_subset_cons (n : Node ι) (ns : Forest ι) : nodes ns ⊆ nodes (n :: ns) :=
  fun _ hm => mem_nodes_cons.mpr (Or.inr (Or.inr hm))

theorem nodes_children_subset (h : n ∈ ns) : nodes n.children ⊆ nodes ns := by
  induction ns with
  | nil => exact absurd h List.not_mem_nil
  | cons m ns ih =>
    intro x hx
    rw [mem_nodes_cons]
    rcases List.mem_cons.mp h with rfl | h
    · exact Or.inr (Or.inl hx)
    · exact Or.inr (Or.inr (ih h hx))

theorem nodes_singleton_subset (h : n ∈ ns) : nodes [n] ⊆ nodes ns := by
  rw [nodes_singleton]
  exact List.cons_subset.mpr ⟨mem_nodes_of_mem h, nodes_children_subset h⟩

/-- What is in a node of a forest, however deep, is in the forest. -/
theorem mem_nodes_of_mem_children (hm : m ∈ n.children) : n ∈ nodes ns → m ∈ nodes ns := by
  induction ns using Forest.induction with
  | nil => exact fun hn => absurd hn List.not_mem_nil
  | cons l ns ihl ih =>
    rw [mem_nodes_cons, mem_nodes_cons]
    rintro (rfl | hn | hn)
    · exact Or.inr (Or.inl (mem_nodes_of_mem hm))
    · exact Or.inr (Or.inl (ihl hn))
    · exact Or.inr (Or.inr (ih hn))

/-! ## Identifiers -/

@[simp] theorem ids_nil : ids ([] : Forest ι) = [] := rfl

theorem ids_cons (n : Node ι) (ns : Forest ι) :
    ids (n :: ns) = n.id :: (ids n.children ++ ids ns) := by
  rw [ids, nodes_cons, List.map_cons, List.map_append, ids, ids]

theorem ids_append (ms ns : Forest ι) : ids (ms ++ ns) = ids ms ++ ids ns := by
  rw [ids, nodes_append, List.map_append, ids, ids]

theorem ids_singleton (n : Node ι) : ids [n] = n.id :: ids n.children :=
  (ids_cons n []).trans (congrArg (n.id :: ·) (List.append_nil _))

theorem mem_ids_cons : i ∈ ids (n :: ns) ↔ n.id = i ∨ i ∈ ids n.children ∨ i ∈ ids ns := by
  rw [ids_cons, List.mem_cons, List.mem_append, eq_comm]

/-- An identifier is not in a forest if it is not that of the first node, nor in it or after it. -/
theorem notMem_ids_cons : i ∉ ids (n :: ns) ↔ n.id ≠ i ∧ i ∉ ids n.children ∧ i ∉ ids ns := by
  rw [mem_ids_cons, not_or, not_or]

end Forest

/-! ## Equations -/

variable [DecidableEq ι]

theorem Forest.find?_cons (id : ι) (n : Node ι) (ns : Forest ι) :
    Forest.find? id (n :: ns) =
      if n.id = id then some n else (Forest.find? id n.children).or (Forest.find? id ns) := by
  have hn : n.find? id = if n.id = id then some n else Forest.find? id n.children := by
    cases n <;> rfl
  rw [find?, hn]
  by_cases h : n.id = id
  · rw [if_pos h, if_pos h]
  · rw [if_neg h, if_neg h]
    cases Forest.find? id n.children <;> rfl

theorem Forest.modify?_cons (id : ι) (f : Node ι → Node ι) (n : Node ι) (ns : Forest ι) :
    Forest.modify? id f (n :: ns) =
      if n.id = id then some (f n :: ns)
      else ((Forest.modify? id f n.children).map fun ms => n.hold ms :: ns).or
        ((Forest.modify? id f ns).map (n :: ·)) := by
  have hn : n.modify? id f =
      if n.id = id then some (f n)
      else (Forest.modify? id f n.children).map fun ms => n.hold ms := by
    cases n <;> rfl
  rw [modify?, hn]
  by_cases h : n.id = id
  · rw [if_pos h, if_pos h]
  · rw [if_neg h, if_neg h]
    cases Forest.modify? id f n.children <;> rfl

theorem Forest.removeBelow?_cons (id : ι) (n : Node ι) (ns : Forest ι) :
    Forest.removeBelow? id (n :: ns) =
      ((Forest.remove? id n.children).map fun ms => n.hold ms :: ns).or
        ((Forest.removeBelow? id ns).map (n :: ·)) := by
  have hn : n.removeBelow? id = (Forest.remove? id n.children).map fun ms => n.hold ms := by
    cases n <;> rfl
  rw [removeBelow?, hn]
  cases Forest.remove? id n.children <;> rfl

/-- A node is removed from among the roots if it is one. -/
theorem Forest.remove?_eq (id : ι) (ns : Forest ι) :
    Forest.remove? id ns = (Forest.removeRoot? id ns).or (Forest.removeBelow? id ns) := by
  rw [remove?]
  cases Forest.removeRoot? id ns <;> rfl

/-! ## What is found -/

/-- The node that is found is in the forest and has the identifier that was looked for. -/
theorem Forest.mem_and_id_of_find? {id : ι} {n : Node ι} (ns : Forest ι) :
    Forest.find? id ns = some n → n ∈ Forest.nodes ns ∧ n.id = id := by
  induction ns using Forest.induction with
  | nil => intro h; cases h
  | cons m ns ihm ih =>
    intro h
    rw [find?_cons] at h
    rw [mem_nodes_cons]
    by_cases hm : m.id = id
    · rw [if_pos hm] at h
      obtain rfl := Option.some.inj h
      exact ⟨Or.inl rfl, hm⟩
    · rw [if_neg hm, Option.or_eq_some_iff] at h
      rcases h with h | ⟨-, h⟩
      · exact (ihm h).imp_left fun hmem => Or.inr (Or.inl hmem)
      · exact (ih h).imp_left fun hmem => Or.inr (Or.inr hmem)

theorem Forest.mem_nodes_of_find? {id : ι} {n : Node ι} (ns : Forest ι)
    (h : Forest.find? id ns = some n) : n ∈ Forest.nodes ns := (mem_and_id_of_find? ns h).1

theorem Forest.id_of_find? {id : ι} {n : Node ι} (ns : Forest ι)
    (h : Forest.find? id ns = some n) : n.id = id := (mem_and_id_of_find? ns h).2

theorem Forest.mem_ids_of_find? {id : ι} {n : Node ι} {ns : Forest ι}
    (h : Forest.find? id ns = some n) : id ∈ Forest.ids ns := by
  rw [← id_of_find? ns h]
  exact List.mem_map_of_mem (mem_nodes_of_find? ns h)

/-- The search finds a node if one has the identifier. -/
theorem Forest.find?_eq_none_iff {id : ι} {ns : Forest ι} :
    Forest.find? id ns = none ↔ id ∉ Forest.ids ns := by
  induction ns using Forest.induction with
  | nil => exact iff_of_true rfl List.not_mem_nil
  | cons n ns ihn ih =>
    rw [find?_cons, notMem_ids_cons]
    by_cases hid : n.id = id
    · rw [if_pos hid]
      exact iff_of_false (Option.some_ne_none n) fun h => h.1 hid
    · rw [if_neg hid, Option.or_eq_none_iff, ihn, ih, and_iff_right hid]

/-- A node can be replaced if it can be found. -/
theorem Forest.modify?_eq_none {id : ι} {f : Node ι → Node ι} (ns : Forest ι) :
    Forest.modify? id f ns = none ↔ Forest.find? id ns = none := by
  induction ns using Forest.induction with
  | nil => exact iff_of_true rfl rfl
  | cons m ns ihm ih =>
    rw [find?_cons, modify?_cons]
    by_cases hm : m.id = id
    · rw [if_pos hm, if_pos hm]
      exact iff_of_false (by simp) (by simp)
    · rw [if_neg hm, if_neg hm, Option.or_eq_none_iff, Option.or_eq_none_iff,
        Option.map_eq_none_iff, Option.map_eq_none_iff, ihm, ih]

end FilterTree
