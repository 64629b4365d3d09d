import FilterTree.Proofs.Entries

/-!
# Drawing identifiers

The tree of a query has consecutive identifiers because its outline is numbered afterwards. A
reader could as well draw an identifier for each node as it meets the key of the node, before it
goes on to what is inside. `Query.drawTree` is that reader: the counter goes through all its loops,
and it looks at the body of a field twice if there is no operator in it. It makes the same tree and
leaves the same counter (`Query.draws_drawTree`), so no identifier is lost on what is ignored, and
none is drawn in another order than that of the nodes (`Query.run_drawTree`).
-/

namespace FilterTree

namespace Forest

variable {ι : Type}

theorem length_nodes (ns : Forest ι) : (nodes ns).length = size ns := by
  rw [← length_ids, ids, List.length_map]

theorem size_append (ms ns : Forest ι) : size (ms ++ ns) = size ms + size ns := by
  rw [← length_nodes, nodes_append, List.length_append, length_nodes, length_nodes]

theorem size_number (k : NodeId) (ns : Outline) : size (number k ns) = size ns := by
  rw [← length_nodes, ← List.length_map Node.id, ids_number, List.length_range']

/-- Outlines side by side are numbered one after the other. -/
theorem number_append (k : NodeId) (ms ns : Outline) :
    number k (ms ++ ns) = number k ms ++ number (k + size ms) ns := by
  induction ms generalizing k with
  | nil => rfl
  | cons m ms ih => rw [List.cons_append, number, number, ih, size, Nat.add_assoc, List.cons_append]

end Forest

namespace Query

/-! ## Reading with a counter -/

/-- Takes the next identifier. -/
def draw : StateM NodeId NodeId := fun next => (next, next + 1)

/-- Reads one thing after another. -/
def drawBoth (m m' : StateM NodeId Tree) : StateM NodeId Tree := do
  let ms ← m
  let ms' ← m'
  pure (ms ++ ms')

mutual

/-- The nodes of a value at a condition position. -/
def drawTree (path : Path) : Json → StateM NodeId Tree
  | .array items => drawItems path items
  | .object fields => drawFields path false fields
  | _ => pure []

/-- The nodes of the items of an array. -/
def drawItems (path : Path) : List Json → StateM NodeId Tree
  | [] => pure []
  | v :: vs => drawBoth (drawTree path v) (drawItems path vs)

/-- The nodes of the keys of an object, of its operators alone if its fields are shadowed. -/
def drawFields (path : Path) (shadowed : Bool) : List (String × Json) → StateM NodeId Tree
  | [] => pure []
  | (k, v) :: fields =>
    drawBoth
      (match Key.ofString k with
        | .comparison op => do
          let id ← draw
          pure [.condition id path op (.ofJson v)]
        | .connective op => do
          let id ← draw
          let children ← drawTree path v
          pure [.logical id op children]
        | .quantifier op => do
          let id ← draw
          let subtree ← drawTree [] v
          pure [.embedded id path op subtree]
        | .field name => if shadowed then pure [] else drawBody (path ++ [name]) v)
      (drawFields path shadowed fields)

/-- The nodes of the body of a field: first of the operators in it, then, if there was none, of the
fields in it. -/
def drawBody (path : Path) : Json → StateM NodeId Tree
  | .object fields =>
    if hasOperator fields then drawFields path true fields
    else drawBoth (drawFields path true fields) (drawFields path false fields)
  | _ => pure []

end

/-! ## Drawing is numbering -/

/-- A computation goes on with the result and the counter of its first part. -/
theorem run_bind {α β : Type} {m : StateM NodeId α} {k k' : NodeId} {a : α}
    (h : m.run k = (a, k')) (f : α → StateM NodeId β) : (m >>= f).run k = (f a).run k' := by
  change (f (m.run k).1).run (m.run k).2 = _
  rw [h]

/-- Whether a computation makes a numbered outline and leaves the counter right behind it. -/
def Draws (m : StateM NodeId Tree) (ns : Outline) : Prop :=
  ∀ k, m.run k = (Forest.number k ns, k + Forest.size ns)

namespace Draws

variable {m m' : StateM NodeId Tree} {ns ns' : Outline}

theorem nil : Draws (pure []) [] := fun _ => rfl

theorem both (h : Draws m ns) (h' : Draws m' ns') : Draws (drawBoth m m') (ns ++ ns') := by
  intro k
  rw [drawBoth, run_bind (h k), run_bind (h' _), Forest.number_append, Forest.size_append,
    ← Nat.add_assoc]
  rfl

theorem condition (path : Path) (op : Comparison) (value : Operand) :
    Draws (do
      let id ← draw
      pure [.condition id path op value]) [.condition () path op value] := fun _ => rfl

/-- The identifier of a container is drawn before those of what it holds. -/
theorem container {n : Node Unit} {make : NodeId → Tree → Node NodeId} (h : Draws m n.children)
    (hmake : ∀ k, n.number k = make k (Forest.number (k + 1) n.children)) :
    Draws (do
      let id ← draw
      let ns ← m
      pure [make id ns]) [n] := by
  intro k
  have hdraw : draw.run k = (k, k + 1) := rfl
  have hsize : k + Forest.size [n] = k + 1 + Forest.size n.children := by
    rw [Forest.size, Forest.size, Node.size_eq, Nat.add_zero, Nat.add_comm _ 1, ← Nat.add_assoc]
  rw [run_bind hdraw, run_bind (h _), hsize, Forest.number, hmake]
  rfl

end Draws

/-- Without an operator nothing is drawn where fields are shadowed. -/
theorem outlineFields_of_not_hasOperator {path : Path} {fields : List (String × Json)}
    (h : hasOperator fields = false) : outlineFields path true fields = [] := by
  induction fields with
  | nil => rw [outlineFields]
  | cons f fields ih =>
    obtain ⟨k, v⟩ := f
    rw [hasOperator, List.any_cons, Bool.or_eq_false_iff] at h
    obtain ⟨hk, hfields⟩ := h
    rw [outlineFields, ih hfields, Key.ofString_of_not_isOperator hk]
    rfl

mutual

/-- Reading with a counter is numbering what is read without one. -/
theorem draws_drawTree (path : Path) : ∀ v : Json, Draws (drawTree path v) (outline path v)
  | .null | .bool _ | .number _ | .string _ => by
    simp only [drawTree, outline]
    exact Draws.nil
  | .array items => by
    rw [drawTree, outline]
    exact draws_drawItems path items
  | .object fields => by
    rw [drawTree, outline]
    exact draws_drawFields path false fields

theorem draws_drawItems (path : Path) :
    ∀ vs : List Json, Draws (drawItems path vs) (outlineItems path vs)
  | [] => by
    rw [drawItems, outlineItems]
    exact Draws.nil
  | v :: vs => by
    rw [drawItems, outlineItems]
    exact (draws_drawTree path v).both (draws_drawItems path vs)

theorem draws_drawFields (path : Path) (shadowed : Bool) :
    ∀ fields : List (String × Json),
      Draws (drawFields path shadowed fields) (outlineFields path shadowed fields)
  | [] => by
    rw [drawFields, outlineFields]
    exact Draws.nil
  | (k, v) :: fields => by
    rw [drawFields, outlineFields]
    refine Draws.both ?_ (draws_drawFields path shadowed fields)
    cases Key.ofString k with
    | comparison op => exact Draws.condition path op (.ofJson v)
    | connective op =>
      exact (draws_drawTree path v).container (n := .logical () op _) fun _ => rfl
    | quantifier op =>
      exact (draws_drawTree [] v).container (n := .embedded () path op _) fun _ => rfl
    | field name =>
      cases shadowed with
      | true => exact Draws.nil
      | false => exact draws_drawBody (path ++ [name]) v

theorem draws_drawBody (path : Path) :
    ∀ v : Json, Draws (drawBody path v) (outlineBody path v)
  | .null | .bool _ | .number _ | .string _ | .array _ => by
    simp only [drawBody, outlineBody]
    exact Draws.nil
  | .object fields => by
    have hoperators := draws_drawFields path true fields
    have hfields := draws_drawFields path false fields
    rw [drawBody, outlineBody]
    cases h : hasOperator fields with
    | true => exact hoperators
    | false =>
      rw [outlineFields_of_not_hasOperator h] at hoperators
      exact hoperators.both hfields

end

/-- Drawing each identifier when the key of its node is met gives the tree of a query and its next
identifier. In pre-order the identifiers are consecutive, from the first one on, and the next one is
right behind them. There are as many as there are live keys: what is ignored takes none. -/
theorem run_drawTree (k : NodeId) (q : Json) :
    (drawTree [] q).run k = (toTree k q, nextId k q) ∧
      Forest.ids (toTree k q) = List.range' k (Forest.nodes (toTree k q)).length ∧
      nextId k q = k + (Forest.nodes (toTree k q)).length ∧
      ∃ ps : List Position, ps.Nodup ∧ (∀ p, p ∈ ps ↔ IsLive q p) ∧
        ps.length = (Forest.nodes (toTree k q)).length := by
  have hlength : (Forest.nodes (toTree k q)).length = Forest.size (outline [] q) := by
    rw [Forest.length_nodes, toTree, Forest.size_number]
  rw [hlength]
  refine ⟨draws_drawTree [] q k, Forest.ids_number k _, rfl, ?_⟩
  refine ⟨Forest.ids (located [] [] q), nodup_ids_located q, fun p => mem_ids_located, ?_⟩
  rw [Forest.length_ids, ← relabel_located, Forest.size_relabel]

-- `x` is shadowed, and no condition stands in `b` or at the first place of `$and`
example :
    (drawTree [] (.object [
      ("a", .object [("$gte", .null), ("x", .object [("$eq", .null)])]),
      ("b", .null),
      ("$and", .array [.null, .object [("c", .object [("$eq", .null)])]])])).run 7 =
      ([.condition 7 ["a"] .gte .null,
        .logical 8 .and [.condition 9 ["c"] .eq .null]], 10) := rfl

end Query

end FilterTree
