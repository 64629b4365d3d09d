import FilterTree.Json.Merge
import FilterTree.Forest.Numbering

/-!
# Writing a query

Each node is written as an object of its own, with the operator nested under the path, and the
objects of a forest are merged from left to right. The items of `$and` and `$or` stay apart. A
container in which nothing is written is left out.
-/

namespace FilterTree

namespace Fields

/-- Wraps an object in one object per name of the path, the first name outermost. -/
def nest : Path → Fields → Fields
  | [], body => body
  | name :: path, body => [(name, .object (nest path body))]

end Fields

variable {ι : Type}

mutual

/-- The object of a node. It is empty if nothing is written. -/
def Node.toFields : Node ι → Fields
  | .condition _ path op value => Fields.nest path [(op.symbol, value.toJson)]
  | .logical _ op children =>
    match op with
    | .not =>
      let body := Fields.mergeAll (Forest.toFieldsList children)
      if body.isEmpty then [] else [(op.symbol, .object body)]
    | .and | .or =>
      -- the items are not merged, so each keeps the operators of its own fields
      let items := (Forest.toFieldsList children).filter (!·.isEmpty)
      if items.isEmpty then [] else [(op.symbol, .array (items.map .object))]
  | .embedded _ path op subtree =>
    let body := Fields.mergeAll (Forest.toFieldsList subtree)
    if body.isEmpty then [] else Fields.nest path [(op.symbol, .object body)]

/-- The objects of the nodes of a forest. -/
def Forest.toFieldsList : List (Node ι) → List Fields
  | [] => []
  | n :: ns => Node.toFields n :: Forest.toFieldsList ns

end

/-- The merged object of a forest. -/
def Forest.toFields (ns : Forest ι) : Fields := Fields.mergeAll (Forest.toFieldsList ns)

/-- The query of a forest; there is none if nothing is written. -/
def Forest.toQuery? (ns : Forest ι) : Option Json :=
  let fields := Forest.toFields ns
  if fields.isEmpty then none else some (.object fields)

mutual

/-- Identifiers are not written. -/
theorem Node.toFields_number (k : NodeId) :
    (n : Node Unit) → (n.number k).toFields = n.toFields
  | .condition .. => rfl
  | .logical _ op ns => by
    cases op <;> simp [Node.number, Node.toFields, Forest.toFieldsList_number (k + 1) ns]
  | .embedded _ _ _ ns => by
    simp [Node.number, Node.toFields, Forest.toFieldsList_number (k + 1) ns]

theorem Forest.toFieldsList_number (k : NodeId) :
    (ns : List (Node Unit)) →
      Forest.toFieldsList (Forest.number k ns) = Forest.toFieldsList ns
  | [] => rfl
  | n :: ns => by
    simp [Forest.number, Forest.toFieldsList, Node.toFields_number k n,
      Forest.toFieldsList_number (k + n.size) ns]

end

end FilterTree
