import FilterTree.Forest.Numbering

/-!
# Reading a query

A query is JSON; its tree has one node for every operator key that counts. The reader carries the
path of field names passed so far.

- At a condition position an array stands for its items, one after another, and each key of an
  object for itself: an operator applies to the path, a field extends it.
- The body of a field that has any operator key is read for its operators only. Otherwise it is read
  like an object at a condition position.
- A connective keeps the path for what is in it. A quantifier starts its body at the empty path.

Everything else, such as a scalar in place of a filter, is ignored.
-/

namespace FilterTree

namespace Query

/-- Whether an object has an operator among its keys. -/
def hasOperator (fields : Fields) : Bool := fields.any fun f => (Key.ofString f.1).isOperator

mutual

/-- The nodes of a value at a condition position. -/
def outline (path : Path) : Json → Outline
  | .array items => outlineItems path items
  | .object fields => outlineFields path false fields
  | _ => []

/-- The nodes of the items of an array, side by side. -/
def outlineItems (path : Path) : List Json → Outline
  | [] => []
  | v :: vs => outline path v ++ outlineItems path vs

/-- The nodes of the keys of an object: of its operators, and of its fields unless these are
shadowed by operators beside them. -/
def outlineFields (path : Path) (shadowed : Bool) : List (String × Json) → Outline
  | [] => []
  | (k, v) :: fields =>
    (match Key.ofString k with
      | .comparison op => [.condition () path op (.ofJson v)]
      | .connective op => [.logical () op (outline path v)]
      | .quantifier op => [.embedded () path op (outline [] v)]
      | .field name => if shadowed then [] else outlineBody (path ++ [name]) v) ++
    outlineFields path shadowed fields

/-- The nodes of the body of a field; a body that is no object has none. -/
def outlineBody (path : Path) : Json → Outline
  | .object fields => outlineFields path (hasOperator fields) fields
  | _ => []

end

/-- The tree of a query, with identifiers from `first`. -/
def toTree (first : NodeId) (query : Json) : Tree := Forest.number first (outline [] query)

/-- The first identifier that the tree of a query leaves free. -/
def nextId (first : NodeId) (query : Json) : NodeId := first + Forest.size (outline [] query)

end Query

end FilterTree
