import FilterTree.Forest.Basic

/-!
# Edits of a forest

Each edit works on one node that is found by its identifier, and answers `none` if there is none.
`modify?` takes the first node in pre-order. `remove?` looks at all siblings of a level before it
looks into any of them. Where identifiers are distinct both mean the one node that has it.
-/

namespace FilterTree

variable {ι : Type}

/-- Adds a last child to a container; a condition stays as it is. -/
def Node.push (child : Node ι) : Node ι → Node ι
  | .condition i p o v => .condition i p o v
  | .logical i o ns => .logical i o (ns ++ [child])
  | .embedded i p o ns => .embedded i p o (ns ++ [child])

/-- Gives a condition a new comparison and value; a container stays as it is. -/
def Node.compare (op : Comparison) (value : Operand) : Node ι → Node ι
  | .condition i p _ _ => .condition i p op value
  | n => n

variable [DecidableEq ι]

mutual

/-- Replaces the first node with an identifier, at a node or in it. -/
def Node.modify? (id : ι) (f : Node ι → Node ι) : Node ι → Option (Node ι)
  | .condition i p o v =>
    if i = id then some (f (.condition i p o v)) else none
  | .logical i o ns =>
    if i = id then some (f (.logical i o ns))
    else (Forest.modify? id f ns).map (.logical i o)
  | .embedded i p o ns =>
    if i = id then some (f (.embedded i p o ns))
    else (Forest.modify? id f ns).map (.embedded i p o)

/-- Replaces the first node with an identifier, in pre-order. -/
def Forest.modify? (id : ι) (f : Node ι → Node ι) : List (Node ι) → Option (Forest ι)
  | [] => none
  | n :: ns =>
    match Node.modify? id f n with
    | some n => some (n :: ns)
    | none => (Forest.modify? id f ns).map (n :: ·)

end

/-- Replaces the first node with an identifier; without one the forest stays as it is. -/
def Forest.modify (id : ι) (f : Node ι → Node ι) (ns : Forest ι) : Forest ι :=
  (Forest.modify? id f ns).getD ns

/-- Adds a node as the last root or as the last child of a container. -/
def Forest.insert (parent : Option ι) (child : Node ι) (ns : Forest ι) : Forest ι :=
  match parent with
  | none => ns ++ [child]
  | some id => Forest.modify id (Node.push child) ns

/-- Removes the first root with an identifier. -/
def Forest.removeRoot? (id : ι) (ns : Forest ι) : Option (Forest ι) :=
  if ns.any (·.id = id) then some (ns.eraseP (·.id = id)) else none

mutual

/-- Removes a node from the forest of a container or from below. -/
def Node.removeBelow? (id : ι) : Node ι → Option (Node ι)
  | .condition .. => none
  | .logical i o ns =>
    (Forest.removeRoot? id ns <|> Forest.removeBelow? id ns).map (.logical i o)
  | .embedded i p o ns =>
    (Forest.removeRoot? id ns <|> Forest.removeBelow? id ns).map (.embedded i p o)

/-- Removes a node from below the roots of a forest: from the first of them that holds one. -/
def Forest.removeBelow? (id : ι) : List (Node ι) → Option (Forest ι)
  | [] => none
  | n :: ns =>
    match Node.removeBelow? id n with
    | some n => some (n :: ns)
    | none => (Forest.removeBelow? id ns).map (n :: ·)

end

/-- Removes a node with an identifier and everything in it: a root if there is one, else a node
below. -/
def Forest.remove? (id : ι) (ns : Forest ι) : Option (Forest ι) :=
  Forest.removeRoot? id ns <|> Forest.removeBelow? id ns

end FilterTree
