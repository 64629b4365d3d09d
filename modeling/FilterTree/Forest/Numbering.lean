import FilterTree.Forest.Basic

/-!
# Numbering

`Forest.number k` gives the nodes of an outline the identifiers `k`, `k + 1`, … in pre-order, so a
forest of `n` nodes takes those below `k + n`.
-/

namespace FilterTree

mutual

/-- Numbers a node and the nodes in it, from `k`. -/
def Node.number (k : NodeId) : Node Unit → Node NodeId
  | .condition _ p o v => .condition k p o v
  | .logical _ o ns => .logical k o (Forest.number (k + 1) ns)
  | .embedded _ p o ns => .embedded k p o (Forest.number (k + 1) ns)

/-- Numbers the nodes of an outline, from `k`. -/
def Forest.number (k : NodeId) : List (Node Unit) → Tree
  | [] => []
  | n :: ns => Node.number k n :: Forest.number (k + n.size) ns

end

mutual

/-- The identifiers of a numbered node are consecutive in pre-order. -/
theorem Node.ids_number (k : NodeId) :
    (n : Node Unit) → (n.number k).nodes.map Node.id = List.range' k n.size
  | .condition .. => by simp [Node.number, Node.nodes, Node.size, Node.id]
  | .logical _ _ ns => by
    simp [Node.number, Node.nodes, Node.size, Node.id, Forest.ids_number (k + 1) ns,
      List.range'_succ]
  | .embedded _ _ _ ns => by
    simp [Node.number, Node.nodes, Node.size, Node.id, Forest.ids_number (k + 1) ns,
      List.range'_succ]

/-- The identifiers of a numbered outline are consecutive in pre-order. -/
theorem Forest.ids_number (k : NodeId) :
    (ns : List (Node Unit)) →
      (Forest.nodes (Forest.number k ns)).map Node.id = List.range' k (Forest.size ns)
  | [] => by simp [Forest.number, Forest.nodes, Forest.size]
  | n :: ns => by
    simp [Forest.number, Forest.nodes, Forest.size, Node.ids_number k n,
      Forest.ids_number (k + n.size) ns]

end

end FilterTree
