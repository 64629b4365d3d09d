import FilterTree.Forest.Basic

/-!
# Edit errors

Why an edit is refused, and the message that says so.
-/

namespace FilterTree

inductive Refusal where
  /-- The parent of a new node is not in the tree. -/
  | parentNotFound (id : NodeId)
  /-- The parent of a new node cannot hold children. -/
  | leafParent (id : NodeId) (kind : NodeKind)
  /-- The condition to update is not in the tree. -/
  | nodeNotFound (id : NodeId)
  /-- The node to update is no condition. -/
  | notCondition (id : NodeId) (kind : NodeKind)
  /-- The comparison does not accept a value of this type. -/
  | rejectedValue (op : Comparison) (typeName : String)
deriving DecidableEq, Repr

/-- The message for users. -/
def Refusal.message : Refusal → String
  | parentNotFound id => "Parent node not found: " ++ toString id
  | leafParent id kind =>
    "Node " ++ toString id ++ " cannot hold children: it is a " ++ kind.name ++ " node"
  | nodeNotFound id => "Node not found: " ++ toString id
  | notCondition id kind =>
    "Node " ++ toString id ++ " is a " ++ kind.name ++ " node, expected a condition node"
  | rejectedValue op typeName =>
    "Operator " ++ op.symbol ++ " does not accept a " ++ typeName ++ " value"

end FilterTree
