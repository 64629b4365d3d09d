import FilterTree.Operand

/-!
# Nodes

The tree form of a filter. A *forest* is an ordered list of nodes. Conditions are leaves; logical
and embedded nodes are containers, each with a forest of its own. Nodes carry a label: the nodes of
an edited tree are labelled with their identifiers, those of an `Outline` with nothing.

The functions come in pairs, one for a node and one for a forest. `Forest.nodes` lists all nodes in
pre-order: a node, then everything in it, then its right siblings. `Forest.find?` looks for the
first node with an identifier in that order.
-/

namespace FilterTree

/-- Field names from the outside in. The empty path is the value that the filter is applied to. -/
abbrev Path := List String

/-- What a node of an edited tree is called. Identifiers do not run out here: runs in which a
counter of fixed width overflows are left out. -/
abbrev NodeId := Nat

inductive Node (ι : Type) where
  /-- A comparison of the field at `path` with `value`. -/
  | condition (id : ι) (path : Path) (op : Comparison) (value : Operand)
  /-- A combination of filters. -/
  | logical (id : ι) (op : Connective) (children : List (Node ι))
  /-- A filter on the elements of the array at `path`; paths in `subtree` start at the element. -/
  | embedded (id : ι) (path : Path) (op : Quantifier) (subtree : List (Node ι))
deriving Repr

/-- An ordered list of nodes. -/
abbrev Forest (ι : Type) := List (Node ι)

/-- A filter in which the nodes have no identifiers yet. -/
abbrev Outline := Forest Unit

/-- A filter in which every node has an identifier. -/
abbrev Tree := Forest NodeId

/-- The three sorts of nodes. -/
inductive NodeKind where
  | condition
  | logical
  | embedded
deriving DecidableEq, Repr

namespace NodeKind

def name : NodeKind → String
  | condition => "condition"
  | logical => "logical"
  | embedded => "embedded"

/-- All kinds. -/
def all : List NodeKind := [condition, logical, embedded]

def ofName? (s : String) : Option NodeKind := all.find? (·.name == s)

end NodeKind

variable {ι : Type}

namespace Node

def id : Node ι → ι
  | condition i _ _ _ => i
  | logical i _ _ => i
  | embedded i _ _ _ => i

def kind : Node ι → NodeKind
  | condition .. => .condition
  | logical .. => .logical
  | embedded .. => .embedded

/-- The forest of a container; a condition has none. -/
def children? : Node ι → Option (Forest ι)
  | condition .. => none
  | logical _ _ children => some children
  | embedded _ _ _ subtree => some subtree

/-- Whether a node can hold others. -/
def isContainer (n : Node ι) : Bool := n.children?.isSome

end Node

/-! ## Equality -/

mutual

/-- Equality of nodes as data. -/
def Node.decEq [DecidableEq ι] : (m n : Node ι) → Decidable (m = n)
  | .condition i p o v, n => match n with
    | .condition j q r w => decidable_of_iff (i = j ∧ p = q ∧ o = r ∧ v = w) (by simp)
    | .logical .. | .embedded .. => isFalse (by simp)
  | .logical i o ms, n => match n with
    | .logical j r ns =>
      have := Forest.decEq ms ns
      decidable_of_iff (i = j ∧ o = r ∧ ms = ns) (by simp)
    | .condition .. | .embedded .. => isFalse (by simp)
  | .embedded i p o ms, n => match n with
    | .embedded j q r ns =>
      have := Forest.decEq ms ns
      decidable_of_iff (i = j ∧ p = q ∧ o = r ∧ ms = ns) (by simp)
    | .condition .. | .logical .. => isFalse (by simp)

def Forest.decEq [DecidableEq ι] : (ms ns : List (Node ι)) → Decidable (ms = ns)
  | [], [] => isTrue rfl
  | [], _ :: _ | _ :: _, [] => isFalse (by simp)
  | m :: ms, n :: ns =>
    have := Node.decEq m n
    have := Forest.decEq ms ns
    decidable_of_iff (m = n ∧ ms = ns) (by simp)

end

instance [DecidableEq ι] : DecidableEq (Node ι) := Node.decEq

/-! ## Equivalence -/

mutual

/-- Equality of nodes up to the equivalence of their operands. -/
def Node.equiv [DecidableEq ι] : Node ι → Node ι → Bool
  | .condition i p o v, .condition j q r w => i = j && p = q && o = r && v.equiv w
  | .logical i o ms, .logical j r ns => i = j && o = r && Forest.equiv ms ns
  | .embedded i p o ms, .embedded j q r ns => i = j && p = q && o = r && Forest.equiv ms ns
  | _, _ => false

def Forest.equiv [DecidableEq ι] : List (Node ι) → List (Node ι) → Bool
  | [], [] => true
  | m :: ms, n :: ns => Node.equiv m n && Forest.equiv ms ns
  | _, _ => false

end

/-! ## Views -/

mutual

/-- A node and all nodes in it, in pre-order. -/
def Node.nodes : Node ι → List (Node ι)
  | .condition i p o v => [.condition i p o v]
  | .logical i o ns => .logical i o ns :: Forest.nodes ns
  | .embedded i p o ns => .embedded i p o ns :: Forest.nodes ns

/-- All nodes of a forest, in pre-order. -/
def Forest.nodes : List (Node ι) → List (Node ι)
  | [] => []
  | n :: ns => Node.nodes n ++ Forest.nodes ns

end

mutual

/-- The number of nodes in a node, itself included. -/
def Node.size : Node ι → Nat
  | .condition .. => 1
  | .logical _ _ ns => Forest.size ns + 1
  | .embedded _ _ _ ns => Forest.size ns + 1

/-- The number of nodes in a forest. -/
def Forest.size : List (Node ι) → Nat
  | [] => 0
  | n :: ns => Node.size n + Forest.size ns

end

/-- The identifiers of a forest, in pre-order. -/
def Forest.ids (ns : Forest ι) : List ι := (Forest.nodes ns).map Node.id

/-! ## Search -/

mutual

/-- The first node with an identifier, at a node or in it. -/
def Node.find? [DecidableEq ι] (id : ι) : Node ι → Option (Node ι)
  | .condition i p o v => if i = id then some (.condition i p o v) else none
  | .logical i o ns => if i = id then some (.logical i o ns) else Forest.find? id ns
  | .embedded i p o ns => if i = id then some (.embedded i p o ns) else Forest.find? id ns

/-- The first node with an identifier, in pre-order. -/
def Forest.find? [DecidableEq ι] (id : ι) : List (Node ι) → Option (Node ι)
  | [] => none
  | n :: ns =>
    match Node.find? id n with
    | some found => some found
    | none => Forest.find? id ns

end

end FilterTree
