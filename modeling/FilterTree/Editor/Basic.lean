import FilterTree.Settings
import FilterTree.Editor.Refusal
import FilterTree.Json.Parser
import FilterTree.Json.Printer
import FilterTree.Forest.Edit
import FilterTree.Query.Reading
import FilterTree.Query.Writing

/-!
# The editor

An editor holds the tree of a query and the next free identifier. Identifiers start at 1 and are
never used again, not even after the tree is cleared or loaded anew. An edit answers or is refused,
and it hands on the editor in either case (`Edit`). What it has changed before a refusal stays
changed, so it checks everything first.
-/

namespace FilterTree

structure Editor where
  tree : Tree := []
  nextId : NodeId := 1
  settings : Settings := {}
deriving DecidableEq, Repr

namespace Editor

/-! ## Queries in and out -/

/-- Replaces the tree by that of a query. Identifiers go on from the next free one. -/
def load (e : Editor) (query : Json) : Editor :=
  { e with tree := Query.toTree e.nextId query, nextId := Query.nextId e.nextId query }

def ofQuery (query : Json) : Editor := load {} query

/-- An editor on the query that a JSON text holds. -/
def ofText? (text : String) : Option Editor := (Json.parse? text).map ofQuery

/-- The query of the tree; there is none if the tree has no condition. -/
def query? (e : Editor) : Option Json := Forest.toQuery? e.tree

/-- The query of the tree as text, `null` if there is none. -/
def text (e : Editor) : String := (e.query?.getD .null).render

/-- Replaces the tree by that of its own query. -/
def reload (e : Editor) : Editor := e.load (e.query?.getD .null)

/-! ## Views -/

def ids (e : Editor) : List NodeId := Forest.ids e.tree

def isEmpty (e : Editor) : Bool := e.tree.isEmpty

def find? (e : Editor) (id : NodeId) : Option (Node NodeId) := Forest.find? id e.tree

/-! ## Checks -/

/-- A strict editor refuses a value that the comparison does not accept. -/
def checkValue (e : Editor) (op : Comparison) (value : Operand) : Except Refusal Unit :=
  if e.settings.validateValues && !op.accepts value then
    .error (.rejectedValue op value.typeName)
  else .ok ()

/-- Nodes can be added among the roots and in the containers of the tree. -/
def checkParent (e : Editor) : Option NodeId → Except Refusal Unit
  | none => .ok ()
  | some id =>
    match e.find? id with
    | none => .error (.parentNotFound id)
    | some p => if p.isContainer then .ok () else .error (.leafParent id p.kind)

/-- Only the conditions of the tree can be updated. -/
def checkCondition (e : Editor) (id : NodeId) : Except Refusal Unit :=
  match e.find? id with
  | none => .error (.nodeNotFound id)
  | some n =>
    match n.kind with
    | .condition => .ok ()
    | kind => .error (.notCondition id kind)

end Editor

/-! ## Edits -/

/-- A computation on an editor that answers or is refused. It goes on from the editor that the last
step has left, and a refusal leaves the editor as it is at that point. -/
abbrev Edit := EStateM Refusal Editor

/-- What an edit comes to: an answer or a refusal, and in either case the editor that is left. -/
abbrev Outcome := EStateM.Result Refusal Editor

namespace Editor

/-- Refuses what a check of the editor refuses. -/
def require (check : Editor → Except Refusal Unit) : Edit Unit := do ofExcept (check (← get))

/-- Uses up the next free identifier, and answers it. -/
def drawId : Edit NodeId := modifyGet fun e => (e.nextId, { e with nextId := e.nextId + 1 })

/-- Adds a node with the next free identifier as the last root or as the last child of `parent`, and
answers its identifier. -/
def attach (parent : Option NodeId) (node : NodeId → Node NodeId) : Edit NodeId := do
  require (·.checkParent parent)
  let id ← drawId
  modify fun e => { e with tree := Forest.insert parent (node id) e.tree }
  return id

/-- Adds a condition. The value is checked before the parent is. -/
def addCondition (path : Path) (op : Comparison) (value : Operand) (parent : Option NodeId) :
    Edit NodeId := do
  require (·.checkValue op value)
  attach parent fun id => .condition id path op value

/-- Adds an empty combination. -/
def addLogical (op : Connective) (parent : Option NodeId) : Edit NodeId :=
  attach parent fun id => .logical id op []

/-- Adds an empty filter on the elements of an array. -/
def addEmbedded (path : Path) (op : Quantifier) (parent : Option NodeId) : Edit NodeId :=
  attach parent fun id => .embedded id path op []

/-- Gives a condition a new comparison and value; it keeps its identifier and its path. The value is
checked before the node is. -/
def update (id : NodeId) (op : Comparison) (value : Operand) : Edit Unit := do
  require (·.checkValue op value)
  require (·.checkCondition id)
  modify fun e => { e with tree := Forest.modify id (Node.compare op value) e.tree }

/-- Removes a node with everything in it, and answers whether there was one. -/
def remove (e : Editor) (id : NodeId) : Bool × Editor :=
  match Forest.remove? id e.tree with
  | some tree => (true, { e with tree := tree })
  | none => (false, e)

/-- Drops the whole tree. -/
def clear (e : Editor) : Editor := { e with tree := [] }

end Editor

end FilterTree
