import FilterTree.Forest.Basic
import FilterTree.Operand.Form
import FilterTree.Key.Form

/-!
# The JSON form of nodes

A node is an object whose field `type` names its kind. The reader takes the other fields of that
kind in any order; a field that the kind does not have is ignored, one that is missing or written
twice is an error. A node inside another may give its kind by its number in `NodeKind.all` instead,
which is never written.
-/

namespace FilterTree

instance : JsonForm NodeKind where
  encode kind := .string kind.name
  decode? v := v.string?.bind NodeKind.ofName?

/-! ## Writing -/

mutual

/-- The object of a node. -/
def Node.encodeForm : Node NodeId → Json
  | .condition id path op value =>
    .object [("type", encode NodeKind.condition), ("id", encode id), ("fieldPath", encode path),
      ("operator", encode op), ("value", encode value)]
  | .logical id op children =>
    .object [("type", encode NodeKind.logical), ("id", encode id), ("operator", encode op),
      ("children", .array (Forest.encodeItems children))]
  | .embedded id path op subtree =>
    .object [("type", encode NodeKind.embedded), ("id", encode id), ("fieldPath", encode path),
      ("operator", encode op), ("subtree", .array (Forest.encodeItems subtree))]

/-- The objects of the nodes of a forest. -/
def Forest.encodeItems : List (Node NodeId) → List Json
  | [] => []
  | n :: ns => Node.encodeForm n :: Forest.encodeItems ns

end

/-! ## Reading -/

namespace Fields

/-- The value of a key that is there exactly once. -/
def only? {α : Type} (key : String) (fields : List (String × α)) : Option α :=
  match fields.filter (·.1 == key) with
  | [(_, v)] => some v
  | _ => none

/-- Reads the value of a key that is there exactly once. Keys that are repeated inside the value
itself take their last value. -/
def read? {α : Type} [JsonForm α] (key : String) (fields : Fields) : Option α :=
  (only? key fields).bind fun v => decode? v.normalize

end Fields

/-- The kind that a value gives, for a node that is `inner` to another or not. -/
def NodeKind.read? (inner : Bool) (v : Json) : Option NodeKind :=
  decode? v <|> if inner then (decode? v).bind fun n : Nat => NodeKind.all[n]? else none

/-- Puts a node together from its fields, of which `forests` holds the readings as forests. -/
def Node.ofFields? (inner : Bool) (fields : Fields) (forests : List (String × Option Tree)) :
    Option (Node NodeId) := do
  match ← (Fields.only? "type" fields).bind (NodeKind.read? inner) with
  | NodeKind.condition =>
    some (.condition (← fields.read? "id") (← fields.read? "fieldPath")
      (← fields.read? "operator") (← fields.read? "value"))
  | NodeKind.logical =>
    some (.logical (← fields.read? "id") (← fields.read? "operator")
      (← (Fields.only? "children" forests).join))
  | NodeKind.embedded =>
    some (.embedded (← fields.read? "id") (← fields.read? "fieldPath")
      (← fields.read? "operator") (← (Fields.only? "subtree" forests).join))

mutual

/-- Reads a node. -/
def Node.decodeForm? (inner : Bool) : Json → Option (Node NodeId)
  | .object fields => Node.ofFields? inner fields (Forest.decodeFields fields)
  | _ => none

/-- Reads the nodes of a container. -/
def Forest.decodeItems? : List Json → Option Tree
  | [] => some []
  | v :: vs => do
    let n ← Node.decodeForm? true v
    let ns ← Forest.decodeItems? vs
    some (n :: ns)

/-- Reads the forest of a container, which is an array of nodes. -/
def Forest.decodeForm? : Json → Option Tree
  | .array items => Forest.decodeItems? items
  | _ => none

/-- Reads every field of an object as the forest of a container. -/
def Forest.decodeFields : List (String × Json) → List (String × Option Tree)
  | [] => []
  | (k, v) :: fields => (k, Forest.decodeForm? v) :: Forest.decodeFields fields

end

instance : JsonForm (Node NodeId) where
  encode := Node.encodeForm
  decode? := Node.decodeForm? false

/-- The objects of a forest are those of its nodes. -/
theorem Forest.encodeItems_eq_map (ns : Tree) : Forest.encodeItems ns = ns.map encode := by
  induction ns with
  | nil => rfl
  | cons n ns ih => simp only [Forest.encodeItems, ih, List.map_cons, encode]

/-- The forest of a container is read as the list of its nodes. -/
theorem Forest.decodeItems?_eq_mapM (vs : List Json) :
    Forest.decodeItems? vs = vs.mapM (Node.decodeForm? true) := by
  induction vs with
  | nil => rfl
  | cons v vs ih => simp only [Forest.decodeItems?, ih, List.mapM_cons]; rfl

end FilterTree
