import FilterTree.Json.Token

/-!
# Reading JSON

A text is read token by token. The containers that are still open are a stack of frames, so the
nesting of the text is the length of the stack; opening a container beyond the given depth fails.
`Json.read?` keeps fields as they are written; `Json.parse?` removes repeated keys.
-/

namespace FilterTree

namespace Json

/-- A container that is part way through. Its finished parts stand in reverse order. -/
inductive Frame where
  /-- An array; an item comes next. -/
  | array (items : List Json)
  /-- An object; the value of `key` comes next. -/
  | object (fields : List (String × Json)) (key : String)
deriving Repr

/-- What may come next in a text, inside the containers that are open. -/
inductive Awaited where
  /-- A value. -/
  | value (frames : List Frame)
  /-- The first item of an array, or its end. -/
  | firstItem (frames : List Frame)
  /-- The comma after an item, or the end of the array. -/
  | moreItems (items : List Json) (frames : List Frame)
  /-- The first key of an object, or its end. -/
  | firstKey (frames : List Frame)
  /-- A key, after a comma. -/
  | key (fields : List (String × Json)) (frames : List Frame)
  /-- The colon after a key. -/
  | colon (fields : List (String × Json)) (key : String) (frames : List Frame)
  /-- The comma after a field, or the end of the object. -/
  | moreFields (fields : List (String × Json)) (frames : List Frame)
  /-- Nothing: the text is the value. -/
  | nothing (value : Json)
deriving Repr

namespace Awaited

/-- What comes after a finished value. -/
def after (v : Json) : List Frame → Awaited
  | [] => .nothing v
  | .array items :: frames => .moreItems (v :: items) frames
  | .object fields k :: frames => .moreFields ((k, v) :: fields) frames

/-- What comes after the first token of a value. -/
def start? (depth : Nat) (frames : List Frame) : Token → Option Awaited
  | .null => some (after .null frames)
  | .bool b => some (after (.bool b) frames)
  | .number n => some (after (.number n) frames)
  | .string s => some (after (.string s) frames)
  | .openArray => if frames.length < depth then some (.firstItem frames) else none
  | .openObject => if frames.length < depth then some (.firstKey frames) else none
  | _ => none

/-- What comes after one more token, if it is allowed there. -/
def step? (depth : Nat) : Awaited → Token → Option Awaited
  | .value frames, t => start? depth frames t
  | .firstItem frames, .closeArray => some (after (.array []) frames)
  | .firstItem frames, t => start? depth (.array [] :: frames) t
  | .moreItems items frames, .comma => some (.value (.array items :: frames))
  | .moreItems items frames, .closeArray => some (after (.array items.reverse) frames)
  | .firstKey frames, .closeObject => some (after (.object []) frames)
  | .firstKey frames, .string k => some (.colon [] k frames)
  | .key fields frames, .string k => some (.colon fields k frames)
  | .colon fields k frames, .colon => some (.value (.object fields k :: frames))
  | .moreFields fields frames, .comma => some (.key fields frames)
  | .moreFields fields frames, .closeObject => some (after (.object fields.reverse) frames)
  | _, _ => none

end Awaited

/-- The value of a text with at most `depth` nested containers, with its fields as written. -/
def read? (depth : Nat) (text : String) : Option Json := do
  let tokens ← Token.scan? text.toList
  match ← tokens.foldlM (Awaited.step? depth) (.value []) with
  | .nothing v => some v
  | _ => none

/-- Texts may nest this many containers. -/
def maxDepth : Nat := 127

/-- The value of a text, in which a repeated key takes its last value. -/
def parse? (text : String) : Option Json := (read? maxDepth text).map normalize

end Json

end FilterTree
