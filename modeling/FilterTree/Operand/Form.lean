import FilterTree.Json.Form
import FilterTree.Operand

/-!
# The JSON form of operands

An operand has no tag in its JSON form: it is written as its payload, and read as the first tag, in
the order of declaration, whose payload type accepts the value.
-/

namespace FilterTree

namespace Operand

/-- The form of the payload. -/
def encodePayload : Operand → Json
  | null => encode ()
  | bool b => encode b
  | number n => encode n
  | string s => encode s
  | strings items => encode items
  | numbers items => encode items
  | other v => encode v

/-- The readers of the tags, in the order in which they are tried. -/
def readers : List (Json → Option Operand) :=
  [fun v => (decode? v).map fun () => null,
   fun v => (decode? v).map bool,
   fun v => (decode? v).map number,
   fun v => (decode? v).map string,
   fun v => (decode? v).map strings,
   fun v => (decode? v).map numbers,
   fun v => (decode? v).map other]

/-- The first tag that accepts a value. -/
def decodeFirst? (v : Json) : Option Operand := readers.findSome? (· v)

instance : JsonForm Operand where
  encode := encodePayload
  decode? := decodeFirst?

end Operand

end FilterTree
