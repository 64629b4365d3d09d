import FilterTree.Json.Equiv
import FilterTree.Key

/-!
# Operands

The value that a comparison is applied to, tagged by what matters for the contract between
comparisons and values: scalars, lists of one kind, and everything else. `ofJson` and `toJson` pass
between tagged values and JSON without loss. `Comparison.accepts` is the contract.
-/

namespace FilterTree

inductive Operand where
  | null
  | bool (b : Bool)
  | number (n : Number)
  | string (s : String)
  | strings (items : List String)
  | numbers (items : List Number)
  /-- A value with no tag of its own: an object, or an array of mixed or nested items. -/
  | other (v : Json)
deriving DecidableEq, Repr

namespace Operand

/-- An array of strings or of numbers has a tag of its own; the empty one counts as strings. -/
def ofItems (items : List Json) : Operand :=
  if items.all (·.string?.isSome) then .strings (items.filterMap Json.string?)
  else if items.all (·.number?.isSome) then .numbers (items.filterMap Json.number?)
  else .other (.array items)

def ofJson : Json → Operand
  | .null => .null
  | .bool b => .bool b
  | .number n => .number n
  | .string s => .string s
  | .array items => ofItems items
  | .object fields => .other (.object fields)

def toJson : Operand → Json
  | null => .null
  | bool b => .bool b
  | number n => .number n
  | string s => .string s
  | strings items => .array (items.map .string)
  | numbers items => .array (items.map .number)
  | other v => v

/-! ## Native values -/

def ofInt (n : Int) : Operand := .number (.int n)

/-- A double, or `null` for one that is not finite and has no JSON form. -/
def ofDouble (d : Option Double) : Operand :=
  match d with
  | some d => .number (.float d)
  | none => .null

/-- Whole numbers, tagged as numbers even if there are none. -/
def ofInts (items : List Int) : Operand := .numbers (items.map .int)

/-! ## Equality -/

/-- Equality tag by tag, with the equality of JSON below. -/
def equiv : Operand → Operand → Bool
  | null, null => true
  | bool a, bool b => a == b
  | number m, number n => m.equiv n
  | string s, string t => s == t
  | strings xs, strings ys => xs == ys
  | numbers xs, numbers ys => xs.length == ys.length && (xs.zip ys).all fun (m, n) => m.equiv n
  | other v, other w => v.equiv w
  | _, _ => false

/-! ## The contract with comparisons -/

/-- What a value is called in messages. -/
def typeName : Operand → String
  | null => "null"
  | bool _ => "boolean"
  | number _ => "number"
  | string _ => "string"
  | strings _ => "string array"
  | numbers _ => "number array"
  | other (.array _) => "mixed array"
  | other _ => "object"

end Operand

/-- Whether a comparison makes sense with a value: equality with scalars, order with numbers and
strings, membership with lists of one kind, a pattern with a string, and presence with a boolean. -/
def Comparison.accepts : Comparison → Operand → Bool
  | eq, v | ne, v =>
    match v with
    | .null | .bool _ | .number _ | .string _ => true
    | _ => false
  | lt, v | gt, v | lte, v | gte, v | elemMatch, v =>
    match v with
    | .number _ | .string _ => true
    | _ => false
  | isIn, v | notIn, v | containsAll, v =>
    match v with
    | .strings _ | .numbers _ => true
    | _ => false
  | ilike, v =>
    match v with
    | .string _ => true
    | _ => false
  | isPresent, v =>
    match v with
    | .bool _ => true
    | _ => false

end FilterTree
