import FilterTree.Json.Basic

/-!
# Types with a JSON form

`JsonForm α` gives the JSON form of the values of a type and the reader for it. The readers are
exact: each accepts the shape of its own type and nothing else.
-/

namespace FilterTree

class JsonForm (α : Type) where
  encode : α → Json
  decode? : Json → Option α

export JsonForm (encode decode?)

/-- The unit value is `null`. -/
instance : JsonForm Unit where
  encode _ := .null
  decode?
    | .null => some ()
    | _ => none

instance : JsonForm Bool where
  encode := .bool
  decode?
    | .bool b => some b
    | _ => none

instance : JsonForm Number where
  encode := .number
  decode? := Json.number?

instance : JsonForm String where
  encode := .string
  decode? := Json.string?

/-- A natural number is a whole number that is not negative. -/
instance : JsonForm Nat where
  encode n := .number (.int n)
  decode?
    | .number (.int n) => if 0 ≤ n then some n.toNat else none
    | _ => none

/-- Any JSON value is its own form. -/
instance : JsonForm Json where
  encode v := v
  decode? v := some v

/-- A list is an array of which every item can be read. -/
instance {α : Type} [JsonForm α] : JsonForm (List α) where
  encode xs := .array (xs.map encode)
  decode?
    | .array items => items.mapM decode?
    | _ => none

end FilterTree
