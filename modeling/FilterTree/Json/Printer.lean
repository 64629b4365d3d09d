import FilterTree.Json.Basic

/-!
# JSON text

The compact text of a JSON value: no blanks, keys in their order, doubles by their shortest digits.
-/

namespace FilterTree

namespace Json

/-- The hexadecimal digit of a number below 16, in lower case. -/
def hexDigit (n : Nat) : Char := Nat.digitChar n

/-- A character inside a string literal. Only the quote, the backslash and the control characters
below U+0020 are escaped. -/
def escapeChar (c : Char) : List Char :=
  match c with
  | '"' => ['\\', '"']
  | '\\' => ['\\', '\\']
  | '\x08' => ['\\', 'b']
  | '\t' => ['\\', 't']
  | '\n' => ['\\', 'n']
  | '\x0c' => ['\\', 'f']
  | '\r' => ['\\', 'r']
  | c =>
    if c.toNat < 0x20 then
      ['\\', 'u', '0', '0', hexDigit (c.toNat / 16), hexDigit (c.toNat % 16)]
    else [c]

/-- A string literal. -/
def quote (s : String) : String := "\"" ++ String.ofList (s.toList.flatMap escapeChar) ++ "\""

end Json

/-- Doubles from `0.00001` up to below `10 ^ 16` are written positionally. -/
def Number.layout : Decimal.Layout := { lowest := -5, highest := 15 }

/-- The text of a number. A double has a fraction or an exponent, so that it does not read as a
whole number. -/
def Number.render : Number → String
  | .int n => toString n
  | .float d =>
    let text := String.ofList (d.shortest.text layout)
    if d.negative then "-" ++ text else text

namespace Json

mutual

/-- The compact text of a value. -/
def render : Json → String
  | .null => "null"
  | .bool true => "true"
  | .bool false => "false"
  | .number n => n.render
  | .string s => quote s
  | .array items => "[" ++ renderItems items ++ "]"
  | .object fields => "\x7b" ++ renderFields fields ++ "\x7d"

/-- The items of an array with commas between them. -/
def renderItems : List Json → String
  | [] => ""
  | [v] => render v
  | v :: w :: vs => render v ++ "," ++ renderItems (w :: vs)

/-- The fields of an object with commas between them. -/
def renderFields : List (String × Json) → String
  | [] => ""
  | [(k, v)] => quote k ++ ":" ++ render v
  | (k, v) :: f :: fs => quote k ++ ":" ++ render v ++ "," ++ renderFields (f :: fs)

end

end Json

end FilterTree
