import FilterTree.Json.Basic

/-!
# Equality up to the order of keys

Two JSON values are *equivalent* if they differ at most in the order of keys inside objects and in
the sign of zero. A whole number is never equivalent to a double.
-/

namespace FilterTree

/-- Whole numbers are equal as they are, doubles as numbers. -/
def Number.equiv : Number → Number → Bool
  | .int m, .int n => m == n
  | .float a, .float b => a.equiv b
  | _, _ => false

namespace Json

mutual

/-- Equality up to the order of keys, for values whose objects have distinct keys. -/
def equiv : Json → Json → Bool
  | .null, .null => true
  | .bool a, .bool b => a == b
  | .number m, .number n => m.equiv n
  | .string s, .string t => s == t
  | .array xs, .array ys => equivList xs ys
  | .object fs, .object gs => fs.length == gs.length && fieldsWithin fs gs
  | _, _ => false

/-- Equality of two arrays, item by item. -/
def equivList : List Json → List Json → Bool
  | [], [] => true
  | x :: xs, y :: ys => equiv x y && equivList xs ys
  | _, _ => false

/-- Every field of the first object has an equivalent one in the second. -/
def fieldsWithin : List (String × Json) → Fields → Bool
  | [], _ => true
  | (k, v) :: fs, gs =>
    (match gs.get? k with
      | some w => equiv v w
      | none => false) && fieldsWithin fs gs

end

end Json

end FilterTree
