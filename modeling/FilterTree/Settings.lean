import FilterTree.Json.Basic

/-!
# Settings

What an editor checks. By default it takes any value. A strict one holds the conditions that are
added or updated to the contract between comparisons and values.
-/

namespace FilterTree

structure Settings where
  /-- Refuse a value that the comparison does not accept. -/
  validateValues : Bool := false
deriving DecidableEq, Repr

namespace Settings

/-- The settings that check everything. -/
def strict : Settings := { validateValues := true }

/-- The name of the option in files. -/
def validateKey : String := "validate_values"

/-- The settings as JSON. -/
def toJson (s : Settings) : Json := .object [(validateKey, .bool s.validateValues)]

end Settings

end FilterTree
