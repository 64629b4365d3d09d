import FilterTree.Json.Form
import FilterTree.Key

/-!
# The JSON form of operators

An operator is written as the string of its symbol. A symbol of another family is refused.
-/

namespace FilterTree

instance : JsonForm Comparison where
  encode op := .string op.symbol
  decode? v := v.string?.bind Comparison.ofSymbol?

instance : JsonForm Connective where
  encode op := .string op.symbol
  decode? v := v.string?.bind Connective.ofSymbol?

instance : JsonForm Quantifier where
  encode op := .string op.symbol
  decode? v := v.string?.bind Quantifier.ofSymbol?

end FilterTree
