/-!
# Operators

The keys of a filter that start with `$` and have a meaning: comparisons of a field with a value,
connectives of filters, and quantifiers over the elements of an array field. Every operator is
written as its symbol; `ofSymbol?` reads the symbols of one family and nothing else.
-/

namespace FilterTree

/-- A comparison of a field with a value. -/
inductive Comparison where
  | eq
  | ne
  | lt
  | gt
  | lte
  | gte
  | elemMatch
  | isIn
  | notIn
  | containsAll
  | ilike
  | isPresent
deriving DecidableEq, Repr

/-- A combination of filters. -/
inductive Connective where
  | and
  | or
  | not
deriving DecidableEq, Repr

/-- A claim about the elements of an array field that satisfy a filter of their own. -/
inductive Quantifier where
  | someElement
  | everyElement
  | noElement
deriving DecidableEq, Repr

namespace Comparison

def symbol : Comparison → String
  | eq => "$eq"
  | ne => "$ne"
  | lt => "$lt"
  | gt => "$gt"
  | lte => "$lte"
  | gte => "$gte"
  | elemMatch => "$elemMatch"
  | isIn => "$in"
  | notIn => "$nin"
  | containsAll => "$all"
  | ilike => "$ilike"
  | isPresent => "$exists"

/-- All comparisons, in the order in which they are listed to users. -/
def listing : List Comparison :=
  [eq, ne, lt, gt, lte, gte, elemMatch, isIn, notIn, containsAll, ilike, isPresent]

def ofSymbol? (s : String) : Option Comparison := listing.find? (·.symbol == s)

/-- The comparisons with a list of values. -/
def takesList : Comparison → Bool
  | isIn | notIn | containsAll => true
  | _ => false

theorem ofSymbol?_symbol (op : Comparison) : ofSymbol? op.symbol = some op := by
  cases op <;> decide

theorem ofSymbol?_eq_some {s : String} {op : Comparison} (h : ofSymbol? s = some op) :
    s = op.symbol := by
  have := List.find?_some (show listing.find? (·.symbol == s) = some op from h)
  exact (eq_of_beq this).symm

end Comparison

namespace Connective

def symbol : Connective → String
  | and => "$and"
  | or => "$or"
  | not => "$not"

/-- All connectives. -/
def listing : List Connective := [and, or, not]

def ofSymbol? (s : String) : Option Connective := listing.find? (·.symbol == s)

theorem ofSymbol?_symbol (op : Connective) : ofSymbol? op.symbol = some op := by
  cases op <;> decide

theorem ofSymbol?_eq_some {s : String} {op : Connective} (h : ofSymbol? s = some op) :
    s = op.symbol := by
  have := List.find?_some (show listing.find? (·.symbol == s) = some op from h)
  exact (eq_of_beq this).symm

end Connective

namespace Quantifier

def symbol : Quantifier → String
  | someElement => "$some"
  | everyElement => "$every"
  | noElement => "$none"

/-- All quantifiers. -/
def listing : List Quantifier := [someElement, everyElement, noElement]

def ofSymbol? (s : String) : Option Quantifier := listing.find? (·.symbol == s)

theorem ofSymbol?_symbol (op : Quantifier) : ofSymbol? op.symbol = some op := by
  cases op <;> decide

theorem ofSymbol?_eq_some {s : String} {op : Quantifier} (h : ofSymbol? s = some op) :
    s = op.symbol := by
  have := List.find?_some (show listing.find? (·.symbol == s) = some op from h)
  exact (eq_of_beq this).symm

end Quantifier

/-! ## Keys -/

/-- What a key of an object says: it is an operator of one of the three families, or the name of a
field. -/
inductive Key where
  | comparison (op : Comparison)
  | connective (op : Connective)
  | quantifier (op : Quantifier)
  | field (name : String)
deriving DecidableEq, Repr

namespace Key

/-- Reads a key. Only the exact symbols are operators. -/
def ofString (key : String) : Key :=
  match Connective.ofSymbol? key, Comparison.ofSymbol? key, Quantifier.ofSymbol? key with
  | some op, _, _ => .connective op
  | _, some op, _ => .comparison op
  | _, _, some op => .quantifier op
  | _, _, _ => .field key

/-- The key as it is written. -/
def text : Key → String
  | comparison op => op.symbol
  | connective op => op.symbol
  | quantifier op => op.symbol
  | field name => name

/-- Whether the key is an operator. -/
def isOperator : Key → Bool
  | field _ => false
  | _ => true

theorem ofString_comparison (op : Comparison) : ofString op.symbol = .comparison op := by
  cases op <;> decide

theorem ofString_connective (op : Connective) : ofString op.symbol = .connective op := by
  cases op <;> decide

theorem ofString_quantifier (op : Quantifier) : ofString op.symbol = .quantifier op := by
  cases op <;> decide

/-- Reading a key loses nothing. -/
theorem text_ofString (key : String) : (ofString key).text = key := by
  unfold ofString
  split
  · exact (Connective.ofSymbol?_eq_some ‹_›).symm
  · exact (Comparison.ofSymbol?_eq_some ‹_›).symm
  · exact (Quantifier.ofSymbol?_eq_some ‹_›).symm
  · rfl

/-- The name of a field is its key. -/
theorem name_of_ofString {key name : String} (h : ofString key = .field name) : name = key := by
  have htext := text_ofString key
  rw [h] at htext
  exact htext

end Key

end FilterTree
