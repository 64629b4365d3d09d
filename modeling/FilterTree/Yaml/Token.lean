import FilterTree.Yaml.Lexeme

/-!
# YAML tokens

`Yaml.scan?` turns a text into tokens in which the structure that columns give is explicit: a block
collection has a start and an end token, and a `key` token stands before every key. A key is only
known as one when its colon comes, so the scanner remembers where the last possible key began and
puts the `key` token there later.
-/

namespace FilterTree

namespace Yaml

inductive Token where
  | documentStart
  | documentEnd
  | blockSequenceStart
  | blockMappingStart
  | blockEnd
  | sequenceStart
  | sequenceEnd
  | mappingStart
  | mappingEnd
  | entry
  | comma
  | key
  | value
  | plain (text : String)
  | quoted (text : String)
deriving DecidableEq, Repr

/-- Where a key may have begun. -/
structure PossibleKey where
  /-- How many tokens came before it. -/
  index : Nat
  /-- Its first cell. -/
  start : Cell
  /-- Nothing but a key can stand in its place. -/
  required : Bool
deriving Repr

/-- A key is at most 1024 bytes long and on one line, so it may still end at a cell that is within
these bounds. -/
def PossibleKey.reaches (k : PossibleKey) (c : Cell) : Bool :=
  k.start.line == c.line && c.offset ≤ k.start.offset + 1024

structure Scanner where
  tokens : Array Token := #[]
  /-- The columns of the open block collections, the innermost first. -/
  columns : List Nat := []
  /-- The possible key at the innermost level of brackets. -/
  possible : Option PossibleKey := none
  /-- The possible keys at the levels around it: one for each open bracket. -/
  outer : List (Option PossibleKey) := []
  /-- Whether a key, or an item of a block sequence, may begin at the next token. -/
  keyAllowed : Bool := true
deriving Repr

namespace Scanner

/-- Whether a bracket is open. Inside brackets columns do not matter. -/
def inFlow (s : Scanner) : Bool := !s.outer.isEmpty

/-- The column from which plain scalars may go on in the next line. -/
def indent (s : Scanner) : Nat :=
  match s.columns with
  | [] => 0
  | column :: _ => column + 1

def emit (t : Token) (s : Scanner) : Scanner := { s with tokens := s.tokens.push t }

/-! ## Block collections -/

/-- Ends the innermost `n` block collections. -/
def close (n : Nat) (s : Scanner) : Scanner :=
  { s with tokens := s.tokens ++ Array.replicate n .blockEnd, columns := s.columns.drop n }

/-- Ends the block collections to the right of a column. -/
def closeTo (column : Nat) (s : Scanner) : Scanner :=
  if s.inFlow then s else s.close (s.columns.takeWhile (column < ·)).length

/-- Ends all block collections. -/
def closeAll (s : Scanner) : Scanner := if s.inFlow then s else s.close s.columns.length

/-- Starts a block collection if the column is to the right of the open ones. Its start token goes
before the tokens from `index` on. -/
def openAt (column index : Nat) (start : Token) (s : Scanner) : Scanner :=
  if s.inFlow || s.columns.head?.any (column ≤ ·) then s
  else
    { s with
      tokens := s.tokens.insertIdxIfInBounds index start
      columns := column :: s.columns }

/-! ## Possible keys -/

/-- Gives up the possible key, which must not be a required one. -/
def forgetKey? (s : Scanner) : Option Scanner :=
  if s.possible.any (·.required) then none else some { s with possible := none }

/-- Takes note that a key may begin at a cell, if one may begin at all. A key is required in the
column of the innermost block collection. -/
def noteKey? (c : Cell) (s : Scanner) : Option Scanner :=
  if s.keyAllowed then
    s.forgetKey?.map fun s =>
      let required := !s.inFlow && s.columns.head? == some c.column
      { s with possible := some ⟨s.tokens.size, c, required⟩ }
  else some s

/-- Gives up the possible keys that cannot end at a cell, which must not be required ones. -/
def expireKeys? (c : Cell) (s : Scanner) : Option Scanner :=
  let expired (k : PossibleKey) := !k.reaches c
  if (s.possible :: s.outer).any (·.any fun k => expired k && k.required) then none
  else
    some { s with
      possible := s.possible.filter (!expired ·)
      outer := s.outer.map (·.filter (!expired ·)) }

/-! ## Lexemes -/

/-- Takes a bracket that opens. The bracket itself may begin a key. -/
def openBracket? (c : Cell) (t : Token) (s : Scanner) : Option Scanner :=
  (s.noteKey? c).map fun s =>
    -- what the bracket may be the key of is known only after its end
    { s with possible := none, outer := s.possible :: s.outer, keyAllowed := true }.emit t

/-- Takes a bracket that closes. -/
def closeBracket? (t : Token) (s : Scanner) : Option Scanner :=
  s.forgetKey?.map fun s =>
    { s with possible := s.outer.headD none, outer := s.outer.tail, keyAllowed := false }.emit t

/-- Takes a mark after which a key may begin if `allow` says so. -/
def mark? (t : Token) (allow : Bool) (s : Scanner) : Option Scanner :=
  s.forgetKey?.map fun s => { s with keyAllowed := allow }.emit t

/-- Takes a scalar that begins at a cell; a key may begin after it on a new line only. -/
def scalar? (c : Cell) (t : Token) (lineEnds : Bool) (s : Scanner) : Option Scanner :=
  (s.noteKey? c).map fun s => { s with keyAllowed := lineEnds }.emit t

/-- Takes a colon. If a key may have begun before it, it did; otherwise the colon brings the value
of a key that was marked by a question mark, or of an empty one. -/
def colon? (c : Cell) (s : Scanner) : Option Scanner :=
  match s.possible with
  | some k =>
    -- the mapping, if it is new, starts before its first key
    let s := { s with tokens := s.tokens.insertIdxIfInBounds k.index .key }
    let s := s.openAt k.start.column k.index .blockMappingStart
    some ({ s with possible := none, keyAllowed := false }.emit .value)
  | none =>
    -- outside brackets only the first thing in a line can be such a colon
    if s.inFlow then some ({ s with keyAllowed := false }.emit .value)
    else if s.keyAllowed then
      some ((s.openAt c.column s.tokens.size .blockMappingStart).emit .value)
    else none

/-- Takes a lexeme that begins at the cell `c`. -/
def take? (s : Scanner) (c : Cell) : Lexeme → Option Scanner
  | .documentStart => s.closeAll.mark? .documentStart false
  | .documentEnd => s.closeAll.mark? .documentEnd false
  | .openSequence => s.openBracket? c .sequenceStart
  | .openMapping => s.openBracket? c .mappingStart
  | .closeSequence => s.closeBracket? .sequenceEnd
  | .closeMapping => s.closeBracket? .mappingEnd
  | .comma => s.mark? .comma true
  | .dash =>
    if s.inFlow || !s.keyAllowed then none
    else (s.openAt c.column s.tokens.size .blockSequenceStart).mark? .entry true
  | .question =>
    if !s.inFlow && !s.keyAllowed then none
    else (s.openAt c.column s.tokens.size .blockMappingStart).mark? .key (!s.inFlow)
  | .colon => s.colon? c
  | .plain text lineEnds => s.scalar? c (.plain text) lineEnds
  | .quoted text => s.scalar? c (.quoted text) false

end Scanner

/-- Passes over blanks, byte order marks, comments and line ends up to the next token, and answers
whether a key may begin there: a line end outside brackets allows one. Where one may begin, a tab is
no blank. -/
def skip (inFlow keyAllowed inComment : Bool) : List Cell → Bool × List Cell
  | [] => (keyAllowed, [])
  | c :: cs =>
    if isBreak c.char then skip inFlow (keyAllowed || !inFlow) false cs
    else if inComment || c.char == ' ' || c.char == '\t' && (inFlow || !keyAllowed) ||
        isByteOrderMark c then
      skip inFlow keyAllowed inComment cs
    else if c.char == '#' then skip inFlow keyAllowed true cs
    else (keyAllowed, c :: cs)

theorem skip_length (inFlow keyAllowed inComment : Bool) (cells : List Cell) :
    (skip inFlow keyAllowed inComment cells).2.length ≤ cells.length := by
  fun_induction skip inFlow keyAllowed inComment cells <;> grind

namespace Scanner

/-- Takes all lexemes of a text, then ends what is open. -/
def run? (s : Scanner) (cells : List Cell) : Option Scanner :=
  match _hc : skip s.inFlow s.keyAllowed false cells with
  | (keyAllowed, []) => { s with keyAllowed := keyAllowed }.closeAll.forgetKey?
  | (keyAllowed, c :: cs) =>
    match ({ s with keyAllowed := keyAllowed }.expireKeys? c).map (closeTo c.column) with
    | none => none
    | some ready =>
      match _hl : Lexeme.next? ready.inFlow ready.indent c cs with
      | none => none
      | some (l, rest) =>
        match ready.take? c l with
        | none => none
        | some next => next.run? rest
termination_by cells.length
decreasing_by
  have h := skip_length s.inFlow s.keyAllowed false cells
  have := Lexeme.next?_length _hl
  simp only [_hc, List.length_cons] at h
  omega

end Scanner

/-- The tokens of a text. -/
def scan? (text : String) : Option (List Token) := do
  let cells ← cells? text
  let s ← Scanner.run? {} cells
  some s.tokens.toList

end Yaml

end FilterTree
