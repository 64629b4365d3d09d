/-!
# YAML text by line and column

In YAML the column of a character matters as much as the character. `Yaml.cells?` gives every
character of a text its place, so that what is left to read is a list of cells and needs no counter
beside it. Line ends are unified on the way.
-/

namespace FilterTree

namespace Yaml

/-- A character and its place. Line and column count characters from 0; the offset is the number of
bytes before the character in its line, in UTF-8. -/
structure Cell where
  char : Char
  line : Nat
  column : Nat
  offset : Nat
deriving DecidableEq, Repr

/-- Space and tab separate words within a line. -/
def isBlank (c : Char) : Bool := c == ' ' || c == '\t'

/-- The line ends that are left after `unifyBreaks`. -/
def isBreak (c : Char) : Bool := c == '\n' || c == '\u2028' || c == '\u2029'

/-- The characters that a text may hold: no control characters but tab and the line ends. -/
def isAllowed (c : Char) : Bool :=
  let n := c.toNat
  n == 0x09 || n == 0x0a || n == 0x0d || (0x20 ≤ n && n ≤ 0x7e) || n == 0x85 ||
    (0xa0 ≤ n && n ≤ 0xd7ff) || (0xe000 ≤ n && n ≤ 0xfffd) || 0x10000 ≤ n

/-- Writes carriage return, with or without a line feed, and next line as a line feed. -/
def unifyBreaks : List Char → List Char
  | '\r' :: '\n' :: cs => '\n' :: unifyBreaks cs
  | '\r' :: cs | '\u0085' :: cs => '\n' :: unifyBreaks cs
  | c :: cs => c :: unifyBreaks cs
  | [] => []

/-- Gives each character its place, starting from the given one. -/
def place (line column offset : Nat) : List Char → List Cell
  | [] => []
  | c :: cs =>
    ⟨c, line, column, offset⟩ ::
      if isBreak c then place (line + 1) 0 0 cs
      else place line (column + 1) (offset + c.utf8Size) cs

/-- The cells of a text, if all its characters are allowed. -/
def cells? (text : String) : Option (List Cell) :=
  if text.toList.all isAllowed then some (place 0 0 0 (unifyBreaks text.toList)) else none

/-- Whether a cell is a byte order mark at the start of a line. Only there is the mark no part of
what the line says, though it takes up a column. -/
def isByteOrderMark (c : Cell) : Bool := c.column == 0 && c.char == '\ufeff'

/-- Whether a word ends here: at a blank, a line end or the end of the text. -/
def wordEnds : List Cell → Bool
  | [] => true
  | c :: _ => isBlank c.char || isBreak c.char

/-- Whether a line starts here with three times the given character as a word of its own. -/
def isMarker (mark : Char) : List Cell → Bool
  | a :: b :: c :: rest =>
    a.column == 0 && a.char == mark && b.char == mark && c.char == mark && wordEnds rest
  | _ => false

/-- Whether a document starts or ends here: `---` or `...` at the start of a line, as a word. -/
def isBoundary (cells : List Cell) : Bool := isMarker '-' cells || isMarker '.' cells

end Yaml

end FilterTree
