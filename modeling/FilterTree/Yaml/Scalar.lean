import FilterTree.Numeric.Hex
import FilterTree.Yaml.Cell

/-!
# YAML scalars

Plain and quoted scalars. Both may go over several lines: what stands between two words is a *gap*,
and a gap with line ends is folded, one line end into a space and more into one fewer.
-/

namespace FilterTree

namespace Yaml

/-- What has been passed since the last word of a scalar. -/
inductive Gap where
  /-- Blanks within a line. -/
  | blanks (cs : List Char)
  /-- Line ends, the first of them apart. An escaped line end counts for nothing itself, and then
  there is no first. -/
  | lines (first : Option Char) (more : List Char)
deriving DecidableEq, Repr

namespace Gap

/-- No gap. -/
def empty : Gap := .blanks []

def isEmpty : Gap → Bool
  | blanks cs => cs.isEmpty
  | lines .. => false

/-- Whether a line end has been passed. -/
def hasLines : Gap → Bool
  | blanks _ => false
  | lines .. => true

/-- The gap and one more blank; blanks at the start of a line do not count. -/
def addBlank (c : Char) : Gap → Gap
  | blanks cs => blanks (cs ++ [c])
  | lines first more => lines first more

/-- The gap and one more line end; blanks at the end of a line do not count. -/
def addBreak (c : Char) : Gap → Gap
  | blanks _ => lines (some c) []
  | lines first more => lines first (more ++ [c])

/-- What the gap reads as. -/
def text : Gap → List Char
  | blanks cs => cs
  | lines (some '\n') [] => [' ']
  | lines (some '\n') more => more
  | lines first more => first.toList ++ more

end Gap

/-! ## Plain scalars -/

/-- The characters that end a plain scalar inside brackets. -/
def endsInFlow (c : Char) : Bool :=
  c == ',' || c == '[' || c == ']' || c == '\x7b' || c == '\x7d'

/-- Reads a plain scalar on, given its text so far. It ends at a colon before a blank, at a comment
and at a document boundary; outside brackets at a line that is indented less than `indent`, and
inside them at a bracket or a comma, where a colon right before one of these is an error. Answers
the text, whether a line end follows, and the cells after the scalar. -/
def plain? (inFlow : Bool) (indent : Nat) (text : List Char) (gap : Gap) :
    List Cell → Option (List Char × Bool × List Cell)
  | [] => some (text, gap.hasLines, [])
  | c :: cs =>
    if isBlank c.char then
      if gap.hasLines && c.char == '\t' && c.column < indent then none
      else plain? inFlow indent text (gap.addBlank c.char) cs
    else if isBreak c.char then plain? inFlow indent text (gap.addBreak c.char) cs
    else
      let outdented := !inFlow && !gap.isEmpty && c.column < indent
      let comment := c.char == '#' && !gap.isEmpty
      let colon := c.char == ':' && wordEnds cs
      if outdented || comment || isBoundary (c :: cs) || colon || inFlow && endsInFlow c.char then
        some (text, gap.hasLines, c :: cs)
      else if inFlow && c.char == ':' &&
          (cs.head?.any fun d => endsInFlow d.char || d.char == '?') then none
      else plain? inFlow indent (text ++ gap.text ++ [c.char]) .empty cs

/-! ## Quoted scalars -/

/-- The character with a code of `width` hexadecimal digits. -/
def coded? (width : Nat) (cells : List Cell) : Option (Char × Nat) := do
  let digits := cells.take width
  if digits.length < width then none
  else
    let n ← hexNumber? (digits.map Cell.char)
    if n < 0xd800 ∨ 0xe000 ≤ n ∧ n < 0x110000 then some (Char.ofNat n, width + 1) else none

/-- The character that an escape stands for, after its backslash, and how many cells it takes. -/
def escape? : List Cell → Option (Char × Nat)
  | [] => none
  | c :: cs =>
    match c.char with
    | '0' => some ('\x00', 1)
    | 'a' => some ('\x07', 1)
    | 'b' => some ('\x08', 1)
    | 't' | '\t' => some ('\t', 1)
    | 'n' => some ('\n', 1)
    | 'v' => some ('\x0b', 1)
    | 'f' => some ('\x0c', 1)
    | 'r' => some ('\r', 1)
    | 'e' => some ('\x1b', 1)
    | ' ' => some (' ', 1)
    | '"' => some ('"', 1)
    | '/' => some ('/', 1)
    | '\\' => some ('\\', 1)
    | 'N' => some ('\u0085', 1)
    | '_' => some ('\u00a0', 1)
    | 'L' => some ('\u2028', 1)
    | 'P' => some ('\u2029', 1)
    | 'x' => coded? 2 cs
    | 'u' => coded? 4 cs
    | 'U' => coded? 8 cs
    | _ => none

/-- Reads a single-quoted scalar on, up to its closing quote. A quote inside is written twice. -/
def singleQuoted? (text : List Char) (gap : Gap) : List Cell → Option (List Char × List Cell)
  | [] => none
  | c :: cs =>
    if isBlank c.char then singleQuoted? text (gap.addBlank c.char) cs
    else if isBreak c.char then singleQuoted? text (gap.addBreak c.char) cs
    else if isBoundary (c :: cs) then none
    else if c.char = '\'' then
      match cs with
      | d :: cs =>
        if d.char = '\'' then singleQuoted? (text ++ gap.text ++ ['\'']) .empty cs
        else some (text ++ gap.text, d :: cs)
      | [] => some (text ++ gap.text, [])
    else singleQuoted? (text ++ gap.text ++ [c.char]) .empty cs

/-- Reads a double-quoted scalar on, up to its closing quote. -/
def doubleQuoted? (text : List Char) (gap : Gap) (cells : List Cell) :
    Option (List Char × List Cell) :=
  match cells with
  | [] => none
  | c :: cs =>
    if isBlank c.char then doubleQuoted? text (gap.addBlank c.char) cs
    else if isBreak c.char then doubleQuoted? text (gap.addBreak c.char) cs
    else if isBoundary (c :: cs) then none
    else if c.char = '"' then some (text ++ gap.text, cs)
    else if c.char = '\\' then
      if cs.head?.any fun d => isBreak d.char then
        doubleQuoted? (text ++ gap.text) (.lines none []) (cs.drop 1)
      else
        match escape? cs with
        | none => none
        | some (d, width) => doubleQuoted? (text ++ gap.text ++ [d]) .empty (cs.drop width)
    else doubleQuoted? (text ++ gap.text ++ [c.char]) .empty cs
termination_by cells.length
decreasing_by all_goals simp only [List.length_cons, List.length_drop]; omega

/-! ## A scalar ends inside the text -/

theorem plain?_length {inFlow : Bool} {indent : Nat} {text : List Char} {gap : Gap}
    {cells rest : List Cell} {r : List Char} {b : Bool}
    (h : plain? inFlow indent text gap cells = some (r, b, rest)) :
    rest.length ≤ cells.length := by
  induction cells generalizing text gap with
  | nil => simp [plain?] at h; simp [h]
  | cons c cs ih =>
    simp only [plain?] at h
    split at h
    · split at h
      · exact absurd h (by simp)
      · exact Nat.le_succ_of_le (ih h)
    · split at h
      · exact Nat.le_succ_of_le (ih h)
      · split at h
        · simp only [Option.some.injEq, Prod.mk.injEq] at h
          simp [← h.2.2]
        · split at h
          · exact absurd h (by simp)
          · exact Nat.le_succ_of_le (ih h)

theorem singleQuoted?_length {text r : List Char} {gap : Gap} {cells rest : List Cell}
    (h : singleQuoted? text gap cells = some (r, rest)) : rest.length ≤ cells.length := by
  fun_induction singleQuoted? text gap cells <;> grind

theorem doubleQuoted?_length {text r : List Char} {gap : Gap} {cells rest : List Cell}
    (h : doubleQuoted? text gap cells = some (r, rest)) : rest.length ≤ cells.length := by
  fun_induction doubleQuoted? text gap cells <;> grind

end Yaml

end FilterTree
