import FilterTree.Yaml.Scalar

/-!
# YAML lexemes

The smallest parts of a YAML text: marks and scalars. What a mark means for the structure is not
decided here, only where it is one: a dash, for instance, has to end a word.

Anchors, aliases, tags, directives and block scalars are no lexemes, so a text with one is refused.
-/

namespace FilterTree

namespace Yaml

inductive Lexeme where
  | documentStart
  | documentEnd
  | openSequence
  | closeSequence
  | openMapping
  | closeMapping
  | comma
  | dash
  | question
  | colon
  /-- A plain scalar, and whether a line end follows it. -/
  | plain (text : String) (lineEnds : Bool)
  | quoted (text : String)
deriving DecidableEq, Repr

namespace Lexeme

/-- The mark that a cell is. Inside brackets a question mark or a colon need not end a word. -/
def mark? (inFlow : Bool) (c : Cell) (cs : List Cell) : Option Lexeme :=
  match c.char with
  | '[' => some .openSequence
  | ']' => some .closeSequence
  | '\x7b' => some .openMapping
  | '\x7d' => some .closeMapping
  | ',' => some .comma
  | '-' => if wordEnds cs then some .dash else none
  | '?' => if inFlow || wordEnds cs then some .question else none
  | ':' => if inFlow || wordEnds cs then some .colon else none
  | _ => none

/-- Whether a plain scalar may begin with a character that is no mark and no quote. -/
def beginsPlain (c : Char) : Bool :=
  !(isBlank c || isBreak c ||
    ['#', '&', '*', '!', '|', '>', '%', '@', '\x60'].contains c)

/-- The lexeme that begins at the cell `c`, and the cells after it. Plain scalars outside brackets
are indented by `indent`. -/
def next? (inFlow : Bool) (indent : Nat) (c : Cell) (cs : List Cell) :
    Option (Lexeme × List Cell) :=
  if isMarker '-' (c :: cs) then some (.documentStart, cs.drop 2)
  else if isMarker '.' (c :: cs) then some (.documentEnd, cs.drop 2)
  else
    match mark? inFlow c cs with
    | some mark => some (mark, cs)
    | none =>
      if c.char = '\'' then
        (singleQuoted? [] .empty cs).map fun (text, rest) => (quoted (String.ofList text), rest)
      else if c.char = '"' then
        (doubleQuoted? [] .empty cs).map fun (text, rest) => (quoted (String.ofList text), rest)
      else if beginsPlain c.char then
        (plain? inFlow indent [c.char] .empty cs).map fun (text, lineEnds, rest) =>
          (plain (String.ofList text) lineEnds, rest)
      else none

theorem next?_length {inFlow : Bool} {indent : Nat} {c : Cell} {cs rest : List Cell} {l : Lexeme}
    (h : next? inFlow indent c cs = some (l, rest)) : rest.length ≤ cs.length := by
  unfold next? at h
  split at h
  · simp only [Option.some.injEq, Prod.mk.injEq] at h
    simp [← h.2]
  · split at h
    · simp only [Option.some.injEq, Prod.mk.injEq] at h
      simp [← h.2]
    · split at h
      · simp only [Option.some.injEq, Prod.mk.injEq] at h
        simp [← h.2]
      · split at h
        · obtain ⟨⟨text, r⟩, hr, h⟩ := Option.map_eq_some_iff.1 h
          simp only [Prod.mk.injEq] at h
          exact h.2 ▸ singleQuoted?_length hr
        · split at h
          · obtain ⟨⟨text, r⟩, hr, h⟩ := Option.map_eq_some_iff.1 h
            simp only [Prod.mk.injEq] at h
            exact h.2 ▸ doubleQuoted?_length hr
          · split at h
            · obtain ⟨⟨text, b, r⟩, hr, h⟩ := Option.map_eq_some_iff.1 h
              simp only [Prod.mk.injEq] at h
              exact h.2 ▸ plain?_length hr
            · simp at h

end Lexeme

end Yaml

end FilterTree
