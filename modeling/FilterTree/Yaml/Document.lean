import FilterTree.Yaml.Token

/-!
# YAML documents

The value that a YAML text holds, read off its tokens. A reader answers the value and the tokens
after it, with the bound on their number that makes the next reader stop. A key or a value that is
left out is an empty plain scalar.
-/

namespace FilterTree

/-- A YAML value. Plain and quoted scalars differ: only a plain one can be more than a string. -/
inductive Yaml where
  | plain (text : String)
  | quoted (text : String)
  | sequence (items : List Yaml)
  | mapping (entries : List (Yaml × Yaml))
deriving Repr, Inhabited

namespace Yaml

/-- The text of a scalar. -/
def scalar? : Yaml → Option String
  | plain text | quoted text => some text
  | _ => none

/-- At most `n` tokens. -/
abbrev Rest (n : Nat) := { rest : List Token // rest.length ≤ n }

/-- Whether a value is left out before this token. The dash of a sequence ends a value, but it may
begin one that belongs to a key. -/
def leavesOut (inFlow afterKey : Bool) : Token → Bool
  | .entry => !inFlow && !afterKey
  | .key | .blockEnd => !inFlow
  | .comma | .sequenceEnd | .mappingEnd => inFlow
  | .value => true
  | _ => false

mutual

/-- Reads a value, which takes a token at least. A block collection cannot begin inside brackets.
The sequence that belongs to a key may be in the column of the key, and then it has neither a start
nor an end token. -/
def value? (inFlow afterKey : Bool) (tokens : List Token) :
    Option (Yaml × Rest (tokens.length - 1)) :=
  match tokens with
  | .plain text :: rest => some (plain text, ⟨rest, Nat.le_refl _⟩)
  | .quoted text :: rest => some (quoted text, ⟨rest, Nat.le_refl _⟩)
  | .sequenceStart :: rest => do
    let (items, ⟨rest, h⟩) ← flowItems? true rest
    some (sequence items, ⟨rest, h⟩)
  | .mappingStart :: rest => do
    let (entries, ⟨rest, h⟩) ← flowEntries? true rest
    some (mapping entries, ⟨rest, h⟩)
  | .blockSequenceStart :: rest =>
    if inFlow then none
    else do
      let (items, ⟨rest, h⟩) ← blockItems? rest
      some (sequence items, ⟨rest, h⟩)
  | .blockMappingStart :: rest =>
    if inFlow then none
    else do
      let (entries, ⟨rest, h⟩) ← blockEntries? rest
      some (mapping entries, ⟨rest, h⟩)
  | .entry :: rest =>
    if afterKey then do
      let (item, ⟨rest₁, _⟩) ← slot? false false rest
      let (items, ⟨rest₂, _⟩) ← openItems? rest₁
      some (sequence (item :: items), ⟨rest₂, by simp only [List.length_cons]; omega⟩)
    else none
  | _ => none
termination_by 4 * tokens.length

/-- Reads a value that may be left out. -/
def slot? (inFlow afterKey : Bool) (tokens : List Token) : Option (Yaml × Rest tokens.length) :=
  if tokens.head?.any (leavesOut inFlow afterKey) then some (plain "", ⟨tokens, Nat.le_refl _⟩)
  else do
    let (v, ⟨rest, _⟩) ← value? inFlow afterKey tokens
    some (v, ⟨rest, by omega⟩)
termination_by 4 * tokens.length + 1

/-- Reads what belongs to a key, after the key. -/
def belonging? (inFlow : Bool) (tokens : List Token) : Option (Yaml × Rest tokens.length) :=
  match tokens with
  | .value :: rest => do
    let (v, ⟨rest, _⟩) ← slot? inFlow (!inFlow) rest
    some (v, ⟨rest, by simp; omega⟩)
  | rest => some (plain "", ⟨rest, Nat.le_refl _⟩)
termination_by 4 * tokens.length + 2

/-- Reads a key, after its `key` token, and what belongs to it. -/
def pair? (inFlow : Bool) (tokens : List Token) :
    Option ((Yaml × Yaml) × Rest tokens.length) := do
  let (key, ⟨rest₁, _⟩) ← slot? inFlow (!inFlow) tokens
  let (v, ⟨rest₂, _⟩) ← belonging? inFlow rest₁
  some ((key, v), ⟨rest₂, by omega⟩)
termination_by 4 * tokens.length + 3

/-- Reads the items of a block sequence up to its end. -/
def blockItems? (tokens : List Token) : Option (List Yaml × Rest tokens.length) :=
  match tokens with
  | .entry :: rest => do
    let (item, ⟨rest₁, _⟩) ← slot? false false rest
    let (items, ⟨rest₂, _⟩) ← blockItems? rest₁
    some (item :: items, ⟨rest₂, by simp; omega⟩)
  | .blockEnd :: rest => some ([], ⟨rest, by simp⟩)
  | _ => none
termination_by 4 * tokens.length

/-- Reads the further items of a sequence without an end token. -/
def openItems? (tokens : List Token) : Option (List Yaml × Rest tokens.length) :=
  match tokens with
  | .entry :: rest => do
    let (item, ⟨rest₁, _⟩) ← slot? false false rest
    let (items, ⟨rest₂, _⟩) ← openItems? rest₁
    some (item :: items, ⟨rest₂, by simp; omega⟩)
  | rest => some ([], ⟨rest, Nat.le_refl _⟩)
termination_by 4 * tokens.length

/-- Reads the entries of a block mapping up to its end. -/
def blockEntries? (tokens : List Token) : Option (List (Yaml × Yaml) × Rest tokens.length) :=
  match tokens with
  | .key :: rest => do
    let (entry, ⟨rest₁, _⟩) ← pair? false rest
    let (entries, ⟨rest₂, _⟩) ← blockEntries? rest₁
    some (entry :: entries, ⟨rest₂, by simp; omega⟩)
  | .blockEnd :: rest => some ([], ⟨rest, by simp⟩)
  | _ => none
termination_by 4 * tokens.length

/-- Reads one item of a sequence in brackets: a lone pair is a mapping of its own. If its key is
left out after the question mark, the colon, comma or bracket that follows stands in for the key
and has no other meaning. -/
def flowItem? (tokens : List Token) : Option (Yaml × Rest (tokens.length - 1)) :=
  match tokens with
  | .key :: .value :: rest | .key :: .comma :: rest | .key :: .sequenceEnd :: rest => do
    let (v, ⟨rest, _⟩) ← belonging? true rest
    some (mapping [(plain "", v)], ⟨rest, by simp; omega⟩)
  | .key :: rest => do
    let (entry, ⟨rest, _⟩) ← pair? true rest
    some (mapping [entry], ⟨rest, by simpa⟩)
  | rest => value? true false rest
termination_by 4 * tokens.length + 1

/-- Reads the items of a sequence in brackets up to its end. There is a comma before each item but
the first, and there may be one before the end. -/
def flowItems? (first : Bool) (tokens : List Token) : Option (List Yaml × Rest tokens.length) :=
  match tokens with
  | [] => none
  | .sequenceEnd :: rest => some ([], ⟨rest, by simp⟩)
  | .comma :: .sequenceEnd :: rest =>
    if first then none else some ([], ⟨rest, by simp; omega⟩)
  | .comma :: rest =>
    if first then none
    else do
      let (item, ⟨rest₁, _⟩) ← flowItem? rest
      let (items, ⟨rest₂, _⟩) ← flowItems? false rest₁
      some (item :: items, ⟨rest₂, by simp; omega⟩)
  | t :: rest =>
    if first then do
      let (item, ⟨rest₁, h⟩) ← flowItem? (t :: rest)
      have : rest₁.length ≤ rest.length := h
      let (items, ⟨rest₂, _⟩) ← flowItems? false rest₁
      some (item :: items, ⟨rest₂, by simp only [List.length_cons] at *; omega⟩)
    else none
termination_by 4 * tokens.length + 2

/-- Reads one entry of a mapping in braces: a key may stand alone. -/
def flowEntry? (tokens : List Token) : Option ((Yaml × Yaml) × Rest (tokens.length - 1)) :=
  match tokens with
  | .key :: rest => do
    let (entry, ⟨rest, _⟩) ← pair? true rest
    some (entry, ⟨rest, by simpa⟩)
  | rest => do
    let (key, rest) ← value? true false rest
    some ((key, plain ""), rest)
termination_by 4 * tokens.length + 1

/-- Reads the entries of a mapping in braces up to its end, with commas as in a sequence. -/
def flowEntries? (first : Bool) (tokens : List Token) :
    Option (List (Yaml × Yaml) × Rest tokens.length) :=
  match tokens with
  | [] => none
  | .mappingEnd :: rest => some ([], ⟨rest, by simp⟩)
  | .comma :: .mappingEnd :: rest =>
    if first then none else some ([], ⟨rest, by simp; omega⟩)
  | .comma :: rest =>
    if first then none
    else do
      let (entry, ⟨rest₁, _⟩) ← flowEntry? rest
      let (entries, ⟨rest₂, _⟩) ← flowEntries? false rest₁
      some (entry :: entries, ⟨rest₂, by simp; omega⟩)
  | t :: rest =>
    if first then do
      let (entry, ⟨rest₁, h⟩) ← flowEntry? (t :: rest)
      have : rest₁.length ≤ rest.length := h
      let (entries, ⟨rest₂, _⟩) ← flowEntries? false rest₁
      some (entry :: entries, ⟨rest₂, by simp only [List.length_cons] at *; omega⟩)
    else none
termination_by 4 * tokens.length + 2

end

/-- The value of a document, after its start. An empty document holds an empty plain scalar. -/
def content? (tokens : List Token) : Option (Yaml × List Token) :=
  match tokens with
  | [] | .documentStart :: _ | .documentEnd :: _ => some (plain "", tokens)
  | _ => (value? false false tokens).map fun (v, rest) => (v, rest)

/-- The value of a text with at most one document. A text without any holds nothing. -/
def document? (text : String) : Option (Option Yaml) := do
  match ← scan? text with
  | [] => some none
  | .documentEnd :: _ => none
  | t :: tokens =>
    let (v, rest) ← content? (if t = .documentStart then tokens else t :: tokens)
    if rest.all (· == .documentEnd) then some (some v) else none

end Yaml

end FilterTree
