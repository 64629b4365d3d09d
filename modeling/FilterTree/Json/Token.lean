import FilterTree.Json.Basic
import FilterTree.Numeric.Hex

/-!
# Tokens of JSON texts

`Json.Token.scan` cuts a text into tokens by longest match; `none` means that some part of it is no
token. Two tokens need no blank between them here: whether they may stand side by side is a matter
of the grammar, which has no place where two scalars do.
-/

namespace FilterTree

namespace Json

inductive Token where
  | openArray
  | closeArray
  | openObject
  | closeObject
  | comma
  | colon
  | null
  | bool (b : Bool)
  | number (n : Number)
  | string (s : String)
deriving DecidableEq, Repr

namespace Token

/-- Space, tab, line feed and carriage return stand between tokens. -/
def isBlank (c : Char) : Bool := c == ' ' || c == '\t' || c == '\n' || c == '\r'

/-! ## Strings -/

/-- What a string literal is made of: a character, or a UTF-16 code unit given by `\u`. -/
inductive Piece where
  | char (c : Char)
  | unit (n : Nat)
deriving DecidableEq, Repr

/-- The character that a one-letter escape stands for. -/
def escaped? (c : Char) : Option Char :=
  match c with
  | '"' => some '"'
  | '\\' => some '\\'
  | '/' => some '/'
  | 'b' => some '\x08'
  | 'f' => some '\x0c'
  | 'n' => some '\n'
  | 'r' => some '\r'
  | 't' => some '\t'
  | _ => none

/-- One piece of a string literal, after its first character, and the text that follows. Control
characters below U+0020 have to be escaped. -/
def piece? (c : Char) (rest : List Char) : Option (Piece × List Char) :=
  if c = '\\' then
    match rest with
    | 'u' :: c₃ :: c₂ :: c₁ :: c₀ :: rest =>
      (hexNumber? [c₃, c₂, c₁, c₀]).map fun n => (.unit n, rest)
    | e :: rest => (escaped? e).map fun c => (.char c, rest)
    | [] => none
  else if c.toNat < 0x20 then none
  else some (.char c, rest)

theorem piece?_length {c : Char} {rest : List Char} {p : Piece} {rest' : List Char}
    (h : piece? c rest = some (p, rest')) : rest'.length ≤ rest.length := by
  unfold piece? at h
  split at h
  · split at h
    · obtain ⟨_, -, h⟩ := Option.map_eq_some_iff.1 h
      injection h with _ h
      simp only [← h, List.length_cons]
      omega
    · obtain ⟨_, -, h⟩ := Option.map_eq_some_iff.1 h
      injection h with _ h
      simp [← h]
    · exact absurd h (by simp)
  · split at h
    · exact absurd h (by simp)
    · injection h with h
      injection h with _ h
      simp [h]

/-- The pieces of a string literal up to its closing quote, and the text after it. -/
def pieces? : List Char → Option (List Piece × List Char)
  | [] => none
  | c :: rest =>
    if c = '"' then some ([], rest)
    else
      match _h : piece? c rest with
      | none => none
      | some (p, rest) => (pieces? rest).map fun (ps, rest) => (p :: ps, rest)
termination_by s => s.length
decreasing_by have := piece?_length _h; simp only [List.length_cons]; omega

/-- Reads code units as UTF-16: a high surrogate needs a low one right after it, and a low one does
not stand alone. -/
def characters? : List Piece → Option (List Char)
  | [] => some []
  | .char c :: ps => (characters? ps).map (c :: ·)
  | .unit n :: ps =>
    if 0xD800 ≤ n ∧ n < 0xDC00 then
      match ps with
      | .unit m :: ps =>
        if 0xDC00 ≤ m ∧ m < 0xE000 then
          let c := Char.ofNat (0x10000 + (n - 0xD800) * 0x400 + (m - 0xDC00))
          (characters? ps).map (c :: ·)
        else none
      | _ => none
    else if 0xDC00 ≤ n ∧ n < 0xE000 then none
    else (characters? ps).map (Char.ofNat n :: ·)

/-! ## Numbers -/

/-- The parts of a number literal, as digits. -/
structure Literal where
  negative : Bool
  whole : List Char
  fraction : Option (List Char)
  exponent : Option Int
deriving DecidableEq, Repr

/-- The number that a literal stands for. Without fraction and exponent it is a whole number from
`-2 ^ 63` to `2 ^ 64 - 1`; any other literal, and `-0`, is a double. There is none if the double
would be infinite. -/
def Literal.number? (l : Literal) : Option Number :=
  let n := Decimal.ofDigits l.whole
  let double :=
    let fraction := l.fraction.getD []
    let decimal : Decimal :=
      ⟨Decimal.ofDigits (l.whole ++ fraction), l.exponent.getD 0 - fraction.length⟩
    (decimal.toDouble? l.negative).map Number.float
  if l.fraction.isSome ∨ l.exponent.isSome then double
  else if l.negative then
    if 0 < n ∧ n ≤ Nat.pow 2 63 then some (.int (-n)) else double
  else if n < Nat.pow 2 64 then some (.int n)
  else double

/-- The digits at the start of a text, at least one, and the text after them. -/
def digits? (s : List Char) : Option (List Char × List Char) :=
  if s.takeWhile Char.isDigit = [] then none
  else some (s.takeWhile Char.isDigit, s.dropWhile Char.isDigit)

/-- The digits after a point, if the text goes on with one. A point without digits is no number. -/
def fraction? (s : List Char) : Option (Option (List Char) × List Char) :=
  match s with
  | '.' :: rest => (digits? rest).map fun (ds, rest) => (some ds, rest)
  | _ => some (none, s)

/-- Whether a text starts with a minus, and the text after the sign. -/
def sign (s : List Char) : Bool × List Char :=
  match s with
  | '-' :: rest => (true, rest)
  | '+' :: rest => (false, rest)
  | _ => (false, s)

/-- The exponent, if the text goes on with one. -/
def exponent? (s : List Char) : Option (Option Int × List Char) :=
  match s with
  | [] => some (none, [])
  | c :: rest =>
    if c = 'e' ∨ c = 'E' then
      (digits? (sign rest).2).map fun (ds, after) =>
        let n : Int := Decimal.ofDigits ds
        (some (if (sign rest).1 then -n else n), after)
    else some (none, s)

/-- A number literal without its sign. A leading zero stands alone. -/
def unsigned? (negative : Bool) (s : List Char) : Option (Literal × List Char) := do
  let (whole, rest) ← digits? s
  if whole.head? = some '0' ∧ whole.length ≠ 1 then none
  else
    let (fraction, rest) ← fraction? rest
    let (exponent, rest) ← exponent? rest
    some (⟨negative, whole, fraction, exponent⟩, rest)

/-- A number literal at the start of a text. -/
def literal? (s : List Char) : Option (Literal × List Char) :=
  match s with
  | '-' :: rest => unsigned? true rest
  | _ => unsigned? false s

/-! ## Every token takes part of the text -/

theorem pieces?_length {s : List Char} {ps : List Piece} {rest : List Char}
    (h : pieces? s = some (ps, rest)) : rest.length ≤ s.length := by
  fun_induction pieces? s generalizing ps rest with
  | case1 => simp at h
  | case2 c => simp only [Option.some.injEq, Prod.mk.injEq] at h; simp [← h.2]
  | case3 => simp at h
  | case4 c rest' _ p rest'' hp ih =>
    obtain ⟨⟨qs, r⟩, hr, h⟩ := Option.map_eq_some_iff.1 h
    have := ih hr
    have := piece?_length hp
    simp only [Prod.mk.injEq] at h
    simp only [List.length_cons, ← h.2]
    omega

theorem digits?_length {s ds rest : List Char} (h : digits? s = some (ds, rest)) :
    rest.length < s.length := by
  unfold digits? at h
  split at h
  · simp at h
  · rename_i hne
    simp only [Option.some.injEq, Prod.mk.injEq] at h
    have hl : (s.takeWhile Char.isDigit).length + (s.dropWhile Char.isDigit).length = s.length := by
      rw [← List.length_append, List.takeWhile_append_dropWhile]
    have := List.length_pos_iff.2 hne
    rw [← h.2]
    omega

theorem fraction?_length {s : List Char} {f : Option (List Char)} {rest : List Char}
    (h : fraction? s = some (f, rest)) : rest.length ≤ s.length := by
  unfold fraction? at h
  split at h
  · obtain ⟨⟨ds, r⟩, hr, h⟩ := Option.map_eq_some_iff.1 h
    have := digits?_length hr
    simp only [Prod.mk.injEq] at h
    simp only [List.length_cons, ← h.2]
    omega
  · simp only [Option.some.injEq, Prod.mk.injEq] at h
    simp [h.2]

theorem sign_length (s : List Char) : (sign s).2.length ≤ s.length := by
  unfold sign
  split <;> simp

theorem exponent?_length {s : List Char} {e : Option Int} {rest : List Char}
    (h : exponent? s = some (e, rest)) : rest.length ≤ s.length := by
  unfold exponent? at h
  split at h
  · simp only [Option.some.injEq, Prod.mk.injEq] at h
    simp [← h.2]
  · split at h
    · rename_i t _
      obtain ⟨⟨ds, r⟩, hr, h⟩ := Option.map_eq_some_iff.1 h
      have := digits?_length hr
      have := sign_length t
      simp only [Prod.mk.injEq] at h
      simp only [List.length_cons, ← h.2]
      omega
    · simp only [Option.some.injEq, Prod.mk.injEq] at h
      simp [← h.2]

theorem unsigned?_length {negative : Bool} {s : List Char} {l : Literal} {rest : List Char}
    (h : unsigned? negative s = some (l, rest)) : rest.length < s.length := by
  obtain ⟨⟨whole, r₁⟩, hw, h⟩ := Option.bind_eq_some_iff.1 h
  dsimp only at h
  split at h
  · simp at h
  · obtain ⟨⟨f, r₂⟩, hf, h⟩ := Option.bind_eq_some_iff.1 h
    obtain ⟨⟨e, r₃⟩, he, h⟩ := Option.bind_eq_some_iff.1 h
    have := digits?_length hw
    have := fraction?_length hf
    have : r₃.length ≤ r₂.length := exponent?_length he
    simp only [Option.some.injEq, Prod.mk.injEq] at h
    rw [← h.2]
    omega

theorem literal?_length {s : List Char} {l : Literal} {rest : List Char}
    (h : literal? s = some (l, rest)) : rest.length < s.length := by
  unfold literal? at h
  split at h
  · have := unsigned?_length h
    simp only [List.length_cons]
    omega
  · exact unsigned?_length h

/-! ## Texts -/

/-- Takes a word off the start of a text. -/
def word? (word : List Char) (token : Token) (s : List Char) : Option (Token × List Char) :=
  if word.isPrefixOf s then some (token, s.drop word.length) else none

/-- The token that a text starts with, and the text after it. -/
def next? (s : List Char) : Option (Token × List Char) :=
  match s with
  | '[' :: rest => some (.openArray, rest)
  | ']' :: rest => some (.closeArray, rest)
  | '\x7b' :: rest => some (.openObject, rest)
  | '\x7d' :: rest => some (.closeObject, rest)
  | ',' :: rest => some (.comma, rest)
  | ':' :: rest => some (.colon, rest)
  | 'n' :: rest => word? ['u', 'l', 'l'] .null rest
  | 't' :: rest => word? ['r', 'u', 'e'] (.bool true) rest
  | 'f' :: rest => word? ['a', 'l', 's', 'e'] (.bool false) rest
  | '"' :: rest => do
    let (ps, rest) ← pieces? rest
    let cs ← characters? ps
    some (.string (String.ofList cs), rest)
  | s => do
    let (l, rest) ← literal? s
    let n ← l.number?
    some (.number n, rest)

theorem next?_length {s : List Char} {t : Token} {rest : List Char}
    (h : next? s = some (t, rest)) : rest.length < s.length := by
  have hword : ∀ {w : List Char} {t' : Token} {c : Char} {s : List Char},
      word? w t' s = some (t, rest) → rest.length < (c :: s).length := by
    intro w t' c s h
    unfold word? at h
    split at h
    · simp only [Option.some.injEq, Prod.mk.injEq] at h
      simp only [← h.2, List.length_drop, List.length_cons]
      omega
    · simp at h
  unfold next? at h
  split at h
  case h_7 | h_8 | h_9 => exact hword h
  case h_10 =>
    obtain ⟨⟨ps, r⟩, hp, h⟩ := Option.bind_eq_some_iff.1 h
    obtain ⟨cs, -, h⟩ := Option.bind_eq_some_iff.1 h
    have := pieces?_length hp
    simp only [Option.some.injEq, Prod.mk.injEq] at h
    simp only [← h.2, List.length_cons]
    omega
  case h_11 =>
    obtain ⟨⟨l, r⟩, hl, h⟩ := Option.bind_eq_some_iff.1 h
    obtain ⟨n, -, h⟩ := Option.bind_eq_some_iff.1 h
    simp only [Option.some.injEq, Prod.mk.injEq] at h
    exact h.2 ▸ literal?_length hl
  all_goals
    simp only [Option.some.injEq, Prod.mk.injEq] at h
    simp [← h.2]

/-- The tokens of a text, if it is made of tokens and blanks. -/
def scan? (s : List Char) : Option (List Token) :=
  match _hs : s.dropWhile isBlank with
  | [] => some []
  | c :: cs =>
    match _h : next? (c :: cs) with
    | none => none
    | some (t, rest) => (scan? rest).map (t :: ·)
termination_by s.length
decreasing_by
  have := next?_length _h
  have := (List.dropWhile_suffix (l := s) isBlank).length_le
  simp only [_hs] at this
  omega

end Token

end Json

end FilterTree
