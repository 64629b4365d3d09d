import FilterTree.Forest.Basic

/-!
# Positions

A position is a way into a JSON value from the outside: the index of an item or of a key for each
level. As lists of numbers positions are in document order, a value before what is in it. The keys
on the way to a position that are no operators are its names (`Json.names`).
-/

namespace FilterTree

/-- The index of an item or of a key for each level, from the outside in. -/
abbrev Position := List Nat

namespace Position

/-- Whether a position is around another one. -/
def Encloses (e p : Position) : Prop := e <+: p ∧ e ≠ p

/-- The longest position with a property, `none` if no position has it. -/
def Longest (P : Position → Prop) : Option Position → Prop
  | none => ∀ p, ¬ P p
  | some p => P p ∧ ∀ e, P e → e.length ≤ p.length

theorem encloses_concat {e p : Position} {i : Nat} : Encloses e (p ++ [i]) ↔ e <+: p := by
  constructor
  · rintro ⟨hwithin, hne⟩
    rcases List.prefix_concat_iff.mp hwithin with heq | hwithin
    · exact absurd heq hne
    · exact hwithin
  · intro hwithin
    refine ⟨List.prefix_concat_iff.mpr (Or.inr hwithin), fun heq => ?_⟩
    have hlen := hwithin.length_le
    rw [heq, List.length_append, List.length_singleton] at hlen
    exact Nat.not_succ_le_self _ hlen

/-! ## Document order -/

/-- An earlier index, whatever is inside, comes first. -/
theorem lt_of_index_lt {i j : Nat} (h : i < j) (s t : Position) :
    ∀ p : Position, p ++ i :: s < p ++ j :: t
  | [] => List.cons_lt_cons_iff.mpr (Or.inl h)
  | _ :: p => List.cons_lt_cons_iff.mpr (Or.inr ⟨rfl, lt_of_index_lt h s t p⟩)

/-- What is inside comes later. -/
theorem lt_append_cons (i : Nat) (s : Position) : ∀ p : Position, p < p ++ i :: s
  | [] => List.nil_lt_cons i s
  | _ :: p => List.cons_lt_cons_iff.mpr (Or.inr ⟨rfl, lt_append_cons i s p⟩)

/-- Ways that part at one level lead to different places. -/
theorem append_cons_ne {i j : Nat} (h : i ≠ j) (p s t : Position) : p ++ i :: s ≠ p ++ j :: t :=
  fun heq => h (List.cons.inj (List.append_cancel_left heq)).1

/-! ## The longest position around another -/

section

variable {P : Position → Prop} {p : Position} {i : Nat} {e : Option Position}

/-- What is around a step are the prefixes of where the step starts. -/
theorem longest_encloses_concat (h : Longest (fun e => e <+: p ∧ P e) e) :
    Longest (fun e => Encloses e (p ++ [i]) ∧ P e) e := by
  have hsame : (fun e => Encloses e (p ++ [i]) ∧ P e) = fun e => e <+: p ∧ P e := by
    funext e
    rw [encloses_concat]
  rw [hsame]
  exact h

theorem longest_prefix_self (h : P p) : Longest (fun e => e <+: p ∧ P e) (some p) :=
  ⟨⟨List.prefix_refl p, h⟩, fun _ he => he.1.length_le⟩

/-- A step to a position without the property changes nothing. -/
theorem longest_prefix_concat (h : Longest (fun e => e <+: p ∧ P e) e) (hp : ¬ P (p ++ [i])) :
    Longest (fun e => e <+: p ++ [i] ∧ P e) e := by
  have hsame : (fun e => e <+: p ++ [i] ∧ P e) = fun e => e <+: p ∧ P e := by
    funext e
    rw [List.prefix_concat_iff]
    refine propext ⟨?_, fun he => ⟨Or.inr he.1, he.2⟩⟩
    rintro ⟨rfl | hwithin, he⟩
    · exact absurd he hp
    · exact ⟨hwithin, he⟩
  rw [hsame]
  exact h

end

end Position

namespace Json

/-- The item or the value with an index, and its key if it has one. -/
def child? : Json → Nat → Option (Option String × Json)
  | .array items, i => items[i]?.map fun v => (none, v)
  | .object fields, i => fields[i]?.map fun f => (some f.1, f.2)
  | _, _ => none

theorem child?_array {items : List Json} {i : Nat} {v : Json} (h : items[i]? = some v) :
    (Json.array items).child? i = some (none, v) := by
  rw [child?, h, Option.map_some]

theorem child?_object {fields : Fields} {i : Nat} {k : String} {v : Json}
    (h : fields[i]? = some (k, v)) : (Json.object fields).child? i = some (some k, v) := by
  rw [child?, h, Option.map_some]

/-- The value at a position, with its key if it has one. -/
def seek? (here : Option String × Json) : Position → Option (Option String × Json)
  | [] => some here
  | i :: p => (here.2.child? i).bind fun there => seek? there p

/-- A key that is no operator. -/
def nameOf : Option String → Path
  | some k => if (Key.ofString k).isOperator then [] else [k]
  | none => []

/-- The keys on the way to a position that are no operators, from the outside in. -/
def names (v : Json) : Position → Path
  | [] => []
  | i :: p =>
    match v.child? i with
    | some (k, w) => nameOf k ++ names w p
    | none => []

theorem seek?_concat {here there : Option String × Json} {p : Position} (i : Nat)
    (h : seek? here p = some there) : seek? here (p ++ [i]) = there.2.child? i := by
  induction p generalizing here with
  | nil =>
    rw [← Option.some.inj h, List.nil_append, seek?]
    cases here.2.child? i <;> rfl
  | cons j p ih =>
    rw [seek?] at h
    obtain ⟨next, hnext, h⟩ := Option.bind_eq_some_iff.mp h
    rw [List.cons_append, seek?, hnext]
    exact ih h

theorem names_concat {here there next : Option String × Json} {p : Position} {i : Nat}
    (h : seek? here p = some there) (hnext : there.2.child? i = some next) :
    names here.2 (p ++ [i]) = names here.2 p ++ nameOf next.1 := by
  induction p generalizing here with
  | nil =>
    rw [← Option.some.inj h] at hnext
    rw [List.nil_append, names, names, hnext]
    exact List.append_nil _
  | cons j p ih =>
    rw [seek?] at h
    obtain ⟨step, hstep, h⟩ := Option.bind_eq_some_iff.mp h
    rw [List.cons_append, names, names, hstep]
    simp only [ih h, List.append_assoc]

end Json

end FilterTree
