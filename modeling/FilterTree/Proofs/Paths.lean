import FilterTree.Query.Reading
import FilterTree.Query.Writing
import FilterTree.Proofs.Merge

/-!
# Names in front of paths

The path that a reader carries only ever gets in front of the paths of what is read
(`Query.outline_append`): it goes through connectives and stops at quantifiers. In writing, each
name in front of a path is one more object around what is written (`Node.toFields_under`).
-/

namespace FilterTree

variable {ι : Type}

mutual

/-- Puts names in front of the path of a node and of the nodes in it, except of those that are
embedded: their paths start at an element. -/
def Node.under (front : Path) : Node ι → Node ι
  | .condition i p o v => .condition i (front ++ p) o v
  | .logical i o ns => .logical i o (Forest.under front ns)
  | .embedded i p o ns => .embedded i (front ++ p) o ns

/-- Puts names in front of the paths of a forest. -/
def Forest.under (front : Path) : List (Node ι) → Forest ι
  | [] => []
  | n :: ns => Node.under front n :: Forest.under front ns

end

theorem Forest.under_append (front : Path) (ms ns : Forest ι) :
    Forest.under front (ms ++ ns) = Forest.under front ms ++ Forest.under front ns := by
  induction ms with
  | nil => rfl
  | cons m ms ih => rw [List.cons_append, Forest.under, ih, Forest.under, List.cons_append]

namespace Query

mutual

/-- What is carried in front is put in front. -/
theorem outline_append (front path : Path) :
    ∀ v : Json, outline (front ++ path) v = Forest.under front (outline path v)
  | .null | .bool _ | .number _ | .string _ => by simp only [outline, Forest.under]
  | .array items => by rw [outline, outline, outlineItems_append front path items]
  | .object fields => by rw [outline, outline, outlineFields_append front path false fields]

theorem outlineItems_append (front path : Path) :
    ∀ vs : List Json,
      outlineItems (front ++ path) vs = Forest.under front (outlineItems path vs)
  | [] => by rw [outlineItems, outlineItems, Forest.under]
  | v :: vs => by
    rw [outlineItems, outlineItems, Forest.under_append, outline_append front path v,
      outlineItems_append front path vs]

theorem outlineFields_append (front path : Path) (shadowed : Bool) :
    ∀ fields : List (String × Json),
      outlineFields (front ++ path) shadowed fields =
        Forest.under front (outlineFields path shadowed fields)
  | [] => by rw [outlineFields, outlineFields, Forest.under]
  | (k, v) :: fields => by
    rw [outlineFields, outlineFields, Forest.under_append,
      outlineFields_append front path shadowed fields]
    congr 1
    cases Key.ofString k with
    | comparison op => rfl
    | connective op => simp only [Forest.under, Node.under, outline_append front path v]
    | quantifier op => rfl
    | field name =>
      cases shadowed with
      | true => rfl
      | false =>
        simp only [Bool.false_eq_true, if_false, List.append_assoc]
        exact outlineBody_append front (path ++ [name]) v

theorem outlineBody_append (front path : Path) :
    ∀ v : Json, outlineBody (front ++ path) v = Forest.under front (outlineBody path v)
  | .null | .bool _ | .number _ | .string _ | .array _ => by simp only [outlineBody, Forest.under]
  | .object fields => by
    rw [outlineBody, outlineBody, outlineFields_append front path (hasOperator fields) fields]

end

end Query

theorem Fields.nest_append (front path : Path) (fs : Fields) :
    Fields.nest (front ++ path) fs = Fields.nest front (Fields.nest path fs) := by
  induction front with
  | nil => rfl
  | cons name front ih => rw [List.cons_append, nest, nest, ih]

/-- Each name in front is one more object around. A connective writes no path of its own, and a node
that writes nothing gets nothing around it. -/
theorem Node.toFields_under (front : Path) {n : Node ι} (hk : n.kind ≠ .logical)
    (hn : n.toFields ≠ []) : (n.under front).toFields = Fields.nest front n.toFields := by
  cases n with
  | condition i p o v =>
    rw [Node.under, Node.toFields, Node.toFields, Fields.nest_append]
  | logical i o ns => exact absurd rfl hk
  | embedded i p o ns =>
    rw [Node.under, Node.toFields]
    rw [Node.toFields] at hn ⊢
    split
    · rename_i hempty
      rw [if_pos hempty] at hn
      exact absurd rfl hn
    · rw [Fields.nest_append]

theorem Forest.toFieldsList_under (front : Path) :
    ∀ {ns : Forest ι}, (∀ n ∈ ns, n.kind ≠ .logical) → (∀ o ∈ Forest.toFieldsList ns, o ≠ []) →
      Forest.toFieldsList (Forest.under front ns) =
        (Forest.toFieldsList ns).map (Fields.nest front)
  | [], _, _ => rfl
  | n :: ns, hk, hn => by
    rw [Forest.toFieldsList] at hn
    rw [Forest.under, Forest.toFieldsList, Forest.toFieldsList, List.map_cons,
      Node.toFields_under front (hk n List.mem_cons_self) (hn _ List.mem_cons_self),
      Forest.toFieldsList_under front (fun m hm => hk m (List.mem_cons_of_mem _ hm))
        (fun o ho => hn o (List.mem_cons_of_mem _ ho))]

end FilterTree
