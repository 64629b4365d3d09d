import FilterTree.Json.Basic

/-!
# Merging objects

`Fields.merge target source` lays `source` over `target`. Where both sides hold an object the two
merge recursively, and anywhere else the value of `source` wins. A key that is in `target` keeps its
place; a new one goes to the end.
-/

namespace FilterTree

mutual

/-- Lays the fields of the second object, one by one, over the first. -/
def Fields.merge (target : Fields) : List (String × Json) → Fields
  | [] => target
  | (k, v) :: source => Fields.merge (target.put k (Json.over (target.get? k) v)) source

/-- The value of a key after a merge, from its value before, if any, and the incoming one. -/
def Json.over (existing : Option Json) : Json → Json
  | .object incoming =>
    match existing with
    | some (.object fields) => .object (Fields.merge fields incoming)
    | _ => .object incoming
  | incoming => incoming

end

namespace Fields

/-- Merges objects from left to right, starting from the empty one. -/
def mergeAll (objects : List Fields) : Fields := objects.foldl merge []

@[simp] theorem merge_nil (target : Fields) : merge target [] = target := by rw [merge]

end Fields

@[simp] theorem Json.over_none (v : Json) : Json.over none v = v := by cases v <;> simp [Json.over]

end FilterTree
