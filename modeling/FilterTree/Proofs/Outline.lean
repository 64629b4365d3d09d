import FilterTree.Query.Reading
import FilterTree.Proofs.Operand
import FilterTree.Proofs.Output

/-!
# What is read

The nodes of a query have plain paths, whatever the query is, since a reader only puts names of
fields on its path. Their operands are values in the query, so the keys of operands are distinct if
those of the query are (`Query.nodes_outline`).
-/

namespace FilterTree

theorem Path.isPlain_nil : Path.IsPlain [] := fun _ hname => absurd hname List.not_mem_nil

theorem Path.IsPlain.concat {path : Path} {k name : String} (h : Path.IsPlain path)
    (hk : Key.ofString k = .field name) : Path.IsPlain (path ++ [name]) := by
  intro l hl
  rcases List.mem_append.mp hl with hl | hl
  · exact h l hl
  · rw [List.mem_singleton.mp hl, Key.name_of_ofString hk, hk]
    rfl

namespace Query

mutual

/-- The paths of what is read are plain, and operands have distinct keys if the query has. -/
theorem nodes_outline {path : Path} (hp : Path.IsPlain path) :
    ∀ v : Json, ∀ n ∈ Forest.nodes (outline path v),
      Path.IsPlain n.path ∧ (v.DistinctKeys → n.HasDistinctOperand)
  | .null | .bool _ | .number _ | .string _ => by
    intro n hn
    simp only [outline] at hn
    exact absurd hn List.not_mem_nil
  | .array items => by
    rw [outline]
    exact nodes_outlineItems hp items
  | .object fields => by
    intro n hn
    rw [outline] at hn
    exact (nodes_outlineFields hp false fields n hn).imp_right fun h hd => h hd.2

theorem nodes_outlineItems {path : Path} (hp : Path.IsPlain path) :
    ∀ vs : List Json, ∀ n ∈ Forest.nodes (outlineItems path vs),
      Path.IsPlain n.path ∧ (Json.DistinctKeysList vs → n.HasDistinctOperand)
  | [] => by
    rw [outlineItems]
    exact fun n hn => absurd hn List.not_mem_nil
  | v :: vs => by
    intro n hn
    rw [outlineItems, Forest.nodes_append, List.mem_append] at hn
    rcases hn with hn | hn
    · exact (nodes_outline hp v n hn).imp_right fun h hd => h hd.1
    · exact (nodes_outlineItems hp vs n hn).imp_right fun h hd => h hd.2

theorem nodes_outlineFields {path : Path} (hp : Path.IsPlain path) (shadowed : Bool) :
    ∀ fields : List (String × Json), ∀ n ∈ Forest.nodes (outlineFields path shadowed fields),
      Path.IsPlain n.path ∧ (Json.DistinctKeysFields fields → n.HasDistinctOperand)
  | [] => by
    rw [outlineFields]
    exact fun n hn => absurd hn List.not_mem_nil
  | (k, v) :: fields => by
    intro n hn
    rw [outlineFields, Forest.nodes_append, List.mem_append] at hn
    rcases hn with hn | hn
    · cases hk : Key.ofString k with
      | comparison op =>
        rw [hk] at hn
        rw [List.mem_singleton.mp hn]
        refine ⟨hp, fun hd => ?_⟩
        rw [Node.HasDistinctOperand, Operand.toJson_ofJson]
        exact hd.1
      | connective op =>
        rw [hk] at hn
        rcases Forest.mem_nodes_singleton.mp hn with rfl | hn
        -- a logical node has no path, but what is in it goes on with the path around it
        · exact ⟨Path.isPlain_nil, fun _ => trivial⟩
        · exact (nodes_outline hp v n hn).imp_right fun h hd => h hd.1
      | quantifier op =>
        rw [hk] at hn
        rcases Forest.mem_nodes_singleton.mp hn with rfl | hn
        · exact ⟨hp, fun _ => trivial⟩
        · exact (nodes_outline Path.isPlain_nil v n hn).imp_right fun h hd => h hd.1
      | field name =>
        rw [hk] at hn
        cases shadowed with
        | true => exact absurd hn List.not_mem_nil
        | false =>
          exact (nodes_outlineBody (hp.concat hk) v n hn).imp_right fun h hd => h hd.1
    · exact (nodes_outlineFields hp shadowed fields n hn).imp_right fun h hd => h hd.2

theorem nodes_outlineBody {path : Path} (hp : Path.IsPlain path) :
    ∀ v : Json, ∀ n ∈ Forest.nodes (outlineBody path v),
      Path.IsPlain n.path ∧ (v.DistinctKeys → n.HasDistinctOperand)
  | .null | .bool _ | .number _ | .string _ | .array _ => by
    intro n hn
    simp only [outlineBody] at hn
    exact absurd hn List.not_mem_nil
  | .object fields => by
    intro n hn
    rw [outlineBody] at hn
    exact (nodes_outlineFields hp _ fields n hn).imp_right fun h hd => h hd.2

end

theorem hasPlainPaths_outline (q : Json) : Forest.HasPlainPaths (outline [] q) :=
  fun n hn => (nodes_outline Path.isPlain_nil q n hn).1

theorem hasDistinctOperand_outline {q : Json} (hd : q.DistinctKeys) :
    ∀ n ∈ Forest.nodes (outline [] q), n.HasDistinctOperand :=
  fun n hn => (nodes_outline Path.isPlain_nil q n hn).2 hd

end Query

end FilterTree
