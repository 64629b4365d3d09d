import Mathlib.Data.List.Perm.Subperm
import FilterTree.Json.Equiv
import FilterTree.Proofs.Overlay

/-!
# Equality up to the order of keys

Every value with distinct keys is equivalent to itself (`Json.equiv_refl`). Objects are equivalent
if they have the same keys and equivalent values under them (`Json.equiv_object_iff`), and
equivalent arrays have the same number of items (`Json.length_eq_of_equivList`).
-/

namespace FilterTree

theorem Double.equiv_refl (d : Double) : d.equiv d = true := by
  simp [equiv]

theorem Number.equiv_refl (n : Number) : n.equiv n = true := by
  cases n with
  | int n => exact beq_self_eq_true n
  | float d => exact Double.equiv_refl d

namespace Json

mutual

/-- A value with distinct keys is equivalent to itself. -/
theorem equiv_refl : ∀ v : Json, v.DistinctKeys → v.equiv v = true
  | .null, _ => rfl
  | .bool b, _ => by rw [equiv]; exact beq_self_eq_true b
  | .number n, _ => by rw [equiv]; exact n.equiv_refl
  | .string s, _ => by rw [equiv]; exact beq_self_eq_true s
  | .array items, h => by rw [equiv]; exact equivList_refl items h
  | .object fields, h => by
    rw [equiv, beq_self_eq_true, Bool.true_and]
    exact fieldsWithin_refl fields fields h.2 fun f hf => Fields.get?_of_mem h.1 hf

theorem equivList_refl : ∀ vs : List Json, DistinctKeysList vs → equivList vs vs = true
  | [], _ => rfl
  | v :: vs, h => by rw [equivList, equiv_refl v h.1, equivList_refl vs h.2, Bool.true_and]

/-- Fields that an object holds are within it. -/
theorem fieldsWithin_refl (all : Fields) :
    ∀ fields : List (String × Json), DistinctKeysFields fields →
      (∀ f ∈ fields, all.get? f.1 = some f.2) → fieldsWithin fields all = true
  | [], _, _ => rfl
  | (k, v) :: fields, h, hget => by
    have hk : all.get? k = some v := hget (k, v) List.mem_cons_self
    rw [fieldsWithin, hk]
    simp only
    rw [equiv_refl v h.1, Bool.true_and]
    exact fieldsWithin_refl all fields h.2 fun f hf => hget f (List.mem_cons_of_mem _ hf)

end

/-- Fields are within an object if each of them has an equivalent one there. -/
theorem fieldsWithin_iff {all : Fields} :
    ∀ {fields : List (String × Json)}, fieldsWithin fields all = true ↔
      ∀ f ∈ fields, ∃ w, all.get? f.1 = some w ∧ f.2.equiv w = true
  | [] => iff_of_true rfl fun f hf => absurd hf List.not_mem_nil
  | (k, v) :: fields => by
    rw [fieldsWithin, Bool.and_eq_true, fieldsWithin_iff, List.forall_mem_cons]
    cases all.get? k with
    | none => simp
    | some w => simp

/-- Objects are equivalent if they have the same keys and equivalent values under them. -/
theorem equiv_object_iff {fs gs : Fields} (hn : (Fields.keys fs).Nodup) :
    (object fs).equiv (.object gs) = true ↔ (Fields.keys fs).Perm (Fields.keys gs) ∧
      ∀ k v w, fs.get? k = some v → gs.get? k = some w → v.equiv w = true := by
  rw [equiv, Bool.and_eq_true, beq_iff_eq, fieldsWithin_iff]
  constructor
  · rintro ⟨hlength, hwithin⟩
    constructor
    · -- as many keys, none of them twice, and all of them there
      have hsub : Fields.keys fs ⊆ Fields.keys gs := by
        intro k hk
        obtain ⟨f, hf, rfl⟩ := List.mem_map.mp hk
        obtain ⟨w, hw, -⟩ := hwithin f hf
        exact Fields.mem_keys_of_get? hw
      refine (List.subperm_of_subset hn hsub).perm_of_length_le (Nat.le_of_eq ?_)
      rw [Fields.length_keys, Fields.length_keys, hlength]
    · intro k v w hv hw
      obtain ⟨w', hw', heq⟩ := hwithin (k, v) (Fields.mem_of_get? hv)
      rwa [Option.some.inj (hw.symm.trans hw')]
  · rintro ⟨hkeys, hvalues⟩
    constructor
    · rw [← Fields.length_keys, hkeys.length_eq, Fields.length_keys]
    · rintro ⟨k, v⟩ hmem
      obtain ⟨w, hw⟩ := Fields.exists_get? (hkeys.mem_iff.mp (Fields.mem_keys_of_mem hmem))
      exact ⟨w, hw, hvalues k v w (Fields.get?_of_mem hn hmem) hw⟩

theorem fieldsWithin_cons {k : String} {v w : Json} {fields all : Fields}
    (hk : all.get? k = some v) (h : fieldsWithin ((k, w) :: fields) all = true) :
    w.equiv v = true ∧ fieldsWithin fields all = true := by
  rw [fieldsWithin, hk] at h
  exact Bool.and_eq_true_iff.mp h

theorem length_eq_of_equivList :
    ∀ {xs ys : List Json}, equivList xs ys = true → xs.length = ys.length
  | [], [], _ => rfl
  | [], _ :: _, h | _ :: _, [], h => by simp [equivList] at h
  | x :: xs, y :: ys, h => by
    rw [equivList, Bool.and_eq_true] at h
    rw [List.length_cons, List.length_cons, length_eq_of_equivList h.2]

end Json

end FilterTree
