import FilterTree.Proofs.Output

/-!
# Merging what is there already

A merge is known by its keys and by what each key holds (`Fields.merge_keywise`). An object changes
nothing when it is merged into itself (`Fields.merge_self`), nor when it is merged a second time
(`Fields.merge_merge_self`): it lies twice in the same place, so nothing comes in between that could
hide one copy from the other, and merging is associative there.
-/

namespace FilterTree

/-- A value laid over itself changes nothing, if that holds of the object that it may be. -/
theorem Json.overlay_self {x : Option Json}
    (h : ∀ body, x = some (.object body) → Fields.merge body body = body) : overlay x x = x := by
  rcases x with _ | v
  · rfl
  · rcases object_or_not v with ⟨body, rfl⟩ | hv
    · rw [overlay_object, h body rfl]
    · exact overlay_of_not_isObject hv _

namespace Fields

/-- An object with distinct keys changes nothing when it is merged into itself. -/
theorem merge_self {fs : Fields} (h : Tidy fs) : merge fs fs = fs := by
  induction h with
  | @mk fs hn _ ih =>
    refine ext_get? (keys_merge_nodup hn fs) ?_ fun k => ?_
    · have hnone : (keys fs).filter (fun k => decide (k ∉ keys fs)) = [] := by
        rw [List.filter_eq_nil_iff]
        intro k hk
        simp [hk]
      rw [keys_merge hn, hnone, List.append_nil]
    · rw [get?_merge hn]
      exact Json.overlay_self fun body hbody => ih k body (mem_of_get? hbody)

/-- Nothing lies between an object and itself. -/
theorem not_hidden_self (a b : Fields) : ¬ Hidden a b b := by
  rintro ⟨p, x, z, y, -, hy, hno, hz⟩
  rw [hy, Option.some.injEq] at hz
  rw [hz] at hno
  exact Bool.noConfusion hno

/-- An object changes nothing when it is merged a second time. -/
theorem merge_merge_self {a b : Fields} (ha : Tidy a) (hb : Tidy b) :
    merge (merge a b) b = merge a b := by
  rw [merge_assoc ha hb hb (not_hidden_self a b), merge_self hb]

theorem distinctKeys_merge {t s : Fields} (ht : (Json.object t).DistinctKeys)
    (hs : (Json.object s).DistinctKeys) : (Json.object (merge t s)).DistinctKeys :=
  ⟨keys_merge_nodup ht.1 s, Json.distinctKeysFields_merge s t ht.2 hs.2⟩

/-- What a merge of objects with distinct keys gives. The keys of the target come first and then the
new ones, each in its order. A key that only the target has keeps its value, objects under one key
are merged again, and everything else is as in the source. So the empty object on either side adds
nothing, and what was merged once, or is the target itself, changes nothing. -/
theorem merge_keywise (t s : Fields) (ht : (Json.object t).DistinctKeys)
    (hs : (Json.object s).DistinctKeys) :
    (Json.object (merge t s)).DistinctKeys ∧
      keys (merge t s) = keys t ++ (keys s).filter (fun k => decide (k ∉ keys t)) ∧
      (∀ k, k ∉ keys s → get? (merge t s) k = get? t k) ∧
      (∀ k a b, get? t k = some (.object a) → get? s k = some (.object b) →
        get? (merge t s) k = some (.object (merge a b))) ∧
      (∀ k v, get? s k = some v → (v.isObject = false ∨ ∀ a, get? t k ≠ some (.object a)) →
        get? (merge t s) k = some v) ∧
      merge [] s = s ∧ merge t [] = t ∧ merge t t = t ∧ merge (merge t s) s = merge t s := by
  have htidy := Tidy.of_distinctKeys t ht
  have hstidy := Tidy.of_distinctKeys s hs
  refine ⟨distinctKeys_merge ht hs, keys_merge hs.1 t, ?_, ?_, ?_, merge_nil_left hs.1, merge_nil t,
    merge_self htidy, merge_merge_self htidy hstidy⟩
  · intro k hk
    rw [get?_merge hs.1, get?_eq_none.mpr hk]
    rfl
  · intro k a b ha hb
    rw [get?_merge hs.1, ha, hb, Json.overlay_object]
  · intro k v hv hor
    rw [get?_merge hs.1, hv]
    rcases hor with hno | hne
    · exact Json.overlay_of_not_isObject hno _
    · rcases hu : get? t k with _ | u
      · exact Json.overlay_none_left _
      · refine Json.overlay_over_not_isObject (Bool.eq_false_iff.mpr fun hobject => ?_) v
        obtain ⟨a, rfl⟩ := Json.exists_of_isObject hobject
        exact hne a hu

/-- Objects meet in `a`, an object comes over a value that is none in `b`, and `c` is new. -/
theorem merge_keywise_threeKeys :
    (Json.object [("a", .object [("x", .null)]), ("b", .null)]).DistinctKeys ∧
      (Json.object [("b", .object []), ("c", .null), ("a", .object [("y", .null)])]).DistinctKeys ∧
      ∃ m, merge [("a", .object [("x", .null)]), ("b", .null)]
          [("b", .object []), ("c", .null), ("a", .object [("y", .null)])] = m ∧
        keys m = ["a", "b", "c"] ∧
        get? m "a" = some (.object (merge [("x", .null)] [("y", .null)])) ∧
        get? m "b" = some (.object []) ∧
        merge m [("b", .object []), ("c", .null), ("a", .object [("y", .null)])] = m := by
  have ht : (Json.object [("a", .object [("x", .null)]), ("b", .null)]).DistinctKeys := by decide
  have hs : (Json.object [("b", .object []), ("c", .null),
    ("a", .object [("y", .null)])]).DistinctKeys := by decide
  obtain ⟨-, hkeys, -, hobjects, hother, -, -, -, hagain⟩ := merge_keywise _ _ ht hs
  refine ⟨ht, hs, _, rfl, ?_, hobjects "a" _ _ rfl rfl, hother "b" _ rfl ?_, hagain⟩
  · rw [hkeys]
    decide
  · exact Or.inr fun a ha => Json.noConfusion (Option.some.inj ha)

end Fields

end FilterTree
