import Mathlib.Data.List.Induction
import FilterTree.Proofs.Equivalence
import FilterTree.Proofs.Output

/-!
# Repeated conditions

Conditions may share a path and a comparison. There each of them writes its value over those before
it (`Forest.writtenAt?_conditionsAt`). The last value is what counts unless it is an object and so
is what it comes over: then the keys of both meet in what is written, and the last value is found
there only if it has all of those keys (`Json.coveredBy`). No comparison accepts an object, so an
accepted value always counts (`Forest.writtenAt?_conditionsAt_concat`).
-/

namespace FilterTree

/-! ## Covered values -/

mutual

/-- Whether a value is hidden when another is laid over it. An object is hidden below an object that
has its keys, if each of its values is hidden below that of its key. -/
def Json.coveredBy : Json → Json → Bool
  | .object below, .object above => Fields.coveredBy below above
  | _, _ => true

/-- Whether each field is hidden below one of an object. -/
def Fields.coveredBy : List (String × Json) → Fields → Bool
  | [], _ => true
  | (k, v) :: below, above =>
    (match above.get? k with
      | some w => Json.coveredBy v w
      | none => false) && Fields.coveredBy below above

end

/-- A merge has the keys of the upper object if the lower one has no others. -/
theorem Fields.keys_merge_perm_iff {below above : Fields} (hb : (keys below).Nodup)
    (ha : (keys above).Nodup) :
    (keys (merge below above)).Perm (keys above) ↔ keys below ⊆ keys above := by
  rw [List.perm_ext_iff_of_nodup (keys_merge_nodup hb above) ha, keys_merge ha]
  simp only [List.mem_append, List.mem_filter, decide_eq_true_iff]
  constructor
  · intro h k hk
    exact (h k).mp (Or.inl hk)
  · intro hsub k
    constructor
    · rintro (hk | hk)
      · exact hsub hk
      · exact hk.1
    · intro hk
      exact or_iff_not_imp_left.mpr fun hnot => ⟨hk, hnot⟩

/-- A merge gives the upper object, up to the order of keys, if each field of the lower one meets
another there, and the value of that comes out. -/
theorem Fields.equiv_merge_iff {below above : Fields} (hb : (Json.object below).DistinctKeys)
    (ha : (Json.object above).DistinctKeys) :
    (Json.object (merge below above)).equiv (.object above) = true ↔
      ∀ f ∈ below, ∃ w, above.get? f.1 = some w ∧ (Json.over (some f.2) w).equiv w = true := by
  have hn : (keys (merge below above)).Nodup := keys_merge_nodup hb.1 above
  rw [Json.equiv_object_iff hn, keys_merge_perm_iff hb.1 ha.1]
  constructor
  · rintro ⟨hkeys, hvalues⟩ ⟨k, v⟩ hmem
    obtain ⟨w, hw⟩ := exists_get? (hkeys (mem_keys_of_mem hmem))
    refine ⟨w, hw, hvalues k _ w ?_ hw⟩
    rw [get?_merge ha.1, get?_of_mem hb.1 hmem, hw]
    rfl
  · intro h
    constructor
    · intro k hk
      obtain ⟨f, hf, rfl⟩ := List.mem_map.mp hk
      obtain ⟨w, hw, -⟩ := h f hf
      exact mem_keys_of_get? hw
    · intro k u w hu hw
      rw [get?_merge ha.1, hw] at hu
      cases hv : below.get? k with
      | none =>
        -- a key of the upper object alone keeps its value
        rw [hv, Json.overlay_none_left] at hu
        rw [← Option.some.inj hu]
        exact Json.equiv_refl w (ha.get? hw)
      | some v =>
        obtain ⟨w', hw', heq⟩ := h _ (mem_of_get? hv)
        rw [hv] at hu
        obtain rfl : w = w' := Option.some.inj (hw.symm.trans hw')
        rwa [← Option.some.inj hu]

mutual

/-- A value laid over another is what comes out, up to the order of keys, if it covers the other. -/
theorem Json.equiv_over_iff :
    (v w : Json) → v.DistinctKeys → w.DistinctKeys →
      ((Json.over (some v) w).equiv w = true ↔ v.coveredBy w = true)
  | .object below, .object above, hv, hw => by
    rw [Json.over, Fields.equiv_merge_iff hv hw, Json.coveredBy,
      Fields.coveredBy_iff below hv.2 hw]
  | .null, .object _, _, hw | .bool _, .object _, _, hw | .number _, .object _, _, hw
  | .string _, .object _, _, hw | .array _, .object _, _, hw => by
    simp [Json.over, Json.coveredBy, Json.equiv_refl _ hw]
  | _, .null, _, hw | _, .bool _, _, hw | _, .number _, _, hw | _, .string _, _, hw
  | _, .array _, _, hw => by
    simp [Json.over, Json.coveredBy, Json.equiv_refl _ hw]

theorem Fields.coveredBy_iff :
    (below : List (String × Json)) → {above : Fields} → Json.DistinctKeysFields below →
      (Json.object above).DistinctKeys →
      ((∀ f ∈ below, ∃ w, above.get? f.1 = some w ∧ (Json.over (some f.2) w).equiv w = true) ↔
        Fields.coveredBy below above = true)
  | [], _, _, _ => iff_of_true (fun f hf => absurd hf List.not_mem_nil) rfl
  | (k, v) :: below, above, hb, ha => by
    rw [List.forall_mem_cons, Fields.coveredBy, Bool.and_eq_true,
      Fields.coveredBy_iff below hb.2 ha]
    refine and_congr_left fun _ => ?_
    cases hw : above.get? k with
    | none => simp
    | some w => simp [Json.equiv_over_iff v w hb.1 (ha.get? hw)]

end

/-- No comparison accepts an object. -/
theorem Comparison.isObject_of_accepts {op : Comparison} {value : Operand}
    (h : op.accepts value = true) : value.toJson.isObject = false := by
  cases value with
  | other v => cases op <;> exact absurd h Bool.false_ne_true
  | null | bool _ | number _ | string _ | strings _ | numbers _ => rfl

/-! ## One place -/

/-- Objects that hold a value each at the same place are merged by laying one value over the
other. -/
theorem Fields.merge_nest (p : Path) (k : String) (v w : Json) :
    merge (nest p [(k, v)]) (nest p [(k, w)]) = nest p [(k, Json.over (some v) w)] := by
  induction p with
  | nil => simp [nest, merge, get?, put]
  | cons name p ih =>
    show merge (wrap name _) (wrap name _) = wrap name _
    rw [merge_wrap, ih]

theorem Json.at?_nest (p : Path) (k : String) (v : Json) :
    (Json.object (Fields.nest p [(k, v)])).at? (p ++ [k]) = some v := by
  induction p with
  | nil => rw [Fields.nest, List.nil_append, at?_singleton, Fields.get?, if_pos rfl]
  | cons name p ih =>
    have hname : Fields.get? (Fields.nest (name :: p) [(k, v)]) name =
        some (.object (Fields.nest p [(k, v)])) := by
      rw [Fields.nest, Fields.get?, if_pos rfl]
    rw [List.cons_append, at?_object hname, ih]

namespace Forest

variable {ι : Type}

/-- What a forest writes at a path of keys. -/
def writtenAt? (ns : Forest ι) (p : List String) : Option Json := (toQuery? ns).bind (·.at? p)

/-- Conditions that share their path and their comparison, each with its identifier and value. -/
def conditionsAt (p : Path) (op : Comparison) (xs : List (ι × Operand)) : Forest ι :=
  xs.map fun x => .condition x.1 p op x.2

/-- Values laid over each other, from the first to the last. -/
def overlaid (xs : List (ι × Operand)) : Option Json :=
  (xs.map fun x => some x.2.toJson).foldl Json.overlay none

theorem overlaid_concat (xs : List (ι × Operand)) (i : ι) (value : Operand) :
    overlaid (xs ++ [(i, value)]) = some (Json.over (overlaid xs) value.toJson) := by
  unfold overlaid
  rw [List.map_append, List.foldl_append]
  rfl

theorem distinctKeys_overlaid {xs : List (ι × Operand)}
    (h : ∀ x ∈ xs, x.2.toJson.DistinctKeys) {v : Json} (hv : overlaid xs = some v) :
    v.DistinctKeys := by
  induction xs using List.reverseRecOn generalizing v with
  | nil => cases hv
  | append_singleton xs x ih =>
    obtain ⟨i, value⟩ := x
    rw [List.forall_mem_append, List.forall_mem_singleton] at h
    rw [overlaid_concat] at hv
    obtain rfl := Option.some.inj hv
    exact Json.distinctKeys_over _ _ (fun w hw => ih h.1 hw) h.2

/-- Repeated conditions write a single entry, with their values laid over each other. -/
theorem toFields_conditionsAt (p : Path) (op : Comparison) (xs : List (ι × Operand)) :
    toFields (conditionsAt p op xs) =
      (overlaid xs).elim [] fun v => Fields.nest p [(op.symbol, v)] := by
  induction xs using List.reverseRecOn with
  | nil => rfl
  | append_singleton xs x ih =>
    obtain ⟨i, value⟩ := x
    have hconcat : conditionsAt p op (xs ++ [(i, value)]) =
        conditionsAt p op xs ++ [.condition i p op value] := by
      unfold conditionsAt
      rw [List.map_append]
      rfl
    rw [hconcat, toFields_concat, ih, overlaid_concat, Node.toFields]
    cases overlaid xs with
    | none =>
      rw [Json.over_none]
      exact Fields.merge_nil_left (Node.keys_nest_nodup p _)
    | some v => exact Fields.merge_nest p op.symbol v value.toJson

theorem writtenAt?_conditionsAt (p : Path) (op : Comparison) (xs : List (ι × Operand)) :
    writtenAt? (conditionsAt p op xs) (p ++ [op.symbol]) = overlaid xs := by
  unfold writtenAt? toQuery?
  rw [toFields_conditionsAt]
  cases overlaid xs with
  | none => rfl
  | some v =>
    have hempty : (Fields.nest p [(op.symbol, v)]).isEmpty = false :=
      List.isEmpty_eq_false_iff.mpr (Node.nest_ne_nil p _)
    simp only [Option.elim_some, hempty, Bool.false_eq_true, if_false, Option.bind_some]
    exact Json.at?_nest p op.symbol v

/-! ## The last value -/

/-- Repeated conditions write the last value laid over what those before it write. Up to the order
of keys this is the last value exactly if it covers what it comes over; it is the last value as it
is if the comparison accepts that. -/
theorem writtenAt?_conditionsAt_concat (p : Path) (op : Comparison) (xs : List (ι × Operand))
    (i : ι) (value : Operand) (hxs : ∀ x ∈ xs, x.2.toJson.DistinctKeys)
    (hvalue : value.toJson.DistinctKeys) :
    ∃ v, writtenAt? (conditionsAt p op (xs ++ [(i, value)])) (p ++ [op.symbol]) = some v ∧
      v = Json.over (writtenAt? (conditionsAt p op xs) (p ++ [op.symbol])) value.toJson ∧
      (v.equiv value.toJson = true ↔
        ∀ u, writtenAt? (conditionsAt p op xs) (p ++ [op.symbol]) = some u →
          u.coveredBy value.toJson = true) ∧
      (op.accepts value = true → v = value.toJson) := by
  simp only [writtenAt?_conditionsAt, overlaid_concat]
  refine ⟨_, rfl, rfl, ?_, ?_⟩
  · cases hu : overlaid xs with
    | none =>
      rw [Json.over_none]
      exact iff_of_true (Json.equiv_refl _ hvalue) fun u hu => nomatch hu
    | some u =>
      rw [Json.equiv_over_iff u _ (distinctKeys_overlaid hxs hu) hvalue]
      simp
  · intro haccepts
    have hobject := Comparison.isObject_of_accepts haccepts
    exact Option.some.inj (Json.overlay_of_not_isObject hobject (overlaid xs))

/-- An object that is written again with a key more and in another order. -/
theorem writtenAt?_moreKeys :
    ∃ v, writtenAt? (conditionsAt ["a"] .eq
        [(1, .other (.object [("x", .null)])),
          (2, .other (.object [("y", .null), ("x", .bool true)]))]) ["a", "$eq"] = some v ∧
      v = .object [("x", .bool true), ("y", .null)] ∧
      v.equiv (.object [("y", .null), ("x", .bool true)]) = true := by
  obtain ⟨v, hwritten, hover, hequiv, -⟩ := writtenAt?_conditionsAt_concat ["a"] .eq
    [(1, .other (.object [("x", .null)]))] 2
    (.other (.object [("y", .null), ("x", .bool true)])) (by decide) (by decide)
  refine ⟨v, hwritten, ?_, hequiv.mpr ?_⟩
  · rw [hover]
    decide
  · decide

/-- Objects with a key each make one with both, which is neither of them. -/
theorem writtenAt?_mixture :
    Path.IsPlain ["a"] ∧
      writtenAt? (conditionsAt ["a"] .eq
        [(1, .other (.object [("x", .number (.int 1))])),
          (2, .other (.object [("y", .number (.int 2))]))]) ["a", "$eq"] =
        some (.object [("x", .number (.int 1)), ("y", .number (.int 2))]) ∧
      (Json.object [("x", .number (.int 1)), ("y", .number (.int 2))]).equiv
        (.object [("x", .number (.int 1))]) = false ∧
      (Json.object [("x", .number (.int 1)), ("y", .number (.int 2))]).equiv
        (.object [("y", .number (.int 2))]) = false := by
  decide

end Forest

end FilterTree
