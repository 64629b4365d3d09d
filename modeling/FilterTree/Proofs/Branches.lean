import FilterTree.Proofs.Grammar

/-!
# Branches

A branch is an object with one key (`Query.keys_of_mem_branchesOf`), and a single value is its own
branch (`Query.branches_of_isSingle`). The branches of a proper object, merged from left to right,
are that object again, in the order of its keys (`Query.mergeAll_branches`), and flattened filters
are proper (`Query.isProper_flatten`).
-/

namespace FilterTree

/-- A key is an operator or the name of a field. -/
theorem Key.isOperator_or_field (key : String) :
    (ofString key).isOperator = true ∨ ofString key = .field key := by
  cases hk : ofString key with
  | field name => exact Or.inr (congrArg Key.field (name_of_ofString hk))
  | comparison op => exact Or.inl rfl
  | connective op => exact Or.inl rfl
  | quantifier op => exact Or.inl rfl

theorem Key.ofString_of_not_isOperator {key : String} (h : (ofString key).isOperator = false) :
    ofString key = .field key := by
  refine (isOperator_or_field key).resolve_left fun hop => ?_
  rw [h] at hop
  exact Bool.noConfusion hop

namespace Query

variable {d : Dialect} {inner shadowed : Bool}

/-! ## The branches of an object -/

theorem branchesOf_operator {k : String} (h : (Key.ofString k).isOperator = true) (v : Json) :
    branchesOf [(k, v)] = [[(k, v)]] := by
  rw [branchesOf, branchesOf]
  cases hk : Key.ofString k with
  | field name => rw [hk] at h; exact Bool.noConfusion h
  | comparison op => rfl
  | connective op => rfl
  | quantifier op => rfl

theorem branchesOf_field {k name : String} (h : Key.ofString k = .field name) (v : Json) :
    branchesOf [(k, v)] = (branches v).map (Fields.wrap k) := by
  rw [branchesOf, branchesOf, h]
  exact List.append_nil _

theorem branchesOf_cons (f : String × Json) (fields : Fields) :
    branchesOf (f :: fields) = branchesOf [f] ++ branchesOf fields := by
  rw [branchesOf, branchesOf, branchesOf, List.append_nil]

theorem branchesOf_append (fs gs : Fields) :
    branchesOf (fs ++ gs) = branchesOf fs ++ branchesOf gs := by
  induction fs with
  | nil => rw [List.nil_append, branchesOf, List.nil_append]
  | cons f fs ih =>
    rw [List.cons_append, branchesOf_cons, ih, branchesOf_cons f fs, List.append_assoc]

/-- A branch has one key, which is a key of the whole. -/
theorem keys_of_mem_branchesOf {o : Fields} :
    ∀ {fields : Fields}, o ∈ branchesOf fields → ∃ k ∈ Fields.keys fields, Fields.keys o = [k]
  | [], h => by
    rw [branchesOf] at h
    exact absurd h List.not_mem_nil
  | (k, v) :: fields, h => by
    rw [branchesOf_cons, List.mem_append] at h
    rcases h with h | h
    · refine ⟨k, List.mem_cons_self, ?_⟩
      rcases Key.isOperator_or_field k with hk | hk
      · rw [branchesOf_operator hk, List.mem_singleton] at h
        rw [h]
        rfl
      · rw [branchesOf_field hk] at h
        obtain ⟨b, -, rfl⟩ := List.mem_map.mp h
        rfl
    · obtain ⟨l, hl, ho⟩ := keys_of_mem_branchesOf h
      exact ⟨l, List.mem_cons_of_mem _ hl, ho⟩

theorem ne_nil_of_mem_branchesOf {o fields : Fields} (h : o ∈ branchesOf fields) : o ≠ [] := by
  obtain ⟨k, -, ho⟩ := keys_of_mem_branchesOf h
  rintro rfl
  exact List.cons_ne_nil _ _ ho.symm

theorem keys_nodup_of_mem_branchesOf {o fields : Fields} (h : o ∈ branchesOf fields) :
    (Fields.keys o).Nodup := by
  obtain ⟨k, -, ho⟩ := keys_of_mem_branchesOf h
  rw [ho]
  exact List.pairwise_singleton _ k

mutual

/-- A single value has itself as its only branch. -/
theorem branches_of_isSingle :
    ∀ v : Json, isSingle v = true → ∃ fields, v = .object fields ∧ branches v = [fields]
  | .null, h | .bool _, h | .number _, h | .string _, h | .array _, h => by
    simp [isSingle] at h
  | .object fields, h => by
    rw [isSingle] at h
    refine ⟨fields, rfl, ?_⟩
    rw [branches, branchesOf_of_isSingleOf fields h]

theorem branchesOf_of_isSingleOf :
    ∀ fields : List (String × Json), isSingleOf fields = true → branchesOf fields = [fields]
  | [], h | _ :: _ :: _, h => by simp [isSingleOf] at h
  | [(k, v)], h => by
    rcases Key.isOperator_or_field k with hk | hk
    · exact branchesOf_operator hk v
    · rw [isSingleOf, hk] at h
      obtain ⟨fields, rfl, hb⟩ := branches_of_isSingle v h
      rw [branchesOf_field hk, hb]
      rfl

end

/-! ## The keys of a flattened object -/

theorem flattenEntries_cons (f : String × Json) (fields : Fields) :
    flattenEntries shadowed (f :: fields) =
      flattenEntries shadowed [f] ++ flattenEntries shadowed fields := by
  rw [flattenEntries, flattenEntries, flattenEntries, List.append_nil]

/-- An operator keeps its key. -/
theorem flattenEntries_operator (shadowed : Bool) {k : String}
    (h : (Key.ofString k).isOperator = true) (v : Json) :
    ∃ w, flattenEntries shadowed [(k, v)] = [(k, w)] := by
  rw [flattenEntries, flattenEntries]
  cases hk : Key.ofString k with
  | field name => rw [hk] at h; exact Bool.noConfusion h
  | comparison op => exact ⟨v, rfl⟩
  | connective op => exact ⟨_, rfl⟩
  | quantifier op => exact ⟨flatten v, rfl⟩

theorem flattenEntries_field {k name : String} (h : Key.ofString k = .field name) (v : Json) :
    flattenEntries shadowed [(k, v)] = if shadowed then [] else [(k, flattenBody v)] := by
  rw [flattenEntries, flattenEntries, h]
  exact List.append_nil _

/-- Flattening adds no key and keeps the order. -/
theorem keys_flattenEntries :
    ∀ fields : List (String × Json),
      (Fields.keys (flattenEntries shadowed fields)).Sublist (Fields.keys fields)
  | [] => by
    have hnil : flattenEntries shadowed [] = [] := by rw [flattenEntries]
    exact hnil.symm ▸ List.Sublist.refl []
  | (k, v) :: fields => by
    have hfields := keys_flattenEntries fields
    rw [flattenEntries_cons, Fields.keys_append, Fields.keys_cons]
    rcases Key.isOperator_or_field k with hk | hk
    · obtain ⟨w, hw⟩ := flattenEntries_operator shadowed hk v
      rw [hw]
      exact hfields.cons_cons k
    · rw [flattenEntries_field hk]
      cases shadowed with
      | true => exact hfields.cons k
      | false => exact hfields.cons_cons k

/-! ## Putting branches together -/

mutual

/-- Whether no object that is reached through fields alone is empty or has a key twice. -/
def IsProper : Json → Prop
  | .object fields => fields ≠ [] ∧ (Fields.keys fields).Nodup ∧ AreProper fields
  | _ => False

/-- Whether the fields among the keys hold proper objects. -/
def AreProper : List (String × Json) → Prop
  | [] => True
  | (k, v) :: fields => ((Key.ofString k).isOperator = false → IsProper v) ∧ AreProper fields

end

theorem areProper_append {fs gs : Fields} :
    AreProper (fs ++ gs) ↔ AreProper fs ∧ AreProper gs := by
  induction fs with
  | nil => rw [List.nil_append, AreProper, true_and]
  | cons f fs ih => rw [List.cons_append, AreProper, AreProper, ih, and_assoc]

theorem keys_nodup_of_mem_branches {o : Fields} {v : Json} (h : o ∈ branches v) :
    (Fields.keys o).Nodup := by
  cases v with
  | object fields => exact keys_nodup_of_mem_branchesOf h
  | null | bool _ | number _ | string _ | array _ => simp [branches] at h

mutual

theorem branches_ne_nil_of_isProper : ∀ v : Json, IsProper v → branches v ≠ []
  | .null, h | .bool _, h | .number _, h | .string _, h | .array _, h => by simp [IsProper] at h
  | .object fields, h => by
    obtain ⟨hne, -, hfields⟩ := h
    rw [branches]
    exact branchesOf_ne_nil_of_areProper fields hfields hne

theorem branchesOf_ne_nil_of_areProper :
    ∀ fields : List (String × Json), AreProper fields → fields ≠ [] → branchesOf fields ≠ []
  | [], _, hne => absurd rfl hne
  | (k, v) :: fields, h, _ => by
    rw [branchesOf_cons]
    refine List.append_ne_nil_of_left_ne_nil ?_ _
    rcases Key.isOperator_or_field k with hk | hk
    · rw [branchesOf_operator hk]
      exact List.cons_ne_nil _ _
    · rw [branchesOf_field hk]
      have hv := branches_ne_nil_of_isProper v (h.1 (by rw [hk]; rfl))
      exact fun hnil => hv (List.map_eq_nil_iff.mp hnil)

end

mutual

/-- Merging the branches of a proper object gives the object. -/
theorem mergeAll_branches :
    ∀ v : Json, IsProper v → v = .object (Fields.mergeAll (branches v))
  | .null, h | .bool _, h | .number _, h | .string _, h | .array _, h => by simp [IsProper] at h
  | .object fields, h => by
    obtain ⟨-, hnodup, hfields⟩ := h
    rw [branches, mergeAll_branchesOf fields hfields hnodup]

/-- The branches of one key have no other key, so they are merged key by key. -/
theorem mergeAll_branchesOf :
    ∀ fields : List (String × Json), AreProper fields → (Fields.keys fields).Nodup →
      Fields.mergeAll (branchesOf fields) = fields
  | [], _, _ => by
    rw [branchesOf]
    rfl
  | (k, v) :: fields, h, hn => by
    obtain ⟨hk, hn⟩ := List.nodup_cons.mp hn
    have hhead : Fields.mergeAll (branchesOf [(k, v)]) = [(k, v)] := by
      rcases Key.isOperator_or_field k with hkey | hkey
      · rw [branchesOf_operator hkey]
        exact Fields.mergeAll_singleton (List.pairwise_singleton _ k)
      · have hv : IsProper v := h.1 (by rw [hkey]; rfl)
        rw [branchesOf_field hkey, Fields.mergeAll_wrap k (branches_ne_nil_of_isProper v hv)
          fun b hb => keys_nodup_of_mem_branches hb, Fields.wrap, ← mergeAll_branches v hv]
    rw [branchesOf_cons, Fields.mergeAll_append, hhead, mergeAll_branchesOf fields h.2 hn]
    · rfl
    intro o ho l hl hmem
    rw [hhead] at hmem
    obtain ⟨l', hl', hol⟩ := keys_of_mem_branchesOf ho
    rw [hol, List.mem_singleton] at hl
    have hlk : l = k := List.mem_singleton.mp hmem
    rw [← hlk, hl] at hk
    exact hk hl'

end

/-- The fields of a proper object from its branches. -/
theorem IsProper.mergeAll_ne_nil {v : Json} (h : IsProper v) :
    Fields.mergeAll (branches v) ≠ [] := by
  have heq := mergeAll_branches v h
  intro hnil
  rw [hnil] at heq
  rw [heq] at h
  exact h.1 rfl

/-! ## Flattened filters -/

mutual

/-- A body has a branch, also after flattening: an operator is never dropped. -/
theorem branches_flattenBody_ne_nil :
    ∀ v : Json, isBody d v = true → branches (flattenBody v) ≠ []
  | .null, h | .bool _, h | .number _, h | .string _, h | .array _, h => by simp [isBody] at h
  | .object fields, h => by
    obtain ⟨hne, he, -⟩ := isBody_object h
    rw [flattenBody, branches]
    refine branchesOf_flattenEntries_ne_nil true (hasOperator fields) fields he ?_
    cases ho : hasOperator fields with
    | true =>
      obtain ⟨f, hf, hop⟩ := List.any_eq_true.mp ho
      exact ⟨f, hf, Or.inl hop⟩
    | false =>
      obtain ⟨f, hf⟩ := List.exists_mem_of_ne_nil fields hne
      exact ⟨f, hf, Or.inr rfl⟩

theorem branchesOf_flattenEntries_ne_nil :
    ∀ (inner shadowed : Bool) (fields : List (String × Json)), areEntries d inner fields = true →
      (∃ f ∈ fields, (Key.ofString f.1).isOperator = true ∨ shadowed = false) →
      branchesOf (flattenEntries shadowed fields) ≠ []
  | _, _, [], _, h => by
    obtain ⟨f, hf, -⟩ := h
    exact absurd hf List.not_mem_nil
  | inner, shadowed, (k, v) :: fields, he, h => by
    obtain ⟨hv, hfields⟩ := areEntries_cons he
    rw [flattenEntries_cons, branchesOf_append]
    intro hnil
    obtain ⟨hhead, htail⟩ := List.append_eq_nil_iff.mp hnil
    obtain ⟨f, hf, hkept⟩ := h
    rcases List.mem_cons.mp hf with rfl | hf
    · rcases Key.isOperator_or_field k with hk | hk
      · obtain ⟨w, hw⟩ := flattenEntries_operator shadowed hk v
        rw [hw, branchesOf_operator hk] at hhead
        exact List.cons_ne_nil _ _ hhead
      · rcases hkept with hop | rfl
        · rw [hk] at hop
          exact Bool.noConfusion hop
        · rw [flattenEntries_field hk, if_neg Bool.false_ne_true, branchesOf_field hk,
            List.map_eq_nil_iff] at hhead
          exact branches_flattenBody_ne_nil v (isBody_of_areEntries hk hv) hhead
    · exact branchesOf_flattenEntries_ne_nil inner shadowed fields hfields ⟨f, hf, hkept⟩ htail

end

theorem branches_flatten_ne_nil {v : Json} (h : isFilter d v = true) :
    branches (flatten v) ≠ [] := by
  cases v with
  | object fields =>
    obtain ⟨hne, he⟩ := isFilter_object h
    obtain ⟨f, hf⟩ := List.exists_mem_of_ne_nil fields hne
    rw [flatten, branches]
    exact branchesOf_flattenEntries_ne_nil false false fields he ⟨f, hf, Or.inr rfl⟩
  | null | bool _ | number _ | string _ | array _ => simp [isFilter] at h

mutual

theorem isProper_flattenBody :
    ∀ v : Json, isBody d v = true → v.DistinctKeys → IsProper (flattenBody v)
  | .null, h, _ | .bool _, h, _ | .number _, h, _ | .string _, h, _ | .array _, h, _ => by
    simp [isBody] at h
  | .object fields, h, hd => by
    have hne := branches_flattenBody_ne_nil (.object fields) h
    rw [flattenBody] at hne ⊢
    refine ⟨?_, hd.1.sublist (keys_flattenEntries fields),
      areProper_flattenEntries true (hasOperator fields) fields (isBody_object h).2.1 hd.2⟩
    intro hnil
    rw [hnil] at hne
    exact hne rfl

/-- In a flattened filter nothing on the way to an operator is empty. -/
theorem areProper_flattenEntries :
    ∀ (inner shadowed : Bool) (fields : List (String × Json)), areEntries d inner fields = true →
      Json.DistinctKeysFields fields → AreProper (flattenEntries shadowed fields)
  | _, _, [], _, _ => by
    rw [flattenEntries]
    trivial
  | inner, shadowed, (k, v) :: fields, he, hd => by
    obtain ⟨hv, hfields⟩ := areEntries_cons he
    rw [flattenEntries_cons, areProper_append]
    refine ⟨?_, areProper_flattenEntries inner shadowed fields hfields hd.2⟩
    rcases Key.isOperator_or_field k with hk | hk
    · obtain ⟨w, hw⟩ := flattenEntries_operator shadowed hk v
      rw [hw]
      refine ⟨fun hnot => ?_, trivial⟩
      rw [hk] at hnot
      exact Bool.noConfusion hnot
    · rw [flattenEntries_field hk]
      cases shadowed with
      | true => trivial
      | false =>
        exact ⟨fun _ => isProper_flattenBody v (isBody_of_areEntries hk hv) hd.1, trivial⟩

end

theorem isProper_flatten {v : Json} (h : isFilter d v = true) (hd : v.DistinctKeys) :
    IsProper (flatten v) := by
  have hne := branches_flatten_ne_nil h
  cases v with
  | object fields =>
    rw [flatten] at hne ⊢
    refine ⟨?_, hd.1.sublist (keys_flattenEntries fields),
      areProper_flattenEntries false false fields (isFilter_object h).2 hd.2⟩
    intro hnil
    rw [hnil] at hne
    exact hne rfl
  | null | bool _ | number _ | string _ | array _ => simp [isFilter] at h

end Query

end FilterTree
