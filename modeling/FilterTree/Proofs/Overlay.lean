import FilterTree.Proofs.Merge

/-!
# Merging, key by key

A merge is known by its keys (`Fields.keys_merge`) and by what each key holds
(`Fields.get?_merge`): the value of the source laid over that of the target. Objects with the same
keys in the same order that hold the same are equal (`Fields.ext_get?`), so this settles what a
merge is.
-/

namespace FilterTree

namespace Json

/-- Whether a value is an object. -/
def isObject : Json → Bool
  | .object _ => true
  | _ => false

/-- A value is an object, or it is none. -/
theorem object_or_not (v : Json) : (∃ body, v = .object body) ∨ v.isObject = false := by
  cases v with
  | object body => exact Or.inl ⟨body, rfl⟩
  | null | bool _ | number _ | string _ | array _ => exact Or.inr rfl

theorem exists_of_isObject {v : Json} (h : v.isObject = true) : ∃ body, v = .object body := by
  cases v with
  | object body => exact ⟨body, rfl⟩
  | null | bool _ | number _ | string _ | array _ => exact absurd h Bool.false_ne_true

/-- The value at a path of keys. -/
def at? : Json → List String → Option Json
  | v, [] => some v
  | .object fields, k :: p => (Fields.get? fields k).bind fun v => at? v p
  | _, _ :: _ => none

theorem at?_object {fields : Fields} {k : String} {v : Json} (h : fields.get? k = some v)
    (p : List String) : (Json.object fields).at? (k :: p) = v.at? p := by
  rw [at?, h]
  rfl

theorem at?_singleton (fields : Fields) (k : String) :
    (Json.object fields).at? [k] = fields.get? k := by
  rw [at?]
  cases fields.get? k <;> rfl

theorem at?_cons_eq_some {fields : Fields} {k : String} {p : List String} {v : Json} :
    (Json.object fields).at? (k :: p) = some v ↔
      ∃ u, fields.get? k = some u ∧ u.at? p = some v := by
  rw [at?, Option.bind_eq_some_iff]

/-- There is nothing below a value that is no object. -/
theorem at?_of_not_isObject {v w : Json} {p : List String} (hv : v.isObject = false)
    (h : v.at? p = some w) : p = [] ∧ v = w := by
  cases p with
  | nil => exact ⟨rfl, Option.some.inj h⟩
  | cons k p =>
    cases v with
    | object fields => exact absurd hv.symm Bool.false_ne_true
    | null | bool _ | number _ | string _ | array _ => cases h

/-- A path to an object starts from an object. -/
theorem exists_of_at?_object {v : Json} {body : Fields} {p : List String}
    (h : v.at? p = some (.object body)) : ∃ fields, v = .object fields := by
  rcases object_or_not v with hv | hv
  · exact hv
  · exact ⟨body, (at?_of_not_isObject hv h).2⟩

/-! ## One value over another -/

/-- The value of a key that may be absent on either side of a merge. -/
def overlay (existing : Option Json) : Option Json → Option Json
  | none => existing
  | some v => some (Json.over existing v)

@[simp] theorem overlay_none_right (x : Option Json) : overlay x none = x := rfl

@[simp] theorem overlay_none_left (x : Option Json) : overlay none x = x := by
  cases x with
  | none => rfl
  | some v => rw [overlay, over_none]

@[simp] theorem overlay_object (fs gs : Fields) :
    overlay (some (.object fs)) (some (.object gs)) = some (.object (Fields.merge fs gs)) := by
  rw [overlay, Json.over]

/-- A value that is no object wins. -/
theorem overlay_of_not_isObject {v : Json} (h : v.isObject = false) (x : Option Json) :
    overlay x (some v) = some v := by
  cases v with
  | object fields => exact absurd h.symm Bool.false_ne_true
  | null | bool _ | number _ | string _ | array _ => simp only [overlay, Json.over]

/-- Over a value that is no object any value wins. -/
theorem over_not_isObject {v : Json} (h : v.isObject = false) (w : Json) :
    Json.over (some v) w = w := by
  cases w with
  | object fields =>
    cases v with
    | object gs => exact absurd h.symm Bool.false_ne_true
    | null | bool _ | number _ | string _ | array _ => simp only [Json.over]
  | null | bool _ | number _ | string _ | array _ => simp only [Json.over]

theorem overlay_over_not_isObject {v : Json} (h : v.isObject = false) (w : Json) :
    overlay (some v) (some w) = some w := congrArg some (over_not_isObject h w)

/-- Where there is no object below, any value wins. -/
theorem overlay_of_ne_object {x : Option Json} (h : ∀ a, x ≠ some (.object a)) (w : Json) :
    overlay x (some w) = some w := by
  rcases x with _ | u
  · exact overlay_none_left _
  · rcases object_or_not u with ⟨a, rfl⟩ | hu
    · exact absurd rfl (h a)
    · exact overlay_over_not_isObject hu w

/-- Laying a value over another does not change its sort. -/
theorem isObject_overlay {x : Option Json} {v w : Json} (h : overlay x (some w) = some v) :
    v.isObject = w.isObject := by
  rcases object_or_not w with ⟨b, rfl⟩ | hw
  · rcases x with _ | u
    · rw [overlay_none_left, Option.some.injEq] at h
      rw [h]
    · rcases object_or_not u with ⟨a, rfl⟩ | hu
      · rw [overlay_object, Option.some.injEq] at h
        rw [← h]
        rfl
      · rw [overlay_over_not_isObject hu, Option.some.injEq] at h
        rw [h]
  · rw [overlay_of_not_isObject hw, Option.some.injEq] at h
    rw [h]

/-- An object comes from below, from above, or from merging both. -/
theorem overlay_eq_object {x y : Option Json} {body : Fields}
    (h : overlay x y = some (.object body)) :
    (y = none ∧ x = some (.object body)) ∨ y = some (.object body) ∨
      ∃ a b, x = some (.object a) ∧ y = some (.object b) ∧ Fields.merge a b = body := by
  rcases y with _ | w
  · exact Or.inl ⟨rfl, h⟩
  · obtain ⟨b, rfl⟩ := exists_of_isObject ((isObject_overlay h).symm.trans rfl)
    rcases x with _ | u
    · rw [overlay_none_left] at h
      exact Or.inr (Or.inl h)
    · rcases object_or_not u with ⟨a, rfl⟩ | hu
      · rw [overlay_object, Option.some.injEq, object.injEq] at h
        exact Or.inr (Or.inr ⟨a, b, rfl, rfl, h⟩)
      · rw [overlay_over_not_isObject hu] at h
        exact Or.inr (Or.inl h)

end Json

namespace Fields

/-! ## Objects by their keys -/

theorem get?_eq_none {fs : Fields} {key : String} : get? fs key = none ↔ key ∉ keys fs := by
  induction fs with
  | nil => exact iff_of_true rfl List.not_mem_nil
  | cons f fs ih =>
    obtain ⟨k, v⟩ := f
    rw [get?, keys_cons, List.mem_cons, not_or]
    by_cases hk : k = key
    · rw [if_pos hk]
      exact iff_of_false (by simp) fun h => h.1 hk.symm
    · rw [if_neg hk, ih]
      exact ⟨fun h => ⟨Ne.symm hk, h⟩, fun h => h.2⟩

theorem exists_get? {fs : Fields} {k : String} (h : k ∈ keys fs) : ∃ v, get? fs k = some v := by
  cases hv : get? fs k with
  | none => exact absurd h (get?_eq_none.mp hv)
  | some v => exact ⟨v, rfl⟩

theorem mem_of_get? {fs : Fields} {key : String} {v : Json} (h : get? fs key = some v) :
    (key, v) ∈ fs := by
  induction fs with
  | nil => cases h
  | cons f fs ih =>
    obtain ⟨k, w⟩ := f
    rw [get?] at h
    by_cases hk : k = key
    · rw [if_pos hk] at h
      rw [← hk, Option.some.inj h]
      exact List.mem_cons_self
    · rw [if_neg hk] at h
      exact List.mem_cons_of_mem _ (ih h)

theorem mem_keys_of_get? {fs : Fields} {key : String} {v : Json} (h : get? fs key = some v) :
    key ∈ keys fs :=
  mem_keys_of_mem (mem_of_get? h)

/-- Objects with the same keys in the same order that hold the same are the same. -/
theorem ext_get? {fs gs : Fields} (hn : (keys fs).Nodup) (hkeys : keys fs = keys gs)
    (hget : ∀ key, get? fs key = get? gs key) : fs = gs := by
  induction fs generalizing gs with
  | nil => exact (List.map_eq_nil_iff.mp hkeys.symm).symm
  | cons f fs ih =>
    obtain ⟨k, v⟩ := f
    cases gs with
    | nil => cases hkeys
    | cons g gs =>
      obtain ⟨l, w⟩ := g
      obtain ⟨rfl, htail⟩ : k = l ∧ keys fs = keys gs := List.cons.inj hkeys
      obtain ⟨hk, hn⟩ := List.nodup_cons.mp hn
      have hv : v = w := by
        have := hget k
        rw [get?, get?, if_pos rfl, if_pos rfl] at this
        exact Option.some.inj this
      have hrest : fs = gs := by
        refine ih hn htail fun key => ?_
        by_cases hkey : k = key
        · have hk' : k ∉ keys gs := htail ▸ hk
          rw [← hkey, get?_eq_none.mpr hk, get?_eq_none.mpr hk']
        · have := hget key
          rwa [get?, get?, if_neg hkey, if_neg hkey] at this
      rw [hv, hrest]

/-! ## Keys and values after a merge -/

/-- The keys of the target keep their places, and new ones follow in the order of the source. -/
theorem keys_merge {source : Fields} (h : (keys source).Nodup) (target : Fields) :
    keys (merge target source) =
      keys target ++ (keys source).filter fun k => decide (k ∉ keys target) := by
  induction source generalizing target with
  | nil => simp
  | cons s source ih =>
    obtain ⟨k, v⟩ := s
    obtain ⟨hk, hn⟩ := List.nodup_cons.mp h
    rw [merge, ih hn, keys_put, keys_cons]
    by_cases hmem : k ∈ keys target
    · rw [if_pos hmem, List.filter_cons_of_neg (by simpa using hmem)]
    · have hsame : (keys source).filter (fun l => decide (l ∉ keys target ++ [k])) =
          (keys source).filter fun l => decide (l ∉ keys target) := by
        refine List.filter_congr fun l hl => ?_
        have hlk : l ≠ k := fun heq => hk (heq ▸ hl)
        simp [hlk]
      rw [if_neg hmem, List.filter_cons_of_pos (by simpa using hmem), hsame, List.append_assoc,
        List.singleton_append]

theorem put_ne_nil (k : String) (v : Json) (fs : Fields) : put k v fs ≠ [] := by
  cases fs with
  | nil => exact List.cons_ne_nil _ _
  | cons f fs =>
    rw [put]
    split <;> exact List.cons_ne_nil _ _

theorem merge_ne_nil {target : Fields} (h : target ≠ []) (source : Fields) :
    merge target source ≠ [] := by
  induction source generalizing target with
  | nil => rwa [merge_nil]
  | cons s source ih =>
    rw [merge]
    exact ih (put_ne_nil _ _ _)

/-- A merge gives no key a second place. -/
theorem keys_merge_nodup {target : Fields} (h : (keys target).Nodup) (source : Fields) :
    (keys (merge target source)).Nodup := by
  induction source generalizing target with
  | nil => rwa [merge_nil]
  | cons s source ih =>
    rw [merge]
    exact ih (keys_put_nodup h _ _)

/-- Each key holds its value of the source laid over that of the target. -/
theorem get?_merge {source : Fields} (h : (keys source).Nodup) (target : Fields) (key : String) :
    get? (merge target source) key = Json.overlay (get? target key) (get? source key) := by
  induction source generalizing target with
  | nil => rw [merge_nil]; rfl
  | cons s source ih =>
    obtain ⟨k, v⟩ := s
    obtain ⟨hk, hn⟩ := List.nodup_cons.mp h
    rw [merge, ih hn, get?_put, get?]
    by_cases hkey : k = key
    · have hrest : get? source key = none := get?_eq_none.mpr (hkey ▸ hk)
      rw [if_pos hkey, if_pos hkey, hrest, hkey]
      rfl
    · rw [if_neg hkey, if_neg hkey]

theorem foldl_merge_nodup {objects : List Fields} {target : Fields} (h : (keys target).Nodup) :
    (keys (objects.foldl merge target)).Nodup := by
  induction objects generalizing target with
  | nil => exact h
  | cons o objects ih => exact ih (keys_merge_nodup h o)

theorem keys_mergeAll_nodup (objects : List Fields) : (keys (mergeAll objects)).Nodup :=
  foldl_merge_nodup List.nodup_nil

/-- Each key holds its values of all objects, laid over each other from left to right. -/
theorem get?_foldl_merge {objects : List Fields} (h : ∀ o ∈ objects, (keys o).Nodup)
    (target : Fields) (key : String) :
    get? (objects.foldl merge target) key =
      (objects.map (get? · key)).foldl Json.overlay (get? target key) := by
  induction objects generalizing target with
  | nil => rfl
  | cons o objects ih =>
    rw [List.foldl_cons, ih (fun p hp => h p (List.mem_cons_of_mem _ hp)),
      get?_merge (h o List.mem_cons_self), List.map_cons, List.foldl_cons]

theorem get?_mergeAll {objects : List Fields} (h : ∀ o ∈ objects, (keys o).Nodup) (key : String) :
    get? (mergeAll objects) key = (objects.map (get? · key)).foldl Json.overlay none :=
  get?_foldl_merge h [] key

end Fields

end FilterTree
