import FilterTree.Json.Merge

/-!
# Merging, piece by piece

What a merge does to the part of the target that the source does not name: nothing
(`Fields.merge_append`). Objects on disjoint keys are therefore merged by putting them side by side,
and objects that all sit under one key are merged by merging what is below it
(`Fields.mergeAll_wrap`).
-/

namespace FilterTree

namespace Fields

/-! ## Lookups -/

@[simp] theorem keys_nil : keys [] = [] := rfl

@[simp] theorem keys_cons (f : String × Json) (fs : Fields) : keys (f :: fs) = f.1 :: keys fs := rfl

@[simp] theorem keys_append (fs gs : Fields) : keys (fs ++ gs) = keys fs ++ keys gs :=
  List.map_append

theorem length_keys (fs : Fields) : (keys fs).length = fs.length :=
  List.length_map _

theorem mem_keys_of_mem {f : String × Json} {fs : Fields} (h : f ∈ fs) : f.1 ∈ keys fs :=
  List.mem_map_of_mem h

theorem get?_append {fs : Fields} {key : String} (h : key ∉ keys fs) (gs : Fields) :
    get? (fs ++ gs) key = get? gs key := by
  induction fs with
  | nil => rfl
  | cons f fs ih =>
    rw [keys_cons, List.mem_cons, not_or] at h
    rw [List.cons_append, get?, if_neg (Ne.symm h.1)]
    exact ih h.2

theorem put_append {fs : Fields} {key : String} (h : key ∉ keys fs) (value : Json) (gs : Fields) :
    put key value (fs ++ gs) = fs ++ put key value gs := by
  induction fs with
  | nil => rfl
  | cons f fs ih =>
    rw [keys_cons, List.mem_cons, not_or] at h
    rw [List.cons_append, put, if_neg (Ne.symm h.1), ih h.2, List.cons_append]

/-- With distinct keys a lookup finds every field. -/
theorem get?_of_mem {k : String} {v : Json} :
    ∀ {fields : Fields}, (keys fields).Nodup → (k, v) ∈ fields → get? fields k = some v
  | [], _, h => absurd h List.not_mem_nil
  | (l, w) :: fields, hn, h => by
    obtain ⟨hl, hn⟩ := List.nodup_cons.mp hn
    rcases List.mem_cons.mp h with heq | h
    · obtain ⟨rfl, rfl⟩ := Prod.mk.inj heq
      rw [get?, if_pos rfl]
    · have hmem : k ∈ keys fields := mem_keys_of_mem h
      have hne : l ≠ k := fun heq => hl (heq ▸ hmem)
      rw [get?, if_neg hne, get?_of_mem hn h]

/-! ## Merging beside what is there -/

/-- A source that names no key of the first part of the target leaves that part alone. -/
theorem merge_append {fs source : Fields} (h : ∀ k ∈ keys source, k ∉ keys fs) (gs : Fields) :
    merge (fs ++ gs) source = fs ++ merge gs source := by
  induction source generalizing gs with
  | nil => rw [merge_nil, merge_nil]
  | cons s source ih =>
    obtain ⟨k, v⟩ := s
    have hk : k ∉ keys fs := h k List.mem_cons_self
    rw [merge, get?_append hk, put_append hk, ih (fun l hl => h l (List.mem_cons_of_mem _ hl)),
      merge]

theorem foldl_merge_append {fs : Fields} {objects : List Fields}
    (h : ∀ o ∈ objects, ∀ k ∈ keys o, k ∉ keys fs) (gs : Fields) :
    objects.foldl merge (fs ++ gs) = fs ++ objects.foldl merge gs := by
  induction objects generalizing gs with
  | nil => rfl
  | cons o objects ih =>
    rw [List.foldl_cons, merge_append (h o List.mem_cons_self), List.foldl_cons]
    exact ih (fun p hp => h p (List.mem_cons_of_mem _ hp)) _

/-- Objects that share no key with those before them are merged apart from them. -/
theorem mergeAll_append {before after : List Fields}
    (h : ∀ o ∈ after, ∀ k ∈ keys o, k ∉ keys (mergeAll before)) :
    mergeAll (before ++ after) = mergeAll before ++ mergeAll after := by
  rw [mergeAll, List.foldl_append]
  have := foldl_merge_append h []
  rwa [List.append_nil] at this

/-- Merging into the empty object copies an object. -/
theorem merge_nil_left {fs : Fields} (h : (keys fs).Nodup) : merge [] fs = fs := by
  induction fs with
  | nil => rw [merge_nil]
  | cons f fs ih =>
    obtain ⟨k, v⟩ := f
    obtain ⟨hk, hn⟩ := List.nodup_cons.mp h
    have fresh : ∀ l ∈ keys fs, l ∉ keys [(k, v)] := by
      intro l hl heq
      rw [keys_cons, keys_nil, List.mem_singleton] at heq
      exact hk (heq ▸ hl)
    rw [merge, get?, put, Json.over_none]
    exact (merge_append fresh []).trans (congrArg (_ :: ·) (ih hn))

theorem mergeAll_singleton {fs : Fields} (h : (keys fs).Nodup) : mergeAll [fs] = fs :=
  merge_nil_left h

/-! ## Merging under one key -/

/-- An object of which the only field holds an object. -/
def wrap (key : String) (body : Fields) : Fields := [(key, .object body)]

@[simp] theorem keys_wrap (key : String) (body : Fields) : keys (wrap key body) = [key] := rfl

theorem keys_wrap_nodup (key : String) (body : Fields) : (keys (wrap key body)).Nodup := by
  rw [keys_wrap]
  exact List.pairwise_singleton _ key

theorem merge_wrap (key : String) (fs gs : Fields) :
    merge (wrap key fs) (wrap key gs) = wrap key (merge fs gs) := by
  simp [wrap, merge, get?, put, Json.over]

/-- Objects under one key are merged by merging what is below it. -/
theorem mergeAll_wrap (key : String) {bodies : List Fields} (hne : bodies ≠ [])
    (h : ∀ b ∈ bodies, (keys b).Nodup) :
    mergeAll (bodies.map (wrap key)) = wrap key (mergeAll bodies) := by
  have go : ∀ (bodies : List Fields) (fs : Fields),
      (bodies.map (wrap key)).foldl merge (wrap key fs) = wrap key (bodies.foldl merge fs) := by
    intro bodies
    induction bodies with
    | nil => exact fun _ => rfl
    | cons b bodies ih =>
      intro fs
      rw [List.map_cons, List.foldl_cons, merge_wrap, ih, List.foldl_cons]
  cases bodies with
  | nil => exact absurd rfl hne
  | cons b bodies =>
    rw [mergeAll, List.map_cons, List.foldl_cons, merge_nil_left (keys_wrap_nodup key b), go,
      mergeAll, List.foldl_cons, merge_nil_left (h b List.mem_cons_self)]

end Fields

end FilterTree
