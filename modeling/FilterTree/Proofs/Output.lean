import FilterTree.Proofs.Branches
import FilterTree.Proofs.Lookup

/-!
# What is written is a filter

The grammar of the output. A forest with plain paths is written as a filter, unless nothing is
written (`Forest.isFilter_toFields`): no part is empty, every item of `$and` and `$or` is single,
and no connective stands in a field. Unlike in a canonical filter a field may hold operators and
fields side by side, because siblings are merged.

The grammar survives merges because a key holds values of one sort only (`Query.areEntries_merge`).
-/

namespace FilterTree

namespace Query

/-- The filters that forests are written as: every item is single, and a field may hold operators
and fields side by side. -/
def Dialect.written : Dialect where
  wide _ := false
  mixed := true

variable {d : Dialect} {inner : Bool}

/-! ## Merging filters -/

theorem areEntries_put {fields : Fields} {k : String} {v : Json}
    (h : areEntries d inner fields = true) (hv : areEntries d inner [(k, v)] = true) :
    areEntries d inner (Fields.put k v fields) = true := by
  rw [areEntries_iff_forall] at h ⊢
  intro f hf
  rcases Fields.mem_put hf with rfl | hf
  · exact hv
  · exact h f hf

theorem isFilter_of_areEntries {fields : Fields} (hne : fields ≠ [])
    (h : areEntries d false fields = true) : isFilter d (.object fields) = true := by
  rw [isFilter, h, Bool.and_true, Bool.not_eq_true', List.isEmpty_eq_false_iff]
  exact hne

theorem isBody_of_mixed {fields : Fields} (hm : d.mixed = true) (hne : fields ≠ [])
    (h : areEntries d true fields = true) : isBody d (.object fields) = true := by
  rw [isBody, h, hm, Bool.and_true, Bool.true_or, Bool.true_or, Bool.and_true, Bool.not_eq_true',
    List.isEmpty_eq_false_iff]
  exact hne

mutual

/-- Merging keeps the entries of a filter, or of a body, what they should be. -/
theorem areEntries_merge (hm : d.mixed = true) :
    ∀ (inner : Bool) (source target : List (String × Json)), areEntries d inner target = true →
      areEntries d inner source = true → areEntries d inner (Fields.merge target source) = true
  | _, [], target, ht, _ => by rwa [Fields.merge_nil]
  | inner, (k, v) :: source, target, ht, hs => by
    obtain ⟨hv, hsource⟩ := areEntries_cons hs
    have hexisting : ∀ w, Fields.get? target k = some w → areEntries d inner [(k, w)] = true :=
      fun w hw => areEntries_iff_forall.mp ht _ (Fields.mem_of_get? hw)
    rw [Fields.merge]
    exact areEntries_merge hm inner source _
      (areEntries_put ht (areEntries_over hm inner k v _ hexisting hv)) hsource

/-- A key holds values of one sort, and two of them together are one more. -/
theorem areEntries_over (hm : d.mixed = true) :
    ∀ (inner : Bool) (k : String) (v : Json) (existing : Option Json),
      (∀ w, existing = some w → areEntries d inner [(k, w)] = true) →
      areEntries d inner [(k, v)] = true → areEntries d inner [(k, Json.over existing v)] = true
  | _, _, .null, _, _, hv | _, _, .bool _, _, _, hv | _, _, .number _, _, _, hv
  | _, _, .string _, _, _, hv | _, _, .array _, _, _, hv => by
    simpa only [Json.over] using hv
  | _, _, .object incoming, none, _, hv => by rwa [Json.over_none]
  | inner, k, .object incoming, some w, hw, hv => by
    rcases w.object_or_not with ⟨fields, rfl⟩ | hobject
    · have hfields := hw _ rfl
      rw [Json.over]
      cases hk : Key.ofString k with
      -- merged values stay of their sort: a filter in `$not` and quantifiers, a body in a field;
      -- `$and` and `$or` hold arrays, which are not merged
      | comparison op => rw [areEntries, areEntries, hk]; rfl
      | connective op =>
        cases op with
        | not =>
          obtain ⟨hne, htarget⟩ := isFilter_object (isFilter_of_areEntries_not hk hfields)
          obtain ⟨-, hsource⟩ := isFilter_object (isFilter_of_areEntries_not hk hv)
          have hmerge := areEntries_merge hm false incoming fields htarget hsource
          have hfilter := isFilter_of_areEntries (Fields.merge_ne_nil hne incoming) hmerge
          rw [areEntries, areEntries, Bool.and_true, hk] at hv ⊢
          simp only [Bool.and_eq_true] at hv ⊢
          exact ⟨hv.1, hfilter⟩
        | and | or =>
          have hlist := isItemList_of_areEntries hk (by simp) hv
          simp [isItemList] at hlist
      | quantifier op =>
        obtain ⟨hne, htarget⟩ := isFilter_object (isFilter_of_areEntries_quantifier hk hfields)
        obtain ⟨-, hsource⟩ := isFilter_object (isFilter_of_areEntries_quantifier hk hv)
        have hmerge := areEntries_merge hm false incoming fields htarget hsource
        rw [areEntries, areEntries, Bool.and_true, hk]
        exact isFilter_of_areEntries (Fields.merge_ne_nil hne incoming) hmerge
      | field name =>
        obtain ⟨hne, htarget, -⟩ := isBody_object (isBody_of_areEntries hk hfields)
        obtain ⟨-, hsource, -⟩ := isBody_object (isBody_of_areEntries hk hv)
        have hmerge := areEntries_merge hm true incoming fields htarget hsource
        rw [areEntries, areEntries, Bool.and_true, hk]
        exact isBody_of_mixed hm (Fields.merge_ne_nil hne incoming) hmerge
    · rwa [Json.over_not_isObject hobject]

end

theorem areEntries_foldl_merge (hm : d.mixed = true) {objects : List Fields} {target : Fields}
    (ht : areEntries d inner target = true)
    (h : ∀ o ∈ objects, areEntries d inner o = true) :
    areEntries d inner (objects.foldl Fields.merge target) = true := by
  induction objects generalizing target with
  | nil => exact ht
  | cons o objects ih =>
    exact ih (areEntries_merge hm inner o target ht (h o List.mem_cons_self))
      fun p hp => h p (List.mem_cons_of_mem _ hp)

/-! ## Names around an operator -/

/-- An operator under names is single. -/
theorem isSingle_nest {p : Path} (hp : Path.IsPlain p) {k : String} (v : Json)
    (hk : (Key.ofString k).isOperator = true) :
    isSingle (.object (Fields.nest p [(k, v)])) = true := by
  induction p with
  | nil =>
    rw [Fields.nest, isSingle, isSingleOf]
    cases hkey : Key.ofString k with
    | field name => rw [hkey] at hk; exact absurd hk Bool.false_ne_true
    | comparison op | connective op | quantifier op => rfl
  | cons name p ih =>
    rw [Fields.nest, isSingle, isSingleOf,
      Key.ofString_of_not_isOperator (hp name List.mem_cons_self)]
    exact ih hp.tail

/-- Names around an entry make a body around it, in which no connective has a place. -/
theorem areEntries_nest (hm : d.mixed = true) {p : Path} (hp : Path.IsPlain p)
    {e : String × Json} (he : areEntries d (!p.isEmpty) [e] = true) :
    ∀ inner : Bool, (p = [] → inner = false) →
      areEntries d inner (Fields.nest p [e]) = true := by
  induction p with
  | nil =>
    intro inner hinner
    rw [hinner rfl]
    exact he
  | cons name p ih =>
    intro inner _
    have hentries : areEntries d true (Fields.nest p [e]) = true := by
      cases p with
      | nil => exact he
      | cons _ _ => exact ih hp.tail he true (by simp)
    rw [Fields.nest, areEntries, areEntries, Bool.and_true,
      Key.ofString_of_not_isOperator (hp name List.mem_cons_self)]
    exact isBody_of_mixed hm (Node.nest_ne_nil _ _) hentries

end Query

namespace Forest

open Query

variable {ι : Type}

/-! ## Writing filters -/

theorem HasPlainPaths.of_subset {ms ns : Forest ι} (h : HasPlainPaths ns)
    (hsub : nodes ms ⊆ nodes ns) : HasPlainPaths ms := fun n hn => h n (hsub hn)

theorem HasPlainPaths.tail {n : Node ι} {ns : Forest ι} (h : HasPlainPaths (n :: ns)) :
    HasPlainPaths ns :=
  h.of_subset (nodes_subset_cons n ns)

/-- What a node writes is a single filter. -/
structure WritesSingle (n : Node ι) : Prop where
  areEntries : areEntries .written false n.toFields = true
  isSingle : n.toFields ≠ [] → isSingle (.object n.toFields) = true

theorem isFilter_of_forall {ns : Forest ι} (h : ∀ n ∈ ns, WritesSingle n)
    (hne : toFields ns ≠ []) : isFilter .written (.object (toFields ns)) = true := by
  refine isFilter_of_areEntries hne (areEntries_foldl_merge rfl (by rw [Query.areEntries]) ?_)
  intro o ho
  rw [toFieldsList_eq_map] at ho
  obtain ⟨n, hn, rfl⟩ := List.mem_map.mp ho
  exact (h n hn).areEntries

theorem isItemList_of_forall (op : Connective) {ns : Forest ι} (h : ∀ n ∈ ns, WritesSingle n)
    {v : Json} (hv : toArray? ns = some v) : isItemList .written op v = true := by
  have hitems : ∀ os : List Fields, (∀ o ∈ os, o ∈ written ns) →
      areItems .written op (os.map .object) = true := by
    intro os hos
    induction os with
    | nil => rw [List.map_nil, areItems]
    | cons o os ih =>
      have ho := hos o List.mem_cons_self
      rw [written, List.mem_filter, toFieldsList_eq_map, List.mem_map, Bool.not_eq_true',
        List.isEmpty_eq_false_iff] at ho
      obtain ⟨⟨n, hn, rfl⟩, hne⟩ := ho
      rw [List.map_cons, areItems, isFilter_of_areEntries hne (h n hn).areEntries,
        (h n hn).isSingle hne, ih fun o ho => hos o (List.mem_cons_of_mem _ ho), Bool.or_true]
      rfl
  rw [toArray?] at hv
  split at hv
  · cases hv
  · rename_i hempty
    rw [← Option.some.inj hv, isItemList, hitems _ fun o ho => ho, List.isEmpty_map,
      Bool.and_true, Bool.not_eq_true']
    exact Bool.eq_false_iff.mpr hempty

/-- A node writes a single filter if its children do. -/
theorem writesSingle_of_children {n : Node ι} (hpath : Path.IsPlain n.path)
    (h : ∀ m ∈ n.children, WritesSingle m) : WritesSingle n := by
  cases hv : n.value? with
  | none =>
    have hnil := Node.toFields_eq_nil.mpr hv
    exact ⟨by rw [hnil, Query.areEntries], fun hne => absurd hnil hne⟩
  | some v =>
    have hfields : n.toFields = Fields.nest n.path [(n.key.text, v)] := by
      rw [Node.toFields_eq, hv]
      rfl
    have hentry : Query.areEntries .written (!n.path.isEmpty) [(n.key.text, v)] = true := by
      rw [Query.areEntries, Query.areEntries, n.ofString_key, Bool.and_true]
      cases n with
      | condition i p o w => rfl
      | embedded i p o ms =>
        obtain ⟨rfl, hne⟩ := toFields_of_toQuery? hv
        exact isFilter_of_forall h hne
      | logical i o ms =>
        cases o with
        | not =>
          obtain ⟨rfl, hne⟩ := toFields_of_toQuery? hv
          exact isFilter_of_forall h hne
        | and | or => exact isItemList_of_forall _ h hv
    refine ⟨?_, fun _ => ?_⟩
    · rw [hfields]
      exact areEntries_nest rfl hpath hentry false fun _ => rfl
    · rw [hfields]
      exact isSingle_nest hpath v (by rw [n.ofString_key]; exact n.isOperator_key)

theorem writesSingle {ns : Forest ι} (h : HasPlainPaths ns) : ∀ n ∈ ns, WritesSingle n := by
  induction ns using Forest.induction with
  | nil => exact fun n hn => absurd hn List.not_mem_nil
  | cons n ns ihn ih =>
    intro m hm
    rcases List.mem_cons.mp hm with rfl | hm
    · have hmem : m ∈ m :: ns := List.mem_cons_self
      exact writesSingle_of_children (h m (mem_nodes_of_mem hmem))
        (ihn (h.of_subset (nodes_children_subset hmem)))
    · exact ih h.tail m hm

/-- A forest with plain paths is written as a filter. -/
theorem isFilter_toFields {ns : Forest ι} (h : HasPlainPaths ns) (hne : toFields ns ≠ []) :
    isFilter .written (.object (toFields ns)) = true :=
  isFilter_of_forall (writesSingle h) hne

end Forest

/-! ## Distinct keys -/

theorem Json.DistinctKeys.get? {fields : Fields} {k : String} {v : Json}
    (h : (Json.object fields).DistinctKeys) (hk : Fields.get? fields k = some v) :
    v.DistinctKeys :=
  (distinctKeysFields_iff fields).mp h.2 _ (Fields.mem_of_get? hk)

theorem Json.distinctKeysList_iff (vs : List Json) :
    DistinctKeysList vs ↔ ∀ v ∈ vs, v.DistinctKeys := by
  induction vs with
  | nil => simp [DistinctKeysList]
  | cons v vs ih => simp [DistinctKeysList, ih]

mutual

/-- Merging keeps keys distinct inside values. -/
theorem Json.distinctKeysFields_merge :
    ∀ source target : List (String × Json), DistinctKeysFields target →
      DistinctKeysFields source → DistinctKeysFields (Fields.merge target source)
  | [], target, ht, _ => by rwa [Fields.merge_nil]
  | (k, v) :: source, target, ht, hs => by
    have hexisting : ∀ w, Fields.get? target k = some w → w.DistinctKeys := fun w hw =>
      (distinctKeysFields_iff target).mp ht _ (Fields.mem_of_get? hw)
    rw [Fields.merge]
    refine distinctKeysFields_merge source _ ?_ hs.2
    rw [distinctKeysFields_iff]
    intro f hf
    rcases Fields.mem_put hf with rfl | hf
    · exact distinctKeys_over v _ hexisting hs.1
    · exact (distinctKeysFields_iff target).mp ht f hf

theorem Json.distinctKeys_over :
    ∀ (v : Json) (existing : Option Json), (∀ w, existing = some w → w.DistinctKeys) →
      v.DistinctKeys → (Json.over existing v).DistinctKeys
  | .null, _, _, hv | .bool _, _, _, hv | .number _, _, _, hv | .string _, _, _, hv
  | .array _, _, _, hv => by simpa only [Json.over] using hv
  | .object _, none, _, hv => by rwa [over_none]
  | .object incoming, some w, hw, hv => by
    rcases object_or_not w with ⟨fields, rfl⟩ | hobject
    · have hfields := hw _ rfl
      rw [Json.over]
      exact ⟨Fields.keys_merge_nodup hfields.1 incoming,
        distinctKeysFields_merge incoming fields hfields.2 hv.2⟩
    · rwa [over_not_isObject hobject]

end

theorem Json.distinctKeys_mergeAll {objects : List Fields}
    (h : ∀ o ∈ objects, (Json.object o).DistinctKeys) :
    (Json.object (Fields.mergeAll objects)).DistinctKeys := by
  refine ⟨Fields.keys_mergeAll_nodup objects, ?_⟩
  suffices hacc : ∀ fs : Fields, DistinctKeysFields fs →
      DistinctKeysFields (objects.foldl Fields.merge fs) from hacc [] trivial
  induction objects with
  | nil => exact fun fs hfs => hfs
  | cons o objects ih =>
    intro fs hfs
    exact ih (fun p hp => h p (List.mem_cons_of_mem _ hp)) _
      (distinctKeysFields_merge o fs hfs (h o List.mem_cons_self).2)

/-- Whether the operand of a condition has distinct keys. -/
def Node.HasDistinctOperand {ι : Type} : Node ι → Prop
  | condition _ _ _ value => value.toJson.DistinctKeys
  | logical .. | embedded .. => True

instance {ι : Type} : DecidablePred (Node.HasDistinctOperand (ι := ι))
  | .condition _ _ _ value => inferInstanceAs (Decidable value.toJson.DistinctKeys)
  | .logical .. | .embedded .. => isTrue trivial

namespace Forest

variable {ι : Type}

theorem distinctKeys_nest (p : Path) {e : String × Json} (he : e.2.DistinctKeys) :
    (Json.object (Fields.nest p [e])).DistinctKeys := by
  induction p with
  | nil => exact ⟨List.pairwise_singleton _ _, he, trivial⟩
  | cons name p ih => exact ⟨List.pairwise_singleton _ _, ih, trivial⟩

theorem distinctKeys_of_children {n : Node ι} (hn : n.HasDistinctOperand)
    (h : ∀ m ∈ n.children, (Json.object m.toFields).DistinctKeys) :
    (Json.object n.toFields).DistinctKeys := by
  have hobjects : ∀ o ∈ toFieldsList n.children, (Json.object o).DistinctKeys := by
    intro o ho
    rw [toFieldsList_eq_map] at ho
    obtain ⟨m, hm, rfl⟩ := List.mem_map.mp ho
    exact h m hm
  rw [Node.toFields_eq]
  cases hv : n.value? with
  | none => exact ⟨List.nodup_nil, trivial⟩
  | some v =>
    refine distinctKeys_nest n.path (e := (n.key.text, v)) ?_
    have hquery : ∀ w, toQuery? n.children = some w → w.DistinctKeys := by
      intro w hw
      rw [(toFields_of_toQuery? hw).1]
      exact Json.distinctKeys_mergeAll hobjects
    cases n with
    | condition i p o w =>
      rw [← Option.some.inj hv]
      exact hn
    | embedded i p o ms => exact hquery v hv
    | logical i o ms =>
      cases o with
      | not => exact hquery v hv
      | and | or =>
        rw [Node.value?, toArray?] at hv
        split at hv
        · cases hv
        · rw [← Option.some.inj hv]
          refine (Json.distinctKeysList_iff _).mpr fun w hw => ?_
          obtain ⟨o, ho, rfl⟩ := List.mem_map.mp hw
          exact hobjects o (List.mem_filter.mp ho).1

/-- What is written has distinct keys if the operands do. -/
theorem distinctKeys_toFields {ns : Forest ι} (h : ∀ n ∈ nodes ns, n.HasDistinctOperand) :
    (Json.object (toFields ns)).DistinctKeys := by
  have hnodes : ∀ n ∈ ns, (Json.object n.toFields).DistinctKeys := by
    induction ns using Forest.induction with
    | nil => exact fun n hn => absurd hn List.not_mem_nil
    | cons n ns ihn ih =>
      intro m hm
      rcases List.mem_cons.mp hm with rfl | hm
      · have hmem : m ∈ m :: ns := List.mem_cons_self
        exact distinctKeys_of_children (h m (mem_nodes_of_mem hmem))
          (ihn fun x hx => h x (nodes_children_subset hmem hx))
      · exact ih (fun x hx => h x (nodes_subset_cons n ns hx)) m hm
  refine Json.distinctKeys_mergeAll fun o ho => ?_
  rw [toFieldsList_eq_map] at ho
  obtain ⟨n, hn, rfl⟩ := List.mem_map.mp ho
  exact hnodes n hn

end Forest

end FilterTree
