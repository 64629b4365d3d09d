import FilterTree.Proofs.Correspondence
import FilterTree.Proofs.Growth
import FilterTree.Proofs.Tidiness

/-!
# Added conditions

An added condition is one object more among those that its parent writes, and a parent that changes
is one object that changes among those of its own parent (`Forest.Grows`). From the condition up to
the root what is written gains one comparison (`Forest.Grows.gains`), so the query loses at most one
for it, or those of one array (`Editor.criteria_addCondition`).
-/

namespace FilterTree

open Fields Query

variable {ι : Type}

namespace Forest

variable {path : Path} {op : Comparison} {ms ns : Forest ι} {n : Node ι}

/-! ## Parts of a forest -/

theorem nodes_subset_hold (hn : n.isContainer = true) (ms ns : Forest ι) :
    nodes ms ⊆ nodes (n.hold ms :: ns) := by
  have hsub := nodes_children_subset (List.mem_cons_self (a := n.hold ms) (l := ns))
  rwa [Node.children_hold ms hn] at hsub

/-! ## What tidy forests write -/

theorem written_cons (n : Node ι) (ns : Forest ι) :
    written (n :: ns) = solid n.toFields ++ written ns :=
  written_append [n] ns

theorem exists_of_mem_written {o : Fields} (h : o ∈ written ns) : ∃ n ∈ ns, n.toFields = o := by
  rw [written, List.mem_filter, toFieldsList_eq_map, List.mem_map] at h
  exact h.1

theorem IsTidy.areEntries_written (h : IsTidy ns) {o : Fields} (ho : o ∈ written ns) :
    areEntries .written false o = true := by
  obtain ⟨n, hn, rfl⟩ := exists_of_mem_written ho
  exact (writesSingle h.hasPlainPaths n hn).areEntries

theorem IsTidy.distinctKeys_toFields (h : IsTidy ns) : (Json.object (toFields ns)).DistinctKeys :=
  Forest.distinctKeys_toFields h.hasDistinctOperand

theorem IsTidy.distinctKeys_written (h : IsTidy ns) {o : Fields} (ho : o ∈ written ns) :
    (Json.object o).DistinctKeys := by
  obtain ⟨n, hn, rfl⟩ := exists_of_mem_written ho
  rw [← toFields_singleton]
  exact (h.of_subset (nodes_singleton_subset hn)).distinctKeys_toFields

theorem IsTidy.distinctKeys_solid (h : IsTidy ns) {x : Fields} {before after : List Fields}
    (hx : written ns = before ++ solid x ++ after) : (Json.object x).DistinctKeys := by
  refine distinctKeys_of_solid fun o ho => h.distinctKeys_written ?_
  rw [hx]
  exact List.mem_append_left _ (List.mem_append_right _ ho)

/-! ## Forests with one condition more -/

/-- Whether a connective that writes nothing in the first forest writes an array in the second. -/
def Revives (ns ms : Forest ι) (o : Connective) (new : List Json) : Prop :=
  ∃ n ∈ nodes ns, ∃ m ∈ nodes ms, m.id = n.id ∧ n.content = .logical o ∧ m.content = .logical o ∧
    n.toFields = [] ∧ m.toFields = [(o.symbol, .array new)]

/-- Whether one of the objects that are written gains a comparison, and is there then. -/
def Grows (path : Path) (op : Comparison) (ns ms : Forest ι) : Prop :=
  ∃ before after x y, written ns = before ++ solid x ++ after ∧
    written ms = before ++ solid y ++ after ∧ y ≠ [] ∧ Gains path op (Revives ns ms) [] x y

theorem Revives.mono {ms' ns' : Forest ι} (hns : nodes ns ⊆ nodes ns') (hms : nodes ms ⊆ nodes ms')
    (o : Connective) (new : List Json) (h : Revives ns ms o new) : Revives ns' ms' o new := by
  obtain ⟨n, hn, m, hm, h⟩ := h
  exact ⟨n, hns hn, m, hms hm, h⟩

/-- A condition that is a new last root. -/
theorem grows_concat (ns : Forest ι) (i : ι) (hpath : Path.IsPlain path) (op : Comparison)
    (value : Operand) : Grows path op ns (ns ++ [.condition i path op value]) := by
  refine ⟨written ns, [], [], Fields.nest path [(op.symbol, value.toJson)], ?_, ?_, ?_, ?_⟩
  · exact (List.append_nil _).symm.trans (List.append_nil _).symm
  · rw [written_append, List.append_nil]
    rfl
  · exact Node.nest_ne_nil _ _
  · have hlone : Gains path op (Revives ns (ns ++ [.condition i path op value])) ([] ++ path)
        (lone op.symbol none) (lone op.symbol (some value.toJson)) :=
      .operand (sameBut_lone op.symbol _ _)
    exact hlone.nest hpath

theorem Grows.cons (h : Grows path op ns ms) (n : Node ι) : Grows path op (n :: ns) (n :: ms) := by
  obtain ⟨before, after, x, y, hx, hy, hne, hgains⟩ := h
  refine ⟨solid n.toFields ++ before, after, x, y, ?_, ?_, hne, hgains.mono ?_⟩
  · rw [written_cons, hx, List.append_assoc, List.append_assoc, List.append_assoc]
  · rw [written_cons, hy, List.append_assoc, List.append_assoc, List.append_assoc]
  · exact Revives.mono (nodes_subset_cons n ns) (nodes_subset_cons n ms)

/-- The merged objects gain the comparison. -/
theorem Grows.gains (h : Grows path op ns ms) (hns : IsTidy ns) (hms : IsTidy ms) :
    toFields ms ≠ [] ∧ Gains path op (Revives ns ms) [] (toFields ns) (toFields ms) := by
  obtain ⟨before, after, x, y, hx, hy, hne, hgains⟩ := h
  rw [toFields_eq_mergeAll_written, toFields_eq_mergeAll_written, hx, hy]
  refine ⟨mergeAll_around_ne_nil before after hne, ?_⟩
  have hbefore : ∀ o ∈ before, areEntries .written false o = true := by
    intro o ho
    refine hns.areEntries_written ?_
    rw [hx, List.append_assoc]
    exact List.mem_append_left _ ho
  have hafter : ∀ o ∈ after, (Json.object o).DistinctKeys := by
    intro o ho
    refine hns.distinctKeys_written ?_
    rw [hx]
    exact List.mem_append_right _ ho
  exact hgains.around hbefore (hns.distinctKeys_solid hx) (hms.distinctKeys_solid hy) hafter

theorem opens_toQuery? (ns : Forest ι) : Opens (toQuery? ns) (toFields ns) := by
  by_cases hnil : toFields ns = []
  · exact Or.inl ⟨toQuery?_eq_none.mpr hnil, hnil⟩
  · exact Or.inr (toQuery?_of_ne_nil hnil)

/-- `$not` and quantifiers write the query of the forest in them. -/
theorem Grows.gains_query (h : Grows path op n.children ms) (hns : IsTidy n.children)
    (hms : IsTidy ms) (hpath : Path.IsPlain n.path) (hkey : n.key.nests = true)
    (hunder : pathUnder n.path n.key = []) (hn : n.value? = toQuery? n.children)
    (hm : (n.hold ms).value? = toQuery? ms) :
    (n.hold ms).toFields ≠ [] ∧
      Gains path op (Revives n.children ms) [] n.toFields (n.hold ms).toFields := by
  obtain ⟨hne, hgains⟩ := h.gains hns hms
  constructor
  · rw [ne_eq, Node.toFields_eq_nil, hm, toQuery?_eq_none]
    exact hne
  · rw [Node.toFields_eq, Node.toFields_eq, Node.path_hold, Node.key_hold, hn, hm]
    have hinner : Gains path op (Revives n.children ms)
        (pathUnder ([] ++ n.path) (Key.ofString n.key.text)) (toFields n.children)
        (toFields ms) := by
      rw [n.ofString_key, List.nil_append, hunder]
      exact hgains
    refine Gains.nest hpath (.inner ?_ (sameBut_lone n.key.text _ _) ?_ ?_ hinner)
    · rw [n.ofString_key]
      exact hkey
    · rw [get?_lone]
      exact opens_toQuery? n.children
    · rw [get?_lone]
      exact opens_toQuery? ms

theorem toFields_junction (i : ι) {o : Connective} (ho : o ≠ .not) (ns : Forest ι) :
    (Node.logical i o ns).toFields = lone o.symbol (toArray? ns) := by
  rw [Node.toFields_eq]
  cases o with
  | not => exact absurd rfl ho
  | and | or => rfl

theorem toArray?_of_ne_nil (h : written ns ≠ []) :
    toArray? ns = some (.array ((written ns).map .object)) :=
  if_neg (by rwa [List.isEmpty_iff])

/-- `$and` and `$or` write an array, which has another item then, or is a fresh one if nothing was
written. -/
theorem Grows.gains_array (h : Grows path op ns ms) (i : ι) {o : Connective} (ho : o ≠ .not) :
    (Node.logical i o ms).toFields ≠ [] ∧
      Gains path op (Revives [.logical i o ns] [.logical i o ms]) []
        (Node.logical i o ns).toFields (Node.logical i o ms).toFields := by
  obtain ⟨before, after, x, y, hx, hy, hne, hgains⟩ := h
  have hms : written ms ≠ [] := by
    rw [hy, solid_of_ne_nil hne]
    simp
  have hnew := toFields_junction i ho ms
  rw [toArray?_of_ne_nil hms] at hnew
  constructor
  · rw [hnew]
    exact List.cons_ne_nil _ _
  by_cases hns : written ns = []
  · have hold : (Node.logical i o ns).toFields = [] := by
      rw [toFields_junction i ho, toArray?, hns]
      rfl
    have hrevives : Revives [.logical i o ns] [.logical i o ms] o ((written ms).map .object) :=
      ⟨_, mem_nodes_of_mem (List.mem_singleton_self _), _,
        mem_nodes_of_mem (List.mem_singleton_self _), rfl, rfl, rfl, hold, hnew⟩
    rw [hold, hnew]
    refine .array ho hrevives (sameBut_lone o.symbol none _) ?_ (get?_lone _ _)
    intro v hv
    cases hv
  · have hmono : ∀ c new, Revives ns ms c new →
        Revives [.logical i o ns] [.logical i o ms] c new :=
      Revives.mono (nodes_subset_hold (n := .logical i o ns) rfl ns [])
        (nodes_subset_hold (n := .logical i o ms) rfl ms [])
    rw [hnew, toFields_junction i ho, toArray?_of_ne_nil hns, hx, hy]
    exact .item (sameBut_lone _ _ _) (get?_lone _ _) (get?_lone _ _) (hgains.mono hmono)

/-- A container writes its operator with what is written of the forest in it, and that gains the
comparison. -/
theorem Grows.gains_hold (h : Grows path op n.children ms) (hn : n.isContainer = true)
    (hpath : Path.IsPlain n.path) (hns : IsTidy n.children) (hms : IsTidy ms) :
    (n.hold ms).toFields ≠ [] ∧
      Gains path op (Revives [n] [n.hold ms]) [] n.toFields (n.hold ms).toFields := by
  have hmono : ∀ o new, Revives n.children ms o new → Revives [n] [n.hold ms] o new := by
    apply Revives.mono
    · exact nodes_children_subset (List.mem_singleton_self n)
    · exact nodes_subset_hold hn ms []
  cases n with
  | condition i p o v => exact absurd hn Bool.false_ne_true
  | embedded i p o ns =>
    obtain ⟨hne, hgains⟩ := h.gains_query hns hms hpath rfl rfl rfl rfl
    exact ⟨hne, hgains.mono hmono⟩
  | logical i o ns =>
    by_cases ho : o = .not
    · subst ho
      obtain ⟨hne, hgains⟩ := h.gains_query hns hms hpath rfl rfl rfl rfl
      exact ⟨hne, hgains.mono hmono⟩
    · exact h.gains_array i ho

/-- A condition that is new somewhere in the first root. -/
theorem Grows.hold (h : Grows path op n.children ms) (hn : n.isContainer = true)
    (hns : IsTidy (n :: ns)) (hms : IsTidy (n.hold ms :: ns)) :
    Grows path op (n :: ns) (n.hold ms :: ns) := by
  have hpath := hns.hasPlainPaths n (mem_nodes_of_mem List.mem_cons_self)
  have hns' := hns.of_subset (nodes_children_subset List.mem_cons_self)
  have hms' := hms.of_subset (nodes_subset_hold hn ms ns)
  obtain ⟨hne, hgains⟩ := h.gains_hold hn hpath hns' hms'
  refine ⟨[], written ns, n.toFields, (n.hold ms).toFields, written_cons n ns,
    written_cons _ ns, hne, hgains.mono (Revives.mono ?_ ?_)⟩
  · exact nodes_singleton_subset List.mem_cons_self
  · exact nodes_singleton_subset List.mem_cons_self

variable [DecidableEq ι]

/-- A condition that is a new last child of a container, at any depth. -/
theorem grows_modify? {id : ι} (i : ι) (hpath : Path.IsPlain path) (op : Comparison)
    (value : Operand) (ns : Forest ι) :
    ∀ ms, modify? id (Node.push (.condition i path op value)) ns = some ms →
      (∀ n, find? id ns = some n → n.isContainer = true) → IsTidy ns → IsTidy ms →
      Grows path op ns ms := by
  induction ns using Forest.induction with
  | nil =>
    intro ms hms
    cases hms
  | cons n ns ihn ih =>
    intro ms hmodify hcontainer hns hms
    rw [modify?_cons] at hmodify
    by_cases hid : n.id = id
    · rw [if_pos hid, Node.push_eq_hold] at hmodify
      rw [← Option.some.inj hmodify] at hms ⊢
      have hn : n.isContainer = true := hcontainer n (by rw [find?_cons, if_pos hid])
      exact (grows_concat n.children i hpath op value).hold hn hns hms
    · rw [if_neg hid, Option.or_eq_some_iff] at hmodify
      rcases hmodify with hmodify | ⟨hnone, hmodify⟩
      · obtain ⟨ks, hks, rfl⟩ := Option.map_eq_some_iff.mp hmodify
        have hn := Node.isContainer_of_edit rfl hks
        have hcontainer' : ∀ m, find? id n.children = some m → m.isContainer = true := by
          intro m hm
          refine hcontainer m ?_
          rw [find?_cons, if_neg hid, hm]
          rfl
        have hns' := hns.of_subset (nodes_children_subset List.mem_cons_self)
        have hms' := hms.of_subset (nodes_subset_hold hn ks ns)
        exact (ihn ks hks hcontainer' hns' hms').hold hn hns hms
      · obtain ⟨ks, hks, rfl⟩ := Option.map_eq_some_iff.mp hmodify
        have hcontainer' : ∀ m, find? id ns = some m → m.isContainer = true := by
          intro m hm
          refine hcontainer m ?_
          rw [find?_cons, if_neg hid, (modify?_eq_none _).mp (Option.map_eq_none_iff.mp hnone), hm]
          rfl
        have hrest := ih ks hks hcontainer' (hns.of_subset (nodes_subset_cons n ns))
          (hms.of_subset (nodes_subset_cons n ks))
        exact hrest.cons n

end Forest

namespace Editor

variable {e e' : Editor} {path : Path} {op : Comparison} {value : Operand}
  {parent : Option NodeId} {id : NodeId}

/-- The comparisons of the query. -/
def criteria (e : Editor) : List Criterion := Query.criteria [] (e.query?.getD .null)

theorem grows_addCondition (h : e.IsTidy) (hvalue : (Content.condition path op value).IsTidy)
    (hadd : e.addCondition path op value parent = .ok id e') :
    e'.IsTidy ∧ Forest.Grows path op e.tree e'.tree := by
  obtain ⟨-, hattach⟩ := attach_of_addCondition hadd
  obtain ⟨-, rfl, hparent⟩ := eq_of_attach hattach
  have htidy' := h.insert hvalue hparent
  refine ⟨htidy', ?_⟩
  have htree := isTidy_iff.mp h
  have htree' := isTidy_iff.mp htidy'
  cases parent with
  | none => exact Forest.grows_concat e.tree e.nextId hvalue.1 op value
  | some p =>
    obtain ⟨n, hn, hcontainer⟩ := hparent p rfl
    cases hmodify : Forest.modify? p
        (Node.push ((Content.condition path op value).node e.nextId)) e.tree with
    | none =>
      rw [find?, (Forest.modify?_eq_none _).mp hmodify] at hn
      cases hn
    | some ms =>
      rw [Forest.insert, Forest.modify, hmodify, Option.getD_some] at htree' ⊢
      refine Forest.grows_modify? e.nextId hvalue.1 op value e.tree ms hmodify ?_ htree htree'
      intro m hm
      rw [← Option.some.inj (hn.symm.trans hm)]
      exact hcontainer

theorem criteria_eq (e : Editor) : e.criteria = criteriaOf [] (Forest.toFields e.tree) := by
  rcases Forest.opens_toQuery? e.tree with ⟨hnone, hnil⟩ | hsome
  · rw [criteria, query?, hnone, hnil, criteriaOf]
    rfl
  · rw [criteria, query?, hsome, Option.getD_some, Query.criteria]

/-- An added condition costs the query at most one comparison, by the same operator at the same
path, or else those of one array: where a node of `$and` or `$or` has written nothing so far, its
array may take the place of another one under the same operator. -/
theorem criteria_addCondition (h : e.TidyReachable) (hpath : Path.IsPlain path)
    (hvalue : value.toJson.DistinctKeys)
    (hadd : e.addCondition path op value parent = .ok id e') :
    ∃ lost, e.criteria.Subperm (lost ++ e'.criteria) ∧
      ((∃ operand, lost = [⟨path, op, operand⟩]) ∨
        ∃ o old new, Forest.Revives e.tree e'.tree o new ∧
          Overwrites o old new (e.query?.getD .null) (e'.query?.getD .null) ∧
          lost = criteriaOfItems [] old) := by
  obtain ⟨htidy', hgrows⟩ := grows_addCondition h.isTidy ⟨hpath, hvalue⟩ hadd
  have htree := isTidy_iff.mp h.isTidy
  have htree' := isTidy_iff.mp htidy'
  obtain ⟨-, hgains⟩ := hgrows.gains htree htree'
  obtain ⟨lost, hsub, hlost⟩ :=
    hgains.spares htree.distinctKeys_toFields htree'.distinctKeys_toFields
  rw [Query.criteria, Query.criteria, ← criteria_eq, ← criteria_eq] at hsub
  refine ⟨lost, hsub, hlost.imp_right ?_⟩
  rintro ⟨o, old, new, hrevives, hover, rfl⟩
  have hquery := (Forest.opens_toQuery? e.tree).eq_some hover.ne_nil.1
  have hquery' := (Forest.opens_toQuery? e'.tree).eq_some hover.ne_nil.2
  refine ⟨o, old, new, hrevives, ?_, rfl⟩
  rw [query?, query?, hquery, hquery']
  exact hover

/-- An editor with two conjunctions, the first on `a` and the second empty. -/
def secondAnd : Editor :=
  run {} [.addLogical .and none, .addCondition ["a"] .eq (.number (.int 1)) (some 1),
    .addLogical .and none]

/-- The same editor with a condition on `b` in the second conjunction. -/
def filledAnd : Editor :=
  secondAnd.step (.addCondition ["b"] .eq (.number (.int 2)) (some 3))

theorem addCondition_secondAnd :
    secondAnd.addCondition ["b"] .eq (.number (.int 2)) (some 3) = .ok 4 filledAnd := rfl

theorem tidyReachable_secondAnd : secondAnd.TidyReachable :=
  (TidyReachable.new {}).run (by decide)

theorem criteria_addCondition_secondAnd :
    secondAnd.TidyReachable ∧ Path.IsPlain ["b"] ∧
      (Operand.number (.int 2)).toJson.DistinctKeys ∧
      secondAnd.addCondition ["b"] .eq (.number (.int 2)) (some 3) = .ok 4 filledAnd ∧
      ∃ lost, secondAnd.criteria.Subperm (lost ++ filledAnd.criteria) ∧
        ((∃ operand, lost = [⟨["b"], .eq, operand⟩]) ∨
          ∃ o old new, Forest.Revives secondAnd.tree filledAnd.tree o new ∧
            Overwrites o old new (secondAnd.query?.getD .null) (filledAnd.query?.getD .null) ∧
            lost = criteriaOfItems [] old) := by
  have hpath : Path.IsPlain ["b"] := by decide
  have hvalue : (Operand.number (.int 2)).toJson.DistinctKeys := by decide
  exact ⟨tidyReachable_secondAnd, hpath, hvalue, addCondition_secondAnd,
    criteria_addCondition tidyReachable_secondAnd hpath hvalue addCondition_secondAnd⟩

/-- The condition on `b` costs the one on `a`, which is at another path. -/
theorem exists_criteria_addCondition_lost :
    ¬ ∀ (e e' : Editor) (path : Path) (op : Comparison) (value : Operand)
      (parent : Option NodeId) (id : NodeId), e.TidyReachable → Path.IsPlain path →
      value.toJson.DistinctKeys → e.addCondition path op value parent = .ok id e' →
      ∃ operand, e.criteria.Subperm ([⟨path, op, operand⟩] ++ e'.criteria) := by
  intro h
  obtain ⟨operand, hsub⟩ := h _ _ _ _ _ _ _ tidyReachable_secondAnd (by decide) (by decide)
    addCondition_secondAnd
  have hbefore : secondAnd.criteria = [⟨["a"], .eq, .number (.int 1)⟩] := by decide
  have hafter : filledAnd.criteria = [⟨["b"], .eq, .number (.int 2)⟩] := by decide
  rw [hbefore, hafter] at hsub
  have hmem := hsub.subset (List.mem_singleton_self _)
  simp at hmem

end Editor

end FilterTree
