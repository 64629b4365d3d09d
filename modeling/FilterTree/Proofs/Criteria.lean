import Mathlib.Data.List.Nodup
import Mathlib.Data.List.Perm.Subperm
import FilterTree.Proofs.Output

/-!
# Comparisons of a query

`Query.criteria` lists the comparisons of a query, each with the path of names that it is about.
`Query.Gains` says how one object comes to hold a comparison more than another: they differ under
one key at each level, down to the operator of that comparison or to an array that is new. Then at
most one comparison is lost, or those of one array (`Query.Gains.spares`).
-/

namespace FilterTree

namespace Query

/-! ## Criteria -/

/-- A comparison of a query, with its path and its operand. -/
structure Criterion where
  path : Path
  op : Comparison
  operand : Json
deriving DecidableEq, Repr

mutual

/-- The comparisons of a value that stands at a path. Under a quantifier paths start anew. -/
def criteria (path : Path) : Json → List Criterion
  | .array items => criteriaOfItems path items
  | .object fields => criteriaOf path fields
  | _ => []

def criteriaOfItems (path : Path) : List Json → List Criterion
  | [] => []
  | v :: vs => criteria path v ++ criteriaOfItems path vs

def criteriaOf (path : Path) : List (String × Json) → List Criterion
  | [] => []
  | (k, v) :: fields =>
    (match Key.ofString k with
      | .comparison op => [⟨path, op, v⟩]
      | .connective _ => criteria path v
      | .quantifier _ => criteria [] v
      | .field name => criteria (path ++ [name]) v) ++
    criteriaOf path fields

end

/-- The path of what stands under a key. -/
def pathUnder (path : Path) : Key → Path
  | .comparison _ | .connective _ => path
  | .quantifier _ => []
  | .field name => path ++ [name]

/-- The comparisons under a key. -/
def criteriaAt (path : Path) (k : String) (v : Option Json) : List Criterion :=
  v.elim [] fun v => criteriaOf path [(k, v)]

section

variable {path : Path}

theorem criteriaOf_eq_flatMap (fields : Fields) :
    criteriaOf path fields = fields.flatMap fun f => criteriaOf path [f] := by
  induction fields with
  | nil => rw [criteriaOf, List.flatMap_nil]
  | cons f fields ih =>
    rw [criteriaOf, List.flatMap_cons, ← ih, criteriaOf, criteriaOf, List.append_nil]

theorem criteriaOfItems_append (vs ws : List Json) :
    criteriaOfItems path (vs ++ ws) = criteriaOfItems path vs ++ criteriaOfItems path ws := by
  induction vs with
  | nil => rw [criteriaOfItems, List.nil_append, List.nil_append]
  | cons v vs ih =>
    rw [List.cons_append, criteriaOfItems, ih, criteriaOfItems, List.append_assoc]

theorem criteriaOf_comparison {k : String} {op : Comparison}
    (hk : Key.ofString k = .comparison op) (v : Json) :
    criteriaOf path [(k, v)] = [⟨path, op, v⟩] := by
  rw [criteriaOf, hk, criteriaOf, List.append_nil]

theorem criteriaOf_not_comparison {k : String} (hk : ∀ op, Key.ofString k ≠ .comparison op)
    (v : Json) : criteriaOf path [(k, v)] = criteria (pathUnder path (Key.ofString k)) v := by
  rw [criteriaOf, criteriaOf, List.append_nil]
  cases hkey : Key.ofString k with
  | comparison op => exact absurd hkey (hk op)
  | connective op | quantifier op | field name => rfl

end

end Query

/-! ## Objects that differ under one key -/

namespace Fields

variable {a b : Fields} {k : String}

/-- Whether two objects hold the same under all other keys. -/
def SameBut (k : String) (a b : Fields) : Prop := ∀ l, l ≠ k → get? a l = get? b l

theorem SameBut.ext (h : SameBut k a b) (hk : get? a k = get? b k) (l : String) :
    get? a l = get? b l := by
  by_cases hl : l = k
  · rw [hl, hk]
  · exact h l hl

/-- An object is what it holds under a key, and the rest. -/
theorem perm_get?_append_filter (hn : (keys a).Nodup) (k : String) :
    a.Perm ((get? a k).toList.map (k, ·) ++ a.filter (·.1 ≠ k)) := by
  have hhere : a.filter (·.1 = k) = (get? a k).toList.map (k, ·) := by
    induction a with
    | nil => rfl
    | cons f a ih =>
      obtain ⟨l, v⟩ := f
      obtain ⟨hl, hn⟩ := List.nodup_cons.mp hn
      rw [get?]
      by_cases heq : l = k
      · have hnone : get? a k = none := get?_eq_none.mpr (heq ▸ hl)
        rw [List.filter_cons_of_pos (by simpa using heq), ih hn, hnone, if_pos heq, heq]
        rfl
      · rw [List.filter_cons_of_neg (by simpa using heq), ih hn, if_neg heq]
  rw [← hhere]
  refine ((List.filter_append_perm (·.1 = k) a).symm).trans (List.Perm.of_eq ?_)
  congr 1
  refine List.filter_congr fun f _ => ?_
  simp

theorem SameBut.perm_filter (h : SameBut k a b) (ha : (keys a).Nodup) (hb : (keys b).Nodup) :
    (a.filter (·.1 ≠ k)).Perm (b.filter (·.1 ≠ k)) := by
  have ha' : (a.filter (·.1 ≠ k)).Nodup := (List.Nodup.of_map _ ha).filter _
  have hb' : (b.filter (·.1 ≠ k)).Nodup := (List.Nodup.of_map _ hb).filter _
  rw [List.perm_ext_iff_of_nodup ha' hb']
  rintro ⟨l, v⟩
  rw [List.mem_filter, List.mem_filter, decide_eq_true_eq]
  refine and_congr_left fun hl => ?_
  constructor
  · intro hmem
    exact mem_of_get? ((h l hl).symm.trans (get?_of_mem ha hmem))
  · intro hmem
    exact mem_of_get? ((h l hl).trans (get?_of_mem hb hmem))

/-- The object under a key: an empty one if there is nothing. -/
def Opens (v : Option Json) (body : Fields) : Prop :=
  v = none ∧ body = [] ∨ v = some (.object body)

theorem Opens.eq_some {v : Option Json} {body : Fields} (h : Opens v body) (hne : body ≠ []) :
    v = some (.object body) :=
  h.resolve_left fun hnone => hne hnone.2

/-- An object as a list: an empty one does not count. -/
def solid (fields : Fields) : List Fields := [fields].filter (!·.isEmpty)

theorem solid_of_ne_nil (h : a ≠ []) : solid a = [a] :=
  List.filter_cons_of_pos (by rwa [Bool.not_eq_true', List.isEmpty_eq_false_iff])

end Fields

theorem Fields.Opens.distinctKeys {fields body : Fields} {k : String}
    (h : Opens (get? fields k) body) (hd : (Json.object fields).DistinctKeys) :
    (Json.object body).DistinctKeys := by
  rcases h with ⟨-, rfl⟩ | h
  · exact ⟨List.nodup_nil, trivial⟩
  · exact hd.get? h

theorem Fields.distinctKeys_of_solid {fields : Fields}
    (h : ∀ o ∈ solid fields, (Json.object o).DistinctKeys) : (Json.object fields).DistinctKeys := by
  cases fields with
  | nil => exact ⟨List.nodup_nil, trivial⟩
  | cons f fields =>
    refine h _ ?_
    rw [solid_of_ne_nil (List.cons_ne_nil f fields)]
    exact List.mem_singleton_self _

/-- An item of an array has distinct keys if the array has. -/
theorem Fields.distinctKeys_of_item {before after : List Fields} {x : Fields}
    (h : (Json.array ((before ++ solid x ++ after).map .object)).DistinctKeys) :
    (Json.object x).DistinctKeys := by
  refine distinctKeys_of_solid fun o ho => ?_
  refine (Json.distinctKeysList_iff _).mp h _ (List.mem_map_of_mem ?_)
  exact List.mem_append_left _ (List.mem_append_right _ ho)

namespace Query

open Fields

variable {path base : Path} {op : Comparison} {fresh : Connective → List Json → Prop} {a b : Fields}

/-! ## Gaining a comparison -/

/-- How `b` is `a` with a comparison by `op` at `path` more, where both stand at the path `base`.
The last rule is for an array under a connective in which nothing was written before. -/
inductive Gains (path : Path) (op : Comparison) (fresh : Connective → List Json → Prop) :
    Path → Fields → Fields → Prop
  | same {base : Path} {a b : Fields} : (∀ k, get? a k = get? b k) → Gains path op fresh base a b
  | operand {a b : Fields} : SameBut op.symbol a b → Gains path op fresh path a b
  | inner {base : Path} {a b x y : Fields} {k : String} : (Key.ofString k).nests = true →
    SameBut k a b → Opens (get? a k) x → Opens (get? b k) y →
    Gains path op fresh (pathUnder base (Key.ofString k)) x y → Gains path op fresh base a b
  | item {base : Path} {a b x y : Fields} {o : Connective} {before after : List Fields} :
    SameBut o.symbol a b →
    get? a o.symbol = some (.array ((before ++ solid x ++ after).map .object)) →
    get? b o.symbol = some (.array ((before ++ solid y ++ after).map .object)) →
    Gains path op fresh base x y → Gains path op fresh base a b
  | array {a b : Fields} {o : Connective} {new : List Json} : o ≠ .not → fresh o new →
    SameBut o.symbol a b → (∀ v, get? a o.symbol = some v → ∃ old, v = .array old) →
    get? b o.symbol = some (.array new) → Gains path op fresh [] a b

/-! ## What is lost -/

/-- Whether the second value holds, where the first holds one array under a connective, another. -/
inductive Overwrites (o : Connective) (old new : List Json) : Json → Json → Prop
  | here {a b : Fields} : get? a o.symbol = some (.array old) →
    get? b o.symbol = some (.array new) → Overwrites o old new (.object a) (.object b)
  | inside {a b : Fields} {k : String} {v w : Json} : (∀ op, Key.ofString k ≠ .comparison op) →
    get? a k = some v → get? b k = some w → Overwrites o old new v w →
    Overwrites o old new (.object a) (.object b)
  | item {before after : List Json} {v w : Json} : Overwrites o old new v w →
    Overwrites o old new (.array (before ++ v :: after)) (.array (before ++ w :: after))

theorem Overwrites.ne_nil {o : Connective} {old new : List Json}
    (h : Overwrites o old new (.object a) (.object b)) : a ≠ [] ∧ b ≠ [] := by
  constructor
  · rintro rfl
    cases h with
    | here ha _ | inside _ ha _ _ => cases ha
  · rintro rfl
    cases h with
    | here _ hb | inside _ _ hb _ => cases hb

/-- Which comparisons of one value another may lack: one by `op` at `path`, or those of one array in
the place of which it holds a fresh one. -/
def Spares (path : Path) (op : Comparison) (fresh : Connective → List Json → Prop) (base : Path)
    (v w : Json) : Prop :=
  ∃ lost, (criteria base v).Subperm (lost ++ criteria base w) ∧
    ((∃ operand, lost = [⟨path, op, operand⟩]) ∨
      ∃ o old new, fresh o new ∧ Overwrites o old new v w ∧ lost = criteriaOfItems [] old)

/-- The comparisons of objects that differ under one key are the same but for those under it. -/
theorem exists_rest_of_sameBut {k : String} (h : SameBut k a b) (ha : (keys a).Nodup)
    (hb : (keys b).Nodup) (base : Path) : ∃ rest,
      (criteriaOf base a).Perm (criteriaAt base k (get? a k) ++ rest) ∧
      (criteriaOf base b).Perm (criteriaAt base k (get? b k) ++ rest) := by
  have hsplit : ∀ fs : Fields, (keys fs).Nodup → (criteriaOf base fs).Perm
      (criteriaAt base k (get? fs k) ++ criteriaOf base (fs.filter (·.1 ≠ k))) := by
    intro fs hn
    have hperm := (perm_get?_append_filter hn k).flatMap_right fun f => criteriaOf base [f]
    rw [List.flatMap_append, ← criteriaOf_eq_flatMap, ← criteriaOf_eq_flatMap,
      ← criteriaOf_eq_flatMap] at hperm
    cases hk : get? fs k with
    | none =>
      rw [hk] at hperm
      exact hperm
    | some v =>
      rw [hk] at hperm
      exact hperm
  refine ⟨criteriaOf base (a.filter (·.1 ≠ k)), hsplit a ha, (hsplit b hb).trans ?_⟩
  have hrest := (h.perm_filter ha hb).symm.flatMap_right fun f => criteriaOf base [f]
  rw [← criteriaOf_eq_flatMap, ← criteriaOf_eq_flatMap] at hrest
  exact hrest.append_left _

/-- What is lost under one key is lost. -/
theorem subperm_of_sameBut {k : String} (h : SameBut k a b) (ha : (keys a).Nodup)
    (hb : (keys b).Nodup) {lost : List Criterion}
    (hlost : (criteriaAt base k (get? a k)).Subperm (lost ++ criteriaAt base k (get? b k))) :
    (criteria base (.object a)).Subperm (lost ++ criteria base (.object b)) := by
  rw [criteria, criteria]
  obtain ⟨rest, hrest, hrest'⟩ := exists_rest_of_sameBut h ha hb base
  have hall := hlost.append (List.Subperm.refl rest)
  rw [List.append_assoc] at hall
  exact hrest.subperm.trans (hall.trans (hrest'.symm.append_left lost).subperm)

/-- Where nothing is lost under the key nothing is lost. -/
theorem spares_of_sameBut {k : String} (h : SameBut k a b) (ha : (keys a).Nodup)
    (hb : (keys b).Nodup)
    (hlost : (criteriaAt base k (get? a k)).Subperm (criteriaAt base k (get? b k))) :
    Spares path op fresh base (.object a) (.object b) := by
  have hall : (criteria base (.object a)).Subperm ([] ++ criteria base (.object b)) :=
    subperm_of_sameBut h ha hb hlost
  exact ⟨[⟨path, op, .null⟩], hall.trans (List.sublist_append_right _ _).subperm,
    Or.inl ⟨.null, rfl⟩⟩

theorem spares_of_get?_none {k : String} (h : SameBut k a b) (ha : (keys a).Nodup)
    (hb : (keys b).Nodup) (hk : get? a k = none) :
    Spares path op fresh base (.object a) (.object b) := by
  refine spares_of_sameBut h ha hb ?_
  rw [hk]
  exact List.nil_subperm

theorem criteriaAt_of_opens {k : String} {v : Option Json} {body : Fields} (h : Opens v body)
    (hk : ∀ op, Key.ofString k ≠ .comparison op) :
    criteriaAt base k v = criteriaOf (pathUnder base (Key.ofString k)) body := by
  rcases h with ⟨rfl, rfl⟩ | rfl
  · rw [criteriaOf]
    rfl
  · rw [criteriaAt, Option.elim_some, criteriaOf_not_comparison hk, criteria]

theorem ofString_connective_ne (o : Connective) (c : Comparison) :
    Key.ofString o.symbol ≠ .comparison c := by
  rw [Key.ofString_connective]
  intro h
  cases h

theorem criteriaAt_array (o : Connective) (items : List Json) :
    criteriaAt base o.symbol (some (.array items)) = criteriaOfItems base items := by
  rw [criteriaAt, Option.elim_some, criteriaOf_not_comparison (ofString_connective_ne o),
    Key.ofString_connective, criteria]
  rfl

theorem criteriaOfItems_around (before after : List Fields) (items : List Fields) :
    criteriaOfItems base ((before ++ items ++ after).map .object) =
      criteriaOfItems base (before.map .object) ++ criteriaOfItems base (items.map .object) ++
        criteriaOfItems base (after.map .object) := by
  rw [List.map_append, List.map_append, criteriaOfItems_append, criteriaOfItems_append]

theorem criteriaOfItems_solid (fields : Fields) :
    criteriaOfItems base ((solid fields).map .object) = criteriaOf base fields := by
  cases fields with
  | nil => rw [criteriaOf]; rfl
  | cons f fields =>
    rw [solid_of_ne_nil (List.cons_ne_nil _ _), List.map_singleton, criteriaOfItems, criteria,
      criteriaOfItems, List.append_nil]

/-- What is lost of one item is lost of the array. -/
theorem subperm_around {lost xs ys : List Criterion} (h : xs.Subperm (lost ++ ys))
    (before after : List Criterion) :
    (before ++ xs ++ after).Subperm (lost ++ (before ++ ys ++ after)) := by
  have hall := ((List.Subperm.refl before).append h).append (List.Subperm.refl after)
  refine hall.trans (List.Perm.subperm ?_)
  rw [List.append_assoc, List.append_assoc, List.append_assoc]
  exact List.perm_append_comm_assoc before lost (ys ++ after)

/-! ## What an object spares, from one key to the next -/

/-- An operand takes the place of one operand at most. -/
theorem spares_operand (hsame : SameBut op.symbol a b) (ha : (keys a).Nodup)
    (hb : (keys b).Nodup) : Spares path op fresh path (.object a) (.object b) := by
  cases hv : get? a op.symbol with
  | none => exact spares_of_get?_none hsame ha hb hv
  | some v =>
    refine ⟨[⟨path, op, v⟩], subperm_of_sameBut hsame ha hb ?_, Or.inl ⟨v, rfl⟩⟩
    rw [hv, criteriaAt, Option.elim_some, criteriaOf_comparison (Key.ofString_comparison op)]
    exact (List.sublist_append_left _ _).subperm

/-- A fresh array takes the place of one array at most. -/
theorem spares_array {o : Connective} {new : List Json} (hfresh : fresh o new)
    (hsame : SameBut o.symbol a b) (ha : (keys a).Nodup) (hb : (keys b).Nodup)
    (hold : ∀ v, get? a o.symbol = some v → ∃ old, v = .array old)
    (hnew : get? b o.symbol = some (.array new)) :
    Spares path op fresh [] (.object a) (.object b) := by
  cases hv : get? a o.symbol with
  | none => exact spares_of_get?_none hsame ha hb hv
  | some v =>
    obtain ⟨old, rfl⟩ := hold v hv
    refine ⟨criteriaOfItems [] old, subperm_of_sameBut hsame ha hb ?_,
      Or.inr ⟨o, old, new, hfresh, .here hv hnew, rfl⟩⟩
    rw [hv, criteriaAt_array]
    exact (List.sublist_append_left _ _).subperm

/-- Objects that differ under one key spare what is spared there. -/
theorem Spares.inner {x y : Fields} {k : String} (hkey : ∀ o, Key.ofString k ≠ .comparison o)
    (hsame : SameBut k a b) (ha : (keys a).Nodup) (hb : (keys b).Nodup)
    (hx : Opens (get? a k) x) (hy : Opens (get? b k) y)
    (h : Spares path op fresh (pathUnder base (Key.ofString k)) (.object x) (.object y)) :
    Spares path op fresh base (.object a) (.object b) := by
  obtain ⟨lost, hsub, hlost⟩ := h
  rw [criteria, criteria, ← criteriaAt_of_opens hx hkey, ← criteriaAt_of_opens hy hkey] at hsub
  refine ⟨lost, subperm_of_sameBut hsame ha hb hsub, hlost.imp_right ?_⟩
  rintro ⟨o, old, new, hfresh, hover, rfl⟩
  obtain ⟨hxne, hyne⟩ := hover.ne_nil
  exact ⟨o, old, new, hfresh, .inside hkey (hx.eq_some hxne) (hy.eq_some hyne) hover, rfl⟩

/-- Arrays that differ in one item spare what is spared in that. -/
theorem Spares.item {x y : Fields} {o : Connective} {before after : List Fields}
    (hsame : SameBut o.symbol a b) (ha : (keys a).Nodup) (hb : (keys b).Nodup)
    (hx : get? a o.symbol = some (.array ((before ++ solid x ++ after).map .object)))
    (hy : get? b o.symbol = some (.array ((before ++ solid y ++ after).map .object)))
    (h : Spares path op fresh base (.object x) (.object y)) :
    Spares path op fresh base (.object a) (.object b) := by
  obtain ⟨lost, hsub, hlost⟩ := h
  rw [criteria, criteria, ← criteriaOfItems_solid, ← criteriaOfItems_solid] at hsub
  refine ⟨lost, subperm_of_sameBut hsame ha hb ?_, hlost.imp_right ?_⟩
  · rw [hx, hy, criteriaAt_array, criteriaAt_array, criteriaOfItems_around, criteriaOfItems_around]
    exact subperm_around hsub _ _
  · rintro ⟨c, old, new, hfresh, hover, rfl⟩
    -- neither item is empty, as one array in them overwrites another
    obtain ⟨hxne, hyne⟩ := hover.ne_nil
    rw [solid_of_ne_nil hxne, List.append_assoc, List.map_append] at hx
    rw [solid_of_ne_nil hyne, List.append_assoc, List.map_append] at hy
    exact ⟨c, old, new, hfresh, .inside (ofString_connective_ne o) hx hy (.item hover), rfl⟩

/-- An object that gains a comparison loses at most one by the same operator at the same path, or
those of one array in the place of which there is a fresh one. -/
theorem Gains.spares (h : Gains path op fresh base a b) (ha : (Json.object a).DistinctKeys)
    (hb : (Json.object b).DistinctKeys) : Spares path op fresh base (.object a) (.object b) := by
  -- at each level all that can be lost is under the one key that differs
  induction h with
  | @same base a b hsame =>
    refine spares_of_sameBut (k := op.symbol) (fun l _ => hsame l) ha.1 hb.1 ?_
    rw [hsame]
  | operand hsame => exact spares_operand hsame ha.1 hb.1
  | @inner base a b x y k hk hsame hx hy _ ih =>
    have hkey : ∀ o, Key.ofString k ≠ .comparison o := by
      intro o ho
      rw [ho] at hk
      cases hk
    exact (ih (hx.distinctKeys ha) (hy.distinctKeys hb)).inner hkey hsame ha.1 hb.1 hx hy
  | item hsame hx hy _ ih =>
    have hspares := ih (distinctKeys_of_item (ha.get? hx)) (distinctKeys_of_item (hb.get? hy))
    exact hspares.item hsame ha.1 hb.1 hx hy
  | array _ hfresh hsame hold hnew => exact spares_array hfresh hsame ha.1 hb.1 hold hnew

end Query

end FilterTree
