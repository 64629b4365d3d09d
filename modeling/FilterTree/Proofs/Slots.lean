import FilterTree.Query.Writing
import FilterTree.Proofs.Associativity
import FilterTree.Proofs.Forest

/-!
# What a node writes, and where

A node writes one operator with a value (`Node.key`, `Node.value?`), under its path
(`Node.toFields_eq`), or nothing at all. In a *plain* forest paths are made of field names and no
operand is an object. Then each key holds an object or not by its own sort alone
(`Fields.Regular`), so nothing is ever hidden in a merge, and writing two forests side by side is
merging what they write (`Forest.toFields_append`).
-/

namespace FilterTree

variable {ι : Type}

/-! ## Nodes -/

namespace Node

/-- The path that a node writes its operator under. -/
def path : Node ι → Path
  | condition _ path _ _ => path
  | logical .. => []
  | embedded _ path _ _ => path

/-- The operator of a node. -/
def key : Node ι → Key
  | condition _ _ op _ => .comparison op
  | logical _ op _ => .connective op
  | embedded _ _ op _ => .quantifier op

/-- The operator of a node is read as what it is. -/
theorem ofString_key (n : Node ι) : Key.ofString n.key.text = n.key := by
  cases n with
  | condition i p o v => exact Key.ofString_comparison o
  | logical i o ns => exact Key.ofString_connective o
  | embedded i p o ns => exact Key.ofString_quantifier o

theorem isOperator_key (n : Node ι) : n.key.isOperator = true := by
  cases n <;> rfl

@[simp] theorem key_hold (ns : Forest ι) (n : Node ι) : (n.hold ns).key = n.key := by
  cases n <;> rfl

@[simp] theorem path_hold (ns : Forest ι) (n : Node ι) : (n.hold ns).path = n.path := by
  cases n <;> rfl

theorem text_key_eq_iff {n : Node ι} {k : String} : n.key.text = k ↔ n.key = Key.ofString k := by
  constructor
  · rintro rfl
    exact n.ofString_key.symm
  · intro h
    rw [h, Key.text_ofString]

end Node

namespace Forest

/-- The objects of the nodes that write something. -/
def written (ns : Forest ι) : List Fields := (toFieldsList ns).filter (!·.isEmpty)

/-- The array of the nodes that write something; there is none if no node does. -/
def toArray? (ns : Forest ι) : Option Json :=
  if (written ns).isEmpty then none else some (.array ((written ns).map .object))

@[simp] theorem toFields_nil : toFields ([] : Forest ι) = [] := rfl

@[simp] theorem toQuery?_nil : toQuery? ([] : Forest ι) = none := rfl

theorem toQuery?_of_ne_nil {ns : Forest ι} (h : toFields ns ≠ []) :
    toQuery? ns = some (.object (toFields ns)) := by
  rw [toQuery?]
  exact if_neg fun hempty => h (List.isEmpty_iff.mp hempty)

/-- A node that writes nothing adds nothing. -/
theorem foldl_merge_filter (objects : List Fields) (fs : Fields) :
    (objects.filter (!·.isEmpty)).foldl Fields.merge fs = objects.foldl Fields.merge fs := by
  induction objects generalizing fs with
  | nil => rfl
  | cons o objects ih =>
    cases o with
    | nil =>
      rw [List.filter_cons_of_neg (by simp), ih, List.foldl_cons, Fields.merge_nil]
    | cons f o =>
      rw [List.filter_cons_of_pos rfl, List.foldl_cons, ih, List.foldl_cons]

theorem toFields_eq_mergeAll_written (ns : Forest ι) :
    toFields ns = Fields.mergeAll (written ns) := (foldl_merge_filter _ _).symm

theorem toQuery?_eq_none {ns : Forest ι} : toQuery? ns = none ↔ toFields ns = [] := by
  constructor
  · intro h
    by_cases hne : toFields ns = []
    · exact hne
    · rw [toQuery?_of_ne_nil hne] at h
      cases h
  · intro h
    rw [toQuery?, h]
    rfl

theorem toFields_of_toQuery? {ns : Forest ι} {v : Json} (h : toQuery? ns = some v) :
    v = .object (toFields ns) ∧ toFields ns ≠ [] := by
  have hne : toFields ns ≠ [] := fun hnil => by
    rw [toQuery?_eq_none.mpr hnil] at h
    cases h
  rw [toQuery?_of_ne_nil hne] at h
  exact ⟨(Option.some.inj h).symm, hne⟩

end Forest

namespace Node

/-- The value of the operator; a container in which nothing is written has none. -/
def value? : Node ι → Option Json
  | condition _ _ _ value => some value.toJson
  | logical _ op children =>
    match op with
    | .not => Forest.toQuery? children
    | .and | .or => Forest.toArray? children
  | embedded _ _ _ subtree => Forest.toQuery? subtree

/-- A node writes its operator with the value under its path. -/
theorem toFields_eq (n : Node ι) :
    n.toFields = n.value?.elim [] fun v => Fields.nest n.path [(n.key.text, v)] := by
  cases n with
  | condition i p o v => rfl
  | logical i o ns =>
    cases o with
    | not =>
      rw [toFields, value?, Forest.toQuery?, Forest.toFields]
      cases (Fields.mergeAll (Forest.toFieldsList ns)).isEmpty <;> rfl
    | and | or =>
      rw [toFields, value?, Forest.toArray?, Forest.written]
      cases ((Forest.toFieldsList ns).filter (!·.isEmpty)).isEmpty <;> rfl
  | embedded i p o ns =>
    rw [toFields, value?, Forest.toQuery?, Forest.toFields]
    cases (Fields.mergeAll (Forest.toFieldsList ns)).isEmpty <;> rfl

theorem nest_ne_nil (p : Path) (e : String × Json) : Fields.nest p [e] ≠ [] := by
  cases p <;> exact List.cons_ne_nil _ _

theorem toFields_eq_nil {n : Node ι} : n.toFields = [] ↔ n.value? = none := by
  rw [toFields_eq]
  cases n.value? with
  | none => exact iff_of_true rfl rfl
  | some v => exact iff_of_false (nest_ne_nil _ _) (by simp)

theorem keys_nest_nodup (p : Path) (e : String × Json) :
    (Fields.keys (Fields.nest p [e])).Nodup := by
  cases p <;> exact List.pairwise_singleton _ _

theorem keys_toFields_nodup (n : Node ι) : (Fields.keys n.toFields).Nodup := by
  rw [toFields_eq]
  cases n.value? with
  | none => exact List.nodup_nil
  | some v => exact keys_nest_nodup _ _

end Node

/-! ## Plain forests -/

/-- Whether no name in a path is an operator. -/
def Path.IsPlain (p : Path) : Prop := ∀ name ∈ p, (Key.ofString name).isOperator = false

instance : DecidablePred Path.IsPlain :=
  fun p => inferInstanceAs (Decidable (∀ name ∈ p, (Key.ofString name).isOperator = false))

theorem Path.IsPlain.tail {name : String} {p : Path} (h : Path.IsPlain (name :: p)) :
    Path.IsPlain p := fun n hn => h n (List.mem_cons_of_mem _ hn)

/-- Whether a node is no comparison with an object. -/
def Node.hasPlainOperand : Node ι → Bool
  | condition _ _ _ value => !value.toJson.isObject
  | logical .. | embedded .. => true

namespace Forest

/-- Whether all paths, at any depth, are made of field names. -/
def HasPlainPaths (ns : Forest ι) : Prop := ∀ n ∈ nodes ns, Path.IsPlain n.path

instance : DecidablePred (HasPlainPaths (ι := ι)) :=
  fun ns => inferInstanceAs (Decidable (∀ n ∈ nodes ns, Path.IsPlain n.path))

/-- Whether paths are made of field names and operands are no objects, at any depth. -/
structure IsPlain (ns : Forest ι) : Prop where
  paths : HasPlainPaths ns
  operands : ∀ n ∈ nodes ns, n.hasPlainOperand = true

instance : DecidablePred (IsPlain (ι := ι)) := fun ns =>
  decidable_of_iff (HasPlainPaths ns ∧ ∀ n ∈ nodes ns, n.hasPlainOperand = true)
    ⟨fun h => ⟨h.1, h.2⟩, fun h => ⟨h.paths, h.operands⟩⟩

namespace IsPlain

variable {ms ns : Forest ι}

theorem of_subset (h : IsPlain ns) (hsub : nodes ms ⊆ nodes ns) : IsPlain ms where
  paths n hn := h.paths n (hsub hn)
  operands n hn := h.operands n (hsub hn)

theorem nil : IsPlain ([] : Forest ι) where
  paths _ hn := absurd hn List.not_mem_nil
  operands _ hn := absurd hn List.not_mem_nil

theorem append (hm : IsPlain ms) (hn : IsPlain ns) : IsPlain (ms ++ ns) where
  paths n h := by
    rw [nodes_append, List.mem_append] at h
    exact h.elim (hm.paths n) (hn.paths n)
  operands n h := by
    rw [nodes_append, List.mem_append] at h
    exact h.elim (hm.operands n) (hn.operands n)

theorem children {n : Node ι} (h : IsPlain ns) (hn : n ∈ ns) : IsPlain n.children :=
  h.of_subset (nodes_children_subset hn)

theorem tail {n : Node ι} (h : IsPlain (n :: ns)) : IsPlain ns :=
  h.of_subset (nodes_subset_cons n ns)

end IsPlain

end Forest

/-! ## Keys that nest -/

/-- Whether a key holds an object in what a plain forest writes: a comparison holds an operand,
`$and` and `$or` an array. -/
def Key.nests : Key → Bool
  | comparison _ => false
  | connective op => op = .not
  | quantifier _ => true
  | field _ => true

namespace Fields

/-- Objects as plain forests write them: each key at each level occurs once, and holds an object if
it is one that nests and only then. -/
inductive Regular : Fields → Prop where
  | mk {fs : Fields} (nodup : (keys fs).Nodup)
      (holds : ∀ k v, (k, v) ∈ fs → v.isObject = (Key.ofString k).nests)
      (inner : ∀ k body, (k, Json.object body) ∈ fs → Regular body) : Regular fs

namespace Regular

variable {a b c fs : Fields} {k : String}

theorem nodup (h : Regular fs) : (keys fs).Nodup := by
  cases h with
  | mk nodup _ _ => exact nodup

theorem holds {v : Json} (h : Regular fs) (hk : get? fs k = some v) :
    v.isObject = (Key.ofString k).nests := by
  cases h with
  | mk _ holds _ => exact holds k v (mem_of_get? hk)

theorem inner {body : Fields} (h : Regular fs) (hk : get? fs k = some (.object body)) :
    Regular body := by
  cases h with
  | mk _ _ inner => exact inner k body (mem_of_get? hk)

theorem tidy (h : Regular fs) : Tidy fs := by
  induction h with
  | mk nodup _ _ ih => exact .mk nodup ih

theorem nil : Regular [] := .mk List.nodup_nil (by simp) (by simp)

/-- A single key with a value of its sort. -/
theorem singleton {v : Json} (hv : v.isObject = (Key.ofString k).nests)
    (hinner : ∀ body, v = .object body → Regular body) : Regular [(k, v)] := by
  refine .mk (List.pairwise_singleton _ k) ?_ ?_
  · intro l w hmem
    obtain ⟨rfl, rfl⟩ := Prod.mk.inj (List.mem_singleton.mp hmem)
    exact hv
  · intro l body hmem
    obtain ⟨-, hbody⟩ := Prod.mk.inj (List.mem_singleton.mp hmem)
    exact hinner body hbody.symm

theorem nest {p : Path} (hp : Path.IsPlain p) (h : Regular fs) : Regular (Fields.nest p fs) := by
  induction p with
  | nil => exact h
  | cons name p ih =>
    refine singleton ?_ fun body hbody => ?_
    · have hname := hp name List.mem_cons_self
      cases hkey : Key.ofString name with
      | field n => rfl
      | comparison o | connective o | quantifier o =>
        rw [hkey] at hname
        exact absurd hname.symm Bool.false_ne_true
    · rw [← Json.object.inj hbody]
      exact ih hp.tail

/-- A merge of regular objects is regular. -/
theorem merge (ha : Regular a) (hb : Regular b) : Regular (Fields.merge a b) := by
  induction hb generalizing a with
  | @mk b hn hholds hinner ih =>
    have hget : ∀ k v, (k, v) ∈ Fields.merge a b → Json.overlay (get? a k) (get? b k) = some v :=
      fun k v hmem => by
        rw [← get?_merge hn, get?_of_mem (keys_merge_nodup ha.nodup b) hmem]
    refine .mk (keys_merge_nodup ha.nodup b) ?_ ?_
    · intro k v hmem
      have hv := hget k v hmem
      cases hbk : get? b k with
      | none =>
        rw [hbk] at hv
        exact ha.holds hv
      | some w =>
        rw [hbk] at hv
        rw [Json.isObject_overlay hv]
        exact hholds k w (mem_of_get? hbk)
    · intro k body hmem
      rcases Json.overlay_eq_object (hget k _ hmem) with ⟨-, hak⟩ | hbk | ⟨x, y, hak, hbk, hxy⟩
      · exact ha.inner hak
      · exact hinner k body (mem_of_get? hbk)
      · rw [← hxy]
        exact ih k y (mem_of_get? hbk) (ha.inner hak)

theorem foldl_merge {objects : List Fields} (ha : Regular a) (h : ∀ o ∈ objects, Regular o) :
    Regular (objects.foldl Fields.merge a) := by
  induction objects generalizing a with
  | nil => exact ha
  | cons o objects ih =>
    exact ih (ha.merge (h o List.mem_cons_self)) fun p hp => h p (List.mem_cons_of_mem _ hp)

/-- Between regular objects nothing is hidden: they agree in which keys nest. -/
theorem not_hidden (ha : Regular a) (hb : Regular b) (hc : Regular c) : ¬ Hidden a b c := by
  induction ha generalizing b c with
  | @mk a _ hholds _ ih =>
    rw [hidden_iff]
    rintro ⟨k, a', v, c', hak, hbk, hck, hbelow⟩
    have hmem := mem_of_get? hak
    have hnests : (Key.ofString k).nests = true := (hholds k _ hmem).symm
    obtain ⟨b', rfl⟩ := Json.exists_of_isObject ((hb.holds hbk).trans hnests)
    exact ih k a' hmem (hb.inner hbk) (hc.inner hck) (hbelow b' rfl)

theorem merge_assoc (ha : Regular a) (hb : Regular b) (hc : Regular c) :
    Fields.merge (Fields.merge a b) c = Fields.merge a (Fields.merge b c) :=
  Fields.merge_assoc ha.tidy hb.tidy hc.tidy (ha.not_hidden hb hc)

/-- Merging one after another into an object is merging their merge into it. -/
theorem foldl_merge_eq {objects : List Fields} (ha : Regular a) (h : ∀ o ∈ objects, Regular o) :
    objects.foldl Fields.merge a = Fields.merge a (mergeAll objects) := by
  induction objects generalizing a with
  | nil => exact (merge_nil a).symm
  | cons o objects ih =>
    have ho := h o List.mem_cons_self
    have hrest := fun p hp => h p (List.mem_cons_of_mem o hp)
    have hall : mergeAll (o :: objects) = Fields.merge o (mergeAll objects) := by
      rw [mergeAll, List.foldl_cons, merge_nil_left ho.nodup, ih ho hrest]
    rw [List.foldl_cons, ih (ha.merge ho) hrest, hall]
    exact ha.merge_assoc ho (nil.foldl_merge hrest)

end Regular

end Fields

/-! ## What plain forests write -/

namespace Forest

/-- A node holds an object under its operator if that is one that nests. -/
theorem isObject_value? {n : Node ι} {v : Json} (hv : n.value? = some v)
    (hoperand : n.hasPlainOperand = true) : v.isObject = n.key.nests := by
  cases n with
  | condition i p o w =>
    rw [← Option.some.inj hv]
    rwa [Node.hasPlainOperand, Bool.not_eq_true'] at hoperand
  | embedded i p o ms =>
    rw [(toFields_of_toQuery? hv).1]
    rfl
  | logical i o ms =>
    cases o with
    | not =>
      rw [(toFields_of_toQuery? hv).1]
      rfl
    | and | or =>
      rw [Node.value?, toArray?] at hv
      split at hv
      · cases hv
      · rw [← Option.some.inj hv]
        rfl

/-- An object under an operator is what the children write, unless it is an operand. -/
theorem eq_of_value?_object {n : Node ι} {body : Fields} (hv : n.value? = some (.object body))
    (hoperand : n.hasPlainOperand = true) : body = toFields n.children := by
  cases n with
  | condition i p o w =>
    rw [Node.hasPlainOperand, Option.some.inj hv] at hoperand
    exact absurd hoperand Bool.false_ne_true
  | embedded i p o ms => exact Json.object.inj (toFields_of_toQuery? hv).1
  | logical i o ms =>
    cases o with
    | not => exact Json.object.inj (toFields_of_toQuery? hv).1
    | and | or =>
      rw [Node.value?, toArray?] at hv
      split at hv <;> cases hv

/-- What a node writes is regular if what its children write is. -/
theorem regular_toFields_node {n : Node ι} {ns : Forest ι} (h : IsPlain ns) (hn : n ∈ ns)
    (hchildren : ∀ o ∈ toFieldsList n.children, Fields.Regular o) : n.toFields.Regular := by
  have hmem := mem_nodes_of_mem hn
  have hoperand := h.operands n hmem
  rw [Node.toFields_eq]
  cases hv : n.value? with
  | none => exact .nil
  | some v =>
    refine .nest (h.paths n hmem) (.singleton ?_ ?_)
    · rw [n.ofString_key]
      exact isObject_value? hv hoperand
    · rintro body rfl
      rw [eq_of_value?_object hv hoperand]
      exact .foldl_merge .nil hchildren

theorem regular_toFieldsList {ns : Forest ι} (h : IsPlain ns) :
    ∀ o ∈ toFieldsList ns, Fields.Regular o := by
  induction ns using Forest.induction with
  | nil => exact fun o ho => absurd ho List.not_mem_nil
  | cons n ns ihn ih =>
    intro o ho
    rw [toFieldsList, List.mem_cons] at ho
    rcases ho with rfl | ho
    · exact regular_toFields_node h List.mem_cons_self (ihn (h.children List.mem_cons_self))
    · exact ih h.tail o ho

theorem regular_toFields {ns : Forest ι} (h : IsPlain ns) : Fields.Regular (toFields ns) :=
  Fields.Regular.nil.foldl_merge (regular_toFieldsList h)

theorem toFieldsList_append (ms ns : Forest ι) :
    toFieldsList (ms ++ ns) = toFieldsList ms ++ toFieldsList ns := by
  induction ms with
  | nil => rfl
  | cons m ms ih => rw [List.cons_append, toFieldsList, ih, toFieldsList, List.cons_append]

/-- The last node is written over those before it. -/
theorem toFields_concat (ns : Forest ι) (n : Node ι) :
    toFields (ns ++ [n]) = Fields.merge (toFields ns) n.toFields := by
  rw [toFields, toFieldsList_append, Fields.mergeAll, List.foldl_append]
  rfl

/-- Plain forests side by side are written as the merge of what they write. -/
theorem toFields_append {ms ns : Forest ι} (hm : IsPlain ms) (hn : IsPlain ns) :
    toFields (ms ++ ns) = Fields.merge (toFields ms) (toFields ns) := by
  rw [toFields, toFieldsList_append, Fields.mergeAll, List.foldl_append]
  exact (regular_toFields hm).foldl_merge_eq (regular_toFieldsList hn)

end Forest

/-! ## Merging in any order -/

/-- Merging is associative where no value that is no object lies between two objects. None ever does
in what plain forests write, so forests side by side are written as the merge of what each of them
writes. -/
theorem Fields.merge_associative :
    (∀ a b c : Fields, (Json.object a).DistinctKeys → (Json.object b).DistinctKeys →
      (Json.object c).DistinctKeys → ¬ Hidden a b c →
        merge (merge a b) c = merge a (merge b c)) ∧
    ∀ ms ns : Forest ι, ms.IsPlain → ns.IsPlain →
      Forest.toFields (ms ++ ns) = merge (Forest.toFields ms) (Forest.toFields ns) := by
  constructor
  · intro a b c ha hb hc hhidden
    apply merge_assoc _ _ _ hhidden
    · exact .of_distinctKeys a ha
    · exact .of_distinctKeys b hb
    · exact .of_distinctKeys c hc
  · intro ms ns hm hn
    exact Forest.toFields_append hm hn

/-- The lowest of three objects. All three have an object at `a`, with values below it that meet in
part; at `n` only this one has an object, and at `q` only the topmost. -/
def Fields.lower : Fields := [
  ("a", .object [("x", .number (.int 1)), ("m", .object [("u", .null)])]),
  ("n", .object [("p", .null)])]

def Fields.middle : Fields := [
  ("a", .object [("m", .object [("v", .null)])]),
  ("n", .null),
  ("q", .bool true)]

def Fields.upper : Fields := [
  ("q", .object [("z", .null)]),
  ("a", .object [("x", .object []), ("m", .object [("u", .object [])])]),
  ("n", .bool false)]

/-- A condition, a filter on the elements of `tags` and a negation. -/
def Forest.earlier : Tree := [
  .condition 1 ["a"] .eq (.number (.int 1)),
  .embedded 2 ["tags"] .someElement [.condition 3 ["n"] .gte (.number (.int 2))],
  .logical 4 .not [.condition 5 ["e"] .ne .null]]

/-- Nodes that meet each of the `earlier` ones. -/
def Forest.later : Tree := [
  .logical 6 .not [.logical 7 .or [.condition 8 ["f"] .eq .null]],
  .embedded 9 ["tags"] .someElement [.condition 10 ["n"] .lt (.number (.int 5))],
  .condition 11 ["a"] .eq (.string "x")]

theorem Fields.merge_associative_meeting :
    ((Json.object lower).DistinctKeys ∧ (Json.object middle).DistinctKeys ∧
      (Json.object upper).DistinctKeys ∧ ¬ Hidden lower middle upper ∧
      merge (merge lower middle) upper = merge lower (merge middle upper) ∧
      merge lower (merge middle upper) = [
        ("a", .object [("x", .object []), ("m", .object [("u", .object []), ("v", .null)])]),
        ("n", .bool false),
        ("q", .object [("z", .null)])]) ∧
    Forest.IsPlain Forest.earlier ∧ Forest.IsPlain Forest.later ∧
      Forest.toFields (Forest.earlier ++ Forest.later) =
        merge (Forest.toFields Forest.earlier) (Forest.toFields Forest.later) ∧
      merge (Forest.toFields Forest.earlier) (Forest.toFields Forest.later) = [
        ("a", .object [("$eq", .string "x")]),
        ("tags", .object [("$some", .object [
          ("n", .object [("$gte", .number (.int 2)), ("$lt", .number (.int 5))])])]),
        ("$not", .object [
          ("e", .object [("$ne", .null)]),
          ("$or", .array [.object [("f", .object [("$eq", .null)])]])])] := by
  obtain ⟨hassoc, happend⟩ := @merge_associative NodeId
  have ha : (Json.object lower).DistinctKeys := by decide
  have hb : (Json.object middle).DistinctKeys := by decide
  have hc : (Json.object upper).DistinctKeys := by decide
  have hhidden : ¬ Hidden lower middle upper := by
    rw [← hasHidden_iff (.of_distinctKeys lower ha)]
    decide
  have hearlier : Forest.IsPlain Forest.earlier := by decide
  have hlater : Forest.IsPlain Forest.later := by decide
  refine ⟨⟨ha, hb, hc, hhidden, ?_, ?_⟩, hearlier, hlater, ?_, ?_⟩
  · exact hassoc lower middle upper ha hb hc hhidden
  · decide
  · exact happend _ _ hearlier hlater
  · decide

end FilterTree
