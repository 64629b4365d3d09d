import Mathlib.Data.List.Basic
import Mathlib.Data.List.Induction
import FilterTree.Proofs.Slots

/-!
# What a forest writes, key by key

A name at the top of what a plain forest writes leads to what is written of the nodes below that
name (`Forest.get?_toFields_name`), so a path leads to what is written of the nodes with that path,
as if they stood at the top. There the nodes of one operator meet: of comparisons and of `$and` and
`$or` the last one counts, and the contents of the others are put together
(`Forest.at?_toFields`).
-/

namespace FilterTree

variable {ι : Type}

/-! ## Nodes that meet -/

namespace Node

/-- The operand of a condition with this path and comparison. -/
def operandAt? (p : Path) (op : Comparison) : Node ι → Option Operand
  | condition _ path op' value => if path = p ∧ op' = op then some value else none
  | _ => none

/-- The forest of an embedded node with this path and quantifier. -/
def subtreeAt (p : Path) (op : Quantifier) : Node ι → Forest ι
  | embedded _ path op' subtree => if path = p ∧ op' = op then subtree else []
  | _ => []

/-- The forest of a logical node with this connective. -/
def childrenOf? (op : Connective) : Node ι → Option (Forest ι)
  | logical _ op' children => if op' = op then some children else none
  | _ => none

end Node

namespace Forest

/-- The operands of the conditions with this path and comparison, from left to right. -/
def operandsAt (ns : Forest ι) (p : Path) (op : Comparison) : List Operand :=
  ns.filterMap (Node.operandAt? p op)

/-- The subtrees of the embedded nodes with this path and quantifier, side by side. -/
def subtreesAt (ns : Forest ι) (p : Path) (op : Quantifier) : Forest ι :=
  ns.flatMap (Node.subtreeAt p op)

/-- The children of the logical nodes with this connective, node by node. -/
def childrenOf (ns : Forest ι) (op : Connective) : List (Forest ι) :=
  ns.filterMap (Node.childrenOf? op)

end Forest

/-! ## Below a name -/

namespace Node

/-- Gives a node another path; a logical node has none. -/
def setPath (p : Path) : Node ι → Node ι
  | condition i _ op value => condition i p op value
  | logical i op children => logical i op children
  | embedded i _ op subtree => embedded i p op subtree

@[simp] theorem value?_setPath (p : Path) (n : Node ι) : (n.setPath p).value? = n.value? := by
  cases n <;> rfl

@[simp] theorem key_setPath (p : Path) (n : Node ι) : (n.setPath p).key = n.key := by
  cases n <;> rfl

@[simp] theorem children_setPath (p : Path) (n : Node ι) :
    (n.setPath p).children = n.children := by
  cases n <;> rfl

theorem path_setPath {p : Path} {n : Node ι} (h : n.path ≠ []) : (n.setPath p).path = p := by
  cases n with
  | condition i path o v => rfl
  | logical i o ns => exact absurd rfl h
  | embedded i path o ns => rfl

/-- Takes a name off the front of the path of a node. -/
def below? (name : String) (n : Node ι) : Option (Node ι) :=
  match n.path with
  | [] => none
  | k :: p => if k = name then some (n.setPath p) else none

theorem below?_eq_some {name : String} {m n : Node ι} (h : n.below? name = some m) :
    ∃ p, n.path = name :: p ∧ m.path = p ∧ m = n.setPath p := by
  rw [below?] at h
  split at h
  · cases h
  · rename_i k p hpath
    split at h
    · rename_i hk
      obtain rfl := Option.some.inj h
      exact ⟨p, by rw [hpath, hk], path_setPath (by rw [hpath]; exact List.cons_ne_nil k p), rfl⟩
    · cases h

/-- Below a name a node writes what it writes under that name. -/
theorem toFields_eq_wrap {name : String} {m n : Node ι} (h : n.below? name = some m)
    (hm : m.toFields ≠ []) : n.toFields = Fields.wrap name m.toFields := by
  obtain ⟨p, hpath, hmpath, rfl⟩ := below?_eq_some h
  rw [toFields_eq n, toFields_eq (n.setPath p), value?_setPath, key_setPath, hmpath, hpath]
  rw [Ne, toFields_eq_nil, value?_setPath] at hm
  cases hv : n.value? with
  | none => exact absurd hv hm
  | some v => rfl

end Node

namespace Forest

/-- The nodes with a name in front of their paths, without that name. -/
def below (name : String) (ns : Forest ι) : Forest ι := ns.filterMap (Node.below? name)

theorem isPlain_of_forall {ns : Forest ι} (h : ∀ n ∈ ns, IsPlain [n]) : IsPlain ns := by
  induction ns with
  | nil => exact .nil
  | cons n ns ih =>
    exact (h n List.mem_cons_self).append (ih fun m hm => h m (List.mem_cons_of_mem _ hm))

theorem IsPlain.singleton {n : Node ι} {ns : Forest ι} (h : IsPlain ns) (hn : n ∈ ns) :
    IsPlain [n] := by
  exact h.of_subset (nodes_singleton_subset hn)

theorem IsPlain.setPath {n : Node ι} {p : Path} (h : IsPlain [n]) (hp : Path.IsPlain p) :
    IsPlain [n.setPath p] := by
  have hsplit : ∀ m ∈ nodes [n.setPath p], m = n.setPath p ∨ m ∈ nodes [n] := by
    intro m hm
    rw [mem_nodes_singleton, Node.children_setPath] at hm
    exact hm.imp_right fun hm => nodes_children_subset (List.mem_singleton_self n) hm
  have hn : n ∈ nodes [n] := mem_nodes_of_mem (List.mem_singleton_self n)
  constructor
  · intro m hm
    rcases hsplit m hm with rfl | hm
    · cases n with
      | condition i path o v => exact hp
      | logical i o ns => exact h.paths _ hn
      | embedded i path o ns => exact hp
    · exact h.paths m hm
  · intro m hm
    rcases hsplit m hm with rfl | hm
    · have hoperand := h.operands n hn
      cases n <;> exact hoperand
    · exact h.operands m hm

theorem IsPlain.below? {n m : Node ι} {ns : Forest ι} {name : String} (h : IsPlain ns)
    (hn : n ∈ ns) (hm : n.below? name = some m) : IsPlain [m] := by
  obtain ⟨p, hpath, -, rfl⟩ := Node.below?_eq_some hm
  have hplain := h.paths n (mem_nodes_of_mem hn)
  rw [hpath] at hplain
  exact (h.singleton hn).setPath hplain.tail

theorem IsPlain.below {ns : Forest ι} (h : IsPlain ns) (name : String) :
    IsPlain (below name ns) := by
  refine isPlain_of_forall fun m hm => ?_
  obtain ⟨n, hn, hnm⟩ := List.mem_filterMap.mp hm
  exact h.below? hn hnm

/-! ## The nodes of one key -/

theorem toFieldsList_eq_map (ns : Forest ι) : toFieldsList ns = ns.map Node.toFields := by
  induction ns with
  | nil => rfl
  | cons n ns ih => rw [toFieldsList, ih, List.map_cons]

@[simp] theorem toFields_singleton (n : Node ι) : toFields [n] = n.toFields :=
  Fields.merge_nil_left n.keys_toFields_nodup

/-- A key holds what the nodes write for it, laid over each other. -/
theorem get?_toFields (ns : Forest ι) (k : String) :
    (toFields ns).get? k = (ns.map fun n => n.toFields.get? k).foldl Json.overlay none := by
  have hnodup : ∀ o ∈ toFieldsList ns, (Fields.keys o).Nodup := by
    intro o ho
    rw [toFieldsList_eq_map] at ho
    obtain ⟨n, -, rfl⟩ := List.mem_map.mp ho
    exact n.keys_toFields_nodup
  rw [toFields, Fields.get?_mergeAll hnodup, toFieldsList_eq_map, List.map_map]
  rfl

theorem toQuery?_append {ms ns : Forest ι} (hm : IsPlain ms) (hn : IsPlain ns) :
    toQuery? (ms ++ ns) = Json.overlay (toQuery? ms) (toQuery? ns) := by
  have happend := toFields_append hm hn
  -- a forest that writes nothing is no object, not an empty one
  by_cases hms : toFields ms = []
  · rw [hms, Fields.merge_nil_left (regular_toFields hn).nodup] at happend
    rw [toQuery?_eq_none.mpr hms, Json.overlay_none_left, toQuery?, toQuery?, happend]
  · by_cases hns : toFields ns = []
    · rw [hns, Fields.merge_nil] at happend
      rw [toQuery?_eq_none.mpr hns, Json.overlay_none_right, toQuery?, toQuery?, happend]
    · have hne : toFields (ms ++ ns) ≠ [] := happend ▸ Fields.merge_ne_nil hms _
      rw [toQuery?_of_ne_nil hne, toQuery?_of_ne_nil hms, toQuery?_of_ne_nil hns,
        Json.overlay_object, happend]

/-- Where each node adds what a forest of its own writes, the forests are put side by side. -/
theorem foldl_overlay_toQuery? {part : Node ι → Forest ι} {ns : Forest ι}
    (h : ∀ n ∈ ns, IsPlain (part n)) :
    (ns.map fun n => toQuery? (part n)).foldl Json.overlay none = toQuery? (ns.flatMap part) := by
  -- the accumulator is itself what a forest writes, the part of the nodes so far
  suffices hacc : ∀ acc : Forest ι, IsPlain acc →
      (ns.map fun n => toQuery? (part n)).foldl Json.overlay (toQuery? acc) =
        toQuery? (acc ++ ns.flatMap part) from hacc [] .nil
  induction ns with
  | nil =>
    intro acc _
    rw [List.flatMap_nil, List.append_nil]
    rfl
  | cons n ns ih =>
    intro acc hplain
    have hpart := h n List.mem_cons_self
    rw [List.map_cons, List.foldl_cons, ← toQuery?_append hplain hpart,
      ih (fun m hm => h m (List.mem_cons_of_mem _ hm)) _ (hplain.append hpart),
      List.flatMap_cons, List.append_assoc]

/-- Where no node adds an object the last one counts. -/
theorem foldl_overlay_getLast? {xs : List (Option Json)}
    (h : ∀ x ∈ xs, ∀ v, x = some v → v.isObject = false) :
    xs.foldl Json.overlay none = (xs.filterMap id).getLast? := by
  induction xs using List.reverseRecOn with
  | nil => rfl
  | append_singleton xs x ih =>
    have hxs := ih fun y hy => h y (List.mem_append_left _ hy)
    rw [List.foldl_append, List.foldl_cons, List.foldl_nil, List.filterMap_append, hxs]
    cases hx : x with
    | none => simp
    | some v =>
      have hv := h x (List.mem_append_right _ (List.mem_singleton_self x)) v hx
      rw [Json.overlay_of_not_isObject hv]
      simp

end Forest

/-! ## Single nodes -/

namespace Node

/-- For an operator a node writes its value, if it is the operator of the node and no path is around
it. -/
theorem get?_toFields_operator {n : Node ι} (hpath : Path.IsPlain n.path) {k : String}
    (hk : (Key.ofString k).isOperator = true) :
    n.toFields.get? k = if n.path = [] ∧ n.key = Key.ofString k then n.value? else none := by
  simp only [← text_key_eq_iff]
  rw [toFields_eq]
  cases n.value? with
  | none => simp [Fields.get?]
  | some v =>
    cases hp : n.path with
    | nil => simp [Fields.nest, Fields.get?]
    | cons name p =>
      rw [hp] at hpath
      -- the first name of a plain path is no operator
      have hne : name ≠ k := by
        rintro rfl
        rw [hpath name List.mem_cons_self] at hk
        exact Bool.noConfusion hk
      simp [Fields.nest, Fields.get?, hne]

/-- For a name a node writes what it writes below that name. -/
theorem get?_toFields_name (n : Node ι) {name : String}
    (hname : (Key.ofString name).isOperator = false) :
    n.toFields.get? name = Forest.toQuery? (n.below? name).toList := by
  rw [toFields_eq]
  cases hp : n.path with
  | nil =>
    -- without a path a node writes its operator, which is not the name
    have hbelow : n.below? name = none := by rw [below?, hp]
    have hne : n.key.text ≠ name := by
      rintro rfl
      rw [n.ofString_key, n.isOperator_key] at hname
      exact Bool.noConfusion hname
    rw [hbelow]
    cases n.value? with
    | none => rfl
    | some v => simp [Fields.nest, Fields.get?, hne]
  | cons k p =>
    by_cases hk : k = name
    · have hbelow : n.below? name = some (n.setPath p) := by
        rw [below?, hp]
        exact if_pos hk
      have hpath : (n.setPath p).path = p := path_setPath (by rw [hp]; exact List.cons_ne_nil k p)
      rw [hbelow, Option.toList_some, Forest.toQuery?, Forest.toFields_singleton,
        toFields_eq (n.setPath p), value?_setPath, key_setPath, hpath]
      cases n.value? with
      | none => rfl
      | some v =>
        have hempty : (Fields.nest p [(n.key.text, v)]).isEmpty = false :=
          List.isEmpty_eq_false_iff.mpr (nest_ne_nil _ _)
        simp [Fields.nest, Fields.get?, hk, hempty]
    · have hbelow : n.below? name = none := by
        rw [below?, hp]
        exact if_neg hk
      rw [hbelow]
      cases n.value? with
      | none => rfl
      | some v => simp [Fields.nest, Fields.get?, hk]

section

variable {n : Node ι} (hpath : Path.IsPlain n.path)

include hpath

theorem get?_toFields_comparison (op : Comparison) :
    n.toFields.get? op.symbol = (n.operandAt? [] op).map Operand.toJson := by
  rw [get?_toFields_operator hpath (by rw [Key.ofString_comparison]; rfl),
    Key.ofString_comparison]
  cases n with
  | condition i p o v =>
    simp only [path, key, value?, operandAt?, Key.comparison.injEq]
    split <;> rfl
  | logical i o ns => simp [key, operandAt?]
  | embedded i p o ns => simp [key, operandAt?]

theorem get?_toFields_quantifier (op : Quantifier) :
    n.toFields.get? op.symbol = Forest.toQuery? (n.subtreeAt [] op) := by
  rw [get?_toFields_operator hpath (by rw [Key.ofString_quantifier]; rfl),
    Key.ofString_quantifier]
  cases n with
  | condition i p o v => simp [key, subtreeAt]
  | logical i o ns => simp [key, subtreeAt]
  | embedded i p o ns =>
    simp only [path, key, value?, subtreeAt, Key.quantifier.injEq]
    split <;> rfl

theorem get?_toFields_connective (op : Connective) :
    n.toFields.get? op.symbol = (n.childrenOf? op).bind fun ns =>
      if op = .not then Forest.toQuery? ns else Forest.toArray? ns := by
  rw [get?_toFields_operator hpath (by rw [Key.ofString_connective]; rfl),
    Key.ofString_connective]
  cases n with
  | condition i p o v => simp [key, childrenOf?]
  | embedded i p o ns => simp [key, childrenOf?]
  | logical i o ns =>
    simp only [path, key, childrenOf?, Key.connective.injEq, true_and]
    by_cases ho : o = op
    · rw [if_pos ho, if_pos ho, ← ho]
      cases o <;> rfl
    · rw [if_neg ho, if_neg ho]
      rfl

end

end Node

/-! ## The top -/

namespace Forest

section

variable {ns : Forest ι} (h : IsPlain ns)

include h

theorem IsPlain.path {n : Node ι} (hn : n ∈ ns) : Path.IsPlain n.path :=
  h.paths n (mem_nodes_of_mem hn)

theorem get?_toFields_comparison (op : Comparison) :
    (toFields ns).get? op.symbol = (operandsAt ns [] op).getLast?.map Operand.toJson := by
  have hread : (ns.map fun n => n.toFields.get? op.symbol) =
      ns.map fun n => (n.operandAt? [] op).map Operand.toJson :=
    List.map_congr_left fun n hn => Node.get?_toFields_comparison (h.path hn) op
  rw [get?_toFields, hread, foldl_overlay_getLast?, List.filterMap_map, operandsAt,
    ← List.getLast?_map, List.map_filterMap]
  · rfl
  · intro x hx v hv
    obtain ⟨n, hn, rfl⟩ := List.mem_map.mp hx
    obtain ⟨w, hw, rfl⟩ := Option.map_eq_some_iff.mp hv
    have hoperand := h.operands n (mem_nodes_of_mem hn)
    cases n with
    | condition i p o u =>
      rw [Node.operandAt?] at hw
      split at hw
      · rw [← Option.some.inj hw]
        rwa [Node.hasPlainOperand, Bool.not_eq_true'] at hoperand
      · cases hw
    | logical i o ms => cases hw
    | embedded i p o ms => cases hw

theorem get?_toFields_quantifier (op : Quantifier) :
    (toFields ns).get? op.symbol = toQuery? (subtreesAt ns [] op) := by
  have hread : (ns.map fun n => n.toFields.get? op.symbol) =
      ns.map fun n => toQuery? (n.subtreeAt [] op) :=
    List.map_congr_left fun n hn => Node.get?_toFields_quantifier (h.path hn) op
  rw [get?_toFields, hread, foldl_overlay_toQuery?, subtreesAt]
  intro n hn
  have hchildren := h.children hn
  cases n with
  | condition i p o v => exact .nil
  | logical i o ms => exact .nil
  | embedded i p o ms =>
    rw [Node.subtreeAt]
    split
    · exact hchildren
    · exact .nil

theorem get?_toFields_not :
    (toFields ns).get? Connective.not.symbol = toQuery? (childrenOf ns .not).flatten := by
  have hread : (ns.map fun n => n.toFields.get? Connective.not.symbol) =
      ns.map fun n => toQuery? ((n.childrenOf? .not).getD []) := by
    refine List.map_congr_left fun n hn => ?_
    rw [Node.get?_toFields_connective (h.path hn)]
    cases n.childrenOf? .not <;> rfl
  have hflat : (childrenOf ns .not).flatten = ns.flatMap fun n => (n.childrenOf? .not).getD [] := by
    rw [childrenOf]
    clear h hread
    induction ns with
    | nil => rfl
    | cons n ns ih =>
      rw [List.flatMap_cons, ← ih]
      cases hn : n.childrenOf? .not with
      | none => rw [List.filterMap_cons_none hn, Option.getD_none, List.nil_append]
      | some ms => rw [List.filterMap_cons_some hn, Option.getD_some, List.flatten_cons]
  rw [get?_toFields, hread, foldl_overlay_toQuery?, hflat]
  intro n hn
  have hchildren := h.children hn
  cases n with
  | condition i p o v => exact .nil
  | embedded i p o ms => exact .nil
  | logical i o ms =>
    rw [Node.childrenOf?]
    split
    · exact hchildren
    · exact .nil

theorem get?_toFields_junction {op : Connective} (hop : op ≠ .not) :
    (toFields ns).get? op.symbol = ((childrenOf ns op).filterMap toArray?).getLast? := by
  have hread : (ns.map fun n => n.toFields.get? op.symbol) =
      ns.map fun n => (n.childrenOf? op).bind toArray? := by
    refine List.map_congr_left fun n hn => ?_
    rw [Node.get?_toFields_connective (h.path hn)]
    simp only [if_neg hop]
  rw [get?_toFields, hread, foldl_overlay_getLast?, List.filterMap_map, childrenOf,
    List.filterMap_filterMap]
  · rfl
  · intro x hx v hv
    obtain ⟨n, hn, rfl⟩ := List.mem_map.mp hx
    obtain ⟨ms, -, hms⟩ := Option.bind_eq_some_iff.mp hv
    rw [toArray?] at hms
    split at hms
    · cases hms
    · rw [← Option.some.inj hms]
      rfl

/-- A name holds what is written of the nodes below it. -/
theorem get?_toFields_name {name : String} (hname : (Key.ofString name).isOperator = false) :
    (toFields ns).get? name = toQuery? (below name ns) := by
  have hread : (ns.map fun n => n.toFields.get? name) =
      ns.map fun n => toQuery? (n.below? name).toList :=
    List.map_congr_left fun n _ => n.get?_toFields_name hname
  rw [get?_toFields, hread, foldl_overlay_toQuery?, below, List.filterMap_eq_flatMap_toList]
  intro n hn
  cases hm : n.below? name with
  | none => exact .nil
  | some m => exact h.below? hn hm

end

/-! ## Along a path -/

theorem operandsAt_below (ns : Forest ι) (name : String) (p : Path) (op : Comparison) :
    operandsAt (below name ns) p op = operandsAt ns (name :: p) op := by
  rw [operandsAt, below, List.filterMap_filterMap, operandsAt]
  refine List.filterMap_congr fun n _ => ?_
  cases n with
  | condition i path o v =>
    cases path with
    | nil => rfl
    | cons k path =>
      by_cases hk : k = name <;> simp [Node.below?, Node.path, Node.setPath, Node.operandAt?, hk]
  | logical i o ms => rfl
  | embedded i path o ms =>
    cases path with
    | nil => rfl
    | cons k path =>
      by_cases hk : k = name <;> simp [Node.below?, Node.path, Node.setPath, Node.operandAt?, hk]

theorem subtreesAt_below (ns : Forest ι) (name : String) (p : Path) (op : Quantifier) :
    subtreesAt (below name ns) p op = subtreesAt ns (name :: p) op := by
  rw [subtreesAt, below, List.filterMap_eq_flatMap_toList, List.flatMap_assoc, subtreesAt]
  refine List.flatMap_congr fun n _ => ?_
  cases n with
  | condition i path o v =>
    cases path with
    | nil => rfl
    | cons k path =>
      by_cases hk : k = name <;> simp [Node.below?, Node.path, Node.setPath, Node.subtreeAt, hk]
  | logical i o ms => rfl
  | embedded i path o ms =>
    cases path with
    | nil => rfl
    | cons k path =>
      by_cases hk : k = name <;> simp [Node.below?, Node.path, Node.setPath, Node.subtreeAt, hk]

section

variable {ns : Forest ι} (h : IsPlain ns)

include h

/-- A path that starts with a name goes on below that name. -/
theorem at?_toFields_cons {name : String} (hname : (Key.ofString name).isOperator = false)
    {p : List String} (hp : p ≠ []) :
    (Json.object (toFields ns)).at? (name :: p) =
      (Json.object (toFields (below name ns))).at? p := by
  rw [Json.at?, get?_toFields_name h hname]
  by_cases hnil : toFields (below name ns) = []
  · rw [toQuery?_eq_none.mpr hnil, hnil]
    cases p with
    | nil => exact absurd rfl hp
    | cons k p => rfl
  · rw [toQuery?_of_ne_nil hnil]
    rfl

end

theorem at?_toFields_comparison {p : Path} (hp : Path.IsPlain p) (op : Comparison) :
    ∀ {ns : Forest ι}, IsPlain ns →
      (Json.object (toFields ns)).at? (p ++ [op.symbol]) =
        (operandsAt ns p op).getLast?.map Operand.toJson := by
  induction p with
  | nil =>
    intro ns h
    rw [List.nil_append, Json.at?_singleton, get?_toFields_comparison h]
  | cons name p ih =>
    intro ns h
    rw [List.cons_append, at?_toFields_cons h (hp name List.mem_cons_self) (by simp),
      ih hp.tail (h.below name), operandsAt_below]

theorem at?_toFields_quantifier {p : Path} (hp : Path.IsPlain p) (op : Quantifier) :
    ∀ {ns : Forest ι}, IsPlain ns →
      (Json.object (toFields ns)).at? (p ++ [op.symbol]) = toQuery? (subtreesAt ns p op) := by
  induction p with
  | nil =>
    intro ns h
    rw [List.nil_append, Json.at?_singleton, get?_toFields_quantifier h]
  | cons name p ih =>
    intro ns h
    rw [List.cons_append, at?_toFields_cons h (hp name List.mem_cons_self) (by simp),
      ih hp.tail (h.below name), subtreesAt_below]

/-- What is written below a name is written by a node with that name in front of its path. -/
theorem exists_of_mem_below {ns : Forest ι} {m : Node ι} {name : String}
    (hm : m ∈ below name ns) (hwritten : m.toFields ≠ []) :
    ∃ n ∈ ns, n.toFields ≠ [] ∧ n.path = name :: m.path := by
  obtain ⟨n, hn, hbelow⟩ := List.mem_filterMap.mp hm
  obtain ⟨p, hpath, hmpath, -⟩ := Node.below?_eq_some hbelow
  refine ⟨n, hn, ?_, by rw [hpath, hmpath]⟩
  rw [Node.toFields_eq_wrap hbelow hwritten]
  exact List.cons_ne_nil _ _

/-- No connective stands below a name, because no logical node has a path. -/
theorem childrenOf_below (ns : Forest ι) (name : String) (op : Connective) :
    childrenOf (below name ns) op = [] := by
  rw [childrenOf, List.filterMap_eq_nil_iff]
  intro m hm
  obtain ⟨n, -, hnm⟩ := List.mem_filterMap.mp hm
  obtain ⟨p, hpath, -, rfl⟩ := Node.below?_eq_some hnm
  cases n with
  | condition i path o v => rfl
  | logical i o ms => cases hpath
  | embedded i path o ms => rfl

theorem exists_of_toFields_ne_nil {ns : Forest ι} (h : toFields ns ≠ []) :
    ∃ n ∈ ns, n.toFields ≠ [] := by
  have hne : written ns ≠ [] := by
    intro hnil
    rw [toFields_eq_mergeAll_written, hnil] at h
    exact h rfl
  obtain ⟨o, ho⟩ := List.exists_mem_of_ne_nil _ hne
  rw [written, List.mem_filter, toFieldsList_eq_map, List.mem_map] at ho
  obtain ⟨⟨n, hn, rfl⟩, hempty⟩ := ho
  rw [Bool.not_eq_true', List.isEmpty_eq_false_iff] at hempty
  exact ⟨n, hn, hempty⟩

/-- What accounts for a key of the object at a path. A connective stands at the top only, and a name
is on the way to what some node writes. -/
def Accounts (ns : Forest ι) (p : Path) (k : String) : Prop :=
  match Key.ofString k with
  | .comparison op => operandsAt ns p op ≠ []
  | .quantifier op => subtreesAt ns p op ≠ []
  | .connective op => p = [] ∧ childrenOf ns op ≠ []
  | .field _ => ∃ n ∈ ns, n.toFields ≠ [] ∧ p ++ [k] <+: n.path

theorem Accounts.of_below {ns : Forest ι} {name k : String} {p : Path}
    (h : Accounts (below name ns) p k) : Accounts ns (name :: p) k := by
  rw [Accounts] at h ⊢
  cases hk : Key.ofString k with
  | comparison op =>
    simp only [hk] at h
    rwa [operandsAt_below] at h
  | quantifier op =>
    simp only [hk] at h
    rwa [subtreesAt_below] at h
  | connective op =>
    simp only [hk] at h
    exact absurd (childrenOf_below ns name op) h.2
  | field l =>
    simp only [hk] at h
    obtain ⟨m, hm, hwritten, hprefix⟩ := h
    obtain ⟨n, hn, hnwritten, hpath⟩ := exists_of_mem_below hm hwritten
    refine ⟨n, hn, hnwritten, ?_⟩
    rw [hpath, List.cons_append, List.cons_prefix_cons]
    exact ⟨rfl, hprefix⟩

theorem accounts_top {ns : Forest ι} (h : IsPlain ns) {k : String}
    (hk : k ∈ Fields.keys (toFields ns)) : Accounts ns [] k := by
  have hget : (toFields ns).get? k ≠ none := fun hnone => Fields.get?_eq_none.mp hnone hk
  have htext := Key.text_ofString k
  rw [Accounts]
  cases hkey : Key.ofString k with
  | comparison op =>
    rw [hkey] at htext
    rw [← htext, Key.text, get?_toFields_comparison h] at hget
    intro hnil
    rw [hnil] at hget
    exact hget rfl
  | quantifier op =>
    rw [hkey] at htext
    rw [← htext, Key.text, get?_toFields_quantifier h] at hget
    intro hnil
    rw [hnil] at hget
    exact hget rfl
  | connective op =>
    rw [hkey] at htext
    refine ⟨rfl, fun hnil => hget ?_⟩
    -- without a node of the connective nothing is held for it
    by_cases hop : op = .not
    · rw [← htext, Key.text, hop, get?_toFields_not h, ← hop, hnil]
      rfl
    · rw [← htext, Key.text, get?_toFields_junction h hop, hnil]
      rfl
  | field l =>
    have hname : (Key.ofString k).isOperator = false := by rw [hkey]; rfl
    rw [get?_toFields_name h hname, Ne, toQuery?_eq_none] at hget
    obtain ⟨m, hm, hwritten⟩ := exists_of_toFields_ne_nil hget
    obtain ⟨n, hn, hnwritten, hpath⟩ := exists_of_mem_below hm hwritten
    refine ⟨n, hn, hnwritten, ?_⟩
    rw [hpath, List.nil_append, List.cons_prefix_cons]
    exact ⟨rfl, List.nil_prefix⟩

/-- A path leads to an object that has each key once, and every key is accounted for. -/
theorem accounts_of_at? {p : Path} (hp : Path.IsPlain p) :
    ∀ {ns : Forest ι} {v : Json}, IsPlain ns → (Json.object (toFields ns)).at? p = some v →
      ∃ fields, v = .object fields ∧ (Fields.keys fields).Nodup ∧
        ∀ k ∈ Fields.keys fields, Accounts ns p k := by
  induction p with
  | nil =>
    intro ns v h hv
    obtain rfl := Option.some.inj hv
    exact ⟨toFields ns, rfl, (regular_toFields h).nodup, fun k hk => accounts_top h hk⟩
  | cons name p ih =>
    intro ns v h hv
    rw [Json.at?, get?_toFields_name h (hp name List.mem_cons_self),
      Option.bind_eq_some_iff] at hv
    obtain ⟨w, hw, hv⟩ := hv
    rw [(toFields_of_toQuery? hw).1] at hv
    obtain ⟨fields, hfields, hn, hall⟩ := ih hp.tail (h.below name) hv
    exact ⟨fields, hfields, hn, fun k hk => (hall k hk).of_below⟩

/-- What is written of a plain forest. At a path of names, a comparison holds the operand of the
last condition that has both, and a quantifier what is written of all its subtrees together. At the
top `$not` holds what is written of all its children together, and `$and` and `$or` hold the items
of the last of their nodes that has any. There is nothing else. -/
theorem at?_toFields (ns : Forest ι) (h : IsPlain ns) :
    (∀ (p : Path) (op : Comparison), Path.IsPlain p →
      (Json.object (toFields ns)).at? (p ++ [op.symbol]) =
        (operandsAt ns p op).getLast?.map Operand.toJson) ∧
    (∀ (p : Path) (op : Quantifier), Path.IsPlain p →
      (Json.object (toFields ns)).at? (p ++ [op.symbol]) = toQuery? (subtreesAt ns p op)) ∧
    (toFields ns).get? Connective.not.symbol = toQuery? (childrenOf ns .not).flatten ∧
    (∀ op : Connective, op ≠ .not →
      (toFields ns).get? op.symbol = ((childrenOf ns op).filterMap toArray?).getLast?) ∧
    (∀ (p : Path) (v : Json), Path.IsPlain p → (Json.object (toFields ns)).at? p = some v →
      ∃ fields, v = .object fields ∧ (Fields.keys fields).Nodup ∧
        ∀ k ∈ Fields.keys fields, Accounts ns p k) :=
  ⟨fun _ op hp => at?_toFields_comparison hp op h, fun _ op hp => at?_toFields_quantifier hp op h,
    get?_toFields_not h, fun _ hop => get?_toFields_junction h hop,
    fun _ _ hp hv => accounts_of_at? hp h hv⟩

/-- Siblings that meet: two conditions on `a` and one below it, two filters on the elements of
`tags`, two negations, and two conjunctions of which the last has no items. -/
def siblings : Tree := [
  .condition 1 ["a"] .eq (.number (.int 1)),
  .condition 2 ["a", "b"] .lt (.number (.int 5)),
  .condition 3 ["a"] .eq (.string "x"),
  .embedded 4 ["tags"] .someElement [.condition 5 [] .eq (.string "u")],
  .logical 6 .and [.logical 7 .or [], .condition 8 ["c"] .isPresent (.bool true)],
  .logical 9 .and [.embedded 10 ["d"] .noElement []],
  .embedded 11 ["tags"] .someElement [.condition 12 ["n"] .gte (.number (.int 2))],
  .logical 13 .not [.condition 14 ["e"] .ne .null],
  .logical 15 .not [.condition 16 [] .ilike (.string "y")]]

theorem at?_toFields_siblings :
    IsPlain siblings ∧
    (Json.object (toFields siblings)).at? (["a"] ++ ["$eq"]) = some (.string "x") ∧
    (Json.object (toFields siblings)).at? (["tags"] ++ ["$some"]) = some (.object [
      ("$eq", .string "u"), ("n", .object [("$gte", .number (.int 2))])]) ∧
    (toFields siblings).get? "$not" = some (.object [
      ("e", .object [("$ne", .null)]), ("$ilike", .string "y")]) ∧
    (toFields siblings).get? "$and" = some (.array [
      .object [("c", .object [("$exists", .bool true)])]]) := by
  have hplain : IsPlain siblings := by decide
  obtain ⟨hcomparison, hquantifier, hnot, hjunction, -⟩ := at?_toFields siblings hplain
  refine ⟨hplain, ?_, ?_, ?_, ?_⟩
  · exact (hcomparison ["a"] .eq (by decide)).trans (by decide)
  · exact (hquantifier ["tags"] .someElement (by decide)).trans (by decide)
  · exact hnot.trans (by decide)
  · exact (hjunction .and (by decide)).trans (by decide)

end Forest

end FilterTree
