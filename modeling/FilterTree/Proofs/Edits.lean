import FilterTree.Proofs.Correspondence
import FilterTree.Proofs.Entries
import FilterTree.Proofs.Steps

/-!
# Editing the tree is editing the query

What the edits of an editor do to a canonical filter: a condition that is added is one more item, or
is merged in, where its parent is, and one that is updated is another entry in the same place
(`Editor.query?_edit`); a node that is removed is an entry that is deleted, with all that is left
empty by that (`Editor.query?_remove`).
-/

namespace FilterTree

variable {ι : Type}

/-! ## More children -/

namespace Forest

/-- A child that is merged in. -/
theorem toQuery?_concat {ns : Forest ι} {v : Json} (hv : toQuery? ns = some v) (n : Node ι) :
    toQuery? (ns ++ [n]) = some (v.insert n.toFields) := by
  obtain ⟨rfl, hne⟩ := toFields_of_toQuery? hv
  have hconcat := toFields_concat ns n
  rw [toQuery?_of_ne_nil (by rw [hconcat]; exact Fields.merge_ne_nil hne _), hconcat]
  rfl

/-- A child that is one more item. -/
theorem toArray?_concat {ns : Forest ι} {v : Json} (hv : toArray? ns = some v) {n : Node ι}
    (hn : n.toFields ≠ []) : toArray? (ns ++ [n]) = some (v.insert n.toFields) := by
  have hitem : written [n] = [n.toFields] := by
    refine written_of_ne_nil rfl fun o ho => ?_
    rw [List.mem_singleton.mp ho]
    exact hn
  have hwritten : (written (ns ++ [n])).map Json.object =
      (written ns).map Json.object ++ [.object n.toFields] := by
    rw [written_append, hitem, List.map_append]
    rfl
  rw [toArray?] at hv
  split at hv
  · cases hv
  · rw [toArray?_of_written hwritten, Json.unlessEmpty_append_cons, ← Option.some.inj hv]
    rfl

end Forest

/-- A child that is added goes into the value of a container. -/
theorem Node.value?_push {n child : Node ι} (hn : n.isContainer = true) {v : Json}
    (hv : n.value? = some v) (hchild : child.toFields ≠ []) :
    (push child n).value? = some (v.insert child.toFields) := by
  cases n with
  | condition i p o w => exact absurd hn Bool.false_ne_true
  | logical i o ns =>
    cases o with
    | not => exact Forest.toQuery?_concat hv child
    | and | or => exact Forest.toArray?_concat hv hchild
  | embedded i p o ns => exact Forest.toQuery?_concat hv child

/-! ## What nodes and entries are made into -/

namespace Query

variable {k : String}

theorem suits_remove (fields : Fields) (v : Json) (hk : (Key.ofString k).isOperator = true) :
    Suits (fun _ => none) (fun _ => none) fields (k, v) where
  operator := hk
  fits e' he' := by cases he'
  written n _ _ := rfl

theorem suits_compare {fields : Fields} (v : Json) {o : Comparison}
    (hk : Key.ofString k = .comparison o) (op : Comparison) (w : Json)
    (hfresh : op.symbol = k ∨ op.symbol ∉ Fields.keys fields) :
    Suits (fun n => some (n.compare op (.ofJson w))) (fun _ => some (op.symbol, w)) fields
      (k, v) where
  operator := by
    rw [hk]
    rfl
  fits e' he' := by
    rw [← Option.some.inj he', Key.ofString_comparison]
    exact ⟨rfl, hfresh⟩
  written n hkey _ := by
    rw [Node.text_key_eq_iff, hk] at hkey
    cases n with
    | condition i path o' w' =>
      have hvalue : (Node.condition i path op (.ofJson w)).value? = some w :=
        congrArg some (Operand.toJson_ofJson w)
      rw [Option.toList_some, Node.compare, Forest.written_singleton, hvalue]
      rfl
    | logical i o' ns => cases hkey
    | embedded i path o' ns => cases hkey

theorem suits_push (fields : Fields) (v : Json) (hk : (Key.ofString k).isOperator = true)
    (hnot : ∀ o, Key.ofString k ≠ .comparison o) (child : Node Position)
    (hchild : child.toFields ≠ []) :
    Suits (fun n => some (.push child n)) (fun e => some (e.1, e.2.insert child.toFields)) fields
      (k, v) where
  operator := hk
  fits e' he' := by
    rw [← Option.some.inj he']
    exact ⟨hk, Or.inl rfl⟩
  written n hkey hvalue := by
    have hsame : (Node.push child n).key = n.key ∧ (Node.push child n).path = n.path := by
      rw [Node.push_eq_hold, Node.key_hold, Node.path_hold]
      exact ⟨rfl, rfl⟩
    have hn : n.isContainer = true := by
      rw [Node.text_key_eq_iff] at hkey
      cases n with
      | condition i path o w => exact absurd hkey.symm (hnot o)
      | logical i o ns => rfl
      | embedded i path o ns => rfl
    rw [Option.toList_some, Forest.written_singleton, Node.value?_push hn hvalue hchild, hsame.1,
      hsame.2, hkey]
    rfl

/-! ## The same edit under other labels -/

theorem toFieldsList_relabel_singleton {κ : Type} (g : ι → κ) (n : Node ι) :
    Forest.toFieldsList [n.relabel g] = Forest.toFieldsList [n] :=
  Forest.toFieldsList_relabel g [n]

theorem toFieldsList_compare_relabel {κ : Type} (g : ι → κ) (op : Comparison) (w : Operand)
    (n : Node ι) :
    Forest.toFieldsList [(n.relabel g).compare op w] = Forest.toFieldsList [n.compare op w] := by
  have hcompare : (n.relabel g).compare op w = (n.compare op w).relabel g := by
    cases n <;> rfl
  rw [hcompare, toFieldsList_relabel_singleton]

theorem toFieldsList_push_relabel {κ : Type} (g : ι → κ) {c : Node ι} {c' : Node κ}
    (hc : c'.toFields = c.toFields) (n : Node ι) :
    Forest.toFieldsList [Node.push c' (n.relabel g)] = Forest.toFieldsList [Node.push c n] := by
  have hchildren : Forest.toFieldsList ((n.relabel g).children ++ [c']) =
      Forest.toFieldsList (n.children ++ [c]) := by
    rw [Node.children_relabel, Forest.toFieldsList_append, Forest.toFieldsList_append,
      Forest.toFieldsList_relabel, Forest.toFieldsList_singleton, Forest.toFieldsList_singleton, hc]
  rw [Node.push_eq_hold, Node.push_eq_hold, Forest.toFieldsList_singleton,
    Forest.toFieldsList_singleton, Node.toFields_hold_congr (n.content_relabel g) hchildren]

/-- Altering the node of an entry in the tree is editing the entry. -/
theorem toQuery?_alter_toTree {q : Json} (hd : q.DistinctKeys)
    (hq : isFilter .canonical q = true) {id : NodeId} {p : Position} {fields : Fields} {v : Json}
    (hentry : IsEntry q id p fields (k, v)) {f : Node Position → Option (Node Position)}
    {g : String × Json → Option (String × Json)} (hsuits : Suits f g fields (k, v))
    (f' : Node NodeId → Option (Node NodeId))
    (hf : ∀ n, Forest.toFieldsList (f' (n.relabel (nodeId 1 q))).toList =
      Forest.toFieldsList (f n).toList) :
    Forest.toQuery? (Forest.alter id f' (toTree 1 q)) = Json.splice g p q := by
  have hsame : Forest.toFieldsList (Forest.alter id f' (toTree 1 q)) =
      Forest.toFieldsList (Forest.alter p f (located [] [] q)) := by
    rw [hentry.id_eq, toTree_eq_relabel]
    exact Forest.toFieldsList_alter_relabel hf _ fun i hi heq =>
      eq_of_nodeId_eq (mem_ids_located.mp hi) heq
  rw [Forest.toQuery?, Forest.toFields, hsame]
  exact toQuery?_alter_located (hentry.entryAt hsuits) hq hd

end Query

/-! ## The editor -/

namespace Editor

open Query (IsEntry)

theorem checkValue_ofQuery (q : Json) (op : Comparison) (w : Operand) :
    (ofQuery q).checkValue op w = .ok () := rfl

/-- A new editor updates every condition. -/
theorem update_ofQuery {q : Json} {id : NodeId} {n : Node NodeId}
    (hn : Forest.find? id (Query.toTree 1 q) = some n) (hkind : n.kind = .condition)
    (op : Comparison) (w : Operand) :
    (ofQuery q).update id op w =
      .ok () { ofQuery q with tree := Forest.modify id (Node.compare op w) (Query.toTree 1 q) } := by
  have hnode : (ofQuery q).checkCondition id = .ok () :=
    checkCondition_eq_ok_iff.mpr ⟨n, hn, hkind⟩
  rw [update_eq, checkValue_ofQuery, hnode]
  rfl

/-- A new editor adds conditions to every container. -/
theorem addCondition_ofQuery {q : Json} {id : NodeId} {n : Node NodeId}
    (hn : Forest.find? id (Query.toTree 1 q) = some n) (hcontainer : n.isContainer = true)
    (path : Path) (op : Comparison) (w : Operand) :
    ∃ new e, (ofQuery q).addCondition path op w (some id) = .ok new e ∧
      e.tree = Forest.modify id (Node.push (.condition new path op w)) (Query.toTree 1 q) := by
  have hparent : (ofQuery q).checkParent (some id) = .ok () :=
    checkParent_eq_ok_iff.mpr fun i hi => ⟨n, Option.some.inj hi ▸ hn, hcontainer⟩
  refine ⟨(ofQuery q).nextId,
    { ofQuery q with
      tree := Forest.modify id (Node.push (.condition (ofQuery q).nextId path op w))
        (Query.toTree 1 q)
      nextId := (ofQuery q).nextId + 1 }, ?_, rfl⟩
  rw [addCondition_eq, checkValue_ofQuery]
  change (ofQuery q).attach (some id) (fun new => .condition new path op w) = _
  rw [attach_eq, hparent]
  rfl

/-- The node of a comparison is a condition. -/
theorem kind_of_content {path : Path} {k : String} {v : Json} {n : Node NodeId} {o : Comparison}
    (hk : Key.ofString k = .comparison o) (h : Query.content? path k v = some n.content) :
    n.kind = .condition := by
  rw [Query.content?, hk] at h
  cases n with
  | condition i p o' w => rfl
  | logical i o' ns => cases h
  | embedded i p o' ns => cases h

/-- The nodes of connectives and quantifiers are containers. -/
theorem isContainer_of_content {path : Path} {k : String} {v : Json} {n : Node NodeId}
    (hk : ∀ o, Key.ofString k ≠ .comparison o)
    (h : Query.content? path k v = some n.content) : n.isContainer = true := by
  cases n with
  | condition i p o' w =>
    rw [Query.content?] at h
    cases hkey : Key.ofString k with
    | comparison o => exact absurd hkey (hk o)
    | connective o | quantifier o | field name =>
      rw [hkey] at h
      cases h
  | logical i o' ns => rfl
  | embedded i p o' ns => rfl

section

variable {q : Json} {id : NodeId} {p : Position} {fields : Fields} {k : String} {v : Json}

theorem modify_toTree (h : IsEntry q id p fields (k, v)) (f : Node NodeId → Node NodeId) :
    Forest.modify id f (Query.toTree 1 q) =
      Forest.alter id (fun n => some (f n)) (Query.toTree 1 q) := by
  rw [Forest.modify, Forest.modify?_eq_alter f (Query.nodup_ids_toTree 1 q) h.mem_ids]
  rfl

/-- Removing a node deletes the entry. -/
theorem query?_remove_entry (hd : q.DistinctKeys) (hq : Query.isFilter .canonical q = true)
    (h : IsEntry q id p fields (k, v)) :
    ((ofQuery q).remove id).1 = true ∧
      ((ofQuery q).remove id).2.query? = q.splice (fun _ => none) p := by
  have htree : (ofQuery q).tree = Query.toTree 1 q := rfl
  have hsuits := Query.suits_remove fields v h.reads.seek?_key.2
  rw [remove, htree, Forest.remove?_eq_alter (Query.nodup_ids_toTree 1 q) h.mem_ids]
  exact ⟨rfl, Query.toQuery?_alter_toTree hd hq h hsuits (fun _ => none) fun _ => rfl⟩

/-- Updating a condition puts another entry in the place of its own. -/
theorem query?_update (hd : q.DistinctKeys) (hq : Query.isFilter .canonical q = true)
    (h : IsEntry q id p fields (k, v)) {o : Comparison} (hk : Key.ofString k = .comparison o)
    {op : Comparison} (hfresh : op.symbol = k ∨ op.symbol ∉ Fields.keys fields) (w : Json) :
    ∃ e, (ofQuery q).update id op (.ofJson w) = .ok () e ∧
      e.query? = some (q.mapEntry (fun _ => (op.symbol, w)) p) := by
  obtain ⟨n, path, hn, hcontent⟩ := h.exists_find?
  have hkind := kind_of_content hk hcontent
  have hsuits := Query.suits_compare v hk op w hfresh
  refine ⟨_, update_ofQuery hn hkind op (.ofJson w), ?_⟩
  change Forest.toQuery? (Forest.modify id (Node.compare op (.ofJson w)) (Query.toTree 1 q)) = _
  rw [modify_toTree h, Query.toQuery?_alter_toTree hd hq h hsuits
    (fun n => some (Node.compare op (.ofJson w) n))
    (Query.toFieldsList_compare_relabel _ op (.ofJson w))]
  exact Query.splice_some (h.entryAt hsuits)

/-- Adding a condition to a container adds an object to the value of its entry. -/
theorem query?_addCondition (hd : q.DistinctKeys) (hq : Query.isFilter .canonical q = true)
    (h : IsEntry q id p fields (k, v)) (hk : ∀ o, Key.ofString k ≠ .comparison o) (path : Path)
    (op : Comparison) (w : Json) :
    ∃ new e, (ofQuery q).addCondition path op (.ofJson w) (some id) = .ok new e ∧
      e.query? = some
        (q.mapEntry (fun f => (f.1, f.2.insert (Fields.nest path [(op.symbol, w)]))) p) := by
  obtain ⟨n, path', hn, hcontent⟩ := h.exists_find?
  have hcontainer := isContainer_of_content hk hcontent
  obtain ⟨new, e, hadd, htree⟩ :=
    addCondition_ofQuery hn hcontainer path op (.ofJson w)
  -- what the new condition writes does not depend on the identifier it gets
  have hfields : ∀ {ι : Type} (i : ι), (Node.condition i path op (.ofJson w)).toFields =
      Fields.nest path [(op.symbol, w)] := by
    intro ι i
    rw [Node.toFields, Operand.toJson_ofJson]
  have hsuits := Query.suits_push fields v h.reads.seek?_key.2 hk
    (.condition [] path op (.ofJson w)) (by rw [hfields]; exact Node.nest_ne_nil _ _)
  rw [hfields] at hsuits
  refine ⟨new, e, hadd, ?_⟩
  rw [query?, htree, modify_toTree h, Query.toQuery?_alter_toTree hd hq h hsuits
    (fun n => some (Node.push (.condition new path op (.ofJson w)) n))
    (Query.toFieldsList_push_relabel _ (by rw [hfields, hfields]))]
  exact Query.splice_some (h.entryAt hsuits)

end

/-- Adding a condition to the tree adds an object to the query. -/
theorem query?_addCondition_root {q : Json} (hd : q.DistinctKeys)
    (hq : Query.isFilter .canonical q = true) (path : Path) (op : Comparison) (w : Json) :
    ∃ new e, (ofQuery q).addCondition path op (.ofJson w) none = .ok new e ∧
      e.query? = some (q.insert (Fields.nest path [(op.symbol, w)])) := by
  have htree : Forest.toQuery? (Query.toTree 1 q) = some q := by
    rw [Query.toQuery?_toTree 1 hd hq, Query.flatten_canonical q hq]
  have hfields : (Node.condition (ofQuery q).nextId path op (.ofJson w)).toFields =
      Fields.nest path [(op.symbol, w)] := by
    rw [Node.toFields, Operand.toJson_ofJson]
  refine ⟨(ofQuery q).nextId, _, rfl, ?_⟩
  rw [← hfields]
  exact Forest.toQuery?_concat htree _

/-- The third node of `Query.ofAllKinds` is the `$or`. -/
theorem isEntry_ofAllKinds_or :
    IsEntry Query.ofAllKinds 3 [0, 1, 0]
      [("$or", .array [.object [("c", .object [("$eq", .null)])]])]
      ("$or", .array [.object [("c", .object [("$eq", .null)])]]) :=
  Query.isEntry_of_nodeId_eq [0, 1] 0 (by decide) (by decide) rfl rfl

/-- The fourth node of `Query.ofAllKinds` is the condition on `c` in the `$or`. -/
theorem isEntry_ofAllKinds :
    IsEntry Query.ofAllKinds 4 [0, 1, 0, 0, 0, 0] [("$eq", .null)] ("$eq", .null) :=
  Query.isEntry_of_nodeId_eq [0, 1, 0, 0, 0] 0 (by decide) (by decide) rfl rfl

/-- The ninth node of `Query.ofAllKinds` is the filter on the elements of `tags`. -/
theorem isEntry_ofAllKinds_some :
    IsEntry Query.ofAllKinds 9 [2, 0]
      [("$some", .object [("name", .object [("$in", .array [.string "u", .string "v"])])])]
      ("$some", .object [("name", .object [("$in", .array [.string "u", .string "v"])])]) :=
  Query.isEntry_of_nodeId_eq [2] 0 (by decide) (by decide) rfl rfl

/-- Editing the tree of a canonical filter and writing it is editing the filter in place. A
condition that is added as a root is merged in. One that is updated gets another entry in the same
place, if that has the same key or a new one. One that is added to a container is one more item of
an array, or is merged into an object. -/
theorem query?_edit (q : Json) (hd : q.DistinctKeys) (hq : Query.isFilter .canonical q = true) :
    (∀ (path : Path) (op : Comparison) (w : Json), ∃ new e,
      (ofQuery q).addCondition path op (.ofJson w) none = .ok new e ∧
        e.query? = some (q.insert (Fields.nest path [(op.symbol, w)]))) ∧
    ∀ id ∈ (ofQuery q).ids,
      (∃ p fields entry, IsEntry q id p fields entry) ∧
      ∀ p fields k v, IsEntry q id p fields (k, v) →
        ((∃ o, Key.ofString k = .comparison o) →
          ∀ (op : Comparison) (w : Json), op.symbol = k ∨ op.symbol ∉ Fields.keys fields →
            ∃ e, (ofQuery q).update id op (.ofJson w) = .ok () e ∧
              e.query? = some (q.mapEntry (fun _ => (op.symbol, w)) p)) ∧
        ((∀ o, Key.ofString k ≠ .comparison o) →
          ∀ (path : Path) (op : Comparison) (w : Json), ∃ new e,
            (ofQuery q).addCondition path op (.ofJson w) (some id) = .ok new e ∧
              e.query? = some
                (q.mapEntry (fun f => (f.1, f.2.insert (Fields.nest path [(op.symbol, w)]))) p)) := by
  refine ⟨query?_addCondition_root hd hq, fun id hid => ⟨Query.exists_isEntry hid, ?_⟩⟩
  intro p fields k v hentry
  constructor
  · rintro ⟨o, hk⟩ op w hfresh
    exact query?_update hd hq hentry hk hfresh w
  · intro hk path op w
    exact query?_addCondition hd hq hentry hk path op w

/-- A root `h`, `$ne` in place of `$eq` in the fourth node, one more item of the `$or`, and a second
comparison of `name` in the filter on the elements of `tags`. -/
theorem query?_edit_ofAllKinds :
    Query.ofAllKinds.DistinctKeys ∧ Query.isFilter .canonical Query.ofAllKinds = true ∧
      (∃ new e,
        (ofQuery Query.ofAllKinds).addCondition ["h"] .eq (.ofJson .null) none = .ok new e ∧
          e.query? = some (Query.ofAllKinds.insert [("h", .object [("$eq", .null)])])) ∧
      4 ∈ (ofQuery Query.ofAllKinds).ids ∧
      IsEntry Query.ofAllKinds 4 [0, 1, 0, 0, 0, 0] [("$eq", .null)] ("$eq", .null) ∧
      Key.ofString "$eq" = .comparison .eq ∧ "$ne" ∉ Fields.keys [("$eq", .null)] ∧
      (∃ e, (ofQuery Query.ofAllKinds).update 4 .ne (.ofJson (.bool true)) = .ok () e ∧
        e.query? = some (Query.ofAllKinds.mapEntry (fun _ => ("$ne", .bool true))
          [0, 1, 0, 0, 0, 0])) ∧
      3 ∈ (ofQuery Query.ofAllKinds).ids ∧ Key.ofString "$or" = .connective .or ∧
      (∃ new e, (ofQuery Query.ofAllKinds).addCondition ["a", "b"] .lt
          (.ofJson (.number (.int 9))) (some 3) = .ok new e ∧
        e.query? = some (Query.ofAllKinds.mapEntry
          (fun f => (f.1, f.2.insert
            [("a", .object [("b", .object [("$lt", .number (.int 9))])])])) [0, 1, 0])) ∧
      9 ∈ (ofQuery Query.ofAllKinds).ids ∧ Key.ofString "$some" = .quantifier .someElement ∧
      ∃ new e, (ofQuery Query.ofAllKinds).addCondition ["name"] .ne (.ofJson (.string "w"))
          (some 9) = .ok new e ∧
        e.query? = some (.object [
          ("$and", .array [
            .object [("a", .object [("b", .object [("$gte", .number (.int 1))])])],
            .object [("$or", .array [.object [("c", .object [("$eq", .null)])]])]]),
          ("$not", .object [
            ("d", .object [("$lt", .number (.int 5)), ("$gt", .number (.int 2))]),
            ("e", .object [("f", .object [("$ne", .string "g")])])]),
          ("tags", .object [
            ("$some", .object [("name", .object [
              ("$in", .array [.string "u", .string "v"]), ("$ne", .string "w")])])])]) := by
  have hd : Query.ofAllKinds.DistinctKeys := by decide
  have hq : Query.isFilter .canonical Query.ofAllKinds = true := by decide
  have hfour : 4 ∈ (ofQuery Query.ofAllKinds).ids := by decide
  have hthree : 3 ∈ (ofQuery Query.ofAllKinds).ids := by decide
  have hnine : 9 ∈ (ofQuery Query.ofAllKinds).ids := by decide
  have heq : Key.ofString "$eq" = .comparison .eq := by decide
  have hor : Key.ofString "$or" = .connective .or := by decide
  have hsome : Key.ofString "$some" = .quantifier .someElement := by decide
  have hfresh : "$ne" ∉ Fields.keys [("$eq", .null)] := by decide
  obtain ⟨hroot, hedit⟩ := query?_edit Query.ofAllKinds hd hq
  have hupdate := ((hedit 4 hfour).2 _ _ _ _ isEntry_ofAllKinds).1 ⟨.eq, heq⟩ .ne (.bool true)
    (Or.inr hfresh)
  have hitem := ((hedit 3 hthree).2 _ _ _ _ isEntry_ofAllKinds_or).2
    (fun o ho => by rw [hor] at ho; cases ho) ["a", "b"] .lt (.number (.int 9))
  have hmerged := ((hedit 9 hnine).2 _ _ _ _ isEntry_ofAllKinds_some).2
    (fun o ho => by rw [hsome] at ho; cases ho) ["name"] .ne (.string "w")
  refine ⟨hd, hq, hroot ["h"] .eq .null, hfour, isEntry_ofAllKinds, heq, hfresh, hupdate, hthree,
    hor, hitem, hnine, hsome, ?_⟩
  obtain ⟨new, e, hadd, hquery⟩ := hmerged
  refine ⟨new, e, hadd, ?_⟩
  rw [hquery]
  decide

/-- Removing a node of the tree of a canonical filter and writing the rest is deleting its entry,
and with it, from the inside out, each object and each array that is left empty. Nothing else
changes. -/
theorem query?_remove (q : Json) (hd : q.DistinctKeys) (hq : Query.isFilter .canonical q = true) :
    ∀ id ∈ (ofQuery q).ids,
      (∃ p fields entry, IsEntry q id p fields entry) ∧
      ∀ p fields entry, IsEntry q id p fields entry →
        ((ofQuery q).remove id).1 = true ∧
          ((ofQuery q).remove id).2.query? = q.splice (fun _ => none) p := by
  intro id hid
  refine ⟨Query.exists_isEntry hid, ?_⟩
  rintro p fields ⟨k, v⟩ hentry
  exact query?_remove_entry hd hq hentry

/-- With its only condition the `$or` goes, and the item that it was. -/
theorem query?_remove_ofAllKinds :
    Query.ofAllKinds.DistinctKeys ∧ Query.isFilter .canonical Query.ofAllKinds = true ∧
      4 ∈ (ofQuery Query.ofAllKinds).ids ∧
      IsEntry Query.ofAllKinds 4 [0, 1, 0, 0, 0, 0] [("$eq", .null)] ("$eq", .null) ∧
      ((ofQuery Query.ofAllKinds).remove 4).2.query? = some (.object [
        ("$and", .array [.object [("a", .object [("b", .object [("$gte", .number (.int 1))])])]]),
        ("$not", .object [
          ("d", .object [("$lt", .number (.int 5)), ("$gt", .number (.int 2))]),
          ("e", .object [("f", .object [("$ne", .string "g")])])]),
        ("tags", .object [
          ("$some", .object [
            ("name", .object [("$in", .array [.string "u", .string "v"])])])])]) := by
  have hd : Query.ofAllKinds.DistinctKeys := by decide
  have hq : Query.isFilter .canonical Query.ofAllKinds = true := by decide
  have hid : 4 ∈ (ofQuery Query.ofAllKinds).ids := by decide
  have hremove := ((query?_remove Query.ofAllKinds hd hq 4 hid).2 _ _ _ isEntry_ofAllKinds).2
  refine ⟨hd, hq, hid, isEntry_ofAllKinds, ?_⟩
  rw [hremove]
  decide

end Editor

end FilterTree
