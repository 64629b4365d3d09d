import FilterTree.Proofs.Labels
import FilterTree.Proofs.Slots

/-!
# Altering one node

`Forest.alter id f` puts what `f` makes of a node in its place, or drops it, for every node with an
identifier. It takes forests apart at every point (`Forest.alter_append`), unlike the edits, which
go on to search from one place to the next. Where identifiers are distinct the edits are such
alterations (`Forest.modify?_eq_alter`, `Forest.remove?_eq_alter`). What an altered forest writes
does not depend on how its nodes are called (`Forest.toFieldsList_alter_relabel`).
-/

namespace FilterTree

variable {ι κ : Type}

theorem Node.hold_children (n : Node ι) : n.hold n.children = n := by
  cases n <;> rfl

/-- Where identifiers are distinct a node is in one place only. -/
theorem Forest.nodup_cons {n : Node ι} {ns : Forest ι} (h : (Forest.ids (n :: ns)).Nodup) :
    (Forest.ids n.children).Nodup ∧ (Forest.ids ns).Nodup ∧ n.id ∉ Forest.ids ns ∧
      ∀ i ∈ Forest.ids n.children, n.id ≠ i ∧ i ∉ Forest.ids ns := by
  rw [ids_cons, List.nodup_cons, List.nodup_append, List.mem_append, not_or] at h
  obtain ⟨⟨hchild, hnot⟩, hchildren, hns, hdisjoint⟩ := h
  refine ⟨hchildren, hns, hnot, fun i hi => ⟨?_, fun hmem => hdisjoint i hi i hmem rfl⟩⟩
  rintro rfl
  exact hchild hi

section

variable [DecidableEq ι]

mutual

/-- What becomes of a node if `f` is applied to it, or to the nodes in it with an identifier. -/
def Node.alter (id : ι) (f : Node ι → Option (Node ι)) : Node ι → Option (Node ι)
  | .condition i p o v =>
    if i = id then f (.condition i p o v) else some (.condition i p o v)
  | .logical i o ns =>
    if i = id then f (.logical i o ns) else some (.logical i o (Forest.alter id f ns))
  | .embedded i p o ns =>
    if i = id then f (.embedded i p o ns) else some (.embedded i p o (Forest.alter id f ns))

/-- Applies `f` to the nodes with an identifier. Those of which it makes nothing are dropped. -/
def Forest.alter (id : ι) (f : Node ι → Option (Node ι)) : List (Node ι) → Forest ι
  | [] => []
  | n :: ns => (Node.alter id f n).toList ++ Forest.alter id f ns

end

namespace Forest

variable {id : ι} {f : Node ι → Option (Node ι)} {n : Node ι} {ms ns : Forest ι}

theorem alter_cons (id : ι) (f : Node ι → Option (Node ι)) (n : Node ι) (ns : Forest ι) :
    alter id f (n :: ns) =
      (if n.id = id then f n else some (n.hold (alter id f n.children))).toList ++
        alter id f ns := by
  have hn : n.alter id f =
      if n.id = id then f n else some (n.hold (alter id f n.children)) := by
    cases n <;> rfl
  rw [alter, hn]

theorem alter_append (id : ι) (f : Node ι → Option (Node ι)) (ms ns : Forest ι) :
    alter id f (ms ++ ns) = alter id f ms ++ alter id f ns := by
  induction ms with
  | nil => rfl
  | cons m ms ih => rw [List.cons_append, alter_cons, alter_cons, ih, List.append_assoc]

/-- The node itself is altered. -/
theorem alter_self (h : n.id = id) : alter id f [n] = (f n).toList := by
  rw [alter_cons, if_pos h, alter, List.append_nil]

/-- A node inside is altered. -/
theorem alter_inside (h : n.id ≠ id) : alter id f [n] = [n.hold (alter id f n.children)] := by
  rw [alter_cons, if_neg h, alter, List.append_nil]
  rfl

/-- Without a node to alter the forest stays as it is. -/
theorem alter_of_notMem : id ∉ ids ns → alter id f ns = ns := by
  induction ns using Forest.induction with
  | nil => exact fun _ => rfl
  | cons n ns ihn ih =>
    intro h
    obtain ⟨hid, hchildren, hns⟩ := notMem_ids_cons.mp h
    rw [alter_cons, if_neg hid, ihn hchildren, ih hns, Node.hold_children]
    rfl

/-! ## Search -/

/-- Where identifiers are distinct each row is that of the node that is found. -/
theorem exists_find?_of_row {r : Row ι} :
    ∀ parent : Option ι, (ids ns).Nodup → r ∈ rows parent ns →
      ∃ n, find? r.id ns = some n ∧ n.content = r.content := by
  induction ns using Forest.induction with
  | nil => exact fun parent _ hr => absurd hr List.not_mem_nil
  | cons n ns ihn ih =>
    intro parent hnodup hr
    obtain ⟨hchildren, hns, hnot, hdisjoint⟩ := nodup_cons hnodup
    rw [rows, Node.rows_eq, List.mem_append, List.mem_cons] at hr
    rcases hr with (rfl | hr) | hr
    · exact ⟨n, by rw [find?_cons, if_pos rfl], rfl⟩
    · have hid : r.id ∈ ids n.children := id_mem_of_mem_rows hr
      obtain ⟨m, hm, hcontent⟩ := ihn (some n.id) hchildren hr
      refine ⟨m, ?_, hcontent⟩
      rw [find?_cons, if_neg (hdisjoint r.id hid).1, hm, Option.some_or]
    · have hid : r.id ∈ ids ns := id_mem_of_mem_rows hr
      have hchild : r.id ∉ ids n.children := fun hchild => (hdisjoint r.id hchild).2 hid
      obtain ⟨m, hm, hcontent⟩ := ih parent hns hr
      refine ⟨m, ?_, hcontent⟩
      have hne : n.id ≠ r.id := fun heq => hnot (by rw [heq]; exact hid)
      rw [find?_cons, if_neg hne, find?_eq_none_iff.mpr hchild, Option.none_or, hm]

/-! ## Edits as alterations -/

theorem modify?_of_notMem {g : Node ι → Node ι} (h : id ∉ ids ns) : modify? id g ns = none :=
  (modify?_eq_none ns).mpr (find?_eq_none_iff.mpr h)

/-- Replacing the node with an identifier. -/
theorem modify?_eq_alter (g : Node ι → Node ι) :
    (ids ns).Nodup → id ∈ ids ns → modify? id g ns = some (alter id (fun n => some (g n)) ns) := by
  induction ns using Forest.induction with
  | nil => exact fun _ hmem => absurd hmem List.not_mem_nil
  | cons n ns ihn ih =>
    intro hnodup hmem
    obtain ⟨hchildren, hns, hnot, hdisjoint⟩ := nodup_cons hnodup
    rw [modify?_cons, alter_cons]
    by_cases hid : n.id = id
    -- the search ends here, so nothing in the rest may have the identifier
    · rw [if_pos hid, if_pos hid, alter_of_notMem (by rwa [← hid])]
      rfl
    · rw [if_neg hid, if_neg hid]
      rcases (mem_ids_cons.mp hmem).resolve_left hid with hmem | hmem
      · rw [ihn hchildren hmem, alter_of_notMem (hdisjoint id hmem).2]
        rfl
      · have hchild : id ∉ ids n.children := fun hchild => (hdisjoint id hchild).2 hmem
        rw [modify?_of_notMem hchild, ih hns hmem, alter_of_notMem hchild, Node.hold_children]
        rfl

theorem removeRoot?_cons (hid : n.id ≠ id) :
    removeRoot? id (n :: ns) = (removeRoot? id ns).map (n :: ·) := by
  rw [removeRoot?, removeRoot?, List.any_cons, List.eraseP_cons_of_neg (by simpa using hid),
    decide_eq_false hid, Bool.false_or]
  split <;> rfl

/-- Among the roots there is nothing to remove if the node is elsewhere. -/
theorem removeRoot?_of_notMem (h : id ∉ ids ns) : removeRoot? id ns = none := by
  induction ns with
  | nil => rfl
  | cons n ns ih =>
    obtain ⟨hid, -, hns⟩ := notMem_ids_cons.mp h
    rw [removeRoot?_cons hid, ih hns]
    rfl

theorem remove?_of_notMem : id ∉ ids ns → remove? id ns = none := by
  induction ns using Forest.induction with
  | nil => exact fun _ => rfl
  | cons n ns ihn ih =>
    intro h
    obtain ⟨-, hchildren, hns⟩ := notMem_ids_cons.mp h
    have hbelow := ih hns
    rw [remove?_eq, removeRoot?_of_notMem hns, Option.none_or] at hbelow
    rw [remove?_eq, removeRoot?_of_notMem h, removeBelow?_cons, ihn hchildren, hbelow]
    rfl

/-- A node that is not the first root, nor in it, is removed from the rest. -/
theorem remove?_cons (hid : n.id ≠ id) (hchild : id ∉ ids n.children) :
    remove? id (n :: ns) = (remove? id ns).map (n :: ·) := by
  rw [remove?_eq, remove?_eq, removeRoot?_cons hid, removeBelow?_cons, remove?_of_notMem hchild,
    Option.map_none, Option.none_or]
  cases removeRoot? id ns <;> rfl

/-- Removing the node with an identifier. -/
theorem remove?_eq_alter :
    (ids ns).Nodup → id ∈ ids ns → remove? id ns = some (alter id (fun _ => none) ns) := by
  induction ns using Forest.induction with
  | nil => exact fun _ hmem => absurd hmem List.not_mem_nil
  | cons n ns ihn ih =>
    intro hnodup hmem
    obtain ⟨hchildren, hns, hnot, hdisjoint⟩ := nodup_cons hnodup
    rw [alter_cons]
    by_cases hid : n.id = id
    -- roots are looked at first, and only then what is in them
    · have hroot : removeRoot? id (n :: ns) = some ns := by
        rw [removeRoot?, List.any_cons, decide_eq_true hid, Bool.true_or, if_pos rfl,
          List.eraseP_cons_of_pos (by simpa using hid)]
      rw [remove?_eq, hroot, if_pos hid, alter_of_notMem (by rwa [← hid])]
      rfl
    · rw [if_neg hid]
      rcases (mem_ids_cons.mp hmem).resolve_left hid with hmem | hmem
      · have helse : id ∉ ids ns := (hdisjoint id hmem).2
        rw [remove?_eq, removeRoot?_cons hid, removeRoot?_of_notMem helse, Option.map_none,
          Option.none_or, removeBelow?_cons, ihn hchildren hmem, alter_of_notMem helse]
        rfl
      · have hchild : id ∉ ids n.children := fun hchild => (hdisjoint id hchild).2 hmem
        rw [remove?_cons hid hchild, ih hns hmem, alter_of_notMem hchild, Node.hold_children]
        rfl

end Forest

end

/-! ## What is written -/

/-- What a node writes is a matter of its content and of what is written of its children. -/
theorem Node.toFields_hold_congr {m : Node ι} {n : Node κ} {ms : Forest ι} {ns : Forest κ}
    (hcontent : m.content = n.content)
    (h : Forest.toFieldsList ms = Forest.toFieldsList ns) :
    (m.hold ms).toFields = (n.hold ns).toFields := by
  cases m with
  | condition i p o v =>
    cases n with
    | condition j q r w =>
      obtain ⟨rfl, rfl, rfl⟩ := Content.condition.inj hcontent
      rfl
    | logical j r ns => cases hcontent
    | embedded j q r ns => cases hcontent
  | logical i o ms =>
    cases n with
    | condition j q r w => cases hcontent
    | logical j r ns =>
      obtain rfl := Content.logical.inj hcontent
      cases o with
      | not => rw [hold, hold, toFields, toFields, h]
      | and | or => rw [hold, hold, toFields, toFields, h]
    | embedded j q r ns => cases hcontent
  | embedded i p o ms =>
    cases n with
    | condition j q r w => cases hcontent
    | logical j r ns => cases hcontent
    | embedded j q r ns =>
      obtain ⟨rfl, rfl⟩ := Content.embedded.inj hcontent
      rw [hold, hold, toFields, toFields, h]

theorem Node.content_relabel (g : ι → κ) (n : Node ι) : (n.relabel g).content = n.content := by
  cases n <;> rfl

theorem Node.id_relabel (g : ι → κ) (n : Node ι) : (n.relabel g).id = g n.id := by
  cases n <;> rfl

namespace Forest

/-- Labels are not written. -/
theorem toFieldsList_relabel (g : ι → κ) (ns : Forest ι) :
    toFieldsList (relabel g ns) = toFieldsList ns := by
  induction ns using Forest.induction with
  | nil => rfl
  | cons n ns ihn ih =>
    have hn := Node.toFields_hold_congr (n.content_relabel g) ihn
    rw [← Node.children_relabel, Node.hold_children, Node.hold_children] at hn
    rw [relabel, toFieldsList, toFieldsList, hn, ih]

/-- An altered forest writes the same under other labels, if what the node is made into does. -/
theorem toFieldsList_alter_relabel [DecidableEq ι] [DecidableEq κ] {g : ι → κ} {id : ι}
    {f : Node ι → Option (Node ι)} {f' : Node κ → Option (Node κ)}
    (hf : ∀ n, toFieldsList (f' (n.relabel g)).toList = toFieldsList (f n).toList)
    (ns : Forest ι) :
    (∀ i ∈ ids ns, g i = g id → i = id) →
      toFieldsList (alter (g id) f' (relabel g ns)) = toFieldsList (alter id f ns) := by
  induction ns using Forest.induction with
  | nil => exact fun _ => rfl
  | cons n ns ihn ih =>
    intro hinj
    rw [ids_cons] at hinj
    have hns := ih fun i hi => hinj i (List.mem_cons_of_mem _ (List.mem_append_right _ hi))
    rw [relabel, alter_cons, alter_cons, toFieldsList_append, toFieldsList_append, hns,
      Node.id_relabel]
    by_cases hid : n.id = id
    · rw [if_pos hid, if_pos (congrArg g hid), hf]
    · have hchildren := ihn fun i hi =>
        hinj i (List.mem_cons_of_mem _ (List.mem_append_left _ hi))
      have hn := Node.toFields_hold_congr (n.content_relabel g) hchildren
      rw [if_neg hid, if_neg fun h => hid (hinj n.id List.mem_cons_self h), Node.children_relabel,
        Option.toList_some, Option.toList_some, toFieldsList, toFieldsList, hn]
      rfl

end Forest

end FilterTree
