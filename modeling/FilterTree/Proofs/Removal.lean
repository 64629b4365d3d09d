import FilterTree.Proofs.Rewriting
import FilterTree.Proofs.Undoing

/-!
# Removal as a filter

`Forest.without names` drops the nodes with the given names, and with each of them all that is in
it. Filters add up (`Forest.without_without`) and look at no order, so neither does a list of
removals (`Editor.run_remove`), though some of the names may be inside others, repeated or not there
at all.
-/

namespace FilterTree

variable {ι : Type} [DecidableEq ι]

mutual

/-- Drops the named nodes that are in a node. -/
def Node.without (names : List ι) : Node ι → Node ι
  | .condition i p o v => .condition i p o v
  | .logical i o ns => .logical i o (Forest.without names ns)
  | .embedded i p o ns => .embedded i p o (Forest.without names ns)

/-- Drops the named nodes of a forest and everything in them. The others stay in their order. -/
def Forest.without (names : List ι) : List (Node ι) → Forest ι
  | [] => []
  | n :: ns =>
    if n.id ∈ names then Forest.without names ns
    else Node.without names n :: Forest.without names ns

end

namespace Node

variable (names : List ι) (n : Node ι)

theorem without_eq_hold : n.without names = n.hold (Forest.without names n.children) := by
  cases n <;> rfl

theorem id_without : (n.without names).id = n.id := by
  cases n <;> rfl

theorem children_without : (n.without names).children = Forest.without names n.children := by
  cases n <;> rfl

end Node

namespace Forest

variable {id : ι} {n : Node ι} {ns : Forest ι} {names : List ι}

theorem without_cons_of_mem (h : n.id ∈ names) (ns : Forest ι) :
    without names (n :: ns) = without names ns := by
  rw [without, if_pos h]

theorem without_cons_of_notMem (h : n.id ∉ names) (ns : Forest ι) :
    without names (n :: ns) = n.without names :: without names ns := by
  rw [without, if_neg h]

/-! ## Filters -/

/-- If none of the names is there all nodes stay. -/
theorem without_of_disjoint : (∀ i ∈ ids ns, i ∉ names) → without names ns = ns := by
  induction ns using Forest.induction with
  | nil => exact fun _ => rfl
  | cons n ns ihn ih =>
    intro h
    have hself := h n.id (mem_ids_cons.mpr (Or.inl rfl))
    have hchildren := ihn fun i hi => h i (mem_ids_cons.mpr (Or.inr (Or.inl hi)))
    have hns := ih fun i hi => h i (mem_ids_cons.mpr (Or.inr (Or.inr hi)))
    rw [without_cons_of_notMem hself, Node.without_eq_hold, hchildren, hns, Node.hold_children]

/-- One filter after another is one filter. -/
theorem without_without (names more : List ι) (ns : Forest ι) :
    without more (without names ns) = without (names ++ more) ns := by
  induction ns using Forest.induction with
  | nil => rfl
  | cons n ns ihn ih =>
    by_cases hnames : n.id ∈ names
    · rw [without_cons_of_mem hnames, without_cons_of_mem (List.mem_append_left _ hnames), ih]
    · rw [without_cons_of_notMem hnames]
      by_cases hmore : n.id ∈ more
      · have hmem : n.id ∈ names ++ more := List.mem_append_right _ hmore
        rw [← n.id_without names] at hmore
        rw [without_cons_of_mem hmore, without_cons_of_mem hmem, ih]
      · have hnot : n.id ∉ names ++ more := by
          rw [List.mem_append, not_or]
          exact ⟨hnames, hmore⟩
        rw [← n.id_without names] at hmore
        rw [without_cons_of_notMem hmore, without_cons_of_notMem hnot, ih, Node.without_eq_hold more,
          Node.children_without, ihn, n.without_eq_hold names, n.without_eq_hold (names ++ more)]
        cases n <;> rfl

/-- The order of the names does not matter, nor does it matter how often one is given. -/
theorem without_congr {names' : List ι} (h : ∀ i, i ∈ names ↔ i ∈ names') (ns : Forest ι) :
    without names ns = without names' ns := by
  induction ns using Forest.induction with
  | nil => rfl
  | cons n ns ihn ih =>
    by_cases hmem : n.id ∈ names
    · rw [without_cons_of_mem hmem, without_cons_of_mem ((h n.id).mp hmem), ih]
    · rw [without_cons_of_notMem hmem, without_cons_of_notMem fun h' => hmem ((h n.id).mpr h'),
        Node.without_eq_hold, Node.without_eq_hold, ihn, ih]

/-- Dropping what has one name is a filter. -/
theorem alter_none_eq_without (id : ι) (ns : Forest ι) :
    alter id (fun _ => none) ns = without [id] ns := by
  induction ns using Forest.induction with
  | nil => rfl
  | cons n ns ihn ih =>
    rw [alter_cons, ihn, ih]
    by_cases hid : n.id = id
    · rw [if_pos hid, without_cons_of_mem (List.mem_singleton.mpr hid)]
      rfl
    · rw [if_neg hid, without_cons_of_notMem fun h => hid (List.mem_singleton.mp h),
        Node.without_eq_hold]
      rfl

/-! ## What stays -/

theorem ids_without_subset (names : List ι) (ns : Forest ι) :
    ids (without names ns) ⊆ ids ns := by
  induction ns using Forest.induction with
  | nil => exact List.Subset.refl _
  | cons n ns ihn ih =>
    rw [ids_cons]
    by_cases hmem : n.id ∈ names
    · rw [without_cons_of_mem hmem]
      exact List.subset_cons_of_subset _ (List.subset_append_of_subset_right _ ih)
    · rw [without_cons_of_notMem hmem, ids_cons, Node.id_without, Node.children_without]
      apply List.cons_subset_cons
      apply List.append_subset.mpr
      constructor
      · exact List.subset_append_of_subset_left _ ihn
      · exact List.subset_append_of_subset_right _ ih

/-- Where identifiers are distinct, those of the node that is found are a stretch of them all, and
the others are what is left without it. -/
theorem exists_ids_without :
    (ids ns).Nodup → find? id ns = some n →
      ∃ front back, ids ns = front ++ ids [n] ++ back ∧ ids (without [id] ns) = front ++ back := by
  induction ns using Forest.induction with
  | nil =>
    intro _ hn
    cases hn
  | cons m ns ihm ih =>
    intro hnodup hn
    obtain ⟨hchildren, hns, hnot, hdisjoint⟩ := nodup_cons hnodup
    have hkeep : ∀ ls : Forest ι, id ∉ ids ls → without [id] ls = ls := fun ls hid =>
      without_of_disjoint fun j hj hmem => hid (List.mem_singleton.mp hmem ▸ hj)
    rw [find?_cons] at hn
    by_cases hid : m.id = id
    · rw [if_pos hid] at hn
      obtain rfl := Option.some.inj hn
      refine ⟨[], ids ns, ?_, ?_⟩
      · rw [ids_cons, ids_singleton, List.nil_append, List.cons_append]
      · rw [without_cons_of_mem (List.mem_singleton.mpr hid), hkeep ns (hid ▸ hnot),
          List.nil_append]
    · rw [if_neg hid] at hn
      rw [without_cons_of_notMem fun h => hid (List.mem_singleton.mp h), ids_cons m ns,
        ids_cons (m.without [id]), Node.id_without, Node.children_without]
      rcases Option.or_eq_some_iff.mp hn with hn | ⟨hnone, hn⟩
      -- the node is among the children, or else among the right siblings
      · obtain ⟨front, back, hall, hrest⟩ := ihm hchildren hn
        have hmem : id ∈ ids m.children := mem_ids_of_find? hn
        refine ⟨m.id :: front, back ++ ids ns, ?_, ?_⟩
        · simp only [hall, List.append_assoc, List.cons_append]
        · rw [hrest, hkeep ns (hdisjoint id hmem).2, List.append_assoc, List.cons_append]
      · obtain ⟨front, back, hall, hrest⟩ := ih hns hn
        refine ⟨m.id :: (ids m.children ++ front), back, ?_, ?_⟩
        · simp only [hall, List.append_assoc, List.cons_append]
        · rw [hrest, hkeep m.children (find?_eq_none_iff.mp hnone), List.cons_append,
            List.append_assoc]

/-- Where identifiers are distinct all stay that are not in the dropped node. -/
theorem mem_ids_without_iff (hnodup : (ids ns).Nodup) (hn : find? id ns = some n) {i : ι} :
    i ∈ ids (without [id] ns) ↔ i ∈ ids ns ∧ i ∉ ids [n] := by
  obtain ⟨front, back, hall, hrest⟩ := exists_ids_without hnodup hn
  rw [hall, List.nodup_append, List.nodup_append] at hnodup
  obtain ⟨⟨-, -, hfront⟩, -, hback⟩ := hnodup
  rw [hall, hrest]
  simp only [List.mem_append]
  constructor
  · rintro (hi | hi)
    · exact ⟨Or.inl (Or.inl hi), fun hmem => hfront i hi i hmem rfl⟩
    · exact ⟨Or.inr hi, fun hmem => hback i (List.mem_append_right _ hmem) i hi rfl⟩
  · rintro ⟨(hi | hi) | hi, hnot⟩
    · exact Or.inl hi
    · exact absurd hi hnot
    · exact Or.inr hi

/-- A node that stays is found as before, without what was dropped inside. -/
theorem find?_without {i : ι} :
    (ids ns).Nodup → i ∈ ids (without names ns) →
      find? i (without names ns) = (find? i ns).map (Node.without names) := by
  induction ns using Forest.induction with
  | nil => exact fun _ hi => absurd hi List.not_mem_nil
  | cons m ns ihm ih =>
    intro hnodup hi
    obtain ⟨hchildren, hns, hnot, hdisjoint⟩ := nodup_cons hnodup
    by_cases hmem : m.id ∈ names
    · rw [without_cons_of_mem hmem] at hi ⊢
      have hright := ids_without_subset names ns hi
      have hself : m.id ≠ i := fun heq => hnot (heq ▸ hright)
      have hleft : i ∉ ids m.children := fun h => (hdisjoint i h).2 hright
      rw [find?_cons, if_neg hself, find?_eq_none_iff.mpr hleft, Option.none_or, ih hns hi]
    · rw [without_cons_of_notMem hmem] at hi ⊢
      rw [find?_cons, find?_cons, Node.id_without, Node.children_without]
      by_cases hself : m.id = i
      · rw [if_pos hself, if_pos hself]
        rfl
      · rw [if_neg hself, if_neg hself]
        rw [mem_ids_cons, Node.id_without, Node.children_without] at hi
        rcases hi.resolve_left hself with hi | hi
        · obtain ⟨m', hm'⟩ : ∃ m', find? i m.children = some m' := by
            rw [← Option.ne_none_iff_exists']
            exact fun hnone => find?_eq_none_iff.mp hnone (ids_without_subset names _ hi)
          rw [ihm hchildren hi, hm', Option.some_or]
          rfl
        · have hleft : i ∉ ids m.children := fun h =>
            (hdisjoint i h).2 (ids_without_subset names _ hi)
          have hleft' : i ∉ ids (without names m.children) := fun h =>
            hleft (ids_without_subset names _ h)
          rw [find?_eq_none_iff.mpr hleft, find?_eq_none_iff.mpr hleft', Option.none_or,
            Option.none_or, ih hns hi]

end Forest

namespace Editor

variable {e : Editor}

/-! ## Removals from an editor -/

theorem remove_eq_without (hv : e.Valid) (id : NodeId) :
    (e.remove id).2 = { e with tree := Forest.without [id] e.tree } := by
  have htree := tree_remove hv id
  rw [Forest.alter_none_eq_without] at htree
  rw [remove] at htree ⊢
  cases hremove : Forest.remove? id e.tree with
  | none =>
    simp only [hremove] at htree
    simp only [← htree]
  | some tree =>
    simp only [hremove] at htree
    simp only [htree]

/-- A list of removals is one filter. -/
theorem run_remove (hv : e.Valid) (names : List NodeId) :
    e.run (names.map .remove) = { e with tree := Forest.without names e.tree } := by
  induction names generalizing e with
  | nil =>
    rw [Forest.without_of_disjoint fun i _ => List.not_mem_nil]
    rfl
  | cons id names ih =>
    have hstep : e.step (.remove id) = { e with tree := Forest.without [id] e.tree } :=
      remove_eq_without hv id
    have hrest := ih ((change_step e (.remove id)).valid hv)
    rw [hstep] at hrest
    change (e.step (.remove id)).run (names.map .remove) = _
    rw [hstep, hrest, Forest.without_without]
    rfl

/-- There is something to remove if the identifier is in the tree. -/
theorem remove_fst_iff (hv : e.Valid) {id : NodeId} : (e.remove id).1 = true ↔ id ∈ e.ids := by
  rw [remove]
  by_cases hmem : id ∈ e.ids
  · rw [Forest.remove?_eq_alter hv.nodup hmem]
    exact iff_of_true rfl hmem
  · rw [Forest.remove?_of_notMem hmem]
    exact iff_of_false Bool.false_ne_true hmem

/-- What is found after a removal. -/
theorem find?_remove (hv : e.Valid) {id : NodeId} {n : Node NodeId} (hn : e.find? id = some n)
    (i : NodeId) :
    (e.remove id).2.find? i =
      if i ∈ Forest.ids [n] then none else (e.find? i).map (Node.without [id]) := by
  have hstays := Forest.mem_ids_without_iff hv.nodup hn (i := i)
  rw [remove_eq_without hv, find?]
  by_cases hi : i ∈ Forest.ids (Forest.without [id] e.tree)
  · rw [if_neg (hstays.mp hi).2]
    exact Forest.find?_without hv.nodup hi
  · rw [Forest.find?_eq_none_iff.mpr hi]
    by_cases hdropped : i ∈ Forest.ids [n]
    · rw [if_pos hdropped]
    · have habsent : i ∉ e.ids := fun hmem => hi (hstays.mpr ⟨hmem, hdropped⟩)
      rw [if_neg hdropped, find?, Forest.find?_eq_none_iff.mpr habsent]
      rfl

/-- In every state that a run leads to: removing nodes one after another, in any order, takes out of
the tree those that are listed, with everything in them, and nothing else. One removal answers
whether the identifier was there. If not, nothing happens; if so, it is no longer found, nor is any
identifier that was below it, and every other node is found as before. -/
theorem removals_of_reachable (h : e.Reachable) :
    (∀ names order : List NodeId, order.Perm names →
      e.run (order.map .remove) = { e with tree := Forest.without names e.tree }) ∧
    ∀ id, ((e.remove id).1 = true ↔ id ∈ e.ids) ∧
      ((e.remove id).1 = false → (e.remove id).2 = e) ∧
      ((e.remove id).1 = true → ∃ n, e.find? id = some n ∧
        (∀ i ∈ Forest.ids [n], (e.remove id).2.find? i = none) ∧
        ∀ i, i ∉ Forest.ids [n] →
          (e.remove id).2.find? i = (e.find? i).map (Node.without [id])) ∧
      (e.remove id).2.nextId = e.nextId := by
  have hv := h.valid
  constructor
  · intro names order hperm
    rw [run_remove hv, Forest.without_congr fun i => hperm.mem_iff]
  · intro id
    refine ⟨remove_fst_iff hv, ?_, ?_, ?_⟩
    · intro hfalse
      have habsent : id ∉ e.ids := fun hmem => by
        rw [(remove_fst_iff hv).mpr hmem] at hfalse
        cases hfalse
      rw [remove, Forest.remove?_of_notMem habsent]
    · intro htrue
      cases hn : e.find? id with
      | none =>
        have habsent : id ∉ e.ids := Forest.find?_eq_none_iff.mp hn
        exact absurd ((remove_fst_iff hv).mp htrue) habsent
      | some n =>
        refine ⟨n, rfl, ?_, ?_⟩
        · intro i hi
          rw [find?_remove hv hn, if_pos hi]
        · intro i hi
          rw [find?_remove hv hn, if_neg hi]
    · rw [remove_eq_without hv]

theorem removals_ofThreeNodes :
    ofThreeNodes.Reachable ∧
      ofThreeNodes.run ([2, 9, 1, 2].map .remove) = ofThreeNodes.run ([1, 2, 2, 9].map .remove) ∧
      (ofThreeNodes.remove 2).1 = true ∧ (ofThreeNodes.remove 9).2 = ofThreeNodes ∧
      (ofThreeNodes.remove 1).2.find? 3 = none ∧
      (ofThreeNodes.remove 2).2.find? 1 =
        some (.logical 1 .or [.condition 3 ["age"] .gte (.number (.int 18))]) := by
  have h : ofThreeNodes.Reachable := (Reachable.start .new).run _
  obtain ⟨hrun, hremove⟩ := removals_of_reachable h
  refine ⟨h, ?_, (hremove 2).1.mpr (by decide), (hremove 9).2.1 (by decide), ?_, ?_⟩
  · rw [hrun [1, 2, 2, 9] [2, 9, 1, 2] (by decide), hrun [1, 2, 2, 9] _ (List.Perm.refl _)]
  · obtain ⟨n, hn, hgone, -⟩ := (hremove 1).2.2.1 (by decide)
    exact hgone 3 (Option.some.inj hn ▸ by decide)
  · obtain ⟨n, hn, -, hstays⟩ := (hremove 2).2.2.1 (by decide)
    rw [hstays 1 (Option.some.inj hn ▸ by decide)]
    decide

end Editor

end FilterTree
