import FilterTree.Proofs.Refusals

/-!
# One node for search and edits

The search, the edits that replace a node and the removal go through a forest each in their own way.
A `Gap` is a place in a forest, between what comes before it in pre-order and what comes after it.
The node that is found fills a gap that no node with its identifier comes before
(`Forest.exists_gap`), and it is there that a node is replaced. A removal looks at all siblings
before it looks into any of them, so with repeated identifiers it may take another node; where they
are distinct it leaves the same gap (`Forest.find?_preorder_first`).
-/

namespace FilterTree

variable {ι : Type}

/-! ## Gaps -/

/-- A forest that lacks something in one place: among the roots, or in what a container holds. -/
inductive Gap (ι : Type) where
  | here (before after : Forest ι)
  | inside (before : Forest ι) (n : Node ι) (hn : n.isContainer = true) (gap : Gap ι)
      (after : Forest ι)

namespace Gap

/-- The forest with nodes put into the gap. -/
def fill (ms : Forest ι) : Gap ι → Forest ι
  | here before after => before ++ ms ++ after
  | inside before n _ gap after => before ++ n.hold (gap.fill ms) :: after

/-- The identifiers that come before the gap in pre-order. -/
def idsBefore : Gap ι → List ι
  | here before _ => Forest.ids before
  | inside before n _ gap _ => Forest.ids before ++ n.id :: gap.idsBefore

/-- The identifiers that come after the gap in pre-order. -/
def idsAfter : Gap ι → List ι
  | here _ after => Forest.ids after
  | inside _ _ _ gap after => gap.idsAfter ++ Forest.ids after

/-- The gap behind one more root. -/
def cons (m : Node ι) : Gap ι → Gap ι
  | here before after => here (m :: before) after
  | inside before n hn gap after => inside (m :: before) n hn gap after

theorem fill_cons (m : Node ι) (gap : Gap ι) (ms : Forest ι) :
    (gap.cons m).fill ms = m :: gap.fill ms := by
  cases gap <;> rfl

theorem idsBefore_cons (m : Node ι) (gap : Gap ι) :
    (gap.cons m).idsBefore = m.id :: (Forest.ids m.children ++ gap.idsBefore) := by
  cases gap with
  | here before after => exact Forest.ids_cons m before
  | inside before n hn gap after =>
    rw [cons, idsBefore, idsBefore, Forest.ids_cons, List.cons_append, List.append_assoc]

theorem ids_fill (gap : Gap ι) (ms : Forest ι) :
    Forest.ids (gap.fill ms) = gap.idsBefore ++ Forest.ids ms ++ gap.idsAfter := by
  induction gap with
  | here before after => rw [fill, Forest.ids_append, Forest.ids_append, idsBefore, idsAfter]
  | inside before n hn gap after ih =>
    rw [fill, Forest.ids_append, Forest.ids_cons, Node.id_hold, Node.children_hold _ hn, ih,
      idsBefore, idsAfter]
    simp only [List.append_assoc, List.cons_append]

variable [DecidableEq ι]

/-- An identifier that is only in the gap is altered there. -/
theorem alter_fill {id : ι} {f : Node ι → Option (Node ι)} {gap : Gap ι} {ms : Forest ι}
    (hbefore : id ∉ gap.idsBefore) (hafter : id ∉ gap.idsAfter) :
    Forest.alter id f (gap.fill ms) = gap.fill (Forest.alter id f ms) := by
  induction gap with
  | here before after =>
    rw [fill, Forest.alter_append, Forest.alter_append, Forest.alter_of_notMem hbefore,
      Forest.alter_of_notMem hafter, fill]
  | inside before n hn gap after ih =>
    rw [idsBefore, List.mem_append, List.mem_cons, not_or, not_or] at hbefore
    rw [idsAfter, List.mem_append, not_or] at hafter
    obtain ⟨hbefore, hid, hgap⟩ := hbefore
    rw [fill, Forest.alter_append, Forest.alter_of_notMem hbefore, Forest.alter_cons, Node.id_hold,
      if_neg (Ne.symm hid), Node.children_hold _ hn, ih hgap hafter.1,
      Forest.alter_of_notMem hafter.2]
    cases n with
    | condition i p o v => rfl
    | logical i o ns => rfl
    | embedded i p o ns => rfl

end Gap

namespace Forest

variable [DecidableEq ι] {id : ι} {n : Node ι} {ns : Forest ι}

/-! ## Search -/

/-- The node that is found is the one at the first place of its identifier in pre-order. -/
theorem find?_eq_getElem?_idxOf (id : ι) (ns : Forest ι) :
    find? id ns = (nodes ns)[(ids ns).idxOf id]? := by
  induction ns using Forest.induction with
  | nil => rfl
  | cons m ns ihm ih =>
    have hlength : (ids m.children).length = (nodes m.children).length := List.length_map _
    rw [find?_cons, nodes_cons, ids_cons]
    by_cases hid : m.id = id
    · rw [if_pos hid, hid, List.idxOf_cons_self, List.getElem?_cons_zero]
    · rw [if_neg hid, List.idxOf_cons_ne _ hid, List.getElem?_cons_succ]
      by_cases hmem : id ∈ ids m.children
      · have hlt := hlength ▸ List.idxOf_lt_length_of_mem hmem
        rw [List.idxOf_append_of_mem hmem, List.getElem?_append_left hlt, ihm,
          List.getElem?_eq_getElem hlt, Option.some_or]
      · rw [List.idxOf_append_of_notMem hmem, hlength,
          List.getElem?_append_right (Nat.le_add_right _ _), Nat.add_sub_cancel_left,
          find?_eq_none_iff.mpr hmem, Option.none_or, ih]

/-- The node that is found fills a gap that its identifier does not come before, and is replaced
there. -/
theorem exists_gap :
    find? id ns = some n → ∃ gap : Gap ι, gap.fill [n] = ns ∧ id ∉ gap.idsBefore ∧
      ∀ f : Node ι → Node ι, modify? id f ns = some (gap.fill [f n]) := by
  induction ns using Forest.induction with
  | nil => exact fun h => nomatch h
  | cons m ns ihm ih =>
    intro h
    rw [find?_cons] at h
    by_cases hid : m.id = id
    · rw [if_pos hid, Option.some.injEq] at h
      subst h
      refine ⟨.here [] ns, rfl, List.not_mem_nil, fun f => ?_⟩
      rw [modify?_cons, if_pos hid]
      rfl
    · rw [if_neg hid, Option.or_eq_some_iff] at h
      rcases h with h | ⟨hnone, h⟩
      · have hm : m.isContainer = true := by
          refine Node.isContainer_of_children fun hnil => ?_
          rw [hnil] at h
          cases h
        obtain ⟨gap, hfill, hbefore, hmodify⟩ := ihm h
        refine ⟨.inside [] m hm gap ns, ?_, ?_, fun f => ?_⟩
        · rw [Gap.fill, hfill, Node.hold_children, List.nil_append]
        · rw [Gap.idsBefore, ids_nil, List.nil_append, List.mem_cons, not_or]
          exact ⟨Ne.symm hid, hbefore⟩
        · rw [modify?_cons, if_neg hid, hmodify]
          rfl
      · obtain ⟨gap, hfill, hbefore, hmodify⟩ := ih h
        refine ⟨gap.cons m, ?_, ?_, fun f => ?_⟩
        · rw [Gap.fill_cons, hfill]
        · rw [Gap.idsBefore_cons, List.mem_cons, List.mem_append, not_or, not_or]
          exact ⟨Ne.symm hid, find?_eq_none_iff.mp hnone, hbefore⟩
        · rw [modify?_cons, if_neg hid, (modify?_eq_none _).mpr hnone, hmodify, Gap.fill_cons]
          rfl

/-! ## Search and edits -/

/-- Where identifiers are distinct a removal leaves the gap of its node. -/
theorem remove?_fill {gap : Gap ι} (hnodup : (ids (gap.fill [n])).Nodup) :
    remove? n.id (gap.fill [n]) = some (gap.fill []) := by
  have hids := gap.ids_fill [n]
  have hmem : n.id ∈ ids (gap.fill [n]) := by
    rw [hids, ids_singleton]
    exact List.mem_append_left _ (List.mem_append_right _ List.mem_cons_self)
  rw [remove?_eq_alter hnodup hmem]
  rw [hids, ids_singleton, List.nodup_append, List.nodup_append] at hnodup
  obtain ⟨⟨-, -, hfront⟩, -, hback⟩ := hnodup
  have hbefore : n.id ∉ gap.idsBefore := fun h => hfront _ h _ List.mem_cons_self rfl
  have hafter : n.id ∉ gap.idsAfter := fun h =>
    hback _ (List.mem_append_right _ List.mem_cons_self) _ h rfl
  rw [Gap.alter_fill hbefore hafter, alter_self rfl]
  rfl

/-- What a search finds, in any forest: nothing if the identifier is not there, and else the whole
node at the first of its places in pre-order. That node is the one that an edit replaces, and where
identifiers are distinct also the one that a removal takes out. -/
theorem find?_preorder_first (id : ι) (ns : Forest ι) :
    (find? id ns = none ↔ id ∉ ids ns) ∧ find? id ns = (nodes ns)[(ids ns).idxOf id]? ∧
      ∀ n, find? id ns = some n → ∃ gap : Gap ι, gap.fill [n] = ns ∧ id ∉ gap.idsBefore ∧
        (∀ f : Node ι → Node ι, modify? id f ns = some (gap.fill [f n])) ∧
        ((ids ns).Nodup → remove? id ns = some (gap.fill [])) := by
  refine ⟨find?_eq_none_iff, find?_eq_getElem?_idxOf id ns, fun n hn => ?_⟩
  obtain ⟨gap, rfl, hbefore, hmodify⟩ := exists_gap hn
  refine ⟨gap, rfl, hbefore, hmodify, fun hnodup => ?_⟩
  obtain rfl := id_of_find? _ hn
  exact remove?_fill hnodup

/-- A forest with three nodes of one name: in a combination, deeper in it, and among the roots. -/
def namesakes : Tree := [
  .logical 1 .or [
    .condition 2 ["a"] .eq .null,
    .embedded 3 ["b"] .someElement [.condition 2 ["c"] .eq .null]],
  .condition 2 ["d"] .eq .null]

theorem find?_preorder_first_namesakes :
    find? 4 namesakes = none ∧ find? 2 namesakes = some (.condition 2 ["a"] .eq .null) ∧
      (∃ gap : Gap NodeId, gap.fill [.condition 2 ["a"] .eq .null] = namesakes ∧
        2 ∉ gap.idsBefore ∧ modify? 2 (Node.compare .ne .null) namesakes =
          some (gap.fill [.condition 2 ["a"] .ne .null])) ∧
      (ids Editor.ofThreeNodes.tree).Nodup ∧
      ∃ gap : Gap NodeId,
        gap.fill [.condition 3 ["age"] .gte (.number (.int 18))] = Editor.ofThreeNodes.tree ∧
          remove? 3 Editor.ofThreeNodes.tree = some (gap.fill []) := by
  obtain ⟨hnone, -, -⟩ := find?_preorder_first 4 namesakes
  obtain ⟨-, hfirst, hgap⟩ := find?_preorder_first 2 namesakes
  obtain ⟨-, -, hthree⟩ := find?_preorder_first 3 Editor.ofThreeNodes.tree
  have hfound : find? 2 namesakes = some (.condition 2 ["a"] .eq .null) := hfirst.trans (by decide)
  have hnodup : (ids Editor.ofThreeNodes.tree).Nodup := by decide
  obtain ⟨gap, hfill, hbefore, hmodify, -⟩ := hgap _ hfound
  obtain ⟨gap', hfill', -, -, hremove⟩ :=
    hthree (.condition 3 ["age"] .gte (.number (.int 18))) (by decide)
  exact ⟨hnone.mpr (by decide), hfound, ⟨gap, hfill, hbefore, hmodify _⟩, hnodup,
    ⟨gap', hfill', hremove hnodup⟩⟩

/-- A removal looks at the roots first. -/
example : remove? 2 namesakes = some (namesakes.take 1) := by decide

end Forest

end FilterTree
