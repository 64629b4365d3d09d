import FilterTree.Proofs.Construction
import FilterTree.Proofs.Rewriting

/-!
# Creation order

Identifiers go up in the order in which nodes are made. A node is only ever made inside one that is
there already, and it comes last among its siblings, so the order of creation can be read off a tree
level by level (`Forest.InOrder`). It cannot be read off the list of all nodes: a node that is made
late may be the child of one that was made early. Numbering an outline makes a tree in this order
(`Forest.inOrder_number`), and every change keeps it (`Editor.Change.inOrder`).
-/

namespace FilterTree

namespace Forest

/-- Whether a tree is in the order of creation: in every list of siblings identifiers go up from
left to right, and a node was made after its parent. -/
structure InOrder (ns : Tree) : Prop where
  roots : (ns.map Node.id).Pairwise (· < ·)
  siblings : ∀ n ∈ nodes ns, (n.children.map Node.id).Pairwise (· < ·)
  parents : ∀ n ∈ nodes ns, ∀ m ∈ n.children, n.id < m.id

variable {n : Node NodeId} {ns : Tree}

theorem inOrder_nil : InOrder [] where
  roots := List.Pairwise.nil
  siblings _ hn := absurd hn List.not_mem_nil
  parents _ hn := absurd hn List.not_mem_nil

/-- One node: what is in it is in order and was made later. -/
theorem inOrder_singleton :
    InOrder [n] ↔ (∀ m ∈ n.children, n.id < m.id) ∧ InOrder n.children := by
  constructor
  · intro h
    have hn : n ∈ nodes [n] := mem_nodes_singleton.mpr (Or.inl rfl)
    exact ⟨h.parents n hn, h.siblings n hn,
      fun m hm => h.siblings m (mem_nodes_singleton.mpr (Or.inr hm)),
      fun m hm => h.parents m (mem_nodes_singleton.mpr (Or.inr hm))⟩
  · rintro ⟨hparent, h⟩
    refine ⟨List.pairwise_singleton _ _, fun m hm => ?_, fun m hm => ?_⟩
    · rcases mem_nodes_singleton.mp hm with rfl | hm
      · exact h.roots
      · exact h.siblings m hm
    · rcases mem_nodes_singleton.mp hm with rfl | hm
      · exact hparent
      · exact h.parents m hm

theorem inOrder_append {ms : Tree} :
    InOrder (ms ++ ns) ↔
      InOrder ms ∧ InOrder ns ∧ ∀ m ∈ ms, ∀ n ∈ ns, m.id < n.id := by
  have hnodes : ∀ m, m ∈ nodes (ms ++ ns) ↔ m ∈ nodes ms ∨ m ∈ nodes ns := by
    intro m
    rw [nodes_append, List.mem_append]
  constructor
  · intro h
    have hroots := h.roots
    rw [List.map_append, List.pairwise_append] at hroots
    obtain ⟨hms, hns, hacross⟩ := hroots
    refine ⟨⟨hms, ?_, ?_⟩, ⟨hns, ?_, ?_⟩, ?_⟩
    · exact fun m hm => h.siblings m ((hnodes m).mpr (Or.inl hm))
    · exact fun m hm => h.parents m ((hnodes m).mpr (Or.inl hm))
    · exact fun m hm => h.siblings m ((hnodes m).mpr (Or.inr hm))
    · exact fun m hm => h.parents m ((hnodes m).mpr (Or.inr hm))
    · exact fun m hm n hn =>
        hacross _ (List.mem_map_of_mem hm) _ (List.mem_map_of_mem hn)
  · rintro ⟨hms, hns, hacross⟩
    refine ⟨?_, fun m hm => ?_, fun m hm => ?_⟩
    · rw [List.map_append, List.pairwise_append]
      refine ⟨hms.roots, hns.roots, ?_⟩
      intro i hi j hj
      obtain ⟨m, hm, rfl⟩ := List.mem_map.mp hi
      obtain ⟨n, hn, rfl⟩ := List.mem_map.mp hj
      exact hacross m hm n hn
    · exact ((hnodes m).mp hm).elim (hms.siblings m) (hns.siblings m)
    · exact ((hnodes m).mp hm).elim (hms.parents m) (hns.parents m)

theorem inOrder_cons :
    InOrder (n :: ns) ↔ InOrder [n] ∧ InOrder ns ∧ ∀ m ∈ ns, n.id < m.id := by
  rw [← List.singleton_append, inOrder_append]
  simp only [List.mem_singleton, forall_eq]

/-! ## Making trees -/

theorem le_of_mem_number {k : NodeId} {ns : Outline} {m : Node NodeId} (hm : m ∈ number k ns) :
    k ≤ m.id := by
  have hid : m.id ∈ ids (number k ns) := List.mem_map_of_mem (mem_nodes_of_mem hm)
  rw [ids, ids_number, List.mem_range'_1] at hid
  exact hid.1

/-- Numbering makes a node before what is in it, and that before the right siblings. -/
theorem inOrder_number (ns : Outline) : ∀ k : NodeId, InOrder (number k ns) := by
  induction ns using Forest.induction with
  | nil => exact fun _ => inOrder_nil
  | cons n ns ihn ih =>
    intro k
    rw [number, inOrder_cons, inOrder_singleton, Node.id_number, Node.children_number]
    refine ⟨⟨fun m hm => le_of_mem_number hm, ihn (k + 1)⟩, ih _, fun m hm => ?_⟩
    have hle := le_of_mem_number hm
    rw [Node.size_eq] at hle
    exact Nat.lt_of_lt_of_le (Nat.lt_add_of_pos_right (Nat.succ_pos _)) hle

/-! ## Altering trees -/

/-- A root of an altered tree is called as a root was before. -/
theorem exists_of_mem_alter {id : NodeId} {f : Node NodeId → Option (Node NodeId)}
    (hf : Node.KeepsId f) {m : Node NodeId} (hm : m ∈ alter id f ns) : ∃ n ∈ ns, n.id = m.id := by
  induction ns with
  | nil => exact absurd hm List.not_mem_nil
  | cons n ns ih =>
    rw [alter_cons, List.mem_append, Option.mem_toList] at hm
    rcases hm with hm | hm
    · refine ⟨n, List.mem_cons_self, ?_⟩
      split at hm
      · exact (hf n m hm).symm
      · rw [← Option.some.inj hm, Node.id_hold]
    · obtain ⟨l, hl, hid⟩ := ih hm
      exact ⟨l, List.mem_cons_of_mem _ hl, hid⟩

/-- A tree stays in order if each node that is altered does. -/
theorem InOrder.alter {id : NodeId} {f : Node NodeId → Option (Node NodeId)} (h : InOrder ns)
    (hid : Node.KeepsId f)
    (hf : ∀ n ∈ nodes ns, InOrder [n] → ∀ m, f n = some m → InOrder [m]) :
    InOrder (alter id f ns) := by
  induction ns using Forest.induction with
  | nil => exact h
  | cons n ns ihn ih =>
    obtain ⟨hn, hns, hright⟩ := inOrder_cons.mp h
    have hrest := ih hns fun m hm => hf m (nodes_subset_cons n ns hm)
    -- what stands in the place of the node is called like it
    have hnode : ∀ m, (if n.id = id then f n else some (n.hold (Forest.alter id f n.children))) =
        some m → m.id = n.id ∧ InOrder [m] := by
      intro m hm
      split at hm
      · exact ⟨hid n m hm, hf n (mem_nodes_of_mem List.mem_cons_self) hn m hm⟩
      · rw [← Option.some.inj hm]
        obtain ⟨hbelow, hchildren⟩ := inOrder_singleton.mp hn
        refine ⟨n.id_hold _, inOrder_singleton.mpr ?_⟩
        rw [n.children_hold_map (g := Forest.alter id f) rfl, Node.id_hold]
        refine ⟨fun l hl => ?_, ihn hchildren fun m hm => ?_⟩
        · obtain ⟨c, hc, hsame⟩ := exists_of_mem_alter hid hl
          exact hsame ▸ hbelow c hc
        · exact hf m (nodes_children_subset List.mem_cons_self hm)
    rw [alter_cons]
    cases hplace : if n.id = id then f n else some (n.hold (Forest.alter id f n.children)) with
    | none => exact hrest
    | some m =>
      obtain ⟨hsame, hm⟩ := hnode m hplace
      refine inOrder_cons.mpr ⟨hm, hrest, fun l hl => ?_⟩
      obtain ⟨r, hr, hl⟩ := exists_of_mem_alter hid hl
      rw [hsame, ← hl]
      exact hright r hr

/-! ## Nodes that are new or changed -/

/-- A new node comes last. -/
theorem InOrder.concat (h : InOrder ns) (hn : InOrder [n]) (hlast : ∀ m ∈ ns, m.id < n.id) :
    InOrder (ns ++ [n]) := by
  refine inOrder_append.mpr ⟨h, hn, fun m hm l hl => ?_⟩
  obtain rfl := List.mem_singleton.mp hl
  exact hlast m hm

/-- A node with nothing in it is in order. -/
theorem inOrder_node (c : Content) (id : NodeId) : InOrder [c.node id] := by
  refine inOrder_singleton.mpr ?_
  rw [Content.children_node]
  exact ⟨fun m hm => absurd hm List.not_mem_nil, inOrder_nil⟩

theorem InOrder.push {child : Node NodeId} (h : InOrder [n]) (hchild : InOrder [child])
    (hself : n.id < child.id) (hlast : ∀ m ∈ n.children, m.id < child.id) :
    InOrder [Node.push child n] := by
  obtain ⟨hbelow, hchildren⟩ := inOrder_singleton.mp h
  have hlater : ∀ m ∈ n.children ++ [child], n.id < m.id := by
    intro m hm
    rcases List.mem_append.mp hm with hm | hm
    · exact hbelow m hm
    · obtain rfl := List.mem_singleton.mp hm
      exact hself
  have hfull := hchildren.concat hchild hlast
  cases n with
  | condition i p o v => exact h
  | logical i o ns => exact inOrder_singleton.mpr ⟨hlater, hfull⟩
  | embedded i p o ns => exact inOrder_singleton.mpr ⟨hlater, hfull⟩

theorem InOrder.compare (h : InOrder [n]) (op : Comparison) (value : Operand) :
    InOrder [Node.compare op value n] := by
  cases n with
  | condition i p o v => exact inOrder_node (.condition p op value) i
  | logical i o ns => exact h
  | embedded i p o ns => exact h

end Forest

namespace Editor

variable {e e' : Editor}

/-! ## Runs -/

/-- Each change keeps the order: what is new comes last, and what stays keeps its place. -/
theorem Change.inOrder (h : e.Change e') (hv : e.Valid) (horder : Forest.InOrder e.tree) :
    Forest.InOrder e'.tree := by
  cases h with
  | none => exact horder
  | attach parent c hparent =>
    have hlast : ∀ n ∈ Forest.nodes e.tree, n.id < (c.node e.nextId).id := by
      intro n hn
      rw [Content.id_node]
      exact (hv.bounds n.id (List.mem_map_of_mem hn)).2
    have hnew := Forest.inOrder_node c e.nextId
    cases parent with
    | none => exact horder.concat hnew fun m hm => hlast m (Forest.mem_nodes_of_mem hm)
    | some id =>
      rw [Forest.insert, Forest.modify_eq_alter hv.nodup]
      refine horder.alter (Node.keepsId_some (Node.id_push _)) ?_
      intro n hn hself m hm
      obtain rfl := Option.some.inj hm
      exact hself.push hnew (hlast n hn) fun m hm =>
        hlast m (Forest.mem_nodes_of_mem_children hm hn)
  | update id op value n hn hkind =>
    rw [Forest.modify_eq_alter hv.nodup]
    refine horder.alter (Node.keepsId_some (Node.id_compare op value)) ?_
    intro n _ hself m hm
    obtain rfl := Option.some.inj hm
    exact hself.compare op value
  | remove id tree htree =>
    have hmem : id ∈ e.ids := by
      by_contra habsent
      rw [Forest.remove?_of_notMem habsent] at htree
      cases htree
    rw [Forest.remove?_eq_alter hv.nodup hmem, Option.some.injEq] at htree
    rw [← htree]
    -- nothing stands in the place of what is removed
    refine horder.alter ?_ ?_
    · intro n m hm
      cases hm
    · intro n _ _ m hm
      cases hm
  | clear => exact Forest.inOrder_nil
  | load query => exact Forest.inOrder_number _ _

/-- In every state that a run leads to the tree is in the order of creation. -/
theorem inOrder_of_reachable (h : e.Reachable) : Forest.InOrder e.tree := by
  induction h with
  | start h =>
    obtain ⟨settings, rfl⟩ | ⟨query, rfl⟩ := isStart_cases h
    · exact Forest.inOrder_nil
    · exact Forest.inOrder_number _ _
  | step c h ih => exact (change_step _ c).inOrder h.valid ih

/-- A late child of an early node stands before its elders in pre-order. -/
theorem inOrder_lateChild :
    (ofThreeNodes.run [.addLogical .and (some 2)]).Reachable ∧
      (ofThreeNodes.run [.addLogical .and (some 2)]).ids = [1, 2, 4, 3] ∧
      Forest.InOrder (ofThreeNodes.run [.addLogical .and (some 2)]).tree := by
  have hthree : ofThreeNodes.Reachable := (Reachable.start .new).run _
  have h := hthree.run [.addLogical .and (some 2)]
  exact ⟨h, by decide, inOrder_of_reachable h⟩

end Editor

end FilterTree
