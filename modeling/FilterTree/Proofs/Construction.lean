import FilterTree.Proofs.Grafts

/-!
# Construction node by node

The table of a tree says how to build it: a row is an edit that adds one node (`Row.command`), and
the parent of a row stands before it. `Editor.graft` puts a whole outline into an editor at once.
The rows of the outline, one after another, lead to the same editor (`Editor.executeAll_rows`), so a
query can be entered node by node as well as loaded.
-/

namespace FilterTree

/-- The command that adds the node of a row, with nothing in it. -/
def Row.command (r : Row NodeId) : Command :=
  match r.content with
  | .condition path op value => .addCondition path op value r.parent
  | .logical op => .addLogical op r.parent
  | .embedded path op => .addEmbedded path op r.parent

/-- Whether a node with this content can hold others. -/
def Content.isContainer : Content → Bool
  | condition .. => false
  | logical _ | embedded .. => true

theorem Content.number_node (c : Content) (k : NodeId) : (c.node ()).number k = c.node k := by
  cases c <;> rfl

theorem Content.size_node (c : Content) : (c.node () : Node Unit).size = 1 := by
  cases c <;> rfl

namespace Node

variable {ι : Type}

theorem isContainer_content (n : Node ι) : n.content.isContainer = n.isContainer := by
  cases n <;> rfl

variable (k : NodeId) (n : Node Unit)

theorem id_number : (n.number k).id = k := by
  cases n <;> rfl

theorem content_number : (n.number k).content = n.content := by
  cases n <;> rfl

theorem children_number : (n.number k).children = Forest.number (k + 1) n.children := by
  cases n <;> rfl

theorem succ_add_size : k + 1 + Forest.size n.children = k + n.size := by
  rw [n.size_eq, Nat.add_assoc, Nat.add_comm 1]

/-- A numbered node is a node alone, filled. -/
theorem hold_number : (n.content.node k).hold (Forest.number (k + 1) n.children) = n.number k := by
  cases n <;> rfl

end Node

namespace Editor

variable {e e' e'' : Editor} {parent : Option NodeId}

/-! ## Lists of commands -/

/-- Carries out commands one after another and collects the answers, up to the first refusal. -/
def executeAll : List Command → Edit (List Reply)
  | [] => return []
  | c :: cs => do
    let reply ← execute c
    let replies ← executeAll cs
    return reply :: replies

theorem executeAll_cons {c : Command} {cs : List Command} {reply : Reply} {replies : List Reply}
    (h : e.execute c = .ok reply e') (h' : e'.executeAll cs = .ok replies e'') :
    e.executeAll (c :: cs) = .ok (reply :: replies) e'' := by
  rw [executeAll, Edit.bind_apply, h]
  exact Edit.bind_pure_of_ok h' (reply :: ·)

theorem exists_of_executeAll_cons {c : Command} {cs : List Command} {replies : List Reply}
    (h : e.executeAll (c :: cs) = .ok replies e'') :
    ∃ reply e' rest, e.execute c = .ok reply e' ∧ e'.executeAll cs = .ok rest e'' ∧
      reply :: rest = replies := by
  obtain ⟨reply, e', hfirst, h⟩ := Edit.exists_of_bind_ok h
  obtain ⟨rest, hrest, hreplies⟩ := Edit.exists_of_bind_pure_ok h
  exact ⟨reply, e', rest, hfirst, hrest, hreplies⟩

theorem executeAll_append {cs ds : List Command} {rs ss : List Reply}
    (h : e.executeAll cs = .ok rs e') (h' : e'.executeAll ds = .ok ss e'') :
    e.executeAll (cs ++ ds) = .ok (rs ++ ss) e'' := by
  induction cs generalizing e rs with
  | nil =>
    obtain ⟨rfl, rfl⟩ := EStateM.Result.ok.inj h
    exact h'
  | cons c cs ih =>
    obtain ⟨reply, e₁, rest, hfirst, hrest, rfl⟩ := exists_of_executeAll_cons h
    exact executeAll_cons hfirst (ih hrest)

theorem Valid.executeAll (hv : e.Valid) {cs : List Command} {replies : List Reply}
    (h : e.executeAll cs = .ok replies e') : e'.Valid := by
  induction cs generalizing e replies with
  | nil =>
    obtain ⟨-, rfl⟩ := EStateM.Result.ok.inj h
    exact hv
  | cons c cs ih =>
    obtain ⟨reply, e₁, rest, hfirst, hrest, -⟩ := exists_of_executeAll_cons h
    exact ih ((change_execute hfirst).valid hv) hrest

/-! ## Parents -/

/-- Whether nodes can be added there: among the roots, or in a container of the tree. -/
def Accepts (e : Editor) (parent : Option NodeId) : Prop :=
  ∀ id, parent = some id → ∃ r ∈ e.rows, r.id = id ∧ r.content.isContainer = true

theorem accepts_none (e : Editor) : e.Accepts none := by
  intro id hid
  cases hid

theorem Accepts.exists_find? (h : e.Accepts parent) (hv : e.Valid) (id : NodeId)
    (hid : parent = some id) : ∃ n, e.find? id = some n ∧ n.isContainer = true := by
  obtain ⟨r, hr, rfl, hcontainer⟩ := h id hid
  obtain ⟨n, hn, hcontent⟩ := Forest.exists_find?_of_row none hv.nodup hr
  rw [← hcontent, Node.isContainer_content] at hcontainer
  exact ⟨n, hn, hcontainer⟩

/-! ## Outlines at once -/

/-- Puts an outline as the last roots or the last children of a container, with the next free
identifiers. -/
def graft (parent : Option NodeId) (ns : Outline) (e : Editor) : Editor :=
  { e with tree := Forest.graft parent (Forest.number e.nextId ns) e.tree,
           nextId := e.nextId + Forest.size ns }

theorem graft_nil (parent : Option NodeId) (e : Editor) : e.graft parent [] = e := by
  rw [graft, Forest.number, Forest.graft_nil]
  rfl

/-- A single node is attached. -/
theorem graft_leaf (parent : Option NodeId) (c : Content) (e : Editor) :
    e.graft parent [c.node ()] =
      { e with tree := Forest.graft parent [c.node e.nextId] e.tree, nextId := e.nextId + 1 } := by
  simp only [graft, Forest.number, Forest.size, Content.number_node, Content.size_node]

/-- An outline goes in piece by piece: its first node alone, then all that is in this node, then the
rest. -/
theorem graft_cons (hv : e.Valid) (parent : Option NodeId) (n : Node Unit) (ns : Outline) :
    e.graft parent (n :: ns) =
      ((e.graft parent [n.content.node ()]).graft (some e.nextId) n.children).graft parent ns := by
  have hfresh : e.nextId ∉ Forest.ids e.tree := fun hmem => Nat.lt_irrefl _ (hv.bounds _ hmem).2
  -- the new container is nowhere in the old tree, so what goes into it stays inside the graft
  have hfill : Forest.graft (some e.nextId) (Forest.number (e.nextId + 1) n.children)
      (Forest.graft parent [n.content.node e.nextId] e.tree) =
        Forest.graft parent [n.number e.nextId] e.tree := by
    rw [Forest.graft, Forest.alter_graft parent _ hfresh, Forest.alter_self (Content.id_node _ _),
      Content.children_node, List.nil_append, Node.hold_number]
    rfl
  rw [graft_leaf]
  simp only [graft, Forest.number, Forest.size, hfill, Node.succ_add_size, Forest.graft_graft,
    List.singleton_append, Nat.add_assoc]

/-- Parents stay parents. -/
theorem Accepts.graft (h : e.Accepts parent) (other : Option NodeId) (ns : Outline) :
    (e.graft other ns).Accepts parent := by
  intro id hid
  obtain ⟨r, hr, hrow⟩ := h id hid
  exact ⟨r, Forest.rows_subset_graft other _ e.tree none hr, hrow⟩

/-! ## Nodes one by one -/

theorem attach_eq_graft (hv : e.Valid) (h : e.Accepts parent) (c : Content) :
    e.attach parent c.node = .ok e.nextId (e.graft parent [c.node ()]) := by
  have hparent : e.checkParent parent = .ok () := checkParent_eq_ok_iff.mpr (h.exists_find? hv)
  rw [graft_leaf, ← Forest.insert_eq_graft hv.nodup, attach_eq, hparent]

/-- A new container can be filled. -/
theorem accepts_new (hv : e.Valid) (h : e.Accepts parent) {c : Content}
    (hc : c.isContainer = true) : (e.graft parent [c.node ()]).Accepts (some e.nextId) := by
  intro id hid
  refine ⟨⟨e.nextId, parent, c⟩, ?_, Option.some.inj hid, hc⟩
  rw [graft_leaf, rows, ← Forest.insert_eq_graft hv.nodup]
  exact (rows_insert c (h.exists_find? hv)).mem_iff.mpr List.mem_cons_self

theorem checkValue_of_lax (hlax : e.settings.validateValues = false) (op : Comparison)
    (value : Operand) : e.checkValue op value = .ok () := by
  refine checkValue_of_not_rejects fun hrejects => ?_
  rw [Rejects, hlax] at hrejects
  cases hrejects.1

/-- The command of a row adds a node. -/
theorem execute_command (hv : e.Valid) (hlax : e.settings.validateValues = false) {r : Row NodeId}
    (h : e.Accepts r.parent) :
    e.execute r.command = .ok (.added e.nextId) (e.graft r.parent [r.content.node ()]) := by
  obtain ⟨id, parent, c⟩ := r
  have hattach := attach_eq_graft hv h c
  cases c with
  | condition path op value =>
    have hadd : e.addCondition path op value parent =
        .ok e.nextId (e.graft parent [.condition () path op value]) := by
      rw [addCondition_eq, checkValue_of_lax hlax]
      exact hattach
    exact Edit.bind_pure_of_ok hadd Reply.added
  | logical op => exact Edit.bind_pure_of_ok (x := addLogical op parent) hattach Reply.added
  | embedded path op =>
    exact Edit.bind_pure_of_ok (x := addEmbedded path op parent) hattach Reply.added

/-- The rows of an outline, one after another, put it where they say. Each answers the identifier
that it has in the table. -/
theorem executeAll_rows (ns : Outline) :
    ∀ (e : Editor) (parent : Option NodeId), e.Valid → e.settings.validateValues = false →
      (ns ≠ [] → e.Accepts parent) →
        e.executeAll ((Forest.rows parent (Forest.number e.nextId ns)).map Row.command) =
          .ok ((Forest.ids (Forest.number e.nextId ns)).map Reply.added) (e.graft parent ns) := by
  induction ns using Forest.induction with
  | nil =>
    intro e parent hv hlax h
    rw [graft_nil]
    rfl
  | cons n ns ihn ih =>
    intro e parent hv hlax h
    have haccepts := h (List.cons_ne_nil n ns)
    -- the node alone, then what is in it, then the rest
    have hfirst := execute_command hv hlax (r := ⟨e.nextId, parent, n.content⟩) haccepts
    have hv₁ := (change_execute hfirst).valid hv
    have hinside := ihn (e.graft parent [n.content.node ()]) (some e.nextId) hv₁ hlax fun hne =>
      accepts_new hv haccepts (by rw [n.isContainer_content, n.isContainer_of_children hne])
    have hrest := ih _ parent (hv₁.executeAll hinside) hlax fun _ =>
      (haccepts.graft _ _).graft _ _
    have hall := executeAll_cons hfirst (executeAll_append hinside hrest)
    have hnext : (e.graft parent [n.content.node ()]).nextId = e.nextId + 1 := by
      rw [graft_leaf]
    have hnext' : ((e.graft parent [n.content.node ()]).graft (some e.nextId) n.children).nextId =
        e.nextId + n.size := by
      rw [graft, hnext, Node.succ_add_size]
    rw [← graft_cons hv, hnext, hnext', ← List.map_append, ← List.map_cons, ← List.map_append,
      ← List.map_cons] at hall
    rw [Forest.number, Forest.rows, Node.rows_eq, Forest.ids_cons, Node.id_number,
      Node.content_number, Node.children_number]
    exact hall

/-- A fresh editor gets the tree of a query node by node as well. In the order of the tree, each
node under its parent, every edit is carried out and answers the identifier that the node has in the
tree; in the end the editor has this tree, and its next identifier is the one that reading leaves
free. -/
theorem executeAll_toTree (query : Json) :
    ({} : Editor).executeAll ((Forest.rows none (Query.toTree 1 query)).map Row.command) =
      .ok ((Forest.ids (Query.toTree 1 query)).map Reply.added)
        { tree := Query.toTree 1 query, nextId := Query.nextId 1 query } :=
  executeAll_rows (Query.outline [] query) {} none (valid_of_isStart .new) rfl
    fun _ => accepts_none _

example :
    (Forest.rows none (Query.toTree 1 (.object [("$or", .array [
        .object [("tags", .object [("$some", .object [("$eq", .string "a")])])],
        .object [("age", .object [("$gte", .number (.int 18))])]])]))).map Row.command =
      [.addLogical .or none, .addEmbedded ["tags"] .someElement (some 1),
        .addCondition [] .eq (.string "a") (some 2),
        .addCondition ["age"] .gte (.number (.int 18)) (some 1)] := by
  decide

end Editor

end FilterTree
