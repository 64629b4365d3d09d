import FilterTree.Proofs.Outline
import FilterTree.Proofs.Refusals

/-!
# Runs on field names

Paths are meant to be made of field names, and objects to have distinct keys, but an editor takes
any path that it is given. Where all commands keep to that the tree does (`Editor.TidyReachable`,
`Editor.TidyReachable.isTidy`), and so does what is written of it.
-/

namespace FilterTree

/-- Whether the path is made of field names, and the operand has distinct keys. -/
def Content.IsTidy : Content → Prop
  | condition path _ value => Path.IsPlain path ∧ value.toJson.DistinctKeys
  | logical _ => True
  | embedded path _ => Path.IsPlain path

instance : DecidablePred Content.IsTidy
  | .condition path _ value =>
    inferInstanceAs (Decidable (Path.IsPlain path ∧ value.toJson.DistinctKeys))
  | .logical _ => isTrue trivial
  | .embedded path _ => inferInstanceAs (Decidable (Path.IsPlain path))

/-- Whether what a command brings in is tidy. -/
def Command.IsTidy : Command → Prop
  | addCondition path op value _ => (Content.condition path op value).IsTidy
  | addEmbedded path op _ => (Content.embedded path op).IsTidy
  | update _ _ value => value.toJson.DistinctKeys
  | load query => query.DistinctKeys
  | addLogical .. | remove _ | clear => True

instance : DecidablePred Command.IsTidy
  | .addCondition path op value _ =>
    inferInstanceAs (Decidable (Content.condition path op value).IsTidy)
  | .addEmbedded path op _ => inferInstanceAs (Decidable (Content.embedded path op).IsTidy)
  | .update _ _ value => inferInstanceAs (Decidable value.toJson.DistinctKeys)
  | .load query => inferInstanceAs (Decidable query.DistinctKeys)
  | .addLogical .. | .remove _ | .clear => isTrue trivial

/-- A tidy command adds a tidy node, if any. -/
theorem Command.IsTidy.of_addition? {c : Command} (hc : c.IsTidy) {content : Content}
    {parent : Option NodeId} (hadds : c.addition? = some (content, parent)) : content.IsTidy := by
  cases c with
  | addCondition path op value p =>
    obtain ⟨rfl, -⟩ := Prod.mk.inj (Option.some.inj hadds)
    exact hc
  | addLogical op p =>
    obtain ⟨rfl, -⟩ := Prod.mk.inj (Option.some.inj hadds)
    exact trivial
  | addEmbedded path op p =>
    obtain ⟨rfl, -⟩ := Prod.mk.inj (Option.some.inj hadds)
    exact hc
  | update id op value => cases hadds
  | remove id => cases hadds
  | clear => cases hadds
  | load query => cases hadds

/-! ## Contents of rows and nodes -/

namespace Forest

variable {ι : Type}

/-- A table has a row for every node, in the same order. -/
theorem map_rows_eq_map_nodes (ns : Forest ι) :
    ∀ parent : Option ι, (rows parent ns).map (fun r => (r.id, r.content)) =
      (nodes ns).map fun n => (n.id, n.content) := by
  induction ns using Forest.induction with
  | nil => exact fun _ => rfl
  | cons n ns ihn ih =>
    intro parent
    rw [rows, Node.rows_eq, nodes_cons, List.map_append, List.map_cons, List.map_cons,
      List.map_append, ihn, ih, List.cons_append]

theorem exists_row_of_node {n : Node ι} {ns : Forest ι} (parent : Option ι) (hn : n ∈ nodes ns) :
    ∃ r ∈ rows parent ns, r.id = n.id ∧ r.content = n.content := by
  have hmem := List.mem_map_of_mem (f := fun n : Node ι => (n.id, n.content)) hn
  rw [← map_rows_eq_map_nodes ns parent] at hmem
  obtain ⟨r, hr, heq⟩ := List.mem_map.mp hmem
  exact ⟨r, hr, Prod.mk.inj heq⟩

theorem map_content_rows (ns : Forest ι) (parent : Option ι) :
    (rows parent ns).map Row.content = (nodes ns).map Node.content := by
  have hmap := congrArg (List.map Prod.snd) (map_rows_eq_map_nodes ns parent)
  rw [List.map_map, List.map_map] at hmap
  exact hmap

/-- What holds of the contents of all rows holds of those of all nodes. -/
theorem forall_content_iff {P : Content → Prop} {ns : Forest ι} (parent : Option ι) :
    (∀ r ∈ rows parent ns, P r.content) ↔ ∀ n ∈ nodes ns, P n.content := by
  have hsame := map_content_rows ns parent
  constructor
  · intro h n hn
    have hmem := List.mem_map_of_mem (f := Node.content) hn
    rw [← hsame] at hmem
    obtain ⟨r, hr, hcontent⟩ := List.mem_map.mp hmem
    rw [← hcontent]
    exact h r hr
  · intro h r hr
    have hmem := List.mem_map_of_mem (f := Row.content) hr
    rw [hsame] at hmem
    obtain ⟨n, hn, hcontent⟩ := List.mem_map.mp hmem
    rw [← hcontent]
    exact h n hn

/-- Numbering changes no content. -/
theorem map_content_number (ns : Outline) :
    ∀ k : NodeId, (nodes (number k ns)).map Node.content = (nodes ns).map Node.content := by
  induction ns using Forest.induction with
  | nil => exact fun _ => rfl
  | cons n ns ihn ih =>
    intro k
    have hn : (n.number k).content = n.content ∧
        (n.number k).children = number (k + 1) n.children := by
      cases n <;> exact ⟨rfl, rfl⟩
    rw [number, nodes_cons, nodes_cons, hn.2, List.map_cons, List.map_cons, List.map_append,
      List.map_append, ihn, ih, hn.1]

/-- Whether each node of the forest is tidy. -/
def IsTidy (ns : Forest ι) : Prop := ∀ n ∈ nodes ns, n.content.IsTidy

variable {ms ns : Forest ι}

theorem IsTidy.of_subset (h : IsTidy ns) (hsub : nodes ms ⊆ nodes ns) : IsTidy ms :=
  fun n hn => h n (hsub hn)

theorem IsTidy.hasPlainPaths (h : IsTidy ns) : HasPlainPaths ns := by
  intro n hn
  have hcontent := h n hn
  cases n with
  | condition i path op value => exact hcontent.1
  | logical i op ns => exact Path.isPlain_nil
  | embedded i path op ns => exact hcontent

theorem IsTidy.hasDistinctOperand (h : IsTidy ns) : ∀ n ∈ nodes ns, n.HasDistinctOperand := by
  intro n hn
  have hcontent := h n hn
  cases n with
  | condition i path op value => exact hcontent.2
  | logical i op ns => trivial
  | embedded i path op ns => trivial

end Forest

namespace Editor

variable {e e' : Editor}

/-! ## Tidy trees -/

/-- Whether the tree is tidy. -/
def IsTidy (e : Editor) : Prop := ∀ r ∈ e.rows, r.content.IsTidy

theorem isTidy_iff : e.IsTidy ↔ Forest.IsTidy e.tree := Forest.forall_content_iff none

theorem isTidy_load (e : Editor) {query : Json} (hquery : query.DistinctKeys) :
    (e.load query).IsTidy := by
  have houtline : ∀ n ∈ Forest.nodes (Query.outline [] query), n.content.IsTidy := by
    intro n hn
    obtain ⟨hpath, hdistinct⟩ := Query.nodes_outline Path.isPlain_nil query n hn
    cases n with
    | condition i path op value => exact ⟨hpath, hdistinct hquery⟩
    | logical i op ns => trivial
    | embedded i path op ns => exact hpath
  refine isTidy_iff.mpr fun n hn => ?_
  have hmem := List.mem_map_of_mem (f := Node.content) hn
  rw [show (e.load query).tree = Forest.number e.nextId (Query.outline [] query) from rfl,
    Forest.map_content_number] at hmem
  obtain ⟨m, hm, hcontent⟩ := List.mem_map.mp hmem
  rw [← hcontent]
  exact houtline m hm

/-! ## What commands do to tidy trees -/

theorem IsTidy.insert (h : e.IsTidy) {parent : Option NodeId} {c : Content} (hc : c.IsTidy)
    (hparent : ∀ id, parent = some id → ∃ n, e.find? id = some n ∧ n.isContainer = true) :
    IsTidy { e with tree := Forest.insert parent (c.node e.nextId) e.tree,
                    nextId := e.nextId + 1 } := by
  intro r hr
  rcases List.mem_cons.mp ((rows_insert c hparent).mem_iff.mp hr) with rfl | hr
  · exact hc
  · exact h r hr

/-- An updated condition has its old path and a new operand. -/
theorem mem_rows_compare {id : NodeId} {n : Node NodeId} (hn : e.find? id = some n)
    {op : Comparison} {value : Operand} {r : Row NodeId}
    (hr : r ∈ Forest.rows none (Forest.modify id (Node.compare op value) e.tree)) :
    r ∈ e.rows ∨ ∃ s ∈ e.rows, ∃ path o v, s.content = .condition path o v ∧
      r.content = .condition path op value := by
  obtain ⟨outer, before, after, hold, hnew⟩ := Forest.rows_modify hn (Node.compare op value) none
  rw [hnew, List.mem_append, List.mem_append] at hr
  rw [rows, hold]
  simp only [List.mem_append]
  rcases hr with (hr | hr) | hr
  · exact Or.inl (Or.inl (Or.inl hr))
  · cases n with
    | condition i path o v =>
      refine Or.inr ⟨⟨i, outer, .condition path o v⟩, Or.inl (Or.inr ?_), path, o, v, rfl, ?_⟩
      · exact List.mem_singleton_self _
      · rw [List.mem_singleton.mp hr]
    | logical i o ns => exact Or.inl (Or.inl (Or.inr hr))
    | embedded i path o ns => exact Or.inl (Or.inl (Or.inr hr))
  · exact Or.inl (Or.inr hr)

theorem IsTidy.update (h : e.IsTidy) {id : NodeId} {n : Node NodeId} (hn : e.find? id = some n)
    (op : Comparison) {value : Operand} (hvalue : value.toJson.DistinctKeys) :
    IsTidy { e with tree := Forest.modify id (Node.compare op value) e.tree } := by
  intro r hr
  rcases mem_rows_compare hn hr with hr | ⟨s, hs, path, o, v, hold, hnew⟩
  · exact h r hr
  · have hs := h s hs
    rw [hold] at hs
    rw [hnew]
    exact ⟨hs.1, hvalue⟩

theorem IsTidy.remove (h : e.IsTidy) (id : NodeId) : (e.remove id).2.IsTidy :=
  fun r hr => h r (rows_remove_subset e id hr)

/-- A tidy command keeps the tree tidy. -/
theorem IsTidy.step (h : e.IsTidy) {c : Command} (hc : c.IsTidy) : (e.step c).IsTidy := by
  cases hexecute : e.execute c with
  | error refusal e' =>
    rw [step_of_error hexecute]
    exact h
  | ok reply e' =>
    rw [step_of_ok hexecute]
    cases performs_of_execute hexecute with
    | add content parent hadds hvalue hparent => exact h.insert (hc.of_addition? hadds) hparent
    | update id op value n hvalue hn hkind => exact h.update hn op hc
    | remove id => exact h.remove id
    | clear => exact fun r hr => absurd hr List.not_mem_nil
    | load query => exact isTidy_load e hc

/-! ## Tidy runs -/

/-- The editors that runs of tidy commands lead to, from any start. -/
inductive TidyReachable : Editor → Prop where
  | new (settings : Settings) : TidyReachable { settings := settings }
  | query {query : Json} (h : query.DistinctKeys) : TidyReachable (ofQuery query)
  | text {text : String} {e : Editor} (h : ofText? text = some e) : TidyReachable e
  | step {e : Editor} {c : Command} (h : TidyReachable e) (hc : c.IsTidy) : TidyReachable (e.step c)

theorem TidyReachable.isTidy (h : e.TidyReachable) : e.IsTidy := by
  induction h with
  | new settings => exact fun r hr => absurd hr List.not_mem_nil
  | query h => exact isTidy_load {} h
  | text h =>
    -- the query of a text has distinct keys, however the text is written
    obtain ⟨q, hq, rfl⟩ := Option.map_eq_some_iff.mp h
    obtain ⟨v, -, rfl⟩ := Option.map_eq_some_iff.mp hq
    exact isTidy_load {} (Json.distinctKeys_normalize v)
  | step h hc ih => exact ih.step hc

theorem TidyReachable.run (h : e.TidyReachable) {cs : List Command} (hcs : ∀ c ∈ cs, c.IsTidy) :
    (e.run cs).TidyReachable := by
  induction cs generalizing e with
  | nil => exact h
  | cons c cs ih =>
    exact ih (h.step (hcs c List.mem_cons_self)) fun d hd => hcs d (List.mem_cons_of_mem _ hd)

end Editor

end FilterTree
