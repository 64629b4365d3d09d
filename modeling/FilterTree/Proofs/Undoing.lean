import FilterTree.Proofs.Grafts

/-!
# Undoing by removal

A new container has an identifier above all that are in the tree, and so has all that is put into it
later. Edits that name only such identifiers therefore stay inside it, as long as it is there: the
tree is at all times the old one with at most this container grafted on (`Forest.Carries`,
`Editor.carries_run`). Removing the container removes all traces of them.
-/

namespace FilterTree

/-- The node that a command works on: the one that gets a child, or that is updated or removed. -/
def Command.target? : Command → Option NodeId
  | addCondition _ _ _ parent | addLogical _ parent | addEmbedded _ _ parent => parent
  | update id _ _ | remove id => some id
  | clear | load _ => none

/-- Whether a command adds to, updates or removes a node called `first` or later. -/
def Command.WorksFrom (first : NodeId) (c : Command) : Prop := ∃ id ∈ c.target?, first ≤ id

instance (first : NodeId) : DecidablePred (Command.WorksFrom first) := fun c =>
  inferInstanceAs (Decidable (∃ id ∈ c.target?, first ≤ id))

/-- What adds a node works on the parent that it names. -/
theorem Command.target?_of_addition? {c : Command} {content : Content} {parent : Option NodeId}
    (hadds : c.addition? = some (content, parent)) : c.target? = parent := by
  cases c with
  | addCondition path op value p => exact (Prod.mk.inj (Option.some.inj hadds)).2
  | addLogical op p => exact (Prod.mk.inj (Option.some.inj hadds)).2
  | addEmbedded path op p => exact (Prod.mk.inj (Option.some.inj hadds)).2
  | update id op value => cases hadds
  | remove id => cases hadds
  | clear => cases hadds
  | load query => cases hadds

/-! ## Trees with a node grafted on -/

namespace Forest

variable {id n : NodeId} {parent : Option NodeId} {base ns : Tree}
  {f : Node NodeId → Option (Node NodeId)}

/-- Whether a tree is `base` with at most one node grafted on, which is called `n`. -/
def Carries (parent : Option NodeId) (n : NodeId) (base ns : Tree) : Prop :=
  ∃ m : Option (Node NodeId), (∀ x ∈ m, x.id = n) ∧ ns = graft parent m.toList base

/-- What is done to a node that is not in the old tree is done to the graft, which may go. -/
theorem Carries.alter (h : Carries parent n base ns) (hid : id ∉ ids base)
    (hf : Node.KeepsId f) : Carries parent n base (alter id f ns) := by
  obtain ⟨m, hm, rfl⟩ := h
  rw [alter_graft parent _ hid]
  cases m with
  | none => exact ⟨none, hm, rfl⟩
  | some x =>
    by_cases hx : x.id = id
    · refine ⟨f x, ?_, ?_⟩
      · intro y hy
        exact (hf x y hy).trans (hm x rfl)
      · rw [Option.toList_some, alter_self hx]
    · refine ⟨some (x.hold (Forest.alter id f x.children)), ?_, ?_⟩
      · intro y hy
        rw [← Option.some.inj hy, Node.id_hold]
        exact hm x rfl
      · rw [Option.toList_some, alter_inside hx]
        rfl

/-- Without the graft there is the old tree. -/
theorem Carries.remove (h : Carries parent n base ns) (hn : n ∉ ids base) :
    Forest.alter n (fun _ => none) ns = base := by
  obtain ⟨m, hm, rfl⟩ := h
  rw [alter_graft parent _ hn]
  cases m with
  | none => exact graft_nil parent base
  | some x =>
    rw [Option.toList_some, alter_self (hm x rfl)]
    exact graft_nil parent base

end Forest

namespace Editor

variable {e e' s : Editor} {n : NodeId} {parent : Option NodeId}

/-! ## Edits at one node -/

theorem tree_remove (hv : e.Valid) (id : NodeId) :
    (e.remove id).2.tree = Forest.alter id (fun _ => none) e.tree := by
  rw [remove]
  by_cases hmem : id ∈ e.ids
  · rw [Forest.remove?_eq_alter hv.nodup hmem]
  · rw [Forest.remove?_of_notMem hmem]
    exact (Forest.alter_of_notMem hmem).symm

/-- A command alters the node that it works on and no other. -/
theorem exists_alter_execute (hv : e.Valid) {c : Command} {id : NodeId} (hid : id ∈ c.target?)
    {reply : Reply} (h : e.execute c = .ok reply e') :
    ∃ f, Node.KeepsId f ∧ e'.tree = Forest.alter id f e.tree := by
  cases performs_of_execute h with
  | add content parent hadds hvalue hparent =>
    obtain rfl : parent = some id := (Command.target?_of_addition? hadds).symm.trans hid
    exact ⟨_, Node.keepsId_some (Node.id_push _), Forest.modify_eq_alter hv.nodup _⟩
  | update i op value n hvalue hn hkind =>
    obtain rfl : i = id := Option.some.inj hid
    exact ⟨_, Node.keepsId_some (Node.id_compare op value), Forest.modify_eq_alter hv.nodup _⟩
  | remove i =>
    obtain rfl : i = id := Option.some.inj hid
    refine ⟨fun _ => none, ?_, tree_remove hv i⟩
    intro x y hy
    cases hy
  | clear => cases hid
  | load query => cases hid

/-! ## Work inside a new node -/

/-- A command on a node that is not in the old tree stays inside the graft. A refused one changes
nothing. -/
theorem carries_step (hv : e.Valid) {base : Tree} (h : Forest.Carries parent n base e.tree)
    {c : Command} {id : NodeId} (hid : id ∈ c.target?) (hbase : id ∉ Forest.ids base) :
    Forest.Carries parent n base (e.step c).tree := by
  cases hexecute : e.execute c with
  | error refusal e' =>
    rw [step_of_error hexecute]
    exact h
  | ok reply e' =>
    obtain ⟨f, hf, htree⟩ := exists_alter_execute hv hid hexecute
    rw [step_of_ok hexecute, htree]
    exact h.alter hbase hf

/-- The old tree has no identifier from `n` on, now or later, so each command stays inside the
graft. -/
theorem carries_run (hv : e.Valid) {base : Tree} (hbase : ∀ id ∈ Forest.ids base, id < n)
    (h : Forest.Carries parent n base e.tree) {cs : List Command}
    (hcs : ∀ c ∈ cs, c.WorksFrom n) : Forest.Carries parent n base (e.run cs).tree := by
  induction cs generalizing e with
  | nil => exact h
  | cons c cs ih =>
    obtain ⟨id, hid, hle⟩ := hcs c List.mem_cons_self
    have hnot : id ∉ Forest.ids base := fun hmem => Nat.not_le.mpr (hbase id hmem) hle
    exact ih ((change_step e c).valid hv) (carries_step hv h hid hnot)
      fun d hd => hcs d (List.mem_cons_of_mem _ hd)

/-- A new container is the graft. -/
theorem carries_attach (hv : s.Valid) {c : Content}
    (h : s.attach parent c.node = .ok n e) : Forest.Carries parent n s.tree e.tree := by
  obtain ⟨rfl, rfl, -⟩ := eq_of_attach h
  refine ⟨some (c.node s.nextId), ?_, Forest.insert_eq_graft hv.nodup parent _⟩
  intro x hx
  rw [← Option.some.inj hx, Content.id_node]

/-- In every state that a run leads to, work below a new container can be undone. If a combination
or an embedded filter is added as node `n`, and then nodes are added under, updated or removed only
if they are called `n` or later, whether these commands are carried out or refused, then the tree
without `n` is the tree from before, and writes the same query. -/
theorem remove_run_of_added (h : s.Reachable)
    (hadd : (∃ op, s.addLogical op parent = .ok n e) ∨
      ∃ path op, s.addEmbedded path op parent = .ok n e)
    {cs : List Command} (hcs : ∀ c ∈ cs, c.WorksFrom n) :
    ((e.run cs).remove n).2.tree = s.tree ∧ ((e.run cs).remove n).2.query? = s.query? := by
  have hv := h.valid
  obtain ⟨c, hattach⟩ : ∃ c : Content, s.attach parent c.node = .ok n e := by
    rcases hadd with ⟨op, hadd⟩ | ⟨path, op, hadd⟩
    · exact ⟨.logical op, hadd⟩
    · exact ⟨.embedded path op, hadd⟩
  obtain ⟨hn, hchange⟩ := change_attach hattach
  have hbelow : ∀ id ∈ s.ids, id < n := by
    intro id hid
    rw [hn]
    exact (hv.bounds id hid).2
  have hve := hchange.valid hv
  have hcarries := carries_run hve hbelow (carries_attach hv hattach) hcs
  have htree : ((e.run cs).remove n).2.tree = s.tree := by
    rw [tree_remove (hve.run cs)]
    exact hcarries.remove fun hmem => Nat.lt_irrefl n (hbelow n hmem)
  constructor
  · exact htree
  · unfold query?
    rw [htree]

/-- Work on and below a container called 4, where it has just been added. The third and the fourth
command are refused, and so is the last, whose parent is gone. -/
def workOnFour : List Command :=
  [.addLogical .and (some 4), .addCondition ["price"] .lt (.number (.int 9)) (some 5),
    .addLogical .or (some 6), .update 5 .gt .null, .update 6 .gt .null, .remove 6,
    .addEmbedded [] .noElement (some 6)]

theorem remove_run_workOnFour :
    ofThreeNodes.Reachable ∧
      (∃ e, ofThreeNodes.addEmbedded ["items"] .everyElement (some 1) = .ok 4 e ∧
        ((e.run workOnFour).remove 4).2.tree = ofThreeNodes.tree) ∧
      ∃ e, ofThreeNodes.addLogical .not none = .ok 4 e ∧
        ((e.run (workOnFour ++ [.remove 4, .addLogical .and (some 4)])).remove 4).2.query? =
          ofThreeNodes.query? := by
  have h : ofThreeNodes.Reachable := (Reachable.start .new).run _
  have hembedded : ofThreeNodes.addEmbedded ["items"] .everyElement (some 1) =
      .ok 4 (ofThreeNodes.step (.addEmbedded ["items"] .everyElement (some 1))) := rfl
  have hlogical : ofThreeNodes.addLogical .not none =
      .ok 4 (ofThreeNodes.step (.addLogical .not none)) := rfl
  refine ⟨h, ⟨_, hembedded, ?_⟩, ⟨_, hlogical, ?_⟩⟩
  · exact (remove_run_of_added h (Or.inr ⟨_, _, hembedded⟩) (by decide)).1
  · exact (remove_run_of_added h (Or.inl ⟨_, hlogical⟩) (by decide)).2

end Editor

end FilterTree
