import FilterTree.Proofs.Atomicity
import FilterTree.Proofs.Forest

/-!
# Steps of an editor

What each command does to an editor if it is carried out (`Editor.performs_of_execute`), all that
any of them can do (`Editor.change_step`), and the editors that runs lead to (`Editor.Reachable`).
-/

namespace FilterTree

/-- The node that a command adds, and the parent that it names for it. -/
def Command.addition? : Command → Option (Content × Option NodeId)
  | addCondition path op value parent => some (.condition path op value, parent)
  | addLogical op parent => some (.logical op, parent)
  | addEmbedded path op parent => some (.embedded path op, parent)
  | update .. | remove _ | clear | load _ => none

namespace Editor

/-- What a command can do to an editor. -/
inductive Change (e : Editor) : Editor → Prop where
  /-- It was refused, or there was nothing to remove. -/
  | none : Change e e
  | attach (parent : Option NodeId) (c : Content)
      (hparent : ∀ id, parent = some id → ∃ n, e.find? id = some n ∧ n.isContainer = true) :
      Change e { e with tree := Forest.insert parent (c.node e.nextId) e.tree,
                        nextId := e.nextId + 1 }
  | update (id : NodeId) (op : Comparison) (value : Operand) (n : Node NodeId)
      (hn : e.find? id = some n) (hkind : n.kind = .condition) :
      Change e { e with tree := Forest.modify id (Node.compare op value) e.tree }
  | remove (id : NodeId) (tree : Tree) (htree : Forest.remove? id e.tree = some tree) :
      Change e { e with tree := tree }
  | clear : Change e e.clear
  | load (query : Json) : Change e (e.load query)

/-! ## Checks -/

theorem checkParent_eq_ok_iff {e : Editor} {parent : Option NodeId} :
    e.checkParent parent = .ok () ↔
      ∀ id, parent = some id → ∃ n, e.find? id = some n ∧ n.isContainer = true := by
  cases parent with
  | none => exact iff_of_true rfl fun id hid => by cases hid
  | some id =>
    simp only [checkParent, Option.some.injEq, forall_eq']
    cases e.find? id with
    | none => simp
    | some n => cases hn : n.isContainer <;> simp [hn]

theorem checkCondition_eq_ok_iff {e : Editor} {id : NodeId} :
    e.checkCondition id = .ok () ↔ ∃ n, e.find? id = some n ∧ n.kind = .condition := by
  rw [checkCondition]
  cases e.find? id with
  | none => simp
  | some n => cases hn : n.kind <;> simp [hn]

/-! ## Edits -/

/-- A node is added with the next free identifier where nodes can be added. -/
theorem attach_eq (e : Editor) (parent : Option NodeId) (node : NodeId → Node NodeId) :
    e.attach parent node =
      match e.checkParent parent with
      | .ok _ => .ok e.nextId { e with tree := Forest.insert parent (node e.nextId) e.tree,
                                       nextId := e.nextId + 1 }
      | .error refusal => .error refusal e := by
  refine (Edit.require_bind (·.checkParent parent) _ e).trans ?_
  cases e.checkParent parent <;> rfl

/-- The value of a condition is checked before anything else. -/
theorem addCondition_eq (e : Editor) (path : Path) (op : Comparison) (value : Operand)
    (parent : Option NodeId) :
    e.addCondition path op value parent =
      match e.checkValue op value with
      | .ok _ => e.attach parent fun id => .condition id path op value
      | .error refusal => .error refusal e := by
  refine (Edit.require_bind (·.checkValue op value) _ e).trans ?_
  cases e.checkValue op value <;> rfl

theorem update_eq (e : Editor) (id : NodeId) (op : Comparison) (value : Operand) :
    e.update id op value =
      match e.checkValue op value with
      | .ok _ =>
        match e.checkCondition id with
        | .ok _ => .ok () { e with tree := Forest.modify id (Node.compare op value) e.tree }
        | .error refusal => .error refusal e
      | .error refusal => .error refusal e := by
  refine (Edit.require_bind (·.checkValue op value) _ e).trans ?_
  cases e.checkValue op value with
  | ok u =>
    refine (Edit.require_bind (·.checkCondition id) _ e).trans ?_
    cases e.checkCondition id <;> rfl
  | error refusal => rfl

/-- What is added has the next free identifier, and its parent, if any, is a container. -/
theorem eq_of_attach {e e' : Editor} {parent : Option NodeId} {node : NodeId → Node NodeId}
    {id : NodeId} (h : e.attach parent node = .ok id e') :
    id = e.nextId ∧
      e' = { e with tree := Forest.insert parent (node e.nextId) e.tree, nextId := e.nextId + 1 } ∧
      ∀ p, parent = some p → ∃ n, e.find? p = some n ∧ n.isContainer = true := by
  rw [attach_eq] at h
  cases hparent : e.checkParent parent with
  | ok u =>
    rw [hparent] at h
    obtain ⟨rfl, rfl⟩ := EStateM.Result.ok.inj h
    exact ⟨rfl, rfl, checkParent_eq_ok_iff.mp hparent⟩
  | error refusal =>
    rw [hparent] at h
    cases h

theorem change_attach {e e' : Editor} {parent : Option NodeId} {c : Content} {id : NodeId}
    (h : e.attach parent c.node = .ok id e') : id = e.nextId ∧ e.Change e' := by
  obtain ⟨rfl, rfl, hparent⟩ := eq_of_attach h
  exact ⟨rfl, .attach parent c hparent⟩

/-- A condition is added, and its value has passed the check. -/
theorem attach_of_addCondition {e e' : Editor} {path : Path} {op : Comparison} {value : Operand}
    {parent : Option NodeId} {id : NodeId} (h : e.addCondition path op value parent = .ok id e') :
    e.checkValue op value = .ok () ∧
      e.attach parent (Content.condition path op value).node = .ok id e' := by
  rw [addCondition_eq] at h
  cases hvalue : e.checkValue op value with
  | ok u =>
    rw [hvalue] at h
    exact ⟨rfl, h⟩
  | error refusal =>
    rw [hvalue] at h
    cases h

/-- A condition is updated, and its value has passed the check. -/
theorem eq_of_update {e e' : Editor} {id : NodeId} {op : Comparison} {value : Operand} {u : Unit}
    (h : e.update id op value = .ok u e') :
    e.checkValue op value = .ok () ∧
      e' = { e with tree := Forest.modify id (Node.compare op value) e.tree } ∧
      ∃ n, e.find? id = some n ∧ n.kind = .condition := by
  rw [update_eq] at h
  cases hvalue : e.checkValue op value with
  | ok u =>
    rw [hvalue] at h
    cases hnode : e.checkCondition id with
    | ok u =>
      simp only [hnode] at h
      exact ⟨rfl, (EStateM.Result.ok.inj h).2.symm, checkCondition_eq_ok_iff.mp hnode⟩
    | error refusal =>
      simp only [hnode] at h
      cases h
  | error refusal =>
    rw [hvalue] at h
    cases h

/-! ## Commands that are carried out -/

/-- Whether the value of a new node passes the check. -/
def Passes (e : Editor) : Content → Prop
  | .condition _ op value => e.checkValue op value = .ok ()
  | .logical _ | .embedded .. => True

/-- What a command that is not refused does, and what it answers. -/
inductive Performs (e : Editor) : Command → Reply → Editor → Prop where
  | add {c : Command} (content : Content) (parent : Option NodeId)
      (hadds : c.addition? = some (content, parent)) (hvalue : e.Passes content)
      (hparent : ∀ id, parent = some id → ∃ n, e.find? id = some n ∧ n.isContainer = true) :
      Performs e c (.added e.nextId)
        { e with tree := Forest.insert parent (content.node e.nextId) e.tree,
                 nextId := e.nextId + 1 }
  | update (id : NodeId) (op : Comparison) (value : Operand) (n : Node NodeId)
      (hvalue : e.checkValue op value = .ok ()) (hn : e.find? id = some n)
      (hkind : n.kind = .condition) :
      Performs e (.update id op value) .updated
        { e with tree := Forest.modify id (Node.compare op value) e.tree }
  | remove (id : NodeId) : Performs e (.remove id) (.removed (e.remove id).1) (e.remove id).2
  | clear : Performs e .clear .cleared e.clear
  | load (query : Json) :
      Performs e (.load query) (.loaded (e.load query).tree.length) (e.load query)

theorem performs_of_attach {e e' : Editor} {c : Command} (content : Content)
    {parent : Option NodeId} {id : NodeId} (hadds : c.addition? = some (content, parent))
    (hvalue : e.Passes content) (h : e.attach parent content.node = .ok id e') :
    e.Performs c (.added id) e' := by
  obtain ⟨rfl, rfl, hparent⟩ := eq_of_attach h
  exact .add content parent hadds hvalue hparent

theorem performs_of_execute {e e' : Editor} {c : Command} {reply : Reply}
    (h : e.execute c = .ok reply e') : e.Performs c reply e' := by
  cases c with
  | addCondition path op value parent =>
    obtain ⟨id, hadd, rfl⟩ := Edit.exists_of_bind_pure_ok h
    obtain ⟨hvalue, hattach⟩ := attach_of_addCondition hadd
    exact performs_of_attach (.condition path op value) rfl hvalue hattach
  | addLogical op parent =>
    obtain ⟨id, hadd, rfl⟩ := Edit.exists_of_bind_pure_ok h
    exact performs_of_attach (.logical op) rfl trivial hadd
  | addEmbedded path op parent =>
    obtain ⟨id, hadd, rfl⟩ := Edit.exists_of_bind_pure_ok h
    exact performs_of_attach (.embedded path op) rfl trivial hadd
  | update id op value =>
    obtain ⟨u, hupdate, rfl⟩ := Edit.exists_of_bind_pure_ok (f := fun _ => Reply.updated) h
    obtain ⟨hvalue, rfl, n, hn, hkind⟩ := eq_of_update hupdate
    exact .update id op value n hvalue hn hkind
  | remove id =>
    obtain ⟨rfl, rfl⟩ := EStateM.Result.ok.inj h
    exact .remove id
  | clear =>
    obtain ⟨rfl, rfl⟩ := EStateM.Result.ok.inj h
    exact .clear
  | load query =>
    obtain ⟨rfl, rfl⟩ := EStateM.Result.ok.inj h
    exact .load query

theorem change_remove (e : Editor) (id : NodeId) : e.Change (e.remove id).2 := by
  rw [remove]
  cases htree : Forest.remove? id e.tree with
  | none => exact .none
  | some tree => exact .remove id tree htree

theorem change_execute {e e' : Editor} {c : Command} {reply : Reply}
    (h : e.execute c = .ok reply e') : e.Change e' := by
  cases performs_of_execute h with
  | add content parent hadds hvalue hparent => exact .attach parent content hparent
  | update id op value n hvalue hn hkind => exact .update id op value n hn hkind
  | remove id => exact change_remove e id
  | clear => exact .clear
  | load query => exact .load query

/-- A step is one of the changes. -/
theorem change_step (e : Editor) (c : Command) : e.Change (e.step c) := by
  cases h : e.execute c with
  | ok reply e' =>
    rw [step_of_ok h]
    exact change_execute h
  | error refusal e' =>
    rw [step_of_error h]
    exact .none

/-- What an editor checks is settled when it is made. -/
theorem Change.settings_eq {e e' : Editor} (h : e.Change e') : e'.settings = e.settings := by
  cases h with
  | none => rfl
  | attach parent c hparent => rfl
  | update id op value n hn hkind => rfl
  | remove id tree htree => rfl
  | clear => rfl
  | load query => rfl

theorem settings_run (e : Editor) (cs : List Command) : (e.run cs).settings = e.settings := by
  induction cs generalizing e with
  | nil => rfl
  | cons c cs ih => exact (ih (e.step c)).trans (change_step e c).settings_eq

/-! ## Runs -/

/-- The ways to make an editor. -/
inductive IsStart : Editor → Prop where
  | new : IsStart {}
  | configured (settings : Settings) : IsStart { settings := settings }
  | query (query : Json) : IsStart (ofQuery query)
  | text {text : String} {e : Editor} (h : ofText? text = some e) : IsStart e

/-- The editors that some run leads to. -/
inductive Reachable : Editor → Prop where
  | start {e : Editor} (h : IsStart e) : Reachable e
  | step {e : Editor} (c : Command) (h : Reachable e) : Reachable (e.step c)

theorem Reachable.run {e : Editor} (h : e.Reachable) (cs : List Command) :
    (e.run cs).Reachable := by
  induction cs generalizing e with
  | nil => exact h
  | cons c cs ih => exact ih (.step c h)

/-- A text makes the editor that its query makes. -/
theorem isStart_cases {e : Editor} (h : e.IsStart) :
    (∃ settings, e = { settings := settings }) ∨ ∃ query, e = ofQuery query := by
  cases h with
  | new => exact Or.inl ⟨{}, rfl⟩
  | configured settings => exact Or.inl ⟨settings, rfl⟩
  | query query => exact Or.inr ⟨query, rfl⟩
  | text h =>
    obtain ⟨query, -, rfl⟩ := Option.map_eq_some_iff.mp h
    exact Or.inr ⟨query, rfl⟩

end Editor

end FilterTree
