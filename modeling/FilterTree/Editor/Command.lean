import FilterTree.Editor.Basic

/-!
# Commands

The edits as data, so that a run of an editor is a list of commands. After a command that is refused
the run goes on with the editor that the command has left.
-/

namespace FilterTree

inductive Command where
  | addCondition (path : Path) (op : Comparison) (value : Operand) (parent : Option NodeId)
  | addLogical (op : Connective) (parent : Option NodeId)
  | addEmbedded (path : Path) (op : Quantifier) (parent : Option NodeId)
  | update (id : NodeId) (op : Comparison) (value : Operand)
  | remove (id : NodeId)
  | clear
  | load (query : Json)
deriving DecidableEq, Repr

/-- What a command answers. -/
inductive Reply where
  | added (id : NodeId)
  | updated
  | removed (found : Bool)
  | cleared
  | loaded (roots : Nat)
deriving DecidableEq, Repr

namespace Editor

/-- Carries out a command. -/
def execute : Command → Edit Reply
  | .addCondition path op value parent => return .added (← addCondition path op value parent)
  | .addLogical op parent => return .added (← addLogical op parent)
  | .addEmbedded path op parent => return .added (← addEmbedded path op parent)
  | .update id op value => do
    update id op value
    return .updated
  | .remove id => return .removed (← modifyGet (·.remove id))
  | .clear => do
    modify clear
    return .cleared
  | .load query => do
    modify (·.load query)
    return .loaded (← get).tree.length

/-- The editor after a command, whether the command is carried out or refused. -/
def step (e : Editor) (c : Command) : Editor :=
  match e.execute c with
  | .ok _ e | .error _ e => e

/-- What a command answers, with the editor after it, or why it is refused. -/
def perform (e : Editor) (c : Command) : Except Refusal (Reply × Editor) :=
  match e.execute c with
  | .ok reply e => .ok (reply, e)
  | .error refusal _ => .error refusal

/-- The editor after a list of commands. -/
def run (e : Editor) (cs : List Command) : Editor := cs.foldl step e

@[simp] theorem run_nil (e : Editor) : e.run [] = e := rfl

theorem run_append (e : Editor) (cs ds : List Command) :
    e.run (cs ++ ds) = (e.run cs).run ds := List.foldl_append

end Editor

end FilterTree
