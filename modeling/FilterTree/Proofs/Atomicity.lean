import FilterTree.Editor.Command

/-!
# Edits that are refused

An edit hands on the editor also if it is refused, and with it all that it has changed by then. No
command has changed anything by then (`Editor.isAtomic_execute`): checks only look at the editor,
and what comes after the last of them cannot be refused.
-/

namespace FilterTree

namespace Edit

variable {α β : Type} {e e' : Editor}

/-! ## One step after another -/

theorem bind_apply (x : Edit α) (f : α → Edit β) (e : Editor) :
    (x >>= f) e =
      match x e with
      | .ok a e => f a e
      | .error refusal e => .error refusal e := by
  change EStateM.bind x f e = _
  rw [EStateM.bind]
  cases x e <;> rfl

/-- An edit that is carried out is carried out at each step. -/
theorem exists_of_bind_ok {x : Edit α} {f : α → Edit β} {b : β} (h : (x >>= f) e = .ok b e') :
    ∃ a e₁, x e = .ok a e₁ ∧ f a e₁ = .ok b e' := by
  rw [bind_apply] at h
  cases hx : x e with
  | ok a e₁ =>
    rw [hx] at h
    exact ⟨a, e₁, rfl, h⟩
  | error refusal e₁ =>
    rw [hx] at h
    cases h

theorem bind_pure_of_ok {x : Edit α} {a : α} (h : x e = .ok a e') (f : α → β) :
    (x >>= fun a => pure (f a)) e = .ok (f a) e' := by
  rw [bind_apply, h]
  rfl

theorem exists_of_bind_pure_ok {x : Edit α} {f : α → β} {b : β}
    (h : (x >>= fun a => pure (f a)) e = .ok b e') : ∃ a, x e = .ok a e' ∧ f a = b := by
  obtain ⟨a, e₁, hx, h⟩ := exists_of_bind_ok h
  obtain ⟨hb, rfl⟩ := EStateM.Result.ok.inj h
  exact ⟨a, hx, hb⟩

/-- A check refuses the edit or leaves the rest of it to do. -/
theorem require_bind (check : Editor → Except Refusal Unit) (f : Unit → Edit α) (e : Editor) :
    (Editor.require check >>= f) e =
      match check e with
      | .ok u => f u e
      | .error refusal => .error refusal e := by
  have hrequire : Editor.require check e = (ofExcept (check e) : Edit Unit) e := rfl
  rw [bind_apply, hrequire]
  cases check e <;> rfl

/-! ## Edits that are carried out as a whole or not at all -/

/-- Whether an edit leaves the editor as it was whenever it is refused. -/
def IsAtomic (x : Edit α) : Prop := ∀ e refusal e', x e = .error refusal e' → e' = e

theorem isAtomic_of_ok {x : Edit α} (h : ∀ e, ∃ a e', x e = .ok a e') : x.IsAtomic := by
  intro e refusal e' hrefused
  obtain ⟨a, e₁, hok⟩ := h e
  rw [hok] at hrefused
  cases hrefused

theorem IsAtomic.require {check : Editor → Except Refusal Unit} {f : Unit → Edit α}
    (h : (f ()).IsAtomic) : IsAtomic (Editor.require check >>= f) := by
  intro e refusal e' hrefused
  rw [require_bind] at hrefused
  cases hcheck : check e with
  | ok u =>
    rw [hcheck] at hrefused
    exact h e refusal e' hrefused
  | error found =>
    rw [hcheck] at hrefused
    exact (EStateM.Result.error.inj hrefused).2.symm

/-- To change the answer is no step that could be refused. -/
theorem IsAtomic.bind_pure {x : Edit α} (h : x.IsAtomic) (f : α → β) :
    IsAtomic (x >>= fun a => pure (f a)) := by
  intro e refusal e' hrefused
  rw [bind_apply] at hrefused
  cases hx : x e with
  | ok a e₁ =>
    rw [hx] at hrefused
    cases hrefused
  | error found e₁ =>
    rw [hx] at hrefused
    obtain ⟨-, rfl⟩ := EStateM.Result.error.inj hrefused
    exact h e found e₁ hx

end Edit

namespace Editor

open Edit (IsAtomic)

theorem isAtomic_attach (parent : Option NodeId) (node : NodeId → Node NodeId) :
    IsAtomic (attach parent node) :=
  .require (Edit.isAtomic_of_ok fun _ => ⟨_, _, rfl⟩)

theorem isAtomic_addCondition (path : Path) (op : Comparison) (value : Operand)
    (parent : Option NodeId) : IsAtomic (addCondition path op value parent) :=
  .require (isAtomic_attach parent _)

theorem isAtomic_update (id : NodeId) (op : Comparison) (value : Operand) :
    IsAtomic (update id op value) :=
  .require (.require (Edit.isAtomic_of_ok fun _ => ⟨_, _, rfl⟩))

/-- No command changes anything if it is refused. -/
theorem isAtomic_execute (c : Command) : IsAtomic (execute c) := by
  cases c with
  | addCondition path op value parent =>
    exact (isAtomic_addCondition path op value parent).bind_pure _
  | addLogical op parent => exact (isAtomic_attach parent _).bind_pure _
  | addEmbedded path op parent => exact (isAtomic_attach parent _).bind_pure _
  | update id op value => exact (isAtomic_update id op value).bind_pure fun _ => Reply.updated
  -- these are never refused
  | remove id => exact Edit.isAtomic_of_ok fun _ => ⟨_, _, rfl⟩
  | clear => exact Edit.isAtomic_of_ok fun _ => ⟨_, _, rfl⟩
  | load query => exact Edit.isAtomic_of_ok fun _ => ⟨_, _, rfl⟩

theorem step_of_ok {e e' : Editor} {c : Command} {reply : Reply}
    (h : e.execute c = .ok reply e') : e.step c = e' := by
  rw [step, h]

/-- A command that is refused leaves the editor as it was. -/
theorem step_of_error {e e' : Editor} {c : Command} {refusal : Refusal}
    (h : e.execute c = .error refusal e') : e.step c = e := by
  rw [step, h]
  exact isAtomic_execute c e refusal e' h

theorem step_of_refused {e : Editor} {c : Command} {refusal : Refusal}
    (h : e.perform c = .error refusal) : e.step c = e := by
  rw [perform] at h
  cases hexecute : e.execute c with
  | ok reply e' =>
    rw [hexecute] at h
    cases h
  | error found e' => exact step_of_error hexecute

end Editor

end FilterTree
