import FilterTree.Proofs.Rewriting

/-!
# Values in a strict editor

A strict editor checks the values of the conditions that it adds and updates, but not of those that
it loads. So a condition whose comparison does not accept its value must have come in with a query,
and no update of it can have been carried out since (`Editor.contract_of_strict`). `Editor.Happens`
speaks of the past of a run: at some command, in the state in which it was given, something was the
case.
-/

namespace FilterTree

/-- Whether the comparison of a condition accepts its value. -/
def Content.isAccepted : Content → Bool
  | condition _ op value => op.accepts value
  | logical _ | embedded .. => true

/-- An update to a value that is accepted leaves none behind that is not. -/
theorem Content.isAccepted_compare {op : Comparison} {value : Operand}
    (h : op.accepts value = true) (c : Content) : (c.compare op value).isAccepted = true := by
  cases c with
  | condition path o v => exact h
  | logical o => rfl
  | embedded path o => rfl

namespace Editor

variable {e e' : Editor} {c : Command} {cs : List Command} {id : NodeId} {op : Comparison}
  {value : Operand} {r : Row NodeId}

/-! ## The past of a run -/

/-- Whether some command of a run has a property, in the state in which it is given. -/
def Happens (P : Editor → Command → Prop) (e : Editor) (cs : List Command) : Prop :=
  ∃ before c, before ++ [c] <+: cs ∧ P (e.run before) c

/-- What has happened in a run with one more command happened before, or does so now. -/
theorem happens_concat {P : Editor → Command → Prop} :
    Happens P e (cs ++ [c]) ↔ Happens P e cs ∨ P (e.run cs) c := by
  constructor
  · rintro ⟨before, d, hwithin, hd⟩
    rcases List.prefix_concat_iff.mp hwithin with heq | hwithin
    · obtain ⟨rfl, rfl⟩ := List.append_singleton_inj.mp heq
      exact Or.inr hd
    · exact Or.inl ⟨before, d, hwithin, hd⟩
  · rintro (⟨before, d, hwithin, hd⟩ | hc)
    · exact ⟨before, d, hwithin.trans (List.prefix_append cs [c]), hd⟩
    · exact ⟨cs, c, List.prefix_refl _, hc⟩

/-- Whether a command loads a query, and the identifier is one of those that this uses up. -/
def Loads (id : NodeId) (e : Editor) (c : Command) : Prop :=
  ∃ query, c = .load query ∧ e.nextId ≤ id ∧ id < (e.load query).nextId

/-- Whether a command updates a node, and is not refused. -/
def Revises (id : NodeId) (e : Editor) (c : Command) : Prop :=
  ∃ op value e', c = .update id op value ∧ e.update id op value = .ok () e'

/-- What is updated is in the tree. -/
theorem mem_ids_of_revises (h : e.Revises id c) : id ∈ e.ids := by
  obtain ⟨op, value, e', -, hupdate⟩ := h
  obtain ⟨-, -, n, hn, -⟩ := eq_of_update hupdate
  exact Forest.mem_ids_of_find? hn

/-- An identifier that is still free has never been updated. -/
theorem not_happens_revises (hv : e.Valid) (hid : (e.run cs).nextId ≤ id) :
    ¬ Happens (Revises id) e cs := by
  rintro ⟨before, c, ⟨after, rfl⟩, hrevises⟩
  have hlt := ((hv.run before).bounds id (mem_ids_of_revises hrevises)).2
  have hle := (follows_run (e.run before) ([c] ++ after)).nextId_le
  rw [← run_append, ← List.append_assoc] at hle
  exact Nat.lt_irrefl id (Nat.lt_of_lt_of_le hlt (Nat.le_trans hle hid))

/-! ## One command -/

/-- What passes the check of a strict editor is accepted. -/
theorem accepts_of_checkValue (hstrict : e.settings.validateValues = true)
    (h : e.checkValue op value = .ok ()) : op.accepts value = true := by
  by_contra hnot
  rw [checkValue_of_rejects ⟨hstrict, eq_false_of_ne_true hnot⟩] at h
  cases h

theorem isAccepted_of_passes (hstrict : e.settings.validateValues = true) {content : Content}
    (h : e.Passes content) : content.isAccepted = true := by
  cases content with
  | condition path op value => exact accepts_of_checkValue hstrict h
  | logical op => rfl
  | embedded path op => rfl

/-- What is left unaccepted by an update to a value that is accepted is another condition. -/
theorem old_of_update (hv : e.Valid) (haccepts : op.accepts value = true)
    (hr : r ∈ Forest.rows none (Forest.modify id (Node.compare op value) e.tree))
    (hnot : r.content.isAccepted = false) : r ∈ e.rows ∧ r.id ≠ id := by
  rw [Forest.rows_modify_compare hv.nodup] at hr
  obtain ⟨s, hs, rfl⟩ := List.mem_map.mp hr
  rw [Row.compareAt] at hnot ⊢
  by_cases hid : s.id = id
  · rw [if_pos hid, s.content.isAccepted_compare haccepts] at hnot
    cases hnot
  · rw [if_neg hid]
    exact ⟨hs, hid⟩

/-- A value that is not accepted in a strict editor was there before, and not updated now, or it was
loaded now. -/
theorem old_or_loads_of_step (hv : e.Valid) (hstrict : e.settings.validateValues = true)
    (hr : r ∈ (e.step c).rows) (hnot : r.content.isAccepted = false) :
    (r ∈ e.rows ∧ ¬ e.Revises r.id c) ∨ e.Loads r.id c := by
  cases hexecute : e.execute c with
  | error refusal e₁ =>
    rw [step_of_error hexecute] at hr
    refine Or.inl ⟨hr, ?_⟩
    rintro ⟨op, value, e', rfl, hupdate⟩
    rw [execute, Edit.bind_pure_of_ok hupdate fun _ => Reply.updated] at hexecute
    cases hexecute
  | ok reply e₁ =>
    rw [step_of_ok hexecute] at hr
    cases performs_of_execute hexecute with
    | add content parent hadds hvalue hparent =>
      rcases List.mem_cons.mp ((rows_insert content hparent).mem_iff.mp hr) with rfl | hr
      · rw [isAccepted_of_passes hstrict hvalue] at hnot
        cases hnot
      · refine Or.inl ⟨hr, ?_⟩
        rintro ⟨op, value, e', rfl, -⟩
        cases hadds
    | update id op value n hvalue hn hkind =>
      obtain ⟨hr, hid⟩ := old_of_update hv (accepts_of_checkValue hstrict hvalue) hr hnot
      refine Or.inl ⟨hr, ?_⟩
      rintro ⟨o, v, e', hupdate, -⟩
      exact hid (Command.update.inj hupdate).1.symm
    | remove id =>
      refine Or.inl ⟨rows_remove_subset e id hr, ?_⟩
      rintro ⟨op, value, e', hremove, -⟩
      cases hremove
    | clear => exact absurd hr List.not_mem_nil
    | load query =>
      refine Or.inr ⟨query, rfl, ?_⟩
      have hid : r.id ∈ (e.load query).ids := mem_ids.mpr ⟨r, hr, rfl⟩
      rw [ids_load, List.mem_range'_1] at hid
      exact hid

/-- A value that is not accepted at the end of a strict run came in with a query, and was not
updated after that. -/
theorem loads_of_run (hv : e.Valid) (hstrict : e.settings.validateValues = true)
    (hold : ∀ r ∈ e.rows, r.content.isAccepted = true) (cs : List Command) :
    ∀ r ∈ (e.run cs).rows, r.content.isAccepted = false →
      Happens (Loads r.id) e cs ∧ ¬ Happens (Revises r.id) e cs := by
  induction cs using List.reverseRecOn with
  | nil =>
    intro r hr hnot
    rw [hold r hr] at hnot
    cases hnot
  | append_singleton cs c ih =>
    intro r hr hnot
    have hstrict' : (e.run cs).settings.validateValues = true := by rw [settings_run, hstrict]
    rw [run_append] at hr
    rw [happens_concat, happens_concat, not_or]
    rcases old_or_loads_of_step (hv.run cs) hstrict' hr hnot with ⟨hr, hnow⟩ | hloads
    · obtain ⟨hloads, hnever⟩ := ih r hr hnot
      exact ⟨Or.inl hloads, hnever, hnow⟩
    · obtain ⟨query, hquery, hfree, -⟩ := id hloads
      refine ⟨Or.inr hloads, not_happens_revises hv hfree, ?_⟩
      rintro ⟨op, value, e', hupdate, -⟩
      rw [hquery] at hupdate
      cases hupdate

/-- In every state that a run of a strict editor leads to: a condition whose comparison does not
accept its value has an identifier that was used up by loading a query, and no update of it has been
carried out. If no query was loaded, every comparison accepts its value. -/
theorem contract_of_strict {settings : Settings} (hstrict : settings.validateValues = true)
    (cs : List Command) :
    (∀ id path op value,
      .condition id path op value ∈ Forest.nodes (run { settings := settings } cs).tree →
        op.accepts value = false →
          Happens (Loads id) { settings := settings } cs ∧
            ¬ Happens (Revises id) { settings := settings } cs) ∧
    ((∀ query, .load query ∉ cs) → ∀ id path op value,
      .condition id path op value ∈ Forest.nodes (run { settings := settings } cs).tree →
        op.accepts value = true) := by
  have hpast := loads_of_run (e := { settings := settings })
    (valid_of_isStart (.configured settings)) hstrict
    (fun r hr => absurd hr List.not_mem_nil) cs
  have hall : ∀ id path op value,
      .condition id path op value ∈ Forest.nodes (run { settings := settings } cs).tree →
        op.accepts value = false →
          Happens (Loads id) { settings := settings } cs ∧
            ¬ Happens (Revises id) { settings := settings } cs := by
    intro id path op value hnode hnot
    obtain ⟨r, hr, rfl, hcontent⟩ := Forest.exists_row_of_node none hnode
    apply hpast r hr
    rw [hcontent]
    exact hnot
  refine ⟨hall, ?_⟩
  intro hnone id path op value hnode
  by_contra hnot
  obtain ⟨⟨before, c, hwithin, query, rfl, -⟩, -⟩ :=
    hall id path op value hnode (eq_false_of_ne_true hnot)
  exact hnone query (hwithin.subset (List.mem_append_right before List.mem_cons_self))

/-- A query with two values that are not accepted, and commands on it and beside it. -/
def workOnLoaded : List Command :=
  [.addCondition ["a"] .isPresent (.string "no") none, .addLogical .or none,
    .load (.object [("a", .object [("$exists", .string "yes")]),
      ("b", .object [("$gt", .null)])]),
    .update 2 .isPresent .null, .update 3 .gt (.number (.int 5)),
    .addCondition ["c"] .eq .null none, .update 4 .eq (.strings [])]

theorem contract_workOnLoaded :
    (run { settings := .strict } workOnLoaded).tree =
        [.condition 2 ["a"] .isPresent (.string "yes"), .condition 3 ["b"] .gt (.number (.int 5)),
          .condition 4 ["c"] .eq .null] ∧
      Happens (Loads 2) { settings := .strict } workOnLoaded ∧
      ¬ Happens (Revises 2) { settings := .strict } workOnLoaded ∧
      ∀ id path op value, .condition id path op value ∈
          Forest.nodes (run { settings := .strict } (workOnLoaded.take 2)).tree →
        op.accepts value = true := by
  have htree : (run { settings := .strict } workOnLoaded).tree =
      [.condition 2 ["a"] .isPresent (.string "yes"), .condition 3 ["b"] .gt (.number (.int 5)),
        .condition 4 ["c"] .eq .null] := by decide
  have hpast := (@contract_of_strict .strict rfl workOnLoaded).1
    2 ["a"] .isPresent (.string "yes") (by rw [htree]; decide) (by decide)
  refine ⟨htree, hpast.1, hpast.2, ?_⟩
  apply (@contract_of_strict .strict rfl (workOnLoaded.take 2)).2
  intro query hmem
  simp [workOnLoaded] at hmem

end Editor

end FilterTree
