import FilterTree.Proofs.Alteration
import FilterTree.Proofs.Identifiers

/-!
# When edits are refused

Which answer an edit gives, in every case (`Editor.AnswersAdd`, `Editor.AnswersUpdate`). A value
that a strict editor rejects is refused before the tree is looked at. After that the kind of the
node with the identifier decides, and since identifiers are distinct there is no more than one. A
refused edit leaves no trace: a run leads where those of its commands lead that are not refused
(`Editor.run_granted`).
-/

namespace FilterTree

/-! ## Search -/

namespace Forest

variable {ι : Type} [DecidableEq ι] {id : ι} {n : Node ι} {ns : Forest ι}

/-- Where identifiers are distinct the node that is found is the only one with its identifier. -/
theorem eq_of_find? (hnodup : (ids ns).Nodup) (hn : find? id ns = some n) {m : Node ι}
    (hm : m ∈ nodes ns) (hid : m.id = id) : m = n :=
  List.inj_on_of_nodup_map hnodup hm (mem_nodes_of_find? ns hn)
    (hid.trans (id_of_find? ns hn).symm)

end Forest

namespace Editor

/-! ## Kinds by identifiers -/

/-- Whether the tree has a node with an identifier that is of a kind. -/
def HasNode (e : Editor) (id : NodeId) (kind : NodeKind) : Prop :=
  ∃ n ∈ Forest.nodes e.tree, n.id = id ∧ n.kind = kind

/-- The kind of the node with an identifier. -/
def kind? (e : Editor) (id : NodeId) : Option NodeKind := (e.find? id).map Node.kind

theorem kind?_eq_none_iff {e : Editor} {id : NodeId} : e.kind? id = none ↔ id ∉ e.ids := by
  rw [kind?, Option.map_eq_none_iff]
  exact Forest.find?_eq_none_iff

theorem Valid.kind?_eq_some_iff {e : Editor} (hv : e.Valid) {id : NodeId} {kind : NodeKind} :
    e.kind? id = some kind ↔ e.HasNode id kind := by
  rw [kind?, Option.map_eq_some_iff]
  constructor
  · rintro ⟨n, hn, hkind⟩
    exact ⟨n, Forest.mem_nodes_of_find? e.tree hn, Forest.id_of_find? e.tree hn, hkind⟩
  · rintro ⟨n, hmem, rfl, hkind⟩
    cases hfound : e.find? n.id with
    | none => exact absurd (List.mem_map_of_mem hmem) (Forest.find?_eq_none_iff.mp hfound)
    | some m => exact ⟨m, rfl, Forest.eq_of_find? hv.nodup hfound hmem rfl ▸ hkind⟩

/-! ## Answers -/

/-- Whether the editor checks values and the comparison does not accept this one. -/
def Rejects (e : Editor) (op : Comparison) (value : Operand) : Prop :=
  e.settings.validateValues = true ∧ op.accepts value = false

/-- What should come of adding a node under a parent: there is no such parent, or it is a condition,
and the editor is left as it was; in all other cases the answer is the next free identifier. -/
structure AnswersAdd (e : Editor) (parent : Option NodeId) (outcome : Outcome NodeId) : Prop where
  notFound : ∀ id, outcome = .error (.parentNotFound id) e ↔ parent = some id ∧ id ∉ e.ids
  leaf : ∀ id kind, outcome = .error (.leafParent id kind) e ↔
    parent = some id ∧ kind = .condition ∧ e.HasNode id .condition
  added : (∃ e', outcome = .ok e.nextId e') ↔
    ∀ id, parent = some id → e.HasNode id .logical ∨ e.HasNode id .embedded

/-- What should come of updating a node: there is no such node, or it is no condition, and the
editor is left as it was; otherwise the update is carried out. -/
structure AnswersUpdate (e : Editor) (id : NodeId) (outcome : Outcome Unit) : Prop where
  notFound : ∀ i, outcome = .error (.nodeNotFound i) e ↔ i = id ∧ id ∉ e.ids
  notCondition : ∀ i kind, outcome = .error (.notCondition i kind) e ↔
    i = id ∧ kind ≠ .condition ∧ e.HasNode id kind
  updated : (∃ e', outcome = .ok () e') ↔ e.HasNode id .condition

section

variable {e : Editor} {op : Comparison} {value : Operand}

theorem checkValue_of_rejects (h : e.Rejects op value) :
    e.checkValue op value = .error (.rejectedValue op value.typeName) := by
  rw [checkValue, h.1, h.2]
  rfl

theorem checkValue_of_not_rejects (h : ¬ e.Rejects op value) :
    e.checkValue op value = .ok () := by
  rw [checkValue]
  refine if_neg fun hchecked => h ?_
  rw [Bool.and_eq_true, Bool.not_eq_true'] at hchecked
  exact hchecked

/-- The kind of the parent decides. -/
theorem attach_some (e : Editor) (p : NodeId) (node : NodeId → Node NodeId) :
    e.attach (some p) node =
      match e.kind? p with
      | none => .error (.parentNotFound p) e
      | some .condition => .error (.leafParent p .condition) e
      | some .logical | some .embedded =>
        .ok e.nextId { e with tree := Forest.insert (some p) (node e.nextId) e.tree,
                              nextId := e.nextId + 1 } := by
  rw [attach_eq, checkParent, kind?]
  cases e.find? p with
  | none => rfl
  | some n => cases n <;> rfl

/-- The kind of the node decides. -/
theorem update_of_not_rejects (h : ¬ e.Rejects op value) (id : NodeId) :
    e.update id op value =
      match e.kind? id with
      | none => .error (.nodeNotFound id) e
      | some .condition =>
        .ok () { e with tree := Forest.modify id (Node.compare op value) e.tree }
      | some kind => .error (.notCondition id kind) e := by
  rw [update_eq, checkValue_of_not_rejects h, checkCondition, kind?]
  cases e.find? id with
  | none => rfl
  | some n => cases n <;> rfl

theorem answersAdd_attach (hv : e.Valid) (parent : Option NodeId) (node : NodeId → Node NodeId) :
    e.AnswersAdd parent (e.attach parent node) := by
  cases parent with
  | none =>
    rw [attach_eq, checkParent]
    exact ⟨by simp, by simp, by simp⟩
  | some p =>
    have hids : p ∉ e.ids ↔ e.kind? p = none := kind?_eq_none_iff.symm
    have hnode : ∀ kind, e.HasNode p kind ↔ e.kind? p = some kind :=
      fun kind => hv.kind?_eq_some_iff.symm
    rw [attach_some]
    refine ⟨fun id => ?_, fun id kind => ?_, ?_⟩
    · by_cases hid : p = id
      · subst hid
        rw [hids]
        cases e.kind? p with
        | none => simp
        | some kind => cases kind <;> simp
      · cases e.kind? p with
        | none => simp [hid]
        | some kind => cases kind <;> simp [hid]
    · by_cases hid : p = id
      · subst hid
        rw [hnode]
        cases e.kind? p with
        | none => simp
        | some found => cases found <;> simp [eq_comm]
      · cases e.kind? p with
        | none => simp [hid]
        | some kind => cases kind <;> simp [hid]
    · simp only [Option.some.injEq, forall_eq', hnode]
      cases e.kind? p with
      | none => simp
      | some kind => cases kind <;> simp

theorem answersUpdate_update (hv : e.Valid) (h : ¬ e.Rejects op value) (id : NodeId) :
    e.AnswersUpdate id (e.update id op value) := by
  have hids : id ∉ e.ids ↔ e.kind? id = none := kind?_eq_none_iff.symm
  have hnode : ∀ kind, e.HasNode id kind ↔ e.kind? id = some kind :=
    fun kind => hv.kind?_eq_some_iff.symm
  rw [update_of_not_rejects h]
  refine ⟨fun i => ?_, fun i kind => ?_, ?_⟩
  · rw [hids]
    cases e.kind? id with
    | none => simp [eq_comm]
    | some kind => cases kind <;> simp
  · rw [hnode]
    cases e.kind? id with
    | none => simp
    | some found => cases found <;> simp +contextual [eq_comm]
  · rw [hnode]
    cases e.kind? id with
    | none => simp
    | some kind => cases kind <;> simp

/-- The value is checked first. -/
theorem addCondition_eq_rejected_iff (path : Path) (parent : Option NodeId) :
    e.addCondition path op value parent = .error (.rejectedValue op value.typeName) e ↔
      e.Rejects op value := by
  by_cases h : e.Rejects op value
  · rw [addCondition_eq, checkValue_of_rejects h]
    exact iff_of_true rfl h
  · rw [addCondition_eq, checkValue_of_not_rejects h]
    refine iff_of_false (fun hattach => ?_) h
    change e.attach parent (fun id => .condition id path op value) = _ at hattach
    cases parent with
    | none =>
      rw [attach_eq, checkParent] at hattach
      cases hattach
    | some p =>
      rw [attach_some] at hattach
      cases hkind : e.kind? p with
      | none => simp [hkind] at hattach
      | some kind => cases kind <;> simp [hkind] at hattach

theorem answersAdd_addCondition (hv : e.Valid) (h : ¬ e.Rejects op value) (path : Path)
    (parent : Option NodeId) :
    e.AnswersAdd parent (e.addCondition path op value parent) := by
  rw [addCondition_eq, checkValue_of_not_rejects h]
  exact answersAdd_attach hv parent fun id => .condition id path op value

theorem update_eq_rejected_iff (id : NodeId) :
    e.update id op value = .error (.rejectedValue op value.typeName) e ↔ e.Rejects op value := by
  by_cases h : e.Rejects op value
  · rw [update_eq, checkValue_of_rejects h]
    exact iff_of_true rfl h
  · rw [update_of_not_rejects h]
    refine iff_of_false ?_ h
    cases e.kind? id with
    | none => simp
    | some kind => cases kind <;> simp

end

/-! ## Refused commands in a run -/

/-- The commands of a run that are not refused when their turn comes. -/
def granted (e : Editor) : List Command → List Command
  | [] => []
  | c :: cs =>
    match e.execute c with
    | .ok _ e => c :: granted e cs
    | .error _ e => granted e cs

/-- A run leads to the same editor without the commands that are refused. -/
theorem run_granted (e : Editor) (cs : List Command) : e.run (e.granted cs) = e.run cs := by
  induction cs generalizing e with
  | nil => rfl
  | cons c cs ih =>
    rw [granted]
    cases h : e.execute c with
    | ok reply e' =>
      change (e.step c).run (e'.granted cs) = (e.step c).run cs
      rw [step_of_ok h, ih]
    | error refusal e' =>
      obtain rfl := isAtomic_execute c e refusal e' h
      change e'.run (e'.granted cs) = (e'.step c).run cs
      rw [step_of_error h, ih]

/-- In every state that a run leads to: a value is refused exactly if the editor checks values and
the comparison does not accept it, whatever the node is; otherwise a node is added, or a condition
updated, unless the kind of the node with the identifier forbids it. A command that is refused hands
on the editor as it was, so a run leads where the commands of it that are not refused lead. -/
theorem answers_of_reachable {e : Editor} (h : e.Reachable) :
    (∀ path op value parent,
      (e.addCondition path op value parent = .error (.rejectedValue op value.typeName) e ↔
        e.Rejects op value) ∧
      (¬ e.Rejects op value → e.AnswersAdd parent (e.addCondition path op value parent))) ∧
    (∀ op parent, e.AnswersAdd parent (e.addLogical op parent)) ∧
    (∀ path op parent, e.AnswersAdd parent (e.addEmbedded path op parent)) ∧
    (∀ id op value,
      (e.update id op value = .error (.rejectedValue op value.typeName) e ↔ e.Rejects op value) ∧
      (¬ e.Rejects op value → e.AnswersUpdate id (e.update id op value))) ∧
    (∀ c r e', e.execute c = .error r e' → e' = e) ∧
    (∀ c r, e.perform c = .error r → e.step c = e) ∧
    ∀ cs, e.run (e.granted cs) = e.run cs := by
  have hv := h.valid
  refine ⟨fun path op value parent => ⟨addCondition_eq_rejected_iff path parent, ?_⟩,
    fun op parent => answersAdd_attach hv parent _,
    fun path op parent => answersAdd_attach hv parent _,
    fun id op value => ⟨update_eq_rejected_iff id, ?_⟩, fun c => isAtomic_execute c e,
    fun c r => step_of_refused, run_granted e⟩
  · exact fun hnot => answersAdd_addCondition hv hnot path parent
  · exact fun hnot => answersUpdate_update hv hnot id

/-- A strict editor on a combination with one condition. -/
def strictPair : Editor :=
  run { settings := .strict } [.addLogical .or none,
    .addCondition ["age"] .gte (.number (.int 18)) (some 1)]

theorem answers_strictPair :
    strictPair.Reachable ∧
      strictPair.addCondition ["a"] .isIn (.string "u") (some 9) =
        .error (.rejectedValue .isIn "string") strictPair ∧
      strictPair.addCondition ["a"] .eq .null (some 9) = .error (.parentNotFound 9) strictPair ∧
      strictPair.addEmbedded ["a"] .someElement (some 2) =
        .error (.leafParent 2 .condition) strictPair ∧
      (∃ e', strictPair.addLogical .not (some 1) = .ok 3 e') ∧
      strictPair.update 1 .eq .null = .error (.notCondition 1 .logical) strictPair ∧
      strictPair.step (.update 9 .eq .null) = strictPair ∧
      strictPair.run (strictPair.granted
        [.addLogical .and (some 2), .update 9 .eq .null, .addLogical .not (some 1)]) =
        strictPair.run
          [.addLogical .and (some 2), .update 9 .eq .null, .addLogical .not (some 1)] := by
  have h : strictPair.Reachable := (Reachable.start (.configured .strict)).run _
  obtain ⟨hcondition, hlogical, hembedded, hupdate, -, hstep, hrun⟩ := answers_of_reachable h
  have hnull : ¬ strictPair.Rejects .eq .null := fun hrejects => by cases hrejects.2
  refine ⟨h, ?_, ?_, ?_, ?_, ?_, hstep _ (.nodeNotFound 9) rfl, hrun _⟩
  · exact (hcondition _ _ _ _).1.mpr ⟨by decide, by decide⟩
  · exact (((hcondition _ _ _ _).2 hnull).notFound 9).mpr ⟨rfl, by decide⟩
  · exact ((hembedded _ _ _).leaf 2 .condition).mpr
      ⟨rfl, rfl, .condition 2 ["age"] .gte (.number (.int 18)), by decide, rfl, rfl⟩
  · refine (hlogical _ _).added.mpr fun id hid => ?_
    rw [← Option.some.inj hid]
    exact Or.inl ⟨.logical 1 .or [.condition 2 ["age"] .gte (.number (.int 18))], by decide, rfl, rfl⟩
  · exact (((hupdate 1 _ _).2 hnull).notCondition 1 .logical).mpr
      ⟨rfl, by decide, .logical 1 .or [.condition 2 ["age"] .gte (.number (.int 18))],
        by decide, rfl, rfl⟩

end Editor

end FilterTree
