import FilterTree.Proofs.Equivalence
import FilterTree.Proofs.Output

/-!
# Nodes in another order

A merge keeps each key at its first place, so the order of siblings shows in the order of keys. It
shows nowhere else if no two siblings write the same operator under the same path: two such objects
can be merged in either order (`Fields.rearranged_merge_right_comm`), one exchange after the other
(`Forest.rearranged_toFields`). That names lead to operators is what makes two places part: of two
plain paths with an operator none is the beginning of the other.
-/

namespace FilterTree

namespace Json

/-- Whether two values are the same but for the order of keys in objects. Arrays are the same. -/
inductive Rearranged : Json → Json → Prop
  | same (v : Json) : Rearranged v v
  | object {fs gs : Fields} (hkeys : (Fields.keys fs).Perm (Fields.keys gs))
      (hvalues : ∀ k v w, Fields.get? fs k = some v → Fields.get? gs k = some w → Rearranged v w) :
      Rearranged (.object fs) (.object gs)

end Json

namespace Fields

/-! ## Single keys -/

theorem merge_singleton (fs : Fields) (k : String) (v : Json) :
    merge fs [(k, v)] = put k (Json.over (get? fs k) v) fs := by
  rw [merge, merge_nil]

theorem put_put (k : String) (v w : Json) (fs : Fields) : put k v (put k w fs) = put k v fs := by
  induction fs with
  | nil => simp [put]
  | cons f fs ih =>
    by_cases hf : f.1 = k <;> simp [put, hf, ih]

/-- The fields that an object is laid over in a merge. -/
def below : Option Json → Fields
  | some (.object fields) => fields
  | _ => []

/-- An object over anything is an object. -/
theorem over_object {body : Fields} (h : (keys body).Nodup) (x : Option Json) :
    Json.over x (.object body) = .object (merge (below x) body) := by
  rcases x with _ | v
  · rw [Json.over_none, below, merge_nil_left h]
    simp
  · cases v with
    | object fields => rw [Json.over, below]
    | null | bool _ | number _ | string _ | array _ =>
      rw [below, merge_nil_left h]
      · simp only [Json.over]
      · simp

end Fields

namespace Json.Rearranged

open Fields

variable {fs gs hs : Fields} {k l : String} {u v w : Json}

theorem keys_perm (h : Rearranged (.object fs) (.object gs)) : (keys fs).Perm (keys gs) := by
  cases h with
  | same => exact List.Perm.refl _
  | object hkeys _ => exact hkeys

theorem get? (h : Rearranged (.object fs) (.object gs)) (hv : Fields.get? fs k = some v)
    (hw : Fields.get? gs k = some w) : Rearranged v w := by
  cases h with
  | same =>
    rw [hv, Option.some.injEq] at hw
    rw [hw]
    exact same w
  | object _ hvalues => exact hvalues k v w hv hw

/-- A key that one object has the other has too. -/
theorem exists_get? (h : Rearranged (.object fs) (.object gs)) (hv : Fields.get? fs k = some v) :
    ∃ w, Fields.get? gs k = some w ∧ Rearranged v w := by
  have hmem : k ∈ keys gs := h.keys_perm.mem_iff.mp (mem_keys_of_get? hv)
  obtain ⟨w, hw⟩ := Fields.exists_get? hmem
  exact ⟨w, hw, h.get? hv hw⟩

theorem trans (h : Rearranged u v) : Rearranged v w → Rearranged u w := by
  induction h generalizing w with
  | same => exact id
  | @object fs gs hkeys hvalues ih =>
    intro h'
    cases h' with
    | same => exact .object hkeys hvalues
    | @object _ hs hkeys' hvalues' =>
      refine .object (hkeys.trans hkeys') ?_
      intro k a c ha hc
      obtain ⟨b, hb, -⟩ := (Rearranged.object hkeys hvalues).exists_get? ha
      exact ih k a b ha hb (hvalues' k b c hb hc)

/-! ## Putting and merging -/

/-- The same may be put into both objects. -/
theorem put (h : Rearranged (.object fs) (.object gs)) (hv : Rearranged v w) :
    Rearranged (.object (put k v fs)) (.object (put k w gs)) := by
  refine .object ?_ ?_
  · rw [keys_put, keys_put]
    have hmem : k ∈ keys fs ↔ k ∈ keys gs := h.keys_perm.mem_iff
    by_cases hk : k ∈ keys fs
    · rw [if_pos hk, if_pos (hmem.mp hk)]
      exact h.keys_perm
    · rw [if_neg hk, if_neg fun hk' => hk (hmem.mpr hk')]
      exact h.keys_perm.append_right [k]
  · intro l a b ha hb
    rw [get?_put] at ha hb
    by_cases hl : k = l
    · rw [if_pos hl, Option.some.injEq] at ha hb
      rw [← ha, ← hb]
      exact hv
    · rw [if_neg hl] at ha hb
      exact h.get? ha hb

end Json.Rearranged

open Json (Rearranged)

mutual

/-- The same may be merged into both objects. -/
theorem Json.Rearranged.merge :
    ∀ (source : List (String × Json)) {fs gs : Fields}, Rearranged (.object fs) (.object gs) →
      Rearranged (.object (Fields.merge fs source)) (.object (Fields.merge gs source))
  | [], fs, gs, h => by
    rw [Fields.merge_nil, Fields.merge_nil]
    exact h
  | (k, v) :: source, fs, gs, h => by
    rw [Fields.merge, Fields.merge]
    refine Json.Rearranged.merge source (h.put ?_)
    cases hfs : Fields.get? fs k with
    | none =>
      have hgs : Fields.get? gs k = none := by
        rw [Fields.get?_eq_none, ← h.keys_perm.mem_iff, ← Fields.get?_eq_none]
        exact hfs
      rw [hgs]
      exact .same _
    | some x =>
      obtain ⟨y, hgs, hxy⟩ := h.exists_get? hfs
      rw [hgs]
      exact Json.Rearranged.over v hxy

/-- The same may be laid over both values. -/
theorem Json.Rearranged.over :
    ∀ (v : Json) {x y : Json}, Rearranged x y →
      Rearranged (Json.over (some x) v) (Json.over (some y) v)
  | .null, _, _, _ | .bool _, _, _, _ | .number _, _, _, _ | .string _, _, _, _
  | .array _, _, _, _ => by
    simp only [Json.over]
    exact .same _
  | .object source, x, y, h => by
    cases h with
    | same => exact .same _
    | object hkeys hvalues =>
      rw [Json.over, Json.over]
      exact Json.Rearranged.merge source (.object hkeys hvalues)

end

/-- The same objects may be merged into both. -/
theorem Json.Rearranged.foldl_merge (objects : List Fields) {fs gs : Fields}
    (h : Rearranged (.object fs) (.object gs)) :
    Rearranged (.object (objects.foldl Fields.merge fs))
      (.object (objects.foldl Fields.merge gs)) := by
  induction objects generalizing fs gs with
  | nil => exact h
  | cons o objects ih => exact ih (h.merge o)

/-! ## Exchanging two objects -/

namespace Fields

variable {fs : Fields} {k l : String} {v w : Json}

theorem keys_put_comm (hkl : k ≠ l) (v w : Json) (fs : Fields) :
    (keys (put k v (put l w fs))).Perm (keys (put l w (put k v fs))) := by
  rw [keys_put, keys_put, keys_put, keys_put]
  by_cases hk : k ∈ keys fs
  · by_cases hl : l ∈ keys fs <;> simp [hk, hl]
  · by_cases hl : l ∈ keys fs
    · simp [hk, hl]
    · -- both are new, and each comes last once
      simp only [hk, hl, if_false, List.mem_append, List.mem_singleton, hkl, hkl.symm, or_self,
        List.append_assoc]
      exact (List.Perm.swap k l []).append_left _

theorem rearranged_put_comm (hkl : k ≠ l) (v w : Json) (fs : Fields) :
    Rearranged (.object (put k v (put l w fs))) (.object (put l w (put k v fs))) := by
  refine .object (keys_put_comm hkl v w fs) ?_
  intro key a b ha hb
  have hsame : get? (put k v (put l w fs)) key = get? (put l w (put k v fs)) key := by
    simp only [get?_put]
    by_cases hk : k = key
    · have hl : l ≠ key := fun hl => hkl (hk.trans hl.symm)
      simp [hk, hl]
    · simp [hk]
  rw [hsame, hb, Option.some.injEq] at ha
  rw [ha]
  exact .same a

/-- Values under different keys do not meet. -/
theorem rearranged_merge_singletons (hkl : k ≠ l) (v w : Json) (fs : Fields) :
    Rearranged (.object (merge (merge fs [(k, v)]) [(l, w)]))
      (.object (merge (merge fs [(l, w)]) [(k, v)])) := by
  simp only [merge_singleton, get?_put, if_neg hkl, if_neg hkl.symm]
  exact rearranged_put_comm hkl.symm _ _ fs

/-- Objects under the same key are exchanged if they can be exchanged below it. -/
theorem rearranged_merge_wraps (name : String) {a b : Fields} (ha : (keys a).Nodup)
    (hb : (keys b).Nodup)
    (h : ∀ fs : Fields, Rearranged (.object (merge (merge fs a) b)) (.object (merge (merge fs b) a)))
    (fs : Fields) :
    Rearranged (.object (merge (merge fs (wrap name a)) (wrap name b)))
      (.object (merge (merge fs (wrap name b)) (wrap name a))) := by
  simp only [wrap, merge_singleton, get?_put, if_true, put_put, over_object ha, over_object hb]
  exact (Rearranged.same _).put (h _)

theorem nest_cons (name : String) (p : Path) (body : Fields) :
    nest (name :: p) body = wrap name (nest p body) := rfl

/-- Operators under plain paths can be exchanged, unless they are the same under the same path. -/
theorem rearranged_merge_right_comm {p q : Path} (hp : Path.IsPlain p) (hq : Path.IsPlain q)
    (hk : (Key.ofString k).isOperator = true) (hl : (Key.ofString l).isOperator = true)
    (hne : (p, k) ≠ (q, l)) (fs : Fields) :
    Rearranged (.object (merge (merge fs (nest p [(k, v)])) (nest q [(l, w)])))
      (.object (merge (merge fs (nest q [(l, w)])) (nest p [(k, v)]))) := by
  -- a name is no operator, so a path cannot end where the other goes on
  have hpart : ∀ {name key : String}, (Key.ofString name).isOperator = false →
      (Key.ofString key).isOperator = true → name ≠ key := by
    rintro name key hname hkey rfl
    rw [hname] at hkey
    cases hkey
  induction p generalizing q fs with
  | nil =>
    cases q with
    | nil =>
      refine rearranged_merge_singletons ?_ v w fs
      rintro rfl
      exact hne rfl
    | cons name q =>
      exact rearranged_merge_singletons (hpart (hq name List.mem_cons_self) hk).symm v _ fs
  | cons name p ih =>
    cases q with
    | nil => exact rearranged_merge_singletons (hpart (hp name List.mem_cons_self) hl) _ w fs
    | cons name' q =>
      by_cases hname : name = name'
      · subst hname
        rw [nest_cons, nest_cons]
        refine rearranged_merge_wraps name (Node.keys_nest_nodup p (k, v))
          (Node.keys_nest_nodup q (l, w)) (fun fs => ih hp.tail hq.tail ?_ fs) fs
        rintro heq
        obtain ⟨rfl, rfl⟩ := Prod.mk.inj heq
        exact hne rfl
      · exact rearranged_merge_singletons hname _ _ fs

end Fields

/-! ## Exchanging two nodes -/

variable {ι : Type}

/-- Where a node writes: under its path, and there for its operator. -/
def Node.slot (n : Node ι) : Path × Key := (n.path, n.key)

/-- Nodes that write in different places can be exchanged. -/
theorem Node.rearranged_merge {m n : Node ι} (hm : Path.IsPlain m.path) (hn : Path.IsPlain n.path)
    (hslot : m.slot ≠ n.slot) (fs : Fields) :
    Rearranged (.object (Fields.merge (Fields.merge fs m.toFields) n.toFields))
      (.object (Fields.merge (Fields.merge fs n.toFields) m.toFields)) := by
  have hoperator : ∀ x : Node ι, (Key.ofString x.key.text).isOperator = true := by
    intro x
    rw [x.ofString_key]
    exact x.isOperator_key
  have hne : (m.path, m.key.text) ≠ (n.path, n.key.text) := by
    intro heq
    obtain ⟨hpath, htext⟩ := Prod.mk.inj heq
    refine hslot (Prod.ext hpath ?_)
    show m.key = n.key
    rw [← m.ofString_key, htext, n.ofString_key]
  rw [m.toFields_eq, n.toFields_eq]
  -- a node that writes nothing is merged without a trace
  rcases m.value? with _ | v
  · simp only [Option.elim_none, Fields.merge_nil]
    exact .same _
  · rcases n.value? with _ | w
    · simp only [Option.elim_none, Fields.merge_nil]
      exact .same _
    · exact Fields.rearranged_merge_right_comm hm hn (hoperator m) (hoperator n) hne fs

namespace Forest

variable {ms ns : Forest ι}

/-- Any order can be reached by exchanging neighbours. -/
theorem rearranged_foldl (hperm : ns.Perm ms) (hpaths : ∀ n ∈ ns, Path.IsPlain n.path)
    (hslots : (ns.map Node.slot).Nodup) {fs gs : Fields}
    (h : Rearranged (.object fs) (.object gs)) :
    Rearranged (.object ((toFieldsList ns).foldl Fields.merge fs))
      (.object ((toFieldsList ms).foldl Fields.merge gs)) := by
  induction hperm generalizing fs gs with
  | nil => exact h
  | cons n _ ih =>
    have hrest := (List.nodup_cons.mp hslots).2
    exact ih (fun m hm => hpaths m (List.mem_cons_of_mem n hm)) hrest (h.merge _)
  | swap m n ns =>
    have hne : n.slot ≠ m.slot := by
      rw [List.map_cons, List.map_cons, List.nodup_cons, List.mem_cons, not_or] at hslots
      exact hslots.1.1
    have hexchange := Node.rearranged_merge (hpaths n (by simp)) (hpaths m (by simp)) hne fs
    have hheads := hexchange.trans ((h.merge m.toFields).merge n.toFields)
    exact hheads.foldl_merge (toFieldsList ns)
  | @trans ns ls _ hperm _ ih ih' =>
    have hpaths' : ∀ n ∈ ls, Path.IsPlain n.path := fun n hn => hpaths n (hperm.mem_iff.mpr hn)
    have hslots' : (ls.map Node.slot).Nodup := (hperm.map Node.slot).nodup_iff.mp hslots
    exact (ih hpaths hslots h).trans (ih' hpaths' hslots' (.same _))

theorem rearranged_toFields (hperm : ns.Perm ms) (hpaths : ∀ n ∈ ns, Path.IsPlain n.path)
    (hslots : (ns.map Node.slot).Nodup) :
    Rearranged (.object (toFields ns)) (.object (toFields ms)) :=
  rearranged_foldl hperm hpaths hslots (.same _)

end Forest

/-! ## Equivalence -/

namespace Json

/-- Where keys are distinct, the same but for the order of keys is equivalent. -/
theorem Rearranged.equiv {v w : Json} (h : Rearranged v w) : v.DistinctKeys → v.equiv w = true := by
  induction h with
  | same v => exact equiv_refl v
  | @object fs gs hkeys hvalues ih =>
    intro hd
    rw [equiv_object_iff hd.1]
    exact ⟨hkeys, fun k v w hv hw => ih k v w hv hw (hd.get? hv)⟩

end Json

namespace Forest

variable {ms ns : Forest ι}

/-- The order of siblings does not matter where no two of them write the same operator under the
same path: in any other order they are written as the same query, but for the order of keys. -/
theorem toQuery?_perm (hperm : ns.Perm ms) (hpaths : ∀ n ∈ ns, Path.IsPlain n.path)
    (hslots : (ns.map Node.slot).Nodup) :
    (toQuery? ns = none ∧ toQuery? ms = none) ∨
      ∃ v w, toQuery? ns = some v ∧ toQuery? ms = some w ∧ v.Rearranged w ∧
        ((∀ n ∈ nodes ns, n.HasDistinctOperand) → v.equiv w = true) := by
  have hfields := rearranged_toFields hperm hpaths hslots
  have hempty : toFields ns = [] ↔ toFields ms = [] := by
    have hlength := hfields.keys_perm.length_eq
    rw [Fields.length_keys, Fields.length_keys] at hlength
    rw [← List.length_eq_zero_iff, hlength, List.length_eq_zero_iff]
  by_cases hns : toFields ns = []
  · exact Or.inl ⟨toQuery?_eq_none.mpr hns, toQuery?_eq_none.mpr (hempty.mp hns)⟩
  · have hms : toFields ms ≠ [] := fun h => hns (hempty.mpr h)
    refine Or.inr ⟨_, _, toQuery?_of_ne_nil hns, toQuery?_of_ne_nil hms, hfields, ?_⟩
    intro hdistinct
    exact hfields.equiv (distinctKeys_toFields hdistinct)

/-- Siblings with paths that go on where others end, an operand that is an object, and containers of
each kind, one of them empty. -/
def apartSiblings : Tree := [
  .condition 1 ["a"] .eq (.other (.object [("$lt", .bool true)])),
  .condition 2 ["a", "b"] .lt (.number (.int 5)),
  .embedded 3 ["a"] .someElement [.condition 4 [] .eq (.string "u"), .condition 5 [] .eq .null],
  .condition 6 [] .ne .null,
  .logical 7 .and [.condition 8 ["c"] .isPresent (.bool true)],
  .logical 9 .or [.logical 10 .not []],
  .condition 11 ["a", "b"] .gt (.number (.int 1))]

theorem toQuery?_perm_apartSiblings :
    (∀ n ∈ apartSiblings, Path.IsPlain n.path) ∧ (apartSiblings.map Node.slot).Nodup ∧
      (∀ n ∈ nodes apartSiblings, n.HasDistinctOperand) ∧
      ∃ v w, toQuery? apartSiblings = some v ∧ toQuery? apartSiblings.reverse = some w ∧ v ≠ w ∧
        v.equiv w = true := by
  have hpaths : ∀ n ∈ apartSiblings, Path.IsPlain n.path := by decide
  have hslots : (apartSiblings.map Node.slot).Nodup := by decide
  have hdistinct : ∀ n ∈ nodes apartSiblings, n.HasDistinctOperand := by decide
  have hkeys : toQuery? apartSiblings ≠ toQuery? apartSiblings.reverse := by decide
  refine ⟨hpaths, hslots, hdistinct, ?_⟩
  rcases toQuery?_perm apartSiblings.reverse_perm.symm hpaths hslots with
    ⟨hnone, hnone'⟩ | ⟨v, w, hv, hw, -, hequiv⟩
  · exact absurd (hnone.trans hnone'.symm) hkeys
  · refine ⟨v, w, hv, hw, ?_, hequiv hdistinct⟩
    rintro rfl
    exact hkeys (hv.trans hw.symm)

end Forest

end FilterTree
