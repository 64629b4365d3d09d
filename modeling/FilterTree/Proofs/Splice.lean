import Mathlib.Data.List.Nodup
import FilterTree.Proofs.Branches
import FilterTree.Proofs.Positions

/-!
# Edits of a query in place

`Json.splice f` puts what `f` makes of the entry at a position in its place. If `f` makes nothing of
it the entry is deleted, and with it each object and each array that is left empty, from the inside
out. `Query.EntryAt` is how to get to an entry: through everything but the values of comparisons. On
the way proper objects stay proper (`Query.isProper_splice`) and single items stay single
(`Query.isSingle_splice`).
-/

namespace FilterTree

/-! ## Lists -/

section

variable {α : Type}

/-- Puts what `f` makes of the element with an index in its place, if it makes anything of it. -/
def spliceAt (f : α → Option α) : Nat → List α → List α
  | _, [] => []
  | 0, a :: as => (f a).toList ++ as
  | i + 1, a :: as => a :: spliceAt f i as

theorem spliceAt_append (f : α → Option α) (a : α) (after : List α) :
    ∀ before : List α,
      spliceAt f before.length (before ++ a :: after) = before ++ (f a).toList ++ after
  | [] => rfl
  | b :: before => by
    rw [List.length_cons, List.cons_append, spliceAt, spliceAt_append f a after before,
      List.cons_append, List.cons_append]

theorem modify_append (f : α → α) (a : α) (after before : List α) :
    (before ++ a :: after).modify before.length f = before ++ f a :: after := by
  rw [List.modify_eq_take_cons_drop (by simp)]
  simp

/-- An element with what is before and what is after it. -/
theorem exists_of_getElem? {as : List α} {i : Nat} {a : α} (h : as[i]? = some a) :
    ∃ before after, as = before ++ a :: after ∧ before.length = i := by
  obtain ⟨hi, rfl⟩ := List.getElem?_eq_some_iff.mp h
  refine ⟨as.take i, as.drop (i + 1), ?_, List.length_take_of_le (Nat.le_of_lt hi)⟩
  rw [← List.drop_eq_getElem_cons hi, List.take_append_drop]

end

/-! ## Entries of JSON values -/

namespace Json

/-- An array or an object, unless it would be empty. -/
def unlessEmpty {α : Type} (make : List α → Json) (as : List α) : Option Json :=
  if as.isEmpty then none else some (make as)

/-- Puts what `f` makes of the entry at a position in its place. An entry of which `f` makes nothing
is deleted, and what is left empty by that is deleted too. -/
def splice (f : String × Json → Option (String × Json)) : Position → Json → Option Json
  | i :: p, .object fields =>
    unlessEmpty .object
      (spliceAt (fun e => if p.isEmpty then f e else (splice f p e.2).map (e.1, ·)) i fields)
  | i :: p, .array items => unlessEmpty .array (spliceAt (splice f p) i items)
  | _, v => some v

/-- Puts what `f` makes of the entry at a position in its place. -/
def mapEntry (f : String × Json → String × Json) : Position → Json → Json
  | i :: p, .object fields =>
    .object (fields.modify i fun e => if p.isEmpty then f e else (e.1, mapEntry f p e.2))
  | i :: p, .array items => .array (items.modify i (mapEntry f p))
  | _, v => v

/-- Adds an object to a container: an array gets it as its last item, an object gets it merged
in. -/
def insert (new : Fields) : Json → Json
  | .array items => .array (items ++ [.object new])
  | .object fields => .object (Fields.merge fields new)
  | v => v

theorem unlessEmpty_append_cons {α : Type} (make : List α → Json) (a : α) (before after : List α) :
    unlessEmpty make (before ++ a :: after) = some (make (before ++ a :: after)) := by
  refine if_neg fun hempty => ?_
  rw [List.isEmpty_iff, List.append_eq_nil_iff] at hempty
  exact List.cons_ne_nil _ _ hempty.2

theorem unlessEmpty_eq_some {α : Type} {make : List α → Json} {as : List α} {v : Json} :
    unlessEmpty make as = some v ↔ as ≠ [] ∧ make as = v := by
  rw [unlessEmpty]
  cases as <;> simp

end Json

namespace Query

/-! ## Ways to an entry -/

/-- Whether there is an entry with a property at a position, and no comparison on the way. The
property is one of the object that holds the entry, and of the entry. -/
inductive EntryAt (P : Fields → String × Json → Prop) : Position → Json → Prop
  | here {before after : Fields} {e : String × Json} :
    P (before ++ e :: after) e → EntryAt P [before.length] (.object (before ++ e :: after))
  | inside {before after : Fields} {k : String} {v : Json} {i : Nat} {p : Position} :
    (∀ op, Key.ofString k ≠ .comparison op) → EntryAt P (i :: p) v →
    EntryAt P (before.length :: i :: p) (.object (before ++ (k, v) :: after))
  | item {before after : List Json} {v : Json} {i : Nat} {p : Position} :
    EntryAt P (i :: p) v → EntryAt P (before.length :: i :: p) (.array (before ++ v :: after))

namespace EntryAt

variable {P P' : Fields → String × Json → Prop} {p : Position} {v : Json}

theorem imp (hP : ∀ fields e, P fields e → P' fields e) (h : EntryAt P p v) : EntryAt P' p v := by
  induction h with
  | here h => exact .here (hP _ _ h)
  | inside hk _ ih => exact .inside hk ih
  | item _ ih => exact .item ih

theorem of_key {fields : Fields} {i : Nat} {e : String × Json} (hi : fields[i]? = some e)
    (h : P fields e) : EntryAt P [i] (.object fields) := by
  obtain ⟨before, after, rfl, rfl⟩ := exists_of_getElem? hi
  exact .here h

theorem of_value {fields : Fields} {i : Nat} {k : String} (hi : fields[i]? = some (k, v))
    (hk : ∀ op, Key.ofString k ≠ .comparison op) (h : EntryAt P p v) :
    EntryAt P (i :: p) (.object fields) := by
  obtain ⟨before, after, rfl, rfl⟩ := exists_of_getElem? hi
  cases p with
  | nil => cases h
  | cons j p => exact .inside hk h

theorem of_item {items : List Json} {i : Nat} (hi : items[i]? = some v) (h : EntryAt P p v) :
    EntryAt P (i :: p) (.array items) := by
  obtain ⟨before, after, rfl, rfl⟩ := exists_of_getElem? hi
  cases p with
  | nil => cases h
  | cons j p => exact .item h

end EntryAt

section

variable {P : Fields → String × Json → Prop} {f : String × Json → Option (String × Json)}
  {p : Position} {i : Nat} {before after : Fields} {e : String × Json} {k : String} {v : Json}

theorem splice_here :
    Json.splice f [before.length] (.object (before ++ e :: after)) =
      Json.unlessEmpty .object (before ++ (f e).toList ++ after) := by
  rw [Json.splice, spliceAt_append]
  rfl

theorem splice_inside :
    Json.splice f (before.length :: i :: p) (.object (before ++ (k, v) :: after)) =
      Json.unlessEmpty .object
        (before ++ ((Json.splice f (i :: p) v).map (k, ·)).toList ++ after) := by
  rw [Json.splice, spliceAt_append]
  rfl

theorem splice_item {before after : List Json} :
    Json.splice f (before.length :: i :: p) (.array (before ++ v :: after)) =
      Json.unlessEmpty .array (before ++ (Json.splice f (i :: p) v).toList ++ after) := by
  rw [Json.splice, spliceAt_append]

/-- If something is made of the entry nothing is deleted. -/
theorem splice_some {f : String × Json → String × Json} (h : EntryAt P p v) :
    Json.splice (fun e => some (f e)) p v = some (Json.mapEntry f p v) := by
  induction h with
  | here h =>
    rw [splice_here, Option.toList_some, List.append_assoc, List.singleton_append,
      Json.unlessEmpty_append_cons, Json.mapEntry, modify_append]
    rfl
  | inside hk h ih =>
    rw [splice_inside, ih, Option.map_some, Option.toList_some, List.append_assoc,
      List.singleton_append, Json.unlessEmpty_append_cons, Json.mapEntry, modify_append]
    rfl
  | item h ih =>
    rw [splice_item, ih, Option.toList_some, List.append_assoc, List.singleton_append,
      Json.unlessEmpty_append_cons, Json.mapEntry, modify_append]

end

/-! ## What stays as it was -/

/-- What may take the place of an entry: an operator with the same key, or with one that the object
does not have. -/
def Fits (f : String × Json → Option (String × Json)) (fields : Fields) (e : String × Json) :
    Prop :=
  ∀ e', f e = some e' →
    (Key.ofString e'.1).isOperator = true ∧ (e'.1 = e.1 ∨ e'.1 ∉ Fields.keys fields)

section

variable {before after : Fields} {e : String × Json} {new : Option (String × Json)} {w : Json}

/-- Without an entry there are fewer keys. With another in its place they are the same, or one of
them is exchanged for one that is not there. -/
theorem keys_replace_nodup (h : (Fields.keys (before ++ e :: after)).Nodup)
    (hkey : ∀ e', new = some e' → e'.1 = e.1 ∨ e'.1 ∉ Fields.keys (before ++ e :: after)) :
    (Fields.keys (before ++ new.toList ++ after)).Nodup := by
  rw [Fields.keys_append, Fields.keys_cons] at h hkey
  rw [List.append_assoc, Fields.keys_append, Fields.keys_append]
  cases new with
  | none => exact h.sublist ((List.Sublist.refl _).append (List.sublist_cons_self _ _))
  | some e' =>
    rw [Option.toList_some, Fields.keys_cons, Fields.keys_nil, List.singleton_append]
    rcases hkey e' rfl with heq | hfresh
    · rwa [heq]
    · rw [List.mem_append, List.mem_cons, not_or, not_or] at hfresh
      rw [List.nodup_middle, List.nodup_cons] at h ⊢
      refine ⟨?_, h.2⟩
      rw [List.mem_append, not_or]
      exact ⟨hfresh.1, hfresh.2.2⟩

/-- Another entry in the place of one leaves an object proper. -/
theorem isProper_replace (h : IsProper (.object (before ++ e :: after)))
    (hkey : ∀ e', new = some e' → e'.1 = e.1 ∨ e'.1 ∉ Fields.keys (before ++ e :: after))
    (hnew : ∀ e', new = some e' → (Key.ofString e'.1).isOperator = false → IsProper e'.2)
    (hw : Json.unlessEmpty .object (before ++ new.toList ++ after) = some w) :
    IsProper w := by
  obtain ⟨-, hnodup, hproper⟩ := h
  obtain ⟨hne, rfl⟩ := Json.unlessEmpty_eq_some.mp hw
  refine ⟨hne, keys_replace_nodup hnodup hkey, ?_⟩
  rw [areProper_append, AreProper] at hproper
  rw [areProper_append, areProper_append]
  refine ⟨⟨hproper.1, ?_⟩, hproper.2.2⟩
  cases new with
  | none => trivial
  | some e' => exact ⟨hnew e' rfl, trivial⟩

end

/-- Proper objects stay proper. -/
theorem isProper_splice {f : String × Json → Option (String × Json)} {p : Position} {v : Json}
    (h : EntryAt (Fits f) p v) :
    IsProper v → ∀ w, Json.splice f p v = some w → IsProper w := by
  induction h with
  | here hfits =>
    intro hv w hw
    rw [splice_here] at hw
    refine isProper_replace hv (fun e' he' => (hfits e' he').2) (fun e' he' hnot => ?_) hw
    rw [(hfits e' he').1] at hnot
    exact Bool.noConfusion hnot
  | @inside before after k v i p hk h ih =>
    intro hv w hw
    rw [splice_inside] at hw
    have hinner : (Key.ofString k).isOperator = false → IsProper v := by
      obtain ⟨-, -, hproper⟩ := hv
      rw [areProper_append, AreProper] at hproper
      exact hproper.2.1
    refine isProper_replace hv (fun e' he' => Or.inl ?_) (fun e' he' hnot => ?_) hw
    · obtain ⟨u, -, rfl⟩ := Option.map_eq_some_iff.mp he'
      rfl
    · obtain ⟨u, hu, rfl⟩ := Option.map_eq_some_iff.mp he'
      exact ih (hinner hnot) u hu
  | item h ih =>
    intro hv
    rw [IsProper] at hv
    · exact hv.elim
    · simp

theorem isSingleOf_append_cons {before after : Fields} {e : String × Json}
    (h : isSingleOf (before ++ e :: after) = true) : before = [] ∧ after = [] := by
  cases before with
  | nil =>
    cases after with
    | nil => exact ⟨rfl, rfl⟩
    | cons g after => simp [isSingleOf] at h
  | cons g before =>
    cases before with
    | nil => simp [isSingleOf] at h
    | cons g' before => simp [isSingleOf] at h

theorem isSingleOf_operator {e : String × Json} (h : (Key.ofString e.1).isOperator = true) :
    isSingleOf [e] = true := by
  obtain ⟨k, v⟩ := e
  rw [isSingleOf]
  cases hk : Key.ofString k with
  | field name =>
    rw [hk] at h
    exact Bool.noConfusion h
  | comparison op => rfl
  | connective op => rfl
  | quantifier op => rfl

/-- Another entry in the place of a single one is as single as it is itself. -/
theorem isSingle_replace {before after : Fields} {e : String × Json}
    {new : Option (String × Json)} {w : Json} (h : isSingleOf (before ++ e :: after) = true)
    (hnew : ∀ e', new = some e' → isSingleOf [e'] = true)
    (hw : Json.unlessEmpty .object (before ++ new.toList ++ after) = some w) :
    isSingle w = true := by
  obtain ⟨rfl, rfl⟩ := isSingleOf_append_cons h
  obtain ⟨hne, rfl⟩ := Json.unlessEmpty_eq_some.mp hw
  rw [List.nil_append, List.append_nil] at hne ⊢
  rw [isSingle]
  cases new with
  | none => exact absurd rfl hne
  | some e' => exact hnew e' rfl

/-- What has a single branch keeps it. -/
theorem isSingle_splice {f : String × Json → Option (String × Json)} {p : Position} {v : Json}
    (h : EntryAt (Fits f) p v) :
    isSingle v = true → ∀ w, Json.splice f p v = some w → isSingle w = true := by
  induction h with
  | here hfits =>
    intro hv w hw
    rw [isSingle] at hv
    rw [splice_here] at hw
    exact isSingle_replace hv (fun e' he' => isSingleOf_operator (hfits e' he').1) hw
  | @inside before after k v i p hk h ih =>
    intro hv w hw
    rw [isSingle] at hv
    rw [splice_inside] at hw
    refine isSingle_replace hv (fun e' he' => ?_) hw
    obtain ⟨u, hu, rfl⟩ := Option.map_eq_some_iff.mp he'
    -- an operator is single whatever it holds, a field is as single as its body
    rcases Key.isOperator_or_field k with hkey | hkey
    · exact isSingleOf_operator hkey
    · obtain ⟨rfl, rfl⟩ := isSingleOf_append_cons hv
      rw [List.nil_append, isSingleOf, hkey] at hv
      rw [isSingleOf, hkey]
      exact ih hv u hu
  | item h ih =>
    intro hv
    rw [isSingle] at hv
    · exact absurd hv Bool.false_ne_true
    · simp

end Query

end FilterTree
