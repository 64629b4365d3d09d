import FilterTree.Proofs.Alteration
import FilterTree.Proofs.Located
import FilterTree.Proofs.Splice

/-!
# Entries and their nodes

Which node of the tree of a query stands for which entry of the query (`Query.IsEntry`). Each node
stands for one (`Query.exists_isEntry`), and the way to the entry is open for edits
(`Query.Reads.entryAt`).
-/

namespace FilterTree

namespace Query

variable {q : Json}

/-! ## Identifiers of entries -/

/-- The identifier of the node of the live key at a position: live keys are counted in document
order. -/
def nodeId (first : NodeId) (q : Json) (p : Position) : NodeId :=
  first + (Forest.ids (located [] [] q)).idxOf p

theorem nodup_ids_located (q : Json) : (Forest.ids (located [] [] q)).Nodup := by
  -- document order is strict
  refine (ordered_located [] [] q).pairwise.imp ?_
  rintro p _ hlt rfl
  exact List.lt_irrefl p hlt

theorem nodup_ids_toTree (first : NodeId) (q : Json) : (Forest.ids (toTree first q)).Nodup := by
  rw [Forest.ids, toTree, Forest.ids_number]
  exact List.nodup_range'

/-- The tree of a query has its nodes where their keys are. -/
theorem toTree_eq_relabel (first : NodeId) (q : Json) :
    toTree first q = Forest.relabel (nodeId first q) (located [] [] q) := by
  rw [toTree, ← relabel_located [] [] q]
  exact Forest.number_eq_relabel _ first (nodup_ids_located q)

/-- Live keys have distinct identifiers. -/
theorem eq_of_nodeId_eq {first : NodeId} {p r : Position} (hp : IsLive q p)
    (h : nodeId first q p = nodeId first q r) : p = r :=
  (List.idxOf_inj (mem_ids_located.mpr hp)).mp (Nat.add_left_cancel h)

/-! ## Entries -/

/-- Whether a node of the tree is that of an entry: the entry is at the position, in an object with
these fields, and the row of the node is what its key says. -/
structure IsEntry (q : Json) (id : NodeId) (p : Position) (fields : Fields)
    (entry : String × Json) : Prop where
  holder : ∃ outer i l, p = outer ++ [i] ∧
    Json.seek? (none, q) outer = some (l, .object fields) ∧ fields[i]? = some entry
  row : ∃ r ∈ Forest.rows none (toTree 1 q), r.id = id ∧ Describes q (nodeId 1 q) p r

/-- The rows of the tree are those of the live keys. -/
theorem exists_row {p : Position} (hp : IsLive q p) :
    ∃ r ∈ Forest.rows none (toTree 1 q), r.id = nodeId 1 q p ∧
      Describes q (nodeId 1 q) p r := by
  have hid := mem_ids_located.mpr hp
  rw [← Forest.map_id_rows _ none] at hid
  obtain ⟨r, hr, rfl⟩ := List.mem_map.mp hid
  have hrows := Forest.rows_relabel (nodeId 1 q) (located [] [] q) none
  rw [Option.map_none] at hrows
  have hdescribes := (describes_located q .root (scope_nil q) r hr).relabel (nodeId 1 q)
  refine ⟨r.relabel (nodeId 1 q), ?_, rfl, hdescribes⟩
  rw [toTree_eq_relabel, hrows]
  exact List.mem_map_of_mem hr

/-- Whatever is read is on an open way. -/
theorem Reads.entryAt_append {P : Fields → String × Json → Prop} {p : Position} {place : Place}
    (h : Reads q p place) :
    ∀ s : Position, (∀ k v, place = .key k v → ∀ op, Key.ofString k ≠ .comparison op) →
      EntryAt P s place.value → EntryAt P (p ++ s) q := by
  induction h with
  | root => exact fun s _ hs => hs
  | @item p items i v _ hi ih =>
    intro s _ hs
    rw [List.append_assoc]
    exact ih (i :: s) (fun k v hplace => by cases hplace) (.of_item hi hs)
  | connective _ hk ih | quantifier _ hk ih =>
    intro s _ hs
    refine ih s (fun k v hplace op hop => ?_) hs
    obtain ⟨rfl, rfl⟩ := Place.key.inj hplace
    rw [hk] at hop
    cases hop
  | @operator p fields i k v _ hi _ ih | @bodyOperator p fields i k v _ hi _ ih =>
    intro s hnot hs
    rw [List.append_assoc]
    exact ih (i :: s) (fun k v hplace => by cases hplace) (.of_value hi (hnot k v rfl) hs)
  | @field p fields body i k _ hi hk ih =>
    intro s _ hs
    rw [List.append_assoc]
    refine ih (i :: s) (fun k v hplace => by cases hplace) (.of_value hi (fun op hop => ?_) hs)
    rw [hop] at hk
    exact Bool.noConfusion hk
  | @bodyField p fields body i k _ hnone hi ih =>
    intro s _ hs
    rw [List.append_assoc]
    refine ih (i :: s) (fun k v hplace => by cases hplace) (.of_value hi (fun op hop => ?_) hs)
    rw [hasOperator, List.any_eq_false] at hnone
    refine hnone _ (List.mem_of_getElem? hi) ?_
    rw [hop]
    rfl

/-- A live key is in an object, and can be edited there. -/
theorem Reads.entryAt {p : Position} {k : String} {v : Json} (h : Reads q p (.key k v)) :
    ∃ outer i l fields, p = outer ++ [i] ∧
      Json.seek? (none, q) outer = some (l, .object fields) ∧ fields[i]? = some (k, v) ∧
      ∀ P : Fields → String × Json → Prop, P fields (k, v) → EntryAt P p q := by
  cases h with
  | @operator outer fields i _ _ h hi hk | @bodyOperator outer fields i _ _ h hi hk =>
    obtain ⟨l, hl⟩ := h.seek?_eq
    refine ⟨outer, i, l, fields, rfl, hl, hi, fun P hP => ?_⟩
    exact h.entryAt_append [i] (fun k v hplace => by cases hplace) (.of_key hi hP)

/-- A live key has a node with its identifier. -/
theorem isEntry_nodeId {outer : Position} {i : Nat} {l : Option String} {fields : Fields}
    {entry : String × Json} (hlive : IsLive q (outer ++ [i]))
    (hl : Json.seek? (none, q) outer = some (l, .object fields)) (hi : fields[i]? = some entry) :
    IsEntry q (nodeId 1 q (outer ++ [i])) (outer ++ [i]) fields entry :=
  ⟨⟨outer, i, l, rfl, hl, hi⟩, exists_row hlive⟩

/-- What is found at a position is the entry of the node that the position is numbered with. -/
theorem isEntry_of_nodeId_eq {id : NodeId} (outer : Position) (i : Nat) {l : Option String}
    {fields : Fields} {entry : String × Json} (hid : nodeId 1 q (outer ++ [i]) = id)
    (hmem : outer ++ [i] ∈ Forest.ids (located [] [] q))
    (hl : Json.seek? (none, q) outer = some (l, .object fields)) (hi : fields[i]? = some entry) :
    IsEntry q id (outer ++ [i]) fields entry := by
  rw [← hid]
  exact isEntry_nodeId (mem_ids_located.mp hmem) hl hi

/-- Each node of the tree is that of an entry. -/
theorem exists_isEntry {id : NodeId} (h : id ∈ Forest.ids (toTree 1 q)) :
    ∃ p fields entry, IsEntry q id p fields entry := by
  rw [toTree_eq_relabel, ← Forest.map_id_rows _ none] at h
  have hrows := Forest.rows_relabel (nodeId 1 q) (located [] [] q) none
  rw [Option.map_none] at hrows
  rw [hrows, List.map_map] at h
  obtain ⟨r, hr, rfl⟩ := List.mem_map.mp h
  have hlive : IsLive q r.id := mem_ids_located.mp (Forest.id_mem_of_mem_rows hr)
  obtain ⟨k, v, hread⟩ := hlive
  obtain ⟨outer, i, l, fields, hp, hl, hi, -⟩ := hread.entryAt
  have hentry := isEntry_nodeId (q := q) ⟨k, v, hp ▸ hread⟩ hl hi
  rw [← hp] at hentry
  exact ⟨r.id, fields, (k, v), hentry⟩

namespace IsEntry

variable {id : NodeId} {p : Position} {fields : Fields} {k : String} {v : Json}

theorem reads (h : IsEntry q id p fields (k, v)) : Reads q p (.key k v) := by
  obtain ⟨r, -, -, hdescribes⟩ := h.row
  obtain ⟨k', v', e, path, hread, -⟩ := hdescribes.content
  obtain ⟨outer, i, l, rfl, hl, hi⟩ := h.holder
  have hseek := (Json.seek?_concat i hl).trans (Json.child?_object hi)
  rw [hread.seek?_key.1] at hseek
  obtain ⟨hk, hv⟩ := Prod.mk.inj (Option.some.inj hseek)
  rw [← Option.some.inj hk, ← hv]
  exact hread

theorem id_eq (h : IsEntry q id p fields (k, v)) : id = nodeId 1 q p := by
  obtain ⟨r, -, hid, hdescribes⟩ := h.row
  rw [← hid]
  exact hdescribes.id

/-- The entry can be edited. -/
theorem entryAt {P : Fields → String × Json → Prop} (h : IsEntry q id p fields (k, v))
    (hP : P fields (k, v)) : EntryAt P p q := by
  obtain ⟨outer, i, l, fields', hp, hl, hi, hentry⟩ := h.reads.entryAt
  obtain ⟨outer', i', l', hp', hl', hi'⟩ := h.holder
  -- both ways lead to the object that holds the entry
  obtain ⟨rfl, -⟩ := List.append_inj' (hp.symm.trans hp') rfl
  rw [hl] at hl'
  obtain ⟨-, hfields⟩ := Prod.mk.inj (Option.some.inj hl')
  refine hentry P ?_
  rw [Json.object.inj hfields]
  exact hP

theorem mem_ids (h : IsEntry q id p fields (k, v)) : id ∈ Forest.ids (toTree 1 q) := by
  obtain ⟨r, hr, rfl, -⟩ := h.row
  exact Forest.id_mem_of_mem_rows hr

/-- The node of the entry is found, and holds what the key says. -/
theorem exists_find? (h : IsEntry q id p fields (k, v)) :
    ∃ n path, Forest.find? id (toTree 1 q) = some n ∧ content? path k v = some n.content := by
  obtain ⟨r, hr, hid, hdescribes⟩ := h.row
  obtain ⟨k', v', e, path, hread, -, -, hcontent⟩ := hdescribes.content
  obtain ⟨n, hn, hsame⟩ := Forest.exists_find?_of_row none (nodup_ids_toTree 1 q) hr
  have hseek := h.reads.seek?_key.1
  rw [hread.seek?_key.1] at hseek
  obtain ⟨hk, hv⟩ := Prod.mk.inj (Option.some.inj hseek)
  rw [Option.some.inj hk, hv, ← hsame] at hcontent
  exact ⟨n, path, by rw [← hid]; exact hn, hcontent⟩

end IsEntry

end Query

end FilterTree
