import FilterTree.Query.Reading
import FilterTree.Proofs.Labels
import FilterTree.Proofs.Positions

/-!
# Live keys

Which keys of a query count, said without a reader: `Reads` derives the condition positions of a
query, the objects that fields open, and the keys that are live. `Describes` says which row a live
key should have. A `Scope` is what a reader has to carry along for that.
-/

namespace FilterTree

namespace Query

open Position (Encloses Longest)

/-! ## What is read -/

/-- What is at a position that is read. -/
inductive Place where
  /-- A condition position with its value. -/
  | condition (v : Json)
  /-- The object that a field opens. -/
  | body (fields : Fields)
  /-- A live key with its value. -/
  | key (k : String) (v : Json)

/-- What is read of a query, and where. Nothing inside the value of a comparison is. -/
inductive Reads (q : Json) : Position → Place → Prop where
  | root : Reads q [] (.condition q)
  | item {p : Position} {items : List Json} {i : Nat} {v : Json} :
      Reads q p (.condition (.array items)) → items[i]? = some v →
      Reads q (p ++ [i]) (.condition v)
  | connective {p : Position} {k : String} {v : Json} {op : Connective} :
      Reads q p (.key k v) → Key.ofString k = .connective op → Reads q p (.condition v)
  | quantifier {p : Position} {k : String} {v : Json} {op : Quantifier} :
      Reads q p (.key k v) → Key.ofString k = .quantifier op → Reads q p (.condition v)
  | operator {p : Position} {fields : Fields} {i : Nat} {k : String} {v : Json} :
      Reads q p (.condition (.object fields)) → fields[i]? = some (k, v) →
      (Key.ofString k).isOperator = true → Reads q (p ++ [i]) (.key k v)
  | field {p : Position} {fields body : Fields} {i : Nat} {k : String} :
      Reads q p (.condition (.object fields)) → fields[i]? = some (k, .object body) →
      (Key.ofString k).isOperator = false → Reads q (p ++ [i]) (.body body)
  | bodyOperator {p : Position} {fields : Fields} {i : Nat} {k : String} {v : Json} :
      Reads q p (.body fields) → fields[i]? = some (k, v) →
      (Key.ofString k).isOperator = true → Reads q (p ++ [i]) (.key k v)
  | bodyField {p : Position} {fields body : Fields} {i : Nat} {k : String} :
      Reads q p (.body fields) → hasOperator fields = false →
      fields[i]? = some (k, .object body) → Reads q (p ++ [i]) (.body body)

/-- Whether there is a live key at a position. -/
def IsLive (q : Json) (p : Position) : Prop := ∃ k v, Reads q p (.key k v)

/-- Whether there is a live quantifier at a position. -/
def IsLiveQuantifier (q : Json) (p : Position) : Prop :=
  ∃ k v op, Reads q p (.key k v) ∧ Key.ofString k = .quantifier op

/-- What a key says of its node; the name of a field says nothing. -/
def content? (path : Path) (k : String) (v : Json) : Option Content :=
  match Key.ofString k with
  | .comparison op => some (.condition path op (.ofJson v))
  | .connective op => some (.logical op)
  | .quantifier op => some (.embedded path op)
  | .field _ => none

/-- Whether a row is that of the live key at a position, where the nodes of other keys are called
what `label` says: its parent is the nearest live key around it, and its path are the names since
the nearest live quantifier. -/
structure Describes {ι : Type} (q : Json) (label : Position → ι) (p : Position) (r : Row ι) :
    Prop where
  id : r.id = label p
  parent : ∃ e, Longest (fun e => Encloses e p ∧ IsLive q e) e ∧ r.parent = e.map label
  content : ∃ k v e path, Reads q p (.key k v) ∧
    Longest (fun e => Encloses e p ∧ IsLiveQuantifier q e) e ∧
    q.names p = q.names (e.getD []) ++ path ∧ content? path k v = some r.content

/-! ## What is where -/

def Place.value : Place → Json
  | condition v => v
  | body fields => .object fields
  | key _ v => v

variable {q : Json} {p : Position}

/-- The value that is read is the one at the position. -/
theorem Reads.seek?_eq {place : Place} (h : Reads q p place) :
    ∃ l, Json.seek? (none, q) p = some (l, place.value) := by
  induction h with
  | root => exact ⟨none, rfl⟩
  | item h hi ih =>
    obtain ⟨l, hl⟩ := ih
    exact ⟨none, (Json.seek?_concat _ hl).trans (Json.child?_array hi)⟩
  | connective h hk ih => exact ih
  | quantifier h hk ih => exact ih
  | @operator p fields i k v h hi _ ih | @field p fields _ i k h hi _ ih
  | @bodyOperator p fields i k v h hi _ ih | @bodyField p fields _ i k h _ hi ih =>
    obtain ⟨l, hl⟩ := ih
    exact ⟨some k, (Json.seek?_concat _ hl).trans (Json.child?_object hi)⟩

/-- A live key is the operator at the position. -/
theorem Reads.seek?_key {k : String} {v : Json} (h : Reads q p (.key k v)) :
    Json.seek? (none, q) p = some (some k, v) ∧ (Key.ofString k).isOperator = true := by
  cases h with
  | operator h hi hk | bodyOperator h hi hk =>
    obtain ⟨l, hl⟩ := h.seek?_eq
    exact ⟨(Json.seek?_concat _ hl).trans (Json.child?_object hi), hk⟩

/-- Items and fields are not live. -/
theorem not_isLive {l : Option String} {v : Json} (h : Json.seek? (none, q) p = some (l, v))
    (hl : ∀ k, l = some k → (Key.ofString k).isOperator = false) : ¬ IsLive q p := by
  rintro ⟨k, w, hlive⟩
  obtain ⟨hseek, hk⟩ := hlive.seek?_key
  rw [hseek] at h
  obtain ⟨rfl, -⟩ := Prod.mk.inj (Option.some.inj h)
  rw [hl k rfl] at hk
  exact Bool.false_ne_true hk

theorem IsLiveQuantifier.isLive (h : IsLiveQuantifier q p) : IsLive q p := by
  obtain ⟨k, v, op, h, -⟩ := h
  exact ⟨k, v, h⟩

/-- Connectives are no quantifiers. -/
theorem not_isLiveQuantifier {k : String} {v : Json} {op : Connective}
    (h : Reads q p (.key k v)) (hk : Key.ofString k = .connective op) :
    ¬ IsLiveQuantifier q p := by
  rintro ⟨k', v', op', h', hk'⟩
  have hsame := h.seek?_key.1.symm.trans h'.seek?_key.1
  obtain ⟨hkey, -⟩ := Prod.mk.inj (Option.some.inj hsame)
  rw [Option.some.inj hkey, hk'] at hk
  cases hk

/-! ## Scopes -/

/-- What a reader that has come to a position should know: the nearest live key up to there, and the
names since the nearest live quantifier. -/
structure Scope (q : Json) (p : Position) (parent : Option Position) (path : Path) : Prop where
  parent : Longest (fun e => e <+: p ∧ IsLive q e) parent
  path : ∃ e, Longest (fun e => e <+: p ∧ IsLiveQuantifier q e) e ∧
    q.names p = q.names (e.getD []) ++ path

/-- The reader starts outside everything. -/
theorem scope_nil (q : Json) : Scope q [] none [] := by
  have hnot : ∀ e : Position, e <+: [] → ¬ IsLive q e := by
    intro e hwithin
    rw [List.prefix_nil.mp hwithin]
    exact not_isLive (v := q) rfl fun k hk => by cases hk
  exact ⟨fun e he => hnot e he.1 he.2, none, fun e he => hnot e he.1 he.2.isLive, rfl⟩

/-- An item of an array at a condition position. -/
structure Item (q : Json) (p : Position) (i : Nat) (v : Json) : Prop where
  seek : Json.seek? (none, q) (p ++ [i]) = some (none, v)
  names : q.names (p ++ [i]) = q.names p
  reads : Reads q (p ++ [i]) (.condition v)

theorem Reads.items {items : List Json} (h : Reads q p (.condition (.array items))) {i : Nat}
    {v : Json} (hi : items[i]? = some v) : Item q p i v := by
  obtain ⟨l, hl⟩ := h.seek?_eq
  refine ⟨(Json.seek?_concat i hl).trans (Json.child?_array hi), ?_, h.item hi⟩
  exact (Json.names_concat hl (Json.child?_array hi)).trans (List.append_nil _)

/-- A key of an object at a condition position, or of the object that a field opens. -/
structure Entry (q : Json) (p : Position) (shadowed : Bool) (i : Nat) (k : String) (v : Json) :
    Prop where
  seek : Json.seek? (none, q) (p ++ [i]) = some (some k, v)
  names : q.names (p ++ [i]) = q.names p ++ Json.nameOf (some k)
  operator : (Key.ofString k).isOperator = true → Reads q (p ++ [i]) (.key k v)
  field : (Key.ofString k).isOperator = false → shadowed = false →
    ∀ {body : Fields}, v = .object body → Reads q (p ++ [i]) (.body body)

theorem Reads.entries {fields : Fields} (h : Reads q p (.condition (.object fields))) {i : Nat}
    {k : String} {v : Json} (hi : fields[i]? = some (k, v)) : Entry q p false i k v := by
  obtain ⟨l, hl⟩ := h.seek?_eq
  refine ⟨(Json.seek?_concat i hl).trans (Json.child?_object hi),
    Json.names_concat hl (Json.child?_object hi), h.operator hi, ?_⟩
  rintro hk - body rfl
  exact h.field hi hk

theorem Reads.bodyEntries {fields : Fields} (h : Reads q p (.body fields)) {i : Nat} {k : String}
    {v : Json} (hi : fields[i]? = some (k, v)) : Entry q p (hasOperator fields) i k v := by
  obtain ⟨l, hl⟩ := h.seek?_eq
  refine ⟨(Json.seek?_concat i hl).trans (Json.child?_object hi),
    Json.names_concat hl (Json.child?_object hi), h.bodyOperator hi, ?_⟩
  rintro - hshadowed body rfl
  exact h.bodyField hshadowed hi

/-- An operator is no name. -/
theorem Entry.names_operator {shadowed : Bool} {i : Nat} {k : String} {v : Json}
    (h : Entry q p shadowed i k v) (hk : (Key.ofString k).isOperator = true) :
    q.names (p ++ [i]) = q.names p := by
  rw [h.names, Json.nameOf, hk]
  exact List.append_nil _

namespace Scope

variable {parent : Option Position} {path : Path} {i : Nat} {k : String} {v : Json}
  {shadowed : Bool}

theorem item (h : Scope q p parent path) (hv : Item q p i v) :
    Scope q (p ++ [i]) parent path := by
  have hnot : ¬ IsLive q (p ++ [i]) := not_isLive hv.seek fun k hk => by cases hk
  obtain ⟨e, he, hpath⟩ := h.path
  refine ⟨Position.longest_prefix_concat h.parent hnot, e, ?_, ?_⟩
  · exact Position.longest_prefix_concat he fun hlive => hnot hlive.isLive
  · rw [hv.names, hpath]

/-- A field is one more name. -/
theorem field (h : Scope q p parent path) (hv : Entry q p shadowed i k v)
    (hk : (Key.ofString k).isOperator = false) : Scope q (p ++ [i]) parent (path ++ [k]) := by
  have hnot : ¬ IsLive q (p ++ [i]) := by
    refine not_isLive hv.seek fun name hname => ?_
    rw [← Option.some.inj hname]
    exact hk
  obtain ⟨e, he, hpath⟩ := h.path
  refine ⟨Position.longest_prefix_concat h.parent hnot, e, ?_, ?_⟩
  · exact Position.longest_prefix_concat he fun hlive => hnot hlive.isLive
  · rw [hv.names, hpath, Json.nameOf, hk, List.append_assoc]
    rfl

/-- A connective is a parent and keeps the path. -/
theorem connective (h : Scope q p parent path) (hv : Entry q p shadowed i k v) {op : Connective}
    (hk : Key.ofString k = .connective op) : Scope q (p ++ [i]) (some (p ++ [i])) path := by
  have hoperator : (Key.ofString k).isOperator = true := by rw [hk]; rfl
  have hlive := hv.operator hoperator
  obtain ⟨e, he, hpath⟩ := h.path
  refine ⟨Position.longest_prefix_self ⟨k, v, hlive⟩, e, ?_, ?_⟩
  · exact Position.longest_prefix_concat he (not_isLiveQuantifier hlive hk)
  · rw [hv.names_operator hoperator, hpath]

/-- A quantifier is a parent and starts a new path. -/
theorem quantifier (hv : Entry q p shadowed i k v) {op : Quantifier}
    (hk : Key.ofString k = .quantifier op) : Scope q (p ++ [i]) (some (p ++ [i])) [] := by
  have hoperator : (Key.ofString k).isOperator = true := by rw [hk]; rfl
  have hlive := hv.operator hoperator
  refine ⟨Position.longest_prefix_self ⟨k, v, hlive⟩, some (p ++ [i]), ?_, ?_⟩
  · exact Position.longest_prefix_self ⟨k, v, op, hlive, hk⟩
  · exact (List.append_nil _).symm

/-- The row of a live key. -/
theorem describes (h : Scope q p parent path) (hv : Entry q p shadowed i k v) {c : Content}
    (hk : (Key.ofString k).isOperator = true) (hc : content? path k v = some c) :
    Describes q (fun e => e) (p ++ [i]) ⟨p ++ [i], parent, c⟩ := by
  obtain ⟨e, he, hpath⟩ := h.path
  refine ⟨rfl, ⟨parent, Position.longest_encloses_concat h.parent, ?_⟩,
    k, v, e, path, hv.operator hk, Position.longest_encloses_concat he, ?_, hc⟩
  · exact Option.map_id'.symm
  · rw [hv.names_operator hk, hpath]

end Scope

end Query

end FilterTree
