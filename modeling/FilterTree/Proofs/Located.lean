import Mathlib.Data.List.Forall2
import FilterTree.Proofs.LiveKeys

/-!
# Nodes where their keys are

`Query.located` reads a query like `Query.outline` does and labels each node with the position of
its key. Its labels are the positions of the live keys, all of them (`Query.mem_ids_located`), in
document order (`Query.ordered_located`), and its rows are what the keys say
(`Query.describes_located`). Numbering the outline puts identifiers in place of the positions
(`Query.rows_toTree`).
-/

namespace FilterTree

namespace Query

mutual

/-- The nodes of a value at a condition position, with the positions of their keys. -/
def located (path : Path) (p : Position) : Json → Forest Position
  | .array items => locatedItems path p 0 items
  | .object fields => locatedFields path p false 0 fields
  | _ => []

def locatedItems (path : Path) (p : Position) : Nat → List Json → Forest Position
  | _, [] => []
  | i, v :: vs => located path (p ++ [i]) v ++ locatedItems path p (i + 1) vs

def locatedFields (path : Path) (p : Position) (shadowed : Bool) :
    Nat → List (String × Json) → Forest Position
  | _, [] => []
  | i, (k, v) :: fields =>
    (match Key.ofString k with
      | .comparison op => [.condition (p ++ [i]) path op (.ofJson v)]
      | .connective op => [.logical (p ++ [i]) op (located path (p ++ [i]) v)]
      | .quantifier op => [.embedded (p ++ [i]) path op (located [] (p ++ [i]) v)]
      | .field name => if shadowed then [] else locatedBody (path ++ [name]) (p ++ [i]) v) ++
    locatedFields path p shadowed (i + 1) fields

def locatedBody (path : Path) (p : Position) : Json → Forest Position
  | .object fields => locatedFields path p (hasOperator fields) 0 fields
  | _ => []

end

/-! ## The outline -/

mutual

/-- Without its positions it is the outline. -/
theorem relabel_located (path : Path) :
    ∀ (p : Position) (v : Json),
      Forest.relabel (fun _ => ()) (located path p v) = outline path v
  | _, .null | _, .bool _ | _, .number _ | _, .string _ => by
    simp only [located, outline, Forest.relabel]
  | p, .array items => by rw [located, outline, relabel_locatedItems path p 0 items]
  | p, .object fields => by rw [located, outline, relabel_locatedFields path p false 0 fields]

theorem relabel_locatedItems (path : Path) :
    ∀ (p : Position) (i : Nat) (vs : List Json),
      Forest.relabel (fun _ => ()) (locatedItems path p i vs) = outlineItems path vs
  | _, _, [] => by rw [locatedItems, outlineItems, Forest.relabel]
  | p, i, v :: vs => by
    rw [locatedItems, outlineItems, Forest.relabel_append, relabel_located path (p ++ [i]) v,
      relabel_locatedItems path p (i + 1) vs]

theorem relabel_locatedFields (path : Path) :
    ∀ (p : Position) (shadowed : Bool) (i : Nat) (fields : List (String × Json)),
      Forest.relabel (fun _ => ()) (locatedFields path p shadowed i fields) =
        outlineFields path shadowed fields
  | _, _, _, [] => by rw [locatedFields, outlineFields, Forest.relabel]
  | p, shadowed, i, (k, v) :: fields => by
    rw [locatedFields, outlineFields, Forest.relabel_append,
      relabel_locatedFields path p shadowed (i + 1) fields]
    congr 1
    cases Key.ofString k with
    | comparison op => rfl
    | connective op =>
      simp only [Forest.relabel, Node.relabel, relabel_located path (p ++ [i]) v]
    | quantifier op =>
      simp only [Forest.relabel, Node.relabel, relabel_located [] (p ++ [i]) v]
    | field name =>
      cases shadowed with
      | true => rfl
      | false => exact relabel_locatedBody (path ++ [name]) (p ++ [i]) v

theorem relabel_locatedBody (path : Path) :
    ∀ (p : Position) (v : Json),
      Forest.relabel (fun _ => ()) (locatedBody path p v) = outlineBody path v
  | _, .null | _, .bool _ | _, .number _ | _, .string _ | _, .array _ => by
    simp only [locatedBody, outlineBody, Forest.relabel]
  | p, .object fields => by
    rw [locatedBody, outlineBody, relabel_locatedFields path p (hasOperator fields) 0 fields]

end

/-! ## The rows -/

variable {q : Json}

mutual

/-- Each node is where its key is, and holds what the key says. -/
theorem describes_located :
    ∀ {p : Position} {parent : Option Position} {path : Path} (v : Json),
      Reads q p (.condition v) → Scope q p parent path →
      ∀ r ∈ Forest.rows parent (located path p v), Describes q (fun e => e) r.id r
  | _, _, _, .null, _, _, r, hr | _, _, _, .bool _, _, _, r, hr
  | _, _, _, .number _, _, _, r, hr | _, _, _, .string _, _, _, r, hr => by
    simp only [located, Forest.rows, List.not_mem_nil] at hr
  | _, _, _, .array items, h, hscope, r, hr => by
    rw [located] at hr
    refine describes_locatedItems 0 items (fun j v hj => ?_) hscope r hr
    rw [Nat.zero_add]
    exact h.items hj
  | _, _, _, .object fields, h, hscope, r, hr => by
    rw [located] at hr
    refine describes_locatedFields 0 fields (fun j k v hj => ?_) hscope r hr
    rw [Nat.zero_add]
    exact h.entries hj

theorem describes_locatedItems :
    ∀ {p : Position} {parent : Option Position} {path : Path} (i : Nat) (vs : List Json),
      (∀ j v, vs[j]? = some v → Item q p (i + j) v) → Scope q p parent path →
      ∀ r ∈ Forest.rows parent (locatedItems path p i vs), Describes q (fun e => e) r.id r
  | _, _, _, _, [], _, _, r, hr => by
    rw [locatedItems] at hr
    cases hr
  | _, _, _, i, v :: vs, hget, hscope, r, hr => by
    rw [locatedItems, Forest.rows_append, List.mem_append] at hr
    have hv : Item q _ i v := hget 0 v rfl
    rcases hr with hr | hr
    · exact describes_located v hv.reads (hscope.item hv) r hr
    · refine describes_locatedItems (i + 1) vs (fun j w hj => ?_) hscope r hr
      rw [Nat.add_assoc, Nat.add_comm 1 j]
      exact hget (j + 1) w hj

theorem describes_locatedFields :
    ∀ {p : Position} {parent : Option Position} {path : Path} {shadowed : Bool} (i : Nat)
      (fields : List (String × Json)),
      (∀ j k v, fields[j]? = some (k, v) → Entry q p shadowed (i + j) k v) →
      Scope q p parent path →
      ∀ r ∈ Forest.rows parent (locatedFields path p shadowed i fields),
        Describes q (fun e => e) r.id r
  | _, _, _, _, _, [], _, _, r, hr => by
    rw [locatedFields] at hr
    cases hr
  | p, parent, path, shadowed, i, (k, v) :: fields, hget, hscope, r, hr => by
    rw [locatedFields, Forest.rows_append, List.mem_append] at hr
    have hv : Entry q p shadowed i k v := hget 0 k v rfl
    rcases hr with hr | hr
    · cases hk : Key.ofString k with
      | comparison op =>
        simp only [hk, Forest.rows_singleton, Node.rows, List.mem_singleton] at hr
        rw [hr]
        exact hscope.describes hv (by rw [hk]; rfl) (by rw [content?, hk])
      | connective op =>
        simp only [hk, Forest.rows_singleton, Node.rows, List.mem_cons] at hr
        rcases hr with rfl | hr
        · exact hscope.describes hv (by rw [hk]; rfl) (by rw [content?, hk])
        · have hlive := hv.operator (by rw [hk]; rfl)
          exact describes_located v (hlive.connective hk) (hscope.connective hv hk) r hr
      | quantifier op =>
        simp only [hk, Forest.rows_singleton, Node.rows, List.mem_cons] at hr
        rcases hr with rfl | hr
        · exact hscope.describes hv (by rw [hk]; rfl) (by rw [content?, hk])
        · have hlive := hv.operator (by rw [hk]; rfl)
          exact describes_located v (hlive.quantifier hk) (Scope.quantifier hv hk) r hr
      | field name =>
        cases shadowed with
        | true =>
          simp only [hk] at hr
          cases hr
        | false =>
          simp only [hk, Bool.false_eq_true, if_false] at hr
          have hnot : (Key.ofString k).isOperator = false := by rw [hk]; rfl
          have hbody := hscope.field hv hnot
          rw [← Key.name_of_ofString hk] at hbody
          exact describes_locatedBody v (hv.field hnot rfl) hbody r hr
    · refine describes_locatedFields (i + 1) fields (fun j l w hj => ?_) hscope r hr
      rw [Nat.add_assoc, Nat.add_comm 1 j]
      exact hget (j + 1) l w hj

theorem describes_locatedBody :
    ∀ {p : Position} {parent : Option Position} {path : Path} (v : Json),
      (∀ {body : Fields}, v = .object body → Reads q p (.body body)) → Scope q p parent path →
      ∀ r ∈ Forest.rows parent (locatedBody path p v), Describes q (fun e => e) r.id r
  | _, _, _, .null, _, _, r, hr | _, _, _, .bool _, _, _, r, hr | _, _, _, .number _, _, _, r, hr
  | _, _, _, .string _, _, _, r, hr | _, _, _, .array _, _, _, r, hr => by
    simp only [locatedBody, Forest.rows, List.not_mem_nil] at hr
  | _, _, _, .object fields, h, hscope, r, hr => by
    rw [locatedBody] at hr
    refine describes_locatedFields 0 fields (fun j k v hj => ?_) hscope r hr
    rw [Nat.zero_add]
    exact (h rfl).bodyEntries hj

end

/-! ## The order -/

/-- Positions inside `p`, from index `i` on, in document order. -/
structure Ordered (p : Position) (i : Nat) (ps : List Position) : Prop where
  pairwise : ps.Pairwise (· < ·)
  inside : ∀ x ∈ ps, ∃ j s, i ≤ j ∧ x = p ++ j :: s

namespace Ordered

variable {p : Position} {i : Nat} {ps rest : List Position}

theorem nil : Ordered p i [] := ⟨List.Pairwise.nil, fun x hx => by cases hx⟩

theorem append (hps : ps.Pairwise (· < ·)) (hin : ∀ x ∈ ps, ∃ s, x = p ++ i :: s)
    (hrest : Ordered p (i + 1) rest) : Ordered p i (ps ++ rest) := by
  refine ⟨List.pairwise_append.mpr ⟨hps, hrest.pairwise, ?_⟩, ?_⟩
  · intro x hx y hy
    obtain ⟨s, rfl⟩ := hin x hx
    obtain ⟨j, t, hj, rfl⟩ := hrest.inside y hy
    exact Position.lt_of_index_lt hj s t p
  · intro x hx
    rcases List.mem_append.mp hx with hx | hx
    · obtain ⟨s, rfl⟩ := hin x hx
      exact ⟨i, s, Nat.le_refl i, rfl⟩
    · obtain ⟨j, t, hj, rfl⟩ := hrest.inside x hx
      exact ⟨j, t, Nat.le_of_succ_le hj, rfl⟩

theorem step (h : Ordered (p ++ [i]) 0 ps) : ∀ x ∈ ps, ∃ s, x = p ++ i :: s := by
  intro x hx
  obtain ⟨j, s, -, rfl⟩ := h.inside x hx
  exact ⟨j :: s, List.append_assoc p [i] (j :: s)⟩

/-- A key comes before what is in its value. -/
theorem cons_key (h : Ordered (p ++ [i]) 0 ps) :
    ((p ++ [i]) :: ps).Pairwise (· < ·) ∧ ∀ x ∈ (p ++ [i]) :: ps, ∃ s, x = p ++ i :: s := by
  refine ⟨List.pairwise_cons.mpr ⟨?_, h.pairwise⟩, ?_⟩
  · intro x hx
    obtain ⟨j, s, -, rfl⟩ := h.inside x hx
    exact Position.lt_append_cons j s (p ++ [i])
  · intro x hx
    rcases List.mem_cons.mp hx with rfl | hx
    · exact ⟨[], rfl⟩
    · exact h.step x hx

end Ordered

mutual

/-- The nodes are in document order. -/
theorem ordered_located (path : Path) :
    ∀ (p : Position) (v : Json), Ordered p 0 (Forest.ids (located path p v))
  | _, .null | _, .bool _ | _, .number _ | _, .string _ => by
    simpa only [located, Forest.ids_nil] using Ordered.nil
  | p, .array items => by
    rw [located]
    exact ordered_locatedItems path p 0 items
  | p, .object fields => by
    rw [located]
    exact ordered_locatedFields path p false 0 fields

theorem ordered_locatedItems (path : Path) :
    ∀ (p : Position) (i : Nat) (vs : List Json),
      Ordered p i (Forest.ids (locatedItems path p i vs))
  | _, _, [] => by
    rw [locatedItems]
    exact Ordered.nil
  | p, i, v :: vs => by
    have hv := ordered_located path (p ++ [i]) v
    rw [locatedItems, Forest.ids_append]
    exact Ordered.append hv.pairwise hv.step (ordered_locatedItems path p (i + 1) vs)

theorem ordered_locatedFields (path : Path) :
    ∀ (p : Position) (shadowed : Bool) (i : Nat) (fields : List (String × Json)),
      Ordered p i (Forest.ids (locatedFields path p shadowed i fields))
  | _, _, _, [] => by
    rw [locatedFields]
    exact Ordered.nil
  | p, shadowed, i, (k, v) :: fields => by
    have hrest := ordered_locatedFields path p shadowed (i + 1) fields
    rw [locatedFields, Forest.ids_append]
    cases Key.ofString k with
    | comparison op =>
      obtain ⟨hpairwise, hinside⟩ := (Ordered.nil (p := p ++ [i])).cons_key
      exact Ordered.append hpairwise hinside hrest
    | connective op =>
      obtain ⟨hpairwise, hinside⟩ := (ordered_located path (p ++ [i]) v).cons_key
      rw [Forest.ids_singleton]
      exact Ordered.append hpairwise hinside hrest
    | quantifier op =>
      obtain ⟨hpairwise, hinside⟩ := (ordered_located [] (p ++ [i]) v).cons_key
      rw [Forest.ids_singleton]
      exact Ordered.append hpairwise hinside hrest
    | field name =>
      cases shadowed with
      | true => exact Ordered.append List.Pairwise.nil (fun x hx => by cases hx) hrest
      | false =>
        have hbody := ordered_locatedBody (path ++ [name]) (p ++ [i]) v
        exact Ordered.append hbody.pairwise hbody.step hrest

theorem ordered_locatedBody (path : Path) :
    ∀ (p : Position) (v : Json), Ordered p 0 (Forest.ids (locatedBody path p v))
  | _, .null | _, .bool _ | _, .number _ | _, .string _ | _, .array _ => by
    simpa only [locatedBody, Forest.ids_nil] using Ordered.nil
  | p, .object fields => by
    rw [locatedBody]
    exact ordered_locatedFields path p (hasOperator fields) 0 fields

end

/-- The nodes of a key are at the key or inside of it. -/
theorem ids_locatedFields_singleton (path : Path) (p : Position) (shadowed : Bool) (i : Nat)
    (f : String × Json) :
    ∀ x ∈ Forest.ids (locatedFields path p shadowed i [f]), ∃ s, x = p ++ i :: s := by
  obtain ⟨k, v⟩ := f
  rw [locatedFields, locatedFields, List.append_nil]
  cases Key.ofString k with
  | comparison op => exact (Ordered.nil (p := p ++ [i])).cons_key.2
  | connective op =>
    rw [Forest.ids_singleton]
    exact (ordered_located path (p ++ [i]) v).cons_key.2
  | quantifier op =>
    rw [Forest.ids_singleton]
    exact (ordered_located [] (p ++ [i]) v).cons_key.2
  | field name =>
    cases shadowed with
    | true => exact fun x hx => by cases hx
    | false => exact (ordered_locatedBody (path ++ [name]) (p ++ [i]) v).step

theorem locatedFields_cons (path : Path) (p : Position) (shadowed : Bool) (i : Nat)
    (f : String × Json) (fields : Fields) :
    locatedFields path p shadowed i (f :: fields) =
      locatedFields path p shadowed i [f] ++ locatedFields path p shadowed (i + 1) fields := by
  rw [locatedFields, locatedFields, locatedFields, List.append_nil]

theorem locatedFields_append (path : Path) (p : Position) (shadowed : Bool) (rest : Fields) :
    ∀ (i : Nat) (fields : List (String × Json)),
      locatedFields path p shadowed i (fields ++ rest) =
        locatedFields path p shadowed i fields ++
          locatedFields path p shadowed (i + fields.length) rest
  | i, [] => by
    rw [locatedFields]
    rfl
  | i, f :: fields => by
    rw [List.cons_append, locatedFields_cons, locatedFields_append path p shadowed rest (i + 1),
      locatedFields_cons path p shadowed i f fields, List.append_assoc, List.length_cons,
      Nat.add_assoc, Nat.add_comm 1]

theorem locatedItems_append (path : Path) (p : Position) (rest : List Json) :
    ∀ (i : Nat) (vs : List Json),
      locatedItems path p i (vs ++ rest) =
        locatedItems path p i vs ++ locatedItems path p (i + vs.length) rest
  | i, [] => by
    rw [locatedItems]
    rfl
  | i, v :: vs => by
    rw [List.cons_append, locatedItems, locatedItems, locatedItems_append path p rest (i + 1),
      List.append_assoc, List.length_cons, Nat.add_assoc, Nat.add_comm 1]

/-- The nodes of an object are inside, each at one of its keys. -/
theorem ids_locatedFields (path : Path) (p : Position) (shadowed : Bool) {x : Position} :
    ∀ (i : Nat) (fields : List (String × Json)),
      x ∈ Forest.ids (locatedFields path p shadowed i fields) →
      ∃ j s, j < fields.length ∧ x = p ++ (i + j) :: s
  | _, [], h => by
    rw [locatedFields] at h
    cases h
  | i, f :: fields, h => by
    rw [locatedFields_cons, Forest.ids_append, List.mem_append] at h
    rcases h with h | h
    · obtain ⟨s, rfl⟩ := ids_locatedFields_singleton path p shadowed i f x h
      exact ⟨0, s, Nat.zero_lt_succ _, rfl⟩
    · obtain ⟨j, s, hj, rfl⟩ := ids_locatedFields path p shadowed (i + 1) fields h
      refine ⟨j + 1, s, Nat.succ_lt_succ hj, ?_⟩
      rw [Nat.add_assoc, Nat.add_comm 1 j]

/-- The nodes of an array are inside, each at one of its items. -/
theorem ids_locatedItems (path : Path) (p : Position) {x : Position} :
    ∀ (i : Nat) (vs : List Json), x ∈ Forest.ids (locatedItems path p i vs) →
      ∃ j s, j < vs.length ∧ x = p ++ (i + j) :: s
  | _, [], h => by
    rw [locatedItems] at h
    cases h
  | i, v :: vs, h => by
    rw [locatedItems, Forest.ids_append, List.mem_append] at h
    rcases h with h | h
    · obtain ⟨s, rfl⟩ := (ordered_located path (p ++ [i]) v).step x h
      exact ⟨0, s, Nat.zero_lt_succ _, rfl⟩
    · obtain ⟨j, s, hj, rfl⟩ := ids_locatedItems path p (i + 1) vs h
      refine ⟨j + 1, s, Nat.succ_lt_succ hj, ?_⟩
      rw [Nat.add_assoc, Nat.add_comm 1 j]

/-! ## Nothing is left out -/

theorem ids_located_subset (path : Path) (p : Position) {v : Json} :
    ∀ (i j : Nat) (vs : List Json), vs[j]? = some v →
      Forest.ids (located path (p ++ [i + j]) v) ⊆ Forest.ids (locatedItems path p i vs)
  | i, 0, w :: vs, h => by
    rw [← Option.some.inj h, locatedItems, Forest.ids_append]
    exact List.subset_append_left _ _
  | i, j + 1, w :: vs, h => by
    have hrest := ids_located_subset path p (i + 1) j vs h
    rw [Nat.add_right_comm, Nat.add_assoc] at hrest
    rw [locatedItems, Forest.ids_append]
    exact List.subset_append_of_subset_right _ hrest

theorem ids_locatedFields_subset (path : Path) (p : Position) (shadowed : Bool) {k : String}
    {v : Json} :
    ∀ (i j : Nat) (fields : List (String × Json)), fields[j]? = some (k, v) →
      Forest.ids (locatedFields path p shadowed (i + j) [(k, v)]) ⊆
        Forest.ids (locatedFields path p shadowed i fields)
  | i, 0, f :: fields, h => by
    rw [← Option.some.inj h, locatedFields_cons path p shadowed i f fields, Forest.ids_append]
    exact List.subset_append_left _ _
  | i, j + 1, f :: fields, h => by
    have hrest := ids_locatedFields_subset path p shadowed (i + 1) j fields h
    rw [Nat.add_right_comm, Nat.add_assoc] at hrest
    rw [locatedFields_cons path p shadowed i f fields, Forest.ids_append]
    exact List.subset_append_of_subset_right _ hrest

/-- What is at a position has its nodes among those of a list. -/
def Covered (ps : List Position) (p : Position) : Place → Prop
  | .condition v => ∃ path, Forest.ids (located path p v) ⊆ ps
  | .body fields => ∃ path, Forest.ids (locatedFields path p (hasOperator fields) 0 fields) ⊆ ps
  | .key k v => p ∈ ps ∧
    ((∀ op, Key.ofString k ≠ .comparison op) → ∃ path, Forest.ids (located path p v) ⊆ ps)

section

variable {ps : List Position} {path : Path} {p : Position} {shadowed : Bool} {i : Nat}
  {fields : Fields} {k : String}

theorem covered_key {v : Json}
    (h : Forest.ids (locatedFields path p shadowed 0 fields) ⊆ ps) (hi : fields[i]? = some (k, v))
    (hk : (Key.ofString k).isOperator = true) : Covered ps (p ++ [i]) (.key k v) := by
  have hkey := List.Subset.trans (ids_locatedFields_subset path p shadowed 0 i fields hi) h
  rw [Nat.zero_add, locatedFields, locatedFields, List.append_nil] at hkey
  cases hop : Key.ofString k with
  | comparison op =>
    rw [hop] at hkey
    exact ⟨hkey List.mem_cons_self, fun hnot => absurd hop (hnot op)⟩
  | connective op =>
    simp only [hop, Forest.ids_singleton] at hkey
    exact ⟨hkey List.mem_cons_self, fun _ => ⟨path, fun x hx => hkey (List.mem_cons_of_mem _ hx)⟩⟩
  | quantifier op =>
    simp only [hop, Forest.ids_singleton] at hkey
    exact ⟨hkey List.mem_cons_self, fun _ => ⟨[], fun x hx => hkey (List.mem_cons_of_mem _ hx)⟩⟩
  | field name =>
    rw [hop] at hk
    exact absurd hk Bool.false_ne_true

theorem covered_body {body : Fields}
    (h : Forest.ids (locatedFields path p false 0 fields) ⊆ ps)
    (hi : fields[i]? = some (k, .object body)) (hk : (Key.ofString k).isOperator = false) :
    Covered ps (p ++ [i]) (.body body) := by
  have hkey := List.Subset.trans (ids_locatedFields_subset path p false 0 i fields hi) h
  rw [Nat.zero_add, locatedFields, locatedFields, List.append_nil] at hkey
  cases hop : Key.ofString k with
  | field name =>
    simp only [hop, Bool.false_eq_true, if_false, locatedBody] at hkey
    exact ⟨path ++ [name], hkey⟩
  | comparison op | connective op | quantifier op =>
    rw [hop] at hk
    exact absurd hk.symm Bool.false_ne_true

end

/-- Whatever is read has its nodes in the tree. -/
theorem Reads.covered {p : Position} {place : Place} (h : Reads q p place) :
    Covered (Forest.ids (located [] [] q)) p place := by
  induction h with
  | root => exact ⟨[], List.Subset.refl _⟩
  | @item p items i v h hi ih =>
    obtain ⟨path, hpath⟩ := ih
    have hitem := ids_located_subset path p 0 i items hi
    rw [Nat.zero_add] at hitem
    rw [located] at hpath
    exact ⟨path, List.Subset.trans hitem hpath⟩
  | connective h hk ih => exact ih.2 fun op hop => by rw [hk] at hop; cases hop
  | quantifier h hk ih => exact ih.2 fun op hop => by rw [hk] at hop; cases hop
  | operator h hi hk ih =>
    obtain ⟨path, hpath⟩ := ih
    rw [located] at hpath
    exact covered_key hpath hi hk
  | field h hi hk ih =>
    obtain ⟨path, hpath⟩ := ih
    rw [located] at hpath
    exact covered_body hpath hi hk
  | bodyOperator h hi hk ih =>
    obtain ⟨path, hpath⟩ := ih
    exact covered_key hpath hi hk
  | @bodyField p fields body i k h hnone hi ih =>
    obtain ⟨path, hpath⟩ := ih
    have hk : (Key.ofString k).isOperator = false := by
      rw [hasOperator, List.any_eq_false] at hnone
      exact Bool.eq_false_iff.mpr (hnone _ (List.mem_of_getElem? hi))
    rw [hnone] at hpath
    exact covered_body hpath hi hk

/-- The tree has a node for each live key and for nothing else. -/
theorem mem_ids_located {p : Position} :
    p ∈ Forest.ids (located [] [] q) ↔ IsLive q p := by
  constructor
  · intro hp
    rw [← Forest.map_id_rows _ none] at hp
    obtain ⟨r, hr, rfl⟩ := List.mem_map.mp hp
    obtain ⟨k, v, -, -, hlive, -⟩ := (describes_located q .root (scope_nil q) r hr).content
    exact ⟨k, v, hlive⟩
  · rintro ⟨k, v, hlive⟩
    exact hlive.covered.1

/-! ## The tree -/

/-- Labels can be replaced. -/
theorem Describes.relabel {ι : Type} {p : Position} {r : Row Position}
    (h : Describes q (fun e => e) p r) (label : Position → ι) :
    Describes q label p (r.relabel label) := by
  obtain ⟨e, he, hparent⟩ := h.parent
  refine ⟨congrArg label h.id, ⟨e, he, ?_⟩, h.content⟩
  rw [Row.relabel, hparent, Option.map_map]
  rfl

/-- The nodes of the tree of a query are its live keys, one by one, in document order. -/
theorem rows_toTree (first : NodeId) (q : Json) :
    ∃ (ps : List Position) (number : Position → NodeId),
      (∀ p, p ∈ ps ↔ IsLive q p) ∧ ps.Pairwise (· < ·) ∧ (Forest.ids (toTree first q)).Nodup ∧
      List.Forall₂ (Describes q number) ps (Forest.rows none (toTree first q)) := by
  have hordered := (ordered_located [] [] q).pairwise
  have hnodup : (Forest.ids (located [] [] q)).Nodup := by
    refine hordered.imp ?_
    rintro p _ hlt rfl
    exact List.lt_irrefl p hlt
  obtain ⟨number, hnumber⟩ := Forest.exists_number_eq_relabel (fun _ => ()) first hnodup
  rw [relabel_located] at hnumber
  refine ⟨Forest.ids (located [] [] q), number, fun p => mem_ids_located, hordered, ?_, ?_⟩
  · rw [Forest.ids, toTree, Forest.ids_number]
    exact List.nodup_range'
  · have hrows := Forest.rows_relabel number (located [] [] q) none
    rw [Option.map_none] at hrows
    rw [toTree, hnumber, hrows, ← Forest.map_id_rows _ none, List.forall₂_map_left_iff,
      List.forall₂_map_right_iff, List.forall₂_same]
    intro r hr
    exact (describes_located q .root (scope_nil q) r hr).relabel number

/-- `{"a": {"$or": [[{"b": {"$eq": 1}}], 2], "c": {"$eq": 3}}}`: nested arrays count as one, and
operators shadow the fields beside them. -/
example :
    Forest.rows none (toTree 1 (.object [("a", .object [
      ("$or", .array [
        .array [.object [("b", .object [("$eq", .number (.int 1))])]], .number (.int 2)]),
      ("c", .object [("$eq", .number (.int 3))])])])) =
      [⟨1, none, .logical .or⟩, ⟨2, some 1, .condition ["a", "b"] .eq (.number (.int 1))⟩] := by
  decide

end Query

end FilterTree
