import FilterTree.Forest.Form
import FilterTree.Proofs.Merge
import FilterTree.Proofs.Operand
import FilterTree.Proofs.Output
import FilterTree.Proofs.Rewriting

/-!
# Reading forms back

A form is written by type and read by shape: nothing in the form of an operand says which tag it
had, and an operand may look like a node or like a list of another kind. `Rereads x y` says that the
form of `x` is read as `y`, which has that form too. Identifiers, paths and operators are read as
they were; so are operands that were made from JSON or from native values, except for lists without
numbers (`Operand.reread`). Forests of any depth follow by induction (`Forest.decode_encode`). Forms
are JSON values here and not texts, which may nest too deep to be parsed.
-/

namespace FilterTree

/-! ## Values without repeated keys -/

theorem Fields.foldl_put_append :
    ∀ {entries fs : Fields}, (keys (fs ++ entries)).Nodup →
      entries.foldl (fun fs (k, v) => put k v fs) fs = fs ++ entries
  | [], fs, _ => (List.append_nil fs).symm
  | (k, v) :: entries, fs, h => by
    have hk : k ∉ keys fs := by
      rw [keys_append, keys_cons, List.nodup_append] at h
      exact fun hmem => h.2.2 k hmem k List.mem_cons_self rfl
    have hput : put k v fs = fs ++ [(k, v)] := by
      have := put_append hk v []
      rwa [List.append_nil] at this
    rw [List.append_cons] at h
    rw [List.foldl_cons]
    show entries.foldl (fun fs (k, v) => put k v fs) (put k v fs) = fs ++ (k, v) :: entries
    rw [hput, foldl_put_append h, ← List.append_cons]

/-- An object on distinct keys is built by putting its fields. -/
theorem Fields.ofList_of_nodup {fs : Fields} (h : (keys fs).Nodup) : ofList fs = fs :=
  foldl_put_append h

mutual

/-- Where no key is repeated there is nothing to remove. -/
theorem Json.normalize_of_distinct : ∀ v : Json, v.DistinctKeys → v.normalize = v
  | .null, _ | .bool _, _ | .number _, _ | .string _, _ => rfl
  | .array items, h => by rw [normalize, normalizeList_of_distinct items h]
  | .object fields, h => by
    rw [normalize, normalizeFields_of_distinct fields h.2, Fields.ofList_of_nodup h.1]

theorem Json.normalizeList_of_distinct :
    ∀ vs : List Json, DistinctKeysList vs → normalizeList vs = vs
  | [], _ => rfl
  | v :: vs, h => by
    rw [normalizeList, normalize_of_distinct v h.1, normalizeList_of_distinct vs h.2]

theorem Json.normalizeFields_of_distinct :
    ∀ fields : List (String × Json), DistinctKeysFields fields → normalizeFields fields = fields
  | [], _ => rfl
  | (k, v) :: fields, h => by
    rw [normalizeFields, normalize_of_distinct v h.1, normalizeFields_of_distinct fields h.2]

end

/-! ## Rereading -/

/-- What is read of each item is read of the list. -/
theorem mapM_map_eq_some {α β γ : Type} {write : α → β} {read? : β → Option γ} {f : α → γ} :
    ∀ {xs : List α}, (∀ x ∈ xs, read? (write x) = some (f x)) →
      (xs.map write).mapM read? = some (xs.map f)
  | [], _ => rfl
  | x :: xs, h => by
    have hxs := mapM_map_eq_some fun y hy => h y (List.mem_cons_of_mem x hy)
    rw [List.map_cons, List.mapM_cons, h x List.mem_cons_self, hxs]
    rfl

/-- The form of `x` has no repeated keys and is read as `y`, of which it is the form as well. -/
structure Rereads {α : Type} [JsonForm α] (x y : α) : Prop where
  distinct : (encode x).DistinctKeys
  decoded : decode? (encode x) = some y
  form : encode y = encode x

namespace Rereads

variable {α : Type} [JsonForm α]

/-- A field that is there once is read as its value is. -/
theorem read? {x y : α} (h : Rereads x y) (key : String) {fields : Fields}
    (hkey : Fields.only? key fields = some (encode x)) : fields.read? key = some y := by
  rw [Fields.read?, hkey, Option.bind_some, Json.normalize_of_distinct _ h.distinct, h.decoded]

theorem list {f : α → α} {xs : List α} (h : ∀ x ∈ xs, Rereads x (f x)) :
    Rereads xs (xs.map f) where
  distinct := by
    refine (Json.distinctKeysList_iff _).mpr fun v hv => ?_
    obtain ⟨x, hx, rfl⟩ := List.mem_map.mp hv
    exact (h x hx).distinct
  decoded := mapM_map_eq_some fun x hx => (h x hx).decoded
  form := by
    refine congrArg Json.array ?_
    rw [List.map_map]
    exact List.map_congr_left fun x hx => (h x hx).form

/-- A list of what is read as it was is read as it was. -/
theorem list_self (h : ∀ x : α, Rereads x x) (xs : List α) : Rereads xs xs := by
  have hid : Rereads xs (xs.map id) := list fun x _ => h x
  rwa [List.map_id] at hid

theorem nat (n : Nat) : Rereads n n where
  distinct := trivial
  decoded := if_pos (Int.natCast_nonneg n)
  form := rfl

theorem string (s : String) : Rereads s s := ⟨trivial, rfl, rfl⟩

theorem comparison (op : Comparison) : Rereads op op :=
  ⟨trivial, Comparison.ofSymbol?_symbol op, rfl⟩

theorem connective (op : Connective) : Rereads op op :=
  ⟨trivial, Connective.ofSymbol?_symbol op, rfl⟩

theorem quantifier (op : Quantifier) : Rereads op op :=
  ⟨trivial, Quantifier.ofSymbol?_symbol op, rfl⟩

end Rereads

theorem Operand.encode_reread (v : Operand) : encode v.reread = encode v := by
  show v.reread.encodePayload = v.encodePayload
  rw [encodePayload_eq_toJson, encodePayload_eq_toJson, toJson_reread]

/-- An operand that was made is reread, if no key is repeated in its value. -/
theorem Operand.Made.rereads {v : Operand} (h : Made v) (hdistinct : v.toJson.DistinctKeys) :
    Rereads v v.reread where
  distinct := by
    show v.encodePayload.DistinctKeys
    rw [encodePayload_eq_toJson]
    exact hdistinct
  decoded := by
    show decodeFirst? v.encodePayload = some v.reread
    rw [decodeFirst?_eq_ofJson, encodePayload_eq_toJson, h.ofJson_toJson]
  form := v.encode_reread

/-! ## Nodes -/

/-- A node of which the operand is reread. -/
def Node.reread {ι : Type} : Node ι → Node ι
  | condition id path op value => condition id path op value.reread
  | n => n

/-- A forest in which every operand is reread. -/
def Forest.reread {ι : Type} (ns : Forest ι) : Forest ι := Forest.rewrite Node.reread ns

/-- The operand of a condition was made from JSON or from a native value. In JSON that was read no
key is repeated. -/
def Content.IsMade : Content → Prop
  | condition _ _ value => value.Made ∧ value.toJson.DistinctKeys
  | _ => True

/-- Making something of every value keeps which keys are there once. -/
theorem Fields.only?_map {α β : Type} (f : α → β) (key : String) (fields : List (String × α)) :
    only? key (fields.map (Prod.map id f)) = (only? key fields).map f := by
  have hkey : ((·.1 == key) : String × β → Bool) ∘ Prod.map id f = (·.1 == key) := rfl
  rw [only?, only?, List.filter_map, hkey]
  cases fields.filter (·.1 == key) with
  | nil => rfl
  | cons g gs => cases gs <;> rfl

theorem Fields.decodeFields_eq_map (fields : Fields) :
    Forest.decodeFields fields = fields.map (Prod.map id Forest.decodeForm?) := by
  induction fields with
  | nil => rfl
  | cons f fields ih =>
    rw [Forest.decodeFields, ih]
    rfl

/-- The field of a container that is there once is read as its array is. -/
theorem Fields.join_decodeFields (key : String) {fields : Fields} {items : List Json} {ns : Tree}
    (hkey : only? key fields = some (.array items)) (hitems : Forest.decodeItems? items = some ns) :
    (only? key (Forest.decodeFields fields)).join = some ns := by
  rw [decodeFields_eq_map, only?_map, hkey, Option.map_some, Option.join_some, Forest.decodeForm?,
    hitems]

/-- A node tells its kind, inside another or not. -/
theorem NodeKind.bind_read? (inner : Bool) {fields : Fields} {kind : NodeKind}
    (h : Fields.only? "type" fields = some (encode kind)) :
    (Fields.only? "type" fields).bind (read? inner) = some kind := by
  rw [h]
  cases kind <;> cases inner <;> rfl

/-- A node is read back if the forest in it is. -/
theorem Node.decodeForm?_encodeForm (inner : Bool) {n : Node NodeId} {ms : Tree}
    (hn : n.content.IsMade)
    (hms : Forest.decodeItems? (Forest.encodeItems n.children) = some ms) :
    decodeForm? inner n.encodeForm = some (n.hold ms).reread := by
  cases n with
  | condition id path op value =>
    rw [encodeForm, decodeForm?, ofFields?, NodeKind.bind_read? inner rfl,
      (Rereads.nat id).read? "id" rfl,
      (Rereads.list_self .string path).read? "fieldPath" rfl,
      (Rereads.comparison op).read? "operator" rfl, (hn.1.rereads hn.2).read? "value" rfl]
    rfl
  | logical id op children =>
    rw [encodeForm, decodeForm?, ofFields?, NodeKind.bind_read? inner rfl,
      (Rereads.nat id).read? "id" rfl, (Rereads.connective op).read? "operator" rfl,
      Fields.join_decodeFields "children" rfl hms]
    rfl
  | embedded id path op subtree =>
    rw [encodeForm, decodeForm?, ofFields?, NodeKind.bind_read? inner rfl,
      (Rereads.nat id).read? "id" rfl,
      (Rereads.list_self .string path).read? "fieldPath" rfl,
      (Rereads.quantifier op).read? "operator" rfl,
      Fields.join_decodeFields "subtree" rfl hms]
    rfl

/-- Rereading does not show in the form. -/
theorem Node.encodeForm_reread (n : Node NodeId) {ms : Tree}
    (hms : Forest.encodeItems ms = Forest.encodeItems n.children) :
    (n.hold ms).reread.encodeForm = n.encodeForm := by
  cases n with
  | condition id path op value => rw [hold, reread, encodeForm, encodeForm, value.encode_reread]
  | logical id op children =>
    show encodeForm (.logical id op ms) = _
    rw [encodeForm, encodeForm, hms]
    rfl
  | embedded id path op subtree =>
    show encodeForm (.embedded id path op ms) = _
    rw [encodeForm, encodeForm, hms]
    rfl

namespace Forest

theorem reread_cons (n : Node NodeId) (ns : Tree) :
    reread (n :: ns) = (n.hold (reread n.children)).reread :: reread ns :=
  rewrite_cons Node.reread n ns

/-- The nodes of a forest are read back, whether they are inner to another or not. -/
theorem mapM_decodeForm?_encodeItems (ns : Tree) :
    (∀ n ∈ nodes ns, n.content.IsMade) →
      ∀ inner, (encodeItems ns).mapM (Node.decodeForm? inner) = some (reread ns) := by
  induction ns using Forest.induction with
  | nil => exact fun _ _ => rfl
  | cons n ns ihn ih =>
    intro hmade inner
    rw [nodes_cons, List.forall_mem_cons, List.forall_mem_append] at hmade
    obtain ⟨hn, hchildren, hns⟩ := hmade
    have hms : decodeItems? (encodeItems n.children) = some (reread n.children) := by
      rw [decodeItems?_eq_mapM]
      exact ihn hchildren true
    rw [encodeItems, List.mapM_cons, Node.decodeForm?_encodeForm inner hn hms, ih hns inner,
      reread_cons]
    rfl

/-- Rereading does not show in the form. -/
theorem encodeItems_reread (ns : Tree) : encodeItems (reread ns) = encodeItems ns := by
  induction ns using Forest.induction with
  | nil => rfl
  | cons n ns ihn ih =>
    rw [reread_cons, encodeItems, encodeItems, Node.encodeForm_reread n ihn, ih]

/-- The form of a forest of which the operands were made from JSON or from native values is read as
the same forest, with strings for no numbers, and that has the same form. -/
theorem decode_encode (ns : Tree) (hmade : ∀ n ∈ nodes ns, n.content.IsMade) :
    decode? (encode ns) = some (reread ns) ∧ encode (reread ns) = encode ns := by
  have hencode : ∀ ms : Tree, encode ms = .array (encodeItems ms) := fun ms =>
    congrArg Json.array (encodeItems_eq_map ms).symm
  constructor
  · rw [hencode]
    exact mapM_decodeForm?_encodeItems ns hmade false
  · rw [hencode, hencode, encodeItems_reread]

/-- Nodes with one identifier, a list without numbers, and operands that look like a node and like a
list. -/
def lookalikes : Tree :=
  [.logical 7 .and
    [.condition 7 [] .isIn (.ofInts []),
     .embedded 0 ["a"] .noElement
      [.condition 7 ["b", "c"] .eq (.ofJson (.object
        [("type", .string "logical"), ("id", .number (.int 7)), ("operator", .string "$and"),
         ("children", .array [])]))]],
   .condition 2 ["d"] .notIn (.ofJson (.array [.string "x", .number (.int 1)]))]

theorem decode_encode_lookalikes :
    (∀ n ∈ nodes lookalikes, n.content.IsMade) ∧
      decode? (encode lookalikes) = some (reread lookalikes) ∧
      encode (reread lookalikes) = encode lookalikes ∧ reread lookalikes ≠ lookalikes := by
  have hmade : ∀ n ∈ nodes lookalikes, n.content.IsMade := by
    simp only [lookalikes, nodes, Node.nodes, List.append_nil, List.cons_append, List.nil_append,
      List.forall_mem_cons]
    exact ⟨trivial, ⟨Operand.Made.ints [], by decide⟩, trivial, ⟨Operand.Made.json _, by decide⟩,
      ⟨Operand.Made.json _, by decide⟩, List.forall_mem_nil _⟩
  obtain ⟨hdecode, hencode⟩ := decode_encode lookalikes hmade
  exact ⟨hmade, hdecode, hencode, by decide⟩

end Forest

end FilterTree
