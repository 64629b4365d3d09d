import FilterTree.Proofs.Alteration
import FilterTree.Proofs.Canonical
import FilterTree.Proofs.Located
import FilterTree.Proofs.Splice

/-!
# Altered nodes and edited entries

A canonical filter is read, a node is altered, and the forest is written. What comes out is the
filter with the entry of that node edited in place (`Query.toQuery?_alter_located`), if the node is
made into what the entry is made into (`Query.Suits`). Going in along the position, all that is
beside the way is written as it was (`Query.written_locatedFields`), and what is on the way is put
together again from the branches that are left and the new one.
-/

namespace FilterTree

variable {ι : Type}

namespace Forest

variable {ms ns : Forest ι}

theorem written_append (ms ns : Forest ι) : written (ms ++ ns) = written ms ++ written ns := by
  rw [written, toFieldsList_append, List.filter_append, written, written]

/-- If each node writes something all of it counts. -/
theorem written_of_ne_nil {objects : List Fields} (h : toFieldsList ns = objects)
    (hne : ∀ o ∈ objects, o ≠ []) : written ns = objects := by
  rw [written, h]
  refine List.filter_eq_self.mpr fun o ho => ?_
  rw [Bool.not_eq_true', List.isEmpty_eq_false_iff]
  exact hne o ho

theorem written_singleton (n : Node ι) :
    written [n] =
      (n.value?.map fun v => Fields.nest n.path [(n.key.text, v)]).toList := by
  have hn := n.toFields_eq
  cases hv : n.value? with
  | none =>
    rw [hv] at hn
    rw [written, toFieldsList_singleton, hn]
    rfl
  | some v =>
    rw [hv] at hn
    refine written_of_ne_nil (congrArg (fun o => [o]) hn) fun o ho => ?_
    rw [List.mem_singleton.mp ho]
    exact Node.nest_ne_nil _ _

/-- What is written as the branches of a proper object is written as that object. -/
theorem toQuery?_of_written {v : Option Json} (h : written ns = v.elim [] Query.branches)
    (hproper : ∀ w, v = some w → Query.IsProper w) : toQuery? ns = v := by
  cases v with
  | none =>
    rw [toQuery?_eq_none, toFields_eq_mergeAll_written, h]
    rfl
  | some w =>
    have hw := hproper w rfl
    have hfields : toFields ns = Fields.mergeAll (Query.branches w) := by
      rw [toFields_eq_mergeAll_written, h]
      rfl
    rw [toQuery?_of_ne_nil (by rw [hfields]; exact hw.mergeAll_ne_nil), hfields,
      ← Query.mergeAll_branches w hw]

theorem toArray?_of_written {items : List Json} (h : (written ns).map .object = items) :
    toArray? ns = Json.unlessEmpty .array items := by
  rw [toArray?, Json.unlessEmpty, ← h, List.isEmpty_map]

end Forest

namespace Query

/-! ## What is written of a canonical filter -/

section

variable {inner shadowed : Bool}

theorem nest_branchesOf_ne_nil {path : Path} {fields o : Fields}
    (h : o ∈ (branchesOf fields).map (Fields.nest path)) : o ≠ [] := by
  obtain ⟨b, hb, rfl⟩ := List.mem_map.mp h
  have hne := ne_nil_of_mem_branchesOf hb
  cases path with
  | nil => exact hne
  | cons name path => exact List.cons_ne_nil _ _

/-- Keys of a canonical filter, or of a body in it (`inner`), that are all read, under the path of
names so far. -/
structure AreRead (inner shadowed : Bool) (path : Path) (fields : Fields) : Prop where
  entries : areEntries .canonical inner fields = true
  unshadowed : Unshadowed shadowed fields
  path : inner = false → path = []
  distinct : Json.DistinctKeysFields fields

theorem AreRead.of_subset {path : Path} {fs fields : Fields}
    (h : AreRead inner shadowed path fields) (hsub : fs ⊆ fields) :
    AreRead inner shadowed path fs where
  entries := by
    rw [areEntries_iff_forall]
    exact fun f hf => areEntries_iff_forall.mp h.entries f (hsub hf)
  unshadowed := h.unshadowed.of_subset hsub
  path := h.path
  distinct := by
    rw [Json.distinctKeysFields_iff]
    exact fun f hf => (Json.distinctKeysFields_iff fields).mp h.distinct f (hsub hf)

/-- All keys of a canonical filter are read. -/
theorem areRead_of_isFilter {fields : Fields}
    (h : isFilter .canonical (.object fields) = true) (hd : Json.DistinctKeysFields fields) :
    AreRead false false [] fields :=
  ⟨(isFilter_object h).2, Or.inl rfl, fun _ => rfl, hd⟩

/-- All keys of a body in a canonical filter are read. -/
theorem areRead_of_isBody (path : Path) {fields : Fields}
    (h : isBody .canonical (.object fields) = true) (hd : Json.DistinctKeysFields fields) :
    AreRead true (hasOperator fields) path fields := by
  obtain ⟨-, hentries, hunshadowed⟩ := isBody_unmixed rfl h
  exact ⟨hentries, hunshadowed, fun hinner => Bool.noConfusion hinner, hd⟩

/-- They are written as their branches under the path. -/
theorem written_locatedFields {path : Path} (b : Position) (i : Nat) {fields : Fields}
    (h : AreRead inner shadowed path fields) :
    Forest.written (locatedFields path b shadowed i fields) =
      (branchesOf fields).map (Fields.nest path) := by
  refine Forest.written_of_ne_nil ?_ fun o ho => nest_branchesOf_ne_nil ho
  have hread := toFieldsList_outlineFields inner shadowed fields h.entries h.distinct
  rw [flattenEntries_canonical inner shadowed fields h.entries h.unshadowed] at hread
  rw [← Forest.toFieldsList_relabel fun _ => (), relabel_locatedFields]
  cases inner with
  | false =>
    rw [h.path rfl, hread]
    exact (List.map_id _).symm
  | true =>
    have hunder := outlineFields_append path [] shadowed fields
    rw [List.append_nil] at hunder
    rw [hunder, ← hread]
    refine Forest.toFieldsList_under path (kind_outlineFields [] shadowed fields h.entries) ?_
    intro o ho
    rw [hread] at ho
    exact ne_nil_of_mem_branchesOf ho

theorem isProper_canonical {v : Json} (h : isFilter .canonical v = true) (hd : v.DistinctKeys) :
    IsProper v := by
  have hproper := isProper_flatten h hd
  rwa [flatten_canonical v h] at hproper

theorem written_located (b : Position) {v : Json} (h : isFilter .canonical v = true)
    (hd : v.DistinctKeys) : Forest.written (located [] b v) = branches v := by
  cases v with
  | object fields =>
    rw [located, written_locatedFields b 0 (areRead_of_isFilter h hd.2)]
    exact List.map_id _
  | null | bool _ | number _ | string _ | array _ => simp [isFilter] at h

/-- A canonical filter is written as it is. -/
theorem toQuery?_located (b : Position) {v : Json} (h : isFilter .canonical v = true)
    (hd : v.DistinctKeys) : Forest.toQuery? (located [] b v) = some v := by
  refine Forest.toQuery?_of_written (written_located b h hd) fun w hw => ?_
  rw [← Option.some.inj hw]
  exact isProper_canonical h hd

/-- An item of a canonical array. -/
structure IsItem (v : Json) : Prop where
  filter : isFilter .canonical v = true
  single : isSingle v = true
  distinct : v.DistinctKeys

theorem isItem_of_areItems {op : Connective} :
    ∀ {items : List Json}, areItems .canonical op items = true → Json.DistinctKeysList items →
      ∀ v ∈ items, IsItem v
  | [], _, _, v, hv => absurd hv List.not_mem_nil
  | w :: ws, h, hd, v, hv => by
    obtain ⟨hfilter, hwide | hsingle, hws⟩ := areItems_cons h
    · exact absurd hwide Bool.false_ne_true
    · rcases List.mem_cons.mp hv with rfl | hv
      · exact ⟨hfilter, hsingle, hd.1⟩
      · exact isItem_of_areItems hws hd.2 v hv

/-- Items are written as they are. -/
theorem written_locatedItems (b : Position) :
    ∀ (i : Nat) (items : List Json), (∀ v ∈ items, IsItem v) →
      (Forest.written (locatedItems [] b i items)).map .object = items
  | _, [], _ => by
    rw [locatedItems]
    rfl
  | i, v :: items, h => by
    have hv := h v List.mem_cons_self
    obtain ⟨fields, hobject, hbranches⟩ := branches_of_isSingle v hv.single
    rw [locatedItems, Forest.written_append, List.map_append,
      written_locatedItems b (i + 1) items fun w hw => h w (List.mem_cons_of_mem _ hw),
      written_located _ hv.filter hv.distinct, hbranches, hobject]
    rfl

theorem toArray?_located (b : Position) {op : Connective} {v : Json}
    (h : isItemList .canonical op v = true) (hd : v.DistinctKeys) :
    Forest.toArray? (located [] b v) = some v := by
  cases v with
  | array items =>
    obtain ⟨hne, hitems⟩ := isItemList_array h
    have hwritten := written_locatedItems b 0 items (isItem_of_areItems hitems hd)
    rw [located, Forest.toArray?_of_written hwritten]
    exact if_neg fun hempty => hne (List.isEmpty_iff.mp hempty)
  | null | bool _ | number _ | string _ | object _ => simp [isItemList] at h

end

/-! ## Beside the way -/

section

variable {f : Node Position → Option (Node Position)} {inner shadowed : Bool} {path : Path}

/-- Altering a node at a key, or inside of it, leaves the other keys as they are. -/
theorem written_alter_locatedFields (b s : Position) {before after : Fields} {e : String × Json}
    (h : AreRead inner shadowed path (before ++ e :: after)) {new : Fields}
    (hnew : Forest.written (Forest.alter (b ++ before.length :: s) f
        (locatedFields path b shadowed before.length [e])) =
      (branchesOf new).map (Fields.nest path)) :
    Forest.written (Forest.alter (b ++ before.length :: s) f
        (locatedFields path b shadowed 0 (before ++ e :: after))) =
      (branchesOf (before ++ new ++ after)).map (Fields.nest path) := by
  -- the position leads to the key that is split off, not to one before or after it
  have hbefore : b ++ before.length :: s ∉
      Forest.ids (locatedFields path b shadowed 0 before) := by
    intro hmem
    obtain ⟨j, t, hj, heq⟩ := ids_locatedFields path b shadowed 0 before hmem
    exact Position.append_cons_ne (by omega) b s t heq
  have hafter : b ++ before.length :: s ∉
      Forest.ids (locatedFields path b shadowed (before.length + 1) after) := by
    intro hmem
    obtain ⟨j, t, -, heq⟩ := ids_locatedFields path b shadowed _ after hmem
    exact Position.append_cons_ne (by omega) b s t heq
  have hreadBefore : AreRead inner shadowed path before :=
    h.of_subset (List.subset_append_left _ _)
  have hreadAfter : AreRead inner shadowed path after :=
    h.of_subset fun x hx => List.mem_append_right _ (List.mem_cons_of_mem _ hx)
  rw [locatedFields_append, locatedFields_cons path b shadowed _ e after, Nat.zero_add,
    Forest.alter_append, Forest.alter_append, Forest.alter_of_notMem hbefore,
    Forest.alter_of_notMem hafter, Forest.written_append, Forest.written_append, hnew,
    written_locatedFields b 0 hreadBefore, written_locatedFields b _ hreadAfter,
    branchesOf_append, branchesOf_append, List.map_append, List.map_append, List.append_assoc]

/-- Altering a node inside an item leaves the other items as they are. -/
theorem written_alter_locatedItems (b s : Position) {before after : List Json} {v : Json}
    (h : ∀ w ∈ before ++ v :: after, IsItem w) {new : List Json}
    (hnew : (Forest.written (Forest.alter (b ++ before.length :: s) f
        (located [] (b ++ [before.length]) v))).map .object = new) :
    (Forest.written (Forest.alter (b ++ before.length :: s) f
        (locatedItems [] b 0 (before ++ v :: after)))).map .object =
      before ++ new ++ after := by
  have hbefore : b ++ before.length :: s ∉ Forest.ids (locatedItems [] b 0 before) := by
    intro hmem
    obtain ⟨j, t, hj, heq⟩ := ids_locatedItems [] b 0 before hmem
    exact Position.append_cons_ne (by omega) b s t heq
  have hafter : b ++ before.length :: s ∉
      Forest.ids (locatedItems [] b (before.length + 1) after) := by
    intro hmem
    obtain ⟨j, t, -, heq⟩ := ids_locatedItems [] b _ after hmem
    exact Position.append_cons_ne (by omega) b s t heq
  have hitemsBefore := written_locatedItems b 0 before fun w hw => h w (List.mem_append_left _ hw)
  have hitemsAfter := written_locatedItems b (before.length + 1) after fun w hw =>
    h w (List.mem_append_right _ (List.mem_cons_of_mem _ hw))
  rw [locatedItems_append, locatedItems, Nat.zero_add, Forest.alter_append, Forest.alter_append,
    Forest.alter_of_notMem hbefore, Forest.alter_of_notMem hafter, Forest.written_append,
    Forest.written_append, List.map_append, List.map_append, hnew, hitemsBefore, hitemsAfter,
    List.append_assoc]

end

/-! ## At the entry -/

/-- Whether a node of an entry is made into what the entry is made into. -/
structure Suits (f : Node Position → Option (Node Position))
    (g : String × Json → Option (String × Json)) (fields : Fields) (e : String × Json) :
    Prop where
  operator : (Key.ofString e.1).isOperator = true
  fits : Fits g fields e
  written : ∀ n : Node Position, n.key.text = e.1 → n.value? = some e.2 →
    Forest.written (f n).toList = ((g e).map fun e' => Fields.nest n.path [e']).toList

section

variable {f : Node Position → Option (Node Position)}
  {g : String × Json → Option (String × Json)} {inner shadowed : Bool} {path : Path}

theorem AreRead.path_eq_nil {k : String} {v : Json} {op : Connective}
    (h : AreRead inner shadowed path [(k, v)]) (hk : Key.ofString k = .connective op) :
    path = [] := by
  have hentries := h.entries
  rw [areEntries, areEntries, Bool.and_true, hk] at hentries
  have hinner := (Bool.and_eq_true_iff.mp hentries).1
  rw [Bool.not_eq_true'] at hinner
  exact h.path hinner

/-- A canonical operator is read as one node that is where the operator is and has its value. -/
theorem exists_node {k : String} {v : Json} (b : Position) (i : Nat)
    (hk : (Key.ofString k).isOperator = true) (h : AreRead inner shadowed path [(k, v)]) :
    ∃ n : Node Position, locatedFields path b shadowed i [(k, v)] = [n] ∧ n.id = b ++ [i] ∧
      n.key.text = k ∧ n.path = path ∧ n.value? = some v := by
  have htext := Key.text_ofString k
  have hv := h.distinct.1
  rw [locatedFields, locatedFields, List.append_nil]
  cases hkey : Key.ofString k with
  | field name =>
    rw [hkey] at hk
    exact Bool.noConfusion hk
  | comparison op =>
    rw [hkey] at htext
    exact ⟨_, rfl, rfl, htext, rfl, congrArg some (Operand.toJson_ofJson v)⟩
  | quantifier op =>
    rw [hkey] at htext
    have hfilter := isFilter_of_areEntries_quantifier hkey h.entries
    exact ⟨_, rfl, rfl, htext, rfl, toQuery?_located _ hfilter hv⟩
  | connective op =>
    rw [hkey] at htext
    rw [h.path_eq_nil hkey]
    refine ⟨_, rfl, rfl, htext, rfl, ?_⟩
    cases op with
    | not => exact toQuery?_located _ (isFilter_of_areEntries_not hkey h.entries) hv
    | and | or => exact toArray?_located _ (isItemList_of_areEntries hkey (by simp) h.entries) hv

/-- An operator is its own branch. -/
theorem branchesOf_toList {new : Option (String × Json)}
    (h : ∀ e, new = some e → (Key.ofString e.1).isOperator = true) :
    (branchesOf new.toList).map (Fields.nest path) =
      (new.map fun e => Fields.nest path [e]).toList := by
  cases new with
  | none =>
    rw [Option.toList_none, branchesOf]
    rfl
  | some e =>
    rw [Option.toList_some, branchesOf_operator (h e rfl)]
    rfl

/-- The node of the entry is made into what the entry is made into. -/
theorem written_alter_here (b : Position) (i : Nat) {fields : Fields} {e : String × Json}
    (h : AreRead inner shadowed path [e]) (hsuits : Suits f g fields e) :
    Forest.written (Forest.alter (b ++ [i]) f (locatedFields path b shadowed i [e])) =
      (branchesOf (g e).toList).map (Fields.nest path) := by
  obtain ⟨n, hnode, hid, hkey, hpath, hvalue⟩ := exists_node b i hsuits.operator h
  have hwritten := hsuits.written n hkey hvalue
  rw [hpath] at hwritten
  rw [hnode, Forest.alter_self hid, hwritten, branchesOf_toList fun e' he' => (hsuits.fits e' he').1]

/-! ## Inside of an entry -/

/-- What the main induction says of a value: its nodes with one of them altered are written as the
value with one entry edited. -/
def Mirrors (f : Node Position → Option (Node Position))
    (g : String × Json → Option (String × Json)) (s : Position) : Json → Prop
  | .object fields => ∀ (inner shadowed : Bool) (path : Path) (b : Position),
    AreRead inner shadowed path fields →
      Forest.written (Forest.alter (b ++ s) f (locatedFields path b shadowed 0 fields)) =
        ((Json.splice g s (.object fields)).elim [] branches).map (Fields.nest path)
  | .array items => ∀ b : Position, (∀ v ∈ items, IsItem v) →
    Forest.toArray? (Forest.alter (b ++ s) f (locatedItems [] b 0 items)) =
      Json.splice g s (.array items)
  | _ => True

variable {s : Position} {v : Json}

theorem written_alter_located (hmirrors : Mirrors f g s v) (b : Position)
    (h : isFilter .canonical v = true) (hd : v.DistinctKeys) :
    Forest.written (Forest.alter (b ++ s) f (located [] b v)) =
      (Json.splice g s v).elim [] branches := by
  cases v with
  | object fields =>
    rw [located, hmirrors false false [] b (areRead_of_isFilter h hd.2)]
    exact List.map_id _
  | null | bool _ | number _ | string _ | array _ => simp [isFilter] at h

theorem toQuery?_alter (hentry : EntryAt (Suits f g) s v) (hmirrors : Mirrors f g s v)
    (b : Position) (h : isFilter .canonical v = true) (hd : v.DistinctKeys) :
    Forest.toQuery? (Forest.alter (b ++ s) f (located [] b v)) = Json.splice g s v := by
  have hfits : EntryAt (Fits g) s v := hentry.imp fun _ _ hsuits => hsuits.fits
  exact Forest.toQuery?_of_written (written_alter_located hmirrors b h hd)
    (isProper_splice hfits (isProper_canonical h hd))

theorem toArray?_alter (hmirrors : Mirrors f g s v) (b : Position) {op : Connective}
    (h : isItemList .canonical op v = true) (hd : v.DistinctKeys) :
    Forest.toArray? (Forest.alter (b ++ s) f (located [] b v)) = Json.splice g s v := by
  cases v with
  | array items =>
    rw [located]
    exact hmirrors b (isItem_of_areItems (isItemList_array h).2 hd)
  | null | bool _ | number _ | string _ | object _ => simp [isItemList] at h

/-- A container with other children has the same key and path. -/
theorem written_alter_container (n : Node Position) {p : Position} {k : String} (hid : n.id ≠ p)
    (hkey : n.key.text = k) {new : Option Json}
    (hvalue : (n.hold (Forest.alter p f n.children)).value? = new) :
    Forest.written (Forest.alter p f [n]) =
      ((new.map fun w => (k, w)).map fun e => Fields.nest n.path [e]).toList := by
  rw [Forest.alter_inside hid, Forest.written_singleton, hvalue, Node.key_hold, Node.path_hold,
    hkey, Option.map_map]
  rfl

/-- A name is one more object around what is written of the edited body. -/
theorem written_alter_field (b : Position) (i : Nat) {k name : String}
    (hk : Key.ofString k = .field name) (hmirrors : Mirrors f g s v)
    (h : AreRead inner shadowed path [(k, v)]) :
    Forest.written (Forest.alter (b ++ [i] ++ s) f (locatedFields path b shadowed i [(k, v)])) =
      (branchesOf ((Json.splice g s v).map (k, ·)).toList).map (Fields.nest path) := by
  have hbody := isBody_of_areEntries hk h.entries
  obtain ⟨fields, rfl⟩ := exists_object_of_isBody hbody
  have hshadowed : shadowed = false := h.unshadowed.field hk
  have hname := Key.name_of_ofString hk
  have hinside := hmirrors true _ (path ++ [name]) (b ++ [i])
    (areRead_of_isBody _ hbody h.distinct.1.2)
  rw [locatedFields, locatedFields, List.append_nil, hk, hshadowed]
  simp only [Bool.false_eq_true, if_false]
  rw [locatedBody, hinside]
  cases Json.splice g s (.object fields) with
  | none =>
    -- the body is gone, and the name with it
    rw [Option.map_none, Option.toList_none, branchesOf]
    rfl
  | some w =>
    rw [Option.map_some, Option.toList_some, branchesOf_field hk, Option.elim_some, List.map_map]
    refine List.map_congr_left fun o ho => ?_
    rw [Function.comp_apply, Fields.nest_append, hname]
    rfl

/-- An edit in the value of a key is one in the node of the key, or in the nodes of the body. -/
theorem written_alter_inside (b : Position) (i j : Nat) {k : String}
    (hk : ∀ op, Key.ofString k ≠ .comparison op) (hentry : EntryAt (Suits f g) (j :: s) v)
    (hmirrors : Mirrors f g (j :: s) v) (h : AreRead inner shadowed path [(k, v)]) :
    Forest.written (Forest.alter (b ++ i :: j :: s) f (locatedFields path b shadowed i [(k, v)])) =
      (branchesOf ((Json.splice g (j :: s) v).map (k, ·)).toList).map (Fields.nest path) := by
  have hd := h.distinct.1
  have htext := Key.text_ofString k
  have hposition : b ++ i :: j :: s = b ++ [i] ++ j :: s := by
    rw [List.append_assoc, List.singleton_append]
  -- the node of the key is not the one that is altered
  have hid : b ++ [i] ≠ b ++ [i] ++ j :: s := fun heq =>
    List.cons_ne_nil _ _ (List.self_eq_append_right.mp heq)
  have hoperator : (Key.ofString k).isOperator = true →
      (branchesOf ((Json.splice g (j :: s) v).map (k, ·)).toList).map (Fields.nest path) =
        (((Json.splice g (j :: s) v).map (k, ·)).map fun e => Fields.nest path [e]).toList := by
    intro hop
    refine branchesOf_toList fun e he => ?_
    obtain ⟨w, -, rfl⟩ := Option.map_eq_some_iff.mp he
    exact hop
  rw [hposition]
  cases hkey : Key.ofString k with
  | field name => exact written_alter_field b i hkey hmirrors h
  | comparison op => exact absurd hkey (hk op)
  | quantifier op =>
    have hfilter := isFilter_of_areEntries_quantifier hkey h.entries
    rw [hkey] at htext
    rw [hoperator (by rw [hkey]; rfl), locatedFields, locatedFields, List.append_nil, hkey]
    exact written_alter_container (.embedded (b ++ [i]) path op (located [] (b ++ [i]) v)) hid htext
      (toQuery?_alter hentry hmirrors _ hfilter hd)
  | connective op =>
    rw [hkey] at htext
    rw [hoperator (by rw [hkey]; rfl), locatedFields, locatedFields, List.append_nil, hkey,
      h.path_eq_nil hkey]
    refine written_alter_container (.logical (b ++ [i]) op (located [] (b ++ [i]) v)) hid htext ?_
    cases op with
    | not =>
      exact toQuery?_alter hentry hmirrors _ (isFilter_of_areEntries_not hkey h.entries) hd
    | and | or =>
      exact toArray?_alter hmirrors _ (isItemList_of_areEntries hkey (by simp) h.entries) hd

/-! ## The main induction -/

/-- An object is written as the branches of its keys, also if it is empty and left out. -/
theorem elim_unlessEmpty_branches (fields : Fields) :
    (Json.unlessEmpty .object fields).elim [] branches = branchesOf fields := by
  rw [Json.unlessEmpty]
  split
  · rename_i hempty
    rw [List.isEmpty_iff.mp hempty, branchesOf]
    rfl
  · rfl

/-- The induction is on the way to the entry, from the entry outwards. -/
theorem mirrors_of_entryAt (h : EntryAt (Suits f g) s v) : Mirrors f g s v := by
  induction h with
  | @here before after e hsuits =>
    intro inner shadowed path b hread
    have hone : AreRead inner shadowed path [e] := hread.of_subset (by simp)
    rw [splice_here, elim_unlessEmpty_branches]
    exact written_alter_locatedFields b [] hread (written_alter_here b _ hone hsuits)
  | @inside before after k v i p hk hentry ih =>
    intro inner shadowed path b hread
    have hone : AreRead inner shadowed path [(k, v)] := hread.of_subset (by simp)
    rw [splice_inside, elim_unlessEmpty_branches]
    exact written_alter_locatedFields b _ hread (written_alter_inside b _ i hk hentry ih hone)
  | @item before after v i p hentry ih =>
    intro b hitems
    have hitem := hitems v (by simp)
    have hfits : EntryAt (Fits g) (i :: p) v := hentry.imp fun _ _ hsuits => hsuits.fits
    rw [splice_item]
    refine Forest.toArray?_of_written (written_alter_locatedItems b _ hitems ?_)
    have hwritten := written_alter_located ih (b ++ [before.length]) hitem.filter hitem.distinct
    rw [List.append_assoc, List.singleton_append] at hwritten
    rw [hwritten]
    cases hnew : Json.splice g (i :: p) v with
    | none => rfl
    | some w =>
      -- one branch is one item, so nothing is cut apart
      obtain ⟨fields, hobject, hbranches⟩ :=
        branches_of_isSingle w (isSingle_splice hfits hitem.single w hnew)
      rw [Option.elim_some, hbranches, hobject]
      rfl

/-- Reading a canonical filter, altering a node and writing the forest is editing the entry of the
node in place. -/
theorem toQuery?_alter_located (hentry : EntryAt (Suits f g) s v)
    (h : isFilter .canonical v = true) (hd : v.DistinctKeys) :
    Forest.toQuery? (Forest.alter s f (located [] [] v)) = Json.splice g s v :=
  toQuery?_alter hentry (mirrors_of_entryAt hentry) [] h hd

end

end Query

end FilterTree
