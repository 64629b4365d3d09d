import FilterTree.Operand.Form

/-!
# Operands and JSON

Tagging a value loses nothing (`Operand.toJson_ofJson`). An operand that was made by tagging keeps
its tag when its value is tagged again, except that an array without items counts as strings
(`Operand.Made.ofJson_toJson`).

The form of an operand is its value and says nothing of the tag, so a reader has to find one. Each
type of payload accepts the forms of its own values and nothing else (`JsonForm.IsExact`), but a
value can be the form of several operands. Readers that are tried in the order of the tags find the
tag that the value is given (`Operand.ReadTags.findSome?_eq`).
-/

namespace FilterTree

/-- A list is found again in what a reader takes from its items, if it takes something from each. -/
theorem map_filterMap_of_all {α : Type} {read? : Json → Option α} {write : α → Json}
    (h : ∀ v x, read? v = some x → write x = v) :
    ∀ {items : List Json}, items.all (read? · |>.isSome) = true →
      (items.filterMap read?).map write = items
  | [], _ => rfl
  | v :: vs, hall => by
    rw [List.all_cons, Bool.and_eq_true] at hall
    obtain ⟨x, hx⟩ := Option.isSome_iff_exists.mp hall.1
    rw [List.filterMap_cons_some hx, List.map_cons, h v x hx, map_filterMap_of_all h hall.2]

/-- A reader finds what was written in every item. -/
theorem filterMap_map_of_read {α : Type} {read? : Json → Option α} {write : α → Json}
    (h : ∀ x, read? (write x) = some x) (xs : List α) :
    (xs.map write).all (read? · |>.isSome) = true ∧ (xs.map write).filterMap read? = xs := by
  constructor
  · rw [List.all_map, List.all_eq_true]
    intro x _
    show (read? (write x)).isSome = true
    rw [h x, Option.isSome_some]
  · have hread : read? ∘ write = some := funext h
    rw [List.filterMap_map, hread, List.filterMap_some]

namespace Json

theorem eq_string {v : Json} {s : String} (h : v.string? = some s) : .string s = v := by
  cases v <;> simp_all [string?]

theorem eq_number {v : Json} {n : Number} (h : v.number? = some n) : .number n = v := by
  cases v <;> simp_all [number?]

end Json

namespace Operand

/-- Tagging a value and reading the tag off again gives the value. -/
theorem toJson_ofJson (v : Json) : (ofJson v).toJson = v := by
  cases v with
  | null | bool _ | number _ | string _ | object _ => rfl
  | array items =>
    rw [ofJson, ofItems]
    split
    · rename_i hall
      rw [toJson, map_filterMap_of_all (fun _ _ => Json.eq_string) hall]
    · split
      · rename_i hall
        rw [toJson, map_filterMap_of_all (fun _ _ => Json.eq_number) hall]
      · rfl

/-! ## Tagging again -/

/-- The operands that are made from JSON or from native values. -/
inductive Made : Operand → Prop where
  | json (v : Json) : Made (ofJson v)
  | bool (b : Bool) : Made (bool b)
  | int (n : Int) : Made (ofInt n)
  | double (d : Option Double) : Made (ofDouble d)
  | string (s : String) : Made (string s)
  | strings (items : List String) : Made (strings items)
  | ints (items : List Int) : Made (ofInts items)

/-- The operand with an array without items counted as strings. -/
def reread : Operand → Operand
  | numbers [] => strings []
  | v => v

theorem toJson_reread (v : Operand) : v.reread.toJson = v.toJson := by
  unfold reread
  split <;> rfl

theorem ofJson_strings (items : List String) : ofJson (strings items).toJson = strings items := by
  have hread : ∀ s, (Json.string s).string? = some s := fun _ => rfl
  obtain ⟨hall, hitems⟩ := filterMap_map_of_read hread items
  rw [toJson, ofJson, ofItems, if_pos hall, hitems]

theorem ofJson_numbers (items : List Number) :
    ofJson (numbers items).toJson = (numbers items).reread := by
  cases items with
  | nil => rfl
  | cons n ns =>
    have hfirst : ((n :: ns).map Json.number).all (·.string?.isSome) = false := rfl
    have hread : ∀ n, (Json.number n).number? = some n := fun _ => rfl
    obtain ⟨hall, hitems⟩ := filterMap_map_of_read hread (n :: ns)
    rw [toJson, ofJson, ofItems, if_neg (ne_true_of_eq_false hfirst), if_pos hall, hitems]
    rfl

theorem reread_ofJson (v : Json) : (ofJson v).reread = ofJson v := by
  cases hv : ofJson v with
  | numbers items =>
    have hagain := ofJson_numbers items
    rw [← hv, toJson_ofJson, hv] at hagain
    exact hagain.symm
  | null | bool _ | number _ | string _ | strings _ | other _ => rfl

/-- What was made by tagging has the tag of its value, or holds no numbers. -/
theorem Made.ofJson_toJson {v : Operand} (h : Made v) : ofJson v.toJson = v.reread := by
  cases h with
  | json v => rw [toJson_ofJson, reread_ofJson]
  | bool b | int n | string s => rfl
  | double d => cases d <;> rfl
  | strings items => exact ofJson_strings items
  | ints items => exact ofJson_numbers (items.map .int)

end Operand

/-! ## Exact types -/

/-- A type accepts the forms of its own values and nothing else. -/
def JsonForm.IsExact (α : Type) [JsonForm α] : Prop :=
  ∀ (v : Json) (x : α), decode? v = some x ↔ encode x = v

namespace JsonForm.IsExact

/-- The unit value accepts `null` alone. -/
theorem unit : IsExact Unit := by
  intro v x
  cases v <;> simp [encode, decode?]

theorem bool : IsExact Bool := by
  intro v x
  cases v <;> simp [encode, decode?, eq_comm]

theorem number : IsExact Number := by
  intro v x
  cases v <;> simp [encode, decode?, Json.number?, eq_comm]

theorem string : IsExact String := by
  intro v x
  cases v <;> simp [encode, decode?, Json.string?, eq_comm]

theorem json : IsExact Json := by
  intro v x
  simp [encode, decode?, eq_comm]

/-- A list accepts the arrays of which its type accepts every item. -/
theorem list {α : Type} [JsonForm α] (h : IsExact α) : IsExact (List α) := by
  intro v xs
  cases v with
  | array items =>
    show items.mapM decode? = some xs ↔ Json.array (xs.map encode) = .array items
    rw [Json.array.injEq]
    induction items generalizing xs with
    | nil => cases xs <;> simp
    | cons v vs ih =>
      rw [List.mapM_cons, List.map_eq_cons_iff]
      constructor
      · intro hread
        obtain ⟨x, hx, hrest⟩ := Option.bind_eq_some_iff.mp hread
        obtain ⟨xs, hxs, hcons⟩ := Option.bind_eq_some_iff.mp hrest
        obtain rfl := Option.some.inj hcons
        exact ⟨x, xs, rfl, (h v x).mp hx, (ih xs).mp hxs⟩
      · rintro ⟨x, xs, rfl, hx, hxs⟩
        rw [(h v x).mpr hx, (ih xs).mpr hxs]
        rfl
  | null | bool _ | number _ | string _ | object _ => simp [encode, decode?]

end JsonForm.IsExact

namespace Operand

/-! ## Tags in order -/

/-- The place of a tag in the order of declaration. -/
def place : Operand → Nat
  | null => 0
  | bool _ => 1
  | number _ => 2
  | string _ => 3
  | strings _ => 4
  | numbers _ => 5
  | other _ => 6

theorem place_lt (c : Operand) : c.place < 7 := by
  cases c <;> simp [place]

/-- No operand with a value has an earlier tag than the one that the value is given. -/
theorem place_ofJson_toJson_le (c : Operand) : (ofJson c.toJson).place ≤ c.place := by
  cases c with
  | null | bool _ | number _ | string _ => exact Nat.le_refl _
  | strings items => exact Nat.le_of_eq (congrArg place (ofJson_strings items))
  | numbers items =>
    rw [ofJson_numbers]
    cases items with
    | nil => exact Nat.le_succ 4
    | cons n ns => exact Nat.le_refl 5
  | other v => exact Nat.le_of_lt_succ (ofJson v).place_lt

/-- A reader for each tag, in order: it accepts the forms of the operands with that tag and nothing
else. -/
structure ReadTags (rs : List (Json → Option Operand)) : Prop where
  length : rs.length = 7
  eq_some_iff : ∀ {i : Nat} {read? : Json → Option Operand}, rs[i]? = some read? →
    ∀ (v : Json) (c : Operand), read? v = some c ↔ c.place = i ∧ c.toJson = v

namespace ReadTags

variable {rs : List (Json → Option Operand)} {i : Nat} {read? : Json → Option Operand} {v : Json}

/-- A tag before that of a value does not accept it. -/
theorem eq_none (h : ReadTags rs) (hread : rs[i]? = some read?) (hlt : i < (ofJson v).place) :
    read? v = none := by
  rw [Option.eq_none_iff_forall_ne_some]
  intro c hc
  obtain ⟨rfl, rfl⟩ := (h.eq_some_iff hread v c).mp hc
  exact Nat.not_le_of_lt hlt (place_ofJson_toJson_le c)

/-- The tag of a value accepts it. -/
theorem eq_some (h : ReadTags rs) (hread : rs[(ofJson v).place]? = some read?) :
    read? v = some (ofJson v) :=
  (h.eq_some_iff hread v _).mpr ⟨rfl, toJson_ofJson v⟩

/-- The first tag that accepts a value is the one that the value is given. -/
theorem findSome?_eq (h : ReadTags rs) (v : Json) : rs.findSome? (· v) = some (ofJson v) := by
  have hlt : (ofJson v).place < rs.length := h.length ▸ place_lt _
  rw [← List.take_append_drop (ofJson v).place rs, List.drop_eq_getElem_cons hlt,
    List.findSome?_append]
  have hbefore : (rs.take (ofJson v).place).findSome? (· v) = none := by
    rw [List.findSome?_eq_none_iff]
    intro read? hmem
    obtain ⟨j, hj, rfl⟩ := List.mem_take_iff_getElem.mp hmem
    exact h.eq_none (List.getElem?_eq_getElem _) (Nat.lt_of_lt_of_le hj (Nat.min_le_left _ _))
  rw [hbefore, Option.none_or, List.findSome?_cons, h.eq_some (List.getElem?_eq_getElem hlt)]

end ReadTags

/-! ## Forms -/

/-- The form of an operand is its value. -/
theorem encodePayload_eq_toJson (v : Operand) : encodePayload v = v.toJson := by
  cases v <;> rfl

/-- A tag on an exact type accepts the forms of the operands with that tag. -/
theorem map_decode?_eq_some_iff {α : Type} [JsonForm α] (hα : JsonForm.IsExact α) {tag : α → Operand}
    {i : Nat} (htag : ∀ c, c.place = i ↔ ∃ x, tag x = c) (hform : ∀ x, (tag x).toJson = encode x)
    (v : Json) (c : Operand) : (decode? v).map tag = some c ↔ c.place = i ∧ c.toJson = v := by
  rw [Option.map_eq_some_iff, htag]
  constructor
  · rintro ⟨x, hx, rfl⟩
    exact ⟨⟨x, rfl⟩, (hform x).trans ((hα v x).mp hx)⟩
  · rintro ⟨⟨x, rfl⟩, hv⟩
    exact ⟨x, (hα v x).mpr ((hform x).symm.trans hv), rfl⟩

theorem readTags_readers : ReadTags readers where
  length := rfl
  eq_some_iff {i read?} hread v c := by
    have hnull (c : Operand) : c.place = 0 ↔ ∃ x : Unit, null = c := by cases c <;> simp [place]
    have hbool (c : Operand) : c.place = 1 ↔ ∃ x, bool x = c := by cases c <;> simp [place]
    have hnumber (c : Operand) : c.place = 2 ↔ ∃ x, number x = c := by cases c <;> simp [place]
    have hstring (c : Operand) : c.place = 3 ↔ ∃ x, string x = c := by cases c <;> simp [place]
    have hstrings (c : Operand) : c.place = 4 ↔ ∃ x, strings x = c := by cases c <;> simp [place]
    have hnumbers (c : Operand) : c.place = 5 ↔ ∃ x, numbers x = c := by cases c <;> simp [place]
    have hother (c : Operand) : c.place = 6 ↔ ∃ x, other x = c := by cases c <;> simp [place]
    match i, hread with
    | 0, rfl => exact map_decode?_eq_some_iff .unit hnull (fun _ => rfl) v c
    | 1, rfl => exact map_decode?_eq_some_iff .bool hbool (fun _ => rfl) v c
    | 2, rfl => exact map_decode?_eq_some_iff .number hnumber (fun _ => rfl) v c
    | 3, rfl => exact map_decode?_eq_some_iff .string hstring (fun _ => rfl) v c
    | 4, rfl => exact map_decode?_eq_some_iff (.list .string) hstrings (fun _ => rfl) v c
    | 5, rfl => exact map_decode?_eq_some_iff (.list .number) hnumbers (fun _ => rfl) v c
    | 6, rfl => exact map_decode?_eq_some_iff .json hother (fun _ => rfl) v c

/-- A form is read as the value that it is. -/
theorem decodeFirst?_eq_ofJson (v : Json) : decodeFirst? v = some (ofJson v) :=
  readTags_readers.findSome?_eq v

end Operand

end FilterTree
