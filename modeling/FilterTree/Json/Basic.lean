import FilterTree.Numeric.Double

/-!
# JSON values

JSON as plain data. An object is the list of its fields in order, so the order of keys is part of
the value. The type admits a key that occurs twice, which texts can contain; `Json.DistinctKeys`
says that no object at any depth has one, and `Json.normalize` makes it so: a repeated key keeps its
first place and takes its last value.
-/

namespace FilterTree

/-- A number as it was written: a whole number of at most 64 bits, or a double. The number `1` is
not the number `1.0`. -/
inductive Number where
  | int (n : Int)
  | float (d : Double)
deriving DecidableEq, Repr

/-- The double nearest to a number. -/
def Number.toDouble? : Number → Option Double
  | .int n => Decimal.toDouble? (n < 0) ⟨n.natAbs, 0⟩
  | .float d => some d

inductive Json where
  | null
  | bool (b : Bool)
  | number (n : Number)
  | string (s : String)
  | array (items : List Json)
  | object (fields : List (String × Json))
deriving Repr, Inhabited

/-- The fields of an object, in order. -/
abbrev Fields := List (String × Json)

namespace Fields

/-- The value of a key, at its first place. -/
def get? : Fields → String → Option Json
  | [], _ => none
  | (k, v) :: fs, key => if k = key then some v else get? fs key

/-- Sets the value of a key: in place if the key is there, at the end if it is new. -/
def put (key : String) (value : Json) : Fields → Fields
  | [] => [(key, value)]
  | (k, v) :: fs => if k = key then (k, value) :: fs else (k, v) :: put key value fs

/-- The keys in order. -/
def keys (fs : Fields) : List String := fs.map Prod.fst

/-- Puts fields one after another into the empty object. -/
def ofList (entries : List (String × Json)) : Fields :=
  entries.foldl (fun fs (k, v) => put k v fs) []

theorem get?_put (fs : Fields) (key other : String) (value : Json) :
    (put key value fs).get? other = if key = other then some value else fs.get? other := by
  induction fs with
  | nil => simp [put, get?]
  | cons f fs ih =>
    obtain ⟨k, v⟩ := f
    by_cases hk : k = key
    · subst hk
      by_cases ho : k = other <;> simp [put, get?, ho]
    · by_cases ho : k = other
      · subst ho; simp [put, get?, hk, Ne.symm hk]
      · simpa [put, get?, hk, ho] using ih

theorem keys_put (fs : Fields) (key : String) (value : Json) :
    (put key value fs).keys = if key ∈ fs.keys then fs.keys else fs.keys ++ [key] := by
  induction fs with
  | nil => simp [put, keys]
  | cons f fs ih =>
    obtain ⟨k, v⟩ := f
    by_cases hk : k = key
    · simp [put, keys, hk]
    · have hk' : ¬key = k := fun h => hk h.symm
      simp only [keys] at ih
      simp only [put, keys, hk, if_false, List.map_cons, List.mem_cons, hk', false_or, ih]
      split <;> rename_i h <;> simp [h]

theorem mem_put {fs : Fields} {key : String} {value : Json} {f : String × Json}
    (h : f ∈ put key value fs) : f = (key, value) ∨ f ∈ fs := by
  induction fs with
  | nil => simpa [put] using h
  | cons g fs ih =>
    obtain ⟨k, v⟩ := g
    by_cases hk : k = key
    · subst hk
      simp only [put, if_true, List.mem_cons] at h ⊢
      exact h.imp id Or.inr
    · simp only [put, hk, if_false, List.mem_cons] at h ⊢
      rcases h with h | h
      · exact Or.inr (Or.inl h)
      · exact (ih h).imp id Or.inr

theorem keys_put_nodup {fs : Fields} (h : fs.keys.Nodup) (key : String) (value : Json) :
    (put key value fs).keys.Nodup := by
  rw [keys_put]
  split
  · exact h
  · rename_i hk
    exact List.nodup_append.2 ⟨h, by simp, fun a ha b hb => by
      rintro rfl; simp only [List.mem_singleton] at hb; exact hk (hb ▸ ha)⟩

/-- An object that is built by putting has each key once. -/
theorem keys_ofList_nodup (entries : List (String × Json)) : (ofList entries).keys.Nodup := by
  suffices h : ∀ fs : Fields, fs.keys.Nodup →
      (entries.foldl (fun fs (k, v) => put k v fs) fs).keys.Nodup from h [] (by simp [keys])
  induction entries with
  | nil => exact fun _ h => h
  | cons e es ih => exact fun fs h => ih _ (keys_put_nodup h e.1 e.2)

theorem mem_ofList {entries : List (String × Json)} {f : String × Json}
    (h : f ∈ ofList entries) : f ∈ entries := by
  suffices aux : ∀ (es : List (String × Json)) (fs : Fields),
      f ∈ es.foldl (fun fs (k, v) => put k v fs) fs → f ∈ fs ∨ f ∈ es from
    (aux entries [] h).resolve_left (by simp)
  intro es
  induction es with
  | nil => exact fun _ h => Or.inl h
  | cons e es ih =>
    intro fs h
    rcases ih _ h with h | h
    · rcases mem_put h with h | h
      · exact Or.inr (by simp [h])
      · exact Or.inl h
    · exact Or.inr (List.mem_cons_of_mem _ h)

end Fields

namespace Json

/-- The string that a value is, if it is one. -/
def string? : Json → Option String
  | .string s => some s
  | _ => none

/-- The number that a value is, if it is one. -/
def number? : Json → Option Number
  | .number n => some n
  | _ => none

/-! ## Equality -/

mutual

/-- Equality of JSON values as data: the same constructors, keys and order throughout. -/
def decEq : (a b : Json) → Decidable (a = b)
  | .null, b => match b with
    | .null => isTrue rfl
    | .bool _ | .number _ | .string _ | .array _ | .object _ => isFalse (by simp)
  | .bool x, b => match b with
    | .bool y => decidable_of_iff (x = y) (by simp)
    | .null | .number _ | .string _ | .array _ | .object _ => isFalse (by simp)
  | .number x, b => match b with
    | .number y => decidable_of_iff (x = y) (by simp)
    | .null | .bool _ | .string _ | .array _ | .object _ => isFalse (by simp)
  | .string x, b => match b with
    | .string y => decidable_of_iff (x = y) (by simp)
    | .null | .bool _ | .number _ | .array _ | .object _ => isFalse (by simp)
  | .array xs, b => match b with
    | .array ys => have := decEqList xs ys; decidable_of_iff (xs = ys) (by simp)
    | .null | .bool _ | .number _ | .string _ | .object _ => isFalse (by simp)
  | .object fs, b => match b with
    | .object gs => have := decEqFields fs gs; decidable_of_iff (fs = gs) (by simp)
    | .null | .bool _ | .number _ | .string _ | .array _ => isFalse (by simp)

def decEqList : (xs ys : List Json) → Decidable (xs = ys)
  | [], [] => isTrue rfl
  | [], _ :: _ | _ :: _, [] => isFalse (by simp)
  | x :: xs, y :: ys =>
    have := decEq x y
    have := decEqList xs ys
    decidable_of_iff (x = y ∧ xs = ys) (by simp)

def decEqFields : (fs gs : List (String × Json)) → Decidable (fs = gs)
  | [], [] => isTrue rfl
  | [], _ :: _ | _ :: _, [] => isFalse (by simp)
  | (k, v) :: fs, (l, w) :: gs =>
    have := decEq v w
    have := decEqFields fs gs
    decidable_of_iff (k = l ∧ v = w ∧ fs = gs) (by simp [and_assoc])

end

instance : DecidableEq Json := decEq

/-! ## Distinct keys -/

mutual

/-- No object at any depth has a key twice. -/
def DistinctKeys : Json → Prop
  | .array items => DistinctKeysList items
  | .object fields => (Fields.keys fields).Nodup ∧ DistinctKeysFields fields
  | _ => True

def DistinctKeysList : List Json → Prop
  | [] => True
  | v :: vs => DistinctKeys v ∧ DistinctKeysList vs

def DistinctKeysFields : List (String × Json) → Prop
  | [] => True
  | (_, v) :: fs => DistinctKeys v ∧ DistinctKeysFields fs

end

mutual

def decDistinctKeys : (v : Json) → Decidable v.DistinctKeys
  | .null | .bool _ | .number _ | .string _ => isTrue trivial
  | .array items => decDistinctKeysList items
  | .object fields =>
    have := decDistinctKeysFields fields
    inferInstanceAs (Decidable ((Fields.keys fields).Nodup ∧ DistinctKeysFields fields))

def decDistinctKeysList : (vs : List Json) → Decidable (DistinctKeysList vs)
  | [] => isTrue trivial
  | v :: vs =>
    have := decDistinctKeys v
    have := decDistinctKeysList vs
    inferInstanceAs (Decidable (DistinctKeys v ∧ DistinctKeysList vs))

def decDistinctKeysFields : (fs : List (String × Json)) → Decidable (DistinctKeysFields fs)
  | [] => isTrue trivial
  | (_, v) :: fs =>
    have := decDistinctKeys v
    have := decDistinctKeysFields fs
    inferInstanceAs (Decidable (DistinctKeys v ∧ DistinctKeysFields fs))

end

instance : DecidablePred DistinctKeys := decDistinctKeys

mutual

/-- Removes repeated keys at every depth: the first place and the last value stay. -/
def normalize : Json → Json
  | .array items => .array (normalizeList items)
  | .object fields => .object (Fields.ofList (normalizeFields fields))
  | v => v

def normalizeList : List Json → List Json
  | [] => []
  | v :: vs => normalize v :: normalizeList vs

def normalizeFields : List (String × Json) → List (String × Json)
  | [] => []
  | (k, v) :: fs => (k, normalize v) :: normalizeFields fs

end

theorem distinctKeysFields_iff (fs : Fields) :
    DistinctKeysFields fs ↔ ∀ f ∈ fs, f.2.DistinctKeys := by
  induction fs with
  | nil => simp [DistinctKeysFields]
  | cons f fs ih => simp [DistinctKeysFields, ih]

mutual

theorem distinctKeys_normalize : (v : Json) → v.normalize.DistinctKeys
  | .null | .bool _ | .number _ | .string _ => trivial
  | .array items => distinctKeys_normalizeList items
  | .object fields => ⟨Fields.keys_ofList_nodup _, (distinctKeysFields_iff _).2 fun _ h =>
      distinctKeys_normalizeFields fields _ (Fields.mem_ofList h)⟩

theorem distinctKeys_normalizeList : (vs : List Json) → DistinctKeysList (normalizeList vs)
  | [] => trivial
  | v :: vs => ⟨distinctKeys_normalize v, distinctKeys_normalizeList vs⟩

theorem distinctKeys_normalizeFields :
    (fs : List (String × Json)) → ∀ f ∈ normalizeFields fs, f.2.DistinctKeys
  | [], _, h => by simp [normalizeFields] at h
  | (k, v) :: fs, f, h => by
    rcases List.mem_cons.1 h with rfl | h
    · exact distinctKeys_normalize v
    · exact distinctKeys_normalizeFields fs f h

end

end Json

end FilterTree
