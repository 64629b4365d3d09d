import FilterTree.Proofs.Overlay

/-!
# When merging is associative

Merging is not associative in general. A value that is no object may stand between two objects at
one path: merged from the left, it takes the lower object away before the upper one comes; merged
from the right, the two objects meet. Merging is associative exactly if every object that is hidden
like this would add nothing to the one it is hidden from (`Fields.merge_assoc_iff`), and so wherever
nothing is hidden (`Fields.merge_assoc`), which can be computed (`Fields.hasHidden_iff`).
-/

namespace FilterTree

/-! ## Three values over each other -/

namespace Json

/-- Without an object at the bottom it does not matter where to begin. -/
theorem overlay_assoc_of_bottom {x : Option Json} (h : ∀ a, x ≠ some (.object a))
    (y z : Option Json) : overlay (overlay x y) z = overlay x (overlay y z) := by
  rcases y with _ | v
  · rw [overlay_none_right, overlay_none_left]
  · rw [overlay_of_ne_object h]
    rcases z with _ | w
    · rw [overlay_none_right, overlay_of_ne_object h]
    · exact (overlay_of_ne_object h _).symm

/-- Nor does it without an object on top. -/
theorem overlay_assoc_of_top {z : Option Json} (h : ∀ c, z ≠ some (.object c))
    (x y : Option Json) : overlay (overlay x y) z = overlay x (overlay y z) := by
  rcases z with _ | w
  · rfl
  · rcases object_or_not w with ⟨c, rfl⟩ | hw
    · exact absurd rfl (h c)
    · rw [overlay_of_not_isObject hw, overlay_of_not_isObject hw, overlay_of_not_isObject hw]

/-- With objects at both ends it depends on the value between them. -/
theorem overlay_assoc_objects {a c : Fields} {v : Json} :
    overlay (overlay (some (.object a)) (some v)) (some (.object c)) =
        overlay (some (.object a)) (overlay (some v) (some (.object c))) ↔
      (v.isObject = false → Fields.merge a c = c) ∧
        ∀ b, v = .object b →
          Fields.merge (Fields.merge a b) c = Fields.merge a (Fields.merge b c) := by
  rcases object_or_not v with ⟨b, rfl⟩ | hv
  · simp only [overlay_object, Option.some.injEq, object.injEq]
    constructor
    · intro h
      refine ⟨fun hno => absurd hno.symm Bool.false_ne_true, ?_⟩
      rintro b' rfl
      exact h
    · rintro ⟨-, h⟩
      exact h b rfl
  · rw [overlay_of_not_isObject hv, overlay_over_not_isObject hv, overlay_object,
      Option.some.injEq, object.injEq, eq_comm]
    constructor
    · intro h
      refine ⟨fun _ => h, ?_⟩
      rintro b rfl
      exact absurd hv.symm Bool.false_ne_true
    · rintro ⟨h, -⟩
      exact h hv

theorem overlay_assoc_iff {x y z : Option Json} :
    overlay (overlay x y) z = overlay x (overlay y z) ↔
      ∀ a v c, x = some (.object a) → y = some v → z = some (.object c) →
        (v.isObject = false → Fields.merge a c = c) ∧
          ∀ b, v = .object b →
            Fields.merge (Fields.merge a b) c = Fields.merge a (Fields.merge b c) := by
  constructor
  · rintro h a v c rfl rfl rfl
    exact overlay_assoc_objects.mp h
  · intro h
    by_cases hx : ∃ a, x = some (.object a)
    · by_cases hz : ∃ c, z = some (.object c)
      · obtain ⟨a, rfl⟩ := hx
        obtain ⟨c, rfl⟩ := hz
        rcases y with _ | v
        · rw [overlay_none_right, overlay_none_left]
        · exact overlay_assoc_objects.mpr (h a v c rfl rfl rfl)
      · exact overlay_assoc_of_top (not_exists.mp hz) x y
    · exact overlay_assoc_of_bottom (not_exists.mp hx) y z

end Json

namespace Fields

/-! ## Tidy objects -/

/-- No object that is reached through objects alone has a key twice. -/
inductive Tidy : Fields → Prop where
  | mk {fs : Fields} (nodup : (keys fs).Nodup)
      (inner : ∀ k body, (k, Json.object body) ∈ fs → Tidy body) : Tidy fs

theorem Tidy.nodup {fs : Fields} (h : Tidy fs) : (keys fs).Nodup := by
  cases h with
  | mk nodup _ => exact nodup

theorem Tidy.inner {fs body : Fields} {k : String} (h : Tidy fs)
    (hk : get? fs k = some (.object body)) : Tidy body := by
  cases h with
  | mk _ inner => exact inner k body (mem_of_get? hk)

/-- Objects in which no key is repeated are tidy. -/
theorem Tidy.of_distinctKeys (fs : Fields) (h : (Json.object fs).DistinctKeys) : Tidy fs := by
  refine .mk h.1 fun k body hmem => ?_
  exact of_distinctKeys body ((Json.distinctKeysFields_iff fs).mp h.2 _ hmem)
termination_by sizeOf fs
decreasing_by
  have hlt := List.sizeOf_lt_of_mem hmem
  simp only [Prod.mk.sizeOf_spec, Json.object.sizeOf_spec] at hlt
  omega

/-! ## Hidden objects -/

/-- Somewhere a value that is no object lies between two objects. -/
def Hidden (a b c : Fields) : Prop :=
  ∃ (p : List String) (x z : Fields) (y : Json), (Json.object a).at? p = some (.object x) ∧
    (Json.object b).at? p = some y ∧ y.isObject = false ∧
    (Json.object c).at? p = some (.object z)

/-- Somewhere a value of `b` that is no object lies between the object `x` of `a` and the object
`z` of `c`. -/
def Hides (a b c x z : Fields) : Prop :=
  ∃ (p : List String) (y : Json), (Json.object a).at? p = some (.object x) ∧
    (Json.object b).at? p = some y ∧ y.isObject = false ∧
    (Json.object c).at? p = some (.object z)

theorem hidden_iff_exists {a b c : Fields} : Hidden a b c ↔ ∃ x z, Hides a b c x z := by
  constructor
  · rintro ⟨p, x, z, y, h⟩
    exact ⟨x, z, p, y, h⟩
  · rintro ⟨x, z, p, y, h⟩
    exact ⟨p, x, z, y, h⟩

/-- An object is hidden under a key: the one that the key holds, or one further below. -/
theorem hides_iff {a b c x z : Fields} :
    Hides a b c x z ↔ ∃ k a' v c', get? a k = some (.object a') ∧ get? b k = some v ∧
      get? c k = some (.object c') ∧
        (v.isObject = false ∧ a' = x ∧ c' = z ∨ ∃ b', v = .object b' ∧ Hides a' b' c' x z) := by
  constructor
  · rintro ⟨p, y, hx, hy, hno, hz⟩
    cases p with
    | nil =>
      obtain rfl := Option.some.inj hy
      exact absurd hno.symm Bool.false_ne_true
    | cons k p =>
      obtain ⟨u, hu, hx⟩ := Json.at?_cons_eq_some.mp hx
      obtain ⟨v, hv, hy⟩ := Json.at?_cons_eq_some.mp hy
      obtain ⟨w, hw, hz⟩ := Json.at?_cons_eq_some.mp hz
      obtain ⟨a', rfl⟩ := Json.exists_of_at?_object hx
      obtain ⟨c', rfl⟩ := Json.exists_of_at?_object hz
      refine ⟨k, a', v, c', hu, hv, hw, ?_⟩
      rcases v.object_or_not with ⟨b', rfl⟩ | hv
      · exact Or.inr ⟨b', rfl, p, y, hx, hy, hno, hz⟩
      · -- there is nothing below such a value, so the path ends at the key
        obtain ⟨rfl, -⟩ := Json.at?_of_not_isObject hv hy
        exact Or.inl ⟨hv, Json.object.inj (Option.some.inj hx),
          Json.object.inj (Option.some.inj hz)⟩
  · rintro ⟨k, a', v, c', ha, hb, hc, ⟨hno, rfl, rfl⟩ | ⟨b', rfl, p, y, hx, hy, hno, hz⟩⟩
    · refine ⟨[k], v, ?_, ?_, hno, ?_⟩
      · rw [Json.at?_singleton, ha]
      · rw [Json.at?_singleton, hb]
      · rw [Json.at?_singleton, hc]
    · refine ⟨k :: p, y, ?_, ?_, hno, ?_⟩
      · rw [Json.at?_object ha, hx]
      · rw [Json.at?_object hb, hy]
      · rw [Json.at?_object hc, hz]

/-- Something is hidden if some key holds objects below and above, and between them no object or
one that hides something in turn. -/
theorem hidden_iff {a b c : Fields} :
    Hidden a b c ↔ ∃ k a' v c', get? a k = some (.object a') ∧ get? b k = some v ∧
      get? c k = some (.object c') ∧ ∀ b', v = .object b' → Hidden a' b' c' := by
  constructor
  · intro h
    obtain ⟨x, z, h⟩ := hidden_iff_exists.mp h
    obtain ⟨k, a', v, c', ha, hb, hc, hcase⟩ := hides_iff.mp h
    refine ⟨k, a', v, c', ha, hb, hc, ?_⟩
    rintro b' rfl
    rcases hcase with ⟨hno, -⟩ | ⟨b'', heq, h⟩
    · exact absurd hno.symm Bool.false_ne_true
    · obtain rfl := Json.object.inj heq
      exact hidden_iff_exists.mpr ⟨x, z, h⟩
  · rintro ⟨k, a', v, c', ha, hb, hc, hbelow⟩
    rw [hidden_iff_exists]
    rcases v.object_or_not with ⟨b', rfl⟩ | hv
    · obtain ⟨x, z, h⟩ := hidden_iff_exists.mp (hbelow b' rfl)
      exact ⟨x, z, hides_iff.mpr ⟨k, a', _, c', ha, hb, hc, Or.inr ⟨b', rfl, h⟩⟩⟩
    · exact ⟨a', c', hides_iff.mpr ⟨k, a', v, c', ha, hb, hc, Or.inl ⟨hv, rfl, rfl⟩⟩⟩

/-- Every hidden object would add nothing to the one that it is hidden from. -/
def Absorbed (a b c : Fields) : Prop := ∀ x z, Hides a b c x z → merge x z = z

theorem absorbed_iff {a b c : Fields} :
    Absorbed a b c ↔ ∀ k a' v c', get? a k = some (.object a') → get? b k = some v →
      get? c k = some (.object c') →
        (v.isObject = false → merge a' c' = c') ∧ ∀ b', v = .object b' → Absorbed a' b' c' := by
  constructor
  · intro h k a' v c' ha hb hc
    constructor
    · intro hno
      exact h a' c' (hides_iff.mpr ⟨k, a', v, c', ha, hb, hc, Or.inl ⟨hno, rfl, rfl⟩⟩)
    · intro b' hv x z hxz
      exact h x z (hides_iff.mpr ⟨k, a', v, c', ha, hb, hc, Or.inr ⟨b', hv, hxz⟩⟩)
  · intro h x z hxz
    obtain ⟨k, a', v, c', ha, hb, hc, hcase⟩ := hides_iff.mp hxz
    obtain ⟨hhere, hbelow⟩ := h k a' v c' ha hb hc
    rcases hcase with ⟨hno, rfl, rfl⟩ | ⟨b', hv, hxz⟩
    · exact hhere hno
    · exact hbelow b' hv x z hxz

/-! ## Associativity -/

theorem keys_merge_assoc {a b c : Fields} (hb : (keys b).Nodup) (hc : (keys c).Nodup) :
    keys (merge (merge a b) c) = keys (merge a (merge b c)) := by
  have hbc : (keys (merge b c)).Nodup := keys_merge_nodup hb c
  rw [keys_merge hc, keys_merge hbc, keys_merge hb, keys_merge hc, List.filter_append,
    List.filter_filter, List.append_assoc]
  congr 2
  refine List.filter_congr fun k _ => ?_
  by_cases hka : k ∈ keys a <;> by_cases hkb : k ∈ keys b <;> simp [hka, hkb]

/-- Merging is associative exactly if all that is hidden is absorbed. -/
theorem merge_assoc_iff {a b c : Fields} (ha : Tidy a) (hb : Tidy b) (hc : Tidy c) :
    merge (merge a b) c = merge a (merge b c) ↔ Absorbed a b c := by
  induction hc generalizing a b with
  | @mk c hcn _ ih =>
    have hbn := hb.nodup
    have habn := keys_merge_nodup ha.nodup b
    calc merge (merge a b) c = merge a (merge b c)
      _ ↔ ∀ k, get? (merge (merge a b) c) k = get? (merge a (merge b c)) k :=
          ⟨fun h k => by rw [h], ext_get? (keys_merge_nodup habn c) (keys_merge_assoc hbn hcn)⟩
      _ ↔ ∀ k, Json.overlay (Json.overlay (get? a k) (get? b k)) (get? c k) =
            Json.overlay (get? a k) (Json.overlay (get? b k) (get? c k)) := by
          simp only [get?_merge hcn, get?_merge hbn, get?_merge (keys_merge_nodup hbn c)]
      _ ↔ ∀ k a' v c', get? a k = some (.object a') → get? b k = some v →
            get? c k = some (.object c') → (v.isObject = false → merge a' c' = c') ∧
              ∀ b', v = .object b' → merge (merge a' b') c' = merge a' (merge b' c') :=
          forall_congr' fun k => Json.overlay_assoc_iff
      _ ↔ Absorbed a b c := by
          rw [absorbed_iff]
          refine forall_congr' fun k => forall₃_congr fun a' v c' => ?_
          refine forall₃_congr fun hak hbk hck => and_congr_right fun _ => forall₂_congr ?_
          rintro b' rfl
          exact ih k c' (mem_of_get? hck) (ha.inner hak) (hb.inner hbk)

/-- Merging is associative where nothing is hidden. -/
theorem merge_assoc {a b c : Fields} (ha : Tidy a) (hb : Tidy b) (hc : Tidy c)
    (h : ¬ Hidden a b c) : merge (merge a b) c = merge a (merge b c) :=
  (merge_assoc_iff ha hb hc).mpr fun x z hxz => absurd (hidden_iff_exists.mpr ⟨x, z, hxz⟩) h

/-- Merged from the left, what is hidden from an empty object is lost. -/
example :
    merge (merge [("a", .object [("x", .null)])] [("a", .null)]) [("a", .object [])] =
      [("a", .object [])] ∧
    merge [("a", .object [("x", .null)])] (merge [("a", .null)] [("a", .object [])]) =
      [("a", .object [("x", .null)])] := by
  decide

end Fields

/-! ## Looking for hidden objects -/

mutual

/-- Whether the value in the middle hides something of the first from the last. -/
def Json.hasHidden : Json → Json → Json → Bool
  | .object a, v, .object c =>
    match v with
    | .object b => Fields.hasHidden a b c
    | _ => true
  | _, _, _ => false

/-- Whether something is hidden under a key. -/
def Fields.hasHidden : List (String × Json) → Fields → Fields → Bool
  | [], _, _ => false
  | (k, u) :: a, b, c =>
    (match b.get? k, c.get? k with
      | some v, some w => Json.hasHidden u v w
      | _, _ => false) || Fields.hasHidden a b c

end

theorem Json.hasHidden_iff {u v w : Json} :
    u.hasHidden v w = true ↔ ∃ a c, u = .object a ∧ w = .object c ∧
      ∀ b, v = .object b → Fields.hasHidden a b c = true := by
  cases u with
  | object a =>
    cases w with
    | object c => cases v <;> simp [Json.hasHidden]
    | null | bool _ | number _ | string _ | array _ => simp [Json.hasHidden]
  | null | bool _ | number _ | string _ | array _ => simp [Json.hasHidden]

namespace Fields

theorem hasHidden_iff_exists {a b c : Fields} :
    hasHidden a b c = true ↔ ∃ k u v w, (k, u) ∈ a ∧ get? b k = some v ∧ get? c k = some w ∧
      u.hasHidden v w = true := by
  induction a with
  | nil => simp [hasHidden]
  | cons f a ih =>
    obtain ⟨l, x⟩ := f
    rw [hasHidden, Bool.or_eq_true, ih]
    constructor
    · rintro (h | ⟨k, u, v, w, hmem, h⟩)
      · split at h
        · rename_i v w hv hw
          exact ⟨l, x, v, w, List.mem_cons_self, hv, hw, h⟩
        · exact absurd h Bool.false_ne_true
      · exact ⟨k, u, v, w, List.mem_cons_of_mem _ hmem, h⟩
    · rintro ⟨k, u, v, w, hmem, hv, hw, h⟩
      rcases List.mem_cons.mp hmem with heq | hmem
      · obtain ⟨rfl, rfl⟩ := Prod.mk.inj heq
        left
        simp only [hv, hw, h]
      · exact Or.inr ⟨k, u, v, w, hmem, hv, hw, h⟩

theorem hasHidden_iff {a b c : Fields} (ha : Tidy a) : hasHidden a b c = true ↔ Hidden a b c := by
  induction ha generalizing b c with
  | @mk a hn _ ih =>
    rw [hasHidden_iff_exists, hidden_iff]
    constructor
    · rintro ⟨k, u, v, w, hmem, hv, hw, h⟩
      obtain ⟨a', c', rfl, rfl, hbelow⟩ := Json.hasHidden_iff.mp h
      refine ⟨k, a', v, c', get?_of_mem hn hmem, hv, hw, ?_⟩
      rintro b' rfl
      exact (ih k a' hmem).mp (hbelow b' rfl)
    · rintro ⟨k, a', v, c', hu, hv, hw, hbelow⟩
      have hmem := mem_of_get? hu
      refine ⟨k, _, v, _, hmem, hv, hw, Json.hasHidden_iff.mpr ⟨a', c', rfl, rfl, ?_⟩⟩
      rintro b' rfl
      exact (ih k a' hmem).mpr (hbelow b' rfl)

end Fields

end FilterTree
