import FilterTree.Proofs.Criteria

/-!
# Gains under merging

Where one object holds a comparison more than another (`Query.Gains`), it still does after both have
been merged with the same objects: with one above them (`Query.Gains.merge`), with one below them
(`Query.Gains.over`), and with those on both sides (`Query.Gains.around`). So it does under the
names of a path (`Query.Gains.nest`).
-/

namespace FilterTree

namespace Fields

variable {a b : Fields} {k : String}

theorem SameBut.merge (h : SameBut k a b) {s : Fields} (hs : (keys s).Nodup) :
    SameBut k (Fields.merge a s) (Fields.merge b s) := by
  intro l hl
  rw [get?_merge hs, get?_merge hs, h l hl]

theorem SameBut.over (h : SameBut k a b) (ha : (keys a).Nodup) (hb : (keys b).Nodup) (t : Fields) :
    SameBut k (Fields.merge t a) (Fields.merge t b) := by
  intro l hl
  rw [get?_merge ha, get?_merge hb, h l hl]

theorem Opens.overlay {v w : Option Json} {x y : Fields} (hx : Opens v x) (hy : Opens w y)
    (hn : (keys y).Nodup) : Opens (Json.overlay v w) (Fields.merge x y) := by
  rcases hx with ⟨rfl, rfl⟩ | rfl
  · rw [Json.overlay_none_left, merge_nil_left hn]
    exact hy
  · rcases hy with ⟨rfl, rfl⟩ | rfl
    · rw [Json.overlay_none_right, merge_nil]
      exact Or.inr rfl
    · rw [Json.overlay_object]
      exact Or.inr rfl

/-- A key opens an object, or holds a value that is none. -/
theorem exists_opens_or (v : Option Json) :
    (∃ body, Opens v body) ∨ ∃ w, v = some w ∧ w.isObject = false := by
  cases v with
  | none => exact Or.inl ⟨[], Or.inl ⟨rfl, rfl⟩⟩
  | some w =>
    rcases w.object_or_not with ⟨body, rfl⟩ | hw
    · exact Or.inl ⟨body, Or.inr rfl⟩
    · exact Or.inr ⟨w, rfl, hw⟩

/-- The object with one field, or with none. -/
def lone (k : String) (v : Option Json) : Fields := v.elim [] fun v => [(k, v)]

@[simp] theorem get?_lone (k : String) (v : Option Json) : get? (lone k v) k = v := by
  cases v with
  | none => rfl
  | some v => exact if_pos rfl

theorem sameBut_lone (k : String) (v w : Option Json) : SameBut k (lone k v) (lone k w) := by
  have hnone : ∀ (v : Option Json) (l : String), l ≠ k → get? (lone k v) l = none := by
    intro v l hl
    cases v with
    | none => rfl
    | some v => exact if_neg (Ne.symm hl)
  intro l hl
  rw [hnone v l hl, hnone w l hl]

theorem opens_map_object (v : Option Json) (p : Path) (k : String) :
    Opens (v.map fun v => .object (nest p [(k, v)])) (v.elim [] fun v => nest p [(k, v)]) := by
  cases v with
  | none => exact Or.inl ⟨rfl, rfl⟩
  | some v => exact Or.inr rfl

/-! ## Merging around one object -/

theorem merge_ne_nil_of_source (target : Fields) {source : Fields} (h : source ≠ []) :
    merge target source ≠ [] := by
  cases source with
  | nil => exact absurd rfl h
  | cons s source =>
    rw [merge]
    exact merge_ne_nil (put_ne_nil _ _ _) source

theorem mergeAll_around (before after : List Fields) (x : Fields) :
    mergeAll (before ++ solid x ++ after) = after.foldl merge (merge (mergeAll before) x) := by
  rw [mergeAll, List.foldl_append, List.foldl_append]
  cases x with
  | nil => rw [merge_nil]; rfl
  | cons f x =>
    rw [solid_of_ne_nil (List.cons_ne_nil f x)]
    rfl

theorem mergeAll_around_ne_nil (before after : List Fields) {x : Fields} (hx : x ≠ []) :
    mergeAll (before ++ solid x ++ after) ≠ [] := by
  have hfold : ∀ (os : List Fields) (target : Fields), target ≠ [] →
      os.foldl merge target ≠ [] := by
    intro os
    induction os with
    | nil => exact fun _ h => h
    | cons o os ih => exact fun target h => ih _ (merge_ne_nil h o)
  rw [mergeAll_around]
  exact hfold after _ (merge_ne_nil_of_source _ hx)

end Fields

namespace Query

open Fields

variable {path base : Path} {op : Comparison} {fresh : Connective → List Json → Prop}
  {a b : Fields}

/-! ## Gains under merging -/

theorem Gains.mono {fresh' : Connective → List Json → Prop} (h : Gains path op fresh base a b)
    (hfresh : ∀ o new, fresh o new → fresh' o new) : Gains path op fresh' base a b := by
  induction h with
  | same h => exact .same h
  | operand h => exact .operand h
  | inner hk hsame hx hy _ ih => exact .inner hk hsame hx hy ih
  | item hsame hx hy _ ih => exact .item hsame hx hy ih
  | array ho hnew hsame hold hget => exact .array ho (hfresh _ _ hnew) hsame hold hget

/-- If a merge leaves nothing of the difference there is none. -/
theorem gains_of_overlay {k : String} (h : SameBut k a b) {s : Fields} (hs : (keys s).Nodup)
    {w : Json} (hk : get? s k = some w)
    (hsame : Json.overlay (get? a k) (some w) = Json.overlay (get? b k) (some w)) :
    Gains path op fresh base (merge a s) (merge b s) := by
  refine .same ((h.merge hs).ext ?_)
  rw [get?_merge hs, get?_merge hs, hk, hsame]

/-- Over a value that is no object, or over none, any value wins. -/
theorem overlay_some {v : Option Json} (hv : ∀ u, v = some u → ∃ items, u = .array items)
    (w : Json) : Json.overlay v (some w) = some w := by
  apply Json.overlay_of_ne_object
  intro a ha
  obtain ⟨items, hitems⟩ := hv _ ha
  cases hitems

/-- What is merged into both objects does not matter. -/
theorem Gains.merge (h : Gains path op fresh base a b) {s : Fields}
    (hs : (Json.object s).DistinctKeys) :
    Gains path op fresh base (Fields.merge a s) (Fields.merge b s) := by
  induction h generalizing s with
  | same h =>
    refine .same fun k => ?_
    rw [get?_merge hs.1, get?_merge hs.1, h]
  | operand h => exact .operand (h.merge hs.1)
  | @inner base a b x y k hk hsame hx hy _ ih =>
    rcases exists_opens_or (get? s k) with ⟨body, hbody⟩ | ⟨w, hw, hno⟩
    · have hd := hbody.distinctKeys hs
      refine .inner hk (hsame.merge hs.1) ?_ ?_ (ih hd)
      · rw [get?_merge hs.1]
        exact hx.overlay hbody hd.1
      · rw [get?_merge hs.1]
        exact hy.overlay hbody hd.1
    -- a value that is no object takes the place of whatever is below it
    · refine gains_of_overlay hsame hs.1 hw ?_
      rw [Json.overlay_of_not_isObject hno, Json.overlay_of_not_isObject hno]
  | @item base a b x y o before after hsame hx hy h _ =>
    cases hw : get? s o.symbol with
    | none =>
      rw [← Json.overlay_none_right (get? a _), ← hw, ← get?_merge hs.1] at hx
      rw [← Json.overlay_none_right (get? b _), ← hw, ← get?_merge hs.1] at hy
      exact .item (hsame.merge hs.1) hx hy h
    -- arrays are not merged: what comes on top is all that is left
    | some w =>
      refine gains_of_overlay hsame hs.1 hw ?_
      rw [hx, hy, Json.overlay_over_not_isObject rfl, Json.overlay_over_not_isObject rfl]
  | @array a b o new ho hnew hsame hold hget =>
    cases hw : get? s o.symbol with
    | none =>
      refine .array ho hnew (hsame.merge hs.1) ?_ ?_
      · rw [get?_merge hs.1, hw]
        exact hold
      · rw [get?_merge hs.1, hw, hget]
        rfl
    | some w =>
      refine gains_of_overlay hsame hs.1 hw ?_
      rw [overlay_some hold, hget, Json.overlay_over_not_isObject rfl]

/-- In what is written a key that nests opens an object of entries, if it is there. -/
theorem exists_opens_of_areEntries {inner : Bool} {t : Fields}
    (ht : areEntries .written inner t = true) {k : String}
    (hk : (Key.ofString k).nests = true) :
    ∃ body inner', Opens (get? t k) body ∧ areEntries .written inner' body = true := by
  cases hv : get? t k with
  | none => exact ⟨[], false, Or.inl ⟨rfl, rfl⟩, by rw [areEntries]⟩
  | some v =>
    have hentry := areEntries_iff_forall.mp ht _ (mem_of_get? hv)
    have hfilter : isFilter .written v = true →
        ∃ body inner', Opens (some v) body ∧ areEntries .written inner' body = true := by
      intro h
      cases v with
      | object body => exact ⟨body, false, Or.inr rfl, (isFilter_object h).2⟩
      | null | bool _ | number _ | string _ | array _ => simp [isFilter] at h
    cases hkey : Key.ofString k with
    | comparison o =>
      rw [hkey] at hk
      cases hk
    | connective o =>
      cases o with
      | not => exact hfilter (isFilter_of_areEntries_not hkey hentry)
      | and | or =>
        rw [hkey] at hk
        cases hk
    | quantifier o => exact hfilter (isFilter_of_areEntries_quantifier hkey hentry)
    | field name =>
      have hbody := isBody_of_areEntries hkey hentry
      obtain ⟨body, rfl⟩ := exists_object_of_isBody hbody
      exact ⟨body, true, Or.inr rfl, (isBody_object hbody).2.1⟩

/-- In what is written `$and` and `$or` hold arrays. -/
theorem exists_array_of_areEntries {inner : Bool} {t : Fields}
    (ht : areEntries .written inner t = true) {o : Connective} (ho : o ≠ .not) {v : Json}
    (hv : get? t o.symbol = some v) : ∃ items, v = .array items := by
  have hentry := areEntries_iff_forall.mp ht _ (mem_of_get? hv)
  have hlist := isItemList_of_areEntries (Key.ofString_connective o) ho hentry
  cases v with
  | array items => exact ⟨items, rfl⟩
  | null | bool _ | number _ | string _ | object _ => simp [isItemList] at hlist

/-- What both objects are merged into does not matter either. -/
theorem Gains.over (h : Gains path op fresh base a b) {inner : Bool} {t : Fields}
    (ht : areEntries .written inner t = true) (ha : (Json.object a).DistinctKeys)
    (hb : (Json.object b).DistinctKeys) :
    Gains path op fresh base (Fields.merge t a) (Fields.merge t b) := by
  induction h generalizing inner t with
  | same h =>
    refine .same fun k => ?_
    rw [get?_merge ha.1, get?_merge hb.1, h]
  | operand h => exact .operand (h.over ha.1 hb.1 t)
  | @inner base a b x y k hk hsame hx hy _ ih =>
    obtain ⟨body, inner', hbody, hentries⟩ := exists_opens_of_areEntries ht hk
    have hxd := hx.distinctKeys ha
    have hyd := hy.distinctKeys hb
    refine .inner hk (hsame.over ha.1 hb.1 t) ?_ ?_ (ih hentries hxd hyd)
    · rw [get?_merge ha.1]
      exact hbody.overlay hx hxd.1
    · rw [get?_merge hb.1]
      exact hbody.overlay hy hyd.1
  | @item base a b x y o before after hsame hx hy h _ =>
    have hx' := get?_merge ha.1 t o.symbol
    have hy' := get?_merge hb.1 t o.symbol
    rw [hx, Json.overlay_of_not_isObject rfl] at hx'
    rw [hy, Json.overlay_of_not_isObject rfl] at hy'
    exact .item (hsame.over ha.1 hb.1 t) hx' hy' h
  | @array a b o new ho hnew hsame hold hget =>
    refine .array ho hnew (hsame.over ha.1 hb.1 t) ?_ ?_
    -- the array in `t` is now the one that the fresh array takes the place of
    · intro v hv
      rw [get?_merge ha.1] at hv
      cases hw : get? a o.symbol with
      | none =>
        rw [hw, Json.overlay_none_right] at hv
        exact exists_array_of_areEntries ht ho hv
      | some w =>
        obtain ⟨old, rfl⟩ := hold w hw
        rw [hw, Json.overlay_of_not_isObject rfl] at hv
        exact ⟨old, (Option.some.inj hv).symm⟩
    · rw [get?_merge hb.1, hget, Json.overlay_of_not_isObject rfl]

/-- One of the objects that are merged gains a comparison. -/
theorem Gains.around (h : Gains path op fresh base a b) {inner : Bool} {before after : List Fields}
    (hbefore : ∀ o ∈ before, areEntries .written inner o = true)
    (ha : (Json.object a).DistinctKeys) (hb : (Json.object b).DistinctKeys)
    (hafter : ∀ o ∈ after, (Json.object o).DistinctKeys) :
    Gains path op fresh base (mergeAll (before ++ solid a ++ after))
      (mergeAll (before ++ solid b ++ after)) := by
  rw [mergeAll_around, mergeAll_around]
  have htarget : areEntries .written inner (mergeAll before) = true :=
    areEntries_foldl_merge rfl (by rw [areEntries]) hbefore
  have hmerged := h.over htarget ha hb
  generalize Fields.merge (mergeAll before) a = x at hmerged ⊢
  generalize Fields.merge (mergeAll before) b = y at hmerged ⊢
  induction after generalizing x y with
  | nil => exact hmerged
  | cons o after ih =>
    exact ih (fun p hp => hafter p (List.mem_cons_of_mem _ hp)) _ _
      (hmerged.merge (hafter o List.mem_cons_self))

/-- What is written under names gains a comparison if what is written without them does. -/
theorem Gains.nest {p : Path} (hp : Path.IsPlain p) {k : String} {x y : Option Json}
    (h : Gains path op fresh (base ++ p) (lone k x) (lone k y)) :
    Gains path op fresh base (x.elim [] fun v => Fields.nest p [(k, v)])
      (y.elim [] fun v => Fields.nest p [(k, v)]) := by
  induction p generalizing base with
  | nil =>
    rw [List.append_nil] at h
    exact h
  | cons name p ih =>
    have hname := Key.ofString_of_not_isOperator (hp name List.mem_cons_self)
    have hlone : ∀ v : Option Json, (v.elim [] fun v => Fields.nest (name :: p) [(k, v)]) =
        lone name (v.map fun v => .object (Fields.nest p [(k, v)])) := by
      intro v
      cases v <;> rfl
    rw [hlone, hlone]
    refine .inner (k := name) (by rw [hname]; rfl) (sameBut_lone name _ _) ?_ ?_ (ih hp.tail ?_)
    · rw [get?_lone]
      exact opens_map_object x p k
    · rw [get?_lone]
      exact opens_map_object y p k
    · rw [hname, pathUnder, List.append_assoc, List.singleton_append]
      exact h

end Query

end FilterTree
