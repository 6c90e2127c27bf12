import PipeANN.FilterBinding

/-! # The indexes behind the leaves of a filter

A leaf selector works on an index of one kind: the label selectors cast theirs to
`InvertedLabelAttrIndex`, a `RangeSelector` reads the first element of its query attribute, the
string selectors check theirs when they are built.  `compile_field_clause` does not always look at
the type of the field: `$all` gives a `LabelAndSelector` and a comparison a `RangeSelector`, for
any field.  And a range clause with a variable that has its slot elsewhere keeps an empty query
attribute.

`leaves_safe_iff` says that nothing else can go wrong: every leaf of a compiled filter works on an
index of its kind and reads inside its query attribute, for all values that fit the types of
their variables, if and only if `$all` is used on label fields only, comparisons on range fields
only, and no range clause has a variable that occurs before.
-/
namespace PipeANN
open List Option

theorem FilterTree.mem_leavesAll {ℓ : Type} {d : ℓ} : ∀ {ss : List (FilterTree ℓ)},
    d ∈ leaves.leavesAll ss ↔ ∃ s ∈ ss, d ∈ s.leaves
  | [] => by simp [leaves.leavesAll]
  | s :: rest => by
    rw [leaves.leavesAll, mem_append, mem_leavesAll, exists_mem_cons_iff]

namespace Dsl

/-- A leaf reads inside its query attribute.  Only the range selector takes an element without
looking whether it is there. -/
def LeafKind.ReadsInside (query : Attribute) : LeafKind → Prop
  | .range => query ≠ []
  | _ => True

/-- The values have the form that the fields of their variables ask for: a range has two ends. -/
def FitsTypes (cf : CompiledFilter) (values : Text → Attribute) : Prop :=
  ∀ var, cf.varFieldType.lookup var = some .range → (values var).length = 2

/-- A leaf works on an index of its kind and reads inside its query attribute. -/
def LeafSafe (out : List Attribute) (p : LeafSelector × FieldClause) : Prop :=
  p.1.kind.indexType = p.2.info.type ∧
    ∃ query, out[p.1.key]? = some query ∧ p.1.kind.ReadsInside query

/-- **The clauses that are well typed.** -/
def WellTyped (clauses : List FieldClause) : Prop :=
  ∀ i c, clauses[i]? = some c →
    (c.op = .all → c.info.type = .label) ∧ (c.op = .compare → c.info.type = .range) ∧
      ∀ var, c.info.type = .range → c.slot = .reserved var → FirstSlot clauses var i

/-! ## Clauses that the compiler lets through -/

/-- What the compiler ensures of a clause: the string selectors are on string fields, and an
interval is not empty. -/
structure Admitted (c : FieldClause) : Prop where
  checked : c.checked = some c
  interval : c.kind = .range → ∀ a, c.slot = .value a → a ≠ []

theorem admitted_of_checked {c c' : FieldClause} (h : c.checked = some c')
    (hinterval : c.kind = .range → c.slot ≠ .value []) : Admitted c' := by
  have heq : c = c' := by
    rw [FieldClause.checked] at h
    split at h
    · exact some.inj h
    · exact some.inj h
    · exact some.inj h
    · split at h
      · exact some.inj h
      · cases h
  subst heq
  exact ⟨h, fun hk a ha hnil => hinterval hk (hnil ▸ ha)⟩

section
variable {type : AttrType} {c : Clause} {val : Json}

theorem interval_string {op : ClauseOp} (hop : op.kind type ≠ .range)
    (h : clauseOfString op val = some c) : c.op.kind type = .range → c.slot ≠ .value [] := by
  obtain ⟨s, -, rfl⟩ := map_eq_some_iff.mp h
  exact fun hk => absurd hk hop

theorem interval_equality (h : clauseOfEquality type val = some c) : c.slot ≠ .value [] := by
  unfold clauseOfEquality at h
  split at h
  · cases h
    exact SlotContent.noConfusion
  · split at h
    all_goals
      obtain ⟨v, -, rfl⟩ := map_eq_some_iff.mp h
      exact fun hslot => absurd (SlotContent.value.inj hslot) (cons_ne_nil _ _)

theorem isIn_kind_ne_range : ClauseOp.isIn.kind type ≠ .range := by
  rw [ClauseOp.kind]
  split <;> exact LeafKind.noConfusion

theorem interval_in (h : clauseOfIn type val = some c) : c.op.kind type ≠ .range := by
  rw [clauseOfIn] at h
  split at h
  · cases h
    exact isIn_kind_ne_range
  · obtain ⟨items, -, h⟩ := bind_eq_some_iff.mp h
    split at h
    all_goals
      obtain ⟨vals, -, rfl⟩ := map_eq_some_iff.mp h
      exact isIn_kind_ne_range

theorem interval_all (h : clauseOfAll val = some c) : c.op.kind type ≠ .range := by
  rw [clauseOfAll] at h
  split at h
  · cases h
    exact LeafKind.noConfusion
  · obtain ⟨items, -, h⟩ := bind_eq_some_iff.mp h
    obtain ⟨vals, -, rfl⟩ := map_eq_some_iff.mp h
    exact LeafKind.noConfusion

/-- An interval is not empty. -/
theorem interval_clauseOf (h : clauseOf type val = some c) :
    c.op.kind type = .range → c.slot ≠ .value [] := by
  revert h
  fun_cases clauseOf type val with
  | case1 => exact fun h hk => absurd hk (interval_in h)
  | case2 => exact fun h hk => absurd hk (interval_all h)
  | case3 | case4 | case5 => exact interval_string LeafKind.noConfusion
  | case6 =>
    intro h
    obtain ⟨lohi, -, rfl⟩ := map_eq_some_iff.mp h
    exact fun _ hslot => absurd (SlotContent.value.inj hslot) (cons_ne_nil _ _)
  | case7 => exact fun h _ => interval_equality h

end

section
variable {schema : Schema} {info : FieldInfo} {c : FieldClause} {t : FilterTree FieldClause}
    {val : Json} {u : Unit}

theorem admitted_clause {r : FieldClause × Unit} (h : elabClause info val u = some r) :
    Admitted r.1 := by
  obtain ⟨c, hc, h⟩ := bind_eq_some_iff.mp h
  obtain ⟨c', hchecked, rfl⟩ := map_eq_some_iff.mp h
  exact admitted_of_checked hchecked (interval_clauseOf hc)

/-- Every leaf of a tree is admitted. -/
def AllAdmitted (t : FilterTree FieldClause) : Prop := ∀ c ∈ t.leaves, Admitted c

theorem related_allAdmitted (schema : Schema) : Related (fun _ _ => True)
    (fun _ _ r _ => AllAdmitted r.1) elabClause elabClause schema schema := by
  have hall : ∀ {u u' : Unit} {rs rs' : List (FilterTree FieldClause) × Unit}, True →
      RelatedAll (fun _ _ r _ => AllAdmitted r.1) u u' rs rs' →
      ∀ c ∈ FilterTree.leaves.leavesAll rs.1, Admitted c := by
    intro u u' rs rs' _ h
    induction h with
    | nil => exact fun c hc => absurd hc not_mem_nil
    | cons hr _ ih => exact forall_mem_append.mpr ⟨hr, ih⟩
  refine ⟨fun _ => trivial, fun name => ?_, hall, hall, id⟩
  cases schema.lookup name with
  | none => exact .none
  | some info =>
    refine .some fun val u u' _ => ?_
    have hadmitted (r) := @admitted_clause info val u r
    revert hadmitted
    cases elabClause info val u with
    | none => exact fun _ => .none
    | some r => exact fun h => .some (forall_mem_singleton.mpr (h r rfl))

/-- **Every clause that the compiler lets through is admitted.** -/
theorem allAdmitted_of_elaborate {sql : Text}
    (h : elaborate sql schema = some t) : AllAdmitted t := by
  rw [elaborate] at h
  split at h
  · cases h
  next src _ =>
    obtain ⟨r, hr, rfl⟩ := map_eq_some_iff.mp h
    have hrel := ((related_allAdmitted schema).compileNodeWith (Json.parse src)).1 () () trivial
    rw [hr] at hrel
    cases hrel with
    | some h => exact h

/-! ## Types -/

/-- The index of an admitted clause is of the right kind, unless the operator did not ask. -/
theorem Admitted.indexType_iff (h : Admitted c) : c.kind.indexType = c.info.type ↔
    (c.op = .all → c.info.type = .label) ∧ (c.op = .compare → c.info.type = .range) := by
  have hcheck := h.checked
  obtain ⟨⟨op, slot, listVars⟩, info⟩ := c
  obtain ⟨key, type, n⟩ := info
  cases op <;> cases type <;>
    simp_all [FieldClause.checked, FieldClause.kind, ClauseOp.kind, AttrType.equalityKind,
      LeafKind.indexType]

end

/-- What the query attribute of a range clause is, once the values are bound. -/
theorem Numbered.readsInside_iff {clauses : List FieldClause} {cf : CompiledFilter}
    {order : List (Text × Nat)} {values : Text → Attribute} {i : Nat} {c : FieldClause}
    (h : Numbered clauses cf.toBindings) (horder : order.Perm cf.slotMap)
    (hvalues : FitsTypes cf values) (hc : clauses[i]? = some c) (hadm : Admitted c)
    (htype : c.kind.indexType = c.info.type) :
    (∃ query, (bindRow cf.attrsTemplate order values)[i]? = some query ∧ c.kind.ReadsInside query) ↔
      ∀ var, c.info.type = .range → c.slot = .reserved var → FirstSlot clauses var i := by
  by_cases hfirst : ∃ v, FirstSlot clauses v i
  · -- a bound variable
    obtain ⟨v, hv⟩ := hfirst
    obtain ⟨⟨d, hd, hslot⟩, -⟩ := id hv
    obtain rfl : d = c := some.inj (hd.symm.trans hc)
    refine iff_of_true ⟨_, h.bindRow_first horder hv, ?_⟩ fun var _ hres => ?_
    · cases hk : d.kind with
      | range =>
        rw [hk] at htype
        have hlen := hvalues v ((h.type_eq v i d hv hc).trans (congrArg some htype.symm))
        intro hnil
        rw [hnil] at hlen
        cases hlen
      | _ => trivial
    · rwa [SlotContent.reserved.inj (hres.symm.trans hslot)]
  · have hnone : ∀ v, ¬ FirstSlot clauses v i := fun v hv => hfirst ⟨v, hv⟩
    rw [h.bindRow_other horder hnone hc]
    simp only [some.injEq, exists_eq_left']
    cases hk : c.kind with
    | range =>
      rw [hk] at htype
      cases hslot : c.slot with
      | value a =>
        exact iff_of_true (hadm.interval hk a hslot) fun var _ hres => by cases hres
      | reserved var =>
        refine iff_of_false (fun hne => hne rfl) fun hall => ?_
        exact hnone var (hall var htype.symm rfl)
    | _ =>
      refine iff_of_true trivial fun var hrange => ?_
      rw [hk, hrange] at htype
      cases htype

/-- **When the leaves of a filter are safe.**  For any text that compiles and any order in which
`slot_map` is iterated: every leaf works on an index of its kind and reads inside its query
attribute, for all values that fit the types of the variables, if and only if the clauses are
well typed. -/
theorem leaves_safe_iff {sql : Text} {schema : Schema} {t : FilterTree FieldClause}
    {cf : CompiledFilter} {order : List (Text × Nat)} (ht : elaborate sql schema = some t)
    (hcf : compile sql schema = some cf) (horder : order.Perm cf.slotMap) :
    (∀ values, FitsTypes cf values → ∀ p ∈ cf.selector.leaves.zip t.leaves,
        LeafSafe (bindRow cf.attrsTemplate order values) p) ↔ WellTyped t.leaves := by
  obtain rfl : CompiledFilter.ofTree t = cf := by
    rw [compile_eq, ht] at hcf
    exact some.inj hcf
  have hnum := (CompiledFilter.ofTree_spec t).2
  have hadm := allAdmitted_of_elaborate ht
  constructor
  · intro h i c hc
    have hfits : FitsTypes (.ofTree t) fun _ => [0, 0] := fun _ _ => rfl
    obtain ⟨htype, hreads⟩ :=
      h _ hfits (⟨c.kind, i, c.info.key⟩, c) (mem_zip_leaves.mpr ⟨i, hc, rfl⟩)
    have hc' := hadm c (mem_of_getElem? hc)
    obtain ⟨hall, hcmp⟩ := hc'.indexType_iff.mp htype
    exact ⟨hall, hcmp, (hnum.readsInside_iff horder hfits hc hc' htype).mp hreads⟩
  · intro h values hvalues p hp
    obtain ⟨i, hc, hleaf⟩ := mem_zip_leaves.mp hp
    obtain ⟨hall, hcmp, hfirst⟩ := h i p.2 hc
    have hc' := hadm p.2 (mem_of_getElem? hc)
    have htype := hc'.indexType_iff.mpr ⟨hall, hcmp⟩
    rw [LeafSafe, hleaf]
    exact ⟨htype, (hnum.readsInside_iff horder hvalues hc hc' htype).mpr hfirst⟩

/-! ## A clause on a field of another type -/

/-- One range field. -/
def priceSchema : Schema := [("price".toList, ⟨0, .range, 4⟩)]

/-- **A label selector on a range index.** -/
theorem all_on_range_field : (compile "array_contains_all(price, [1])".toList priceSchema).map
        (fun cf => cf.selector.leaves) = some [⟨.labelAnd, 0, 0⟩] ∧
      (elaborate "array_contains_all(price, [1])".toList priceSchema).map
        (fun t => t.leaves.map fun c => c.info.type) = some [.range] ∧
      LeafKind.labelAnd.indexType = .label := by
  refine ⟨by decide +kernel, by decide +kernel, rfl⟩

/-- A filter whose clauses are well typed. -/
theorem leaves_safe_price : ∃ t cf, elaborate "price > 3".toList priceSchema = some t ∧
    compile "price > 3".toList priceSchema = some cf ∧
    ((∀ values, FitsTypes cf values → ∀ p ∈ cf.selector.leaves.zip t.leaves,
        LeafSafe (bindRow cf.attrsTemplate cf.slotMap values) p) ↔ WellTyped t.leaves) := by
  have hsome : (elaborate "price > 3".toList priceSchema).isSome = true := by decide +kernel
  obtain ⟨t, ht⟩ := isSome_iff_exists.mp hsome
  have hcf : compile "price > 3".toList priceSchema = some (.ofTree t) := by
    rw [compile_eq, ht, map_some]
  exact ⟨t, _, ht, hcf, leaves_safe_iff ht hcf (Perm.refl _)⟩

end Dsl
end PipeANN
