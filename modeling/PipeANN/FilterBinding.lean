import PipeANN.FilterSlots
import PipeANN.LastWrites

/-! # Filling in the variables of a filter

A filter is compiled once and used with many values for its variables: `bind_row` of
`dsl_compiler.h` copies the template of the query attributes and puts the value of each variable
in its slot; `bind_batch_per_var` does this for all rows of the variables' files at once.

Both go by `slot_map`, which has one slot for a variable.  Every occurrence gets a slot of its
own, but only the first one gets into the map: with `a = $$v or b = $$v` the second leaf keeps the
empty attribute of the template.  And in a list with a string, as in `name in ['x', $$v]`, a
variable is taken for one of the strings.  `bound_values_iff` says that this is all: every leaf
reads the values of the variables it was compiled from if and only if it is the first leaf of
its variable, or the value happens to be what the template has there.

`slot_map` is iterated in an order that is not specified; it is a parameter here.  The files of
the variables are given by the rows they decode to.
-/
namespace PipeANN.Dsl
open List CompiledFilter Option

/-! ## Binding -/

variable (template : List Attribute)

/-- `bind_row`. -/
def bindRow (order : List (Text × Nat)) (values : Text → Attribute) :
    List Attribute :=
  order.foldl (fun out p => out.set p.2 (values p.1)) template

/-- `out` in a round of `bind_batch_per_var`: the first rows are copies of the template. -/
def startRows (out : List (List Attribute)) (n : Nat) :
    List (List Attribute) :=
  if out.isEmpty then List.replicate n template else out

/-- The round of `bind_batch_per_var` for one variable; undefined where it writes past the rows
there are. -/
def bindVar (out : List (List Attribute)) (slot : Nat)
    (rows : List Attribute) : Option (List (List Attribute)) :=
  if (startRows template out rows.length).length < rows.length then none
  else some ((startRows template out rows.length).zipIdx.map fun p =>
    (rows[p.2]?).elim p.1 (p.1.set slot))

/-- `bind_batch_per_var`. -/
def bindBatchPerVar (order : List (Text × Nat))
    (rows : Text → List Attribute) : Option (List (List Attribute)) :=
  if order.isEmpty then some [template]
  else order.foldlM (fun out p => bindVar template out p.2 (rows p.1)) []

/-- Every leaf reads the value of each variable it was compiled from. -/
def ReadsValues (t : FilterTree FieldClause) (cf : CompiledFilter) (out : List Attribute)
    (value : Text → Option Attribute) : Prop :=
  ∀ p ∈ cf.selector.leaves.zip t.leaves, ∀ var ∈ p.2.vars,
    ∃ a, value var = some a ∧ out[p.1.key]? = some a

/-- **The values with which every leaf is right.**  A clause is the first one for its variable,
or the value is what the template has in its slot. -/
def Settled (clauses : List FieldClause) (value : Text → Option Attribute) : Prop :=
  ∀ i c var, clauses[i]? = some c → var ∈ c.vars →
    FirstSlot clauses var i ∨ value var = some c.slot.initial

/-- All variables with a slot have `n` rows; without any there is one row. -/
def RowCount (clauses : List FieldClause) (rows : Text → List Attribute) (n : Nat) : Prop :=
  (∀ c ∈ clauses, ∀ var, c.slot = .reserved var → (rows var).length = n) ∧
    ((∀ c ∈ clauses, ∀ var, c.slot ≠ .reserved var) → n = 1)

/-! ## One row -/

section
variable {clauses : List FieldClause} {cf : Bindings} {order : List (Text × Nat)}
  {values : Text → Attribute} {var : Text} {i : Nat} {c : FieldClause}

/-- The only variable of a clause with a reserved slot. -/
theorem FirstSlot.eq_of_mem_vars {v : Text} (h : FirstSlot clauses v i)
    (hc : clauses[i]? = some c) (hvar : var ∈ c.vars) : var = v := by
  obtain ⟨⟨d, hd, hslot⟩, -⟩ := h
  obtain rfl : d = c := some.inj (hd.symm.trans hc)
  rw [FieldClause.vars, hslot] at hvar
  exact mem_singleton.mp hvar

section
variable (h : Numbered clauses cf) (horder : order.Perm cf.slotMap)
include h horder

/-- No slot is in `slot_map` twice. -/
theorem Numbered.slots_nodup : (order.map Prod.snd).Nodup := by
  have hpairs : order.Nodup := (horder.nodup_iff).mpr (Nodup.of_map _ h.vars_nodup)
  refine Nodup.map_on (fun p hp q hq hpq => ?_) hpairs
  have hp' := (h.mem_slotMap p.1 p.2).mp (horder.subset hp)
  have hq' := (h.mem_slotMap q.1 q.2).mp (horder.subset hq)
  exact Prod.ext (hp'.var_unique (hpq ▸ hq')) hpq

/-- The first slot of a variable gets its value. -/
theorem Numbered.bindRow_first (hi : FirstSlot clauses var i) :
    (bindRow cf.attrsTemplate order values)[i]? = some (values var) := by
  have hmem : (var, i) ∈ order := horder.symm.subset ((h.mem_slotMap var i).mpr hi)
  have hlt : i < cf.attrsTemplate.length := h.length_eq ▸ hi.lt
  exact LastWrites.getElem?_foldl_set_of_nodup (h.slots_nodup horder) hmem hlt

/-- Any other slot keeps what the template has. -/
theorem Numbered.bindRow_other (hi : ∀ v, ¬ FirstSlot clauses v i) (hc : clauses[i]? = some c) :
    (bindRow cf.attrsTemplate order values)[i]? = some c.slot.initial := by
  rw [bindRow, LastWrites.getElem?_foldl_set_of_forall_ne, h.template, getElem?_map, hc]
  · rfl
  · rintro p hp rfl
    exact hi p.1 ((h.mem_slotMap p.1 p.2).mp (horder.subset hp))

/-- What a leaf reads of a variable, where the variables with a slot have their values. -/
theorem Numbered.bindRow_reads_iff {value : Text → Option Attribute}
    (hvalue : ∀ v j, FirstSlot clauses v j → value v = some (values v))
    (hc : clauses[i]? = some c) (hvar : var ∈ c.vars) :
    (∃ a, value var = some a ∧ (bindRow cf.attrsTemplate order values)[i]? = some a) ↔
      FirstSlot clauses var i ∨ value var = some c.slot.initial := by
  by_cases hfirst : ∃ v, FirstSlot clauses v i
  · obtain ⟨v, hv⟩ := hfirst
    obtain rfl := hv.eq_of_mem_vars hc hvar
    exact iff_of_true ⟨_, hvalue _ i hv, h.bindRow_first horder hv⟩ (.inl hv)
  · have hnone : ∀ v, ¬ FirstSlot clauses v i := fun v hv => hfirst ⟨v, hv⟩
    rw [h.bindRow_other horder hnone hc, or_iff_right (hnone var)]
    constructor
    · rintro ⟨a, ha, heq⟩
      rw [ha, heq]
    · intro heq
      exact ⟨_, heq, rfl⟩

end

end

/-! ## The leaves of a tree -/

variable {t : FilterTree FieldClause} {value : Text → Option Attribute}

theorem mem_zip_leaves {p : LeafSelector × FieldClause} :
    p ∈ (ofTree t).selector.leaves.zip t.leaves ↔
      ∃ i, t.leaves[i]? = some p.2 ∧ p.1 = ⟨p.2.kind, i, p.2.info.key⟩ := by
  rw [(ofTree_spec t).1, leavesOf, mem_iff_getElem?]
  constructor
  · rintro ⟨i, hi⟩
    rw [getElem?_zip_eq_some, getElem?_map] at hi
    obtain ⟨hleaf, hclause⟩ := hi
    obtain ⟨q, hq, hleaf⟩ := map_eq_some_iff.mp hleaf
    rw [getElem?_zipIdx, hclause] at hq
    cases hq
    exact ⟨i, hclause, by rw [← hleaf]; simp⟩
  · rintro ⟨i, hclause, hleaf⟩
    refine ⟨i, ?_⟩
    rw [getElem?_zip_eq_some, getElem?_map, getElem?_zipIdx, hclause]
    exact ⟨by rw [hleaf]; simp, rfl⟩

theorem readsValues_ofTree {out : List Attribute} :
    ReadsValues t (.ofTree t) out value ↔ ∀ (i : Nat) (c : FieldClause) (var : Text),
      t.leaves[i]? = some c → var ∈ c.vars → ∃ a, value var = some a ∧ out[i]? = some a := by
  constructor
  · intro h i c var hc hvar
    exact h (⟨c.kind, i, c.info.key⟩, c) (mem_zip_leaves.mpr ⟨i, hc, rfl⟩) var hvar
  · rintro h p hp var hvar
    obtain ⟨i, hc, hleaf⟩ := mem_zip_leaves.mp hp
    rw [hleaf]
    exact h i p.2 var hc hvar

/-- One row of values. -/
theorem readsValues_bindRow_iff {order : List (Text × Nat)}
    (horder : order.Perm (ofTree t).slotMap) {values : Text → Attribute}
    (hvalue : ∀ v j, FirstSlot t.leaves v j → value v = some (values v)) :
    ReadsValues t (.ofTree t) (bindRow (ofTree t).attrsTemplate order values)
        value ↔ Settled t.leaves value := by
  have hnum := (ofTree_spec t).2
  rw [readsValues_ofTree]
  exact forall_congr' fun i => forall_congr' fun c => forall_congr' fun var =>
    imp_congr_right fun hc => imp_congr_right fun hvar =>
      hnum.bindRow_reads_iff horder hvalue hc hvar

/-! ## All rows -/

section
variable {template : List Attribute} {order : List (Text × Nat)} {rows : Text → List Attribute}
    {rs : List Attribute}

theorem bindVar_eq_some {out out' : List (List Attribute)} {slot : Nat}
    (h : bindVar template out slot rs = some out') :
    rs.length ≤ out'.length ∧ out.length ≤ out'.length := by
  have hstart : out.length ≤ (startRows template out rs.length).length := by
    rw [startRows]
    split
    · next hempty =>
      rw [List.isEmpty_iff.mp hempty]
      exact Nat.zero_le _
    · exact le_rfl
  rw [bindVar] at h
  split at h
  · cases h
  · next hlen =>
    cases h
    rw [length_map, length_zipIdx]
    exact ⟨not_lt.mp hlen, hstart⟩

/-- No file has more rows than there are in the end. -/
theorem length_le_of_foldlM : ∀ {order : List (Text × Nat)} {out out' : List (List Attribute)},
    order.foldlM (fun out p => bindVar template out p.2 (rows p.1)) out = some out' →
      out.length ≤ out'.length ∧ ∀ p ∈ order, (rows p.1).length ≤ out'.length
  | [], out, out', h => by
    cases h
    exact ⟨le_rfl, fun p hp => absurd hp not_mem_nil⟩
  | p :: order, out, out', h => by
    rw [foldlM_cons] at h
    obtain ⟨out₁, h₁, h⟩ := bind_eq_some_iff.mp h
    obtain ⟨hrows, hout⟩ := bindVar_eq_some h₁
    obtain ⟨hlen, hrest⟩ := length_le_of_foldlM h
    exact ⟨hout.trans hlen, forall_mem_cons.mpr ⟨hrows.trans hlen, hrest⟩⟩

/-- The row `r` of all variables. -/
def valuesAt (rows : Text → List Attribute) (r : Nat) (var : Text) : Attribute :=
  (rows var).getD r []

theorem bindVar_range {n slot : Nat} (hrs : rs.length = n)
    (base : Nat → List Attribute) (hn : n ≠ 0) :
    bindVar template ((range n).map base) slot rs =
      some ((range n).map fun r => (base r).set slot (rs.getD r [])) := by
  have hstart : startRows template ((range n).map base) rs.length = (range n).map base := by
    refine if_neg ?_
    rw [List.isEmpty_iff, map_eq_nil_iff, range_eq_nil]
    exact hn
  rw [bindVar, hstart, if_neg (by rw [length_map, length_range]; omega), some.injEq]
  refine ext_getElem? fun r => ?_
  rw [getElem?_map, getElem?_map, getElem?_zipIdx, getElem?_map]
  rcases Nat.lt_or_ge r n with hlt | hge
  · have hget : rs[r]? = some (rs.getD r []) := by
      rw [getD_eq_getElem?_getD, getElem?_eq_getElem (hrs ▸ hlt)]
      rfl
    rw [getElem?_range hlt]
    simp only [map_some, zero_add, hget, elim_some]
  · rw [getElem?_eq_none (by simpa using hge)]
    rfl

theorem foldlM_bindVar {n : Nat} (hn : n ≠ 0) : ∀ {order : List (Text × Nat)}
    (base : Nat → List Attribute), (∀ p ∈ order, (rows p.1).length = n) →
    order.foldlM (fun out p => bindVar template out p.2 (rows p.1)) ((range n).map base) =
      some ((range n).map fun r => bindRow (base r) order (valuesAt rows r))
  | [], base, _ => rfl
  | p :: order, base, h => by
    obtain ⟨hp, horder⟩ := forall_mem_cons.mp h
    rw [foldlM_cons, bindVar_range hp base hn]
    exact foldlM_bindVar hn _ horder

/-- Files with the same number of rows. -/
theorem bindBatchPerVar_eq {n : Nat} (horder : order ≠ [])
    (h : ∀ p ∈ order, (rows p.1).length = n) :
    bindBatchPerVar template order rows =
      some ((range n).map fun r => bindRow template order (valuesAt rows r)) := by
  rw [bindBatchPerVar, if_neg (by simpa using horder)]
  rcases Nat.eq_zero_or_pos n with rfl | hpos
  · -- no rows at all
    have hnil : ∀ order : List (Text × Nat), (∀ p ∈ order, (rows p.1).length = 0) →
        order.foldlM (fun out p => bindVar template out p.2 (rows p.1)) [] = some [] := by
      intro order
      induction order with
      | nil => exact fun _ => rfl
      | cons p order ih =>
        intro h
        obtain ⟨hp, horder⟩ := forall_mem_cons.mp h
        rw [foldlM_cons, length_eq_zero_iff.mp hp]
        exact ih horder
    exact hnil order h
  · -- the first variable sets the number of rows
    obtain ⟨p, rest, rfl⟩ := exists_cons_of_ne_nil horder
    have hfirst : bindVar template [] p.2 (rows p.1) =
        bindVar template ((range n).map fun _ => template) p.2 (rows p.1) := by
      have hstart : startRows template [] (rows p.1).length =
          startRows template ((range n).map fun _ => template) (rows p.1).length := by
        rw [startRows, startRows, h p mem_cons_self]
        simp
      rw [bindVar, bindVar, hstart]
    rw [foldlM_cons, hfirst]
    have hall : (p :: rest).foldlM (fun out p => bindVar template out p.2 (rows p.1))
        ((range n).map fun _ => template) = _ :=
      foldlM_bindVar (Nat.pos_iff_ne_zero.mp hpos) (fun _ => template) h
    rwa [foldlM_cons] at hall

end

section
variable {t : FilterTree FieldClause} {order : List (Text × Nat)} {rows : Text → List Attribute}

theorem order_eq_nil_iff (horder : order.Perm (ofTree t).slotMap) :
    order = [] ↔ ∀ c ∈ t.leaves, ∀ var, c.slot ≠ .reserved var := by
  have hnum := (ofTree_spec t).2
  constructor
  · rintro rfl c hc var hslot
    obtain ⟨i, hi⟩ := exists_firstSlot hc hslot
    have hmem := horder.symm.subset ((hnum.mem_slotMap var i).mpr hi)
    exact absurd hmem not_mem_nil
  · intro h
    refine eq_nil_iff_forall_not_mem.mpr fun p hp => ?_
    obtain ⟨⟨c, hc, hslot⟩, -⟩ := (hnum.mem_slotMap p.1 p.2).mp (horder.subset hp)
    exact h c (mem_of_getElem? hc) p.1 hslot

/-- With the same number of rows everywhere, every row is bound by itself. -/
theorem RowCount.bindBatchPerVar_eq {n : Nat} (h : RowCount t.leaves rows n)
    (horder : order.Perm (ofTree t).slotMap) :
    bindBatchPerVar (ofTree t).attrsTemplate order rows = some ((range n).map fun r =>
        bindRow (ofTree t).attrsTemplate order (valuesAt rows r)) := by
  by_cases hnil : order = []
  · rw [h.2 ((order_eq_nil_iff horder).mp hnil), hnil]
    rfl
  · refine Dsl.bindBatchPerVar_eq hnil fun p hp => ?_
    have hfirst := ((ofTree_spec t).2.mem_slotMap p.1 p.2).mp (horder.subset hp)
    obtain ⟨⟨c, hc, hslot⟩, -⟩ := hfirst
    exact h.1 c (mem_of_getElem? hc) p.1 hslot

theorem RowCount.valuesAt_eq {n r : Nat} (h : RowCount t.leaves rows n) (hr : r < n) {var : Text}
    {i : Nat} (hi : FirstSlot t.leaves var i) : (rows var)[r]? = some (valuesAt rows r var) := by
  obtain ⟨⟨c, hc, hslot⟩, -⟩ := hi
  have hlen : r < (rows var).length := (h.1 c (mem_of_getElem? hc) var hslot) ▸ hr
  rw [valuesAt, getD_eq_getElem?_getD, getElem?_eq_getElem hlen]
  rfl

/-- If every row is read, then all files have the same number of rows. -/
theorem rowCount_of_reads (horder : order.Perm (ofTree t).slotMap) {out : List (List Attribute)}
    (hout : bindBatchPerVar (ofTree t).attrsTemplate order rows = some out)
    (hreads : ∀ (r : Nat) row, out[r]? = some row →
      ReadsValues t (.ofTree t) row fun v => (rows v)[r]?) : RowCount t.leaves rows out.length := by
  rw [bindBatchPerVar] at hout
  constructor
  · intro c hc var hslot
    obtain ⟨i, hi⟩ := exists_firstSlot hc hslot
    have hmem : (var, i) ∈ order := horder.symm.subset
      (((ofTree_spec t).2.mem_slotMap var i).mpr hi)
    rw [if_neg (by simpa using ne_nil_of_mem hmem)] at hout
    apply le_antisymm ((length_le_of_foldlM hout).2 _ hmem)
    -- a row beyond the file would have no value to read
    by_contra hlt
    have hrow : out[(rows var).length]? = some (out.get ⟨_, not_le.mp hlt⟩) :=
      getElem?_eq_getElem _
    obtain ⟨⟨d, hd, hdslot⟩, -⟩ := hi
    obtain ⟨a, ha, -⟩ := readsValues_ofTree.mp (hreads _ _ hrow) i d var hd
      (by rw [FieldClause.vars, hdslot]; exact mem_singleton_self var)
    rw [getElem?_eq_none le_rfl] at ha
    cases ha
  · intro hnone
    rw [(order_eq_nil_iff horder).mpr hnone] at hout
    cases hout
    rfl

/-- All rows of the variables' files. -/
theorem readsValues_bindBatch_iff (horder : order.Perm (ofTree t).slotMap)
    (rows : Text → List Attribute) :
    (∃ out, bindBatchPerVar (ofTree t).attrsTemplate order rows = some out ∧
        ∀ (r : Nat) row, out[r]? = some row → ReadsValues t (.ofTree t) row fun v => (rows v)[r]?) ↔
      ∃ n, RowCount t.leaves rows n ∧ ∀ r < n, Settled t.leaves fun v => (rows v)[r]? := by
  have hrow : ∀ {n r : Nat}, RowCount t.leaves rows n → r < n →
      (ReadsValues t (.ofTree t) (bindRow (ofTree t).attrsTemplate order
        (valuesAt rows r)) (fun v => (rows v)[r]?) ↔ Settled t.leaves fun v => (rows v)[r]?) :=
    fun hcount hr => readsValues_bindRow_iff horder fun _ _ hi => hcount.valuesAt_eq hr hi
  constructor
  · rintro ⟨out, hout, hreads⟩
    have hcount := rowCount_of_reads horder hout hreads
    refine ⟨out.length, hcount, fun r hr => (hrow hcount hr).mp (hreads r _ ?_)⟩
    have heq := hout.symm.trans (hcount.bindBatchPerVar_eq horder)
    rw [some.inj heq, getElem?_map, getElem?_range hr]
    rfl
  · rintro ⟨n, hcount, hsettled⟩
    refine ⟨_, hcount.bindBatchPerVar_eq horder, fun r row hget => ?_⟩
    rw [getElem?_map] at hget
    obtain ⟨r', hr', rfl⟩ := map_eq_some_iff.mp hget
    obtain ⟨hlt, rfl⟩ := List.getElem?_eq_some_iff.mp hr'
    rw [length_range] at hlt
    rw [getElem_range]
    exact (hrow hcount hlt).mpr (hsettled r hlt)

end

/-- **When all leaves read the values of their variables.**  For any text that compiles and any
order in which `slot_map` is iterated: after `bind_row` every leaf reads the value of each
variable it was compiled from if and only if these values are settled; and the rows of
`bind_batch_per_var` are right if and only if the files have the same number of rows, each of
which is settled. -/
theorem bound_values_iff {sql : Text} {schema : Schema} {t : FilterTree FieldClause}
    {cf : CompiledFilter} {order : List (Text × Nat)} (ht : elaborate sql schema = some t)
    (hcf : compile sql schema = some cf) (horder : order.Perm cf.slotMap) :
    (∀ values, ReadsValues t cf (bindRow cf.attrsTemplate order values)
        (fun v => some (values v)) ↔ Settled t.leaves fun v => some (values v)) ∧
    ∀ rows, (∃ out, bindBatchPerVar cf.attrsTemplate order rows = some out ∧
        ∀ (r : Nat) row, out[r]? = some row → ReadsValues t cf row fun v => (rows v)[r]?) ↔
      ∃ n, RowCount t.leaves rows n ∧ ∀ r < n, Settled t.leaves fun v => (rows v)[r]? := by
  obtain rfl : ofTree t = cf := by
    rw [compile_eq, ht] at hcf
    exact some.inj hcf
  exact ⟨fun _ => readsValues_bindRow_iff horder fun _ _ _ => rfl, readsValues_bindBatch_iff horder⟩

/-! ## A variable that occurs twice -/

/-- One label field. -/
def colourSchema : Schema := [("c".toList, ⟨0, .label, 4⟩)]

/-- A filter in which a variable occurs twice. -/
def twiceSql : Text := "c = $$v or array_contains_all(c, $$v)".toList

/-- **The second occurrence is not bound.**  With `[7]` for the variable, the second leaf reads
the empty attribute. -/
theorem second_occurrence_empty :
    (elaborate twiceSql colourSchema).map (·.leaves.map FieldClause.vars) =
        some [["v".toList], ["v".toList]] ∧
      (compile twiceSql colourSchema).map (fun cf =>
        (cf.selector.leaves.map LeafSelector.key,
          bindRow cf.attrsTemplate cf.slotMap fun _ => [7])) = some ([0, 1], [[7], []]) := by
  constructor <;> decide +kernel

theorem bound_values_twice : ∃ t cf, elaborate twiceSql colourSchema = some t ∧
    compile twiceSql colourSchema = some cf ∧
    ∀ values, ReadsValues t cf (bindRow cf.attrsTemplate cf.slotMap values)
      (fun v => some (values v)) ↔ Settled t.leaves fun v => some (values v) := by
  have hsome : (elaborate twiceSql colourSchema).isSome = true := by decide +kernel
  obtain ⟨t, ht⟩ := isSome_iff_exists.mp hsome
  have hcf : compile twiceSql colourSchema = some (.ofTree t) := by
    rw [compile_eq, ht, map_some]
  exact ⟨t, _, ht, hcf, (bound_values_iff ht hcf (Perm.refl _)).1⟩

end PipeANN.Dsl
