import PipeANN.FilterCompiler

/-! # The slots of a compiled filter

`compile_node` of `dsl_compiler.h` does two things in one pass: it decides what each leaf of
the selector tree tests, and it gives the leaf the next slot of the query attributes.  Here
they are taken apart.  `elabNode` turns the JSON form into a tree of clauses, without any
slots; `numberLeaves` walks over this tree from left to right and allocates the slots.
`compileNode_eq` says that the compiler does the one after the other.

So whatever is to be known of the slots, the template, `slot_map` and `var_field_type` follows
from the list of the clauses: the leaf at position `i` has slot `i`, the template has there
what the clause says, and `slot_map` has the position of the **first** clause for a variable
only, since `emplace` does not replace an entry (`CompiledFilter.ofTree_spec`).
-/
namespace PipeANN
open List Function Option

namespace FilterTree
variable {ℓ κ σ : Type}

/-- The leaves, from left to right. -/
def leaves : FilterTree ℓ → List ℓ
  | .leaf d => [d]
  | .and ss => leavesAll ss
  | .or ss => leavesAll ss
  | .not s _ => leaves s
where
  leavesAll : List (FilterTree ℓ) → List ℓ
    | [] => []
    | s :: rest => leaves s ++ leavesAll rest

/-- A pass over the leaves from left to right, which carries a state along. -/
def mapAccum (f : ℓ → σ → κ × σ) : FilterTree ℓ → σ → FilterTree κ × σ
  | .leaf d, x => ((f d x).1 |> .leaf, (f d x).2)
  | .and ss, x => ((mapAccumAll ss x).1 |> .and, (mapAccumAll ss x).2)
  | .or ss, x => ((mapAccumAll ss x).1 |> .or, (mapAccumAll ss x).2)
  | .not s n, x => (.not (mapAccum f s x).1 n, (mapAccum f s x).2)
where
  mapAccumAll : List (FilterTree ℓ) → σ → List (FilterTree κ) × σ
    | [], x => ([], x)
    | s :: rest, x =>
      ((mapAccum f s x).1 :: (mapAccumAll rest (mapAccum f s x).2).1,
        (mapAccumAll rest (mapAccum f s x).2).2)

/-- The same pass over a list of leaves. -/
def accumList (f : ℓ → σ → κ × σ) : List ℓ → σ → List κ × σ
  | [], x => ([], x)
  | d :: rest, x => ((f d x).1 :: (accumList f rest (f d x).2).1, (accumList f rest (f d x).2).2)

theorem accumList_append (f : ℓ → σ → κ × σ) : ∀ (ds es : List ℓ) (x : σ),
    accumList f (ds ++ es) x = ((accumList f ds x).1 ++ (accumList f es (accumList f ds x).2).1,
        (accumList f es (accumList f ds x).2).2)
  | [], es, x => rfl
  | d :: ds, es, x => by
    rw [cons_append, accumList, accumList_append f ds es]
    rfl

/-- The pass over a tree is the pass over the list of its leaves. -/
theorem mapAccum_leaves (f : ℓ → σ → κ × σ) (t : FilterTree ℓ) : ∀ x,
    ((mapAccum f t x).1.leaves, (mapAccum f t x).2) = accumList f t.leaves x := by
  have hall : ∀ (ss : List (FilterTree ℓ)),
      (∀ s ∈ ss, ∀ x, ((mapAccum f s x).1.leaves, (mapAccum f s x).2) = accumList f s.leaves x) →
      ∀ x, (leaves.leavesAll (mapAccum.mapAccumAll f ss x).1, (mapAccum.mapAccumAll f ss x).2) =
        accumList f (leaves.leavesAll ss) x := by
    intro ss
    induction ss with
    | nil => intro _ x; rfl
    | cons s rest ih =>
      intro h x
      obtain ⟨hs, hrest⟩ := forall_mem_cons.mp h
      rw [leaves.leavesAll, accumList_append, ← hs x, ← ih hrest]
      rfl
  induction t with
  | leaf d => intro x; rfl
  | and ss ih => exact hall ss ih
  | or ss ih => exact hall ss ih
  | not s n ih => exact ih

end FilterTree

namespace Dsl

/-! ## Clauses -/

/-- The attribute in the template. -/
def SlotContent.initial : SlotContent → Attribute
  | .value a => a
  | .reserved _ => []

/-- The variables that occur in a clause. -/
def FieldClause.vars (c : FieldClause) : List Text :=
  match c.slot with
  | .value _ => c.listVars
  | .reserved var => [var]

open FieldClause

/-- A clause as a leaf of its own: `compile_field_clause`, without the slot. -/
def elabClause (info : FieldInfo) (val : Json) (_ : Unit) : Option (FieldClause × Unit) :=
  (clauseOf info.type val).bind fun c => (FieldClause.mk c info).checked.map (·, ())

/-- `compile_node`, without the slots. -/
def elabNode (schema : Schema) (j : Json) : Option (FilterTree FieldClause) :=
  (compileNodeWith elabClause schema j ()).map Prod.fst

/-- `compile`, without the slots. -/
def elaborate (sql : Text) (schema : Schema) : Option (FilterTree FieldClause) :=
  match sqlToMongoJson (trimLeft sql) with
  | .error _ => none
  | .ok src => elabNode schema (Json.parse src)

variable (t : FilterTree FieldClause)

/-- Every clause gets the next slot. -/
def numberLeaves (cf : Bindings) :
    FilterTree LeafSelector × Bindings :=
  t.mapAccum FieldClause.place cf

/-! ## The compiler elaborates and numbers -/

theorem compileFieldClause_eq (info : FieldInfo) (val : Json) (cf : Bindings) :
    compileFieldClause info val cf = (elabClause info val ()).map (·.1.place cf) := by
  rw [compileFieldClause, elabClause, map_bind]
  congr 1
  funext c
  rw [comp_apply, Option.map_map]
  rfl

/-- The trees of clauses that are numbered as they are compiled. -/
theorem related_numberLeaves (schema : Schema) : Related (fun _ _ => True)
    (fun cf _ r r' => r = numberLeaves r'.1 cf) compileFieldClause elabClause schema schema := by
  have hall : ∀ {cf u rs rs'}, RelatedAll (fun cf (_ : Unit) r r' => r = numberLeaves r'.1 cf)
      cf u rs rs' → rs = FilterTree.mapAccum.mapAccumAll FieldClause.place rs'.1 cf := by
    intro cf u rs rs' h
    induction h with
    | nil => rfl
    | cons hr _ ih =>
      subst hr
      rw [ih]
      rfl
  refine ⟨fun _ => trivial, fun name => ?_, fun _ h => ?_, fun _ h => ?_, fun h => ?_⟩
  · cases schema.lookup name with
    | none => exact .none
    | some info =>
      refine .some fun val cf u _ => ?_
      rw [compileFieldClause_eq]
      cases elabClause info val u with
      | none => exact .none
      | some c => exact .some rfl
  · rw [hall h]; rfl
  · rw [hall h]; rfl
  · rw [h]; rfl

/-- **The compiler elaborates the JSON form and numbers the leaves.** -/
theorem compileNode_eq (schema : Schema) (j : Json) (cf : Bindings) :
    compileNode schema j cf = (elabNode schema j).map (numberLeaves · cf) := by
  rw [elabNode, Option.map_map]
  exact eq_map_of_rel (((related_numberLeaves schema).compileNodeWith j).1 cf () trivial)

/-- The filter of a tree of clauses. -/
def CompiledFilter.ofTree : CompiledFilter :=
  { (numberLeaves t ⟨[], [], []⟩).2 with selector := (numberLeaves t ⟨[], [], []⟩).1 }

theorem compile_eq (sql : Text) (schema : Schema) :
    compile sql schema = (elaborate sql schema).map CompiledFilter.ofTree := by
  rw [compile, elaborate]
  cases sqlToMongoJson (trimLeft sql) with
  | error e => rfl
  | ok src =>
    simp only [compileNode_eq, Option.map_map]
    rfl

/-! ## What the numbering leaves -/

/-- The clause at position `i` is the first one whose slot is reserved for `var`. -/
def FirstSlot (clauses : List FieldClause) (var : Text) (i : Nat) : Prop :=
  (∃ c, clauses[i]? = some c ∧ c.slot = .reserved var) ∧
    ∀ j < i, ∀ c, clauses[j]? = some c → c.slot ≠ .reserved var

/-- The template, `slot_map` and `var_field_type` for a list of clauses. -/
structure Numbered (clauses : List FieldClause) (cf : Bindings) : Prop where
  template : cf.attrsTemplate = clauses.map (·.slot.initial)
  vars_nodup : (cf.slotMap.map Prod.fst).Nodup
  mem_slotMap : ∀ var i, (var, i) ∈ cf.slotMap ↔ FirstSlot clauses var i
  type_eq : ∀ var i c, FirstSlot clauses var i → clauses[i]? = some c →
    cf.varFieldType.lookup var = some c.info.type
  type_none : ∀ var, (∀ c ∈ clauses, c.slot ≠ .reserved var) → cf.varFieldType.lookup var = none

section
variable {clauses : List FieldClause} {c : FieldClause} {cf : Bindings} {var : Text} {i : Nat}

theorem FirstSlot.lt (h : FirstSlot clauses var i) : i < clauses.length := by
  obtain ⟨⟨c, hc, -⟩, -⟩ := h
  exact (List.getElem?_eq_some_iff.mp hc).1

/-- A slot is reserved for one variable. -/
theorem FirstSlot.var_unique {var' : Text} (h : FirstSlot clauses var i)
    (h' : FirstSlot clauses var' i) : var = var' := by
  obtain ⟨⟨c, hc, hslot⟩, -⟩ := h
  obtain ⟨⟨c', hc', hslot'⟩, -⟩ := h'
  obtain rfl : c = c' := some.inj (hc.symm.trans hc')
  exact SlotContent.reserved.inj (hslot.symm.trans hslot')

/-- A variable for which a slot is reserved has a first slot. -/
theorem exists_firstSlot (hc : c ∈ clauses) (hslot : c.slot = .reserved var) :
    ∃ i, FirstSlot clauses var i := by
  have hex : ∃ i : Nat, ∃ c : FieldClause, clauses[i]? = some c ∧ c.slot = .reserved var := by
    obtain ⟨i, hi⟩ := mem_iff_getElem?.mp hc
    exact ⟨i, c, hi, hslot⟩
  refine ⟨Nat.find hex, Nat.find_spec hex, fun j hj d hd hres => ?_⟩
  exact Nat.find_min hex hj ⟨d, hd, hres⟩

theorem getElem?_concat_of_lt {d : FieldClause} (hi : i < clauses.length) :
    (clauses ++ [d])[i]? = clauses[i]? := getElem?_append_left hi

/-- The first slots after one more clause. -/
theorem firstSlot_concat (d : FieldClause) : FirstSlot (clauses ++ [d]) var i ↔
    FirstSlot clauses var i ∨
      i = clauses.length ∧ d.slot = .reserved var ∧ ∀ c ∈ clauses, c.slot ≠ .reserved var := by
  simp only [FirstSlot, getElem?_append, mem_iff_getElem?]
  grind

theorem numbered_nil : Numbered [] ⟨[], [], []⟩ where
  template := rfl
  vars_nodup := nodup_nil
  mem_slotMap var i := by simp [FirstSlot]
  type_eq var i c _ hc := by cases hc
  type_none _ _ := rfl

variable {β : Type} {m : List (Text × β)} {k : Text} {x : β}

theorem emplace_of_isSome {y : β} (h : m.lookup k = some y) : emplace m k x = m := by
  rw [emplace, h]
  rfl

theorem emplace_of_none (h : m.lookup k = none) : emplace m k x = m ++ [(k, x)] := by
  rw [emplace, h]
  rfl

theorem lookup_isSome (h : (k, x) ∈ m) : ∃ y, m.lookup k = some y := by
  cases hl : m.lookup k with
  | none => simpa using lookup_eq_none_iff.mp hl (k, x) h
  | some y => exact ⟨y, rfl⟩

theorem lookup_append (m : List (Text × β)) (k k' : Text) (x : β) :
    (m ++ [(k, x)]).lookup k' = (m.lookup k').or (if k' = k then some x else none) := by
  rw [List.lookup_append]
  by_cases h : k' = k
  · simp [h]
  · simp [lookup_cons, h, beq_eq_false_iff_ne.mpr h]

section
variable (h : Numbered clauses cf)
include h

theorem Numbered.length_eq : cf.attrsTemplate.length = clauses.length := by
  rw [h.template, length_map]

/-- A variable without a slot is not in `slot_map`. -/
theorem Numbered.lookup_slotMap
    (hnone : ∀ c ∈ clauses, c.slot ≠ .reserved var) : cf.slotMap.lookup var = none := by
  refine lookup_eq_none_iff.mpr fun p hp => bne_iff_ne.mpr ?_
  rintro rfl
  obtain ⟨⟨c, hc, hslot⟩, -⟩ := (h.mem_slotMap p.1 p.2).mp hp
  exact hnone c (mem_of_getElem? hc) hslot

/-- One more clause that adds nothing to the maps. -/
theorem Numbered.keep {template : List Attribute}
    (ht : template = (clauses ++ [c]).map (·.slot.initial))
    (hfirst : ∀ v i, FirstSlot (clauses ++ [c]) v i ↔ FirstSlot clauses v i) :
    Numbered (clauses ++ [c]) { cf with attrsTemplate := template } := by
  refine ⟨ht, h.vars_nodup, fun v i => ?_, fun v i d hd hget => ?_, fun v hv => ?_⟩
  · rw [hfirst]
    exact h.mem_slotMap v i
  · rw [hfirst] at hd
    rw [getElem?_concat_of_lt hd.lt] at hget
    exact h.type_eq v i d hd hget
  · exact h.type_none v fun d hd => hv d (mem_append_left _ hd)

theorem Numbered.value {a : Attribute} (hc : c.slot = .value a) :
    Numbered (clauses ++ [c]) (c.alloc cf).2 := by
  have halloc : (c.alloc cf).2 = { cf with attrsTemplate := cf.attrsTemplate ++ [a] } := by
    rw [alloc, hc]
    rfl
  rw [halloc]
  refine h.keep ?_ fun v i => ?_
  · rw [map_append, ← h.template, map_singleton, hc]
    rfl
  · grind [firstSlot_concat]

theorem Numbered.reserved (hc : c.slot = .reserved var) :
    Numbered (clauses ++ [c]) (c.alloc cf).2 := by
  have halloc : (c.alloc cf).2 = ⟨cf.attrsTemplate ++ [[]],
      emplace cf.slotMap var clauses.length, emplace cf.varFieldType var c.info.type⟩ := by
    rw [alloc, hc, ← h.length_eq]
    rfl
  have htemplate : cf.attrsTemplate ++ [[]] = (clauses ++ [c]).map (·.slot.initial) := by
    rw [map_append, ← h.template, map_singleton, hc]
    rfl
  rw [halloc]
  by_cases hnone : ∀ d ∈ clauses, d.slot ≠ .reserved var
  · -- the first slot of the variable
    have hmap := h.lookup_slotMap hnone
    have htype := h.type_none var hnone
    rw [emplace_of_none hmap, emplace_of_none htype]
    refine ⟨htemplate, ?_, fun v i => ?_, fun v i d hd hget => ?_, fun v hv => ?_⟩
    · have hnodup := h.vars_nodup
      grind
    · grind [firstSlot_concat, h.mem_slotMap]
    · rw [lookup_append]
      rcases (firstSlot_concat c).mp hd with hold | ⟨rfl, hv, -⟩
      · rw [getElem?_concat_of_lt hold.lt] at hget
        rw [h.type_eq v i d hold hget]
        rfl
      · grind
    · have hold := h.type_none v
      grind
  · -- an earlier slot keeps the variable
    obtain ⟨d, hd, hres⟩ : ∃ d ∈ clauses, d.slot = .reserved var := by
      simpa using hnone
    obtain ⟨i₀, hi₀⟩ := exists_firstSlot hd hres
    obtain ⟨y, hy⟩ := lookup_isSome ((h.mem_slotMap var i₀).mpr hi₀)
    obtain ⟨c₀, hc₀, -⟩ := hi₀.1
    rw [emplace_of_isSome hy, emplace_of_isSome (h.type_eq var i₀ c₀ hi₀ hc₀)]
    refine h.keep htemplate fun v i => ?_
    grind [firstSlot_concat]

/-- The leaves of a list of clauses: each on the slot of its position. -/
def leavesOf (clauses : List FieldClause) : List LeafSelector :=
  clauses.zipIdx.map fun p => ⟨p.1.kind, p.2, p.1.info.key⟩

/-- One more clause. -/
theorem Numbered.alloc (c : FieldClause) :
    (c.alloc cf).1 = clauses.length ∧ Numbered (clauses ++ [c]) (c.alloc cf).2 := by
  cases hc : c.slot with
  | value a =>
    refine ⟨?_, h.value hc⟩
    rw [FieldClause.alloc, hc]
    exact h.length_eq
  | reserved var =>
    refine ⟨?_, h.reserved hc⟩
    rw [FieldClause.alloc, hc]
    exact h.length_eq

end

theorem accumList_place (clauses : List FieldClause) :
    (FilterTree.accumList place clauses ⟨[], [], []⟩).1 = leavesOf clauses ∧
      Numbered clauses (FilterTree.accumList place clauses ⟨[], [], []⟩).2 := by
  induction clauses using reverseRecOn with
  | nil => exact ⟨rfl, numbered_nil⟩
  | append_singleton clauses c ih =>
    obtain ⟨hleaves, hnum⟩ := ih
    obtain ⟨hslot, hnext⟩ := hnum.alloc c
    rw [FilterTree.accumList_append]
    refine ⟨?_, hnext⟩
    rw [hleaves, leavesOf, leavesOf, zipIdx_append, map_append]
    simp only [FilterTree.accumList, place, hslot, zipIdx_singleton, map_singleton, zero_add]

end

/-- **The slots of a compiled filter.**  Its leaves are those of the clauses, each on the slot
of its position, and the bindings are those of the clauses. -/
theorem CompiledFilter.ofTree_spec :
    (ofTree t).selector.leaves = leavesOf t.leaves ∧ Numbered t.leaves (ofTree t).toBindings := by
  have hpass := FilterTree.mapAccum_leaves place t ⟨[], [], []⟩
  obtain ⟨hleaves, hnum⟩ := accumList_place t.leaves
  rw [← hpass] at hleaves hnum
  exact ⟨hleaves, hnum⟩

end Dsl
end PipeANN
