import PipeANN.FilterCompiler
import PipeANN.GuardedRuns

/-! # The cache of compiled filters

`compile_filter` (`collection_store.cpp`) compiles an expression once and keeps the result
under its text for as long as the collection lives.  What the compiler reads besides the
text is the schema, which never changes, and the number of points of the index, which does:
every `NotSelector` of the tree keeps it as `n_vectors_`.

So a kept tree differs from a fresh one only in the numbers of its `NotSelector`s.  The
complement that such a node computes ends at the old number, and the room that it reserves
is `n_vectors_ - not_vector_ids.size()`, where the ids are those of the present index: with
enough new points the difference wraps around.

`cached_eq_fresh_iff` says what is left of the promise: at any later time a kept filter is
what the compiler would give then just when it has no negation or nothing was inserted.

The attribute indexes are seen through what they list for a leaf.  That is not always what
the test of the leaf says: the string index answers an equality with all strings that start
with the one asked for.  `none` stands for an exception or an access out of bounds.
-/
namespace PipeANN
open Option (some.inj bind_eq_some_iff map_some bind_some)

open List Dsl SortedLists FilterTree

namespace FilterTree
variable {ℓ σ : Type} {ss : List (FilterTree ℓ)} {n : Nat}

/-! ## The numbers in a tree -/

/-- The tree with another number of vectors in its `NotSelector`s. -/
def retag (n : Nat) : FilterTree ℓ → FilterTree ℓ
  | .leaf d => .leaf d
  | .and ss => .and (retagAll ss)
  | .or ss => .or (retagAll ss)
  | .not s _ => .not (retag n s) n
where
  retagAll : List (FilterTree ℓ) → List (FilterTree ℓ)
    | [] => []
    | s :: rest => retag n s :: retagAll rest

/-- Every `NotSelector` of the tree was built for `n` vectors. -/
def BuiltFor (n : Nat) : FilterTree ℓ → Prop
  | .leaf _ => True
  | .and ss => builtForAll ss
  | .or ss => builtForAll ss
  | .not s nVectors => nVectors = n ∧ BuiltFor n s
where
  builtForAll : List (FilterTree ℓ) → Prop
    | [] => True
    | s :: rest => BuiltFor n s ∧ builtForAll rest

/-- Whether the tree has a `NotSelector`. -/
def hasNot : FilterTree ℓ → Bool
  | .leaf _ => false
  | .and ss => hasNotAny ss
  | .or ss => hasNotAny ss
  | .not _ _ => true
where
  hasNotAny : List (FilterTree ℓ) → Bool
    | [] => false
    | s :: rest => hasNot s || hasNotAny rest

theorem retagAll_eq (n : Nat) (ss : List (FilterTree ℓ)) :
    retag.retagAll n ss = ss.map (retag n) := by
  induction ss <;> simp [retag.retagAll, *]

theorem builtForAll_iff : BuiltFor.builtForAll n ss ↔ ∀ s ∈ ss, BuiltFor n s := by
  induction ss <;> simp [BuiltFor.builtForAll, *]

theorem hasNotAny_iff : hasNot.hasNotAny ss ↔ ∃ s ∈ ss, s.hasNot := by
  induction ss <;> simp [hasNot.hasNotAny, *]

variable (t : FilterTree ℓ)

/-- A tree built for `m` vectors is built for `n` if the two are the same, or nothing in it
depends on them. -/
theorem BuiltFor.builtFor_iff {m n : Nat} (h : t.BuiltFor m) :
    t.BuiltFor n ↔ (t.hasNot → n = m) := by
  induction t with
  | leaf d => exact iff_of_true trivial fun h => Bool.noConfusion h
  | and ss ih | or ss ih =>
    simp only [BuiltFor, hasNot, builtForAll_iff, hasNotAny_iff] at h ⊢
    grind
  | not s k ih => grind [BuiltFor, hasNot]

theorem map_retag_eq_self_iff : ss.map (retag n) = ss ↔ ∀ s ∈ ss, retag n s = s := by
  simpa only [map_id, id] using
    (map_inj_left : ss.map (retag n) = ss.map id ↔ ∀ s ∈ ss, retag n s = id s)

/-- The trees that a new number leaves alone are those built for it. -/
theorem retag_eq_self_iff : t.retag n = t ↔ t.BuiltFor n := by
  induction t with
  | leaf d => exact iff_of_true rfl trivial
  | and ss ih | or ss ih =>
    simp only [retag, retagAll_eq, and.injEq, or.injEq,
      map_retag_eq_self_iff, BuiltFor, builtForAll_iff]
    exact forall₂_congr ih
  | not s m ih =>
    rw [retag, not.injEq, BuiltFor, ih, and_comm, eq_comm]

/-! ## The sizes in a run of `pre_filter` -/

/-- No `NotSelector` of the tree meets more ids than it has vectors: the size for which it
reserves room is a difference that does not wrap around. -/
def SizesOk (leaf : ℓ → Option (List Nat)) : FilterTree ℓ → Prop
  | .leaf _ => True
  | .and ss => sizesOkAll ss
  | .or ss => sizesOkAll ss
  | .not s nVectors =>
    SizesOk leaf s ∧ ∀ notIds, s.preFilter leaf = some notIds → notIds.length ≤ nVectors
where
  sizesOkAll : List (FilterTree ℓ) → Prop
    | [] => True
    | s :: rest => SizesOk leaf s ∧ sizesOkAll rest

theorem sizesOkAll_iff {leaf : ℓ → Option (List Nat)} :
    SizesOk.sizesOkAll leaf ss ↔ ∀ s ∈ ss, SizesOk leaf s := by
  induction ss <;> simp [SizesOk.sizesOkAll, *]

open Selector (IdList)

theorem idList_inter {a b : List Nat} (ha : IdList n a) (hb : IdList n b) :
    IdList n (inter a b) := by
  obtain ⟨hsorted, hmem⟩ := inter_spec between_lt ha.1 hb.1
  exact ⟨hsorted, fun id hid => ha.2 id ((hmem id).mp hid).1⟩

theorem idList_union {a b : List Nat} (ha : IdList n a) (hb : IdList n b) :
    IdList n (union a b) := by
  obtain ⟨hsorted, hmem⟩ := union_spec between_lt ha.1 hb.1
  exact ⟨hsorted, fun id hid => ((hmem id).mp hid).elim (ha.2 id) (hb.2 id)⟩

theorem idList_complement {a : List Nat} (ha : IdList n a) : IdList n (complementFrom n 0 a) := by
  obtain ⟨hsorted, hmem⟩ := Selector.complementFrom_spec n a 0 ha.1
    fun e he => ⟨Nat.zero_le e, ha.2 e he⟩
  exact ⟨hsorted, fun id hid => ((hmem id).mp hid).2.1⟩

section Sizes
variable {n : Nat} {leaf : ℓ → Option (List Nat)}

/-- The lists of a tree are ascending lists of ids below `n`. -/
def ListsIds (n : Nat) (leaf : ℓ → Option (List Nat)) (t : FilterTree ℓ) : Prop :=
  ∀ ids, t.preFilter leaf = some ids → IdList n ids

theorem idList_preFilterAnd : ∀ {ss : List (FilterTree ℓ)} {ret ids : List Nat},
    (∀ s ∈ ss, ListsIds n leaf s) → IdList n ret →
    preFilter.preFilterAnd leaf ret ss = some ids → IdList n ids
  | [], ret, ids, _, hret, h => some.inj h ▸ hret
  | s :: rest, ret, ids, hss, hret, h => by
    obtain ⟨hs, hrest⟩ := forall_mem_cons.mp hss
    obtain ⟨cur, hcur, h⟩ := bind_eq_some_iff.mp h
    exact idList_preFilterAnd hrest (idList_inter hret (hs cur hcur)) h

theorem idList_preFilterOr : ∀ {ss : List (FilterTree ℓ)} {ret ids : List Nat},
    (∀ s ∈ ss, ListsIds n leaf s) → IdList n ret →
    preFilter.preFilterOr leaf ret ss = some ids → IdList n ids
  | [], ret, ids, _, hret, h => some.inj h ▸ hret
  | s :: rest, ret, ids, hss, hret, h => by
    obtain ⟨hs, hrest⟩ := forall_mem_cons.mp hss
    obtain ⟨cur, hcur, h⟩ := bind_eq_some_iff.mp h
    exact idList_preFilterOr hrest (idList_union hret (hs cur hcur)) h

/-- Over leaves that list ids below `n`, a tree built for `n` vectors lists ids below `n`. -/
theorem BuiltFor.listsIds (hleaf : ∀ d ids, leaf d = some ids → IdList n ids)
    (t : FilterTree ℓ) : t.BuiltFor n → ListsIds n leaf t := by
  induction t with
  | leaf d => exact fun _ => hleaf d
  | and ss ih =>
    intro hbuilt ids hids
    have hss : ∀ s ∈ ss, ListsIds n leaf s := fun s hs =>
      ih s hs (builtForAll_iff.mp hbuilt s hs)
    cases ss with
    | nil => cases hids
    | cons s rest =>
      obtain ⟨hs, hrest⟩ := forall_mem_cons.mp hss
      obtain ⟨ret, hret, hids⟩ := bind_eq_some_iff.mp hids
      exact idList_preFilterAnd hrest (hs ret hret) hids
  | or ss ih =>
    intro hbuilt ids hids
    have hss : ∀ s ∈ ss, ListsIds n leaf s := fun s hs =>
      ih s hs (builtForAll_iff.mp hbuilt s hs)
    exact idList_preFilterOr hss ⟨Pairwise.nil, by simp⟩ hids
  | not s m ih =>
    rintro ⟨rfl, hbuilt⟩ ids hids
    obtain ⟨notIds, hnot, hids⟩ := bind_eq_some_iff.mp hids
    obtain ⟨-, ⟨⟩⟩ := Option.ite_none_left_eq_some.mp hids
    exact idList_complement (ih hbuilt notIds hnot)

/-- **No size wraps around** in a tree that was built for the present number of vectors. -/
theorem BuiltFor.sizesOk (hleaf : ∀ d ids, leaf d = some ids → IdList n ids)
    (t : FilterTree ℓ) : t.BuiltFor n → t.SizesOk leaf := by
  induction t with
  | leaf d => exact fun _ => trivial
  | and ss ih | or ss ih =>
    exact fun hbuilt => sizesOkAll_iff.mpr fun s hs => ih s hs (builtForAll_iff.mp hbuilt s hs)
  | not s m ih =>
    rintro ⟨rfl, hbuilt⟩
    exact ⟨ih hbuilt, fun notIds hnot =>
      length_le_of_idList (BuiltFor.listsIds hleaf s hbuilt notIds hnot)⟩

end Sizes

/-! ## What a search asks of a tree

A search first estimates the selectivities, which sorts the branches of every `AndSelector`
from low to high.  Its `pre_filter` is not strict: an `AndSelector` skips its branches of
high selectivity, other than the first.  So it is the strict one on the tree without these
branches. -/

section Speculative
variable (ops : SelectivityOps σ) (sel : ℓ → σ)

/-- The branches of an `AndSelector` that are not skipped, in the order of their
selectivities. -/
def keptBranches (branches : List (σ × FilterTree ℓ)) : List (FilterTree ℓ) :=
  match branches.insertionSort (fun a b => !ops.lt b.1 a.1) with
  | [] => []
  | first :: rest => first.2 :: (rest.filter fun b => !ops.high b.1).map Prod.snd

/-- `estimate_selectivity`: the estimate, and the part of the tree that `pre_filter` uses
then. -/
def speculate : FilterTree ℓ → σ × FilterTree ℓ
  | .leaf d => (sel d, .leaf d)
  | .and ss =>
    let branches := speculateAll ss
    (branches.foldl (fun acc b => ops.mul acc b.1) ops.one, .and (keptBranches ops branches))
  | .or ss =>
    let branches := speculateAll ss
    (branches.foldl (fun acc b => ops.add acc b.1) ops.zero, .or (branches.map Prod.snd))
  | .not s nVectors =>
    let child := speculate s
    (ops.sub ops.one child.1, .not child.2 nVectors)
where
  speculateAll : List (FilterTree ℓ) → List (σ × FilterTree ℓ)
    | [] => []
    | s :: rest => speculate s :: speculateAll rest

/-- `is_member_approx` after `prepare_in_filter`: the leaves answer from memory, a
`NotSelector` looks into the list of its own `pre_filter`. -/
def isMemberApprox (leaf : ℓ → Option (List Nat)) (approx : ℓ → Nat → Bool) (id : Nat) :
    FilterTree ℓ → Option Bool
  | .leaf d => some (approx d id)
  | .and ss => approxAll ss
  | .or ss => approxAny ss
  | .not s nVectors =>
    ((speculate ops sel (.not s nVectors)).2.preFilter leaf).map fun ids => binarySearch ids id
where
  approxAll : List (FilterTree ℓ) → Option Bool
    | [] => some true
    | s :: rest =>
      (isMemberApprox leaf approx id s).bind fun b => if b then approxAll rest else some false
  approxAny : List (FilterTree ℓ) → Option Bool
    | [] => some false
    | s :: rest =>
      (isMemberApprox leaf approx id s).bind fun b => if b then some true else approxAny rest

variable {ops sel}

theorem mem_keptBranches {branches : List (σ × FilterTree ℓ)} {s : FilterTree ℓ}
    (hs : s ∈ keptBranches ops branches) : ∃ b ∈ branches, b.2 = s := by
  rw [keptBranches] at hs
  split at hs
  next => cases hs
  next first rest heq =>
    have hmem : ∀ b ∈ first :: rest, b ∈ branches := fun b hb =>
      (mem_insertionSort _).mp (heq ▸ hb)
    grind

theorem mem_speculateAll {ss : List (FilterTree ℓ)} {b : σ × FilterTree ℓ}
    (hb : b ∈ speculate.speculateAll ops sel ss) : ∃ s ∈ ss, speculate ops sel s = b := by
  induction ss <;> grind [speculate.speculateAll]

/-- Skipping branches changes no number. -/
theorem BuiltFor.speculate {n : Nat} : t.BuiltFor n → (speculate ops sel t).2.BuiltFor n := by
  induction t with
  | leaf d => exact id
  | and ss ih =>
    refine fun hbuilt => builtForAll_iff.mpr fun s hs => ?_
    obtain ⟨b, hb, rfl⟩ := mem_keptBranches hs
    obtain ⟨branch, hbranch, rfl⟩ := mem_speculateAll hb
    exact ih branch hbranch (builtForAll_iff.mp hbuilt branch hbranch)
  | or ss ih =>
    refine fun hbuilt => builtForAll_iff.mpr fun s hs => ?_
    obtain ⟨b, hb, rfl⟩ := mem_map.mp hs
    obtain ⟨branch, hbranch, rfl⟩ := mem_speculateAll hb
    exact ih branch hbranch (builtForAll_iff.mp hbuilt branch hbranch)
  | not s m ih => exact fun hbuilt => ⟨hbuilt.1, ih hbuilt.2⟩

end Speculative
end FilterTree

/-! ## What the compiler does with the number of points -/

namespace Dsl

/-- The schema for another number of points. -/
def Schema.withCount (schema : Schema) (n : Nat) : Schema :=
  schema.map fun f => (f.1, { f.2 with nVectors := n })

variable {schema : Schema} {n : Nat}

theorem schemaNVectors_withCount (h : schema ≠ []) (n : Nat) :
    schemaNVectors (schema.withCount n) = n := by
  cases schema with
  | nil => exact absurd rfl h
  | cons f rest => rfl

theorem lookup_withCount (n : Nat) (name : Text) : (schema.withCount n).lookup name
      = (schema.lookup name).map fun info => { info with nVectors := n } := by
  induction schema with
  | nil => rfl
  | cons f rest ih =>
    change List.lookup name ((f.1, _) :: Schema.withCount rest n) = _
    rw [lookup_cons, lookup_cons, ih]
    cases name == f.1 <;> rfl

/-- A result with the numbers of its tree changed. -/
def retagResult (n : Nat) (r : FilterTree LeafSelector × Bindings) :
    FilterTree LeafSelector × Bindings := (r.1.retag n, r.2)

theorem compileFieldClause_withCount (n : Nat) (info : FieldInfo) (val : Json) (cf : Bindings) :
    compileFieldClause { info with nVectors := n } val cf = compileFieldClause info val cf := by
  refine congrArg (Option.bind _) (funext fun c => ?_)
  obtain ⟨op, slot, vars⟩ := c
  obtain ⟨key, type, count⟩ := info
  cases op <;> cases type <;> rfl

theorem related_withCount (hne : schema ≠ []) (n : Nat) : Related Eq
    (fun _ _ r r' => r = retagResult n r') compileFieldClause compileFieldClause
    (schema.withCount n) schema := by
  have hall : ∀ {x x' rs rs'}, x = x' →
      RelatedAll (fun _ _ r r' => r = retagResult n r') x x' rs rs' →
      rs = (retag.retagAll n rs'.1, rs'.2) := by
    intro x x' rs rs' hx h
    induction h with
    | nil => rw [hx]; rfl
    | cons hr _ ih =>
      subst hr
      rw [ih rfl]
      rfl
  refine ⟨fun h => h ▸ rfl, fun name => ?_, fun hx h => ?_, fun hx h => ?_, fun h => ?_⟩
  · rw [lookup_withCount]
    cases schema.lookup name with
    | none => exact .none
    | some info =>
      refine .some fun val x x' hx => ?_
      rw [compileFieldClause_withCount, hx]
      cases compileFieldClause info val x' with
      | none => exact .none
      | some c => exact .some rfl
  · rw [hall hx h]; rfl
  · rw [hall hx h]; rfl
  · rw [h, schemaNVectors_withCount hne]; rfl

/-- **A filter compiled for another number of points** has the same tree up to that number,
and the same bindings. -/
theorem compile_withCount (hne : schema ≠ []) (n : Nat) (sql : Text) :
    compile sql (schema.withCount n)
      = (compile sql schema).map fun cf => { cf with selector := cf.selector.retag n } := by
  unfold compile
  split
  · rfl
  · rw [compileNode, eq_map_of_rel (((related_withCount hne n).compileNodeWith _).1 _ _ rfl),
      Option.map_map, Option.map_map]
    rfl

theorem withCount_withCount (m n : Nat) :
    (schema.withCount m).withCount n = schema.withCount n := by
  rw [Schema.withCount, Schema.withCount, map_map]
  rfl

theorem withCount_ne_nil (h : schema ≠ []) (n : Nat) : schema.withCount n ≠ [] := by
  rwa [Schema.withCount, ne_eq, map_eq_nil_iff]

/-- A filter is built for the number of points it is compiled for. -/
theorem builtFor_of_compile (hne : schema ≠ []) {sql : Text} {cf : CompiledFilter}
    (h : compile sql (schema.withCount n) = some cf) : cf.selector.BuiltFor n := by
  have hagain := compile_withCount (withCount_ne_nil hne n) n sql
  rw [withCount_withCount, h, map_some, Option.some.injEq] at hagain
  exact (retag_eq_self_iff _).mp (congrArg CompiledFilter.selector hagain).symm

/-! ## What the leaves list -/

/-- `strcmp` finds the end of a string attribute: it is empty or has a NUL byte. -/
def terminated (a : Attribute) : Bool := a.isEmpty || (a.flatMap wordBytes).contains '\x00'

/-- Whether an index can list for a query.  An interval whose ends are in the wrong order is
copied as a range of negative length. -/
def LeafKind.queryDefined (query : Attribute) : LeafKind → Bool
  | .labelOr | .labelAnd => true
  | .range =>
    match query with
    | [] => false
    | [l] => l < l + 1
    | l :: r :: _ => l ≤ r
  | .stringEq | .stringPrefix | .stringSuffix | .stringLike =>
    (records (query.length + 1) query).all terminated

/-- Whether an index can hold a key.  There is no list for the label `UINT32_MAX`. -/
def LeafKind.keyDefined (target : Attribute) : LeafKind → Bool
  | .labelOr | .labelAnd => !target.contains 4294967295
  | .range => !target.isEmpty
  | .stringEq | .stringPrefix | .stringSuffix | .stringLike => terminated target

/-- **What a leaf lists.**  For an equality, the string index looks up all strings that start
with the record; a list of labels that is empty has no vectors, for `pre_filter_and` too.
`LIKE` stands by its test here. -/
def LeafKind.listTest (query target : Attribute) : LeafKind → Option Bool
  | .labelAnd => some (!query.isEmpty && query.all fun label => target.contains label)
  | .stringEq => LeafKind.test query target .stringPrefix
  | kind => kind.test query target

/-- How often a row is listed.  A label that a row has twice lists it twice, until the delta is
merged; a union of lists keeps the larger number and an intersection the smaller. -/
def LeafKind.times (query target : Attribute) : LeafKind → Nat
  | .labelOr => (query.map (target.count ·)).max?.getD 0
  | .labelAnd => (query.map (target.count ·)).min?.getD 0
  | _ => 1

/-- Labels are not repeated. -/
def LeafKind.once (target : Attribute) : LeafKind → Bool
  | .labelOr | .labelAnd => target.Nodup
  | _ => true

theorem LeafKind.times_eq_one {kind : LeafKind} {query target : Attribute}
    (honce : kind.once target) (h : kind.listTest query target = some true) :
    kind.times query target = 1 := by
  have hcount : target.Nodup → ∀ b ∈ query.map (target.count ·), b ≤ 1 := fun hnodup =>
    forall_mem_map.mpr fun label _ => nodup_iff_count_le_one.mp hnodup label
  have hone : target.Nodup → ∀ label ∈ target, target.count label = 1 := fun hnodup _ =>
    count_eq_one_of_mem hnodup
  cases kind with
  | labelOr =>
    obtain ⟨label, hlabel, hmem⟩ := any_eq_true.mp (some.inj h)
    have hnodup := of_decide_eq_true honce
    have hmax : (query.map (target.count ·)).max? = some 1 := max?_eq_some_iff.mpr
      ⟨mem_map.mpr ⟨label, hlabel, hone hnodup label (contains_iff_mem.mp hmem)⟩, hcount hnodup⟩
    rw [times, hmax, Option.getD_some]
  | labelAnd =>
    obtain ⟨hne, hall⟩ := Bool.and_eq_true_iff.mp (some.inj h)
    have hnodup := of_decide_eq_true honce
    have hall : ∀ label ∈ query, target.count label = 1 := fun label hlabel =>
      hone hnodup label (contains_iff_mem.mp (all_eq_true.mp hall label hlabel))
    obtain ⟨label, hlabel⟩ := exists_mem_of_ne_nil query (by simpa using hne)
    have hmin : (query.map (target.count ·)).min? = some 1 := min?_eq_some_iff.mpr
      ⟨mem_map.mpr ⟨label, hlabel, hall label hlabel⟩,
        forall_mem_map.mpr fun label hlabel => (hall label hlabel).ge⟩
    rw [times, hmin, Option.getD_some]
  | _ => rfl

/-- Whether `pre_filter` of a leaf lists a row. -/
def LeafSelector.lists (queryAttrs : List Attribute) (targetAttrs : Attributes)
    (d : LeafSelector) : Option Bool :=
  match targetAttrs.lookup d.baseKey with
  | none => some false
  | some target => (queryAttrs[d.key]?).bind fun query => d.kind.listTest query target

end Dsl

/-! ## A collection with its cache -/

/-- A built collection, as its filters see it. -/
structure CachedIndex where
  schema : Schema
  /-- Filters are compiled for collections with scalar fields only. -/
  schema_ne : schema ≠ []
  /-- `rewrite_float_literals`, which depends on the fields only. -/
  rewriteFloatLiterals : Text → Text
  /-- The tag and the attributes of each id. -/
  rows : List (Nat × Attributes)
  deleted : List Nat
  compileCache : List (Text × CompiledFilter)

/-- How `spec_filter_search` uses the selector. -/
inductive SearchMode where
  | preFilter
  | inFilter
  | postFilter

/-- What a search has besides the selector: the estimates of the leaves and the answers of
their filters in memory, the mode that its cost model takes, the nearest of a list of
candidates, and the traversal of the graph with a test for the neighbours to visit.  None of
these reads the number of vectors in a selector. -/
structure SearchEngine (σ : Type) where
  ops : SelectivityOps σ
  estimate : List Attribute → LeafSelector → σ
  approx : List Attribute → LeafSelector → Nat → Bool
  mode : SearchMode
  nearest : List Nat → List Nat
  traverse : (Nat → Option Bool) → Option (List Nat)
  topk : Nat

/-- The calls. -/
inductive CacheCall where
  | insert (rows : List (Nat × Attributes))
  | remove (tags : List Nat)
  | compileFilter (sql : Text)

namespace CachedIndex
variable (s : CachedIndex)

/-- `npoints`. -/
def npoints : Nat := s.rows.length

/-- `build_dsl_schema`. -/
def buildDslSchema : Schema := s.schema.withCount s.npoints

/-- The expression compiled now. -/
def fresh (sql : Text) : Option CompiledFilter :=
  compile (s.rewriteFloatLiterals sql) s.buildDslSchema

/-- `compile_filter`. -/
def compileFilter (sql : Text) : Option (CompiledFilter × CachedIndex) :=
  match s.compileCache.lookup sql with
  | some cf => some (cf, s)
  | none => (s.fresh sql).map fun cf =>
    (cf, { s with compileCache := (sql, cf) :: s.compileCache })

/-- One call.  A filter that does not compile is reported and not kept. -/
def step (s : CachedIndex) : CacheCall → Option CachedIndex
  | .insert rows => some { s with rows := s.rows ++ rows }
  | .remove tags => some { s with deleted := s.deleted ++ tags }
  | .compileFilter sql => some ((s.compileFilter sql).elim s Prod.snd)

/-- `id2tag`: an id without a tag is its own tag. -/
def id2tag (id : Nat) : Nat := (s.rows[id]?.map Prod.fst).getD id

variable (queryAttrs : List Attribute) (d : LeafSelector)

/-- Whether a leaf lists an id. -/
def leafHolds (id : Nat) : Bool :=
  (s.rows[id]?.bind fun row => d.lists queryAttrs row.2) = some true

/-- How often. -/
def leafTimes (id : Nat) : Nat :=
  ((s.rows[id]?.bind (·.2.lookup d.baseKey)).bind fun target =>
    (queryAttrs[d.key]?).map (d.kind.times · target)).getD 0

/-- Whether there is an index for a leaf, which can list for its query. -/
def leafDefined : Bool :=
  s.schema.any (fun f => f.2.key == d.baseKey && f.2.type == d.kind.indexType) &&
    (queryAttrs[d.key]?).any (d.kind.queryDefined ·) &&
      s.rows.all fun row => (row.2.lookup d.baseKey).all (d.kind.keyDefined ·)

/-- `pre_filter` of a leaf. -/
def leafIds : Option (List Nat) :=
  if s.leafDefined queryAttrs d then
    some (((List.range s.npoints).filter (s.leafHolds queryAttrs d)).flatMap fun id =>
      replicate (s.leafTimes queryAttrs d id) id)
  else none

/-- No row gives a label twice. -/
def LabelsOnce : Prop :=
  ∀ f ∈ s.schema, f.2.type = .label → ∀ row ∈ s.rows, ∀ target ∈ row.2.lookup f.2.key, target.Nodup

/-- `filter_only`; the limit `0` is no limit. -/
def filterOnly (cf : CompiledFilter) (limit : Nat) : Option (List Nat) :=
  (cf.selector.preFilter (s.leafIds cf.attrsTemplate)).map fun ids =>
    (if 0 < limit then ids.take limit else ids).map s.id2tag

/-- `is_member` on the record of an id. -/
def isMember (cf : CompiledFilter) (id : Nat) : Bool :=
  (s.rows[id]?.bind fun row => cf.isMember row.2) = some true

/-- The ids that a search reads from disk. -/
def candidates {σ : Type} (e : SearchEngine σ) (cf : CompiledFilter) : Option (List Nat) :=
  let leaf := s.leafIds cf.attrsTemplate
  let estimate := e.estimate cf.attrsTemplate
  match e.mode with
  | .preFilter => ((cf.selector.speculate e.ops estimate).2.preFilter leaf).map e.nearest
  | .inFilter => e.traverse fun id =>
    cf.selector.isMemberApprox e.ops estimate leaf (e.approx cf.attrsTemplate) id
  | .postFilter => e.traverse fun _ => some true

/-- `search`: of what it reads, the members that are not deleted. -/
def search {σ : Type} (e : SearchEngine σ) (cf : CompiledFilter) : Option (List Nat) :=
  (s.candidates e cf).map fun ids =>
    (((ids.filter (s.isMember cf)).map s.id2tag).filter (· ∉ s.deleted)).take e.topk

variable {s}

/-- Without repeated labels, the rows that a leaf lists are listed once. -/
theorem leafIds_eq {queryAttrs : List Attribute} {d : LeafSelector}
    (hdefined : s.leafDefined queryAttrs d)
    (honce : ∀ row ∈ s.rows, (row.2.lookup d.baseKey).all (d.kind.once ·)) :
    s.leafIds queryAttrs d = some ((range s.npoints).filter (s.leafHolds queryAttrs d)) := by
  have htimes : ∀ id ∈ (range s.npoints).filter (s.leafHolds queryAttrs d),
      replicate (s.leafTimes queryAttrs d id) id = [id] := by
    intro id hid
    have hholds := of_decide_eq_true (mem_filter.mp hid).2
    obtain ⟨row, hrow, hlists⟩ := bind_eq_some_iff.mp hholds
    have honce := honce row (mem_of_getElem? hrow)
    rw [leafTimes, hrow, bind_some]
    rw [LeafSelector.lists] at hlists
    cases htarget : row.2.lookup d.baseKey with
    | none =>
      rw [htarget] at hlists
      cases hlists
    | some target =>
      rw [htarget] at hlists honce
      obtain ⟨query, hquery, htest⟩ := bind_eq_some_iff.mp hlists
      rw [bind_some, hquery, map_some, Option.getD_some, LeafKind.times_eq_one honce htest]
      rfl
  rw [leafIds, if_pos hdefined, flatMap_congr htimes, flatMap_singleton']

theorem idList_leafIds (honce : s.LabelsOnce) {queryAttrs : List Attribute} {d : LeafSelector}
    {ids : List Nat} (h : s.leafIds queryAttrs d = some ids) : Selector.IdList s.npoints ids := by
  have hdefined := (Option.ite_none_right_eq_some.mp h).1
  rw [leafIds_eq hdefined fun row hrow => ?_] at h
  · cases h
    exact ⟨pairwise_lt_range.filter _, fun id hid => mem_range.mp (mem_of_mem_filter hid)⟩
  · rw [leafDefined, Bool.and_assoc, Bool.and_eq_true, any_eq_true] at hdefined
    obtain ⟨⟨f, hf, hf'⟩, -⟩ := hdefined
    obtain ⟨hkey, htype⟩ := Bool.and_eq_true_iff.mp hf'
    have hnodup : d.kind.indexType = .label → ∀ target ∈ row.2.lookup d.baseKey, target.Nodup :=
      fun hlabel => beq_iff_eq.mp hkey ▸ honce f hf ((beq_iff_eq.mp htype).trans hlabel) row hrow
    refine (Option.all_eq_true _ _).mpr fun target htarget => ?_
    cases hkind : d.kind with
    | labelOr | labelAnd => exact decide_eq_true (hnodup (by rw [hkind]; rfl) target htarget)
    | _ => rfl

/-! ## Kept filters -/

/-- What a run keeps of a filter that was compiled in `s₁`: it stays in the cache, and the
schema that fresh filters are compiled for changes in its number only. -/
structure Keeps (s₁ : CachedIndex) (sql : Text) (cf : CompiledFilter) (s : CachedIndex) : Prop where
  schema : s.schema = s₁.schema
  rewriteFloatLiterals : s.rewriteFloatLiterals = s₁.rewriteFloatLiterals
  cached : s.compileCache.lookup sql = some cf

section Kept
variable {s₁ s₂ s' : CachedIndex} {sql : Text} {cf : CompiledFilter}

theorem compileFilter_of_cached (h : s.compileCache.lookup sql = some cf) :
    s.compileFilter sql = some (cf, s) := by
  rw [compileFilter, h]

theorem compileFilter_of_new (h : s.compileCache.lookup sql = none) :
    s.compileFilter sql = (s.fresh sql).map fun cf =>
      (cf, { s with compileCache := (sql, cf) :: s.compileCache }) := by
  rw [compileFilter, h]

/-- A filter that is compiled is kept. -/
theorem keeps_compileFilter (hnew : s₁.compileCache.lookup sql = none)
    (hc : s₁.compileFilter sql = some (cf, s₂)) : Keeps s₁ sql cf s₂ := by
  rw [compileFilter_of_new hnew, Option.map_eq_some_iff] at hc
  obtain ⟨cf', -, hpair⟩ := hc
  obtain ⟨rfl, rfl⟩ := Prod.mk.inj hpair
  exact ⟨rfl, rfl, lookup_cons_self⟩

/-- No call drops or replaces a kept filter. -/
theorem Keeps.step (h : Keeps s₁ sql cf s) {call : CacheCall} (hstep : s.step call = some s') :
    Keeps s₁ sql cf s' := by
  cases call with
  | insert | remove =>
    cases hstep
    exact { h with }
  | compileFilter other =>
    cases hstep
    cases hother : s.compileCache.lookup other with
    | some cf' =>
      rw [compileFilter_of_cached hother]
      exact h
    | none =>
      rw [compileFilter_of_new hother]
      cases s.fresh other with
      | none => exact h
      | some cf' =>
        -- the new entry is for another text, since this one was found
        have hne : sql ≠ other := fun he => by cases hother.symm.trans (he ▸ h.cached)
        refine { h with cached := Eq.trans ?_ h.cached }
        exact lookup_cons.trans (by rw [beq_false_of_ne hne])

/-- **A kept filter and a fresh one** differ in the numbers of their trees only. -/
theorem Keeps.fresh_eq (h : Keeps s₁ sql cf s) (hc : s₁.fresh sql = some cf) :
    s.fresh sql = some { cf with selector := cf.selector.retag s.npoints } := by
  have hbase := compile_withCount (withCount_ne_nil s₁.schema_ne s₁.npoints) s.npoints
  rw [withCount_withCount] at hbase
  rw [fresh, buildDslSchema, h.schema, h.rewriteFloatLiterals, hbase]
  change (s₁.fresh sql).map _ = _
  rw [hc, map_some]

section
variable (hnew : s₁.compileCache.lookup sql = none) (hc : s₁.compileFilter sql = some (cf, s₂))
include hnew hc

theorem fresh_of_compileFilter : s₁.fresh sql = some cf := by
  rw [compileFilter_of_new hnew, Option.map_eq_some_iff] at hc
  obtain ⟨cf', hfresh, hpair⟩ := hc
  rw [hfresh, (Prod.mk.inj hpair).1]

/-- **Kept filters.**  A filter that was compiled in `s₁` is handed out at every later time.
It is what the compiler gives at that time just when it has no negation or the number of
points is still the same; then `filter_only` and every search through it give what they give
through the fresh one, and if no row gives a label twice, then no size in a `pre_filter`, strict
or not, wraps around. -/
theorem cached_eq_fresh_iff (h : Reach CachedIndex.step anyStep s₂ s) :
    s.compileFilter sql = some (cf, s) ∧ ∃ fresh, s.fresh sql = some fresh ∧
      (cf = fresh ↔ (cf.selector.hasNot = true → s.npoints = s₁.npoints)) ∧
      ((cf.selector.hasNot = true → s.npoints = s₁.npoints) →
        (∀ limit, s.filterOnly cf limit = s.filterOnly fresh limit) ∧
        (∀ (σ : Type) (e : SearchEngine σ), s.search e cf = s.search e fresh) ∧
        (s.LabelsOnce → cf.selector.SizesOk (s.leafIds cf.attrsTemplate) ∧
          ∀ (σ : Type) (ops : SelectivityOps σ) (estimate : LeafSelector → σ),
            (cf.selector.speculate ops estimate).2.SizesOk (s.leafIds cf.attrsTemplate))) := by
  have hkeeps : Keeps s₁ sql cf s :=
    h.invariant (keeps_compileFilter hnew hc) fun _ _ _ hs _ hstep => hs.step hstep
  have hfresh₁ := fresh_of_compileFilter hnew hc
  have hbuilt₁ : cf.selector.BuiltFor s₁.npoints := builtFor_of_compile s₁.schema_ne hfresh₁
  have hiff : cf.selector.BuiltFor s.npoints ↔
      (cf.selector.hasNot = true → s.npoints = s₁.npoints) :=
    FilterTree.BuiltFor.builtFor_iff cf.selector hbuilt₁
  have hsame : cf = { cf with selector := cf.selector.retag s.npoints } ↔
      cf.selector.BuiltFor s.npoints := by
    rw [← retag_eq_self_iff]
    constructor
    · exact fun heq => (congrArg CompiledFilter.selector heq).symm
    · intro heq
      rw [heq]
  refine ⟨compileFilter_of_cached hkeeps.cached, _, hkeeps.fresh_eq hfresh₁, hsame.trans hiff,
    fun hcond => ?_⟩
  have hbuilt := hiff.mpr hcond
  rw [← hsame.mpr hbuilt]
  refine ⟨fun _ => rfl, fun _ _ => rfl, fun honce => ?_⟩
  have hsizes : ∀ t : FilterTree LeafSelector, t.BuiltFor s.npoints →
      t.SizesOk (s.leafIds cf.attrsTemplate) :=
    FilterTree.BuiltFor.sizesOk fun _ _ => idList_leafIds honce
  exact ⟨hsizes _ hbuilt, fun _ _ _ => hsizes _ (FilterTree.BuiltFor.speculate _ hbuilt)⟩

end

end Kept

/-! ## A negation over more points than it knows -/

/-- A collection with a number field `x`, of two rows with `x = 1`. -/
def twoRows : CachedIndex where
  schema := [(['x'], ⟨0, .range, 2⟩)]
  schema_ne := cons_ne_nil _ _
  rewriteFloatLiterals := id
  rows := [(10, [(0, [1])]), (11, [(0, [1])])]
  deleted := []
  compileCache := []

/-- `x = 1`. -/
def isOne : Text := ['x', '=', '1']

/-- `x != 1`. -/
def isNotOne : Text := ['x', '!', '=', '1']

/-- A search that reads all candidates of `pre_filter`. -/
def readAll : SearchEngine Nat where
  ops := Selector.percent
  estimate _ _ := 10
  approx _ _ _ := true
  mode := .preFilter
  nearest := id
  traverse _ := some []
  topk := 10

/-- `x != 1`, compiled for `n` points. -/
def notOne (n : Nat) : CompiledFilter := ⟨⟨[[1, 2]], [], []⟩, .not (.leaf ⟨.range, 0, 0⟩) n⟩

theorem fresh_isNotOne : twoRows.fresh isNotOne = some (notOne 2) := by rfl

/-- `x = 1` is kept, a row is inserted and another deleted: it works like a fresh filter. -/
theorem cached_eq_fresh_isOne : ∃ cf s₂ s, twoRows.compileFilter isOne = some (cf, s₂) ∧
      runSteps step s₂ [.insert [(12, [(0, [1])])], .remove [10]] = some s ∧
      ∃ fresh, s.fresh isOne = some fresh ∧ cf = fresh ∧
        ∀ limit, s.filterOnly cf limit = s.filterOnly fresh limit := by
  have hc : twoRows.compileFilter isOne = (twoRows.fresh isOne).map _ := compileFilter_of_new rfl
  refine ⟨_, _, _, hc, rfl, ?_⟩
  obtain ⟨-, fresh, hfresh, hiff, hsame⟩ := cached_eq_fresh_iff rfl hc
    (.of_run (l := [.insert [(12, [(0, [1])])], .remove [10]]) rfl)
  have hnot : ∀ n : Nat, (leaf (⟨.range, 0, 0⟩ : LeafSelector)).hasNot = true → 3 = n :=
    fun _ h => Bool.noConfusion h
  exact ⟨fresh, hfresh, hiff.mpr (hnot _), (hsame (hnot _)).1⟩

/-- `x != 1` is kept.  A row with `x = 2` is inserted: `filter_only` and a search through the
kept filter miss it.  A row with `x = 1` is inserted instead: the size wraps around. -/
theorem negation_outgrown : ∃ cf s₂, twoRows.compileFilter isNotOne = some (cf, s₂) ∧
      (∃ s fresh, runSteps step s₂ [.insert [(12, [(0, [2])])]] = some s ∧
        s.fresh isNotOne = some fresh ∧
        s.filterOnly cf 0 = some [] ∧ s.filterOnly fresh 0 = some [12] ∧
        s.search readAll cf = some [] ∧ s.search readAll fresh = some [12]) ∧
      ∃ s, runSteps step s₂ [.insert [(12, [(0, [1])])]] = some s ∧
        ¬ cf.selector.SizesOk (s.leafIds cf.attrsTemplate) := by
  have hc : twoRows.compileFilter isNotOne = (twoRows.fresh isNotOne).map _ :=
    compileFilter_of_new rfl
  have hkeeps := keeps_compileFilter rfl hc
  refine ⟨_, _, hc, ⟨_, notOne 3, rfl, ?_, rfl, rfl, rfl, rfl⟩, _, rfl, ?_⟩
  · have hlater := hkeeps.step (rfl : CachedIndex.step _ (.insert [(12, [(0, [2])])]) = some _)
    exact hlater.fresh_eq fresh_isNotOne
  · -- three rows are excluded, from two vectors
    exact fun h => absurd (h.2 [0, 1, 2] rfl) (by decide)

end CachedIndex
end PipeANN
