import PipeANN.CollectionQuery
import PipeANN.DocTables

/-! # The fields of an answer

`build_output` of `collection_store.cpp` makes the columns of an answer: primary keys and
documents come from the document store, vectors and scalar fields from the records, where there
are any.  A query without an expression reads no records, and returns zeros and empty texts.

`output_faithful_iff` says for which values every query returns what was given: for vectors and
scalar fields these are the values that are returned without a record.
-/
namespace PipeANN

open List Dsl RequestConfig Option
open CollectionState (pkOr)

/-- A value of an answer, or an integer that no double is. -/
inductive OutputValue (κ D : Type) where
  | key (pk : Text)
  | vector (coords : List κ)
  | scalar (v : FieldValue D)
  | shown (v : DocValue D)
  | int (v : Int)

/-- What a field is for. -/
inductive FieldRole where
  | key
  | vector
  | scalar (sf : ScalarFieldMeta)
  | shown

/-- Values that a column can have together. -/
def DocValue.SameKind {D : Type} : DocValue D → DocValue D → Prop
  | .num _, .num _ => True
  | .bool _, .bool _ => True
  | .str _, .str _ => True
  | _, _ => False

namespace RequestConfig
variable {κ D : Type} (cfg : RequestConfig D) (zero : κ) (r : GivenRow κ D) (name : Text)

/-- The last scalar field of a name, or a field to display. -/
def otherRole : FieldRole :=
  ((cfg.schema.scalarFields.reverse.find? (·.name = name)).map .scalar).getD .shown

/-- What a field is for by the schema. -/
def role : FieldRole :=
  if name = cfg.schema.primaryField then .key
  else if name = cfg.schema.vectorField then .vector
  else cfg.otherRole name

/-- What a field is for in `build_output`, which also knows `id` and `vector`, and makes no column
for `count(*)`. -/
def outputRole : Option FieldRole :=
  if name = "count(*)".toList then none
  else if name = cfg.schema.primaryField ∨ name = "id".toList then some .key
  else if name = cfg.schema.vectorField ∨ name = "vector".toList then some .vector
  else some (cfg.otherRole name)

/-- A value in a column of the kind of the first one. -/
def shownAs : Option (DocValue D) → Option (DocValue D) → DocValue D
  | some (.bool _), some (.bool b) => .bool b
  | some (.bool _), _ => .bool false
  | some (.num _), some (.num v) => .num v
  | some (.num _), _ => .num cfg.casts.zero
  | _, none => .str []
  | _, some (.str s) => .str s
  | _, some v => .str (cfg.serialize v)

/-- The value of a row in the column of a field. -/
def column (rows : List (QueryRow κ D)) (row : QueryRow κ D) : FieldRole → OutputValue κ D
  | .key => .key row.pk
  | .vector => .vector (((row.payload.map (·.coords)).filter
      (·.length = cfg.schema.dim.toNat)).getD (List.replicate cfg.schema.dim.toNat zero))
  | .scalar sf =>
    let type := logicalTypeFromString sf.logicalType
    .scalar (((row.payload.bind fun r => (r.attrs cfg).lookup sf.key).map
      (decodeField cfg.casts · type)).getD (type.default cfg.casts))
  | .shown => .shown (cfg.shownAs (rows.findSome? fun r => cfg.readDoc r.doc name)
      (cfg.readDoc row.doc name))

/-- `build_output`. -/
def output (rows : List (QueryRow κ D)) (row : QueryRow κ D) : Option (OutputValue κ D) :=
  (cfg.outputRole name).map (cfg.column zero name rows row)

/-- A value to display, as the number that it is. -/
def shownValue : DisplayValue D → OutputValue κ D
  | .int v => if cfg.exact v then .shown (.num (cfg.ofInt v)) else .int v
  | v => .shown (v.doc cfg)

/-- The value that was given to a field of a row. -/
def given : Option (OutputValue κ D) :=
  match cfg.role name with
  | .key => some (.key r.pk)
  | .vector => some (.vector r.coords)
  | .scalar sf => (r.fields.lookup sf.key).map .scalar
  | .shown => if name ∈ cfg.schema.displayFields then (r.object name).map cfg.shownValue else none

end RequestConfig

namespace CollectionRows
variable {κ D : Type} (cfg : RequestConfig D) (zero : κ) (s : CollectionRows κ D) (name : Text)

/-- Every query that returns the row returns the value for the field. -/
def EveryQueryReturns (tag : Nat) (v : OutputValue κ D) : Prop :=
  ∀ c limit f rows row, s.query cfg c limit f = some rows → row ∈ rows → row.tag = tag →
    cfg.output zero name rows row = some v

/-- The values that every query returns: the field is not taken for another one or left out; a
primary key is not empty; a vector or scalar value is the one that is returned without a record,
and comes back from its code; the values of a field to display are of one kind, and integers are
doubles. -/
def Faithful (v : OutputValue κ D) : Prop :=
  cfg.outputRole name = some (cfg.role name) ∧
    match v with
    | .key pk => pk ≠ []
    | .vector coords => coords = List.replicate cfg.schema.dim.toNat zero
    | .scalar v => v.Fits cfg.casts ∧ ∃ sf, cfg.role name = .scalar sf ∧
        v = (logicalTypeFromString sf.logicalType).default cfg.casts
    | .shown v => ∀ r ∈ s.live, ∀ w, r.object name = some w → (w.doc cfg).SameKind v
    | .int _ => False

/-- The tables of the document store, while there are fewer rows than tags. -/
def docs : DocTables Nat where
  entry tag := (s.rows[tag]?.filter StoredRow.stored).map fun x =>
    decodeTagValue (encodeTagValue x.given.pk (x.given.doc cfg))
  tagOf := s.tagOf

/-- A live row is that of its primary key, which has no NUL. -/
def WellKeyed : Prop :=
  ∀ x ∈ s.rows, x.stored = true → x.keyed = true ∧ '\x00' ∉ x.given.pk

/-- The row of an answer, with its record or without. -/
def answerRow (tag : Nat) (r : GivenRow κ D) (bare : Bool) : QueryRow κ D :=
  ⟨tag, pkOr r.pk tag, r.doc cfg, if bare then none else some r⟩

variable {cfg zero s name} {tag : Nat} {x : StoredRow κ D} {v : OutputValue κ D}

/-! ## The document store -/

theorem getElem?_putRow (r : GivenRow κ D) : (s.putRow r).rows[tag]? =
    if tag = s.rows.length then some ⟨r, true, true⟩ else s.rows[tag]?.map (unkey r.pk) := by
  change (s.rows.map (unkey r.pk) ++ [⟨r, true, true⟩])[tag]? = _
  grind

/-- `put_batch` for a new row. -/
theorem docs_putRow (r : GivenRow κ D) :
    (s.putRow r).docs cfg = (s.docs cfg).put (s.rows.length, r.pk, r.doc cfg) := by
  refine DocTables.ext (funext fun tag => ?_) (funext fun pk => Option.ext fun tag => ?_)
  · simp only [docs, DocTables.put, Function.update_apply, getElem?_putRow]
    split
    · rfl
    · cases s.rows[tag]? with
      | none => rfl
      | some x => cases hst : x.stored <;> simp [Option.filter, unkey, hst]
  · have hnone : s.rows[s.rows.length]? = none := getElem?_eq_none le_rfl
    simp only [docs, DocTables.put, tagOf_eq_some_iff, getElem?_putRow, Function.update_apply]
    by_cases htag : tag = s.rows.length <;> by_cases hpk : pk = r.pk
    · simp [htag, hpk]
    · simp [htag, Ne.symm hpk, hpk, tagOf_eq_some_iff]
    · simp [htag, hpk, unkey, Ne.symm htag]
    · simp only [htag, hpk, if_false, tagOf_eq_some_iff]
      cases s.rows[tag]? <;> grind [unkey]

/-- `delete_by_ids`. -/
theorem docs_deleteByPks (pks : List Text) :
    (s.deleteByPks pks).docs cfg = (s.docs cfg).deleteByIds pks := by
  have hrows : ∀ tag : Nat, (s.deleteByPks pks).rows[tag]? = s.rows[tag]?.map (drop pks) :=
    fun _ => getElem?_map
  refine DocTables.ext (funext fun tag => ?_) (funext fun pk => Option.ext fun tag => ?_)
  · rw [DocTables.entry_deleteByIds]
    simp only [docs, hrows, tagOf_eq_some_iff]
    cases hx : s.rows[tag]? with
    | none => simp
    | some x =>
      by_cases h : x.keyed ∧ x.given.pk ∈ pks
      · simp [drop, h, Option.filter]
      · simpa [drop, h, Option.filter] using fun hpk hk => absurd ⟨hk, hpk⟩ h
  · rw [DocTables.tagOf_deleteByIds]
    simp only [docs, tagOf_eq_some_iff, hrows]
    grind [drop, tagOf_eq_some_iff]

/-- What every query returns for a row. -/
theorem outputRow_eq (hs : s.WellKeyed) (hx : s.rows[tag]? = some x) (hst : x.stored)
    (f : QueryFilter) : s.outputRow cfg f tag = some (answerRow cfg tag x.given f.isAll) := by
  have hplain := (hs x (mem_of_getElem? hx) hst).2
  rw [outputRow, hx, map_some, DocTables.decodeTagValue_encodeTagValue hplain]
  rfl

section
variable (hs : s.WellKeyed) (hx : s.rows[tag]? = some x) (hst : x.stored = true) {r : GivenRow κ D}
  (hbuilt : s.built = true)
include hs hx hst hbuilt

theorem EveryQueryReturns.value (hv : s.EveryQueryReturns cfg zero name tag v) {f : QueryFilter}
    {tags : List Nat} (hsel : s.selected cfg noFilters 0 f = some tags) (hmem : tag ∈ tags) :
    cfg.output zero name ((tags.filter s.stored).filterMap (s.outputRow cfg f))
      (answerRow cfg tag x.given f.isAll) = some v := by
  have hq : s.query cfg noFilters 0 f = _ := (if_pos hbuilt).trans (congrArg _ hsel)
  have hmem := mem_filter.mpr ⟨hmem, stored_iff.mpr ⟨x, hx, hst⟩⟩
  exact hv _ 0 f _ _ hq (mem_filterMap.mpr ⟨tag, hmem, outputRow_eq hs hx hst f⟩) rfl

end

end CollectionRows
end PipeANN
