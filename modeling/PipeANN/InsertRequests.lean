import PipeANN.CollectionStore
import PipeANN.FieldCodec

/-! # Insert requests

`insert` and `upsert` of `collection_store.cpp` on requests as they come: columns of any length,
or none.  A request is refused when its vectors do not fit the number of rows, or when a
number to display is not finite.  Everything else is accepted: a missing or short column leaves
its field out of the rows, which `build_index` finds out later, and the primary keys are read
without a look at how many there are.

`requests_handled_iff` says which runs of requests end well, and `upsert_iff` when an `upsert`
replaces the rows with the given primary keys, or none if it throws.  It throws after it has
deleted.

An index that was built without rows stays in memory; what follows is left out.
-/
namespace PipeANN

open List Dsl

/-- Texts are compared as lists of characters. -/
instance Text.lawfulBEq : LawfulBEq Text := inferInstance

/-! ## Requests -/

/-- `ScalarColumn`. -/
structure ScalarColumn (D : Type) where
  kind : FieldKind
  ints : List Int := []
  doubles : List D := []
  bools : List Bool := []
  strings : List Text := []
  intArrays : List (List Int) := []

/-- A value to display, as it is given. -/
inductive DisplayValue (D : Type) where
  | int (v : Int)
  | float (v : D)
  | bool (b : Bool)
  | str (s : Text)

/-- A value of a document. -/
inductive DocValue (D : Type) where
  | num (v : D)
  | bool (b : Bool)
  | str (s : Text)

/-- `InsertColumns`. -/
structure InsertRequest (κ D : Type) where
  numRows : Nat
  vectors : List κ
  pks : List Text
  scalars : Text → Option (ScalarColumn D)

/-- A row as it is given: the values of its scalar fields by key, and those to display. -/
structure GivenRow (κ D : Type) where
  pk : Text
  coords : List κ
  fields : List (UInt32 × FieldValue D)
  object : Text → Option (DisplayValue D)

/-- The collection that requests go to, the casts of numbers, the integers that doubles have, and
the documents: they are written with the values of the fields to display, which are read back from
them. -/
structure RequestConfig (D : Type) where
  schema : CollectionMeta
  keys_nodup : (schema.scalarFields.map (·.key)).Nodup
  casts : FloatCasts D
  ofInt : Int → D
  exact : Int → Bool
  finite : D → Bool
  writeDoc : (Text → Option (DocValue D)) → Text
  readDoc : Text → Text → Option (DocValue D)
  readDoc_writeDoc : ∀ object, ∀ name ∈ schema.displayFields,
    readDoc (writeDoc object) name = object name
  serialize : DocValue D → Text

section
variable {κ D : Type}

/-- The list of a column that a field of a logical type reads. -/
def ScalarColumn.values (sc : ScalarColumn D) : LogicalType → List (FieldValue D)
  | .int => sc.ints.map .int
  | .float => sc.doubles.map .float
  | .bool => sc.bools.map .bool
  | .string => sc.strings.map .string
  | .label => sc.intArrays.map .label

/-- The list of a column that goes to the documents. -/
def ScalarColumn.shown (sc : ScalarColumn D) : List (DisplayValue D) :=
  match sc.kind with
  | .int64 => sc.ints.map .int
  | .float => sc.doubles.map .float
  | .bool => sc.bools.map .bool
  | _ => sc.strings.map .str

/-- The value that a document gets; numbers are doubles. -/
def DisplayValue.doc (cfg : RequestConfig D) : DisplayValue D → DocValue D
  | .int v => .num (cfg.ofInt v)
  | .float v => .num v
  | .bool b => .bool b
  | .str s => .str s

/-- The values that a request has for a scalar field. -/
def InsertRequest.column (req : InsertRequest κ D) (sf : ScalarFieldMeta) : List (FieldValue D) :=
  ((req.scalars sf.name).map (·.values (logicalTypeFromString sf.logicalType))).getD []

namespace RequestConfig
variable (cfg : RequestConfig D) (req : InsertRequest κ D)

/-- What a request has for a field to display. -/
def shownAt (name : Text) (i : Nat) : Option (DisplayValue D) :=
  (req.scalars name).bind fun sc => sc.shown[i]?

/-- A number cannot be written to a document. -/
def unwritable : Bool :=
  cfg.schema.displayFields.any fun name => (List.range req.numRows).any fun i =>
    match (shownAt req name i).map (DisplayValue.doc cfg) with
    | some (.num v) => !cfg.finite v
    | _ => false

/-- The requests that `insert` refuses. -/
def rejected : Bool :=
  req.vectors.length != req.numRows * cfg.schema.dim.toNat || cfg.unwritable req

/-- A row of a request. -/
def newRow (i : Nat) : GivenRow κ D where
  pk := req.pks.getD i []
  coords := (req.vectors.drop (i * cfg.schema.dim.toNat)).take cfg.schema.dim.toNat
  fields := cfg.schema.scalarFields.filterMap fun sf => (req.column sf)[i]?.map fun v => (sf.key, v)
  object name := shownAt req name i

/-- The rows of a request. -/
def newRows : List (GivenRow κ D) := (List.range req.numRows).map (cfg.newRow req)

end RequestConfig

/-- The attributes of a row (`encode_attrs_and_docs`). -/
def GivenRow.attrs (cfg : RequestConfig D) (r : GivenRow κ D) : Attributes :=
  r.fields.map fun p => (p.1, encodeField cfg.casts p.2)

/-- The document of a row (`encode_attrs_and_docs`). -/
def GivenRow.doc (cfg : RequestConfig D) (r : GivenRow κ D) : Text :=
  cfg.writeDoc fun name => (r.object name).map (·.doc cfg)

end

/-! ## The collection -/

/-- A row of the index, in the buffers until it is built.  Of what was given, the vector and the
attributes are stored; the document store has the rest under the tag, which is the number of
the row, and the tag under the primary key. -/
structure StoredRow (κ D : Type) where
  given : GivenRow κ D
  stored : Bool
  keyed : Bool

/-- The rows by tag, as requests give them and as they are shown; `CollectionRows.docs` is what the
document store has of them.  A primary key leads to one row, which is stored. -/
structure CollectionRows (κ D : Type) where
  rows : List (StoredRow κ D)
  built : Bool
  keyed_stored : ∀ x ∈ rows, x.keyed = true → x.stored = true
  keyed_distinct : ((rows.filter StoredRow.keyed).map (·.given.pk)).Nodup

/-- What a call comes to; `outside` if it reads behind the end of a column. -/
inductive Outcome (σ : Type) where
  | throws (s : σ)
  | outside
  | ok (s : σ)

/-- The state that a call leaves behind. -/
def Outcome.after? {σ : Type} : Outcome σ → Option σ
  | .throws s | .ok s => some s
  | .outside => none

/-- The calls; `remove` with the primary keys that it has found. -/
inductive RequestCall (κ D : Type) where
  | insert (req : InsertRequest κ D)
  | upsert (req : InsertRequest κ D)
  | remove (pks : List Text)
  | buildIndex

namespace CollectionRows
variable {κ D : Type} (cfg : RequestConfig D) (s : CollectionRows κ D) (req : InsertRequest κ D)

/-- A new collection. -/
def initial : CollectionRows κ D :=
  ⟨[], false, fun _ hx => absurd hx not_mem_nil, nodup_nil⟩

/-- The row without its primary key, if that is the one given. -/
def unkey (pk : Text) (x : StoredRow κ D) : StoredRow κ D :=
  { x with keyed := x.keyed && x.given.pk ≠ pk }

variable (r : GivenRow κ D)

theorem keyed_stored_put :
    ∀ x ∈ s.rows.map (unkey r.pk) ++ [⟨r, true, true⟩], x.keyed → x.stored := by
  refine forall_mem_append.mpr ⟨forall_mem_map.mpr fun x hx hk => ?_, by simp⟩
  exact s.keyed_stored x hx (Bool.and_eq_true_iff.mp hk).1

theorem keyed_distinct_put :
    ((filter StoredRow.keyed (s.rows.map (unkey r.pk) ++ [⟨r, true, true⟩])).map
      (·.given.pk)).Nodup := by
  have hmap : ((s.rows.map (unkey r.pk)).filter StoredRow.keyed).map (·.given.pk) =
      ((s.rows.filter StoredRow.keyed).map (·.given.pk)).filter (· ≠ r.pk) := by
    rw [filter_map, map_map, filter_map, filter_filter]
    refine congrArg (map _) (filter_congr fun x _ => ?_)
    exact Bool.and_comm ..
  rw [filter_append, map_append, hmap, nodup_append]
  refine ⟨s.keyed_distinct.filter _, nodup_singleton _, fun pk hpk pk' hpk' => ?_⟩
  rw [mem_singleton.mp hpk']
  exact of_decide_eq_true (mem_filter.mp hpk).2

/-- A row is added; its primary key leads to it and no longer to another row. -/
def putRow : CollectionRows κ D where
  rows := s.rows.map (unkey r.pk) ++ [⟨r, true, true⟩]
  built := s.built
  keyed_stored := s.keyed_stored_put r
  keyed_distinct := s.keyed_distinct_put r

/-- `insert`. -/
def insert : Outcome (CollectionRows κ D) :=
  if cfg.rejected req then .throws s
  else if req.pks.length < req.numRows then .outside
  else .ok ((cfg.newRows req).foldl putRow s)

variable (pks : List Text)

/-- The row out of the document store, if it is that of one of the primary keys. -/
def drop (x : StoredRow κ D) : StoredRow κ D :=
  if x.keyed ∧ x.given.pk ∈ pks then ⟨x.given, false, false⟩ else x

theorem keyed_drop {pks : List Text} {x : StoredRow κ D} (h : (drop pks x).keyed) :
    drop pks x = x ∧ x.keyed := by
  rw [drop] at h ⊢
  split at h
  · cases h
  · next hx => exact ⟨if_neg hx, h⟩

theorem given_comp_drop : StoredRow.given ∘ drop (κ := κ) (D := D) pks = StoredRow.given := by
  funext x
  rw [Function.comp_apply, drop]
  split <;> rfl

theorem keyed_stored_drop : ∀ x ∈ s.rows.map (drop pks), x.keyed → x.stored := by
  refine forall_mem_map.mpr fun x hx hk => ?_
  obtain ⟨heq, hk⟩ := keyed_drop hk
  exact heq.symm ▸ s.keyed_stored x hx hk

theorem keyed_distinct_drop :
    (((s.rows.map (drop pks)).filter StoredRow.keyed).map (·.given.pk)).Nodup := by
  have hpk : (fun x => x.given.pk) ∘ drop (κ := κ) (D := D) pks = fun x => x.given.pk :=
    congrArg (GivenRow.pk ∘ ·) (given_comp_drop pks)
  rw [filter_map, map_map, hpk]
  exact s.keyed_distinct.sublist ((monotone_filter_right _ fun x hx => (keyed_drop hx).2).map _)

/-- `delete_by_pks`: the rows that the primary keys lead to leave the document store. -/
def deleteByPks : CollectionRows κ D where
  rows := s.rows.map (drop pks)
  built := s.built
  keyed_stored := s.keyed_stored_drop pks
  keyed_distinct := s.keyed_distinct_drop pks

/-- `upsert`. -/
def upsert : Outcome (CollectionRows κ D) := (s.deleteByPks req.pks).insert cfg req

/-- `build_index`; `Attributes::get` throws for a key that a row does not have. -/
def buildIndex : Outcome (CollectionRows κ D) :=
  if s.built || s.rows.all fun x => cfg.schema.scalarFields.all fun sf =>
      ((x.given.attrs cfg).lookup sf.key).isSome then
    .ok { s with built := true }
  else .throws s

/-- One call. -/
def call (s : CollectionRows κ D) : RequestCall κ D → Outcome (CollectionRows κ D)
  | .insert req => s.insert cfg req
  | .upsert req => s.upsert cfg req
  | .remove pks => .ok (s.deleteByPks pks)
  | .buildIndex => s.buildIndex cfg

/-- The collection after a call. -/
def step (s : CollectionRows κ D) (c : RequestCall κ D) : Option (CollectionRows κ D) :=
  (s.call cfg c).after?

/-- What was given for the rows. -/
def given : List (GivenRow κ D) := s.rows.map StoredRow.given

/-- The rows that the document store has. -/
def live : List (GivenRow κ D) := (s.rows.filter StoredRow.stored).map StoredRow.given

variable {cfg s req} {s' : CollectionRows κ D}

theorem given_putRow : (s.putRow r).given = s.given ++ [r] := by
  rw [given, putRow, map_append, map_map]
  rfl

theorem live_putRow : (s.putRow r).live = s.live ++ [r] := by
  rw [live, putRow, filter_append, map_append, filter_map, map_map]
  rfl

theorem foldl_putRow (new : List (GivenRow κ D)) : (new.foldl putRow s).given = s.given ++ new ∧
    (new.foldl putRow s).live = s.live ++ new ∧ (new.foldl putRow s).built = s.built := by
  induction new generalizing s with
  | nil => simp
  | cons r new ih =>
    obtain ⟨hgiven, hlive, hbuilt⟩ := ih
    rw [given_putRow, append_assoc] at hgiven
    rw [live_putRow, append_assoc] at hlive
    exact ⟨hgiven, hlive, hbuilt⟩

theorem given_deleteByPks : (s.deleteByPks pks).given = s.given := by
  rw [given, deleteByPks, map_map, given_comp_drop]
  rfl

/-! ## Row shapes -/

section
variable (cfg s req)

/-- The collection is as it was, or no column was read behind its end and the index can be
built. -/
def Handles (s : CollectionRows κ D) : Outcome (CollectionRows κ D) → Prop
  | .throws s' => s' = s
  | .outside => False
  | .ok s' => s'.buildIndex cfg = .ok { s' with built := true }

/-- `Handles` for the rows that a call adds. -/
def HandlesCall (s : CollectionRows κ D) : RequestCall κ D → Prop
  | .insert req => s.Handles cfg (s.insert cfg req)
  | .upsert req => (s.deleteByPks req.pks).Handles cfg (s.upsert cfg req)
  | _ => True

/-- A request that is refused, or has a primary key for every row and, as long as there is no
index, a value for every scalar field. -/
def Complete : Prop :=
  cfg.rejected req = true ∨ req.numRows ≤ req.pks.length ∧
    (s.built = true ∨ ∀ sf ∈ cfg.schema.scalarFields, req.numRows ≤ (req.column sf).length)

/-- `Complete` for the request of a call. -/
def CompleteCall (s : CollectionRows κ D) : RequestCall κ D → Prop
  | .insert req => s.Complete cfg req
  | .upsert req => s.Complete cfg req
  | _ => True

/-- The rows in the buffers have every scalar field. -/
def Shaped : Prop :=
  s.built = true ∨ ∀ r ∈ s.given, ∀ sf ∈ cfg.schema.scalarFields,
    ((r.attrs cfg).lookup sf.key).isSome = true

end

theorem buildIndex_iff : s.buildIndex cfg = .ok { s with built := true } ↔ s.Shaped cfg := by
  have hiff : (s.built || s.rows.all fun x => cfg.schema.scalarFields.all fun sf =>
      ((x.given.attrs cfg).lookup sf.key).isSome) ↔ s.Shaped cfg := by
    simp only [Bool.or_eq_true, all_eq_true, Shaped, given, forall_mem_map]
  rw [← hiff, buildIndex]
  split
  · next h => exact iff_of_true rfl h
  · next h => exact iff_of_false (fun h => by cases h) h

/-- Pairs with distinct keys, of which some are left out. -/
theorem lookup_filterMap {α β γ : Type} [BEq β] [LawfulBEq β] {key : α → β} (val : α → Option γ)
    {l : List α} {a : α} (hmem : a ∈ l) (hnd : (l.map key).Nodup) :
    (l.filterMap fun x => (val x).map fun v => (key x, v)).lookup (key a) = val a := by
  induction l with
  | nil => cases hmem
  | cons b l ih =>
    rw [map_cons, nodup_cons] at hnd
    rcases mem_cons.mp hmem with rfl | hmem
    · rw [filterMap_cons]
      cases hv : val a with
      | some v => simp
      | none =>
        rw [lookup_eq_none_iff]
        intro p hp
        obtain ⟨x, hx, heq⟩ := mem_filterMap.mp hp
        obtain ⟨v, -, rfl⟩ := Option.map_eq_some_iff.mp heq
        exact bne_iff_ne.mpr fun h => hnd.1 (h ▸ mem_map_of_mem hx)
    · have hne : (key a == key b) = false :=
        beq_false_of_ne fun h => hnd.1 (h ▸ mem_map_of_mem hmem)
      rw [filterMap_cons]
      cases hv : val b with
      | some v => simp [lookup_cons, hne, ih hmem hnd.2]
      | none => exact ih hmem hnd.2

theorem lookup_attrs (key : UInt32) :
    (r.attrs cfg).lookup key = (r.fields.lookup key).map (encodeField cfg.casts) := by
  rw [GivenRow.attrs]
  induction r.fields with
  | nil => rfl
  | cons p fields ih =>
    rw [map_cons, lookup_cons, lookup_cons]
    cases key == p.1 with
    | true => rfl
    | false => exact ih

/-- The new rows have the attribute of a field just if the request has values for all of them. -/
theorem newRows_shaped_iff {sf : ScalarFieldMeta} (hsf : sf ∈ cfg.schema.scalarFields) :
    (∀ r ∈ cfg.newRows req, ((r.attrs cfg).lookup sf.key).isSome) ↔
      req.numRows ≤ (req.column sf).length := by
  simp only [RequestConfig.newRows, forall_mem_map, mem_range, lookup_attrs, Option.isSome_map]
  have hlookup : ∀ i, ((cfg.newRow req i).fields.lookup sf.key).isSome ↔
      i < (req.column sf).length := by
    intro i
    rw [RequestConfig.newRow, lookup_filterMap (fun sf => (req.column sf)[i]?) hsf cfg.keys_nodup,
      Option.isSome_iff_ne_none, ne_eq, getElem?_eq_none_iff, not_le]
  simp only [hlookup]
  constructor
  · intro h
    by_contra hlt
    exact absurd (h (req.column sf).length (by omega)) (lt_irrefl _)
  · exact fun h i hi => hi.trans_le h

theorem shaped_put_iff (hs : s.Shaped cfg) : ((cfg.newRows req).foldl putRow s).Shaped cfg ↔
    s.built ∨ ∀ sf ∈ cfg.schema.scalarFields, req.numRows ≤ (req.column sf).length := by
  obtain ⟨hgiven, -, hbuilt⟩ := foldl_putRow (cfg.newRows req)
  rw [Shaped, hgiven, hbuilt]
  refine or_congr_right' fun hnot => ?_
  constructor
  · exact fun h sf hsf => (newRows_shaped_iff hsf).mp fun r hr =>
      h r (mem_append_right _ hr) sf hsf
  · intro h r hr sf hsf
    rcases mem_append.mp hr with hr | hr
    · exact hs.resolve_left hnot r hr sf hsf
    · exact (newRows_shaped_iff hsf).mpr (h sf hsf) r hr

theorem Shaped.deleteByPks (hs : s.Shaped cfg) (pks : List Text) :
    (s.deleteByPks pks).Shaped cfg := by
  rw [Shaped, given_deleteByPks]
  exact hs

theorem shaped_insert (hs : s.Shaped cfg) (hh : s.Handles cfg (s.insert cfg req))
    (h : (s.insert cfg req).after? = some s') : s'.Shaped cfg := by
  cases hout : s.insert cfg req with
  | throws t =>
    rw [hout] at hh h
    obtain rfl : t = s := hh
    exact Option.some.inj h ▸ hs
  | outside => rw [hout] at hh; cases hh
  | ok t =>
    rw [hout] at hh h
    exact Option.some.inj h ▸ buildIndex_iff.mp hh

theorem handles_insert_iff (hs : s.Shaped cfg) :
    s.Handles cfg (s.insert cfg req) ↔ s.Complete cfg req := by
  rw [insert]
  split
  · next h => exact iff_of_true rfl (.inl h)
  · next h =>
    split
    · next hlt => exact iff_of_false id fun hc => hc.elim h fun hc => absurd hc.1 (by omega)
    · next hlt =>
      have hle : req.numRows ≤ req.pks.length := by omega
      rw [Handles, buildIndex_iff, shaped_put_iff hs]
      exact ⟨fun h => .inr ⟨hle, h⟩, fun hc => (hc.resolve_left h).2⟩

/-- **Row shapes.**  The requests of a run are all refused, or accepted such that the index can
be built, exactly if they are complete. -/
theorem requests_handled_iff (calls : List (RequestCall κ D)) :
    EachStep (step cfg) initial calls (HandlesCall cfg) ↔
      EachStep (step cfg) initial calls (CompleteCall cfg) := by
  refine eachStep_congr (J := Shaped cfg) (.inr fun p hp => by cases hp) ?_ ?_
  · intro s c hs
    cases c with
    | insert req => exact handles_insert_iff hs
    | upsert req => exact handles_insert_iff (hs.deleteByPks req.pks)
    | remove pks => exact Iff.rfl
    | buildIndex => exact Iff.rfl
  · intro s c s' hs hc hstep
    cases c with
    | insert req => exact shaped_insert hs hc hstep
    | upsert req => exact shaped_insert (hs.deleteByPks req.pks) hc hstep
    | remove pks => exact Option.some.inj hstep ▸ hs.deleteByPks pks
    | buildIndex =>
      rw [step, call, buildIndex] at hstep
      split at hstep
      · exact Option.some.inj hstep ▸ .inl rfl
      · exact Option.some.inj hstep ▸ hs

/-- A collection with vectors of one number and a scalar field `x`. -/
def oneField : RequestConfig Nat where
  schema :=
    { name := [], dim := 1, scalarFields := [⟨"x".toList, "range".toList, "int".toList, 0⟩] }
  keys_nodup := nodup_singleton _
  casts := ⟨fun _ => 0, fun _ => 0, 0⟩
  ofInt := Int.toNat
  exact := fun v => decide (0 ≤ v)
  finite := fun _ => true
  writeDoc := fun _ => []
  readDoc := fun _ _ => none
  readDoc_writeDoc _ _ h := absurd h not_mem_nil
  serialize := fun _ => []

/-- A row with values for `x`. -/
def oneRow (pk : String) (vectors : List Nat) (ints : List Int) : InsertRequest Nat Nat :=
  ⟨1, vectors, [pk.toList], fun _ => some { kind := .int64, ints := ints }⟩

/-- A row without a value for `x` is accepted, and the index cannot be built. -/
theorem short_column_accepted :
    ∃ s' : CollectionRows Nat Nat, initial.insert oneField (oneRow "a" [7] []) = .ok s' ∧
      s'.buildIndex oneField = .throws s' := ⟨_, rfl, rfl⟩

/-! ## Replacing rows -/

theorem live_deleteByPks : (s.deleteByPks pks).live =
    (s.rows.filter fun x => x.stored && !(x.keyed && x.given.pk ∈ pks)).map StoredRow.given := by
  rw [live, deleteByPks, filter_map, map_map, given_comp_drop]
  refine congrArg _ (filter_congr fun x _ => ?_)
  by_cases hk : x.keyed = true <;> by_cases hpk : x.given.pk ∈ pks <;> simp [drop, hk, hpk]

/-- If a filter keeps no more than another, then it keeps the same just if it keeps all of that. -/
theorem map_filter_eq_iff {α β : Type} {p q : α → Bool} {l : List α} (g : α → β)
    (h : ∀ x ∈ l, p x → q x) : (l.filter p).map g = (l.filter q).map g ↔ ∀ x ∈ l, q x → p x := by
  constructor
  · intro heq x hx hq
    have hsub : l.filter p = (l.filter q).filter p := by
      rw [filter_filter]
      exact filter_congr fun x hx => by cases hp : p x <;> simp [h x hx, hp]
    have hlen : ((l.filter q).filter p).length = (l.filter q).length := by
      simpa [hsub] using congrArg length heq
    exact length_filter_eq_length_iff.mp hlen x (mem_filter.mpr ⟨hx, hq⟩)
  · intro hq
    exact congrArg _ (filter_congr fun x hx => Bool.eq_iff_iff.mpr ⟨h x hx, hq x hx⟩)

/-- What `upsert` should do: nothing if it throws, and otherwise replace the rows with the
primary keys of the request. -/
def Replaces (s : CollectionRows κ D) (pks : List Text) (new : List (GivenRow κ D)) :
    Outcome (CollectionRows κ D) → Prop
  | .throws s' => s'.live = s.live
  | .outside => False
  | .ok s' => s'.live = (s.live.filter fun r => r.pk ∉ pks) ++ new ∧ (new.map GivenRow.pk).Nodup

/-- No primary key of a request that is refused leads to a row.  Otherwise there are as many
primary keys as rows, or more that lead to no other row, and they are distinct, each with no
more live rows than the one that it leads to. -/
def UpsertOk (cfg : RequestConfig D) (s : CollectionRows κ D) (req : InsertRequest κ D) : Prop :=
  if cfg.rejected req then ∀ x ∈ s.rows, x.keyed = true → x.given.pk ∉ req.pks
  else req.numRows ≤ req.pks.length ∧ (req.pks.take req.numRows).Nodup ∧
    (∀ x ∈ s.rows, x.keyed = true → x.given.pk ∈ req.pks → x.given.pk ∈ req.pks.take req.numRows) ∧
    ∀ x ∈ s.rows, x.stored = true → x.given.pk ∈ req.pks.take req.numRows → x.keyed = true

theorem map_pk_newRows (h : req.numRows ≤ req.pks.length) :
    (cfg.newRows req).map GivenRow.pk = req.pks.take req.numRows := by
  rw [RequestConfig.newRows]
  refine ext_getElem (by simpa using h) fun i hi hi' => ?_
  simp only [length_map, length_range] at hi
  simp [RequestConfig.newRow, getElem?_eq_getElem (hi.trans_le h)]

theorem live_delete_eq_iff : (s.deleteByPks pks).live = s.live ↔
    ∀ x ∈ s.rows, x.keyed → x.given.pk ∉ pks := by
  rw [live_deleteByPks, live, map_filter_eq_iff]
  · refine forall₂_congr fun x hx => ?_
    have := s.keyed_stored x hx
    by_cases hk : x.keyed = true <;> simp_all
  · exact fun x _ hp => (Bool.and_eq_true_iff.mp hp).1

/-- Just the rows with some of the primary keys are deleted. -/
theorem live_delete_eq_filter_iff {pks keys : List Text} (hsub : ∀ pk ∈ keys, pk ∈ pks) :
    (s.deleteByPks pks).live = s.live.filter (fun r => r.pk ∉ keys) ↔
      (∀ x ∈ s.rows, x.keyed → x.given.pk ∈ pks → x.given.pk ∈ keys) ∧
        ∀ x ∈ s.rows, x.stored → x.given.pk ∈ keys → x.keyed := by
  have hfilter : s.live.filter (fun r => r.pk ∉ keys) =
      (s.rows.filter fun x => decide (x.given.pk ∉ keys) && x.stored).map StoredRow.given := by
    rw [live, filter_map, filter_filter]
    rfl
  rw [live_deleteByPks, hfilter]
  -- a live row to which its primary key does not lead is not deleted
  have hstay : ((s.rows.filter fun x => x.stored && !(x.keyed && x.given.pk ∈ pks)).map
      StoredRow.given = (s.rows.filter fun x => decide (x.given.pk ∉ keys) && x.stored).map
      StoredRow.given) → ∀ x ∈ s.rows, x.stored → x.given.pk ∈ keys → x.keyed := by
    intro heq x hx hst hpk
    by_contra hk
    have hmem := heq ▸ mem_map_of_mem (mem_filter.mpr ⟨hx, by simp [hst, hk]⟩)
    obtain ⟨y, hy, hyx⟩ := mem_map.mp hmem
    exact of_decide_eq_true (Bool.and_eq_true_iff.mp (mem_filter.mp hy).2).1 (hyx ▸ hpk)
  refine Iff.trans ⟨fun h => ⟨h, hstay h⟩, And.left⟩ (and_congr_left fun hkeyed => ?_)
  rw [map_filter_eq_iff]
  · refine forall₂_congr fun x hx => ?_
    have := s.keyed_stored x hx
    by_cases hk : x.keyed
    · simp [hk, this hk, not_imp_not]
    · simp [hk]
  · intro x hx hp
    simp only [Bool.and_eq_true, decide_eq_true_eq] at hp ⊢
    refine ⟨fun hpk => ?_, hp.1⟩
    simp [hkeyed x hx hp.1 hpk, hsub _ hpk] at hp

/-- **Replacing rows.** -/
theorem upsert_iff : s.Replaces (req.pks.take req.numRows) (cfg.newRows req) (s.upsert cfg req) ↔
    s.UpsertOk cfg req := by
  rw [upsert, insert, UpsertOk]
  split
  · exact live_delete_eq_iff _
  · split
    · exact iff_of_false id fun h => by omega
    · next hlt =>
      have hle : req.numRows ≤ req.pks.length := by omega
      rw [Replaces, (foldl_putRow _).2.1, map_pk_newRows hle, append_left_inj, and_comm,
        live_delete_eq_filter_iff fun pk => mem_of_mem_take]
      exact (and_iff_right hle).symm

/-- The collection with the row `a`. -/
def withA : CollectionRows Nat Nat := (oneField.newRows (oneRow "a" [7] [3])).foldl putRow initial

/-- A request with two numbers for one vector is refused after the row is gone. -/
theorem refused_upsert_deletes :
    withA.live.length = 1 ∧ ∃ s', withA.upsert oneField (oneRow "a" [8, 9] [3]) = .throws s' ∧
      s'.live.length = 0 := ⟨by decide, _, rfl, by decide⟩

end CollectionRows
end PipeANN
