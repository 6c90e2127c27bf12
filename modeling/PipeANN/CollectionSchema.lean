import PipeANN.Json

/-! # The schema of a collection

`create_collection` (`collection_store.cpp`) derives the metadata of a collection from the
list of its fields: the primary field, the vector field, the scalar fields that get an
attribute index, and the fields that are only displayed.  `build_index` writes the metadata
to `<name>.schema.json`, and the loader reads it back after a restart.

`loadSchema_writeSchemaJson` says that the loader gets back exactly the metadata that was
written.
-/
namespace PipeANN
open List Option Json

open Json (entry)

/-- `FieldKind`. -/
inductive FieldKind where
  | int64
  | float
  | bool
  | varChar
  | arrayInt
  | floatVector
  | json
  deriving DecidableEq

/-- `FieldSpec`. -/
structure FieldSpec where
  name : Text := []
  kind : FieldKind := .int64
  isPrimary : Bool := false
  /-- Of a vector field. -/
  dim : UInt32 := 0
  deriving DecidableEq

/-- `CollectionSpec`. -/
structure CollectionSpec where
  name : Text
  fields : List FieldSpec
  metric : Text := "l2".toList

/-- `ScalarFieldMeta`. -/
structure ScalarFieldMeta where
  name : Text
  attrType : Text
  logicalType : Text
  /-- Key of the attribute index of the field. -/
  key : UInt32
  deriving DecidableEq

/-- `CollectionMeta`. -/
structure CollectionMeta where
  name : Text
  dim : UInt32 := 0
  dataType : Text := "float32".toList
  metric : Text := "l2".toList
  primaryField : Text := "id".toList
  vectorField : Text := "vector".toList
  scalarFields : List ScalarFieldMeta := []
  displayFields : List Text := []
  fields : List FieldSpec := []
  deriving DecidableEq

/-- `attr_type_for`; empty for a field that cannot be filtered by. -/
def attrTypeFor : FieldKind → Text
  | .arrayInt => "label".toList
  | .varChar => "string".toList
  | .int64 | .float | .bool => "range".toList
  | .floatVector | .json => []

/-- `logical_type_for`. -/
def logicalTypeFor : FieldKind → Text
  | .arrayInt => "label".toList
  | .varChar => "string".toList
  | .float => "float".toList
  | .bool => "bool".toList
  | .int64 => "int".toList
  | .floatVector | .json => []

/-- One field in the loop of `create_collection`; the number is `next_attr_key`. -/
def addField (acc : CollectionMeta × UInt32) (f : FieldSpec) : CollectionMeta × UInt32 :=
  let (cm, nextAttrKey) := acc
  let cm := if f.isPrimary then { cm with primaryField := f.name } else cm
  let (cm, nextAttrKey) :=
    if f.kind = .floatVector then
      ({ cm with vectorField := f.name, dim := f.dim }, nextAttrKey)
    else if f.isPrimary then (cm, nextAttrKey)
    else if attrTypeFor f.kind ≠ [] then
      ({ cm with scalarFields := cm.scalarFields ++
          [⟨f.name, attrTypeFor f.kind, logicalTypeFor f.kind, nextAttrKey⟩] }, nextAttrKey + 1)
    else ({ cm with displayFields := cm.displayFields ++ [f.name] }, nextAttrKey)
  ({ cm with fields := cm.fields ++ [f] }, nextAttrKey)

/-- The metadata of a new collection; a collection without a vector field is refused. -/
def createMeta (spec : CollectionSpec) : Option CollectionMeta :=
  let cm := (spec.fields.foldl addField ({ name := spec.name, metric := spec.metric }, 0)).1
  if cm.dim = 0 then none else some cm

/-! ## The schema file -/

/-- `field_kind_to_str`. -/
def fieldKindToStr : FieldKind → Text
  | .int64 => "int64".toList
  | .float => "float".toList
  | .bool => "bool".toList
  | .varChar => "varchar".toList
  | .arrayInt => "array_int".toList
  | .floatVector => "float_vector".toList
  | .json => "json".toList

/-- `field_kind_from_str`. -/
def fieldKindFromStr (s : Text) : FieldKind :=
  if s = "float".toList then .float
  else if s = "bool".toList then .bool
  else if s = "varchar".toList then .varChar
  else if s = "array_int".toList then .arrayInt
  else if s = "float_vector".toList then .floatVector
  else if s = "json".toList then .json
  else .int64

theorem fieldKindFromStr_toStr (k : FieldKind) : fieldKindFromStr (fieldKindToStr k) = k := by
  cases k <;> decide

/-- A scalar field in the schema file. -/
def scalarFieldToJson (sf : ScalarFieldMeta) : Json :=
  .obj [entry "name" (.str sf.name), entry "key" (.num sf.key.toNat),
    entry "type" (.str sf.attrType), entry "logical_type" (.str sf.logicalType)]

/-- A field in the schema file. -/
def fieldToJson (f : FieldSpec) : Json :=
  .obj [entry "name" (.str f.name), entry "kind" (.str (fieldKindToStr f.kind)),
    entry "is_primary" (.bool f.isPrimary), entry "dim" (.num f.dim.toNat)]

/-- `write_schema_json`. -/
def writeSchemaJson (cm : CollectionMeta) (npoints : Nat) : Json :=
  .obj [entry "type" (.str "collection".toList),
    entry "format" (.str "pipeann-flat-v2".toList),
    entry "data_dim" (.num cm.dim.toNat),
    entry "data_type" (.str cm.dataType),
    entry "metric" (.str cm.metric),
    entry "primary_field" (.str cm.primaryField),
    entry "vector_field" (.str cm.vectorField),
    entry "index_prefix" (.str cm.name),
    entry "npoints" (.num npoints),
    entry "scalar_fields" (.arr (cm.scalarFields.map scalarFieldToJson)),
    entry "display_fields" (.arr (cm.displayFields.map .str)),
    entry "fields" (.arr (cm.fields.map fieldToJson))]

/-- `get_str`. -/
def getStrOr (o : List (Text × Json)) (key : String) (dflt : Text) : Text :=
  ((find? key o).bind getStr).getD dflt

/-- The items of an array entry; none if there is no such array. -/
def getItems (o : List (Text × Json)) (key : String) : List Json :=
  ((find? key o).bind getArr).getD []

/-- `so.count(key) ? so.at(key).get<T>() : dflt`, which throws on another type. -/
def atOr {β : Type} (get : Json → Option β) (o : List (Text × Json)) (key : String) (dflt : β) :
    Option β :=
  match find? key o with
  | none => some dflt
  | some v => get v

/-- A cast to `uint32_t` of a number. -/
def getU32 (v : Json) : Option UInt32 := v.getNum.bind castU32

/-- A scalar field read back. -/
def scalarFieldFromJson (so : List (Text × Json)) : Option ScalarFieldMeta := do
  let name ← atOr getStr so "name" []
  let key ← atOr getU32 so "key" 0
  let attrType ← atOr getStr so "type" "label".toList
  let logicalType ← atOr getStr so "logical_type"
    (if attrType = "range".toList then "int".toList else attrType)
  some ⟨name, attrType, logicalType, key⟩

/-- A field read back. -/
def fieldFromJson (fo : List (Text × Json)) : Option FieldSpec := do
  let name ← atOr getStr fo "name" []
  let kind ← atOr (fun v => v.getStr.map fieldKindFromStr) fo "kind" .int64
  let isPrimary ← atOr getBool fo "is_primary" false
  let dim ← atOr getU32 fo "dim" 0
  some ⟨name, kind, isPrimary, dim⟩

/-- The metadata part of `load_collection_from_schema`, for the file `<name>.schema.json`. -/
def loadSchema (name : Text) (v : Json) : Option CollectionMeta := do
  let o ← v.getObj
  if getStrOr o "type" [] ≠ "collection".toList then none
  else
    let dim ← match (find? "data_dim" o).bind getNum with
      | some n => castU32 n
      | none => some 0
    let scalarFields ← ((getItems o "scalar_fields").filterMap getObj).mapM scalarFieldFromJson
    let fields ← ((getItems o "fields").filterMap getObj).mapM fieldFromJson
    let cm : CollectionMeta :=
      { name := name
        dim := dim
        dataType := getStrOr o "data_type" "float32".toList
        metric := getStrOr o "metric" "l2".toList
        primaryField := getStrOr o "primary_field" "id".toList
        vectorField := getStrOr o "vector_field" "vector".toList
        scalarFields := scalarFields
        displayFields := (getItems o "display_fields").filterMap getStr
        fields := fields }
    if cm.dim = 0 then none else some cm

/-! ## The round trip -/

/-- A list of objects is read back item by item. -/
theorem mapM_fromJson {β : Type} {toJson : β → Json} {fromJson : List (Text × Json) → Option β}
    (h : ∀ x, (toJson x).getObj.bind fromJson = some x) (l : List β) :
    ((l.map toJson).filterMap getObj).mapM fromJson = some l := by
  induction l with
  | nil => rfl
  | cons x l ih =>
    obtain ⟨o, hobj, ho⟩ := bind_eq_some_iff.mp (h x)
    rw [map_cons, filterMap_cons_some hobj, mapM_cons, ho, ih]
    rfl

theorem scalarFieldFromJson_toJson (sf : ScalarFieldMeta) :
    (scalarFieldToJson sf).getObj.bind scalarFieldFromJson = some sf := by
  simp [scalarFieldToJson, getObj, scalarFieldFromJson, atOr, getU32, getStr, getNum,
    castU32_toNat]

theorem fieldFromJson_toJson (f : FieldSpec) :
    (fieldToJson f).getObj.bind fieldFromJson = some f := by
  simp [fieldToJson, getObj, fieldFromJson, atOr, getU32, getStr, getNum,
    getBool, castU32_toNat, fieldKindFromStr_toStr]

variable {cm : CollectionMeta} {spec : CollectionSpec}

/-- **The loader reads back the metadata that was written.** -/
theorem loadSchema_writeSchemaJson (npoints : Nat) (hdim : cm.dim ≠ 0) :
    loadSchema cm.name (writeSchemaJson cm npoints) = some cm := by
  have hdisplay : (cm.displayFields.map str).filterMap getStr = cm.displayFields := by
    rw [filterMap_map]
    exact filterMap_some
  simp [loadSchema, writeSchemaJson, getObj, getStrOr, getItems, getStr, getNum,
    getArr, castU32_toNat, mapM_fromJson scalarFieldFromJson_toJson,
    mapM_fromJson fieldFromJson_toJson, hdisplay, hdim, -filterMap_map]

theorem name_addField (acc : CollectionMeta × UInt32) (f : FieldSpec) :
    (addField acc f).1.name = acc.1.name := by
  simp only [addField]
  repeat' split
  all_goals rfl

theorem name_createMeta (h : createMeta spec = some cm) : cm.name = spec.name := by
  obtain ⟨-, hcm⟩ := ite_none_left_eq_some.mp h
  rw [← some.inj hcm]
  refine foldlRecOn (motive := fun acc => acc.1.name = spec.name) _ addField ?_ ?_
  · rfl
  · exact fun acc h f _ => (name_addField acc f).trans h

/-- A new collection has a vector field. -/
theorem dim_createMeta (h : createMeta spec = some cm) : cm.dim ≠ 0 := by
  obtain ⟨hdim, hcm⟩ := ite_none_left_eq_some.mp h
  rwa [← some.inj hcm]

end PipeANN
