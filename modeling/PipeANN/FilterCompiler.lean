import PipeANN.FilterParser
import PipeANN.FilterTree

/-! # Compiling a filter

`compile` of `dsl_compiler.h`: the JSON text of the filter is read, and the value that is
left (also after a reading error) is compiled to a selector tree.  Every leaf gets a slot
of the query attributes, which holds its literal, or is left empty for a placeholder.

A result `none` stands for an exception: a value of another type than the one asked for, a
field that the schema does not have, a string selector on an index that is no string
index; or for a cast of a number that does not fit `uint32_t`, which is undefined.

The query attributes are kept as a list: `alloc_slot` always takes the next slot.
-/
namespace PipeANN.Dsl
open Option Json

/-- `Attribute`. -/
abbrev Attribute := List UInt32

/-! ## Strings as attributes -/

/-- Four bytes as a word. -/
def packWord (a b c d : Char) : UInt32 :=
  UInt32.ofNat (a.toNat + 256 * (b.toNat + 256 * (c.toNat + 256 * d.toNat)))

/-- `pack_string_attr`: the bytes of the string, filled up with zeros. -/
def packStringAttr : Text → Attribute
  | [] => []
  | [a] => [packWord a '\x00' '\x00' '\x00']
  | [a, b] => [packWord a b '\x00' '\x00']
  | [a, b, c] => [packWord a b c '\x00']
  | a :: b :: c :: d :: rest => packWord a b c d :: packStringAttr rest

/-- The bytes of a word. -/
def wordBytes (w : UInt32) : Text :=
  [toByte w.toNat, toByte (w.toNat / 256), toByte (w.toNat / 65536),
    toByte (w.toNat / 16777216)]

/-- `string_attr_view`: the bytes up to the first NUL. -/
def stringAttrView (a : Attribute) : Text :=
  (a.flatMap wordBytes).takeWhile fun c => c ≠ '\x00'

/-- `append_record`. -/
def appendRecord (dest bare : Attribute) : Attribute :=
  dest ++ UInt32.ofNat bare.length :: bare

/-- `for_each_record`: the records of a query attribute. -/
def records : Nat → Attribute → List Attribute
  | 0, _ => []
  | _ + 1, [] => []
  | fuel + 1, len :: q =>
    if q.length < len.toNat then [] else q.take len.toNat :: records fuel (q.drop len.toNat)

/-- The loop of `like_match`: the rest of the subject, the rest of the pattern, and where
the last `%` lets the match start again. -/
def likeLoop : Nat → Text → Text → Option (Text × Text) → Bool
  | 0, _, _, _ => false
  | _ + 1, [], p, _ => p.all fun c => c = '%'
  | fuel + 1, c :: s, p, star =>
    let again : Bool :=
      match star with
      | some (_ :: mark, afterStar) => likeLoop fuel mark afterStar (some (mark, afterStar))
      | _ => false
    match p with
    | [] => again
    | d :: p' =>
      if d = '_' || d = c then likeLoop fuel s p' star
      else if d = '%' then likeLoop fuel (c :: s) p' (some (c :: s, p'))
      else again

/-- `like_match`. -/
def likeMatch (s p : Text) : Bool :=
  likeLoop ((s.length + 1) * (s.length + p.length + 1) + 1) s p none

/-! ## Leaves -/

/-- The type of a field's index. -/
inductive AttrType where
  | label
  | range
  | string
  deriving DecidableEq

/-- The kinds of leaf selectors. -/
inductive LeafKind where
  | labelOr
  | labelAnd
  | range
  | stringEq
  | stringPrefix
  | stringSuffix
  | stringLike
  deriving DecidableEq

/-- The type of index that a leaf works on. -/
def LeafKind.indexType : LeafKind → AttrType
  | .labelOr | .labelAnd => .label
  | .range => .range
  | .stringEq | .stringPrefix | .stringSuffix | .stringLike => .string

/-- A leaf selector: `key_`, its slot in the query, and `base_key_`, its key in the
attributes of a row. -/
structure LeafSelector where
  kind : LeafKind
  key : Nat
  baseKey : UInt32
  deriving DecidableEq

/-- `Attributes` of a row, by key. -/
abbrev Attributes := List (UInt32 × Attribute)

/-- The exact test of a leaf, on the query's attribute and the row's. -/
def LeafKind.test (query target : Attribute) : LeafKind → Option Bool
  | .labelOr => some (query.any fun label => target.contains label)
  | .labelAnd => some (query.all fun label => target.contains label)
  | .range =>
    match query, target with
    | [l], t :: _ => some (l ≤ t && t < l + 1)
    | l :: r :: _, t :: _ => some (l ≤ t && t < r)
    | _, _ => none
  | .stringEq => some ((records (query.length + 1) query).any fun rec => rec = target)
  | .stringPrefix =>
    some ((records (query.length + 1) query).any fun rec =>
      (stringAttrView rec).isPrefixOf (stringAttrView target))
  | .stringSuffix =>
    some ((records (query.length + 1) query).any fun rec =>
      (stringAttrView rec).isSuffixOf (stringAttrView target))
  | .stringLike =>
    some ((records (query.length + 1) query).any fun rec =>
      likeMatch (stringAttrView target) (stringAttrView rec))

/-- `is_member` of a leaf. -/
def LeafSelector.isMember (queryAttrs : List Attribute) (targetAttrs : Attributes)
    (d : LeafSelector) : Option Bool :=
  match targetAttrs.lookup d.baseKey with
  | none => some false
  | some target => (queryAttrs[d.key]?).bind fun query => d.kind.test query target

/-! ## The compiler -/

/-- `FieldInfo`, without the pointer to the index. -/
structure FieldInfo where
  key : UInt32
  type : AttrType
  nVectors : Nat
  deriving DecidableEq

/-- `Schema`, by field name. -/
abbrev Schema := List (Text × FieldInfo)

/-- `schema_n_vectors`. -/
def schemaNVectors (schema : Schema) : Nat := (schema.head?.map fun f => f.2.nVectors).getD 0

/-- What the compiler fills in besides the tree: `attrs_template` by slot, `slot_map` and
`var_field_type`. -/
structure Bindings where
  attrsTemplate : List Attribute
  slotMap : List (Text × Nat)
  varFieldType : List (Text × AttrType)

/-- `CompiledFilter`. -/
structure CompiledFilter extends Bindings where
  selector : FilterTree LeafSelector

/-- `alloc_slot`. -/
def allocSlot (cf : Bindings) (value : Attribute) : Nat × Bindings :=
  (cf.attrsTemplate.length, { cf with attrsTemplate := cf.attrsTemplate ++ [value] })

/-- `emplace` in a map: an entry that exists stays. -/
def emplace {β : Type} (m : List (Text × β)) (k : Text) (v : β) : List (Text × β) :=
  if (m.lookup k).isSome then m else m ++ [(k, v)]

/-- `alloc_placeholder_slot`. -/
def allocPlaceholderSlot (cf : Bindings) (var : Text) (fieldType : AttrType) : Nat × Bindings :=
  let (slot, cf) := allocSlot cf []
  (slot, { cf with
    slotMap := emplace cf.slotMap var slot
    varFieldType := emplace cf.varFieldType var fieldType })

/-- `placeholder_name`. -/
def placeholderName (s : Text) : Text := s.drop 2

/-- `to_u32`. -/
def toU32 (v : Json) : Option UInt32 := v.getNum.bind castU32

/-! ### Clauses -/

/-- What a clause on a field asks for. -/
inductive ClauseOp where
  | equal
  | isIn
  | all
  | startsWith
  | endsWith
  | like
  | compare
  deriving DecidableEq

/-- The kind of leaf for an equality on a field. -/
def AttrType.equalityKind : AttrType → LeafKind
  | .label => .labelOr
  | .range => .range
  | .string => .stringEq

/-- The kind of the leaf for a clause on a field. -/
def ClauseOp.kind (type : AttrType) : ClauseOp → LeafKind
  | .equal => type.equalityKind
  | .isIn => if type = .label then .labelOr else .stringEq
  | .all => .labelAnd
  | .startsWith => .stringPrefix
  | .endsWith => .stringSuffix
  | .like => .stringLike
  | .compare => .range

/-- What a slot is given at first: a constant, or nothing, to be filled in for a variable. -/
inductive SlotContent where
  | value (a : Attribute)
  | reserved (var : Text)
  deriving DecidableEq

/-- What a clause says, with the variables among the strings of its list, if it has one. -/
structure Clause where
  op : ClauseOp
  slot : SlotContent
  listVars : List Text
  deriving DecidableEq

/-- A clause with a constant. -/
def Clause.const (op : ClauseOp) (a : Attribute) : Clause := ⟨op, .value a, []⟩

/-- A clause with a placeholder. -/
def Clause.placeholder (op : ClauseOp) (s : Text) : Clause :=
  ⟨op, .reserved (placeholderName s), []⟩

/-- A clause on a field. -/
structure FieldClause extends Clause where
  info : FieldInfo
  deriving DecidableEq

namespace FieldClause

/-- The kind of the leaf. -/
def kind (c : FieldClause) : LeafKind := c.op.kind c.info.type

/-- The allocation of a slot for a clause. -/
def alloc (c : FieldClause) (cf : Bindings) : Nat × Bindings :=
  match c.slot with
  | .value a => allocSlot cf a
  | .reserved var => allocPlaceholderSlot cf var c.info.type

/-- The leaf of a clause, on a new slot. -/
def place (c : FieldClause) (cf : Bindings) : LeafSelector × Bindings :=
  (⟨c.kind, (c.alloc cf).1, c.info.key⟩, (c.alloc cf).2)

/-- The string selectors ask for a string index. -/
def checked (c : FieldClause) : Option FieldClause :=
  match c.kind with
  | .labelOr | .labelAnd | .range => some c
  | _ => if c.info.type = .string then some c else none

end FieldClause

variable (type : AttrType)

/-- A clause with a string literal: one record. -/
def clauseOfString (op : ClauseOp) (v : Json) : Option Clause :=
  v.getStr.map fun s => .const op (appendRecord [] (packStringAttr s))

/-- The clause `field : value`, for a value that is no object. -/
def clauseOfEquality (val : Json) : Option Clause :=
  match val.getStr.filter (fun s => isPlaceholder s) with
  | some s => some (.placeholder .equal s)
  | none =>
    match type with
    | .label => (toU32 val).map fun v => .const .equal [v]
    | .range =>
      (toU32 val).map fun v => .const .equal [v, if v.toNat = 2 ^ 32 - 1 then v else v + 1]
    | .string => clauseOfString .equal val

/-- The query of a list of strings: one record for each. -/
def stringQuery (strs : List Text) : Attribute :=
  strs.foldl (fun rec s => appendRecord rec (packStringAttr s)) []

/-- The clause `$in`.  In a list of strings a placeholder is one of the strings. -/
def clauseOfIn (valNode : Json) : Option Clause :=
  match valNode.getStr.filter (fun s => type = .label && isPlaceholder s) with
  | some s => some (.placeholder .isIn s)
  | none =>
    valNode.getArr.bind fun items =>
      if type = .label then (items.mapM toU32).map fun vals => .const .isIn vals
      else
        (items.mapM getStr).map fun strs => ⟨.isIn, .value (stringQuery strs),
          (strs.filter (fun s => isPlaceholder s)).map placeholderName⟩

/-- The clause `$all`. -/
def clauseOfAll (valNode : Json) : Option Clause :=
  match valNode.getStr.filter (fun s => isPlaceholder s) with
  | some s => some (.placeholder .all s)
  | none => valNode.getArr.bind fun items => (items.mapM toU32).map fun vals => .const .all vals

/-- One comparator of a range clause: the interval `[lo, hi)` it leaves. -/
def rangeOp (lohi : Nat × Nat) (op : Text × Json) : Option (Nat × Nat) :=
  (toU32 op.2).map fun v =>
    if op.1 = "$gt".toList then (max lohi.1 (v.toNat + 1), lohi.2)
    else if op.1 = "$ge".toList then (max lohi.1 v.toNat, lohi.2)
    else if op.1 = "$lt".toList then (lohi.1, min lohi.2 v.toNat)
    else if op.1 = "$le".toList then (lohi.1, min lohi.2 (v.toNat + 1))
    else lohi

/-- The clause of the comparators `$gt`, `$ge`, `$lt` and `$le`. -/
def clauseOfRange (ops : List (Text × Json)) : Option Clause :=
  (ops.foldlM rangeOp (0, 2 ^ 32)).map fun (lo, hi) => .const .compare
    [UInt32.ofNat (min lo (2 ^ 32 - 1)), UInt32.ofNat (min hi (2 ^ 32 - 1))]

/-- `{"$eq": v}` stands for `v`. -/
def stripEq : Json → Json
  | .obj ops => (findEq ops).getD (.obj ops)
  | j => j
where
  findEq : List (Text × Json) → Option Json
    | [] => none
    | (key, v) :: rest => if key = "$eq".toList then some (stripEq v) else findEq rest

/-- The branches of `compile_field_clause`. -/
def clauseOf (val : Json) : Option Clause :=
  match stripEq val with
  | .obj ops =>
    match find? "$in" ops with
    | some v => clauseOfIn type v
    | none =>
    match find? "$all" ops with
    | some v => clauseOfAll v
    | none =>
    match find? "$prefix" ops with
    | some v => clauseOfString .startsWith v
    | none =>
    match find? "$suffix" ops with
    | some v => clauseOfString .endsWith v
    | none =>
    match find? "$like" ops with
    | some v => clauseOfString .like v
    | none => clauseOfRange ops
  | val => clauseOfEquality type val

/-- `compile_field_clause`: the clause gets the next slot, and the selector on it is made. -/
def compileFieldClause (info : FieldInfo) (val : Json) (cf : Bindings) :
    Option (LeafSelector × Bindings) :=
  (clauseOf info.type val).bind fun c => (FieldClause.mk c info).checked.map (·.place cf)

/-! ### Trees -/

section Trees
variable {ℓ σ : Type} (leafOf : FieldInfo → Json → σ → Option (ℓ × σ)) (schema : Schema)

/-- The child of a field's clause, with any kind of leaves. -/
def compileFieldWith (info : FieldInfo) (val : Json) (cf : σ) : Option (FilterTree ℓ × σ) :=
  let leaf := fun (r : ℓ × σ) => (FilterTree.leaf r.1, r.2)
  let notLeaf := fun (r : ℓ × σ) => (FilterTree.not (.leaf r.1) (schemaNVectors schema), r.2)
  match val with
  | .obj ops =>
    match find? "$ne" ops with
    | some v => (leafOf info v cf).map notLeaf
    | none =>
      match find? "$nin" ops with
      | some v => (leafOf info (.obj [entry "$in" v]) cf).map notLeaf
      | none => (leafOf info val cf).map leaf
  | _ => (leafOf info val cf).map leaf

/-- `compile_node`, with any kind of leaves. -/
def compileNodeWith : Json → σ → Option (FilterTree ℓ × σ)
  | .obj entries, cf =>
    (compileEntries entries cf).map fun (children, cf) =>
      match children with
      | [only] => (only, cf)
      | children => (.and children, cf)
  | _, _ => none
where
  compileEntries : List (Text × Json) → σ → Option (List (FilterTree ℓ) × σ)
    | [], cf => some ([], cf)
    | (name, val) :: rest, cf =>
      (if name = "$and".toList then
          (compileLogicalArray val cf).map fun (subs, cf) => (.and subs, cf)
        else if name = "$or".toList then
          (compileLogicalArray val cf).map fun (subs, cf) => (.or subs, cf)
        else if name = "$not".toList then
          (compileNodeWith val cf).map fun (sub, cf) => (.not sub (schemaNVectors schema), cf)
        else (schema.lookup name).bind fun info => compileFieldWith leafOf schema info val cf).bind
        fun (child, cf) =>
          (compileEntries rest cf).map fun (children, cf) => (child :: children, cf)
  compileLogicalArray : Json → σ → Option (List (FilterTree ℓ) × σ)
    | .arr items, cf => compileItems items cf
    | _, _ => none
  compileItems : List Json → σ → Option (List (FilterTree ℓ) × σ)
    | [], cf => some ([], cf)
    | item :: rest, cf =>
      (compileNodeWith item cf).bind fun (sub, cf) =>
        (compileItems rest cf).map fun (subs, cf) => (sub :: subs, cf)

end Trees

/-! ### Two kinds of leaves

Two runs of the compiler have related results if their leaves are related. -/

section Related
variable {ℓ ℓ' σ σ' : Type} (S : σ → σ' → Prop)
  (P : σ → σ' → FilterTree ℓ × σ → FilterTree ℓ' × σ' → Prop)

/-- Trees that are compiled one after the other, and related. -/
inductive RelatedAll : σ → σ' → List (FilterTree ℓ) × σ → List (FilterTree ℓ') × σ' → Prop where
  | nil {x x'} : RelatedAll x x' ([], x) ([], x')
  | cons {x x' r r' rs rs'} : P x x' r r' → RelatedAll r.2 r'.2 rs rs' →
      RelatedAll x x' (r.1 :: rs.1, rs.2) (r'.1 :: rs'.1, rs'.2)

/-- `S` relates the states, and `P` the results from related states. -/
structure Related (leafOf : FieldInfo → Json → σ → Option (ℓ × σ))
    (leafOf' : FieldInfo → Json → σ' → Option (ℓ' × σ')) (schema schema' : Schema) : Prop where
  state : ∀ {x x' r r'}, P x x' r r' → S r.2 r'.2
  field : ∀ name, Rel (fun info info' => ∀ val {x x'}, S x x' →
      Rel (fun r r' => P x x' (.leaf r.1, r.2) (.leaf r'.1, r'.2))
        (leafOf info val x) (leafOf' info' val x'))
    (schema.lookup name) (schema'.lookup name)
  and : ∀ {x x' rs rs'}, S x x' → RelatedAll P x x' rs rs' →
    P x x' (.and rs.1, rs.2) (.and rs'.1, rs'.2)
  or : ∀ {x x' rs rs'}, S x x' → RelatedAll P x x' rs rs' →
    P x x' (.or rs.1, rs.2) (.or rs'.1, rs'.2)
  not : ∀ {x x' r r'}, P x x' r r' →
    P x x' (.not r.1 (schemaNVectors schema), r.2) (.not r'.1 (schemaNVectors schema'), r'.2)

theorem rel_bind {α β γ δ : Type} {R : α → β → Prop} {T : γ → δ → Prop} {o : Option α}
    {o' : Option β} {f : α → Option γ} {f' : β → Option δ} (h : Rel R o o')
    (hf : ∀ a b, R a b → Rel T (f a) (f' b)) : Rel T (o.bind f) (o'.bind f') := by
  cases h with
  | none => exact .none
  | some h => exact hf _ _ h

theorem rel_map {α β γ δ : Type} {R : α → β → Prop} {T : γ → δ → Prop} {o : Option α}
    {o' : Option β} {f : α → γ} {f' : β → δ} (h : Rel R o o')
    (hf : ∀ a b, R a b → T (f a) (f' b)) : Rel T (o.map f) (o'.map f') := by
  cases h with
  | none => exact .none
  | some h => exact .some (hf _ _ h)

theorem eq_map_of_rel {α β : Type} {g : β → α} {o : Option α} {o' : Option β}
    (h : Rel (fun a b => a = g b) o o') : o = o'.map g := by
  cases h with
  | none => rfl
  | some h => exact congrArg some h

variable {S P} {leafOf : FieldInfo → Json → σ → Option (ℓ × σ)}
  {leafOf' : FieldInfo → Json → σ' → Option (ℓ' × σ')} {schema schema' : Schema}

theorem Related.compileNodeWith (h : Related S P leafOf leafOf' schema schema') (j : Json) :
    (∀ x x', S x x' → Rel (P x x') (compileNodeWith leafOf schema j x)
      (compileNodeWith leafOf' schema' j x')) ∧
    ∀ x x', S x x' → Rel (RelatedAll P x x')
      (compileNodeWith.compileLogicalArray leafOf schema j x)
      (compileNodeWith.compileLogicalArray leafOf' schema' j x') := by
  induction j with
  | null | bool | num | str => exact ⟨fun _ _ _ => .none, fun _ _ _ => .none⟩
  | arr items ih =>
    refine ⟨fun _ _ _ => .none, ?_⟩
    induction items with
    | nil => exact fun _ _ _ => .some .nil
    | cons item rest ihs =>
      intro x x' hx
      obtain ⟨hitem, hrest⟩ := List.forall_mem_cons.mp ih
      exact rel_bind (hitem.1 x x' hx) fun r r' hr =>
        rel_map (ihs hrest _ _ (h.state hr)) fun rs rs' hrs => .cons hr hrs
  | obj entries ih =>
    refine ⟨fun x x' hx => ?_, fun _ _ _ => .none⟩
    have hentries : ∀ {x x'}, S x x' → Rel (RelatedAll P x x')
        (compileNodeWith.compileEntries leafOf schema entries x)
        (compileNodeWith.compileEntries leafOf' schema' entries x') := by
      induction entries with
      | nil => exact fun _ => .some .nil
      | cons e rest ihs =>
        intro x x' hx
        obtain ⟨⟨hnode, harray⟩, hrest⟩ := List.forall_mem_cons.mp ih
        refine rel_bind ?_ fun r r' hr =>
          rel_map (ihs hrest (h.state hr)) fun rs rs' hrs => .cons hr hrs
        split_ifs
        · exact rel_map (harray x x' hx) fun _ _ => h.and hx
        · exact rel_map (harray x x' hx) fun _ _ => h.or hx
        · exact rel_map (hnode x x' hx) fun _ _ => h.not
        · refine rel_bind (h.field e.1) fun info info' hinfo => ?_
          unfold compileFieldWith
          split
          · split
            · exact rel_map (hinfo _ hx) fun _ _ => h.not
            · split
              · exact rel_map (hinfo _ hx) fun _ _ => h.not
              · exact rel_map (hinfo _ hx) fun _ _ => id
          · exact rel_map (hinfo _ hx) fun _ _ => id
    refine rel_map (hentries hx) fun rs rs' hrs => ?_
    cases hrs with
    | nil => exact h.and hx .nil
    | cons hr hrs =>
      cases hrs with
      | nil => exact hr
      | cons hr' hrs => exact h.and hx (.cons hr (.cons hr' hrs))

end Related

/-- The child of a field's clause. -/
def compileField := compileFieldWith compileFieldClause

/-- `compile_node`. -/
def compileNode := compileNodeWith compileFieldClause

/-- `compile_logical_array`. -/
def compileLogicalArray := compileNodeWith.compileLogicalArray compileFieldClause

/-- The loop of `compile_logical_array`. -/
def compileItems := compileNodeWith.compileItems compileFieldClause

theorem compileItems_cons (schema : Schema) (item : Json) (rest : List Json) (cf : Bindings) :
    compileItems schema (item :: rest) cf = (compileNode schema item cf).bind fun r =>
      (compileItems schema rest r.2).map fun rs => (r.1 :: rs.1, rs.2) := rfl

theorem compileLogicalArray_arr (schema : Schema) (items : List Json) (cf : Bindings) :
    compileLogicalArray schema (.arr items) cf = compileItems schema items cf := rfl

/-- `compile`. -/
def compile (sql : Text) (schema : Schema) : Option CompiledFilter :=
  match sqlToMongoJson (trimLeft sql) with
  | .error _ => none
  | .ok src =>
    (compileNode schema (parse src) ⟨[], [], []⟩).map fun (selector, cf) =>
      { cf with selector := selector }

/-- `is_member` of a compiled filter without placeholders, on the attributes of a row. -/
def CompiledFilter.isMember (cf : CompiledFilter) (targetAttrs : Attributes) : Option Bool :=
  cf.selector.isMember fun d => d.isMember cf.attrsTemplate targetAttrs

end PipeANN.Dsl
