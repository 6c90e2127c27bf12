import PipeANN.FilterParsing

/-! # What compiled filters decide

The compiler turns the JSON form of a filter into a tree over query slots.  `Compiles T j p`
says that it does so from any state of the query attributes, only by appending slots, and
that the tree then decides `p` on the attributes of every row of the table `T`, whatever
slots are appended later.  There is one rule per form of a node.

What the leaves decide is not quite what the filter says (`Atom.seen`): the interval
`[l, r)` of a range leaf has `uint32_t` ends, so that `UINT32_MAX` is in none of them; a
string is compared by its words, so that trailing zero bytes are not seen.
-/
namespace PipeANN.Dsl
open List Function
open Option (map_some filter_none bind_some)

/-! ## Strings by their words -/

theorem toByte_eq {c : Char} {n : Nat} (h : n % 256 = c.toNat) : Json.toByte n = c := by
  rw [Json.toByte, h, Char.ofNat_toNat]

theorem wordBytes_packWord {a b c d : Char} (ha : a.toNat < 256) (hb : b.toNat < 256)
    (hc : c.toNat < 256) (hd : d.toNat < 256) : wordBytes (packWord a b c d) = [a, b, c, d] := by
  have hword : (packWord a b c d).toNat
      = a.toNat + 256 * (b.toNat + 256 * (c.toNat + 256 * d.toNat)) := by
    exact Nat.mod_eq_of_lt (by omega)
  rw [wordBytes, toByte_eq (c := a) (by omega), toByte_eq (c := b) (by omega),
    toByte_eq (c := c) (by omega), toByte_eq (c := d) (by omega)]

theorem padded_word (a b c d : Char) (rest : Text) :
    padded (a :: b :: c :: d :: rest) = a :: b :: c :: d :: padded rest := by
  have hlen : (a :: b :: c :: d :: rest).length % 4 = rest.length % 4 := by
    simp only [length_cons]
    omega
  rw [padded, hlen]
  rfl

/-- The words of a string are its bytes, filled up with zeros. -/
theorem packStringAttr_bytes : ∀ {s : Text}, Json.IsBytes s →
    (packStringAttr s).flatMap wordBytes = padded s
  | [], _ => rfl
  | [a], h => by
    simp [packStringAttr, wordBytes_packWord (h a (by simp)) (by decide : '\x00'.toNat < 256),
      padded]
  | [a, b], h => by
    simp [packStringAttr, wordBytes_packWord (h a (by simp)) (h b (by simp))
      (by decide : '\x00'.toNat < 256), padded]
  | [a, b, c], h => by
    simp [packStringAttr, wordBytes_packWord (h a (by simp)) (h b (by simp)) (h c (by simp)),
      padded]
  | a :: b :: c :: d :: rest, h => by
    have hrest := packStringAttr_bytes (s := rest) fun x hx => h x (by simp [hx])
    rw [packStringAttr, flatMap_cons, hrest, padded_word,
      wordBytes_packWord (h a (by simp)) (h b (by simp)) (h c (by simp)) (h d (by simp))]
    rfl

theorem packStringAttr_padded : ∀ (s : Text), packStringAttr (padded s) = packStringAttr s
  | [] | [_] | [_, _] | [_, _, _] => rfl
  | a :: b :: c :: d :: rest => by
    rw [padded_word, packStringAttr, packStringAttr, packStringAttr_padded rest]

variable {s : Text} {v : Nat}

theorem toNat_ofNat_lt (hv : v < 2 ^ 32) : (UInt32.ofNat v).toNat = v := by
  exact Nat.mod_eq_of_lt hv

/-- Two strings have the same words when they differ by trailing zero bytes in the last
word only. -/
theorem packStringAttr_eq_iff {t : Text} (hs : Json.IsBytes s) (ht : Json.IsBytes t) :
    packStringAttr s = packStringAttr t ↔ padded s = padded t := by
  refine ⟨fun h => ?_, fun h => ?_⟩
  · rw [← packStringAttr_bytes hs, ← packStringAttr_bytes ht, h]
  · rw [← packStringAttr_padded s, ← packStringAttr_padded t, h]

theorem length_packStringAttr : ∀ (s : Text), (packStringAttr s).length = (s.length + 3) / 4
  | [] => rfl
  | [_] | [_, _] | [_, _, _] => by simp [packStringAttr]
  | a :: b :: c :: d :: rest => by
    rw [packStringAttr, length_cons, length_packStringAttr rest]
    simp only [length_cons]
    omega

/-! ## Records -/

/-- The records of a list of strings. -/
theorem foldl_appendRecord : ∀ (strs : List Text) (dest : Attribute),
    strs.foldl (fun rec s => appendRecord rec (packStringAttr s)) dest
      = dest ++ strs.flatMap fun s => UInt32.ofNat (packStringAttr s).length :: packStringAttr s
  | [], dest => by rw [flatMap_nil, append_nil]; rfl
  | s :: strs, dest => by
    rw [foldl_cons, foldl_appendRecord strs, flatMap_cons, appendRecord, append_assoc]

theorem records_strings : ∀ {strs : List Text} {fuel : Nat},
    (∀ s ∈ strs, (s.length + 3) / 4 < 2 ^ 32) →
    (strs.flatMap fun s => UInt32.ofNat (packStringAttr s).length :: packStringAttr s).length
      < fuel →
    records fuel (strs.flatMap fun s =>
      UInt32.ofNat (packStringAttr s).length :: packStringAttr s) = strs.map packStringAttr
  | [], fuel + 1, _, _ => rfl
  | s :: strs, fuel + 1, hs, hf => by
    obtain ⟨hlen, hstrs⟩ := forall_mem_cons.mp hs
    rw [flatMap_cons, cons_append] at hf ⊢
    rw [length_cons, length_append] at hf
    have ih := records_strings hstrs (lt_of_le_of_lt (Nat.le_add_left _ _)
      (Nat.lt_of_succ_lt_succ hf))
    rw [← length_packStringAttr] at hlen
    rw [records, toNat_ofNat_lt hlen, if_neg (by simp), take_left, drop_left, ih, map_cons]

/-- The length of a record is a `uint32_t`. -/
theorem length_lt_of_mem_records : ∀ {fuel : Nat} {q rec : Attribute},
    rec ∈ records fuel q → rec.length < 2 ^ 32
  | 0, _, _, h => by cases h
  | _ + 1, [], _, h => by cases h
  | fuel + 1, len :: q, rec, h => by
    rw [records] at h
    split_ifs at h
    · cases h
    rcases mem_cons.mp h with rfl | h
    · exact lt_of_le_of_lt (length_take_le _ _) len.toNat_lt
    · exact length_lt_of_mem_records h

/-- The test of a string leaf that was compiled for a list of strings. -/
theorem test_stringEq {strs : List Text} (hs : ∀ s ∈ strs, (s.length + 3) / 4 < 2 ^ 32)
    (target : Attribute) :
    LeafKind.test (strs.foldl (fun rec s => appendRecord rec (packStringAttr s)) []) target
      .stringEq = some (strs.any fun s => packStringAttr s = target) := by
  rw [LeafKind.test, foldl_appendRecord, nil_append,
    records_strings hs (Nat.lt_succ_self _), any_map]
  rfl

/-! ## Intervals and labels -/

theorem contains_ofNat (hv : v < 2 ^ 32) (labels : List UInt32) :
    labels.contains (UInt32.ofNat v) = (labels.map UInt32.toNat).contains v := by
  rw [Bool.eq_iff_iff, contains_iff_mem, contains_iff_mem, mem_map]
  constructor
  · exact fun h => ⟨_, h, toNat_ofNat_lt hv⟩
  · rintro ⟨x, hx, rfl⟩
    rwa [UInt32.ofNat_toNat]

variable {vs : List Nat}

theorem any_contains_ofNat (h : ∀ v ∈ vs, v < 2 ^ 32) (labels : List UInt32) :
    ((vs.map UInt32.ofNat).any fun label => labels.contains label)
      = vs.any fun v => (labels.map UInt32.toNat).contains v := by
  induction vs <;> simp_all [contains_ofNat, -contains_eq_mem]

theorem all_contains_ofNat (h : ∀ v ∈ vs, v < 2 ^ 32) (labels : List UInt32) :
    ((vs.map UInt32.ofNat).all fun label => labels.contains label)
      = vs.all fun v => (labels.map UInt32.toNat).contains v := by
  induction vs <;> simp_all [contains_ofNat, -contains_eq_mem]

theorem toU32_num (hv : v < 2 ^ 32) : toU32 (.num v) = some (UInt32.ofNat v) := if_pos hv

theorem mapM_toU32 (h : ∀ v ∈ vs, v < 2 ^ 32) :
    (vs.map Json.num).mapM toU32 = some (vs.map UInt32.ofNat) := by
  induction vs <;> simp_all [toU32_num]

theorem toU32_num_eq_none (hv : ¬ v < 2 ^ 32) : toU32 (.num v) = none := if_neg hv

theorem mapM_toU32_eq_none (hmem : v ∈ vs) (hv : ¬ v < 2 ^ 32) :
    (vs.map Json.num).mapM toU32 = none := by
  induction vs with
  | nil => cases hmem
  | cons u vs ih =>
    rcases mem_cons.mp hmem with rfl | hmem
    · simp [toU32_num_eq_none hv]
    · simp [ih hmem]

theorem mapM_getStr (strs : List Text) : (strs.map Json.str).mapM Json.getStr = some strs := by
  induction strs <;> simp_all [Json.getStr]

/-! ## Slots and leaves -/

/-- Bindings with slots appended. -/
def Bindings.extend (cf : Bindings) (more : List Attribute) : Bindings :=
  { cf with attrsTemplate := cf.attrsTemplate ++ more }

theorem Bindings.extend_extend (cf : Bindings) (more more' : List Attribute) :
    (cf.extend more).extend more' = cf.extend (more ++ more') := by
  rw [extend, extend, extend, append_assoc]

/-- A leaf on the next slot. -/
def slotLeaf (kind : LeafKind) (info : FieldInfo) (query : Attribute) (cf : Bindings) :
    LeafSelector × Bindings :=
  (⟨kind, cf.attrsTemplate.length, info.key⟩, cf.extend [query])

/-- A clause with a constant is compiled to a leaf on the next slot. -/
theorem compileFieldClause_of_clause {info : FieldInfo} {val : Json} (op : ClauseOp)
    (vars : List Text) {query : Attribute} {kind : LeafKind}
    (h : clauseOf info.type val = some ⟨op, .value query, vars⟩)
    (hkind : op.kind info.type = kind) (hty : info.type = kind.indexType) (cf : Bindings) :
    compileFieldClause info val cf = some (slotLeaf kind info query cf) := by
  have hchecked : FieldClause.checked ⟨⟨op, .value query, vars⟩, info⟩ =
      some ⟨⟨op, .value query, vars⟩, info⟩ := by
    rw [FieldClause.checked, FieldClause.kind, hkind]
    cases kind <;> first | rfl | exact if_pos hty
  rw [compileFieldClause, h, bind_some, hchecked, map_some, FieldClause.place, FieldClause.kind,
    hkind]
  rfl

variable {α : Type}

theorem lookup_of_mem {β γ : Type} [BEq β] [LawfulBEq β] {key : α → β} (val : α → γ) :
    ∀ {l : List α}, (l.map key).Nodup → ∀ {a : α}, a ∈ l →
    (l.map fun a => (key a, val a)).lookup (key a) = some (val a)
  | b :: l, hnd, a, ha => by
    obtain ⟨hb, hnd⟩ := nodup_cons.mp hnd
    rw [map_cons, lookup_cons]
    rcases mem_cons.mp ha with rfl | ha
    · rw [beq_self_eq_true]
    · have hne : key a ≠ key b := fun h => hb (h ▸ mem_map_of_mem ha)
      rw [beq_eq_false_iff_ne.mpr hne]
      exact lookup_of_mem val hnd ha

variable {T : Table} {ty : AttrType}

theorem Table.Field.lookup_schema (field : T.Field ty) :
    T.schema.lookup field.name = some field.info := by
  have h := lookup_of_mem Prod.snd T.names_nodup field.mem
  rwa [map_id'' (fun _ => rfl)] at h

theorem Table.Field.lookup_attributes (field : T.Field ty) (row : Row) :
    (T.attributes row).lookup field.info.key = some (row.attribute field.name ty) := by
  have h := lookup_of_mem (fun f => row.attribute f.1 f.2.type) T.keys_nodup field.mem
  exact h.trans (by rw [field.type_eq])

theorem getElem?_slot (cf : Bindings) (query : Attribute) (later : List Attribute) :
    ((cf.extend [query]).attrsTemplate ++ later)[cf.attrsTemplate.length]? = some query := by
  simp [Bindings.extend]

theorem isMember_slotLeaf (field : T.Field ty) (kind : LeafKind) (query : Attribute)
    (cf : Bindings) (later : List Attribute) (row : Row) :
    (slotLeaf kind field.info query cf).1.isMember
        ((cf.extend [query]).attrsTemplate ++ later) (T.attributes row)
      = kind.test query (row.attribute field.name ty) := by
  rw [LeafSelector.isMember, slotLeaf, field.lookup_attributes, getElem?_slot]
  rfl

/-! ## Rules -/

/-- A tree decides `p` on the rows of a table. -/
def Table.Decides (T : Table) (queryAttrs : List Attribute) (tree : FilterTree LeafSelector)
    (p : Row → Bool) : Prop :=
  ∀ row, tree.isMember (fun d => d.isMember queryAttrs (T.attributes row)) = some (p row)

/-- A step of the compiler yields a tree with a property, whatever slots follow. -/
def Produces (Φ : List Attribute → FilterTree LeafSelector → Prop)
    (step : Bindings → Option (FilterTree LeafSelector × Bindings)) : Prop :=
  ∀ cf, ∃ tree more, step cf = some (tree, cf.extend more) ∧
    ∀ later, Φ ((cf.extend more).attrsTemplate ++ later) tree

/-- A step of the compiler yields a tree that decides `p`. -/
def Yields (T : Table) (step : Bindings → Option (FilterTree LeafSelector × Bindings))
    (p : Row → Bool) : Prop :=
  ∀ cf, ∃ tree more, step cf = some (tree, cf.extend more) ∧
    ∀ later, T.Decides ((cf.extend more).attrsTemplate ++ later) tree p

/-- A node is compiled to a tree that decides `p`. -/
def Compiles (T : Table) (j : Json) (p : Row → Bool) : Prop := Yields T (compileNode T.schema j) p

section Produces
variable {Φ Ψ : List Attribute → FilterTree LeafSelector → Prop}
    {step : Bindings → Option (FilterTree LeafSelector × Bindings)} {val : Json} {node : α → Json}

theorem Produces.not {n : Nat} (h : Produces Φ step) (hnot : ∀ q t, Φ q t → Ψ q (.not t n)) :
    Produces Ψ (fun cf => (step cf).map fun r => (.not r.1 n, r.2)) := by
  intro cf
  obtain ⟨tree, more, hstep, htree⟩ := h cf
  exact ⟨.not tree n, more, by simp only [hstep, map_some], fun later => hnot _ _ (htree later)⟩

/-- The clause of a field as a leaf of the tree. -/
def leafClause (info : FieldInfo) (val : Json) (cf : Bindings) :
    Option (FilterTree LeafSelector × Bindings) :=
  (compileFieldClause info val cf).map fun r => (.leaf r.1, r.2)

/-- A clause that is compiled to one leaf. -/
theorem produces_slotLeaf {info : FieldInfo} {kind : LeafKind} {query : Attribute}
    (hclause : ∀ cf, compileFieldClause info val cf = some (slotLeaf kind info query cf))
    (hleaf : ∀ cf later, Φ ((cf.extend [query]).attrsTemplate ++ later)
      (.leaf (slotLeaf kind info query cf).1)) :
    Produces Φ (leafClause info val) := by
  intro cf
  refine ⟨.leaf (slotLeaf kind info query cf).1, [query], ?_, hleaf cf⟩
  rw [leafClause, hclause]
  rfl

/-- An object with one entry. -/
theorem compileNode_entry (schema : Schema) (name : Text) (val : Json) (cf : Bindings) :
    compileNode schema (.obj [(name, val)]) cf = if name = "$and".toList then
          (compileLogicalArray schema val cf).map fun r => (.and r.1, r.2)
        else if name = "$or".toList then
          (compileLogicalArray schema val cf).map fun r => (.or r.1, r.2)
        else if name = "$not".toList then
          (compileNode schema val cf).map fun r => (.not r.1 (schemaNVectors schema), r.2)
        else (schema.lookup name).bind fun info => compileField schema info val cf := by
  unfold compileNode compileField compileLogicalArray
  rw [compileNodeWith, compileNodeWith.compileEntries]
  generalize (if name = "$and".toList then _ else _ :
    Option (FilterTree LeafSelector × Bindings)) = r
  cases r <;> rfl

theorem compileNode_field (field : T.Field ty) (val : Json) (cf : Bindings) :
    compileNode T.schema (.obj [(field.name, val)]) cf
      = compileField T.schema field.info val cf := by
  obtain ⟨-, -, hand, hor, hnot⟩ := T.names_ok _ field.mem
  rw [compileNode_entry, if_neg hand, if_neg hor, if_neg hnot, field.lookup_schema]
  rfl

/-- A clause without `$ne` and `$nin`. -/
theorem Produces.clause {field : T.Field ty}
    (hplain : ∀ cf, compileField T.schema field.info val cf = leafClause field.info val cf)
    (h : Produces Φ (leafClause field.info val)) :
    Produces Φ (compileNode T.schema (.obj [(field.name, val)])) := by
  intro cf
  rw [compileNode_field, hplain]
  exact h cf

/-- A clause `$ne`. -/
theorem Produces.clauseNe {field : T.Field ty} (h : Produces Φ (leafClause field.info val))
    (hnot : ∀ q t, Φ q t → Ψ q (.not t (schemaNVectors T.schema))) :
    Produces Ψ (compileNode T.schema (.obj [(field.name, .obj [Json.entry "$ne" val])])) := by
  intro cf
  have hne : compileField T.schema field.info (.obj [Json.entry "$ne" val]) cf
      = (leafClause field.info val cf).map fun r => (.not r.1 (schemaNVectors T.schema), r.2) := by
    rw [leafClause, Option.map_map]
    rfl
  rw [compileNode_field, hne]
  exact h.not hnot cf

theorem Produces.nodeNot {j : Json} (h : Produces Φ (compileNode T.schema j))
    (hnot : ∀ q t, Φ q t → Ψ q (.not t (schemaNVectors T.schema))) :
    Produces Ψ (compileNode T.schema (.obj [Json.entry "$not" j])) := by
  intro cf
  rw [compileNode_entry]
  exact h.not hnot cf

/-- The items of an array are compiled one after the other. -/
theorem compileItems_of_produces {Φ : α → List Attribute → FilterTree LeafSelector → Prop} :
    ∀ {items : List α}, (∀ a ∈ items, Produces (Φ a) (compileNode T.schema (node a))) → ∀ cf,
    ∃ trees more,
      compileItems T.schema (items.map node) cf = some (trees, cf.extend more) ∧
      ∀ later, Forall₂ (Φ · ((cf.extend more).attrsTemplate ++ later)) items trees
  | [], _, cf => ⟨[], [], by rw [Bindings.extend, append_nil]; rfl, fun _ => .nil⟩
  | a :: items, h, cf => by
    obtain ⟨ha, hitems⟩ := forall_mem_cons.mp h
    obtain ⟨tree, more, htree, hfirst⟩ := ha cf
    obtain ⟨trees, more', htrees, hrest⟩ := compileItems_of_produces hitems (cf.extend more)
    rw [Bindings.extend_extend] at htrees hrest
    refine ⟨tree :: trees, more ++ more', ?_, fun later => .cons ?_ (hrest later)⟩
    · rw [map_cons, compileItems_cons, htree]
      exact congrArg (Option.map _) htrees
    · have hmore := hfirst (more' ++ later)
      rwa [← append_assoc, Bindings.extend, append_assoc cf.attrsTemplate] at hmore

/-- The node of a junction. -/
def Junction.tree : Junction → List (FilterTree LeafSelector) → FilterTree LeafSelector
  | .and => .and
  | .or => .or

/-- `$and` and `$or`. -/
theorem produces_junction (j : Junction) {items : List α}
    {Φ : α → List Attribute → FilterTree LeafSelector → Prop}
    (h : ∀ a ∈ items, Produces (Φ a) (compileNode T.schema (node a)))
    (hjoin : ∀ q trees, Forall₂ (Φ · q) items trees → Ψ q (j.tree trees)) :
    Produces Ψ (compileNode T.schema (.obj [Json.entry j.key (.arr (items.map node))])) := by
  intro cf
  obtain ⟨trees, more, htrees, hitems⟩ := compileItems_of_produces h cf
  refine ⟨j.tree trees, more, ?_, fun later => hjoin _ _ (hitems later)⟩
  cases j with
  | and | or =>
    rw [Json.entry, compileNode_entry, compileLogicalArray_arr, htrees]
    rfl

end Produces

variable {p : Row → Bool} {val : Json} {field : T.Field ty}

theorem Table.Decides.not {queryAttrs : List Attribute} {tree : FilterTree LeafSelector} {n : Nat}
    (h : T.Decides queryAttrs tree p) : T.Decides queryAttrs (.not tree n) (fun row => !p row) := by
  intro row
  rw [FilterTree.isMember, h row]
  rfl

theorem Yields.congr {step : Bindings → Option (FilterTree LeafSelector × Bindings)}
    {p' : Row → Bool} (h : Yields T step p) (hp : ∀ row, p row = p' row) : Yields T step p' :=
  (funext hp : p = p') ▸ h

theorem yields_leaf (field : T.Field ty) {kind : LeafKind} {query : Attribute}
    (hclause : ∀ cf, compileFieldClause field.info val cf
      = some (slotLeaf kind field.info query cf))
    (htest : ∀ row, kind.test query (row.attribute field.name ty) = some (p row)) :
    Yields T (leafClause field.info val) p :=
  produces_slotLeaf (Φ := fun q t => T.Decides q t p) hclause fun cf later row =>
    (isMember_slotLeaf field kind query cf later row).trans (htest row)

theorem Compiles.clause
    (hplain : ∀ cf, compileField T.schema field.info val cf = leafClause field.info val cf)
    (h : Yields T (leafClause field.info val) p) : Compiles T (.obj [(field.name, val)]) p :=
  Produces.clause (Φ := fun q t => T.Decides q t p) hplain h

theorem Compiles.clauseNe (h : Yields T (leafClause field.info val) p) :
    Compiles T (.obj [(field.name, .obj [Json.entry "$ne" val])]) (fun row => !p row) :=
  Produces.clauseNe (Φ := fun q t => T.Decides q t p) (Ψ := fun q t => T.Decides q t _) h
    fun _ _ => .not

theorem Compiles.not {j : Json} (h : Compiles T j p) :
    Compiles T (.obj [Json.entry "$not" j]) (fun row => !p row) :=
  Produces.nodeNot (Φ := fun q t => T.Decides q t p) (Ψ := fun q t => T.Decides q t _) h
    fun _ _ => .not

theorem Compiles.junction (j : Junction) {node : α → Json} {p : α → Row → Bool}
    {items : List α} (h : ∀ a ∈ items, Compiles T (node a) (p a)) :
    Compiles T (.obj [Json.entry j.key (.arr (items.map node))])
      (fun row => j.eval (items.map fun a => p a row)) := by
  refine produces_junction (Φ := fun a q t => T.Decides q t (p a)) (Ψ := fun q t => T.Decides q t _)
    j h fun q trees hitems row => ?_
  clear h
  induction hitems with
  | nil => cases j <;> rfl
  | @cons a tree items trees htree _ ih =>
    cases j with
    | and | or =>
      simp only [Junction.tree, FilterTree.isMember] at ih ⊢
      simp only [FilterTree.isMember.isMemberAll, FilterTree.isMember.isMemberAny, htree row, ih,
        map_cons]
      cases p a row <;> rfl

/-! ## Atomic filters -/

/-- `!=` is compiled as the negation of `=`. -/
def Comparison.negated : Comparison → Bool
  | .ne => true
  | _ => false

theorem Comparison.holds_eq (x v : Nat) (op : Comparison) :
    op.holds x v = (op.interval.holds x v != op.negated) := by
  cases op <;> simp [Comparison.holds, Comparison.interval, Comparison.negated]

/-- What the leaves of an atomic filter see of a row: `UINT32_MAX` is in no interval, and
strings are filled up with zero bytes. -/
def Atom.seen (row : Row) : Atom T → Bool
  | .num field op v =>
    ((row.num field.name).toNat ≠ maxU32 && op.interval.holds (row.num field.name).toNat v)
      != op.negated
  | .between field lo hi =>
    (row.num field.name).toNat ≠ maxU32 &&
      (lo ≤ (row.num field.name).toNat && (row.num field.name).toNat ≤ hi)
  | .numIn field vs =>
    (row.num field.name).toNat ≠ maxU32 && vs.contains (row.num field.name).toNat
  | .str field negate lit => (padded (row.str field.name).text = padded lit.text) != negate
  | .strIn field lits => lits.any fun lit => padded (row.str field.name).text = padded lit.text
  | a => a.holds row

/-! ### Intervals -/

/-- The attribute of an interval `[lo, hi)`, with its ends capped. -/
def rangeQuery (lo hi : Nat) : Attribute :=
  [UInt32.ofNat (min lo (2 ^ 32 - 1)), UInt32.ofNat (min hi (2 ^ 32 - 1))]

/-- The interval of a comparison, before its ends are capped. -/
def Comparison.bounds (v : Nat) : Comparison → Nat × Nat
  | .eq | .ne => (v, v + 1)
  | .lt => (0, v)
  | .le => (0, v + 1)
  | .gt => (v + 1, 2 ^ 32)
  | .ge => (v, 2 ^ 32)

theorem test_rangeQuery (lo hi : Nat) (x : UInt32) : LeafKind.test (rangeQuery lo hi) [x] .range
      = some (x.toNat ≠ maxU32 && (lo ≤ x.toNat && x.toNat < hi)) := by
  have hx : x.toNat < 2 ^ 32 := x.toNat_lt
  rw [rangeQuery, LeafKind.test, Option.some_inj, Bool.eq_iff_iff]
  simp only [Bool.and_eq_true, decide_eq_true_eq, UInt32.le_iff_toNat_le, UInt32.lt_iff_toNat_lt]
  rw [toNat_ofNat_lt (by omega), toNat_ofNat_lt (by omega)]
  rw [maxU32]
  omega

theorem Comparison.mem_bounds {x : Nat} (hx : x < 2 ^ 32) (op : Comparison) :
    (decide ((op.bounds v).1 ≤ x) && decide (x < (op.bounds v).2)) = op.interval.holds x v := by
  rw [Bool.eq_iff_iff, Bool.and_eq_true, decide_eq_true_eq, decide_eq_true_eq]
  cases op <;> simp only [bounds, interval, holds, decide_eq_true_eq] <;> omega

variable (field : T.Field .range)

/-- An equality on a range field. -/
theorem compileFieldClause_num (hv : v < 2 ^ 32)
    (cf : Bindings) : compileFieldClause field.info (.num v) cf
      = some (slotLeaf .range field.info (rangeQuery v (v + 1)) cf) := by
  have hquery : [UInt32.ofNat v, if v = 2 ^ 32 - 1 then UInt32.ofNat v else UInt32.ofNat v + 1]
      = rangeQuery v (v + 1) := by
    rw [rangeQuery, show min v (2 ^ 32 - 1) = v by omega]
    split_ifs with h
    · rw [h]
      rfl
    · rw [show min (v + 1) (2 ^ 32 - 1) = v + 1 by omega, UInt32.ofNat_add]
      rfl
  refine compileFieldClause_of_clause .equal [] ?_
    (congrArg AttrType.equalityKind field.type_eq) field.type_eq cf
  simp only [clauseOf, stripEq, clauseOfEquality, field.type_eq, toU32_num hv, toNat_ofNat_lt hv,
    map_some, hquery]
  rfl

theorem clauseOfRange_of_foldlM {ops : List (Text × Json)} {lo hi : Nat}
    (h : ops.foldlM rangeOp (0, 2 ^ 32) = some (lo, hi)) :
    clauseOfRange ops = some (.const .compare (rangeQuery lo hi)) := by
  rw [clauseOfRange, h]
  rfl

theorem rangeOp_entry (hv : v < 2 ^ 32) (lohi : Nat × Nat) (key : String) :
    rangeOp lohi (Json.entry key (.num v))
      = some (if key.toList = "$gt".toList then (max lohi.1 (v + 1), lohi.2)
        else if key.toList = "$ge".toList then (max lohi.1 v, lohi.2)
        else if key.toList = "$lt".toList then (lohi.1, min lohi.2 v)
        else if key.toList = "$le".toList then (lohi.1, min lohi.2 (v + 1))
        else lohi) := by
  simp only [rangeOp, Json.entry, toU32_num hv, map_some, toNat_ofNat_lt hv]

/-- A comparison on a range field. -/
theorem compileFieldClause_comparison (op : Comparison) (hv : v < 2 ^ 32) (cf : Bindings) :
    compileFieldClause field.info (op.interval.clause (.num v)) cf
      = some (slotLeaf .range field.info (rangeQuery (op.bounds v).1 (op.bounds v).2) cf) := by
  have hmin : min (2 ^ 32) v = v ∧ min (2 ^ 32) (v + 1) = v + 1 := by omega
  cases op with
  | eq | ne => exact compileFieldClause_num field hv cf
  | lt | le | gt | ge =>
    refine compileFieldClause_of_clause .compare [] ?_ rfl field.type_eq cf
    refine @clauseOfRange_of_foldlM [_] _ _ ?_
    rw [foldlM_cons, rangeOp_entry hv]
    simp +decide only [hmin, Nat.zero_max, if_true, if_false]
    rfl

/-- `BETWEEN`. -/
theorem compileFieldClause_between {lo hi : Nat} (hlo : lo < 2 ^ 32)
    (hhi : hi < 2 ^ 32) (cf : Bindings) :
    compileFieldClause field.info (.obj [Json.entry "$ge" (.num lo), Json.entry "$le" (.num hi)]) cf
      = some (slotLeaf .range field.info (rangeQuery lo (hi + 1)) cf) := by
  have hmin : min (2 ^ 32) (hi + 1) = hi + 1 := by omega
  refine compileFieldClause_of_clause .compare [] ?_ rfl field.type_eq cf
  refine clauseOfRange_of_foldlM ?_
  rw [foldlM_cons, rangeOp_entry hlo, Option.bind_eq_bind, Option.bind_some, foldlM_cons,
    rangeOp_entry hhi]
  simp +decide only [hmin, Nat.zero_max, if_true, if_false]
  rfl

/-! ### Labels and strings -/

theorem compileFieldClause_label (field : T.Field .label) (hv : v < 2 ^ 32)
    (cf : Bindings) : compileFieldClause field.info (.num v) cf
      = some (slotLeaf .labelOr field.info [UInt32.ofNat v] cf) := by
  refine compileFieldClause_of_clause .equal [] ?_
    (congrArg AttrType.equalityKind field.type_eq) field.type_eq cf
  simp only [clauseOf, stripEq, clauseOfEquality, field.type_eq, toU32_num hv]
  rfl

theorem compileFieldClause_labelIn (field : T.Field .label)
    (hvs : ∀ v ∈ vs, v < 2 ^ 32) (cf : Bindings) :
    compileFieldClause field.info (.obj [Json.entry "$in" (.arr (vs.map .num))]) cf
      = some (slotLeaf .labelOr field.info (vs.map UInt32.ofNat) cf) := by
  refine compileFieldClause_of_clause .isIn [] ?_ (if_pos field.type_eq)
    field.type_eq cf
  change clauseOfIn field.info.type (.arr (vs.map .num)) = _
  simp only [clauseOfIn, Json.getArr, bind_some, field.type_eq, mapM_toU32 hvs]
  rfl

theorem compileFieldClause_labelAll (field : T.Field .label)
    (hvs : ∀ v ∈ vs, v < 2 ^ 32) (cf : Bindings) :
    compileFieldClause field.info (.obj [Json.entry "$all" (.arr (vs.map .num))]) cf
      = some (slotLeaf .labelAnd field.info (vs.map UInt32.ofNat) cf) := by
  refine compileFieldClause_of_clause .all [] ?_ rfl field.type_eq cf
  change clauseOfAll (.arr (vs.map .num)) = _
  simp only [clauseOfAll, Json.getArr, bind_some, mapM_toU32 hvs]
  rfl

theorem compileFieldClause_str (field : T.Field .string)
    (hs : isPlaceholder s = false) (cf : Bindings) :
    compileFieldClause field.info (.str s) cf
      = some (slotLeaf .stringEq field.info (stringQuery [s]) cf) := by
  have hplain : (some s).filter (fun s => isPlaceholder s) = none := by
    simp [hs]
  refine compileFieldClause_of_clause .equal [] ?_
    (congrArg AttrType.equalityKind field.type_eq) field.type_eq cf
  simp only [clauseOf, stripEq, clauseOfEquality, Json.getStr, hplain, field.type_eq]
  rfl

theorem compileFieldClause_strIn (field : T.Field .string) (strs : List Text) (cf : Bindings) :
    compileFieldClause field.info (.obj [Json.entry "$in" (.arr (strs.map .str))]) cf
      = some (slotLeaf .stringEq field.info (stringQuery strs) cf) := by
  have hlabel : ¬ field.info.type = .label := fun h => by cases field.type_eq.symm.trans h
  refine compileFieldClause_of_clause .isIn
    ((strs.filter fun s => isPlaceholder s).map placeholderName) ?_ (if_neg hlabel) field.type_eq cf
  change clauseOfIn field.info.type (.arr (strs.map .str)) = _
  simp only [clauseOfIn, Json.getArr, bind_some, if_neg hlabel, mapM_getStr]
  rfl

/-! ### What is compiled -/

theorem compiles_num (op : Comparison) (hv : v < 2 ^ 32) :
    Compiles T (.obj [(field.name, op.clause (.num v))])
      (fun row => (Atom.num field op v).seen row) := by
  have h : Yields T (leafClause field.info (op.interval.clause (.num v))) (fun row =>
      (row.num field.name).toNat ≠ maxU32 && op.interval.holds (row.num field.name).toNat v) := by
    refine yields_leaf field (compileFieldClause_comparison field op hv) fun row => ?_
    refine (test_rangeQuery _ _ _).trans ?_
    rw [op.mem_bounds (UInt32.toNat_lt _)]
  cases op with
  | ne => exact Yields.congr (Compiles.clauseNe h) fun row => (Bool.bne_true _).symm
  | _ => exact Compiles.clause (fun _ => rfl) (h.congr fun row => (Bool.bne_false _).symm)

theorem StringLit.not_placeholder (lit : StringLit) : isPlaceholder lit.text = false := by
  rw [isPlaceholder, lit.literal, Bool.and_false]

theorem StringLit.pack_eq_iff (lit : StringLit) (s : ByteString) :
    packStringAttr lit.text = packStringAttr s.text ↔ padded s.text = padded lit.text :=
  (packStringAttr_eq_iff lit.bytes s.bytes).trans eq_comm

theorem compiles_str (field : T.Field .string) (negate : Bool) {lit : StringLit} (hlit : lit.Safe) :
    Compiles T (Atom.str field negate lit).node
      (fun row => (Atom.str field negate lit).seen row) := by
  have h : Yields T (leafClause field.info (.str lit.text))
      (fun row => padded (row.str field.name).text = padded lit.text) := by
    refine yields_leaf field (compileFieldClause_str field lit.not_placeholder) fun row => ?_
    refine (test_stringEq (forall_mem_singleton.mpr hlit.2) _).trans ?_
    rw [any_cons, any_nil, Bool.or_false]
    exact congrArg some (decide_eq_decide.mpr (lit.pack_eq_iff _))
  cases negate with
  | false => exact Compiles.clause (fun _ => rfl) (h.congr fun row => (Bool.bne_false _).symm)
  | true => exact Yields.congr (Compiles.clauseNe h) fun row => (Bool.bne_true _).symm

/-- `IN` with one number is an equality; otherwise it is a disjunction. -/
theorem node_numIn (vs : List Nat) : (∃ v, vs = [v]) ∨ (Atom.numIn field vs).node
      = .obj [Json.entry "$or" (.arr (vs.map fun v => .obj [(field.name, .num v)]))] := by
  rcases vs with _ | ⟨v, _ | ⟨v', rest⟩⟩
  · exact .inr rfl
  · exact .inl ⟨v, rfl⟩
  · exact .inr rfl

theorem compiles_numIn (hvs : ∀ v ∈ vs, v < 2 ^ 32) :
    Compiles T (Atom.numIn field vs).node (fun row => (Atom.numIn field vs).seen row) := by
  have hitem : ∀ v ∈ vs, Compiles T (.obj [(field.name, .num v)])
      (fun row => (Atom.num field .eq v).seen row) :=
    fun v hv => compiles_num field .eq (hvs v hv)
  have hseen : ∀ row, Junction.or.eval (vs.map fun v => (Atom.num field .eq v).seen row)
      = (Atom.numIn field vs).seen row := by
    intro row
    rw [Junction.eval, any_map]
    grind [Atom.seen, Comparison.interval, Comparison.negated, Comparison.holds]
  rcases node_numIn field vs with ⟨v, rfl⟩ | hnode
  · refine Yields.congr (hitem v (mem_singleton_self v)) fun row => ?_
    rw [← hseen row, Junction.eval, map_cons, map_nil, any_cons, any_nil, Bool.or_false]
    rfl
  · rw [hnode]
    exact Yields.congr (Compiles.junction .or hitem) hseen

theorem compiles_strIn (field : T.Field .string) {lits : List StringLit}
    (hlits : ∀ lit ∈ lits, lit.Safe) :
    Compiles T (Atom.strIn field lits).node (fun row => (Atom.strIn field lits).seen row) := by
  cases lits with
  | nil =>
    exact @Compiles.junction StringLit _ .or (.str ·.text) (fun _ _ => false) [] (by simp)
  | cons lit rest =>
    have hstrs : ∀ s ∈ (lit :: rest).map StringLit.text, (s.length + 3) / 4 < 2 ^ 32 :=
      forall_mem_map.mpr fun l hl => (hlits l hl).2
    have hclause := compileFieldClause_strIn field ((lit :: rest).map StringLit.text)
    rw [map_map] at hclause
    refine Compiles.clause (fun _ => rfl) (yields_leaf field hclause fun row => ?_)
    refine (test_stringEq hstrs _).trans ?_
    rw [any_map, Atom.seen]
    simp only [comp_def, Row.attribute, StringLit.pack_eq_iff]

/-- An atomic filter is compiled to what its leaves see. -/
theorem compiles_atom {a : Atom T} (ha : a.Compilable) :
    Compiles T a.node (fun row => a.seen row) := by
  obtain ⟨hnum, hlit⟩ := ha
  cases a with
  | num field op v => exact compiles_num field op (hnum v (mem_singleton_self v))
  | between field lo hi =>
    have hlo := hnum lo (by simp [Atom.numbers])
    have hhi := hnum hi (by simp [Atom.numbers])
    refine Compiles.clause (fun _ => rfl)
      (yields_leaf field (compileFieldClause_between field hlo hhi) fun row => ?_)
    refine (test_rangeQuery _ _ _).trans ?_
    simp only [Atom.seen, Nat.lt_succ_iff]
  | numIn field vs => exact compiles_numIn field hnum
  | str field negate lit => exact compiles_str field negate (hlit lit (mem_singleton_self lit))
  | strIn field lits => exact compiles_strIn field hlit
  | contains field v =>
    have hv := hnum v (mem_singleton_self v)
    refine Compiles.clause (fun _ => rfl)
      (yields_leaf field (compileFieldClause_label field hv) fun row => ?_)
    simp only [LeafKind.test, any_cons, any_nil, Bool.or_false, contains_ofNat hv]
    rfl
  | containsAny field vs =>
    refine Compiles.clause (fun _ => rfl)
      (yields_leaf field (compileFieldClause_labelIn field hnum) fun row => ?_)
    exact congrArg some (any_contains_ofNat hnum _)
  | containsAll field vs =>
    refine Compiles.clause (fun _ => rfl)
      (yields_leaf field (compileFieldClause_labelAll field hnum) fun row => ?_)
    exact congrArg some (all_contains_ofNat hnum _)

theorem evals_eq (atom : Atom T → Bool) : ∀ (fs : List (Filter T)),
    Filter.eval.evals atom fs = fs.map (Filter.eval atom)
  | [] => rfl
  | f :: rest => by rw [Filter.eval.evals, evals_eq atom rest, map_cons]

theorem atomsAll_eq : ∀ (fs : List (Filter T)), Filter.atoms.atomsAll fs = fs.flatMap Filter.atoms
  | [] => rfl
  | f :: rest => by rw [Filter.atoms.atomsAll, atomsAll_eq rest, flatMap_cons]

/-- The atomic filters of a junction are those of its operands. -/
theorem mem_atoms_junction {j : Junction} {first second : Filter T} {rest : List (Filter T)}
    {a : Atom T} : a ∈ (Filter.junction j first second rest).atoms ↔
      ∃ f ∈ first :: second :: rest, a ∈ f.atoms := by
  simp [Filter.atoms, atomsAll_eq]

/-- **A filter is compiled to what its leaves see.** -/
theorem compiles_node {f : Filter T} (hf : ∀ a ∈ f.atoms, a.Compilable) :
    Compiles T f.node (fun row => f.eval (Atom.seen row)) := by
  induction f with
  | atom a => exact compiles_atom (hf a (mem_singleton_self a))
  | junction j first second rest ih =>
    have hoperands : ∀ f ∈ first :: second :: rest,
        Compiles T f.node (fun row => f.eval (Atom.seen row)) :=
      fun f hmem => ih f hmem fun a ha => hf a (mem_atoms_junction.mpr ⟨f, hmem, ha⟩)
    rw [node_junction]
    refine Yields.congr (Compiles.junction j hoperands) fun row => ?_
    rw [Filter.eval, evals_eq]
    rfl
  | not f ih => exact Compiles.not (ih hf)

end PipeANN.Dsl
