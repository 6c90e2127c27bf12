import PipeANN.FilterCache
import PipeANN.FilterCorrectness

/-! # What the index lists for a filter

A filter on its own (`query`, `remove`) is answered by the lists of its leaves; the records
of the rows are not looked at.  This module says for which filters and rows the lists of the
leaves are what the leaves test: then the answer is the meaning of the filter.

A row must not give a label twice.  The literal of a string comparison must not be the
beginning of a longer stored string, and both have to be terminated; `BETWEEN` must not have
its ends in the wrong order; and `array_contains_all` needs a label.
-/
namespace PipeANN
open List

/-! ## Trees for another number of vectors -/

namespace FilterTree
variable {ℓ : Type}

theorem WellFormed.retag {m : Nat} (n : Nat) (t : FilterTree ℓ) :
    t.WellFormed m → (t.retag n).WellFormed n := by
  induction t with
  | leaf d => exact id
  | and ss ih =>
    rintro ⟨hne, hss⟩
    rw [FilterTree.retag, retagAll_eq]
    exact ⟨fun hnil => hne (map_eq_nil_iff.mp hnil), wellFormedAll_iff.mpr
      (forall_mem_map.mpr fun s hs => ih s hs (wellFormedAll_iff.mp hss s hs))⟩
  | or ss ih =>
    intro hss
    rw [FilterTree.retag, retagAll_eq]
    exact wellFormedAll_iff.mpr
      (forall_mem_map.mpr fun s hs => ih s hs (wellFormedAll_iff.mp hss s hs))
  | not s k ih => exact fun h => ⟨rfl, ih h.2⟩

theorem AllLeaves.retag {P : ℓ → Prop} (n : Nat) (t : FilterTree ℓ) :
    t.AllLeaves P → (t.retag n).AllLeaves P := by
  induction t with
  | leaf d => exact id
  | and ss ih | or ss ih =>
    intro hss
    rw [FilterTree.retag, retagAll_eq]
    exact allBranches_iff.mpr (forall_mem_map.mpr fun s hs => ih s hs (allBranches_iff.mp hss s hs))
  | not s k ih => exact ih

theorem isMember_retag (leaf : ℓ → Option Bool) (n : Nat) (t : FilterTree ℓ) :
    (t.retag n).isMember leaf = t.isMember leaf := by
  induction t with
  | leaf d => rfl
  | and ss ih | or ss ih =>
    rw [retag, retagAll_eq, isMember, isMember]
    induction ss with
    | nil => rfl
    | cons s rest ihs =>
      obtain ⟨hs, hrest⟩ := forall_mem_cons.mp ih
      simp only [map_cons, isMember.isMemberAll, isMember.isMemberAny, hs, ihs hrest]
  | not s k ih => rw [retag, isMember, isMember, ih]

end FilterTree

namespace Dsl

/-! ## Strings -/

/-- The bytes of a string up to the first NUL. -/
def cString (s : Text) : Text := s.takeWhile (· ≠ '\x00')

/-- The words of the string have a NUL byte, or there are none. -/
def Terminated (s : Text) : Prop := s = [] ∨ '\x00' ∈ s ∨ s.length % 4 ≠ 0

instance (s : Text) : Decidable (Terminated s) := inferInstanceAs (Decidable (_ ∨ _ ∨ _))

theorem takeWhile_ne_replicate (k : Nat) :
    (replicate k '\x00').takeWhile (fun c => decide (c ≠ '\x00')) = [] := by
  cases k <;> rfl

theorem stringAttrView_pack {s : Text} (hs : Json.IsBytes s) :
    stringAttrView (packStringAttr s) = cString s := by
  rw [stringAttrView, packStringAttr_bytes hs, padded, takeWhile_append,
    takeWhile_ne_replicate, append_nil]
  split
  · refine (List.IsPrefix.eq_of_length ( takeWhile_prefix _) ‹_›).symm
  · rfl

theorem terminated_pack {s : Text} (hs : Json.IsBytes s) (h : Terminated s) :
    terminated (packStringAttr s) := by
  rw [terminated, packStringAttr_bytes hs, Bool.or_eq_true, contains_iff_mem, padded, mem_append]
  rcases h with rfl | h | h
  · exact .inl rfl
  · exact .inr (.inl h)
  · exact .inr (.inr (mem_replicate.mpr ⟨by omega, rfl⟩))

/-! ## Rows and filters -/

variable {T : Table}

/-- A row that the attribute indexes can hold. -/
def Table.Storable (T : Table) (row : Row) : Prop :=
  ∀ f ∈ T.schema,
    (f.2.type = .label → 4294967295 ∉ row.labels f.1 ∧ (row.labels f.1).Nodup) ∧
    (f.2.type = .string → Terminated (row.str f.1).text)

theorem Table.Storable.keyDefined {row : Row} (h : T.Storable row) (kind : LeafKind)
    (field : T.Field kind.indexType) :
    kind.keyDefined (row.attribute field.name kind.indexType) ∧
      kind.once (row.attribute field.name kind.indexType) := by
  obtain ⟨hlabel, hstring⟩ := h _ field.mem
  have hlabels : field.info.type = .label →
      (!(row.labels field.name).contains 4294967295) ∧
        decide (row.labels field.name).Nodup = true := by
    intro hty
    obtain ⟨hmax, hnodup⟩ := hlabel hty
    rw [Bool.not_eq_true', contains_eq_mem]
    exact ⟨decide_eq_false hmax, decide_eq_true hnodup⟩
  have hpack : field.info.type = .string →
      terminated (packStringAttr (row.str field.name).text) :=
    fun hty => terminated_pack (row.str field.name).bytes (hstring hty)
  cases kind with
  | labelOr | labelAnd => exact hlabels field.type_eq
  | range => exact ⟨rfl, rfl⟩
  | stringEq | stringPrefix | stringSuffix | stringLike => exact ⟨hpack field.type_eq, rfl⟩

/-- An atomic filter that the indexes can list for. -/
def Atom.Listable : Atom T → Prop
  | .between _ lo hi => lo ≤ hi + 1
  | .str _ _ lit => Terminated lit.text
  | .strIn _ lits => ∀ lit ∈ lits, Terminated lit.text
  | .containsAll _ vs => vs ≠ []
  | _ => True

/-- A row that has no longer string than the one an atomic filter asks for. -/
def Atom.ListedOk (row : Row) : Atom T → Prop
  | .str field _ lit =>
    cString lit.text <+: cString (row.str field.name).text →
      (row.str field.name).text = lit.text
  | .strIn field lits =>
    ∀ lit ∈ lits, cString lit.text <+: cString (row.str field.name).text →
      (row.str field.name).text = lit.text
  | _ => True

/-- A filter that the indexes can list for. -/
def Filter.Listable (f : Filter T) : Prop := ∀ a ∈ f.atoms, a.Listable

/-- A row that has no longer string than those a filter asks for. -/
def Filter.ListedOk (row : Row) (f : Filter T) : Prop := ∀ a ∈ f.atoms, a.ListedOk row

/-! ## What is compiled -/

/-- The lists of a leaf are defined, and on the rows `R` they are what the leaf tests. -/
structure LeafAgrees (T : Table) (R : Row → Prop) (queryAttrs : List Attribute)
    (d : LeafSelector) : Prop where
  indexed : ∃ f ∈ T.schema, f.2.key = d.baseKey ∧ f.2.type = d.kind.indexType
  queryDefined : (queryAttrs[d.key]?).any (d.kind.queryDefined ·) = true
  keyDefined : ∀ row, T.Storable row →
    ((T.attributes row).lookup d.baseKey).all (d.kind.keyDefined ·) = true ∧
      ((T.attributes row).lookup d.baseKey).all (d.kind.once ·) = true
  agrees : ∀ row, R row → ∃ b, d.lists queryAttrs (T.attributes row) = some b ∧
    d.isMember queryAttrs (T.attributes row) = some b

/-- A tree whose lists can be combined to what it tests. -/
def Listed (T : Table) (R : Row → Prop) (queryAttrs : List Attribute)
    (tree : FilterTree LeafSelector) : Prop :=
  tree.WellFormed (schemaNVectors T.schema) ∧ tree.AllLeaves (LeafAgrees T R queryAttrs)

section Rules
variable {R : Row → Prop}

theorem Listed.not {queryAttrs : List Attribute} {tree : FilterTree LeafSelector}
    (h : Listed T R queryAttrs tree) :
    Listed T R queryAttrs (.not tree (schemaNVectors T.schema)) := ⟨⟨rfl, h.1⟩, h.2⟩

variable {val : Json}

/-- A clause that is compiled to one leaf. -/
theorem produces_leaf (kind : LeafKind) (field : T.Field kind.indexType) {query : Attribute}
    (hclause : ∀ cf, compileFieldClause field.info val cf
      = some (slotLeaf kind field.info query cf))
    (hquery : kind.queryDefined query)
    (hagree : ∀ row, R row → ∃ b,
      kind.listTest query (row.attribute field.name kind.indexType) = some b ∧
      kind.test query (row.attribute field.name kind.indexType) = some b) :
    Produces (Listed T R) (leafClause field.info val) := by
  refine produces_slotLeaf hclause fun cf later => ⟨trivial, ⟨_, field.mem, rfl, field.type_eq⟩,
    ?_, fun row hrow => ?_, fun row hrow => ?_⟩
  · rw [slotLeaf, getElem?_slot]
    exact hquery
  · rw [slotLeaf, field.lookup_attributes]
    exact hrow.keyDefined kind field
  · obtain ⟨b, hlist, htest⟩ := hagree row hrow
    refine ⟨b, ?_, (isMember_slotLeaf field kind query cf later row).trans htest⟩
    rw [LeafSelector.lists, slotLeaf, field.lookup_attributes, getElem?_slot]
    exact hlist

theorem listed_junction (j : Junction) {α : Type} {node : α → Json} {items : List α}
    (hne : j = .and → items ≠ [])
    (h : ∀ a ∈ items, Produces (Listed T R) (compileNode T.schema (node a))) :
    Produces (Listed T R)
      (compileNode T.schema (.obj [Json.entry j.key (.arr (items.map node))])) := by
  refine produces_junction j h fun q trees hitems => ?_
  have hlisted : ∀ tree ∈ trees, Listed T R q tree := by
    clear h hne
    induction hitems <;> simp_all
  have hwf := FilterTree.wellFormedAll_iff.mpr fun tree htree => (hlisted tree htree).1
  have hleaves := FilterTree.allBranches_iff.mpr fun tree htree => (hlisted tree htree).2
  cases j with
  | and =>
    refine ⟨⟨fun hnil => hne rfl ?_, hwf⟩, hleaves⟩
    rw [hnil] at hitems
    exact forall₂_nil_right_iff.mp hitems
  | or => exact ⟨hwf, hleaves⟩

/-! ### Atomic filters -/

theorem records_stringQuery {strs : List Text} (hs : ∀ s ∈ strs, (s.length + 3) / 4 < 2 ^ 32) :
    records ((stringQuery strs).length + 1) (stringQuery strs) = strs.map packStringAttr := by
  rw [stringQuery, foldl_appendRecord]
  exact records_strings hs (Nat.lt_succ_self _)

/-- The bounds of an interval that is in order stay so when they are capped. -/
theorem queryDefined_rangeQuery {lo hi : Nat} (h : lo ≤ hi) :
    LeafKind.range.queryDefined (rangeQuery lo hi) := by
  have hmin : min lo (2 ^ 32 - 1) ≤ min hi (2 ^ 32 - 1) := by omega
  change decide (UInt32.ofNat (min lo (2 ^ 32 - 1)) ≤ UInt32.ofNat (min hi (2 ^ 32 - 1))) = true
  rw [decide_eq_true_eq, UInt32.le_iff_toNat_le, toNat_ofNat_lt (by omega),
    toNat_ofNat_lt (by omega)]
  exact hmin

/-- An interval leaf lists what it tests. -/
theorem produces_range (field : T.Field .range) {lo hi : Nat} (hle : lo ≤ hi)
    (hclause : ∀ cf, compileFieldClause field.info val cf
      = some (slotLeaf .range field.info (rangeQuery lo hi) cf)) :
    Produces (Listed T R) (leafClause field.info val) := by
  have htest := fun row : Row => test_rangeQuery lo hi (row.num field.name)
  exact produces_leaf .range field hclause (queryDefined_rangeQuery hle)
    fun row _ => ⟨_, htest row, htest row⟩

theorem produces_num (field : T.Field .range) (op : Comparison) {v : Nat} (hv : v < 2 ^ 32) :
    Produces (Listed T R) (compileNode T.schema (.obj [(field.name, op.clause (.num v))])) := by
  have hle : (op.bounds v).1 ≤ (op.bounds v).2 := by
    cases op <;> simp only [Comparison.bounds] <;> omega
  have h : Produces (Listed T R) _ :=
    produces_range field hle (compileFieldClause_comparison field op hv)
  cases op with
  | ne => exact h.clauseNe fun _ _ => .not
  | _ => exact Produces.clause (fun _ => rfl) h

/-- **A string leaf lists what it tests** on rows that have no longer string. -/
theorem produces_strings (field : T.Field .string) {lits : List StringLit}
    (hsafe : ∀ lit ∈ lits, lit.Safe) (hterm : ∀ lit ∈ lits, Terminated lit.text)
    (hR : ∀ row, R row → ∀ lit ∈ lits, cString lit.text <+: cString (row.str field.name).text →
        (row.str field.name).text = lit.text)
    (hclause : ∀ cf, compileFieldClause field.info val cf
      = some (slotLeaf .stringEq field.info (stringQuery (lits.map StringLit.text)) cf)) :
    Produces (Listed T R) (leafClause field.info val) := by
  have hlen : ∀ s ∈ lits.map StringLit.text, (s.length + 3) / 4 < 2 ^ 32 :=
    forall_mem_map.mpr fun lit hlit => (hsafe lit hlit).2
  refine produces_leaf .stringEq field hclause ?_ fun row hrow =>
    ⟨_, ?_, test_stringEq hlen _⟩
  · rw [LeafKind.queryDefined, records_stringQuery hlen, all_eq_true, forall_mem_map,
      forall_mem_map]
    exact fun lit hlit => terminated_pack lit.bytes (hterm lit hlit)
  · rw [LeafKind.listTest, LeafKind.test, records_stringQuery hlen, Option.some_inj,
      Bool.eq_iff_iff, any_eq_true, any_eq_true]
    constructor
    · rintro ⟨rec, hrec, hpre⟩
      obtain ⟨s, hs, rfl⟩ := mem_map.mp hrec
      obtain ⟨lit, hlit, rfl⟩ := mem_map.mp hs
      refine ⟨lit.text, hs, decide_eq_true ?_⟩
      -- the stored string starts with the literal, so it is the literal
      change packStringAttr lit.text = packStringAttr (row.str field.name).text
      rw [ isPrefixOf_iff_prefix, stringAttrView_pack lit.bytes] at hpre
      change _ <+: stringAttrView (packStringAttr (row.str field.name).text) at hpre
      rw [stringAttrView_pack (row.str field.name).bytes] at hpre
      rw [hR row hrow lit hlit hpre]
    · rintro ⟨s, hs, heq⟩
      refine ⟨_, mem_map_of_mem hs, ?_⟩
      exact isPrefixOf_iff_prefix.mpr (of_decide_eq_true heq ▸ prefix_rfl)

theorem produces_atom {a : Atom T} (ha : a.Compilable) (hlist : a.Listable)
    (hR : ∀ row, R row → a.ListedOk row) : Produces (Listed T R) (compileNode T.schema a.node) := by
  obtain ⟨hnum, hlit⟩ := ha
  cases a with
  | num field op v => exact produces_num field op (hnum v (mem_singleton_self v))
  | between field lo hi =>
    have hlo := hnum lo (by simp [Atom.numbers])
    have hhi := hnum hi (by simp [Atom.numbers])
    exact Produces.clause (fun _ => rfl)
      (produces_range field hlist (compileFieldClause_between field hlo hhi))
  | numIn field vs =>
    have hitem : ∀ v ∈ vs, Produces (Listed T R)
        (compileNode T.schema (.obj [(field.name, .num v)])) :=
      fun v hv => produces_num field .eq (hnum v hv)
    rcases node_numIn field vs with ⟨v, rfl⟩ | hnode
    · exact hitem v (mem_singleton_self v)
    · rw [hnode]
      exact listed_junction .or (fun h => by cases h) hitem
  | str field negate lit =>
    have h : Produces (Listed T R) _ := produces_strings field hlit (forall_mem_singleton.mpr hlist)
      (fun row hrow => forall_mem_singleton.mpr (hR row hrow))
      (compileFieldClause_str field lit.not_placeholder)
    cases negate with
    | false => exact Produces.clause (fun _ => rfl) h
    | true => exact h.clauseNe fun _ _ => .not
  | strIn field lits =>
    cases lits with
    | nil =>
      exact @listed_junction _ _ .or StringLit (.str ·.text) [] (fun h => by cases h) (by simp)
    | cons lit rest =>
      have hclause := compileFieldClause_strIn field ((lit :: rest).map StringLit.text)
      rw [map_map] at hclause
      exact Produces.clause (fun _ => rfl) (produces_strings field hlit hlist hR hclause)
  | contains field v =>
    refine Produces.clause (fun _ => rfl) (produces_leaf .labelOr field
      (compileFieldClause_label field (hnum v (mem_singleton_self v))) rfl
      fun row _ => ⟨_, rfl, rfl⟩)
  | containsAny field vs =>
    exact Produces.clause (fun _ => rfl) (produces_leaf .labelOr field
      (compileFieldClause_labelIn field hnum) rfl fun row _ => ⟨_, rfl, rfl⟩)
  | containsAll field vs =>
    refine Produces.clause (fun _ => rfl) (produces_leaf .labelAnd field
      (compileFieldClause_labelAll field hnum) rfl fun row _ => ⟨_, ?_, rfl⟩)
    have hne : (vs.map UInt32.ofNat).isEmpty = false := by
      rw [isEmpty_eq_false_iff]
      exact fun h => hlist (map_eq_nil_iff.mp h)
    rw [LeafKind.listTest, hne]
    rfl

variable {f : Filter T}

/-- **The tree of a filter** lists what it tests. -/
theorem produces_node (hf : ∀ a ∈ f.atoms, a.Compilable) (hlist : f.Listable)
    (hR : ∀ row, R row → f.ListedOk row) : Produces (Listed T R) (compileNode T.schema f.node) := by
  induction f with
  | atom a =>
    have ha := mem_singleton_self a
    exact produces_atom (hf a ha) (hlist a ha) fun row hrow => hR row hrow a ha
  | junction j first second rest ih =>
    rw [node_junction]
    refine listed_junction j (fun _ => cons_ne_nil _ _) fun f hf' => ?_
    have hatoms : ∀ a ∈ f.atoms, a ∈ (Filter.junction j first second rest).atoms :=
      fun a ha => mem_atoms_junction.mpr ⟨f, hf', ha⟩
    exact ih f hf' (fun a ha => hf a (hatoms a ha)) (fun a ha => hlist a (hatoms a ha))
      fun row hrow a ha => hR row hrow a (hatoms a ha)
  | not f ih => exact (ih hf hlist hR).nodeNot fun _ _ => .not

/-- A filter is compiled to a tree that lists what it tests, and tests what the filter
says. -/
theorem exists_compile (hf : f.Compilable) (hlist : f.Listable)
    (hR : ∀ row, R row → f.ListedOk row) :
    ∃ cf, compile f.toSql T.schema = some cf ∧ Listed T R cf.attrsTemplate cf.selector ∧
      ∀ row, f.RowOk row → cf.isMember (T.attributes row) = some (f.holds row) := by
  obtain ⟨tree, more, hstep, hlisted⟩ := produces_node hf.1 hlist hR ⟨[], [], []⟩
  obtain ⟨out, hout, hreads⟩ := sqlToMongoJson_toSql f
  have hparse : Json.parse out = f.node := by
    rw [hreads.parse_eq, recovered_node (fun a ha lit hlit => ((hf.1 a ha).2 lit hlit).1) hf.2]
  have hcompile : compile f.toSql T.schema =
      some { (⟨[], [], []⟩ : Bindings).extend more with selector := tree } := by
    rw [compile, hout]
    dsimp only
    rw [hparse, hstep]
    rfl
  refine ⟨_, hcompile, ?_, fun row hrow => ?_⟩
  · have h := hlisted []
    rwa [append_nil] at h
  · have h := (matches_parts_iff hf row).mpr hrow f (self_mem_parts f)
    rw [Filter.matches, hcompile] at h
    exact h

/-- The same for a filter that is compiled for `n` points. -/
theorem exists_compile_withCount (hT : T.schema ≠ []) (n : Nat)
    (hf : f.Compilable) (hlist : f.Listable) (hR : ∀ row, R row → f.ListedOk row) :
    ∃ cf, compile f.toSql (T.schema.withCount n) = some cf ∧ cf.selector.WellFormed n ∧
      cf.selector.AllLeaves (LeafAgrees T R cf.attrsTemplate) ∧
      ∀ row, f.RowOk row → cf.isMember (T.attributes row) = some (f.holds row) := by
  obtain ⟨cf, hcf, ⟨hwf, hleaves⟩, hmember⟩ := exists_compile hf hlist hR
  refine ⟨{ cf with selector := cf.selector.retag n }, ?_, hwf.retag n _, hleaves.retag n _, ?_⟩
  · rw [compile_withCount hT, hcf, Option.map_some]
  · intro row hrow
    rw [← hmember row hrow]
    exact FilterTree.isMember_retag _ n _

end Rules

end Dsl
end PipeANN
