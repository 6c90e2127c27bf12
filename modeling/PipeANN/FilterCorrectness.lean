import PipeANN.FilterEscapes

/-! # A filter means what it says, as far as it does

`Filter.matches` against `Filter.holds`.  A filter goes through its JSON text, which is
read back with a limit on the nesting and without the control characters that have no short
escape; what is compiled decides what the leaves see.

`matches_parts` puts the exact line: for filters whose literals fit (`Filter.Compilable`),
the parts of a filter are decided as they say on exactly the rows with `Filter.RowOk`; every
other filter has a part that is decided wrongly for some row, or not compiled at all.
-/
namespace PipeANN.Dsl
open List PipeANN.Dsl.Filter Nat Json

variable {T : Table}

/-! ## The JSON form is read back -/

theorem stringsClean_nums (vs : List Nat) : StringsClean (.arr (vs.map .num)) :=
  stringsClean_arr.mpr (forall_mem_map.mpr fun v _ => stringsClean_num v)

variable {a : Atom T}

theorem stringsClean_atom (h : ∀ lit ∈ a.literals, isClean lit.text) : StringsClean a.node := by
  cases a with
  | num field op v =>
    cases op with
    | eq => exact stringsClean_entry.mpr (stringsClean_num v)
    | _ => exact stringsClean_entry.mpr (stringsClean_entry.mpr (stringsClean_num v))
  | between field lo hi =>
    exact stringsClean_betweenTree.mpr ⟨stringsClean_num lo, stringsClean_num hi⟩
  | numIn field vs =>
    have hitems : ∀ v, StringsClean (.obj [(field.name, .num v)]) :=
      fun v => stringsClean_entry.mpr (stringsClean_num v)
    rcases node_numIn field vs with ⟨v, rfl⟩ | hnode
    · exact hitems v
    · rw [hnode]
      exact stringsClean_entry.mpr (stringsClean_arr.mpr (forall_mem_map.mpr fun v _ => hitems v))
  | str field negate lit =>
    have hlit := stringsClean_str.mpr (h lit (mem_singleton_self lit))
    cases negate with
    | false => exact stringsClean_entry.mpr hlit
    | true => exact stringsClean_entry.mpr (stringsClean_entry.mpr hlit)
  | strIn field lits =>
    cases lits with
    | nil => exact stringsClean_entry.mpr (stringsClean_nums [])
    | cons lit rest =>
      exact stringsClean_entry.mpr (stringsClean_entry.mpr (stringsClean_arr.mpr
        (forall_mem_map.mpr fun l hl => stringsClean_str.mpr (h l hl))))
  | contains field v => exact stringsClean_entry.mpr (stringsClean_num v)
  | containsAny field vs | containsAll field vs =>
    exact stringsClean_entry.mpr (stringsClean_entry.mpr (stringsClean_nums vs))

variable {f : Filter T}

theorem stringsClean_node (h : ∀ a ∈ f.atoms, ∀ lit ∈ a.literals, isClean lit.text) :
    StringsClean f.node := by
  induction f with
  | atom a => exact stringsClean_atom (h a (mem_singleton_self a))
  | junction j first second rest ih =>
    rw [node_junction]
    refine stringsClean_entry.mpr (stringsClean_arr.mpr
      (forall_mem_map.mpr fun f hf => ih f hf fun a ha => ?_))
    exact h a (mem_atoms_junction.mpr ⟨f, hf, ha⟩)
  | not f ih => exact stringsClean_entry.mpr (ih h)

/-! ## The nesting of a filter -/

theorem Atom.nesting_pos (a : Atom T) : 1 ≤ a.nesting := by
  unfold Atom.nesting
  split <;> decide

variable {d : Nat} {first second : Filter T} {rest : List (Filter T)}

theorem depth_atom_le (a : Atom T) : a.node.depth ≤ d ↔ a.nesting ≤ d := by
  -- a clause whose body is nested once at most
  have hclause : ∀ {field : Text} {body : Json}, body.depth ≤ 1 →
      ((obj [(field, body)]).depth ≤ d ↔ 1 ≤ d) := fun h =>
    depth_entry_le.trans ⟨And.left, fun hd => ⟨hd, le_trans h hd⟩⟩
  have hnums : ∀ vs : List Nat, (arr (vs.map .num)).depth ≤ 1 :=
    fun vs => depth_arr_le.mpr (forall_mem_map.mpr fun _ _ => le_refl 0)
  cases a with
  | num field op v =>
    cases op with
    | eq => exact hclause (zero_le 1)
    | _ => exact hclause (depth_op (zero_le 1))
  | between field lo hi => exact hclause (le_refl 1)
  | numIn field vs =>
    rcases vs with _ | ⟨v, _ | ⟨v', rest⟩⟩
    · exact hclause (hnums [])
    · exact hclause (zero_le 1)
    · change (obj [("$or".toList, .arr ((v :: v' :: rest).map fun u =>
        .obj [(field.name, .num u)]))]).depth ≤ d ↔ 2 ≤ d
      rw [depth_entry_le]
      cases d with
      | zero => simp
      | succ d =>
        have hitem : ∀ u, (obj [(field.name, .num u)]).depth ≤ d ↔ 1 ≤ d :=
          fun _ => depth_entry_le.trans (and_iff_left (zero_le d))
        simp only [depth_arr_le, forall_mem_map]
        constructor
        · exact fun h => succ_le_succ (h.2 v mem_cons_self)
        · exact fun h => ⟨le_add_left 1 d, fun _ _ => le_of_succ_le_succ h⟩
  | str field negate lit =>
    cases negate with
    | false => exact hclause (zero_le 1)
    | true => exact hclause (depth_op (zero_le 1))
  | strIn field lits =>
    cases lits with
    | nil => exact hclause (hnums [])
    | cons lit rest =>
      exact hclause (depth_op (depth_arr_le.mpr (forall_mem_map.mpr fun _ _ => le_refl 0)))
  | contains field v => exact hclause (zero_le 1)
  | containsAny field vs | containsAll field vs => exact hclause (depth_op (hnums vs))

theorem nestings_le (hd : 1 ≤ d) : ∀ {fs : List (Filter T)},
    nesting.nestings fs ≤ d ↔ ∀ f ∈ fs, f.nesting ≤ d
  | [] => by simp [nesting.nestings, hd]
  | f :: rest => by
    rw [nesting.nestings, Nat.max_le, nestings_le hd, forall_mem_cons]

theorem Filter.nesting_pos (f : Filter T) : 1 ≤ f.nesting := by
  induction f with
  | atom a => exact a.nesting_pos
  | junction j first second rest ih => exact succ_le_succ (zero_le _)
  | not f ih => exact ih

theorem nesting_junction_le {j : Junction} : (junction j first second rest).nesting ≤ d + 1 ↔
      ∀ f ∈ first :: second :: rest, f.nesting ≤ d := by
  rw [nesting, Nat.succ_le_succ_iff, Nat.max_le, Nat.max_le, forall_mem_cons, forall_mem_cons]
  exact and_congr_right fun h => and_congr_right fun _ =>
    nestings_le (first.nesting_pos.trans h)

theorem depth_node_le : ∀ {d : Nat}, f.node.depth ≤ d ↔ f.nesting ≤ d := by
  induction f with
  | atom a => exact depth_atom_le a
  | junction j first second rest ih =>
    intro d
    rw [node_junction, entry, depth_entry_le]
    cases d with
    | zero => exact iff_of_false (by simp) (not_succ_le_zero _)
    | succ d =>
      rw [and_iff_right (le_add_left 1 d), depth_arr_le, forall_mem_map, nesting_junction_le]
      exact forall₂_congr fun f hf => ih f hf
  | not f ih =>
    intro d
    rw [node, entry, depth_entry_le, ih]
    exact and_iff_right_of_imp (le_trans f.nesting_pos)

/-- A filter beyond the limit is cut off. -/
theorem cut_node (h : d < f.nesting) : Cut T.schema d f.node := by
  refine ((denotes_tokens f).cutOrWhole d T.schema).resolve_right fun hok => ?_
  exact not_lt.mpr (depth_node_le.mp ((reread_eq_ok_iff _).mp hok)) h

/-! ## What the code makes of a filter -/

/-- The answer of what a node is compiled to. -/
def answer (T : Table) (j : Json) (row : Row) : Option Bool :=
  (compileNode T.schema j ⟨[], [], []⟩).bind fun r =>
    r.1.isMember fun d => d.isMember r.2.attrsTemplate (T.attributes row)

theorem matches_eq_answer (f : Filter T) (row : Row) :
    f.matches row = answer T (recovered f.node) row := by
  obtain ⟨out, hout, hreads⟩ := sqlToMongoJson_toSql f
  rw [Filter.matches, compile, hout, answer]
  dsimp only
  rw [hreads.parse_eq]
  cases compileNode T.schema (recovered f.node) ⟨[], [], []⟩ <;> rfl

/-- A filter with clean literals within the limit. -/
theorem recovered_node (hclean : ∀ a ∈ f.atoms, ∀ lit ∈ a.literals, isClean lit.text)
    (h : f.nesting ≤ defaultMaxDepths) : recovered f.node = f.node := by
  rw [recovered, reread_clean _ (stringsClean_node hclean),
    (reread_eq_ok_iff _).mpr (depth_node_le.mpr h)]

theorem Compiles.answer_eq {j : Json} {p : Row → Bool} (h : Compiles T j p) (row : Row) :
    answer T j row = some (p row) := by
  obtain ⟨tree, more, hstep, hdec⟩ := h ⟨[], [], []⟩
  have := hdec [] row
  rw [append_nil] at this
  rw [answer, hstep]
  exact this

/-- A filter whose literals fit is decided by what its leaves see. -/
theorem matches_of_compilable (hf : f.Compilable) (row : Row) :
    f.matches row = some (f.eval (Atom.seen row)) := by
  obtain ⟨hatoms, hnest⟩ := hf
  rw [matches_eq_answer, recovered_node (fun a ha lit hlit => ((hatoms a ha).2 lit hlit).1) hnest]
  exact (compiles_node hatoms).answer_eq row

/-! ### Numbers that do not fit -/

variable {v : Nat}

theorem clauseOf_num_eq_none {ty : AttrType} (field : T.Field ty) (hty : ty ≠ .string)
    (hv : ¬ v < 2 ^ 32) : clauseOf field.info.type (.num v) = none := by
  cases ty with
  | string => exact absurd rfl hty
  | _ =>
    simp only [clauseOf, stripEq, clauseOfEquality, getStr, Option.filter_none,
      field.type_eq, toU32_num_eq_none hv, Option.map_none]

theorem clauseOfRange_eq_none {ops : List (Text × Json)} {key : Text}
    (hmem : (key, num v) ∈ ops) (hv : ¬ v < 2 ^ 32) : clauseOfRange ops = none := by
  have hfold : ∀ (ops : List (Text × Json)) (lohi : Nat × Nat), (key, num v) ∈ ops →
      ops.foldlM rangeOp lohi = none := by
    intro ops
    induction ops with
    | nil => simp
    | cons op ops ih =>
      intro lohi hmem
      rcases mem_cons.mp hmem with rfl | hmem
      · simp [rangeOp, toU32_num_eq_none hv]
      · simp [ih _ hmem]
  rw [clauseOfRange, hfold ops _ hmem]
  rfl

theorem compileNode_clause_eq_none {ty : AttrType} (field : T.Field ty) {val : Json} {cf : Bindings}
    (hplain : compileField T.schema field.info val cf = leafClause field.info val cf)
    (h : clauseOf field.info.type val = none) :
    compileNode T.schema (.obj [(field.name, val)]) cf = none := by
  rw [compileNode_field, hplain, leafClause, compileFieldClause, h]
  rfl

theorem compileNode_comparison_eq_none (field : T.Field .range) (op : Comparison)
    (hv : ¬ v < 2 ^ 32) (cf : Bindings) :
    compileNode T.schema (.obj [(field.name, op.clause (.num v))]) cf = none := by
  have hclause := clauseOf_num_eq_none field (by decide) hv
  cases op with
  | eq => exact compileNode_clause_eq_none field rfl hclause
  | ne =>
    have hnone : compileFieldClause field.info (.num v) cf = none := by
      rw [compileFieldClause, hclause, Option.bind_none]
    exact (compileNode_field field _ cf).trans (congrArg (Option.map _) hnone)
  | _ =>
    exact compileNode_clause_eq_none field rfl
      (clauseOfRange_eq_none (mem_singleton_self _) hv)

/-- An atomic filter with a number that does not fit is not compiled. -/
theorem compileNode_number_eq_none (hmem : v ∈ a.numbers)
    (hv : ¬ v < 2 ^ 32) (cf : Bindings) : compileNode T.schema a.node cf = none := by
  cases a with
  | num field op u =>
    obtain rfl := mem_singleton.mp hmem
    exact compileNode_comparison_eq_none field op hv cf
  | between field lo hi =>
    refine compileNode_clause_eq_none field rfl ?_
    rcases mem_pair.mp hmem with rfl | rfl
    · exact clauseOfRange_eq_none mem_cons_self hv
    · exact clauseOfRange_eq_none (mem_cons_of_mem _ mem_cons_self) hv
  | numIn field vs =>
    have hitem : ∀ cf, compileNode T.schema (.obj [(field.name, .num v)]) cf = none :=
      compileNode_comparison_eq_none field .eq hv
    have hitems := compileItems_eq_none
      (mem_map_of_mem (f := fun v => obj [(field.name, .num v)]) hmem) hitem
    rcases node_numIn field vs with ⟨u, rfl⟩ | hnode
    · obtain rfl := mem_singleton.mp hmem
      exact hitem cf
    · rw [hnode]
      exact compileNode_junction_eq_none .or hitems cf
  | str field negate lit | strIn field lits => cases hmem
  | contains field u =>
    obtain rfl := mem_singleton.mp hmem
    exact compileNode_clause_eq_none field rfl (clauseOf_num_eq_none field (by decide) hv)
  | containsAny field vs =>
    refine compileNode_clause_eq_none field rfl ?_
    change clauseOfIn field.info.type (.arr (vs.map .num)) = none
    simp only [clauseOfIn, getStr, Option.filter_none, getArr, Option.bind_some,
      field.type_eq, if_pos, @mapM_toU32_eq_none v vs hmem hv, Option.map_none]
  | containsAll field vs =>
    refine compileNode_clause_eq_none field rfl ?_
    change clauseOfAll (.arr (vs.map .num)) = none
    simp only [clauseOfAll, getStr, Option.filter_none, getArr, Option.bind_some,
      @mapM_toU32_eq_none v vs hmem hv, Option.map_none]

theorem matches_of_number (hmem : v ∈ a.numbers) (hv : ¬ v < 2 ^ 32)
    (row : Row) : (atom a).matches row = none := by
  have hliterals : a.literals = [] := by
    cases a <;> first | rfl | cases hmem
  have hnest : a.nesting ≤ defaultMaxDepths := by
    unfold Atom.nesting
    split <;> decide
  have hclean : ∀ b ∈ (atom a).atoms, ∀ lit ∈ b.literals, isClean lit.text :=
    forall_mem_singleton.mpr (by simp [hliterals])
  rw [matches_eq_answer, recovered_node hclean hnest, node, answer,
    compileNode_number_eq_none hmem hv]
  rfl

/-! ### String literals that do not fit -/

/-- A row that stores one string in every field. -/
def Row.ofString (s : ByteString) : Row := ⟨fun _ => 0, fun _ => [], fun _ => s⟩

/-- A leaf of a string equality, for whatever has been read back of its literal. -/
theorem answer_str (field : T.Field .string) (r : Text) :
    ∃ query, (query = [] ∨ query = stringQuery [r]) ∧ ∀ row,
      answer T (.obj [(field.name, .str r)]) row
        = LeafKind.test query (packStringAttr (row.str field.name).text) .stringEq := by
  have hleaf : ∀ query (cf' : Bindings), compileFieldClause field.info (.str r) ⟨[], [], []⟩
        = some (⟨.stringEq, 0, field.info.key⟩, cf') → cf'.attrsTemplate = [query] → ∀ row,
      answer T (.obj [(field.name, .str r)]) row
        = LeafKind.test query (packStringAttr (row.str field.name).text) .stringEq := by
    intro query cf' hclause hquery row
    have hfield : compileField T.schema field.info (.str r) ⟨[], [], []⟩
        = some (.leaf ⟨.stringEq, 0, field.info.key⟩, cf') := congrArg (Option.map _) hclause
    rw [answer, compileNode_field, hfield, Option.bind_some, FilterTree.isMember,
      LeafSelector.isMember, field.lookup_attributes, hquery]
    rfl
  cases hr : isPlaceholder r with
  | false =>
    exact ⟨stringQuery [r], .inr rfl, hleaf _ _ (compileFieldClause_str field hr _) rfl⟩
  | true =>
    have hplace : (some r).filter (fun s => isPlaceholder s) = some r := by simp [hr]
    refine ⟨[], .inl rfl, hleaf [] (allocPlaceholderSlot ⟨[], [], []⟩ (placeholderName r)
      field.info.type).2 ?_ rfl⟩
    have hclause : clauseOf field.info.type (.str r) = some (.placeholder .equal r) := by
      simp only [clauseOf, stripEq, clauseOfEquality, getStr, hplace]
    rw [compileFieldClause, hclause, Option.bind_some]
    simp only [FieldClause.checked, Clause.placeholder, FieldClause.place, FieldClause.alloc,
      FieldClause.kind, ClauseOp.kind, field.type_eq, AttrType.equalityKind, if_true,
      Option.map_some]
    rfl

/-- A literal that does not fit is found wrong by a row that stores it, or by a row that
stores what has been read back of it. -/
theorem exists_row_of_not_safe (field : T.Field .string) {lit : StringLit} (hlit : ¬ lit.Safe) :
    ∃ row, (atom (.str field false lit)).matches row
      ≠ some ((atom (.str field false lit)).holds row) := by
  set r := received (decode lit.text) with hr
  have hrlen : r.length ≤ lit.text.length := length_received lit.text
  obtain ⟨query, hquery, hanswer⟩ := answer_str field r
  have hmatches : ∀ row, (atom (.str field false lit)).matches row
      = some ((records (query.length + 1) query).any
          fun rec => rec = packStringAttr (row.str field.name).text) := by
    intro row
    rw [matches_eq_answer]
    exact (congrArg (answer T · row) (recovered_entry_str field.name lit.text)).trans
      (hanswer row)
  have hholds : ∀ s, (atom (.str field false lit)).holds (Row.ofString s)
      = decide (s.text = lit.text) := fun s => Bool.bne_false _
  by_contra hall
  push Not at hall
  -- the row that stores the literal is found
  have hself := hall (Row.ofString ⟨lit.text, lit.bytes⟩)
  rw [hmatches, hholds, Option.some_inj, decide_eq_true rfl, any_eq_true] at hself
  obtain ⟨rec, hrec, hreq⟩ := hself
  have hreq : rec = packStringAttr lit.text := of_decide_eq_true hreq
  have hwords : (lit.text.length + 3) / 4 < 2 ^ 32 := by
    have := length_lt_of_mem_records hrec
    rwa [hreq, length_packStringAttr] at this
  have hne : r ≠ lit.text :=
    decode_ne (Bool.eq_false_iff.mpr fun hclean => hlit ⟨hclean, hwords⟩)
  -- but then the row that stores what has been read back is found as well
  rcases hquery with rfl | rfl
  · cases hrec
  · have hrwords : ∀ s ∈ [r], (s.length + 3) / 4 < 2 ^ 32 :=
      forall_mem_singleton.mpr (by omega)
    have hother := hall (Row.ofString ⟨r, isBytes_decodeLoop (by simp [IsBytes]) lit.bytes⟩)
    rw [hmatches, hholds] at hother
    have hfound := (test_stringEq hrwords (packStringAttr r)).symm.trans hother
    rw [any_cons, decide_eq_true rfl, Option.some_inj] at hfound
    exact hne (of_decide_eq_true hfound.symm)

/-! ## Parts -/

theorem partsAll_eq : ∀ (fs : List (Filter T)), parts.partsAll fs = fs.flatMap parts
  | [] => rfl
  | f :: rest => by rw [parts.partsAll, partsAll_eq rest, flatMap_cons]

variable {g : Filter T}

theorem mem_parts_junction {j : Junction} : g ∈ (junction j first second rest).parts ↔
      g = .junction j first second rest ∨ ∃ f ∈ first :: second :: rest, g ∈ f.parts := by
  simp [parts, partsAll_eq]

theorem self_mem_parts (f : Filter T) : f ∈ f.parts := by
  cases f <;> exact mem_cons_self

/-- The parts of a filter are built from its atomic filters and their equalities, and are
not nested more deeply. -/
theorem atoms_of_mem_parts (hg : g ∈ f.parts) :
    (∀ a ∈ g.atoms, ∃ a' ∈ f.atoms, a = a' ∨ a ∈ a'.equalities) ∧ g.nesting ≤ f.nesting := by
  induction f with
  | atom a =>
    rcases mem_cons.mp hg with rfl | hg
    · exact ⟨fun a ha => ⟨a, ha, .inl rfl⟩, le_rfl⟩
    · obtain ⟨e, he, rfl⟩ := mem_map.mp hg
      refine ⟨fun b hb => ⟨a, mem_singleton_self a, .inr ?_⟩, ?_⟩
      · rwa [mem_singleton.mp hb]
      · have hone : e.nesting = 1 := by
          cases a with
          | str field negate lit => rw [mem_singleton.mp he]; rfl
          | strIn field lits => obtain ⟨lit, -, rfl⟩ := mem_map.mp he; rfl
          | _ => cases he
        exact hone.trans_le a.nesting_pos
  | junction j first second rest ih =>
    rcases mem_parts_junction.mp hg with rfl | ⟨f, hf, hg⟩
    · exact ⟨fun a ha => ⟨a, ha, .inl rfl⟩, le_rfl⟩
    · obtain ⟨hatoms, hnest⟩ := ih f hf hg
      refine ⟨fun a ha => ?_, ?_⟩
      · obtain ⟨a', ha', h⟩ := hatoms a ha
        exact ⟨a', mem_atoms_junction.mpr ⟨f, hf, ha'⟩, h⟩
      · have hle := nesting_junction_le.mp (le_refl (junction j first second rest).nesting)
        exact le_succ_of_le (hnest.trans (hle f hf))
  | not f ih =>
    rcases mem_cons.mp hg with rfl | hg
    · exact ⟨fun a ha => ⟨a, ha, .inl rfl⟩, le_rfl⟩
    · exact ih hg

theorem atom_mem_parts (ha : a ∈ f.atoms) :
    ∀ g ∈ atom a :: a.equalities.map .atom, g ∈ f.parts := by
  induction f with
  | atom b =>
    rw [mem_singleton.mp ha]
    exact fun g hg => hg
  | junction j first second rest ih =>
    obtain ⟨f, hf, ha⟩ := mem_atoms_junction.mp ha
    exact fun g hg => mem_parts_junction.mpr (.inr ⟨f, hf, ih f hf ha g hg⟩)
  | not f ih => exact fun g hg => mem_cons_of_mem _ (ih ha g hg)

theorem Atom.Compilable.equality {e : Atom T} (ha : a.Compilable) (he : e ∈ a.equalities) :
    e.Compilable := by
  cases a with
  | str field negate lit =>
    rw [mem_singleton.mp he]
    exact ⟨fun v hv => (nomatch hv), ha.2⟩
  | strIn field lits =>
    obtain ⟨lit, hlit, rfl⟩ := mem_map.mp he
    exact ⟨fun v hv => (nomatch hv), forall_mem_singleton.mpr (ha.2 lit hlit)⟩
  | _ => cases he

theorem Filter.Compilable.part (hf : f.Compilable) (hg : g ∈ f.parts) : g.Compilable := by
  obtain ⟨hatoms, hnest⟩ := atoms_of_mem_parts hg
  refine ⟨fun a ha => ?_, hnest.trans hf.2⟩
  obtain ⟨a', ha', rfl | he⟩ := hatoms a ha
  · exact hf.1 a ha'
  · exact (hf.1 a' ha').equality he

/-! ## Rows -/

/-- What the leaves see of a value differs from what is asked only where `UINT32_MAX` is
asked for. -/
theorem seen_number_iff (x : Nat) (inside : Nat → Bool) (negate : Bool) :
    ((decide (x ≠ maxU32) && inside x) != negate) = (inside x != negate)
      ↔ ¬ (x = maxU32 ∧ inside maxU32) := by
  by_cases hx : x = maxU32
  · subst hx
    cases inside maxU32 <;> cases negate <;> simp
  · simp [hx]

/-- A row is as an atomic filter needs it when the filter and its equalities are decided as
they say. -/
theorem Atom.rowOk_iff (a : Atom T) (row : Row) :
    a.RowOk row ↔ ∀ e ∈ a :: a.equalities, e.seen row = e.holds row := by
  have hstr : ∀ (field : T.Field .string) (negate : Bool) (lit : StringLit),
      (Atom.str field negate lit).seen row = (Atom.str field negate lit).holds row ↔
        (padded (row.str field.name).text = padded lit.text →
          (row.str field.name).text = lit.text) :=
    fun field negate lit => by
      simp only [Atom.seen, Atom.holds]
      by_cases hst : (row.str field.name).text = lit.text
      · simp [hst]
      · by_cases hpad : padded (row.str field.name).text = padded lit.text <;> cases negate <;>
          simp [hst, hpad]
  have hone : ∀ a : Atom T, a.equalities = [] →
      ((∀ e ∈ a :: a.equalities, e.seen row = e.holds row) ↔ a.seen row = a.holds row) :=
    fun a ha => by rw [ha, forall_mem_singleton]
  cases a with
  | num field op v =>
    have h := seen_number_iff (row.num field.name).toNat (fun x => op.interval.holds x v) op.negated
    rw [← Comparison.holds_eq] at h
    exact h.symm.trans (hone (.num field op v) rfl).symm
  | between field lo hi =>
    have h := seen_number_iff (row.num field.name).toNat
      (fun x => decide (lo ≤ x) && decide (x ≤ hi)) false
    rw [Bool.bne_false, Bool.bne_false, Bool.and_eq_true, decide_eq_true_eq, decide_eq_true_eq] at h
    exact h.symm.trans (hone (.between field lo hi) rfl).symm
  | numIn field vs =>
    have h := seen_number_iff (row.num field.name).toNat (fun x => vs.contains x) false
    rw [Bool.bne_false, Bool.bne_false, contains_iff_mem] at h
    exact h.symm.trans (hone (.numIn field vs) rfl).symm
  | str field negate lit =>
    rw [Atom.equalities, forall_mem_cons, forall_mem_singleton, hstr, hstr, and_self]
    exact Iff.rfl
  | strIn field lits =>
    rw [Atom.equalities, forall_mem_cons, forall_mem_map]
    rw [Atom.seen, Atom.holds]
    grind [Atom.RowOk]
  | contains | containsAny | containsAll =>
    exact ⟨fun _ => (hone _ rfl).mpr rfl, fun _ => trivial⟩

theorem eval_congr {p q : Atom T → Bool} (h : ∀ a ∈ f.atoms, p a = q a) : f.eval p = f.eval q := by
  induction f with
  | atom a => exact h a (mem_singleton_self a)
  | junction j first second rest ih =>
    have hall : ∀ f ∈ first :: second :: rest, f.eval p = f.eval q :=
      fun f hf => ih f hf fun a ha => h a (mem_atoms_junction.mpr ⟨f, hf, ha⟩)
    rw [eval, eval, evals_eq, evals_eq]
    exact congrArg j.eval (map_congr_left hall)
  | not f ih =>
    rw [eval, eval, ih h]

/-- The parts of a filter are decided as they say on exactly the rows that are as its
atomic filters need them. -/
theorem matches_parts_iff (hf : f.Compilable) (row : Row) :
    (∀ g ∈ f.parts, g.matches row = some (g.holds row)) ↔ f.RowOk row := by
  constructor
  · intro h a ha
    rw [Atom.rowOk_iff]
    intro e he
    have hpart := atom_mem_parts ha (.atom e) (by
      exact mem_map_of_mem he)
    have hmatch := h _ hpart
    rw [matches_of_compilable (hf.part hpart), Option.some_inj] at hmatch
    exact hmatch
  · intro h g hg
    rw [matches_of_compilable (hf.part hg), Option.some_inj]
    refine eval_congr fun e he => ?_
    obtain ⟨a, ha, hea⟩ := (atoms_of_mem_parts hg).1 e he
    refine ((a.rowOk_iff row).mp (h a ha)) e ?_
    rcases hea with rfl | hea
    · exact mem_cons_self
    · exact mem_cons_of_mem _ hea

/-- A filter whose literals do not fit has a part that goes wrong. -/
theorem exists_part_of_not_compilable (hf : ¬ f.Compilable) :
    ∃ row, ∃ g ∈ f.parts, g.matches row ≠ some (g.holds row) := by
  by_cases hatoms : ∀ a ∈ f.atoms, a.Compilable
  · -- only the nesting is left
    have hdeep : defaultMaxDepths < f.nesting :=
      not_le.mp fun hnest => hf ⟨hatoms, hnest⟩
    refine ⟨Row.ofString ⟨[], by simp [IsBytes]⟩, f, self_mem_parts f, ?_⟩
    obtain ⟨v, hv, hnone⟩ := cut_node hdeep
    rw [matches_eq_answer, recovered, reread_clean _
      (stringsClean_node fun a ha lit hlit => ((hatoms a ha).2 lit hlit).1), hv]
    exact ne_of_eq_of_ne (congrArg (Option.bind · _) (hnone _)) (Option.some_ne_none _).symm
  · push Not at hatoms
    obtain ⟨a, ha, hbad⟩ := hatoms
    by_cases hnums : ∀ v ∈ a.numbers, v < 2 ^ 32
    · obtain ⟨lit, hlit, hunsafe⟩ : ∃ lit ∈ a.literals, ¬ lit.Safe := by
        by_contra hno
        push Not at hno
        exact hbad ⟨hnums, hno⟩
      obtain ⟨field, hmem⟩ : ∃ field : T.Field .string, .str field false lit ∈ a.equalities := by
        cases a with
        | str field negate l =>
          rw [mem_singleton.mp hlit]
          exact ⟨field, mem_singleton_self _⟩
        | strIn field lits => exact ⟨field, mem_map_of_mem hlit⟩
        | _ => cases hlit
      obtain ⟨row, hrow⟩ := exists_row_of_not_safe field hunsafe
      exact ⟨row, _, atom_mem_parts ha _ (mem_cons_of_mem _ (mem_map_of_mem hmem)), hrow⟩
    · push Not at hnums
      obtain ⟨v, hv, hbig⟩ := hnums
      refine ⟨Row.ofString ⟨[], by simp [IsBytes]⟩, .atom a,
        atom_mem_parts ha _ mem_cons_self, ?_⟩
      rw [matches_of_number hv (not_lt.mpr hbig)]
      exact (Option.some_ne_none _).symm

/-- **When a filter means what it says.**  If the literals of a filter fit, the filter and
its parts are decided as they say on exactly the rows without a stored `UINT32_MAX` in an
interval and without a string that differs from a literal by zero bytes at the end; if they
do not fit, some part is decided wrongly on some row, or not compiled. -/
theorem matches_parts (f : Filter T) :
    (f.Compilable → ∀ row, (∀ g ∈ f.parts, g.matches row = some (g.holds row)) ↔ f.RowOk row) ∧
    (¬ f.Compilable → ∃ row, ∃ g ∈ f.parts, g.matches row ≠ some (g.holds row)) :=
  ⟨matches_parts_iff, exists_part_of_not_compilable⟩

/-! ## A stored `UINT32_MAX` -/

/-- A table with one range field `x`. -/
def oneField : Table where
  schema := [(['x'], ⟨0, .range, 1⟩)]
  names_nodup := by decide
  keys_nodup := by decide
  names_ok := by decide

/-- The filter `x >= 5`. -/
def atLeastFive : Filter oneField :=
  .atom (.num ⟨['x'], ⟨0, .range, 1⟩, mem_singleton_self _, rfl⟩ .ge 5)

/-- A row that stores `UINT32_MAX`. -/
def maxRow : Row := ⟨fun _ => 4294967295, fun _ => [], fun _ => ⟨[], by simp [IsBytes]⟩⟩

/-- `x >= 5` holds of `UINT32_MAX`, but the compiled filter rejects it. -/
theorem atLeastFive_rejects_max :
    atLeastFive.holds maxRow = true ∧ atLeastFive.matches maxRow = some false := by
  decide +kernel

end PipeANN.Dsl
