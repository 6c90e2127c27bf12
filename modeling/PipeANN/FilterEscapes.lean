import PipeANN.FilterEvaluation

/-! # Strings on their way through the JSON form

The filter that a text stands for reaches the compiler as JSON text.  `json_faithful_iff` says
when it arrives there: when every quoted literal is clean.  The literals of a text are clean
exactly if the strings of its value are (`derives_clean_iff`), so that otherwise some string is
read as another one.  And if they are all clean, only the nesting can stop the reader; what is
left of the value is then not compiled (`derives_cutOrWhole`).  With a literal that is not
clean, the compiler may take what the reader has left behind for the filter.
-/
namespace PipeANN.Dsl

open List TokenParser Scanner Json Nat

/-! ## The strings of a filter -/

/-- All strings of the value are clean. -/
def StringsClean (j : Json) : Prop := ∀ s ∈ j.strings, isClean s = true

/-- All quoted literals are clean. -/
def QuotedClean (ts : List Tok) : Prop := ∀ s, Tok.str s ∈ ts → isClean s = true

theorem stringsClean_str {s : Text} : StringsClean (.str s) ↔ isClean s :=
  forall_mem_singleton

theorem stringsClean_num (n : Nat) : StringsClean (.num n) :=
  fun _ hs => absurd hs not_mem_nil

variable {j : Json}

theorem stringsClean_entry {key : Text} : StringsClean (single key j) ↔ StringsClean j := by
  have h : (single key j).strings = j.strings := by
    rw [single, strings, strings.stringsEntries, strings.stringsEntries, append_nil]
  rw [StringsClean, h, StringsClean]

variable {js : List Json}

theorem stringsClean_arr : StringsClean (.arr js) ↔ ∀ j ∈ js, StringsClean j := by
  constructor
  · exact fun h j hj s hs => h s (mem_strings_arr.mpr ⟨j, hj, hs⟩)
  · rintro h s hs
    obtain ⟨j, hj, hs⟩ := mem_strings_arr.mp hs
    exact h j hj s hs

theorem stringsClean_logicalTree {op : String} :
    StringsClean (logicalTree op js) ↔ ∀ j ∈ js, StringsClean j := by
  unfold logicalTree
  split
  · exact forall_mem_singleton.symm
  · exact stringsClean_entry.trans stringsClean_arr

variable {ts : List Tok}

theorem quotedClean_append {ts' : List Tok} :
    QuotedClean (ts ++ ts') ↔ QuotedClean ts ∧ QuotedClean ts' := by
  simp only [QuotedClean, mem_append, or_imp, forall_and]

variable {t : Tok} {vs : List Literal}

theorem quotedClean_cons : QuotedClean (t :: ts) ↔ QuotedClean [t] ∧ QuotedClean ts :=
  (quotedClean_append : QuotedClean ([t] ++ ts) ↔ _)

theorem quotedClean_nil : QuotedClean [] := fun _ h => absurd h not_mem_nil

theorem quotedClean_str {s : Text} : QuotedClean [.str s] ↔ isClean s := by
  simp [QuotedClean]

/-- A token that is no quoted literal. -/
theorem quotedClean_of_ne (h : ∀ s, t ≠ .str s) : QuotedClean [t] :=
  fun s hs => absurd (mem_singleton.mp hs).symm (h s)

theorem quotedClean_ident {kw : String} (h : t.identIs kw) : QuotedClean [t] :=
  quotedClean_of_ne fun s hs => by
    rw [hs] at h
    cases h

/-- A literal is as clean as its token; a placeholder is an identifier. -/
theorem quotedClean_literal {v : Literal} (ht : t.literal = some v) (hs : t.Scanned) :
    QuotedClean [t] ↔ StringsClean v.json := by
  cases t with
  | str s =>
    cases ht
    exact quotedClean_str.trans stringsClean_str.symm
  | number s =>
    cases ht
    exact iff_of_true (quotedClean_of_ne fun _ => Tok.noConfusion) (stringsClean_num _)
  | ident s =>
    refine iff_of_true (quotedClean_of_ne fun _ => Tok.noConfusion) ?_
    rw [Tok.literal] at ht
    split_ifs at ht
    all_goals cases ht
    iterate 2 exact stringsClean_num _
    · exact stringsClean_str.mpr (isClean_ident hs)
  | _ => cases ht

theorem quotedClean_sepList (h : SepList (fun t => decide (t = .comma)) IsLiteral ts vs) :
    (∀ t ∈ ts, t.Scanned) → (QuotedClean ts ↔ ∀ v ∈ vs, StringsClean v.json) := by
  induction h with
  | nil => exact fun _ => iff_of_true quotedClean_nil fun _ hv => absurd hv not_mem_nil
  | cons ht hv _ ih =>
    intro hs
    obtain ⟨tv, rfl, hv⟩ := hv
    obtain rfl := of_decide_eq_true ht
    obtain ⟨-, htv, hrest⟩ := forall_mem_cons.mp hs |>.imp_right forall_mem_cons.mp
    rw [quotedClean_cons, and_iff_right (quotedClean_of_ne fun _ => Tok.noConfusion),
      singleton_append, quotedClean_cons, quotedClean_literal hv htv, ih hrest,
      forall_mem_cons]

theorem quotedClean_items (h : Items ts vs)
    (hs : ∀ t ∈ ts, t.Scanned) : QuotedClean ts ↔ ∀ v ∈ vs, StringsClean v.json := by
  cases h with
  | nil => exact iff_of_true quotedClean_nil fun _ hv => absurd hv not_mem_nil
  | cons ht hvs =>
    obtain ⟨htv, hrest⟩ := forall_mem_cons.mp hs
    rw [quotedClean_cons, quotedClean_literal ht htv, quotedClean_sepList hvs hrest,
      forall_mem_cons]

/-- A list in brackets. -/
theorem quotedClean_brackets {t' : Tok} (ht : ∀ s, t ≠ .str s)
    (ht' : ∀ s, t' ≠ .str s) : QuotedClean (t :: (ts ++ [t'])) ↔ QuotedClean ts := by
  rw [quotedClean_cons, and_iff_right (quotedClean_of_ne ht), quotedClean_append,
    and_iff_left (quotedClean_of_ne ht')]

/-- The wildcard that `LIKE` takes off is clean. -/
theorem stringsClean_likeTree (field s : Text) : StringsClean (likeTree field s) ↔ isClean s := by
  have hclean : isCleanChar '%' := rfl
  unfold likeTree
  split_ifs with h₁ h₂ h₃
  · rw [stringsClean_entry, stringsClean_entry, stringsClean_str]
    have hlast : s.getLast? = some '%' :=
      of_decide_eq_true (Bool.and_eq_true_iff.mp (Bool.and_eq_true_iff.mp h₁).1).1
    obtain ⟨q, rfl⟩ : ∃ q, s = q ++ ['%'] :=
      ⟨s.dropLast, (dropLast_append_getLast? _ hlast).symm⟩
    rw [isClean, isClean]
    simp [hclean]
  · rw [stringsClean_entry, stringsClean_entry, stringsClean_str]
    have hhead : s.head? = some '%' :=
      of_decide_eq_true (Bool.and_eq_true_iff.mp (Bool.and_eq_true_iff.mp h₂).1).1
    obtain ⟨q, rfl⟩ : ∃ q, s = '%' :: q := by
      cases s with
      | nil => cases hhead
      | cons c q => cases hhead; exact ⟨q, rfl⟩
    simp [isClean, hclean]
  · rw [stringsClean_entry, stringsClean_str]
  · rw [stringsClean_entry, stringsClean_entry, stringsClean_str]

variable {field : Text}

theorem stringsClean_comparisonTree {op : Text} {v : Json}
    (h : comparisonTree field op v = some j) : StringsClean j ↔ StringsClean v := by
  unfold comparisonTree at h
  split_ifs at h <;> cases h <;> simp only [stringsClean_entry]

theorem stringsClean_betweenTree {lo hi : Json} :
    StringsClean (betweenTree field lo hi) ↔ StringsClean lo ∧ StringsClean hi := by
  simp [betweenTree, single, StringsClean, mem_strings_obj, or_imp, forall_and]

theorem stringsClean_inTree (field : Text) (vs : List Literal) :
    StringsClean (inTree field vs) ↔ ∀ v ∈ vs, StringsClean v.json := by
  unfold inTree
  split_ifs
  · rw [stringsClean_logicalTree, forall_mem_map]
    simp only [stringsClean_entry]
  · rw [stringsClean_entry, stringsClean_entry, stringsClean_arr, forall_mem_map]

theorem isPredicate_clean_iff (h : IsPredicate field ts j) (hs : ∀ t ∈ ts, t.Scanned) :
    QuotedClean ts ↔ StringsClean j := by
  cases h with
  | between hk hlo ha hhi =>
    simp only [forall_mem_cons] at hs
    rw [quotedClean_cons, and_iff_right (quotedClean_ident hk), quotedClean_cons,
      quotedClean_literal hlo hs.2.1, quotedClean_cons, and_iff_right (quotedClean_ident ha),
      quotedClean_literal hhi hs.2.2.2.1, stringsClean_betweenTree]
  | @oneOf k ts vs hk hvs =>
    have hmid : ∀ t ∈ ts, t.Scanned := fun t ht =>
      hs t (mem_cons_of_mem _ (mem_cons_of_mem _ (mem_append_left _ ht)))
    rw [quotedClean_cons, and_iff_right (quotedClean_ident hk),
      quotedClean_brackets (fun _ => Tok.noConfusion) (fun _ => Tok.noConfusion),
      quotedClean_items hvs hmid, stringsClean_inTree]
  | like hk =>
    rw [quotedClean_cons, and_iff_right (quotedClean_ident hk), quotedClean_str,
      stringsClean_likeTree]
  | compare ht hj =>
    rw [quotedClean_cons, and_iff_right (quotedClean_of_ne fun _ => Tok.noConfusion),
      quotedClean_literal ht (hs _ (mem_cons_of_mem _ mem_cons_self)),
      stringsClean_comparisonTree hj]

theorem isArgument_clean_iff {name : Text} (h : IsArgument name field ts j)
    (hs : ∀ t ∈ ts, t.Scanned) : QuotedClean ts ↔ StringsClean j := by
  cases h with
  | contains _ ht =>
    rw [quotedClean_literal ht (hs _ mem_cons_self), stringsClean_entry]
  | one _ ht =>
    rw [quotedClean_literal ht (hs _ mem_cons_self), stringsClean_entry, stringsClean_entry]
  | @list ts vs _ hvs =>
    have hmid : ∀ t ∈ ts, t.Scanned := fun t ht =>
      hs t (mem_cons_of_mem _ (mem_append_left _ ht))
    rw [quotedClean_brackets (fun _ => Tok.noConfusion) (fun _ => Tok.noConfusion),
      quotedClean_items hvs hmid, stringsClean_entry, stringsClean_entry, stringsClean_arr,
      forall_mem_map]

theorem isCmp_clean_iff (h : IsCmp ts j)
    (hs : ∀ t ∈ ts, t.Scanned) : QuotedClean ts ↔ StringsClean j := by
  have hident : ∀ s, QuotedClean [.ident s] :=
    fun s => quotedClean_of_ne fun _ => Tok.noConfusion
  cases h with
  | call hname h =>
    simp only [forall_mem_cons, forall_mem_append] at hs
    rw [quotedClean_cons, and_iff_right (hident _), quotedClean_cons,
      and_iff_right (quotedClean_of_ne fun _ => Tok.noConfusion), quotedClean_cons,
      and_iff_right (hident _),
      quotedClean_brackets (fun _ => Tok.noConfusion) (fun _ => Tok.noConfusion),
      isArgument_clean_iff h hs.2.2.2.2.1]
  | predicate h =>
    rw [quotedClean_cons, and_iff_right (hident _),
      isPredicate_clean_iff h (forall_mem_cons.mp hs).2]
  | notPredicate hk h =>
    simp only [forall_mem_cons] at hs
    rw [quotedClean_cons, and_iff_right (hident _), quotedClean_cons,
      and_iff_right (quotedClean_ident hk), isPredicate_clean_iff h hs.2.2, stringsClean_entry]

/-- **The literals are clean exactly if the strings of the value are.** -/
theorem derives_clean_iff {level : Level} (h : Derives level ts js) : (∀ t ∈ ts, t.Scanned) →
    (QuotedClean ts ↔ ∀ j ∈ js, StringsClean j) := by
  induction h with
  | cmp _ h => exact fun hs => (isCmp_clean_iff h hs).trans forall_mem_singleton.symm
  | not hk _ ih =>
    intro hs
    rw [quotedClean_cons, and_iff_right (quotedClean_ident hk),
      ih (forall_mem_cons.mp hs).2, forall_mem_singleton, forall_mem_singleton,
      stringsClean_entry]
  | paren _ ih =>
    intro hs
    simp only [forall_mem_cons, forall_mem_append] at hs
    rw [quotedClean_brackets (fun _ => Tok.noConfusion) (fun _ => Tok.noConfusion), ih hs.2.1,
      forall_mem_singleton, stringsClean_logicalTree]
  | andOne _ ih => exact ih
  | orOne _ ih =>
    intro hs
    rw [ih hs, forall_mem_singleton, stringsClean_logicalTree]
  | andMore _ hk _ ih ihmore | orMore _ hk _ ih ihmore =>
    intro hs
    simp only [forall_mem_cons, forall_mem_append] at hs
    rw [quotedClean_append, quotedClean_cons, and_iff_right (quotedClean_ident hk), ih hs.1,
      ihmore hs.2.2]
    simp only [forall_mem_singleton, forall_mem_cons, stringsClean_logicalTree]

/-! ## Beyond the limit on the nesting -/

theorem reread_entry {d : Nat} (hd : d ≠ 0) (key : Text) (j : Json) :
    reread .ok d (single key j) = match reread .ok d j with
      | .ok v => .ok (single key v)
      | .error e => .error (some (single key (e.getD .null))) := by
  rw [single, reread, if_neg hd, reread.entries]
  cases reread .ok d j <;> rfl

/-- A value that is cut off when it is read back, and then not compiled. -/
def Cut (schema : Schema) (d : Nat) (j : Json) : Prop :=
  ∃ v, reread .ok d j = .error v ∧ ∀ cf, compileNode schema (v.getD .null) cf = none

variable {schema : Schema}

theorem compileItems_eq_none : ∀ {items : List Json} {item : Json},
    item ∈ items → (∀ cf, compileNode schema item cf = none) →
    ∀ cf, compileItems schema items cf = none
  | j :: rest, item, hmem, hnone, cf => by
    rw [compileItems_cons]
    rcases mem_cons.mp hmem with rfl | hmem
    · rw [hnone cf]
      rfl
    · cases compileNode schema j cf with
      | none => rfl
      | some r => exact congrArg (Option.map _) (compileItems_eq_none hmem hnone r.2)

theorem compileNode_junction_eq_none (j : Junction) {items : List Json}
    (h : ∀ cf, compileItems schema items cf = none) (cf : Bindings) :
    compileNode schema (single j.key.toList (.arr items)) cf = none := by
  cases j with
  | and | or =>
    rw [single, compileNode_entry, compileLogicalArray_arr, h cf]
    rfl

theorem cut_entry_zero (schema : Schema) (key : Text) (j : Json) : Cut schema 0 (single key j) :=
  ⟨none, rfl, fun _ => rfl⟩

/-- An array is cut off at its first item that is cut off. -/
theorem cut_items {d : Nat} :
    ∀ {items : List Json}, (∀ j ∈ items, Cut schema d j ∨ reread .ok d j = .ok j) →
    (∃ j ∈ items, Cut schema d j) →
    ∃ vs, reread.items .ok d items = .error vs ∧ ∀ cf, compileItems schema vs cf = none
  | j :: rest, hall, hcut => by
    obtain ⟨hj, hrest⟩ := forall_mem_cons.mp hall
    rw [reread.items]
    rcases hj with ⟨v, hv, hnone⟩ | hj
    · rw [hv]
      exact ⟨_, rfl, compileItems_eq_none (mem_singleton_self _) hnone⟩
    · have hcut : ∃ j ∈ rest, Cut schema d j := by
        obtain ⟨i, hi, hcut⟩ := hcut
        rcases mem_cons.mp hi with rfl | hi
        · obtain ⟨w, hw, -⟩ := hcut
          cases hj.symm.trans hw
        · exact ⟨i, hi, hcut⟩
      obtain ⟨vs, hvs, hnone⟩ := cut_items hrest hcut
      rw [hj, hvs]
      refine ⟨j :: vs, rfl, fun cf => ?_⟩
      rw [compileItems_cons]
      cases compileNode schema j cf with
      | none => rfl
      | some r => exact congrArg (Option.map _) (hnone r.2)

/-- The value is read back whole, or what is left of it is not compiled. -/
def CutOrWhole (j : Json) : Prop :=
  ∀ (d : Nat) (schema : Schema), Cut schema d j ∨ reread .ok d j = .ok j

/-- A clause that is read back at any depth but zero. -/
theorem cutOrWhole_clause {body : Json} (h : body.depth ≤ 1) : CutOrWhole (single field body) := by
  intro d schema
  cases d with
  | zero => exact .inl (cut_entry_zero schema field body)
  | succ d =>
    have hd : 1 ≤ d + 1 := le_add_left 1 d
    exact .inr ((reread_eq_ok_iff _).mpr (depth_entry_le.mpr ⟨hd, le_trans h hd⟩))

theorem cutOrWhole_not (h : CutOrWhole j) : CutOrWhole (single "$not".toList j) := by
  intro d schema
  rcases Nat.eq_zero_or_pos d with rfl | hd
  · exact .inl (cut_entry_zero schema _ _)
  · rcases h d schema with ⟨v, hv, hnone⟩ | hok
    · refine .inl ⟨some (single "$not".toList (v.getD .null)), ?_, fun cf => ?_⟩
      · rw [reread_entry (ne_of_gt hd), hv]
      · rw [Option.getD_some, single, compileNode_entry, hnone cf]
        rfl
    · refine .inr ?_
      rw [reread_entry (ne_of_gt hd), hok]

theorem cutOrWhole_junction (jn : Junction) (h : ∀ j ∈ js, CutOrWhole j) :
    CutOrWhole (single jn.key.toList (.arr js)) := by
  intro d schema
  cases d with
  | zero => exact .inl (cut_entry_zero schema _ _)
  | succ d =>
    by_cases hcut : ∃ j ∈ js, Cut schema d j
    · obtain ⟨vs, hvs, hnone⟩ := cut_items (fun j hj => h j hj d schema) hcut
      refine .inl ⟨some (single jn.key.toList (.arr vs)), ?_, compileNode_junction_eq_none jn hnone⟩
      rw [reread_entry (succ_ne_zero d), reread, succ_sub_one, hvs]
      rfl
    · refine .inr ((reread_eq_ok_iff _).mpr ?_)
      refine depth_entry_le.mpr ⟨le_add_left 1 d, depth_arr_le.mpr fun j hj => ?_⟩
      exact (reread_eq_ok_iff j).mp ((h j hj d schema).resolve_left fun hc => hcut ⟨j, hj, hc⟩)

theorem cutOrWhole_logicalTree (jn : Junction) (h : ∀ j ∈ js, CutOrWhole j) :
    CutOrWhole (logicalTree jn.key js) := by
  unfold logicalTree
  split
  · exact h _ (mem_singleton_self _)
  · exact cutOrWhole_junction jn h

theorem depth_literal (d : Nat) (v : Literal) : v.json.depth ≤ d := by
  cases v <;> exact zero_le d

theorem depth_literals (vs : List Literal) : depth (.arr (vs.map Literal.json)) ≤ 1 :=
  depth_arr_le.mpr (forall_mem_map.mpr fun v _ => depth_literal 0 v)

/-- An operator over its operand. -/
theorem depth_op {op : Text} {body : Json} (h : body.depth ≤ 1) : (single op body).depth ≤ 1 :=
  depth_entry_le.mpr ⟨le_refl 1, h⟩

theorem isPredicate_cutOrWhole (h : IsPredicate field ts j) : CutOrWhole j := by
  cases h with
  | @between k₁ t₁ k₂ t₂ lo hi hk hlo ha hhi =>
    refine cutOrWhole_clause ?_
    simp only [depth, depth.depthEntries, Nat.max_le]
    exact ⟨Nat.le_refl 1, depth_literal 1 lo, depth_literal 1 hi, Nat.zero_le 1⟩
  | @oneOf k ts vs hk hvs =>
    unfold inTree
    split_ifs
    · refine cutOrWhole_logicalTree .or fun j hj => ?_
      obtain ⟨v, -, rfl⟩ := mem_map.mp hj
      exact cutOrWhole_clause (depth_literal 1 v)
    · exact cutOrWhole_clause (depth_op (depth_literals vs))
  | like hk =>
    unfold likeTree
    split_ifs
    iterate 2 exact cutOrWhole_clause (depth_op (zero_le 1))
    · exact cutOrWhole_clause (zero_le 1)
    · exact cutOrWhole_clause (depth_op (zero_le 1))
  | @compare op t v j ht hj =>
    unfold comparisonTree at hj
    split_ifs at hj <;> cases hj
    · exact cutOrWhole_clause (depth_literal 1 v)
    iterate 5 exact cutOrWhole_clause (depth_op (depth_literal 1 v))

theorem isCmp_cutOrWhole (h : IsCmp ts j) : CutOrWhole j := by
  cases h with
  | call hname h =>
    cases h with
    | contains _ ht => exact cutOrWhole_clause (depth_literal 1 _)
    | one _ ht => exact cutOrWhole_clause (depth_op (depth_literal 1 _))
    | list _ hvs => exact cutOrWhole_clause (depth_op (depth_literals _))
  | predicate h => exact isPredicate_cutOrWhole h
  | notPredicate hk h => exact cutOrWhole_not (isPredicate_cutOrWhole h)

theorem derives_cutOrWhole {level : Level} (h : Derives level ts js) : ∀ j ∈ js, CutOrWhole j := by
  induction h with
  | cmp _ h => exact forall_mem_singleton.mpr (isCmp_cutOrWhole h)
  | not _ _ ih =>
    exact forall_mem_singleton.mpr (cutOrWhole_not (forall_mem_singleton.mp ih))
  | paren _ ih => exact forall_mem_singleton.mpr (cutOrWhole_logicalTree .or ih)
  | andOne _ ih => exact ih
  | andMore _ _ _ ih ihmore =>
    exact forall_mem_cons.mpr ⟨forall_mem_singleton.mp ih, ihmore⟩
  | orOne _ ih => exact forall_mem_singleton.mpr (cutOrWhole_logicalTree .and ih)
  | orMore _ _ _ ih ihmore =>
    exact forall_mem_cons.mpr ⟨cutOrWhole_logicalTree .and ih, ihmore⟩

/-- The filter that the tokens stand for is read back whole, or what is left of it is not
compiled. -/
theorem Denotes.cutOrWhole (h : Denotes ts j) : CutOrWhole j := by
  obtain ⟨js, hder, rfl⟩ := h
  exact cutOrWhole_logicalTree .or (derives_cutOrWhole hder)

/-! ## The filter that arrives -/

/-- What the reader makes of the text that is written for a filter. -/
theorem parseValue_of_reads {out : Text} (h : Reads out j) (d : Nat) :
    Json.parseValue (out.length + 1) d out = (reread decode d j).map (·, []) := by
  have hv := h.value (out.length + 1) d [] (lt_succ_self _) (by rintro c ⟨⟩)
  rwa [append_nil] at hv

/-- What is compiled is what is left of the value. -/
theorem compile_eq_none_of_cut {sql out : Text} {v : Option Json}
    (hout : sqlToMongoJson (trimLeft sql) = .ok out) (h : Reads out j)
    (hv : reread decode defaultMaxDepths j = .error v)
    (hnone : ∀ cf, compileNode schema (v.getD .null) cf = none) : compile sql schema = none := by
  rw [compile, hout]
  change (compileNode schema (Json.parse out) ⟨[], [], []⟩).map _ = none
  rw [h.parse_eq, recovered, hv]
  exact congrArg (Option.map _) (hnone _)

/-- **The generated JSON is read back as the filter, and a filter whose JSON is not read is not
compiled, exactly if every quoted literal is clean.** -/
theorem json_faithful_iff {sql out : Text} (hout : sqlToMongoJson (trimLeft sql) = .ok out) :
    ∃ ts j, tokens (trimLeft sql) = some ts ∧ Denotes ts j ∧
      (((∃ d, Json.parseValue (out.length + 1) d out = .ok (j, [])) ∧
        ∀ (schema : Schema) (v : Option Json),
          Json.parseValue (out.length + 1) defaultMaxDepths out = .error v →
            compile sql schema = none) ↔
      QuotedClean ts) := by
  obtain ⟨ts, j, hts, hj, hreads⟩ := denotes_of_sqlToMongoJson hout
  refine ⟨ts, j, hts, hj, ?_⟩
  have hclean : QuotedClean ts ↔ StringsClean j := by
    obtain ⟨js, hder, rfl⟩ := hj
    exact (derives_clean_iff hder (scans_of_tokensLoop hts).1).trans stringsClean_logicalTree.symm
  rw [hclean]
  constructor
  · rintro ⟨⟨d, hd⟩, -⟩
    rw [parseValue_of_reads hreads] at hd
    cases hr : reread decode d j with
    | error e =>
      rw [hr] at hd
      cases hd
    | ok v =>
      rw [hr] at hd
      cases hd
      exact strings_clean_of_reread hr
  · intro hstrings
    have hback := reread_clean _ hstrings
    refine ⟨⟨j.depth, ?_⟩, ?_⟩
    · rw [parseValue_of_reads hreads, hback, (reread_eq_ok_iff j).mpr le_rfl]
      rfl
    · intro schema v hv
      rw [parseValue_of_reads hreads, hback] at hv
      rcases hj.cutOrWhole defaultMaxDepths schema with ⟨w, hw, hnone⟩ | hok
      · exact compile_eq_none_of_cut hout hreads ((hback _).trans hw) hnone
      · rw [hok] at hv
        cases hv

/-- One quoted literal, which is clean. -/
theorem json_faithful_name :
    ∃ j d, Denotes [.ident "name".toList, .op "=".toList, .str "ab".toList] j ∧
      Json.parseValue 14 d "\x7b\"name\":\"ab\"\x7d".toList = .ok (j, []) := by
  have hout : sqlToMongoJson (trimLeft "name = 'ab'".toList)
      = .ok "\x7b\"name\":\"ab\"\x7d".toList := by decide +kernel
  have hts : tokens (trimLeft "name = 'ab'".toList)
      = some [.ident "name".toList, .op "=".toList, .str "ab".toList] := by decide +kernel
  obtain ⟨ts, j, hts', hj, hiff⟩ := json_faithful_iff hout
  obtain rfl := Option.some.inj (hts.symm.trans hts')
  obtain ⟨d, hd⟩ := (hiff.mpr fun s hs => by
    simp only [mem_cons, reduceCtorEq, Tok.str.injEq, not_mem_nil, or_false, false_or] at hs
    rw [hs]
    rfl).1
  exact ⟨j, d, hj, hd⟩

/-- The character `0x01` is written as `\u1`, which the reader does not accept; the compiler
takes what was read before it for the filter. -/
theorem control_character_compiled : sqlToMongoJson (trimLeft "name = 'a\x01z'".toList)
        = .ok "\x7b\"name\":\"a\\u1z\"\x7d".toList ∧
      (Json.parseValue 17 defaultMaxDepths "\x7b\"name\":\"a\\u1z\"\x7d".toList).isOk = false ∧
      (compile "name = 'a\x01z'".toList [("name".toList, ⟨0, .string, 0⟩)]).map
        (fun cf => cf.attrsTemplate) = some [appendRecord [] (packStringAttr "a".toList)] := by
  decide +kernel

end PipeANN.Dsl
