import PipeANN.FilterSyntax
import PipeANN.FilterSpelling

/-! # The parser reads a filter as it was written

`denotes_tokens`: the tokens of a filter have a derivation, and its value is the filter's JSON
form.  With the scanner's side (`written_tokens`), the parser accepts the text of every filter
and writes its JSON form (`sqlToMongoJson_toSql`).
-/
namespace PipeANN.Dsl

open List TokenParser Scanner PipeANN.Dsl.Filter

variable {T : Table} {vs : List Literal} {toks : List Tok}

/-! ## Atomic filters -/

theorem literal_numTok (v : Nat) : (numTok v).literal = some (.num (Nat.toDigits 10 v)) := rfl

@[simp] theorem json_digits (v : Nat) : (Literal.num (Nat.toDigits 10 v)).json = .num v := by
  rw [Literal.json, Nat.ofDigitChars_ten_toDigits]

/-- A list in brackets, by the literals of its items. -/
theorem bracketed_items (h : toks.map Tok.literal = vs.map some) :
    ∃ mid, bracketed toks = .lBrack :: (mid ++ [.rBrack]) ∧ Items mid vs := by
  have hmore : ∀ (toks : List Tok) (vs : List Literal), toks.map Tok.literal = vs.map some →
      SepList (fun t => decide (t = .comma)) IsLiteral (toks.flatMap fun t => [.comma, t]) vs := by
    intro toks
    induction toks with
    | nil =>
      rintro (_ | ⟨v, vs⟩) h
      · exact .nil
      · cases h
    | cons t toks ih =>
      rintro (_ | ⟨v, vs⟩) h
      · cases h
      · obtain ⟨ht, hrest⟩ := cons.inj h
        exact .cons (decide_eq_true rfl) ⟨t, rfl, ht⟩ (ih vs hrest)
  cases toks with
  | nil =>
    obtain rfl : vs = [] := map_eq_nil_iff.mp h.symm
    exact ⟨[], rfl, .nil⟩
  | cons t toks =>
    cases vs with
    | nil => cases h
    | cons v vs =>
      obtain ⟨ht, hrest⟩ := cons.inj h
      exact ⟨t :: toks.flatMap fun t => [.comma, t], by simp [bracketed],
        .cons ht (hmore toks vs hrest)⟩

theorem map_literal_numTok (vs : List Nat) :
    (vs.map numTok).map Tok.literal =
      (vs.map fun v => Literal.num (Nat.toDigits 10 v)).map some := by
  rw [map_map, map_map]
  rfl

theorem isCmp_inList (field : Text) (h : toks.map Tok.literal = vs.map some) :
    IsCmp (.ident field :: wordTok "in" :: bracketed toks) (inTree field vs) := by
  obtain ⟨mid, hmid, hitems⟩ := bracketed_items h
  rw [hmid]
  exact .predicate (.oneOf (by decide) hitems)

theorem isCmp_containsList (func : String) (field : Text) (vs : List Nat)
    (hfunc : isArrayFunc (lower func.toList))
    (hlist : lower func.toList ≠ "array_contains".toList) :
    IsCmp (callTokens func field (bracketed (vs.map numTok)))
      (.obj [(field, .obj [((callOp (lower func.toList)).toList, .arr (vs.map .num))])]) := by
  obtain ⟨mid, hmid, hitems⟩ := bracketed_items (map_literal_numTok vs)
  have hjson : (vs.map fun v => Literal.num (Nat.toDigits 10 v)).map Literal.json
      = vs.map .num := by
    rw [map_map]
    exact congrArg (vs.map ·) (funext json_digits)
  rw [hmid, ← hjson]
  exact .call hfunc (.list hlist hitems)

/-- **The tokens of an atomic filter stand for its JSON form.** -/
theorem isCmp_atom (a : Atom T) : IsCmp a.tokens a.node := by
  cases a with
  | num field op v =>
    refine .predicate (.compare (literal_numTok v) ?_)
    rw [json_digits]
    cases op <;> rfl
  | between field lo hi =>
    have h : IsPredicate field.name [wordTok "between", numTok lo, wordTok "and", numTok hi] _ :=
      .between (by decide) (literal_numTok lo) (by decide) (literal_numTok hi)
    rw [json_digits, json_digits] at h
    exact .predicate h
  | numIn field vs =>
    have h := isCmp_inList field.name (map_literal_numTok vs)
    have hall : (vs.map fun v => Literal.num (Nat.toDigits 10 v)).all
        (fun v => !v.value.isString) := by
      rw [all_map]
      exact all_eq_true.mpr fun _ _ => rfl
    have hjson : ((fun v : Literal => Json.single field.name v.json) ∘
        fun v => Literal.num (Nat.toDigits 10 v)) = fun v => .obj [(field.name, .num v)] :=
      funext fun v => congrArg (Json.single field.name) (json_digits v)
    rw [inTree, if_pos hall, map_map, hjson] at h
    exact h
  | str field negate lit =>
    cases negate <;> exact .predicate (.compare rfl rfl)
  | strIn field lits =>
    have hmap : (lits.map fun lit => Tok.str lit.text).map Tok.literal
        = (lits.map fun lit => Literal.str lit.text).map some := by
      rw [map_map, map_map]
      rfl
    have h := isCmp_inList field.name hmap
    cases lits with
    | nil => exact h
    | cons lit lits =>
      rw [inTree, if_neg (by simp [Literal.value]), map_map] at h
      exact h
  | contains field v =>
    have h : IsArgument (lower "array_contains".toList) field.name [numTok v] _ :=
      .contains (by decide) (literal_numTok v)
    rw [json_digits] at h
    exact .call (by decide) h
  | containsAny field vs =>
    exact isCmp_containsList "array_contains_any" field.name vs (by decide) (by decide)
  | containsAll field vs =>
    exact isCmp_containsList "array_contains_all" field.name vs (by decide) (by decide)

/-! ## Filters -/

theorem operands_eq (j : Junction) : ∀ (fs : List (Filter T)),
    operand.operands j fs = fs.flatMap fun f => j.tok :: f.operand
  | [] => rfl
  | f :: fs => by rw [operand.operands, operands_eq j fs, flatMap_cons]

theorem nodes_eq : ∀ (fs : List (Filter T)), node.nodes fs = fs.map node
  | [] => rfl
  | f :: fs => by rw [node.nodes, nodes_eq fs, map_cons]

variable (j : Junction) (first second : Filter T) (rest : List (Filter T))

theorem tokens_junction : (Filter.junction j first second rest).tokens
      = first.operand ++ (second :: rest).flatMap fun f => j.tok :: f.operand := by
  rw [Filter.tokens, operands_eq, flatMap_cons]

theorem operand_junction : (Filter.junction j first second rest).operand
      = .lParen :: (Filter.junction j first second rest).tokens ++ [.rParen] := by
  rw [Filter.operand, Filter.tokens, cons_append]

theorem node_junction : (Filter.junction j first second rest).node
      = .obj [Json.entry j.key (.arr ((first :: second :: rest).map node))] := by
  rw [node, nodes_eq, map_cons, map_cons]

/-- The operands behind the first one. -/
theorem sepList_operands {t : Tok} {kw : String} (ht : t.identIs kw)
    {Q : List Tok → Json → Prop} : ∀ {fs : List (Filter T)}, (∀ f ∈ fs, Q f.operand f.node) →
    SepList (Tok.identIs kw) Q (fs.flatMap fun f => t :: f.operand) (fs.map node)
  | [], _ => .nil
  | f :: fs, h => by
    obtain ⟨hf, hfs⟩ := forall_mem_cons.mp h
    exact .cons ht hf (sepList_operands ht hfs)

/-- A junction whose operands stand for their JSON forms. -/
theorem denotes_junction (j : Junction) {first second : Filter T} {rest : List (Filter T)}
    (h : ∀ f ∈ first :: second :: rest, Derives .unary f.operand [f.node]) :
    Denotes (junction j first second rest).tokens (junction j first second rest).node := by
  obtain ⟨hfirst, hothers⟩ := forall_mem_cons.mp h
  rw [tokens_junction, node_junction]
  cases j with
  | and => exact ⟨_, .orOne (derives_and hfirst (sepList_operands (by decide) hothers)), rfl⟩
  | or =>
    have hand : ∀ f ∈ second :: rest, ∃ js, Derives .and f.operand js ∧
        f.node = logicalTree "$and" js := fun f hf => ⟨_, .andOne (hothers f hf), rfl⟩
    exact ⟨_, derives_or ⟨_, .andOne hfirst, rfl⟩ (sepList_operands (by decide) hand), rfl⟩

variable (f : Filter T)

/-- An operand stands for its JSON form. -/
theorem derives_operand : Derives .unary f.operand [f.node] := by
  induction f with
  | atom a =>
    have hhead : ∃ name rest, a.tokens = .ident name :: rest ∧ lower name ≠ "not".toList := by
      cases a with
      | num field | between field | numIn field | str field | strIn field =>
        exact ⟨_, _, rfl, (T.names_ok _ field.mem).2.1⟩
      | contains | containsAny | containsAll => exact ⟨_, _, rfl, by decide⟩
    obtain ⟨name, rest, htokens, hname⟩ := hhead
    have hcmp := isCmp_atom a
    rw [operand]
    rw [htokens] at hcmp ⊢
    exact .cmp (decide_eq_false hname) hcmp
  | junction j first second rest ih =>
    obtain ⟨js, hjs, hnode⟩ := denotes_junction j ih
    rw [hnode]
    exact .paren hjs
  | not f ih => exact .not (by decide) ih

/-- **The tokens of a filter stand for its JSON form.** -/
theorem denotes_tokens : Denotes f.tokens f.node := by
  cases f with
  | junction j first second rest => exact denotes_junction j fun f _ => derives_operand f
  | _ => exact ⟨_, .orOne (.andOne (derives_operand _)), rfl⟩

/-! ## From the text -/

theorem written_numTok (n : Nat) : (numTok n).Written (numTok n).text :=
  .number Nat.toDigits_ne_nil fun _ hc => Nat.isDigit_of_mem_toDigits (by decide) (by decide) hc

theorem written_bracketed {ts : List Tok} (h : ∀ t ∈ ts, t.Written t.text) :
    ∀ t ∈ bracketed ts, t.Written t.text := by
  intro t ht
  have hmem : t = .lBrack ∨ t = .rBrack ∨ t = .comma ∨ t ∈ ts := by
    cases ts with
    | nil => exact (mem_pair.mp ht).imp_right .inl
    | cons x xs =>
      simp only [bracketed, cons_append, mem_cons, mem_append, mem_flatMap,
        not_mem_nil, or_false] at ht ⊢
      rcases ht with rfl | rfl | ⟨y, hy, rfl | rfl⟩ | rfl <;> simp_all
  rcases hmem with rfl | rfl | rfl | hmem
  · exact .lBrack
  · exact .rBrack
  · exact .comma
  · exact h t hmem

theorem written_callTokens {func : String} (hfunc : IsIdent func.toList) {field : Text}
    (hfield : IsIdent field) {args : List Tok} (h : ∀ t ∈ args, t.Written t.text) :
    ∀ t ∈ callTokens func field args, t.Written t.text := by
  simp only [callTokens, cons_append, forall_mem_cons, forall_mem_append]
  exact ⟨.ident hfunc, .lParen, .ident hfield, .comma, h, .rParen, by simp⟩

theorem written_atom (a : Atom T) : ∀ t ∈ a.tokens, t.Written t.text := by
  have hname : ∀ {ty : AttrType} (field : T.Field ty), IsIdent field.name :=
    fun field => (T.names_ok _ field.mem).1
  have hnums : ∀ vs : List Nat, ∀ t ∈ vs.map numTok, t.Written t.text :=
    fun vs => forall_mem_map.mpr fun v _ => written_numTok v
  have hstr : ∀ s : Text, (Tok.str s).Written (Tok.str s).text :=
    fun s => .str (.inr rfl) (quotes_quoted s)
  cases a with
  | num field op v =>
    simp only [Atom.tokens, forall_mem_cons]
    exact ⟨.ident (hname field), .op (by cases op <;> decide), written_numTok v, by simp⟩
  | between field lo hi =>
    simp only [Atom.tokens, forall_mem_cons]
    exact ⟨.ident (hname field), .ident (by decide), written_numTok lo, .ident (by decide),
      written_numTok hi, by simp⟩
  | numIn field vs =>
    simp only [Atom.tokens, forall_mem_cons]
    exact ⟨.ident (hname field), .ident (by decide), written_bracketed (hnums vs)⟩
  | str field negate lit =>
    simp only [Atom.tokens, forall_mem_cons]
    exact ⟨.ident (hname field), .op (by cases negate <;> decide), hstr lit.text, by simp⟩
  | strIn field lits =>
    simp only [Atom.tokens, forall_mem_cons]
    exact ⟨.ident (hname field), .ident (by decide),
      written_bracketed (forall_mem_map.mpr fun lit _ => hstr lit.text)⟩
  | contains field v => exact written_callTokens (by decide) (hname field) (hnums [v])
  | containsAny field vs | containsAll field vs =>
    exact written_callTokens (by decide) (hname field) (written_bracketed (hnums vs))

theorem written_operand : ∀ t ∈ f.operand, t.Written t.text := by
  induction f with
  | atom a => exact written_atom a
  | junction j first second rest ih =>
    have hkw : j.tok.Written j.tok.text := by cases j <;> exact .ident (by decide)
    obtain ⟨hfirst, hothers⟩ := forall_mem_cons.mp ih
    rw [operand_junction, tokens_junction]
    have htail : ∀ t ∈ (second :: rest).flatMap fun f => j.tok :: f.operand, t.Written t.text :=
      forall_mem_flatMap.mpr fun f hf => forall_mem_cons.mpr ⟨hkw, hothers f hf⟩
    rw [cons_append, forall_mem_cons, forall_mem_append, forall_mem_append]
    exact ⟨.lParen, ⟨hfirst, htail⟩, forall_mem_singleton.mpr .rParen⟩
  | not f ih =>
    rw [operand, forall_mem_cons]
    exact ⟨.ident (by decide), ih⟩

theorem written_tokens : ∀ t ∈ f.tokens, t.Written t.text := by
  cases f with
  | junction j first second rest =>
    intro t ht
    refine written_operand (.junction j first second rest) t ?_
    exact mem_append_left _ (mem_cons_of_mem _ ht)
  | _ => exact written_operand _

/-- **The parser accepts the text of a filter, and writes the text of its JSON form.** -/
theorem sqlToMongoJson_toSql :
    ∃ out, sqlToMongoJson (trimLeft f.toSql) = .ok out ∧ Json.Reads out f.node :=
  sqlToMongoJson_of_denotes (tokens_of_spells (spells_render (written_tokens f)).trimLeft)
    (denotes_tokens f)

end PipeANN.Dsl
