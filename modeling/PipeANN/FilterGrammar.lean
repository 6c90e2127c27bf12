import PipeANN.FilterParser
import PipeANN.JsonReading

/-! # The grammar of filter expressions

`SqlParser` writes its result as text while it reads its input as text.  Between the two there is
a tree: the JSON value that the written text stands for.  The filter language is given as a
grammar over tokens, with the value that a derivation stands for: `Derives level ts js`.  The
levels are those of the parser, and a chain of operands is derived as the list of their values.

The clauses that the parser writes are the texts of the values here (`Json.Reads`).
-/
namespace PipeANN.Dsl

open List TokenParser Scanner Json

/-! ## Literals and clauses -/

/-- A literal. -/
inductive Literal where
  | str (s : Text)
  | num (digits : Text)
  | bool (b : Bool)
  | var (s : Text)
  deriving DecidableEq

/-- The value that `parse_value` returns. -/
def Literal.value : Literal → SqlValue
  | .str s => ⟨true, false, s⟩
  | .num digits => ⟨false, false, digits⟩
  | .bool b => ⟨false, false, [if b then '1' else '0']⟩
  | .var s => ⟨false, true, s⟩

/-- The JSON value of a literal. -/
def Literal.json : Literal → Json
  | .str s => .str s
  | .num digits => .num (Nat.ofDigitChars 10 digits 0)
  | .bool b => .num (if b then 1 else 0)
  | .var s => .str s

/-- The literal that a token is. -/
def Tok.literal : Tok → Option Literal
  | .str s => some (.str s)
  | .number s => some (.num s)
  | .ident s =>
    if lower s = "true".toList then some (.bool true)
    else if lower s = "false".toList then some (.bool false)
    else if isPlaceholder s then some (.var s)
    else none
  | _ => none

/-- The value of `LIKE`. -/
def likeTree (field s : Text) : Json :=
  if s.getLast? = some '%' && s.idxOf '%' = s.length - 1 && !s.contains '_' then
    single field (single "$prefix".toList (.str s.dropLast))
  else if s.head? = some '%' && !s.tail.contains '%' && !s.contains '_' then
    single field (single "$suffix".toList (.str s.tail))
  else if !s.contains '%' && !s.contains '_' then single field (.str s)
  else single field (single "$like".toList (.str s))

/-- The value of a comparison. -/
def comparisonTree (field op : Text) (v : Json) : Option Json :=
  if op = "=".toList || op = "==".toList then some (single field v)
  else if op = "!=".toList || op = "<>".toList then some (single field (single "$ne".toList v))
  else if op = ">".toList then some (single field (single "$gt".toList v))
  else if op = ">=".toList then some (single field (single "$ge".toList v))
  else if op = "<".toList then some (single field (single "$lt".toList v))
  else if op = "<=".toList then some (single field (single "$le".toList v))
  else none

/-- The value of `BETWEEN`. -/
def betweenTree (field : Text) (lo hi : Json) : Json :=
  single field (.obj [("$ge".toList, lo), ("$le".toList, hi)])

/-- The value of `IN`. -/
def inTree (field : Text) (vals : List Literal) : Json :=
  if vals.all (fun v => !v.value.isString) then
    logicalTree "$or" (vals.map fun v => single field v.json)
  else single field (single "$in".toList (.arr (vals.map Literal.json)))

/-! ## The grammar -/

/-- One literal. -/
def IsLiteral (ts : List Tok) (v : Literal) : Prop := ∃ t, ts = [t] ∧ t.literal = some v

/-- Literals with commas between them. -/
inductive Items : List Tok → List Literal → Prop
  | nil : Items [] []
  | cons {t : Tok} {v : Literal} {ts : List Tok} {vs : List Literal} (ht : t.literal = some v)
      (hts : SepList (fun t => decide (t = .comma)) IsLiteral ts vs) : Items (t :: ts) (v :: vs)

/-- What follows the name of a field. -/
inductive IsPredicate (field : Text) : List Tok → Json → Prop
  | between {k t a t' : Tok} {lo hi : Literal} (hk : k.identIs "between" = true)
      (hlo : t.literal = some lo) (ha : a.identIs "and" = true) (hhi : t'.literal = some hi) :
      IsPredicate field [k, t, a, t'] (betweenTree field lo.json hi.json)
  | oneOf {k : Tok} {ts : List Tok} {vs : List Literal} (hk : k.identIs "in" = true)
      (hvs : Items ts vs) :
      IsPredicate field (k :: .lBrack :: (ts ++ [.rBrack])) (inTree field vs)
  | like {k : Tok} {s : Text} (hk : k.identIs "like" = true) :
      IsPredicate field [k, .str s] (likeTree field s)
  | compare {op : Text} {t : Tok} {v : Literal} {j : Json} (ht : t.literal = some v)
      (hj : comparisonTree field op v.json = some j) : IsPredicate field [.op op, t] j

/-- The operator of an array function with a list. -/
def callOp (funcName : Text) : String :=
  if funcName = "array_contains_all".toList then "$all" else "$in"

/-- The argument of an array function, behind the field. -/
inductive IsArgument (funcName field : Text) : List Tok → Json → Prop
  | contains {t : Tok} {v : Literal} (hname : funcName = "array_contains".toList)
      (ht : t.literal = some v) : IsArgument funcName field [t] (single field v.json)
  | one {s : Text} {v : Literal} (hname : funcName ≠ "array_contains".toList)
      (ht : (Tok.ident s).literal = some v) :
      IsArgument funcName field [.ident s] (single field (single (callOp funcName).toList v.json))
  | list {ts : List Tok} {vs : List Literal} (hname : funcName ≠ "array_contains".toList)
      (hvs : Items ts vs) :
      IsArgument funcName field (.lBrack :: (ts ++ [.rBrack]))
        (single field (single (callOp funcName).toList (.arr (vs.map Literal.json))))

/-- A clause on one field. -/
inductive IsCmp : List Tok → Json → Prop
  | call {name field : Text} {ts : List Tok} {j : Json} (hname : isArrayFunc (lower name) = true)
      (h : IsArgument (lower name) field ts j) :
      IsCmp (.ident name :: .lParen :: .ident field :: .comma :: (ts ++ [.rParen])) j
  | predicate {field : Text} {ts : List Tok} {j : Json} (h : IsPredicate field ts j) :
      IsCmp (.ident field :: ts) j
  | notPredicate {field : Text} {k : Tok} {ts : List Tok} {j : Json}
      (hk : k.identIs "not" = true) (h : IsPredicate field ts j) :
      IsCmp (.ident field :: k :: ts) (single "$not".toList j)

/-- The levels of the grammar. -/
inductive Level where
  | unary
  | and
  | or

/-- The derivations.  At the levels of chains there is a value for every operand. -/
inductive Derives : Level → List Tok → List Json → Prop
  | cmp {t : Tok} {ts : List Tok} {j : Json} (ht : t.identIs "not" = false)
      (h : IsCmp (t :: ts) j) : Derives .unary (t :: ts) [j]
  | not {k : Tok} {ts : List Tok} {j : Json} (hk : k.identIs "not" = true)
      (h : Derives .unary ts [j]) : Derives .unary (k :: ts) [single "$not".toList j]
  | paren {ts : List Tok} {js : List Json} (h : Derives .or ts js) :
      Derives .unary (.lParen :: (ts ++ [.rParen])) [logicalTree "$or" js]
  | andOne {ts : List Tok} {j : Json} (h : Derives .unary ts [j]) : Derives .and ts [j]
  | andMore {ts ts' : List Tok} {k : Tok} {j : Json} {js : List Json}
      (h : Derives .unary ts [j]) (hk : k.identIs "and" = true) (hmore : Derives .and ts' js) :
      Derives .and (ts ++ k :: ts') (j :: js)
  | orOne {ts : List Tok} {js : List Json} (h : Derives .and ts js) :
      Derives .or ts [logicalTree "$and" js]
  | orMore {ts ts' : List Tok} {k : Tok} {js js' : List Json} (h : Derives .and ts js)
      (hk : k.identIs "or" = true) (hmore : Derives .or ts' js') :
      Derives .or (ts ++ k :: ts') (logicalTree "$and" js :: js')

/-- The value of a filter expression, given by its tokens. -/
def Denotes (ts : List Tok) (j : Json) : Prop := ∃ js, Derives .or ts js ∧ j = logicalTree "$or" js

/-! ## Tokens of a text -/

/-- The tokens of a text; `none` if it cannot be scanned to its end. -/
def tokensLoop : Nat → Text → Option (List Tok)
  | 0, _ => none
  | fuel + 1, t =>
    match next t with
    | .error _ => none
    | .ok (tok, rest) => if tok = .done then some [] else (tokensLoop fuel rest).map (tok :: ·)

/-- The tokens of a text. -/
def tokens (t : Text) : Option (List Tok) := tokensLoop (t.length + 1) t

/-! ## What the written text stands for -/

theorem isCleanChar_of_ident {c : Char} (hc : isIdentChar c) : isCleanChar c := by
  have h32 : 32 ≤ c.toNat := by
    simp only [isIdentChar, Char.isAlphanum, Bool.or_eq_true, decide_eq_true_eq] at hc
    rcases hc with (((h | h) | rfl) | rfl) | rfl
    · exact Nat.le_trans (by decide) (isAlpha_toNat h)
    · exact Nat.le_trans (by decide) (Char.isDigit_iff_toNat.mp h).1
    · decide
    · decide
    · decide
  simp [isCleanChar, h32]

variable {t : Text}

theorem isClean_ident (h : IsIdent t) : isClean t := by
  obtain ⟨c, cs, rfl, hc, hcs⟩ := h
  have hstart : isIdentChar c := by
    simp only [isIdentStart, isIdentChar, Char.isAlphanum, Bool.or_eq_true] at hc ⊢
    tauto
  rw [isClean, all_eq_true]
  intro d hd
  rcases mem_cons.mp hd with rfl | hd
  · exact isCleanChar_of_ident hstart
  · exact isCleanChar_of_ident (hcs d hd)

/-- What the scanner guarantees of a token. -/
def Tok.Scanned : Tok → Prop
  | .ident t => IsIdent t
  | .number t => t ≠ [] ∧ ∀ d ∈ t, d.isDigit = true
  | _ => True

variable {field : Text} {j : Json} {lits : List Literal} {vs : List SqlValue}

theorem reads_fieldClause {body : Text} (hfield : isClean field)
    (h : Reads body j) : Reads (fieldClause field body) (single field j) :=
  reads_entry hfield h

/-- An operator is written as it is. -/
theorem reads_opClause {op : String} {body : Text}
    (hop : jsonEscape op.toList = op.toList ∧ isClean op.toList) (h : Reads body j) :
    Reads (opClause op.toList body) (single op.toList j) := by
  have := reads_entry hop.2 h
  rwa [hop.1] at this

theorem reads_unaryNot (h : Reads t j) : Reads (unaryNot t) (single "$not".toList j) :=
  reads_opClause ⟨rfl, rfl⟩ h

theorem commaSep_cons (t : Text) : ∀ (ts : List Text),
    commaSep (t :: ts) = t ++ ts.flatMap (fun t => ',' :: t)
  | [] => by rw [commaSep, flatMap_nil, append_nil]
  | t' :: ts => by rw [commaSep, commaSep_cons t' ts, flatMap_cons, cons_append]

theorem commaSep_eq_intercalate : ∀ (ts : List Text), commaSep ts = [','].intercalate ts
  | [] => rfl
  | [t] => by simp [commaSep]
  | t :: t' :: rest => by
    rw [commaSep, commaSep_eq_intercalate (t' :: rest)]
    simp

theorem reads_array {ts : List Text} {js : List Json} (h : List.Forall₂ Reads ts js) :
    Reads ('[' :: commaSep ts ++ [']']) (.arr js) := by
  have hps : ∀ p ∈ ts.zip js, Reads p.1 p.2 :=
    fun p hp => (forall₂_iff_zip.mp h).2 hp
  have hr := reads_arr hps
  rw [map_fst_zip (Nat.le_of_eq h.length_eq),
    map_snd_zip (Nat.le_of_eq h.length_eq.symm)] at hr
  rwa [commaSep_eq_intercalate]

theorem reads_logical {op : String} {ts : List Text} {js : List Json}
    (hop : jsonEscape op.toList = op.toList ∧ isClean op.toList)
    (h : List.Forall₂ Reads ts js) : Reads (logical op ts) (logicalTree op js) := by
  cases h with
  | nil => exact reads_opClause hop (reads_array .nil)
  | cons h₁ hrest =>
    cases hrest with
    | nil => exact h₁
    | cons h₂ hrest => exact reads_opClause hop (reads_array (.cons h₁ (.cons h₂ hrest)))

theorem reads_likeClause (hfield : isClean field) (s : Text) :
    Reads (likeClause field s) (likeTree field s) := by
  unfold likeClause likeTree
  split_ifs
  iterate 2 exact reads_fieldClause hfield (reads_opClause ⟨rfl, rfl⟩ (reads_str _))
  · exact reads_fieldClause hfield (reads_str _)
  · exact reads_fieldClause hfield (reads_opClause ⟨rfl, rfl⟩ (reads_str _))

/-- Both tables have the same operators. -/
theorem reads_comparisonClause (hfield : isClean field) {op : Text}
    {v : Json} (h : Reads t v) (hj : comparisonTree field op v = some j) :
    ∃ out, comparisonClause field op t = some out ∧ Reads out j := by
  unfold comparisonClause
  unfold comparisonTree at hj
  split_ifs at hj ⊢ <;> cases hj
  · exact ⟨_, rfl, reads_fieldClause hfield h⟩
  iterate 5 exact ⟨_, rfl, reads_fieldClause hfield (reads_opClause ⟨rfl, rfl⟩ h)⟩

theorem exists_comparisonTree {op out : Text} (h : comparisonClause field op t = some out)
    (v : Json) : ∃ j, comparisonTree field op v = some j := by
  unfold comparisonTree
  unfold comparisonClause at h
  split_ifs at h ⊢ <;> exact ⟨_, rfl⟩

theorem reads_betweenClause {lo hi : Text} {l h : Json} (hfield : isClean field) (hlo : Reads lo l)
    (hhi : Reads hi h) : Reads (betweenClause field lo hi) (betweenTree field l h) := by
  refine reads_fieldClause hfield ?_
  have hr := reads_obj [⟨"$ge".toList, lo, l⟩, ⟨"$le".toList, hi, h⟩]
    (by rintro e he; simp only [mem_cons, not_mem_nil, or_false] at he
        rcases he with rfl | rfl <;> rfl)
    (pairwise_pair.mpr rfl)
    (by rintro e he; simp only [mem_cons, not_mem_nil, or_false] at he
        rcases he with rfl | rfl
        · exact hlo
        · exact hhi)
  simpa [Entry.write, Entry.pair, jsonEscape, escapeChar] using hr

/-- A value of the parser and the literal it stands for. -/
def Renders (v : SqlValue) (lit : Literal) : Prop := v = lit.value ∧ Reads v.json lit.json

theorem forall₂_renders (h : Forall₂ Renders vs lits) :
    vs = lits.map Literal.value ∧
      Forall₂ Reads (vs.map SqlValue.json) (lits.map Literal.json) := by
  induction h with
  | nil => exact ⟨rfl, .nil⟩
  | cons hv _ ih => exact ⟨by rw [hv.1, ih.1]; rfl, .cons hv.2 ih.2⟩

theorem reads_inClause (hfield : isClean field) (h : Forall₂ Renders vs lits) :
    Reads (inClause field vs) (inTree field lits) := by
  obtain ⟨rfl, hreads⟩ := forall₂_renders h
  have hstring : (lits.map Literal.value).all (fun v => !v.isString)
      = lits.all (fun v => !v.value.isString) := all_map
  rw [inClause, inTree, hstring]
  split
  · refine reads_logical ⟨rfl, rfl⟩ ?_
    rw [forall₂_map_left_iff, forall₂_map_right_iff] at hreads ⊢
    exact hreads.imp fun v lit hv => reads_fieldClause hfield hv
  · exact reads_fieldClause hfield (reads_opClause ⟨rfl, rfl⟩ (reads_array hreads))

end PipeANN.Dsl
