import PipeANN.Json
import PipeANN.TokenParser

/-! # From a filter expression to JSON text

`SqlParser` of `dsl_compiler.h`: a scanner (`next`), and a recursive descent parser over the
tokens, which writes the filter as JSON text (`sql_to_mongo_json`).

The scanner works on bytes; a byte is a character below 256, and the character classes are those
of the C locale.  A scanner error carries the text that is left, from which `SqlParser` computes
the byte position of its message.  Every function of the parser is a computation on its state; an
exception carries the byte position and the message.

The loops and the recursion take `fuel`, the length of the input: every round reads at
least one token.
-/
namespace PipeANN.Dsl
open TokenParser

/-- `std::isspace`. -/
def isSpace (c : Char) : Bool := c = ' ' || ('\t'.toNat ≤ c.toNat && c.toNat ≤ '\r'.toNat)

/-- The first character of an identifier. -/
def isIdentStart (c : Char) : Bool := c.isAlpha || c = '_' || c = '$'

/-- The further characters of an identifier. -/
def isIdentChar (c : Char) : Bool := c.isAlphanum || c = '_' || c = '.' || c = '$'

/-- The quote `'`. -/
def singleQuote : Char := Char.ofNat 39

/-- `Tok`: its `TokKind`, with the text of the kinds that have one. -/
inductive Tok where
  | done
  | ident (text : Text)
  | number (text : Text)
  | str (text : Text)
  | lParen
  | rParen
  | lBrack
  | rBrack
  | comma
  | op (text : Text)
  deriving DecidableEq

/-- The character that a backslash and `e` stand for in a quoted literal. -/
def unescape (e : Char) : Char :=
  if e = 'n' then '\n' else if e = 'r' then '\r' else if e = 't' then '\t' else e

/-- The characters up to the closing quote; `none` if there is none. -/
def scanString (quote : Char) : Text → Text → Option (Text × Text)
  | _, [] => none
  | out, d :: rest =>
    if d = quote then some (out, rest)
    else if d = '\\' then
      match rest with
      | [] => none
      | e :: rest => scanString quote (out ++ [unescape e]) rest
    else scanString quote (out ++ [d]) rest

/-- `next`, on the input from `pos` on. -/
def next (input : Text) : Except (String × Text) (Tok × Text) :=
  match input.dropWhile isSpace with
  | [] => .ok (.done, [])
  | c :: rest =>
    if isIdentStart c then
      .ok (.ident (c :: rest.takeWhile isIdentChar), rest.dropWhile isIdentChar)
    else if c.isDigit then
      .ok (.number (c :: rest.takeWhile Char.isDigit), rest.dropWhile Char.isDigit)
    else if c = singleQuote || c = '"' then
      match scanString c [] rest with
      | some (text, rest) => .ok (.str text, rest)
      | none => .error ("unterminated string literal", [])
    else if c = '(' then .ok (.lParen, rest)
    else if c = ')' then .ok (.rParen, rest)
    else if c = '[' then .ok (.lBrack, rest)
    else if c = ']' then .ok (.rBrack, rest)
    else if c = ',' then .ok (.comma, rest)
    else if c = '=' || c = '!' || c = '<' || c = '>' then
      match rest with
      | [] => .ok (.op [c], [])
      | d :: rest' =>
        if d = '=' || (c = '<' && d = '>') then .ok (.op [c, d], rest')
        else .ok (.op [c], rest)
    else .error ("unexpected character '" ++ c.toString ++ "'", rest)

theorem next_quote {quote : Char} (h : quote = singleQuote ∨ quote = '"') (t : Text) :
    next (quote :: t) =
      match scanString quote [] t with
      | some (text, rest) => .ok (.str text, rest)
      | none => .error ("unterminated string literal", []) := by
  rcases h with rfl | rfl <;> rfl

/-- The exception of `error(msg)`: the byte position and the message. -/
structure SqlError where
  pos : Nat
  msg : String
  deriving DecidableEq

/-- `SqlParser`: the input, what is left of it from `pos` on, and the current token. -/
structure SqlParser where
  input : Text
  rest : Text
  tok : Tok

namespace SqlParser

/-- `next()`. -/
def next (p : SqlParser) : Except SqlError SqlParser :=
  match Dsl.next p.rest with
  | .ok (tok, rest) => .ok { p with tok := tok, rest := rest }
  | .error (msg, rest) => .error ⟨p.input.length - rest.length, msg⟩

/-- The constructor, which scans the first token. -/
def new (input : Text) : Except SqlError SqlParser := next ⟨input, input, .done⟩

/-- `pos`. -/
def pos (p : SqlParser) : Nat := p.input.length - p.rest.length

end SqlParser

/-- The scanner of the filter language. -/
def scanner : Scanner SqlParser Tok SqlError := ⟨SqlParser.tok, SqlParser.next, .done⟩

/-! ## Writing tokens -/

/-- A quoted literal's text between the quotes. -/
def quoted (s : Text) : Text := s.flatMap fun c => if c = '"' || c = '\\' then ['\\', c] else [c]

/-- A way to write a token. -/
def Tok.text : Tok → Text
  | .done => []
  | .ident t => t
  | .number t => t
  | .str s => '"' :: quoted s ++ ['"']
  | .lParen => ['(']
  | .rParen => [')']
  | .lBrack => ['[']
  | .rBrack => [']']
  | .comma => [',']
  | .op t => t

/-- The tokens of an expression, with a blank after each. -/
def render (ts : List Tok) : Text := ts.flatMap fun t => t.text ++ [' ']

/-- An identifier. -/
def IsIdent (t : Text) : Prop :=
  ∃ c cs, t = c :: cs ∧ isIdentStart c = true ∧ ∀ d ∈ cs, isIdentChar d = true

instance (t : Text) : Decidable (IsIdent t) :=
  match t with
  | [] => .isFalse (by rintro ⟨c, cs, h, -⟩; cases h)
  | c :: cs =>
    if h : isIdentStart c = true ∧ cs.all isIdentChar = true then
      .isTrue ⟨c, cs, rfl, h.1, List.all_eq_true.mp h.2⟩
    else .isFalse (by
      rintro ⟨c', cs', hc, h'⟩
      cases hc
      exact h (h'.imp_right List.all_eq_true.mpr))

theorem isSpace_eq_false {c : Char} (h : 32 < c.toNat) : isSpace c = false := by
  have hblank : c ≠ ' ' := by
    rintro rfl
    exact absurd h (by decide)
  have hctrl : ¬ c.toNat ≤ '\r'.toNat := fun h' => absurd (Nat.lt_of_lt_of_le h h') (by decide)
  rw [isSpace, decide_eq_false hblank, Bool.false_or, decide_eq_false hctrl, Bool.and_false]

theorem isAlpha_toNat {c : Char} (h : c.isAlpha = true) : 65 ≤ c.toNat := by
  rcases Bool.or_eq_true_iff.mp h with h | h
  · exact UInt32.le_iff_toNat_le.mp (of_decide_eq_true h).1
  · have hle : 'a'.val ≤ c.val := of_decide_eq_true (Bool.and_eq_true_iff.mp h).1
    exact Nat.le_trans (by decide) (UInt32.le_iff_toNat_le.mp hle)

theorem identStart_toNat {c : Char} (h : isIdentStart c = true) : c.toNat = 36 ∨ 65 ≤ c.toNat := by
  rw [isIdentStart, Bool.or_eq_true, Bool.or_eq_true, decide_eq_true_eq, decide_eq_true_eq] at h
  rcases h with (h | rfl) | rfl
  · exact .inr (isAlpha_toNat h)
  · exact .inr (by decide)
  · exact .inl rfl

/-! ## The parser -/

/-- A function of `SqlParser`. -/
abbrev SqlM := Parser SqlParser SqlError

/-- `error(msg)`. -/
def error {α : Type} (msg : String) : SqlM α := fun p => .error ⟨p.pos, msg⟩

/-- The current token. -/
def peek : SqlM Tok := scanner.peek

/-- `next()`. -/
def advance : SqlM Unit := scanner.advance

/-- `lower`. -/
def lower (s : Text) : Text := s.map Char.toLower

/-- `ident_is(kw)`, on a token. -/
def Tok.identIs (kw : String) : Tok → Bool
  | .ident t => lower t = kw.toList
  | _ => false

/-- `expect(k, what)`, for the kinds without text. -/
def expect (k : Tok) (what : String) : SqlM Unit := do
  let t ← peek
  if t = k then advance else error ("expected " ++ what)

/-- `is_placeholder`. -/
def isPlaceholder (s : Text) : Bool := 3 ≤ s.length && ['$', '$'].isPrefixOf s

/-- `SqlValue`. -/
structure SqlValue where
  isString : Bool
  isPlaceholder : Bool
  s : Text

/-- `SqlValue::json`. -/
def SqlValue.json (v : SqlValue) : Text :=
  if v.isString || v.isPlaceholder then '"' :: jsonEscape v.s ++ ['"'] else v.s

/-- `parse_value`. -/
def parseValue : SqlM SqlValue := do
  let t ← peek
  match t with
  | .str s => advance; pure ⟨true, false, s⟩
  | .number s => advance; pure ⟨false, false, s⟩
  | .ident s =>
    if lower s = "true".toList then advance; pure ⟨false, false, ['1']⟩
    else if lower s = "false".toList then advance; pure ⟨false, false, ['0']⟩
    else if isPlaceholder s then advance; pure ⟨false, true, s⟩
    else error "expected literal value"
  | _ => error "expected literal value"

/-- An object with one entry whose key needs no escape. -/
def opClause (op : Text) (body : Text) : Text := '{' :: '"' :: op ++ '"' :: ':' :: body ++ ['}']

/-- `field_clause`. -/
def fieldClause (field body : Text) : Text := opClause (jsonEscape field) body

/-- `unary_not`. -/
def unaryNot (node : Text) : Text := opClause "$not".toList node

/-- Texts with a comma between them. -/
def commaSep : List Text → Text
  | [] => []
  | [t] => t
  | t :: t' :: rest => t ++ ',' :: commaSep (t' :: rest)

/-- `logical`. -/
def logical (op : String) (nodes : List Text) : Text :=
  match nodes with
  | [node] => node
  | nodes => opClause op.toList ('[' :: commaSep nodes ++ [']'])

/-- `logical`, on values. -/
def logicalTree (op : String) (nodes : List Json) : Json :=
  match nodes with
  | [node] => node
  | nodes => Json.single op.toList (.arr nodes)

/-- The loop of `parse_array_values`. -/
def arrayLoop : Nat → Bool → Text → SqlM Text
  | 0, _, arr => pure arr
  | fuel + 1, first, arr => do
      let t ← peek
      if t = .rBrack then pure arr
      else
        if !first then expect .comma "','"
        let v ← parseValue
        arrayLoop fuel false (arr ++ (if first then [] else [',']) ++ v.json)

variable (fuel : Nat)

/-- `parse_array_values`. -/
def parseArrayValues : SqlM Text := do
  expect .lBrack "'['"
  let arr ← arrayLoop fuel true ['[']
  expect .rBrack "']'"
  pure (arr ++ [']'])

/-- The names of the array functions. -/
def isArrayFunc (funcName : Text) : Bool :=
  funcName = "array_contains".toList || funcName = "array_contains_all".toList ||
    funcName = "array_contains_any".toList

/-- The function-call syntax of `parse_cmp`, from the opening parenthesis on. -/
def parseCall (funcName : Text) : SqlM Text := do
  advance
  let t ← peek
  match t with
  | .ident actualField => do
      advance
      expect .comma "','"
      let n ←
        if funcName = "array_contains".toList then do
          let v ← parseValue
          pure (fieldClause actualField v.json)
        else do
          let op := if funcName = "array_contains_all".toList then "$all" else "$in"
          let t ← peek
          match t with
          | .ident _ => do
              let v ← parseValue
              pure (fieldClause actualField (opClause op.toList v.json))
          | _ => do
              let arr ← parseArrayValues fuel
              pure (fieldClause actualField (opClause op.toList arr))
      expect .rParen "')'"
      pure n
  | _ => error ("expected field name in " ++ String.ofList funcName ++ "()")

/-- The clause of `LIKE`, by the places of the wildcards in the pattern. -/
def likeClause (field s : Text) : Text :=
  let str (s : Text) : Text := SqlValue.json ⟨true, false, s⟩
  if s.getLast? = some '%' && s.idxOf '%' = s.length - 1 && !s.contains '_' then
    fieldClause field (opClause "$prefix".toList (str s.dropLast))
  else if s.head? = some '%' && !s.tail.contains '%' && !s.contains '_' then
    fieldClause field (opClause "$suffix".toList (str s.tail))
  else if !s.contains '%' && !s.contains '_' then fieldClause field (str s)
  else fieldClause field (opClause "$like".toList (str s))

/-- The clause of a comparison. -/
def comparisonClause (field op value : Text) : Option Text :=
  if op = "=".toList || op = "==".toList then some (fieldClause field value)
  else if op = "!=".toList || op = "<>".toList then
    some (fieldClause field (opClause "$ne".toList value))
  else if op = ">".toList then some (fieldClause field (opClause "$gt".toList value))
  else if op = ">=".toList then some (fieldClause field (opClause "$ge".toList value))
  else if op = "<".toList then some (fieldClause field (opClause "$lt".toList value))
  else if op = "<=".toList then some (fieldClause field (opClause "$le".toList value))
  else none

/-- The clause of `BETWEEN`. -/
def betweenClause (field lo hi : Text) : Text :=
  fieldClause field
    ('{' :: '"' :: "$ge".toList ++ '"' :: ':' :: lo ++
      ',' :: '"' :: "$le".toList ++ '"' :: ':' :: hi ++ ['}'])

/-- The clause of `IN`. -/
def inClause (field : Text) (vals : List SqlValue) : Text :=
  if vals.all (fun v => !v.isString) then
    logical "$or" (vals.map fun v => fieldClause field v.json)
  else
    fieldClause field (opClause "$in".toList ('[' :: commaSep (vals.map SqlValue.json) ++ [']']))

/-- The part of `parse_cmp` behind the field name and a `NOT`. -/
def parsePredicate (field : Text) : SqlM Text := do
  let t ← peek
  if t.identIs "between" then
    advance
    let lo ← parseValue
    let t ← peek
    if t.identIs "and" then
      advance
      let hi ← parseValue
      pure (betweenClause field lo.json hi.json)
    else error "expected AND in BETWEEN expression"
  else if t.identIs "in" then
    advance
    expect .lBrack "'['"
    let t ← peek
    let vals ←
      if t = .rBrack then pure []
      else do
        let v ← parseValue
        let vs ← scanner.sepLoop (fun t => t = .comma) parseValue fuel
        pure (v :: vs)
    expect .rBrack "']'"
    pure (inClause field vals)
  else if t.identIs "like" then
    advance
    let v ← parseValue
    if v.isString then pure (likeClause field v.s)
    else error "LIKE expects a string literal"
  else
    match t with
    | .op op => do
        advance
        let v ← parseValue
        match comparisonClause field op v.json with
        | some n => pure n
        | none => error "unsupported comparison operator"
    | _ => error "expected comparison operator"

/-- `parse_cmp`. -/
def parseCmp : SqlM Text := do
  let t ← peek
  match t with
  | .ident field => do
      advance
      let t ← peek
      if isArrayFunc (lower field) && t = .lParen then
        parseCall fuel (lower field)
      else if t.identIs "not" then do
        advance
        let n ← parsePredicate fuel field
        pure (unaryNot n)
      else parsePredicate fuel field
  | _ => error "expected field name"

/-- `parse_or` and `parse_and`: operands with the keyword between them. -/
def parseChain (kw op : String) (item : SqlM Text) (fuel : Nat) : SqlM Text := do
  let node ← item
  let nodes ← scanner.sepLoop (Tok.identIs kw) item fuel
  pure (logical op (node :: nodes))

/-- `parse_and`. -/
def parseAnd (unary : SqlM Text) (fuel : Nat) : SqlM Text := parseChain "and" "$and" unary fuel

/-- `parse_or`, which is `parse_expr`. -/
def parseOr (unary : SqlM Text) (fuel : Nat) : SqlM Text :=
  parseChain "or" "$or" (parseAnd unary fuel) fuel

/-- `parse_unary`. -/
def parseUnary : Nat → SqlM Text
  | 0 => error "unexpected trailing token"
  | fuel + 1 => do
      let t ← peek
      if t.identIs "not" then
        advance
        let n ← parseUnary fuel
        pure (unaryNot n)
      else if t = .lParen then
        advance
        let n ← parseOr (parseUnary fuel) fuel
        expect .rParen "')'"
        pure n
      else parseCmp fuel

/-- `parse_expr`, and the check that nothing follows. -/
def parseAll : SqlM Text := do
  let out ← parseOr (parseUnary fuel) fuel
  let t ← peek
  if t = .done then pure out else error "unexpected trailing token"

/-- `sql_to_mongo_json`. -/
def sqlToMongoJson (expr : Text) : Except SqlError Text := do
  let p ← SqlParser.new expr
  let (out, _) ← parseAll (expr.length + 1) p
  pure out

/-- `trim_left`. -/
def trimLeft (s : Text) : Text := s.dropWhile isSpace

end PipeANN.Dsl
