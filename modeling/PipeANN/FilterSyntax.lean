import PipeANN.FilterCompiler

/-! # Filters and their meaning

The filters that the language is for, as syntax trees over the fields of a table: what a
filter says of a row (`Filter.holds`), and how it is written (`Filter.toSql`).  The reading
is the usual one: integers are compared as mathematical integers, `BETWEEN` includes both
ends, strings are equal when they have the same bytes.

`Filter.matches` is what the code makes of it: the text is compiled, and `is_member` is
asked for the attributes under which a row is stored.
-/
namespace PipeANN.Dsl
open Json

/-! ## Tables and rows -/

/-- A field name: an identifier other than the keyword that starts a negation and the
operators of the JSON form. -/
def IsFieldName (t : Text) : Prop :=
  IsIdent t ∧ lower t ≠ "not".toList ∧ t ≠ "$and".toList ∧ t ≠ "$or".toList ∧ t ≠ "$not".toList

instance (t : Text) : Decidable (IsFieldName t) := inferInstanceAs (Decidable (_ ∧ _))

/-- The fields of a table, each with its own name and key. -/
structure Table where
  schema : Schema
  names_nodup : (schema.map Prod.fst).Nodup
  keys_nodup : (schema.map fun f => f.2.key).Nodup
  names_ok : ∀ f ∈ schema, IsFieldName f.1

/-- A field of a given type. -/
structure Table.Field (T : Table) (type : AttrType) where
  name : Text
  info : FieldInfo
  mem : (name, info) ∈ T.schema
  type_eq : info.type = type

/-- A stored string. -/
structure ByteString where
  text : Text
  bytes : IsBytes text

/-- The stored values of a row, by field name. -/
structure Row where
  num : Text → UInt32
  labels : Text → List UInt32
  str : Text → ByteString

/-- The attribute under which a row stores a field. -/
def Row.attribute (row : Row) (name : Text) : AttrType → Attribute
  | .label => row.labels name
  | .range => [row.num name]
  | .string => packStringAttr (row.str name).text

/-- The attributes of a row. -/
def Table.attributes (T : Table) (row : Row) : Attributes :=
  T.schema.map fun f => (f.2.key, row.attribute f.1 f.2.type)

/-! ## Syntax -/

/-- A string literal, which does not start like a placeholder. -/
structure StringLit where
  text : Text
  bytes : IsBytes text
  literal : ['$', '$'].isPrefixOf text = false

/-- The comparison operators. -/
inductive Comparison where
  | eq
  | ne
  | lt
  | le
  | gt
  | ge

/-- The atomic filters. -/
inductive Atom (T : Table) where
  | num (field : T.Field .range) (op : Comparison) (v : Nat)
  | between (field : T.Field .range) (lo hi : Nat)
  | numIn (field : T.Field .range) (vs : List Nat)
  | str (field : T.Field .string) (negate : Bool) (lit : StringLit)
  | strIn (field : T.Field .string) (lits : List StringLit)
  | contains (field : T.Field .label) (v : Nat)
  | containsAny (field : T.Field .label) (vs : List Nat)
  | containsAll (field : T.Field .label) (vs : List Nat)

/-- `and` and `or`. -/
inductive Junction where
  | and
  | or

/-- Filters.  A junction has at least two operands. -/
inductive Filter (T : Table) where
  | atom (a : Atom T)
  | junction (j : Junction) (first second : Filter T) (rest : List (Filter T))
  | not (f : Filter T)

variable {T : Table}

/-- Induction over a filter, with the hypothesis for every operand. -/
@[elab_as_elim, induction_eliminator]
theorem Filter.ind {P : Filter T → Prop} (atom : ∀ a, P (.atom a))
    (junction : ∀ j first second rest, (∀ f ∈ first :: second :: rest, P f) →
      P (.junction j first second rest))
    (not : ∀ f, P f → P (.not f)) : ∀ f, P f
  | .atom a => atom a
  | .junction j first second rest =>
    junction j first second rest (List.forall_mem_cons.mpr
      ⟨ind atom junction not first, List.forall_mem_cons.mpr
        ⟨ind atom junction not second, operands rest⟩⟩)
  | .not f => not f (ind atom junction not f)
where
  operands : ∀ (fs : List (Filter T)), ∀ f ∈ fs, P f
    | f :: rest, x, hx =>
      (List.mem_cons.mp hx).elim (fun h => h ▸ ind atom junction not f) (operands rest x)

/-! ## Meaning -/

/-- A comparison of integers. -/
def Comparison.holds (x v : Nat) : Comparison → Bool
  | .eq => x = v
  | .ne => x ≠ v
  | .lt => x < v
  | .le => x ≤ v
  | .gt => v < x
  | .ge => v ≤ x

/-- The meaning of an atomic filter. -/
def Atom.holds (row : Row) : Atom T → Bool
  | .num field op v => op.holds (row.num field.name).toNat v
  | .between field lo hi => lo ≤ (row.num field.name).toNat && (row.num field.name).toNat ≤ hi
  | .numIn field vs => vs.contains (row.num field.name).toNat
  | .str field negate lit => ((row.str field.name).text = lit.text) != negate
  | .strIn field lits => lits.any fun lit => (row.str field.name).text = lit.text
  | .contains field v => ((row.labels field.name).map UInt32.toNat).contains v
  | .containsAny field vs => vs.any fun v => ((row.labels field.name).map UInt32.toNat).contains v
  | .containsAll field vs => vs.all fun v => ((row.labels field.name).map UInt32.toNat).contains v

/-- The meaning of `and` and `or`. -/
def Junction.eval (bs : List Bool) : Junction → Bool
  | .and => bs.all id
  | .or => bs.any id

/-- The meaning of a filter, for given meanings of the atomic filters. -/
def Filter.eval (atom : Atom T → Bool) : Filter T → Bool
  | .atom a => atom a
  | .junction j first second rest => j.eval (eval atom first :: eval atom second :: evals rest)
  | .not f => !eval atom f
where
  evals : List (Filter T) → List Bool
    | [] => []
    | f :: rest => eval atom f :: evals rest

/-- **The meaning of a filter.** -/
def Filter.holds (row : Row) (f : Filter T) : Bool := f.eval (Atom.holds row)

/-! ## Writing a filter -/

/-- A number as a token. -/
def numTok (n : Nat) : Tok := .number (Nat.toDigits 10 n)

/-- A keyword, or the name of a function, as a token. -/
def wordTok (w : String) : Tok := .ident w.toList

/-- The tokens of a list in brackets. -/
def bracketed : List Tok → List Tok
  | [] => [.lBrack, .rBrack]
  | t :: ts => .lBrack :: t :: ts.flatMap (fun t => [.comma, t]) ++ [.rBrack]

/-- A comparison operator. -/
def Comparison.text : Comparison → Text
  | .eq => ['=']
  | .ne => ['!', '=']
  | .lt => ['<']
  | .le => ['<', '=']
  | .gt => ['>']
  | .ge => ['>', '=']

/-- The call of an array function. -/
def callTokens (func : String) (field : Text) (args : List Tok) : List Tok :=
  wordTok func :: .lParen :: .ident field :: .comma :: args ++ [.rParen]

/-- The tokens of an atomic filter. -/
def Atom.tokens : Atom T → List Tok
  | .num field op v => [.ident field.name, .op op.text, numTok v]
  | .between field lo hi =>
    [.ident field.name, wordTok "between", numTok lo, wordTok "and", numTok hi]
  | .numIn field vs => .ident field.name :: wordTok "in" :: bracketed (vs.map numTok)
  | .str field negate lit =>
    [.ident field.name, .op (if negate then ['!', '='] else ['=']), .str lit.text]
  | .strIn field lits =>
    .ident field.name :: wordTok "in" :: bracketed (lits.map fun lit => .str lit.text)
  | .contains field v => callTokens "array_contains" field.name [numTok v]
  | .containsAny field vs =>
    callTokens "array_contains_any" field.name (bracketed (vs.map numTok))
  | .containsAll field vs =>
    callTokens "array_contains_all" field.name (bracketed (vs.map numTok))

/-- The keyword between operands. -/
def Junction.tok : Junction → Tok
  | .and => wordTok "and"
  | .or => wordTok "or"

/-- The tokens of a filter as an operand: a junction is put in parentheses. -/
def Filter.operand : Filter T → List Tok
  | .atom a => a.tokens
  | .junction j first second rest =>
    .lParen :: operand first ++ (j.tok :: operand second ++ operands j rest) ++ [.rParen]
  | .not f => wordTok "not" :: operand f
where
  operands (j : Junction) : List (Filter T) → List Tok
    | [] => []
    | f :: rest => j.tok :: operand f ++ operands j rest

/-- The tokens of a filter. -/
def Filter.tokens : Filter T → List Tok
  | .junction j first second rest =>
    operand first ++ (j.tok :: operand second ++ operand.operands j rest)
  | f => f.operand

/-- The text of a filter. -/
def Filter.toSql (f : Filter T) : Text := render f.tokens

/-- **What the code makes of a filter**: it is compiled, and `is_member` is asked for the
row's attributes. -/
def Filter.matches (f : Filter T) (row : Row) : Option Bool :=
  (compile f.toSql T.schema).bind fun cf => cf.isMember (T.attributes row)

/-! ## The JSON form -/

/-- The clause of a comparison. -/
def Comparison.clause (v : Json) : Comparison → Json
  | .eq => v
  | .ne => .obj [entry "$ne" v]
  | .lt => .obj [entry "$lt" v]
  | .le => .obj [entry "$le" v]
  | .gt => .obj [entry "$gt" v]
  | .ge => .obj [entry "$ge" v]

/-- The JSON form of an atomic filter. -/
def Atom.node : Atom T → Json
  | .num field op v => .obj [(field.name, op.clause (.num v))]
  | .between field lo hi =>
    .obj [(field.name, .obj [entry "$ge" (.num lo), entry "$le" (.num hi)])]
  | .numIn field vs => logicalTree "$or" (vs.map fun v => .obj [(field.name, .num v)])
  | .str field negate lit =>
    .obj [(field.name, if negate then .obj [entry "$ne" (.str lit.text)]
      else .str lit.text)]
  | .strIn _ [] => logicalTree "$or" []
  | .strIn field lits =>
    .obj [(field.name, .obj [entry "$in" (.arr (lits.map fun lit => .str lit.text))])]
  | .contains field v => .obj [(field.name, .num v)]
  | .containsAny field vs => .obj [(field.name, .obj [entry "$in" (.arr (vs.map .num))])]
  | .containsAll field vs => .obj [(field.name, .obj [entry "$all" (.arr (vs.map .num))])]

/-- The key of a junction. -/
def Junction.key : Junction → String
  | .and => "$and"
  | .or => "$or"

/-- The JSON form of a filter. -/
def Filter.node : Filter T → Json
  | .atom a => a.node
  | .junction j first second rest =>
    .obj [entry j.key (.arr (node first :: node second :: nodes rest))]
  | .not f => .obj [entry "$not" (node f)]
where
  nodes : List (Filter T) → List Json
    | [] => []
    | f :: rest => node f :: nodes rest

/-! ## When the code is right -/

/-- The atomic filters of a filter. -/
def Filter.atoms : Filter T → List (Atom T)
  | .atom a => [a]
  | .junction _ first second rest => atoms first ++ (atoms second ++ atomsAll rest)
  | .not f => atoms f
where
  atomsAll : List (Filter T) → List (Atom T)
    | [] => []
    | f :: rest => atoms f ++ atomsAll rest

/-- The numbers of an atomic filter. -/
def Atom.numbers : Atom T → List Nat
  | .num _ _ v => [v]
  | .between _ lo hi => [lo, hi]
  | .numIn _ vs => vs
  | .contains _ v => [v]
  | .containsAny _ vs => vs
  | .containsAll _ vs => vs
  | _ => []

/-- The string literals of an atomic filter. -/
def Atom.literals : Atom T → List StringLit
  | .str _ _ lit => [lit]
  | .strIn _ lits => lits
  | _ => []

/-- The nesting of arrays in the JSON form of an atomic filter, at least one. -/
def Atom.nesting : Atom T → Nat
  | .numIn _ (_ :: _ :: _) => 2
  | _ => 1

/-- The nesting of arrays in the JSON form of a filter. -/
def Filter.nesting : Filter T → Nat
  | .atom a => a.nesting
  | .junction _ first second rest => max (nesting first) (max (nesting second) (nestings rest)) + 1
  | .not f => nesting f
where
  nestings : List (Filter T) → Nat
    | [] => 1
    | f :: rest => max (nesting f) (nestings rest)

/-- A string filled up with zero bytes to whole words. -/
def padded (s : Text) : Text := s ++ List.replicate ((4 - s.length % 4) % 4) '\x00'

/-- A string literal that keeps its bytes on the way to the query attribute, and whose
number of words fits the length of a record. -/
def StringLit.Safe (lit : StringLit) : Prop :=
  isClean lit.text = true ∧ (lit.text.length + 3) / 4 < 2 ^ 32

/-- An atomic filter whose literals survive compilation. -/
def Atom.Compilable (a : Atom T) : Prop :=
  (∀ v ∈ a.numbers, v < 2 ^ 32) ∧ ∀ lit ∈ a.literals, lit.Safe

/-- A filter that is compiled to what it says. -/
def Filter.Compilable (f : Filter T) : Prop :=
  (∀ a ∈ f.atoms, a.Compilable) ∧ f.nesting ≤ defaultMaxDepths

/-- The largest `uint32_t`, which no interval `[l, r)` reaches. -/
def maxU32 : Nat := 2 ^ 32 - 1

/-- The part of a comparison that is decided by an interval: `!=` is the negation of `=`. -/
def Comparison.interval : Comparison → Comparison
  | .ne => .eq
  | op => op

/-- A row on which an atomic filter is decided as it says.  A stored `UINT32_MAX` must not
be in the interval the filter asks for; a stored string must not differ from a literal by
trailing zero bytes alone. -/
def Atom.RowOk (row : Row) : Atom T → Prop
  | .num field op v =>
    ¬ ((row.num field.name).toNat = maxU32 ∧ op.interval.holds maxU32 v = true)
  | .between field lo hi => ¬ ((row.num field.name).toNat = maxU32 ∧ lo ≤ maxU32 ∧ maxU32 ≤ hi)
  | .numIn field vs => ¬ ((row.num field.name).toNat = maxU32 ∧ maxU32 ∈ vs)
  | .str field _ lit =>
    padded (row.str field.name).text = padded lit.text → (row.str field.name).text = lit.text
  | .strIn field lits =>
    ∀ lit ∈ lits, padded (row.str field.name).text = padded lit.text →
      (row.str field.name).text = lit.text
  | _ => True

/-- A row on which every atomic filter of a filter is decided as it says. -/
def Filter.RowOk (row : Row) (f : Filter T) : Prop := ∀ a ∈ f.atoms, a.RowOk row

/-- The equalities on strings that an atomic filter is made of. -/
def Atom.equalities : Atom T → List (Atom T)
  | .str field _ lit => [.str field false lit]
  | .strIn field lits => lits.map (.str field false)
  | _ => []

/-- The filters that a filter is made of, with the equalities of string comparisons. -/
def Filter.parts : Filter T → List (Filter T)
  | .atom a => .atom a :: a.equalities.map .atom
  | .junction j first second rest =>
    .junction j first second rest :: (parts first ++ (parts second ++ partsAll rest))
  | .not f => .not f :: parts f
where
  partsAll : List (Filter T) → List (Filter T)
    | [] => []
    | f :: rest => parts f ++ partsAll rest

end PipeANN.Dsl
