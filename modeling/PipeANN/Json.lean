import Mathlib.Algebra.Group.Nat.Defs
import Mathlib.Data.List.Basic
import Mathlib.Data.Nat.Bits

/-! # JSON values and text

The values of `picojson.h`, as far as the server and the filter compiler use them.  A
string is the list of its characters.  All numbers that are written are unsigned integers;
a number is read back by a cast to `uint32_t`, which is defined below `2^32` only, where a
`double` is exact.

The filter compiler writes its filter as JSON text, with `jsonEscape` for the strings, and reads
that text with `Json.parse`.  The reader has two habits on which its caller depends.  It stops at
the first error and leaves **what it has built so far**, and its caller compiles that; an error
therefore carries the partial value.  And it counts the nesting of arrays: every array lowers
`depths_`, and neither an array nor an object is read at `depths_ = 0`.

What the reader makes of a written value is said in terms of values alone.  `decode s` is the string
that is read of the text of `s`: `json_escape` writes the control characters without a short escape
as `\u` with one or two digits, where the reader takes four, so it takes characters of the string
for the digits that are missing.  `Json.reread decode d j` is the value that is read of the text of
`j`, or the partial value if its nesting goes beyond `d`.
-/
namespace PipeANN
open List

/-- `std::string`. -/
abbrev Text := List Char

/-! A run of characters of one class ends where a character of another class follows. -/

theorem takeWhile_stop {q : Char → Bool} {s k : Text} (hs : ∀ c ∈ s, q c)
    (hk : ∀ c ∈ k.head?, q c = false) : (s ++ k).takeWhile q = s := by
  rw [takeWhile_append_of_pos hs]
  cases k with
  | nil => rw [takeWhile_nil, append_nil]
  | cons c k => rw [takeWhile_cons_of_neg (by simp [hk c rfl]), append_nil]

theorem dropWhile_stop {q : Char → Bool} {s k : Text} (hs : ∀ c ∈ s, q c)
    (hk : ∀ c ∈ k.head?, q c = false) : (s ++ k).dropWhile q = k := by
  rw [dropWhile_append_of_pos hs]
  cases k with
  | nil => rfl
  | cons c k => rw [dropWhile_cons_of_neg (by simp [hk c rfl])]

/-- `picojson::value`. -/
inductive Json where
  | null
  | bool (b : Bool)
  | num (n : Nat)
  | str (s : Text)
  | arr (items : List Json)
  | obj (entries : List (Text × Json))

/-- `static_cast<uint32_t>` of a number; `none` where the cast is undefined. -/
def castU32 (n : Nat) : Option UInt32 := if n < 2 ^ 32 then some (UInt32.ofNat n) else none

theorem castU32_toNat (n : UInt32) : castU32 n.toNat = some n := by
  rw [castU32, if_pos n.toNat_lt, UInt32.ofNat_toNat]

namespace Json

/-- `find` in an object. -/
def find? (key : String) : List (Text × Json) → Option Json := List.lookup key.toList

/-- An entry of an object. -/
def entry (key : String) (v : Json) : Text × Json := (key.toList, v)

/-- An object with one entry. -/
def single (key : Text) (j : Json) : Json := .obj [(key, j)]

@[simp] theorem find?_entry (key k : String) (v : Json) (o : List (Text × Json)) :
    find? key (entry k v :: o) = if key = k then some v else find? key o := by
  rw [find?, entry, lookup_cons]
  by_cases h : key = k
  · simp [h]
  · have hne : (key.toList == k.toList) = false := by simpa [String.toList_inj] using h
    rw [hne, if_neg h]

/-! The accessors `get<T>()`, which throw on a value of another type. -/

def getStr : Json → Option Text
  | .str s => some s
  | _ => none

def getNum : Json → Option Nat
  | .num n => some n
  | _ => none

def getBool : Json → Option Bool
  | .bool b => some b
  | _ => none

def getArr : Json → Option (List Json)
  | .arr items => some items
  | _ => none

def getObj : Json → Option (List (Text × Json))
  | .obj entries => some entries
  | _ => none

end Json

/-! ## Writing -/

variable (c : Char)

/-- `json_escape`, on one character.  The hexadecimal digits are not padded. -/
def escapeChar : Text :=
  if c = '"' then ['\\', '"']
  else if c = '\\' then ['\\', '\\']
  else if c = '\x08' then ['\\', 'b']
  else if c = '\x0c' then ['\\', 'f']
  else if c = '\n' then ['\\', 'n']
  else if c = '\r' then ['\\', 'r']
  else if c = '\t' then ['\\', 't']
  else if c.toNat < 32 then '\\' :: 'u' :: (Nat.toDigits 16 c.toNat).map Char.toUpper
  else [c]

/-- `json_escape`. -/
def jsonEscape (s : Text) : Text := s.flatMap escapeChar

namespace Json

/-! ## Reading -/

variable (t : Text)

/-- `skip_ws`. -/
def skipWs : Text :=
  t.dropWhile fun c => c = ' ' || c = '\t' || c = '\n' || c = '\r'

/-- `expect`. -/
def expect : Option Text :=
  match skipWs t with
  | [] => none
  | d :: rest => if d = c then some rest else none

/-- The value of a hexadecimal digit. -/
def hexDigit : Option Nat :=
  if '0'.toNat ≤ c.toNat ∧ c.toNat ≤ '9'.toNat then some (c.toNat - '0'.toNat)
  else if 'A'.toNat ≤ c.toNat ∧ c.toNat ≤ 'F'.toNat then some (c.toNat - ('A'.toNat - 10))
  else if 'a'.toNat ≤ c.toNat ∧ c.toNat ≤ 'f'.toNat then some (c.toNat - ('a'.toNat - 10))
  else none

/-- The loop of `_parse_quadhex`, with `n` digits to read. -/
def parseQuadhex : Nat → Nat → Text → Option (Nat × Text)
  | 0, uniCh, t => some (uniCh, t)
  | _ + 1, _, [] => none
  | n + 1, uniCh, c :: t => (hexDigit c).bind fun hex => parseQuadhex n (uniCh * 16 + hex) t

/-- `static_cast<char>`. -/
def toByte (n : Nat) : Char := Char.ofNat (n % 256)

/-- The bytes of a code point. -/
def utf8 (uniCh : Nat) : Text :=
  if uniCh < 0x80 then [toByte uniCh]
  else if uniCh < 0x800 then [toByte (0xc0 ||| uniCh >>> 6), toByte (0x80 ||| uniCh &&& 0x3f)]
  else if uniCh < 0x10000 then
    [toByte (0xe0 ||| uniCh >>> 12), toByte (0x80 ||| uniCh >>> 6 &&& 0x3f),
      toByte (0x80 ||| uniCh &&& 0x3f)]
  else
    [toByte (0xf0 ||| uniCh >>> 18), toByte (0x80 ||| uniCh >>> 12 &&& 0x3f),
      toByte (0x80 ||| uniCh >>> 6 &&& 0x3f), toByte (0x80 ||| uniCh &&& 0x3f)]

/-- `_parse_codepoint`: the bytes it appends, and the text behind. -/
def parseCodepoint : Option (Text × Text) :=
  (parseQuadhex 4 0 t).bind fun (uniCh, t) =>
    if 0xd800 ≤ uniCh ∧ uniCh ≤ 0xdfff then
      if 0xdc00 ≤ uniCh then none
      else
        match t with
        | '\\' :: 'u' :: t =>
          (parseQuadhex 4 0 t).bind fun (second, t) =>
            if 0xdc00 ≤ second ∧ second ≤ 0xdfff then
              some (utf8 (((uniCh - 0xd800) <<< 10 ||| (second - 0xdc00) &&& 0x3ff) + 0x10000), t)
            else none
        | _ => none
    else some (utf8 uniCh, t)

/-- The character of a short escape. -/
def shortEscape : Option Char :=
  if c = '"' then some '"'
  else if c = '\\' then some '\\'
  else if c = '/' then some '/'
  else if c = 'b' then some '\x08'
  else if c = 'f' then some '\x0c'
  else if c = 'n' then some '\n'
  else if c = 'r' then some '\r'
  else if c = 't' then some '\t'
  else none

/-- What follows a backslash. -/
def parseEscape : Text → Option (Text × Text)
  | [] => none
  | c :: t =>
    match shortEscape c with
    | some d => some ([d], t)
    | none => if c = 'u' then parseCodepoint t else none

/-- `_parse_string`: the string and the text behind the closing quote, or the part of the
string read before an error. -/
def parseString : Nat → Text → Text → Except Text (Text × Text)
  | 0, out, _ => .error out
  | _ + 1, out, [] => .error out
  | fuel + 1, out, c :: t =>
    if c.toNat < 32 then .error out
    else if c = '"' then .ok (out, t)
    else if c = '\\' then
      match parseEscape t with
      | some (bytes, t) => parseString fuel (out ++ bytes) t
      | none => .error out
    else parseString fuel (out ++ [c]) t

/-- The characters that `_parse_number` collects. -/
def isNumberChar : Bool :=
  c.isDigit || c = '+' || c = '-' || c = 'e' || c = 'E' || c = '.'

/-- A number.  `strtod` is modelled on strings of digits, the only numbers that are ever
written. -/
def parseNumber : Except (Option Json) (Json × Text) :=
  let numStr := t.takeWhile isNumberChar
  if numStr.all Char.isDigit then
    .ok (.num (Nat.ofDigitChars 10 numStr 0), t.dropWhile isNumberChar)
  else .error none

/-- `match`. -/
def parseWord (pattern : Text) (v : Json) (t : Text) : Except (Option Json) (Json × Text) :=
  if pattern.isPrefixOf t then .ok (v, t.drop pattern.length) else .error none

/-- The order of the keys of a `std::map`. -/
def keyLt : Text → Text → Bool
  | _, [] => false
  | [], _ :: _ => true
  | a :: s, b :: t => a.toNat < b.toNat || (a = b && keyLt s t)

/-- Assignment to `o[key]` in a `std::map`. -/
def put (key : Text) (v : Json) : List (Text × Json) → List (Text × Json)
  | [] => [(key, v)]
  | (k, w) :: rest =>
    if keyLt key k then (key, v) :: (k, w) :: rest
    else if key = k then (k, v) :: rest
    else (k, w) :: put key v rest

/-- What `o[key]` leaves when its value was not read to the end. -/
def putPartial (key : Text) (v : Option Json) (o : List (Text × Json)) : List (Text × Json) :=
  match v with
  | some v => put key v o
  | none => if (o.lookup key).isSome then o else put key .null o

/-- The loop of `_parse_array`. -/
def parseItems (item : Text → Except (Option Json) (Json × Text)) :
    Nat → List Json → Text → Except (Option Json) (Json × Text)
  | 0, a, _ => .error (some (.arr a))
  | fuel + 1, a, t =>
    match item t with
    | .error v => .error (some (.arr (a ++ [v.getD .null])))
    | .ok (v, t) =>
      match expect ',' t with
      | some t => parseItems item fuel (a ++ [v]) t
      | none =>
        match expect ']' t with
        | some t => .ok (.arr (a ++ [v]), t)
        | none => .error (some (.arr (a ++ [v])))

/-- A key of an object, up to the colon. -/
def parseKey (fuel : Nat) (t : Text) : Option (Text × Text) :=
  (expect '"' t).bind fun t =>
    match parseString fuel [] t with
    | .error _ => none
    | .ok (key, t) => (expect ':' t).map fun t => (key, t)

/-- The loop of `_parse_object`. -/
def parseMembers (item : Text → Except (Option Json) (Json × Text)) :
    Nat → List (Text × Json) → Text → Except (Option Json) (Json × Text)
  | 0, o, _ => .error (some (.obj o))
  | fuel + 1, o, t =>
    match parseKey t.length t with
    | none => .error (some (.obj o))
    | some (key, t) =>
      match item t with
      | .error v => .error (some (.obj (putPartial key v o)))
      | .ok (v, t) =>
        match expect ',' t with
        | some t => parseMembers item fuel (put key v o) t
        | none =>
          match expect '}' t with
          | some t => .ok (.obj (put key v o), t)
          | none => .error (some (.obj (put key v o)))

/-- `_parse` with `default_parse_context`: the value and the text behind it, or what has
been stored before an error. -/
def parseValue : Nat → Nat → Text → Except (Option Json) (Json × Text)
  | 0, _, _ => .error none
  | fuel + 1, depths, t =>
    match skipWs t with
    | [] => .error none
    | c :: t =>
      if c = 'n' then parseWord ['u', 'l', 'l'] .null t
      else if c = 'f' then parseWord ['a', 'l', 's', 'e'] (.bool false) t
      else if c = 't' then parseWord ['r', 'u', 'e'] (.bool true) t
      else if c = '"' then
        match parseString t.length [] t with
        | .error s => .error (some (.str s))
        | .ok (s, t) => .ok (.str s, t)
      else if c = '[' then
        if depths = 0 then .error none
        else
          match expect ']' t with
          | some t => .ok (.arr [], t)
          | none => parseItems (parseValue fuel (depths - 1)) t.length [] t
      else if c = '{' then
        if depths = 0 then .error none
        else
          match expect '}' t with
          | some t => .ok (.obj [], t)
          | none => parseMembers (parseValue fuel depths) t.length [] t
      else if c.isDigit || c = '-' then parseNumber (c :: t)
      else .error none

/-! What the first character decides. -/

theorem parseString_unicode (fuel : Nat) (out t : Text) :
    parseString (fuel + 1) out ('\\' :: 'u' :: t) =
      match parseCodepoint t with
      | some (bytes, t) => parseString fuel (out ++ bytes) t
      | none => .error out := rfl

theorem parseKey_quote (fuel : Nat) (t : Text) : parseKey fuel ('"' :: t) =
      match parseString fuel [] t with
      | .error _ => none
      | .ok (key, t) => (expect ':' t).map fun t => (key, t) := rfl

variable (fuel d : Nat) (t : Text)

theorem parseValue_str : parseValue (fuel + 1) d ('"' :: t) =
      match parseString t.length [] t with
      | .error s => .error (some (.str s))
      | .ok (s, t) => .ok (.str s, t) := rfl

theorem parseValue_arr : parseValue (fuel + 1) d ('[' :: t) =
      if d = 0 then .error none
      else match expect ']' t with
        | some t => .ok (.arr [], t)
        | none => parseItems (parseValue fuel (d - 1)) t.length [] t := rfl

theorem parseValue_obj : parseValue (fuel + 1) d ('{' :: t) =
      if d = 0 then .error none
      else match expect '}' t with
        | some t => .ok (.obj [], t)
        | none => parseMembers (parseValue fuel d) t.length [] t := rfl

/-- `DEFAULT_MAX_DEPTHS`. -/
def defaultMaxDepths : Nat := 100

/-- The value that `picojson::parse` leaves in `out`, whether or not it reports an error. -/
def parse : Json :=
  match parseValue (t.length + 1) defaultMaxDepths t with
  | .ok (v, _) => v
  | .error v => v.getD .null

/-! ## Induction over a value -/

/-- Induction over a value, with the hypothesis for every item and every entry. -/
@[elab_as_elim, induction_eliminator]
theorem ind {P : Json → Prop} (null : P .null) (bool : ∀ b, P (.bool b)) (num : ∀ n, P (.num n))
    (str : ∀ s, P (.str s)) (arr : ∀ items, (∀ j ∈ items, P j) → P (.arr items))
    (obj : ∀ entries, (∀ e ∈ entries, P e.2) → P (.obj entries)) : ∀ j, P j
  | .null => null
  | .bool b => bool b
  | .num n => num n
  | .str s => str s
  | .arr items => arr items (indItems items)
  | .obj entries => obj entries (indEntries entries)
where
  indItems : ∀ (items : List Json), ∀ j ∈ items, P j
    | j :: rest, x, hx =>
      (List.mem_cons.mp hx).elim (fun h => h ▸ ind null bool num str arr obj j)
        (indItems rest x)
  indEntries : ∀ (entries : List (Text × Json)), ∀ e ∈ entries, P e.2
    | (_, j) :: rest, e, he =>
      (List.mem_cons.mp he).elim (fun h => h ▸ ind null bool num str arr obj j)
        (indEntries rest e)

/-! ## What the reader makes of written text -/

/-- A string of bytes. -/
def IsBytes (s : Text) : Prop := ∀ c ∈ s, c.toNat < 256

/-- A character that `json_escape` writes so that it can be read back. -/
def isCleanChar : Bool :=
  32 ≤ c.toNat || c = '\x08' || c = '\x0c' || c = '\n' || c = '\r' || c = '\t'

/-- A string without other control characters. -/
def isClean (s : Text) : Bool := s.all isCleanChar

/-- The number of digits that are missing behind `\u` for a control character. -/
def missingDigits : Nat := if c.toNat < 16 then 3 else 2

/-- The string that is read of the text of a string, behind `out`; or what has been read of it
before an error. -/
def decodeLoop : Nat → Text → Text → Except Text Text
  | 0, out, _ => .error out
  | _ + 1, out, [] => .ok out
  | fuel + 1, out, c :: s =>
    if isCleanChar c then decodeLoop fuel (out ++ [c]) s
    else
      match parseQuadhex (missingDigits c) c.toNat s with
      | some (uniCh, s) => decodeLoop fuel (out ++ utf8 uniCh) s
      | none => .error out

/-- The string that is read of the text of a string. -/
def decode (s : Text) : Except Text Text := decodeLoop (s.length + 1) [] s

/-- The value that is read back from the text of a value at `depths_ = d`, if `str` is what is read
of a string; or the partial value if a string or the nesting does not allow it. -/
def reread (str : Text → Except Text Text) (d : Nat) : Json → Except (Option Json) Json
  | .arr js =>
    if d = 0 then .error none
    else
      match items (d - 1) js with
      | .ok vs => .ok (.arr vs)
      | .error vs => .error (some (.arr vs))
  | .obj es =>
    if d = 0 then .error none
    else
      match entries d es with
      | .ok vs => .ok (.obj vs)
      | .error vs => .error (some (.obj vs))
  | .str s =>
    match str s with
    | .ok r => .ok (.str r)
    | .error r => .error (some (.str r))
  | .null => .ok .null
  | .bool b => .ok (.bool b)
  | .num n => .ok (.num n)
where
  items (d : Nat) : List Json → Except (List Json) (List Json)
    | [] => .ok []
    | j :: rest =>
      match reread str d j with
      | .error e => .error [e.getD .null]
      | .ok v =>
        match items d rest with
        | .ok vs => .ok (v :: vs)
        | .error vs => .error (v :: vs)
  entries (d : Nat) : List (Text × Json) → Except (List (Text × Json)) (List (Text × Json))
    | [] => .ok []
    | (key, j) :: rest =>
      match reread str d j with
      | .error e => .error [(key, e.getD .null)]
      | .ok v =>
        match entries d rest with
        | .ok vs => .ok ((key, v) :: vs)
        | .error vs => .error ((key, v) :: vs)

/-- The strings of a value, without its keys. -/
def strings : Json → List Text
  | .str s => [s]
  | .arr items => stringsItems items
  | .obj entries => stringsEntries entries
  | _ => []
where
  stringsItems : List Json → List Text
    | [] => []
    | j :: rest => strings j ++ stringsItems rest
  stringsEntries : List (Text × Json) → List Text
    | [] => []
    | (_, j) :: rest => strings j ++ stringsEntries rest

end Json
end PipeANN
