import PipeANN.Json

/-! # Reading written JSON text

The reader of `picojson.h` on the text that `json_escape` and the filter compiler write.
`Reads t j` says that wherever the text `t` stands, the reader makes of it what `reread` makes of
the value `j`.  The rules are those of the grammar: a string of digits, a string in quotes, items
between brackets, entries between braces.

A clean string is read back (`decode_clean`), and **no other string is** (`decode_ne`).
-/
namespace PipeANN
open List Nat
open Prod (fst snd)
namespace Json

/-! ## Strings -/

variable {c : Char}

theorem parseString_clean (hc : isCleanChar c) (fuel : Nat) (out t : Text) :
    parseString (fuel + 1) out (escapeChar c ++ t) = parseString fuel (out ++ [c]) t := by
  unfold escapeChar
  split_ifs with h1 h2 h3 h4 h5 h6 h7 h8
  iterate 7
    · subst c
      rfl
  · simp [isCleanChar, Nat.not_le.mpr h8, h3, h4, h5, h6, h7] at hc
  · rw [singleton_append, parseString, if_neg h8, if_neg h1, if_neg h2]

theorem length_le_jsonEscape (s : Text) : s.length ≤ (jsonEscape s).length := by
  induction s with
  | nil => exact Nat.le_refl _
  | cons c s ih =>
    have hc : 1 ≤ (escapeChar c).length := by
      unfold escapeChar
      split_ifs <;> simp
    rw [jsonEscape, flatMap_cons, length_append, length_cons, add_comm]
    exact Nat.add_le_add hc ih

/-! ## What is read of a string -/

theorem hexDigit_lt {h : Nat} (hc : hexDigit c = some h) : h < 16 := by
  have : '0'.toNat = 48 := rfl
  have : '9'.toNat = 57 := rfl
  have : 'A'.toNat = 65 := rfl
  have : 'F'.toNat = 70 := rfl
  have : 'a'.toNat = 97 := rfl
  have : 'f'.toNat = 102 := rfl
  rw [hexDigit] at hc
  split_ifs at hc <;> cases hc <;> omega

/-- A hexadecimal digit is written as it is; of any other character the first written character
is no digit either. -/
theorem escapeChar_hexDigit (c : Char) : (∃ h, hexDigit c = some h ∧ escapeChar c = [c]) ∨
      hexDigit c = none ∧ ∃ d ds, escapeChar c = d :: ds ∧ hexDigit d = none := by
  unfold escapeChar
  split_ifs with h1 h2 h3 h4 h5 h6 h7 h8
  iterate 7
    · subst c
      exact .inr ⟨rfl, _, _, rfl, rfl⟩
  · refine .inr ⟨?_, _, _, rfl, rfl⟩
    have h0 : '0'.toNat = 48 := rfl
    have hA : 'A'.toNat = 65 := rfl
    have ha : 'a'.toNat = 97 := rfl
    rw [hexDigit, if_neg (by omega), if_neg (by omega), if_neg (by omega)]
  · cases hc : hexDigit c with
    | some h => exact .inl ⟨h, rfl, rfl⟩
    | none => exact .inr ⟨rfl, _, _, rfl, hc⟩

/-- Digits are read from the text of a string as from the string itself. -/
theorem parseQuadhex_jsonEscape (k : Text) : ∀ (n u : Nat) (s : Text),
    parseQuadhex n u (jsonEscape s ++ '"' :: k) =
      (parseQuadhex n u s).map fun p => (p.1, jsonEscape p.2 ++ '"' :: k)
  | 0, u, s => by cases s <;> rfl
  | n + 1, u, [] => rfl
  | n + 1, u, c :: s => by
    rw [jsonEscape, flatMap_cons, append_assoc, ← jsonEscape]
    rcases escapeChar_hexDigit c with ⟨h, hc, hesc⟩ | ⟨hc, d, ds, hesc, hd⟩
    · rw [hesc, singleton_append, parseQuadhex, parseQuadhex, hc, Option.bind_some,
        Option.bind_some, parseQuadhex_jsonEscape k n _ s]
    · rw [hesc, cons_append, parseQuadhex, parseQuadhex, hc, hd]
      rfl

/-- The digits are taken from the front, and the value is between those of the digits before. -/
theorem parseQuadhex_spec : ∀ {n u : Nat} {s : Text} {v : Nat} {s' : Text},
    parseQuadhex n u s = some (v, s') →
    s'.length + n = s.length ∧ s' <:+ s ∧ u * 16 ^ n ≤ v ∧ v < (u + 1) * 16 ^ n
  | 0, u, s, v, s', h => by
    obtain ⟨rfl, rfl⟩ : u = v ∧ s = s' := by cases s <;> (cases h; exact ⟨rfl, rfl⟩)
    exact ⟨rfl, suffix_rfl, by simp, by simp⟩
  | n + 1, u, [], v, s', h => by cases h
  | n + 1, u, c :: s, v, s', h => by
    obtain ⟨x, hx, h⟩ := Option.bind_eq_some_iff.mp h
    obtain ⟨hlen, hsuf, hlo, hhi⟩ := parseQuadhex_spec h
    have hx16 := hexDigit_lt hx
    refine ⟨by rw [length_cons]; omega, hsuf.trans (suffix_cons c s), ?_, ?_⟩
    · calc u * 16 ^ (n + 1) = u * 16 * 16 ^ n := by rw [pow_succ', mul_assoc]
        _ ≤ (u * 16 + x) * 16 ^ n := mul_le_mul_right _ (le_add_right _ _)
        _ ≤ v := hlo
    · calc v < (u * 16 + x + 1) * 16 ^ n := hhi
        _ ≤ ((u + 1) * 16) * 16 ^ n := mul_le_mul_right _ (by omega)
        _ = (u + 1) * 16 ^ (n + 1) := by rw [pow_succ', mul_assoc]

theorem parseQuadhex_digits (n : Nat) (t : Text) : ∀ (xs : List Nat) (ds : Text) (u : Nat),
    ds.map hexDigit = xs.map some →
    parseQuadhex (n + xs.length) u (ds ++ t) = parseQuadhex n (xs.foldl (· * 16 + ·) u) t
  | [], [], u, _ => rfl
  | x :: xs, d :: ds, u, h => by
    obtain ⟨hd, hds⟩ := cons.inj h
    have ih := parseQuadhex_digits n t xs ds (u * 16 + x) hds
    rw [length_cons, ← add_assoc, cons_append, parseQuadhex, hd]
    exact ih

/-- The hexadecimal digits of a control character, with the digits that are missing. -/
theorem parseQuadhex_control (hc : c.toNat < 32) (t : Text) :
    parseQuadhex 4 0 ((toDigits 16 c.toNat).map Char.toUpper ++ t)
      = parseQuadhex (missingDigits c) c.toNat t := by
  have hdigits : ∀ m < 32, ((toDigits 16 m).map Char.toUpper).map hexDigit
      = (if m < 16 then [m] else [1, m - 16]).map some := by decide
  rw [missingDigits]
  generalize c.toNat = m at hc
  have h := parseQuadhex_digits (if m < 16 then 3 else 2) t _ _ 0 (hdigits m hc)
  split_ifs at h ⊢ with h16
  · simpa using h
  · have hsum : 1 * 16 + (m - 16) = m := by omega
    simpa [hsum] using h

variable {u : Nat}

theorem length_utf8 (hu : u < 0x10000) : (utf8 u).length ≤ 3 := by
  unfold utf8
  split_ifs <;> simp

theorem utf8_three (hlo : 0x800 ≤ u) (hhi : u < 0x10000) :
    utf8 u = [toByte (0xe0 ||| u >>> 12), toByte (0x80 ||| u >>> 6 &&& 0x3f),
      toByte (0x80 ||| u &&& 0x3f)] := by
  rw [utf8, if_neg (by omega), if_neg (by omega), if_pos hhi]

/-- A control character without a short escape. -/
theorem escapeChar_of_not_clean (hc : isCleanChar c = false) : c.toNat < 32 ∧ c.toNat ≠ 13 ∧
      escapeChar c = '\\' :: 'u' :: (Nat.toDigits 16 c.toNat).map Char.toUpper := by
  simp only [isCleanChar, Bool.or_eq_false_iff, decide_eq_false_iff_not, Nat.not_le] at hc
  obtain ⟨⟨⟨⟨⟨hlt, h8⟩, hf⟩, hn⟩, hr⟩, ht⟩ := hc
  have hq : c ≠ '"' := by
    rintro rfl
    exact absurd hlt (by decide)
  have hb : c ≠ '\\' := by
    rintro rfl
    exact absurd hlt (by decide)
  refine ⟨hlt, fun h => hr (Char.toNat_inj.mp h), ?_⟩
  simp [escapeChar, hq, hb, h8, hf, hn, hr, ht, hlt]

variable {s : Text} {fuel : Nat}

/-- What is taken behind a control character: fewer bytes come back, or another first byte. -/
theorem missingDigits_spec (hc : isCleanChar c = false) {s' : Text}
    (h : parseQuadhex (missingDigits c) c.toNat s = some (u, s')) :
    s'.length < s.length ∧ s' <:+ s ∧ ¬ (0xd800 ≤ u ∧ u ≤ 0xdfff) ∧
      (utf8 u).length + s'.length ≤ 1 + s.length ∧
      ((utf8 u).length + s'.length < 1 + s.length ∨ ∃ b bs, utf8 u = b :: bs ∧ b ≠ c) := by
  obtain ⟨hlt, h13, -⟩ := escapeChar_of_not_clean hc
  obtain ⟨hlen, hsuf, hlo, hhi⟩ := parseQuadhex_spec h
  have hcases : (c.toNat < 16 ∧ s'.length + 3 = s.length ∧ c.toNat * 4096 ≤ u ∧
      u < (c.toNat + 1) * 4096) ∨ (16 ≤ c.toNat ∧ s'.length + 2 = s.length ∧
      c.toNat * 256 ≤ u ∧ u < (c.toNat + 1) * 256) := by
    rw [missingDigits] at hlen hlo hhi
    split_ifs at hlen hlo hhi with h16
    · exact .inl ⟨h16, hlen, hlo, hhi⟩
    · exact .inr ⟨Nat.not_lt.mp h16, hlen, hlo, hhi⟩
  have hbound : u < 0x10000 := by omega
  have h3 := length_utf8 hbound
  refine ⟨by omega, hsuf, by omega, by omega, ?_⟩
  rcases hcases with ⟨-, hlen', -⟩ | ⟨h16, -, hlo', hhi'⟩
  · exact .inl (by omega)
  · have hshift : u >>> 12 = 1 := by
      omega
    refine .inr ⟨_, _, utf8_three (by omega) hbound, ?_⟩
    rw [hshift]
    rintro rfl
    exact absurd hlt (by decide)

theorem parseCodepoint_control (hc : isCleanChar c = false) (s k : Text) :
    parseCodepoint ((toDigits 16 c.toNat).map Char.toUpper ++ (jsonEscape s ++ '"' :: k)) =
      (parseQuadhex (missingDigits c) c.toNat s).map fun p =>
        (utf8 p.1, jsonEscape p.2 ++ '"' :: k) := by
  rw [parseCodepoint, parseQuadhex_control (escapeChar_of_not_clean hc).1, parseQuadhex_jsonEscape]
  cases h : parseQuadhex (missingDigits c) c.toNat s with
  | none => rfl
  | some p =>
    exact if_neg (missingDigits_spec hc h).2.2.1

/-- **The reader makes of the text of a string what `decode` makes of the string.** -/
theorem parseString_decodeLoop (k : Text) : ∀ {fuel fuel' : Nat} (out s : Text),
    s.length < fuel → s.length < fuel' →
    parseString fuel out (jsonEscape s ++ '"' :: k) = (decodeLoop fuel' out s).map (·, k)
  | fuel + 1, fuel' + 1, out, [], _, _ => rfl
  | fuel + 1, fuel' + 1, out, c :: s, h, h' => by
    rw [jsonEscape, flatMap_cons, append_assoc, ← jsonEscape, decodeLoop]
    rw [length_cons, Nat.add_lt_add_iff_right] at h h'
    cases hc : isCleanChar c with
    | true =>
      rw [parseString_clean hc, if_pos rfl]
      exact parseString_decodeLoop k (out ++ [c]) s h h'
    | false =>
      rw [(escapeChar_of_not_clean hc).2.2, if_neg Bool.false_ne_true, cons_append,
        cons_append, parseString_unicode, parseCodepoint_control hc]
      cases hq : parseQuadhex (missingDigits c) c.toNat s with
      | none => rfl
      | some p =>
        have hlt := (missingDigits_spec hc hq).1
        exact parseString_decodeLoop k (out ++ utf8 p.1) p.2 (by omega) (by omega)

theorem parseString_decode (s k : Text) (h : s.length < fuel) :
    parseString fuel [] (jsonEscape s ++ '"' :: k) = (decode s).map (·, k) :=
  parseString_decodeLoop k [] s h (lt_succ_self _)

theorem decodeLoop_clean {out : Text} (hs : isClean s = true)
    (h : s.length < fuel) : decodeLoop fuel out s = .ok (out ++ s) := by
  fun_induction decodeLoop fuel out s with
  | case1 => cases h
  | case2 => rw [append_nil]
  | case3 fuel out c s hc ih =>
    rw [ih (Bool.and_eq_true_iff.mp hs).2 (lt_of_succ_lt_succ h), append_assoc, singleton_append]
  | case4 fuel out c s hc | case5 fuel out c s hc => simp [isClean, hc] at hs

/-- A clean string is read back. -/
theorem decode_clean (hs : isClean s = true) : decode s = .ok s :=
  decodeLoop_clean hs (lt_succ_self _)

/-- The string read, whether or not it is read to its end. -/
def received : Except Text Text → Text
  | .ok r => r
  | .error r => r

/-- What is read begins with `out`, is not longer than what was written, and differs from it
unless the string is clean. -/
theorem decodeLoop_spec (fuel : Nat) (out s : Text) : out <+: received (decodeLoop fuel out s) ∧
      (received (decodeLoop fuel out s)).length ≤ out.length + s.length ∧
      (isClean s = false → received (decodeLoop fuel out s) ≠ out ++ s) := by
  have hout : ∀ out s : Text, isClean s = false → out ≠ out ++ s := fun out s hs h => by
    obtain rfl : s = [] := self_eq_append_right.mp h
    cases hs
  fun_induction decodeLoop fuel out s with
  | case3 fuel out c s hc ih =>
    obtain ⟨hpre, hlen, hne⟩ := ih
    refine ⟨(prefix_append out [c]).trans hpre, ?_, fun hs => ?_⟩
    · simp only [length_append, length_cons, length_nil] at hlen ⊢
      omega
    · have hs' : isClean s = false := by simpa [isClean, hc] using hs
      simpa using hne hs'
  | case4 fuel out c s hc u s' hq ih =>
    obtain ⟨-, -, -, hle, hdiff⟩ := missingDigits_spec (Bool.not_eq_true _ ▸ hc) hq
    obtain ⟨hpre, hlen, -⟩ := ih
    generalize received (decodeLoop fuel (out ++ utf8 u) s') = r at hpre hlen
    refine ⟨(prefix_append out _).trans hpre, ?_, ?_⟩
    · simp only [length_append, length_cons] at hlen ⊢
      omega
    · rintro - rfl
      rcases hdiff with hlt | ⟨b, bs, hb, hbc⟩
      · simp only [length_append, length_cons] at hlen
        omega
      · rw [hb, prefix_append_right_inj, cons_prefix_cons] at hpre
        exact hbc hpre.1
  | _ => exact ⟨prefix_rfl, le_add_right _ _, hout _ _⟩

theorem length_received (s : Text) : (received (decode s)).length ≤ s.length := by
  have h := (decodeLoop_spec (s.length + 1) [] s).2.1
  rwa [length_nil, zero_add] at h

/-- **A string that is not clean is read as another string.** -/
theorem decode_ne (hs : isClean s = false) : received (decode s) ≠ s :=
  (decodeLoop_spec (s.length + 1) [] s).2.2 hs

/-! The strings that are read from bytes are made of bytes. -/

theorem toByte_lt (n : Nat) : (toByte n).toNat < 256 := by
  have hlt : n % 256 < 256 := mod_lt n (by decide)
  have hvalid : (n % 256).isValidChar := Or.inl (Nat.lt_of_lt_of_le hlt (by decide))
  rw [toByte, Char.ofNat, dif_pos hvalid]
  exact hlt

theorem isBytes_utf8 (u : Nat) : IsBytes (utf8 u) := by
  unfold utf8
  split_ifs <;> simp [IsBytes, toByte_lt]

theorem isBytes_decodeLoop {out : Text} (hout : IsBytes out) (hs : IsBytes s) :
    IsBytes (received (decodeLoop fuel out s)) := by
  fun_induction decodeLoop fuel out s with
  | case3 fuel out c s hc ih =>
    obtain ⟨hc, hs⟩ := forall_mem_cons.mp hs
    exact ih (forall_mem_append.mpr ⟨hout, forall_mem_singleton.mpr hc⟩) hs
  | case4 fuel out c s hc u s' hq ih =>
    have hs' := fun d hd => hs d (mem_cons_of_mem c ((parseQuadhex_spec hq).2.1.subset hd))
    exact ih (forall_mem_append.mpr ⟨hout, isBytes_utf8 u⟩) hs'
  | _ => exact hout

/-! ## Keys and separators -/

theorem keyLt_asymm : ∀ {a b : Text}, keyLt a b = true → keyLt b a = false ∧ b ≠ a
  | [], _ :: _, _ => ⟨rfl, cons_ne_nil _ _⟩
  | x :: s, y :: t, h => by
    rw [keyLt, Bool.or_eq_true, Bool.and_eq_true, decide_eq_true_eq, decide_eq_true_eq] at h
    rcases h with h | ⟨rfl, h⟩
    · have hne : y ≠ x := fun he => absurd h (by rw [he]; exact Nat.lt_irrefl _)
      simp [keyLt, hne, Nat.le_of_lt h]
    · obtain ⟨h1, h2⟩ := keyLt_asymm h
      refine ⟨?_, fun he => h2 (List.cons.inj he).2⟩
      simp [keyLt, h1]

variable {key : Text}

theorem put_last (v : Json) : ∀ {o : List (Text × Json)},
    (∀ e ∈ o, keyLt e.1 key = true) → put key v o = o ++ [(key, v)]
  | [], _ => rfl
  | (k, w) :: o, h => by
    obtain ⟨hk, ho⟩ := forall_mem_cons.mp h
    obtain ⟨h1, h2⟩ := keyLt_asymm hk
    rw [put, h1, if_neg Bool.false_ne_true, if_neg h2, put_last v ho, cons_append]

theorem putPartial_last (v : Option Json) {o : List (Text × Json)}
    (h : ∀ e ∈ o, keyLt e.1 key = true) : putPartial key v o = o ++ [(key, v.getD .null)] := by
  cases v with
  | some v => exact put_last v h
  | none =>
    have hnone : o.lookup key = none := by
      rw [lookup_eq_none_iff]
      intro e he
      simpa using (keyLt_asymm (h e he)).2
    rw [putPartial, hnone]
    exact put_last .null h

theorem parseKey_write (hkey : isClean key = true) (t : Text) (hf : key.length < fuel) :
    parseKey fuel ('"' :: jsonEscape key ++ '"' :: ':' :: t) = some (key, t) := by
  have hs := parseString_decode key (':' :: t) hf
  rw [decode_clean hkey] at hs
  rw [cons_append, parseKey_quote, hs]
  rfl

/-! ## What is read of a value -/

/-- What may follow a number. -/
def Stops (k : Text) : Prop := ∀ c ∈ k.head?, isNumberChar c = false

/-- The text is read as the value: as much of it as `reread` says, and no more of the text. -/
structure Reads (t : Text) (j : Json) : Prop where
  -- The text does not start with the end of an array.
  no_end : ∀ k, expect ']' (t ++ k) = none
  value : ∀ (fuel d : Nat) (k : Text), t.length < fuel → Stops k →
    parseValue fuel d (t ++ k) = (reread decode d j).map (·, k)

theorem length_le_intercalate (sep : Text) : ∀ {ts : List Text} {t : Text}, t ∈ ts →
    t.length ≤ (sep.intercalate ts).length
  | [x], t, ht => by simp [mem_singleton.mp ht]
  | x :: y :: rest, t, ht => by
    rw [intercalate_cons_cons, length_append, length_append]
    rcases mem_cons.mp ht with rfl | ht
    · omega
    · have := length_le_intercalate sep ht
      omega

/-- There is a separator before every text but the first, and an end. -/
theorem length_lt_intercalate {α : Type} (f : α → Text) (x : α) (xs : List α) (sep stop : Char)
    (k : Text) : xs.length < ([sep].intercalate ((x :: xs).map f) ++ stop :: k).length := by
  induction xs generalizing x with
  | nil => simp +arith
  | cons x' xs ih =>
    have := ih x'
    simp only [map_cons, intercalate_cons_cons, length_append, length_cons] at this ⊢
    omega

/-- A number is a string of digits. -/
theorem reads_digits {ds : Text} (hne : ds ≠ []) (hds : ∀ c ∈ ds, c.isDigit = true) :
    Reads ds (.num (ofDigitChars 10 ds 0)) := by
  obtain ⟨c, cs, rfl⟩ := exists_cons_of_ne_nil hne
  have hc : c.isDigit = true := hds c mem_cons_self
  have hnot : ∀ d : Char, d.isDigit = false → c ≠ d := fun d hd h => by
    rw [h, hd] at hc
    exact Bool.false_ne_true hc
  have hws : ∀ t, skipWs (c :: t) = c :: t := fun t => by
    refine dropWhile_cons_of_neg ?_
    simp [hnot ' ' rfl, hnot '\t' rfl, hnot '\n' rfl, hnot '\r' rfl]
  refine ⟨fun k => ?_, fun fuel d k hf hk => ?_⟩
  · rw [cons_append, expect, hws]
    exact if_neg (hnot ']' rfl)
  · obtain _ | fuel := fuel
    · cases hf
    have hnum : ∀ x ∈ c :: cs, isNumberChar x = true := fun x hx => by
      simp [isNumberChar, hds x hx]
    have hparse : parseNumber ((c :: cs) ++ k) = .ok (.num (ofDigitChars 10 (c :: cs) 0), k) :=
      by rw [parseNumber, takeWhile_stop hnum hk, dropWhile_stop hnum hk,
        if_pos (all_eq_true.mpr hds)]
    rw [cons_append] at hparse ⊢
    rw [parseValue, hws]
    simp only [hnot 'n' rfl, hnot 'f' rfl, hnot 't' rfl, hnot '"' rfl, hnot '[' rfl,
      hnot '\x7b' rfl, hc, Bool.true_or, if_true, if_false]
    exact hparse

theorem reads_num (n : Nat) : Reads (toDigits 10 n) (.num n) := by
  have h := reads_digits (toDigits_ne_nil (b := 10) (n := n)) fun c hc =>
    isDigit_of_mem_toDigits (by decide) (by decide) hc
  rwa [ofDigitChars_ten_toDigits] at h

theorem reads_str (s : Text) : Reads ('"' :: jsonEscape s ++ ['"']) (.str s) where
  no_end _ := rfl
  value fuel d k hf _ := by
    obtain _ | fuel := fuel
    · cases hf
    have hlen : s.length < (jsonEscape s ++ '"' :: k).length := by
      have := length_le_jsonEscape s
      rw [length_append, length_cons]
      omega
    rw [append_assoc, singleton_append, cons_append, parseValue_str,
      parseString_decode s k hlen, reread]
    cases decode s <;> rfl

variable {d : Nat} {item : Text → Except (Option Json) (Json × Text)}

/-- The loop over the items of an array, each with its text. -/
theorem parseItems_reads :
    ∀ (rest : List (Text × Json)) (p : Text × Json) (fuel : Nat) (a : List Json) (k : Text),
      rest.length < fuel →
      (∀ x ∈ p :: rest, ∀ k, Stops k → item (x.1 ++ k) = (reread decode d x.2).map (·, k)) →
      parseItems item fuel a ([','].intercalate ((p :: rest).map fst) ++ ']' :: k)
        = match reread.items decode d ((p :: rest).map snd) with
          | .ok vs => .ok (.arr (a ++ vs), k)
          | .error vs => .error (some (.arr (a ++ vs)))
  | [], (t, j), fuel + 1, a, k, _, hitem => by
    have hj := hitem (t, j) mem_cons_self (']' :: k) (by rintro c ⟨⟩; rfl)
    simp only [map_cons, map_nil, intercalate_singleton]
    rw [parseItems, hj, reread.items]
    cases reread decode d j <;> rfl
  | p' :: rest, (t, j), fuel + 1, a, k, hf, hitem => by
    have hj := hitem (t, j) mem_cons_self
      (',' :: ([','].intercalate ((p' :: rest).map fst) ++ ']' :: k))
      (by rintro c ⟨⟩; rfl)
    have htext : [','].intercalate (((t, j) :: p' :: rest).map fst) ++ ']' :: k
        = t ++ ',' :: ([','].intercalate ((p' :: rest).map fst) ++ ']' :: k) := by
      simp
    rw [htext, parseItems, hj, map_cons, map_cons, reread.items, ← map_cons]
    cases reread decode d j with
    | error e => rfl
    | ok v =>
      have ih := parseItems_reads rest p' fuel (a ++ [v]) k (lt_of_succ_lt_succ hf)
        fun x hx => hitem x (mem_cons_of_mem _ hx)
      change parseItems item fuel (a ++ [v])
        ([','].intercalate ((p' :: rest).map fst) ++ ']' :: k) = _
      rw [ih]
      cases reread.items decode d ((p' :: rest).map snd) <;> simp

theorem reads_arr {ps : List (Text × Json)} (hps : ∀ p ∈ ps, Reads p.1 p.2) :
    Reads ('[' :: [','].intercalate (ps.map fst) ++ [']']) (.arr (ps.map snd)) where
  no_end _ := rfl
  value fuel d k hf _ := by
    obtain _ | fuel := fuel
    · cases hf
    rw [append_assoc, singleton_append, cons_append, parseValue_arr]
    by_cases hd : d = 0
    · rw [if_pos hd, reread, if_pos hd]
      rfl
    rw [if_neg hd, reread, if_neg hd]
    cases ps with
    | nil => rfl
    | cons p rest =>
      have hexpect :
          expect ']' ([','].intercalate ((p :: rest).map fst) ++ ']' :: k) = none := by
        have hp := (hps p mem_cons_self).no_end
        cases rest <;> simp [hp]
      have hitem : ∀ x ∈ p :: rest, ∀ k, Stops k →
          parseValue fuel (d - 1) (x.1 ++ k) = (reread decode (d - 1) x.2).map (·, k) := by
        intro x hx k hk
        refine (hps x hx).value fuel (d - 1) k ?_ hk
        have hle := length_le_intercalate [','] (mem_map_of_mem (f := fst) hx)
        simp only [length_cons, length_append] at hf
        omega
      rw [hexpect]
      refine (parseItems_reads rest p _ [] k (length_lt_intercalate ..) hitem).trans ?_
      cases reread.items decode (d - 1) ((p :: rest).map snd) <;> rfl

/-- An entry of an object: a key, and a value with its text. -/
structure Entry where
  key : Text
  text : Text
  value : Json

/-- The text of an entry. -/
def Entry.write (e : Entry) : Text := '"' :: jsonEscape e.key ++ '"' :: ':' :: e.text

/-- The entry of the object. -/
def Entry.pair (e : Entry) : Text × Json := (e.key, e.value)

/-- The loop over the entries of an object. -/
theorem parseMembers_reads :
    ∀ (rest : List Entry) (e : Entry) (fuel : Nat) (o : List (Text × Json)) (k : Text),
      rest.length < fuel →
      (∀ x ∈ e :: rest, isClean x.key = true) →
      (o.map fst ++ (e :: rest).map Entry.key).Pairwise (fun a b => keyLt a b = true) →
      (∀ x ∈ e :: rest, ∀ k, Stops k → item (x.text ++ k) = (reread decode d x.value).map (·, k)) →
      parseMembers item fuel o ([','].intercalate ((e :: rest).map Entry.write) ++ '}' :: k)
        = match reread.entries decode d ((e :: rest).map Entry.pair) with
          | .ok vs => .ok (.obj (o ++ vs), k)
          | .error vs => .error (some (.obj (o ++ vs)))
  | rest, ⟨key, text, j⟩, fuel + 1, o, k, hf, hclean, hsorted, hitem => by
    have hkey : isClean key = true := hclean _ mem_cons_self
    have hlast : ∀ x ∈ o, keyLt x.1 key = true := fun x hx =>
      (pairwise_append.mp hsorted).2.2 x.1 (mem_map_of_mem hx) key mem_cons_self
    -- The text behind the value: the end of the object, or the next entry.
    obtain ⟨t, ht, hstop, hrest⟩ : ∃ t,
        [','].intercalate ((⟨key, text, j⟩ :: rest).map Entry.write) ++ '}' :: k
          = '"' :: jsonEscape key ++ '"' :: ':' :: (text ++ t) ∧ Stops t ∧
          t = match rest with
            | [] => '}' :: k
            | e' :: rest' => ',' :: ([','].intercalate ((e' :: rest').map Entry.write) ++
                '}' :: k) := by
      cases rest <;> exact ⟨_, by simp [Entry.write], by rintro c ⟨⟩; rfl, rfl⟩
    have hj : item (text ++ t) = (reread decode d j).map (·, t) :=
      hitem _ mem_cons_self t hstop
    have hlen : key.length < ('"' :: jsonEscape key ++ '"' :: ':' :: (text ++ t)).length := by
      have := length_le_jsonEscape key
      simp only [length_append, length_cons]
      omega
    rw [parseMembers, ht, parseKey_write hkey _ hlen, map_cons, Entry.pair, reread.entries]
    simp only [hj]
    cases reread decode d j with
    | error err => simp [Except.map, putPartial_last err hlast]
    | ok v =>
      cases rest with
      | nil =>
        rw [hrest, map_nil, reread.entries]
        change Except.ok (Json.obj (put key v o), k) = _
        rw [put_last v hlast]
      | cons e' rest' =>
        have ih := parseMembers_reads rest' e' fuel (o ++ [(key, v)]) k
          (lt_of_succ_lt_succ hf) (fun x hx => hclean x (mem_cons_of_mem _ hx))
          (by simpa using hsorted) fun x hx => hitem x (mem_cons_of_mem _ hx)
        rw [hrest]
        change parseMembers item fuel (put key v o)
          ([','].intercalate ((e' :: rest').map Entry.write) ++ '}' :: k) = _
        rw [put_last v hlast, ih]
        cases reread.entries decode d ((e' :: rest').map Entry.pair) <;> simp

theorem reads_obj (es : List Entry) (hclean : ∀ e ∈ es, isClean e.key = true)
    (hsorted : (es.map Entry.key).Pairwise (fun a b => keyLt a b = true))
    (hes : ∀ e ∈ es, Reads e.text e.value) :
    Reads ('{' :: [','].intercalate (es.map Entry.write) ++ ['}']) (.obj (es.map Entry.pair)) where
  no_end _ := rfl
  value fuel d k hf _ := by
    obtain _ | fuel := fuel
    · cases hf
    rw [append_assoc, singleton_append, cons_append, parseValue_obj]
    by_cases hd : d = 0
    · rw [if_pos hd, reread, if_pos hd]
      rfl
    rw [if_neg hd, reread, if_neg hd]
    cases es with
    | nil => rfl
    | cons e rest =>
      have hexpect :
          expect '}' ([','].intercalate ((e :: rest).map Entry.write) ++ '}' :: k) = none := by
        cases rest <;> rfl
      have hitem : ∀ x ∈ e :: rest, ∀ k, Stops k →
          parseValue fuel d (x.text ++ k) = (reread decode d x.value).map (·, k) := by
        intro x hx k hk
        refine (hes x hx).value fuel d k ?_ hk
        have hle := length_le_intercalate [','] (mem_map_of_mem (f := Entry.write) hx)
        simp only [Entry.write, length_cons, length_append] at hf hle
        omega
      rw [hexpect]
      refine (parseMembers_reads rest e _ [] k (length_lt_intercalate ..) hclean hsorted
        hitem).trans ?_
      cases reread.entries decode d ((e :: rest).map Entry.pair) <;> rfl

variable {j : Json} {g : Text → Text}

/-- An object with one entry. -/
theorem reads_entry {t : Text} (hkey : isClean key = true) (h : Reads t j) :
    Reads ('{' :: '"' :: jsonEscape key ++ '"' :: ':' :: t ++ ['}']) (.obj [(key, j)]) := by
  have := reads_obj [⟨key, t, j⟩] (forall_mem_singleton.mpr hkey)
    (pairwise_singleton _ _) (forall_mem_singleton.mpr h)
  simpa [Entry.write, Entry.pair] using this

/-- What is left of a value that is written and read. -/
def recovered (j : Json) : Json :=
  match reread decode defaultMaxDepths j with
  | .ok v => v
  | .error v => v.getD .null

/-- **What `picojson::parse` leaves of a text.** -/
theorem Reads.parse_eq {t : Text} (h : Reads t j) : parse t = recovered j := by
  have hv := h.value (t.length + 1) defaultMaxDepths [] (lt_succ_self _) (by rintro c ⟨⟩)
  rw [append_nil] at hv
  rw [parse, hv, recovered]
  cases reread decode defaultMaxDepths j <;> rfl

/-- An entry whose value is a string. -/
theorem recovered_entry_str (key s : Text) :
    recovered (.obj [(key, .str s)]) = .obj [(key, .str (received (decode s)))] := by
  rw [recovered, reread, reread.entries, reread]
  cases decode s <;> rfl

/-! ## Clean values -/

theorem mem_strings_arr : ∀ {items : List Json},
    s ∈ strings (.arr items) ↔ ∃ j ∈ items, s ∈ j.strings
  | [] => by simp [strings, strings.stringsItems]
  | j :: rest => by
    have ih : s ∈ strings.stringsItems rest ↔ ∃ j ∈ rest, s ∈ j.strings := mem_strings_arr
    rw [strings, strings.stringsItems, mem_append, ih]
    simp

theorem mem_strings_obj : ∀ {entries : List (Text × Json)},
    s ∈ strings (.obj entries) ↔ ∃ e ∈ entries, s ∈ e.2.strings
  | [] => by simp [strings, strings.stringsEntries]
  | (key, j) :: rest => by
    have ih : s ∈ strings.stringsEntries rest ↔ ∃ e ∈ rest, s ∈ e.2.strings := mem_strings_obj
    rw [strings, strings.stringsEntries, mem_append, ih]
    simp

theorem items_clean : ∀ {items : List Json},
    (∀ j ∈ items, reread decode d j = reread .ok d j) →
      reread.items decode d items = reread.items .ok d items
  | [], _ => rfl
  | j :: rest, h => by
    obtain ⟨hj, hrest⟩ := forall_mem_cons.mp h
    rw [reread.items, reread.items, hj, items_clean hrest]

theorem entries_clean : ∀ {entries : List (Text × Json)},
    (∀ e ∈ entries, reread decode d e.2 = reread .ok d e.2) →
    reread.entries decode d entries = reread.entries .ok d entries
  | [], _ => rfl
  | (key, j) :: rest, h => by
    obtain ⟨hj, hrest⟩ := forall_mem_cons.mp h
    rw [reread.entries, reread.entries, hj, entries_clean hrest]

/-- Of a value with clean strings only the nesting can be cut. -/
theorem reread_clean (j : Json) : (∀ s ∈ j.strings, isClean s = true) →
    ∀ d, reread decode d j = reread .ok d j := by
  induction j with
  | str s =>
    intro hs d
    rw [reread, decode_clean (hs s (mem_singleton_self s)), reread]
  | arr items ih =>
    intro h d
    rw [reread, reread, items_clean fun j hj => ih j hj
      (fun s hs => h s (mem_strings_arr.mpr ⟨j, hj, hs⟩)) (d - 1)]
  | obj entries ih =>
    intro h d
    rw [reread, reread, entries_clean fun e he => ih e he
      (fun s hs => h s (mem_strings_obj.mpr ⟨e, he, hs⟩)) d]
  | _ => exact fun _ _ => rfl

/-! ## The strings of a value -/

/-- A value with its strings replaced; keys stay as they are. -/
def mapStrings (g : Text → Text) : Json → Json
  | .str s => .str (g s)
  | .arr items => .arr (mapItems items)
  | .obj entries => .obj (mapEntries entries)
  | j => j
where
  mapItems : List Json → List Json
    | [] => []
    | j :: rest => mapStrings g j :: mapItems rest
  mapEntries : List (Text × Json) → List (Text × Json)
    | [] => []
    | (key, j) :: rest => (key, mapStrings g j) :: mapEntries rest

theorem strings_mapItems : ∀ {items : List Json},
    (∀ j ∈ items, (mapStrings g j).strings = j.strings.map g) →
    strings.stringsItems (mapStrings.mapItems g items) = (strings.stringsItems items).map g
  | [], _ => rfl
  | j :: rest, h => by
    obtain ⟨hj, hrest⟩ := forall_mem_cons.mp h
    rw [mapStrings.mapItems, strings.stringsItems, strings.stringsItems, hj,
      strings_mapItems hrest, map_append]

theorem strings_mapEntries : ∀ {entries : List (Text × Json)},
    (∀ e ∈ entries, (mapStrings g e.2).strings = e.2.strings.map g) →
    strings.stringsEntries (mapStrings.mapEntries g entries)
      = (strings.stringsEntries entries).map g
  | [], _ => rfl
  | (key, j) :: rest, h => by
    obtain ⟨hj, hrest⟩ := forall_mem_cons.mp h
    rw [mapStrings.mapEntries, strings.stringsEntries, strings.stringsEntries, hj,
      strings_mapEntries hrest, map_append]

theorem strings_mapStrings (g : Text → Text) (j : Json) :
    (mapStrings g j).strings = j.strings.map g := by
  induction j with
  | arr items ih => exact strings_mapItems ih
  | obj entries ih => exact strings_mapEntries ih
  | _ => rfl

/-- What is read of a string. -/
def readString (s : Text) : Text := received (decode s)

theorem items_ok : ∀ {items vs : List Json},
    (∀ j ∈ items, ∀ v, reread decode d j = .ok v → v = mapStrings readString j) →
    reread.items decode d items = .ok vs → vs = mapStrings.mapItems readString items
  | [], _, _, h => (Except.ok.inj h).symm
  | j :: rest, vs, hitems, h => by
    obtain ⟨hj, hrest⟩ := forall_mem_cons.mp hitems
    rw [reread.items] at h
    split at h
    · cases h
    next v hv =>
      split at h <;> cases h
      next vs hvs => rw [hj v hv, items_ok hrest hvs, mapStrings.mapItems]

theorem entries_ok : ∀ {entries vs : List (Text × Json)},
    (∀ e ∈ entries, ∀ v, reread decode d e.2 = .ok v → v = mapStrings readString e.2) →
    reread.entries decode d entries = .ok vs → vs = mapStrings.mapEntries readString entries
  | [], _, _, h => (Except.ok.inj h).symm
  | (key, j) :: rest, vs, hentries, h => by
    obtain ⟨hj, hrest⟩ := forall_mem_cons.mp hentries
    rw [reread.entries] at h
    split at h
    · cases h
    next v hv =>
      split at h <;> cases h
      next vs hvs => rw [hj v hv, entries_ok hrest hvs, mapStrings.mapEntries]

/-- **What is read to its end is the value, with its strings as they are read.** -/
theorem reread_ok (j : Json) : ∀ {d : Nat} (v : Json), reread decode d j = .ok v →
    v = mapStrings readString j := by
  induction j with
  | str s =>
    intro d v h
    rw [reread] at h
    split at h <;> cases h
    next r hs => rw [mapStrings, readString, hs, received]
  | arr items ih =>
    intro d v h
    rw [reread] at h
    split_ifs at h
    split at h <;> cases h
    next vs hr => rw [mapStrings, items_ok (fun j hj => ih j hj) hr]
  | obj entries ih =>
    intro d v h
    rw [reread] at h
    split_ifs at h
    split at h <;> cases h
    next vs hr => rw [mapStrings, entries_ok (fun e he => ih e he) hr]
  | _ => exact fun _ h => (Except.ok.inj h).symm

/-- A value that is read back as it was has clean strings. -/
theorem strings_clean_of_reread (h : reread decode d j = .ok j) :
    ∀ s ∈ j.strings, isClean s = true := by
  have hstrings : j.strings.map readString = j.strings :=
    (strings_mapStrings readString j).symm.trans (congrArg strings (reread_ok j j h).symm)
  intro s hs
  have hfixed : readString s = s :=
    map_inj_left.mp (hstrings.trans (map_id _).symm) s hs
  by_contra hclean
  exact decode_ne (Bool.not_eq_true _ ▸ hclean) hfixed

/-! ## The nesting of a value -/

/-- What the limit must be for the value to be read whole: arrays count, and there is an object
only within some limit. -/
def depth : Json → Nat
  | .arr items => depthItems items + 1
  | .obj entries => max 1 (depthEntries entries)
  | _ => 0
where
  depthItems : List Json → Nat
    | [] => 0
    | j :: rest => max (depth j) (depthItems rest)
  depthEntries : List (Text × Json) → Nat
    | [] => 0
    | (_, j) :: rest => max (depth j) (depthEntries rest)

theorem depthItems_le : ∀ {items : List Json}, depth.depthItems items ≤ d ↔ ∀ j ∈ items, depth j ≤ d
  | [] => by simp [depth.depthItems]
  | j :: rest => by rw [depth.depthItems, Nat.max_le, depthItems_le, forall_mem_cons]

@[simp] theorem depth_arr_le {items : List Json} :
    depth (.arr items) ≤ d + 1 ↔ ∀ j ∈ items, depth j ≤ d := by
  rw [depth, Nat.add_le_add_iff_right, depthItems_le]

@[simp] theorem depth_entry_le : depth (.obj [(key, j)]) ≤ d ↔ 1 ≤ d ∧ depth j ≤ d := by
  rw [depth, depth.depthEntries, depth.depthEntries, Nat.max_le, Nat.max_zero]

theorem items_eq_ok : ∀ {items : List Json}, (∀ j ∈ items, (reread .ok d j = .ok j ↔ depth j ≤ d)) →
    (reread.items .ok d items = .ok items ↔ depth.depthItems items ≤ d)
  | [], _ => iff_of_true rfl (Nat.zero_le d)
  | j :: rest, h => by
    obtain ⟨hj, hrest⟩ := forall_mem_cons.mp h
    rw [reread.items, depth.depthItems, Nat.max_le, ← hj, ← items_eq_ok hrest]
    cases reread .ok d j with
    | error e => simp
    | ok v => cases reread.items .ok d rest <;> simp

theorem entries_eq_ok : ∀ {entries : List (Text × Json)},
    (∀ e ∈ entries, (reread .ok d e.2 = .ok e.2 ↔ depth e.2 ≤ d)) →
    (reread.entries .ok d entries = .ok entries ↔ depth.depthEntries entries ≤ d)
  | [], _ => iff_of_true rfl (Nat.zero_le d)
  | (key, j) :: rest, h => by
    obtain ⟨hj, hrest⟩ := forall_mem_cons.mp h
    rw [reread.entries, depth.depthEntries, Nat.max_le, ← hj, ← entries_eq_ok hrest]
    cases reread .ok d j with
    | error e => simp
    | ok v => cases reread.entries .ok d rest <;> simp

/-- **A value is read whole exactly within the limit.** -/
theorem reread_eq_ok_iff (j : Json) : ∀ {d : Nat}, reread .ok d j = .ok j ↔ depth j ≤ d := by
  induction j with
  | arr items ih =>
    intro d
    cases d with
    | zero => exact iff_of_false (by simp [reread]) (not_succ_le_zero _)
    | succ d =>
      rw [depth, Nat.add_le_add_iff_right, ← items_eq_ok fun j hj => ih j hj, reread,
        Nat.add_sub_cancel]
      cases reread.items .ok d items <;> simp
  | obj entries ih =>
    intro d
    cases d with
    | zero =>
      refine iff_of_false (by simp [reread]) ?_
      rw [depth]
      omega
    | succ d =>
      rw [depth, Nat.max_le,
        ← entries_eq_ok fun e he => ih e he, reread]
      cases reread.entries .ok (d + 1) entries <;> simp
  | _ => exact iff_of_true rfl (zero_le _)

end Json
end PipeANN
