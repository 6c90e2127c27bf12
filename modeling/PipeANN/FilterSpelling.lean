import PipeANN.FilterDerivations

/-! # Writing a filter expression

The ways to write tokens as text: any blanks between them, quoted literals in either quote and
with or without escapes, and no character behind a token that would become part of it
(`Tok.EndsBefore`).  `tokens_of_spells` says that the scanner reads every such text back.
-/
namespace PipeANN.Dsl
open List

/-- The text between the quotes stands for the string. -/
inductive Quotes (quote : Char) : Text → Text → Prop
  | nil : Quotes quote [] []
  | plain {c : Char} {s body : Text} (hq : c ≠ quote) (hb : c ≠ '\\') (h : Quotes quote s body) :
      Quotes quote (c :: s) (c :: body)
  | escape (e : Char) {s body : Text} (h : Quotes quote s body) :
      Quotes quote (unescape e :: s) ('\\' :: e :: body)

/-- The comparison operators, and a `!` of its own. -/
def operators : List Text :=
  ["=", "==", "!", "!=", "<", "<=", "<>", ">", ">="].map String.toList

/-- The ways to write a token. -/
inductive Tok.Written : Tok → Text → Prop
  | ident {t : Text} (h : IsIdent t) : Written (.ident t) t
  | number {t : Text} (hne : t ≠ []) (h : ∀ d ∈ t, d.isDigit = true) : Written (.number t) t
  | str {quote : Char} {s body : Text} (hquote : quote = singleQuote ∨ quote = '"')
      (h : Quotes quote s body) : Written (.str s) (quote :: (body ++ [quote]))
  | lParen : Written .lParen ['(']
  | rParen : Written .rParen [')']
  | lBrack : Written .lBrack ['[']
  | rBrack : Written .rBrack [']']
  | comma : Written .comma [',']
  | op {t : Text} (h : t ∈ operators) : Written (.op t) t

/-- What may follow a token: nothing that would become part of it. -/
def Tok.EndsBefore (k : Text) : Tok → Prop
  | .ident _ => ∀ c ∈ k.head?, isIdentChar c = false
  | .number _ => ∀ c ∈ k.head?, c.isDigit = false
  | .op [c] => ∀ d ∈ k.head?, d ≠ '=' ∧ (c = '<' → d ≠ '>')
  | _ => True

/-- The texts of a list of tokens. -/
inductive Spells : List Tok → Text → Prop
  | nil {blanks : Text} (h : ∀ c ∈ blanks, isSpace c = true) : Spells [] blanks
  | cons {blanks raw k : Text} {t : Tok} {ts : List Tok} (hblanks : ∀ c ∈ blanks, isSpace c = true)
      (ht : t.Written raw) (hend : t.EndsBefore k) (h : Spells ts k) :
      Spells (t :: ts) (blanks ++ (raw ++ k))

/-! ## The scanner reads it back -/

theorem scanString_quotes {quote : Char} (hquote : quote ≠ '\\') {s body : Text}
    (h : Quotes quote s body) : ∀ (out k : Text),
    scanString quote out (body ++ quote :: k) = some (out ++ s, k) := by
  induction h with
  | nil =>
    intro out k
    cases k <;> simp [scanString]
  | @plain c s body hq hb _ ih =>
    intro out k
    have hstep : scanString quote out (c :: (body ++ quote :: k))
        = scanString quote (out ++ [c]) (body ++ quote :: k) := by
      cases body <;> simp [scanString, hq, hb]
    rw [cons_append, hstep, ih, append_assoc, singleton_append]
  | @escape e s body _ ih =>
    intro out k
    rw [cons_append, cons_append, scanString, if_neg hquote.symm, if_pos rfl, ih,
      append_assoc, singleton_append]

/-- A written token starts with a character that is no blank. -/
theorem Tok.Written.head {t : Tok} {raw : Text} (h : t.Written raw) :
    ∃ c cs, raw = c :: cs ∧ isSpace c = false := by
  cases h with
  | ident h =>
    obtain ⟨c, cs, rfl, hc, -⟩ := h
    exact ⟨c, cs, rfl, isSpace_eq_false (by have := identStart_toNat hc; omega)⟩
  | number hne h =>
    obtain ⟨c, cs, rfl⟩ := exists_cons_of_ne_nil hne
    have hrange := Char.isDigit_iff_toNat.mp (h c mem_cons_self)
    exact ⟨c, cs, rfl, isSpace_eq_false (lt_of_lt_of_le (by decide) hrange.1)⟩
  | str hquote _ =>
    refine ⟨_, _, rfl, ?_⟩
    rcases hquote with rfl | rfl <;> rfl
  | op h =>
    simp only [operators, map_cons, map_nil, mem_cons, not_mem_nil, or_false] at h
    rcases h with rfl | rfl | rfl | rfl | rfl | rfl | rfl | rfl | rfl <;> exact ⟨_, _, rfl, rfl⟩
  | _ => exact ⟨_, _, rfl, rfl⟩

theorem next_blanks {blanks : Text} (h : ∀ c ∈ blanks, isSpace c = true) (k : Text) :
    next (blanks ++ k) = next k := by
  have hdrop : (blanks ++ k).dropWhile isSpace = k.dropWhile isSpace :=
    dropWhile_append_of_pos h
  rw [next, next, hdrop]

/-- A one-character operator, where it ends. -/
theorem next_op {c : Char} (hc : c = '=' ∨ c = '!' ∨ c = '<' ∨ c = '>') {k : Text}
    (hend : ∀ d ∈ k.head?, d ≠ '=' ∧ (c = '<' → d ≠ '>')) : next (c :: k) = .ok (.op [c], k) := by
  cases k with
  | nil => rcases hc with rfl | rfl | rfl | rfl <;> rfl
  | cons d k =>
    obtain ⟨heq, hgt⟩ := hend d rfl
    have hmore : (decide (d = '=') || (decide (c = '<') && decide (d = '>'))) = false := by
      rw [decide_eq_false heq, Bool.false_or]
      by_cases hlt : c = '<'
      · rw [decide_eq_false (hgt hlt), Bool.and_false]
      · rw [decide_eq_false hlt, Bool.false_and]
    have hif : ∀ (x y : Except (String × Text) (Tok × Text)),
        (if (decide (d = '=') || (decide (c = '<') && decide (d = '>'))) = true then x else y)
          = y := fun x y => by rw [hmore]; rfl
    rcases hc with rfl | rfl | rfl | rfl <;> exact hif _ _

/-- **A written token is read back.** -/
theorem next_written {t : Tok} {raw k : Text} (ht : t.Written raw) (hend : t.EndsBefore k) :
    next (raw ++ k) = .ok (t, k) := by
  cases ht with
  | ident h =>
    obtain ⟨c, cs, rfl, hc, hcs⟩ := h
    have hspace : isSpace c = false := isSpace_eq_false (by have := identStart_toNat hc; omega)
    rw [cons_append, next, dropWhile_cons_of_neg (by simp [hspace])]
    simp only [hc, if_true]
    rw [takeWhile_stop hcs hend, dropWhile_stop hcs hend]
  | number hne h =>
    obtain ⟨c, cs, rfl⟩ := exists_cons_of_ne_nil hne
    obtain ⟨hc, hcs⟩ := forall_mem_cons.mp h
    have hrange := Char.isDigit_iff_toNat.mp hc
    have hspace : isSpace c = false := isSpace_eq_false (lt_of_lt_of_le (by decide) hrange.1)
    have hident : isIdentStart c = false := by
      by_contra h
      have h := identStart_toNat (Bool.not_eq_false _ ▸ h)
      have : '0'.toNat = 48 := rfl
      have : '9'.toNat = 57 := rfl
      omega
    rw [cons_append, next, dropWhile_cons_of_neg (by simp [hspace])]
    simp only [hident, hc, if_true, Bool.false_eq_true, if_false]
    rw [takeWhile_stop hcs hend, dropWhile_stop hcs hend]
  | @str quote s body hquote h =>
    have hscan := scanString_quotes (by rcases hquote with rfl | rfl <;> decide) h [] k
    rw [cons_append, append_assoc, singleton_append, next_quote hquote, hscan]
    rfl
  | op h =>
    simp only [operators, map_cons, map_nil, mem_cons, not_mem_nil, or_false] at h
    rcases h with rfl | rfl | rfl | rfl | rfl | rfl | rfl | rfl | rfl
    · exact next_op (.inl rfl) hend
    · rfl
    · exact next_op (.inr (.inl rfl)) hend
    · rfl
    · exact next_op (.inr (.inr (.inl rfl))) hend
    · rfl
    · rfl
    · exact next_op (.inr (.inr (.inr rfl))) hend
    · rfl
  | _ => rfl

variable {ts : List Tok} {text : Text}

/-- **The scanner reads the tokens of every text that spells them.** -/
theorem tokens_of_spells (h : Spells ts text) : tokens text = some ts := by
  have hloop : ∀ fuel, text.length < fuel → tokensLoop fuel text = some ts := by
    induction h with
    | @nil blanks hblanks =>
      intro fuel hfuel
      obtain _ | fuel := fuel
      · cases hfuel
      have hnext : next blanks = .ok (.done, []) := by
        have := next_blanks hblanks []
        rwa [append_nil] at this
      rw [tokensLoop, hnext]
      rfl
    | @cons blanks raw k t ts hblanks ht hend _ ih =>
      intro fuel hfuel
      obtain _ | fuel := fuel
      · cases hfuel
      obtain ⟨c, cs, rfl, -⟩ := ht.head
      have hdone : t ≠ .done := by
        rintro rfl
        cases ht
      have hk : k.length < fuel := by
        simp only [length_append, length_cons] at hfuel
        omega
      rw [tokensLoop, next_blanks hblanks, next_written ht hend]
      simp only [hdone, if_false, ih fuel hk, Option.map_some]
  exact hloop _ (Nat.lt_succ_self _)

theorem Spells.blank (h : Spells ts text) {c : Char}
    (hc : isSpace c = true) : Spells ts (c :: text) := by
  cases h with
  | nil h => exact .nil (forall_mem_cons.mpr ⟨hc, h⟩)
  | cons hblanks ht hend h => exact .cons (forall_mem_cons.mpr ⟨hc, hblanks⟩) ht hend h

/-- Blanks in front do not matter. -/
theorem Spells.trimLeft (h : Spells ts text) : Spells ts (trimLeft text) := by
  cases h with
  | nil h =>
    refine .nil fun c hc => h c ((dropWhile_suffix isSpace).subset hc)
  | @cons blanks raw k t ts hblanks ht hend h =>
    obtain ⟨c, cs, rfl, hc⟩ := ht.head
    have hdrop : Dsl.trimLeft (blanks ++ (c :: cs ++ k)) = [] ++ (c :: cs ++ k) := by
      rw [Dsl.trimLeft, dropWhile_append_of_pos hblanks, cons_append,
        dropWhile_cons_of_neg (by simp [hc]), nil_append]
    rw [hdrop]
    exact .cons (fun _ h => absurd h not_mem_nil) ht hend h

/-! ## One way to write it -/

theorem quotes_quoted : ∀ (s : Text), Quotes '"' s (quoted s)
  | [] => .nil
  | c :: s => by
    have ih := quotes_quoted s
    rw [quoted, flatMap_cons]
    split
    · next h =>
      have hu : unescape c = c := by
        rcases Bool.or_eq_true_iff.mp h with h | h <;> rw [of_decide_eq_true h] <;> rfl
      have hescape := Quotes.escape c ih
      rwa [hu] at hescape
    · next h =>
      obtain ⟨hq, hb⟩ := not_or.mp (fun h' => h (by simpa using h'))
      exact .plain hq hb ih

/-- **Tokens with a blank behind each.** -/
theorem spells_render : ∀ {ts : List Tok}, (∀ t ∈ ts, t.Written t.text) → Spells ts (render ts)
  | [], _ => .nil fun _ h => absurd h not_mem_nil
  | t :: ts, h => by
    obtain ⟨ht, hts⟩ := forall_mem_cons.mp h
    have hend : t.EndsBefore (' ' :: render ts) := by
      unfold Tok.EndsBefore
      split
      · rintro c ⟨⟩
        rfl
      · rintro c ⟨⟩
        rfl
      · rintro c ⟨⟩
        exact ⟨by decide, fun _ => by decide⟩
      · trivial
    have htext : render (t :: ts) = [] ++ (t.text ++ ' ' :: render ts) := by
      rw [render, flatMap_cons, append_assoc]
      rfl
    rw [htext]
    exact .cons (fun _ h => absurd h not_mem_nil) ht hend ((spells_render hts).blank rfl)

end PipeANN.Dsl
