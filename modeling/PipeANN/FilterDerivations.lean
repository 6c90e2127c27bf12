import PipeANN.FilterGrammar
import Mathlib.Data.List.TakeWhile

/-! # The parser reads the grammar

What the parser of `dsl_compiler.h` returns has a derivation from all of the tokens it has scanned
(`yields_parseAll`), and tokens that have a derivation are accepted, and the text of its value is
written (`accepts_parseAll`).  Both are proved function by function.  With the tokens that the
scanner finds in a text this is so for every filter expression (`denotes_of_sqlToMongoJson`,
`sqlToMongoJson_of_denotes`).
-/
namespace PipeANN.Dsl

open List TokenParser Scanner Json Nat

/-! ## Tokens -/

variable {t : Tok}

/-- Only a quoted literal is a string. -/
theorem literal_eq_str {s : Text} (h : t.literal = some (.str s)) : t = .str s := by
  cases t with
  | str s' => cases h; rfl
  | ident s' =>
    rw [Tok.literal] at h
    split_ifs at h <;> cases h
  | _ => cases h

variable {kw : String}

theorem identIs_false {kw' : String} (h : t.identIs kw)
    (hne : kw.toList ≠ kw'.toList) : t.identIs kw' = false := by
  cases t with
  | ident s =>
    have hs : lower s = kw.toList := of_decide_eq_true h
    exact decide_eq_false fun hs' => hne (hs.symm.trans hs')
  | _ => cases h

theorem identIs_ne {k : Tok} (h : t.identIs kw) (hk : k.identIs kw = false) : t ≠ k := by
  rintro rfl
  rw [hk] at h
  cases h

theorem literal_ne {k : Tok} {v : Literal} (h : t.literal = some v) (hk : k.literal = none) :
    t ≠ k := by
  rintro rfl
  rw [hk] at h
  cases h

variable {field : Text} {ts : List Tok} {j : Json}

theorem isPredicate_head (h : IsPredicate field ts j) :
    ∃ t ts', ts = t :: ts' ∧ t ≠ .lParen ∧ t.identIs "not" = false := by
  cases h with
  | between hk | oneOf hk | like hk =>
    exact ⟨_, _, rfl, identIs_ne hk rfl, identIs_false hk (by decide)⟩
  | compare _ _ => exact ⟨_, _, rfl, Tok.noConfusion, rfl⟩

/-! ## What is returned has a derivation -/

section Yields
variable {α : Type} {Q : List Tok → α → Prop} {p : SqlParser}

/-- A token that must follow. -/
theorem yields_expect {k : Tok} (hk : k ≠ .done) {what : String} {g : Unit → SqlM α}
    (h : ∀ p, scanner.Yields (g ()) (fun ts a => Q (k :: ts) a) p) :
    scanner.Yields (expect k what >>= g) Q p := by
  have hexpect : scanner.Yields (expect k what) (fun ts _ => ts = [k]) p := by
    refine yields_peek ?_
    split
    · next he =>
      have hstep : scanner.Yields (advance >>= pure) (fun ts _ => ts = [k]) p :=
        yields_advance he hk fun p => yields_pure rfl
      rwa [bind_pure] at hstep
    · exact yields_fail rfl
  refine hexpect.bind fun _ ts p₁ hts => ?_
  rw [hts]
  exact h p₁

/-- A literal that must follow. -/
theorem yields_value {g : SqlValue → SqlM α} (h : ∀ v, p.tok.literal = some v →
      ∀ p', scanner.Yields (g v.value) (fun ts a => Q (p.tok :: ts) a) p') :
    scanner.Yields (parseValue >>= g) Q p := by
  have hvalue : scanner.Yields parseValue
      (fun ts v => ts = [p.tok] ∧ ∃ lit, p.tok.literal = some lit ∧ v = lit.value) p := by
    have hlit : ∀ lit, p.tok.literal = some lit →
        scanner.Yields (advance >>= fun _ => pure lit.value)
          (fun ts v => ts = [p.tok] ∧ ∃ lit, p.tok.literal = some lit ∧ v = lit.value) p :=
      fun lit hlit => yields_advance rfl (literal_ne hlit rfl) fun _ =>
        yields_pure ⟨rfl, lit, hlit, rfl⟩
    obtain ⟨input, rest, tok⟩ := p
    refine yields_peek ?_
    cases tok with
    | str s => exact hlit (.str s) rfl
    | number s => exact hlit (.num s) rfl
    | ident s =>
      dsimp only [scanner] at hlit ⊢
      simp only [Tok.literal] at hlit ⊢
      split_ifs at hlit ⊢
      · exact hlit (.bool true) rfl
      · exact hlit (.bool false) rfl
      · exact hlit (.var s) rfl
      · exact yields_fail rfl
    | _ => exact yields_fail rfl
  refine hvalue.bind fun v ts p₁ hv => ?_
  obtain ⟨rfl, lit, hlit, rfl⟩ := hv
  exact h lit hlit p₁

end Yields

theorem yields_arrayLoop : ∀ (fuel : Nat) (acc : Text) (p : SqlParser),
    scanner.Yields (arrayLoop fuel false acc)
      (fun ts _ => ∃ vs, SepList (fun t => decide (t = .comma)) IsLiteral ts vs) p
  | 0, _, _ => yields_pure ⟨[], .nil⟩
  | fuel + 1, acc, p => by
    refine yields_peek ?_
    split
    · exact yields_pure ⟨[], .nil⟩
    · refine yields_expect Tok.noConfusion fun p => yields_value fun v hv p' => ?_
      refine (yields_arrayLoop fuel _ p').imp ?_
      rintro ts _ ⟨vs, hvs⟩
      have hitem : IsLiteral [p.tok] v := ⟨p.tok, rfl, hv⟩
      exact ⟨v :: vs, .cons rfl hitem hvs⟩

theorem yields_parseArrayValues (fuel : Nat) (p : SqlParser) :
    scanner.Yields (parseArrayValues fuel)
      (fun ts _ => ∃ mid vs, ts = .lBrack :: (mid ++ [.rBrack]) ∧ Items mid vs) p := by
  have hitems : ∀ p, scanner.Yields (arrayLoop fuel true ['['])
      (fun ts _ => ∃ vs, Items ts vs) p := by
    intro p
    cases fuel with
    | zero => exact yields_pure ⟨[], .nil⟩
    | succ fuel =>
      refine yields_peek ?_
      split
      · exact yields_pure ⟨[], .nil⟩
      · refine yields_value fun v hv p' => (yields_arrayLoop fuel _ p').imp ?_
        rintro ts _ ⟨vs, hvs⟩
        exact ⟨v :: vs, .cons hv hvs⟩
  refine yields_expect Tok.noConfusion fun p => (hitems p).bind fun _ ts p₁ hts => ?_
  obtain ⟨vs, hvs⟩ := hts
  exact yields_expect Tok.noConfusion fun _ => yields_pure ⟨ts, vs, rfl, hvs⟩

variable {p : SqlParser}

theorem yields_parseCall (fuel : Nat) {name : Text} (hname : isArrayFunc (lower name))
    (hp : p.tok = .lParen) :
    scanner.Yields (parseCall fuel (lower name)) (fun ts _ => ∃ j, IsCmp (.ident name :: ts) j)
      p := by
  refine yields_advance hp Tok.noConfusion fun p => yields_peek ?_
  cases hfield : scanner.tok p with
  | ident field =>
    refine yields_advance hfield Tok.noConfusion fun p => yields_expect Tok.noConfusion fun p => ?_
    have hclose : ∀ ts j p (n : Text), IsArgument (lower name) field ts j →
        scanner.Yields (expect .rParen "')'" >>= fun _ => pure n) (fun ts' _ =>
          ∃ j, IsCmp (.ident name :: .lParen :: .ident field :: .comma :: (ts ++ ts')) j) p :=
      fun ts j p n h => yields_expect Tok.noConfusion fun _ => yields_pure ⟨j, .call hname h⟩
    split
    · next hcontains =>
      exact yields_value fun v hv p₁ => hclose [_] _ p₁ _ (.contains hcontains hv)
    · next hcontains =>
      refine yields_peek ?_
      cases ht : scanner.tok p with
      | ident s =>
        have htok : p.tok = .ident s := ht
        refine yields_value fun v hv p₁ => ?_
        rw [htok] at hv ⊢
        exact hclose [_] _ p₁ _ (.one hcontains hv)
      | _ =>
        refine (yields_parseArrayValues fuel p).bind fun _ ts p₁ hts => ?_
        obtain ⟨mid, vs, rfl, hvs⟩ := hts
        exact hclose _ _ p₁ _ (.list hcontains hvs)
  | _ => exact yields_fail rfl

theorem yields_parsePredicate (fuel : Nat) (field : Text) (p : SqlParser) :
    scanner.Yields (parsePredicate fuel field) (fun ts _ => ∃ j, IsPredicate field ts j) p := by
  refine yields_peek ?_
  split
  · next hk =>
    refine yields_advance rfl (identIs_ne hk rfl) fun p => yields_value fun lo hlo p₁ => ?_
    refine yields_peek ?_
    split
    · next ha =>
      refine yields_advance rfl (identIs_ne ha rfl) fun p => yields_value fun hi hhi _ => ?_
      exact yields_pure ⟨_, .between hk hlo ha hhi⟩
    · exact yields_fail rfl
  split
  · next hk =>
    refine yields_advance rfl (identIs_ne hk rfl) fun p => yields_expect Tok.noConfusion fun p => ?_
    have hclose : ∀ ts vs vals (p : SqlParser), Items ts vs →
        scanner.Yields (expect .rBrack "']'" >>= fun _ => pure (inClause field vals)) (fun ts' _ =>
          ∃ j, IsPredicate field (_ :: .lBrack :: (ts ++ ts')) j) p :=
      fun ts vs vals p h => yields_expect Tok.noConfusion fun _ => yields_pure ⟨_, .oneOf hk h⟩
    refine yields_peek ?_
    split
    · exact hclose [] [] [] p .nil
    · refine yields_value fun v hv p₁ => ?_
      have hitem : ∀ p, scanner.Yields parseValue (fun ts _ => ∃ v, IsLiteral ts v) p := by
        intro p
        rw [← bind_pure parseValue]
        exact yields_value fun v hv _ => yields_pure ⟨v, _, rfl, hv⟩
      refine (yields_sepLoop rfl hitem fuel p₁).bind fun vals ts p₂ hts => ?_
      obtain ⟨vs, hvs⟩ := hts.choose
      exact hclose (_ :: ts) (v :: vs) _ p₂ (.cons hv hvs)
  split
  · next hk =>
    refine yields_advance rfl (identIs_ne hk rfl) fun p => yields_value fun v hv _ => ?_
    cases v with
    | str s =>
      rw [literal_eq_str hv]
      exact yields_pure ⟨_, .like hk⟩
    | _ => exact yields_fail rfl
  cases ht : scanner.tok p with
  | op op =>
    refine yields_advance ht Tok.noConfusion fun p => yields_value fun v hv _ => ?_
    cases hout : comparisonClause field op v.value.json with
    | none => exact yields_fail rfl
    | some out =>
      obtain ⟨j, hj⟩ := exists_comparisonTree hout v.json
      exact yields_pure ⟨j, .compare hv hj⟩
  | _ => exact yields_fail rfl

theorem yields_parseCmp (fuel : Nat) (p : SqlParser) :
    scanner.Yields (parseCmp fuel) (fun ts _ => ∃ j, IsCmp ts j) p := by
  refine yields_peek ?_
  cases hfield : scanner.tok p with
  | ident field =>
    refine yields_advance hfield Tok.noConfusion fun p => yields_peek ?_
    split
    · next hcall =>
      obtain ⟨hname, hparen⟩ := Bool.and_eq_true_iff.mp hcall
      exact yields_parseCall fuel hname (of_decide_eq_true hparen)
    split
    · next hk =>
      refine yields_advance rfl (identIs_ne hk rfl) fun p => ?_
      refine (yields_parsePredicate fuel field p).bind fun _ ts p₁ hts => yields_pure ?_
      obtain ⟨j, hj⟩ := hts
      rw [append_nil]
      exact ⟨_, .notPredicate hk hj⟩
    · refine (yields_parsePredicate fuel field p).imp ?_
      rintro ts _ ⟨j, hj⟩
      exact ⟨j, .predicate hj⟩
  | _ => exact yields_fail rfl

variable {js : List Json}

theorem derives_and {ts' : List Tok} (h : Derives .unary ts [j])
    (hmore : SepList (Tok.identIs "and") (fun ts j => Derives .unary ts [j]) ts' js) :
    Derives .and (ts ++ ts') (j :: js) := by
  induction hmore generalizing ts j with
  | nil =>
    rw [append_nil]
    exact .andOne h
  | cons hk hj _ ih => exact .andMore h hk (ih hj)

theorem derives_or {ts' : List Tok} (h : ∃ js, Derives .and ts js ∧ j = logicalTree "$and" js)
    (hmore : SepList (Tok.identIs "or")
      (fun ts j => ∃ js, Derives .and ts js ∧ j = logicalTree "$and" js) ts' js) :
    Derives .or (ts ++ ts') (j :: js) := by
  induction hmore generalizing ts j with
  | nil =>
    obtain ⟨js, h, rfl⟩ := h
    rw [append_nil]
    exact .orOne h
  | cons hk hj _ ih =>
    obtain ⟨js, h, rfl⟩ := h
    exact .orMore h hk (ih hj)

variable {m : SqlM Text}

/-- A chain of operands. -/
theorem yields_parseChain {op : String} {Q : List Tok → Json → Prop}
    {R : List Tok → List Json → Prop} (h : ∀ p, scanner.Yields m (fun ts _ => ∃ j, Q ts j) p)
    (hR : ∀ ts j ts' js, Q ts j → SepList (Tok.identIs kw) Q ts' js → R (ts ++ ts') (j :: js))
    (fuel : Nat) (p : SqlParser) :
    scanner.Yields (parseChain kw op m fuel) (fun ts _ => ∃ js, R ts js) p := by
  refine (h p).bind fun _ ts p₁ hts => ?_
  obtain ⟨j, hj⟩ := hts
  refine (yields_sepLoop rfl h fuel p₁).bind fun _ ts' _ hts' => yields_pure ?_
  obtain ⟨js, hjs⟩ := hts'.choose
  rw [append_nil]
  exact ⟨j :: js, hR ts j ts' js hj hjs⟩

theorem yields_parseOr (h : ∀ p, scanner.Yields m (fun ts _ => ∃ j, Derives .unary ts [j]) p)
    (fuel : Nat) (p : SqlParser) :
    scanner.Yields (parseOr m fuel) (fun ts _ => ∃ js, Derives .or ts js) p := by
  refine yields_parseChain (fun p => ?_) (fun _ _ _ _ => derives_or) fuel p
  refine (yields_parseChain h (fun _ _ _ _ => derives_and) fuel p).imp ?_
  rintro ts _ ⟨js, hjs⟩
  exact ⟨_, js, hjs, rfl⟩

theorem yields_parseUnary : ∀ (fuel : Nat) (p : SqlParser),
    scanner.Yields (parseUnary fuel) (fun ts _ => ∃ j, Derives .unary ts [j]) p
  | 0, _ => yields_fail rfl
  | fuel + 1, p => by
    refine yields_peek ?_
    split
    · next hk =>
      refine yields_advance rfl (identIs_ne hk rfl) fun p => ?_
      refine (yields_parseUnary fuel p).bind fun _ ts _ hts => yields_pure ?_
      obtain ⟨j, hj⟩ := hts
      rw [append_nil]
      exact ⟨_, .not hk hj⟩
    split
    · next hparen =>
      refine yields_advance hparen Tok.noConfusion fun p => ?_
      refine (yields_parseOr (yields_parseUnary fuel) fuel p).bind fun _ ts _ hts => ?_
      obtain ⟨js, hjs⟩ := hts
      exact yields_expect Tok.noConfusion fun _ => yields_pure ⟨_, .paren hjs⟩
    · next hnot _ =>
      intro out p' hr
      obtain ⟨ts, hs, j, hj⟩ := yields_parseCmp fuel p out p' hr
      have hfirst : ∃ ts', ts = p.tok :: ts' := by
        cases hj <;> exact ⟨_, by rw [← hs.1]; rfl⟩
      obtain ⟨ts', rfl⟩ := hfirst
      exact ⟨_, hs, j, .cmp (Bool.not_eq_true _ ▸ hnot) hj⟩

variable {fuel : Nat}

/-- **What the parser returns has a derivation from all of its tokens.** -/
theorem yields_parseAll {p' : SqlParser} {out : Text} (h : parseAll fuel p = .ok (out, p')) :
    p'.tok = .done ∧ ∃ ts js, scanner.Scans p ts p' ∧ Derives .or ts js := by
  cases hr : parseOr (parseUnary fuel) fuel p with
  | error e =>
    rw [parseAll, bind_error hr] at h
    cases h
  | ok r =>
    rw [parseAll, bind_ok hr] at h
    change (if r.2.tok = .done then pure r.1 else error "unexpected trailing token") r.2 = _ at h
    obtain ⟨ts, hs, js, hjs⟩ := yields_parseOr (yields_parseUnary fuel) fuel p r.1 r.2 hr
    split at h
    · next hdone =>
      cases h
      exact ⟨hdone, ts, js, hs, hjs⟩
    · cases h

/-! ## What has a derivation is accepted -/

/-- The parser accepts the tokens, whatever follows. -/
abbrev Parses {α : Type} (m : SqlM α) (ts : List Tok) (R : α → Prop) : Prop :=
  scanner.Accepts (fun _ => True) m ts R

section Accepts
variable {α : Type} {Ok : Tok → Prop} {R : α → Prop} {ts : List Tok}

theorem accepts_expect {k : Tok} {what : String} {g : Unit → SqlM α}
    (h : scanner.Accepts Ok (g ()) ts R) :
    scanner.Accepts Ok (expect k what >>= g) (k :: ts) R := by
  have hexpect : Parses (expect k what) [k] (fun _ => True) := by
    refine accepts_peek ?_
    rw [if_pos rfl, ← bind_pure advance]
    exact accepts_advance (accepts_pure trivial)
  exact hexpect.bind fun _ _ => h

theorem parses_value {t : Tok} {v : Literal} (hv : t.literal = some v) (ht : t.Scanned) :
    Parses parseValue [t] (Renders · v) := by
  have hlit : ∀ w, Renders w v → Parses (advance >>= fun _ => pure w) [t] (Renders · v) :=
    fun w hw => accepts_advance (accepts_pure hw)
  refine accepts_peek ?_
  cases t with
  | str s =>
    cases hv
    exact hlit _ ⟨rfl, reads_str s⟩
  | number s =>
    cases hv
    exact hlit _ ⟨rfl, reads_digits ht.1 ht.2⟩
  | ident s =>
    dsimp only
    rw [Tok.literal] at hv
    split_ifs at hv ⊢ <;> cases hv
    · exact hlit _ ⟨rfl, reads_num 1⟩
    · exact hlit _ ⟨rfl, reads_num 0⟩
    · exact hlit _ ⟨rfl, reads_str s⟩
  | _ => cases hv

theorem accepts_value {t : Tok} {v : Literal} (hv : t.literal = some v) (ht : t.Scanned)
    {g : SqlValue → SqlM α} (h : ∀ w, Renders w v → scanner.Accepts Ok (g w) ts R) :
    scanner.Accepts Ok (parseValue >>= g) (t :: ts) R :=
  (parses_value hv ht).bind h

end Accepts

theorem arrayLoop_end (h : p.tok = .rBrack) (fuel : Nat) (first : Bool)
    (acc : Text) : arrayLoop fuel first acc p = .ok (acc, p) := by
  cases fuel with
  | zero => rfl
  | succ fuel =>
    change (if p.tok = .rBrack then pure acc else _ : SqlM Text) p = _
    rw [if_pos h]
    rfl

variable {vs : List Literal}

theorem accepts_arrayLoop (h : SepList (fun t => decide (t = .comma)) IsLiteral ts vs) :
    ∀ {fuel : Nat} (acc : Text), (∀ t ∈ ts, t.Scanned) → vs.length ≤ fuel →
      scanner.Accepts (fun t => t = .rBrack) (arrayLoop fuel false acc) ts (fun out =>
        ∃ items : List Text, out = acc ++ items.flatMap (fun t => ',' :: t) ∧
          Forall₂ Reads items (vs.map Literal.json)) := by
  induction h with
  | nil =>
    rintro fuel acc - - p p' rfl hend
    exact ⟨acc, arrayLoop_end hend fuel false acc, [], (append_nil acc).symm, .nil⟩
  | @cons t ts₁ ts₂ v vs ht hv _ ih =>
    intro fuel acc hs hfuel
    obtain ⟨tv, rfl, hv⟩ := hv
    obtain rfl := of_decide_eq_true ht
    obtain _ | fuel := fuel
    · cases hfuel
    rw [forall_mem_cons, singleton_append, forall_mem_cons] at hs
    refine accepts_peek (accepts_expect (accepts_value hv hs.2.1 fun w hw => ?_))
    intro p p' hp hend
    obtain ⟨out, hout, items, rfl, hitems⟩ :=
      ih _ hs.2.2 (le_of_succ_le_succ hfuel) p p' hp hend
    exact ⟨_, hout, w.json :: items, by simp, .cons hw.2 hitems⟩

theorem parses_parseArrayValues (h : Items ts vs)
    (hs : ∀ t ∈ ts, t.Scanned) (hfuel : ts.length ≤ fuel) :
    Parses (parseArrayValues fuel) (.lBrack :: (ts ++ [.rBrack]))
      (Reads · (.arr (vs.map Literal.json))) := by
  have hloop : scanner.Accepts (fun t => t = .rBrack) (arrayLoop fuel true ['[']) ts (fun out =>
      ∃ items, out = '[' :: commaSep items ∧ Forall₂ Reads items (vs.map Literal.json)) := by
    cases h with
    | nil =>
      rintro p p' rfl hend
      exact ⟨['['], arrayLoop_end hend fuel true _, [], rfl, .nil⟩
    | @cons t v ts vs hv hvs =>
      obtain _ | fuel := fuel
      · cases hfuel
      rw [forall_mem_cons] at hs
      have hlen := le_trans hvs.length_le (le_of_succ_le_succ hfuel)
      refine accepts_peek ?_
      rw [if_neg (literal_ne hv rfl)]
      refine accepts_value hv hs.1 fun w hw p p' hp hend => ?_
      obtain ⟨out, hout, items, rfl, hitems⟩ := accepts_arrayLoop hvs _ hs.2 hlen p p' hp hend
      exact ⟨_, hout, w.json :: items, by simp [commaSep_cons], .cons hw.2 hitems⟩
  refine accepts_expect (hloop.bind_cons rfl fun out hout => accepts_expect (accepts_pure ?_))
  obtain ⟨items, rfl, hitems⟩ := hout
  exact reads_array hitems

theorem parses_items
    (h : SepList (fun t => decide (t = .comma)) IsLiteral ts vs) (hs : ∀ t ∈ ts, t.Scanned) :
    SepList (fun t => decide (t = .comma)) (fun ts v => Parses parseValue ts (Renders · v)) ts
      vs := by
  induction h with
  | nil => exact .nil
  | cons ht hv _ ih =>
    obtain ⟨t, rfl, hv⟩ := hv
    rw [forall_mem_cons, singleton_append, forall_mem_cons] at hs
    exact .cons ht (parses_value hv hs.2.1) (ih hs.2.2)

theorem parses_parsePredicate (hfield : isClean field)
    (h : IsPredicate field ts j) (hs : ∀ t ∈ ts, t.Scanned)
    (hfuel : ts.length ≤ fuel) : Parses (parsePredicate fuel field) ts (Reads · j) := by
  cases h with
  | @between k t a t' lo hi hk hlo ha hhi =>
    simp only [forall_mem_cons] at hs
    refine accepts_peek ?_
    rw [if_pos hk]
    refine accepts_advance (accepts_value hlo hs.2.1 fun l hl => accepts_peek ?_)
    rw [if_pos ha]
    exact accepts_advance (accepts_value hhi hs.2.2.2.1 fun h hh =>
      accepts_pure (reads_betweenClause hfield hl.2 hh.2))
  | @oneOf k ts vs hk hvs =>
    simp only [forall_mem_cons, forall_mem_append] at hs
    refine accepts_peek ?_
    rw [identIs_false hk (by decide), if_pos hk]
    refine accepts_advance (accepts_expect ?_)
    have hclose : ∀ vals, Forall₂ Renders vals vs →
        Parses (expect .rBrack "']'" >>= fun _ => pure (inClause field vals)) [.rBrack]
          (Reads · (inTree field vs)) :=
      fun vals h => accepts_expect (accepts_pure (reads_inClause hfield h))
    cases hvs with
    | nil =>
      refine accepts_peek ?_
      exact hclose [] .nil
    | @cons t v ts vs hv hvs =>
      rw [forall_mem_cons] at hs
      have hlen : vs.length ≤ fuel := by
        have := hvs.length_le
        simp only [length_cons, length_append] at hfuel
        omega
      refine accepts_peek ?_
      rw [if_neg (literal_ne hv rfl)]
      refine accepts_value hv hs.2.2.1.1 fun w hw => ?_
      exact (accepts_sepLoop (fun _ _ => trivial) (parses_items hvs hs.2.2.1.2) hlen).bind_cons
        ⟨trivial, rfl⟩ fun vals hvals => hclose _ (.cons hw hvals)
  | @like k s hk =>
    refine accepts_peek ?_
    rw [identIs_false hk (by decide), identIs_false hk (by decide), if_pos hk]
    refine accepts_advance (accepts_value (t := .str s) rfl trivial fun w hw => ?_)
    rw [hw.1]
    exact accepts_pure (reads_likeClause hfield s)
  | @compare op t v j hv hj =>
    simp only [forall_mem_cons] at hs
    refine accepts_peek (accepts_advance (accepts_value hv hs.2.1 fun w hw => ?_))
    obtain ⟨out, hout, hr⟩ := reads_comparisonClause hfield hw.2 hj
    rw [hout]
    exact accepts_pure hr

theorem parses_parseCall {name : Text} (h : IsArgument name field ts j) (hfield : isClean field)
    (hs : ∀ t ∈ ts, t.Scanned) (hfuel : ts.length ≤ fuel) :
    Parses (parseCall fuel name) (.lParen :: .ident field :: .comma :: (ts ++ [.rParen]))
      (Reads · j) := by
  refine accepts_advance (accepts_peek (accepts_advance (accepts_expect ?_)))
  have hclose : ∀ n, Reads n j →
      Parses (expect .rParen "')'" >>= fun _ => pure n) [.rParen] (Reads · j) :=
    fun n hn => accepts_expect (accepts_pure hn)
  have hop : jsonEscape (callOp name).toList = (callOp name).toList ∧
      isClean (callOp name).toList := by
    rw [callOp]
    split <;> exact ⟨rfl, rfl⟩
  cases h with
  | contains hname hv =>
    rw [if_pos hname]
    exact accepts_value hv (hs _ mem_cons_self) fun w hw =>
      hclose _ (reads_fieldClause hfield hw.2)
  | one hname hv =>
    rw [if_neg hname]
    exact accepts_peek (accepts_value hv (hs _ mem_cons_self) fun w hw =>
      hclose _ (reads_fieldClause hfield (reads_opClause hop hw.2)))
  | @list ts vs hname hvs =>
    rw [if_neg hname]
    simp only [forall_mem_cons, forall_mem_append, length_cons, length_append] at hs hfuel
    refine accepts_peek ?_
    exact (parses_parseArrayValues hvs hs.2.1 (by omega)).bind fun out hout =>
      hclose _ (reads_fieldClause hfield (reads_opClause hop hout))

theorem parses_parseCmp (h : IsCmp ts j) (hs : ∀ t ∈ ts, t.Scanned)
    (hfuel : ts.length ≤ fuel) : Parses (parseCmp fuel) ts (Reads · j) := by
  cases h with
  | @call name field ts j hname h =>
    simp only [forall_mem_cons, forall_mem_append, length_cons, length_append] at hs hfuel
    refine accepts_peek (accepts_advance (accepts_peek ?_))
    rw [hname]
    exact parses_parseCall h (isClean_ident hs.2.2.1) hs.2.2.2.2.1 (by omega)
  | @predicate field ts j h =>
    rw [forall_mem_cons] at hs
    have hpredicate := parses_parsePredicate (isClean_ident hs.1) h hs.2 (le_of_succ_le hfuel)
    obtain ⟨t, ts', rfl, hparen, hnot⟩ := isPredicate_head h
    refine accepts_peek (accepts_advance (accepts_peek ?_))
    rw [decide_eq_false hparen, Bool.and_false, hnot]
    exact hpredicate
  | @notPredicate field k ts j hk h =>
    rw [forall_mem_cons, forall_mem_cons] at hs
    have hlen : ts.length ≤ fuel := le_of_succ_le (le_of_succ_le hfuel)
    refine accepts_peek (accepts_advance (accepts_peek ?_))
    rw [decide_eq_false (identIs_ne hk rfl), Bool.and_false, if_pos hk]
    refine accepts_advance ?_
    rw [← append_nil ts]
    exact (parses_parsePredicate (isClean_ident hs.1) h hs.2.2 hlen).bind fun n hn =>
      accepts_pure (reads_unaryNot hn)

/-- The operands of a chain, each read by `m` where the token behind it is `Ok`. -/
def ReadsChain (kw : String) (m : SqlM Text) (Ok : Tok → Prop) (ts : List Tok)
    (js : List Json) : Prop :=
  ∃ j js' ts₁ ts₂, js = j :: js' ∧ ts = ts₁ ++ ts₂ ∧ scanner.Accepts Ok m ts₁ (Reads · j) ∧
    SepList (Tok.identIs kw) (fun ts j => scanner.Accepts Ok m ts (Reads · j)) ts₂ js'

theorem ReadsChain.accepts {op : String} {Ok : Tok → Prop}
    (hop : jsonEscape op.toList = op.toList ∧ isClean op.toList)
    (hOk : ∀ t, Tok.identIs kw t → Ok t) (h : ReadsChain kw m Ok ts js) (hfuel : ts.length ≤ fuel) :
    scanner.Accepts (fun t => Ok t ∧ t.identIs kw = false) (parseChain kw op m fuel) ts
      (Reads · (logicalTree op js)) := by
  obtain ⟨j, js, ts₁, ts₂, rfl, rfl, hj, hjs⟩ := h
  intro p p' hp hend
  have hlen : js.length ≤ fuel := by
    have := hjs.length_le
    rw [length_append] at hfuel
    omega
  obtain ⟨p₁, hp₁, hp'⟩ := scans_append.mp hp
  obtain ⟨out, hout, hr⟩ := hj p p₁ hp₁ (hjs.ok_tok hOk hp' hend.1)
  obtain ⟨outs, houts, hrs⟩ := accepts_sepLoop hOk hjs hlen p₁ p' hp' hend
  refine ⟨_, ?_, reads_logical hop (.cons hr hrs)⟩
  rw [parseChain, bind_ok hout, bind_ok houts]
  rfl

/-- What may follow a conjunction. -/
def EndsAnd (t : Tok) : Prop := t.identIs "and" = false

/-- What is read of a derivation, by level. -/
def Readable (fuel : Nat) : Level → List Tok → List Json → Prop
  | .unary, ts, js => ∃ j, js = [j] ∧ Parses (parseUnary fuel) ts (Reads · j)
  | .and, ts, js => ReadsChain "and" (parseUnary fuel) (fun _ => True) ts js
  | .or, ts, js => ReadsChain "or" (parseAnd (parseUnary fuel) fuel) EndsAnd ts js

section Readable
variable {fuel : Nat} {ts : List Tok} {js : List Json}

theorem Readable.unary {j : Json} (h : Readable fuel .unary ts [j]) :
    Parses (parseUnary fuel) ts (Reads · j) := by
  obtain ⟨j', hj, hr⟩ := h
  cases hj
  exact hr

theorem Readable.and (h : Readable fuel .and ts js) (hfuel : ts.length ≤ fuel) :
    scanner.Accepts EndsAnd (parseAnd (parseUnary fuel) fuel) ts
      (Reads · (logicalTree "$and" js)) :=
  fun p p' hp hend => ReadsChain.accepts ⟨rfl, rfl⟩ (fun _ _ => trivial) h hfuel p p' hp
    ⟨trivial, hend⟩

theorem Readable.or (h : Readable fuel .or ts js) (hfuel : ts.length ≤ fuel) :
    scanner.Accepts (fun t => EndsAnd t ∧ t.identIs "or" = false)
      (parseOr (parseUnary fuel) fuel) ts (Reads · (logicalTree "$or" js)) :=
  ReadsChain.accepts ⟨rfl, rfl⟩ (fun _ hk => identIs_false hk (by decide)) h hfuel

end Readable

/-- More tokens than there is fuel are never needed. -/
theorem readable_of_derives {level : Level}
    (h : Derives level ts js) : ∀ fuel, (∀ t ∈ ts, t.Scanned) → ts.length < fuel →
      Readable fuel level ts js := by
  induction h with
  | @cmp t ts j ht h =>
    intro fuel hs hfuel
    obtain _ | fuel := fuel
    · cases hfuel
    have hparen : t ≠ .lParen := by
      rintro rfl
      cases h
    refine ⟨j, rfl, accepts_peek ?_⟩
    rw [ht, if_neg hparen]
    exact parses_parseCmp h hs (le_of_lt_succ hfuel)
  | @not k ts j hk _ ih =>
    intro fuel hs hfuel
    obtain _ | fuel := fuel
    · cases hfuel
    rw [forall_mem_cons] at hs
    refine ⟨_, rfl, accepts_peek ?_⟩
    rw [if_pos hk, ← append_nil ts]
    exact accepts_advance ((ih fuel hs.2 (lt_of_succ_lt_succ hfuel)).unary.bind fun n hn =>
      accepts_pure (reads_unaryNot hn))
  | @paren ts js _ ih =>
    intro fuel hs hfuel
    obtain _ | fuel := fuel
    · cases hfuel
    simp only [forall_mem_cons, forall_mem_append, length_cons, length_append] at hs hfuel
    have hlen : ts.length < fuel := by omega
    refine ⟨_, rfl, accepts_peek (accepts_advance ?_)⟩
    exact ((ih fuel hs.2.1 hlen).or (le_of_lt hlen)).bind_cons ⟨rfl, rfl⟩ fun n hn =>
      accepts_expect (accepts_pure hn)
  | @andOne ts j _ ih =>
    intro fuel hs hfuel
    exact ⟨j, [], ts, [], rfl, (append_nil ts).symm, (ih fuel hs hfuel).unary, .nil⟩
  | @orOne ts js _ ih =>
    intro fuel hs hfuel
    exact ⟨_, [], ts, [], rfl, (append_nil ts).symm, (ih fuel hs hfuel).and (le_of_lt hfuel), .nil⟩
  | @andMore ts _ k _ _ _ hk _ ih ihmore | @orMore ts _ k _ _ _ hk _ ih ihmore =>
    intro fuel hs hfuel
    rw [length_append, length_cons] at hfuel
    rw [forall_mem_append, forall_mem_cons] at hs
    obtain ⟨j', js', ts₁, ts₂, rfl, rfl, hj', hjs'⟩ := ihmore fuel hs.2.2 (by omega)
    have hfirst := ih fuel hs.1 (by omega)
    refine ⟨_, j' :: js', ts, k :: (ts₁ ++ ts₂), rfl, rfl, ?_, .cons hk hj' hjs'⟩
    first
    | exact hfirst.unary
    | exact hfirst.and (by omega)

/-- **What has a derivation is accepted, and the text of its value is written.** -/
theorem accepts_parseAll (h : Derives .or ts js)
    (hs : ∀ t ∈ ts, t.Scanned) (hfuel : ts.length < fuel) :
    scanner.Accepts (fun t => t = .done) (parseAll fuel) ts (Reads · (logicalTree "$or" js)) := by
  intro p p' hp hend
  have hor := (readable_of_derives h fuel hs hfuel).or (le_of_lt hfuel)
  obtain ⟨out, hout, hr⟩ := hor p p' hp (by rw [hend]; exact ⟨rfl, rfl⟩)
  refine ⟨out, ?_, hr⟩
  rw [parseAll, bind_ok hout]
  change (if scanner.tok p' = .done then pure out else error "unexpected trailing token") p' = _
  rw [if_pos hend]
  rfl

/-! ## Every text -/

theorem length_scanString {quote : Char} {out t s rest : Text}
    (h : scanString quote out t = some (s, rest)) : rest.length < t.length := by
  fun_induction scanString quote out t with
  | case1 | case3 => cases h
  | case2 =>
    cases h
    exact lt_succ_self _
  | case4 _ _ _ _ ih => exact lt_trans (ih h) (by simp only [length_cons]; omega)
  | case5 _ _ _ _ _ ih => exact lt_trans (ih h) (lt_succ_self _)

/-- What the scanner returns: a token as it should be, and less text unless it is at the end. -/
theorem next_spec {t : Text} {tok : Tok} {rest : Text} (h : next t = .ok (tok, rest)) :
    tok.Scanned ∧ (tok ≠ .done → rest.length < t.length) := by
  have hdrop {c : Char} {cs : Text} (hd : t.dropWhile isSpace = c :: cs) : cs.length < t.length :=
    (congrArg length hd).symm.trans_le (dropWhile_suffix isSpace).length_le
  have hshort {c : Char} {cs : Text} (hd : t.dropWhile isSpace = c :: cs) (p : Char → Bool) :
      (cs.dropWhile p).length < t.length :=
    lt_of_le_of_lt (dropWhile_suffix p).length_le (hdrop hd)
  revert h
  fun_cases next t with
  | case1 =>
    rintro ⟨⟩
    exact ⟨trivial, fun hne => absurd rfl hne⟩
  | case2 c cs hd hident =>
    rintro ⟨⟩
    exact ⟨⟨c, _, rfl, hident, fun d hd => mem_takeWhile_imp hd⟩, fun _ => hshort hd _⟩
  | case3 c cs hd _ hdigit =>
    rintro ⟨⟩
    refine ⟨⟨cons_ne_nil _ _, ?_⟩, fun _ => hshort hd _⟩
    exact forall_mem_cons.mpr ⟨hdigit, fun d hd => mem_takeWhile_imp hd⟩
  | case4 c cs hd _ _ _ s r hscan =>
    rintro ⟨⟩
    exact ⟨trivial, fun _ => lt_trans (length_scanString hscan) (hdrop hd)⟩
  | case12 c _ _ _ _ _ _ _ _ _ d cs _ hd =>
    rintro ⟨⟩
    exact ⟨trivial, fun _ => lt_of_succ_lt (hdrop hd)⟩
  | case5 | case14 => rintro ⟨⟩
  | _ =>
    rintro ⟨⟩
    exact ⟨trivial, fun _ => hdrop ‹_›⟩

/-- The scanner goes through the tokens of a text. -/
theorem scans_of_tokensLoop : ∀ {fuel : Nat} {t : Text} {ts : List Tok},
    tokensLoop fuel t = some ts → (∀ tok ∈ ts, tok.Scanned) ∧ ts.length ≤ t.length ∧
      ∀ (input : Text) (tok : Tok), ∃ p p', SqlParser.next ⟨input, t, tok⟩ = .ok p ∧
        scanner.Scans p ts p' ∧ p'.tok = .done
  | fuel + 1, t, ts, h => by
    rw [tokensLoop] at h
    cases hn : next t with
    | error e =>
      rw [hn] at h
      cases h
    | ok r =>
      obtain ⟨tok, rest⟩ := r
      have hnext : ∀ input tok', SqlParser.next ⟨input, t, tok'⟩ = .ok ⟨input, rest, tok⟩ :=
        fun input tok' => by rw [SqlParser.next, hn]
      rw [hn] at h
      dsimp only at h
      split_ifs at h with hdone
      · cases h
        exact ⟨fun _ hmem => absurd hmem not_mem_nil, zero_le _, fun input tok' =>
          ⟨_, _, hnext input tok', rfl, hdone⟩⟩
      · obtain ⟨ts', hts', rfl⟩ := Option.map_eq_some_iff.mp h
        obtain ⟨hscanned, hlen, hscans⟩ := scans_of_tokensLoop hts'
        obtain ⟨htok, hrest⟩ := next_spec hn
        refine ⟨forall_mem_cons.mpr ⟨htok, hscanned⟩, ?_, fun input tok' => ?_⟩
        · exact le_trans (succ_le_succ hlen) (hrest hdone)
        · obtain ⟨p, p', hp, hs, hend⟩ := hscans input tok
          exact ⟨_, p', hnext input tok', ⟨rfl, hdone, p, hp, hs⟩, hend⟩

/-- Tokens that the scanner goes through are those of the text. -/
theorem tokensLoop_of_scans {input : Text} {t : Text} {tok : Tok}
    {p' : SqlParser} (hlen : t.length < fuel)
    (hp : SqlParser.next ⟨input, t, tok⟩ = .ok p) (hs : scanner.Scans p ts p')
    (hend : p'.tok = .done) : tokensLoop fuel t = some ts := by
  induction fuel generalizing t tok p ts with
  | zero => cases hlen
  | succ fuel ih =>
    rw [tokensLoop]
    rw [SqlParser.next] at hp
    cases hn : next t with
    | error e =>
      rw [hn] at hp
      cases hp
    | ok r =>
      rw [hn] at hp
      cases hp
      dsimp only
      cases ts with
      | nil =>
        obtain rfl : p' = _ := hs
        rw [if_pos hend]
      | cons t' ts =>
        obtain ⟨htok, hdone, p₁, hp₁, hs'⟩ := hs
        obtain rfl : r.1 = t' := htok
        have hdone : r.1 ≠ .done := hdone
        have hrest : r.2.length < t.length := (next_spec hn).2 hdone
        rw [if_neg hdone, ih (by omega) hp₁ hs']
        rfl

/-- **A text whose tokens have a derivation is accepted.** -/
theorem sqlToMongoJson_of_denotes {expr : Text} (hts : tokens expr = some ts) (h : Denotes ts j) :
    ∃ out, sqlToMongoJson expr = .ok out ∧ Reads out j := by
  obtain ⟨js, h, rfl⟩ := h
  obtain ⟨hscanned, hlen, hscans⟩ := scans_of_tokensLoop hts
  obtain ⟨p, p', hp, hs, hend⟩ := hscans expr .done
  obtain ⟨out, hout, hr⟩ := accepts_parseAll h hscanned (lt_succ_of_le hlen) p p' hs hend
  refine ⟨out, ?_, hr⟩
  rw [sqlToMongoJson, SqlParser.new, hp]
  change (parseAll (expr.length + 1) p >>= fun r => pure r.1) = _
  rw [hout]
  rfl

/-- **The tokens of a text that is accepted have a derivation, and what is written is the text of
its value.** -/
theorem denotes_of_sqlToMongoJson {expr out : Text} (h : sqlToMongoJson expr = .ok out) :
    ∃ ts j, tokens expr = some ts ∧ Denotes ts j ∧ Reads out j := by
  have hsql := h
  rw [sqlToMongoJson] at h
  cases hp : SqlParser.new expr with
  | error e =>
    rw [hp] at h
    cases h
  | ok p =>
    rw [hp] at h
    change (parseAll (expr.length + 1) p >>= fun r => pure r.1) = _ at h
    cases hall : parseAll (expr.length + 1) p with
    | error e =>
      rw [hall] at h
      cases h
    | ok r =>
      obtain ⟨hend, ts, js, hs, hjs⟩ := yields_parseAll hall
      have hts : tokens expr = some ts := tokensLoop_of_scans (lt_succ_self _) hp hs hend
      obtain ⟨out', hout', hr⟩ := sqlToMongoJson_of_denotes hts ⟨js, hjs, rfl⟩
      obtain rfl : out = out' := Except.ok.inj (hsql.symm.trans hout')
      exact ⟨ts, _, hts, ⟨js, hjs, rfl⟩, hr⟩

end PipeANN.Dsl
