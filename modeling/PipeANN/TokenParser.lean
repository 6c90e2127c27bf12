import Mathlib.Data.List.Forall2

/-! # Recursive descent over a stream of tokens

A hand-written parser keeps the current token and asks its scanner for the next one.  It
is modelled as a computation on the scanner's state that may fail.  What such a parser does is
stated on the tokens that it scans, `S.Scans s ts s'`.  `S.Yields m Q s` says that whatever `m`
returns from `s`, the tokens it has scanned stand for it as `Q` says.  `S.Accepts Ok m ts R` says
that `m` scans the tokens `ts` and returns a result with `R`, wherever they are ahead and the
token behind them is `Ok`.

The rules below follow the program text: `pure`, `bind`, a look at the current token, a move to
the next one, and the loop that reads further operands as long as it meets their separator.  Loops
take a bound on their iterations; the number of tokens ahead is always enough.
-/
namespace TokenParser

/-- A scanner: the current token of a state, the step to the next token, and the token
that marks the end of the input. -/
structure Scanner (σ τ ε : Type) where
  tok : σ → τ
  next : σ → Except ε σ
  done : τ

/-- A parser over the states `σ` of a scanner. -/
abbrev Parser (σ ε α : Type) := StateT σ (Except ε) α

/-! A computation behind one that returns or fails. -/

theorem bind_ok {σ ε α β : Type} {m : Parser σ ε α} {k : α → Parser σ ε β} {s s' : σ} {a : α}
    (h : m s = .ok (a, s')) : (m >>= k) s = k a s' := by
  change (m s >>= fun p => k p.1 p.2) = _
  rw [h]
  rfl

theorem bind_error {σ ε α β : Type} {m : Parser σ ε α} {k : α → Parser σ ε β} {s : σ} {e : ε}
    (h : m s = .error e) : (m >>= k) s = .error e := by
  change (m s >>= fun p => k p.1 p.2) = _
  rw [h]
  rfl

namespace Scanner
variable {σ τ ε α β : Type} (S : Scanner σ τ ε)

/-- The current token. -/
def peek : Parser σ ε τ := fun s => .ok (S.tok s, s)

/-- Moves on to the next token. -/
def advance : Parser σ ε Unit := fun s => (S.next s).map (fun s' => ((), s'))

/-- The loop `while (sep) { next(); push_back(item()); }`. -/
def sepLoop (sep : τ → Bool) (item : Parser σ ε α) : Nat → Parser σ ε (List α)
  | 0 => pure []
  | fuel + 1 => do
      let t ← S.peek
      if sep t then
        S.advance
        let a ← item
        let rest ← sepLoop sep item fuel
        pure (a :: rest)
      else pure []

/-- The tokens `ts` are ahead of `s`, and `s'` is behind them. -/
def Scans : σ → List τ → σ → Prop
  | s, [], s' => s' = s
  | s, t :: ts, s' => S.tok s = t ∧ t ≠ S.done ∧ ∃ s₁, S.next s = .ok s₁ ∧ Scans s₁ ts s'

variable {S} {m : Parser σ ε α} {s s' : σ} {ts ts' : List τ} {sep : τ → Bool}

theorem scans_append : S.Scans s (ts ++ ts') s' ↔ ∃ s₁, S.Scans s ts s₁ ∧ S.Scans s₁ ts' s' := by
  induction ts generalizing s with
  | nil => simp [Scans]
  | cons t ts ih =>
    simp only [List.cons_append, Scans]
    grind

/-- Operands, each behind its separator. -/
inductive SepList (sep : τ → Bool) (Q : List τ → α → Prop) : List τ → List α → Prop
  | nil : SepList sep Q [] []
  | cons {t : τ} {ts ts' : List τ} {a : α} {as : List α} (ht : sep t = true) (ha : Q ts a)
      (has : SepList sep Q ts' as) : SepList sep Q (t :: (ts ++ ts')) (a :: as)

theorem SepList.length_le {Q : List τ → α → Prop} {as : List α}
    (hs : SepList sep Q ts as) : as.length ≤ ts.length := by
  induction hs with
  | nil => exact Nat.le_refl _
  | cons ht ha _ ih =>
    rw [List.length_cons, List.length_cons, List.length_append]
    omega

theorem SepList.choose {Q : List τ → β → Prop} {as : List α}
    (hs : SepList sep (fun ts _ => ∃ b, Q ts b) ts as) : ∃ bs, SepList sep Q ts bs := by
  induction hs with
  | nil => exact ⟨[], .nil⟩
  | cons ht ha _ ih =>
    obtain ⟨b, hb⟩ := ha
    obtain ⟨bs, hbs⟩ := ih
    exact ⟨b :: bs, .cons ht hb hbs⟩

/-! ## What is returned -/

section Yields
variable {Q : List τ → α → Prop}

/-- Whatever `m` returns from `s`, it has scanned tokens that stand for it as `Q` says. -/
def Yields (S : Scanner σ τ ε) (m : Parser σ ε α) (Q : List τ → α → Prop) (s : σ) : Prop :=
  ∀ a s', m s = .ok (a, s') → ∃ ts, S.Scans s ts s' ∧ Q ts a

theorem yields_pure {a : α} (h : Q [] a) : S.Yields (pure a) Q s := by
  intro a' s' hr
  cases hr
  exact ⟨[], rfl, h⟩

theorem yields_fail {e : ε} (h : m s = .error e) : S.Yields m Q s := by
  intro a s' hr
  rw [h] at hr
  cases hr

theorem Yields.imp {Q' : List τ → α → Prop} (h : S.Yields m Q s) (hQ : ∀ ts a, Q ts a → Q' ts a) :
    S.Yields m Q' s := by
  intro a s' hr
  obtain ⟨ts, hs, ha⟩ := h a s' hr
  exact ⟨ts, hs, hQ ts a ha⟩

theorem Yields.bind {k : α → Parser σ ε β} {Q' : List τ → β → Prop} (hm : S.Yields m Q s)
    (hk : ∀ a ts s', Q ts a → S.Yields (k a) (fun ts' b => Q' (ts ++ ts') b) s') :
    S.Yields (m >>= k) Q' s := by
  intro b s'' hr
  cases hms : m s with
  | error e =>
    rw [bind_error hms] at hr
    cases hr
  | ok p =>
    rw [bind_ok hms] at hr
    obtain ⟨ts, hts, hQ⟩ := hm p.1 p.2 hms
    obtain ⟨ts', hts', hQ'⟩ := hk p.1 ts p.2 hQ b s'' hr
    exact ⟨ts ++ ts', scans_append.mpr ⟨p.2, hts, hts'⟩, hQ'⟩

theorem yields_peek {k : τ → Parser σ ε α} (h : S.Yields (k (S.tok s)) Q s) :
    S.Yields (S.peek >>= k) Q s := h

theorem yields_advance {k : Unit → Parser σ ε α} {t : τ} (ht : S.tok s = t) (hne : t ≠ S.done)
    (h : ∀ s, S.Yields (k ()) (fun ts a => Q (t :: ts) a) s) : S.Yields (S.advance >>= k) Q s := by
  intro a s' hr
  cases hn : S.next s with
  | error e =>
    have hfail : S.advance s = .error e := by rw [advance, hn]; rfl
    rw [bind_error hfail] at hr
    cases hr
  | ok s₁ =>
    have hstep : S.advance s = .ok ((), s₁) := by rw [advance, hn]; rfl
    rw [bind_ok hstep] at hr
    obtain ⟨ts, hts, hQ⟩ := h s₁ a s' hr
    exact ⟨t :: ts, ⟨ht, hne, s₁, hn, hts⟩, hQ⟩

theorem yields_sepLoop {sep : τ → Bool} (hdone : sep S.done = false) (h : ∀ s, S.Yields m Q s) :
    ∀ (fuel : Nat) (s : σ), S.Yields (S.sepLoop sep m fuel) (SepList sep Q) s
  | 0, s => yields_pure .nil
  | fuel + 1, s => by
    refine yields_peek ?_
    split
    · next hsep =>
      have hne : S.tok s ≠ S.done := fun he => Bool.false_ne_true (hdone.symm.trans (he ▸ hsep))
      refine yields_advance rfl hne fun s₁ => (h s₁).bind fun a ts s₂ hQ => ?_
      refine (yields_sepLoop hdone h fuel s₂).bind fun as ts' s₃ hs => yields_pure ?_
      rw [List.append_nil]
      exact .cons hsep hQ hs
    · exact yields_pure .nil

end Yields

/-! ## What is accepted -/

section Accepts
variable {Ok : τ → Prop} {R : α → Prop} {t : τ} {k : α → Parser σ ε β} {sep : τ → Bool}

/-- Where the tokens `ts` are ahead and the token behind them is `Ok`, the parser scans them and
returns a result with `R`. -/
def Accepts (S : Scanner σ τ ε) (Ok : τ → Prop) (m : Parser σ ε α) (ts : List τ) (R : α → Prop) :
    Prop :=
  ∀ s s', S.Scans s ts s' → Ok (S.tok s') → ∃ a, m s = .ok (a, s') ∧ R a

theorem accepts_pure {a : α} (h : R a) : S.Accepts Ok (pure a) [] R := by
  rintro s s' rfl _
  exact ⟨a, rfl, h⟩

/-- A parser that does not look at what follows, and one behind it. -/
theorem Accepts.bind {R' : β → Prop} (hm : S.Accepts (fun _ => True) m ts R)
    (hk : ∀ a, R a → S.Accepts Ok (k a) ts' R') : S.Accepts Ok (m >>= k) (ts ++ ts') R' := by
  intro s s' hs hOk
  obtain ⟨s₁, hs₁, hs'⟩ := scans_append.mp hs
  obtain ⟨a, ha, hR⟩ := hm s s₁ hs₁ trivial
  rw [bind_ok ha]
  exact hk a hR s₁ s' hs' hOk

/-- A parser that looks at the token behind it. -/
theorem Accepts.bind_cons {Ok' : τ → Prop} {R' : β → Prop} (hm : S.Accepts Ok' m ts R) (ht : Ok' t)
    (hk : ∀ a, R a → S.Accepts Ok (k a) (t :: ts') R') :
    S.Accepts Ok (m >>= k) (ts ++ t :: ts') R' := by
  intro s s' hs hOk
  obtain ⟨s₁, hs₁, hs'⟩ := scans_append.mp hs
  obtain ⟨a, ha, hR⟩ := hm s s₁ hs₁ (hs'.1 ▸ ht)
  rw [bind_ok ha]
  exact hk a hR s₁ s' hs' hOk

theorem accepts_peek {k : τ → Parser σ ε α} (h : S.Accepts Ok (k t) (t :: ts) R) :
    S.Accepts Ok (S.peek >>= k) (t :: ts) R := by
  intro s s' hs hOk
  have hpeek : (S.peek >>= k) s = k t s := by rw [← hs.1]; rfl
  rw [hpeek]
  exact h s s' hs hOk

theorem accepts_advance {k : Unit → Parser σ ε α} (h : S.Accepts Ok (k ()) ts R) :
    S.Accepts Ok (S.advance >>= k) (t :: ts) R := by
  rintro s s' ⟨-, -, s₁, hs₁, hs'⟩ hOk
  have hstep : S.advance s = .ok ((), s₁) := by rw [advance, hs₁]; rfl
  rw [bind_ok hstep]
  exact h s₁ s' hs' hOk

/-- The token at the end of the operands or ahead of the first of them. -/
theorem SepList.ok_tok {Q : List τ → β → Prop} {bs : List β}
    (h : SepList sep Q ts bs) (hOk : ∀ t, sep t → Ok t) (hs : S.Scans s ts s')
    (hend : Ok (S.tok s')) : Ok (S.tok s) := by
  cases h with
  | nil => rwa [← (hs : s' = s)]
  | cons ht _ _ => exact hs.1 ▸ hOk _ ht

/-- The loop reads the operands of a list, if an operand may be followed by a separator. -/
theorem accepts_sepLoop {R : α → β → Prop} (hOk : ∀ t, sep t → Ok t)
    {bs : List β} (h : SepList sep (fun ts b => S.Accepts Ok m ts (R · b)) ts bs) :
    ∀ {fuel : Nat}, bs.length ≤ fuel → S.Accepts (fun t => Ok t ∧ sep t = false)
      (S.sepLoop sep m fuel) ts (fun as => List.Forall₂ R as bs) := by
  induction h with
  | nil =>
    rintro fuel - s s' rfl ⟨-, hstop⟩
    refine ⟨[], ?_, .nil⟩
    cases fuel with
    | zero => rfl
    | succ fuel =>
      change (if sep (S.tok s') then _ else pure [] : Parser σ ε (List α)) s' = _
      rw [hstop]
      rfl
  | @cons t ts₁ ts₂ b bs ht hb htail ih =>
    intro fuel hfuel
    obtain _ | fuel := fuel
    · cases hfuel
    refine accepts_peek ?_
    rw [if_pos ht]
    refine accepts_advance fun s s' hs hend => ?_
    obtain ⟨s₁, hs₁, hs'⟩ := scans_append.mp hs
    obtain ⟨a, ha, hR⟩ := hb s s₁ hs₁ (htail.ok_tok hOk hs' hend.1)
    obtain ⟨as, has, hRs⟩ := ih (Nat.le_of_succ_le_succ hfuel) s₁ s' hs' hend
    exact ⟨a :: as, by rw [bind_ok ha, bind_ok has]; rfl, .cons hR hRs⟩

end Accepts

end Scanner
end TokenParser
