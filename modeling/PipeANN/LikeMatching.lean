import Mathlib.Data.List.TakeWhile
import PipeANN.FilterCompiler

/-! # LIKE patterns

What a pattern means, and the fixed texts at its ends.  `like_match` (`attribute.h`) ends on every
subject and every pattern (`likeRun_ends`), and it only accepts strings that match
(`likeMatch_sound`); so every string it accepts begins with the text before the first wildcard of
the pattern and ends with the text after the last one, which is what the scans of the string index
rely on.

It compares the byte of the pattern with that of the subject before it asks whether it is a
wildcard.  So a `%` of the pattern that meets a `%` of the subject is taken for that one byte, and
no new start is possible behind it.  `likeMatch_exact_iff` says which subjects are matched as they
should be: those without a `%`.
-/
namespace PipeANN.Dsl
open List Option Nat

/-- A string matches a pattern: `%` stands for any text, `_` for any byte, and every other
byte for itself. -/
inductive LikeMatches : Text → Text → Prop
  | nil : LikeMatches [] []
  | any {c : Char} {s p : Text} : LikeMatches s p → LikeMatches (c :: s) ('_' :: p)
  | byte {c : Char} {s p : Text} : LikeMatches s p → LikeMatches (c :: s) (c :: p)
  | skip {s p : Text} : LikeMatches s p → LikeMatches s ('%' :: p)
  | take {c : Char} {s p : Text} : LikeMatches s ('%' :: p) → LikeMatches (c :: s) ('%' :: p)

/-- A wildcard of a pattern. -/
def isWildcard (c : Char) : Bool := c = '%' || c = '_'

/-- `like_fixed_prefix`: the text before the first wildcard. -/
def likeFixedPrefix (p : Text) : Text := p.takeWhile fun c => !isWildcard c

/-- `like_fixed_suffix`: the text after the last wildcard. -/
def likeFixedSuffix (p : Text) : Text := (likeFixedPrefix p.reverse).reverse

theorem likeMatches_percents : ∀ {p : Text}, (p.all fun c => c = '%') → LikeMatches [] p
  | [], _ => .nil
  | c :: p, h => by
    obtain ⟨hc, hp⟩ := Bool.and_eq_true_iff.mp h
    obtain rfl : c = '%' := of_decide_eq_true hc
    exact .skip (likeMatches_percents hp)

theorem LikeMatches.of_suffix {s t p : Text} (hst : s <:+ t) (h : LikeMatches s p) :
    LikeMatches t ('%' :: p) := by
  obtain ⟨u, rfl⟩ := hst
  induction u with
  | nil => exact .skip h
  | cons c u ih => exact .take ih

/-- A later start after the last `%` matches. -/
def MatchesLater (star : Option (Text × Text)) : Prop :=
  ∃ mark afterStar t, star = some (mark, afterStar) ∧ t <:+ mark ∧ LikeMatches t afterStar

variable {s p : Text}

/-- One round of the loop on a byte of the subject and a byte of the pattern, where `again`
is the answer of a new start. -/
theorem likeRound_sound {fuel : Nat} {c d : Char} {star : Option (Text × Text)} {again : Bool}
    (ih : ∀ s p star, likeLoop fuel s p star → LikeMatches s p ∨ MatchesLater star)
    (hagain : again → MatchesLater star)
    (h : (if d = '_' || d = c then likeLoop fuel s p star
      else if d = '%' then likeLoop fuel (c :: s) p (some (c :: s, p)) else again) = true) :
    LikeMatches (c :: s) (d :: p) ∨ MatchesLater star := by
  split at h
  · next hd =>
    -- one byte is matched
    rcases ih _ _ _ h with hmatch | hstar
    · rcases Bool.or_eq_true_iff.mp hd with hd | hd
      · exact .inl (of_decide_eq_true hd ▸ .any hmatch)
      · exact .inl (of_decide_eq_true hd ▸ .byte hmatch)
    · exact .inr hstar
  · split at h
    · next hd =>
      subst hd
      rcases ih _ _ _ h with hmatch | ⟨mark, after, t, heq, ht, hmatch⟩
      · exact .inl (.skip hmatch)
      · cases heq
        exact .inl (hmatch.of_suffix ht)
    · exact .inr (hagain h)

/-- What the loop accepts matches: from where it stands, or from a later start after the
last `%`. -/
theorem likeLoop_sound (fuel : Nat) : ∀ (s p : Text) (star : Option (Text × Text)),
    likeLoop fuel s p star → LikeMatches s p ∨ MatchesLater star := by
  induction fuel with
  | zero =>
    intro s p star h
    exact absurd h Bool.false_ne_true
  | succ fuel ih =>
    intro s p star h
    cases s with
    | nil => exact .inl (likeMatches_percents h)
    | cons c s =>
      -- a new start is possible only behind the mark of a `%`
      rcases star with _ | ⟨_ | ⟨m, mark⟩, afterStar⟩
      iterate 2
        cases p with
        | nil => exact absurd h Bool.false_ne_true
        | cons d p => exact likeRound_sound ih (fun h => absurd h Bool.false_ne_true) h
      · have hagain : likeLoop fuel mark afterStar (some (mark, afterStar)) →
            MatchesLater (some (m :: mark, afterStar)) := by
          intro h
          rcases ih _ _ _ h with hmatch | ⟨mark', after', t, heq, ht, hmatch⟩
          · exact ⟨m :: mark, afterStar, mark, rfl, suffix_cons m mark, hmatch⟩
          · cases heq
            exact ⟨_, _, t, rfl, ht.trans (suffix_cons m mark), hmatch⟩
        cases p with
        | nil => exact .inr (hagain h)
        | cons d p => exact likeRound_sound ih hagain h

/-- **`like_match` is sound.** -/
theorem likeMatch_sound (h : likeMatch s p) : LikeMatches s p := by
  rcases likeLoop_sound _ _ _ _ h with hmatch | ⟨mark, after, t, heq, -⟩
  · exact hmatch
  · cases heq

/-! ## The ends of a pattern -/

theorem LikeMatches.fixedPrefix (h : LikeMatches s p) : likeFixedPrefix p <+: s := by
  induction h with
  | nil => exact prefix_rfl
  | @byte c s p _ ih =>
    rw [likeFixedPrefix, takeWhile_cons]
    split
    · exact prefix_cons_inj c |>.mpr ih
    · exact nil_prefix
  | any | skip | take => exact nil_prefix

/-- Without wildcards a pattern matches itself only. -/
theorem LikeMatches.eq_of_fixed (h : LikeMatches s p)
    (hp : ∀ c ∈ p, isWildcard c = false) : s = p := by
  induction h with
  | nil => rfl
  | any _ _ => exact absurd (hp '_' mem_cons_self) (by decide)
  | byte _ ih => exact congrArg _ (ih fun c hc => hp c (mem_cons_of_mem _ hc))
  | skip _ _ | take _ _ => exact absurd (hp '%' mem_cons_self) (by decide)

theorem LikeMatches.suffix_of_append {s q suf : Text} (h : LikeMatches s (q ++ suf))
    (hsuf : ∀ c ∈ suf, isWildcard c = false) : suf <:+ s := by
  generalize hp : q ++ suf = p at h
  induction h generalizing q with
  | nil =>
    obtain ⟨-, rfl⟩ := append_eq_nil_iff.mp hp
    exact suffix_rfl
  | @any c s p h ih =>
    cases q with
    | nil =>
      obtain rfl : suf = _ := hp
      exact (h.any).eq_of_fixed hsuf ▸ suffix_rfl
    | cons d q => exact (ih (cons.inj hp).2).trans (suffix_cons ..)
  | @byte c s p h ih =>
    cases q with
    | nil =>
      obtain rfl : suf = _ := hp
      exact (h.byte).eq_of_fixed hsuf ▸ suffix_rfl
    | cons d q => exact (ih (cons.inj hp).2).trans (suffix_cons ..)
  | @skip s p h ih =>
    cases q with
    | nil =>
      obtain rfl : suf = _ := hp
      exact h.skip.eq_of_fixed hsuf ▸ suffix_rfl
    | cons d q => exact ih (cons.inj hp).2
  | take _ ih => exact (ih hp).trans (suffix_cons ..)

theorem LikeMatches.fixedSuffix (h : LikeMatches s p) : likeFixedSuffix p <:+ s := by
  obtain ⟨q, hq⟩ := takeWhile_prefix (fun c => !isWildcard c)
  have hsplit : q.reverse ++ likeFixedSuffix p = p := by
    rw [likeFixedSuffix, likeFixedPrefix, ← reverse_append, hq, reverse_reverse]
  apply LikeMatches.suffix_of_append
  · rwa [hsplit]
  · intro c hc
    rw [likeFixedSuffix, mem_reverse] at hc
    have hfixed := mem_takeWhile_imp hc
    rwa [Bool.not_eq_true'] at hfixed

/-! ## The rounds of the loop -/

/-- A state of the loop: the rest of the subject, the rest of the pattern, and where the last `%`
lets the match start again. -/
structure LikeState where
  s : Text
  p : Text
  star : Option (Text × Text)

/-- The new start behind the last `%`. -/
def LikeState.retry : Option (Text × Text) → Option LikeState
  | some (_ :: mark, afterStar) => some ⟨mark, afterStar, some (mark, afterStar)⟩
  | _ => none

/-- A round on the byte `c` of the subject; `none` where the loop returns `false`. -/
def likeRound (c : Char) (s p : Text) (star : Option (Text × Text)) : Option LikeState :=
  match p with
  | [] => LikeState.retry star
  | d :: p' =>
    if d = '_' || d = c then some ⟨s, p', star⟩
    else if d = '%' then some ⟨c :: s, p', some (c :: s, p')⟩
    else LikeState.retry star

/-- The loop of `like_match`, without an answer if it has not ended after so many rounds. -/
def likeRun : Nat → LikeState → Option Bool
  | 0, _ => none
  | fuel + 1, st =>
    match st.s with
    | [] => some (st.p.all fun c => c = '%')
    | c :: s => (likeRound c s st.p st.star).elim (some false) (likeRun fuel)

variable {star : Option (Text × Text)} {st : LikeState}

/-- What a new start is. -/
theorem LikeState.retry_eq_some
    (h : retry star = some st) : ∃ m mark afterStar, star = some (m :: mark, afterStar) ∧
      st = ⟨mark, afterStar, some (mark, afterStar)⟩ := by
  rcases star with _ | ⟨_ | ⟨m, mark⟩, afterStar⟩
  · cases h
  · cases h
  · exact ⟨m, mark, afterStar, rfl, (some.inj h).symm⟩

variable {c : Char} {s p : Text}

/-- **What a round does**: a byte is matched, a `%` is passed, or there is a new start. -/
theorem likeRound_cases (h : likeRound c s p star = some st) :
    (∃ d p', p = d :: p' ∧ (d = '_' ∨ d = c) ∧ st = ⟨s, p', star⟩) ∨
    (∃ p', p = '%' :: p' ∧ st = ⟨c :: s, p', some (c :: s, p')⟩) ∨
    (∃ m mark afterStar, star = some (m :: mark, afterStar) ∧
      st = ⟨mark, afterStar, some (mark, afterStar)⟩) := by
  cases p with
  | nil => exact .inr (.inr (LikeState.retry_eq_some h))
  | cons d p =>
    simp only [likeRound] at h
    split at h
    · next hd => exact .inl ⟨d, p, rfl, by simpa using hd, (some.inj h).symm⟩
    · split at h
      · next hd => exact .inr (.inl ⟨p, by rw [hd], (some.inj h).symm⟩)
      · exact .inr (.inr (LikeState.retry_eq_some h))

/-- A round of `likeLoop`. -/
theorem likeLoop_cons (fuel : Nat) (c : Char) (s p : Text) (star : Option (Text × Text)) :
    likeLoop (fuel + 1) (c :: s) p star =
      (likeRound c s p star).elim false fun st => likeLoop fuel st.s st.p st.star := by
  rcases star with _ | ⟨_ | ⟨m, mark⟩, afterStar⟩ <;> cases p with
  | nil => rfl
  | cons d p =>
    simp only [likeLoop, likeRound]
    split
    · rfl
    · split <;> rfl

/-- An answer of the loop is that of `likeLoop`. -/
theorem likeLoop_of_likeRun (fuel : Nat) : ∀ {st : LikeState} {b : Bool},
    likeRun fuel st = some b → likeLoop fuel st.s st.p st.star = b := by
  induction fuel with
  | zero =>
    intro st b h
    cases h
  | succ fuel ih =>
    rintro ⟨_ | ⟨c, s⟩, p, star⟩ b h
    · exact some.inj h
    · rw [likeLoop_cons]
      simp only [likeRun] at h
      cases hround : likeRound c s p star with
      | none =>
        rw [hround] at h
        exact some.inj h
      | some st =>
        rw [hround] at h
        exact ih h

/-! ## The loop ends -/

/-- What gets smaller in every round.  A new start gives up a byte of the mark, and then the
subject is at most `n` bytes long; a new `%` leaves less of the pattern behind it. -/
def LikeState.measure (n : Nat) (st : LikeState) : Nat :=
  match st.star with
  | none => n * (n + 1) + st.s.length + st.p.length
  | some (mark, afterStar) => mark.length * (n + 1) + st.s.length + afterStar.length

/-- The subject is not longer than the text at the mark, nor the pattern than that behind the
last `%`. -/
def LikeState.Within (n : Nat) (st : LikeState) : Prop :=
  st.s.length ≤ n ∧ ∀ mark afterStar, st.star = some (mark, afterStar) →
    st.s.length ≤ mark.length ∧ mark.length ≤ n ∧ st.p.length ≤ afterStar.length

/-- A round keeps the bounds and makes the measure smaller. -/
theorem likeRound_measure {n : Nat} (h : LikeState.Within n ⟨c :: s, p, star⟩)
    (hround : likeRound c s p star = some st) :
    st.Within n ∧ st.measure n < LikeState.measure n ⟨c :: s, p, star⟩ := by
  obtain ⟨hn, hstar⟩ := h
  rcases likeRound_cases hround with ⟨d, p', rfl, -, rfl⟩ | ⟨p', rfl, rfl⟩ |
    ⟨m, mark, afterStar, rfl, rfl⟩
  · refine ⟨⟨le_of_succ_le hn, fun mark after heq => ?_⟩, ?_⟩
    · obtain ⟨hs, hm, hp⟩ := hstar mark after heq
      exact ⟨le_of_succ_le hs, hm, le_of_succ_le hp⟩
    · rcases star with _ | ⟨mark, after⟩ <;>
      · simp only [LikeState.measure, length_cons]
        omega
  · refine ⟨⟨hn, fun mark after heq => ?_⟩, ?_⟩
    · cases heq
      exact ⟨le_rfl, hn, le_rfl⟩
    · rcases star with _ | ⟨mark, after⟩
      · have hmul : (s.length + 1) * (n + 1) ≤ n * (n + 1) := mul_le_mul_right _ hn
        simp only [LikeState.measure, length_cons]
        omega
      · obtain ⟨hs, hm, hp⟩ := hstar mark after rfl
        rw [length_cons] at hs hp
        have hmul : (s.length + 1) * (n + 1) ≤ mark.length * (n + 1) := mul_le_mul_right _ hs
        simp only [LikeState.measure, length_cons]
        omega
  · obtain ⟨hs, hm, hp⟩ := hstar _ _ rfl
    rw [length_cons] at hs hm
    refine ⟨⟨by dsimp only; omega, fun mark' after' heq => ?_⟩, ?_⟩
    · cases heq
      exact ⟨le_rfl, by omega, le_rfl⟩
    · have hmul : (mark.length + 1) * (n + 1) = mark.length * (n + 1) + (n + 1) :=
        succ_mul _ _
      simp only [LikeState.measure, length_cons]
      omega

theorem likeRun_of_measure {n : Nat} (fuel : Nat) : ∀ {st : LikeState}, st.Within n →
    st.measure n < fuel → ∃ b, likeRun fuel st = some b := by
  induction fuel with
  | zero => exact fun _ h => absurd h (not_lt_zero _)
  | succ fuel ih =>
    rintro ⟨_ | ⟨c, s⟩, p, star⟩ hst hlt
    · exact ⟨_, rfl⟩
    · cases hround : likeRound c s p star with
      | none => exact ⟨false, by simp only [likeRun, hround, elim_none]⟩
      | some st' =>
        obtain ⟨hst', hless⟩ := likeRound_measure hst hround
        obtain ⟨b, hb⟩ := ih hst' (by omega)
        exact ⟨b, by simp only [likeRun, hround, elim_some, hb]⟩

/-- **`like_match` ends.** -/
theorem likeRun_ends (s p : Text) : ∃ fuel, likeRun fuel ⟨s, p, none⟩ = some (likeMatch s p) := by
  have hwithin : LikeState.Within s.length ⟨s, p, none⟩ :=
    ⟨le_rfl, fun _ _ h => absurd h (some_ne_none _).symm⟩
  have hmul : s.length * (s.length + 1) ≤ s.length * (s.length + p.length + 1) :=
    mul_le_mul_left _ (by omega)
  have hfuel : LikeState.measure s.length ⟨s, p, none⟩ <
      (s.length + 1) * (s.length + p.length + 1) + 1 := by
    rw [LikeState.measure, succ_mul]
    dsimp only
    omega
  obtain ⟨b, hb⟩ := likeRun_of_measure _ hwithin hfuel
  refine ⟨_, hb.trans (congrArg some ?_)⟩
  exact (likeLoop_of_likeRun _ hb).symm

/-! ## Subjects without a wildcard byte -/

/-- What has been matched behind the last `%` has no further `%` in the pattern. -/
def LikeState.Stands (st : LikeState) : Prop :=
  ∀ mark afterStar, st.star = some (mark, afterStar) → '%' ∉ mark ∧ st.s <:+ mark ∧
    ∃ q, afterStar = q ++ st.p ∧ '%' ∉ q ∧ mark.length = q.length + st.s.length

/-- There is a match from where the loop is, or from a new start. -/
def LikeState.Matches (st : LikeState) : Prop :=
  LikeMatches st.s st.p ∨ ∃ mark afterStar t, st.star = some (mark, afterStar) ∧ t <:+ mark ∧
    t.length < mark.length ∧ LikeMatches t afterStar

/-- The part of a pattern without `%` takes as many bytes as it has. -/
theorem LikeMatches.drop_append {q : Text} (hq : '%' ∉ q) : ∀ {t : Text},
    LikeMatches t (q ++ p) → ∃ t', t' <:+ t ∧ t.length = q.length + t'.length ∧
      LikeMatches t' p := by
  induction q with
  | nil => exact fun {t} h => ⟨t, suffix_rfl, (zero_add _).symm, h⟩
  | cons d q ih =>
    intro t h
    have hd : d ≠ '%' := fun heq => hq (heq ▸ mem_cons_self)
    have htail : ∃ c s, t = c :: s ∧ LikeMatches s (q ++ p) := by
      cases h with
      | any h => exact ⟨_, _, rfl, h⟩
      | byte h => exact ⟨_, _, rfl, h⟩
      | skip h => exact absurd rfl hd
      | take h => exact absurd rfl hd
    obtain ⟨c, s, rfl, hs⟩ := htail
    obtain ⟨t', hsuf, hlen, hmatch⟩ := ih (fun hmem => hq (mem_cons_of_mem _ hmem)) hs
    refine ⟨t', hsuf.trans (suffix_cons ..), ?_, hmatch⟩
    rw [length_cons, length_cons]
    omega

/-- A `%` may take more. -/
theorem LikeMatches.extend {t : Text} (hst : t <:+ s) (h : LikeMatches t ('%' :: p)) :
    LikeMatches s ('%' :: p) := by
  obtain ⟨u, rfl⟩ := hst
  induction u with
  | nil => exact h
  | cons c u ih => exact .take ih

theorem LikeMatches.percent_iff : LikeMatches s ('%' :: p) ↔ ∃ t, t <:+ s ∧ LikeMatches t p := by
  constructor
  · intro h
    induction s with
    | nil =>
      cases h with
      | skip h => exact ⟨[], suffix_rfl, h⟩
    | cons c s ih =>
      cases h with
      | byte h => exact ⟨s, suffix_cons .., h⟩
      | skip h => exact ⟨_, suffix_rfl, h⟩
      | take h =>
        obtain ⟨t, hsuf, ht⟩ := ih h
        exact ⟨t, hsuf.trans (suffix_cons ..), ht⟩
  · rintro ⟨t, hsuf, ht⟩
    exact ht.of_suffix hsuf

theorem likeMatches_nil_iff : LikeMatches [] p ↔ (p.all fun c => c = '%') := by
  refine ⟨fun h => ?_, likeMatches_percents⟩
  generalize hs : ([] : Text) = s at h
  induction h with
  | nil => rfl
  | any => cases hs
  | byte => cases hs
  | skip h ih => exact (Bool.and_eq_true _ _).mpr ⟨rfl, ih hs⟩
  | take => cases hs

/-- The bytes that are matched are those of the pattern, or any for `_`. -/
theorem LikeMatches.tail {d : Char} (hd : d ≠ '%')
    (h : LikeMatches (c :: s) (d :: p)) : (d = '_' ∨ d = c) ∧ LikeMatches s p := by
  cases h with
  | any h => exact ⟨.inl rfl, h⟩
  | byte h => exact ⟨.inr rfl, h⟩
  | skip h => exact absurd rfl hd
  | take h => exact absurd rfl hd

/-- A match from a new start is one of the next `%`: what it needs is further back. -/
theorem LikeState.Stands.percent {p' : Text} (hst : LikeState.Stands ⟨s, '%' :: p', star⟩)
    (h : LikeState.Matches ⟨s, '%' :: p', star⟩) : LikeMatches s ('%' :: p') := by
  rcases h with h | ⟨mark, afterStar, t, rfl, htm, hlt, hmatch⟩
  · exact h
  · obtain ⟨-, hsm, q, hafter, hq, hlen⟩ := hst mark afterStar rfl
    dsimp only at hafter hlen
    rw [hafter] at hmatch
    obtain ⟨t', ht', htlen, hmatch'⟩ := hmatch.drop_append hq
    refine hmatch'.extend (suffix_of_suffix_length_le (ht'.trans htm) hsm ?_)
    omega

/-- A round keeps the place of a match. -/
theorem likeRound_matches (hc : c ≠ '%') (hs : '%' ∉ s) (hst : LikeState.Stands ⟨c :: s, p, star⟩)
    (h : LikeState.Matches ⟨c :: s, p, star⟩) :
    ∃ st, likeRound c s p star = some st ∧ '%' ∉ st.s ∧ st.Stands ∧ st.Matches := by
  -- a new start, if the loop cannot go on
  have hretry : ¬ LikeMatches (c :: s) p →
      ∃ st, LikeState.retry star = some st ∧ '%' ∉ st.s ∧ st.Stands ∧ st.Matches := by
    intro hno
    obtain ⟨mark, afterStar, t, hstar, htm, hlt, hmatch⟩ := h.resolve_left hno
    obtain ⟨hmark, -, -⟩ := hst mark afterStar hstar
    dsimp only at hstar
    cases mark with
    | nil => exact absurd hlt (not_lt_zero _)
    | cons m mark =>
      have hmark' : '%' ∉ mark := fun hmem => hmark (mem_cons_of_mem _ hmem)
      refine ⟨⟨mark, afterStar, some (mark, afterStar)⟩, by rw [hstar]; rfl, hmark', ?_, ?_⟩
      · intro mark' afterStar' heq
        cases heq
        exact ⟨hmark', suffix_rfl, [], rfl, not_mem_nil, (zero_add _).symm⟩
      · have htm' : t <:+ mark := by
          rcases suffix_cons_iff.mp htm with rfl | htm
          · exact absurd hlt (lt_irrefl _)
          · exact htm
        rcases lt_or_eq_of_le htm'.length_le with hlt | heq
        · exact .inr ⟨mark, afterStar, t, rfl, htm', hlt, hmatch⟩
        · exact .inl (htm'.eq_of_length heq ▸ hmatch)
  cases p with
  | nil => exact hretry fun hmatch => by cases hmatch
  | cons d p =>
    simp only [likeRound]
    split
    · next hd =>
      -- the byte is matched, and the pattern has no `%` here
      have hd' : d = '_' ∨ d = c := by simpa using hd
      have hne : d ≠ '%' := by
        rintro rfl
        rcases hd' with hd' | hd'
        · exact absurd hd' (by decide)
        · exact hc hd'.symm
      refine ⟨_, rfl, hs, fun mark afterStar heq => ?_, ?_⟩
      · obtain ⟨hmark, hsuf, q, rfl, hq, hlen⟩ := hst mark afterStar heq
        refine ⟨hmark, (suffix_cons ..).trans hsuf, q ++ [d], ?_, ?_, ?_⟩
        · rw [append_assoc, singleton_append]
        · rw [mem_append, mem_singleton]
          exact fun hmem => hmem.elim hq (hne.symm)
        · rw [length_append, hlen]
          simp only [length_cons, length_nil]
          omega
      · exact h.imp (fun hmatch => (hmatch.tail hne).2) id
    · next hd =>
      split
      · next hd =>
        subst hd
        have hmatch := hst.percent h
        have hs' : '%' ∉ c :: s := fun hmem => (mem_cons.mp hmem).elim (hc ·.symm) hs
        refine ⟨_, rfl, hs', fun mark afterStar heq => ?_, ?_⟩
        · cases heq
          exact ⟨hs', suffix_rfl, [], rfl, not_mem_nil, (zero_add _).symm⟩
        · obtain ⟨t, htm, ht⟩ := LikeMatches.percent_iff.mp hmatch
          rcases lt_or_eq_of_le htm.length_le with hlt | heq
          · exact .inr ⟨_, _, t, rfl, htm, hlt, ht⟩
          · exact .inl (htm.eq_of_length heq ▸ ht)
      · next hpercent =>
        exact hretry fun hmatch => hd (by simpa using (hmatch.tail hpercent).1)

/-- A match is found. -/
theorem likeRun_matches (fuel : Nat) : ∀ {st : LikeState} {b : Bool}, '%' ∉ st.s → st.Stands →
    st.Matches → likeRun fuel st = some b → b := by
  induction fuel with
  | zero =>
    intro st b _ _ _ h
    cases h
  | succ fuel ih =>
    rintro ⟨_ | ⟨c, s⟩, p, star⟩ b hs hst hmatch h
    · rw [← some.inj h]
      -- at the end of the subject there is no later start
      rcases hmatch with hmatch | ⟨mark, afterStar, t, hstar, htm, hlt, hmatch⟩
      · exact likeMatches_nil_iff.mp hmatch
      · obtain ⟨-, -, q, hafter, hq, hlen⟩ := hst mark afterStar hstar
        rw [hafter] at hmatch
        obtain ⟨t', -, htlen, -⟩ := hmatch.drop_append hq
        rw [length_nil] at hlen
        omega
    · rw [mem_cons, not_or] at hs
      obtain ⟨st, hround, hs', hst', hmatch'⟩ :=
        likeRound_matches (Ne.symm hs.1) hs.2 hst hmatch
      simp only [likeRun, hround] at h
      exact ih hs' hst' hmatch' h

/-- A subject without `%` is matched as it should be. -/
theorem likeMatch_iff_of_free (hs : '%' ∉ s) (p : Text) : likeMatch s p ↔ LikeMatches s p := by
  refine ⟨likeMatch_sound, fun hmatch => ?_⟩
  obtain ⟨fuel, hrun⟩ := likeRun_ends s p
  exact likeRun_matches fuel hs (fun _ _ h => absurd h (some_ne_none _).symm) (.inl hmatch) hrun

/-! ## Subjects with a `%` -/

theorem likeMatches_underscores : ∀ {s t : Text}, LikeMatches t p →
    LikeMatches (s ++ t) (replicate s.length '_' ++ p)
  | [], _, h => h
  | _ :: _, _, h => .any (likeMatches_underscores h)

/-- Bytes that are matched by `_`. -/
theorem likeLoop_underscores (p : Text) (star : Option (Text × Text)) (fuel : Nat) :
    ∀ s t : Text, likeLoop (fuel + s.length) (s ++ t) (replicate s.length '_' ++ p) star =
      likeLoop fuel t p star
  | [], _ => rfl
  | c :: s, t => (likeLoop_cons _ c (s ++ t) _ star).trans (likeLoop_underscores p star fuel s t)

/-- The pattern that is `_` for every byte, with a `%` in front of a `%` of the subject. -/
def misread (u v : Text) : Text :=
  List.replicate u.length '_' ++ '%' :: List.replicate (v.length + 1) '_'

theorem likeMatches_misread (u v : Text) : LikeMatches (u ++ '%' :: v) (misread u v) := by
  have hv : LikeMatches ('%' :: v ++ []) (replicate ('%' :: v).length '_' ++ []) :=
    likeMatches_underscores .nil
  rw [append_nil, append_nil] at hv
  exact likeMatches_underscores (.skip hv)

/-- There, the `%` of the pattern is taken for that of the subject. -/
theorem likeMatch_misread (u v : Text) : likeMatch (u ++ '%' :: v) (misread u v) = false := by
  obtain ⟨k, hk⟩ : ∃ k, ((u ++ '%' :: v).length + 1) *
      ((u ++ '%' :: v).length + (misread u v).length + 1) + 1 =
        k + 1 + v.length + 1 + u.length := by
    have hlen : (u ++ '%' :: v).length = u.length + (v.length + 1) := length_append
    have hle : (u ++ '%' :: v).length + (misread u v).length + 1 ≤
        ((u ++ '%' :: v).length + 1) * ((u ++ '%' :: v).length + (misread u v).length + 1) :=
      Nat.le_mul_of_pos_left _ (Nat.succ_pos _)
    refine ⟨((u ++ '%' :: v).length + 1) * ((u ++ '%' :: v).length + (misread u v).length + 1) -
      (v.length + 1 + u.length), ?_⟩
    omega
  have hv := likeLoop_underscores ['_'] none (k + 1) v []
  rw [append_nil, ← replicate_succ'] at hv
  rw [likeMatch, hk, misread, likeLoop_underscores]
  exact hv

/-- **Which subjects are matched as they should be**, with every pattern. -/
theorem likeMatch_exact_iff (s : Text) :
    (∀ p, (∃ fuel, likeRun fuel ⟨s, p, none⟩ = some (likeMatch s p)) ∧
      (likeMatch s p = true ↔ LikeMatches s p)) ↔ '%' ∉ s := by
  constructor
  · intro h hmem
    obtain ⟨u, v, rfl⟩ := append_of_mem hmem
    have hmatch := (h (misread u v)).2.mpr (likeMatches_misread u v)
    rw [likeMatch_misread] at hmatch
    cases hmatch
  · exact fun hs p => ⟨likeRun_ends s p, likeMatch_iff_of_free hs p⟩

/-- The pattern `%` does not match the string `%a`. -/
theorem percent_rejects_percent :
    likeMatch ['%', 'a'] ['%'] = false ∧ LikeMatches ['%', 'a'] ['%'] :=
  ⟨by decide, .take (.take (.skip .nil))⟩

end PipeANN.Dsl
