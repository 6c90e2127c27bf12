import Mathlib.Order.Nat
import Mathlib.Data.List.Range
import PipeANN.SortedLists

/-! # Selector trees

A filter is a tree of `AndSelector`, `OrSelector` and `NotSelector` over leaves
(`selector.h`).  A search uses it in two ways that may be imprecise: `pre_filter`
(not strict) returns a list of candidate ids, and `is_member_approx`, after
`prepare_in_filter`, tests ids one by one.  Both are meant to accept every vector
that satisfies `is_member`; what they accept too much is filtered out later.

`AndSelector::pre_filter` skips the branches whose estimated selectivity is high,
so its list may be too large.  `NotSelector` complements the list of its child: a
child's list that is too large makes the complement too small.  So both promises
break exactly when a branch is skipped below an odd number of negations;
`complete_iff_noNegatedSkip` makes this precise.

A leaf is any selector whose `pre_filter` is the ascending list of its matching
ids and whose `is_member_approx` rejects no member.  A selector tree keeps its
leaves' data in it, for the query at hand.
-/
namespace PipeANN

open List Function SortedLists

/-- A selector tree.  An `AndSelector` has a first branch; every branch of it is
stored with its selectivity. -/
inductive Selector (σ ℓ : Type) where
  | leaf (d : ℓ)
  | and (first : Selector σ ℓ) (selectivity : σ) (rest : List (Selector σ ℓ × σ))
  | or (branches : List (Selector σ ℓ))
  | not (child : Selector σ ℓ)

/-- The arithmetic on selectivities (`double`), left open.  `high` is the test
`> kHighSelectivityThreshold`. -/
structure SelectivityOps (σ : Type) where
  zero : σ
  one : σ
  add : σ → σ → σ
  mul : σ → σ → σ
  sub : σ → σ → σ
  lt : σ → σ → Bool
  high : σ → Bool

/-- A leaf of a collection of `n` vectors, for one query. -/
structure FilterLeaf (n : Nat) where
  isMember : Nat → Bool
  isMemberApprox : Nat → Bool
  approx_of_member : ∀ id, isMember id = true → isMemberApprox id = true

/-- A leaf's `pre_filter`: the matching ids, ascending. -/
def FilterLeaf.preFilter {n : Nat} (d : FilterLeaf n) : List Nat := (List.range n).filter d.isMember

/-- The loops of `NotSelector::pre_filter` from `start_id` on. -/
def complementFrom (n start : Nat) : List Nat → List Nat
  | [] => List.range' start (n - start)
  | excludeId :: rest =>
    List.range' start (excludeId - start) ++ complementFrom n (excludeId + 1) rest

namespace Selector
variable {σ ℓ : Type}

/-- Induction over a selector tree, with the hypothesis for every branch. -/
@[elab_as_elim, induction_eliminator]
theorem ind {P : Selector σ ℓ → Prop} (leaf : ∀ d, P (.leaf d))
    (and : ∀ first x rest, P first → (∀ b ∈ rest, P b.1) → P (.and first x rest))
    (or : ∀ branches, (∀ b ∈ branches, P b) → P (.or branches))
    (not : ∀ child, P child → P (.not child)) : ∀ s, P s
  | .leaf d => leaf d
  | .and first x rest => and first x rest (ind leaf and or not first) (indAnd rest)
  | .or branches => or branches (indOr branches)
  | .not child => not child (ind leaf and or not child)
where
  indAnd : ∀ (rest : List (Selector σ ℓ × σ)), ∀ b ∈ rest, P b.1
    | (s, _) :: rest, b, hb =>
      (mem_cons.mp hb).elim (fun h => h ▸ ind leaf and or not s) (indAnd rest b)
  indOr : ∀ (branches : List (Selector σ ℓ)), ∀ b ∈ branches, P b
    | s :: rest, b, hb =>
      (mem_cons.mp hb).elim (fun h => h ▸ ind leaf and or not s) (indOr rest b)

/-! ## The operations of a tree -/

section Leaves
variable {n : Nat}

/-- `is_member` on the vector's stored attributes. -/
def isMember (id : Nat) : Selector σ (FilterLeaf n) → Bool
  | .leaf d => d.isMember id
  | .and first _ rest => isMember id first && isMemberAll rest
  | .or branches => isMemberAny branches
  | .not child => !isMember id child
where
  isMemberAll : List (Selector σ (FilterLeaf n) × σ) → Bool
    | [] => true
    | (s, _) :: rest => isMember id s && isMemberAll rest
  isMemberAny : List (Selector σ (FilterLeaf n)) → Bool
    | [] => false
    | s :: rest => isMember id s || isMemberAny rest

/-- `pre_filter`. -/
def preFilter (ops : SelectivityOps σ) (strict : Bool) : Selector σ (FilterLeaf n) → List Nat
  | .leaf d => d.preFilter
  | .and first _ rest => preFilterAnd (preFilter ops strict first) rest
  | .or branches => preFilterOr [] branches
  | .not child => complementFrom n 0 (preFilter ops strict child)
where
  preFilterAnd : List Nat → List (Selector σ (FilterLeaf n) × σ) → List Nat
    | ret, [] => ret
    | ret, (s, x) :: rest =>
      if strict || !ops.high x then preFilterAnd (inter ret (preFilter ops strict s)) rest
      else preFilterAnd ret rest
  preFilterOr : List Nat → List (Selector σ (FilterLeaf n)) → List Nat
    | ret, [] => ret
    | ret, s :: rest => preFilterOr (union ret (preFilter ops strict s)) rest

/-- `is_member_approx` after `prepare_in_filter`: the leaves answer from memory, and
a `NotSelector` searches the list its `prepare_in_filter` stored, which is its own
`pre_filter`. -/
def isMemberApprox (ops : SelectivityOps σ) (id : Nat) : Selector σ (FilterLeaf n) → Bool
  | .leaf d => d.isMemberApprox id
  | .and first _ rest => isMemberApprox ops id first && approxAll rest
  | .or branches => approxAny branches
  | .not child => binarySearch (complementFrom n 0 (preFilter ops false child)) id
where
  approxAll : List (Selector σ (FilterLeaf n) × σ) → Bool
    | [] => true
    | (s, _) :: rest => isMemberApprox ops id s && approxAll rest
  approxAny : List (Selector σ (FilterLeaf n)) → Bool
    | [] => false
    | s :: rest => isMemberApprox ops id s || approxAny rest

end Leaves

/-- `estimate_selectivity`: the estimate, and the tree with the branches of every
`AndSelector` annotated and sorted from low to high. -/
def estimateSelectivity (ops : SelectivityOps σ) (leafSel : ℓ → σ) :
    Selector σ ℓ → σ × Selector σ ℓ
  | .leaf d => (leafSel d, .leaf d)
  | .and first _ rest =>
    let (x, first') := estimateSelectivity ops leafSel first
    let (total, rest') := estimateAnd (ops.mul ops.one x) rest
    let sorted := ((first', x) :: rest').insertionSort (fun a b => !ops.lt b.2 a.2)
    (total, match sorted with
      | (s, y) :: more => .and s y more
      | [] => .and first' x rest')
  | .or branches =>
    let (total, branches') := estimateOr ops.zero branches
    (total, .or branches')
  | .not child =>
    let (x, child') := estimateSelectivity ops leafSel child
    (ops.sub ops.one x, .not child')
where
  estimateAnd : σ → List (Selector σ ℓ × σ) → σ × List (Selector σ ℓ × σ)
    | acc, [] => (acc, [])
    | acc, (s, _) :: rest =>
      let (x, s') := estimateSelectivity ops leafSel s
      let (total, rest') := estimateAnd (ops.mul acc x) rest
      (total, (s', x) :: rest')
  estimateOr : σ → List (Selector σ ℓ) → σ × List (Selector σ ℓ)
    | acc, [] => (acc, [])
    | acc, s :: rest =>
      let (x, s') := estimateSelectivity ops leafSel s
      let (total, rest') := estimateOr (ops.add acc x) rest
      (total, s' :: rest')

/-- What the search relies on: every vector that satisfies the filter is in the
list of the non-strict `pre_filter`, and `is_member_approx` accepts it. -/
def Complete (ops : SelectivityOps σ) {n : Nat} (s : Selector σ (FilterLeaf n)) : Prop :=
  ∀ id < n, s.isMember id = true →
    id ∈ s.preFilter ops false ∧ s.isMemberApprox ops id = true

/-! ## A vector lost below a negation -/

/-- Selectivities in percent; above `10` is high. -/
def percent : SelectivityOps Nat where
  zero := 0
  one := 100
  add := (· + ·)
  mul := fun a b => a * b / 100
  sub := (· - ·)
  lt := fun a b => decide (a < b)
  high := fun a => decide (10 < a)

/-- An exact leaf. -/
def exactLeaf (n : Nat) (p : Nat → Bool) : FilterLeaf n := ⟨p, p, fun _ h => h⟩

/-- `not (A and B)` over four vectors, where `A` holds of vectors `0` and `1` and is
estimated at 5 percent, `B` of `1` and `2` and is estimated at 50 percent. -/
def negatedAnd : Selector Nat (FilterLeaf 4) :=
  .not (.and (.leaf (exactLeaf 4 (fun i => i < 2))) 100
    [(.leaf (exactLeaf 4 (fun i => i = 1 || i = 2)), 100)])

/-- The estimates of the two leaves. -/
def negatedAndEstimate (d : FilterLeaf 4) : Nat := if d.isMember 0 then 5 else 50

/-- **A matching vector can be lost**: vector `0` satisfies `not (A and B)`, but the
non-strict list, which skips `B`, does not have it, and `is_member_approx` rejects
it. -/
theorem negatedAnd_not_complete :
    ¬ (estimateSelectivity percent negatedAndEstimate negatedAnd).2.Complete percent := by
  intro h
  have := (h 0 (by decide) (by decide)).1
  exact absurd this (by decide)

/-! ## What the operations compute -/

theorem ascending_range' (a k : Nat) : Ascending (range' a k) := pairwise_lt_range'

/-- **The complement** of an ascending list of ids from `start` on. -/
theorem complementFrom_spec (n : Nat) : ∀ (l : List Nat) (start : Nat), Ascending l →
    (∀ e ∈ l, start ≤ e ∧ e < n) →
    Ascending (complementFrom n start l) ∧
      ∀ x, x ∈ complementFrom n start l ↔ start ≤ x ∧ x < n ∧ x ∉ l
  | [], start, _, _ => by
    refine ⟨ascending_range' _ _, fun x => ?_⟩
    rw [complementFrom, mem_range'_1]
    simp only [not_mem_nil, not_false_eq_true, and_true]
    omega
  | e :: l, start, hl, hb => by
    obtain ⟨he, hen⟩ := hb e mem_cons_self
    obtain ⟨h1, h2⟩ := complementFrom_spec n l (e + 1) hl.tail fun e' he' =>
      ⟨hl.head_lt he', (hb e' (mem_cons_of_mem _ he')).2⟩
    rw [complementFrom]
    refine ⟨pairwise_append.mpr ⟨ascending_range' _ _, h1, fun a ha b hb' => ?_⟩, fun x => ?_⟩
    · have := (mem_range'_1.mp ha).2
      have := ((h2 b).mp hb').1
      omega
    · have hlt : x ∈ l → e < x := hl.head_lt
      grind

section Leaves
variable {n : Nat} {ops : SelectivityOps σ}

variable {id : Nat} {f : Selector σ (FilterLeaf n)} {x : σ}
    {rest : List (Selector σ (FilterLeaf n) × σ)}

theorem isMember_and : isMember id (.and f x rest) ↔
      isMember id f ∧ ∀ b ∈ rest, isMember id b.1 := by
  rw [isMember, Bool.and_eq_true]
  refine and_congr_right fun _ => ?_
  induction rest <;> simp [isMember.isMemberAll, *]

variable {bs : List (Selector σ (FilterLeaf n))}

theorem isMember_or : isMember id (.or bs) ↔ ∃ b ∈ bs, isMember id b := by
  rw [isMember]
  induction bs <;> simp [isMember.isMemberAny, *]

theorem approx_and : isMemberApprox ops id (.and f x rest) ↔
      isMemberApprox ops id f ∧ ∀ b ∈ rest, isMemberApprox ops id b.1 := by
  rw [isMemberApprox, Bool.and_eq_true]
  refine and_congr_right fun _ => ?_
  induction rest <;> simp [isMemberApprox.approxAll, *]

theorem approx_or : isMemberApprox ops id (.or bs) ↔ ∃ b ∈ bs, isMemberApprox ops id b := by
  rw [isMemberApprox]
  induction bs <;> simp [isMemberApprox.approxAny, *]

/-- The lists of ids in play: ascending, and of existing vectors. -/
def IdList (n : Nat) (l : List Nat) : Prop := Ascending l ∧ ∀ x ∈ l, x < n

variable (ops) (strict : Bool)

/-- The loop of `AndSelector::pre_filter`, over branches with proper lists. -/
theorem preFilterAnd_spec : ∀ (rest : List (Selector σ (FilterLeaf n) × σ)) (ret : List Nat),
    IdList n ret → (∀ b ∈ rest, IdList n (b.1.preFilter ops strict)) →
    IdList n (preFilter.preFilterAnd ops strict ret rest) ∧
      ∀ x, x ∈ preFilter.preFilterAnd ops strict ret rest ↔ x ∈ ret ∧
        ∀ b ∈ rest, (strict || !ops.high b.2) → x ∈ b.1.preFilter ops strict
  | [], ret, hret, _ => ⟨hret, fun x => by simp [preFilter.preFilterAnd]⟩
  | (s, y) :: rest, ret, hret, hb => by
    have hrest : ∀ b ∈ rest, IdList n (b.1.preFilter ops strict) := fun b h =>
      hb b (mem_cons_of_mem _ h)
    rw [preFilter.preFilterAnd]
    by_cases hy : (strict || !ops.high y)
    · rw [if_pos hy]
      have hs := hb (s, y) mem_cons_self
      obtain ⟨h1, h2⟩ := inter_spec between_lt hret.1 hs.1
      obtain ⟨h3, h4⟩ := preFilterAnd_spec rest (inter ret (s.preFilter ops strict))
        ⟨h1, fun x hx => hret.2 x ((h2 x).mp hx).1⟩ hrest
      refine ⟨h3, fun x => ?_⟩
      rw [h4, h2, forall_mem_cons, and_assoc]
      simp [hy]
    · rw [if_neg hy]
      obtain ⟨h3, h4⟩ := preFilterAnd_spec rest ret hret hrest
      refine ⟨h3, fun x => ?_⟩
      rw [h4, forall_mem_cons]
      simp [hy]

/-- The loop of `OrSelector::pre_filter`. -/
theorem preFilterOr_spec : ∀ (bs : List (Selector σ (FilterLeaf n))) (ret : List Nat),
    IdList n ret → (∀ b ∈ bs, IdList n (b.preFilter ops strict)) →
    IdList n (preFilter.preFilterOr ops strict ret bs) ∧
      ∀ x, x ∈ preFilter.preFilterOr ops strict ret bs ↔
        x ∈ ret ∨ ∃ b ∈ bs, x ∈ b.preFilter ops strict
  | [], ret, hret, _ => ⟨hret, fun x => by simp [preFilter.preFilterOr]⟩
  | s :: bs, ret, hret, hb => by
    have hs := hb s mem_cons_self
    obtain ⟨h1, h2⟩ := union_spec between_lt hret.1 hs.1
    have hret' : IdList n (union ret (s.preFilter ops strict)) :=
      ⟨h1, fun x hx => ((h2 x).mp hx).elim (hret.2 x) (hs.2 x)⟩
    obtain ⟨h3, h4⟩ := preFilterOr_spec bs _ hret' fun b h => hb b (mem_cons_of_mem _ h)
    refine ⟨h3, fun x => ?_⟩
    rw [preFilter.preFilterOr, h4, h2, exists_mem_cons_iff, or_assoc]

/-- **Every list a tree returns is proper.** -/
theorem idList_preFilter (s : Selector σ (FilterLeaf n)) : IdList n (s.preFilter ops strict) := by
  induction s with
  | leaf d =>
    refine ⟨Pairwise.filter _ pairwise_lt_range, fun x hx => ?_⟩
    exact mem_range.mp (mem_filter.mp hx).1
  | and f x rest ihf ihrest => exact (preFilterAnd_spec ops strict rest _ ihf ihrest).1
  | or bs ih =>
    exact (preFilterOr_spec ops strict bs [] ⟨Pairwise.nil, by simp⟩ ih).1
  | not c ih =>
    obtain ⟨h1, h2⟩ := complementFrom_spec n _ 0 ih.1 fun e he => ⟨Nat.zero_le e, ih.2 e he⟩
    exact ⟨h1, fun x hx => ((h2 x).mp hx).2.1⟩

variable {ops} {strict} {c : Selector σ (FilterLeaf n)}

theorem mem_preFilter_leaf {d : FilterLeaf n} :
    id ∈ (leaf d : Selector σ (FilterLeaf n)).preFilter ops strict ↔
      id < n ∧ d.isMember id := by
  simp [preFilter, FilterLeaf.preFilter]

theorem mem_preFilter_and : id ∈ (and f x rest).preFilter ops strict ↔ id ∈ f.preFilter ops strict ∧
      ∀ b ∈ rest, (strict || !ops.high b.2) → id ∈ b.1.preFilter ops strict :=
  (preFilterAnd_spec ops strict rest _ (idList_preFilter ops strict f)
    fun b _ => idList_preFilter ops strict b.1).2 id

theorem mem_preFilter_or :
    id ∈ (or bs).preFilter ops strict ↔ ∃ b ∈ bs, id ∈ b.preFilter ops strict := by
  have := (preFilterOr_spec ops strict bs [] ⟨Pairwise.nil, by simp⟩
    fun b _ => idList_preFilter ops strict b).2 id
  simpa [preFilter] using this

theorem mem_preFilter_not :
    id ∈ (not c).preFilter ops strict ↔ id < n ∧ id ∉ c.preFilter ops strict := by
  obtain ⟨h1, h2⟩ := idList_preFilter ops strict c
  simpa [preFilter] using (complementFrom_spec n _ 0 h1 fun e he => ⟨Nat.zero_le e, h2 e he⟩).2 id

theorem approx_not : isMemberApprox ops id (.not c) ↔ id ∈ (not c).preFilter ops false := by
  exact binarySearch_iff between_lt (idList_preFilter ops false (.not c)).1 id

end Leaves

/-! ## When nothing is lost -/

/-- A tree without its leaves' data.  An `OrSelector` without branches counts as a
leaf: it is one that matches nothing. -/
def shape : Selector σ ℓ → Selector σ Unit
  | .leaf _ => .leaf ()
  | .and first x rest => .and (shape first) x (shapeAnd rest)
  | .or branches => if branches.isEmpty then .leaf () else .or (shapeOr branches)
  | .not child => .not (shape child)
where
  shapeAnd : List (Selector σ ℓ × σ) → List (Selector σ Unit × σ)
    | [] => []
    | (s, x) :: rest => (shape s, x) :: shapeAnd rest
  shapeOr : List (Selector σ ℓ) → List (Selector σ Unit)
    | [] => []
    | s :: rest => shape s :: shapeOr rest

/-- No branch is skipped where it would make the list of the tree too small
(`upper`), or too large (not `upper`).  A skipped branch makes the list of an
`AndSelector` too large, and a negation turns one into the other. -/
def skipSafe (ops : SelectivityOps σ) (upper : Bool) : Selector σ ℓ → Bool
  | .leaf _ => true
  | .and first _ rest => skipSafe ops upper first && skipSafeAnd upper rest
  | .or branches => skipSafeOr upper branches
  | .not child => skipSafe ops (!upper) child
where
  skipSafeAnd (upper : Bool) : List (Selector σ ℓ × σ) → Bool
    | [] => true
    | (s, x) :: rest =>
      (if ops.high x then upper else skipSafe ops upper s) && skipSafeAnd upper rest
  skipSafeOr (upper : Bool) : List (Selector σ ℓ) → Bool
    | [] => true
    | s :: rest => skipSafe ops upper s && skipSafeOr upper rest

/-- The condition under which a filter loses nothing: **no `AndSelector` below an odd
number of negations skips a branch**, where below an even number of negations the
inside of a skipped branch does not count. -/
def noNegatedSkip (ops : SelectivityOps σ) : Selector σ ℓ → Bool
  | .leaf _ => true
  | .and first _ rest => noNegatedSkip ops first && noNegatedSkipAnd rest
  | .or branches => noNegatedSkipOr branches
  | .not child => skipSafe ops false child
where
  noNegatedSkipAnd : List (Selector σ ℓ × σ) → Bool
    | [] => true
    | (s, _) :: rest => noNegatedSkip ops s && noNegatedSkipAnd rest
  noNegatedSkipOr : List (Selector σ ℓ) → Bool
    | [] => true
    | s :: rest => noNegatedSkip ops s && noNegatedSkipOr rest

theorem shapeAnd_eq (rest : List (Selector σ ℓ × σ)) :
    shape.shapeAnd rest = rest.map fun b => (b.1.shape, b.2) := by
  induction rest <;> simp [shape.shapeAnd, *]

theorem shapeOr_eq (bs : List (Selector σ ℓ)) : shape.shapeOr bs = bs.map shape := by
  induction bs <;> simp [shape.shapeOr, *]

section Conditions
variable (ops : SelectivityOps σ) {upper : Bool} {f : Selector σ ℓ} {x : σ}
    {rest : List (Selector σ ℓ × σ)} {bs : List (Selector σ ℓ)}

theorem skipSafe_and : skipSafe ops upper (.and f x rest) ↔ skipSafe ops upper f ∧
      ∀ b ∈ rest, (if ops.high b.2 then upper else skipSafe ops upper b.1) = true := by
  rw [skipSafe, Bool.and_eq_true]
  refine and_congr_right fun _ => ?_
  induction rest <;> simp [skipSafe.skipSafeAnd, *]

theorem skipSafe_or : skipSafe ops upper (.or bs) ↔ ∀ b ∈ bs, skipSafe ops upper b := by
  rw [skipSafe]
  induction bs <;> simp [skipSafe.skipSafeOr, *]

theorem noNegatedSkip_and : noNegatedSkip ops (.and f x rest) ↔
      noNegatedSkip ops f ∧ ∀ b ∈ rest, noNegatedSkip ops b.1 := by
  rw [noNegatedSkip, Bool.and_eq_true]
  refine and_congr_right fun _ => ?_
  induction rest <;> simp [noNegatedSkip.noNegatedSkipAnd, *]

theorem noNegatedSkip_or : noNegatedSkip ops (.or bs) ↔ ∀ b ∈ bs, noNegatedSkip ops b := by
  rw [noNegatedSkip]
  induction bs <;> simp [noNegatedSkip.noNegatedSkipOr, *]

theorem skipSafe_shape (upper : Bool) (s : Selector σ ℓ) :
    skipSafe ops upper s.shape = skipSafe ops upper s := by
  induction s generalizing upper with
  | leaf d => rfl
  | and f x rest ihf ihrest =>
    rw [Bool.eq_iff_iff, shape, skipSafe_and, skipSafe_and, ihf, shapeAnd_eq, forall_mem_map]
    exact and_congr_right fun _ => forall₂_congr fun b hb => by rw [ihrest b hb]
  | or bs ih =>
    rw [shape]
    split
    · next h => rw [isEmpty_iff.mp h]; rfl
    · rw [Bool.eq_iff_iff, skipSafe_or, skipSafe_or, shapeOr_eq, forall_mem_map]
      exact forall₂_congr fun b hb => by rw [ih b hb]
  | not c ih => exact ih (!upper)

/-- The condition does not depend on the data of the leaves. -/
theorem noNegatedSkip_shape (s : Selector σ ℓ) :
    noNegatedSkip ops s.shape = noNegatedSkip ops s := by
  induction s with
  | leaf d => rfl
  | and f x rest ihf ihrest =>
    rw [Bool.eq_iff_iff, shape, noNegatedSkip_and, noNegatedSkip_and, ihf, shapeAnd_eq,
      forall_mem_map]
    exact and_congr_right fun _ => forall₂_congr fun b hb => by rw [ihrest b hb]
  | or bs ih =>
    rw [shape]
    split
    · next h => rw [isEmpty_iff.mp h]; rfl
    · rw [Bool.eq_iff_iff, noNegatedSkip_or, noNegatedSkip_or, shapeOr_eq, forall_mem_map]
      exact forall₂_congr fun b hb => by rw [ih b hb]
  | not c ih => exact skipSafe_shape ops false c

/-- The condition implies that no skip makes the list of the tree too small. -/
theorem skipSafe_of_noNegatedSkip {s : Selector σ ℓ} (h : noNegatedSkip ops s) :
    skipSafe ops true s := by
  induction s with
  | leaf d => rfl
  | and f x rest ihf ihrest =>
    obtain ⟨h1, h2⟩ := (noNegatedSkip_and ops).mp h
    refine (skipSafe_and ops).mpr ⟨ihf h1, fun b hb => ?_⟩
    split
    · rfl
    · exact ihrest b hb (h2 b hb)
  | or bs ih =>
    exact (skipSafe_or ops).mpr fun b hb => ih b hb ((noNegatedSkip_or ops).mp h b hb)
  | not c ih => exact h

variable {n : Nat} (s : Selector σ (FilterLeaf n)) {id : Nat}

/-- **The list is an upper bound** of the matching ids when `skipSafe` holds for
`true`, and **a lower bound** when it holds for `false`. -/
theorem skipSafe_bounds (hid : id < n) :
    (skipSafe ops true s → s.isMember id → id ∈ s.preFilter ops false) ∧
      (skipSafe ops false s → id ∈ s.preFilter ops false → s.isMember id) := by
  induction s with
  | leaf d =>
    exact ⟨fun _ h => mem_preFilter_leaf.mpr ⟨hid, h⟩, fun _ h => (mem_preFilter_leaf.mp h).2⟩
  | and f x rest ihf ihrest =>
    constructor
    · intro hs hm
      obtain ⟨h1, h2⟩ := (skipSafe_and ops).mp hs
      obtain ⟨h3, h4⟩ := isMember_and.mp hm
      refine mem_preFilter_and.mpr ⟨ihf.1 h1 h3, fun b hb hlow => ?_⟩
      have h5 := h2 b hb
      rw [if_neg (by simpa using hlow)] at h5
      exact (ihrest b hb).1 h5 (h4 b hb)
    · intro hs hl
      obtain ⟨h1, h2⟩ := (skipSafe_and ops).mp hs
      obtain ⟨h3, h4⟩ := mem_preFilter_and.mp hl
      refine isMember_and.mpr ⟨ihf.2 h1 h3, fun b hb => ?_⟩
      have h5 := h2 b hb
      split at h5
      · exact absurd h5 Bool.false_ne_true
      · next hlow => exact (ihrest b hb).2 h5 (h4 b hb (by simpa using hlow))
  | or bs ih =>
    constructor
    · intro hs hm
      obtain ⟨b, hb, h⟩ := isMember_or.mp hm
      exact mem_preFilter_or.mpr ⟨b, hb, (ih b hb).1 ((skipSafe_or ops).mp hs b hb) h⟩
    · intro hs hl
      obtain ⟨b, hb, h⟩ := mem_preFilter_or.mp hl
      exact isMember_or.mpr ⟨b, hb, (ih b hb).2 ((skipSafe_or ops).mp hs b hb) h⟩
  | not c ih =>
    rw [isMember, mem_preFilter_not, Bool.not_eq_true', ← Bool.not_eq_true]
    exact ⟨fun hs hm => ⟨hid, fun hl => hm (ih.2 hs hl)⟩, fun hs hl hm => hl.2 (ih.1 hs hm)⟩

/-- Under the condition `is_member_approx` rejects no member. -/
theorem approx_of_noNegatedSkip (hid : id < n) (h : noNegatedSkip ops s)
    (hm : s.isMember id) : s.isMemberApprox ops id := by
  induction s with
  | leaf d => exact d.approx_of_member id hm
  | and f x rest ihf ihrest =>
    obtain ⟨h1, h2⟩ := (noNegatedSkip_and ops).mp h
    obtain ⟨h3, h4⟩ := isMember_and.mp hm
    exact approx_and.mpr ⟨ihf h1 h3, fun b hb => ihrest b hb (h2 b hb) (h4 b hb)⟩
  | or bs ih =>
    obtain ⟨b, hb, hm⟩ := isMember_or.mp hm
    exact approx_or.mpr ⟨b, hb, ih b hb ((noNegatedSkip_or ops).mp h b hb) hm⟩
  | not c ih => exact approx_not.mpr ((skipSafe_bounds ops (.not c) hid).1 h hm)

end Conditions

/-! ### Trees that lose a vector

For a tree that violates the condition there are leaf data, over a single vector,
for which the vector is lost. -/

section Violations
variable (ops : SelectivityOps σ) {s : Selector σ ℓ} {α : Type}

/-- A leaf over one vector that holds of it or not. -/
def constLeaf (v : Bool) : FilterLeaf 1 := exactLeaf 1 fun _ => v

instance : Nonempty (Selector σ (FilterLeaf 1)) := ⟨.leaf (constLeaf true)⟩

theorem shape_and_map {f : Selector σ ℓ} {f' : Selector σ (FilterLeaf 1)} {x : σ}
    {rest : List (Selector σ ℓ × σ)} {g : Selector σ ℓ × σ → Selector σ (FilterLeaf 1)}
    (hf : f'.shape = f.shape) (hg : ∀ b ∈ rest, (g b).shape = b.1.shape) :
    (and f' x (rest.map fun b => (g b, b.2))).shape = (and f x rest).shape := by
  rw [shape, shape, shapeAnd_eq, shapeAnd_eq, map_map]
  congr 1
  exact map_congr_left fun b hb => by rw [comp_apply, hg b hb]

theorem shape_or_map {bs : List (Selector σ ℓ)} {g : Selector σ ℓ → Selector σ (FilterLeaf 1)}
    (hg : ∀ b ∈ bs, (g b).shape = b.shape) : (or (bs.map g)).shape = (or bs).shape := by
  have h : bs.map (shape ∘ g) = bs.map shape := map_congr_left hg
  rw [shape, shape, shapeOr_eq, shapeOr_eq, map_map, isEmpty_map, h]

/-- One branch gets the tree `t`, and the others keep theirs. -/
theorem update_ind [DecidableEq α] (P : α → Selector σ (FilterLeaf 1) → Prop)
    {e : α → Selector σ (FilterLeaf 1)} {b : α} {t : Selector σ (FilterLeaf 1)}
    (ht : P b t) (he : ∀ a, P a (e a)) (a : α) : P a (update e b t a) :=
  (forall_update_iff e P).mpr ⟨ht, fun a _ => he a⟩ a

theorem forall_mem_update [DecidableEq α] {P : α → Selector σ (FilterLeaf 1) → Prop}
    {e : α → Selector σ (FilterLeaf 1)} {b : α} {t : Selector σ (FilterLeaf 1)} {l : List α}
    (hb : b ∈ l) (he : ∀ a, P a (e a)) : (∀ a ∈ l, P a (update e b t a)) ↔ P b t :=
  ⟨fun h => update_self b t e ▸ h b hb, fun ht a _ => update_ind P ht he a⟩

theorem exists_mem_update [DecidableEq α] {P : Selector σ (FilterLeaf 1) → Prop}
    {e : α → Selector σ (FilterLeaf 1)} {b : α} {t : Selector σ (FilterLeaf 1)} {l : List α}
    (hb : b ∈ l) (he : ∀ a, ¬ P (e a)) : (∃ u ∈ l.map (update e b t), P u) ↔ P t := by
  rw [← not_iff_not, not_exists]
  simp only [not_and, forall_mem_map]
  exact @forall_mem_update _ _ _ (fun _ u => ¬ P u) _ _ _ _ hb he

/-- All operations answer `v` on the vector. -/
def Exact (v : Bool) (t : Selector σ (FilterLeaf 1)) : Prop :=
  (t.isMember 0 = true ↔ v = true) ∧ (0 ∈ t.preFilter ops false ↔ v = true) ∧
    (t.isMemberApprox ops 0 = true ↔ v = true)

/-- Leaf data for which all operations answer `v`. -/
theorem exists_exact (v : Bool) (s : Selector σ ℓ) : ∃ t, shape t = s.shape ∧ Exact ops v t := by
  have hleaf : ∀ v, Exact ops v (.leaf (constLeaf v)) := fun v =>
    ⟨Iff.rfl, by simp [mem_preFilter_leaf, constLeaf, exactLeaf], Iff.rfl⟩
  induction s generalizing v with
  | leaf d => exact ⟨.leaf (constLeaf v), rfl, hleaf v⟩
  | and f x rest ihf ihrest =>
    obtain ⟨f', hf, hf1, hf2, hf3⟩ := ihf v
    choose! g hg h1 h2 h3 using fun b hb => ihrest b hb v
    refine ⟨and f' x (rest.map fun b => (g b, b.2)), shape_and_map hf hg, ?_⟩
    simp only [Exact, isMember_and, mem_preFilter_and, approx_and, forall_mem_map, hf1, hf2, hf3]
    simp +contextual [h1, h2, h3]
  | or bs ih =>
    rcases bs with _ | ⟨b₀, bs⟩
    · exact ⟨.leaf (constLeaf v), rfl, hleaf v⟩
    · choose! g hg h1 h2 h3 using fun b hb => ih b hb v
      refine ⟨or ((b₀ :: bs).map g), shape_or_map hg, ?_⟩
      rw [Exact, isMember_or, mem_preFilter_or, approx_or]
      simp +contextual [forall_mem_cons.mp h1, forall_mem_cons.mp h2, forall_mem_cons.mp h3]
  | not c ih =>
    obtain ⟨c', hc, h1, h2, -⟩ := ih (!v)
    refine ⟨not c', by rw [shape, shape, hc], ?_⟩
    rw [Exact, isMember, approx_not, mem_preFilter_not, h2, Bool.not_eq_true', ← Bool.not_eq_true,
      h1]
    cases v <;> simp

/-- The list of the tree is wrong about the vector: it lacks it although it is a
member (`upper`), or has it although it is none. -/
def Gap (upper : Bool) (t : Selector σ (FilterLeaf 1)) : Prop :=
  (t.isMember 0 = true ↔ upper = true) ∧ (0 ∈ t.preFilter ops false ↔ upper = false)

/-- **A violation of `skipSafe` shows**: some leaf data make the list wrong. -/
theorem exists_gap {upper : Bool} (hs : skipSafe ops upper s ≠ true) :
    ∃ t, shape t = s.shape ∧ Gap ops upper t := by
  classical
  induction s generalizing upper with
  | leaf d => exact absurd rfl hs
  | and f x rest ihf ihrest =>
    obtain ⟨ft, hft, hft1, hft2, -⟩ := exists_exact ops true f
    choose e he he1 he2 he3 using fun b : Selector σ ℓ × σ => exists_exact ops true b.1
    rw [Ne, skipSafe_and, not_and_or] at hs
    rcases hs with hs | hs
    · -- the gap is in the first branch, and all others hold
      obtain ⟨f', hf, hf1, hf2⟩ := ihf hs
      refine ⟨and f' x (rest.map fun b => (e b, b.2)), shape_and_map hf fun b _ => he b, ?_⟩
      simp only [Gap, isMember_and, mem_preFilter_and, forall_mem_map, hf1, hf2, he1, he2]
      simp
    · push Not at hs
      obtain ⟨b, hb, hbs⟩ := hs
      -- `t` for the branch `b`, and all others hold
      have assemble : ∀ t : Selector σ (FilterLeaf 1), t.shape = b.1.shape →
          (t.isMember 0 ↔ upper) →
          ((ops.high b.2 = false → 0 ∈ t.preFilter ops false) ↔ upper = false) →
          ∃ t, shape t = (and f x rest).shape ∧ Gap ops upper t := by
        intro t ht ht1 ht2
        refine ⟨and ft x (rest.map fun b' => (update e b t b', b'.2)), shape_and_map hft
          fun b' _ => update_ind (fun b' t => t.shape = b'.1.shape) ht he b', ?_, ?_⟩
        · rw [isMember_and, forall_mem_map, ← ht1]
          exact (and_iff_right (hft1.mpr rfl)).trans
            (forall_mem_update (P := fun _ t => isMember 0 t) hb fun b' => (he1 b').mpr rfl)
        · rw [mem_preFilter_and, forall_mem_map, ← ht2]
          simpa using (and_iff_right (hft2.mpr rfl)).trans (forall_mem_update
            (P := fun b' t => ops.high b'.2 = false → 0 ∈ t.preFilter ops false) hb
              fun b' _ => (he2 b').mpr rfl)
      split at hbs
      · next hhigh =>
        obtain ⟨t, ht, ht1, -⟩ := exists_exact ops false b.1
        exact assemble t ht (by simpa [hbs] using ht1) (by simp [hhigh, hbs])
      · next hlow =>
        obtain ⟨t, ht, ht1, ht2⟩ := ihrest b hb hbs
        exact assemble t ht ht1 (by simpa [hlow] using ht2)
  | or bs ih =>
    choose e he he1 he2 he3 using fun b : Selector σ ℓ => exists_exact ops false b
    rw [Ne, skipSafe_or] at hs
    push Not at hs
    obtain ⟨b, hb, hbs⟩ := hs
    obtain ⟨t, ht, ht1, ht2⟩ := ih b hb hbs
    refine ⟨or (bs.map (update e b t)), shape_or_map fun b' _ =>
      update_ind (fun b' t => t.shape = b'.shape) ht he b', ?_, ?_⟩
    · rw [isMember_or, ← ht1]
      exact exists_mem_update hb fun b' h => absurd ((he1 b').mp h) Bool.false_ne_true
    · rw [mem_preFilter_or, ← ht2]
      exact exists_mem_update hb fun b' h => absurd ((he2 b').mp h) Bool.false_ne_true
  | not c ih =>
    obtain ⟨t, ht, ht1, ht2⟩ := ih hs
    refine ⟨not t, by rw [shape, shape, ht], ?_, ?_⟩
    · rw [isMember, Bool.not_eq_true', ← Bool.not_eq_true, ht1]
      cases upper <;> simp
    · rw [mem_preFilter_not, ht2]
      cases upper <;> simp

/-- **A violation of the condition shows**: some leaf data make `is_member_approx`
reject the member. -/
theorem exists_rejected (hs : noNegatedSkip ops s ≠ true) :
    ∃ t : Selector σ (FilterLeaf 1), t.shape = s.shape ∧ t.isMember 0 ∧
      t.isMemberApprox ops 0 ≠ true := by
  classical
  induction s with
  | leaf d => exact absurd rfl hs
  | and f x rest ihf ihrest =>
    obtain ⟨ft, hft, hft1, -⟩ := exists_exact ops true f
    choose e he he1 he2 he3 using fun b : Selector σ ℓ × σ => exists_exact ops true b.1
    rw [Ne, noNegatedSkip_and, not_and_or] at hs
    rcases hs with hs | hs
    · obtain ⟨f', hf, hf1, hf2⟩ := ihf hs
      refine ⟨and f' x (rest.map fun b => (e b, b.2)), shape_and_map hf fun b _ => he b, ?_, ?_⟩
      · rw [isMember_and, forall_mem_map]
        exact ⟨hf1, fun b _ => (he1 b).mpr rfl⟩
      · exact fun h => hf2 (approx_and.mp h).1
    · push Not at hs
      obtain ⟨b, hb, hbs⟩ := hs
      obtain ⟨t, ht, ht1, ht2⟩ := ihrest b hb hbs
      refine ⟨and ft x (rest.map fun b' => (update e b t b', b'.2)), shape_and_map hft
        fun b' _ => update_ind (fun b' t => t.shape = b'.1.shape) ht he b', ?_, fun h => ht2 ?_⟩
      · rw [isMember_and, forall_mem_map]
        exact ⟨hft1.mpr rfl, fun b' _ => update_ind (fun _ t => isMember 0 t = true) ht1
          (fun b' => (he1 b').mpr rfl) b'⟩
      · rw [approx_and, forall_mem_map] at h
        simpa using h.2 b hb
  | or bs ih =>
    choose e he he1 he2 he3 using fun b : Selector σ ℓ => exists_exact ops false b
    rw [Ne, noNegatedSkip_or] at hs
    push Not at hs
    obtain ⟨b, hb, hbs⟩ := hs
    obtain ⟨t, ht, ht1, ht2⟩ := ih b hb hbs
    refine ⟨or (bs.map (update e b t)), shape_or_map fun b' _ =>
      update_ind (fun b' t => t.shape = b'.shape) ht he b', ?_, ?_⟩
    · exact isMember_or.mpr ⟨t, mem_map.mpr ⟨b, hb, update_self ..⟩, ht1⟩
    · rwa [Ne, approx_or, exists_mem_update hb]
      exact fun b' h => absurd ((he3 b').mp h) Bool.false_ne_true
  | not c ih =>
    have hs' : skipSafe ops true (.not c) ≠ true := hs
    obtain ⟨t, ht, ht1, ht2⟩ := exists_gap ops hs'
    -- a tree of the shape of a negation is one
    rcases t with _ | _ | bs | t
    · cases ht
    · cases ht
    · rw [shape] at ht
      split at ht <;> cases ht
    · exact ⟨not t, ht, ht1.mpr rfl, fun h => by simpa using ht2.mp (approx_not.mp h)⟩

end Violations

/-- **A filter loses nothing exactly when no branch is skipped below an odd number of
negations**: for every tree, with any selectivities, every choice of leaf data for it
is complete if and only if `noNegatedSkip` holds. -/
theorem complete_iff_noNegatedSkip (ops : SelectivityOps σ) (s : Selector σ ℓ) :
    (∀ (n : Nat) (t : Selector σ (FilterLeaf n)), t.shape = s.shape → t.Complete ops) ↔
      s.noNegatedSkip ops = true := by
  constructor
  · intro h
    by_contra hs
    obtain ⟨t, ht, hm, ha⟩ := exists_rejected ops hs
    exact ha (h 1 t ht 0 Nat.one_pos hm).2
  · intro hs n t ht id hid hm
    have h : noNegatedSkip ops t = true := by
      rw [← noNegatedSkip_shape, ht, noNegatedSkip_shape, hs]
    exact ⟨(skipSafe_bounds ops t hid).1 (skipSafe_of_noNegatedSkip ops h) hm,
      approx_of_noNegatedSkip ops t hid h hm⟩

end Selector
end PipeANN
