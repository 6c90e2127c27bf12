import Mathlib.Data.List.Perm.Subperm
import PipeANN.Selector

/-! # Compiled selector trees and strict pre-filtering

The tree that the filter compiler builds, with everything its nodes store: an
`AndSelector` and an `OrSelector` hold a list of branches, a `NotSelector` its child and
the number of vectors **at the time it was built**.  Two operations of a tree are modelled:
`is_member`, and `pre_filter` with `strict = true`, the only way in which `filter_only` and
the in-memory search call it.

Both are partial.  `is_member` of a leaf reads a slot of the query; `pre_filter` of an
`AndSelector` reads `selectors_[0]`; and a `NotSelector` reserves room for
`n_vectors_ - not_vector_ids.size()` ids, a difference of unsigned numbers that must not
wrap around.

`preFilter_exact` is the set algebra: over leaves that return the matching ids, in trees
whose `NotSelector`s know the right number of vectors, the list is that of the matching
ids, ascending.
-/
namespace PipeANN

open List SortedLists

/-- A selector tree over leaves of type `ℓ`. -/
inductive FilterTree (ℓ : Type) where
  | leaf (d : ℓ)
  | and (selectors : List (FilterTree ℓ))
  | or (selectors : List (FilterTree ℓ))
  | not (selector : FilterTree ℓ) (nVectors : Nat)

namespace FilterTree
variable {ℓ κ : Type}

/-- Induction over a tree, with the hypothesis for every branch. -/
@[elab_as_elim, induction_eliminator]
theorem ind {P : FilterTree ℓ → Prop} (leaf : ∀ d, P (.leaf d))
    (and : ∀ ss, (∀ s ∈ ss, P s) → P (.and ss)) (or : ∀ ss, (∀ s ∈ ss, P s) → P (.or ss))
    (not : ∀ s n, P s → P (.not s n)) : ∀ t, P t
  | .leaf d => leaf d
  | .and ss => and ss (branches ss)
  | .or ss => or ss (branches ss)
  | .not s n => not s n (ind leaf and or not s)
where
  branches : ∀ (ss : List (FilterTree ℓ)), ∀ s ∈ ss, P s
    | s :: rest, x, hx =>
      (mem_cons.mp hx).elim (fun h => h ▸ ind leaf and or not s) (branches rest x)

/-! ## The operations -/

/-- `is_member`, for given answers of the leaves. -/
def isMember (leaf : ℓ → Option Bool) : FilterTree ℓ → Option Bool
  | .leaf d => leaf d
  | .and ss => isMemberAll ss
  | .or ss => isMemberAny ss
  | .not s _ => (isMember leaf s).map fun b => !b
where
  isMemberAll : List (FilterTree ℓ) → Option Bool
    | [] => some true
    | s :: rest => (isMember leaf s).bind fun b => if b then isMemberAll rest else some false
  isMemberAny : List (FilterTree ℓ) → Option Bool
    | [] => some false
    | s :: rest => (isMember leaf s).bind fun b => if b then some true else isMemberAny rest

/-- `pre_filter` with `strict = true`, for given lists of the leaves. -/
def preFilter (leaf : ℓ → Option (List Nat)) : FilterTree ℓ → Option (List Nat)
  | .leaf d => leaf d
  | .and [] => none
  | .and (s :: rest) => (preFilter leaf s).bind fun ret => preFilterAnd ret rest
  | .or ss => preFilterOr [] ss
  | .not s nVectors =>
    (preFilter leaf s).bind fun notIds =>
      if nVectors < notIds.length then none else some (complementFrom nVectors 0 notIds)
where
  preFilterAnd : List Nat → List (FilterTree ℓ) → Option (List Nat)
    | ret, [] => some ret
    | ret, s :: rest => (preFilter leaf s).bind fun cur => preFilterAnd (inter ret cur) rest
  preFilterOr : List Nat → List (FilterTree ℓ) → Option (List Nat)
    | ret, [] => some ret
    | ret, s :: rest => (preFilter leaf s).bind fun cur => preFilterOr (union ret cur) rest

/-! ## What the operations are for -/

/-- The boolean function a tree stands for. -/
def holds (leaf : ℓ → Bool) : FilterTree ℓ → Bool
  | .leaf d => leaf d
  | .and ss => holdsAll ss
  | .or ss => holdsAny ss
  | .not s _ => !holds leaf s
where
  holdsAll : List (FilterTree ℓ) → Bool
    | [] => true
    | s :: rest => holds leaf s && holdsAll rest
  holdsAny : List (FilterTree ℓ) → Bool
    | [] => false
    | s :: rest => holds leaf s || holdsAny rest

/-- Every leaf of the tree has a property. -/
def AllLeaves (P : ℓ → Prop) : FilterTree ℓ → Prop
  | .leaf d => P d
  | .and ss => allBranches ss
  | .or ss => allBranches ss
  | .not s _ => AllLeaves P s
where
  allBranches : List (FilterTree ℓ) → Prop
    | [] => True
    | s :: rest => AllLeaves P s ∧ allBranches rest

/-- A tree over `n` vectors: an `AndSelector` has a branch, and every `NotSelector` was
built for `n` vectors. -/
def WellFormed (n : Nat) : FilterTree ℓ → Prop
  | .leaf _ => True
  | .and ss => ss ≠ [] ∧ wellFormedAll ss
  | .or ss => wellFormedAll ss
  | .not s nVectors => nVectors = n ∧ WellFormed n s
where
  wellFormedAll : List (FilterTree ℓ) → Prop
    | [] => True
    | s :: rest => WellFormed n s ∧ wellFormedAll rest

variable {P : ℓ → Prop}

theorem allBranches_iff : ∀ {ss : List (FilterTree ℓ)},
    AllLeaves.allBranches P ss ↔ ∀ s ∈ ss, AllLeaves P s
  | [] => by simp [AllLeaves.allBranches]
  | s :: rest => by rw [AllLeaves.allBranches, allBranches_iff, forall_mem_cons]

theorem AllLeaves.of_forall (h : ∀ d, P d) (t : FilterTree ℓ) : t.AllLeaves P := by
  induction t with
  | leaf d => exact h d
  | and ss ih | or ss ih => exact allBranches_iff.mpr ih
  | not s n ih => exact ih

theorem AllLeaves.imp {Q : ℓ → Prop} (h : ∀ d, P d → Q d) (t : FilterTree ℓ) :
    t.AllLeaves P → t.AllLeaves Q := by
  induction t with
  | leaf d => exact h d
  | and ss ih | or ss ih =>
    exact fun hss => allBranches_iff.mpr fun s hs => ih s hs (allBranches_iff.mp hss s hs)
  | not s n ih => exact ih

variable {n : Nat}

theorem wellFormedAll_iff : ∀ {ss : List (FilterTree ℓ)},
    WellFormed.wellFormedAll n ss ↔ ∀ s ∈ ss, WellFormed n s
  | [] => by simp [WellFormed.wellFormedAll]
  | s :: rest => by rw [WellFormed.wellFormedAll, wellFormedAll_iff, forall_mem_cons]

/-- `is_member` computes the boolean function, where the leaves answer. -/
theorem isMember_eq_holds {leaf : ℓ → Option Bool} {p : ℓ → Bool} (t : FilterTree ℓ) :
    AllLeaves (fun d => leaf d = some (p d)) t → t.isMember leaf = some (t.holds p) := by
  induction t with
  | leaf d => exact id
  | and ss ih | or ss ih =>
    intro h
    have h := allBranches_iff.mp h
    rw [isMember, holds]
    clear * - ih h
    induction ss with
    | nil => rfl
    | cons s rest ihs =>
      obtain ⟨hs, hrest⟩ := forall_mem_cons.mp h
      obtain ⟨ihhead, ihrest⟩ := forall_mem_cons.mp ih
      simp only [isMember.isMemberAll, isMember.isMemberAny, holds.holdsAll, holds.holdsAny,
        ihhead hs, ihs ihrest hrest]
      cases s.holds p <;> rfl
  | not s n ih =>
    intro h
    rw [isMember, ih h]
    rfl

/-! ## Strict pre-filtering is exact -/

/-- `ids` is the ascending list of the ids below `n` with property `p`. -/
def Lists (n : Nat) (p : Nat → Bool) (ids : List Nat) : Prop :=
  Ascending ids ∧ ∀ id, id ∈ ids ↔ id < n ∧ p id = true

variable {p : Nat → Bool}

theorem Lists.length_le {ids : List Nat} (h : Lists n p ids) : ids.length ≤ n := by
  have hsub : ids ⊆ range n := fun x hx => mem_range.mpr ((h.2 x).mp hx).1
  have hnodup : ids.Nodup := h.1.imp fun hlt => ne_of_lt hlt
  simpa using (subperm_of_subset hnodup hsub).length_le

variable {a : List Nat} {q : Nat → Bool}

theorem lists_inter {b : List Nat} (ha : Lists n p a)
    (hb : Lists n q b) : Lists n (fun id => p id && q id) (inter a b) := by
  obtain ⟨hsorted, hmem⟩ := inter_spec between_lt ha.1 hb.1
  refine ⟨hsorted, fun id => ?_⟩
  rw [hmem, ha.2, hb.2, Bool.and_eq_true]
  tauto

theorem lists_union {b : List Nat} (ha : Lists n p a)
    (hb : Lists n q b) : Lists n (fun id => p id || q id) (union a b) := by
  obtain ⟨hsorted, hmem⟩ := union_spec between_lt ha.1 hb.1
  refine ⟨hsorted, fun id => ?_⟩
  rw [hmem, ha.2, hb.2, Bool.or_eq_true]
  tauto

theorem lists_complement (ha : Lists n p a) : Lists n (fun id => !p id) (complementFrom n 0 a) := by
  obtain ⟨hsorted, hmem⟩ := Selector.complementFrom_spec n a 0 ha.1
    fun e he => ⟨Nat.zero_le e, ((ha.2 e).mp he).1⟩
  refine ⟨hsorted, fun id => ?_⟩
  rw [hmem, ha.2]
  simp only [Nat.zero_le, true_and, Bool.not_eq_true', not_and, Bool.not_eq_true]
  exact ⟨fun h => ⟨h.1, h.2 h.1⟩, fun h => ⟨h.1, fun _ => h.2⟩⟩

section Exact
variable {n : Nat} {leaf : ℓ → Option (List Nat)} {p : ℓ → Nat → Bool}

/-- What is shown of a tree: its list is that of the ids for which it holds. -/
def ListsTree (n : Nat) (leaf : ℓ → Option (List Nat)) (p : ℓ → Nat → Bool)
    (t : FilterTree ℓ) : Prop :=
  ∃ ids, t.preFilter leaf = some ids ∧ Lists n (fun id => t.holds fun d => p d id) ids

theorem preFilterAnd_lists : ∀ {ss : List (FilterTree ℓ)} {ret : List Nat} {q : Nat → Bool},
    (∀ s ∈ ss, ListsTree n leaf p s) → Lists n q ret →
    ∃ ids, preFilter.preFilterAnd leaf ret ss = some ids ∧
      Lists n (fun id => q id && holds.holdsAll (fun d => p d id) ss) ids
  | [], ret, q, _, hret => ⟨ret, rfl, by simpa [holds.holdsAll] using hret⟩
  | s :: rest, ret, q, hss, hret => by
    obtain ⟨⟨cur, hcur, hlists⟩, hrest⟩ := forall_mem_cons.mp hss
    obtain ⟨ids, hids, h⟩ := preFilterAnd_lists hrest (lists_inter hret hlists)
    refine ⟨ids, ?_, ?_⟩
    · rw [preFilter.preFilterAnd, hcur]
      exact hids
    · simpa only [holds.holdsAll, Bool.and_assoc] using h

theorem preFilterOr_lists : ∀ {ss : List (FilterTree ℓ)} {ret : List Nat} {q : Nat → Bool},
    (∀ s ∈ ss, ListsTree n leaf p s) → Lists n q ret →
    ∃ ids, preFilter.preFilterOr leaf ret ss = some ids ∧
      Lists n (fun id => q id || holds.holdsAny (fun d => p d id) ss) ids
  | [], ret, q, _, hret => ⟨ret, rfl, by simpa [holds.holdsAny] using hret⟩
  | s :: rest, ret, q, hss, hret => by
    obtain ⟨⟨cur, hcur, hlists⟩, hrest⟩ := forall_mem_cons.mp hss
    obtain ⟨ids, hids, h⟩ := preFilterOr_lists hrest (lists_union hret hlists)
    refine ⟨ids, ?_, ?_⟩
    · rw [preFilter.preFilterOr, hcur]
      exact hids
    · simpa only [holds.holdsAny, Bool.or_assoc] using h

/-- **The set algebra of strict pre-filtering**: over leaves that list the ids they hold
of, a well-formed tree lists the ids it holds of. -/
theorem preFilter_lists (t : FilterTree ℓ) : t.WellFormed n →
    t.AllLeaves (fun d => ∃ ids, leaf d = some ids ∧ Lists n (p d) ids) →
    ListsTree n leaf p t := by
  induction t with
  | leaf d => exact fun _ h => h
  | and ss ih =>
    rintro ⟨hne, hwf⟩ hleaves
    have hss : ∀ s ∈ ss, ListsTree n leaf p s := fun s hs =>
      ih s hs (wellFormedAll_iff.mp hwf s hs) (allBranches_iff.mp hleaves s hs)
    cases ss with
    | nil => exact absurd rfl hne
    | cons s rest =>
      obtain ⟨⟨ret, hret, hlists⟩, hrest⟩ := forall_mem_cons.mp hss
      obtain ⟨ids, hids, h⟩ := preFilterAnd_lists hrest hlists
      refine ⟨ids, ?_, ?_⟩
      · rw [preFilter, hret]
        exact hids
      · simpa only [holds, holds.holdsAll] using h
  | or ss ih =>
    intro hwf hleaves
    have hss : ∀ s ∈ ss, ListsTree n leaf p s := fun s hs =>
      ih s hs (wellFormedAll_iff.mp hwf s hs) (allBranches_iff.mp hleaves s hs)
    have hnil : Lists n (fun _ => false) [] := ⟨Pairwise.nil, by simp⟩
    obtain ⟨ids, hids, h⟩ := preFilterOr_lists hss hnil
    refine ⟨ids, by rw [preFilter]; exact hids, ?_⟩
    simpa only [holds, Bool.false_or] using h
  | not s m ih =>
    rintro ⟨rfl, hwf⟩ hleaves
    obtain ⟨notIds, hids, h⟩ := ih hwf hleaves
    refine ⟨complementFrom m 0 notIds, ?_, ?_⟩
    · rw [preFilter, hids]
      exact if_neg (not_lt.mpr h.length_le)
    · simpa only [holds] using lists_complement h

end Exact

/-! ## Leaves with a query -/

/-- A leaf over `n` vectors, for queries of type `κ`: its `pre_filter` returns the strictly
ascending list of exactly the matching ids below `n`. -/
structure ExactLeaf (κ : Type) (n : Nat) where
  isMember : κ → Nat → Bool
  preFilter : κ → List Nat
  ascending : ∀ q, Ascending (preFilter q)
  mem_preFilter : ∀ q id, id ∈ preFilter q ↔ id < n ∧ isMember q id = true

/-- **Strict `pre_filter` is exact**: for every query it returns the strictly ascending list
of exactly the ids below `n` for which `is_member` holds. -/
theorem preFilter_exact {n : Nat} (t : FilterTree (ExactLeaf κ n)) (ht : t.WellFormed n) (q : κ) :
    ∃ ids, t.preFilter (fun d => some (d.preFilter q)) = some ids ∧ Ascending ids ∧
      ∀ id, id ∈ ids ↔ id < n ∧ t.isMember (fun d => some (d.isMember q id)) = some true := by
  have hleaves : t.AllLeaves fun d => ∃ ids, some (d.preFilter q) = some ids ∧
      Lists n (d.isMember q) ids :=
    .of_forall (fun d => ⟨_, rfl, d.ascending q, d.mem_preFilter q⟩) t
  obtain ⟨ids, hids, hsorted, hmem⟩ := preFilter_lists t ht hleaves
  refine ⟨ids, hids, hsorted, fun id => ?_⟩
  rw [hmem, isMember_eq_holds t (.of_forall (fun _ => rfl) t), Option.some.injEq]

/-- The leaf that lists the ids below `n` with a property by going through all of them. -/
def ExactLeaf.ofPred (n : Nat) (p : κ → Nat → Bool) : ExactLeaf κ n where
  isMember := p
  preFilter q := (List.range n).filter (p q)
  ascending _ := pairwise_lt_range.filter _
  mem_preFilter q id := by rw [mem_filter, mem_range]

/-- `not (id < q) and (id < 3 or id = 3)` over four vectors. -/
def sampleTree : FilterTree (ExactLeaf Nat 4) :=
  .and [.not (.leaf (.ofPred 4 fun q id => id < q)) 4,
    .or [.leaf (.ofPred 4 fun _ id => id < 3), .leaf (.ofPred 4 fun _ id => id = 3)]]

theorem preFilter_exact_sample :
    sampleTree.preFilter (fun d => some (d.preFilter 2)) = some [2, 3] ∧ Ascending [2, 3] ∧
      ∀ id, id ∈ [2, 3] ↔
        id < 4 ∧ sampleTree.isMember (fun d => some (d.isMember 2 id)) = some true := by
  have hwf : sampleTree.WellFormed 4 :=
    ⟨cons_ne_nil _ _, ⟨rfl, trivial⟩, ⟨trivial, trivial, trivial⟩, trivial⟩
  have hrun : sampleTree.preFilter (fun d => some (d.preFilter 2)) = some [2, 3] := by decide
  obtain ⟨ids, hids, h⟩ := preFilter_exact sampleTree hwf 2
  cases hids.symm.trans hrun
  exact ⟨hrun, h⟩

/-! ## The trees of the imprecise searches

A `Selector` keeps the selectivities that the search estimates, which the strict
`pre_filter` does not read. -/

/-- A selector tree over `n` vectors without its selectivities. -/
def ofSelector {σ : Type} (n : Nat) : Selector σ ℓ → FilterTree ℓ
  | .leaf d => .leaf d
  | .and first _ rest => .and (ofSelector n first :: ofAnd rest)
  | .or branches => .or (ofOr branches)
  | .not child => .not (ofSelector n child) n
where
  ofAnd : List (Selector σ ℓ × σ) → List (FilterTree ℓ)
    | [] => []
    | (s, _) :: rest => ofSelector n s :: ofAnd rest
  ofOr : List (Selector σ ℓ) → List (FilterTree ℓ)
    | [] => []
    | s :: rest => ofSelector n s :: ofOr rest

theorem length_le_of_idList {ids : List Nat} (h : Selector.IdList n ids) : ids.length ≤ n := by
  have hlists : Lists n (fun id => decide (id ∈ ids)) ids := by
    refine ⟨h.1, fun id => ?_⟩
    rw [decide_eq_true_eq]
    exact ⟨fun hid => ⟨h.2 id hid, hid⟩, fun hid => hid.2⟩
  exact hlists.length_le

/-- The strict `pre_filter` of a selector tree is that of the tree without selectivities. -/
theorem preFilter_ofSelector {σ : Type} (ops : SelectivityOps σ) (s : Selector σ (FilterLeaf n)) :
    (ofSelector n s).preFilter (fun d => some d.preFilter) = some (s.preFilter ops true) := by
  induction s with
  | leaf d => rfl
  | and first x rest hfirst hrest =>
    rw [ofSelector, preFilter, hfirst, Selector.preFilter, Option.bind_some]
    generalize first.preFilter ops true = ret
    induction rest generalizing ret with
    | nil => rfl
    | cons b rest ih =>
      obtain ⟨hb, hrest⟩ := forall_mem_cons.mp hrest
      rw [ofSelector.ofAnd, preFilter.preFilterAnd, hb]
      exact ih hrest _
  | or branches ih =>
    rw [ofSelector, preFilter, Selector.preFilter]
    generalize ([] : List Nat) = ret
    induction branches generalizing ret with
    | nil => rfl
    | cons b branches ihs =>
      obtain ⟨hb, hbranches⟩ := forall_mem_cons.mp ih
      rw [ofSelector.ofOr, preFilter.preFilterOr, hb]
      exact ihs hbranches _
  | not child ih =>
    have hlen := length_le_of_idList (Selector.idList_preFilter ops true child)
    rw [ofSelector, preFilter, ih]
    exact if_neg (not_lt.mpr hlen)

end FilterTree
end PipeANN
