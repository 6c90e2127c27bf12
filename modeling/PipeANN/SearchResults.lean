import PipeANN.PruneNeighbors
import Mathlib.Algebra.Ring.Nat
import Mathlib.Data.List.TakeWhile

/-! # The results of a search

`search` of `DynamicIndex` (`dynamic_index.h`) lets the routine for its mode write at most `L`
results into two arrays that begin as zeros, and then copies those whose tag is not deleted.
All routines return how many results they wrote, and `search` looks at no others, except in
one mode: the result of `pipe_search` is not used, and all `L` entries are taken.  A search
that finds fewer than `L` nodes then shows tag `0` with distance `0` for the others
(`fewerThanL_shows_zero`).

`search_answers_iff` says exactly when that happens: in this mode, with fewer than `L` nodes
found, tag `0` not deleted and fewer than `topk` nodes found whose tag is not deleted.  That
the tags shown are different rests on the inserts: none of them looks whether its tag is stored
already, and `copy_top_k` compares ids only.

The traversal is left open: what it has found is any list of stored points without repetition,
each with the distance computed for it and the outcome of the test of its attributes.
-/
namespace PipeANN
open List

open PruneParams (neighborLe distance_le_of_neighborLe)

/-- The ids of the stored points and the map from ids to tags. -/
structure TagMap where
  ids : List Nat
  tags : Nat → Option Nat

/-- A point that a traversal has ranked, and whether its attributes satisfy the selector. -/
structure Ranked (δ : Type) where
  nbr : Neighbor δ
  isMember : Bool

/-- What a traversal has ranked. -/
structure Traversal (δ : Type) (ix : TagMap) where
  ranked : List (Ranked δ)
  nodup : (ranked.map (·.nbr.id)).Nodup
  stored : ∀ c ∈ ranked, c.nbr.id ∈ ix.ids

/-- The ways of `spec_filter_search`. -/
inductive Strategy where
  | preFilter
  | inFilter
  | postFilter

/-- A call of `search`; the strategy of a filtered search is that of the cost model. -/
structure SearchCall (δ : Type) where
  useDiskIndex : Bool
  selector : Option Strategy
  range : Option δ
  topk : Nat
  L : Nat
  deletedNodesSet : List Nat

/-- `std::numeric_limits<TagT>::max()`. -/
def maxTag : Nat := 4294967295

/-! ## The routines -/

section
variable {δ : Type} [LinearOrder δ]

/-- `std::sort` of the results. -/
def sortNeighbors (l : List (Neighbor δ)) : List (Neighbor δ) := l.insertionSort neighborLe

namespace TagMap
variable (ix : TagMap)

def id2tag (id : Nat) : Nat := (ix.tags id).getD id

/-- Different stored points have different tags. -/
def DistinctTags : Prop := ∀ a ∈ ix.ids, ∀ b ∈ ix.ids, ix.id2tag a = ix.id2tag b → a = b

/-- A result as it is written. -/
def result (n : Neighbor δ) : Nat × δ := (ix.id2tag n.id, n.distance)

/-- The loop of `copy_top_k`, after the node `prev` and with room for `k` results. -/
def copyLoop (maxDist : Option δ) : Option Nat → Nat → List (Neighbor δ) → List (Nat × δ)
  | _, 0, _ => []
  | _, _ + 1, [] => []
  | prev, k + 1, n :: rest =>
    if maxDist.any (· < n.distance) then []
    else if prev = some n.id then copyLoop maxDist (some n.id) (k + 1) rest
    else ix.result n :: copyLoop maxDist (some n.id) k rest

/-- What `copy_top_k` writes; without `maxDist` the limit is infinite. -/
def copyTopK (sortedResults : List (Neighbor δ)) (k : Nat) (maxDist : Option δ) :
    List (Nat × δ) := ix.copyLoop maxDist none k sortedResults

/-- The loop of `search_with_tags`: a location without a tag is left out. -/
def tagLoop : Nat → List (Neighbor δ) → List (Nat × δ)
  | 0, _ => []
  | _ + 1, [] => []
  | k + 1, n :: rest =>
    match ix.tags n.id with
    | none => tagLoop (k + 1) rest
    | some tag => (tag, n.distance) :: tagLoop k rest

/-- What `search_with_tags` writes. -/
def searchWithTags (results : List (Neighbor δ)) (k L : Nat) : List (Nat × δ) :=
  if k = 0 ∨ L = 0 then [] else ix.tagLoop k results

end TagMap

/-- The results of a strategy.  Pre-filtering keeps those that are no members, at the largest
distance. -/
def Strategy.retset (fltMax : δ) (ranked : List (Ranked δ)) : Strategy → List (Neighbor δ)
  | .preFilter => ranked.map fun c =>
    ⟨c.nbr.id, if c.isMember then c.nbr.distance else fltMax⟩
  | .inFilter => (ranked.filter (·.isMember)).map (·.nbr)
  | .postFilter => (ranked.filter (·.isMember)).map (·.nbr)

/-- The loop at the end of `spec_filter_search`: the largest distance is no result. -/
def trimLoop (fltMax : δ) (written : List (Nat × δ)) : Nat → Nat
  | 0 => 0
  | ret + 1 =>
    if (written[ret]?).any (fltMax ≤ ·.2) then trimLoop fltMax written ret else ret + 1

/-! ## `search` -/

namespace SearchCall
variable [Zero δ] (fltMax : δ) (c : SearchCall δ) {ix : TagMap} (t : Traversal δ ix)

/-- What the routine for the mode writes into `tags` and `distances`, and `n_valid`.  A range
search needs the disk index. -/
def routine : Option (List (Nat × δ) × Nat) :=
  let sorted := sortNeighbors (t.ranked.map (·.nbr))
  match c.selector, c.useDiskIndex, c.range with
  | some strategy, true, _ =>
    let written := ix.copyTopK (sortNeighbors (strategy.retset fltMax t.ranked)) c.L none
    some (written, trimLoop fltMax written written.length)
  | some _, false, _ =>
    let written := ix.searchWithTags sorted c.L c.L
    some (written, written.length)
  | none, true, some rangePartial =>
    let written := ix.copyTopK sorted c.L (some rangePartial)
    some (written, written.length)
  | none, false, some _ => none
  | none, true, none => some (ix.copyTopK sorted c.L none, c.L)
  | none, false, none =>
    let written := ix.searchWithTags sorted c.L c.L
    some (written, written.length)

/-- The arrays `tags(L)` and `distances(L)` after the routine. -/
def arrays (written : List (Nat × δ)) : List (Nat × δ) :=
  written ++ List.replicate (c.L - written.length) (0, 0)

/-- The loop that copies what is not deleted, with room for `k` results. -/
def showLoop (deleted : List Nat) : Nat → List (Nat × δ) → List (Nat × δ)
  | 0, _ => []
  | _ + 1, [] => []
  | k + 1, e :: rest =>
    if e.1 ∈ deleted then showLoop deleted (k + 1) rest else e :: showLoop deleted k rest

/-- `search`: the output of length `topk` and the number returned. -/
def search : Option (List (Nat × δ) × Nat) :=
  (c.routine fltMax t).map fun r =>
    let shown := showLoop c.deletedNodesSet c.topk ((c.arrays r.1).take r.2)
    (shown ++ List.replicate (c.topk - shown.length) (maxTag, fltMax), shown.length)

/-- The tags and distances computed for the points found; with a selector on disk only those
of members are results. -/
def found : List (Nat × δ) :=
  let members := if c.selector.isSome && c.useDiskIndex then t.ranked.filter (·.isMember)
    else t.ranked
  members.map fun r => ix.result r.nbr

/-- **What `search` is for.**  The first `n` slots have different tags of points found that are
not deleted, each with the distance computed for it, and the others the sentinels. -/
structure Answers (out : List (Nat × δ)) (n : Nat) : Prop where
  length : out.length = c.topk
  le : n ≤ c.topk
  distinct : ((out.take n).map Prod.fst).Nodup
  live : ∀ e ∈ out.take n, e.1 ∉ c.deletedNodesSet
  computed : ∀ e ∈ out.take n, e ∈ c.found t
  rest : out.drop n = List.replicate (c.topk - n) (maxTag, fltMax)

/-- The mode in which `n_valid` is not set. -/
def Unfiltered : Prop := c.useDiskIndex = true ∧ c.selector = none ∧ c.range = none

/-- **When no zero is shown**: enough nodes are found, or tag `0` is deleted, or the results
that are not deleted fill the output. -/
def Enough : Prop :=
  c.L ≤ t.ranked.length ∨ 0 ∈ c.deletedNodesSet ∨
    c.topk ≤ ((c.found t).filter (·.1 ∉ c.deletedNodesSet)).length

end SearchCall
end

/-! ## What the loops compute -/

section
variable {δ : Type} [LinearOrder δ]

theorem sortNeighbors_perm (l : List (Neighbor δ)) : (sortNeighbors l).Perm l :=
  perm_insertionSort _ l

theorem sortNeighbors_sorted (l : List (Neighbor δ)) : (sortNeighbors l).Pairwise neighborLe :=
  pairwise_insertionSort _ l

theorem trimLoop_le (fltMax : δ) (written : List (Nat × δ)) (n : Nat) :
    trimLoop fltMax written n ≤ n := by
  induction n with
  | zero => exact le_rfl
  | succ n ih =>
    rw [trimLoop]
    split
    · omega
    · exact le_rfl

/-- Among ascending distances the loop leaves exactly those below the largest one. -/
theorem lt_of_mem_take_trimLoop {fltMax : δ} {written : List (Nat × δ)}
    (hsorted : written.Pairwise (·.2 ≤ ·.2)) {n : Nat} (hn : n ≤ written.length) {e : Nat × δ}
    (he : e ∈ written.take (trimLoop fltMax written n)) : e.2 < fltMax := by
  induction n with
  | zero => exact absurd he not_mem_nil
  | succ n ih =>
    rw [trimLoop] at he
    split at he
    · exact ih (Nat.le_of_succ_le hn) he
    · next hlast =>
      -- the last entry counted is below the sentinel, and the others are not above it
      rw [getElem?_eq_getElem hn, Option.any_some, decide_eq_true_eq, not_le] at hlast
      obtain ⟨i, hi, rfl⟩ := getElem_of_mem he
      rw [getElem_take]
      rw [length_take] at hi
      rcases eq_or_lt_of_le (Nat.le_of_lt_succ (lt_of_lt_of_le hi (min_le_left ..)))
        with rfl | hlt
      · exact hlast
      · exact (pairwise_iff_getElem.mp hsorted i n (by omega) hn hlt).trans_lt hlast

namespace TagMap
variable {ix : TagMap} {l : List (Neighbor δ)}

/-- `copy_top_k` of results with different ids: nothing is skipped. -/
theorem copyLoop_eq (maxDist : Option δ) (hnd : (l.map (·.id)).Nodup) :
    ∀ (k : Nat) (prev : Option Nat), (∀ n ∈ l, prev ≠ some n.id) → ix.copyLoop maxDist prev k l =
        ((l.takeWhile fun n => !maxDist.any (· < n.distance)).map ix.result).take k := by
  induction l with
  | nil =>
    intro k prev _
    cases k with
    | zero => rfl
    | succ k => rfl
  | cons n rest ih =>
    intro k prev hprev
    cases k with
    | zero => rw [copyLoop, take_zero]
    | succ k =>
      obtain ⟨hn, hrest⟩ := nodup_cons.mp hnd
      rw [copyLoop, if_neg (hprev n mem_cons_self)]
      by_cases hfar : maxDist.any (· < n.distance)
      · simp [hfar]
      · have hnext : ∀ m ∈ rest, some n.id ≠ some m.id := by
          intro m hm heq
          exact hn (mem_map.mpr ⟨m, hm, (Option.some.inj heq).symm⟩)
        rw [ih hrest k _ hnext]
        simp [hfar]

theorem copyTopK_eq (hnd : (l.map (·.id)).Nodup) (k : Nat)
    (maxDist : Option δ) : ix.copyTopK l k maxDist =
      ((l.takeWhile fun n => !maxDist.any (· < n.distance)).map ix.result).take k :=
  copyLoop_eq maxDist hnd k none fun n _ h => by cases h

theorem copyTopK_none (hnd : (l.map (·.id)).Nodup) (k : Nat) :
    ix.copyTopK l k none = (l.map ix.result).take k := by
  have hall : (l.takeWhile fun n => !(none : Option δ).any (· < n.distance)) = l :=
    takeWhile_eq_self_iff.mpr fun _ _ => rfl
  rw [copyTopK_eq hnd, hall]

end TagMap
end

section
variable {δ : Type}

namespace TagMap
variable {ix : TagMap}

/-- `search_with_tags` writes results of points that have a tag. -/
theorem searchWithTags_sublist (l : List (Neighbor δ)) (k L : Nat) :
    (ix.searchWithTags l k L).Sublist (l.map ix.result) := by
  have hloop : ∀ k, (ix.tagLoop k l).Sublist (l.map ix.result) := by
    induction l with
    | nil =>
      intro k
      cases k <;> exact List.Sublist.refl _
    | cons n rest ih =>
      intro k
      cases k with
      | zero => exact nil_sublist _
      | succ k =>
        rw [tagLoop, map_cons]
        cases htag : ix.tags n.id with
        | none => exact (ih (k + 1)).cons _
        | some tag =>
          have hresult : ix.result n = (tag, n.distance) := by rw [result, id2tag, htag]; rfl
          exact hresult ▸ (ih k).cons_cons _
  rw [searchWithTags]
  split
  · exact nil_sublist _
  · exact hloop k

theorem DistinctTags.nodup_results (hix : ix.DistinctTags) {l : List (Neighbor δ)}
    (hnd : (l.map (·.id)).Nodup) (hstored : ∀ n ∈ l, n.id ∈ ix.ids) :
    ((l.map ix.result).map Prod.fst).Nodup := by
  rw [map_map]
  refine Nodup.map_on (fun a ha b hb heq => ?_) (Nodup.of_map _ hnd)
  have hid := hix _ (hstored a ha) _ (hstored b hb) heq
  exact inj_on_of_nodup_map hnd ha hb hid

end TagMap

namespace SearchCall

theorem showLoop_eq (deleted : List Nat) (k : Nat) (l : List (Nat × δ)) :
    showLoop deleted k l = (l.filter (·.1 ∉ deleted)).take k := by
  induction l generalizing k with
  | nil =>
    cases k with
    | zero => rfl
    | succ k => rfl
  | cons e rest ih =>
    cases k with
    | zero => rw [showLoop, take_zero]
    | succ k =>
      rw [showLoop]
      split
      · next hdel => rw [ih, filter_cons_of_neg (by simpa using hdel)]
      · next hdel => rw [ih, filter_cons_of_pos (by simpa using hdel), take_succ_cons]

variable {fltMax : δ} {c : SearchCall δ} {ix : TagMap} {t : Traversal δ ix}

/-! ## What is shown -/

/-- Results as they should be: different tags, each with its own distance. -/
def Genuine (c : SearchCall δ) (t : Traversal δ ix) (l : List (Nat × δ)) : Prop :=
  (l.map Prod.fst).Nodup ∧ ∀ e ∈ l, e ∈ c.found t

theorem Genuine.sublist {l l' : List (Nat × δ)} (h : c.Genuine t l) (hl : l'.Sublist l) :
    c.Genuine t l' :=
  ⟨h.1.sublist (hl.map _), fun e he => h.2 e (hl.subset he)⟩

/-- The output is right exactly if what is shown is. -/
theorem answers_iff (l : List (Nat × δ)) : c.Answers fltMax t
        (showLoop c.deletedNodesSet c.topk l ++ replicate
          (c.topk - (showLoop c.deletedNodesSet c.topk l).length) (maxTag, fltMax))
        (showLoop c.deletedNodesSet c.topk l).length ↔
      c.Genuine t ((l.filter (·.1 ∉ c.deletedNodesSet)).take c.topk) := by
  rw [showLoop_eq]
  have hle : ((l.filter (·.1 ∉ c.deletedNodesSet)).take c.topk).length ≤ c.topk := by
    rw [length_take]
    exact min_le_left ..
  have hlive : ∀ e ∈ (l.filter (·.1 ∉ c.deletedNodesSet)).take c.topk, e.1 ∉ c.deletedNodesSet := by
    intro e he
    exact of_decide_eq_true (mem_filter.mp (mem_of_mem_take he)).2
  constructor
  · intro h
    have hd := h.distinct
    have hc := h.computed
    rw [take_left] at hd hc
    exact ⟨hd, hc⟩
  · rintro ⟨hd, hc⟩
    refine ⟨?_, hle, ?_, ?_, ?_, ?_⟩
    · rw [length_append, length_replicate]
      omega
    · rw [take_left]
      exact hd
    · rw [take_left]
      exact hlive
    · rw [take_left]
      exact hc
    · rw [drop_left]

/-- What is shown when zeros are counted behind the results. -/
theorem genuine_zeros_iff [Zero δ] {results : List (Nat × δ)} (hgen : c.Genuine t results)
    (hperm : results.Perm (c.found t)) (m : Nat) :
    c.Genuine t (((results ++ replicate (m + 1) ((0 : Nat), (0 : δ))).filter
        (·.1 ∉ c.deletedNodesSet)).take c.topk) ↔
      0 ∈ c.deletedNodesSet ∨ c.topk ≤ ((c.found t).filter (·.1 ∉ c.deletedNodesSet)).length := by
  rw [filter_append, filter_replicate, ← (hperm.filter _).length_eq]
  have hlive : c.Genuine t (results.filter (·.1 ∉ c.deletedNodesSet)) :=
    hgen.sublist filter_sublist
  by_cases hzero : 0 ∈ c.deletedNodesSet
  · -- the zeros are deleted
    rw [if_neg (by simpa using hzero), append_nil]
    exact iff_of_true (hlive.sublist (take_sublist _ _)) (.inl hzero)
  · rw [if_pos (by simpa using hzero), or_iff_right hzero]
    have hmem : ((0 : Nat), (0 : δ)) ∈ c.found t →
        ((0 : Nat), (0 : δ)) ∈ results.filter (·.1 ∉ c.deletedNodesSet) := fun h =>
      mem_filter.mpr ⟨hperm.mem_iff.mpr h, by simpa using hzero⟩
    generalize results.filter (·.1 ∉ c.deletedNodesSet) = live at *
    rcases Nat.lt_or_ge live.length c.topk with hroom | hfull
    · -- the first zero is shown after all results that are not deleted
      refine iff_of_false (fun hbad => ?_) (by omega)
      have hshown : live ++ [(0, 0)] <+:
          (live ++ replicate (m + 1) ((0 : Nat), (0 : δ))).take c.topk := by
        obtain ⟨k, hk⟩ : ∃ k, c.topk = live.length + (k + 1) :=
          ⟨c.topk - live.length - 1, by omega⟩
        rw [hk, take_length_add_append]
        exact (prefix_append_right_inj _).mpr ⟨_, rfl⟩
      have hbad := hbad.sublist hshown.sublist
      have hzero := hmem (hbad.2 _ (mem_append_right _ (mem_singleton_self _)))
      have hdup := hbad.1
      rw [map_append, nodup_append] at hdup
      exact hdup.2.2 0 (mem_map.mpr ⟨_, hzero, rfl⟩) 0 (mem_singleton_self _) rfl
    · rw [take_append_of_le_length hfull]
      exact iff_of_true (hlive.sublist (take_sublist _ _)) hfull

variable [LinearOrder δ]

theorem nodup_sorted (t : Traversal δ ix) :
    ((sortNeighbors (t.ranked.map (·.nbr))).map (·.id)).Nodup := by
  rw [((sortNeighbors_perm _).map _).nodup_iff, map_map]
  exact t.nodup

/-- The results of all ranked points are genuine where no selector is used on disk. -/
theorem genuine_ranked (hix : ix.DistinctTags)
    (h : c.found t = t.ranked.map fun r => ix.result r.nbr) :
    c.Genuine t ((sortNeighbors (t.ranked.map (·.nbr))).map ix.result) := by
  have hperm := sortNeighbors_perm (t.ranked.map (·.nbr))
  constructor
  · refine hix.nodup_results (nodup_sorted t) fun n hn => ?_
    obtain ⟨r, hr, rfl⟩ := mem_map.mp (hperm.mem_iff.mp hn)
    exact t.stored r hr
  · intro e he
    have hmem := (hperm.map ix.result).mem_iff.mp he
    rw [map_map] at hmem
    exact h ▸ hmem

/-- A result of pre-filtering below the sentinel is that of a member. -/
theorem mem_found_of_preFilter (hsel : c.selector.isSome) (huse : c.useDiskIndex)
    {n : Neighbor δ} (hn : n ∈ Strategy.retset fltMax t.ranked .preFilter)
    (hlt : n.distance < fltMax) : ix.result n ∈ c.found t := by
  obtain ⟨r, hr, rfl⟩ := mem_map.mp hn
  by_cases hmem : r.isMember
  · rw [found, hsel, huse]
    refine mem_map.mpr ⟨r, mem_filter.mpr ⟨hr, hmem⟩, ?_⟩
    rw [if_pos hmem]
  · rw [if_neg hmem] at hlt
    exact absurd hlt (lt_irrefl _)

/-- What `spec_filter_search` counts. -/
theorem genuine_specFilter (hix : ix.DistinctTags) {strategy : Strategy}
    (hsel : c.selector = some strategy) (huse : c.useDiskIndex) {written : List (Nat × δ)}
    (hw : written = ix.copyTopK (sortNeighbors (strategy.retset fltMax t.ranked)) c.L none) :
    c.Genuine t (written.take (trimLoop fltMax written written.length)) := by
  have hsome : c.selector.isSome = true := by rw [hsel]; rfl
  have hperm := sortNeighbors_perm (strategy.retset fltMax t.ranked)
  have hids : ∀ l : List (Ranked δ), l.Sublist t.ranked → (l.map (·.nbr.id)).Nodup :=
    fun l hl => t.nodup.sublist (hl.map _)
  have hnd : ((strategy.retset fltMax t.ranked).map (·.id)).Nodup ∧
      ∀ n ∈ strategy.retset fltMax t.ranked, n.id ∈ ix.ids := by
    cases strategy with
    | preFilter =>
      refine ⟨?_, fun n hn => ?_⟩
      · rw [Strategy.retset, map_map]
        exact t.nodup
      · obtain ⟨r, hr, rfl⟩ := mem_map.mp hn
        exact t.stored r hr
    | inFilter | postFilter =>
      refine ⟨?_, fun n hn => ?_⟩
      · rw [Strategy.retset, map_map]
        exact hids _ filter_sublist
      · obtain ⟨r, hr, rfl⟩ := mem_map.mp hn
        exact t.stored r (mem_filter.mp hr).1
  have hsortedIds := (hperm.map (·.id)).nodup_iff.mpr hnd.1
  rw [TagMap.copyTopK_none hsortedIds] at hw
  have hsub : written.Sublist ((sortNeighbors (strategy.retset fltMax t.ranked)).map ix.result) :=
    hw ▸ take_sublist _ _
  refine ⟨?_, fun e he => ?_⟩
  · have hall := hix.nodup_results hsortedIds fun n hn => hnd.2 n (hperm.mem_iff.mp hn)
    exact hall.sublist (((take_sublist _ _).trans hsub).map _)
  · have hsorted : written.Pairwise (·.2 ≤ ·.2) := by
      refine Pairwise.sublist hsub (pairwise_map.mpr ?_)
      exact (sortNeighbors_sorted _).imp fun h => distance_le_of_neighborLe h
    have hlt := lt_of_mem_take_trimLoop hsorted le_rfl he
    obtain ⟨n, hn, rfl⟩ := mem_map.mp (hsub.subset (mem_of_mem_take he))
    have hn := hperm.mem_iff.mp hn
    cases strategy with
    | preFilter => exact mem_found_of_preFilter hsome huse hn hlt
    | inFilter | postFilter =>
      rw [found, hsome, huse]
      obtain ⟨r, hr, rfl⟩ := mem_map.mp hn
      exact mem_map.mpr ⟨r, hr, rfl⟩

/-- The modes: what is counted is genuine, or all `L` entries are counted. -/
theorem routine_cases (hix : ix.DistinctTags) {r : List (Nat × δ) × Nat}
    (h : c.routine fltMax t = some r) :
    c.Unfiltered ∧ r = (ix.copyTopK (sortNeighbors (t.ranked.map (·.nbr))) c.L none, c.L) ∨
      ¬ c.Unfiltered ∧ r.2 ≤ r.1.length ∧ c.Genuine t (r.1.take r.2) := by
  have hall : ∀ written : List (Nat × δ),
      written.Sublist ((sortNeighbors (t.ranked.map (·.nbr))).map ix.result) →
      c.found t = (t.ranked.map fun r => ix.result r.nbr) →
      c.Genuine t (written.take written.length) := by
    intro written hsub hfound
    rw [take_length]
    exact (genuine_ranked hix hfound).sublist hsub
  have hfound (hsel : c.selector = none) : c.found t = t.ranked.map fun r => ix.result r.nbr := by
    rw [found, hsel]
    rfl
  revert h
  fun_cases routine fltMax c t with
  | case1 strategy huse hsel =>
    rintro ⟨⟩
    exact .inr ⟨by simp [Unfiltered, hsel], trimLoop_le .., genuine_specFilter hix hsel huse rfl⟩
  | case2 _ strategy huse hsel =>
    rintro ⟨⟩
    refine .inr ⟨by simp [Unfiltered, hsel], le_rfl, hall _ (TagMap.searchWithTags_sublist ..) ?_⟩
    rw [found, huse, Bool.and_false]
    rfl
  | case3 _ bound hrange huse hsel =>
    rintro ⟨⟩
    refine .inr ⟨by simp [Unfiltered, hrange], le_rfl, hall _ ?_ (hfound hsel)⟩
    change (ix.copyTopK _ c.L (some bound)).Sublist _
    rw [TagMap.copyTopK_eq (nodup_sorted t)]
    exact (take_sublist _ _).trans ((takeWhile_sublist _).map _)
  | case4 => rintro ⟨⟩
  | case5 _ hrange huse hsel => exact fun h => .inl ⟨⟨huse, hsel, hrange⟩, (Option.some.inj h).symm⟩
  | case6 _ _ huse hsel =>
    rintro ⟨⟩
    exact .inr ⟨by simp [Unfiltered, huse], le_rfl, hall _ (TagMap.searchWithTags_sublist ..)
      (hfound hsel)⟩

/-! ## The mode that counts all entries -/

variable [Zero δ]

/-- What is shown when all `L` entries are counted. -/
theorem genuine_arrays_iff (hix : ix.DistinctTags) (hun : c.Unfiltered) :
    c.Genuine t ((((c.arrays (ix.copyTopK (sortNeighbors (t.ranked.map (·.nbr))) c.L none)).take
      c.L).filter (·.1 ∉ c.deletedNodesSet)).take c.topk) ↔ c.Enough t := by
  have hfound : c.found t = t.ranked.map fun r => ix.result r.nbr := by
    rw [found, hun.2.1]
    rfl
  have hgen := genuine_ranked hix hfound
  have hperm : ((sortNeighbors (t.ranked.map (·.nbr))).map ix.result).Perm (c.found t) := by
    have hmap := (sortNeighbors_perm (t.ranked.map (·.nbr))).map ix.result
    rw [map_map] at hmap
    exact hfound ▸ hmap
  have hlen : ((sortNeighbors (t.ranked.map (·.nbr))).map ix.result).length = t.ranked.length := by
    rw [hperm.length_eq, hfound, length_map]
  rw [TagMap.copyTopK_none (nodup_sorted t), arrays, Enough]
  generalize (sortNeighbors (t.ranked.map (·.nbr))).map ix.result = results at *
  rcases Nat.lt_or_ge t.ranked.length c.L with hfew | henough
  · obtain ⟨m, hm⟩ : ∃ m, c.L - t.ranked.length = m + 1 :=
      ⟨c.L - t.ranked.length - 1, by omega⟩
    have hlenAll : (results ++ replicate (m + 1) ((0 : Nat), (0 : δ))).length = c.L := by
      rw [length_append, length_replicate]
      omega
    have htake : results.take c.L = results := take_of_length_le (by omega)
    have hno : ¬ c.L ≤ t.ranked.length := by omega
    rw [htake, hlen, hm, take_of_length_le hlenAll.le, genuine_zeros_iff hgen hperm,
      or_iff_right hno]
  · -- as many nodes as asked for: no zero is counted
    refine iff_of_true (hgen.sublist ?_) (.inl henough)
    rw [take_append_of_le_length (by rw [length_take]; omega)]
    exact (take_sublist _ _).trans
      (filter_sublist.trans ((take_sublist _ _).trans (take_sublist _ _)))

theorem answers_iff_of_distinctTags (hix : ix.DistinctTags) {out : List (Nat × δ)} {n : Nat}
    (h : c.search fltMax t = some (out, n)) :
    c.Answers fltMax t out n ↔ (c.Unfiltered → c.Enough t) := by
  obtain ⟨r, hr, hout⟩ := Option.map_eq_some_iff.mp h
  obtain ⟨rfl, rfl⟩ := Prod.mk.inj hout
  rw [answers_iff]
  rcases routine_cases hix hr with ⟨hun, rfl⟩ | ⟨hun, hle, hgen⟩
  · rw [genuine_arrays_iff hix hun]
    exact ⟨fun h _ => h, fun h => h hun⟩
  · refine iff_of_true ?_ fun h => absurd h hun
    rw [arrays, take_append_of_le_length hle]
    exact hgen.sublist ((take_sublist _ _).trans filter_sublist)

/-- A range search that finds two points with one tag shows it twice. -/
theorem exists_search_twice (fltMax : δ) {a b : Nat} (ha : a ∈ ix.ids) (hb : b ∈ ix.ids)
    (hab : a ≠ b) (htag : ix.id2tag a = ix.id2tag b) :
    ∃ t : Traversal δ ix, (⟨true, none, some 0, 2, 2, []⟩ : SearchCall δ).search fltMax t =
      some ([(ix.id2tag a, 0), (ix.id2tag a, 0)], 2) := by
  refine ⟨⟨[⟨⟨a, 0⟩, true⟩, ⟨⟨b, 0⟩, true⟩], ?_, ?_⟩, ?_⟩
  · simpa using hab
  · simpa using ⟨ha, hb⟩
  · have hsorted : sortNeighbors [⟨a, 0⟩, ⟨b, 0⟩] = [⟨a, (0 : δ)⟩, ⟨b, 0⟩] ∨
        sortNeighbors [⟨a, 0⟩, ⟨b, 0⟩] = [⟨b, (0 : δ)⟩, ⟨a, 0⟩] := by
      rw [sortNeighbors, insertionSort_cons, insertionSort_cons, insertionSort_nil,
        orderedInsert_nil, orderedInsert_cons]
      split
      · exact .inl rfl
      · exact .inr rfl
    rcases hsorted with h | h <;>
      simp [search, routine, h, TagMap.copyTopK, TagMap.copyLoop, TagMap.result, arrays, showLoop,
        hab, hab.symm, htag]

/-- **What `search` writes.**  The tags of an index are different if and only if, for any
traversal and any call, the output is right in every mode but one, and in that one exactly if no
zero of the arrays is shown. -/
theorem search_answers_iff (fltMax : δ) (ix : TagMap) :
    ix.DistinctTags ↔
      ∀ (t : Traversal δ ix) (c : SearchCall δ) (out : List (Nat × δ)) (n : Nat),
        c.search fltMax t = some (out, n) →
          (c.Answers fltMax t out n ↔ (c.Unfiltered → c.Enough t)) := by
  refine ⟨fun hix t c out n h => answers_iff_of_distinctTags hix h, fun hall a ha b hb htag => ?_⟩
  by_contra hab
  obtain ⟨t, ht⟩ := exists_search_twice fltMax ha hb hab htag
  have hanswers := (hall t _ _ _ ht).mpr fun hun => by cases hun.2.2
  exact (nodup_cons.mp hanswers.distinct).1 (mem_singleton_self _)

end SearchCall
end

/-! ## One point -/

/-- An index whose only point has the id and tag `7`. -/
def sevenOnly : TagMap where
  ids := [7]
  tags id := if id = 7 then some 7 else none

/-- A traversal that finds it at distance `5`. -/
def sevenFound : Traversal Nat sevenOnly where
  ranked := [⟨⟨7, 5⟩, true⟩]
  nodup := by decide
  stored := by decide

/-- A search for `topk` of `L` results on disk, with a strategy for filtering or none. -/
def diskSearch (selector : Option Strategy) (topk L : Nat) : SearchCall Nat :=
  ⟨true, selector, none, topk, L, []⟩

/-- **A tag of no point.**  With `L = topk = 2` the second result is tag `0` at distance `0`,
and two results are counted. -/
theorem fewerThanL_shows_zero :
    (diskSearch none 2 2).search 100 sevenFound = some ([(7, 5), (0, 0)], 2) ∧
      0 ∉ sevenOnly.ids.map sevenOnly.id2tag ∧
      ¬ (diskSearch none 2 2).Answers 100 sevenFound [(7, 5), (0, 0)] 2 := by
  refine ⟨by decide, by decide, fun h => ?_⟩
  have hzero := h.computed (0, 0) (by decide)
  exact absurd hzero (by decide)

end PipeANN
