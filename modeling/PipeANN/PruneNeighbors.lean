import Mathlib.Data.List.Sort

/-! # Pruning a candidate list

`prune_neighbors` (`prune_neighbors.h`) selects at most `R` of a pool of candidates.  The
candidates are sorted by distance and cut to the `C` nearest.  Several rounds with growing
`cur_alpha` take a candidate if no selected one occludes it by more than `cur_alpha`, and
raise the occlusion factors of those behind it.  At last the list may be filled up with
the nearest candidates that were not selected.

Distances and occlusion factors are values of any linear order, `get_occlude_factor` is any
function of two distances.  The values `cur_alpha` takes (`1`, `1.2`, `1.44`, … up to
`alpha`) do not depend on the candidates; they are given as a list.

`pruneNeighbors_spec` is what every caller relies on: **the result has no duplicates, only
candidates, and at most `R` entries.**
-/
namespace PipeANN
open List

/-- A candidate with its distance. -/
structure Neighbor (δ : Type) where
  id : Nat
  distance : δ
  deriving DecidableEq

/-- The parameters of `prune_neighbors`. -/
structure PruneParams (δ : Type) where
  R : Nat
  C : Nat
  alpha : δ
  /-- The values of `cur_alpha`. -/
  curAlphas : List δ
  /-- `saturate_graph && alpha > 1`. -/
  saturate : Bool
  /-- The factor of a candidate that nothing occludes. -/
  zero : δ
  /-- `std::numeric_limits<float>::max()`. -/
  max : δ
  /-- `get_occlude_factor` for the metric, of the candidate's distance and its distance
  to the selected one. -/
  occludeFactor : δ → δ → δ

namespace PruneParams
variable {δ : Type} [LinearOrder δ] (params : PruneParams δ) (computeDistance : Nat → Nat → δ)
  (pool : List (Neighbor δ)) {set : List (Neighbor δ)}

/-- The order of `std::sort` and `std::set`: by distance, then by id. -/
def neighborLe (a b : Neighbor δ) : Prop :=
  a.distance < b.distance ∨ a.distance = b.distance ∧ a.id ≤ b.id

instance : DecidableRel (neighborLe (δ := δ)) := fun a b => by
  unfold neighborLe
  infer_instance

instance : Std.Total (@neighborLe δ _) where
  total a b := by
    rcases lt_trichotomy a.distance b.distance with h | h | h
    · exact .inl (.inl h)
    · rcases Nat.le_total a.id b.id with hid | hid
      · exact .inl (.inr ⟨h, hid⟩)
      · exact .inr (.inr ⟨h.symm, hid⟩)
    · exact .inr (.inl h)

instance : IsTrans (Neighbor δ) neighborLe where
  trans a b c hab hbc := by
    rcases hab with hab | ⟨hab, hid⟩
    · rcases hbc with hbc | ⟨hbc, -⟩
      · exact .inl (hab.trans hbc)
      · exact .inl (hbc ▸ hab)
    · rcases hbc with hbc | ⟨hbc, hid'⟩
      · exact .inl (hab ▸ hbc)
      · exact .inr ⟨hab.trans hbc, hid.trans hid'⟩

theorem distance_le_of_neighborLe {a b : Neighbor δ} (h : neighborLe a b) :
    a.distance ≤ b.distance := by
  rcases h with h | ⟨h, -⟩
  · exact h.le
  · exact h.le

/-- The candidates, sorted and cut to the nearest. -/
def sortPool : List (Neighbor δ) :=
  (pool.insertionSort neighborLe).take params.C

/-- Insertion in a `std::set`. -/
def setInsert (set : List (Neighbor δ)) (p : Neighbor δ) : List (Neighbor δ) :=
  if p ∈ set then set else set.orderedInsert neighborLe p

/-- The selected candidates, and the occlusion factor of every position of the pool. -/
structure Selection (δ : Type) where
  resultSet : List (Neighbor δ)
  occludeFactor : Nat → δ

/-- The factors after `p` at position `start` is selected. -/
def occlude (start : Nat) (p : Neighbor δ) (factor : Nat → δ) : Nat → δ := fun t =>
  if t = start then params.max
  else match pool[t]? with
    | some q =>
      if start < t ∧ t < params.C ∧ factor t ≤ params.alpha then
        Max.max (factor t) (params.occludeFactor q.distance (computeDistance p.id q.id))
      else factor t
    | none => factor t

/-- One position of a round. -/
def selectAt (curAlpha : δ) (sel : Selection δ) (start : Nat) : Selection δ :=
  match pool[start]? with
  | some p =>
    if sel.resultSet.length < params.R ∧ sel.occludeFactor start ≤ curAlpha then
      ⟨setInsert sel.resultSet p, params.occlude computeDistance pool start p sel.occludeFactor⟩
    else sel
  | none => sel

/-- One round over the pool. -/
def selectRound (sel : Selection δ) (curAlpha : δ) : Selection δ :=
  (List.range pool.length).foldl (params.selectAt computeDistance pool curAlpha) sel

/-- The loop that fills up the list. -/
def fillUp (prunedList : List Nat) : List Nat :=
  pool.foldl (fun l p => if l.length < params.R ∧ p.id ∉ l then l ++ [p.id] else l) prunedList

/-- All rounds. -/
def select : Selection δ :=
  params.curAlphas.foldl (params.selectRound computeDistance pool) ⟨[], fun _ => params.zero⟩

/-- `prune_neighbors`; with no candidates it leaves the list it was given. -/
def pruneNeighbors (prunedList : List Nat) : List Nat :=
  if pool.isEmpty then prunedList
  else
    let pool := params.sortPool pool
    let prunedList := (params.select computeDistance pool).resultSet.map Neighbor.id
    if params.saturate then params.fillUp pool prunedList else prunedList

/-! ## What the result is made of -/

theorem mem_setInsert {p q : Neighbor δ} : q ∈ setInsert set p ↔ q = p ∨ q ∈ set := by
  unfold setInsert
  split
  · next h => exact ⟨.inr, fun hq => hq.elim (fun he => he ▸ h) fun hq => hq⟩
  · exact mem_orderedInsert _

theorem nodup_setInsert (h : set.Nodup) (p : Neighbor δ) : (setInsert set p).Nodup := by
  unfold setInsert
  split
  · exact h
  · next hp =>
    exact (perm_orderedInsert _ p set).nodup_iff.mpr (nodup_cons.mpr ⟨hp, h⟩)

theorem length_setInsert_le (set : List (Neighbor δ)) (p : Neighbor δ) :
    (setInsert set p).length ≤ set.length + 1 := by
  unfold setInsert
  split
  · exact Nat.le_succ _
  · exact (orderedInsert_length _ set p).le

variable {pool}

/-- The selected candidates are distinct members of the pool, at most `R`. -/
structure Selected (R : Nat) (pool : List (Neighbor δ)) (sel : Selection δ) : Prop where
  nodup : sel.resultSet.Nodup
  subset : ∀ p ∈ sel.resultSet, p ∈ pool
  length_le : sel.resultSet.length ≤ R

theorem Selected.selectAt {sel : Selection δ}
    (h : Selected params.R pool sel) (curAlpha : δ) (start : Nat) :
    Selected params.R pool (params.selectAt computeDistance pool curAlpha sel start) := by
  unfold PruneParams.selectAt
  split
  · next p hp =>
    split
    · next hroom =>
      refine ⟨nodup_setInsert h.nodup p, fun q hq => ?_, ?_⟩
      · rcases mem_setInsert.mp hq with rfl | hq
        · exact mem_of_getElem? hp
        · exact h.subset q hq
      · have := length_setInsert_le sel.resultSet p
        show (setInsert sel.resultSet p).length ≤ params.R
        omega
    · exact h
  · exact h

theorem Selected.selectRound {sel : Selection δ} (h : Selected params.R pool sel) (curAlpha : δ) :
    Selected params.R pool (params.selectRound computeDistance pool sel curAlpha) := by
  unfold PruneParams.selectRound
  induction range pool.length generalizing sel with
  | nil => exact h
  | cons start rest ih => exact ih (h.selectAt params computeDistance curAlpha start)

variable (pool)

theorem selected_select : Selected params.R pool (params.select computeDistance pool) := by
  have hrounds : ∀ (alphas : List δ) (sel : Selection δ), Selected params.R pool sel →
      Selected params.R pool (alphas.foldl (params.selectRound computeDistance pool) sel) := by
    intro alphas
    induction alphas with
    | nil => exact fun sel h => h
    | cons a alphas ih => exact fun sel h => ih _ (h.selectRound params computeDistance a)
  exact hrounds _ _ ⟨nodup_nil, fun p hp => absurd hp not_mem_nil, Nat.zero_le _⟩

omit [LinearOrder δ] in
theorem fillUp_spec {l : List Nat} (hnd : l.Nodup) (hle : l.length ≤ params.R) :
    (params.fillUp pool l).Nodup ∧ (params.fillUp pool l).length ≤ params.R ∧
      ∀ x ∈ params.fillUp pool l, x ∈ l ∨ ∃ p ∈ pool, p.id = x := by
  unfold fillUp
  induction pool generalizing l with
  | nil => exact ⟨hnd, hle, fun x hx => .inl hx⟩
  | cons p pool ih =>
    rw [foldl_cons]
    split
    · next hp =>
      have hnd' : (l ++ [p.id]).Nodup := by
        rw [nodup_append_comm]
        exact nodup_cons.mpr ⟨hp.2, hnd⟩
      have hle' : (l ++ [p.id]).length ≤ params.R := by
        rw [length_append]
        exact hp.1
      obtain ⟨h1, h2, h3⟩ := ih hnd' hle'
      refine ⟨h1, h2, fun x hx => ?_⟩
      rcases h3 x hx with hx | ⟨q, hq, he⟩
      · rcases mem_append.mp hx with hx | hx
        · exact .inl hx
        · exact .inr ⟨p, mem_cons_self, (mem_singleton.mp hx).symm⟩
      · exact .inr ⟨q, mem_cons_of_mem _ hq, he⟩
    · obtain ⟨h1, h2, h3⟩ := ih hnd hle
      refine ⟨h1, h2, fun x hx => (h3 x hx).imp_right ?_⟩
      exact fun ⟨q, hq, he⟩ => ⟨q, mem_cons_of_mem _ hq, he⟩

/-- **`prune_neighbors`** returns distinct candidates, at most `R`. -/
theorem pruneNeighbors_spec (hne : pool ≠ [])
    (hnd : (pool.map Neighbor.id).Nodup) (prunedList : List Nat) :
    (params.pruneNeighbors computeDistance pool prunedList).Nodup ∧
      (params.pruneNeighbors computeDistance pool prunedList).length ≤ params.R ∧
      ∀ x ∈ params.pruneNeighbors computeDistance pool prunedList, ∃ p ∈ pool, p.id = x := by
  have hpool : ∀ p ∈ params.sortPool pool, p ∈ pool := fun p hp =>
    (mem_insertionSort _).mp (mem_of_mem_take hp)
  obtain ⟨hnds, hsub, hle⟩ := params.selected_select computeDistance (params.sortPool pool)
  -- two selected candidates with one id are one candidate of the pool
  have hids : ((params.select computeDistance (params.sortPool pool)).resultSet.map
      Neighbor.id).Nodup := by
    refine (nodup_map_iff_inj_on hnds).mpr fun p hp q hq he => ?_
    exact inj_on_of_nodup_map hnd (hpool p (hsub p hp)) (hpool q (hsub q hq)) he
  have hlen : ((params.select computeDistance (params.sortPool pool)).resultSet.map
      Neighbor.id).length ≤ params.R := by
    rwa [length_map]
  have hmem : ∀ x ∈ (params.select computeDistance (params.sortPool pool)).resultSet.map
      Neighbor.id, ∃ p ∈ pool, p.id = x := by
    intro x hx
    obtain ⟨p, hp, rfl⟩ := mem_map.mp hx
    exact ⟨p, hpool p (hsub p hp), rfl⟩
  rw [pruneNeighbors, if_neg (by simpa using hne)]
  split
  · obtain ⟨h1, h2, h3⟩ := params.fillUp_spec (params.sortPool pool) hids hlen
    refine ⟨h1, h2, fun x hx => ?_⟩
    rcases h3 x hx with hx | ⟨p, hp, he⟩
    · exact hmem x hx
    · exact ⟨p, hpool p hp, he⟩
  · exact ⟨hids, hlen, hmem⟩

end PruneParams
end PipeANN
