import Mathlib.Algebra.Group.Nat.Defs
import PipeANN.ChunkedLoop
import PipeANN.DiskLayout
import PipeANN.IdMaps
import PipeANN.LastWrites
import PipeANN.PruneNeighbors
import PipeANN.SlidingWindow
import Mathlib.Data.List.Lookmap

/-! # Merging deletes

`merge_deletes` (`delete_merge.cpp`) writes a new index file without the deleted nodes.
A first pass over all locations, in chunks of `LOC_PER_POPULATE`, hands out new ids to the
nodes that stay and collects the neighbourhoods of those that go.  A second pass, in chunks
of `LOC_PER_MERGE`, computes the new record of every node that stays and puts it in a
buffer of two chunks, from which `write_back` writes whole chunks of new ids to the file.

In both passes the locations of one chunk are processed in parallel; a
`ChunkedLoop.Schedule` gives the order in which they take effect.  The iteration order of
an `unordered_set` is left open too (`MergeParams.setOrder`).  Vectors, attributes and
tags are opaque, distances are values of any linear order.

This module has the two passes and what they do to the nodes; what reaches the file is in
`MergeWriteBack`.  `mergeDeletes_records`: **the new ids are a renumbering of the nodes
that stay, and the new record of each has its old vector, attributes and tag, and at most
`R` distinct neighbours, other than itself, that stay.**

A deleted entry point is replaced by the first of its kept neighbours, whether it has any or
not; `entryPoint_replaced_iff` says when that goes well.
-/
namespace PipeANN

open List Function ChunkedLoop SlidingWindow
open Option (bind_eq_bind bind_some some)

/-- A record of the index file.  The number of neighbours is a `uint16_t`. -/
structure DiskNode (ν α : Type) where
  coords : ν
  nbrs : List Nat
  nnbrs_lt : nbrs.length < 2 ^ 16
  attrs : α

/-- The record with other neighbours; their number is stored in 16 bits. -/
def DiskNode.withNbrs {ν α : Type} (node : DiskNode ν α) (nhood : List Nat) : DiskNode ν α where
  coords := node.coords
  nbrs := nhood.take (nhood.length % 2 ^ 16)
  nnbrs_lt := Nat.lt_of_le_of_lt (length_take_le _ _) (Nat.mod_lt _ (by decide))
  attrs := node.attrs

/-- The index to be merged: the location map is injective, and neighbour lists name
existing ids. -/
structure SSDIndex (ν α τ : Type) where
  nnodesPerSector : Nat
  curLoc : Nat
  /-- `loc2id`, with `none` for `kInvalidID`. -/
  loc2id : Nat → Option Nat
  loc2id_inj : ∀ l < curLoc, ∀ l' < curLoc, ∀ id, loc2id l = some id → loc2id l' = some id → l = l'
  id2tag : Nat → τ
  /-- The record at a location. -/
  node : Nat → DiskNode ν α
  nbrs_exist : ∀ l < curLoc, ∀ id, loc2id l = some id → ∀ n ∈ (node l).nbrs,
    ∃ l' < curLoc, loc2id l' = some n

/-- What `merge_deletes` is run with. -/
structure MergeParams (δ : Type) where
  /-- `sampled_nbrs_for_delete`. -/
  nSampledNbrs : Nat
  /-- The parameters of `prune_neighbors`, `R` among them. -/
  prune : PruneParams δ
  /-- `nbr_handler->compute_dists`. -/
  computeDists : Nat → Nat → δ
  /-- The iteration order of an `unordered_set` with the given elements. -/
  setOrder : List Nat → List Nat
  setOrder_perm : ∀ l, (setOrder l).Perm l

/-- `LOC_PER_POPULATE`. -/
def locPerPopulate : Nat := 128 * 8

/-- `LOC_PER_MERGE`. -/
def locPerMerge (nnodesPerSector : Nat) : Nat :=
  if 0 < nnodesPerSector then roundUp 131072 nnodesPerSector else 131072

namespace SSDIndex
variable {ν α τ δ : Type} (ix : SSDIndex ν α τ) (deleted : τ → Bool) (params : MergeParams δ)

/-! ## The first pass -/

/-- What the first pass collects. -/
structure Populated where
  /-- `id_map`, from old to new ids. -/
  idMap : List (Nat × Nat)
  newNpoints : Nat
  /-- `deleted_nhoods`. -/
  deletedNhoods : List (Nat × List Nat)

/-- The neighbourhood kept of a deleted node. -/
def sampledNhood (loc : Nat) : List Nat :=
  ((ix.node loc).nbrs.filter fun n => !deleted (ix.id2tag n)).take params.nSampledNbrs

/-- One location of the first pass. -/
def populateLoc (p : Populated) (loc : Nat) : Populated :=
  match ix.loc2id loc with
  | none => p
  | some id =>
    if deleted (ix.id2tag id) then
      { p with deletedNhoods := p.deletedNhoods ++ [(id, ix.sampledNhood deleted params loc)] }
    else { p with idMap := p.idMap ++ [(id, p.newNpoints)], newNpoints := p.newNpoints + 1 }

/-- The first pass. -/
def populate (sched : Schedule locPerPopulate ix.curLoc) : Populated :=
  sched.flat.foldl (ix.populateLoc deleted params) ⟨[], 0, []⟩

/-! ## The second pass -/

/-- The set of candidates for the new neighbours of a node: its neighbours that stay, and
the neighbourhoods of those that go.  `none` if a neighbourhood is missing (`find`
throws). -/
def gatherNhood (p : Populated) (nbrs : List Nat) : Option (List Nat) :=
  nbrs.foldlM (fun set n =>
    if deleted (ix.id2tag n) then
      (p.deletedNhoods.lookup n).map fun nhood => nhood.foldl (fun set x => set.insert x) set
    else some (set.insert n)) []

section SecondPass
variable [LinearOrder δ]

/-- The new neighbours, by their old ids. -/
def newNbrs (p : Populated) (id : Nat) (nbrs : List Nat) : Option (List Nat) := do
  let nhoodSet ← ix.gatherNhood deleted p nbrs
  let nhood := params.setOrder (nhoodSet.erase id)
  if params.prune.R < nhood.length then
    let pool := nhood.map fun n => ⟨n, params.computeDists id n⟩
    some (params.prune.pruneNeighbors params.computeDists pool nhood)
  else some nhood

/-- The new record of a node. -/
def mergeNode (p : Populated) (loc id : Nat) : Option (DiskNode ν α) := do
  let node := ix.node loc
  let nhood ← ix.newNbrs deleted params p id node.nbrs
  let nhood ← nhood.mapM fun n => p.idMap.lookup n
  some (node.withNbrs nhood)

/-- The write buffer, whose slots are marked with the new id they were written for, and
the new tags. -/
structure MergeState (ν α τ : Type) where
  window : State (Nat × DiskNode ν α)
  newTags : Nat → Option τ

/-- One location of the second pass. -/
def mergeLoc (p : Populated) (st : MergeState ν α τ) (loc : Nat) : Option (MergeState ν α τ) :=
  match ix.loc2id loc with
  | none => some st
  | some id =>
    if deleted (ix.id2tag id) then some st
    else do
      let node ← ix.mergeNode deleted params p loc id
      let newId ← p.idMap.lookup id
      some ⟨fill (locPerMerge ix.nnodesPerSector) st.window newId (newId, node),
        update st.newTags newId (some (ix.id2tag id))⟩

/-- One chunk of the second pass: a batch is written back if it is complete. -/
def mergeChunk (p : Populated) (st : MergeState ν α τ) (locs : List Nat) :
    Option (MergeState ν α τ) := do
  let st ← locs.foldlM (ix.mergeLoc deleted params p) st
  some { st with window := endRound (locPerMerge ix.nnodesPerSector) st.window }

/-- The second pass: the chunks, then the rest is written back. -/
def mergePass (p : Populated) (sched : Schedule (locPerMerge ix.nnodesPerSector) ix.curLoc) :
    Option (MergeState ν α τ) := do
  let st ← sched.rounds.foldlM (ix.mergeChunk deleted params p) ⟨empty, fun _ => none⟩
  some { st with
    window := drain (locPerMerge ix.nnodesPerSector) st.window.used st.window }

end SecondPass

/-! ## The nodes that stay -/

/-- The node at the location stays. -/
def live (loc : Nat) : Bool :=
  decide (loc < ix.curLoc) && match ix.loc2id loc with
    | none => false
    | some id => !deleted (ix.id2tag id)

/-- The id has a node and stays. -/
def Survives (id : Nat) : Prop :=
  ∃ loc < ix.curLoc, ix.loc2id loc = some id ∧ deleted (ix.id2tag id) = false

/-- The node at the location goes. -/
def dead (loc : Nat) : Bool :=
  decide (loc < ix.curLoc) && match ix.loc2id loc with
    | none => false
    | some id => deleted (ix.id2tag id)

/-- The id of the node at a location that has one. -/
def idAt (loc : Nat) : Nat := (ix.loc2id loc).getD 0

variable {ix deleted} {loc : Nat}

theorem live_iff : ix.live deleted loc ↔
    loc < ix.curLoc ∧ ∃ id, ix.loc2id loc = some id ∧ deleted (ix.id2tag id) = false := by
  cases hid : ix.loc2id loc <;> simp [live, hid]

theorem live_lt (h : ix.live deleted loc) : loc < ix.curLoc := (live_iff.mp h).1

theorem dead_iff : ix.dead deleted loc ↔
    loc < ix.curLoc ∧ ∃ id, ix.loc2id loc = some id ∧ deleted (ix.id2tag id) := by
  cases hid : ix.loc2id loc <;> simp [dead, hid]

theorem idAt_of_live (h : ix.live deleted loc) :
    ix.loc2id loc = some (ix.idAt loc) ∧ deleted (ix.id2tag (ix.idAt loc)) = false := by
  obtain ⟨-, id, hid, hdel⟩ := live_iff.mp h
  simp [idAt, hid, hdel]

theorem idAt_of_dead (h : ix.dead deleted loc) :
    ix.loc2id loc = some (ix.idAt loc) ∧ deleted (ix.id2tag (ix.idAt loc)) := by
  obtain ⟨-, id, hid, hdel⟩ := dead_iff.mp h
  simp [idAt, hid, hdel]

/-! ## What the first pass collects -/

/-- **The first pass** numbers the nodes that stay in the order of the schedule. -/
theorem foldl_populateLoc (locs : List Nat) (hlocs : ∀ loc ∈ locs, loc < ix.curLoc)
    (p : Populated) : locs.foldl (ix.populateLoc deleted params) p =
      ⟨p.idMap ++ ((locs.filter (ix.live deleted)).zipIdx p.newNpoints).map
          fun q => (ix.idAt q.1, q.2),
        p.newNpoints + (locs.filter (ix.live deleted)).length,
        p.deletedNhoods ++ (locs.filter (ix.dead deleted)).map
          fun loc => (ix.idAt loc, ix.sampledNhood deleted params loc)⟩ := by
  induction locs generalizing p with
  | nil => simp
  | cons loc locs ih =>
    obtain ⟨hloc, hlocs⟩ := forall_mem_cons.mp hlocs
    rw [foldl_cons, ih hlocs, populateLoc]
    rcases hid : ix.loc2id loc with _ | id
    · simp [live, dead, hid]
    · cases hdel : deleted (ix.id2tag id) <;>
        simp [live, dead, idAt, hid, hdel, hloc, add_assoc, add_comm 1]

variable (sched : Schedule locPerPopulate ix.curLoc)

variable (ix deleted) in
/-- The new id of the node at a location. -/
def newIdAt (loc : Nat) : Nat :=
  (sched.flat.filter (ix.live deleted)).idxOf loc

theorem locPerPopulate_pos : 0 < locPerPopulate := by decide

theorem nodup_flat : sched.flat.Nodup :=
  (sched.flat_perm locPerPopulate_pos).nodup_iff.mpr nodup_range

theorem mem_flat : loc ∈ sched.flat ↔ loc < ix.curLoc := by
  rw [(sched.flat_perm locPerPopulate_pos).mem_iff, mem_range]

theorem mem_filter_live : loc ∈ sched.flat.filter (ix.live deleted) ↔ ix.live deleted loc := by
  rw [mem_filter, mem_flat]
  exact ⟨fun h => h.2, fun h => ⟨live_lt h, h⟩⟩

theorem populate_eq : ix.populate deleted params sched =
    ⟨((sched.flat.filter (ix.live deleted)).zipIdx).map fun q => (ix.idAt q.1, q.2),
      (sched.flat.filter (ix.live deleted)).length,
      (sched.flat.filter (ix.dead deleted)).map
        fun loc => (ix.idAt loc, ix.sampledNhood deleted params loc)⟩ := by
  rw [populate, foldl_populateLoc params _ (fun loc h => (mem_flat sched).mp h)]
  simp

/-- Distinct locations have distinct ids. -/
theorem nodup_map_idAt {p : Nat → Bool}
    (hp : ∀ loc, p loc → loc < ix.curLoc ∧ ix.loc2id loc = some (ix.idAt loc)) :
    ((sched.flat.filter p).map ix.idAt).Nodup := by
  refine (nodup_map_iff_inj_on ((nodup_flat sched).filter p)).mpr fun l hl l' hl' he => ?_
  obtain ⟨h1, h2⟩ := hp l (mem_filter.mp hl).2
  obtain ⟨h3, h4⟩ := hp l' (mem_filter.mp hl').2
  exact ix.loc2id_inj l h1 l' h3 _ h2 (he ▸ h4)

variable {id newId : Nat}

theorem newIdAt_inj {loc' : Nat} (h : ix.live deleted loc)
    (he : ix.newIdAt deleted sched loc = ix.newIdAt deleted sched loc') : loc = loc' :=
  (idxOf_inj ((mem_filter_live sched).mpr h)).mp he

/-- Neighbours kept of a deleted node exist and stay. -/
theorem survives_of_mem_sampledNhood {n : Nat} (h : ix.dead deleted loc)
    (hn : n ∈ ix.sampledNhood deleted params loc) : ix.Survives deleted n := by
  obtain ⟨hmem, hdel⟩ := mem_filter.mp (mem_of_mem_take hn)
  obtain ⟨hlt, id, hid, -⟩ := dead_iff.mp h
  obtain ⟨l', hl', hid'⟩ := ix.nbrs_exist loc hlt id hid n hmem
  exact ⟨l', hl', hid', by simpa using hdel⟩

section
variable {params sched} {p : Populated} (hp : ix.populate deleted params sched = p)
include hp

/-- **`id_map`.** -/
theorem lookup_idMap : p.idMap.lookup id = some newId ↔
      ∃ loc, ix.live deleted loc ∧ ix.loc2id loc = some id ∧
        ix.newIdAt deleted sched loc = newId := by
  have hnd := (nodup_flat sched).filter (ix.live deleted)
  have hkeys : ((((sched.flat.filter (ix.live deleted)).zipIdx).map
      fun q => (ix.idAt q.1, q.2)).map Prod.fst).Nodup := by
    rw [map_map]
    show (((sched.flat.filter (ix.live deleted)).zipIdx).map (ix.idAt ∘ Prod.fst)).Nodup
    rw [← map_map, zipIdx_map_fst]
    exact nodup_map_idAt sched fun loc h => ⟨live_lt h, (idAt_of_live h).1⟩
  rw [← hp, populate_eq, IdMap.lookup_eq_some_iff hkeys, mem_map]
  constructor
  · rintro ⟨⟨loc, i⟩, hmem, he⟩
    obtain ⟨rfl, rfl⟩ := Prod.mk.inj he
    have hget : (sched.flat.filter (ix.live deleted))[i]? = some loc :=
      mem_zipIdx_iff_getElem?.mp hmem
    have hl := (mem_filter_live sched).mp (mem_of_getElem? hget)
    refine ⟨loc, hl, (idAt_of_live hl).1, ?_⟩
    obtain ⟨hi, hloc⟩ := List.getElem?_eq_some_iff.mp hget
    rw [← hloc]
    exact hnd.idxOf_getElem i hi
  · rintro ⟨loc, hl, hid, rfl⟩
    have hmem := (mem_filter_live sched).mpr hl
    refine ⟨(loc, ix.newIdAt deleted sched loc), mem_zipIdx_iff_getElem?.mpr ?_, ?_⟩
    · exact getElem?_idxOf hmem
    · simp [idAt, hid]

/-- **`deleted_nhoods`.** -/
theorem lookup_deletedNhoods {nhood : List Nat} :
    p.deletedNhoods.lookup id = some nhood ↔
      ∃ loc, ix.dead deleted loc ∧ ix.idAt loc = id ∧
        ix.sampledNhood deleted params loc = nhood := by
  have hkeys : (((sched.flat.filter (ix.dead deleted)).map
      fun loc => (ix.idAt loc, ix.sampledNhood deleted params loc)).map Prod.fst).Nodup := by
    rw [map_map]
    exact nodup_map_idAt sched fun loc h => ⟨(dead_iff.mp h).1, (idAt_of_dead h).1⟩
  rw [← hp, populate_eq, IdMap.lookup_eq_some_iff hkeys, mem_map]
  apply exists_congr
  intro loc
  rw [mem_filter, mem_flat, Prod.mk.injEq]
  exact and_congr_left' ⟨fun h => h.2, fun h => ⟨(dead_iff.mp h).1, h⟩⟩

theorem newIdAt_lt (h : ix.live deleted loc) : ix.newIdAt deleted sched loc < p.newNpoints := by
  rw [← hp, populate_eq]
  exact idxOf_lt_length_of_mem ((mem_filter_live sched).mpr h)

/-- Every new id is used. -/
theorem exists_newIdAt (h : newId < p.newNpoints) :
    ∃ loc, ix.live deleted loc ∧ ix.newIdAt deleted sched loc = newId := by
  rw [← hp, populate_eq] at h
  exact ⟨_, (mem_filter_live sched).mp (getElem_mem h),
    ((nodup_flat sched).filter _).idxOf_getElem newId h⟩

/-! ## What stays -/

/-- **The candidates**: the set has no duplicates, it has the neighbours that stay, and
everything in it exists and stays.  Without deleted neighbours it has nothing else. -/
theorem gatherNhood_spec (nbrs : List Nat)
    (hex : ∀ n ∈ nbrs, ∃ loc < ix.curLoc, ix.loc2id loc = some n) :
    ∃ set, ix.gatherNhood deleted p nbrs = some set ∧
      set.Nodup ∧ (∀ x ∈ set, ix.Survives deleted x) ∧
      ((∀ n ∈ nbrs, deleted (ix.id2tag n) = false) → ∀ x, x ∈ set ↔ x ∈ nbrs) := by
  induction nbrs using reverseRecOn with
  | nil => exact ⟨[], rfl, nodup_nil, by simp, by simp⟩
  | append_singleton nbrs n ih =>
    rw [forall_mem_append, forall_mem_singleton] at hex
    obtain ⟨set, h1, hnd, hsurv, hsame⟩ := ih hex.1
    rw [gatherNhood, foldlM_append, ← gatherNhood, h1]
    simp only [bind_eq_bind, bind_some, foldlM_cons]
    cases hdel : deleted (ix.id2tag n) with
    | false =>
      obtain ⟨loc, hlt, hid⟩ := hex.2
      refine ⟨set.insert n, rfl, hnd.insert, fun x hx => ?_, fun hall x => ?_⟩
      · rcases mem_insert_iff.mp hx with rfl | hx
        · exact ⟨loc, hlt, hid, hdel⟩
        · exact hsurv x hx
      · rw [mem_insert_iff, hsame (forall_mem_append.mp hall).1, mem_append, mem_singleton, or_comm]
    | true =>
      obtain ⟨loc, hlt, hid⟩ := hex.2
      have hdead : ix.dead deleted loc := dead_iff.mpr ⟨hlt, n, hid, hdel⟩
      obtain rfl : ix.idAt loc = n := by simp [idAt, hid]
      rw [(lookup_deletedNhoods hp).mpr ⟨loc, hdead, rfl, rfl⟩, Option.map_some,
        foldl_eq_foldr_reverse]
      refine ⟨_, rfl, Nodup.union _ hnd, fun x hx => ?_, fun hall => ?_⟩
      · rcases mem_union_iff.mp hx with hx | hx
        · exact survives_of_mem_sampledNhood params hdead (mem_reverse.mp hx)
        · exact hsurv x hx
      · exact absurd (hdel.symm.trans (hall _ (by simp))) (by decide)

/-- The new id of an id that stays. -/
theorem lookup_of_survives (h : ix.Survives deleted id) :
    ∃ newId, p.idMap.lookup id = some newId := by
  obtain ⟨loc, hlt, hid, hdel⟩ := h
  exact ⟨_, (lookup_idMap hp).mpr ⟨loc, live_iff.mpr ⟨hlt, id, hid, hdel⟩, hid, rfl⟩⟩

theorem survives_of_lookup (h : p.idMap.lookup id = some newId) :
    ix.Survives deleted id ∧ newId < p.newNpoints := by
  obtain ⟨loc, hl, hid, rfl⟩ := (lookup_idMap hp).mp h
  have hat := (idAt_of_live hl).1
  rw [hid] at hat
  refine ⟨⟨loc, live_lt hl, hid, ?_⟩, newIdAt_lt hp hl⟩
  rw [some.inj hat]
  exact (idAt_of_live hl).2

theorem lookup_inj {id' : Nat} (h : p.idMap.lookup id = some newId)
    (h' : p.idMap.lookup id' = some newId) : id = id' := by
  obtain ⟨loc, hl, hid, rfl⟩ := (lookup_idMap hp).mp h
  obtain ⟨loc', -, hid', he⟩ := (lookup_idMap hp).mp h'
  obtain rfl := newIdAt_inj sched hl he.symm
  exact some.inj (hid.symm.trans hid')

end

/-! ## The entry point -/

variable (ix deleted)

/-- The loop that replaces a deleted entry point.  `none` if `find` throws, if `nhoods[0]` is
read of an empty list, or if the fuel is used up. -/
def replaceEntryPoint (p : Populated) : Nat → Nat → Option Nat
  | 0, _ => none
  | fuel + 1, entryPoint =>
    if deleted (ix.id2tag entryPoint) then do
      let nhoods ← p.deletedNhoods.lookup entryPoint
      let next ← nhoods[0]?
      replaceEntryPoint p fuel next
    else some entryPoint

/-- The loop ends in a node that stays, and `id_map` has its new id. -/
def EntryPointReplaced (p : Populated) (entryPoint : Nat) : Prop :=
  ∃ fuel e newId, ix.replaceEntryPoint deleted p fuel entryPoint = some e ∧
    ix.Survives deleted e ∧ p.idMap.lookup e = some newId

/-- The entry point exists, and if it is deleted, one of its neighbours stays and is kept. -/
def Replaceable (entryPoint : Nat) : Prop :=
  ∃ loc < ix.curLoc, ix.loc2id loc = some entryPoint ∧ (deleted (ix.id2tag entryPoint) = true →
    0 < params.nSampledNbrs ∧ ∃ n ∈ (ix.node loc).nbrs, deleted (ix.id2tag n) = false)

variable {ix deleted}

theorem sampledNhood_ne_nil : ix.sampledNhood deleted params loc ≠ [] ↔
    0 < params.nSampledNbrs ∧ ∃ n ∈ (ix.node loc).nbrs, deleted (ix.id2tag n) = false := by
  rw [sampledNhood]
  simp

/-- The loop on an entry point that stays. -/
theorem replaceEntryPoint_of_live {p : Populated} (h : deleted (ix.id2tag id) = false)
    (fuel : Nat) : ix.replaceEntryPoint deleted p (fuel + 1) id = some id := by
  simp [replaceEntryPoint, h]

variable (ix deleted) in
/-- **The entry point after a merge.**  The loop ends, without reading outside a list, in a node
that stays and has a new id, if and only if the entry point exists and stays, or one of its
neighbours does and neighbours are kept at all. -/
theorem entryPoint_replaced_iff (entryPoint : Nat) :
    ix.EntryPointReplaced deleted (ix.populate deleted params sched) entryPoint ↔
      ix.Replaceable deleted params entryPoint := by
  generalize hp : ix.populate deleted params sched = p
  by_cases hdel : deleted (ix.id2tag entryPoint) = true
  · constructor
    · rintro ⟨_ | fuel, e, newId, hloop, -, -⟩
      · cases hloop
      · rw [replaceEntryPoint, if_pos hdel] at hloop
        obtain ⟨nhoods, hfind, hloop⟩ := Option.bind_eq_some_iff.mp hloop
        obtain ⟨next, hnext, -⟩ := Option.bind_eq_some_iff.mp hloop
        obtain ⟨loc, hdead, rfl, rfl⟩ := (lookup_deletedNhoods hp).mp hfind
        have hne : ix.sampledNhood deleted params loc ≠ [] := by
          intro hnil
          rw [hnil] at hnext
          cases hnext
        exact ⟨loc, (dead_iff.mp hdead).1, (idAt_of_dead hdead).1,
          fun _ => (sampledNhood_ne_nil params).mp hne⟩
    · rintro ⟨loc, hloc, hid, hkept⟩
      obtain ⟨next, rest, hlist⟩ := exists_cons_of_ne_nil
        ((sampledNhood_ne_nil params).mpr (hkept hdel))
      have hdead : ix.dead deleted loc = true := dead_iff.mpr ⟨hloc, _, hid, hdel⟩
      have hat : ix.idAt loc = entryPoint := by simp [idAt, hid]
      have hlook := (lookup_deletedNhoods hp).mpr ⟨loc, hdead, hat, hlist⟩
      -- the kept neighbours stay, so one more round ends the loop
      have hsurv : ix.Survives deleted next :=
        survives_of_mem_sampledNhood params hdead (hlist ▸ mem_cons_self)
      obtain ⟨newId, hnew⟩ := lookup_of_survives hp hsurv
      refine ⟨2, next, newId, ?_, hsurv, hnew⟩
      rw [replaceEntryPoint, if_pos hdel, hlook]
      obtain ⟨-, -, -, hlive⟩ := hsurv
      exact replaceEntryPoint_of_live hlive 0
  · have hlive := Bool.eq_false_iff.mpr hdel
    constructor
    · rintro ⟨_ | fuel, e, newId, hloop, hsurv, -⟩
      · cases hloop
      · rw [replaceEntryPoint_of_live hlive] at hloop
        obtain rfl := some.inj hloop
        obtain ⟨loc, hloc, hid, -⟩ := hsurv
        exact ⟨loc, hloc, hid, fun h => absurd h hdel⟩
    · rintro ⟨loc, hloc, hid, -⟩
      obtain ⟨newId, hnew⟩ := lookup_of_survives hp ⟨loc, hloc, hid, hlive⟩
      exact ⟨1, entryPoint, newId, replaceEntryPoint_of_live hlive 0, ⟨loc, hloc, hid, hlive⟩, hnew⟩

/-! ## The new records -/

/-- `id_map.find` of a list of ids that stay. -/
theorem mapM_eq_filterMap {β : Type} {l : List Nat} {g : Nat → Option β}
    (h : ∀ x ∈ l, ∃ y, g x = some y) :
    l.mapM g = some (l.filterMap g) ∧ (l.filterMap g).length = l.length := by
  induction l with
  | nil => exact ⟨rfl, rfl⟩
  | cons a l ih =>
    obtain ⟨⟨b, hb⟩, hl⟩ := forall_mem_cons.mp h
    rw [mapM_cons, hb, (ih hl).1, filterMap_cons_some hb, length_cons, (ih hl).2]
    exact ⟨rfl, rfl⟩

variable [LinearOrder δ]

variable (ix deleted) in
/-- What the new record of the node `id` at a location is. -/
structure NewRecord (idMap : List (Nat × Nat)) (R loc id newId : Nat) (node : DiskNode ν α) :
    Prop where
  coords : node.coords = (ix.node loc).coords
  attrs : node.attrs = (ix.node loc).attrs
  nbrs_survive : ∀ x ∈ node.nbrs, ∃ n, ix.Survives deleted n ∧ idMap.lookup n = some x
  nodup : node.nbrs.Nodup
  not_self : newId ∉ node.nbrs
  length_le : node.nbrs.length ≤ R
  same_nbrs : (∀ n ∈ (ix.node loc).nbrs, deleted (ix.id2tag n) = false) →
    (ix.node loc).nbrs.length ≤ R →
    ∀ x, x ∈ node.nbrs ↔ ∃ n ∈ (ix.node loc).nbrs, n ≠ id ∧ idMap.lookup n = some x

/-- The record of a new id, marked with it. -/
def newItem (ix : SSDIndex ν α τ) (deleted : τ → Bool) (params : MergeParams δ)
    (sched : Schedule locPerPopulate ix.curLoc) (newId : Nat) : Nat × DiskNode ν α :=
  (newId, (((sched.flat.filter (ix.live deleted))[newId]?).bind fun loc =>
    ix.mergeNode deleted params (ix.populate deleted params sched) loc (ix.idAt loc)).getD
      (ix.node 0))

theorem newItem_injective : Function.Injective (ix.newItem deleted params sched) :=
  fun _ _ h => congrArg Prod.fst h

variable (msched : Schedule (locPerMerge ix.nnodesPerSector) ix.curLoc)

variable (ix deleted) in
/-- The new ids of the chunks of the second pass. -/
def mergeRounds : List (List Nat) :=
  msched.rounds.map fun locs => (locs.filter (ix.live deleted)).map (ix.newIdAt deleted sched)

theorem locPerMerge_pos (npp : Nat) : 0 < locPerMerge npp := by
  unfold locPerMerge
  split
  · next h => exact lt_of_lt_of_le (by decide) (le_roundUp 131072 h)
  · decide

section
variable {params sched} {p : Populated} (hp : ix.populate deleted params sched = p)
include hp

/-- **The new neighbours by their old ids.** -/
theorem newNbrs_spec (id : Nat) (nbrs : List Nat)
    (hex : ∀ n ∈ nbrs, ∃ loc < ix.curLoc, ix.loc2id loc = some n) :
    ∃ nhood, ix.newNbrs deleted params p id nbrs = some nhood ∧
      nhood.Nodup ∧ nhood.length ≤ params.prune.R ∧ id ∉ nhood ∧
      (∀ x ∈ nhood, ix.Survives deleted x) ∧
      ((∀ n ∈ nbrs, deleted (ix.id2tag n) = false) → nbrs.length ≤ params.prune.R →
        nhood.length ≤ nbrs.length ∧ ∀ x, x ∈ nhood ↔ x ∈ nbrs ∧ x ≠ id) := by
  obtain ⟨set, hset, hnd, hsurv, hsame⟩ := gatherNhood_spec hp nbrs hex
  have hperm := params.setOrder_perm (set.erase id)
  unfold newNbrs
  rw [hset]
  simp only [bind_eq_bind, bind_some]
  generalize params.setOrder (set.erase id) = nhood at hperm
  have hnd' : nhood.Nodup := hperm.nodup_iff.mpr (hnd.erase id)
  have hmem : ∀ x, x ∈ nhood ↔ x ∈ set ∧ x ≠ id := fun x => by
    rw [hperm.mem_iff, hnd.mem_erase_iff, and_comm]
  have hlen : (∀ n ∈ nbrs, deleted (ix.id2tag n) = false) → nhood.length ≤ nbrs.length :=
    fun hall => (subperm_of_subset hnd' fun x hx =>
      (hsame hall x).mp ((hmem x).mp hx).1).length_le
  split_ifs with hlong
  · obtain ⟨h1, h2, h3⟩ := params.prune.pruneNeighbors_spec params.computeDists
      (nhood.map fun n => ⟨n, params.computeDists id n⟩)
      (fun hnil => by
        rw [map_eq_nil_iff.mp hnil] at hlong
        exact absurd hlong (Nat.not_lt_zero _))
      (by rw [map_map]; simpa [comp_def] using hnd') nhood
    have hsub : ∀ x ∈ params.prune.pruneNeighbors params.computeDists
        (nhood.map fun n => ⟨n, params.computeDists id n⟩) nhood, x ∈ nhood := by
      intro x hx
      obtain ⟨q, hq, rfl⟩ := h3 x hx
      obtain ⟨n, hn, rfl⟩ := mem_map.mp hq
      exact hn
    refine ⟨_, rfl, h1, h2, fun hid => ((hmem id).mp (hsub id hid)).2 rfl,
      fun x hx => hsurv x ((hmem x).mp (hsub x hx)).1, fun hall hR => ?_⟩
    have := hlen hall
    omega
  · refine ⟨_, rfl, hnd', by omega, fun hid => ((hmem id).mp hid).2 rfl,
      fun x hx => hsurv x ((hmem x).mp hx).1, fun hall _ => ⟨hlen hall, fun x => ?_⟩⟩
    rw [hmem, hsame hall]

/-- **The new record** of a node that stays. -/
theorem mergeNode_spec (hloc : loc < ix.curLoc) (hid : ix.loc2id loc = some id)
    (hnew : p.idMap.lookup id = some newId) :
    ∃ node, ix.mergeNode deleted params p loc id = some node ∧
      NewRecord ix deleted p.idMap params.prune.R loc id newId node := by
  obtain ⟨nhood, h1, hnd, hle, hself, hsurv, hsame⟩ := newNbrs_spec hp id
    (ix.node loc).nbrs (ix.nbrs_exist loc hloc id hid)
  obtain ⟨h2, hlen⟩ := mapM_eq_filterMap fun x hx =>
    lookup_of_survives hp (hsurv x hx)
  obtain ⟨mapped, hmap⟩ : ∃ mapped, nhood.filterMap (fun n =>
    p.idMap.lookup n) = mapped := ⟨_, rfl⟩
  rw [hmap] at h2 hlen
  have hmem : ∀ x, x ∈ mapped ↔ ∃ n ∈ nhood,
      p.idMap.lookup n = some x := fun x => by
    rw [← hmap, mem_filterMap]
  have hmapped : mapped.Nodup :=
    hmap ▸ hnd.filterMap fun a a' b h h' => lookup_inj hp h h'
  refine ⟨(ix.node loc).withNbrs mapped, ?_, ⟨rfl, rfl, fun x hx => ?_,
    (take_sublist _ _).nodup hmapped, fun hx => ?_, ?_, fun hall hR x => ?_⟩⟩
  · rw [mergeNode, h1]
    simp only [bind_eq_bind, bind_some, h2]
  · obtain ⟨n, hn, hlook⟩ := (hmem x).mp (mem_of_mem_take hx)
    exact ⟨n, hsurv n hn, hlook⟩
  · obtain ⟨n, hn, hlook⟩ := (hmem newId).mp (mem_of_mem_take hx)
    exact hself (lookup_inj hp hlook hnew ▸ hn)
  · have := length_take_le (mapped.length % 2 ^ 16) mapped
    show (mapped.take (mapped.length % 2 ^ 16)).length ≤ params.prune.R
    omega
  · -- nothing is cut off: the old list had at most 65535 entries
    obtain ⟨hshort, hnhood⟩ := hsame hall hR
    have hlt := (ix.node loc).nnbrs_lt
    have hfull : mapped.take (mapped.length % 2 ^ 16) = mapped := by
      rw [Nat.mod_eq_of_lt (by omega), take_length]
    show x ∈ mapped.take (mapped.length % 2 ^ 16) ↔ _
    rw [hfull, hmem]
    constructor
    · rintro ⟨n, hn, hlook⟩
      exact ⟨n, ((hnhood n).mp hn).1, ((hnhood n).mp hn).2, hlook⟩
    · rintro ⟨n, hn, hne, hlook⟩
      exact ⟨n, (hnhood n).mpr ⟨hn, hne⟩, hlook⟩

/-! ## The second pass as a run of the write buffer -/

/-- The node at a location that stays has a new id and a new record. -/
theorem mergeNode_of_live (h : ix.live deleted loc) :
    p.idMap.lookup (ix.idAt loc) =
        some (ix.newIdAt deleted sched loc) ∧
      ix.mergeNode deleted params p loc (ix.idAt loc) =
        some (ix.newItem deleted params sched (ix.newIdAt deleted sched loc)).2 := by
  have hid := (idAt_of_live h).1
  have hnew := (lookup_idMap hp).mpr ⟨loc, h, hid, rfl⟩
  obtain ⟨node, hnode, -⟩ := mergeNode_spec hp (live_lt h) hid hnew
  refine ⟨hnew, ?_⟩
  have hget : (sched.flat.filter (ix.live deleted))[ix.newIdAt deleted sched loc]? = some loc :=
    getElem?_idxOf ((mem_filter_live sched).mpr h)
  rw [newItem, hget, bind_some, hp, hnode]
  rfl

/-- One location of the second pass. -/
theorem mergeLoc_eq (hloc : loc < ix.curLoc) (st : MergeState ν α τ) :
    ix.mergeLoc deleted params p st loc =
      some (if ix.live deleted loc then
        ⟨fill (locPerMerge ix.nnodesPerSector) st.window (ix.newIdAt deleted sched loc)
            (ix.newItem deleted params sched (ix.newIdAt deleted sched loc)),
          update st.newTags (ix.newIdAt deleted sched loc) (some (ix.id2tag (ix.idAt loc)))⟩
      else st) := by
  unfold mergeLoc
  rcases hid : ix.loc2id loc with _ | id
  · simp [live, hid]
  · rcases hdel : deleted (ix.id2tag id) with _ | _
    · have hl : ix.live deleted loc := live_iff.mpr ⟨hloc, id, hid, hdel⟩
      obtain ⟨h1, h2⟩ := mergeNode_of_live hp hl
      have hat : ix.idAt loc = id := by simp [idAt, hid]
      rw [hat] at h1 h2
      simp only [hdel, h1, h2, hl, hat]
      rfl
    · simp [live, hid, hdel]

/-- The locations of a chunk, in their order. -/
theorem foldlM_mergeLoc (locs : List Nat) (hlocs : ∀ loc ∈ locs, loc < ix.curLoc)
    (st : MergeState ν α τ) :
    locs.foldlM (ix.mergeLoc deleted params p) st =
      some ⟨((locs.filter (ix.live deleted)).map (ix.newIdAt deleted sched)).foldl
          (fun w newId => fill (locPerMerge ix.nnodesPerSector) w newId
            (ix.newItem deleted params sched newId)) st.window,
        (locs.filter (ix.live deleted)).foldl (fun tags loc => update tags
          (ix.newIdAt deleted sched loc) (some (ix.id2tag (ix.idAt loc)))) st.newTags⟩ := by
  induction locs generalizing st with
  | nil => rfl
  | cons loc locs ih =>
    obtain ⟨hloc, hlocs⟩ := forall_mem_cons.mp hlocs
    rw [foldlM_cons, mergeLoc_eq hp hloc]
    show locs.foldlM _ _ = _
    rw [ih hlocs]
    rcases hl : ix.live deleted loc with _ | _
    · rw [filter_cons_of_neg (by simp [hl])]
      rfl
    · rw [filter_cons_of_pos hl]
      rfl

/-- **The second pass** is a run of the write buffer over the new ids of the chunks. -/
theorem mergePass_eq : ix.mergePass deleted params p msched =
      some ⟨run (locPerMerge ix.nnodesPerSector) (ix.newItem deleted params sched)
          (ix.mergeRounds deleted sched msched),
        (msched.flat.filter (ix.live deleted)).foldl (fun tags loc => update tags
          (ix.newIdAt deleted sched loc) (some (ix.id2tag (ix.idAt loc)))) fun _ => none⟩ := by
  have hchunks : ∀ (rounds : List (List Nat)), (∀ locs ∈ rounds, ∀ loc ∈ locs, loc < ix.curLoc) →
      ∀ st : MergeState ν α τ,
      rounds.foldlM (ix.mergeChunk deleted params p) st =
        some ⟨(rounds.map fun locs => (locs.filter (ix.live deleted)).map
            (ix.newIdAt deleted sched)).foldl (round (locPerMerge ix.nnodesPerSector)
              (ix.newItem deleted params sched)) st.window,
          (rounds.flatten.filter (ix.live deleted)).foldl (fun tags loc => update tags
            (ix.newIdAt deleted sched loc) (some (ix.id2tag (ix.idAt loc)))) st.newTags⟩ := by
    intro rounds
    induction rounds with
    | nil => exact fun _ st => rfl
    | cons locs rounds ih =>
      intro hlocs st
      obtain ⟨hhead, htail⟩ := forall_mem_cons.mp hlocs
      rw [foldlM_cons, mergeChunk, foldlM_mergeLoc hp locs hhead]
      show rounds.foldlM _ _ = _
      rw [ih htail, flatten_cons, filter_append, foldl_append]
      rfl
  have hlocs : ∀ locs ∈ msched.rounds, ∀ loc ∈ locs, loc < ix.curLoc := by
    intro locs hmem loc hloc
    obtain ⟨k, -, rfl⟩ := mem_map.mp hmem
    exact ((msched.mem_order (locPerMerge_pos _)).mp hloc).1
  rw [mergePass, hchunks msched.rounds hlocs]
  rfl

end

/-! ## The merged index -/

/-- **`merge_deletes` renumbers the nodes that stay and keeps them.**  `id_map` is a
bijection from the ids that stay onto the numbers below `new_npoints`; the second pass
goes through, and the node of every id that stays gets its tag and a record as
`NewRecord` says. -/
theorem mergeDeletes_records (ix : SSDIndex ν α τ) (deleted : τ → Bool) (params : MergeParams δ)
    (sched : Schedule locPerPopulate ix.curLoc)
    (msched : Schedule (locPerMerge ix.nnodesPerSector) ix.curLoc) :
    (∀ id, ix.Survives deleted id ↔
      ∃ newId, (ix.populate deleted params sched).idMap.lookup id = some newId) ∧
    (∀ newId, newId < (ix.populate deleted params sched).newNpoints ↔
      ∃ id, (ix.populate deleted params sched).idMap.lookup id = some newId) ∧
    (∀ id id' newId, (ix.populate deleted params sched).idMap.lookup id = some newId →
      (ix.populate deleted params sched).idMap.lookup id' = some newId → id = id') ∧
    ∃ st, ix.mergePass deleted params (ix.populate deleted params sched) msched = some st ∧
      ∀ loc < ix.curLoc, ∀ id newId, ix.loc2id loc = some id →
        (ix.populate deleted params sched).idMap.lookup id = some newId →
        st.newTags newId = some (ix.id2tag id) ∧
        ∃ node, ix.mergeNode deleted params (ix.populate deleted params sched) loc id = some node ∧
          NewRecord ix deleted (ix.populate deleted params sched).idMap params.prune.R loc id newId
            node := by
  refine ⟨fun id => ⟨lookup_of_survives rfl, fun ⟨_, h⟩ =>
      (survives_of_lookup rfl h).1⟩, fun newId => ⟨fun h => ?_, fun ⟨_, h⟩ =>
      (survives_of_lookup rfl h).2⟩, fun _ _ _ => lookup_inj rfl,
    _, mergePass_eq msched rfl, fun loc hloc id newId hid hnew => ⟨?_, ?_⟩⟩
  · obtain ⟨loc, hl, rfl⟩ := exists_newIdAt rfl h
    exact ⟨ix.idAt loc, (lookup_idMap rfl).mpr ⟨loc, hl, (idAt_of_live hl).1, rfl⟩⟩
  · obtain ⟨loc', hl, hid', rfl⟩ := (lookup_idMap rfl).mp hnew
    obtain rfl := ix.loc2id_inj loc hloc loc' (live_lt hl) id hid hid'
    have hperm := msched.flat_perm (locPerMerge_pos _)
    have hmem : loc ∈ msched.flat.filter (ix.live deleted) :=
      mem_filter.mpr ⟨hperm.mem_iff.mpr (mem_range.mpr hloc), hl⟩
    have hat : ix.idAt loc = id := by simp [idAt, hid]
    -- different nodes get different numbers, so each tag is written once
    have hkeys : ((msched.flat.filter (ix.live deleted)).map (ix.newIdAt deleted sched)).Nodup :=
      Nodup.map_on (fun l hl l' _ he => newIdAt_inj sched (mem_filter.mp hl).2 he)
        ((hperm.nodup_iff.mpr nodup_range).filter _)
    rw [← hat]
    exact LastWrites.foldl_update_of_nodup _ hkeys hmem
  · exact mergeNode_spec rfl hloc hid hnew

/-- Three nodes that are neighbours of each other. -/
def threeNodes : SSDIndex Unit Unit Nat where
  nnodesPerSector := 4
  curLoc := 3
  loc2id := some
  loc2id_inj := fun _ _ _ _ _ h h' => Option.some.inj (h.trans h'.symm)
  id2tag := fun id => id
  node := fun _ => ⟨(), [0, 1, 2], by decide, ()⟩
  nbrs_exist := fun _ _ _ _ n hn => ⟨n, by
    simp only [mem_cons, not_mem_nil, or_false] at hn
    omega, rfl⟩

/-- Parameters with `R = 2` and distances that are differences of ids. -/
def smallParams : MergeParams Nat where
  nSampledNbrs := 20
  prune := ⟨2, 10, 2, [1, 2], true, 0, 1000, fun dik djk => dik / djk⟩
  computeDists := fun a b => (a - b) + (b - a)
  setOrder := fun l => l
  setOrder_perm := fun l => List.Perm.refl l

/-- With node `1` deleted, node `2` becomes node `1`, keeps its tag and has node `0` as its
only neighbour. -/
theorem mergeDeletes_records_three : ∃ st node, threeNodes.mergePass (· == 1) smallParams
        (threeNodes.populate (· == 1) smallParams (Schedule.inOrder _ _)) (Schedule.inOrder _ _) =
          some st ∧
      st.newTags 1 = some 2 ∧
      threeNodes.mergeNode (· == 1) smallParams
        (threeNodes.populate (· == 1) smallParams (Schedule.inOrder _ _)) 2 2 = some node ∧
      node.nbrs = [0] ∧ node.nbrs.Nodup := by
  obtain ⟨-, -, -, st, hst, h⟩ := mergeDeletes_records threeNodes (· == 1) smallParams
    (Schedule.inOrder _ _) (Schedule.inOrder _ _)
  obtain ⟨htag, node, hnode, hrec⟩ := h 2 (by decide) 2 1 rfl (by decide)
  refine ⟨st, node, hst, htag, hnode, ?_, hrec.nodup⟩
  have heval : (threeNodes.mergeNode (· == 1) smallParams
      (threeNodes.populate (· == 1) smallParams (Schedule.inOrder _ _)) 2 2).map
        (fun node => node.nbrs) = some [0] := by decide
  rw [hnode] at heval
  exact some.inj heval

/-- Nodes `0` and `1` are the neighbours of each other, and node `2` has node `0`. -/
def closedPair : SSDIndex Unit Unit Nat where
  nnodesPerSector := 4
  curLoc := 3
  loc2id := some
  loc2id_inj := threeNodes.loc2id_inj
  id2tag := fun id => id
  node := fun loc => ⟨(), [if loc = 0 then 1 else 0], Nat.one_lt_two_pow (by decide), ()⟩
  nbrs_exist := fun _ _ _ _ n hn => ⟨n, by
    rw [mem_singleton.mp hn]
    split <;> decide, rfl⟩

/-- With nodes `0` and `1` deleted, the list kept for entry point `0` is empty, and its first
element is read. -/
theorem entryPoint_reads_outside : closedPair.live (· < 2) 2 = true ∧
    (closedPair.populate (· < 2) smallParams (Schedule.inOrder _ _)).deletedNhoods.lookup 0 =
      some [] ∧
    ∀ fuel, closedPair.replaceEntryPoint (· < 2)
      (closedPair.populate (· < 2) smallParams (Schedule.inOrder _ _)) fuel 0 = none := by
  have hkept : (closedPair.populate (· < 2) smallParams
      (Schedule.inOrder _ _)).deletedNhoods.lookup 0 = some [] := by decide
  refine ⟨by decide, hkept, fun fuel => ?_⟩
  cases fuel with
  | zero => rfl
  | succ fuel =>
    rw [replaceEntryPoint, hkept]
    rfl

end SSDIndex
end PipeANN
