import PipeANN.MergeDeletes
import PipeANN.Streaming

/-! # The navigation graph of a disk index

With a navigation graph, a search on disk starts at nodes that a search of the in-memory
index returns.  The tags of that index are ids of the disk index: `build_mem` takes a sample
of the ids, and `do_insert` adds some of the new ones.  A delete takes a tag of the disk
index, and a save gives the nodes new ids; neither looks at the navigation graph.

`navigation_iff_saveOk` says what this needs, by the deleted tags and the order of the locations
at each save: for each id of the navigation graph, that many nodes are kept before one that has
the vector of the node with this id.  With different vectors and the nodes in the order of their
ids, no node up to an id of the graph may be deleted (`saveOk_range_iff`).  A save of `Streaming`
is what `merge_deletes` does to the nodes of the disk index (`visitStep_visited`,
`save_mergeOrder`).
-/
namespace PipeANN.Streaming

open List ChunkedLoop SSDIndex

namespace DynamicIndex
variable {ν α : Type} (hasAttrs : Bool) (rows : List (Nat × NodePayload ν α)) (sample : List Nat)

/-- `build_mem`: the sampled rows, with their ids as tags. -/
def sampleRows : List (Nat × ν) :=
  sample.filterMap fun id => rows[id]?.map fun row => (id, row.2.coords)

/-- A disk index that was built with a navigation graph, and loaded. -/
def withNavigation : DynamicIndex ν α :=
  ⟨true, true, hasAttrs, MemIndex.build (sampleRows rows sample), rows, []⟩

variable (ix : DynamicIndex ν α)

/-- Every tag of the navigation graph is the id of a disk node with the same vector. -/
def NavigationOk : Prop :=
  ∀ id v, ix.mem.Stored id v → ∃ row, ix.disk[id]? = some row ∧ row.2.coords = v

/-- A merge keeps the node. -/
def kept (id : Nat) : Bool := ix.disk[id]?.any (·.1 ∉ ix.deletedNodes)

/-- A call; a save visits all nodes by their locations, and numbers those that it keeps. -/
def visitStep [Inhabited α] (ix : DynamicIndex ν α) : Op ν α → Option (DynamicIndex ν α)
  | .save visited =>
    if visited.Perm (range ix.disk.length) then ix.save (visited.filter ix.kept) else none
  | op => ix.step op

/-- For each id of the navigation graph, a save visits a node with the vector of node `id` after
`id` others that it keeps. -/
def SaveOk : Op ν α → Prop
  | .save visited => ∀ id, (∃ v, ix.mem.Stored id v) →
      ∃ k j, visited[k]? = some j ∧ ix.kept j = true ∧ (visited.take k).countP ix.kept = id ∧
        ix.disk[j]?.map (·.2.coords) = ix.disk[id]?.map (·.2.coords)
  | _ => True

/-- What a run keeps. -/
structure NavigationInv (ix : DynamicIndex ν α) : Prop where
  disk : ix.useDiskIndex = true
  valid : ix.mem.Valid
  navigation : ix.NavigationOk

theorem navigationInv_withNavigation : (withNavigation hasAttrs rows sample).NavigationInv where
  disk := rfl
  valid := MemIndex.valid_build _
  navigation id v h := by
    obtain ⟨id', -, hrow⟩ := mem_filterMap.mp ((MemIndex.stored_build _ id v).mp h)
    obtain ⟨row, hget, heq⟩ := Option.map_eq_some_iff.mp hrow
    obtain ⟨rfl, rfl⟩ := Prod.mk.inj heq
    exact ⟨row, hget, rfl⟩

/-- What a filter leaves at a position. -/
theorem getElem?_filter_iff {p : Nat → Bool} {l : List Nat} {i j : Nat} :
    (l.filter p)[i]? = some j ↔
      ∃ k, l[k]? = some j ∧ p j ∧ (l.take k).countP p = i := by
  induction l generalizing i with
  | nil => simp
  | cons a l ih =>
    rw [← Nat.or_exists_add_one]
    by_cases ha : p a
    · cases i with
      | zero =>
        simp [ha]
        grind
      | succ i => simp [ha, ih]
    · simp [ha, ih]
      grind

/-- The node with a new number. -/
theorem getElem?_merged {ix : DynamicIndex ν α} {order : List Nat} (h : order.Perm ix.survivors)
    (id : Nat) : (order.filterMap (ix.disk[·]?))[id]? = order[id]?.bind (ix.disk[·]?) := by
  have hall : ∀ old ∈ order, ∃ row, ix.disk[old]? = some row := fun old hold => by
    obtain ⟨row, hrow, -⟩ := mem_survivors.mp (h.mem_iff.mp hold)
    exact ⟨row, hrow⟩
  clear h
  -- no id of the order is skipped
  induction order generalizing id with
  | nil => rfl
  | cons old order ih =>
    obtain ⟨hold, htail⟩ := forall_mem_cons.mp hall
    obtain ⟨row, hrow⟩ := hold
    rw [filterMap_cons, hrow]
    cases id with
    | zero => simp [hrow]
    | succ id => simpa using ih id htail

section
variable {ix ix' : DynamicIndex ν α}

theorem NavigationInv.lazyDelete (h : ix.NavigationInv) (tag : Nat) :
    (ix.lazyDelete tag).NavigationInv where
  disk := h.disk
  valid := h.valid.lazyDelete tag
  navigation id v hv := h.navigation id v (MemIndex.Stored.of_lazyDelete hv)

theorem NavigationInv.remove (h : ix.NavigationInv) (tags : List Nat) :
    (ix.remove tags).NavigationInv :=
  foldlRecOn tags _ h fun _ hx tag _ => hx.lazyDelete tag

/-- With different vectors, and the nodes visited in the order of their ids, no node up to an id of
the graph is deleted. -/
theorem NavigationInv.saveOk_range_iff (h : ix.NavigationInv)
    (hdistinct : (ix.disk.map (·.2.coords)).Nodup) :
    ix.SaveOk (.save (range ix.disk.length)) ↔
      ∀ id v, ix.mem.Stored id v → ∀ j ≤ id, ix.kept j := by
  have hcount : ∀ k ≤ ix.disk.length, ((range ix.disk.length).take k).countP ix.kept = k ↔
      ∀ j < k, ix.kept j := by
    intro k hk
    have hiff := countP_eq_length (p := ix.kept) (l := range k)
    rw [take_range, min_eq_left hk]
    simpa only [length_range, mem_range] using hiff
  constructor
  · intro hok id v hv j hj
    obtain ⟨row, hrow, -⟩ := h.navigation id v hv
    obtain ⟨k, j', hk, hkept, hnum, hsame⟩ := hok id ⟨v, hv⟩
    rw [← getElem?_map, ← getElem?_map] at hsame
    have hid : id < (ix.disk.map (·.2.coords)).length := by
      rw [length_map]
      exact (List.getElem?_eq_some_iff.mp hrow).1
    obtain rfl := (getElem?_inj hid hdistinct).mp hsame.symm
    obtain ⟨hlt, hget⟩ := List.getElem?_eq_some_iff.mp hk
    rw [getElem_range] at hget
    rw [length_range] at hlt
    subst hget
    rcases hj.lt_or_eq with hj | rfl
    · exact (hcount k hlt.le).mp hnum j hj
    · exact hkept
  · rintro hok id ⟨v, hv⟩
    obtain ⟨row, hrow, -⟩ := h.navigation id v hv
    have hid := (List.getElem?_eq_some_iff.mp hrow).1
    refine ⟨id, id, getElem?_range hid, hok id v hv id le_rfl, ?_, rfl⟩
    exact (hcount id hid.le).mpr fun j hj => hok id v hv j hj.le

variable [Inhabited α]

/-- An insert gives its point the next id, on disk and in the graph. -/
theorem NavigationInv.doInsert (h : ix.NavigationInv) (point : ν) (tag : Nat) (attrs : α)
    (sampled : Bool) : (ix.doInsert point tag attrs sampled).NavigationInv := by
  rw [DynamicIndex.doInsert, if_pos h.disk]
  have hold : ∀ {id v}, ix.mem.Stored id v → ∀ new,
      ∃ row, (ix.disk ++ [new])[id]? = some row ∧ row.2.coords = v := fun {id v} hv new => by
    obtain ⟨row, hrow, hcoords⟩ := h.navigation id v hv
    exact ⟨row, by
      rw [getElem?_append_left (List.getElem?_eq_some_iff.mp hrow).1, hrow], hcoords⟩
  refine ⟨h.disk, ?_, fun id v hv => ?_⟩
  · split
    · exact h.valid.insertPoint point _
    · exact h.valid
  · split at hv
    · rcases h.valid.stored_insertPoint.mp hv with ⟨rfl, rfl⟩ | hv
      · exact ⟨_, getElem?_concat_length, rfl⟩
      · exact hold hv.of_lazyDelete _
    · exact hold hv _

/-- What a save does. -/
theorem visitStep_save {visited : List Nat} (huse : ix.useDiskIndex)
    (hstep : ix.visitStep (.save visited) = some ix') :
    (visited.filter ix.kept).Perm ix.survivors ∧
      ix' = { ix with
        disk := (visited.filter ix.kept).filterMap (ix.disk[·]?), deletedNodes := [] } := by
  rw [visitStep] at hstep
  split at hstep
  · rw [save, if_pos huse] at hstep
    split at hstep
    · next hperm => exact ⟨hperm, (Option.some.inj hstep).symm⟩
    · cases hstep
  · cases hstep

/-- A call keeps the navigation graph right just when it meets the condition. -/
theorem NavigationInv.step (h : ix.NavigationInv) {op : Op ν α}
    (hstep : ix.visitStep op = some ix') :
    ix'.useDiskIndex = true ∧ ix'.mem.Valid ∧ (ix'.NavigationOk ↔ ix.SaveOk op) := by
  have hkeep (h' : ix'.NavigationInv) (hok : ix.SaveOk op) :=
    And.intro h'.disk (And.intro h'.valid (iff_of_true h'.navigation hok))
  cases op with
  | insert point tag attrs sampled =>
    cases hstep
    exact hkeep (h.doInsert point tag attrs sampled) trivial
  | lazyDelete tag =>
    cases hstep
    exact hkeep (h.lazyDelete tag) trivial
  | remove tags =>
    cases hstep
    exact hkeep (h.remove tags) trivial
  | save visited =>
    obtain ⟨hperm, rfl⟩ := visitStep_save h.disk hstep
    refine ⟨h.disk, h.valid, ?_⟩
    simp only [SaveOk, NavigationOk, getElem?_merged hperm, Option.bind_eq_some_iff,
      getElem?_filter_iff]
    constructor
    · rintro hok id ⟨v, hv⟩
      obtain ⟨row, ⟨j, ⟨k, hk, hkept, hcount⟩, hrow⟩, rfl⟩ := hok id v hv
      obtain ⟨old, hold, hcoords⟩ := h.navigation id _ hv
      exact ⟨k, j, hk, hkept, hcount, by
        rw [hrow, hold, Option.map_some, Option.map_some, hcoords]⟩
    · rintro hok id v hv
      obtain ⟨k, j, hk, hkept, hcount, hsame⟩ := hok id ⟨v, hv⟩
      obtain ⟨old, hold, rfl⟩ := h.navigation id _ hv
      rw [hold] at hsame
      obtain ⟨row, hrow, hcoords⟩ := Option.map_eq_some_iff.mp hsame
      exact ⟨row, ⟨j, ⟨k, hk, hkept, hcount⟩, hrow⟩, hcoords⟩

/-- **The navigation graph follows the disk index.**  From a built index, after any calls
that meet the condition: every tag of the graph that is not deleted is an id below the bound,
and the disk node has the vector of the graph.  The next call keeps it so just when it meets the
condition too. -/
theorem navigation_iff_saveOk (hasAttrs : Bool) (rows : List (Nat × NodePayload ν α))
    (sample : List Nat) (h : Reach visitStep SaveOk (withNavigation hasAttrs rows sample) ix) :
    (∀ id v, ix.mem.Stored id v →
      id < ix.disk.length ∧ ∃ row, ix.disk[id]? = some row ∧ row.2.coords = v) ∧
    (∀ op ix', ix.visitStep op = some ix' → (ix'.NavigationOk ↔ ix.SaveOk op)) ∧
    ((ix.disk.map (·.2.coords)).Nodup → (ix.SaveOk (.save (range ix.disk.length)) ↔
      ∀ id v, ix.mem.Stored id v → ∀ j ≤ id, ix.kept j = true)) := by
  have hinv : ix.NavigationInv :=
    h.invariant (navigationInv_withNavigation hasAttrs rows sample) fun _ _ _ hx hok hstep =>
      ⟨(hx.step hstep).1, (hx.step hstep).2.1, (hx.step hstep).2.2.mpr hok⟩
  refine ⟨fun id v hv => ?_, fun _ _ hstep => (hinv.step hstep).2.2, hinv.saveOk_range_iff⟩
  obtain ⟨row, hrow, hcoords⟩ := hinv.navigation id v hv
  exact ⟨(List.getElem?_eq_some_iff.mp hrow).1, row, hrow, hcoords⟩

end

/-- Two nodes, tags `10` and `11`. -/
def twoRows : List (Nat × NodePayload Nat Unit) := [(10, ⟨5, ()⟩), (11, ⟨6, ()⟩)]

/-- With node `0` in the graph and node `1` deleted, node `0` keeps its id. -/
theorem navigation_iff_saveOk_two : ∃ ix,
    runSteps visitStep (withNavigation false twoRows [0]) [.lazyDelete 11, .save [0, 1]] = some ix ∧
      ix.disk = [(10, ⟨5, ()⟩)] ∧ ix.mem.Stored 0 5 ∧ 0 < ix.disk.length := by
  have hstored : (withNavigation false twoRows [0]).mem.Stored 0 5 := ⟨0, rfl, rfl⟩
  refine ⟨_, rfl, rfl, hstored, ?_⟩
  refine ((navigation_iff_saveOk false twoRows [0]
    (.step (.save [0, 1]) (.step (.lazyDelete 11) .refl trivial rfl) ?_ rfl)).1 0 5 hstored).1
  -- the graph has one node, and it keeps its id
  rintro id ⟨v, hv⟩
  have hmem := (MemIndex.stored_build (sampleRows twoRows [0]) id v).mp
    (MemIndex.Stored.of_lazyDelete hv)
  obtain ⟨rfl, rfl⟩ := Prod.mk.inj (mem_singleton.mp hmem)
  exact ⟨0, 0, rfl, rfl, rfl, rfl⟩

/-- With node `1` in the graph and node `0` deleted, the save leaves one node on disk, and the
graph keeps id `1`. -/
theorem navigation_out_of_bounds : ∃ ix,
    runSteps visitStep (withNavigation false twoRows [1]) [.lazyDelete 10, .save [0, 1]] = some ix ∧
      ix.disk = [(11, ⟨6, ()⟩)] ∧ ix.mem.Stored 1 6 ∧ ¬ 1 < ix.disk.length :=
  ⟨_, rfl, rfl, ⟨0, rfl, rfl⟩, by decide⟩

/-! ## The merge of the disk index -/

/-- The index has the nodes of `ssd`: their tags, vectors and attributes, by id. -/
def Represents (ssd : SSDIndex ν α Nat) : Prop :=
  ∀ id row, ix.disk[id]? = some row ↔ ∃ loc < ssd.curLoc, ssd.loc2id loc = some id ∧
    row = (ssd.id2tag id, ⟨(ssd.node loc).coords, (ssd.node loc).attrs⟩)

/-- The ids that `merge_deletes` keeps, in the order in which its first pass numbers them. -/
def mergeOrder (ssd : SSDIndex ν α Nat)
    (sched : Schedule locPerPopulate ssd.curLoc) : List Nat :=
  (sched.flat.filter (ssd.live (ix.deletedNodes.contains ·))).map ssd.idAt

/-- All ids, in the order in which the pass visits their locations. -/
def visited (ssd : SSDIndex ν α Nat) (sched : Schedule locPerPopulate ssd.curLoc) : List Nat :=
  (sched.flat.filter (ssd.live fun _ => false)).map ssd.idAt

section
variable {ix : DynamicIndex ν α} {ssd : SSDIndex ν α Nat}
  (sched : Schedule locPerPopulate ssd.curLoc)

theorem Represents.mergeOrder_perm (h : ix.Represents ssd) :
    (ix.mergeOrder ssd sched).Perm ix.survivors := by
  have hnd : (ix.mergeOrder ssd sched).Nodup := nodup_map_idAt sched fun loc hl =>
    ⟨live_lt hl, (idAt_of_live hl).1⟩
  have hnd' : ix.survivors.Nodup := nodup_range.filter _
  refine (perm_ext_iff_of_nodup hnd hnd').mpr fun id => ?_
  rw [mem_survivors, mergeOrder, mem_map]
  simp only [mem_filter_live]
  constructor
  · rintro ⟨loc, hl, rfl⟩
    obtain ⟨hid, hdel⟩ := idAt_of_live hl
    exact ⟨_, (h _ _).mpr ⟨loc, live_lt hl, hid, rfl⟩, by simpa using hdel⟩
  · rintro ⟨row, hrow, hnot⟩
    obtain ⟨loc, hlt, hid, rfl⟩ := (h id row).mp hrow
    exact ⟨loc, live_iff.mpr ⟨hlt, id, hid, by simpa using hnot⟩, by
      simp [idAt, hid]⟩

/-- The save that visits the nodes in this order. -/
theorem Represents.visitStep_visited [Inhabited α] (h : ix.Represents ssd) :
    ix.visitStep (.save (visited ssd sched)) = ix.save (ix.mergeOrder ssd sched) := by
  have hperm : (visited ssd sched).Perm (range ix.disk.length) := by
    have hall := @Represents.mergeOrder_perm _ _ { ix with deletedNodes := [] } ssd sched h
    have hsurvivors : ({ ix with deletedNodes := [] } : DynamicIndex ν α).survivors =
        range ix.disk.length := filter_eq_self.mpr fun id hid => by simp [mem_range.mp hid]
    rwa [hsurvivors] at hall
  have hkept : (visited ssd sched).filter ix.kept = ix.mergeOrder ssd sched := by
    rw [visited, filter_map, filter_filter, mergeOrder]
    refine congrArg (map ssd.idAt) (filter_congr fun loc hloc => ?_)
    cases hid : ssd.loc2id loc with
    | none => simp [live, hid]
    | some id =>
      have hlt := (mem_flat sched).mp hloc
      have hrow := (h id _).mpr ⟨loc, hlt, hid, rfl⟩
      simp [live, idAt, kept, hid, hrow, hlt]
  rw [visitStep, if_pos hperm, hkept]

/-- **A save is a merge of the disk index.**  In the order of the first pass, `save` goes
through, and the record of each new id is the one `merge_deletes` writes for it. -/
theorem Represents.save_mergeOrder {δ : Type} [LinearOrder δ] (h : ix.Represents ssd)
    (huse : ix.useDiskIndex = true) (params : MergeParams δ) :
    ∃ ix', ix.save (ix.mergeOrder ssd sched) = some ix' ∧
      ∀ loc < ssd.curLoc, ∀ id newId, ssd.loc2id loc = some id →
        (ssd.populate (ix.deletedNodes.contains ·) params sched).idMap.lookup id = some newId →
        ∃ node, ssd.mergeNode (ix.deletedNodes.contains ·) params
            (ssd.populate (ix.deletedNodes.contains ·) params sched) loc id = some node ∧
          ix'.disk[newId]? = some (ssd.id2tag id, ⟨node.coords, node.attrs⟩) := by
  have hperm := h.mergeOrder_perm sched
  refine ⟨_, by rw [save, if_pos huse, if_pos hperm], fun loc hloc id newId hid hnew => ?_⟩
  obtain ⟨node, hnode, hrec⟩ := mergeNode_spec rfl hloc hid hnew
  refine ⟨node, hnode, ?_⟩
  obtain ⟨loc', hl, hid', rfl⟩ := (lookup_idMap rfl).mp hnew
  obtain rfl := ssd.loc2id_inj loc hloc loc' (live_lt hl) id hid hid'
  have hat : (ix.mergeOrder ssd sched)[ssd.newIdAt (ix.deletedNodes.contains ·) sched loc]? =
      some id := by
    rw [mergeOrder, getElem?_map, newIdAt, getElem?_idxOf ((mem_filter_live sched).mpr hl)]
    simp [idAt, hid]
  rw [getElem?_merged hperm, hat, hrec.coords, hrec.attrs]
  exact (h id _).mpr ⟨loc, hloc, hid, rfl⟩

end

def threeRows : DynamicIndex Unit Unit :=
  ⟨true, false, false, .build [], (range 3).map fun i => (i, ⟨(), ()⟩), [1]⟩

theorem save_mergeOrder_three : ∃ ix', threeRows.save
      (threeRows.mergeOrder threeNodes (.inOrder _ _)) = some ix' ∧
    ix'.disk[1]? = some (2, ⟨(), ()⟩) := by
  have h : threeRows.Represents threeNodes := fun id row => by
    simp [threeRows, threeNodes, eq_comm]
    grind
  obtain ⟨ix', hsave, hrec⟩ := h.save_mergeOrder (.inOrder _ _) rfl smallParams
  obtain ⟨node, -, hdisk⟩ := hrec 2 (by decide) 2 1 rfl (by decide)
  exact ⟨ix', hsave, hdisk⟩

end DynamicIndex
end PipeANN.Streaming
