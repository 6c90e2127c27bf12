import Mathlib.Data.List.Perm.Basic
import PipeANN.SlotAllocator

/-! # Search by pages

`page_search` reads the pages of the nearest nodes, a batch in each round.  It ranks the node that
a page was read for at once and the other nodes of the page one round later, while the next
batch is under way.

`batch_read_iff` is about the wait for a batch: `send_read` returns how many requests were not in
the page cache, and the search waits for as many requests from the start of the batch.  A
request behind a cached one may be parsed unfinished.

`page_search_exact` is about the rounds, given that reads are finished: every node of a page that
was read is ranked once, on its own slot, and every node that was picked is ranked at the end.
What the pool holds in a round is open.
-/
namespace PipeANN
open List

/-! ## Waiting for a batch -/

namespace BatchRead

/-- Which requests of a batch are finished, by position. -/
abbrev Finished := Nat → Bool

variable (cached : List Bool)

/-- `send_read` on a batch: a cached page is read at once. -/
def sendRead : Finished × Nat :=
  (fun i => cached[i]?.getD false, cached.count false)

/-- `poll`: some requests have finished since. -/
def poll (finished new : Finished) : Finished := fun i => finished i || new i

/-- `while (!frontier_read_reqs[i].finished) reader->poll(ctx);` with what the polls find. -/
def waitFor (i : Nat) (finished : Finished) : List Finished → Option (Finished × List Finished)
  | [] => if finished i then some (finished, []) else none
  | new :: polls =>
    if finished i then some (finished, new :: polls) else waitFor i (poll finished new) polls

/-- The wait for the positions of a list in turn. -/
def waitAll (is : List Nat) (finished : Finished) (polls : List Finished) :
    Option (Finished × List Finished) :=
  is.foldlM (fun s i => waitFor i s.1 s.2) (finished, polls)

/-- The requests of a batch that are finished when the pages are parsed.  The batch is seen alone:
a request of an earlier batch that was not waited for can still finish, and marks the request of
this batch in its place. -/
def pageSearchWait (polls : List Finished) : Option Finished :=
  (waitAll (List.range (sendRead cached).2) (sendRead cached).1 polls).map Prod.fst

variable {finished finished' : Finished} {polls polls' : List Finished}

theorem waitFor_spec {i : Nat} (h : waitFor i finished polls = some (finished', polls')) :
    finished' i ∧ ∀ j, finished j → finished' j := by
  induction polls generalizing finished with
  | nil =>
    rw [waitFor] at h
    split at h
    · next hi => cases h; exact ⟨hi, fun _ => id⟩
    · cases h
  | cons new polls ih =>
    rw [waitFor] at h
    split at h
    · next hi => cases h; exact ⟨hi, fun _ => id⟩
    · obtain ⟨hi, hmono⟩ := ih h
      exact ⟨hi, fun j hj => hmono j (Bool.or_eq_true_iff.mpr (.inl hj))⟩

theorem waitAll_spec {is : List Nat} (h : waitAll is finished polls = some (finished', polls')) :
    (∀ i ∈ is, finished' i) ∧ ∀ j, finished j → finished' j := by
  induction is generalizing finished polls with
  | nil => cases h; exact ⟨fun i hi => absurd hi not_mem_nil, fun _ => id⟩
  | cons i is ih =>
    obtain ⟨⟨mid, polls⟩, hmid, h⟩ := Option.bind_eq_some_iff.mp h
    obtain ⟨hi, hmono⟩ := waitFor_spec hmid
    obtain ⟨his, hmono'⟩ := ih h
    exact ⟨forall_mem_cons.mpr ⟨hmono' i hi, his⟩, fun j hj => hmono' j (hmono j hj)⟩

/-- One poll that finds all requests but one ends the wait for the others. -/
theorem waitAll_except {j : Nat} (is : List Nat) (hj : j ∉ is) (hfin : finished j = false)
    (hpolls : polls = [fun i => i != j] ∨ ∀ i ≠ j, finished i) :
    ∃ s, waitAll is finished polls = some s ∧ s.1 j = false := by
  induction is generalizing finished polls with
  | nil => exact ⟨_, rfl, hfin⟩
  | cons i is ih =>
    obtain ⟨hne, hj⟩ := not_or.mp (mt mem_cons.mpr hj)
    rw [waitAll, foldlM_cons]
    by_cases hi : finished i
    · have hnow : waitFor i finished polls = some (finished, polls) := by
        cases polls <;> exact if_pos hi
      rw [hnow]
      exact ih hj hfin hpolls
    · obtain rfl := hpolls.resolve_right fun h => hi (h i (Ne.symm hne))
      have hpoll : waitFor i finished [fun i => i != j] =
          some (poll finished fun i => i != j, []) := by
        rw [waitFor, if_neg hi, waitFor, if_pos (by simp [poll, Ne.symm hne])]
      rw [hpoll]
      exact ih hj (by simp [poll, hfin]) (.inr fun i hi => by simp [poll, hi])

/-- No cached request is before one that was not just if those are as many from the start. -/
theorem pairwise_iff_count {cached : List Bool} : cached.Pairwise (· ≤ ·) ↔
    ∀ b ∈ cached.drop (cached.count false), b := by
  constructor
  · intro h
    induction cached with
    | nil => exact fun b hb => absurd hb not_mem_nil
    | cons a l ih =>
      obtain ⟨ha, hl⟩ := pairwise_cons.mp h
      cases a with
      | false => simpa using ih hl
      | true =>
        -- all that follow were cached
        have hall : ∀ b ∈ l, b := fun b hb => ha b hb rfl
        exact fun b hb => (mem_cons.mp (mem_of_mem_drop hb)).elim id (hall b)
  · intro h
    have hsplit := take_append_drop (cached.count false) cached
    have hcount := congrArg (count false) hsplit
    have hzero : (cached.drop (cached.count false)).count false = 0 :=
      count_eq_zero.mpr fun hmem => Bool.noConfusion (h false hmem)
    have hlen : (cached.take (cached.count false)).length ≤ cached.count false :=
      length_take_le ..
    have hle := count_le_length (a := false) (l := cached.take (cached.count false))
    rw [count_append, hzero] at hcount
    have hfalse := count_eq_length.mp (Nat.le_antisymm hle (by omega))
    rw [← hsplit]
    refine pairwise_append.mpr ⟨?_, ?_, fun a ha b _ => hfalse a ha ▸ Bool.false_le b⟩
    · exact pairwise_of_forall_mem_list fun a ha b _ => hfalse a ha ▸ Bool.false_le b
    · exact pairwise_of_forall_mem_list fun a _ b hb => h b hb ▸ Bool.le_true a

/-- **Parsed only when finished.** -/
theorem batch_read_iff : (∀ polls finished, pageSearchWait cached polls = some finished →
      ∀ i < cached.length, finished i = true) ↔ cached.Pairwise (· ≤ ·) := by
  rw [pairwise_iff_count]
  constructor
  · intro h b hb
    obtain ⟨k, hk⟩ := mem_iff_getElem?.mp hb
    rw [getElem?_drop] at hk
    by_contra hfalse
    obtain ⟨s, hs, hsj⟩ := waitAll_except (j := cached.count false + k) (range (sendRead cached).2)
      (by simp [sendRead]) (by simpa [sendRead, hk] using hfalse : (sendRead cached).1 _ = false)
      (.inl rfl)
    have hdone := h _ s.1 (by rw [pageSearchWait, hs]; rfl) _ (List.getElem?_eq_some_iff.mp hk).1
    exact Bool.noConfusion (hdone.symm.trans hsj)
  · intro h polls finished hwait i hi
    obtain ⟨s, hs, rfl⟩ := Option.map_eq_some_iff.mp hwait
    obtain ⟨hdone, hmono⟩ := waitAll_spec hs
    by_cases hlt : i < (sendRead cached).2
    · exact hdone i (mem_range.mpr hlt)
    · obtain ⟨k, rfl⟩ := Nat.exists_eq_add_of_le (Nat.le_of_not_lt hlt)
      have hget := getElem?_eq_getElem hi
      exact hmono _ ((congrArg (Option.getD · false) hget).trans
        (h _ (mem_iff_getElem?.mpr ⟨k, (getElem?_drop ..).trans hget⟩)))

/-- The first page is cached; the second is parsed without a poll. -/
theorem second_parsed_unfinished :
    ∃ finished, pageSearchWait [true, false] [] = some finished ∧ finished 1 = false :=
  ⟨_, rfl, rfl⟩

end BatchRead

/-! ## Rounds -/

/-- The record in a slot: its id and the slot. -/
def SlotId.record (loc : Nat) : SlotId → Option (Nat × Nat)
  | .id n => some (n, loc)
  | _ => none

/-- An index that is not written to; an id has one slot. -/
structure StaticIndex where
  layout : DiskLayout
  npp_pos : 0 < layout.nnodesPerSector
  id2loc : Nat → Nat
  loc2id : Nat → SlotId
  id2loc_loc2id : ∀ loc id, loc2id loc = .id id → id2loc id = loc

/-- What `page_search` keeps over the rounds; `reads`, `picked` and `fullRetset` grow, the last one
with the slot that each distance was computed on. -/
structure PageSearch where
  pageVisited : List Nat := []
  reads : List Nat := []
  picked : List Nat := []
  lastIoSnapshot : List (Nat × Nat) := []
  fullRetset : List (Nat × Nat) := []

namespace StaticIndex
variable (ix : StaticIndex)

/-- `id2page`. -/
def id2page (id : Nat) : Nat := ix.layout.locSectorNo (ix.id2loc id)

/-- The records of a page, by `get_page_layout`. -/
def records (page : Nat) : List (Nat × Nat) :=
  (ix.layout.pageSlots page).filterMap fun loc => (ix.loc2id loc).record loc

/-- Picks the beam from the unvisited ids of the pool in order: what was picked, the ids whose
pages are read, and the visited pages. -/
def pickBeam : Nat → List Nat → List Nat → List Nat × List Nat × List Nat
  | _, [], seen => ([], [], seen)
  | 0, _ :: _, seen => ([], [], seen)
  | beam + 1, id :: pool, seen =>
    if ix.id2page id ∈ seen then
      let (picked, frontier, seen) := pickBeam (beam + 1) pool seen
      (id :: picked, frontier, seen)
    else
      let (picked, frontier, seen) := pickBeam beam pool (seen ++ [ix.id2page id])
      (id :: picked, id :: frontier, seen)

/-- One round: the pages of the beam are read, the other nodes of the pages before are ranked, and
then the nodes of the beam. -/
def round (beam : Nat) (s : PageSearch) (pool : List Nat) : PageSearch :=
  let (picked, frontier, pageVisited) := ix.pickBeam beam pool s.pageVisited
  { pageVisited := pageVisited
    reads := s.reads ++ frontier.map ix.id2page
    picked := s.picked ++ picked
    lastIoSnapshot := frontier.map fun id => (id, ix.id2page id)
    fullRetset := s.fullRetset ++
      (s.lastIoSnapshot.flatMap fun e => (ix.records e.2).filter (·.1 ≠ e.1)) ++
      frontier.flatMap fun id => (ix.records (ix.id2page id)).filter (·.1 = id) }

/-- The rounds of a search, each with the pool that it finds. -/
def pageSearch (beam : Nat) (pools : List (List Nat)) : PageSearch := pools.foldl (ix.round beam) {}

variable {ix} {beam : Nat} {s : PageSearch} {pool seen : List Nat} {id loc page : Nat}

theorem mem_records : (id, loc) ∈ ix.records page ↔
    ix.loc2id loc = .id id ∧ ix.layout.locSectorNo loc = page := by
  rw [records, mem_filterMap, ← DiskLayout.mem_pageSlots ix.npp_pos]
  constructor
  · rintro ⟨l, hl, hrec⟩
    cases hid : ix.loc2id l with
    | id n =>
      rw [hid] at hrec
      cases hrec
      exact ⟨hid, hl⟩
    | _ => rw [hid] at hrec; cases hrec
  · rintro ⟨hid, hl⟩
    exact ⟨loc, hl, by rw [hid]; rfl⟩

theorem nodup_records : (ix.records page).Nodup := by
  refine (ix.layout.nodup_pageSlots page).filterMap fun l l' r hl hl' => ?_
  have hloc : ∀ {l} {i : SlotId}, r ∈ i.record l → r.2 = l := by
    intro l i h
    cases i with
    | id n => cases h; rfl
    | _ => cases h
  exact (hloc hl).symm.trans (hloc hl')

/-- What the beam is. -/
theorem pickBeam_spec (beam : Nat) (pool seen : List Nat) :
    (ix.pickBeam beam pool seen).2.2 = seen ++ (ix.pickBeam beam pool seen).2.1.map ix.id2page ∧
      (seen.Nodup → (ix.pickBeam beam pool seen).2.2.Nodup) ∧
      ∀ id ∈ (ix.pickBeam beam pool seen).1, ix.id2page id ∈ (ix.pickBeam beam pool seen).2.2 := by
  fun_induction pickBeam ix beam pool seen with
  | case1 => simp
  | case2 => simp
  | case3 beam id pool seen hmem picked frontier seen' heq ih =>
    rw [heq] at ih
    obtain ⟨happend, hnodup, hpicked⟩ := ih
    refine ⟨happend, hnodup, forall_mem_cons.mpr ⟨?_, hpicked⟩⟩
    exact happend ▸ mem_append_left _ hmem
  | case4 beam id pool seen hmem picked frontier seen' heq ih =>
    rw [heq] at ih
    obtain ⟨happend, hnodup, hpicked⟩ := ih
    have happend' : seen' = seen ++ (id :: frontier).map ix.id2page := by simpa using happend
    refine ⟨happend', fun hseen => hnodup ?_, forall_mem_cons.mpr ⟨?_, hpicked⟩⟩
    · exact nodup_append_comm.mp (nodup_cons.mpr ⟨hmem, hseen⟩)
    · exact happend' ▸ mem_append_right _ mem_cons_self

/-- What holds after every round: the ranked nodes, and those that are to be ranked in the next
round, are the nodes of the pages that have been read. -/
structure Ranks (ix : StaticIndex) (s : PageSearch) : Prop where
  reads_eq : s.reads = s.pageVisited
  nodup : s.pageVisited.Nodup
  picked : ∀ id ∈ s.picked, ix.id2page id ∈ s.reads
  perm : (s.fullRetset ++ s.lastIoSnapshot.flatMap fun e =>
    (ix.records e.2).filter (·.1 ≠ e.1)).Perm (s.reads.flatMap ix.records)

theorem Ranks.round (h : ix.Ranks s) (pool : List Nat) : ix.Ranks (ix.round beam s pool) := by
  obtain ⟨happend, hnodup, hpicked⟩ := ix.pickBeam_spec beam pool s.pageVisited
  have hreads : (ix.round beam s pool).reads = (ix.pickBeam beam pool s.pageVisited).2.2 :=
    (congrArg (· ++ _) h.reads_eq).trans happend.symm
  refine ⟨hreads, hnodup h.nodup, forall_mem_append.mpr ⟨fun id hid => ?_, ?_⟩, ?_⟩
  · exact mem_append_left _ (h.picked id hid)
  · exact hreads ▸ hpicked
  -- the node of a page that is ranked now, and the others later, are all of its nodes
  have hsplit : ∀ frontier : List Nat,
      ((frontier.flatMap fun id => (ix.records (ix.id2page id)).filter (·.1 = id)) ++
        (frontier.map fun id => (id, ix.id2page id)).flatMap fun e =>
          (ix.records e.2).filter (·.1 ≠ e.1)).Perm
        ((frontier.map ix.id2page).flatMap ix.records) := by
    intro frontier
    rw [flatMap_map, flatMap_map]
    refine (flatMap_append_perm ..).trans (Perm.flatMap_left _ fun id _ => ?_)
    simpa using filter_append_perm (fun e : Nat × Nat => decide (e.1 = id)) _
  have := h.perm.append (hsplit (ix.pickBeam beam pool s.pageVisited).2.1)
  rw [← flatMap_append, ← append_assoc] at this
  exact this

theorem ranks_pageSearch (pools : List (List Nat)) : ix.Ranks (ix.pageSearch beam pools) := by
  refine foldlRecOn pools (ix.round beam) ?_ fun s hs pool _ => Ranks.round hs pool
  exact ⟨rfl, nodup_nil, fun id hid => absurd hid not_mem_nil, Perm.nil⟩

theorem nodup_flatMap_records {pages : List Nat} (h : pages.Nodup) :
    (pages.flatMap ix.records).Nodup := by
  refine nodup_flatMap.mpr ⟨fun _ _ => nodup_records, h.imp fun hne => ?_⟩
  rintro ⟨id, loc⟩ h₁ h₂
  exact hne ((mem_records.mp h₁).2.symm.trans (mem_records.mp h₂).2)

/-- **Each page once, and each node once.** -/
theorem page_search_exact (ix : StaticIndex) (beam : Nat) (pools : List (List Nat)) :
    (ix.pageSearch beam pools).reads.Nodup ∧ (ix.pageSearch beam pools).fullRetset.Nodup ∧
      ((ix.pageSearch beam pools).lastIoSnapshot = [] →
        (∀ id loc, (id, loc) ∈ (ix.pageSearch beam pools).fullRetset ↔ ix.loc2id loc = .id id ∧
            ix.layout.locSectorNo loc ∈ (ix.pageSearch beam pools).reads) ∧
        ∀ id ∈ (ix.pageSearch beam pools).picked, ix.loc2id (ix.id2loc id) = .id id →
          (id, ix.id2loc id) ∈ (ix.pageSearch beam pools).fullRetset) := by
  obtain ⟨hreads, hnodup, hpicked, hperm⟩ : ix.Ranks (ix.pageSearch beam pools) :=
    ix.ranks_pageSearch pools
  rw [← hreads] at hnodup
  have hall := hperm.nodup_iff.mpr (nodup_flatMap_records hnodup)
  refine ⟨hnodup, (nodup_append.mp hall).1, fun hstop => ?_⟩
  rw [hstop, flatMap_nil, append_nil] at hperm
  have hmem : ∀ id loc, (id, loc) ∈ (ix.pageSearch beam pools).fullRetset ↔ ix.loc2id loc = .id id ∧
      ix.layout.locSectorNo loc ∈ (ix.pageSearch beam pools).reads := by
    intro id loc
    rw [hperm.mem_iff, mem_flatMap]
    simp only [mem_records]
    constructor
    · rintro ⟨_, hpage, hid, rfl⟩
      exact ⟨hid, hpage⟩
    · rintro ⟨hid, hpage⟩
      exact ⟨_, hpage, hid, rfl⟩
  exact ⟨hmem, fun id hid hloc => (hmem _ _).mpr ⟨hloc, hpicked id hid⟩⟩

/-- Two nodes on one page; the second is ranked a round after the first. -/
def twoNodes : StaticIndex where
  layout := ⟨0, 2⟩
  npp_pos := Nat.two_pos
  id2loc n := n
  loc2id n := .id n
  id2loc_loc2id _ _ h := (SlotId.id.inj h).symm

/-- Both are ranked. -/
theorem page_search_exact_twoNodes : (1, 1) ∈ (twoNodes.pageSearch 4 [[0, 1], []]).fullRetset :=
  ((page_search_exact twoNodes 4 [[0, 1], []]).2.2 rfl).2 1 (by decide) rfl

end StaticIndex
end PipeANN
