import Mathlib.Data.List.Nodup
import Mathlib.Data.List.Perm.Subperm

/-! # The pipelined search

`pipe_search_common` keeps reads under way while it expands nodes.  A candidate of the pool is
flagged until its read is sent; the reads land in the order in which they were sent, however late
each of them is; and the nearest candidate that has landed is expanded next.  The pages are
read into a ring of `MAX_N_SECTOR_READS` slots, and a landed page is parsed in its slot when its
node is expanded.

`pipe_search_once` says that an id is read, expanded and returned at most once and that every index
lock is released once.  `own_page_iff` says when the pages that are parsed are those of the nodes:
a node that waits while nearer ones keep landing loses its page as soon as the ring has gone
round.

How many reads have landed, the width of the beam and how many candidates are promoted is open in
each turn, and so is when the search stops; what is parsed depends on the page in the slot.
-/
namespace PipeANN
open List Function

/-- `Neighbor` in a candidate pool. -/
structure PoolEntry where
  id : Nat
  flag : Bool := true
  visited : Bool := false

/-- What is parsed for a node; `member` is what the filter says of it. -/
structure ParsedNode where
  nbrs : List Nat
  denseNbrs : List Nat := []
  member : Bool := true

/-- A search.  `node` is what is parsed for an id on a page that was read for an id. -/
structure PipeConfig where
  lPool : Nat
  candCap : Nat
  beamWidth : Nat
  closer : Nat → Nat → Bool
  seeds : List Nat
  useDenseNbrs : Bool
  isMemberApprox : Nat → Bool
  node : Nat → Option Nat → ParsedNode

/-- An expansion: the id whose page was parsed, and how many reads had been sent. -/
structure Expansion where
  id : Nat
  page : Option Nat
  sent : Nat
  deriving DecidableEq

/-- What is open in a turn of the main loop. -/
structure PipeTurn where
  landed : Nat
  width : Nat
  promoted : Nat := 0

/-- The state of a search.  `reads` and `released` log the index locks, `expanded` and `fullRetset`
the nodes. -/
structure PipeSearch where
  pool : List PoolEntry
  cand : List PoolEntry := []
  visited : List Nat
  ring : Nat → Option Nat := fun _ => none
  onFlight : List (Nat × Nat) := []
  idBufMap : List (Nat × Nat) := []
  reads : List Nat := []
  released : List Nat := []
  expanded : List Expansion := []
  fullRetset : List Nat := []

/-- `MAX_N_SECTOR_READS`. -/
def maxNSectorReads : Nat := 128

/-- `CandidatePool::insert`. -/
def insertEntry (closer : Nat → Nat → Bool) (cap : Nat) (pool : List PoolEntry) (e : PoolEntry) :
    List PoolEntry :=
  (pool.takeWhile (closer ·.id e.id) ++ e :: pool.dropWhile (closer ·.id e.id)).take
    (if pool.length < cap then pool.length + 1 else pool.length)

/-- The candidate of an id is changed. -/
def mark (f : PoolEntry → PoolEntry) (id : Nat) (pool : List PoolEntry) : List PoolEntry :=
  pool.map fun x => if x.id = id then f x else x

/-- Up to so many ids of a list that pass a test and have not been visited. -/
def collect (p : Nat → Bool) : List Nat → Nat → List Nat → List Nat
  | _, _, [] => []
  | _, 0, _ :: _ => []
  | visited, n + 1, id :: ids =>
    if p id && id ∉ visited then id :: collect p (id :: visited) n ids
    else collect p visited (n + 1) ids

namespace PipeSearch
variable (cfg : PipeConfig) (s : PipeSearch)

/-- `send_read_req` for the nearest flagged candidate. -/
def send : PipeSearch :=
  match s.pool.find? PoolEntry.flag with
  | none => s
  | some e =>
    let slot := s.reads.length % maxNSectorReads
    { s with
      pool := mark (fun x => { x with flag := false }) e.id s.pool
      ring := fun i => if i = slot then some e.id else s.ring i
      onFlight := s.onFlight ++ [(e.id, slot)]
      reads := s.reads ++ [e.id] }

/-- `send_best_read_req`. -/
def sendBest : Nat → PipeSearch → PipeSearch
  | 0, s => s
  | n + 1, s => sendBest n s.send

/-- `poll_all`: the first reads under way have landed. -/
def land (n : Nat) : PipeSearch :=
  { s with
    onFlight := s.onFlight.drop n
    idBufMap := s.idBufMap ++ s.onFlight.take n
    released := s.released ++ (s.onFlight.take n).map Prod.fst }

/-- `next_calc_nbr`: the nearest candidate that has landed, with its slot. -/
def nextCalc : Option (Nat × Nat) :=
  s.pool.findSome? fun e =>
    if e.visited then none else (s.idBufMap.lookup e.id).map fun slot => (e.id, slot)

/-- The new members and the new connecting neighbours of a node. -/
def newNbrs (node : ParsedNode) : List Nat × List Nat :=
  let n := node.nbrs.length
  let near := collect cfg.isMemberApprox s.visited n node.nbrs
  if cfg.useDenseNbrs then
    let dense := collect cfg.isMemberApprox (near ++ s.visited) (n - near.length) node.denseNbrs
    (near ++ dense, collect (fun _ => true) (near ++ dense ++ s.visited)
      (n - (near ++ dense).length) node.nbrs)
  else (near, [])

/-- The expansion of a node. -/
def expandNode (promoted id slot : Nat) : PipeSearch :=
  let node := cfg.node id (s.ring slot)
  let marked := mark (fun x => ⟨x.id, false, true⟩) id s.pool
  let (members, others) := s.newNbrs cfg node
  let pool := (members.map (⟨·, true, false⟩)).foldl (insertEntry cfg.closer cfg.lPool) marked
  let cand := (others.map (⟨·, true, false⟩)).foldl (insertEntry cfg.closer cfg.candCap) s.cand
  { s with
    pool := (cand.take promoted).foldl (insertEntry cfg.closer cfg.lPool) pool
    cand := cand.drop promoted
    visited := members ++ others ++ s.visited
    idBufMap := s.idBufMap.filter (·.1 ≠ id)
    expanded := s.expanded ++ [⟨id, s.ring slot, s.reads.length⟩]
    fullRetset := if node.member then s.fullRetset ++ [id] else s.fullRetset }

/-- `calc_best_node`. -/
def calcBestNode (promoted : Nat) : PipeSearch :=
  match s.nextCalc with
  | none => s
  | some (id, slot) => s.expandNode cfg promoted id slot

/-- A turn of the main loop. -/
def turn (t : PipeTurn) : PipeSearch :=
  let s := s.land t.landed
  let s := if s.onFlight.length < t.width then s.send else s
  s.calcBestNode cfg t.promoted

/-- The search before the main loop: the first reads are sent in the order of the seeds, which are
then sorted by their distances. -/
def start : PipeSearch :=
  let s := sendBest (min 4 cfg.beamWidth)
    { pool := cfg.seeds.map (⟨·, true, false⟩), visited := cfg.seeds }
  { s with pool := s.pool.foldl (insertEntry cfg.closer s.pool.length) [] }

/-- The search: the turns until it stops, and the reads that are still under way. -/
def pipeSearch (turns : List PipeTurn) : PipeSearch :=
  let s := turns.foldl (turn cfg) (start cfg)
  s.land s.onFlight.length

end PipeSearch

/-! ## Candidates -/

variable {closer : Nat → Nat → Bool}

theorem insertEntry_subperm {cap : Nat} {pool : List PoolEntry}
    {e : PoolEntry} : Subperm (insertEntry closer cap pool e) (pool ++ [e]) := by
  refine (take_sublist ..).subperm.trans (Perm.subperm ?_)
  refine perm_middle.trans ?_
  rw [takeWhile_append_dropWhile]
  exact (perm_append_singleton e pool).symm

theorem foldl_insertEntry_subperm {cap : Nat} (es : List PoolEntry) (pool : List PoolEntry) :
    Subperm (es.foldl (insertEntry closer cap) pool) (pool ++ es) := by
  induction es generalizing pool with
  | nil => rw [append_nil]; exact Subperm.refl _
  | cons e es ih =>
    have := (ih (insertEntry closer cap pool e)).trans
      ((subperm_append_right es).mpr insertEntry_subperm)
    rwa [append_assoc] at this

theorem collect_spec (p : Nat → Bool) (visited : List Nat) (n : Nat) (ids : List Nat) :
    (collect p visited n ids).Nodup ∧ ∀ id ∈ collect p visited n ids, id ∉ visited := by
  fun_induction collect p visited n ids with
  | case1 => simp
  | case2 => simp
  | case3 visited n id ids h ih =>
    have hid : id ∉ visited := of_decide_eq_true (Bool.and_eq_true_iff.mp h).2
    refine ⟨nodup_cons.mpr ⟨fun hmem => ih.2 id hmem mem_cons_self, ih.1⟩, ?_⟩
    exact forall_mem_cons.mpr ⟨hid, fun i hi hv => ih.2 i hi (mem_cons_of_mem _ hv)⟩
  | case4 visited n id ids h ih => exact ih

/-- What is collected after other new ids. -/
theorem collect_append {new visited : List Nat} (h : new.Nodup ∧ ∀ id ∈ new, id ∉ visited)
    (p : Nat → Bool) (n : Nat) (ids : List Nat) :
    (new ++ collect p (new ++ visited) n ids).Nodup ∧
      ∀ id ∈ new ++ collect p (new ++ visited) n ids, id ∉ visited := by
  obtain ⟨hnodup, hfresh⟩ := collect_spec p (new ++ visited) n ids
  refine ⟨nodup_append.mpr ⟨h.1, hnodup, fun i hi j hj heq => ?_⟩, ?_⟩
  · exact hfresh j hj (mem_append_left _ (heq ▸ hi))
  · exact forall_mem_append.mpr ⟨h.2, fun i hi hv => hfresh i hi (mem_append_right _ hv)⟩

/-- Candidates are distinct and visited; a flagged one has not been read, and one that is not
marked has not been expanded. -/
structure EntriesOk (visited reads expanded : List Nat) (es : List PoolEntry) : Prop where
  nodup : (es.map PoolEntry.id).Nodup
  seen : ∀ e ∈ es, e.id ∈ visited
  unread : ∀ e ∈ es, e.flag = true → e.id ∉ reads
  unexpanded : ∀ e ∈ es, e.visited = false → e.id ∉ expanded

theorem EntriesOk.of_subperm {visited reads expanded : List Nat} {es es' : List PoolEntry}
    (h : EntriesOk visited reads expanded es) (hsub : Subperm es' es) :
    EntriesOk visited reads expanded es' where
  nodup := by
    obtain ⟨l, hperm, hl⟩ := hsub
    exact (hperm.map _).nodup_iff.mp (h.nodup.sublist (hl.map _))
  seen e he := h.seen e (hsub.subset he)
  unread e he := h.unread e (hsub.subset he)
  unexpanded e he := h.unexpanded e (hsub.subset he)

/-- One candidate is changed, and its id may now be read or expanded. -/
theorem EntriesOk.mark {visited reads expanded reads' expanded' : List Nat}
    {pool cand : List PoolEntry} {id : Nat} {f : PoolEntry → PoolEntry}
    (h : EntriesOk visited reads expanded (pool ++ cand)) (hid : id ∈ pool.map PoolEntry.id)
    (hf : ∀ x, (f x).id = x.id) (hreads : ∀ i ∈ reads', i ≠ id → i ∈ reads)
    (hexpanded : ∀ i ∈ expanded', i ≠ id → i ∈ expanded)
    (hflag : ∀ x ∈ pool, (f x).flag → x.id ∉ reads')
    (hvisited : ∀ x ∈ pool, (f x).visited = false → x.id ∉ expanded') :
    EntriesOk visited reads' expanded' (mark f id pool ++ cand) := by
  have hids : (PipeANN.mark f id pool ++ cand).map PoolEntry.id =
      (pool ++ cand).map PoolEntry.id := by
    rw [map_append, map_append, PipeANN.mark, map_map]
    refine congrArg (· ++ _) (map_congr_left fun x _ => ?_)
    simp only [comp_apply, apply_ite PoolEntry.id, hf, ite_self]
  -- a candidate is now one of another id, or the changed one
  have hmem : ∀ e ∈ PipeANN.mark f id pool ++ cand,
      e ∈ pool ++ cand ∧ e.id ≠ id ∨ ∃ x ∈ pool, e = f x := by
    refine forall_mem_append.mpr ⟨forall_mem_map.mpr fun x hx => ?_, fun e he => ?_⟩
    · split
      · exact .inr ⟨x, hx, rfl⟩
      · next hne => exact .inl ⟨mem_append_left _ hx, hne⟩
    · refine .inl ⟨mem_append_right _ he, fun heq => ?_⟩
      have hnodup := h.nodup
      rw [map_append] at hnodup
      exact (nodup_append.mp hnodup).2.2 id hid _ (mem_map_of_mem he) heq.symm
  refine ⟨hids ▸ h.nodup, fun e he => ?_, fun e he hfl => ?_, fun e he hvis => ?_⟩
  · obtain ⟨x, hx, hxe⟩ := mem_map.mp (hids ▸ mem_map_of_mem he)
    exact hxe ▸ h.seen x hx
  · rcases hmem e he with ⟨he, hne⟩ | ⟨x, hx, rfl⟩
    · exact fun hr => h.unread e he hfl (hreads _ hr hne)
    · exact hf x ▸ hflag x hx hfl
  · rcases hmem e he with ⟨he, hne⟩ | ⟨x, hx, rfl⟩
    · exact fun hr => h.unexpanded e he hvis (hexpanded _ hr hne)
    · exact hf x ▸ hvisited x hx hvis

/-- New candidates. -/
theorem EntriesOk.append {visited reads expanded new : List Nat} {es : List PoolEntry}
    (h : EntriesOk visited reads expanded es) (hnodup : new.Nodup) (hnew : ∀ id ∈ new, id ∉ visited)
    (hreads : ∀ id ∈ reads, id ∈ visited) (hexpanded : ∀ id ∈ expanded, id ∈ visited) :
    EntriesOk (new ++ visited) reads expanded (es ++ new.map (⟨·, true, false⟩)) where
  nodup := by
    rw [map_append]
    refine nodup_append.mpr ⟨h.nodup, by simpa [comp_def] using hnodup, ?_⟩
    rintro _ hid id' hid' rfl
    obtain ⟨e, he, rfl⟩ := mem_map.mp hid
    exact hnew e.id (by simpa using hid') (h.seen e he)
  seen := by
    refine forall_mem_append.mpr ⟨fun e he => mem_append_right _ (h.seen e he), ?_⟩
    exact forall_mem_map.mpr fun id hid => mem_append_left _ hid
  unread := forall_mem_append.mpr ⟨h.unread,
    forall_mem_map.mpr fun id hid _ hr => hnew id hid (hreads id hr)⟩
  unexpanded := forall_mem_append.mpr ⟨h.unexpanded,
    forall_mem_map.mpr fun id hid _ hx => hnew id hid (hexpanded id hx)⟩

/-! ## Runs -/

namespace PipeSearch
variable {cfg : PipeConfig} {s : PipeSearch}

/-- What holds in every run.  A slot of the ring has the page of the last read that was directed
there. -/
structure Sound (s : PipeSearch) : Prop where
  entries : EntriesOk s.visited s.reads (s.expanded.map Expansion.id) (s.pool ++ s.cand)
  reads_seen : ∀ id ∈ s.reads, id ∈ s.visited
  expanded_seen : ∀ id ∈ s.expanded.map Expansion.id, id ∈ s.visited
  reads_nodup : s.reads.Nodup
  expanded_nodup : (s.expanded.map Expansion.id).Nodup
  results : s.fullRetset.Sublist (s.expanded.map Expansion.id)
  locks : s.released ++ s.onFlight.map Prod.fst = s.reads
  slots : ∀ e ∈ s.onFlight ++ s.idBufMap, ∃ k, s.reads[k]? = some e.1 ∧ e.2 = k % maxNSectorReads
  ring : ∀ k < s.reads.length, ∃ j, k ≤ j ∧ j < s.reads.length ∧
    j % maxNSectorReads = k % maxNSectorReads ∧ s.reads.length ≤ j + maxNSectorReads ∧
    s.ring (k % maxNSectorReads) = s.reads[j]?
  pages : ∀ e ∈ s.expanded, ∃ k, s.reads[k]? = some e.id ∧
    (e.page = some e.id ↔ e.sent ≤ k + maxNSectorReads)

/-- The page of a read is there as long as the ring has not gone round. -/
theorem Sound.ring_eq_iff (h : s.Sound) {k id : Nat} (hk : s.reads[k]? = some id) :
    s.ring (k % maxNSectorReads) = some id ↔ s.reads.length ≤ k + maxNSectorReads := by
  obtain ⟨hlt, rfl⟩ := List.getElem?_eq_some_iff.mp hk
  obtain ⟨j, hkj, hj, hmod, hlast, hring⟩ := h.ring k hlt
  rw [hring, getElem?_eq_getElem hj, Option.some.injEq, h.reads_nodup.getElem_inj_iff]
  constructor
  · rintro rfl
    exact hlast
  · intro hle
    simp only [maxNSectorReads] at hmod hle
    omega

theorem getElem?_append_some {l l' : List Nat} {k id : Nat} (h : l[k]? = some id) :
    (l ++ l')[k]? = some id := by
  rw [getElem?_append_left (List.getElem?_eq_some_iff.mp h).1, h]

/-- One more read, in the next slot. -/
theorem ring_send (h : s.Sound) {id : Nat} : ∀ k < (s.reads ++ [id]).length,
    ∃ j, k ≤ j ∧ j < (s.reads ++ [id]).length ∧ j % maxNSectorReads = k % maxNSectorReads ∧
      (s.reads ++ [id]).length ≤ j + maxNSectorReads ∧
      (if k % maxNSectorReads = s.reads.length % maxNSectorReads then some id
        else s.ring (k % maxNSectorReads)) = (s.reads ++ [id])[j]? := by
  intro k hk
  rw [length_append, length_singleton] at hk ⊢
  by_cases hslot : k % maxNSectorReads = s.reads.length % maxNSectorReads
  · refine ⟨s.reads.length, by omega, by omega, hslot.symm, ?_, ?_⟩
    · simp only [maxNSectorReads]
      omega
    · rw [if_pos hslot, getElem?_concat_length]
  · have hlt : k < s.reads.length := by
      rcases Nat.lt_or_eq_of_le (Nat.le_of_lt_succ hk) with hlt | rfl
      · exact hlt
      · exact absurd rfl hslot
    obtain ⟨j, hkj, hj, hmod, hlast, hring⟩ := h.ring k hlt
    refine ⟨j, hkj, by omega, hmod, ?_, ?_⟩
    · simp only [maxNSectorReads] at *
      omega
    · rw [if_neg hslot, hring, getElem?_append_left hj]

theorem Sound.send (h : s.Sound) : s.send.Sound := by
  rw [PipeSearch.send]
  split
  · exact h
  · next e he =>
    have hpool := mem_of_find?_eq_some he
    have hflag := find?_some he
    have hmem : e ∈ s.pool ++ s.cand := mem_append_left _ hpool
    have hunread := h.entries.unread e hmem hflag
    refine ⟨h.entries.mark (mem_map_of_mem hpool) (fun _ => rfl) ?_ (fun i hi _ => hi) ?_ ?_,
      ?_, h.expanded_seen, ?_, h.expanded_nodup, h.results, ?_, ?_, ?_, ?_⟩
    · exact fun i hi hne => (mem_append.mp hi).resolve_right fun h =>
        hne (mem_singleton.mp h)
    · exact fun x _ hx => Bool.noConfusion hx
    · exact fun x hx => h.entries.unexpanded x (mem_append_left _ hx)
    · exact forall_mem_append.mpr ⟨h.reads_seen,
        fun i hi => mem_singleton.mp hi ▸ h.entries.seen e hmem⟩
    · exact nodup_append_comm.mp (nodup_cons.mpr ⟨hunread, h.reads_nodup⟩)
    · rw [map_append, ← append_assoc, h.locks]
      rfl
    · intro x hx
      rw [append_assoc] at hx
      rcases mem_cons.mp (perm_middle.mem_iff.mp hx) with rfl | hx
      · exact ⟨s.reads.length, getElem?_concat_length, rfl⟩
      · obtain ⟨k, hk, hslot⟩ := h.slots x hx
        exact ⟨k, getElem?_append_some hk, hslot⟩
    · exact ring_send h
    · intro x hx
      obtain ⟨k, hk, hpage⟩ := h.pages x hx
      exact ⟨k, getElem?_append_some hk, hpage⟩

theorem Sound.land (h : s.Sound) (n : Nat) : (s.land n).Sound := by
  have hlocks : s.released ++ (s.onFlight.take n).map Prod.fst ++ (s.onFlight.drop n).map Prod.fst =
      s.reads := by
    rw [append_assoc, ← map_append, take_append_drop, h.locks]
  refine { h with locks := hlocks, slots := fun e he => h.slots e ?_ }
  have hperm : (s.onFlight.drop n ++ (s.idBufMap ++ s.onFlight.take n)).Perm
      (s.onFlight ++ s.idBufMap) := by
    rw [← append_assoc]
    refine perm_append_comm.trans ?_
    rw [← append_assoc, take_append_drop]
  exact hperm.mem_iff.mp he

theorem newNbrs_spec (node : ParsedNode) :
    ((s.newNbrs cfg node).1 ++ (s.newNbrs cfg node).2).Nodup ∧
      ∀ id ∈ (s.newNbrs cfg node).1 ++ (s.newNbrs cfg node).2, id ∉ s.visited := by
  have hnear := collect_spec cfg.isMemberApprox s.visited node.nbrs.length node.nbrs
  rw [newNbrs]
  split
  · exact collect_append (collect_append hnear ..) ..
  · rwa [append_nil]

/-- The candidates after an expansion. -/
theorem expandNode_subperm (promoted id slot : Nat) :
    Subperm
      ((s.expandNode cfg promoted id slot).pool ++ (s.expandNode cfg promoted id slot).cand)
      (mark (fun x => ⟨x.id, false, true⟩) id s.pool ++ s.cand ++
        ((s.newNbrs cfg (cfg.node id (s.ring slot))).1 ++
          (s.newNbrs cfg (cfg.node id (s.ring slot))).2).map (⟨·, true, false⟩)) := by
  rw [PipeSearch.expandNode, map_append]
  have hpool := @foldl_insertEntry_subperm cfg.closer cfg.lPool
    ((s.newNbrs cfg (cfg.node id (s.ring slot))).1.map (⟨·, true, false⟩))
    (mark (fun x => ⟨x.id, false, true⟩) id s.pool)
  have hcand := @foldl_insertEntry_subperm cfg.closer cfg.candCap
    ((s.newNbrs cfg (cfg.node id (s.ring slot))).2.map (⟨·, true, false⟩)) s.cand
  refine ((subperm_append_right _).mpr (foldl_insertEntry_subperm ..)).trans ?_
  rw [append_assoc, take_append_drop]
  refine (hpool.append hcand).trans (Perm.subperm ?_)
  rw [append_assoc, append_assoc]
  exact perm_append_comm_assoc .. |>.append_left _

theorem nextCalc_spec {id slot : Nat} (h : s.nextCalc = some (id, slot)) :
    (∃ e ∈ s.pool, e.visited = false ∧ e.id = id) ∧ (id, slot) ∈ s.idBufMap := by
  obtain ⟨e, he, hsome⟩ := exists_of_findSome?_eq_some h
  split at hsome
  · cases hsome
  · next hvis =>
    obtain ⟨slot', hlookup, heq⟩ := Option.map_eq_some_iff.mp hsome
    cases heq
    obtain ⟨l, l', hl, -⟩ := lookup_eq_some_iff.mp hlookup
    exact ⟨⟨e, he, Bool.not_eq_true _ ▸ hvis, rfl⟩, hl ▸ mem_append_right _ mem_cons_self⟩

theorem Sound.expandNode (h : s.Sound) {id slot : Nat} (hcalc : s.nextCalc = some (id, slot))
    (promoted : Nat) : (s.expandNode cfg promoted id slot).Sound := by
  obtain ⟨⟨e, he, hvis, rfl⟩, hbuf⟩ := nextCalc_spec hcalc
  have hmem : e ∈ s.pool ++ s.cand := mem_append_left _ he
  have hunexpanded := h.entries.unexpanded e hmem hvis
  obtain ⟨hnodup, hnew⟩ := @newNbrs_spec cfg s (cfg.node e.id (s.ring slot))
  have hexpanded : ((s.expandNode cfg promoted e.id slot).expanded.map Expansion.id) =
      s.expanded.map Expansion.id ++ [e.id] := by
    rw [PipeSearch.expandNode, map_append]
    rfl
  have hseen : ∀ id ∈ s.expanded.map Expansion.id ++ [e.id], id ∈ s.visited :=
    forall_mem_append.mpr ⟨h.expanded_seen, fun i hi => mem_singleton.mp hi ▸ h.entries.seen e hmem⟩
  have hmarked := h.entries.mark (f := fun x => ⟨x.id, false, true⟩) (mem_map_of_mem he)
    (fun _ => rfl) (fun i hi _ => hi)
    (fun i (hi : i ∈ s.expanded.map Expansion.id ++ [e.id]) hne =>
      (mem_append.mp hi).resolve_right fun h => hne (mem_singleton.mp h))
    (fun x _ hx => Bool.noConfusion hx) fun x _ hx => Bool.noConfusion hx
  refine ⟨?_, ?_, ?_, h.reads_nodup, ?_, ?_, h.locks, ?_, h.ring, ?_⟩
  · rw [hexpanded]
    exact (hmarked.append hnodup hnew h.reads_seen hseen).of_subperm (expandNode_subperm ..)
  · exact fun i hi => mem_append_right _ (h.reads_seen i hi)
  · rw [hexpanded]
    exact fun i hi => mem_append_right _ (hseen i hi)
  · rw [hexpanded]
    exact nodup_append_comm.mp (nodup_cons.mpr ⟨hunexpanded, h.expanded_nodup⟩)
  · rw [hexpanded, PipeSearch.expandNode]
    dsimp only
    split
    · exact h.results.append (Sublist.refl _)
    · exact h.results.trans (sublist_append_left ..)
  · intro x hx
    refine h.slots x (mem_append.mpr ((mem_append.mp hx).imp_right fun hx => ?_))
    exact (mem_filter.mp hx).1
  · refine forall_mem_append.mpr ⟨h.pages, fun x hx => ?_⟩
    obtain ⟨k, hk, rfl⟩ := h.slots (e.id, slot) (mem_append_right _ hbuf)
    rw [mem_singleton.mp hx]
    exact ⟨k, hk, h.ring_eq_iff hk⟩

theorem Sound.turn (h : s.Sound) (t : PipeTurn) : (s.turn cfg t).Sound := by
  have hland := h.land t.landed
  have hsend : (if (s.land t.landed).onFlight.length < t.width then (s.land t.landed).send
      else s.land t.landed).Sound := by
    split
    · exact hland.send
    · exact hland
  rw [PipeSearch.turn, calcBestNode]
  split
  · exact hsend
  · next hcalc => exact hsend.expandNode hcalc t.promoted

theorem Sound.sendBest (h : s.Sound) (n : Nat) : (sendBest n s).Sound := by
  induction n generalizing s with
  | zero => exact h
  | succ n ih => exact ih h.send

theorem Sound.start (h : cfg.seeds.Nodup) : (start cfg).Sound := by
  have hentries := @EntriesOk.append [] [] [] _ [] ⟨nodup_nil, by simp, by simp, by simp⟩ h
    (fun _ _ => not_mem_nil) (fun _ hi => hi) fun _ hi => hi
  rw [append_nil] at hentries
  have hseeds : Sound { pool := cfg.seeds.map (⟨·, true, false⟩), visited := cfg.seeds } := by
    refine ⟨by rwa [append_nil], ?_, ?_, nodup_nil, nodup_nil, Sublist.refl _, rfl, ?_, ?_, ?_⟩
    all_goals simp
  have hsent := hseeds.sendBest (min 4 cfg.beamWidth)
  refine { hsent with entries := hsent.entries.of_subperm ?_ }
  exact (subperm_append_right _).mpr (foldl_insertEntry_subperm ..)

theorem sound_pipeSearch (h : cfg.seeds.Nodup) (turns : List PipeTurn) :
    (pipeSearch cfg turns).Sound := by
  have hrun : (turns.foldl (turn cfg) (start cfg)).Sound :=
    foldlRecOn turns (turn cfg) (Sound.start h) fun s hs t _ => hs.turn t
  exact hrun.land _

/-- **Once.** -/
theorem pipe_search_once (h : cfg.seeds.Nodup) (turns : List PipeTurn) :
    (pipeSearch cfg turns).reads.Nodup ∧ ((pipeSearch cfg turns).expanded.map Expansion.id).Nodup ∧
      (pipeSearch cfg turns).fullRetset.Nodup ∧
      (pipeSearch cfg turns).released = (pipeSearch cfg turns).reads := by
  have hs := sound_pipeSearch h turns
  refine ⟨hs.reads_nodup, hs.expanded_nodup, hs.expanded_nodup.sublist hs.results, ?_⟩
  have hlocks := hs.locks
  rwa [pipeSearch, PipeSearch.land, drop_length, map_nil, append_nil] at hlocks

/-- **The page of the node.** -/
theorem own_page_iff (h : cfg.seeds.Nodup) (turns : List PipeTurn) :
    (∀ e ∈ (pipeSearch cfg turns).expanded, e.page = some e.id) ↔
      ∀ e ∈ (pipeSearch cfg turns).expanded,
        e.sent ≤ (pipeSearch cfg turns).reads.idxOf e.id + maxNSectorReads := by
  have hs := sound_pipeSearch h turns
  refine forall₂_congr fun e he => ?_
  obtain ⟨k, hk, hpage⟩ := hs.pages e he
  obtain ⟨hlt, hget⟩ := List.getElem?_eq_some_iff.mp hk
  rw [hpage, ← hget, hs.reads_nodup.idxOf_getElem k hlt]

/-- The node `0` is the farthest; every other node has one that is nearer by two. -/
def twoChains : PipeConfig where
  lPool := 200
  candCap := 4
  beamWidth := 4
  closer a b := b < a
  seeds := [1]
  useDenseNbrs := false
  isMemberApprox _ := true
  node id _ :=
    { nbrs := if id = 0 ∨ 130 ≤ id then [] else if id = 1 then [0, 2, 3] else [id + 2] }

/-- Three reads are sent before they land together; then one lands in each turn. -/
def oneByOne : List PipeTurn :=
  [⟨1, 4, 0⟩, ⟨0, 4, 0⟩, ⟨0, 4, 0⟩, ⟨0, 4, 0⟩, ⟨3, 4, 0⟩] ++ replicate 130 ⟨1, 4, 0⟩

/-- The first read is sent, released, and its node expanded, once each. -/
theorem pipe_search_once_start : (pipeSearch twoChains [⟨1, 4, 0⟩]).released = [1] :=
  (pipe_search_once (by decide) [⟨1, 4, 0⟩]).2.2.2.trans rfl

/-- At first the pages are there. -/
theorem own_page_start : (pipeSearch twoChains [⟨1, 4, 0⟩]).expanded.map Expansion.id = [1] ∧
    ∀ e ∈ (pipeSearch twoChains [⟨1, 4, 0⟩]).expanded, e.page = some e.id :=
  ⟨by decide, (own_page_iff (by decide) [⟨1, 4, 0⟩]).mpr (by decide)⟩

/-- When the node `0` is expanded, its slot has the page of the node `130`. -/
theorem waiting_page_lost :
    (pipeSearch twoChains oneByOne).expanded.getLast? = some ⟨0, some 130, 132⟩ := by
  decide +kernel

end PipeSearch
end PipeANN
