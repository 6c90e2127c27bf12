import PipeANN.MergeDeletes

/-! # A merge into the file it reads

With SPDK `write_fd` ignores its descriptor, and `merge_deletes` writes the new records into the
area that the second pass still reads the old ones from.  This module lists the reads and writes
of the second pass in their order, as ranges of sectors.

New ids are handed out to the nodes that stay, so at the end of a chunk no more ids are used than
locations were read.  A batch that is written back is a whole one, and `LOC_PER_MERGE` is a whole
number of sectors: `transfers_spare_unread` says that **no write overwrites a sector that is read
later**.
-/
namespace PipeANN
open List ChunkedLoop SlidingWindow Nat

/-- The last sector of a location: `ed_sector`. -/
def DiskLayout.lastSector (m : DiskLayout) (loc : Nat) : Nat :=
  if m.nnodesPerSector = 0 then m.locSectorNo loc + m.sectorsPerNode - 1 else m.locSectorNo loc

/-- A request of the second pass, with its first and last sector. -/
inductive Transfer where
  | read (first last : Nat)
  | write (first last : Nat)

/-- The first request does not overwrite what the second one, which comes later, reads. -/
def Transfer.Spares : Transfer → Transfer → Prop
  | .write first last, .read first' last' =>
    ∀ sector, first ≤ sector → sector ≤ last → ¬ (first' ≤ sector ∧ sector ≤ last')
  | _, _ => True

theorem Transfer.spares_write (e : Transfer) (first last : Nat) : e.Spares (.write first last) := by
  cases e <;> trivial

/-- Batches end at a sector. -/
theorem DiskLayout.lastSector_lt (m : DiskLayout) {id k : Nat}
    (h : id < locPerMerge m.nnodesPerSector * k) :
    m.lastSector id < m.locSectorNo (locPerMerge m.nnodesPerSector * k) := by
  unfold lastSector locSectorNo
  by_cases hnpp : m.nnodesPerSector = 0
  · have hle := mul_le_mul_right m.sectorsPerNode h
    rw [succ_mul] at hle
    simp only [hnpp, lt_irrefl, if_true, if_false] at hle ⊢
    omega
  · have hpos := Nat.pos_of_ne_zero hnpp
    have hdvd : m.nnodesPerSector ∣ locPerMerge m.nnodesPerSector * k := by
      rw [locPerMerge, if_pos hpos]
      exact Nat.dvd_mul_right_of_dvd (dvd_roundUp _ _) k
    rw [if_neg hnpp, if_pos hpos, if_pos hpos]
    exact Nat.add_lt_add_left (Nat.div_lt_div_of_lt_of_dvd hdvd h) 1

namespace SSDIndex
variable {ν α τ δ γ : Type} (ix : SSDIndex ν α τ) (deleted : τ → Bool) (params : MergeParams δ)
  (maxNodeLen : Nat)

/-! ## The requests of the second pass -/

/-- The layout of the file. -/
def layout : DiskLayout := ⟨maxNodeLen, ix.nnodesPerSector⟩

/-- The read of a chunk. -/
def chunkRead (k : Nat) : Transfer :=
  let locSt := locPerMerge ix.nnodesPerSector * k
  .read ((ix.layout maxNodeLen).locSectorNo locSt)
    ((ix.layout maxNodeLen).lastSector
      (min ix.curLoc (locSt + locPerMerge ix.nnodesPerSector) - 1))

/-- The write of `write_back`. -/
def batchWrite (w : State γ) : Transfer :=
  let idDelta := min (locPerMerge ix.nnodesPerSector) (w.used - w.flushed)
  .write ((ix.layout maxNodeLen).locSectorNo w.flushed)
    ((ix.layout maxNodeLen).lastSector (w.flushed + idDelta - 1))

/-- The writes after the last chunk. -/
def drainWrites : Nat → State γ → List Transfer
  | 0, _ => []
  | fuel + 1, w =>
    if w.flushed < w.used then
      ix.batchWrite maxNodeLen w ::
        drainWrites fuel (writeBack (locPerMerge ix.nnodesPerSector) w)
    else []

/-- The requests of the second pass from chunk `k` on; `rounds` are the chunks to come, as in
`mergePass`. -/
def transfers [LinearOrder δ] (p : Populated) :
    Nat → List (List Nat) → MergeState ν α τ → Option (List Transfer)
  | _, [], st => some (ix.drainWrites maxNodeLen st.window.used st.window)
  | k, locs :: rounds, st => do
    let st ← locs.foldlM (ix.mergeLoc deleted params p) st
    let complete := locPerMerge ix.nnodesPerSector ≤ st.window.used - st.window.flushed
    let rest ← transfers p (k + 1) rounds
      { st with window := endRound (locPerMerge ix.nnodesPerSector) st.window }
    some (ix.chunkRead maxNodeLen k ::
      (if complete then [ix.batchWrite maxNodeLen st.window] else []) ++ rest)

/-! ## Writes stay behind the reads -/

/-- Before chunk `k`: less than a batch waits to be written, and no more ids are used than
locations were read. -/
structure Behind (batch k : Nat) (w : State γ) : Prop where
  flushed_le : w.flushed ≤ w.used
  used_lt : w.used < w.flushed + batch
  used_le : w.used ≤ batch * k

variable {batch k : Nat} {w w' : State γ} {ix maxNodeLen}

/-- One chunk keeps the writes behind. -/
theorem Behind.endRound (h : Behind batch k w) (hflushed : w'.flushed = w.flushed)
    (hle : w.used ≤ w'.used) (hused : w'.used ≤ w.used + batch) :
    Behind batch (k + 1) (endRound batch w') := by
  obtain ⟨h1, h2, h3⟩ := h
  have hk : w'.used ≤ batch * (k + 1) := by
    rw [mul_succ]
    omega
  unfold SlidingWindow.endRound
  by_cases hfull : batch ≤ w'.used - w'.flushed
  · rw [if_pos hfull]
    refine ⟨?_, ?_, hk⟩
    · show w'.flushed + min batch (w'.used - w'.flushed) ≤ w'.used
      omega
    · show w'.used < w'.flushed + min batch (w'.used - w'.flushed) + batch
      omega
  · rw [if_neg hfull]
    exact ⟨by omega, by omega, hk⟩

/-- A complete batch is written below the chunks to come. -/
theorem batchWrite_spares {j : Nat} (hj : k + 1 ≤ j) (last : Nat)
    (hfull : locPerMerge ix.nnodesPerSector ≤ w.used - w.flushed)
    (hused : w.used ≤ locPerMerge ix.nnodesPerSector * (k + 1)) :
    (ix.batchWrite maxNodeLen w).Spares
      (.read ((ix.layout maxNodeLen).locSectorNo (locPerMerge ix.nnodesPerSector * j)) last) := by
  intro sector _ hlast hread
  have hpos := locPerMerge_pos ix.nnodesPerSector
  have hmul := mul_le_mul_left (locPerMerge ix.nnodesPerSector) hj
  rw [min_eq_left hfull] at hlast
  have hid : w.flushed + locPerMerge ix.nnodesPerSector - 1 <
      locPerMerge ix.nnodesPerSector * j := by omega
  have hlt := (ix.layout maxNodeLen).lastSector_lt hid
  exact absurd (hlast.trans_lt hlt) (not_lt.mpr hread.1)

theorem drainWrites_isWrite (fuel : Nat) (w : State γ) :
    ∀ e ∈ ix.drainWrites maxNodeLen fuel w, ∃ first last, e = .write first last := by
  induction fuel generalizing w with
  | zero =>
    intro e he
    cases he
  | succ fuel ih =>
    intro e he
    rw [drainWrites] at he
    by_cases hmore : w.flushed < w.used
    · rw [if_pos hmore] at he
      rcases mem_cons.mp he with rfl | he
      · exact ⟨_, _, rfl⟩
      · exact ih _ e he
    · rw [if_neg hmore] at he
      cases he

variable [LinearOrder δ] {deleted} (sched : Schedule locPerPopulate ix.curLoc)

/-- What a chunk does to the two counters. -/
theorem foldlM_mergeLoc_used (locs : List Nat) (hlocs : ∀ loc ∈ locs, loc < ix.curLoc)
    (st : MergeState ν α τ) : ∃ st',
      locs.foldlM (ix.mergeLoc deleted params (ix.populate deleted params sched)) st = some st' ∧
      st'.window.flushed = st.window.flushed ∧ st.window.used ≤ st'.window.used ∧
      st'.window.used ≤ st.window.used + locs.length := by
  obtain ⟨hused, hflushed, -⟩ := foldl_fill_fields (locPerMerge ix.nnodesPerSector)
    (ix.newItem deleted params sched)
    ((locs.filter (ix.live deleted)).map (ix.newIdAt deleted sched)) st.window
  have hcount := length_filter_le (ix.live deleted) locs
  rw [length_map] at hused
  refine ⟨_, foldlM_mergeLoc rfl locs hlocs st, hflushed, ?_, ?_⟩
  · exact hused ▸ le_add_right _ _
  · exact hused ▸ Nat.add_le_add_left hcount _

/-- From chunk `k` on, no write overwrites a sector that is read later, and all reads are of
chunks from `k` on. -/
theorem transfers_from (rounds : List (List Nat))
    (hrounds : ∀ locs ∈ rounds, locs.length ≤ locPerMerge ix.nnodesPerSector ∧
      ∀ loc ∈ locs, loc < ix.curLoc)
    (k : Nat) (st : MergeState ν α τ) (hst : Behind (locPerMerge ix.nnodesPerSector) k st.window) :
    ∃ io, ix.transfers deleted params maxNodeLen (ix.populate deleted params sched) k rounds st =
        some io ∧ io.Pairwise Transfer.Spares ∧
      ∀ first last, .read first last ∈ io → ∃ j, k ≤ j ∧
        first = (ix.layout maxNodeLen).locSectorNo (locPerMerge ix.nnodesPerSector * j) := by
  induction rounds generalizing k st with
  | nil =>
    have hwrites : ∀ e ∈ ix.drainWrites maxNodeLen st.window.used st.window, ∃ first last,
        e = .write first last := drainWrites_isWrite _ _
    refine ⟨_, rfl, ?_, ?_⟩
    · apply pairwise_of_forall_mem_list
      intro e _ e' he'
      obtain ⟨first, last, rfl⟩ := hwrites e' he'
      exact e.spares_write first last
    · intro first last hmem
      obtain ⟨_, _, he⟩ := hwrites _ hmem
      cases he
  | cons locs rounds ih =>
    obtain ⟨⟨hlen, hlocs⟩, hrounds⟩ := forall_mem_cons.mp hrounds
    obtain ⟨st', hfold, hflushed, hle, hused⟩ := foldlM_mergeLoc_used params sched locs hlocs st
    obtain ⟨rest, hrest, hpair, hreads⟩ := ih hrounds (k + 1)
      ⟨endRound (locPerMerge ix.nnodesPerSector) st'.window, st'.newTags⟩
      (hst.endRound hflushed hle (by omega))
    have hk : st'.window.used ≤ locPerMerge ix.nnodesPerSector * (k + 1) := by
      have := hst.used_le
      rw [mul_succ]
      omega
    rw [transfers, hfold]
    simp only [Option.bind_eq_bind, Option.bind_some, hrest]
    refine ⟨_, rfl, pairwise_cons.mpr ⟨fun _ _ => trivial, pairwise_append.mpr ⟨?_, hpair, ?_⟩⟩, ?_⟩
    · split
      · exact pairwise_singleton _ _
      · exact Pairwise.nil
    · rintro e he (⟨first, last⟩ | ⟨first, last⟩) hmem
      · obtain ⟨hfull, he⟩ := mem_ite_nil_right.mp he
        obtain rfl := mem_singleton.mp he
        obtain ⟨j, hj, rfl⟩ := hreads first last hmem
        exact batchWrite_spares hj last hfull hk
      · exact e.spares_write first last
    · intro first last hmem
      rcases mem_cons.mp hmem with he | hmem
      · cases he
        exact ⟨k, le_rfl, rfl⟩
      rcases mem_append.mp hmem with he | hmem
      · cases mem_singleton.mp (mem_ite_nil_right.mp he).2
      · obtain ⟨j, hj, he⟩ := hreads first last hmem
        exact ⟨j, by omega, he⟩

/-- **A merge into its own file.**  For every number of nodes in a sector and every length of a
record, every deleted set, and every order of the two passes, no write of the second pass
overwrites a sector that a later chunk reads. -/
theorem transfers_spare_unread (ix : SSDIndex ν α τ) (deleted : τ → Bool) (params : MergeParams δ)
    (maxNodeLen : Nat) (sched : Schedule locPerPopulate ix.curLoc)
    (msched : Schedule (locPerMerge ix.nnodesPerSector) ix.curLoc) :
    ∃ io, ix.transfers deleted params maxNodeLen (ix.populate deleted params sched) 0
        msched.rounds ⟨empty, fun _ => none⟩ = some io ∧
      io.Pairwise Transfer.Spares := by
  have hrounds : ∀ locs ∈ msched.rounds, locs.length ≤ locPerMerge ix.nnodesPerSector ∧
      ∀ loc ∈ locs, loc < ix.curLoc := by
    intro locs hlocs
    obtain ⟨k, -, rfl⟩ := mem_map.mp hlocs
    refine ⟨?_, fun loc hloc => ((msched.mem_order (locPerMerge_pos _)).mp hloc).1⟩
    rw [(msched.perm k).length_eq, chunk, length_range', mul_succ]
    omega
  obtain ⟨io, hio, hpair, -⟩ := transfers_from params sched msched.rounds hrounds 0
    ⟨empty, fun _ => none⟩ ⟨le_rfl, Nat.add_pos_right 0 (locPerMerge_pos _), Nat.zero_le _⟩
  exact ⟨io, hio, hpair⟩

end SSDIndex
end PipeANN
