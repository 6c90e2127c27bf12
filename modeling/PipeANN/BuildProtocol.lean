import PipeANN.AddProtocol
import PipeANN.Holdings
import Mathlib.Data.List.GetD

/-! # Inserts while the index is built

Any number of threads call `insert` and `build_index` of one collection.  An insert takes its
tags under the lock `mu`, and reads there whether the index is built.  If it is not, the rows
are appended to the three arrays of the buffer, still under the lock; if it is, they are
handed to `add` after the lock is released.  A build holds `mu` all the time: it makes the
disk index from the buffer, marks the index as built, and clears the arrays.

Two facts are kept by every step.  `LockInv` is about the buffer: whoever holds `mu` may find
the arrays of different lengths, but only in a way that its own next actions put right.
`RowsInv` is about the rows: each is in the hands of one thread, in the buffer or in the index,
once.  The books are kept with `Balanced`, and a step has to balance them for its own thread.

What an insert hands to `add` can be lost there, as in `AddProtocol`: a build of an empty
buffer leaves an index in memory, and that index is transformed when it has grown.
`returned_kept_once` says that nothing is lost otherwise.

The calls of `build_from_buffer` and of the document store are single steps or left out, and
neither throws here.
-/
namespace PipeANN.Streaming
open List Function

/-! ## The buffer -/

/-- Rows in three arrays: the tags, the components of the vectors one after the other, and
the attributes, which are left out if the schema has no scalar field. -/
structure RowBuffer (κ α : Type) where
  tags : List Nat
  vectors : List κ
  attrs : List α

namespace RowBuffer
variable {κ α : Type}

def empty : RowBuffer κ α := ⟨[], [], []⟩

def append (b c : RowBuffer κ α) : RowBuffer κ α :=
  ⟨b.tags ++ c.tags, b.vectors ++ c.vectors, b.attrs ++ c.attrs⟩

/-- The row that `build_from_buffer` finds at a position. -/
def row [Inhabited α] (dim : Nat) (b : RowBuffer κ α) (i : Nat) : Row (List κ) α :=
  (b.tags.getD i 0, ⟨(b.vectors.drop (dim * i)).take dim, b.attrs.getD i default⟩)

/-- The rows that `build_from_buffer` finds, one for each tag. -/
def rows [Inhabited α] (dim : Nat) (b : RowBuffer κ α) : List (Row (List κ) α) :=
  (List.range b.tags.length).map (b.row dim)

/-- The three arrays belong together. -/
structure Aligned (dim : Nat) (hasScalar : Bool) (b : RowBuffer κ α) : Prop where
  vectors : b.vectors.length = dim * b.tags.length
  attrs : b.attrs.length = if hasScalar then b.tags.length else 0

variable {dim : Nat} {hasScalar : Bool} {b c : RowBuffer κ α}

theorem aligned_empty : (empty : RowBuffer κ α).Aligned dim hasScalar :=
  ⟨rfl, by cases hasScalar <;> rfl⟩

theorem map_fst_rows [Inhabited α] : (b.rows dim).map Prod.fst = b.tags := by
  refine ext_getElem (by simp [rows]) fun i h _ => ?_
  simp only [rows, length_map, length_range] at h
  simp [rows, row, h]

section
variable (hb : b.Aligned dim hasScalar) (hc : c.Aligned dim hasScalar)
include hb hc

theorem Aligned.append : (b.append c).Aligned dim hasScalar where
  vectors := by
    simp only [RowBuffer.append, length_append, hb.vectors, hc.vectors, Nat.mul_add]
  attrs := by
    simp only [RowBuffer.append, length_append, hb.attrs, hc.attrs]
    split <;> rfl

variable [Inhabited α]

/-- The rows of one buffer are not disturbed by another one behind it. -/
theorem row_append_left {i : Nat}
    (hi : i < b.tags.length) : (b.append c).row dim i = b.row dim i := by
  have hend : dim * i + dim ≤ b.vectors.length := by
    rw [hb.vectors]
    exact Nat.mul_le_mul_left dim hi
  have hvector : ((b.vectors ++ c.vectors).drop (dim * i)).take dim
      = (b.vectors.drop (dim * i)).take dim := by
    rw [drop_append_of_le_length (by omega), take_append_of_le_length (by rw [length_drop]; omega)]
  have hattrs : (b.attrs ++ c.attrs).getD i default = b.attrs.getD i default := by
    cases hasScalar with
    | true => exact getD_append _ _ _ _ (by rw [hb.attrs]; exact hi)
    | false =>
      rw [eq_nil_of_length_eq_zero hb.attrs, eq_nil_of_length_eq_zero hc.attrs]
      rfl
  rw [row, row, RowBuffer.append, hvector, hattrs, getD_append _ _ _ _ hi]

theorem row_append_right (i : Nat) : (b.append c).row dim (b.tags.length + i) = c.row dim i := by
  have hvector : (b.vectors ++ c.vectors).drop (dim * (b.tags.length + i))
      = c.vectors.drop (dim * i) := by
    rw [Nat.mul_add, ← hb.vectors, drop_length_add_append]
  have hattrs : (b.attrs ++ c.attrs).getD (b.tags.length + i) default = c.attrs.getD i default := by
    cases hasScalar with
    | true =>
      have hlen : b.attrs.length = b.tags.length := hb.attrs
      rw [← hlen, getD_append_right _ _ _ _ (Nat.le_add_right _ _), Nat.add_sub_cancel_left]
    | false =>
      rw [eq_nil_of_length_eq_zero hb.attrs, eq_nil_of_length_eq_zero hc.attrs]
      rfl
  rw [row, row, RowBuffer.append, hvector, hattrs,
    getD_append_right _ _ _ _ (Nat.le_add_right _ _), Nat.add_sub_cancel_left]

/-- **Appending array by array appends the rows.** -/
theorem rows_append : (b.append c).rows dim = b.rows dim ++ c.rows dim := by
  have hlen : (b.append c).tags.length = b.tags.length + c.tags.length := length_append
  rw [rows, hlen, range_add, map_append, map_map]
  congr 1
  · exact map_congr_left fun i hi => row_append_left hb hc (mem_range.mp hi)
  · exact map_congr_left fun i _ => row_append_right hb hc i

end

end RowBuffer
end PipeANN.Streaming

/-! ## What an index has -/

namespace PipeANN.MemIndex
open List Function
variable {ν : Type}

/-- The points that have a tag, by location. -/
def points (m : MemIndex ν) : List (Nat × ν) :=
  (List.range m.vectors.length).filterMap fun l =>
    (m.maps.locationToTag l).bind fun tag => m.vectors[l]?.map fun v => (tag, v)

theorem filterMap_getElem?_range {β : Type} (l : List β) :
    (range l.length).filterMap (l[·]?) = l := by
  induction l using reverseRecOn with
  | nil => rfl
  | append_singleton l a ih =>
    rw [length_append, length_singleton, range_succ, filterMap_append]
    congr 1
    · refine (filterMap_congr fun i hi => ?_).trans ih
      exact getElem?_append_left (mem_range.mp hi)
    · simp

theorem points_build (rows : List (Nat × ν)) : (build rows).points = rows := by
  have hat : ∀ l, (((build rows).maps.locationToTag l).bind fun tag =>
      (build rows).vectors[l]?.map fun v => (tag, v)) = rows[l]? := fun l => by
    rw [build, TagMaps.locationToTag_ofTags, getElem?_map, getElem?_map]
    cases rows[l]? <;> rfl
  have hlen : (build rows).vectors.length = rows.length := length_map _
  simp only [points, hat, hlen, filterMap_getElem?_range]

/-- A point with a new tag goes behind the others. -/
theorem build_insertPoint {rows : List (Nat × ν)} {tag : Nat} (h : tag ∉ rows.map Prod.fst)
    (v : ν) : (build rows).insertPoint v tag = build (rows ++ [(tag, v)]) := by
  have hnone : (build rows).maps.tagToLocation tag = none :=
    (TagMaps.tagToLocation_ofTags_eq_none_iff _ tag).mpr h
  have hdelete : (build rows).lazyDelete tag = build rows := by
    rw [MemIndex.lazyDelete, hnone]
  rw [MemIndex.insertPoint, hdelete]
  simp only [build, map_append, map_cons, map_nil, TagMaps.ofTags_append_singleton, length_map]

theorem savedTags_build (rows : List (Nat × ν)) : (build rows).savedTags = rows.map Prod.fst := by
  refine ext_getElem? fun l => ?_
  rw [(valid_build rows).getElem?_savedTags rfl l, build, TagMaps.locationToTag_ofTags]

end PipeANN.MemIndex

namespace PipeANN.Streaming
open List Function Streaming.DynamicIndex AddState MemIndex
open Prod (fst)
namespace DynamicIndex
variable {ν α : Type}

/-- The tag and the vector of a row. -/
def entry (row : Row ν α) : Nat × ν := (row.1, row.2.coords)

/-- The tags and vectors in the index in use. -/
def contents (ix : DynamicIndex ν α) : List (Nat × ν) :=
  if ix.useDiskIndex then ix.disk.map entry else ix.mem.points

/-- Nothing was deleted in memory; and a disk index that is no larger than the one in memory
has the same points. -/
def Plain (ix : DynamicIndex ν α) : Prop :=
  ∃ points, ix.mem = MemIndex.build points ∧ (ix.useDiskIndex = true →
    points.length ≤ ix.disk.length ∧
      (ix.disk.length = points.length → ix.disk.map entry = points))

variable {ix : DynamicIndex ν α}

theorem contents_disk (h : ix.useDiskIndex) : ix.contents = ix.disk.map entry := if_pos h

theorem contents_mem (h : ix.useDiskIndex = false) : ix.contents = ix.mem.points :=
  if_neg (by rw [h]; exact Bool.false_ne_true)

variable [Inhabited α]

/-- An insert of a row with a new tag adds it, in memory and on disk. -/
theorem Plain.doInsert (h : ix.Plain) {row : Row ν α} (hnew : row.1 ∉ ix.contents.map fst) :
    (ix.doInsert row.2.coords row.1 row.2.attrs false).Plain ∧
      (ix.doInsert row.2.coords row.1 row.2.attrs false).contents = ix.contents ++ [entry row] := by
  obtain ⟨points, hmem, hdisk⟩ := h
  cases huse : ix.useDiskIndex with
  | false =>
    rw [contents_mem huse, hmem, points_build] at hnew
    rw [doInsert_mem huse, hmem, build_insertPoint hnew]
    refine ⟨⟨_, rfl, fun h => absurd (huse.symm.trans h) Bool.false_ne_true⟩, ?_⟩
    refine Eq.trans (contents_mem huse) ?_
    rw [points_build, contents_mem huse, hmem, points_build]
    rfl
  | true =>
    obtain ⟨hle, -⟩ := hdisk huse
    rw [doInsert_disk huse, contents_disk huse]
    refine ⟨⟨points, hmem, fun _ => ?_⟩, Eq.trans (contents_disk huse) map_append⟩
    -- the disk index is larger now
    rw [length_append, length_singleton]
    exact ⟨by omega, fun heq => by omega⟩

/-- A transformation that loses no row on disk keeps the rows. -/
theorem Plain.transform (h : ix.Plain)
    (hok : ix.useDiskIndex → ix.disk.length = ix.mem.vectors.length) :
    ix.transform.Plain ∧ ix.transform.contents = ix.contents := by
  obtain ⟨points, hmem, hdisk⟩ := h
  have hrows : ix.transform.disk.map entry = points := by
    rw [DynamicIndex.transform, hmem, savedTags_build, build, map_map, zip_map', map_map]
    exact map_id points
  have hlen : (build points).vectors.length = points.length := length_map _
  refine ⟨⟨points, hmem, fun _ => ⟨?_, fun _ => hrows⟩⟩, ?_⟩
  · rw [← hrows, length_map]
  · rw [contents_disk (rfl : ix.transform.useDiskIndex = true), hrows]
    cases huse : ix.useDiskIndex with
    | false => rw [contents_mem huse, hmem, points_build]
    | true =>
      rw [contents_disk huse]
      exact ((hdisk huse).2 ((hok huse).trans (by rw [hmem, hlen]))).symm

end DynamicIndex

/-! ## The protocol -/

/-- The columns of an insert, encoded: one entry of attributes for each row if the schema has
scalar fields, and none otherwise. -/
structure InsertColumns (κ α : Type) where
  numRows : Nat
  vectors : List κ
  attrs : List α

/-- What `insert` checks, and what `encode_attrs_and_docs` makes of the attributes. -/
def InsertColumns.Ok {κ α : Type} (dim : Nat) (hasScalar : Bool) (cols : InsertColumns κ α) :
    Prop :=
  cols.vectors.length = dim * cols.numRows ∧
    cols.attrs.length = if hasScalar then cols.numRows else 0

instance {κ α : Type} (dim : Nat) (hasScalar : Bool) (cols : InsertColumns κ α) :
    Decidable (cols.Ok dim hasScalar) := inferInstanceAs (Decidable (_ ∧ _))

/-- The columns with the tags that are taken for their rows. -/
def InsertColumns.withTags {κ α : Type} (cols : InsertColumns κ α) (n : UInt32) : RowBuffer κ α :=
  ⟨CollectionState.takeTags n cols.numRows, cols.vectors, cols.attrs⟩

variable {α : Type}

theorem InsertColumns.Ok.aligned {κ : Type} {dim : Nat} {hasScalar : Bool}
    {cols : InsertColumns κ α} (h : cols.Ok dim hasScalar) (n : UInt32) :
    (cols.withTags n).Aligned dim hasScalar where
  vectors := by rw [withTags, CollectionState.length_takeTags]; exact h.1
  attrs := by rw [withTags, CollectionState.length_takeTags]; exact h.2

/-- Where a call of `insert` or `build_index` is. -/
inductive CallPhase (κ α : Type) where
  | idle
  /-- An insert before its critical section. -/
  | encoded (cols : InsertColumns κ α)
  /-- The critical section of an insert. -/
  | locked (cols : InsertColumns κ α)
  | tagged (batch : RowBuffer κ α) (built : Bool)
  | tagsPushed (batch : RowBuffer κ α)
  | vectorsPushed (batch : RowBuffer κ α)
  | attrsPushed (batch : RowBuffer κ α)
  /-- An insert behind its critical section, into the buffer or before and in `add`. -/
  | buffered (batch : RowBuffer κ α)
  | calling (batch : RowBuffer κ α)
  | adding (batch : RowBuffer κ α)
  /-- A build before its critical section. -/
  | waiting
  /-- The critical section of a build. -/
  | building
  | unmarked
  | marked
  | vectorsCleared
  | tagsCleared
  | leaving

/-- The rows that are given their tags in the next action. -/
def CallPhase.newRows {κ α : Type} : CallPhase κ α → Nat
  | .locked cols => cols.numRows
  | _ => 0

/-- A collection and the calls in progress. -/
structure BuildState (κ α : Type) where
  /-- The index, and the calls of `add`. -/
  adds : AddState (List κ) α
  /-- The thread that holds `mu`. -/
  mu : Option Nat
  indexBuilt : Bool
  nextTag : UInt32
  buf : RowBuffer κ α
  phase : Nat → CallPhase κ α
  /-- The rows that wait in the buffer (history variable). -/
  pending : List (Row (List κ) α)
  /-- The rows that were given tags (history variable). -/
  accepted : List (Row (List κ) α)
  /-- The rows of the inserts that have returned (history variable). -/
  returned : List (Row (List κ) α)

/-- A call, the next action of a thread, or an action inside of `add`. -/
inductive BuildLabel (κ α : Type) where
  | insert (t : Nat) (cols : InsertColumns κ α)
  | buildIndex (t : Nat)
  | next (t : Nat)
  | add (a : AddLabel (List κ) α)

/-- The thread of an action of `add`. -/
def AddLabel.thread {ν α : Type} : AddLabel ν α → Nat
  | .call t _ | .insertRow t _ | .release t | .readFlag t | .readCount t | .transform t => t

namespace BuildState
variable {κ α : Type} [Inhabited α]

/-- A new collection. -/
def initial : BuildState κ α :=
  ⟨.initial (DynamicIndex.inMemory false), none, false, 0, .empty, fun _ => .idle, [], [], []⟩

def setPhase (s : BuildState κ α) (t : Nat) (p : CallPhase κ α) : BuildState κ α :=
  { s with phase := update s.phase t p }

variable (dim : Nat) (hasScalar : Bool) (s : BuildState κ α)

/-- `build_from_buffer`. -/
def buildFromBuffer : DynamicIndex (List κ) α :=
  { s.adds.ix with
    useDiskIndex := true
    useMemIndexForDiskIndex := false
    hasAttrs := hasScalar
    disk := s.buf.rows dim }

/-- An insert returns. -/
def finish (t : Nat) (batch : RowBuffer κ α) : BuildState κ α :=
  { s.setPhase t .idle with returned := s.returned ++ batch.rows dim }

/-- The next action of a thread. -/
def next (t : Nat) : Option (BuildState κ α) :=
  match s.phase t with
  | .idle => none
  -- `insert`
  | .encoded cols =>
    if s.mu = none then some { s.setPhase t (.locked cols) with mu := some t } else none
  | .locked cols =>
    let batch : RowBuffer κ α :=
      ⟨CollectionState.takeTags s.nextTag cols.numRows, cols.vectors, cols.attrs⟩
    some { s.setPhase t (.tagged batch s.indexBuilt) with
      nextTag := s.nextTag + UInt32.ofNat cols.numRows
      accepted := s.accepted ++ batch.rows dim }
  | .tagged batch false =>
    some { s.setPhase t (.tagsPushed batch) with
      buf := { s.buf with tags := s.buf.tags ++ batch.tags } }
  | .tagsPushed batch =>
    some { s.setPhase t (.vectorsPushed batch) with
      buf := { s.buf with vectors := s.buf.vectors ++ batch.vectors } }
  | .vectorsPushed batch =>
    some { s.setPhase t (.attrsPushed batch) with
      buf := { s.buf with attrs := s.buf.attrs ++ batch.attrs } }
  | .attrsPushed batch =>
    some { s.setPhase t (.buffered batch) with
      mu := none
      pending := s.pending ++ batch.rows dim }
  | .buffered batch => some (s.finish dim t batch)
  | .tagged batch true => some { s.setPhase t (.calling batch) with mu := none }
  | .calling batch =>
    (s.adds.step (.call t (batch.rows dim))).map fun adds =>
      { s.setPhase t (.adding batch) with adds := adds }
  | .adding batch =>
    match s.adds.phase t with
    | .idle => some (s.finish dim t batch)
    | _ => none
  -- `build_index_locked`
  | .waiting => if s.mu = none then some { s.setPhase t .building with mu := some t } else none
  | .building =>
    if s.indexBuilt then some (s.setPhase t .leaving)
    else if s.buf.tags = [] then some { s.setPhase t .leaving with indexBuilt := true }
    else
      some { s.setPhase t .unmarked with
        adds := { s.adds with ix := s.buildFromBuffer dim hasScalar }
        pending := [] }
  | .unmarked => some { s.setPhase t .marked with indexBuilt := true }
  | .marked => some { s.setPhase t .vectorsCleared with buf := { s.buf with vectors := [] } }
  | .vectorsCleared => some { s.setPhase t .tagsCleared with buf := { s.buf with tags := [] } }
  | .tagsCleared => some { s.setPhase t .leaving with buf := { s.buf with attrs := [] } }
  | .leaving => some { s.setPhase t .idle with mu := none }

def step : BuildLabel κ α → Option (BuildState κ α)
  | .insert t cols =>
    match s.phase t with
    | .idle => if cols.Ok dim hasScalar then some (s.setPhase t (.encoded cols)) else none
    | _ => none
  | .buildIndex t =>
    match s.phase t with
    | .idle => some (s.setPhase t .waiting)
    | _ => none
  | .next t => s.next dim hasScalar t
  | .add (.call _ _) => none
  | .add a =>
    match s.phase a.thread with
    | .adding _ => (s.adds.step a).map fun adds => { s with adds := adds }
    | _ => none

/-- There are tags for all rows, and the index is transformed as in `AddState.TransformOk`. -/
def StepOk : BuildLabel κ α → Prop
  | .next t => s.accepted.length + (s.phase t).newRows ≤ 2 ^ 32
  | .add a => s.adds.TransformOk a
  | _ => True

end BuildState

/-! ## The buffer under its lock -/

namespace CallPhase
variable {κ α : Type}

/-- The thread is in a critical section. -/
def holdsMu : CallPhase κ α → Bool
  | .locked _ | .tagged _ _ | .tagsPushed _ | .vectorsPushed _ | .attrsPushed _ => true
  | .building | .unmarked | .marked | .vectorsCleared | .tagsCleared | .leaving => true
  | _ => false

variable [Inhabited α] (dim : Nat) (hasScalar : Bool)

/-- The buffer has just the pending rows. -/
def Waiting (buf : RowBuffer κ α) (pending : List (Row (List κ) α)) : Prop :=
  buf.Aligned dim hasScalar ∧ buf.rows dim = pending

/-- What a thread may rely on, and what it makes of the buffer. -/
def BufferOk (buf : RowBuffer κ α) (pending : List (Row (List κ) α)) : CallPhase κ α → Prop
  | .encoded cols => cols.Ok dim hasScalar
  | .locked cols => cols.Ok dim hasScalar ∧ Waiting dim hasScalar buf pending
  | .tagged b _ => b.Aligned dim hasScalar ∧ Waiting dim hasScalar buf pending
  | .tagsPushed b => b.Aligned dim hasScalar ∧ ∃ base, Waiting dim hasScalar base pending ∧
      buf = ⟨base.tags ++ b.tags, base.vectors, base.attrs⟩
  | .vectorsPushed b => b.Aligned dim hasScalar ∧ ∃ base, Waiting dim hasScalar base pending ∧
      buf = ⟨base.tags ++ b.tags, base.vectors ++ b.vectors, base.attrs⟩
  | .attrsPushed b => b.Aligned dim hasScalar ∧ ∃ base, Waiting dim hasScalar base pending ∧
      buf = base.append b
  | .building | .leaving => Waiting dim hasScalar buf pending
  | .unmarked | .marked => pending = []
  | .vectorsCleared => pending = [] ∧ buf.vectors = []
  | .tagsCleared => pending = [] ∧ buf.vectors = [] ∧ buf.tags = []
  | _ => True

variable {dim hasScalar}

/-- Outside of the critical sections nothing is assumed of the buffer. -/
theorem BufferOk.of_not_holdsMu {buf buf' : RowBuffer κ α}
    {pending pending' : List (Row (List κ) α)} {p : CallPhase κ α} (hp : p.holdsMu = false)
    (h : BufferOk dim hasScalar buf pending p) : BufferOk dim hasScalar buf' pending' p := by
  cases p with
  | encoded cols => exact h
  | idle | buffered | calling | adding | waiting => trivial
  | _ => cases hp

end CallPhase

namespace BuildState
variable {κ α : Type} [Inhabited α] {dim : Nat} {hasScalar : Bool}

open CallPhase

/-- What every run keeps of the lock and the buffer. -/
structure LockInv (dim : Nat) (hasScalar : Bool) (s : BuildState κ α) : Prop where
  lock : ∀ t, (s.phase t).holdsMu = true ↔ s.mu = some t
  free : s.mu = none → Waiting dim hasScalar s.buf s.pending
  phases : ∀ t, BufferOk dim hasScalar s.buf s.pending (s.phase t)

variable {s s' : BuildState κ α} {t : Nat} {p : CallPhase κ α} {label : BuildLabel κ α}

theorem lockInv_initial : (initial : BuildState κ α).LockInv dim hasScalar where
  lock _ := iff_of_false Bool.false_ne_true (Option.some_ne_none _).symm
  free _ := ⟨RowBuffer.aligned_empty, rfl⟩
  phases _ := trivial

section
variable (hs : s.LockInv dim hasScalar)
include hs

theorem LockInv.of_step (hphase : s'.phase = update s.phase t p)
    (hlock : ∀ u, (update s.phase t p u).holdsMu ↔ s'.mu = some u)
    (hfree : s'.mu = none → Waiting dim hasScalar s'.buf s'.pending)
    (hp : BufferOk dim hasScalar s'.buf s'.pending p)
    (hbuf : s'.buf = s.buf ∧ s'.pending = s.pending ∨ (s.phase t).holdsMu) :
    s'.LockInv dim hasScalar where
  lock u := by rw [hphase, hlock]
  free := hfree
  phases u := by
    have hu := hs.phases u
    rw [hphase, update_apply]
    split
    · exact hp
    next hut =>
      rcases hbuf with ⟨h1, h2⟩ | hholds
      · rwa [h1, h2]
      · -- another thread is not in a critical section while this one is
        exact hu.of_not_holdsMu (by grind [hs.lock t, hs.lock u])

/-- An action inside or outside of the critical sections. -/
theorem LockInv.stay {q : CallPhase κ α} (hq : s.phase t = q)
    (hphase : s'.phase = update s.phase t p) (hmu : s'.mu = s.mu) (hholds : p.holdsMu = q.holdsMu)
    (hp : BufferOk dim hasScalar s'.buf s'.pending p)
    (hbuf : s'.buf = s.buf ∧ s'.pending = s.pending ∨ q.holdsMu) : s'.LockInv dim hasScalar := by
  subst hq
  refine hs.of_step hphase (fun u => ?_) (fun hnone => ?_) hp hbuf
  · grind [hs.lock u]
  · grind [hs.lock t, hs.free]

/-- A critical section is entered: the buffer has the pending rows. -/
theorem LockInv.enter (hphase : s'.phase = update s.phase t p) (hnone : s.mu = none)
    (hmu : s'.mu = some t) (hholds : p.holdsMu) (hbuf : s'.buf = s.buf)
    (hpending : s'.pending = s.pending) (hp : BufferOk dim hasScalar s.buf s.pending p) :
    s'.LockInv dim hasScalar := by
  refine hs.of_step hphase (fun u => ?_) (fun h => ?_) (by rwa [hbuf, hpending])
    (.inl ⟨hbuf, hpending⟩)
  · grind [hs.lock u]
  · grind

/-- A critical section is left: the buffer must have the pending rows again. -/
theorem LockInv.leave {q : CallPhase κ α} (hq : s.phase t = q)
    (hphase : s'.phase = update s.phase t p) (hin : q.holdsMu)
    (hmu : s'.mu = none) (hholds : p.holdsMu = false)
    (hp : BufferOk dim hasScalar s'.buf s'.pending p)
    (hwaiting : Waiting dim hasScalar s'.buf s'.pending) : s'.LockInv dim hasScalar := by
  subst hq
  refine hs.of_step hphase (fun u => ?_) (fun _ => hwaiting) hp (.inr hin)
  grind [hs.lock u, hs.lock t]

theorem LockInv.next (h : s.next dim hasScalar t = some s') : s'.LockInv dim hasScalar := by
  have hok : ∀ {q}, s.phase t = q → BufferOk dim hasScalar s.buf s.pending q :=
    fun hphase => hphase ▸ hs.phases t
  revert h
  fun_cases BuildState.next dim hasScalar s t with
  | case2 cols hphase hmu =>
    rintro ⟨⟩
    exact hs.enter rfl hmu rfl rfl rfl rfl ⟨hok hphase, hs.free hmu⟩
  | case4 cols hphase =>
    rintro ⟨⟩
    exact hs.stay hphase rfl rfl rfl ⟨(hok hphase).1.aligned _, (hok hphase).2⟩ (.inl ⟨rfl, rfl⟩)
  | case5 batch hphase =>
    rintro ⟨⟩
    exact hs.stay hphase rfl rfl rfl ⟨(hok hphase).1, s.buf, (hok hphase).2, rfl⟩ (.inr rfl)
  | case6 batch hphase =>
    rintro ⟨⟩
    obtain ⟨hb, base, hbase, hbuf⟩ := hok hphase
    exact hs.stay hphase rfl rfl rfl ⟨hb, base, hbase, by rw [hbuf]⟩ (.inr rfl)
  | case7 batch hphase =>
    rintro ⟨⟩
    obtain ⟨hb, base, hbase, hbuf⟩ := hok hphase
    exact hs.stay hphase rfl rfl rfl ⟨hb, base, hbase, by rw [hbuf]; rfl⟩ (.inr rfl)
  | case8 batch hphase =>
    rintro ⟨⟩
    obtain ⟨hb, base, ⟨hbase, hrows⟩, hbuf⟩ := hok hphase
    refine hs.leave hphase rfl rfl rfl rfl trivial ?_
    -- all three arrays of the batch are behind those of the buffer
    change Waiting dim hasScalar s.buf (s.pending ++ batch.rows dim)
    rw [hbuf, ← hrows, ← RowBuffer.rows_append hbase hb]
    exact ⟨hbase.append hb, rfl⟩
  | case10 batch hphase =>
    rintro ⟨⟩
    exact hs.leave hphase rfl rfl rfl rfl trivial (hok hphase).2
  | case9 batch hphase | case12 batch hphase =>
    rintro ⟨⟩
    exact hs.stay hphase rfl rfl rfl trivial (.inl ⟨rfl, rfl⟩)
  | case11 batch hphase =>
    intro h
    obtain ⟨adds, -, rfl⟩ := Option.map_eq_some_iff.mp h
    exact hs.stay hphase rfl rfl rfl trivial (.inl ⟨rfl, rfl⟩)
  | case14 hphase hmu =>
    rintro ⟨⟩
    exact hs.enter rfl hmu rfl rfl rfl rfl (hs.free hmu)
  | case18 hphase =>
    rintro ⟨⟩
    exact hs.stay hphase rfl rfl rfl rfl (.inr rfl)
  | case16 hphase | case17 hphase | case19 hphase =>
    rintro ⟨⟩
    exact hs.stay hphase rfl rfl rfl (hok hphase :) (.inl ⟨rfl, rfl⟩)
  | case20 hphase =>
    rintro ⟨⟩
    exact hs.stay hphase rfl rfl rfl ⟨hok hphase, rfl⟩ (.inr rfl)
  | case21 hphase =>
    rintro ⟨⟩
    exact hs.stay hphase rfl rfl rfl ⟨(hok hphase).1, (hok hphase).2, rfl⟩ (.inr rfl)
  | case22 hphase =>
    rintro ⟨⟩
    obtain ⟨hpending, hvectors, htags⟩ := hok hphase
    refine hs.stay hphase rfl rfl rfl ?_ (.inr rfl)
    change Waiting dim hasScalar ⟨s.buf.tags, s.buf.vectors, []⟩ s.pending
    rw [hpending, hvectors, htags]
    exact ⟨RowBuffer.aligned_empty, rfl⟩
  | case23 hphase =>
    rintro ⟨⟩
    exact hs.leave hphase rfl rfl rfl rfl trivial (hok hphase)
  | _ => exact fun h => by cases h

end

/-- A step starts a call, is the next action of a thread, or happens inside of `add`. -/
theorem step_cases (h : s.step dim hasScalar label = some s') :
    (∃ t p, s.phase t = .idle ∧ s' = s.setPhase t p ∧
      (p = .waiting ∨ ∃ cols, p = .encoded cols ∧ cols.Ok dim hasScalar)) ∨
    (∃ t, label = .next t ∧ s.next dim hasScalar t = some s') ∨
    ∃ a batch adds, label = .add a ∧ (∀ t rows, a ≠ .call t rows) ∧
      s.phase a.thread = .adding batch ∧ s.adds.step a = some adds ∧
      s' = { s with adds := adds } := by
  revert h
  fun_cases step dim hasScalar s label with
  | case1 t cols hidle hcols =>
    rintro ⟨⟩
    exact .inl ⟨t, .encoded cols, hidle, rfl, .inr ⟨cols, rfl, hcols⟩⟩
  | case4 t hidle =>
    rintro ⟨⟩
    exact .inl ⟨t, .waiting, hidle, rfl, .inl rfl⟩
  | case6 t => exact fun h => .inr (.inl ⟨t, rfl, h⟩)
  | case8 a hcall batch hphase =>
    intro h
    obtain ⟨adds, hadds, rfl⟩ := Option.map_eq_some_iff.mp h
    exact .inr (.inr ⟨a, batch, adds, rfl, hcall, hphase, hadds, rfl⟩)
  | _ => exact fun h => by cases h

theorem LockInv.step (hs : s.LockInv dim hasScalar)
    (h : s.step dim hasScalar label = some s') : s'.LockInv dim hasScalar := by
  obtain ⟨t, p, hidle, rfl, hp⟩ | ⟨t, -, hnext⟩ | ⟨a, batch, adds, -, -, -, -, rfl⟩ :=
    step_cases h
  · obtain rfl | ⟨cols, rfl, hcols⟩ := hp
    · exact hs.stay hidle rfl rfl rfl trivial (.inl ⟨rfl, rfl⟩)
    · exact hs.stay hidle rfl rfl rfl hcols (.inl ⟨rfl, rfl⟩)
  · exact hs.next hnext
  · exact { hs with }

end BuildState

/-! ## Where the rows are -/

/-- The rows of a call of `add` that are not inserted yet. -/
def AddPhase.todo {ν α : Type} : AddPhase ν α → List (Row ν α)
  | .inserting _ todo => todo
  | _ => []

/-- The tags and vectors of rows. -/
def entries {ν α : Type} (rows : List (Row ν α)) : Multiset (Nat × ν) :=
  ↑(rows.map DynamicIndex.entry)

variable {ν : Type} {s s' : AddState ν α} {a : AddLabel ν α} {row : Row ν α}

@[simp] theorem entries_nil : entries ([] : List (Row ν α)) = 0 := rfl

@[simp] theorem entries_append (l m : List (Row ν α)) :
    entries (l ++ m) = entries l + entries m := by
  rw [entries, map_append]
  rfl

theorem mem_entries {rows : List (Row ν α)} (h : row ∈ rows) : entry row ∈ entries rows :=
  Multiset.mem_coe.mpr (mem_map_of_mem h)

namespace CallPhase
variable {κ α : Type} [Inhabited α] (dim : Nat)

/-- The rows of an insert that has its tags. -/
def rows : CallPhase κ α → List (Row (List κ) α)
  | .tagged b _ | .tagsPushed b | .vectorsPushed b | .attrsPushed b => b.rows dim
  | .buffered b | .calling b | .adding b => b.rows dim
  | _ => []

/-- Those that it has still to hand over, to the buffer or to `add`. -/
def held : CallPhase κ α → List (Row (List κ) α)
  | .tagged b _ | .tagsPushed b | .vectorsPushed b | .attrsPushed b | .calling b => b.rows dim
  | _ => []

/-- A thread is in `add` in one phase only, with its own rows. -/
def AddOk (a : AddPhase (List κ) α) : CallPhase κ α → Prop
  | .adding b => a.todo ⊆ b.rows dim
  | _ => a = .idle

/-- The thread has not seen a built index. -/
def BeforeBuild : CallPhase κ α → Prop
  | .tagged _ built => built = false
  | .calling _ | .adding _ => False
  | _ => True

/-- The thread is in `add`. -/
def inAdd : CallPhase κ α → Bool
  | .adding _ => true
  | _ => false

/-- The thread has built the index and not marked it as built. -/
def isUnmarked : CallPhase κ α → Bool
  | .unmarked => true
  | _ => false

omit [Inhabited α] in
theorem holdsMu_of_isUnmarked {q : CallPhase κ α} (h : q.isUnmarked) : q.holdsMu := by
  cases q with
  | unmarked => rfl
  | _ => cases h

/-- What a thread has in its hands. -/
def hand (p : CallPhase κ α) (a : AddPhase (List κ) α) : Multiset (Nat × List κ) :=
  entries (p.held dim) + entries a.todo

theorem hand_adding (b : RowBuffer κ α) (a : AddPhase (List κ) α) :
    hand dim (.adding b) a = entries a.todo := zero_add _

variable {dim} in
/-- A thread has only rows of its own insert in its hands. -/
theorem mem_rows_of_mem_hand {p : CallPhase κ α} {a : AddPhase (List κ) α} (hok : p.AddOk dim a)
    {e : Nat × List κ} (he : e ∈ p.hand dim a) : e ∈ entries (p.rows dim) := by
  rcases Multiset.mem_add.mp he with hheld | htodo
  · cases p with
    | tagged | tagsPushed | vectorsPushed | attrsPushed | calling => exact hheld
    | _ => exact absurd hheld (Multiset.notMem_zero e)
  · cases p with
    | adding b =>
      obtain ⟨row, hrow, rfl⟩ := mem_map.mp (Multiset.mem_coe.mp htodo)
      exact mem_entries (hok hrow)
    | _ =>
      obtain rfl : a = .idle := hok
      exact absurd htodo (Multiset.notMem_zero e)

end CallPhase

namespace BuildState
variable {κ α : Type} [Inhabited α] {dim : Nat} {hasScalar : Bool}

open CallPhase

/-- What is in the buffer and in the index. -/
def stock (s : BuildState κ α) : Multiset (Nat × List κ) :=
  entries s.pending + ↑s.adds.ix.contents

/-- What a run keeps of the rows. -/
structure RowsInv (dim : Nat) (s : BuildState κ α) : Prop where
  tags : s.accepted.map Prod.fst = List.range s.accepted.length
  nextTag : s.nextTag = UInt32.ofNat s.accepted.length
  plain : s.adds.ix.Plain
  calls : ∀ t, (s.phase t).AddOk dim (s.adds.phase t)
  unbuilt : s.indexBuilt = false → (∀ t, (s.phase t).BeforeBuild) ∧
    (s.adds.ix = DynamicIndex.inMemory false ∨ ∃ t, (s.phase t).isUnmarked = true)
  stored : Balanced (fun t => (s.phase t).hand dim (s.adds.phase t)) s.stock (entries s.accepted)
  ended : Balanced (fun t => entries ((s.phase t).rows dim)) (entries s.returned)
    (entries s.accepted)

variable {s s' : BuildState κ α} {t : Nat} {p : CallPhase κ α} {a : AddPhase (List κ) α}
    {q : CallPhase κ α}

theorem rowsInv_initial : (initial : BuildState κ α).RowsInv dim where
  tags := rfl
  nextTag := rfl
  plain := ⟨[], rfl, fun h => absurd h Bool.false_ne_true⟩
  calls _ := rfl
  unbuilt _ := ⟨fun _ => trivial, .inl rfl⟩
  stored := .start (fun _ => rfl) 0
  ended := .start (fun _ => rfl) 0

section
variable (hs : s.RowsInv dim)
include hs

/-- Different rows have different tags. -/
theorem RowsInv.nodup_tags : ((entries s.accepted).map fst).Nodup := by
  have htags : (s.accepted.map entry).map fst = s.accepted.map fst := by
    rw [map_map]
    rfl
  rw [entries, Multiset.map_coe, htags, hs.tags]
  exact nodup_range

/-- A step of one thread.  Rows may change hands, but they have to be somewhere. -/
theorem RowsInv.of_step (hphase : s'.phase = update s.phase t p)
    (hadds : s'.adds.phase = update s.adds.phase t a)
    (htags : s'.accepted.map fst = range s'.accepted.length)
    (hnext : s'.nextTag = UInt32.ofNat s'.accepted.length) (hplain : s'.adds.ix.Plain)
    (hcall : p.AddOk dim a)
    (hunbuilt : s'.indexBuilt = false → s.indexBuilt = false ∧ p.BeforeBuild ∧
      (p.isUnmarked ∨ s'.adds.ix = s.adds.ix ∧ (s.phase t).isUnmarked = false))
    (hstored : p.hand dim a + s'.stock + entries s.accepted
      = (s.phase t).hand dim (s.adds.phase t) + s.stock + entries s'.accepted)
    (hended : entries (p.rows dim) + entries s'.returned + entries s.accepted
      = entries ((s.phase t).rows dim) + entries s.returned + entries s'.accepted) :
    s'.RowsInv dim where
  tags := htags
  nextTag := hnext
  plain := hplain
  calls u := by
    rw [hphase, hadds]
    grind [hs.calls u]
  unbuilt hnot := by
    obtain ⟨hnot, hp, hix⟩ := hunbuilt hnot
    obtain ⟨hbefore, hindex⟩ := hs.unbuilt hnot
    rw [hphase]
    refine ⟨fun u => by grind, ?_⟩
    rcases hix with hp | ⟨hix, hne⟩
    · exact .inr ⟨t, by rw [update_self, hp]⟩
    · refine hindex.imp (hix.trans ·) ?_
      rintro ⟨u, hu⟩
      exact ⟨u, by grind⟩
  stored := hs.stored.step t
    (fun u hut => by rw [hphase, hadds, update_of_ne hut, update_of_ne hut])
    (by rw [hphase, hadds, update_self, update_self]; exact hstored)
  ended := hs.ended.step t (fun u hut => by rw [hphase, update_of_ne hut])
    (by rw [hphase, update_self]; exact hended)

/-- A thread that is not in `add` is idle there. -/
theorem RowsInv.addIdle (hphase : s.phase t = q)
    (hq : q.inAdd = false) : s.adds.phase t = .idle := by
  have h := hs.calls t
  rw [hphase] at h
  cases q with
  | adding batch => cases hq
  | _ => exact h

/-- A step of a thread outside of `add` in which no row changes hands. -/
theorem RowsInv.quiet {mu : Option Nat} {buf : RowBuffer κ α} {built : Bool}
    (hphase : s.phase t = q) (hq : q.inAdd = false) (hcall : p.AddOk dim .idle)
    (hunbuilt : built = false → s.indexBuilt = false ∧ p.BeforeBuild ∧ q.isUnmarked = false)
    (hheld : p.held dim = q.held dim) (hrows : p.rows dim = q.rows dim) :
    RowsInv dim { s.setPhase t p with mu := mu, buf := buf, indexBuilt := built } := by
  have hidle := hs.addIdle hphase hq
  subst hphase
  refine hs.of_step rfl (update_eq_self t _).symm hs.tags hs.nextTag hs.plain (hidle ▸ hcall)
    (fun hnot => ?_) ?_ ?_
  · obtain ⟨h1, h2, h3⟩ := hunbuilt hnot
    exact ⟨h1, h2, .inr ⟨rfl, h3⟩⟩
  · rw [hand, hheld]
    rfl
  · rw [hrows]
    rfl

variable {batch : RowBuffer κ α}

theorem RowsInv.takeTags {cols : InsertColumns κ α}
    (hphase : s.phase t = .locked cols) (hfit : s.accepted.length + cols.numRows ≤ 2 ^ 32)
    (htags : batch.tags = CollectionState.takeTags s.nextTag cols.numRows) :
    RowsInv dim { s.setPhase t (.tagged batch s.indexBuilt) with
      nextTag := s.nextTag + UInt32.ofNat cols.numRows
      accepted := s.accepted ++ batch.rows dim } := by
  have hidle := hs.addIdle hphase rfl
  rw [hs.nextTag, CollectionState.takeTags_eq hfit] at htags
  have hlen : (batch.rows dim).length = cols.numRows := by
    rw [← length_map fst, RowBuffer.map_fst_rows, htags, length_map, length_range]
  refine hs.of_step rfl (update_eq_self t _).symm ?_ ?_ hs.plain ?_ (fun hnot => ?_) ?_ ?_
  · rw [map_append, hs.tags, RowBuffer.map_fst_rows, htags, length_append, hlen, range_add]
  · rw [hs.nextTag, length_append, hlen, UInt32.ofNat_add]
  · exact hidle
  · exact ⟨hnot, hnot, .inr ⟨rfl, by rw [hphase]; rfl⟩⟩
  · change hand dim (.tagged batch s.indexBuilt) (s.adds.phase t) + s.stock + _
      = _ + s.stock + entries (s.accepted ++ batch.rows dim)
    rw [hphase, entries_append]
    simp only [hand, held]
    abel
  · change entries (batch.rows dim) + entries s.returned + _
      = _ + entries s.returned + entries (s.accepted ++ batch.rows dim)
    rw [hphase, entries_append]
    abel

/-- The rows of an insert go to the buffer. -/
theorem RowsInv.unlockBuffered (hphase : s.phase t = .attrsPushed batch) :
    RowsInv dim { s.setPhase t (.buffered batch) with
      mu := none
      pending := s.pending ++ batch.rows dim } := by
  have hidle := hs.addIdle hphase rfl
  refine hs.of_step rfl (update_eq_self t _).symm hs.tags hs.nextTag hs.plain hidle
    (fun hnot => ⟨hnot, trivial, .inr ⟨rfl, ?_⟩⟩) ?_ ?_
  · rw [hphase]
    rfl
  · change hand dim (.buffered batch) (s.adds.phase t)
      + (entries (s.pending ++ batch.rows dim) + ↑s.adds.ix.contents) + _ = _ + s.stock + _
    rw [hphase, entries_append, stock]
    simp only [hand, held]
    abel
  · rw [hphase]
    rfl

/-- An insert whose rows are handed over returns. -/
theorem RowsInv.finish (hphase : s.phase t = q) (hrows : q.rows dim = batch.rows dim)
    (hheld : q.held dim = []) (hidle : s.adds.phase t = .idle) (hne : q.isUnmarked = false) :
    (s.finish dim t batch).RowsInv dim := by
  subst hphase
  refine hs.of_step rfl (update_eq_self t _).symm hs.tags hs.nextTag hs.plain hidle
    (fun hnot => ⟨hnot, trivial, .inr ⟨rfl, hne⟩⟩) ?_ ?_
  · rw [hand, hand, hheld]
    rfl
  · change entries [] + entries (s.returned ++ batch.rows dim) + _ = _
    rw [hrows, entries_append, add_comm (entries s.returned)]
    rfl

/-- The rows of an insert are handed to `add`. -/
theorem RowsInv.callAdd {adds : AddState (List κ) α} (hphase : s.phase t = .calling batch)
    (hadds : s.adds.step (.call t (batch.rows dim)) = some adds) :
    RowsInv dim { s.setPhase t (.adding batch) with adds := adds } := by
  have hidle := hs.addIdle hphase rfl
  rw [AddState.step, hidle] at hadds
  cases hadds
  refine hs.of_step rfl rfl hs.tags hs.nextTag
    hs.plain (Subset.refl _) (fun hnot => ?_) ?_ ?_
  · exact absurd ((hs.unbuilt hnot).1 t) (by rw [hphase]; exact id)
  · rw [hphase, hidle]
    simp only [hand, AddPhase.todo, entries_nil, add_zero]
    rfl
  · rw [hphase]
    rfl

end

/-- **The buffer becomes the index.**  Nobody has inserted into the index so far, nor will
anybody before the index is marked as built. -/
theorem RowsInv.build (hl : s.LockInv dim hasScalar) (hs : s.RowsInv dim)
    (hphase : s.phase t = .building) (hbuilt : s.indexBuilt = false) :
    RowsInv dim { s.setPhase t .unmarked with
      adds := { s.adds with ix := s.buildFromBuffer dim hasScalar }
      pending := [] } := by
  have hidle := hs.addIdle hphase rfl
  have hix : s.adds.ix = inMemory false := by
    refine (hs.unbuilt hbuilt).2.resolve_right ?_
    rintro ⟨u, hu⟩
    -- the other builder would hold the lock too
    have h1 := (hl.lock t).mp (by rw [hphase]; rfl)
    have h2 := (hl.lock u).mp (holdsMu_of_isUnmarked hu)
    obtain rfl := Option.some.inj (h1.symm.trans h2)
    rw [hphase] at hu
    cases hu
  have hrows : s.buf.rows dim = s.pending := by
    have hok := hl.phases t
    rw [hphase] at hok
    exact hok.2
  refine hs.of_step rfl (update_eq_self t _).symm hs.tags hs.nextTag ?_ hidle
    (fun _ => ⟨hbuilt, trivial, .inl rfl⟩) ?_ ?_
  · refine ⟨[], ?_, fun _ => ⟨Nat.zero_le _, fun h => ?_⟩⟩
    · change s.adds.ix.mem = _
      rw [hix]
      rfl
    · exact map_eq_nil_iff.mpr (length_eq_zero_iff.mp h)
  · change hand dim .unmarked (s.adds.phase t)
      + (entries ([] : List (Row (List κ) α)) + entries (s.buf.rows dim)) + _ = _ + s.stock + _
    rw [hphase, hrows, stock, hix]
    change entries _ + entries s.pending + _ = entries _ + (entries s.pending + 0) + _
    rw [add_zero]
    rfl
  · rw [hphase]
    rfl

theorem RowsInv.next (hl : s.LockInv dim hasScalar) (hs : s.RowsInv dim)
    (hok : s.accepted.length + (s.phase t).newRows ≤ 2 ^ 32)
    (h : s.next dim hasScalar t = some s') : s'.RowsInv dim := by
  revert h
  fun_cases BuildState.next dim hasScalar s t with
  | case4 cols hphase =>
    rintro ⟨⟩
    rw [hphase] at hok
    exact hs.takeTags hphase hok rfl
  | case8 batch hphase =>
    rintro ⟨⟩
    exact hs.unlockBuffered hphase
  | case9 batch hphase =>
    rintro ⟨⟩
    exact hs.finish hphase rfl rfl (hs.addIdle hphase rfl) rfl
  | case10 batch hphase =>
    rintro ⟨⟩
    refine hs.quiet hphase rfl rfl (fun h => ?_) rfl rfl
    -- the index was built when the tags were taken
    have hbefore := (hs.unbuilt h).1 t
    rw [hphase] at hbefore
    exact absurd hbefore.symm Bool.false_ne_true
  | case11 batch hphase =>
    intro h
    obtain ⟨adds, hadds, rfl⟩ := Option.map_eq_some_iff.mp h
    exact hs.callAdd hphase hadds
  | case12 batch hphase hidle =>
    rintro ⟨⟩
    exact hs.finish hphase rfl rfl hidle rfl
  | case18 hphase hbuilt =>
    rintro ⟨⟩
    exact hs.build hl hphase (Bool.not_eq_true _ ▸ hbuilt)
  | case17 hphase | case19 hphase =>
    rintro ⟨⟩
    exact hs.quiet hphase rfl rfl (fun h => Bool.noConfusion h) rfl rfl
  -- the other actions hand over no row, and leave the mark alone
  | case2 _ hphase | case5 _ hphase | case6 _ hphase | case7 _ hphase | case14 hphase
  | case16 hphase | case20 hphase | case21 hphase | case22 hphase | case23 hphase =>
    rintro ⟨⟩
    exact hs.quiet hphase rfl rfl (fun h => ⟨h, trivial, rfl⟩) rfl rfl
  | _ => exact fun h => by cases h

end BuildState

/-- What a step inside of `add` does: nothing to the rows, or a row is inserted, or the index
is transformed. -/
theorem AddState.step_effect [Inhabited α]
    (h : s.step a = some s') (hcall : ∀ t rows, a ≠ .call t rows) :
    ∃ p, s'.phase = update s.phase a.thread p ∧ (p.todo = (s.phase a.thread).todo ∧ s'.ix = s.ix ∨
      (∃ i row, (s.phase a.thread).todo[i]? = some row ∧
        p.todo = (s.phase a.thread).todo.eraseIdx i ∧
        s'.ix = s.ix.doInsert row.2.coords row.1 row.2.attrs false) ∨
      ∃ t, a = .transform t ∧ p.todo = (s.phase a.thread).todo ∧ s'.ix = s.ix.transform) := by
  revert h
  fun_cases AddState.step s a with
  | case1 t rows => exact absurd rfl (hcall t rows)
  | case3 t i rows todo hphase =>
    intro h
    obtain ⟨row, hrow, rfl⟩ := Option.map_eq_some_iff.mp h
    rw [AddLabel.thread, hphase]
    exact ⟨_, rfl, .inr (.inl ⟨i, row, hrow, rfl, rfl⟩)⟩
  | case5 t rows hphase =>
    rintro ⟨⟩
    rw [AddLabel.thread, hphase]
    exact ⟨_, rfl, .inl ⟨rfl, rfl⟩⟩
  | case7 t rows hphase | case9 t rows hphase =>
    rintro ⟨⟩
    rw [AddLabel.thread, hphase]
    split <;> exact ⟨_, rfl, .inl ⟨rfl, rfl⟩⟩
  | case11 t rows hphase =>
    rintro ⟨⟩
    rw [AddLabel.thread, hphase]
    exact ⟨_, rfl, .inr (.inr ⟨t, rfl, rfl, rfl⟩)⟩
  | _ => exact fun h => by cases h

theorem entries_eraseIdx {rows : List (Row ν α)} {i : Nat} (h : rows[i]? = some row) :
    entries rows = entry row ::ₘ entries (rows.eraseIdx i) := by
  obtain ⟨hi, rfl⟩ := List.getElem?_eq_some_iff.mp h
  exact Multiset.coe_eq_coe.mpr ((getElem_cons_eraseIdx_perm hi).symm.map entry)

namespace BuildState
variable {κ α : Type} [Inhabited α] {dim : Nat} {hasScalar : Bool} {s s' : BuildState κ α}
    {row : Row (List κ) α}

open CallPhase

/-- A row in the hands of a thread has a tag that the index does not have. -/
theorem RowsInv.not_mem_contents (hs : s.RowsInv dim) {t : Nat}
    (hrow : row ∈ (s.adds.phase t).todo) : row.1 ∉ s.adds.ix.contents.map fst := by
  intro hmem
  obtain ⟨e, he, htag⟩ := mem_map.mp hmem
  have hhand : entry row ∈ (s.phase t).hand dim (s.adds.phase t) :=
    Multiset.mem_add.mpr (.inr (mem_entries hrow))
  have hstock : e ∈ s.stock := Multiset.mem_add.mpr (.inr (Multiset.mem_coe.mpr he))
  exact hs.stored.key_ne hs.nodup_tags hhand hstock htag.symm

theorem RowsInv.add (hs : s.RowsInv dim) {a : AddLabel (List κ) α} {batch : RowBuffer κ α}
    {adds : AddState (List κ) α} (hcall : ∀ t rows, a ≠ .call t rows)
    (hok : s.adds.TransformOk a) (hphase : s.phase a.thread = .adding batch)
    (hstep : s.adds.step a = some adds) : RowsInv dim { s with adds := adds } := by
  obtain ⟨p, hp, heffect⟩ := step_effect hstep hcall
  have htodo : (s.adds.phase a.thread).todo ⊆ batch.rows dim := by
    have h := hs.calls a.thread
    rwa [hphase] at h
  have hself : s.phase = update s.phase a.thread (.adding batch) := by
    rw [← hphase, update_eq_self]
  have hunbuilt : s.indexBuilt ≠ false := fun hnot =>
    absurd ((hs.unbuilt hnot).1 a.thread) (by rw [hphase]; exact id)
  -- what has to be shown of the three kinds of steps
  have hof : p.todo ⊆ batch.rows dim → adds.ix.Plain → entries p.todo + ↑adds.ix.contents
        = entries (s.adds.phase a.thread).todo + ↑s.adds.ix.contents →
      RowsInv dim { s with adds := adds } := by
    intro hsub hplain hmoved
    refine hs.of_step hself hp hs.tags hs.nextTag hplain hsub
      (fun hnot => absurd hnot hunbuilt) ?_ ?_
    · rw [hphase, hand_adding, hand_adding]
      change entries p.todo + (entries s.pending + (adds.ix.contents : Multiset _)) + _
        = _ + (entries s.pending + (s.adds.ix.contents : Multiset _)) + _
      rw [add_left_comm, hmoved, add_left_comm]
    · rw [hphase]
  rcases heffect with ⟨hsame, hix⟩ | ⟨i, row, hrow, herase, hix⟩ | ⟨t, rfl, hsame, hix⟩
  · exact hof (hsame ▸ htodo) (hix ▸ hs.plain) (by rw [hsame, hix])
  · have hnew := hs.not_mem_contents (mem_of_getElem? hrow)
    obtain ⟨hplain, hcontents⟩ := hs.plain.doInsert hnew
    refine hof (fun r hr => htodo (mem_of_mem_eraseIdx (herase ▸ hr))) (hix ▸ hplain) ?_
    rw [hix, hcontents, herase, entries_eraseIdx hrow, ← Multiset.coe_add, ← Multiset.singleton_add]
    abel
  · obtain ⟨hplain, hcontents⟩ := hs.plain.transform hok
    exact hof (hsame ▸ htodo) (hix ▸ hplain) (by rw [hsame, hix, hcontents])

theorem RowsInv.step (hl : s.LockInv dim hasScalar) (hs : s.RowsInv dim) {label : BuildLabel κ α}
    (hok : s.StepOk label) (h : s.step dim hasScalar label = some s') : s'.RowsInv dim := by
  obtain ⟨t, p, hidle, rfl, hp⟩ | ⟨t, rfl, hnext⟩ |
    ⟨a, batch, adds, rfl, hcall, hphase, hadds, rfl⟩ := step_cases h
  · obtain rfl | ⟨cols, rfl, -⟩ := hp <;>
      exact hs.quiet hidle rfl rfl (fun hnot => ⟨hnot, trivial, rfl⟩) rfl rfl
  · exact hs.next hl hok hnext
  · exact hs.add hcall hok hphase hadds

theorem lockInv_of_reach {ok : BuildState κ α → BuildLabel κ α → Prop}
    (h : Reach (step dim hasScalar) ok initial s) : s.LockInv dim hasScalar :=
  h.invariant lockInv_initial fun _ _ _ hs _ hstep => hs.step hstep

theorem rowsInv_of_reach (h : Reach (step dim hasScalar) StepOk initial s) : s.RowsInv dim :=
  h.invariant_of (fun _ => lockInv_of_reach) rowsInv_initial
    fun _ _ _ hl _ hs hok hstep => hs.step hl hok hstep

/-- An insert that has returned has handed over all its rows. -/
theorem RowsInv.mem_stock (hs : s.RowsInv dim) (hrow : row ∈ s.returned) : entry row ∈ s.stock := by
  have hmem := mem_entries hrow
  refine hs.stored.mem_store (Multiset.mem_of_le hs.ended.store_le hmem) fun t ht => ?_
  -- a thread has only rows of its own insert, and that has not returned
  exact hs.ended.key_ne hs.nodup_tags (mem_rows_of_mem_hand (hs.calls t) ht) hmem rfl

/-- What waits in the buffer and what is in the index. -/
def kept (dim : Nat) (s : BuildState κ α) : List (Nat × List κ) :=
  (s.buf.rows dim).map DynamicIndex.entry ++ s.adds.ix.contents

/-- **An insert and the build do not miss each other.**  Whenever `mu` is free, the columns of
the buffer belong together.  As long as there are tags for all rows and no index is
transformed that has further rows on disk, the rows of every insert that has returned are
in the buffer or in the index, once, and nothing else is there. -/
theorem returned_kept_once (dim : Nat) (hasScalar : Bool) (s : BuildState κ α) (hmu : s.mu = none) :
    (Reach (step dim hasScalar) anyStep initial s → s.buf.vectors.length = dim * s.buf.tags.length ∧
      s.buf.attrs.length = if hasScalar then s.buf.tags.length else 0) ∧
    (Reach (step dim hasScalar) StepOk initial s → ((s.kept dim).map Prod.fst).Nodup ∧
      (∀ row ∈ s.returned, DynamicIndex.entry row ∈ s.kept dim) ∧
      ∀ e ∈ s.kept dim, e ∈ s.accepted.map DynamicIndex.entry) := by
  constructor
  · intro h
    have haligned := ((lockInv_of_reach h).free hmu).1
    exact ⟨haligned.vectors, haligned.attrs⟩
  · intro h
    have hs := rowsInv_of_reach h
    -- the buffer has the pending rows
    have hkept : (s.kept dim : Multiset (Nat × List κ)) = s.stock := by
      rw [kept, ((lockInv_of_reach h).free hmu).2]
      rfl
    have hle : (s.kept dim : Multiset (Nat × List κ)) ≤ entries s.accepted :=
      hkept ▸ hs.stored.store_le
    refine ⟨?_, fun row hrow => ?_, fun e he => ?_⟩
    · have hnodup := Multiset.nodup_of_le (Multiset.map_le_map hle) hs.nodup_tags
      rwa [Multiset.map_coe] at hnodup
    · have hmem := hs.mem_stock hrow
      rwa [← hkept] at hmem
    · exact Multiset.mem_coe.mp (Multiset.mem_of_le hle (Multiset.mem_coe.mpr he))

instance (s : BuildState κ α) (label : BuildLabel κ α) : Decidable (s.StepOk label) :=
  match label with
  | .next t => inferInstanceAs (Decidable (s.accepted.length + (s.phase t).newRows ≤ 2 ^ 32))
  | .add a => inferInstanceAs (Decidable (s.adds.TransformOk a))
  | .insert _ _ | .buildIndex _ => inferInstanceAs (Decidable True)

/-- One row goes to the buffer and from there to the index, a second one to the index. -/
def insertBuildInsert : List (BuildLabel Nat Unit) :=
  .insert 0 ⟨1, [7], []⟩ :: List.replicate 7 (.next 0) ++
    .buildIndex 1 :: List.replicate 7 (.next 1) ++
    .insert 0 ⟨1, [8], []⟩ :: List.replicate 4 (.next 0) ++
    [.add (.insertRow 0 0), .add (.release 0), .add (.readFlag 0), .next 0]

theorem returned_kept_once_insertBuildInsert : ∃ s,
    Reach (step 1 false) StepOk (initial : BuildState Nat Unit) s ∧ s.mu = none ∧
      s.returned.map DynamicIndex.entry = [(0, [7]), (1, [8])] ∧
      ((s.kept 1).map Prod.fst).Nodup ∧
      (∀ row ∈ s.returned, DynamicIndex.entry row ∈ s.kept 1) := by
  have hrun : (runSteps (fun s a => if s.StepOk a then step 1 false s a else none)
      initial insertBuildInsert).any (fun s => s.mu = none ∧
        s.returned.map entry = [(0, [7]), (1, [8])]) = true := by
    decide +kernel
  obtain ⟨s, hs, h⟩ := (Option.any_eq_true ..).mp hrun
  obtain ⟨hmu, hreturned⟩ := of_decide_eq_true h
  have hreach := Reach.of_run_checked hs
  obtain ⟨hnodup, hkept, -⟩ := (returned_kept_once 1 false s hmu).2 hreach
  exact ⟨s, hreach, hmu, hreturned, hnodup, hkept⟩

end BuildState

/-! ## A row that is lost -/

/-- The action calls `add`. -/
def AddLabel.isCall {ν α : Type} : AddLabel ν α → Bool
  | .call _ _ => true
  | _ => false

namespace BuildState
variable {κ α : Type} [Inhabited α] {dim : Nat} {hasScalar : Bool} {s : BuildState κ α}

open CallPhase

theorem step_add {a : AddLabel (List κ) α} (hcall : a.isCall = false)
    (hin : (s.phase a.thread).inAdd) :
    s.step dim hasScalar (.add a) = (s.adds.step a).map fun adds => { s with adds := adds } := by
  cases hphase : s.phase a.thread with
  | adding batch =>
    cases a with
    | call t rows => cases hcall
    | _ => simp only [step, hphase]
  | _ =>
    rw [hphase] at hin
    cases hin

variable {l : List (AddLabel (List κ) α)} {a : AddState (List κ) α} {t : Nat}

/-- **A run of `add` is a run of the collection**, if its threads are in `add`. -/
theorem run_add (hl : ∀ c ∈ l, c.isCall = false ∧ (s.phase c.thread).inAdd)
    (h : runSteps AddState.step s.adds l = some a) :
    runSteps (step dim hasScalar) s (l.map .add) = some { s with adds := a } := by
  induction l generalizing s with
  | nil =>
    cases h
    rfl
  | cons c l ih =>
    obtain ⟨a₁, hc, hrest⟩ := Option.bind_eq_some_iff.mp h
    obtain ⟨⟨hcall, hin⟩, hl⟩ := forall_mem_cons.mp hl
    rw [map_cons, runSteps, step_add hcall hin, hc]
    exact ih (s := { s with adds := a₁ }) hl hrest

/-- An insert into a built index up to its call of `add`, and the first steps of that call. -/
theorem exists_adding {k : Nat} {cols : InsertColumns κ α} {b : RowBuffer κ α}
    (hphase : s.phase t = .idle) (hmu : s.mu = none) (hbuilt : s.indexBuilt)
    (hnext : s.nextTag = UInt32.ofNat k) (hok : cols.Ok dim hasScalar)
    (hfit : k + cols.numRows ≤ 2 ^ 32)
    (hb : b = ⟨(range cols.numRows).map (k + ·), cols.vectors, cols.attrs⟩)
    (hl : ∀ c ∈ l, c.isCall = false ∧ c.thread = t)
    (h : runSteps AddState.step s.adds (sharedSection t (b.rows dim) ++ l) = some a) :
    ∃ s', Reach (step dim hasScalar) anyStep s s' ∧ s'.adds = a ∧
      s'.phase = update s.phase t (.adding b) ∧ s'.mu = none ∧ s'.buf = s.buf ∧ s'.indexBuilt ∧
      s'.nextTag = UInt32.ofNat (k + cols.numRows) := by
  have hbatch : cols.withTags s.nextTag = b := by
    rw [InsertColumns.withTags, hnext, CollectionState.takeTags_eq hfit, hb]
  obtain ⟨a₁, hc, hrest⟩ := Option.bind_eq_some_iff.mp h
  have hrun : runSteps (step dim hasScalar) s [.insert t cols, .next t, .next t, .next t, .next t] =
      some { s.setPhase t (.adding b) with
        adds := a₁
        nextTag := s.nextTag + UInt32.ofNat cols.numRows
        accepted := s.accepted ++ b.rows dim } := by
    rw [← hbatch] at hc ⊢
    rw [InsertColumns.withTags] at hc ⊢
    simp [runSteps, step, next, setPhase, hphase, hmu, hbuilt, hok, hc]
  have hinside : ∀ c ∈ replicate (b.rows dim).length (.insertRow t 0) ++ [.release t] ++ l,
      c.isCall = false ∧ c.thread = t := by
    refine forall_mem_append.mpr ⟨forall_mem_append.mpr ⟨fun c hc => ?_, ?_⟩, hl⟩
    · exact eq_of_mem_replicate hc ▸ ⟨rfl, rfl⟩
    · exact forall_mem_singleton.mpr ⟨rfl, rfl⟩
  refine ⟨_, (Reach.of_run hrun).trans (.of_run (run_add (fun c hc => ?_) hrest)), rfl, rfl, hmu,
    rfl, hbuilt, by rw [hnext, UInt32.ofNat_add]⟩
  obtain ⟨hcall, rfl⟩ := hinside c hc
  exact ⟨hcall, by simp [setPhase, inAdd]⟩

/-- The columns of `n` rows of dimension `1`. -/
def columns (n : Nat) : InsertColumns Nat Unit := ⟨n, List.replicate n 0, []⟩

/-- These rows with the tags from `k` on. -/
def batch (k n : Nat) : RowBuffer Nat Unit := ⟨(range n).map (k + ·), List.replicate n 0, []⟩

/-- The row of `columns 1` with a given tag. -/
def oneRow (tag : Nat) : Row (List Nat) Unit := (tag, ⟨[0], ()⟩)

theorem columns_ok (n : Nat) : (columns n).Ok 1 false :=
  ⟨by rw [columns, length_replicate, one_mul], rfl⟩

/-- An empty index is built, and three inserts follow.  The rows of threads `0` and `1` bring
the index in memory over the threshold, and both threads transform it; the row that thread
`2` inserts in between is lost. -/
theorem exists_lost_row {n : Nat} (hn : kBuildThreshold < n) (hfit : n + 1 + 1 ≤ 2 ^ 32) : ∃ s row,
    Reach (step 1 false) anyStep (initial : BuildState Nat Unit) s ∧ s.mu = none ∧
      row ∈ s.returned ∧ DynamicIndex.entry row ∉ s.kept 1 := by
  have hbuild : runSteps (step 1 false) (initial : BuildState Nat Unit)
      [.buildIndex 0, .next 0, .next 0, .next 0] = some { initial with indexBuilt := true } := by
    simp [runSteps, step, next, setPhase, initial, RowBuffer.empty]
  have htags : ((batch 0 n).rows 1 ++ [oneRow n]).map fst = range (n + 1) := by
    rw [map_append, RowBuffer.map_fst_rows, range_succ]
    simp [batch, oneRow]
  have hlen : ((batch 0 n).rows 1).length = n := by
    rw [← length_map fst, RowBuffer.map_fst_rows, batch, length_map, length_range]
  obtain ⟨a, hrun, -, hidle, huse, hlost⟩ := lost_of_twoTransforms false ((batch 0 n).rows 1)
    (oneRow n) (oneRow (n + 1)) (hlen.symm ▸ hn) (htags ▸ nodup_range)
    (by rw [htags]; exact fun h => lt_irrefl _ (mem_range.mp h))
  rw [twoTransforms, runSteps_append] at hrun
  obtain ⟨a₀, hrun₀, hrun⟩ := Option.bind_eq_some_iff.mp hrun
  rw [runSteps_append] at hrun
  obtain ⟨a₁, hrun₁, hrun⟩ := Option.bind_eq_some_iff.mp hrun
  rw [← singleton_append, runSteps_append] at hrun
  obtain ⟨a₂, htransform₀, hrun⟩ := Option.bind_eq_some_iff.mp hrun
  rw [runSteps_append] at hrun
  obtain ⟨a₃, hrun₂, htransform₁⟩ := Option.bind_eq_some_iff.mp hrun
  -- the same steps in the inserts
  obtain ⟨s₀, hreach₀, rfl, hphase₀, hmu₀, hbuf₀, hbuilt₀, hnext₀⟩ :=
    exists_adding (k := 0) (s := { (initial : BuildState Nat Unit) with indexBuilt := true })
      (b := batch 0 n) rfl rfl rfl rfl (columns_ok n) (show 0 + n ≤ 2 ^ 32 by omega) rfl
      (by simp [AddLabel.isCall, AddLabel.thread]) hrun₀
  obtain ⟨s₁, hreach₁, rfl, hphase₁, hmu₁, hbuf₁, hbuilt₁, hnext₁⟩ :=
    exists_adding (t := 1) (b := batch n 1) (by rw [hphase₀]; rfl) hmu₀ hbuilt₀
      (hnext₀.trans (by rw [zero_add]; rfl)) (columns_ok 1) (show n + 1 ≤ 2 ^ 32 by omega) rfl
      (by simp [AddLabel.isCall, AddLabel.thread]) hrun₁
  rw [hphase₀] at hphase₁
  obtain ⟨s₂, hreach₂, rfl, hphase₂, hmu₂, hbuf₂, -, -⟩ :=
    exists_adding (s := { s₁ with adds := a₂ }) (t := 2) (b := batch (n + 1) 1)
      (by rw [hphase₁]; rfl) hmu₁ hbuilt₁ hnext₁ (columns_ok 1) hfit rfl
      (by simp [AddLabel.isCall, AddLabel.thread]) hrun₂
  have hadd : runSteps (step 1 false) s₁ _ = _ := run_add (l := [.transform 0])
    (forall_mem_singleton.mpr ⟨rfl, by rw [hphase₁]; rfl⟩) htransform₀
  have hadd' : runSteps (step 1 false) s₂ _ = _ := run_add (l := [.transform 1])
    (forall_mem_singleton.mpr ⟨rfl, by rw [hphase₂]; simp [hphase₁]; rfl⟩) htransform₁
  -- the insert of thread `2` returns
  have hreturn : step 1 false { s₂ with adds := a } (.next 2) =
      some (finish 1 { s₂ with adds := a } 2 (batch (n + 1) 1)) := by
    rw [step, next, hphase₂, update_self]
    simp only [hidle]
  refine ⟨_, oneRow (n + 1), .step (.next 2) ((((((Reach.of_run hbuild).trans hreach₀).trans
    hreach₁).trans (.of_run hadd)).trans hreach₂).trans (.of_run hadd')) trivial hreturn, hmu₂,
    mem_append_right _ mem_cons_self, fun hmem => ?_⟩
  -- the buffer is empty, and the index is on disk
  rcases mem_append.mp hmem with hmem | hmem
  · change _ ∈ (s₂.buf.rows 1).map _ at hmem
    rw [hbuf₂, hbuf₁, hbuf₀] at hmem
    cases hmem
  · change _ ∈ a.ix.contents at hmem
    rw [contents_disk huse] at hmem
    obtain ⟨row, hrow, heq⟩ := mem_map.mp hmem
    obtain ⟨htag, hcoords⟩ := Prod.ext_iff.mp heq
    exact hlost _ ((stored_disk huse).mpr ⟨row, hrow, htag, hcoords⟩)

/-- So it happens with one row more than the threshold. -/
theorem returned_row_not_kept : ∃ s row,
    Reach (step 1 false) anyStep (initial : BuildState Nat Unit) s ∧ s.mu = none ∧
      row ∈ s.returned ∧ DynamicIndex.entry row ∉ s.kept 1 :=
  exists_lost_row (Nat.lt_succ_self kBuildThreshold) (by decide)

end BuildState

end PipeANN.Streaming
