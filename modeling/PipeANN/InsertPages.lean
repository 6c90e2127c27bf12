import PipeANN.AttrBytes
import PipeANN.IndexFiles
import PipeANN.SlotAllocator
import Mathlib.Data.List.GetD

/-! # The page buffers of an insert

`insert_in_place` (`direct_insert.cpp`) reads the pages of the neighbours of a new point and
those in which it was given slots, each into a buffer of `io_size` bytes.  It writes the record
of the point, and a copy of the record of every neighbour, with the point in its list, into the
slots.

`io_size` does not count the dense neighbours.  A record that is longer than a sector has
`io_size_dense` bytes in the file, and if this is more than `io_size`, the copy of a record
leaves the buffers: it takes bytes of the next buffer for the dense neighbours and overwrites
the beginning of another one.  `Safe` says that this does not happen and that what is copied is
the old record but for its list.

An access outside its page or its record is an error of the model.  What the search and the
pruning find is open: at most `range` neighbours, since `init_metadata` sets `R` to `range`.
Locations have 32 bits.
-/
namespace PipeANN
open List Function ByteImages Nat
open Dsl (Attributes)
open Option (some getD_some)

/-- `MAX_N_EDGES`. -/
def maxNEdges : Nat := 2048

namespace SsdMetadata

/-- `io_size`. -/
def ioSize (m : SsdMetadata) : Nat :=
  sectorLen * if 0 < m.nnodesPerSector then 1 else divRoundUp m.normalNodeLen sectorLen

end SsdMetadata

/-- How an insert may end without a result. -/
inductive InsertError where
  /-- An access outside its page or its record. -/
  | outside
  /-- `exit(-1)`. -/
  | exit
deriving DecidableEq

/-- What an insert relies on: its slots were free, and a page with one of them that is not to be
read was completely free. -/
structure SlotsGiven (m : DiskLayout) (n : Nat) (s : SlotMap) (locs need : List Nat) : Prop where
  length : locs.length = n
  nodup : locs.Nodup
  fresh : ∀ l ∈ locs, s.loc2id l = .invalid ∨ s.curLoc ≤ l
  blind : ∀ l ∈ locs, m.locSectorNo l ∉ need → ∀ l', m.locSectorNo l' = m.locSectorNo l →
    s.loc2id l' = .invalid ∨ s.curLoc ≤ l'

/-- A call of `insert_in_place` when the slots have been allocated. -/
structure InPlaceInsert (ty : ElemType) (m : SsdMetadata) where
  targetId : UInt32
  /-- The vector as it is encoded. -/
  point : List UInt8
  attrs : Option Attributes
  newNhood : List UInt32
  id2loc : UInt32 → Nat
  /-- `delta_prune_neighbors` of a node and its list. -/
  deltaPrune : UInt32 → List UInt32 → List UInt32
  shuffle : Shuffle
  disk : Image
  /-- The buffer as it is allocated. -/
  updateBuf : Image
  /-- What `alloc_loc` found, and the slots that it gave. -/
  slots : SlotMap
  locs : List Nat
  pagesNeedToRead : List Nat
  packed : m.Packed ty
  length_point : point.length = m.vectorLen ty
  attrs_valid : ∀ a, attrs = some a → AttrBytes.Valid a
  /-- The room for attributes is that of some attributes. -/
  attrSize_room : m.attrSize = 0 ∨ 4 ≤ m.attrSize
  target_new : targetId ∉ newNhood
  length_nhood : newNhood.length ≤ m.range
  /-- The source asserts it, with `assert` compiled out. -/
  nhood_lt : newNhood.length < maxNEdges
  prune_lt : ∀ id l, l ≠ [] → (deltaPrune id l).length < l.length
  given : SlotsGiven m.layout (newNhood.length + 1) slots locs pagesNeedToRead
  live : ∀ id ∈ newNhood,
    slots.loc2id (id2loc id) = .id id.toNat ∧ id2loc id < slots.curLoc
  stored : ∀ id ∈ newNhood,
    ofLe (disk.read (m.nodeAddr (id2loc id) + m.vectorLen ty) 2) ≤ m.range

namespace InPlaceInsert

section Defs
variable {ty : ElemType} {m : SsdMetadata} (c : InPlaceInsert ty m)

/-! ## The buffers -/

/-- `pages_to_rmw`, in the order of the set. -/
def pagesToRmw : List Nat := (c.locs.map m.locSectorNo).dedup.insertionSort (· ≤ ·)

/-- `page_buf_map`: the number of the buffer of a page, by the last one assigned. -/
def pageBufMap : Nat → Option Nat :=
  c.pagesToRmw.zipIdx.foldl
    (fun f p => update f p.1 (some (c.newNhood.length + p.2)))
    (c.newNhood.zipIdx.foldl
      (fun f p => update f (m.locSectorNo (c.id2loc p.1)) (some p.2)) fun _ => none)

/-- `reads`: the pages to read and their buffers. -/
def reads : List (Nat × Nat) :=
  c.newNhood.zipIdx.map (fun p => (m.locSectorNo (c.id2loc p.1), p.2)) ++
    (c.pagesToRmw.zipIdx.filter fun p => p.1 ∈ c.pagesNeedToRead).map fun p =>
      (p.1, c.newNhood.length + p.2)

/-- A buffer is inside `update_buf`, of `UPDATE_BUF_SIZE` bytes. -/
def BufInside (m : SsdMetadata) (b : Nat) : Prop :=
  b * m.ioSize + m.ioSize ≤ (2 * maxNEdges + 1) * m.ioSize

instance (b : Nat) : Decidable (BufInside m b) := inferInstanceAs (Decidable (_ ≤ _))

/-- The buffers after `read_alloc`. -/
def pagesRead : Image :=
  c.updateBuf.writeAll (c.reads.map fun r =>
    (r.2 * m.ioSize, c.disk.read (r.1 * sectorLen) m.ioSize))

def readPages : Except InsertError Image :=
  if ∀ r ∈ c.reads, BufInside m r.2 then .ok c.pagesRead else .error .outside

/-! ## Accesses -/

/-- The address of `len` bytes from `off` on in the record of a location.  They must be inside
the buffer of the page and inside the record. -/
def address (loc off len : Nat) : Except InsertError Nat :=
  match c.pageBufMap (m.locSectorNo loc) with
  | none => .error .outside
  | some b =>
    if BufInside m b ∧ m.slotOff loc + off + len ≤ m.ioSize ∧ off + len ≤ m.maxNodeLen then
      .ok (b * m.ioSize + m.slotOff loc + off)
    else .error .outside

variable (mem : Image)

def load (loc off len : Nat) : Except InsertError (List UInt8) :=
  (c.address loc off len).map (mem.read · len)

def store (loc off : Nat) (bytes : List UInt8) : Except InsertError Image :=
  (c.address loc off bytes.length).map (mem.write · bytes)

/-- The fields of a record, from its beginning. -/
def fields (ty : ElemType) (m : SsdMetadata) : DiskNodeRef := .ofAddr ty m 0

@[simp] theorem fields_coords : (fields ty m).coords = 0 := rfl

@[simp] theorem fields_nnbrs : (fields ty m).nnbrs = m.vectorLen ty := zero_add _

@[simp] theorem fields_nDenseNbrs : (fields ty m).nDenseNbrs = m.vectorLen ty + 2 :=
  congrArg (· + 2) (zero_add _)

@[simp] theorem fields_nbrs : (fields ty m).nbrs = m.vectorLen ty + 4 :=
  congrArg (· + 4) (zero_add _)

@[simp] theorem fields_attrs : (fields ty m).attrs = m.vectorLen ty + (1 + m.range) * 4 :=
  congrArg (· + (1 + m.range) * 4) (zero_add _)

@[simp] theorem fields_denseNbrs : (fields ty m).denseNbrs =
    m.vectorLen ty + (1 + m.range) * 4 + m.attrSize :=
  congrArg (· + (1 + m.range) * 4 + m.attrSize) (zero_add _)

/-- `nbrs` of the record of a location. -/
def loadNbrs (loc : Nat) : Except InsertError (List UInt32) := do
  let nnbrs ← c.load mem loc (fields ty m).nnbrs 2
  let nbrs ← c.load mem loc (fields ty m).nbrs (4 * ofLe nnbrs)
  return ofWords nbrs

/-! ## The new record -/

/-- The slot of the new point. -/
def targetLoc : Nat := c.locs.getD c.newNhood.length 0

/-- The attributes given are larger than their room. -/
def TooLarge : Prop :=
  ∃ a, c.attrs = some a ∧ 0 < m.attrSize ∧ m.attrSize < (AttrBytes.serialize a).length

def storeAttrs : Except InsertError Image :=
  match c.attrs with
  | none => .ok mem
  | some a =>
    if 0 < m.attrSize then
      if m.attrSize < (AttrBytes.serialize a).length then .error .exit
      else c.store mem c.targetLoc (fields ty m).attrs (AttrBytes.serialize a)
    else .ok mem

/-- The dense neighbours of the new point: a sample of the neighbours of its neighbours. -/
def sample (lists : List (List UInt32)) : List UInt32 :=
  sampleTwoHopNbrs c.shuffle c.targetId (m.rangeDense - m.range) fun id =>
    if id = c.targetId then c.newNhood else ((c.newNhood.zip lists).lookup id).getD []

def storeDense : Except InsertError Image :=
  if 0 < m.rangeDense - m.range then do
    let lists ← c.newNhood.mapM fun id => c.loadNbrs mem (c.id2loc id)
    let mem ← c.store mem c.targetLoc (fields ty m).denseNbrs (wordBytes (c.sample lists))
    c.store mem c.targetLoc (fields ty m).nDenseNbrs (le 2 (c.sample lists).length)
  else c.store mem c.targetLoc (fields ty m).nDenseNbrs (le 2 0)

/-- The record of the new point. -/
def writeTarget : Except InsertError Image := do
  let mem ← c.store mem c.targetLoc (fields ty m).coords c.point
  let mem ← c.store mem c.targetLoc (fields ty m).nnbrs (le 2 c.newNhood.length)
  let mem ← c.store mem c.targetLoc (fields ty m).nbrs (wordBytes c.newNhood)
  let mem ← c.storeAttrs mem
  c.storeDense mem

/-! ## The neighbours -/

/-- The list of a neighbour with the new point. -/
def updated (id : UInt32) (nbrs : List UInt32) : List UInt32 :=
  let nhood := nbrs ++ [c.targetId]
  if m.range < nhood.length then c.deltaPrune id nhood else nhood

/-- The loop body for a neighbour and its new slot. -/
def updateNbr (p : UInt32 × Nat) : Except InsertError Image := do
  if c.pageBufMap (m.locSectorNo (c.id2loc p.1)) = none then throw .exit
  let nbrs ← c.loadNbrs mem (c.id2loc p.1)
  let nhood := c.updated p.1 nbrs
  let record ← c.load mem (c.id2loc p.1) 0 m.maxNodeLen
  let mem ← c.store mem p.2 (fields ty m).coords record
  let mem ← c.store mem p.2 (fields ty m).nnbrs (le 2 nhood.length)
  c.store mem p.2 (fields ty m).nbrs (wordBytes nhood)

/-- The buffers when they are written. -/
def run : Except InsertError Image := do
  let mem ← c.readPages
  let mem ← c.writeTarget mem
  (c.newNhood.zip c.locs).foldlM c.updateNbr mem

/-! ## What should hold -/

/-- The address of the slot of a location in the buffers. -/
def slotAddr (loc : Nat) : Nat :=
  (c.pageBufMap (m.locSectorNo loc)).getD 0 * m.ioSize + m.slotOff loc

/-- The list of a neighbour in the file. -/
def storedNbrs (id : UInt32) : List UInt32 :=
  (DiskNodeRef.ofAddr ty m (m.nodeAddr (c.id2loc id))).getNbrs c.disk

/-- The record in the new slot of a neighbour is its old record but for the list, which has the
new point. -/
structure Relocated (mem : Image) (p : UInt32 × Nat) : Prop where
  nbrs : (DiskNodeRef.ofAddr ty m (c.slotAddr p.2)).getNbrs mem = c.updated p.1 (c.storedNbrs p.1)
  /-- The vector, the number of dense neighbours, the attributes and the dense neighbours. -/
  others : ∀ i < m.maxNodeLen,
    i < (fields ty m).nnbrs ∨ (fields ty m).nDenseNbrs ≤ i ∧ i < (fields ty m).nbrs ∨
      (fields ty m).attrs ≤ i →
    mem (c.slotAddr p.2 + i) = c.disk (m.nodeAddr (c.id2loc p.1) + i)

/-- **What an insert should do**: no access is outside, and every neighbour is relocated. -/
def Safe : Prop :=
  c.run = .error .exit ∨
    ∃ mem, c.run = .ok mem ∧ ∀ p ∈ c.newNhood.zip c.locs, c.Relocated mem p

end Defs
end InPlaceInsert

/-! ## Sizes -/

namespace SsdMetadata.Packed
variable {ty : ElemType} {m : SsdMetadata} (h : m.Packed ty)
include h

theorem normalNodeLen_eq : m.normalNodeLen = m.maxNodeLen - (m.rangeDense - m.range) * 4 := by
  have hinit := h.init
  unfold initTemporaryFields at hinit
  dsimp only at hinit
  split at hinit
  · cases hinit
  · have heq := some.inj hinit
    have hlen := congrArg normalNodeLen heq
    have hdense := congrArg rangeDense heq
    have hrange := congrArg range heq
    dsimp only at hlen hdense hrange
    rw [← hlen, hrange, hdense]

/-- Without the dense neighbours a record ends within `io_size`. -/
theorem body_le_ioSize (loc : Nat) :
    m.slotOff loc + (m.vectorLen ty + (1 + m.range) * 4 + m.attrSize) ≤ m.ioSize := by
  have hfits := h.fits
  have hle := h.range_le
  by_cases hzero : m.nnodesPerSector = 0
  · have hnormal := h.normalNodeLen_eq
    have hround := le_roundUp m.normalNodeLen (y := sectorLen) (by decide)
    have hbody : 0 + (m.vectorLen ty + (1 + m.range) * 4 + m.attrSize) ≤ m.normalNodeLen := by
      omega
    rw [slotOff, if_pos hzero, ioSize, if_neg (by omega), mul_comm sectorLen]
    exact le_trans hbody hround
  · have hslot := h.slotOff_add_le loc
    have hpos : 0 < m.nnodesPerSector := by omega
    rw [ioSizeDense, if_pos hpos] at hslot
    rw [ioSize, if_pos hpos]
    omega

/-- If `io_size` is not that of a whole record, it is less than the record. -/
theorem ioSize_lt_of_ne (hne : m.ioSize ≠ m.ioSizeDense) : m.ioSize < m.maxNodeLen := by
  have hnormal := h.normalNodeLen_eq
  by_cases hpos : 0 < m.nnodesPerSector
  · rw [ioSize, ioSizeDense, if_pos hpos, if_pos hpos] at hne
    exact absurd rfl hne
  · rw [ioSize, if_neg hpos] at hne
    rw [ioSize, if_neg hpos]
    by_contra hge
    refine hne (congrArg _ ?_)
    -- both lengths take the same number of sectors
    have hlen : sectorLen = 4096 := rfl
    rw [divRoundUp] at hge ⊢
    rw [divRoundUp]
    rw [hlen] at hge ⊢
    split at hge <;> split <;> split <;> omega

end SsdMetadata.Packed

namespace InPlaceInsert
variable {ty : ElemType} {m : SsdMetadata} (c : InPlaceInsert ty m)

/-! ## The buffer of a page -/

/-- The page of a buffer. -/
def bufPage (b : Nat) : Option Nat :=
  if b < c.newNhood.length then (c.newNhood[b]?).map fun id => m.locSectorNo (c.id2loc id)
  else c.pagesToRmw[b - c.newNhood.length]?

theorem nodup_pagesToRmw : c.pagesToRmw.Nodup :=
  (perm_insertionSort _ _).nodup_iff.mpr (nodup_dedup _)

variable {page : Nat}

theorem mem_pagesToRmw : page ∈ c.pagesToRmw ↔ ∃ loc ∈ c.locs, m.locSectorNo loc = page := by
  rw [pagesToRmw, mem_insertionSort, mem_dedup, mem_map]

theorem length_pagesToRmw_le : c.pagesToRmw.length ≤ c.newNhood.length + 1 := by
  rw [pagesToRmw, length_insertionSort, ← c.given.length,
    ← @List.length_map _ _ c.locs m.locSectorNo]
  exact (dedup_sublist _).length_le

theorem bufPage_add {k : Nat} (h : c.pagesToRmw[k]? = some page) :
    c.bufPage (c.newNhood.length + k) = some page := by
  rw [bufPage, if_neg (by omega), Nat.add_sub_cancel_left]
  exact h

variable {b : Nat}

theorem bufPage_of_lt {id : UInt32} (h : c.newNhood[b]? = some id) :
    c.bufPage b = some (m.locSectorNo (c.id2loc id)) := by
  rw [bufPage, if_pos (List.getElem?_eq_some_iff.mp h).1, h]
  rfl

/-- The buffer of a page that is written. -/
theorem pageBufMap_of_mem (h : page ∈ c.pagesToRmw) : ∃ k, c.pagesToRmw[k]? = some page ∧
      c.pageBufMap page = some (c.newNhood.length + k) := by
  obtain ⟨k, hk⟩ := mem_iff_getElem?.mp h
  refine ⟨k, hk, ?_⟩
  have hnd : (c.pagesToRmw.zipIdx.map Prod.fst).Nodup := by
    rw [zipIdx_map_fst]
    exact c.nodup_pagesToRmw
  exact LastWrites.foldl_update_of_nodup Prod.fst hnd (a := (page, k))
    (mem_zipIdx_iff_getElem?.mpr hk)

/-- The buffer of another page of a neighbour. -/
theorem pageBufMap_of_not_mem (h : page ∉ c.pagesToRmw) :
    (∃ b id, c.newNhood[b]? = some id ∧ m.locSectorNo (c.id2loc id) = page ∧
        c.pageBufMap page = some b) ∨
      (∀ id ∈ c.newNhood, m.locSectorNo (c.id2loc id) ≠ page) ∧ c.pageBufMap page = none := by
  have hrest : c.pageBufMap page = c.newNhood.zipIdx.foldl
      (fun f p => update f (m.locSectorNo (c.id2loc p.1)) (some p.2)) (fun _ => none)
      page := by
    refine LastWrites.foldl_update_of_forall_ne fun p hp heq => h ?_
    exact heq ▸ mem_of_getElem? (mem_zipIdx_iff_getElem?.mp hp)
  rw [hrest]
  by_cases hmem : page ∈ c.newNhood.zipIdx.map fun p => m.locSectorNo (c.id2loc p.1)
  · obtain ⟨p, hp, hpage, heq⟩ := LastWrites.exists_foldl_update_eq
      (fun p : UInt32 × Nat => m.locSectorNo (c.id2loc p.1)) hmem
    exact .inl ⟨p.2, p.1, mem_zipIdx_iff_getElem?.mp hp, hpage, heq⟩
  · refine .inr ⟨fun id hid heq => hmem ?_, LastWrites.foldl_update_of_forall_ne fun p hp heq =>
      hmem (mem_map.mpr ⟨p, hp, heq⟩)⟩
    obtain ⟨b, hb⟩ := mem_iff_getElem?.mp hid
    exact mem_map.mpr ⟨(id, b), mem_zipIdx_iff_getElem?.mpr hb, heq⟩

/-- A buffer is that of one page. -/
theorem bufPage_of_pageBufMap (h : c.pageBufMap page = some b) : c.bufPage b = some page := by
  by_cases hmem : page ∈ c.pagesToRmw
  · obtain ⟨k, hk, heq⟩ := c.pageBufMap_of_mem hmem
    obtain rfl := some.inj (heq.symm.trans h)
    exact c.bufPage_add hk
  · rcases c.pageBufMap_of_not_mem hmem with ⟨b', id, hid, hpage, heq⟩ | ⟨-, heq⟩
    · obtain rfl := some.inj (heq.symm.trans h)
      exact hpage ▸ c.bufPage_of_lt hid
    · rw [heq] at h
      cases h

theorem bufInside_of_bufPage (h : c.bufPage b = some page) : BufInside m b := by
  have hlt := c.nhood_lt
  have hlen := c.length_pagesToRmw_le
  have hb : b < 2 * maxNEdges + 1 := by
    rw [bufPage] at h
    split at h
    · omega
    · have := (List.getElem?_eq_some_iff.mp h).1
      omega
  rw [BufInside, ← succ_mul]
  exact mul_le_mul_right _ hb

/-! ## What is read -/

theorem bufPage_of_mem_reads {r : Nat × Nat} (h : r ∈ c.reads) : c.bufPage r.2 = some r.1 := by
  rcases mem_append.mp h with h | h
  · obtain ⟨p, hp, rfl⟩ := mem_map.mp h
    exact c.bufPage_of_lt (mem_zipIdx_iff_getElem?.mp hp)
  · obtain ⟨p, hp, rfl⟩ := mem_map.mp h
    exact c.bufPage_add (mem_zipIdx_iff_getElem?.mp (mem_filter.mp hp).1)

theorem readPages_eq : c.readPages = .ok c.pagesRead :=
  if_pos fun _ hr => c.bufInside_of_bufPage (c.bufPage_of_mem_reads hr)

/-- No buffer is read twice. -/
theorem nodup_reads : (c.reads.map Prod.snd).Nodup := by
  rw [reads, map_append, map_map, map_map]
  have hfirst : (c.newNhood.zipIdx.map (Prod.snd ∘ fun p => (m.locSectorNo (c.id2loc p.1), p.2))) =
      range' 0 c.newNhood.length := zipIdx_map_snd 0 c.newNhood
  rw [hfirst, nodup_append]
  refine ⟨nodup_range', ?_, fun i hi j hj hij => ?_⟩
  · have hall : (c.pagesToRmw.zipIdx.map
        (Prod.snd ∘ fun p => (p.1, c.newNhood.length + p.2))).Nodup := by
      have hmap : (c.pagesToRmw.zipIdx.map (Prod.snd ∘ fun p => (p.1, c.newNhood.length + p.2))) =
          (c.pagesToRmw.zipIdx.map Prod.snd).map (c.newNhood.length + ·) := by
        rw [map_map]
        rfl
      rw [hmap, zipIdx_map_snd]
      exact Nodup.map (fun a b h => add_left_cancel h) nodup_range'
    exact hall.sublist (filter_sublist.map _)
  · obtain ⟨p, -, rfl⟩ := mem_map.mp hj
    have hi := (mem_range'_1.mp hi).2
    dsimp only [comp_apply] at hij
    omega

/-- A page that is read is in its buffer. -/
theorem pagesRead_apply (h : (page, b) ∈ c.reads) {i : Nat} (hi : i < m.ioSize) :
    c.pagesRead (b * m.ioSize + i) = c.disk (page * sectorLen + i) := by
  have hapart : (c.reads.map fun r =>
      (r.2 * m.ioSize, c.disk.read (r.1 * sectorLen) m.ioSize)).Pairwise Image.Apart := by
    refine pairwise_map.mpr ((pairwise_map.mp c.nodup_reads).imp fun {r r'} hne => ?_)
    rw [Image.Apart, Image.length_read, Image.length_read, ← succ_mul, ← succ_mul]
    rcases lt_or_gt_of_ne hne with hlt | hgt
    · exact .inl (mul_le_mul_right _ hlt)
    · exact .inr (mul_le_mul_right _ hgt)
  have hread := c.updateBuf.read_writeAll hapart (mem_map.mpr ⟨(page, b), h, rfl⟩)
  rw [Image.length_read] at hread
  have hbyte := congrArg (·[i]?) hread
  rw [Image.getElem?_read _ _ hi, Image.getElem?_read _ _ hi] at hbyte
  exact some.inj hbyte

/-- The page of a neighbour is read, into the buffer that is used. -/
theorem exists_buf_of_mem {id : UInt32} (hid : id ∈ c.newNhood) :
    ∃ b, c.pageBufMap (m.locSectorNo (c.id2loc id)) = some b ∧
      (m.locSectorNo (c.id2loc id), b) ∈ c.reads := by
  by_cases hmem : m.locSectorNo (c.id2loc id) ∈ c.pagesToRmw
  · obtain ⟨k, hk, heq⟩ := c.pageBufMap_of_mem hmem
    -- a page with the record of a neighbour is not free, so it is to be read
    have hneed : m.locSectorNo (c.id2loc id) ∈ c.pagesNeedToRead := by
      obtain ⟨loc, hloc, hsame⟩ := c.mem_pagesToRmw.mp hmem
      by_contra hno
      obtain ⟨hlive, hlt⟩ := c.live id hid
      rcases c.given.blind loc hloc (fun h => hno (hsame ▸ h)) (c.id2loc id) hsame.symm with
        hfree | hge
      · rw [hlive] at hfree
        cases hfree
      · omega
    refine ⟨_, heq, mem_append_right _ (mem_map.mpr
      ⟨(_, k), mem_filter.mpr ⟨mem_zipIdx_iff_getElem?.mpr hk, ?_⟩, rfl⟩)⟩
    exact decide_eq_true hneed
  · rcases c.pageBufMap_of_not_mem hmem with ⟨b, id', hb, hpage, heq⟩ | ⟨hno, -⟩
    · refine ⟨b, heq, mem_append_left _ (mem_map.mpr ⟨(id', b), ?_, ?_⟩)⟩
      · exact mem_zipIdx_iff_getElem?.mpr hb
      · rw [← hpage]
    · exact absurd rfl (hno id hid)

/-! ## Accesses that are inside -/

section
variable {c}

/-- A location whose page has a buffer. -/
def Mapped (c : InPlaceInsert ty m) (loc : Nat) : Prop :=
  ∃ b, c.pageBufMap (m.locSectorNo loc) = some b

variable {loc : Nat}

theorem mapped_of_mem_locs (h : loc ∈ c.locs) : c.Mapped loc := by
  obtain ⟨k, -, heq⟩ := c.pageBufMap_of_mem (c.mem_pagesToRmw.mpr ⟨loc, h, rfl⟩)
  exact ⟨_, heq⟩

variable {id : UInt32}

theorem mapped_of_mem_nhood (h : id ∈ c.newNhood) : c.Mapped (c.id2loc id) := by
  obtain ⟨b, heq, -⟩ := c.exists_buf_of_mem h
  exact ⟨b, heq⟩

/-- A slot that was handed out is not that of a neighbour. -/
theorem id2loc_not_mem (h : id ∈ c.newNhood) : c.id2loc id ∉ c.locs := by
  obtain ⟨hlive, hlt⟩ := c.live id h
  intro hmem
  rcases c.given.fresh _ hmem with hfree | hge
  · rw [hlive] at hfree
    cases hfree
  · omega

theorem targetLoc_mem : c.targetLoc ∈ c.locs := by
  have hlt : c.newNhood.length < c.locs.length := by
    rw [c.given.length]
    exact lt_succ_self _
  rw [targetLoc, getD_eq_getElem _ _ hlt]
  exact getElem_mem hlt

variable {off len : Nat}

theorem address_eq (hmap : c.Mapped loc) (hio : m.slotOff loc + off + len ≤ m.ioSize)
    (hrec : off + len ≤ m.maxNodeLen) : c.address loc off len = .ok (c.slotAddr loc + off) := by
  obtain ⟨b, hb⟩ := hmap
  have hin := c.bufInside_of_bufPage (c.bufPage_of_pageBufMap hb)
  rw [address, slotAddr, hb]
  exact if_pos ⟨hin, hio, hrec⟩

theorem address_ne_exit (loc off len : Nat) : c.address loc off len ≠ .error .exit := by
  rw [address]
  split
  · exact fun h => by cases h
  · split
    · exact fun h => by cases h
    · exact fun h => by cases h

variable {mem : Image}

theorem store_eq {bytes : List UInt8} (hmap : c.Mapped loc)
    (hio : m.slotOff loc + off + bytes.length ≤ m.ioSize)
    (hrec : off + bytes.length ≤ m.maxNodeLen) :
    c.store mem loc off bytes = .ok (mem.write (c.slotAddr loc + off) bytes) := by
  rw [store, address_eq hmap hio hrec]
  rfl

theorem load_eq (hmap : c.Mapped loc)
    (hio : m.slotOff loc + off + len ≤ m.ioSize) (hrec : off + len ≤ m.maxNodeLen) :
    c.load mem loc off len = .ok (mem.read (c.slotAddr loc + off) len) := by
  rw [load, address_eq hmap hio hrec]
  rfl

/-! ## Slots -/

/-- The slot of a location has the same bytes. -/
def SameSlot (c : InPlaceInsert ty m) (mem mem' : Image) (loc : Nat) : Prop :=
  ∀ i < m.maxNodeLen, mem' (c.slotAddr loc + i) = mem (c.slotAddr loc + i)

theorem SameSlot.trans {mem' mem'' : Image} (h : c.SameSlot mem mem' loc)
    (h' : c.SameSlot mem' mem'' loc) : c.SameSlot mem mem'' loc :=
  fun i hi => (h' i hi).trans (h i hi)

/-- The slot of a neighbour has its record. -/
def Kept (c : InPlaceInsert ty m) (mem : Image) (id : UInt32) : Prop :=
  ∀ i < m.maxNodeLen,
    mem (c.slotAddr (c.id2loc id) + i) = c.disk (m.nodeAddr (c.id2loc id) + i)

theorem Kept.of_sameSlot {mem' : Image} (h : c.Kept mem id)
    (hsame : c.SameSlot mem mem' (c.id2loc id)) : c.Kept mem' id :=
  fun i hi => (hsame i hi).trans (h i hi)

theorem Kept.read (h : c.Kept mem id) (hle : off + len ≤ m.maxNodeLen) :
    mem.read (c.slotAddr (c.id2loc id) + off) len =
      c.disk.read (m.nodeAddr (c.id2loc id) + off) len := by
  refine Image.read_congr fun i hi => ?_
  rw [add_assoc, add_assoc]
  exact h _ (by omega)

/-! ## Records that fit their page -/

section
variable (hfit : m.ioSize = m.ioSizeDense)
include hfit

theorem slot_le (c : InPlaceInsert ty m) (loc : Nat) : m.slotOff loc + m.maxNodeLen ≤ m.ioSize :=
  hfit ▸ c.packed.slotOff_add_le loc

theorem slotAddr_apart {loc loc' : Nat} (h : c.Mapped loc) (h' : c.Mapped loc')
    (hne : loc ≠ loc') : c.slotAddr loc + m.maxNodeLen ≤ c.slotAddr loc' ∨
      c.slotAddr loc' + m.maxNodeLen ≤ c.slotAddr loc := by
  obtain ⟨b, hb⟩ := h
  obtain ⟨b', hb'⟩ := h'
  have hle := c.slot_le hfit loc
  have hle' := c.slot_le hfit loc'
  rw [slotAddr, slotAddr, hb, hb', getD_some, getD_some]
  rcases lt_trichotomy b b' with hlt | rfl | hgt
  · have := mul_le_mul_right m.ioSize (succ_le_of_lt hlt)
    rw [succ_mul] at this
    exact .inl (by omega)
  · -- two locations of one page
    have hpage : m.locSectorNo loc = m.locSectorNo loc' :=
      some.inj ((c.bufPage_of_pageBufMap hb).symm.trans (c.bufPage_of_pageBufMap hb'))
    rcases lt_or_gt_of_ne hne with hlt | hlt
    all_goals
      have := c.packed.nodeAddr_add_le hlt
      rw [SsdMetadata.nodeAddr, SsdMetadata.nodeAddr, hpage] at this
      omega
  · have := mul_le_mul_right m.ioSize (succ_le_of_lt hgt)
    rw [succ_mul] at this
    exact .inr (by omega)

theorem sameSlot_write {mem : Image} {loc loc' off : Nat} {bytes : List UInt8} (h : c.Mapped loc)
    (h' : c.Mapped loc') (hne : loc ≠ loc') (hle : off + bytes.length ≤ m.maxNodeLen) :
    c.SameSlot mem (mem.write (c.slotAddr loc' + off) bytes) loc := by
  intro i hi
  rcases slotAddr_apart hfit h h' hne with hlt | hlt
  · exact mem.write_of_lt _ _ (by omega)
  · exact mem.write_of_ge _ _ (by omega)

/-- The record of a neighbour is in the buffer that is used. -/
theorem kept_pagesRead {id : UInt32} (hid : id ∈ c.newNhood) : c.Kept c.pagesRead id := by
  intro i hi
  obtain ⟨b, hb, hread⟩ := c.exists_buf_of_mem hid
  have hle := c.slot_le hfit (c.id2loc id)
  rw [slotAddr, hb, SsdMetadata.nodeAddr, add_assoc, add_assoc]
  exact c.pagesRead_apply hread (by omega)

end
end
end InPlaceInsert
end PipeANN
