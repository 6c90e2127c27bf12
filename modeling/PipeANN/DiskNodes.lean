import PipeANN.ByteImages
import PipeANN.DiskLayout

/-! # Records and metadata in the index file

`SSDIndexMetadata` and `DiskNode` of `ssd_index_defs.h`.  A record holds the vector, the numbers
of neighbours and of dense neighbours as two 16-bit words, room for `range` neighbours, the
attributes, and the dense neighbours.  The metadata are in the first sector, ten words of 64 bits
behind two of 32.

`Packed` says what the metadata of a file that this code writes satisfy: then the fields of a
record end within the record, and the records do not overlap (`Packed.nodeAddr_add_le`).
-/
namespace PipeANN
open List ByteImages Nat

/-- The element types for which the index is instantiated. -/
inductive ElemType where
  | float
  | uint8
  | int8
deriving DecidableEq, Repr

/-- `sizeof(T)`. -/
def ElemType.size : ElemType → Nat
  | .float => 4
  | .uint8 => 1
  | .int8 => 1

/-- What a record holds of a vector. -/
inductive VectorType where
  | raw
  | rabitq8
deriving DecidableEq, Repr

namespace VectorType

/-- The number that is stored for it. -/
def code : VectorType → Nat
  | .raw => 0
  | .rabitq8 => 1

def ofCode : Nat → Option VectorType
  | 0 => some .raw
  | 1 => some .rabitq8
  | _ => none

@[simp] theorem ofCode_code (vt : VectorType) : ofCode vt.code = some vt := by
  cases vt <;> rfl

end VectorType

/-- `pad_dim` of `RaBitQQuantizer`. -/
def rabitqPadDim (dim : Nat) : Nat := roundUp dim 128

/-- `vector_size` of `RaBitQQuantizer` with 8 bits: a header of 16 bytes and the coordinates. -/
def rabitqVectorSize (dim : Nat) : Nat := 16 + rabitqPadDim dim * 8 / 8

/-- The bytes of a vector in a record. -/
def vectorBytes (ty : ElemType) (vt : VectorType) (dim : Nat) : Nat :=
  match vt with
  | .raw => dim * ty.size
  | .rabitq8 => rabitqVectorSize dim

structure SsdMetadata where
  npoints : Nat
  dataDim : Nat
  entryPoint : Nat
  /-- The length of a record with its dense neighbours. -/
  maxNodeLen : Nat
  nnodesPerSector : Nat
  nptsCurShard : Nat
  attrSize : Nat
  /-- The number of neighbours, at most. -/
  range : Nat
  rOod : Nat
  vectorType : VectorType
  /-- The capacity; it is not stored, nor are the fields below. -/
  maxNpts : Nat := 0
  /-- The number of neighbours and dense neighbours, at most. -/
  rangeDense : Nat := 0
  normalNodeLen : Nat := 0
  entryPointId : Nat := 0
deriving DecidableEq, Repr

namespace SsdMetadata

section Init
variable (ty : ElemType) (m : SsdMetadata)

/-- `vector_bytes`. -/
def vectorLen : Nat := vectorBytes ty m.vectorType m.dataDim

/-- `range` as `init_temporary_fields` leaves it; `0` stands for files without it. -/
def initRange (rangeDense : Nat) : Nat :=
  if m.range = 0 ∨ rangeDense ≤ m.range then rangeDense else m.range

/-- `init_temporary_fields`; it exits if the record has no room for its payload. -/
def initTemporaryFields : Option SsdMetadata :=
  let payload := m.vectorLen ty
  if m.maxNodeLen < payload ∨ m.maxNodeLen - payload < m.attrSize ∨
      m.maxNodeLen - payload - m.attrSize < 4 then none
  else
    let rangeDense := (m.maxNodeLen - payload - m.attrSize) / 4 - 1
    let range := m.initRange rangeDense
    some { m with
      maxNpts := m.npoints
      rangeDense := rangeDense
      range := range
      rOod := if range < m.rOod then 0 else m.rOod
      normalNodeLen := m.maxNodeLen - (rangeDense - range) * 4
      entryPointId := m.entryPoint % 2 ^ 32 }

end Init

/-! ## The first sector -/

/-- The words that `save_to_disk_index` writes behind `nr` and `nc`. -/
def words (m : SsdMetadata) : List Nat :=
  [m.npoints, m.dataDim, m.entryPoint, m.maxNodeLen, m.nnodesPerSector, m.nptsCurShard,
    m.attrSize, m.range, m.rOod, m.vectorType.code]

/-- `nr` and `nc`, and the words. -/
def header (m : SsdMetadata) : List UInt8 := le 4 10 ++ le 4 1 ++ m.words.flatMap (le 8)

/-- `save_to_disk_index`: the first sector is cleared and the metadata are written over it. -/
def saveToDiskIndex (m : SsdMetadata) (f : File) : File :=
  (f.pwrite (List.replicate sectorLen 0) 0).pwrite m.header 0

theorem sectorLen_le_size (m : SsdMetadata) (f : File) :
    sectorLen ≤ (m.saveToDiskIndex f).size := by
  simp only [saveToDiskIndex, File.pwrite, length_replicate]
  omega

/-- The `i`-th word of the metadata. -/
def wordAt (image : Image) (i : Nat) : Nat := ofLe (image.read (8 + 8 * i) 8)

/-- `load_from_disk_index` of a file that is not a shard. -/
def loadFromDiskIndex (ty : ElemType) (f : File) : Option SsdMetadata :=
  let nr := ofLe (f.image.read 0 4)
  let word := wordAt f.image
  let nwords := 8 + (if 9 ≤ nr then 1 else 0) + if 10 ≤ nr then 1 else 0
  -- a short file: `!in`
  if f.size < 8 + 8 * nwords then none
  else
    (VectorType.ofCode (if 10 ≤ nr then word 9 else 0)).bind fun vectorType =>
      initTemporaryFields ty {
        npoints := word 0
        dataDim := word 1
        entryPoint := word 2
        maxNodeLen := word 3
        nnodesPerSector := word 4
        nptsCurShard := word 0
        attrSize := if nr < 7 then 0 else word 6
        range := if nr < 7 then 0 else word 7
        rOod := if 9 ≤ nr then word 8 else 0
        vectorType := vectorType }

/-! ## Addresses -/

section Addresses
variable (m : SsdMetadata)

def layout : DiskLayout := ⟨m.maxNodeLen, m.nnodesPerSector⟩

/-- `loc_sector_no`. -/
def locSectorNo (loc : Nat) : Nat := m.layout.locSectorNo loc

/-- `io_size_dense`. -/
def ioSizeDense : Nat :=
  sectorLen * if 0 < m.nnodesPerSector then 1 else divRoundUp m.maxNodeLen sectorLen

/-- `nodes_per_io`. -/
def nodesPerIo : Nat := if 0 < m.nnodesPerSector then m.nnodesPerSector else 1

/-- `sector_to_loc`. -/
def sectorToLoc (sectorNo sectorOff : Nat) : Nat :=
  if m.nnodesPerSector = 0 then (sectorNo - 1) / divRoundUp m.maxNodeLen sectorLen
  else (sectorNo - 1) * m.nnodesPerSector + sectorOff

/-- Where the record of a location is in its sector. -/
def slotOff (loc : Nat) : Nat :=
  if m.nnodesPerSector = 0 then 0 else loc % m.nnodesPerSector * m.maxNodeLen

/-- The address of a record in the file. -/
def nodeAddr (loc : Nat) : Nat := m.locSectorNo loc * sectorLen + m.slotOff loc

theorem nodesPerIo_pos : 0 < m.nodesPerIo := by
  unfold nodesPerIo
  split
  · assumption
  · exact Nat.one_pos

/-- A record that is longer than a sector fits into the sectors of its own. -/
theorem maxNodeLen_le_ioSizeDense (hzero : m.nnodesPerSector = 0) :
    m.maxNodeLen ≤ m.ioSizeDense := by
  rw [ioSizeDense, if_neg (by omega), mul_comm]
  exact le_roundUp m.maxNodeLen (by decide)

/-- The sectors of a location, in terms of the unit in which it is read. -/
theorem locSectorNo_eq (loc : Nat) :
    m.locSectorNo loc * sectorLen = sectorLen + loc / m.nodesPerIo * m.ioSizeDense := by
  rw [locSectorNo, DiskLayout.locSectorNo, layout, nodesPerIo, ioSizeDense, Nat.add_mul, one_mul]
  by_cases hpos : 0 < m.nnodesPerSector
  · simp only [hpos, if_true, mul_one]
  · simp only [hpos, if_false, Nat.div_one, DiskLayout.sectorsPerNode]
    rw [mul_assoc, mul_comm sectorLen]

theorem slotOff_eq (loc : Nat) :
    m.slotOff loc = loc % m.nodesPerIo * if m.nnodesPerSector = 0 then 0 else m.maxNodeLen := by
  rw [slotOff, nodesPerIo]
  by_cases hzero : m.nnodesPerSector = 0
  · rw [if_pos hzero, if_pos hzero, Nat.mul_zero]
  · rw [if_neg hzero, if_neg hzero, if_pos (by omega)]

/-- Where the record of the `i`-th location behind such a location is. -/
theorem nodeAddr_add {loc : Nat} (hdvd : m.nodesPerIo ∣ loc) (i : Nat) :
    m.nodeAddr (loc + i) = m.locSectorNo loc * sectorLen +
      (i / m.nodesPerIo * m.ioSizeDense + m.slotOff (loc + i)) := by
  have hpos := m.nodesPerIo_pos
  obtain ⟨k, rfl⟩ := hdvd
  rw [nodeAddr, locSectorNo_eq, locSectorNo_eq, mul_add_div hpos,
    Nat.mul_div_cancel_left k hpos, Nat.add_mul]
  omega

end Addresses

end SsdMetadata

/-- `DiskNode`: the addresses of the fields of a record. -/
structure DiskNodeRef where
  coords : Nat
  nnbrs : Nat
  nDenseNbrs : Nat
  nbrs : Nat
  attrs : Nat
  denseNbrs : Nat
deriving DecidableEq, Repr

namespace DiskNodeRef

/-- The fields of a record at an address. -/
def ofAddr (ty : ElemType) (m : SsdMetadata) (coords : Nat) : DiskNodeRef :=
  let payload := m.vectorLen ty
  { coords := coords
    nnbrs := coords + payload
    nDenseNbrs := coords + payload + 2
    nbrs := coords + payload + 4
    attrs := coords + payload + (1 + m.range) * 4
    denseNbrs := coords + payload + (1 + m.range) * 4 + m.attrSize }

/-- The constructor: the record of a location, given by 32 bits, in a page. -/
def mkNode (ty : ElemType) (m : SsdMetadata) (pageBuf loc : Nat) : DiskNodeRef :=
  ofAddr ty m (pageBuf + m.slotOff (loc % 2 ^ 32))

/-- The neighbours in a record. -/
def getNbrs (node : DiskNodeRef) (image : Image) : List UInt32 :=
  ofWords (image.read node.nbrs (4 * ofLe (image.read node.nnbrs 2)))

/-- The dense neighbours in a record. -/
def getDenseNbrs (node : DiskNodeRef) (image : Image) : List UInt32 :=
  ofWords (image.read node.denseNbrs (4 * ofLe (image.read node.nDenseNbrs 2)))

end DiskNodeRef

namespace SsdMetadata
variable {ty : ElemType} {m : SsdMetadata}

/-! ## Metadata of a file that was written here -/

/-- The metadata are those that `init_temporary_fields` leaves, for records that end within their
length and sectors that are filled with them. -/
structure Packed (ty : ElemType) (m : SsdMetadata) : Prop where
  init : m.initTemporaryFields ty = some m
  fits : m.vectorLen ty + (1 + m.rangeDense) * 4 + m.attrSize ≤ m.maxNodeLen
  range_le : m.range ≤ m.rangeDense
  range_lt : m.rangeDense < 2 ^ 16
  perSector : m.nnodesPerSector = sectorLen / m.maxNodeLen

theorem initRange_le (rangeDense : Nat) : m.initRange rangeDense ≤ rangeDense := by
  unfold initRange
  split
  · exact le_rfl
  · omega

theorem initRange_initRange (rangeDense : Nat) :
    { m with range := m.initRange rangeDense }.initRange rangeDense = m.initRange rangeDense := by
  by_cases hall : m.range = 0 ∨ rangeDense ≤ m.range
  · simp only [initRange, if_pos hall, le_refl, or_true, if_true]
  · simp only [initRange, if_neg hall]

/-- The fields that are computed stay as they are. -/
theorem initTemporaryFields_idem {m' : SsdMetadata} (h : m.initTemporaryFields ty = some m') :
    m'.initTemporaryFields ty = some m' := by
  unfold initTemporaryFields at h
  dsimp only at h
  split at h
  · cases h
  next hroom =>
    cases h
    have hrange := m.initRange_initRange ((m.maxNodeLen - m.vectorLen ty - m.attrSize) / 4 - 1)
    generalize hdense : (m.maxNodeLen - m.vectorLen ty - m.attrSize) / 4 - 1 = rangeDense
      at hrange ⊢
    generalize m.initRange rangeDense = range at hrange ⊢
    have hood : (if range < (if range < m.rOod then 0 else m.rOod) then 0
        else if range < m.rOod then 0 else m.rOod) = if range < m.rOod then 0 else m.rOod := by
      split
      · split <;> omega
      · rfl
    refine (if_neg hroom).trans ?_
    simp only [vectorLen] at hdense ⊢
    simp only [initRange] at hrange ⊢
    simp only [hdense, hrange, hood]

/-- What `init_temporary_fields` leaves alone. -/
structure SameStored (m m' : SsdMetadata) : Prop where
  npoints : m'.npoints = m.npoints
  dataDim : m'.dataDim = m.dataDim
  entryPoint : m'.entryPoint = m.entryPoint
  maxNodeLen : m'.maxNodeLen = m.maxNodeLen
  nnodesPerSector : m'.nnodesPerSector = m.nnodesPerSector
  nptsCurShard : m'.nptsCurShard = m.nptsCurShard
  attrSize : m'.attrSize = m.attrSize
  vectorType : m'.vectorType = m.vectorType
  rOod_le : m'.rOod ≤ m.rOod

theorem SameStored.vectorLen {m m' : SsdMetadata} (h : m.SameStored m') :
    m'.vectorLen ty = m.vectorLen ty := by
  rw [SsdMetadata.vectorLen, SsdMetadata.vectorLen, h.vectorType, h.dataDim]

section Room
variable (ty : ElemType) {rangeDense vecBytes : Nat}
    (hlen : m.maxNodeLen = (rangeDense + 1) * 4 + vecBytes + m.attrSize)
    (hle : m.vectorLen ty ≤ vecBytes) (hlt : vecBytes < m.vectorLen ty + 4)
include hlen hle hlt

/-- The metadata for records with room for `rangeDense` neighbours of both kinds, a vector and the
attributes; the vector may have a few bytes more than it needs. -/
theorem exists_init : ∃ m', m.initTemporaryFields ty = some m' ∧ m.SameStored m' ∧
    m'.rangeDense = rangeDense ∧ m'.range = m.initRange rangeDense := by
  have hroom : ¬ (m.maxNodeLen < m.vectorLen ty ∨ m.maxNodeLen - m.vectorLen ty < m.attrSize ∨
      m.maxNodeLen - m.vectorLen ty - m.attrSize < 4) := by omega
  have hdense : (m.maxNodeLen - m.vectorLen ty - m.attrSize) / 4 - 1 = rangeDense := by omega
  have hinit : m.initTemporaryFields ty = _ := if_neg hroom
  rw [hdense] at hinit
  refine ⟨_, hinit, ⟨rfl, rfl, rfl, rfl, rfl, rfl, rfl, rfl, ?_⟩, rfl, rfl⟩
  show (if m.initRange rangeDense < m.rOod then 0 else m.rOod) ≤ m.rOod
  split <;> omega

theorem exists_packed (hrange : rangeDense < 2 ^ 16)
    (hsector : m.nnodesPerSector = sectorLen / m.maxNodeLen) :
    ∃ m', m.initTemporaryFields ty = some m' ∧ m'.Packed ty ∧ m.SameStored m' ∧
      m'.rangeDense = rangeDense ∧ m'.range = m.initRange rangeDense := by
  obtain ⟨m', hinit, hsame, hdense, hformat⟩ := exists_init ty hlen hle hlt
  refine ⟨m', hinit, ⟨initTemporaryFields_idem hinit, ?_, ?_, hdense ▸ hrange, ?_⟩, hsame, hdense,
    hformat⟩
  · rw [hsame.vectorLen, hsame.attrSize, hsame.maxNodeLen]
    omega
  · rw [hformat, hdense]
    exact initRange_le _
  · rw [hsame.nnodesPerSector, hsector, hsame.maxNodeLen]

end Room

section PerSector
variable (h : m.nnodesPerSector = sectorLen / m.maxNodeLen)
include h

/-- A record ends within the bytes that are read for its location. -/
theorem slotOff_add_le (loc : Nat) : m.slotOff loc + m.maxNodeLen ≤ m.ioSizeDense := by
  by_cases hzero : m.nnodesPerSector = 0
  · rw [slotOff, if_pos hzero, zero_add]
    exact m.maxNodeLen_le_ioSizeDense hzero
  · have hpos : 0 < m.nnodesPerSector := by omega
    rw [slotOff, if_neg hzero, ioSizeDense, if_pos hpos, ← succ_mul]
    refine le_trans (mul_le_mul_right _ (mod_lt loc hpos)) ?_
    rw [h]
    exact div_mul_le_self ..

/-- **Records do not overlap**, and they are in the order of their locations. -/
theorem nodeAddr_add_le {loc loc' : Nat} (hlt : loc < loc') :
    m.nodeAddr loc + m.maxNodeLen ≤ m.nodeAddr loc' := by
  have hend := slotOff_add_le h loc
  rw [nodeAddr, nodeAddr, locSectorNo_eq, locSectorNo_eq]
  rcases Nat.lt_or_eq_of_le (Nat.div_le_div_right (c := m.nodesPerIo) (le_of_lt hlt)) with
    hunit | hunit
  · -- the unit of the first ends before that of the second begins
    have hnext := mul_le_mul_right m.ioSizeDense (succ_le_of_lt hunit)
    rw [succ_mul] at hnext
    omega
  · -- two locations of one sector
    have hmod : loc % m.nodesPerIo < loc' % m.nodesPerIo := by
      have h₁ := div_add_mod loc m.nodesPerIo
      have h₂ := div_add_mod loc' m.nodesPerIo
      rw [hunit] at h₁
      omega
    by_cases hzero : m.nnodesPerSector = 0
    · rw [nodesPerIo, if_neg (by omega)] at hmod
      omega
    · have hslot := mul_le_mul_right m.maxNodeLen (succ_le_of_lt hmod)
      rw [slotOff_eq, slotOff_eq, if_neg hzero, hunit]
      rw [succ_mul] at hslot
      omega

end PerSector

theorem Packed.slotOff_add_le (h : m.Packed ty) (loc : Nat) :
    m.slotOff loc + m.maxNodeLen ≤ m.ioSizeDense := SsdMetadata.slotOff_add_le h.perSector loc

theorem Packed.nodeAddr_add_le (h : m.Packed ty) {loc loc' : Nat} (hlt : loc < loc') :
    m.nodeAddr loc + m.maxNodeLen ≤ m.nodeAddr loc' := SsdMetadata.nodeAddr_add_le h.perSector hlt

/-! ## The metadata come back -/

/-- The words of the metadata have 64 bits. -/
def WordsFit (m : SsdMetadata) : Prop := ∀ v ∈ m.words, v < 2 ^ 64

theorem length_header (m : SsdMetadata) : m.header.length = 88 := by
  simp only [header, words, flatMap_cons, flatMap_nil, length_append, length_le, length_nil]

theorem wordAt_header {image : Image} {i v : Nat} (hv : m.words[i]? = some v)
    (hfit : m.WordsFit) : wordAt (image.write 0 m.header) i = v := by
  have hi : i < m.words.length := (List.getElem?_eq_some_iff.mp hv).1
  have hlen : m.words.length = 10 := rfl
  have hread := image.read_write_part 0 m.header (8 + 8 * i) 8 (by rw [length_header]; omega)
  have hdrop : m.header.drop (8 + 8 * i) = (m.words.flatMap (le 8)).drop (8 * i) := by
    rw [header, ← drop_drop, drop_left' (by simp only [length_append, length_le])]
  rw [zero_add, hdrop, drop_take_flatMap_le 8 hv] at hread
  rw [wordAt, hread]
  exact ofLe_le (hfit v (mem_of_getElem? hv))

section Stored
variable (h : m.initTemporaryFields ty = some m) (hshard : m.nptsCurShard = m.npoints)
include h hshard

theorem init_stored : initTemporaryFields ty {
      npoints := m.npoints
      dataDim := m.dataDim
      entryPoint := m.entryPoint
      maxNodeLen := m.maxNodeLen
      nnodesPerSector := m.nnodesPerSector
      nptsCurShard := m.npoints
      attrSize := m.attrSize
      range := m.range
      rOod := m.rOod
      vectorType := m.vectorType } = some m := by
  rw [← h]
  simp only [initTemporaryFields, hshard]
  rfl

/-- **What `save_to_disk_index` writes, `load_from_disk_index` reads.**  This is stated for every
file that begins like that one. -/
theorem loadFromDiskIndex_eq (hfit : m.WordsFit) {f g : File} (hsize : sectorLen ≤ g.size)
    (hbegin : ∀ a < sectorLen, g.image a = (m.saveToDiskIndex f).image a) :
    loadFromDiskIndex ty g = some m := by
  have hread (off len : Nat) (hle : off + len ≤ sectorLen) :
      g.image.read off len = (m.saveToDiskIndex f).image.read off len :=
    Image.read_congr fun i hi => hbegin _ (by omega)
  have hword (i v : Nat) (hv : m.words[i]? = some v) : wordAt g.image i = v := by
    have hi : i < 10 := (List.getElem?_eq_some_iff.mp hv).1
    rw [wordAt, hread _ _ (by rw [sectorLen]; omega)]
    exact wordAt_header hv hfit
  have hnr : ofLe (g.image.read 0 4) = 10 := by
    rw [hread _ _ (by decide)]
    have hpart := (f.pwrite (replicate sectorLen 0) 0).image.read_write_part 0 m.header
      0 4 (by rw [length_header]; omega)
    exact (congrArg ofLe hpart).trans rfl
  have hlarge : ¬ g.size < 8 + 8 * (8 + 1 + 1) := by
    rw [sectorLen] at hsize
    omega
  simp only [loadFromDiskIndex, hnr, reduceLeDiff, if_true, if_neg hlarge,
    hword 0 _ rfl, hword 1 _ rfl, hword 2 _ rfl, hword 3 _ rfl,
    hword 4 _ rfl, hword 6 _ rfl, hword 7 _ rfl, hword 8 _ rfl, hword 9 _ rfl,
    VectorType.ofCode_code]
  exact init_stored h hshard

end Stored

/-! ## The layout of an index -/

/-- What the constructor is given for records of these sizes. -/
def forRecords (ty : ElemType) (vt : VectorType)
    (npoints dim entryPoint attrSize range rangeDense rOod : Nat) : SsdMetadata :=
  let maxNodeLen := (rangeDense + 1) * 4 + vectorBytes ty vt dim + attrSize
  { npoints := npoints
    dataDim := dim
    entryPoint := entryPoint
    maxNodeLen := maxNodeLen
    nnodesPerSector := sectorLen / maxNodeLen
    nptsCurShard := npoints
    attrSize := attrSize
    range := range
    rOod := rOod
    vectorType := vt }

/-- The fields of a record follow one another and end within it, records do not overlap, a
location is found again from its sector, and the metadata come back from the file. -/
structure Consistent (ty : ElemType) (m : SsdMetadata) : Prop where
  fields : ∀ addr, let node := DiskNodeRef.ofAddr ty m addr
    node.coords = addr ∧ node.nnbrs = node.coords + m.vectorLen ty ∧
      node.nDenseNbrs = node.nnbrs + 2 ∧ node.nbrs = node.nDenseNbrs + 2 ∧
      node.attrs = node.nbrs + m.range * 4 ∧ node.denseNbrs = node.attrs + m.attrSize ∧
      node.denseNbrs + (m.rangeDense - m.range) * 4 ≤ addr + m.maxNodeLen
  nodes : ∀ loc loc', loc < loc' → m.nodeAddr loc + m.maxNodeLen ≤ m.nodeAddr loc'
  inverse : ∀ loc, m.sectorToLoc (m.locSectorNo loc) (loc % m.nodesPerIo) = loc
  stored : m.WordsFit → ∀ f, loadFromDiskIndex ty (m.saveToDiskIndex f) = some m

theorem sectorToLoc_locSectorNo (hlen : 0 < m.maxNodeLen) (loc : Nat) :
    m.sectorToLoc (m.locSectorNo loc) (loc % m.nodesPerIo) = loc := by
  rw [sectorToLoc, locSectorNo, DiskLayout.locSectorNo, Nat.add_sub_cancel_left, layout, nodesPerIo]
  by_cases hzero : m.nnodesPerSector = 0
  · -- a record has sectors of its own
    have hpos : 0 < divRoundUp m.maxNodeLen sectorLen := by
      unfold divRoundUp sectorLen
      split <;> omega
    have hnot : ¬ 0 < m.nnodesPerSector := by omega
    rw [if_pos hzero, if_neg hnot]
    exact Nat.mul_div_cancel loc hpos
  · have hpos : 0 < m.nnodesPerSector := by omega
    rw [if_neg hzero, if_pos hpos, if_pos hpos]
    exact div_add_mod' loc _

/-- **The disk layout is consistent**, for all sizes of the parts of a record. -/
theorem exists_consistent (ty : ElemType) (vt : VectorType)
    (npoints dim entryPoint attrSize range rangeDense rOod : Nat) :
    ∃ m, (forRecords ty vt npoints dim entryPoint attrSize range rangeDense
        rOod).initTemporaryFields ty = some m ∧
      m.dataDim = dim ∧ m.vectorType = vt ∧ m.attrSize = attrSize ∧ m.rangeDense = rangeDense ∧
      (0 < range → range ≤ rangeDense → m.range = range) ∧ m.Consistent ty := by
  obtain ⟨m, hinit, hsame, hdense, hrange⟩ := @exists_init
    (forRecords ty vt npoints dim entryPoint attrSize range rangeDense rOod) ty rangeDense
    (vectorBytes ty vt dim) rfl le_rfl (Nat.lt_add_of_pos_right (by decide))
  have hlen : m.maxNodeLen = (rangeDense + 1) * 4 + m.vectorLen ty + m.attrSize := by
    rw [hsame.maxNodeLen, hsame.vectorLen, hsame.attrSize]
    rfl
  have hle : m.range ≤ rangeDense := hrange ▸ initRange_le _
  have hsector : m.nnodesPerSector = sectorLen / m.maxNodeLen := by
    rw [hsame.nnodesPerSector, hsame.maxNodeLen]
    rfl
  have hshard : m.nptsCurShard = m.npoints := hsame.nptsCurShard.trans hsame.npoints.symm
  refine ⟨m, hinit, hsame.dataDim, hsame.vectorType, hsame.attrSize, hdense, fun hpos hdense => ?_,
    ⟨fun addr => ?_, fun loc loc' => nodeAddr_add_le hsector,
      sectorToLoc_locSectorNo (by omega), fun hfit f => ?_⟩⟩
  · rw [hrange]
    change (if range = 0 ∨ rangeDense ≤ range then rangeDense else range) = range
    split <;> omega
  · dsimp only [DiskNodeRef.ofAddr]
    refine ⟨rfl, rfl, rfl, rfl, ?_, rfl, ?_⟩ <;> omega
  · exact loadFromDiskIndex_eq (initTemporaryFields_idem hinit) hshard hfit
      (m.sectorLen_le_size f) fun _ _ => rfl

end SsdMetadata

/-! ## What a record holds -/

/-- The contents of a record. -/
structure NodeData where
  vec : List UInt8
  nbrs : List UInt32
  attrs : List UInt8
  dense : List UInt32
deriving DecidableEq, Repr

namespace NodeData
variable (ty : ElemType) (m : SsdMetadata) (data : NodeData) (image : Image) (addr : Nat)

/-- There is room in a record. -/
structure Fits : Prop where
  vec : data.vec.length ≤ m.vectorLen ty
  nbrs : data.nbrs.length ≤ m.range
  attrs : data.attrs.length ≤ m.attrSize
  dense : data.dense.length ≤ m.rangeDense - m.range

/-- There is room for all but the dense neighbours. -/
structure FrontFits : Prop where
  vec : data.vec.length ≤ m.vectorLen ty
  nbrs : data.nbrs.length ≤ m.range
  attrs : data.attrs.length ≤ m.attrSize

/-- The vector, the numbers of neighbours and the neighbours are at `addr`. -/
structure FrontAt : Prop where
  vec : image.read addr data.vec.length = data.vec
  nnbrs : image.read (addr + m.vectorLen ty) 2 = le 2 data.nbrs.length
  nDense : image.read (addr + m.vectorLen ty + 2) 2 = le 2 data.dense.length
  nbrs : image.read (addr + m.vectorLen ty + 4) (wordBytes data.nbrs).length = wordBytes data.nbrs

/-- The record at `addr` holds the data. -/
structure HeldAt : Prop where
  vec : image.read addr data.vec.length = data.vec
  nnbrs : image.read (addr + m.vectorLen ty) 2 = le 2 data.nbrs.length
  nDense : image.read (addr + m.vectorLen ty + 2) 2 = le 2 data.dense.length
  nbrs : image.read (addr + m.vectorLen ty + 4) (wordBytes data.nbrs).length = wordBytes data.nbrs
  attrs : image.read (addr + m.vectorLen ty + (1 + m.range) * 4) data.attrs.length = data.attrs
  dense : image.read (addr + m.vectorLen ty + (1 + m.range) * 4 + m.attrSize)
    (wordBytes data.dense).length = wordBytes data.dense

variable {ty m data image addr} {image' : Image} {addr' : Nat}

theorem HeldAt.front (h : data.HeldAt ty m image addr) : data.FrontAt ty m image addr :=
  { h with }

theorem Fits.front (h : data.Fits ty m) : data.FrontFits ty m := { h with }

/-- Equal bytes are read from a copy of a record. -/
theorem read_copy (heq : ∀ a < m.maxNodeLen, image' (addr' + a) = image (addr + a))
    {off len : Nat} (hin : off + len ≤ m.maxNodeLen) :
    image'.read (addr' + off) len = image.read (addr + off) len :=
  Image.read_congr fun i hi => by
    rw [add_assoc, add_assoc]
    exact heq _ (by omega)

theorem FrontAt.copy (hm : m.Packed ty) (hfits : data.FrontFits ty m)
    (h : data.FrontAt ty m image addr)
    (heq : ∀ a < m.maxNodeLen, image' (addr' + a) = image (addr + a)) :
    data.FrontAt ty m image' addr' := by
  have hroom := hm.fits
  have hle := hm.range_le
  obtain ⟨hvec, hnbrs, -⟩ := hfits
  obtain ⟨h₁, h₂, h₃, h₄⟩ := h
  rw [length_wordBytes] at h₄
  refine ⟨?_, ?_, ?_, ?_⟩
  · exact (@read_copy _ _ _ _ _ heq 0 _ (by omega)).trans h₁
  · exact (read_copy heq (by omega)).trans h₂
  · rw [add_assoc] at h₃ ⊢
    exact (read_copy heq (by omega)).trans h₃
  · rw [add_assoc] at h₄ ⊢
    rw [length_wordBytes]
    exact (read_copy heq (by omega)).trans h₄

theorem FrontAt.getNbrs (hm : m.Packed ty) (hfits : data.FrontFits ty m)
    (h : data.FrontAt ty m image addr) :
    (DiskNodeRef.ofAddr ty m addr).getNbrs image = data.nbrs := by
  have hlt := hm.range_lt
  have hle := hm.range_le
  have hnbrs := hfits.nbrs
  show ofWords (image.read (addr + m.vectorLen ty + 4)
    (4 * ofLe (image.read (addr + m.vectorLen ty) 2))) = _
  rw [h.nnbrs, ofLe_le (by omega), ← length_wordBytes, h.nbrs, ofWords_wordBytes]

section
variable (hm : m.Packed ty) (hfits : data.Fits ty m)
include hm hfits

section
variable (h : data.HeldAt ty m image addr)
include h

/-- A record is held wherever its bytes are. -/
theorem HeldAt.copy (heq : ∀ a < m.maxNodeLen, image' (addr' + a) = image (addr + a)) :
    data.HeldAt ty m image' addr' := by
  have hroom := hm.fits
  have hle := hm.range_le
  obtain ⟨h₁, h₂, h₃, h₄⟩ := h.front.copy hm hfits.front heq
  obtain ⟨hvec, hnbrs, hattrs, hdense⟩ := hfits
  have h₅ := h.attrs
  have h₆ := h.dense
  rw [length_wordBytes] at h₆
  refine ⟨h₁, h₂, h₃, h₄, ?_, ?_⟩
  · rw [add_assoc] at h₅ ⊢
    exact (read_copy heq (by omega)).trans h₅
  · rw [add_assoc, add_assoc] at h₆ ⊢
    rw [length_wordBytes]
    exact (read_copy heq (by omega)).trans h₆

theorem HeldAt.getNbrs : (DiskNodeRef.ofAddr ty m addr).getNbrs image = data.nbrs :=
  h.front.getNbrs hm hfits.front

theorem HeldAt.getDenseNbrs : (DiskNodeRef.ofAddr ty m addr).getDenseNbrs image = data.dense := by
  have hlt := hm.range_lt
  have hdense := hfits.dense
  show ofWords (image.read (addr + m.vectorLen ty + (1 + m.range) * 4 + m.attrSize)
    (4 * ofLe (image.read (addr + m.vectorLen ty + 2) 2))) = _
  rw [h.nDense, ofLe_le (by omega), ← length_wordBytes, h.dense, ofWords_wordBytes]

end

end

end NodeData
end PipeANN
