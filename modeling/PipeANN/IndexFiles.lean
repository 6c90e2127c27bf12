import PipeANN.DiskNodes
import PipeANN.MemIndex

/-! # Saving and loading the in-memory index

`save_from_mem` writes the vectors and the graph of an in-memory index to an index file, and
`load_to_mem` reads them back (`ssd_index.cpp`).  Both go over the locations in batches of about
64 MiB.  A batch is a number of whole units, which are sectors with several records or records of
several sectors; the last one is filled up with zeros.  The file and the buffers are modelled byte
by byte; a buffer has arbitrary bytes at first.
-/
namespace PipeANN
open ByteImages

/-- What the vectors of an in-memory index are, by `get_name`. -/
inductive NeighborName where
  | raw
  | rabitq8
  | other
deriving DecidableEq, Repr

def NeighborName.vectorType : NeighborName → Option VectorType
  | .raw => some .raw
  | .rabitq8 => some .rabitq8
  | .other => none

def NeighborName.ofVectorType : VectorType → NeighborName
  | .raw => .raw
  | .rabitq8 => .rabitq8

/-- `Index`: the vectors, their tags, and the graph. -/
structure GraphIndex where
  name : NeighborName
  dim : Nat
  /-- The bytes of a vector. -/
  dataSize : Nat
  core : MemIndex (List UInt8)
  /-- The neighbours of the locations. -/
  graph : List (List UInt32)
  range : UInt16
  rOod : UInt16
  ep : UInt32

/-- What holds of an index in memory. -/
structure GraphIndex.Live (ty : ElemType) (idx : GraphIndex) : Prop where
  valid : idx.core.Valid
  dataSize_eq : ∀ vt, idx.name.vectorType = some vt → idx.dataSize = vectorBytes ty vt idx.dim
  record_length : ∀ v ∈ idx.core.vectors, v.length = idx.dataSize
  /-- A location has 32 bits, and the largest number stands for none. -/
  nd_lt : idx.core.vectors.length < 2 ^ 32
  nd_le : idx.core.vectors.length ≤ idx.graph.length
  /-- A vector is an object in memory. -/
  dataSize_lt : idx.dataSize < 2 ^ 62
  /-- `load_neighbor` lets no other quantizer into memory. -/
  rabitq_dim : idx.name = .rabitq8 → 0 < idx.dim ∧ idx.dim ≤ 1048576

/-- An order for `std::shuffle`. -/
structure Shuffle where
  run : List UInt32 → List UInt32
  perm : ∀ l, (run l).Perm l

/-- The loop over the two-hop neighbours: what has been seen, and the candidates. -/
def twoHopCands (seen : List UInt32) (ids : List UInt32) : List UInt32 :=
  (ids.foldl (fun (s : List UInt32 × List UInt32) id =>
    if id ∈ s.1 then s else (id :: s.1, s.2 ++ [id])) (seen, [])).2

/-- `sample_two_hop_nbrs`. -/
def sampleTwoHopNbrs (shuffle : Shuffle) (center : UInt32) (nnbrsDense : Nat)
    (getNbrs : UInt32 → List UInt32) : List UInt32 :=
  if nnbrsDense = 0 then []
  else
    let oneHop := getNbrs center
    (shuffle.run (twoHopCands (oneHop ++ [center]) (oneHop.flatMap getNbrs))).take nnbrsDense

/-- `AttrWriter`: the attributes of a vector, and the room for them. -/
structure AttrWriter where
  attrSize : Nat
  write : Nat → List UInt8
  write_length : ∀ id, (write id).length ≤ attrSize
  attrSize_lt : attrSize < 2 ^ 62

/-- The other arguments of `save_from_mem`, and the random choices. -/
structure SaveArgs where
  targetRangeDense : UInt16
  attrWriter : Option AttrWriter
  shuffle : Nat → Shuffle

/-- The metadata of a quantizer in their file. -/
structure RabitqMetadata where
  dim : Nat
  paddedDim : Nat
  vectorSize : Nat
deriving DecidableEq, Repr

/-- The files of an index. -/
structure IndexFiles where
  index : File
  rabitq : Option RabitqMetadata
  tags : Option (List Nat)

/-- `kTargetBatchBytes`. -/
def kTargetBatchBytes : Nat := 64 * 2 ^ 20

namespace SsdMetadata
variable (m : SsdMetadata)

def batchUnits : Nat := max 1 (kTargetBatchBytes / m.ioSizeDense)

/-- The locations of the batch that begins at `loc`. -/
def curNodes (loc : Nat) : Nat := min (m.batchUnits * m.nodesPerIo) (m.npoints - loc)

/-- The bytes of a batch of so many locations. -/
def batchBytes (curNodes : Nat) : Nat := divRoundUp curNodes m.nodesPerIo * m.ioSizeDense

/-- The record of the `i`-th location of a batch in the buffer. -/
def bufNode (ty : ElemType) (loc i : Nat) : DiskNodeRef :=
  DiskNodeRef.mkNode ty m (i / m.nodesPerIo * m.ioSizeDense) (loc + i)

end SsdMetadata

/-! ## `save_from_mem` -/

namespace GraphIndex
variable (ty : ElemType) (idx : GraphIndex) (args : SaveArgs)

/-- `attr_size`. -/
def attrSize : Nat := (args.attrWriter.map AttrWriter.attrSize).getD 0

/-- `vec_bytes`. -/
def vecBytes (vt : VectorType) : Nat :=
  match vt with
  | .raw => idx.dim * ty.size
  | .rabitq8 => roundUp idx.dataSize 4

/-- The metadata of the file for vectors of a type, before `init_temporary_fields`. -/
def storedMetadata (vt : VectorType) : SsdMetadata :=
  let rangeDense := max args.targetRangeDense.toNat idx.range.toNat
  let maxNodeLen := (rangeDense + 1) * 4 + idx.vecBytes ty vt + attrSize args
  { npoints := idx.core.vectors.length
    dataDim := idx.dim
    entryPoint := idx.ep.toNat
    maxNodeLen := maxNodeLen
    nnodesPerSector := sectorLen / maxNodeLen
    nptsCurShard := idx.core.vectors.length
    attrSize := attrSize args
    range := idx.range.toNat
    rOod := idx.rOod.toNat
    vectorType := vt }

def metadata (vt : VectorType) : Option SsdMetadata :=
  (idx.storedMetadata ty args vt).initTemporaryFields ty

/-- What goes to the record of a location. -/
def nodeData (m : SsdMetadata) (gl : Nat) : NodeData where
  vec := idx.core.vectors.getD gl []
  nbrs := (idx.graph.getD gl []).take m.range
  attrs := (args.attrWriter.map fun w => w.write gl).getD []
  dense :=
    if m.range < m.rangeDense then
      sampleTwoHopNbrs (args.shuffle gl) (UInt32.ofNat gl) (m.rangeDense - m.range) fun id =>
        idx.graph.getD id.toNat []
    else []

/-- The writes of the loop body to the buffer, in their order. -/
def fieldWrites (node : DiskNodeRef) (data : NodeData) : List (Nat × List UInt8) :=
  [(node.coords, data.vec), (node.nnbrs, le 2 data.nbrs.length), (node.nbrs, wordBytes data.nbrs),
    (node.denseNbrs, wordBytes data.dense), (node.nDenseNbrs, le 2 data.dense.length),
    (node.attrs, data.attrs)]

/-- The loop body for the `i`-th location of a batch. -/
def putNode (m : SsdMetadata) (loc : Nat) (buf : Image) (i : Nat) : Image :=
  buf.writeAll (fieldWrites (m.bufNode ty loc i) (idx.nodeData args m (loc + i)))

/-- The buffer of a batch. -/
def batchImage (m : SsdMetadata) (loc : Nat) (buf : Image) : Image :=
  (List.range (m.curNodes loc)).foldl (idx.putNode ty args m loc)
    (buf.write 0 (List.replicate (m.batchBytes (m.curNodes loc)) 0))

/-- The loop of `save_from_mem` from a location on.  Every batch has a location, so that there are
no more batches than locations. -/
def saveLoop (m : SsdMetadata) : Nat → Nat → Image → File → File
  | 0, _, _, f => f
  | fuel + 1, loc, buf, f =>
    if loc < m.npoints then
      let buf := idx.batchImage ty args m loc buf
      saveLoop m fuel (loc + m.curNodes loc) buf
        (f.pwrite (buf.read 0 (m.batchBytes (m.curNodes loc))) (m.locSectorNo loc * sectorLen))
    else f

/-- `save_from_mem`.  `old` are the files that are there, `buf` is the allocated buffer. -/
def saveFromMem (old : IndexFiles) (buf : Image) : Option IndexFiles :=
  idx.name.vectorType.bind fun vt =>
    (idx.metadata ty args vt).map fun m =>
      { index := idx.saveLoop ty args m m.npoints 0 buf (m.saveToDiskIndex .empty)
        rabitq := if vt = .rabitq8 then
            some ⟨idx.dim, rabitqPadDim idx.dim, rabitqVectorSize idx.dim⟩
          else old.rabitq
        tags := idx.core.saveTags }

/-! ## `load_to_mem` -/

/-- `load_metadata`: the dimension of the quantizer. -/
def loadRabitq (file : Option RabitqMetadata) : Option Nat :=
  file.bind fun q =>
    if q.dim = 0 ∨ 1048576 < q.dim ∨ q.paddedDim ≠ rabitqPadDim q.dim ∨
      q.vectorSize ≠ rabitqVectorSize q.dim then none else some q.dim

/-- The dimension of the vectors that are loaded and their size. -/
def loadVectors (m : SsdMetadata) (rabitq : Option RabitqMetadata) : Option (Nat × Nat) :=
  match m.vectorType with
  | .raw => some (m.dataDim, m.dataDim * ty.size)
  | .rabitq8 => (loadRabitq rabitq).map fun dim => (dim, rabitqVectorSize dim)

/-- What the loop body takes from the buffer for the `i`-th location of a batch. -/
def getNode (m : SsdMetadata) (dataSize loc : Nat) (buf : Image) (i : Nat) :
    List UInt8 × List UInt32 :=
  let node := m.bufNode ty loc i
  (buf.read node.coords dataSize, node.getNbrs buf)

/-- The loop of `load_to_mem` from a location on: the vectors and their neighbours. -/
def loadLoop (m : SsdMetadata) (dataSize : Nat) (f : File) :
    Nat → Nat → Image → List (List UInt8 × List UInt32)
  | 0, _, _ => []
  | fuel + 1, loc, buf =>
    if loc < m.npoints then
      let buf := buf.write 0 (f.pread (m.batchBytes (m.curNodes loc))
        (m.locSectorNo loc * sectorLen))
      (List.range (m.curNodes loc)).map (getNode ty m dataSize loc buf) ++
        loadLoop m dataSize f fuel (loc + m.curNodes loc) buf
    else []

/-- `Index(meta, vectors)`, with the graph and the tags that are loaded. -/
def ofMetadata (m : SsdMetadata) (dim dataSize : Nat) (nodes : List (List UInt8 × List UInt32))
    (tags : Option (List Nat)) : GraphIndex where
  name := .ofVectorType m.vectorType
  dim := dim
  dataSize := dataSize
  core := ⟨nodes.map Prod.fst, MemIndex.loadTags m.npoints tags, []⟩
  graph := nodes.map Prod.snd
  range := UInt16.ofNat m.range
  rOod := UInt16.ofNat m.rOod
  ep := UInt32.ofNat m.entryPoint

/-- `load_to_mem`. -/
def loadToMem (files : IndexFiles) (buf : Image) : Option GraphIndex :=
  (SsdMetadata.loadFromDiskIndex ty files.index).bind fun m =>
    (loadVectors ty m files.rabitq).map fun (dim, dataSize) =>
      ofMetadata m dim dataSize (loadLoop ty m dataSize files.index m.npoints 0 buf) files.tags

end GraphIndex
end PipeANN
