import Mathlib.Data.Prod.Lex
import PipeANN.IndexRoundTrip
import PipeANN.SortedLists

/-! # Merging the shards of an index

`merge_shards` (`index_build_utils.cpp`) makes one index file from the index files of several
shards.  A shard has the global ids of its locations in ascending order, and an id may be in
several shards.  The pairs of an id and a shard are sorted; for each the next record of the shard
is read, and its neighbours, renamed, go to three lists without repetition.  When the id changes,
the record of the last one is made from the lists and written to a buffer of one sector or one
record, which goes to the file when it is full.

A write outside the buffer is an error of the model.  The streams for reading and writing are
modelled by their positions; the choices of `std::shuffle` are open.
-/
namespace PipeANN
open List Function ByteImages SortedLists SsdMetadata Nat DiskNodeRef

/-- `bytes_per_read` and `bytes_per_write`. -/
def SsdMetadata.unitBytes (m : SsdMetadata) : Nat :=
  if 0 < m.nnodesPerSector then sectorLen else roundUp m.maxNodeLen sectorLen

/-! ## Shards -/

/-- The index file of a shard, its id map, and what the records hold. -/
structure Shard (ty : ElemType) where
  metadata : SsdMetadata
  image : Image
  idmap : List UInt32
  nodes : List NodeData
  packed : metadata.Packed ty
  length_nodes : nodes.length = idmap.length
  fits : ∀ d ∈ nodes, d.Fits ty metadata
  vec_length : ∀ d ∈ nodes, d.vec.length = metadata.vectorLen ty
  held : ∀ (i : Nat) (d : NodeData), nodes[i]? = some d →
    d.HeldAt ty metadata image (metadata.nodeAddr i)
  ascending : (idmap.map UInt32.toNat).Pairwise (· < ·)
  /-- The lists have locations of the shard, and not the node itself. -/
  selfFree : ∀ (i : Nat) (d : NodeData), nodes[i]? = some d →
    ∀ x ∈ d.nbrs ++ d.dense, x.toNat < idmap.length ∧ x.toNat ≠ i

/-- `ShardReader`: the position in the file, the buffer and the next record in it. -/
structure ShardReader where
  pos : Nat
  buf : Image
  curInBuf : Nat

/-- The three lists of a node. -/
inductive NhoodKind where
  | oneHop
  | ood
  | dense
deriving DecidableEq

/-- `nhood`.  A set `nhood_set` has the elements of its list. -/
abbrev Nhoods := NhoodKind → List UInt32

/-- An element is added to a list if it is new. -/
def Nhoods.add (nhood : Nhoods) (x : NhoodKind × UInt32) : Nhoods :=
  if x.2 ∈ nhood x.1 then nhood else update nhood x.1 (nhood x.1 ++ [x.2])

namespace Shard
variable {ty : ElemType} (s : Shard ty)

/-- The global ids. -/
def ids : List Nat := s.idmap.map UInt32.toNat

def bytesPerRead : Nat := s.metadata.unitBytes

/-- A reader at the beginning, for which nothing has been read. -/
def openReader : ShardReader := ⟨sectorLen, fun _ => 0, s.metadata.nodesPerIo⟩

/-- The next sectors are read if the buffer is used up. -/
def fill (r : ShardReader) : ShardReader :=
  if s.metadata.nodesPerIo ≤ r.curInBuf then
    ⟨r.pos + s.bytesPerRead, r.buf.write 0 (s.image.read r.pos s.bytesPerRead), 0⟩
  else r

/-- The next record in the buffer. -/
def shardNode (r : ShardReader) : DiskNodeRef := .mkNode ty s.metadata 0 r.curInBuf

def renamed (x : UInt32) : UInt32 := s.idmap.getD x.toNat 0

/-- What a record adds to the lists.  The last `shard_R_ood` neighbours are those for queries from
elsewhere. -/
def found (shardROod : Nat) (nbrs dense : List UInt32) : List (NhoodKind × UInt32) :=
  nbrs.zipIdx.map (fun p => (if (p.2 : Int) < nbrs.length - shardROod then .oneHop else .ood,
    s.renamed p.1)) ++ dense.map fun x => (.dense, s.renamed x)

end Shard

/-! ## The list of a node -/

/-- The loop that fills up with dense neighbours. -/
def fillDense (oneHop : List UInt32) (rDense : Nat) : List UInt32 → List UInt32 → List UInt32
  | [], final => final
  | nbr :: dense, final =>
    if final.length < rDense then
      fillDense oneHop rDense dense (if nbr ∈ oneHop then final else final ++ [nbr])
    else final

/-- The loop that overwrites the last places of the list. -/
def overwriteOod (known : List UInt32) (rOod nnbrs : Nat) :
    List UInt32 → Nat → List UInt32 → List UInt32
  | [], _, final => final
  | nbr :: ood, n, final =>
    if n < rOod ∧ n < nnbrs then
      if nbr ∈ known then overwriteOod known rOod nnbrs ood n final
      else overwriteOod known rOod nnbrs ood (n + 1) (final.set (nnbrs - 1 - n) nbr)
    else final

/-- The arguments of `merge_shards`, with the vectors of the global ids. -/
structure ShardMerge (ty : ElemType) where
  first : Shard ty
  others : List (Shard ty)
  R : UInt16
  targetRDense : UInt16
  rOod : UInt16
  attrWriter : Option AttrWriter
  shuffle : Nat → NhoodKind → Shuffle
  vector : Nat → List UInt8
  /-- The node that the search of the merged index starts from is in the first shard. -/
  entryPoint_lt : first.metadata.entryPoint < first.idmap.length
  /-- The shards have vectors of the same kind. -/
  compatible : ∀ s ∈ others, s.metadata.vectorLen ty = first.metadata.vectorLen ty ∧
    s.metadata.vectorType = first.metadata.vectorType
  vector_eq : ∀ s ∈ first :: others, ∀ (i : Nat) (d : NodeData) (g : Nat),
    s.nodes[i]? = some d → s.ids[i]? = some g → d.vec = vector g
  /-- Every id up to the largest is in a shard. -/
  covering : ∀ s ∈ first :: others, ∀ g ∈ s.ids, ∀ id < g, ∃ s' ∈ first :: others, id ∈ s'.ids

/-- The variables of the loop.  `out` is written at its end. -/
structure MergeState where
  curId : Nat
  readers : Nat → ShardReader
  nhood : Nhoods
  coordBuf : List UInt8
  sectorBuf : Image
  curSectorStart : Nat
  out : File

namespace ShardMerge
variable {ty : ElemType} (c : ShardMerge ty)

def shards : List (Shard ty) := c.first :: c.others

/-- `R_dense`. -/
def rDense : Nat := max c.targetRDense.toNat c.R.toNat

def shardROod : Nat := 2 * c.rOod.toNat / 3

/-- `nnodes`. -/
def nnodes : Nat := (c.shards.flatMap Shard.ids).foldl max 0 + 1

/-- The global ids of the `k`-th shard. -/
def idsAt (k : Nat) : List Nat := ((c.shards[k]?).map Shard.ids).getD []

/-- `node_shard` before it is sorted. -/
def pairs : List (Nat × Nat) :=
  (List.range c.shards.length).flatMap fun k => (c.idsAt k).map fun g => (g, k)

/-- `node_shard`. -/
def nodeShard : List (Nat × Nat) := ((c.pairs.map toLex).insertionSort (· ≤ ·)).map ofLex

/-! ## The new file -/

def attrSize : Nat := (c.attrWriter.map AttrWriter.attrSize).getD 0

/-- The metadata, before `init_temporary_fields`. -/
def storedMetadata : SsdMetadata :=
  let maxNodeLen := (c.rDense + 1) * 4 + c.first.metadata.vectorLen ty + c.attrSize
  { npoints := c.nnodes
    dataDim := c.first.metadata.dataDim
    entryPoint := (c.first.idmap.getD c.first.metadata.entryPoint 0).toNat
    maxNodeLen := maxNodeLen
    nnodesPerSector := sectorLen / maxNodeLen
    nptsCurShard := c.nnodes
    attrSize := c.attrSize
    range := c.R.toNat
    rOod := c.rOod.toNat
    vectorType := c.first.metadata.vectorType }

def outMeta : Option SsdMetadata := c.storedMetadata.initTemporaryFields ty

variable (g : Nat) (nhood : Nhoods)

/-- `final_nhood` before the last places are overwritten. -/
def baseNhood : List UInt32 :=
  fillDense (nhood .oneHop) c.rDense ((c.shuffle g .dense).run (nhood .dense))
    (((c.shuffle g .oneHop).run (nhood .oneHop)).take c.rDense)

/-- `nnbrs`. -/
def nnbrs : Nat := min c.R.toNat (c.baseNhood g nhood).length

/-- `final_nhood`. -/
def finalNhood : List UInt32 :=
  overwriteOod (nhood .oneHop ++ nhood .dense) c.rOod.toNat (c.nnbrs g nhood)
    ((c.shuffle g .ood).run (nhood .ood)) 0 (c.baseNhood g nhood)

/-- What goes to the record of an id. -/
def nodeData (g : Nat) (coords : List UInt8) (nhood : Nhoods) : NodeData where
  vec := coords
  nbrs := (c.finalNhood g nhood).take (c.nnbrs g nhood)
  attrs := (c.attrWriter.map fun w => w.write g).getD []
  dense := (c.finalNhood g nhood).drop (c.nnbrs g nhood)

/-- The writes to a record, in their order. -/
def recordWrites (node : DiskNodeRef) (data : NodeData) : List (Nat × List UInt8) :=
  [(node.coords, data.vec), (node.nnbrs, le 2 data.nbrs.length),
    (node.nDenseNbrs, le 2 data.dense.length), (node.nbrs, wordBytes data.nbrs),
    (node.denseNbrs, wordBytes data.dense), (node.attrs, data.attrs)]

/-- The record of an id in the buffer.  The writes must be inside the buffer. -/
def putRecord (ty : ElemType) (m : SsdMetadata) (g : Nat) (data : NodeData) (buf : Image) :
    Option Image :=
  let node := mkNode ty m 0 g
  if ∀ w ∈ recordWrites node data, w.1 + w.2.length ≤ m.unitBytes then
    some (buf.writeAll (recordWrites node data))
  else none

variable (m : SsdMetadata) (st : MergeState)

/-- The buffer is written and cleared when the next record is not in it. -/
def flush (g : Nat) : MergeState :=
  let sectorStart := g / m.nodesPerIo * m.nodesPerIo
  if sectorStart ≠ st.curSectorStart then
    { st with
      out := st.out.pwrite (st.sectorBuf.read 0 m.unitBytes) st.out.size
      sectorBuf := st.sectorBuf.write 0 (List.replicate m.unitBytes 0)
      curSectorStart := sectorStart }
  else st

/-- `finalize_node`. -/
def finalizeNode (g : Nat) : Option MergeState :=
  let st := flush m st g
  (putRecord ty m g (c.nodeData g st.coordBuf st.nhood) st.sectorBuf).map fun buf =>
    { st with sectorBuf := buf, nhood := fun _ => [] }

/-! ## The loop -/

/-- The last record is made when the id changes. -/
def advance (g : Nat) : Option MergeState :=
  if g ≠ st.curId then (c.finalizeNode m st st.curId).map fun st => { st with curId := g }
  else some st

/-- The next record of a shard is read. -/
def consume (st : MergeState) (k : Nat) (s : Shard ty) : MergeState :=
  let r := s.fill (st.readers k)
  let node := s.shardNode r
  { st with
    readers := update st.readers k { r with curInBuf := r.curInBuf + 1 }
    coordBuf := r.buf.read node.coords (c.first.metadata.vectorLen ty)
    nhood := (s.found c.shardROod (node.getNbrs r.buf) (node.getDenseNbrs r.buf)).foldl Nhoods.add
      st.nhood }

def step (p : Nat × Nat) : Option MergeState :=
  (c.advance m st p.1).bind fun st =>
    (c.shards[p.2]?).map fun s => c.consume st p.2 s

def initial : MergeState where
  curId := 0
  readers k := ((c.shards[k]?).map Shard.openReader).getD ⟨0, fun _ => 0, 0⟩
  nhood _ := []
  coordBuf := List.replicate (c.first.metadata.vectorLen ty) 0
  sectorBuf _ := 0
  curSectorStart := 0
  out := File.empty.pwrite (List.replicate sectorLen 0) 0

/-- `merge_shards`: the metadata and the file. -/
def run : Option (SsdMetadata × File) :=
  if ∀ s ∈ c.shards, s.metadata.vectorLen ty = c.first.metadata.vectorLen ty ∧
      s.metadata.vectorType = c.first.metadata.vectorType then
    c.outMeta.bind fun m =>
      (c.nodeShard.foldlM (c.step m) c.initial).bind fun st =>
        (c.finalizeNode m st st.curId).map fun st =>
          (m, m.saveToDiskIndex
            (st.out.pwrite (st.sectorBuf.read 0 m.unitBytes) st.out.size))
  else none

/-! ## What should hold -/

/-- The record of an id in the new file. -/
structure RecordOk (m : SsdMetadata) (image : Image) (g : Nat) : Prop where
  vector : image.read (m.nodeAddr g) (m.vectorLen ty) = c.vector g
  nodup : ((ofAddr ty m (m.nodeAddr g)).getNbrs image).Nodup
  selfFree : ∀ x ∈ (ofAddr ty m (m.nodeAddr g)).getNbrs image, x.toNat ≠ g
  id_lt : ∀ x ∈ (ofAddr ty m (m.nodeAddr g)).getNbrs image, x.toNat < c.nnodes
  length_le : ((ofAddr ty m (m.nodeAddr g)).getNbrs image).length ≤ c.R.toNat
  total_le : ((ofAddr ty m (m.nodeAddr g)).getNbrs image).length +
    ((ofAddr ty m (m.nodeAddr g)).getDenseNbrs image).length ≤ c.rDense

/-- **What the merge should write**: a record for every id at its location, and nothing more. -/
structure Merged (m : SsdMetadata) (f : File) : Prop where
  npoints : m.npoints = c.nnodes
  size : f.size = sectorLen + divRoundUp c.nnodes m.nodesPerIo * m.ioSizeDense
  record : ∀ g < c.nnodes, c.RecordOk m f.image g

/-- The neighbours of an id in all its shards, without those for queries from elsewhere. -/
def neighbours (g : Nat) : List UInt32 :=
  (c.shards.flatMap fun s => (s.nodes.zip s.ids).flatMap fun p =>
    if p.2 = g then
      (p.1.nbrs.take (p.1.nbrs.length - c.shardROod) ++ p.1.dense).map s.renamed
    else []).dedup

/-- There is room for the neighbours of every id between the end of its record and the end of the
buffer. -/
def RoomBehind : Prop := ∀ g < c.nnodes,
  c.storedMetadata.slotOff g + c.storedMetadata.maxNodeLen +
    4 * min c.rDense (c.neighbours g).length ≤ c.storedMetadata.unitBytes

end ShardMerge

/-! ## The readers -/

theorem SsdMetadata.unitBytes_eq (m : SsdMetadata) : m.unitBytes = m.ioSizeDense := by
  rw [unitBytes, ioSizeDense, roundUp, divRoundUp]
  split
  · rw [mul_one]
  · rw [mul_comm]

theorem SsdMetadata.Packed.nodesPerIo_le {ty : ElemType} {m : SsdMetadata} (h : m.Packed ty) :
    m.nodesPerIo ≤ sectorLen := by
  rw [nodesPerIo, h.perSector]
  split
  · exact div_le_self _ _
  · decide

namespace Shard
variable {ty : ElemType} (s : Shard ty)

/-- So many records have been read: the buffer is the unit of the last one. -/
def At (k : Nat) (r : ShardReader) : Prop :=
  ∃ q, r.pos = sectorLen + q * s.metadata.ioSizeDense ∧
    0 < r.curInBuf ∧ r.curInBuf ≤ s.metadata.nodesPerIo ∧
    k + s.metadata.nodesPerIo = q * s.metadata.nodesPerIo + r.curInBuf ∧
    (0 < q → ∀ a < s.metadata.ioSizeDense,
      r.buf a = s.image (sectorLen + (q - 1) * s.metadata.ioSizeDense + a))

theorem at_openReader : s.At 0 s.openReader := by
  refine ⟨0, ?_, s.metadata.nodesPerIo_pos, le_rfl, ?_, fun h => absurd h (lt_irrefl _)⟩
  · rw [Nat.zero_mul]
    rfl
  · rw [Nat.zero_mul]
    rfl

variable {s} {r : ShardReader}

/-- The next record is in the buffer. -/
theorem At.fill {k : Nat} (h : s.At k r) : (s.fill r).curInBuf = k % s.metadata.nodesPerIo ∧
      (∀ a < s.metadata.ioSizeDense, (s.fill r).buf a =
        s.image (sectorLen + k / s.metadata.nodesPerIo * s.metadata.ioSizeDense + a)) ∧
      s.At (k + 1) { s.fill r with curInBuf := (s.fill r).curInBuf + 1 } := by
  obtain ⟨q, hpos, hcur, hle, hk, hbuf⟩ := h
  have hper := s.metadata.nodesPerIo_pos
  unfold Shard.fill
  by_cases hfull : s.metadata.nodesPerIo ≤ r.curInBuf
  · have hk : k = s.metadata.nodesPerIo * q := by
      rw [mul_comm] at hk
      omega
    have hblock : ∀ a < s.metadata.ioSizeDense,
        r.buf.write 0 (s.image.read r.pos s.bytesPerRead) a =
          s.image (sectorLen + q * s.metadata.ioSizeDense + a) := by
      intro a ha
      have hlen : a < s.bytesPerRead := by rwa [bytesPerRead, unitBytes_eq]
      have hget := r.buf.write_read_apply 0 s.image r.pos hlen
      rw [zero_add] at hget
      rw [hget, hpos]
    rw [if_pos hfull, hk, Nat.mul_div_cancel_left _ hper, Nat.mul_mod_right]
    refine ⟨rfl, hblock, q + 1, ?_, one_pos, hper, ?_, fun _ => hblock⟩
    · rw [hpos, bytesPerRead, unitBytes_eq, succ_mul, add_assoc]
    · dsimp only
      rw [succ_mul]
      omega
  · have hq : 0 < q := by
      refine Nat.pos_of_ne_zero fun hzero => ?_
      rw [hzero] at hk
      omega
    obtain ⟨q, rfl⟩ := exists_eq_succ_of_ne_zero hq.ne'
    have hk : k = r.curInBuf + s.metadata.nodesPerIo * q := by
      rw [succ_mul, mul_comm] at hk
      omega
    have hlt := not_le.mp hfull
    rw [if_neg hfull, hk, add_mul_mod_self_left, mod_eq_of_lt hlt,
      add_mul_div_left _ _ hper, div_eq_of_lt hlt, zero_add]
    refine ⟨rfl, hbuf hq, q + 1, hpos, succ_pos _, hlt, ?_, hbuf⟩
    dsimp only
    rw [succ_mul, mul_comm q]
    omega

/-- The next record that is read is that of the next location. -/
theorem At.held {k : Nat} {d : NodeData} (h : s.At k r) (hd : s.nodes[k]? = some d) :
    d.HeldAt ty s.metadata (s.fill r).buf (s.shardNode (s.fill r)).coords := by
  obtain ⟨hcur, hbuf, -⟩ := h.fill
  have hslot := s.packed.slotOff_add_le k
  have hlt := mod_lt k s.metadata.nodesPerIo_pos
  have hle := s.packed.nodesPerIo_le
  have hsmall : k % s.metadata.nodesPerIo < 2 ^ 32 := by
    rw [sectorLen] at hle
    omega
  have haddr : (s.shardNode (s.fill r)).coords = s.metadata.slotOff k := by
    show 0 + s.metadata.slotOff ((s.fill r).curInBuf % 2 ^ 32) = _
    rw [hcur, mod_eq_of_lt hsmall, zero_add, slotOff_eq, slotOff_eq, mod_mod]
  rw [haddr]
  refine (s.held k d hd).copy s.packed (s.fits d (mem_of_getElem? hd)) fun a ha => ?_
  rw [hbuf _ (by omega), nodeAddr, locSectorNo_eq, add_assoc, add_assoc, add_assoc]

end Shard

/-! ## Lists without repetition -/

namespace Nhoods

theorem add_apply (nhood : Nhoods) (p : NhoodKind × UInt32) (kind : NhoodKind) : nhood.add p kind =
    if kind = p.1 ∧ p.2 ∉ nhood kind then nhood kind ++ [p.2] else nhood kind := by
  unfold add
  by_cases hkind : kind = p.1
  · subst hkind
    by_cases hold : p.2 ∈ nhood p.1 <;> simp [hold]
  · split <;> simp [hkind]

variable {nhood : Nhoods} {l : List (NhoodKind × UInt32)} {kind : NhoodKind}

theorem mem_add {p : NhoodKind × UInt32} {x : UInt32} :
    x ∈ nhood.add p kind ↔ x ∈ nhood kind ∨ (kind, x) = p := by
  rw [add_apply]
  split
  · next h => simp [Prod.ext_iff, h.1]
  · next h =>
    refine (or_iff_left_of_imp ?_).symm
    rintro rfl
    exact not_not.mp fun hnew => h ⟨rfl, hnew⟩

theorem nodup_add (h : ∀ kind, (nhood kind).Nodup) (p : NhoodKind × UInt32)
    (kind : NhoodKind) : (nhood.add p kind).Nodup := by
  rw [add_apply]
  split
  · next hnew =>
    exact (h kind).append (nodup_singleton _) fun x hx hx' => hnew.2 (mem_singleton.mp hx' ▸ hx)
  · exact h kind

theorem mem_foldl_add
    {x : UInt32} : x ∈ l.foldl add nhood kind ↔ x ∈ nhood kind ∨ (kind, x) ∈ l := by
  induction l generalizing nhood with
  | nil => exact (or_iff_left not_mem_nil).symm
  | cons p l ih => rw [foldl_cons, ih, mem_add, mem_cons, or_assoc]

end Nhoods

/-! ## The list of a node -/

/-- The list is filled up with the first dense neighbours that are not in the other list. -/
theorem fillDense_eq (oneHop : List UInt32) (rDense : Nat) (dense final : List UInt32) :
    fillDense oneHop rDense dense final =
      final ++ (dense.filter (· ∉ oneHop)).take (rDense - final.length) := by
  fun_induction fillDense oneHop rDense dense final with
  | case1 => simp
  | case2 nbr dense final hroom ih =>
    rw [ih]
    split
    · next hold => rw [filter_cons_of_neg (by simpa using hold)]
    · next hnew =>
      obtain ⟨k, hk⟩ : ∃ k, rDense - final.length = k + 1 := ⟨rDense - final.length - 1, by omega⟩
      rw [filter_cons_of_pos (by simpa using hnew), append_assoc,
        length_append, sub_add_eq, hk]
      rfl
  | case3 nbr dense final hfull => simp [Nat.sub_eq_zero_of_le (not_lt.mp hfull)]

/-- A list whose last places are overwritten. -/
theorem overwriteOod_spec {known : List UInt32} {rOod nnbrs : Nat} {ood : List UInt32}
    (hood : ood.Nodup) {n : Nat} {final : List UInt32} (hnd : final.Nodup)
    (hnew : ∀ x ∈ ood, x ∉ known → x ∉ final) :
    (overwriteOod known rOod nnbrs ood n final).Nodup ∧
      (overwriteOod known rOod nnbrs ood n final).length = final.length ∧
      ∀ x ∈ overwriteOod known rOod nnbrs ood n final, x ∈ final ∨ x ∈ ood := by
  fun_induction overwriteOod known rOod nnbrs ood n final with
  | case1 => exact ⟨hnd, rfl, fun x => .inl⟩
  | case2 nbr ood n final _ _ ih =>
    obtain ⟨h₁, h₂, h₃⟩ := ih (nodup_cons.mp hood).2 hnd fun x hx => hnew x (mem_cons_of_mem _ hx)
    exact ⟨h₁, h₂, fun x hx => (h₃ x hx).imp id (mem_cons_of_mem _)⟩
  | case3 nbr ood n final _ hold ih =>
    obtain ⟨hnbr, hood⟩ := nodup_cons.mp hood
    have hrest : ∀ x ∈ ood, x ∉ known → x ∉ final.set (nnbrs - 1 - n) nbr := by
      intro x hx hno hmem
      rcases mem_or_eq_of_mem_set hmem with hmem | rfl
      · exact hnew x (mem_cons_of_mem _ hx) hno hmem
      · exact hnbr hx
    obtain ⟨h₁, h₂, h₃⟩ := ih hood (hnd.set (hnew nbr mem_cons_self hold)) hrest
    refine ⟨h₁, h₂.trans (length_set ..), fun x hx => ?_⟩
    rcases h₃ x hx with hx | hx
    · exact (mem_or_eq_of_mem_set hx).imp id fun h => mem_cons.mpr (.inl h)
    · exact .inr (mem_cons_of_mem _ hx)
  | case4 => exact ⟨hnd, rfl, fun x => .inl⟩

namespace ShardMerge
variable {ty : ElemType} (c : ShardMerge ty) (g : Nat) {nhood : Nhoods}

theorem length_baseNhood : (c.baseNhood g nhood).length =
    min c.rDense ((nhood .oneHop).length + ((nhood .dense).filter (· ∉ nhood .oneHop)).length) := by
  have hone := (c.shuffle g .oneHop).perm (nhood .oneHop)
  have hdense := (c.shuffle g .dense).perm (nhood .dense)
  rw [baseNhood, fillDense_eq, length_append, length_take, length_take, hone.length_eq,
    (hdense.filter _).length_eq]
  omega

variable (hnd : ∀ kind, (nhood kind).Nodup)
include hnd

theorem baseNhood_spec : (c.baseNhood g nhood).Nodup ∧ (c.baseNhood g nhood).length ≤ c.rDense ∧
    ∀ x ∈ c.baseNhood g nhood, x ∈ nhood .oneHop ++ nhood .dense := by
  have hone := (c.shuffle g .oneHop).perm (nhood .oneHop)
  have hdense := (c.shuffle g .dense).perm (nhood .dense)
  have hle := @length_baseNhood ty c g nhood
  rw [baseNhood, fillDense_eq] at hle ⊢
  refine ⟨Nodup.append ?_ ?_ fun x hx hx' => ?_, by omega, fun x hx => ?_⟩
  · exact (take_sublist _ _).nodup (hone.nodup_iff.mpr (hnd .oneHop))
  · exact (take_sublist _ _).nodup ((hdense.nodup_iff.mpr (hnd .dense)).filter _)
  · exact of_decide_eq_true (mem_filter.mp (mem_of_mem_take hx')).2
      (hone.mem_iff.mp (mem_of_mem_take hx))
  · rcases mem_append.mp hx with hx | hx
    · exact mem_append_left _ (hone.mem_iff.mp (mem_of_mem_take hx))
    · exact mem_append_right _ (hdense.mem_iff.mp (mem_filter.mp (mem_of_mem_take hx)).1)

/-- **The list of a node**: no repetition, not too long, and from its three lists. -/
theorem finalNhood_spec : (c.finalNhood g nhood).Nodup ∧
    (c.finalNhood g nhood).length = (c.baseNhood g nhood).length ∧
    ∀ x ∈ c.finalNhood g nhood, ∃ kind, x ∈ nhood kind := by
  have hood := (c.shuffle g .ood).perm (nhood .ood)
  obtain ⟨hbase, -, hfrom⟩ := c.baseNhood_spec g hnd
  obtain ⟨h₁, h₂, h₃⟩ := @overwriteOod_spec (nhood .oneHop ++ nhood .dense) c.rOod.toNat
    (c.nnbrs g nhood) _ (hood.nodup_iff.mpr (hnd .ood)) 0 _ hbase
    fun x _ hno hmem => hno (hfrom x hmem)
  refine ⟨h₁, h₂, fun x hx => ?_⟩
  rcases h₃ x hx with hx | hx
  · exact (mem_append.mp (hfrom x hx)).elim (fun h => ⟨_, h⟩) fun h => ⟨_, h⟩
  · exact ⟨_, hood.mem_iff.mp hx⟩

end ShardMerge

end PipeANN
