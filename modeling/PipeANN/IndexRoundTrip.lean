import PipeANN.IndexFiles

/-! # A saved index comes back

A batch leaves every record at its own address in the buffer (`held_batchImage`), and `pwrite`
takes it to its address in the file, which does not depend on the batch.  The batches before are
left alone, so that the file has all records in the end (`Saved`).  The reader takes them from
there, in batches again (`loadLoop_eq`).

A load gives back the vectors, the entry point and the neighbours as far as a record has room for
them, and, if no point has been deleted, the tags (`loadToMem_saveFromMem`).
-/
namespace PipeANN
open List ByteImages SsdMetadata DiskNodeRef Nat
open Option (getD_some map_some bind_some)

theorem NeighborName.ofVectorType_eq {name : NeighborName} {vt : VectorType}
    (h : name.vectorType = some vt) : ofVectorType vt = name := by
  cases name <;> cases h <;> rfl

/-! ## Batches -/

theorem divRoundUp_mono {a b : Nat} (h : a ≤ b) (c : Nat) : divRoundUp a c ≤ divRoundUp b c := by
  have hdiv := Nat.div_le_div_right (c := c) h
  unfold divRoundUp
  by_cases heq : a / c = b / c
  · have ha := div_add_mod a c
    have hb := div_add_mod b c
    rw [heq] at ha
    split
    · rw [if_pos (by omega)]
      omega
    · omega
  · split
    · omega
    · omega

/-- A position among the first `n` is in one of their units. -/
theorem div_lt_divRoundUp {c i n : Nat} (hc : 0 < c) (h : i < n) : i / c < divRoundUp n c := by
  have hn := Nat.div_add_mod n c
  unfold divRoundUp
  rw [Nat.div_lt_iff_lt_mul hc, Nat.add_mul, mul_comm]
  split
  · have := mod_lt n hc
    omega
  · omega

namespace SsdMetadata
variable {ty : ElemType} {m : SsdMetadata} {loc : Nat}

theorem curNodes_pos (h : loc < m.npoints) : 0 < m.curNodes loc := by
  have hunits : 0 < m.batchUnits := lt_of_lt_of_le Nat.one_pos (le_max_left ..)
  have hmul := Nat.mul_pos hunits m.nodesPerIo_pos
  unfold curNodes
  omega

theorem add_curNodes_le (h : loc < m.npoints) : loc + m.curNodes loc ≤ m.npoints := by
  unfold curNodes
  omega

/-- A batch that is not the last ends with a whole unit. -/
theorem dvd_add_curNodes (hdvd : m.nodesPerIo ∣ loc) (h : loc + m.curNodes loc < m.npoints) :
    m.nodesPerIo ∣ loc + m.curNodes loc := by
  have hcur : m.curNodes loc = m.batchUnits * m.nodesPerIo := by
    unfold curNodes at h ⊢
    omega
  rw [hcur]
  exact Nat.dvd_add hdvd (Nat.dvd_mul_left ..)

/-- Where the record of the `i`-th location of a batch is in the buffer. -/
def bufAddr (m : SsdMetadata) (loc i : Nat) : Nat :=
  i / m.nodesPerIo * m.ioSizeDense + m.slotOff (loc + i)

variable {i : Nat}

theorem bufNode_eq (h : loc + i < 2 ^ 32) : m.bufNode ty loc i = ofAddr ty m (m.bufAddr loc i) := by
  rw [bufNode, mkNode, Nat.mod_eq_of_lt h, bufAddr]

theorem Packed.bufAddr_add_le (hm : m.Packed ty) (hdvd : m.nodesPerIo ∣ loc) {j : Nat}
    (h : i < j) : m.bufAddr loc i + m.maxNodeLen ≤ m.bufAddr loc j := by
  have hadd := hm.nodeAddr_add_le (Nat.add_lt_add_left h loc)
  rw [nodeAddr_add m hdvd, nodeAddr_add m hdvd] at hadd
  unfold bufAddr
  omega

theorem Packed.bufAddr_add_le_batchBytes (hm : m.Packed ty) (loc : Nat) {n : Nat} (h : i < n) :
    m.bufAddr loc i + m.maxNodeLen ≤ m.batchBytes n := by
  have hslot := hm.slotOff_add_le (loc + i)
  have hunit := mul_le_mul_right m.ioSizeDense
    (succ_le_of_lt (div_lt_divRoundUp m.nodesPerIo_pos h))
  rw [succ_mul] at hunit
  unfold bufAddr batchBytes
  omega

/-- The end of the first `n` locations in the file. -/
def endOf (m : SsdMetadata) (n : Nat) : Nat :=
  sectorLen + divRoundUp n m.nodesPerIo * m.ioSizeDense

theorem endOf_mono {a b : Nat} (h : a ≤ b) : m.endOf a ≤ m.endOf b := by
  have := Nat.mul_le_mul_right m.ioSizeDense (divRoundUp_mono h m.nodesPerIo)
  unfold endOf
  omega

/-- A batch ends where its locations end. -/
theorem add_batchBytes (hdvd : m.nodesPerIo ∣ loc) (n : Nat) :
    m.locSectorNo loc * sectorLen + m.batchBytes n = m.endOf (loc + n) := by
  have hpos := m.nodesPerIo_pos
  obtain ⟨k, rfl⟩ := hdvd
  rw [locSectorNo_eq, endOf, batchBytes, divRoundUp, divRoundUp, Nat.mul_add_div hpos,
    Nat.mul_add_mod, Nat.mul_div_cancel_left k hpos, add_assoc k, Nat.add_mul k, add_assoc]

end SsdMetadata

/-! ## Writing -/

namespace GraphIndex
variable {ty : ElemType} {idx : GraphIndex} {args : SaveArgs} {m : SsdMetadata}

theorem length_sampleTwoHopNbrs_le (shuffle : Shuffle) (center : UInt32) (n : Nat)
    (getNbrs : UInt32 → List UInt32) : (sampleTwoHopNbrs shuffle center n getNbrs).length ≤ n := by
  unfold sampleTwoHopNbrs
  split
  · exact zero_le _
  · exact length_take_le ..

/-- The metadata are those of the index. -/
structure MetaOf (ty : ElemType) (idx : GraphIndex) (args : SaveArgs) (m : SsdMetadata) :
    Prop where
  packed : m.Packed ty
  npoints : m.npoints = idx.core.vectors.length
  dataDim : m.dataDim = idx.dim
  vectorLen : m.vectorLen ty = idx.dataSize
  attrSize : m.attrSize = attrSize args

section
variable (hlive : idx.Live ty) (hmeta : idx.MetaOf ty args m)
include hlive hmeta

theorem length_vec {gl : Nat} (h : gl < m.npoints) :
    (idx.nodeData args m gl).vec.length = idx.dataSize := by
  rw [hmeta.npoints] at h
  have hget : idx.core.vectors.getD gl [] = idx.core.vectors[gl] := by
    rw [getD_eq_getElem?_getD, getElem?_eq_getElem h, getD_some]
  show (idx.core.vectors.getD gl []).length = _
  rw [hget]
  exact hlive.record_length _ (getElem_mem h)

theorem fits_nodeData {gl : Nat} (h : gl < m.npoints) : (idx.nodeData args m gl).Fits ty m where
  vec := by rw [length_vec hlive hmeta h, hmeta.vectorLen]
  nbrs := length_take_le ..
  attrs := by
    rw [hmeta.attrSize, GraphIndex.attrSize]
    show ((args.attrWriter.map fun w => w.write gl).getD []).length ≤ _
    cases args.attrWriter with
    | none => exact le_rfl
    | some w => exact w.write_length gl
  dense := by
    unfold nodeData
    dsimp only
    split
    · exact length_sampleTwoHopNbrs_le ..
    · exact zero_le _

end

variable {data : NodeData}

/-- The fields of a record are apart. -/
theorem apart_fieldWrites (hfits : data.Fits ty m) (addr : Nat) :
    (fieldWrites (ofAddr ty m addr) data).Pairwise Image.Apart := by
  obtain ⟨hvec, hnbrs, hattrs, hdense⟩ := hfits
  simp only [fieldWrites, ofAddr, pairwise_cons, mem_cons, not_mem_nil,
    forall_eq_or_imp, Image.Apart, length_le, length_wordBytes,
    Pairwise.nil, false_imp_iff, implies_true, and_true]
  omega

section
variable (hm : m.Packed ty) (hfits : data.Fits ty m)
include hm hfits

/-- The fields of a record are within it. -/
theorem mem_fieldWrites {addr : Nat} {w : Nat × List UInt8}
    (hw : w ∈ fieldWrites (ofAddr ty m addr) data) :
    addr ≤ w.1 ∧ w.1 + w.2.length ≤ addr + m.maxNodeLen := by
  have hroom := hm.fits
  have hle := hm.range_le
  obtain ⟨hvec, hnbrs, hattrs, hdense⟩ := hfits
  simp only [fieldWrites, ofAddr, mem_cons, not_mem_nil, or_false] at hw
  rcases hw with rfl | rfl | rfl | rfl | rfl | rfl <;>
    simp only [length_le, length_wordBytes] <;> omega

omit hm in
/-- The fields of a record may be written in any order. -/
theorem held_of_perm {addr : Nat} {ws : List (Nat × List UInt8)}
    (hperm : ws.Perm (fieldWrites (ofAddr ty m addr) data)) (image : Image) :
    data.HeldAt ty m (image.writeAll ws) addr := by
  have hapart : ws.Pairwise Image.Apart :=
    (hperm.pairwise_iff fun hw => hw.symm).mpr (apart_fieldWrites hfits addr)
  have hread : ∀ w ∈ fieldWrites (ofAddr ty m addr) data,
      (image.writeAll ws).read w.1 w.2.length = w.2 :=
    fun w hw => image.read_writeAll hapart (hperm.mem_iff.mpr hw)
  simp only [fieldWrites, forall_mem_cons] at hread
  obtain ⟨hvec, hnnbrs, hnbrs, hdense, hnDense, hattrs, -⟩ := hread
  exact ⟨hvec, hnnbrs, hnDense, hnbrs, hattrs, hdense⟩

end

section
variable (hlive : idx.Live ty) (hmeta : idx.MetaOf ty args m) {loc : Nat}
include hlive hmeta

variable {i : Nat}

/-- The loop body leaves the bytes outside its record. -/
theorem putNode_of_outside {a : Nat} (hi : loc + i < m.npoints) (buf : Image)
    (ha : a < m.bufAddr loc i ∨ m.bufAddr loc i + m.maxNodeLen ≤ a) :
    idx.putNode ty args m loc buf i a = buf a := by
  have hlt : loc + i < 2 ^ 32 := lt_trans (hmeta.npoints ▸ hi) hlive.nd_lt
  rw [putNode, bufNode_eq hlt]
  refine buf.writeAll_of_outside fun w hw => ?_
  have := mem_fieldWrites hmeta.packed (fits_nodeData hlive hmeta hi) hw
  omega

theorem held_putNode (hi : loc + i < m.npoints) (buf : Image) :
    (idx.nodeData args m (loc + i)).HeldAt ty m (idx.putNode ty args m loc buf i)
      (m.bufAddr loc i) := by
  have hlt : loc + i < 2 ^ 32 := lt_trans (hmeta.npoints ▸ hi) hlive.nd_lt
  rw [putNode, bufNode_eq hlt]
  exact held_of_perm (fits_nodeData hlive hmeta hi) (Perm.refl _) _

/-- A batch leaves every record at its address in the buffer. -/
theorem held_batchImage (hdvd : m.nodesPerIo ∣ loc) (hloc : loc < m.npoints) (buf : Image)
    (hi : i < m.curNodes loc) :
    (idx.nodeData args m (loc + i)).HeldAt ty m (idx.batchImage ty args m loc buf)
      (m.bufAddr loc i) := by
  have hcur := add_curNodes_le hloc
  unfold batchImage
  generalize buf.write 0 _ = start
  -- induction on the number of records that are written
  suffices hk : ∀ k ≤ m.curNodes loc, ∀ i < k, (idx.nodeData args m (loc + i)).HeldAt ty m
      ((List.range k).foldl (idx.putNode ty args m loc) start) (m.bufAddr loc i) from
    hk _ le_rfl i hi
  intro k
  induction k with
  | zero =>
    intro _ i hi
    exact absurd hi (not_lt_zero i)
  | succ k ih =>
    intro hk i hi
    rw [range_succ, foldl_append, foldl_cons]
    rcases Nat.lt_succ_iff_lt_or_eq.mp hi with hlt | rfl
    · have hheld := ih (by omega) i hlt
      refine hheld.copy hmeta.packed (fits_nodeData hlive hmeta (by omega)) fun a ha => ?_
      refine putNode_of_outside hlive hmeta (by omega) _ (.inl ?_)
      have := hmeta.packed.bufAddr_add_le hdvd hlt
      omega
    · exact held_putNode hlive hmeta (by omega) _

/-- The file has the metadata and the records of the locations below `loc`. -/
structure Saved (ty : ElemType) (idx : GraphIndex) (args : SaveArgs) (m : SsdMetadata)
    (f : File) (loc : Nat) : Prop where
  begins : ∀ a < sectorLen, f.image a = (m.saveToDiskIndex .empty).image a
  size : m.endOf loc ≤ f.size
  held : ∀ gl < loc, (idx.nodeData args m gl).HeldAt ty m f.image (m.nodeAddr gl)

omit hlive hmeta in
theorem Saved.start : Saved ty idx args m (m.saveToDiskIndex .empty) 0 where
  begins _ _ := rfl
  size := by
    have hzero : divRoundUp 0 m.nodesPerIo = 0 := by
      rw [divRoundUp, Nat.zero_div, if_neg (by simp)]
    rw [endOf, hzero, Nat.zero_mul]
    exact m.sectorLen_le_size _
  held gl h := absurd h (not_lt_zero gl)

variable {f : File}

theorem Saved.batch (hf : Saved ty idx args m f loc) (hdvd : m.nodesPerIo ∣ loc)
    (hloc : loc < m.npoints) (buf : Image) :
    Saved ty idx args m
      (f.pwrite ((idx.batchImage ty args m loc buf).read 0 (m.batchBytes (m.curNodes loc)))
        (m.locSectorNo loc * sectorLen)) (loc + m.curNodes loc) := by
  have hbase : m.nodeAddr loc = m.locSectorNo loc * sectorLen := by
    rw [nodeAddr, slotOff_eq, mod_eq_zero_of_dvd hdvd, Nat.zero_mul, Nat.add_zero]
  have hcur := add_curNodes_le hloc
  refine ⟨fun a ha => ?_, ?_, fun gl hgl => ?_⟩
  · -- the records begin behind the first sector
    have hsector := m.locSectorNo_eq loc
    rw [← hf.begins a ha]
    exact Image.write_of_lt _ _ _ (by omega)
  · refine le_trans (le_of_eq ?_) (le_max_right ..)
    rw [Image.length_read, add_batchBytes hdvd]
  · by_cases hlt : gl < loc
    · -- a record of an earlier batch
      refine (hf.held gl hlt).copy hmeta.packed (fits_nodeData hlive hmeta (by omega))
        fun a ha => Image.write_of_lt _ _ _ ?_
      have := hmeta.packed.nodeAddr_add_le hlt
      omega
    · obtain ⟨i, rfl⟩ : ∃ i, gl = loc + i := ⟨gl - loc, by omega⟩
      have hi : i < m.curNodes loc := by omega
      have hheld := held_batchImage hlive hmeta hdvd hloc buf hi
      refine hheld.copy hmeta.packed (fits_nodeData hlive hmeta (by omega)) fun a ha => ?_
      have hin := hmeta.packed.bufAddr_add_le_batchBytes loc hi
      rw [m.nodeAddr_add hdvd, add_assoc]
      refine (Image.write_read_apply _ _ _ 0 (i := m.bufAddr loc i + a) (by omega)).trans ?_
      rw [zero_add]

theorem saved_saveLoop {fuel : Nat} {buf : Image} (hf : Saved ty idx args m f loc)
    (hdvd : loc < m.npoints → m.nodesPerIo ∣ loc) (hle : loc ≤ m.npoints)
    (hfuel : m.npoints ≤ loc + fuel) :
    Saved ty idx args m (idx.saveLoop ty args m fuel loc buf f) m.npoints := by
  induction fuel generalizing loc buf f with
  | zero =>
    obtain rfl : loc = m.npoints := by omega
    exact hf
  | succ fuel ih =>
    rw [saveLoop]
    split
    next hloc =>
      have hpos := curNodes_pos hloc
      exact ih (hf.batch hlive hmeta (hdvd hloc) hloc buf)
        (fun h => dvd_add_curNodes (hdvd hloc) h) (add_curNodes_le hloc)
        (by omega)
    next hloc =>
      obtain rfl : loc = m.npoints := by omega
      exact hf

/-! ## Reading -/

/-- The reader finds every record. -/
theorem loadLoop_eq (hf : Saved ty idx args m f m.npoints) {fuel : Nat} (buf : Image)
    (hdvd : loc < m.npoints → m.nodesPerIo ∣ loc) (hfuel : m.npoints ≤ loc + fuel) :
    loadLoop ty m idx.dataSize f fuel loc buf = (range' loc (m.npoints - loc)).map fun gl =>
      ((idx.nodeData args m gl).vec, (idx.nodeData args m gl).nbrs) := by
  induction fuel generalizing loc buf with
  | zero =>
    rw [show m.npoints - loc = 0 by omega]
    rfl
  | succ fuel ih =>
    rw [loadLoop]
    split
    next hloc =>
      have hpos := curNodes_pos hloc
      have hcur := add_curNodes_le hloc
      have hend : m.locSectorNo loc * sectorLen + m.batchBytes (m.curNodes loc) ≤ f.size := by
        rw [add_batchBytes (hdvd hloc)]
        exact le_trans (endOf_mono hcur) hf.size
      dsimp only
      rw [ih _ (fun h => dvd_add_curNodes (hdvd hloc) h) (by omega), File.pread_eq hend]
      have hsplit : range' loc (m.npoints - loc) = range' loc (m.curNodes loc) ++
          range' (loc + m.curNodes loc) (m.npoints - (loc + m.curNodes loc)) := by
        have happ := range'_append_1 (s := loc) (m := m.curNodes loc)
          (n := m.npoints - (loc + m.curNodes loc))
        rw [happ]
        congr 1
        omega
      rw [hsplit, map_append, range'_eq_map_range (s := loc), map_map]
      congr 1
      refine map_congr_left fun i hi => ?_
      have hi := mem_range.mp hi
      have hlt : loc + i < 2 ^ 32 :=
        lt_trans (by rw [← hmeta.npoints]; omega) hlive.nd_lt
      have hgl : loc + i < m.npoints := by omega
      have hfits := fits_nodeData hlive hmeta hgl
      -- the record in the buffer is the one in the file
      have hheld : (idx.nodeData args m (loc + i)).HeldAt ty m
          (buf.write 0 (f.image.read (m.locSectorNo loc * sectorLen)
            (m.batchBytes (m.curNodes loc)))) (m.bufAddr loc i) := by
        refine (hf.held (loc + i) (by omega)).copy hmeta.packed hfits fun a ha => ?_
        have hin := hmeta.packed.bufAddr_add_le_batchBytes loc hi
        have hlt : m.bufAddr loc i + a < m.batchBytes (m.curNodes loc) := by omega
        have hcopy := buf.write_read_apply 0 f.image (m.locSectorNo loc * sectorLen) hlt
        rw [zero_add] at hcopy
        rw [hcopy, m.nodeAddr_add (hdvd hloc), add_assoc]
        rfl
      simp only [getNode, bufNode_eq hlt]
      rw [hheld.getNbrs hmeta.packed hfits, ← length_vec hlive hmeta hgl]
      exact Prod.ext hheld.vec rfl
    next hloc =>
      rw [show m.npoints - loc = 0 by omega]
      rfl

end

/-! ## The metadata -/

/-- The number of neighbours for which a record has room. -/
def formatRange (idx : GraphIndex) (args : SaveArgs) : Nat :=
  if idx.range.toNat = 0 then args.targetRangeDense.toNat else idx.range.toNat

variable {vt : VectorType}

theorem attrSize_lt (args : SaveArgs) : attrSize args < 2 ^ 62 := by
  unfold attrSize
  cases args.attrWriter with
  | none => decide
  | some w => exact w.attrSize_lt

theorem map_range_getD {α : Type} (l : List α) (d : α) {n : Nat} (h : n ≤ l.length) :
    (List.range n).map (fun i => l.getD i d) = l.take n := by
  refine ext_getElem? fun i => ?_
  rw [getElem?_map, getElem?_take]
  by_cases hi : i < n
  · rw [getElem?_range hi, if_pos hi, map_some, getD_eq_getElem?_getD,
      getElem?_eq_getElem (by omega), getD_some]
  · rw [getElem?_eq_none (by rw [length_range]; omega), if_neg hi, Option.map_none]

section
variable (hlive : idx.Live ty)
include hlive

section
variable (hvt : idx.name.vectorType = some vt)
include hvt

/-- The room for a vector in a record is its size, or a little more. -/
theorem vecBytes_bounds :
    idx.dataSize ≤ idx.vecBytes ty vt ∧ idx.vecBytes ty vt < idx.dataSize + 4 := by
  have hsize := hlive.dataSize_eq vt hvt
  cases vt with
  | raw =>
    rw [vectorBytes] at hsize
    rw [vecBytes]
    omega
  | rabitq8 =>
    rw [vecBytes, roundUp]
    split <;> omega

theorem dim_lt : idx.dim < 2 ^ 64 := by
  have hsize := hlive.dataSize_eq vt hvt
  have hlt := hlive.dataSize_lt
  cases vt with
  | raw =>
    have hpos : 0 < ty.size := by cases ty <;> decide
    have := Nat.le_mul_of_pos_right idx.dim hpos
    rw [vectorBytes] at hsize
    omega
  | rabitq8 =>
    have := le_roundUp idx.dim (y := 128) (by decide)
    rw [vectorBytes, rabitqVectorSize, rabitqPadDim] at hsize
    omega

theorem wordsFit
    (hsame : (idx.storedMetadata ty args vt).SameStored m) (hm : m.Packed ty) : m.WordsFit := by
  obtain ⟨hnpoints, hdim, hep, hlen, hsector, hshard, hattr, -, hood⟩ := hsame
  have hnd := hlive.nd_lt
  have hattrSize := attrSize_lt args
  have hmax : (idx.storedMetadata ty args vt).maxNodeLen < 2 ^ 64 := by
    have htarget := args.targetRangeDense.toNat_lt
    have hrange := idx.range.toNat_lt
    have hbounds := vecBytes_bounds hlive hvt
    have hsize := hlive.dataSize_lt
    show (max args.targetRangeDense.toNat idx.range.toNat + 1) * 4 + idx.vecBytes ty vt +
      attrSize args < 2 ^ 64
    omega
  have hperSector : m.nnodesPerSector ≤ sectorLen := hm.perSector ▸ div_le_self ..
  have hrange : m.range < 2 ^ 16 := lt_of_le_of_lt hm.range_le hm.range_lt
  have hcode : m.vectorType.code ≤ 1 := by cases m.vectorType <;> decide
  simp only [SsdMetadata.WordsFit, words, forall_mem_cons, not_mem_nil,
    false_imp_iff, implies_true, and_true]
  refine ⟨?_, ?_, ?_, ?_, ?_, ?_, ?_, ?_, ?_, ?_⟩
  · exact hnpoints ▸ lt_trans hnd (by decide)
  · exact hdim ▸ dim_lt hlive hvt
  · exact hep ▸ lt_trans idx.ep.toNat_lt (by decide)
  · exact hlen ▸ hmax
  · exact lt_of_le_of_lt hperSector (by decide)
  · exact hshard ▸ lt_trans hnd (by decide)
  · exact hattr ▸ lt_trans hattrSize (by decide)
  · exact lt_trans hrange (by decide)
  · exact lt_of_le_of_lt hood (lt_trans idx.rOod.toNat_lt (by decide))
  · exact lt_of_le_of_lt hcode (by decide)

end

/-- What `save_from_mem` writes into the first sector. -/
theorem exists_metadata (args : SaveArgs) (hvt : idx.name.vectorType = some vt) :
    ∃ m, idx.metadata ty args vt = some m ∧ idx.MetaOf ty args m ∧ m.vectorType = vt ∧
      m.range = idx.formatRange args ∧ m.entryPoint = idx.ep.toNat ∧
      m.nptsCurShard = m.npoints ∧ m.WordsFit := by
  obtain ⟨hle, hlt⟩ := vecBytes_bounds hlive hvt
  have hpayload : (idx.storedMetadata ty args vt).vectorLen ty = idx.dataSize :=
    (hlive.dataSize_eq vt hvt).symm
  have htarget := args.targetRangeDense.toNat_lt
  have hrange := idx.range.toNat_lt
  obtain ⟨m, hinit, hpacked, hsame, hdense, hformat⟩ := exists_packed ty
    rfl (hpayload.symm ▸ hle) (hpayload.symm ▸ hlt) (by omega) rfl
  have hformat' : m.range = idx.formatRange args := by
    refine hformat.trans ?_
    show (if idx.range.toNat = 0 ∨ max args.targetRangeDense.toNat idx.range.toNat ≤
      idx.range.toNat then max args.targetRangeDense.toNat idx.range.toNat else idx.range.toNat) = _
    unfold formatRange
    split <;> split <;> omega
  refine ⟨m, hinit, ⟨hpacked, hsame.npoints, hsame.dataDim, hsame.vectorLen.trans hpayload,
    hsame.attrSize⟩, hsame.vectorType, hformat', hsame.entryPoint,
    hsame.nptsCurShard.trans hsame.npoints.symm, ?_⟩
  exact wordsFit hlive hvt hsame hpacked

/-! ## The round trip -/

/-- What comes back of an index. -/
structure Restores (idx : GraphIndex) (args : SaveArgs) (loaded : GraphIndex) : Prop where
  name : loaded.name = idx.name
  dim : loaded.dim = idx.dim
  npoints : loaded.core.vectors.length = idx.core.vectors.length
  ep : loaded.ep = idx.ep
  locationToTag : ∀ l, loaded.core.maps.locationToTag l = idx.core.maps.locationToTag l
  tagToLocation : ∀ t, loaded.core.maps.tagToLocation t = idx.core.maps.tagToLocation t
  vectors : loaded.core.vectors = idx.core.vectors
  graph : loaded.graph =
    (idx.graph.take idx.core.vectors.length).map (List.take (idx.formatRange args))

theorem loadVectors_eq (hmeta : idx.MetaOf ty args m)
    (hvt : idx.name.vectorType = some m.vectorType) {rabitq : Option RabitqMetadata}
    (hq : m.vectorType = .rabitq8 →
      rabitq = some ⟨idx.dim, rabitqPadDim idx.dim, rabitqVectorSize idx.dim⟩) :
    loadVectors ty m rabitq = some (idx.dim, idx.dataSize) := by
  have hsize := hlive.dataSize_eq _ hvt
  unfold loadVectors
  split
  next hraw =>
    rw [hraw, vectorBytes] at hsize
    rw [hmeta.dataDim, hsize]
  next hrabitq =>
    have hname : idx.name = .rabitq8 := by
      rw [← NeighborName.ofVectorType_eq hvt, hrabitq]
      rfl
    obtain ⟨hpos, hle⟩ := hlive.rabitq_dim hname
    rw [hrabitq, vectorBytes] at hsize
    have hok : ¬ (idx.dim = 0 ∨ 1048576 < idx.dim ∨ rabitqPadDim idx.dim ≠ rabitqPadDim idx.dim ∨
        rabitqVectorSize idx.dim ≠ rabitqVectorSize idx.dim) := by
      omega
    rw [hq hrabitq, loadRabitq, bind_some]
    rw [if_neg hok, map_some, hsize]

theorem restores_ofMetadata (hmeta : idx.MetaOf ty args m)
    (hvt : idx.name.vectorType = some m.vectorType) (hdel : idx.core.deleteSet = [])
    (hep : m.entryPoint = idx.ep.toNat) (hrange : m.range = idx.formatRange args) :
    idx.Restores args (ofMetadata m idx.dim idx.dataSize ((List.range m.npoints).map fun gl =>
        ((idx.nodeData args m gl).vec, (idx.nodeData args m gl).nbrs)) idx.core.saveTags) := by
  have hvectors : ((List.range m.npoints).map fun gl =>
      ((idx.nodeData args m gl).vec, (idx.nodeData args m gl).nbrs)).map Prod.fst =
      idx.core.vectors := by
    rw [map_map, hmeta.npoints]
    exact (map_range_getD idx.core.vectors [] le_rfl).trans (take_length ..)
  have htags :
      MemIndex.loadTags m.npoints idx.core.saveTags = TagMaps.ofTags idx.core.savedTags := by
    rw [hmeta.npoints]
    rfl
  have hlive' := (hlive.valid.sameLive_iff).mpr hdel
  refine ⟨?_, rfl, congrArg length hvectors, ?_, fun l => ?_, fun t => ?_, hvectors, ?_⟩
  · exact NeighborName.ofVectorType_eq hvt
  · show UInt32.ofNat m.entryPoint = _
    rw [hep, UInt32.ofNat_toNat]
  · show (MemIndex.loadTags m.npoints idx.core.saveTags).locationToTag l = _
    rw [htags, TagMaps.locationToTag_ofTags, hlive.valid.getElem?_savedTags hdel]
  · show (MemIndex.loadTags m.npoints idx.core.saveTags).tagToLocation t = _
    rw [hmeta.npoints]
    exact hlive'.tags t
  · show ((List.range m.npoints).map fun gl =>
      ((idx.nodeData args m gl).vec, (idx.nodeData args m gl).nbrs)).map Prod.snd = _
    rw [map_map, hmeta.npoints, ← map_range_getD idx.graph [] hlive.nd_le, map_map, ← hrange]
    rfl

/-- **A saved index comes back.**  An in-memory index from which no point has been deleted, with
vectors as they are or encoded in 8 bits, is saved, and a load of the files gives back the number
of points, the entry point, the tags, the vectors, and the neighbours as far as there is room in
a record. -/
theorem loadToMem_saveFromMem (hname : idx.name ≠ .other)
    (hdel : idx.core.deleteSet = []) (args : SaveArgs) (old : IndexFiles) (buf buf' : Image) :
    ∃ files loaded, idx.saveFromMem ty args old buf = some files ∧
      loadToMem ty files buf' = some loaded ∧ idx.Restores args loaded := by
  obtain ⟨vt, hvt⟩ : ∃ vt, idx.name.vectorType = some vt := by
    cases hn : idx.name with
    | raw => exact ⟨_, rfl⟩
    | rabitq8 => exact ⟨_, rfl⟩
    | other => exact absurd hn hname
  obtain ⟨m, hm, hmeta, rfl, hrange, hep, hshard, hfit⟩ := exists_metadata hlive args hvt
  have hsaved : Saved ty idx args m
      (idx.saveLoop ty args m m.npoints 0 buf (m.saveToDiskIndex .empty)) m.npoints :=
    saved_saveLoop hlive hmeta Saved.start (fun _ => Nat.dvd_zero _) (Nat.zero_le _) (by omega)
  have hsector : sectorLen ≤
      (idx.saveLoop ty args m m.npoints 0 buf (m.saveToDiskIndex .empty)).size :=
    le_trans (Nat.le_add_right ..) hsaved.size
  have hload := loadFromDiskIndex_eq hmeta.packed.init hshard hfit hsector hsaved.begins
  have hnodes := loadLoop_eq hlive hmeta hsaved buf' (fun _ => Nat.dvd_zero _)
    (le_add_left m.npoints 0)
  rw [Nat.sub_zero, ← range_eq_range'] at hnodes
  have hvectors : loadVectors ty m (if m.vectorType = .rabitq8 then
      some ⟨idx.dim, rabitqPadDim idx.dim, rabitqVectorSize idx.dim⟩ else old.rabitq) =
      some (idx.dim, idx.dataSize) :=
    loadVectors_eq hlive hmeta hvt fun hq => if_pos hq
  refine ⟨⟨idx.saveLoop ty args m m.npoints 0 buf (m.saveToDiskIndex .empty),
    if m.vectorType = .rabitq8 then
      some ⟨idx.dim, rabitqPadDim idx.dim, rabitqVectorSize idx.dim⟩ else old.rabitq,
    idx.core.saveTags⟩, _, ?_, ?_, restores_ofMetadata hlive hmeta hvt hdel hep hrange⟩
  · rw [saveFromMem, hvt, bind_some, hm, map_some]
  · rw [loadToMem, hload, bind_some, hvectors, map_some]
    dsimp only
    rw [hnodes]

end

/-- Two points of two bytes, neighbours of each other. -/
def twoPoints : GraphIndex where
  name := .raw
  dim := 2
  dataSize := 2
  core := MemIndex.build [(5, [1, 2]), (9, [3, 4])]
  graph := [[1], [0]]
  range := 1
  rOod := 0
  ep := 1

theorem live_twoPoints : twoPoints.Live .uint8 where
  valid := MemIndex.valid_build _
  dataSize_eq vt h := by cases h; rfl
  record_length := by decide
  nd_lt := by decide
  nd_le := by decide
  dataSize_lt := by decide
  rabitq_dim h := by cases h

/-- `std::shuffle` that leaves the list as it is, and no attributes. -/
def plainArgs : SaveArgs := ⟨3, none, fun _ => ⟨id, List.Perm.refl⟩⟩

theorem loadToMem_saveFromMem_twoPoints :
    ∃ files loaded, twoPoints.saveFromMem .uint8 plainArgs ⟨.empty, none, none⟩ (fun _ => 0) =
      some files ∧ loadToMem .uint8 files (fun _ => 7) = some loaded ∧
      loaded.core.vectors = [[1, 2], [3, 4]] ∧ loaded.graph = [[1], [0]] := by
  obtain ⟨files, loaded, hsave, hload, hrestores⟩ := loadToMem_saveFromMem live_twoPoints
    NeighborName.noConfusion rfl plainArgs ⟨.empty, none, none⟩ (fun _ => 0) (fun _ => 7)
  exact ⟨files, loaded, hsave, hload, hrestores.vectors, hrestores.graph⟩

end GraphIndex
end PipeANN
