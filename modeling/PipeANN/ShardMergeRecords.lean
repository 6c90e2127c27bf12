import PipeANN.ShardMergeLoop

/-! # The file that a merge writes

`run_of_inBuffer` and `run_eq_none` say when `merge_shards` ends with a file: every record must end
inside the buffer.  If `R` is zero, `init_temporary_fields` makes the first list of a record as
long as both, so that the dense neighbours are behind the record.  `merge_writes_iff` is the whole
merge.
-/
namespace PipeANN
open List ByteImages Nat
namespace ShardMerge
variable {ty : ElemType} {c : ShardMerge ty} {m : SsdMetadata} {g : Nat} {x : UInt32}

/-! ## The whole merge -/

theorem divRoundUp_succ (n per : Nat) : divRoundUp (n + 1) per = n / per + 1 := by
  unfold divRoundUp
  rw [Nat.succ_div]
  split
  · next hdvd => rw [mod_eq_zero_of_dvd hdvd, if_neg (not_not.mpr rfl)]
  · next hdvd => rw [if_pos fun hzero => hdvd (dvd_of_mod_eq_zero hzero)]

theorem run_eq (hm : c.outMeta = some m) : c.run =
    (((range c.nnodes).flatMap c.group).foldlM (c.step m) c.initial).bind fun st =>
      (c.finalizeNode m st st.curId).map fun st =>
        (m, m.saveToDiskIndex (st.out.pwrite (st.sectorBuf.read 0 m.unitBytes) st.out.size)) := by
  unfold run
  rw [if_pos, hm, Option.bind_some, nodeShard_eq]
  intro s hs
  rcases mem_cons.mp hs with rfl | hs
  · exact ⟨rfl, rfl⟩
  · exact c.compatible s hs

/-- The first sector is written over; the records stay. -/
theorem saveToDiskIndex_apply (f : File) {a : Nat} (ha : sectorLen ≤ a) :
    (m.saveToDiskIndex f).image a = f.image a := by
  have hlen := m.length_header
  have hsector : (replicate sectorLen (0 : UInt8)).length = sectorLen := length_replicate
  have hheader : 0 + m.header.length ≤ a := by
    rw [sectorLen] at ha
    omega
  show ((f.image.write 0 (replicate sectorLen 0)).write 0 m.header) a = _
  rw [Image.write_of_ge _ _ _ hheader, Image.write_of_ge _ _ _ (by omega)]

theorem saveToDiskIndex_size {f : File} (hf : sectorLen ≤ f.size) :
    (m.saveToDiskIndex f).size = f.size := by
  have hlen := m.length_header
  simp only [SsdMetadata.saveToDiskIndex, File.pwrite, length_replicate]
  rw [sectorLen] at *
  omega

/-- **The records of the new file**, if all end inside the buffer. -/
theorem run_of_inBuffer (hout : c.outMeta = some m) (hm : c.IsOut m)
    (hin : ∀ g < c.nnodes, c.InBuffer m g) :
    ∃ f, c.run = some (m, f) ∧
      f.size = sectorLen + divRoundUp c.nnodes m.nodesPerIo * m.ioSizeDense ∧
      ∀ g < c.nnodes, (c.expected g).FrontAt ty m f.image (m.nodeAddr g) := by
  obtain ⟨n, hn⟩ : ∃ n, c.nnodes = n + 1 := ⟨_, rfl⟩
  have hlast : n < c.nnodes := by omega
  obtain ⟨st, hrun, hst⟩ := foldlM_groups hm hlast fun g hg => hin g (by omega)
  obtain ⟨st', hfinal, hemitted, -⟩ := hst.finalizeNode hm hlast (hin n hlast)
  obtain ⟨-, hsize, hrecords⟩ := hemitted.flushed hm hn.ge st'.sectorBuf
  have hle : sectorLen ≤ (st'.out.pwrite (st'.sectorBuf.read 0 m.unitBytes) st'.out.size).size := by
    rw [show (st'.out.pwrite _ st'.out.size).size = _ from hsize]
    exact le_add_right _ _
  refine ⟨m.saveToDiskIndex (st'.out.pwrite (st'.sectorBuf.read 0 m.unitBytes) st'.out.size),
    ?_, ?_, fun g hg => ?_⟩
  · rw [run_eq hout, hn, hrun, Option.bind_some, hst.curId, hfinal]
    rfl
  · rw [saveToDiskIndex_size hle, hn, divRoundUp_succ]
    exact hsize
  · have hlt : g / m.nodesPerIo < n / m.nodesPerIo + 1 :=
      Nat.lt_succ_of_le (Nat.div_le_div_right (by omega))
    refine ((hrecords g (by omega)).2.1 hlt).copy hm.packed (frontFits_expected hm hg)
      fun a _ => saveToDiskIndex_apply _ ?_
    rw [SsdMetadata.nodeAddr, SsdMetadata.locSectorNo_eq, add_assoc, add_assoc]
    exact le_add_right _ _

/-- There is no file if some record does not. -/
theorem run_eq_none (hmeta : c.outMeta = some m) (hm : c.IsOut m)
    (hout : ∃ g < c.nnodes, ¬ c.InBuffer m g) : c.run = none := by
  -- the first of them
  obtain ⟨g, ⟨hg, hout⟩, hfirst⟩ : ∃ g, (g < c.nnodes ∧ ¬ c.InBuffer m g) ∧
      ∀ h < g, ¬ (h < c.nnodes ∧ ¬ c.InBuffer m h) := by
    classical
    exact ⟨Nat.find hout, Nat.find_spec hout, fun h => Nat.find_min hout⟩
  have hin : ∀ h < g, c.InBuffer m h := fun h hh =>
    not_not.mp fun hno => hfirst h hh ⟨lt_trans hh hg, hno⟩
  obtain ⟨n, hn⟩ : ∃ n, c.nnodes = n + 1 := ⟨_, rfl⟩
  rw [run_eq hmeta, hn]
  rcases lt_or_eq_of_le (le_of_lt_succ (hn ▸ hg)) with hlt | rfl
  · rw [foldlM_groups_eq_none hm (by omega) hlt hin hout]
    rfl
  · obtain ⟨st, hrun, hst⟩ := foldlM_groups hm hg hin
    rw [hrun, Option.bind_some, hst.curId, hst.finalizeNode_eq_none hg hout]
    rfl

/-! ## The neighbours of an id -/

section Found
variable {s : Shard ty} {r : Nat} {nbrs dense : List UInt32} {x : UInt32}

theorem mem_found_oneHop : (.oneHop, x) ∈ s.found r nbrs dense ↔
    x ∈ (nbrs.take (nbrs.length - r)).map s.renamed := by
  have hkind : ∀ j : Nat, (if (j : Int) < nbrs.length - r then NhoodKind.oneHop else .ood) =
      .oneHop ↔ j < nbrs.length - r := fun j => by
    split <;> simp <;> omega
  simp only [Shard.found, mem_append, mem_map, Prod.mk.injEq, hkind, Prod.exists,
    mem_zipIdx_iff_getElem?, reduceCtorEq, false_and, and_false, exists_false, or_false,
    mem_iff_getElem? (l := take _ _), getElem?_take]
  constructor
  · rintro ⟨y, j, hget, hlt, rfl⟩
    exact ⟨y, ⟨j, by rw [if_pos hlt, hget]⟩, rfl⟩
  · rintro ⟨y, ⟨j, hj⟩, rfl⟩
    split at hj
    · next hlt => exact ⟨y, j, hj, hlt, rfl⟩
    · cases hj

theorem mem_found_dense : (.dense, x) ∈ s.found r nbrs dense ↔ x ∈ dense.map s.renamed := by
  have hkind : ∀ j : Nat,
      (if (j : Int) < nbrs.length - r then NhoodKind.oneHop else .ood) ≠ .dense :=
    fun j => by split <;> decide
  simp [Shard.found, hkind]

/-- What is added comes from the lists of the record. -/
theorem exists_of_mem_found {kind : NhoodKind} (h : (kind, x) ∈ s.found r nbrs dense) :
    ∃ y ∈ nbrs ++ dense, x = s.renamed y := by
  rcases mem_append.mp h with h | h
  · obtain ⟨p, hp, heq⟩ := mem_map.mp h
    exact ⟨p.1, mem_append_left _ (fst_mem_of_mem_zipIdx hp), (congrArg Prod.snd heq).symm⟩
  · obtain ⟨y, hy, heq⟩ := mem_map.mp h
    exact ⟨y, mem_append_right _ hy, (congrArg Prod.snd heq).symm⟩

end Found

theorem mem_nhoodOf {kind : NhoodKind} : x ∈ c.nhoodOf g kind ↔
    ∃ s ∈ c.shards, ∃ (i : Nat) (d : NodeData), s.nodes[i]? = some d ∧ s.ids[i]? = some g ∧
      (kind, x) ∈ s.found c.shardROod d.nbrs d.dense := by
  rw [nhoodOf, Nhoods.mem_foldl_add, or_iff_right not_mem_nil, mem_flatMap]
  constructor
  · rintro ⟨k, hk, hx⟩
    obtain ⟨s, hs, hg⟩ := exists_shard (mem_idsAt_of_shardsOf hk)
    have hmem := mem_of_getElem? hs
    obtain ⟨d, hd, -⟩ := exists_node hmem hg
    rw [addsOf_eq hs hd] at hx
    exact ⟨s, hmem, _, d, hd, getElem?_below s.ascending_ids hg, hx⟩
  · rintro ⟨s, hs, i, d, hd, hg, hx⟩
    obtain ⟨k, hk⟩ := getElem?_of_mem hs
    obtain rfl := eq_below s.ascending_ids hg
    refine ⟨k, mem_shardsOf hk (mem_of_getElem? hg), ?_⟩
    rwa [addsOf_eq hk hd]

/-- The lists have ids of nodes, and not the id itself. -/
theorem lt_of_mem_nhoodOf {kind : NhoodKind} (h : x ∈ c.nhoodOf g kind) :
    x.toNat < c.nnodes ∧ x.toNat ≠ g := by
  obtain ⟨s, hs, i, d, hd, hg, hx⟩ := mem_nhoodOf.mp h
  obtain ⟨y, hy, rfl⟩ := exists_of_mem_found hx
  obtain ⟨hlt, hne⟩ := s.selfFree i d hd y hy
  have hget : s.ids[y.toNat]? = some (s.renamed y).toNat := by
    rw [Shard.ids, getElem?_map, Shard.renamed, getD_eq_getElem?_getD, getElem?_eq_getElem hlt]
    rfl
  refine ⟨lt_nnodes hs (mem_of_getElem? hget), fun heq => hne ?_⟩
  rw [heq] at hget
  exact (eq_below s.ascending_ids hget).trans (eq_below s.ascending_ids hg).symm

theorem mem_neighbours : x ∈ c.neighbours g ↔ x ∈ c.nhoodOf g .oneHop ∨ x ∈ c.nhoodOf g .dense := by
  simp only [neighbours, mem_dedup, mem_flatMap, mem_nhoodOf, mem_found_oneHop, mem_found_dense]
  constructor
  · rintro ⟨s, hs, ⟨d, g'⟩, hp, hx⟩
    obtain ⟨i, hi⟩ := mem_iff_getElem?.mp hp
    obtain ⟨hd, hg⟩ := getElem?_zip_eq_some.mp hi
    split at hx
    · next heq =>
      subst heq
      rw [map_append, mem_append] at hx
      exact hx.imp (fun hx => ⟨s, hs, i, d, hd, hg, hx⟩) fun hx => ⟨s, hs, i, d, hd, hg, hx⟩
    · exact absurd hx not_mem_nil
  · intro h
    obtain ⟨s, hs, i, d, hd, hg, hx⟩ : ∃ s ∈ c.shards, ∃ (i : Nat) (d : NodeData),
        s.nodes[i]? = some d ∧ s.ids[i]? = some g ∧
        (x ∈ (d.nbrs.take (d.nbrs.length - c.shardROod)).map s.renamed ∨
          x ∈ d.dense.map s.renamed) := by
      rcases h with ⟨s, hs, i, d, hd, hg, hx⟩ | ⟨s, hs, i, d, hd, hg, hx⟩
      · exact ⟨s, hs, i, d, hd, hg, .inl hx⟩
      · exact ⟨s, hs, i, d, hd, hg, .inr hx⟩
    refine ⟨s, hs, (d, g), mem_of_getElem? (getElem?_zip_eq_some.mpr ⟨hd, hg⟩), ?_⟩
    rwa [if_pos rfl, map_append, mem_append]

/-- The number of neighbours in the record of an id, of both kinds. -/
theorem length_base_eq (g : Nat) :
    (c.baseNhood g (c.nhoodOf g)).length = min c.rDense (c.neighbours g).length := by
  have hnd : (c.nhoodOf g .oneHop ++
      (c.nhoodOf g .dense).filter (· ∉ c.nhoodOf g .oneHop)).Nodup := by
    refine (nodup_nhoodOf g _).append ((nodup_nhoodOf g _).filter _) fun x hx hx' => ?_
    exact of_decide_eq_true (mem_filter.mp hx').2 hx
  have hperm : (c.neighbours g).Perm (c.nhoodOf g .oneHop ++
      (c.nhoodOf g .dense).filter (· ∉ c.nhoodOf g .oneHop)) := by
    have hdedup : (c.neighbours g).Nodup := nodup_dedup _
    refine (perm_ext_iff_of_nodup hdedup hnd).mpr fun x => ?_
    rw [mem_neighbours, mem_append, mem_filter, decide_eq_true_eq]
    tauto
  rw [c.length_baseNhood, hperm.length_eq, length_append]

/-! ## When all is written -/

theorem length_dense (g : Nat) : (c.expected g).dense.length =
    (c.baseNhood g (c.nhoodOf g)).length - min c.R.toNat (c.baseNhood g (c.nhoodOf g)).length := by
  show ((c.finalNhood g (c.nhoodOf g)).drop (c.nnbrs g (c.nhoodOf g))).length = _
  rw [length_drop, (c.finalNhood_spec g (nodup_nhoodOf g)).2.1]
  rfl

section
variable (hm : c.IsOut m) (g : Nat)
include hm

theorem slotOff_stored : m.slotOff g = c.storedMetadata.slotOff g := by
  unfold SsdMetadata.slotOff
  rw [hm.stored.nnodesPerSector, hm.stored.maxNodeLen]

theorem unitBytes_stored : m.unitBytes = c.storedMetadata.unitBytes := by
  unfold SsdMetadata.unitBytes
  rw [hm.stored.nnodesPerSector, hm.stored.maxNodeLen]

/-- A record whose first list has places ends inside itself; else all its neighbours are dense,
and they are behind it. -/
theorem inBuffer_iff : c.InBuffer m g ↔ 0 < c.R.toNat ∨
    c.storedMetadata.slotOff g + c.storedMetadata.maxNodeLen +
      4 * min c.rDense (c.neighbours g).length ≤ c.storedMetadata.unitBytes := by
  have hbase := (c.baseNhood_spec g (nodup_nhoodOf (c := c) g)).2.1
  have hslot := hm.packed.slotOff_add_le g
  have hlen := hm.maxNodeLen
  have hrange := hm.range
  rw [← SsdMetadata.unitBytes_eq] at hslot
  rw [← slotOff_stored hm, ← unitBytes_stored hm, ← hm.stored.maxNodeLen, ← length_base_eq,
    InBuffer, length_dense]
  rcases Nat.eq_zero_or_pos c.R.toNat with hzero | hpos
  · rw [if_pos (.inl hzero)] at hrange
    omega
  · split at hrange
    · omega
    · omega

end

/-- The record that a reader finds. -/
theorem recordOk_of_frontAt (hm : c.IsOut m) (hg : g < c.nnodes) {image : Image}
    (h : (c.expected g).FrontAt ty m image (m.nodeAddr g)) : c.RecordOk m image g := by
  have hfits := frontFits_expected hm hg
  have hnbrs := h.getNbrs hm.packed hfits
  obtain ⟨hnd, hlen, hfrom⟩ := c.finalNhood_spec g (nodup_nhoodOf g)
  have hbase := (c.baseNhood_spec g (nodup_nhoodOf (c := c) g)).2.1
  have htake : (c.expected g).nbrs =
    (c.finalNhood g (c.nhoodOf g)).take (c.nnbrs g (c.nhoodOf g)) := rfl
  have hmem : ∀ x ∈ (c.expected g).nbrs, x.toNat < c.nnodes ∧ x.toNat ≠ g := by
    intro x hx
    obtain ⟨kind, hkind⟩ := hfrom x (mem_of_mem_take (htake ▸ hx))
    exact lt_of_mem_nhoodOf hkind
  have hle : (c.expected g).nbrs.length ≤
      min c.R.toNat (c.baseNhood g (c.nhoodOf g)).length := length_take_le _ _
  have hdense := length_dense (c := c) g
  have hlt : (c.expected g).dense.length < 2 ^ 16 := by
    have := hm.packed.range_lt
    rw [hm.rangeDense] at this
    omega
  refine ⟨?_, ?_, ?_, ?_, ?_, ?_⟩
  · obtain ⟨s, hs, hids⟩ := exists_mem_ids hg
    obtain ⟨d, hd, hvec⟩ := exists_node hs hids
    have hvecLen : (c.vector g).length = m.vectorLen ty := by
      rw [← hvec, s.vec_length d (mem_of_getElem? hd), vectorLen_eq hs, hm.vectorLen]
    rw [← hvecLen]
    exact h.vec
  · rw [hnbrs]
    exact (take_sublist _ _).nodup hnd
  · rw [hnbrs]
    exact fun x hx => (hmem x hx).2
  · rw [hnbrs]
    exact fun x hx => (hmem x hx).1
  · rw [hnbrs]
    omega
  · rw [hnbrs, h.length_getDenseNbrs hlt]
    omega

theorem forall_inBuffer_iff (hm : c.IsOut m) :
    (∀ g < c.nnodes, c.InBuffer m g) ↔ 0 < c.R.toNat ∨ c.RoomBehind := by
  simp only [inBuffer_iff hm, RoomBehind, forall_or_left]

theorem run_eq_none_of_no_room (h : ¬ (0 < c.R.toNat ∨ c.RoomBehind)) : c.run = none := by
  obtain ⟨m, hmeta, hm⟩ := exists_outMeta
  rw [← forall_inBuffer_iff hm] at h
  obtain ⟨g, hout⟩ := not_forall.mp h
  exact run_eq_none hmeta hm ⟨g, Classical.not_imp.mp hout⟩

/-- **The merge** writes one record for every id, unless the first lists have no places at all and
the dense neighbours of some id go over the end of the buffer. -/
theorem merge_writes_iff (c : ShardMerge ty) :
    (∃ m f, c.run = some (m, f) ∧ c.Merged m f) ↔ 0 < c.R.toNat ∨ c.RoomBehind := by
  constructor
  · rintro ⟨m, f, hrun, -⟩
    refine not_not.mp fun hno => ?_
    rw [run_eq_none_of_no_room hno] at hrun
    cases hrun
  · intro hroom
    obtain ⟨m, hmeta, hm⟩ := exists_outMeta
    obtain ⟨f, hrun, hsize, hfront⟩ :=
      run_of_inBuffer hmeta hm ((forall_inBuffer_iff hm).mpr hroom)
    exact ⟨m, f, hrun, hm.npoints, hsize, fun g hg => recordOk_of_frontAt hm hg (hfront g hg)⟩

/-! ## A record of one sector -/

/-- Records of a whole sector, with room for one neighbour. -/
def wholeSector : SsdMetadata where
  npoints := 2
  dataDim := 4088
  entryPoint := 0
  maxNodeLen := 4096
  nnodesPerSector := 1
  nptsCurShard := 2
  attrSize := 0
  range := 1
  rOod := 0
  vectorType := .raw
  maxNpts := 2
  rangeDense := 1
  normalNodeLen := 4096

theorem packed_wholeSector : wholeSector.Packed .uint8 where
  init := by decide
  fits := by decide
  range_le := by decide
  range_lt := by decide
  perSector := by decide

def origin : List UInt8 := List.replicate 4088 0

theorem length_origin : origin.length = 4088 := length_replicate

/-- A point with one neighbour. -/
def pointTo (x : UInt32) : NodeData := ⟨origin, [x], [], []⟩

theorem fits_pointTo (x : UInt32) : (pointTo x).Fits .uint8 wholeSector :=
  ⟨length_origin.le, le_refl 1, le_refl 0, le_refl 0⟩

def recordOf (i : Nat) (x : UInt32) : List (Nat × List UInt8) :=
  GraphIndex.fieldWrites (.ofAddr .uint8 wholeSector (wholeSector.nodeAddr i)) (pointTo x)

/-- Two points, each the neighbour of the other. -/
def twoPointImage : Image := (Image.writeAll (fun _ => 0) (recordOf 0 1)).writeAll (recordOf 1 0)

theorem held_twoPointImage (i : Nat) (d : NodeData) (hd : [pointTo 1, pointTo 0][i]? = some d) :
    d.HeldAt .uint8 wholeSector twoPointImage (wholeSector.nodeAddr i) := by
  match i with
  | 0 =>
    cases hd
    have hheld := GraphIndex.held_of_perm (fits_pointTo 1)
      (Perm.refl (recordOf 0 1)) fun _ => 0
    refine hheld.copy packed_wholeSector (fits_pointTo 1) fun a ha => ?_
    -- the second record is behind the first
    refine Image.writeAll_of_outside _ fun w hw => .inl ?_
    have hle := (GraphIndex.mem_fieldWrites packed_wholeSector (fits_pointTo 0) hw).1
    have hnext := packed_wholeSector.nodeAddr_add_le zero_lt_one
    omega
  | 1 =>
    cases hd
    exact GraphIndex.held_of_perm (fits_pointTo 0) (.refl (recordOf 1 0)) _
  | i + 2 => cases hd

theorem forall_twoPoints {P : NodeData → Prop} (h : ∀ x, P (pointTo x)) :
    ∀ d ∈ [pointTo 1, pointTo 0], P d := by
  simp only [forall_mem_cons, h, true_and, not_mem_nil, false_imp_iff, implies_true]

theorem selfFree_twoPoints (i : Nat) (d : NodeData) (hd : [pointTo 1, pointTo 0][i]? = some d)
    (x : UInt32) (hx : x ∈ d.nbrs ++ d.dense) : x.toNat < 2 ∧ x.toNat ≠ i := by
  match i with
  | 0 | 1 =>
    cases hd
    obtain rfl := mem_singleton.mp hx
    decide
  | i + 2 => cases hd

def twoPointShard : Shard .uint8 where
  metadata := wholeSector
  image := twoPointImage
  idmap := [0, 1]
  nodes := [pointTo 1, pointTo 0]
  packed := packed_wholeSector
  length_nodes := rfl
  fits := forall_twoPoints fits_pointTo
  vec_length := forall_twoPoints fun _ => length_origin
  held := held_twoPointImage
  ascending := by decide
  selfFree := selfFree_twoPoints

theorem mem_twoPointShards {s : Shard .uint8} (hs : s ∈ [twoPointShard]) : s = twoPointShard :=
  mem_singleton.mp hs

/-- The shard is merged with `R` zero and `R_dense` one. -/
def noFirstList : ShardMerge .uint8 where
  first := twoPointShard
  others := []
  R := 0
  targetRDense := 1
  rOod := 0
  attrWriter := none
  shuffle _ _ := ⟨fun l => l, List.Perm.refl⟩
  vector _ := origin
  entryPoint_lt := by decide
  compatible _ hs := absurd hs not_mem_nil
  vector_eq s hs i d _ hd _ :=
    forall_twoPoints (P := fun d => d.vec = origin) (fun _ => rfl) d
      (mem_of_getElem? (mem_twoPointShards hs ▸ hd))
  covering s hs g hg id hid := by
    obtain rfl := mem_twoPointShards hs
    refine ⟨twoPointShard, hs, ?_⟩
    have hcases : g = 0 ∨ g = 1 := by simpa [twoPointShard, Shard.ids] using hg
    have hzero : id = 0 := by omega
    rw [hzero]
    exact mem_cons_self

/-- **All neighbours are dense, and behind the record.**  The record fills its buffer, and the one
neighbour of the first point is written behind the buffer. -/
theorem noFirstList_overruns : noFirstList.R = 0 ∧ noFirstList.targetRDense = 1 ∧
    noFirstList.neighbours 0 = [1] ∧ noFirstList.storedMetadata.unitBytes = 4096 ∧
    noFirstList.storedMetadata.slotOff 0 + noFirstList.storedMetadata.maxNodeLen = 4096 ∧
    noFirstList.run = none := by
  refine ⟨rfl, rfl, by decide, rfl, rfl, run_eq_none_of_no_room ?_⟩
  rintro (hpos | hroom)
  · exact absurd hpos (by decide)
  · exact absurd (hroom 0 (by decide)) (by decide)

end ShardMerge
end PipeANN
