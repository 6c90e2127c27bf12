import PipeANN.InsertRelocation

/-! # The record of a new point

What the record that `insert_in_place` writes for the new point decodes to.  The vector, the
list and the number of dense neighbours are always written.  The attributes are written only if
some are given; the slot may have had another record, or the page may be a buffer as it was
allocated, and then the attributes that were there are those of the new point
(`reusedSlot_shows_attrs`).  If there is room for dense neighbours, some are sampled.

`target_decodes_iff` says that nothing else shows.
-/
namespace PipeANN
open List ByteImages DiskNodeRef AttrBytes
open Dsl (Attributes)

/-- What is read of a record. -/
structure DecodedNode where
  vector : List UInt8
  nbrs : List UInt32
  denseNbrs : List UInt32
  attrs : Attributes
deriving DecidableEq

/-- The record at an address.  The attributes are read where there is room for them. -/
def decodeNode (ty : ElemType) (m : SsdMetadata) (image : Image) (addr : Nat) : DecodedNode :=
  let node := DiskNodeRef.ofAddr ty m addr
  { vector := image.read node.coords (m.vectorLen ty)
    nbrs := node.getNbrs image
    denseNbrs := node.getDenseNbrs image
    attrs := if 0 < m.attrSize then AttrBytes.deserialize image node.attrs else [] }

namespace InPlaceInsert
variable {ty : ElemType} {m : SsdMetadata} (c : InPlaceInsert ty m)

/-- The record of the new point, in the buffers. -/
def target (mem : Image) : DecodedNode := decodeNode ty m mem (c.slotAddr c.targetLoc)

/-- What it should be. -/
def inserted : DecodedNode := ⟨c.point, c.newNhood, [], c.attrs.getD []⟩

/-- There is no room for dense neighbours, or the lists of the neighbours have only the new
point and other neighbours. -/
def NothingSampled : Prop :=
  m.rangeDense ≤ m.range ∨
    ∀ id ∈ c.newNhood, ∀ x ∈ c.storedNbrs id, x = c.targetId ∨ x ∈ c.newNhood

/-- There is room for the attributes that are given; if none are given, there were none in the
slot as it was before. -/
def AttrsSettled : Prop :=
  match c.attrs with
  | some a => 0 < m.attrSize ∨ a = []
  | none => m.attrSize = 0 ∨ AttrBytes.deserialize c.pagesRead
      (DiskNodeRef.ofAddr ty m (c.slotAddr c.targetLoc)).attrs = []

variable {c} {mem : Image}

/-- An insert that returns has stayed inside. -/
theorem fits_of_run (h : c.run = .ok mem) :
    ¬ c.TooLarge ∧ (c.newNhood = [] ∨ m.ioSize = m.ioSizeDense) := by
  have hsmall : ¬ c.TooLarge := by
    intro hlarge
    rw [run_of_tooLarge hlarge] at h
    cases h
  refine ⟨hsmall, ?_⟩
  by_contra hno
  rw [not_or] at hno
  rw [run_outside (c.packed.ioSize_lt_of_ne hno.2) hno.1 hsmall] at h
  cases h

/-- The data are in the slot of the new point. -/
theorem held_target (h : c.run = .ok mem) : c.targetData.HeldAt ty m mem (c.slotAddr c.targetLoc) ∧
      c.SameSlot (c.pagesRead.writeAll c.targetWrites) mem c.targetLoc := by
  obtain ⟨hsmall, hfit⟩ := fits_of_run h
  obtain ⟨mem', hrun, -, hsame⟩ := run_spec hsmall hfit
  obtain rfl : mem' = mem := Except.ok.inj (hrun.symm.trans h)
  have hfits := fits_targetData hsmall
  have hheld := GraphIndex.held_of_perm hfits targetWrites_perm c.pagesRead
  exact ⟨hheld.copy c.packed hfits hsame, hsame⟩

/-- Without attributes given, the room for them has the bytes it had. -/
theorem attrs_kept (h : c.run = .ok mem) (hnone : c.attrs = none) {i : Nat} (hi : i < m.attrSize) :
    mem ((ofAddr ty m (c.slotAddr c.targetLoc)).attrs + i) =
      c.pagesRead ((ofAddr ty m (c.slotAddr c.targetLoc)).attrs + i) := by
  obtain ⟨hsmall, -⟩ := fits_of_run h
  have hroom := c.packed.fits
  have hle := c.packed.range_le
  have hfits := fits_targetData hsmall
  have hnbrs := hfits.nbrs
  have hvec := hfits.vec
  have hattr : (ofAddr ty m (c.slotAddr c.targetLoc)).attrs + i =
      c.slotAddr c.targetLoc + (m.vectorLen ty + (1 + m.range) * 4 + i) := by
    simp only [ofAddr]
    omega
  rw [hattr, (held_target h).2 _ (by omega)]
  refine Image.writeAll_of_outside _ fun w hw => ?_
  have hbytes : c.attrBytes = [] := by rw [attrBytes, hnone]
  simp only [targetWrites, hbytes, mem_cons, not_mem_nil, or_false] at hw
  simp only [targetData] at hnbrs hvec
  rcases hw with rfl | rfl | rfl | rfl | rfl | rfl <;>
    simp only [ofAddr, length_le, length_wordBytes, length_nil] <;> omega

/-- The attributes of the new point. -/
theorem target_attrs_iff (h : c.run = .ok mem) :
    (c.target mem).attrs = c.attrs.getD [] ↔ c.AttrsSettled := by
  obtain ⟨hheld, -⟩ := held_target h
  show (if 0 < m.attrSize then deserialize mem
    (ofAddr ty m (c.slotAddr c.targetLoc)).attrs else []) = _ ↔ _
  rw [AttrsSettled]
  cases hattrs : c.attrs with
  | some a =>
    by_cases hpos : 0 < m.attrSize
    · have hbytes : c.targetData.attrs = serialize a := by
        show c.attrBytes = _
        rw [attrBytes, hattrs]
        exact if_pos hpos
      have hholds : mem.Holds (ofAddr ty m (c.slotAddr c.targetLoc)).attrs
          (serialize a) := hbytes ▸ hheld.attrs
      rw [if_pos hpos, deserialize_eq (c.attrs_valid a hattrs) hholds]
      exact iff_of_true rfl (.inl hpos)
    · rw [if_neg hpos]
      exact ⟨fun heq => .inr heq.symm, fun hor => (hor.resolve_left hpos).symm⟩
  | none =>
    by_cases hpos : 0 < m.attrSize
    · have hsize : 4 ≤ m.attrSize := c.attrSize_room.resolve_left (by omega)
      have hword : wordAt mem (ofAddr ty m (c.slotAddr c.targetLoc)).attrs =
          wordAt c.pagesRead (ofAddr ty m (c.slotAddr c.targetLoc)).attrs :=
        congrArg ofLe (Image.read_congr fun i hi => attrs_kept h hattrs (by omega))
      rw [if_pos hpos, or_iff_right (by omega), deserialize_eq_nil_iff, ← hword,
        ← deserialize_eq_nil_iff]
      rfl
    · rw [if_neg hpos]
      exact iff_of_true rfl (.inl (by omega))

/-- **What the new record shows.**  For any layout, any insert that returns and any content that
the slots had before: the record of the new point decodes to the vector, the list, no dense
neighbours and the attributes given, if and only if nothing is sampled and the attributes are
settled. -/
theorem target_decodes_iff {mem : Image} (h : c.run = .ok mem) :
    c.target mem = c.inserted ↔ c.NothingSampled ∧ c.AttrsSettled := by
  obtain ⟨hheld, -⟩ := held_target h
  have hfits := fits_targetData (fits_of_run h).1
  have hvec : (c.target mem).vector = c.point :=
    (congrArg (mem.read (c.slotAddr c.targetLoc)) c.length_point.symm).trans hheld.vec
  have hnbrs : (c.target mem).nbrs = c.newNhood := hheld.getNbrs c.packed hfits
  have hdense : (c.target mem).denseNbrs = c.sample (c.newNhood.map c.storedNbrs) :=
    hheld.getDenseNbrs c.packed hfits
  rw [← target_attrs_iff h, NothingSampled, ← sample_eq_nil_iff, ← hdense]
  constructor
  · intro heq
    exact ⟨congrArg DecodedNode.denseNbrs heq, congrArg DecodedNode.attrs heq⟩
  · rintro ⟨hnone, hattrs⟩
    generalize c.target mem = node at *
    obtain ⟨vector, nbrs, denseNbrs, attrs⟩ := node
    simp only at hvec hnbrs hnone hattrs
    rw [hvec, hnbrs, hnone, hattrs]
    rfl

/-! ## A slot that is used again -/

/-- The slot of the new point is in a page that is read. -/
theorem pagesRead_target (hneed : m.locSectorNo c.targetLoc ∈ c.pagesNeedToRead) {i : Nat}
    (hi : m.slotOff c.targetLoc + i < m.ioSize) :
    c.pagesRead (c.slotAddr c.targetLoc + i) = c.disk (m.nodeAddr c.targetLoc + i) := by
  have hpage : m.locSectorNo c.targetLoc ∈ c.pagesToRmw :=
    c.mem_pagesToRmw.mpr ⟨_, targetLoc_mem, rfl⟩
  obtain ⟨k, hk, hbuf⟩ := c.pageBufMap_of_mem hpage
  have hread : (m.locSectorNo c.targetLoc, c.newNhood.length + k) ∈ c.reads :=
    mem_append_right _ (mem_map.mpr ⟨(_, k), mem_filter.mpr
      ⟨mem_zipIdx_iff_getElem?.mpr hk, decide_eq_true hneed⟩, rfl⟩)
  rw [slotAddr, hbuf, SsdMetadata.nodeAddr, add_assoc, add_assoc]
  exact c.pagesRead_apply hread hi

/-- The attributes of the record that was there are those of the new point. -/
theorem target_attrs_of_old (h : c.run = .ok mem) (hnone : c.attrs = none)
    (hneed : m.locSectorNo c.targetLoc ∈ c.pagesNeedToRead) {old : Attributes}
    (hv : AttrBytes.Valid old) (hle : (serialize old).length ≤ m.attrSize)
    (hold : c.disk.Holds (ofAddr ty m (m.nodeAddr c.targetLoc)).attrs
      (serialize old)) : (c.target mem).attrs = old := by
  have hbody := c.packed.body_le_ioSize c.targetLoc
  have hpos : 0 < m.attrSize := by
    rw [serialize, length_append, length_le] at hle
    omega
  have hholds : mem.Holds (ofAddr ty m (c.slotAddr c.targetLoc)).attrs (serialize old) := by
    refine Eq.trans (Image.read_congr fun i hi => ?_) hold
    rw [attrs_kept h hnone (by omega)]
    have haddr : ∀ addr, (ofAddr ty m addr).attrs + i =
        addr + (m.vectorLen ty + (1 + m.range) * 4 + i) := by
      simp only [ofAddr]
      omega
    rw [haddr, haddr]
    exact pagesRead_target hneed (by omega)
  exact (if_pos hpos).trans (deserialize_eq hv hholds)

/-- Vectors of 4 bytes with one neighbour and 16 bytes of attributes. -/
def smallRecords : SsdMetadata where
  npoints := 1
  dataDim := 4
  entryPoint := 0
  maxNodeLen := 28
  nnodesPerSector := 146
  nptsCurShard := 1
  attrSize := 16
  range := 1
  rOod := 0
  vectorType := .raw
  maxNpts := 1
  rangeDense := 1
  normalNodeLen := 28
  entryPointId := 0

theorem packed_smallRecords : smallRecords.Packed .uint8 :=
  ⟨by decide, by decide, by decide, by decide, by decide⟩

/-- Only location `0` of the first page is in use. -/
def pageOfOne : SlotMap := ⟨fun loc => if loc = 0 then .id 0 else .invalid, [], 146⟩

theorem given_pageOfOne : SlotsGiven smallRecords.layout 2 pageOfOne [1, 2] [1] := by
  refine ⟨rfl, by decide, by decide, fun l hl hneed => absurd ?_ hneed⟩
  rcases mem_pair.mp hl with rfl | rfl <;> decide

/-- The attributes of the point that had location `2`. -/
def oldAttrs : Attributes := [(5, [7])]

theorem valid_oldAttrs : AttrBytes.Valid oldAttrs := ⟨by decide, by decide, by decide⟩

/-- The file has zeros but for these attributes. -/
def reusedDisk : Image :=
  Image.write (fun _ => 0) (DiskNodeRef.ofAddr .uint8 smallRecords (smallRecords.nodeAddr 2)).attrs
    (AttrBytes.serialize oldAttrs)

theorem live_pageOfOne : ∀ id ∈ [(0 : UInt32)],
    pageOfOne.loc2id 0 = .id id.toNat ∧ 0 < pageOfOne.curLoc := by
  intro id hid
  obtain rfl := mem_singleton.mp hid
  exact ⟨rfl, by decide⟩

theorem stored_reusedDisk : ∀ id ∈ [(0 : UInt32)],
    ofLe (reusedDisk.read (smallRecords.nodeAddr 0 + smallRecords.vectorLen .uint8) 2) ≤
      smallRecords.range := fun _ _ => by decide

/-- A point without attributes is inserted into the page. -/
def reusedSlot : InPlaceInsert .uint8 smallRecords where
  targetId := 1
  point := [1, 2, 3, 4]
  attrs := none
  newNhood := [0]
  id2loc _ := 0
  deltaPrune _ l := l.dropLast
  shuffle := ⟨fun l => l, List.Perm.refl⟩
  disk := reusedDisk
  updateBuf _ := 0
  slots := pageOfOne
  locs := [1, 2]
  pagesNeedToRead := [1]
  packed := packed_smallRecords
  length_point := rfl
  attrs_valid := valid_of_none
  attrSize_room := .inr (by decide)
  target_new := secondPoint.target_new
  length_nhood := by decide
  nhood_lt := secondPoint.nhood_lt
  prune_lt := dropLast_lt
  given := given_pageOfOne
  live := live_pageOfOne
  stored := stored_reusedDisk

theorem small_reusedSlot : ¬ reusedSlot.TooLarge := by
  rintro ⟨a, ha, -⟩
  cases ha

theorem run_reusedSlot : ∃ mem, reusedSlot.run = .ok mem ∧
    (reusedSlot.target mem).attrs = oldAttrs := by
  obtain ⟨mem, hrun, -, -⟩ := run_spec small_reusedSlot (.inr (by decide))
  refine ⟨mem, hrun, target_attrs_of_old hrun rfl (by decide) valid_oldAttrs (by decide) ?_⟩
  exact Image.read_write_self _ _ _

/-- **The attributes of an earlier point.**  The slots are those that `alloc_loc` gives.  The new
point has no attributes, and its record has those of the point that was there. -/
theorem reusedSlot_shows_attrs : (allocLoc smallRecords.layout 2 [1] pageOfOne).map Prod.snd =
      .ok (reusedSlot.locs, reusedSlot.pagesNeedToRead) ∧
    reusedSlot.attrs = none ∧
    ∃ mem, reusedSlot.run = .ok mem ∧ (reusedSlot.target mem).attrs = [(5, [7])] ∧
      reusedSlot.target mem ≠ reusedSlot.inserted := by
  obtain ⟨mem, hrun, hattrs⟩ := run_reusedSlot
  refine ⟨by decide +kernel, rfl, mem, hrun, hattrs, fun heq => ?_⟩
  have hnone := congrArg DecodedNode.attrs heq
  rw [hattrs] at hnone
  exact cons_ne_nil _ _ hnone

/-- The same insert with attributes. -/
def withAttrs : InPlaceInsert .uint8 smallRecords :=
  { reusedSlot with
    attrs := some oldAttrs
    attrs_valid := fun _ h => Option.some.inj h ▸ valid_oldAttrs }

theorem target_decodes_withAttrs :
    ∃ mem, withAttrs.run = .ok mem ∧ withAttrs.target mem = withAttrs.inserted := by
  have hsmall : ¬ withAttrs.TooLarge := by
    rintro ⟨a, ha, -, hlt⟩
    cases ha
    exact absurd hlt (by decide)
  obtain ⟨mem, hrun, -, -⟩ := run_spec hsmall (.inr (by decide))
  exact ⟨mem, hrun, (target_decodes_iff hrun).mpr ⟨.inl (by decide), .inl (by decide)⟩⟩

end InPlaceInsert
end PipeANN
