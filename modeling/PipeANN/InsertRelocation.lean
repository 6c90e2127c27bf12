import PipeANN.InsertPages
import PipeANN.IndexRoundTrip

/-! # Relocating the neighbours of a new point

What `insert_in_place` leaves in its page buffers.  `updateNbrs_spec` is the loop over the
neighbours: each gets its old record with the new list in its new slot.  `run_spec` is the whole
insert; `insert_safe_iff` says when there is no access outside a page or a record, and
`longRecord_outside` is an insert that has one.
-/
namespace PipeANN
open List ByteImages Image DiskNodeRef

namespace InPlaceInsert
variable {ty : ElemType} {m : SsdMetadata} {c : InPlaceInsert ty m}

/-! ## A neighbour -/

variable {mem : Image} {id : UInt32}

theorem getNbrs_ofAddr (addr : Nat) (image : Image) :
    (ofAddr ty m addr).getNbrs image = ofWords (image.read
      (addr + (m.vectorLen ty + 4)) (4 * ofLe (image.read (addr + m.vectorLen ty) 2))) := by
  rfl

theorem pageBufMap_ne_none (hid : id ∈ c.newNhood) :
    c.pageBufMap (m.locSectorNo (c.id2loc id)) ≠ none := by
  obtain ⟨b, hb⟩ := mapped_of_mem_nhood hid
  rw [hb]
  exact Option.some_ne_none b

/-- The lengths of a list of neighbours and of its number, in bytes. -/
theorem length_bytes (nhood : List UInt32) :
    (wordBytes nhood).length = 4 * nhood.length ∧ (le 2 nhood.length).length = 2 :=
  ⟨length_wordBytes _, length_le ..⟩

theorem length_updated_le (hid : id ∈ c.newNhood) :
    (c.updated id (c.storedNbrs id)).length ≤ m.range := by
  have hlen : (c.storedNbrs id).length ≤ m.range := by
    rw [storedNbrs, getNbrs, length_ofWords _ _ (length_read ..)]
    exact c.stored id hid
  rw [updated]
  split
  · next hlong =>
    have hlt := c.prune_lt id (c.storedNbrs id ++ [c.targetId])
      (append_ne_nil_of_right_ne_nil _ (cons_ne_nil _ _))
    rw [length_append, length_singleton] at hlt
    omega
  · omega

section
variable (hfit : m.ioSize = m.ioSizeDense)
include hfit

theorem loadNbrs_eq (hid : id ∈ c.newNhood) (hkept : c.Kept mem id) :
    c.loadNbrs mem (c.id2loc id) = .ok (c.storedNbrs id) := by
  have hroom := c.packed.fits
  have hle := c.packed.range_le
  have hslot := c.slot_le hfit (c.id2loc id)
  have hstored := c.stored id hid
  have hmap := mapped_of_mem_nhood hid
  rw [loadNbrs, fields_nnbrs, fields_nbrs, load_eq hmap (by omega) (by omega),
    hkept.read (by omega)]
  dsimp only [bind, Except.bind]
  rw [load_eq hmap (by omega) (by omega), hkept.read (by omega), storedNbrs, getNbrs_ofAddr]
  rfl

/-- The writes of the loop body. -/
def nbrWrites (c : InPlaceInsert ty m) (mem : Image) (p : UInt32 × Nat) (nhood : List UInt32) :
    Image :=
  ((mem.write (c.slotAddr p.2) (mem.read (c.slotAddr (c.id2loc p.1)) m.maxNodeLen)).write
    (c.slotAddr p.2 + m.vectorLen ty) (le 2 nhood.length)).write
    (c.slotAddr p.2 + (m.vectorLen ty + 4)) (wordBytes nhood)

variable {p : UInt32 × Nat}

section
variable (hid : p.1 ∈ c.newNhood)
include hid

omit hfit in
/-- The new record of a neighbour. -/
theorem relocated_nbrWrites (hkept : c.Kept mem p.1) :
    c.Relocated (c.nbrWrites mem p (c.updated p.1 (c.storedNbrs p.1))) p := by
  have hle := c.packed.range_le
  have hlt := c.packed.range_lt
  have hlen := length_updated_le hid
  constructor
  · -- the number and the list are what was written last
    generalize c.updated p.1 (c.storedNbrs p.1) = nhood at hlen
    have hcount : (c.nbrWrites mem p nhood).read (c.slotAddr p.2 + m.vectorLen ty) 2 =
        le 2 nhood.length := by
      rw [nbrWrites, read_write_of_disjoint _ _ _ (.inl (by omega))]
      have hself := read_write_self (mem.write (c.slotAddr p.2)
        (mem.read (c.slotAddr (c.id2loc p.1)) m.maxNodeLen)) (c.slotAddr p.2 + m.vectorLen ty)
        (le 2 nhood.length)
      rwa [length_le] at hself
    have hwords := read_write_self ((mem.write (c.slotAddr p.2)
      (mem.read (c.slotAddr (c.id2loc p.1)) m.maxNodeLen)).write
      (c.slotAddr p.2 + m.vectorLen ty) (le 2 nhood.length))
      (c.slotAddr p.2 + (m.vectorLen ty + 4)) (wordBytes nhood)
    rw [length_wordBytes] at hwords
    rw [getNbrs_ofAddr, hcount, ofLe_le (by omega)]
    exact (congrArg ofWords hwords).trans (ofWords_wordBytes nhood)
  · intro i hi hother
    generalize c.updated p.1 (c.storedNbrs p.1) = nhood at hlen
    rw [fields_nnbrs, fields_nDenseNbrs, fields_nbrs, fields_attrs] at hother
    obtain ⟨hwords, hle2⟩ := length_bytes nhood
    have hcopy : (mem.write (c.slotAddr p.2)
        (mem.read (c.slotAddr (c.id2loc p.1)) m.maxNodeLen)) (c.slotAddr p.2 + i) =
        c.disk (m.nodeAddr (c.id2loc p.1) + i) :=
      (mem.write_read_apply _ mem _ hi).trans (hkept i hi)
    refine Eq.trans ?_ hcopy
    rcases hother with hbefore | ⟨hfrom, hto⟩ | hafter
    · exact (write_of_lt _ _ _ (by omega)).trans (write_of_lt _ _ _ (by omega))
    · exact (write_of_lt _ _ _ (by omega)).trans (write_of_ge _ _ _ (by omega))
    · exact (write_of_ge _ _ _ (by omega)).trans (write_of_ge _ _ _ (by omega))

omit hfit in
theorem Relocated.of_sameSlot {mem' : Image}
    (h : c.Relocated mem p) (hsame : c.SameSlot mem mem' p.2) : c.Relocated mem' p := by
  have hroom := c.packed.fits
  have hle := c.packed.range_le
  refine ⟨?_, fun i hi hother => (hsame i hi).trans (h.others i hi hother)⟩
  have hread : ∀ off len, off + len ≤ m.maxNodeLen →
      mem'.read (c.slotAddr p.2 + off) len = mem.read (c.slotAddr p.2 + off) len := by
    intro off len hin
    refine read_congr fun i hi => ?_
    rw [add_assoc]
    exact hsame _ (by omega)
  -- the list is inside the record, since it is not too long
  have hcount : ofLe (mem.read (c.slotAddr p.2 + m.vectorLen ty) 2) ≤ m.range := by
    have hlen := length_updated_le hid
    rw [← h.nbrs, getNbrs_ofAddr, length_ofWords _ _ (length_read ..)] at hlen
    exact hlen
  rw [← h.nbrs, getNbrs_ofAddr, getNbrs_ofAddr, hread (m.vectorLen ty) 2 (by omega),
    hread _ _ (by omega)]

/-- The loop body for a neighbour whose record is still in its slot. -/
theorem updateNbr_eq (hloc : p.2 ∈ c.locs) (hkept : c.Kept mem p.1) :
    c.updateNbr mem p = .ok (c.nbrWrites mem p (c.updated p.1 (c.storedNbrs p.1))) := by
  have hroom := c.packed.fits
  have hle := c.packed.range_le
  have hlen := length_updated_le hid
  have hslot := c.slot_le hfit (c.id2loc p.1)
  have hslot' := c.slot_le hfit p.2
  have hmap := mapped_of_mem_locs hloc
  obtain ⟨hwords, hle2⟩ := length_bytes (c.updated p.1 (c.storedNbrs p.1))
  rw [updateNbr, if_neg (pageBufMap_ne_none hid), loadNbrs_eq hfit hid hkept, fields_nnbrs,
    fields_nbrs, fields_coords]
  dsimp only [bind, Except.bind]
  rw [load_eq (mapped_of_mem_nhood hid) (by omega) (by omega)]
  dsimp only
  rw [store_eq hmap (by rw [length_read]; omega) (by rw [length_read]; omega)]
  dsimp only
  rw [store_eq hmap (by omega) (by omega)]
  dsimp only
  rw [store_eq hmap (by omega) (by omega)]
  rfl

/-- The loop body leaves the other slots. -/
theorem sameSlot_nbrWrites
    (hloc : p.2 ∈ c.locs) {loc : Nat} (hmap : c.Mapped loc) (hne : loc ≠ p.2) :
    c.SameSlot mem (c.nbrWrites mem p (c.updated p.1 (c.storedNbrs p.1))) loc := by
  have hroom := c.packed.fits
  have hle := c.packed.range_le
  have hlen := length_updated_le hid
  have hmap' := mapped_of_mem_locs hloc
  obtain ⟨hwords, hle2⟩ := length_bytes (c.updated p.1 (c.storedNbrs p.1))
  have hcopy : c.SameSlot mem (mem.write (c.slotAddr p.2 + 0)
      (mem.read (c.slotAddr (c.id2loc p.1)) m.maxNodeLen)) loc :=
    sameSlot_write hfit hmap hmap' hne (by rw [length_read]; omega)
  exact (hcopy.trans (sameSlot_write hfit hmap hmap' hne (by omega))).trans
    (sameSlot_write hfit hmap hmap' hne (by omega))

end

/-- **The loop over the neighbours.**  Each gets its new record, and the slots that were not
handed out for them stay. -/
theorem updateNbrs_spec {ps : List (UInt32 × Nat)} (hnd : (ps.map Prod.snd).Nodup)
    (hps : ∀ p ∈ ps, p.1 ∈ c.newNhood ∧ p.2 ∈ c.locs) :
    ∀ {mem : Image}, (∀ p ∈ ps, c.Kept mem p.1) →
      ∃ mem', ps.foldlM c.updateNbr mem = .ok mem' ∧ (∀ p ∈ ps, c.Relocated mem' p) ∧
        ∀ loc, c.Mapped loc → loc ∉ ps.map Prod.snd → c.SameSlot mem mem' loc := by
  induction ps with
  | nil =>
    intro mem _
    exact ⟨mem, rfl, fun p hp => absurd hp not_mem_nil, fun _ _ _ _ _ => rfl⟩
  | cons p ps ih =>
    intro mem hkept
    obtain ⟨hp, hrest⟩ := nodup_cons.mp hnd
    obtain ⟨hid, hloc⟩ := hps p mem_cons_self
    have hps' : ∀ q ∈ ps, q.1 ∈ c.newNhood ∧ q.2 ∈ c.locs :=
      fun q hq => hps q (mem_cons_of_mem _ hq)
    have hstep := updateNbr_eq hfit hid hloc (hkept p mem_cons_self)
    have hrelocated := relocated_nbrWrites hid (hkept p mem_cons_self)
    have hframe : ∀ loc, c.Mapped loc → loc ≠ p.2 →
        c.SameSlot mem (c.nbrWrites mem p (c.updated p.1 (c.storedNbrs p.1))) loc :=
      fun _ => sameSlot_nbrWrites hfit hid hloc
    generalize c.nbrWrites mem p (c.updated p.1 (c.storedNbrs p.1)) = mem₁ at *
    have hkept' : ∀ q ∈ ps, c.Kept mem₁ q.1 := by
      intro q hq
      have hqid := (hps' q hq).1
      exact (hkept q (mem_cons_of_mem _ hq)).of_sameSlot
        (hframe _ (mapped_of_mem_nhood hqid) fun heq => id2loc_not_mem hqid (heq ▸ hloc))
    obtain ⟨mem', hrun, hall, hsame⟩ := ih hrest hps' hkept'
    refine ⟨mem', ?_, fun q hq => ?_, fun loc hmap hno => ?_⟩
    · rw [foldlM_cons, hstep]
      exact hrun
    · rcases mem_cons.mp hq with rfl | hq
      · exact hrelocated.of_sameSlot hid (hsame _ (mapped_of_mem_locs hloc) hp)
      · exact hall q hq
    · rw [map_cons, mem_cons, not_or] at hno
      exact (hframe loc hmap hno.1).trans (hsame loc hmap hno.2)

end

/-! ## The new record -/

theorem mapM_eq_ok {f : UInt32 → Except InsertError (List UInt32)} {g : UInt32 → List UInt32}
    {l : List UInt32} (h : ∀ a ∈ l, f a = .ok (g a)) : l.mapM f = .ok (l.map g) := by
  induction l with
  | nil => rfl
  | cons a l ih =>
    rw [mapM_cons, h a mem_cons_self, ih fun b hb => h b (mem_cons_of_mem _ hb)]
    rfl

/-- The bytes of the attributes that are written. -/
def attrBytes (c : InPlaceInsert ty m) : List UInt8 :=
  match c.attrs with
  | none => []
  | some a => if 0 < m.attrSize then AttrBytes.serialize a else []

/-- What goes to the record of the new point. -/
def targetData (c : InPlaceInsert ty m) : NodeData where
  vec := c.point
  nbrs := c.newNhood
  attrs := c.attrBytes
  dense := c.sample (c.newNhood.map c.storedNbrs)

/-- The writes to it, in their order. -/
def targetWrites (c : InPlaceInsert ty m) : List (Nat × List UInt8) :=
  let node := ofAddr ty m (c.slotAddr c.targetLoc)
  [(node.coords, c.point), (node.nnbrs, le 2 c.newNhood.length),
    (node.nbrs, wordBytes c.newNhood), (node.attrs, c.attrBytes),
    (node.denseNbrs, wordBytes c.targetData.dense),
    (node.nDenseNbrs, le 2 c.targetData.dense.length)]

theorem fits_targetData (h : ¬ c.TooLarge) : c.targetData.Fits ty m where
  vec := c.length_point.le
  nbrs := c.length_nhood
  attrs := by
    show c.attrBytes.length ≤ _
    rw [attrBytes]
    split
    · exact Nat.zero_le _
    · next a ha =>
      split
      · next hpos => exact Nat.le_of_not_lt fun hlt => h ⟨a, ha, hpos, hlt⟩
      · exact Nat.zero_le _
  dense := by
    show (c.sample _).length ≤ _
    exact GraphIndex.length_sampleTwoHopNbrs_le ..

theorem twoHopCands_eq_nil_iff (seen ids : List UInt32) :
    twoHopCands seen ids = [] ↔ ∀ id ∈ ids, id ∈ seen := by
  have hloop : ∀ (ids : List UInt32) (s : List UInt32 × List UInt32),
      ((ids.foldl (fun (s : List UInt32 × List UInt32) id =>
        if id ∈ s.1 then s else (id :: s.1, s.2 ++ [id])) s).2 = [] ↔
        s.2 = [] ∧ ∀ id ∈ ids, id ∈ s.1) := by
    intro ids
    induction ids with
    | nil => exact fun s => by simp
    | cons id ids ih =>
      intro s
      rw [foldl_cons, ih, forall_mem_cons]
      by_cases hid : id ∈ s.1
      · rw [if_pos hid, and_iff_right hid]
      · rw [if_neg hid]
        refine iff_of_false (fun h => ?_) fun h => hid h.2.1
        exact absurd h.1 (append_ne_nil_of_right_ne_nil _ (cons_ne_nil _ _))
  rw [twoHopCands, hloop, and_iff_right rfl]

/-- When nothing is sampled: there is no room, or the lists of the neighbours have only the new
point and other neighbours. -/
theorem sample_eq_nil_iff : c.sample (c.newNhood.map c.storedNbrs) = [] ↔ m.rangeDense ≤ m.range ∨
      ∀ id ∈ c.newNhood, ∀ x ∈ c.storedNbrs id, x = c.targetId ∨ x ∈ c.newNhood := by
  have hlookup : ∀ id ∈ c.newNhood,
      ((c.newNhood.zip (c.newNhood.map c.storedNbrs)).lookup id).getD [] = c.storedNbrs id := by
    intro id hid
    have hzip : ∀ l : List UInt32, id ∈ l →
        (l.zip (l.map c.storedNbrs)).lookup id = some (c.storedNbrs id) := by
      intro l
      induction l with
      | nil => exact fun h => absurd h not_mem_nil
      | cons a l ih =>
        intro hmem
        rw [map_cons, zip_cons_cons, lookup_cons]
        by_cases hia : id = a
        · rw [hia, beq_self_eq_true]
        · rw [beq_eq_false_iff_ne.mpr hia]
          exact ih ((mem_cons.mp hmem).resolve_left hia)
    rw [hzip _ hid]
    rfl
  rw [sample, sampleTwoHopNbrs]
  split
  · next hzero => exact iff_of_true rfl (.inl (by omega))
  · next hpos =>
    have hroom : ¬ m.rangeDense ≤ m.range := by omega
    rw [or_iff_right hroom, if_pos rfl, take_eq_nil_iff, or_iff_right hpos]
    have hperm := c.shuffle.perm (twoHopCands (c.newNhood ++ [c.targetId]) (c.newNhood.flatMap
      fun id => if id = c.targetId then c.newNhood
        else ((c.newNhood.zip (c.newNhood.map c.storedNbrs)).lookup id).getD []))
    rw [← length_eq_zero_iff, hperm.length_eq, length_eq_zero_iff, twoHopCands_eq_nil_iff]
    simp only [mem_flatMap, mem_append, mem_singleton]
    constructor
    · intro h id hid x hx
      have hne : id ≠ c.targetId := fun heq => c.target_new (heq ▸ hid)
      exact (h x ⟨id, hid, by rwa [if_neg hne, hlookup id hid]⟩).symm
    · rintro h x ⟨id, hid, hx⟩
      have hne : id ≠ c.targetId := fun heq => c.target_new (heq ▸ hid)
      rw [if_neg hne, hlookup id hid] at hx
      exact (h id hid x hx).symm

variable (mem : Image)

/-- The beginning of `writeTarget`, up to the attributes. -/
theorem writeTarget_begin :
    c.writeTarget mem = (c.storeAttrs (((mem.write (c.slotAddr c.targetLoc) c.point).write
        (c.slotAddr c.targetLoc + m.vectorLen ty) (le 2 c.newNhood.length)).write
        (c.slotAddr c.targetLoc + (m.vectorLen ty + 4)) (wordBytes c.newNhood))).bind
      c.storeDense := by
  have hbody := c.packed.body_le_ioSize c.targetLoc
  have hroom := c.packed.fits
  have hle := c.packed.range_le
  have hlen := c.length_nhood
  have hpoint := c.length_point
  have hmap := mapped_of_mem_locs (targetLoc_mem (c := c))
  obtain ⟨hwords, hle2⟩ := length_bytes c.newNhood
  rw [writeTarget, fields_nnbrs, fields_nbrs, fields_coords, store_eq hmap (by omega) (by omega)]
  dsimp only [bind, Except.bind]
  rw [store_eq hmap (by omega) (by omega)]
  dsimp only
  rw [store_eq hmap (by omega) (by omega)]
  rfl

theorem storeAttrs_eq (h : ¬ c.TooLarge) : c.storeAttrs mem = .ok (mem.write
      (c.slotAddr c.targetLoc + (m.vectorLen ty + (1 + m.range) * 4)) c.attrBytes) := by
  have hbody := c.packed.body_le_ioSize c.targetLoc
  have hroom := c.packed.fits
  have hle := c.packed.range_le
  have hmap := mapped_of_mem_locs (targetLoc_mem (c := c))
  rw [storeAttrs, attrBytes]
  cases hattrs : c.attrs with
  | none => exact congrArg Except.ok (write_nil ..).symm
  | some a =>
    dsimp only
    by_cases hpos : 0 < m.attrSize
    · have hsmall : ¬ m.attrSize < (AttrBytes.serialize a).length := fun hlt =>
        h ⟨a, hattrs, hpos, hlt⟩
      rw [if_pos hpos, if_neg hsmall, if_pos hpos, fields_attrs,
        store_eq hmap (by omega) (by omega)]
    · rw [if_neg hpos, if_neg hpos, write_nil]

theorem storeDense_eq {mem : Image} (hfit : c.newNhood = [] ∨ m.ioSize = m.ioSizeDense)
    (hkept : ∀ id ∈ c.newNhood, c.Kept mem id) :
    c.storeDense mem = .ok ((mem.write
      (c.slotAddr c.targetLoc + (m.vectorLen ty + (1 + m.range) * 4 + m.attrSize))
      (wordBytes c.targetData.dense)).write (c.slotAddr c.targetLoc + (m.vectorLen ty + 2))
      (le 2 c.targetData.dense.length)) := by
  have hbody := c.packed.body_le_ioSize c.targetLoc
  have hroom := c.packed.fits
  have hmap := mapped_of_mem_locs (targetLoc_mem (c := c))
  have hlists : (c.newNhood.mapM fun id => c.loadNbrs mem (c.id2loc id)) =
      .ok (c.newNhood.map c.storedNbrs) := by
    refine mapM_eq_ok fun id hid => ?_
    rcases hfit with hnil | hfit
    · rw [hnil] at hid
      exact absurd hid not_mem_nil
    · exact loadNbrs_eq hfit hid (hkept id hid)
  have hdense : c.sample (c.newNhood.map c.storedNbrs) = c.targetData.dense := rfl
  -- without neighbours nothing is sampled
  have hlen : c.targetData.dense.length ≤ m.rangeDense - m.range ∧
      (c.newNhood = [] → c.targetData.dense = []) := by
    rw [← hdense]
    refine ⟨GraphIndex.length_sampleTwoHopNbrs_le .., fun hnil => ?_⟩
    refine sample_eq_nil_iff.mpr (.inr fun id hid => ?_)
    rw [hnil] at hid
    exact absurd hid not_mem_nil
  have hin : m.slotOff c.targetLoc + (m.vectorLen ty + (1 + m.range) * 4 + m.attrSize) +
      (wordBytes c.targetData.dense).length ≤ m.ioSize := by
    rw [length_wordBytes]
    rcases hfit with hnil | hfit
    · rw [hlen.2 hnil]
      omega
    · have := c.slot_le hfit c.targetLoc
      omega
  obtain ⟨hwords, hle2⟩ := length_bytes c.targetData.dense
  rw [storeDense, fields_nDenseNbrs, fields_denseNbrs]
  split
  · rw [hlists]
    dsimp only [bind, Except.bind]
    rw [hdense, store_eq hmap hin (by omega)]
    dsimp only
    rw [store_eq hmap (by omega) (by omega)]
  · next hzero =>
    have hnone : c.targetData.dense = [] := length_eq_zero_iff.mp (by omega)
    have hle2 : (le 2 0).length = 2 := length_le ..
    rw [hnone, store_eq hmap (by omega) (by omega)]
    exact congrArg (fun image : Image => Except.ok (image.write _ _)) (write_nil ..).symm

/-- **The record of the new point.** -/
theorem writeTarget_eq (h : ¬ c.TooLarge) (hfit : c.newNhood = [] ∨ m.ioSize = m.ioSizeDense)
    {mem : Image} (hkept : ∀ id ∈ c.newNhood, c.Kept mem id) :
    c.writeTarget mem = .ok (mem.writeAll c.targetWrites) := by
  have hroom := c.packed.fits
  have hle := c.packed.range_le
  have hlen := c.length_nhood
  have hpoint := c.length_point
  have hattrs := (fits_targetData h).attrs
  have hmap := mapped_of_mem_locs (targetLoc_mem (c := c))
  obtain ⟨hwords, hle2⟩ := length_bytes c.newNhood
  rw [writeTarget_begin, storeAttrs_eq _ h]
  refine (storeDense_eq hfit fun id hid => ?_).trans ?_
  · -- the slot of a neighbour is another one
    have hne : c.id2loc id ≠ c.targetLoc := fun heq => id2loc_not_mem hid (heq ▸ targetLoc_mem)
    have hfit := hfit.resolve_left (ne_nil_of_mem hid)
    have hmapId := mapped_of_mem_nhood hid
    have hcoords : c.SameSlot mem (mem.write (c.slotAddr c.targetLoc + 0) c.point)
        (c.id2loc id) := sameSlot_write hfit hmapId hmap hne (by omega)
    exact (((hkept id hid).of_sameSlot hcoords).of_sameSlot
      (sameSlot_write hfit hmapId hmap hne (by omega))).of_sameSlot
      (sameSlot_write hfit hmapId hmap hne (by omega)) |>.of_sameSlot
      (sameSlot_write hfit hmapId hmap hne (by show _ + c.targetData.attrs.length ≤ _; omega))
  · simp only [targetWrites, writeAll, foldl_cons, foldl_nil, ofAddr, add_assoc]

theorem targetWrites_perm : c.targetWrites.Perm (GraphIndex.fieldWrites
    (ofAddr ty m (c.slotAddr c.targetLoc)) c.targetData) :=
  -- the attributes are written before the dense neighbours
  (((@List.perm_append_comm _ [_] [_, _]).cons _).cons _).cons _

/-! ## The whole insert -/

/-- The attributes are checked before anything can be outside. -/
theorem run_of_tooLarge (h : c.TooLarge) : c.run = .error .exit := by
  obtain ⟨a, ha, hpos, hlt⟩ := h
  have hexit : ∀ mem, c.storeAttrs mem = .error .exit := by
    intro mem
    rw [storeAttrs, ha]
    dsimp only
    rw [if_pos hpos, if_pos hlt]
  rw [run, c.readPages_eq]
  dsimp only [bind, Except.bind]
  rw [writeTarget_begin, hexit]
  rfl

theorem map_snd_zip_locs :
    (c.newNhood.zip c.locs).map Prod.snd = c.locs.take c.newNhood.length := by
  rw [zip_eq_zip_take_min, c.given.length, Nat.min_eq_left (Nat.le_succ _)]
  refine map_snd_zip ?_
  rw [length_take, length_take, Nat.min_self]
  exact min_le_left ..

/-- The last slot is that of the new point. -/
theorem targetLoc_not_mem : c.targetLoc ∉ (c.newNhood.zip c.locs).map Prod.snd := by
  have hlen := c.given.length
  have hlast : c.targetLoc = c.locs[c.newNhood.length] :=
    getD_eq_getElem _ _ (by omega)
  rw [map_snd_zip_locs, hlast]
  intro hmem
  obtain ⟨j, hj, heq⟩ := mem_take_iff_getElem.mp hmem
  have := (c.given.nodup.getElem_inj_iff).mp heq
  omega

/-- **An insert whose records fit their pages.** -/
theorem run_spec (h : ¬ c.TooLarge) (hfit : c.newNhood = [] ∨ m.ioSize = m.ioSizeDense) :
    ∃ mem, c.run = .ok mem ∧ (∀ p ∈ c.newNhood.zip c.locs, c.Relocated mem p) ∧
      c.SameSlot (c.pagesRead.writeAll c.targetWrites) mem c.targetLoc := by
  have hkept : ∀ id ∈ c.newNhood, c.Kept c.pagesRead id := fun id hid =>
    kept_pagesRead (hfit.resolve_left (ne_nil_of_mem hid)) hid
  rw [run, c.readPages_eq]
  dsimp only [bind, Except.bind]
  rw [writeTarget_eq h hfit hkept]
  rcases hfit with hnil | hfit
  · rw [hnil]
    exact ⟨_, rfl, fun p hp => absurd hp not_mem_nil, fun _ _ => rfl⟩
  · have hps : ∀ p ∈ c.newNhood.zip c.locs, p.1 ∈ c.newNhood ∧ p.2 ∈ c.locs := fun p hp =>
      of_mem_zip hp
    have hnd : ((c.newNhood.zip c.locs).map Prod.snd).Nodup := by
      rw [map_snd_zip_locs]
      exact c.given.nodup.sublist (take_sublist _ _)
    have hstart : ∀ p ∈ c.newNhood.zip c.locs,
        c.Kept (c.pagesRead.writeAll c.targetWrites) p.1 := by
      intro p hp
      have hid := (hps p hp).1
      have hne : c.id2loc p.1 ≠ c.targetLoc := fun heq =>
        id2loc_not_mem hid (heq ▸ targetLoc_mem)
      refine (hkept p.1 hid).of_sameSlot fun i hi => ?_
      refine writeAll_of_outside _ fun w hw => ?_
      have hin := GraphIndex.mem_fieldWrites c.packed (fits_targetData h)
        (targetWrites_perm.mem_iff.mp hw)
      rcases slotAddr_apart hfit (mapped_of_mem_nhood hid) (mapped_of_mem_locs targetLoc_mem)
        hne with hlt | hlt
      · exact .inl (by omega)
      · exact .inr (by omega)
    obtain ⟨mem, hrun, hall, hsame⟩ := updateNbrs_spec hfit hnd hps hstart
    exact ⟨mem, hrun, hall, hsame _ (mapped_of_mem_locs targetLoc_mem) targetLoc_not_mem⟩

/-! ## Records that are longer than their page -/

/-- An access may be outside, but it does not exit. -/
theorem map_address_ne_exit {β : Type} (f : Nat → β) (loc off len : Nat) :
    (c.address loc off len).map f ≠ .error .exit := by
  cases haddr : c.address loc off len with
  | ok a => exact fun h => by cases h
  | error e =>
    intro h
    cases h
    exact address_ne_exit loc off len haddr

theorem load_ne_exit (loc off len : Nat) : c.load mem loc off len ≠ .error .exit :=
  map_address_ne_exit _ _ _ _

theorem store_ne_exit (loc off : Nat) (bytes : List UInt8) :
    c.store mem loc off bytes ≠ .error .exit := map_address_ne_exit _ _ _ _

theorem bind_ne_exit {α β : Type} {e : Except InsertError α} {f : α → Except InsertError β}
    (he : e ≠ .error .exit) (hf : ∀ a, f a ≠ .error .exit) : e >>= f ≠ .error .exit := by
  cases e with
  | ok a => exact hf a
  | error e =>
    intro h
    cases h
    exact he rfl

theorem loadNbrs_ne_exit (loc : Nat) : c.loadNbrs mem loc ≠ .error .exit :=
  bind_ne_exit (load_ne_exit _ _ _ _) fun _ =>
    bind_ne_exit (load_ne_exit _ _ _ _) fun _ h => by cases h

theorem storeDense_ne_exit : c.storeDense mem ≠ .error .exit := by
  rw [storeDense]
  split
  · refine bind_ne_exit ?_ fun lists =>
      bind_ne_exit (store_ne_exit _ _ _ _) fun _ => store_ne_exit _ _ _ _
    generalize c.newNhood = ids
    induction ids with
    | nil => exact fun h => by cases h
    | cons id ids ih =>
      rw [mapM_cons]
      exact bind_ne_exit (loadNbrs_ne_exit _ _) fun _ => bind_ne_exit ih fun _ h => by cases h
  · exact store_ne_exit _ _ _ _

/-- A record that is longer than its buffer is not copied. -/
theorem updateNbr_outside (hlong : m.ioSize < m.maxNodeLen) (mem : Image) {p : UInt32 × Nat}
    (hid : p.1 ∈ c.newNhood) : c.updateNbr mem p = .error .outside := by
  have hload : c.load mem (c.id2loc p.1) 0 m.maxNodeLen = .error .outside := by
    rw [load, address]
    split
    · rfl
    · rw [if_neg fun hin => by omega]
      rfl
  rw [updateNbr, if_neg (pageBufMap_ne_none hid)]
  dsimp only [bind, Except.bind]
  cases hnbrs : c.loadNbrs mem (c.id2loc p.1) with
  | ok nbrs =>
    rw [hload]
  | error e =>
    cases e with
    | outside => rfl
    | exit => exact absurd hnbrs (loadNbrs_ne_exit _ _)

/-- An insert with a neighbour then leaves its buffers. -/
theorem run_outside (hlong : m.ioSize < m.maxNodeLen) (hne : c.newNhood ≠ [])
    (h : ¬ c.TooLarge) : c.run = .error .outside := by
  rw [run, c.readPages_eq]
  dsimp only [bind, Except.bind]
  rw [writeTarget_begin, storeAttrs_eq _ h]
  dsimp only [Except.bind]
  generalize write _ _ _ = mem
  cases hdense : c.storeDense mem with
  | error e =>
    cases e with
    | outside => rfl
    | exit => exact absurd hdense (storeDense_ne_exit mem)
  | ok mem' =>
    obtain ⟨id, ids, hids⟩ := exists_cons_of_ne_nil hne
    have hlen := c.given.length
    obtain ⟨loc, locs, hlocs⟩ := exists_cons_of_ne_nil
      (ne_nil_of_length_pos (l := c.locs) (by omega))
    dsimp only
    rw [hids, hlocs, zip_cons_cons, foldlM_cons,
      updateNbr_outside hlong mem' (hids ▸ mem_cons_self)]
    rfl

/-- **When an insert stays inside.**  For any layout and any insert: every access is inside its
page and its record, and each neighbour keeps all of its record but the list, if and only if a
page has room for a whole record or there is no neighbour (or the attributes are too large, and
the process exits before). -/
theorem insert_safe_iff (c : InPlaceInsert ty m) :
    c.Safe ↔ c.TooLarge ∨ c.newNhood = [] ∨ m.ioSize = m.ioSizeDense := by
  constructor
  · intro hsafe
    by_contra hno
    rw [not_or, not_or] at hno
    obtain ⟨hsmall, hne, hgap⟩ := hno
    have hout := run_outside (c.packed.ioSize_lt_of_ne hgap) hne hsmall
    rcases hsafe with hexit | ⟨mem, hok, -⟩
    · rw [hout] at hexit
      cases hexit
    · rw [hout] at hok
      cases hok
  · intro h
    by_cases hlarge : c.TooLarge
    · exact .inl (run_of_tooLarge hlarge)
    · obtain ⟨mem, hrun, hall, -⟩ := run_spec hlarge (h.resolve_left hlarge)
      exact .inr ⟨mem, hrun, hall⟩

/-! ## A record that does not fit -/

/-- Vectors of 1000 floats with 8 neighbours and 56 dense neighbours: without these a record has
4036 bytes, with them 4260. -/
def longRecords : SsdMetadata where
  npoints := 1
  dataDim := 1000
  entryPoint := 0
  maxNodeLen := 4260
  nnodesPerSector := 0
  nptsCurShard := 1
  attrSize := 0
  range := 8
  rOod := 0
  vectorType := .raw
  maxNpts := 1
  rangeDense := 64
  normalNodeLen := 4036
  entryPointId := 0

theorem packed_longRecords : longRecords.Packed .float :=
  ⟨by decide, by decide, by decide, by decide, by decide⟩

/-- Location `0` has the only record. -/
def onlyZero : SlotMap := ⟨fun loc => if loc = 0 then .id 0 else .invalid, [], 1⟩

theorem given_longRecords : SlotsGiven longRecords.layout 2 onlyZero [1, 2] [] := by
  refine ⟨rfl, by decide, by decide, fun l hl _ l' hsame => .inr ?_⟩
  have hsector : ∀ loc, longRecords.layout.locSectorNo loc = 1 + loc * 2 := fun _ => rfl
  have hpos : 1 ≤ l := by
    rcases mem_pair.mp hl with rfl | rfl
    · exact le_rfl
    · exact Nat.le_succ _
  rw [hsector, hsector] at hsame
  show 1 ≤ l'
  omega

theorem stored_zero : ∀ id ∈ [(0 : UInt32)],
    ofLe (read (fun _ => 0) (longRecords.nodeAddr 0 + longRecords.vectorLen .float) 2) ≤
      longRecords.range := fun _ _ => by decide

theorem live_zero : ∀ id ∈ [(0 : UInt32)],
    onlyZero.loc2id 0 = .id id.toNat ∧ 0 < onlyZero.curLoc := by
  intro id hid
  obtain rfl := mem_singleton.mp hid
  exact ⟨rfl, by decide⟩

theorem dropLast_lt (_ : UInt32) (l : List UInt32) (h : l ≠ []) : l.dropLast.length < l.length := by
  have := length_pos_iff.mpr h
  rw [length_dropLast]
  omega

theorem valid_of_none (a : Dsl.Attributes) (h : none = some a) : AttrBytes.Valid a := by
  cases h

/-- The second point gets the first one as its neighbour. -/
def secondPoint : InPlaceInsert .float longRecords where
  targetId := 1
  point := List.replicate 4000 0
  attrs := none
  newNhood := [0]
  id2loc _ := 0
  deltaPrune _ l := l.dropLast
  shuffle := ⟨fun l => l, List.Perm.refl⟩
  disk _ := 0
  updateBuf _ := 0
  slots := onlyZero
  locs := [1, 2]
  pagesNeedToRead := []
  packed := packed_longRecords
  length_point := length_replicate
  attrs_valid := valid_of_none
  attrSize_room := .inl rfl
  target_new := by decide
  length_nhood := by decide
  nhood_lt := by decide
  prune_lt := dropLast_lt
  given := given_longRecords
  live := live_zero
  stored := stored_zero

/-- **An access outside its page.**  The copy of the record of the first point has 4260 bytes,
and its buffer 4096. -/
theorem longRecord_outside : secondPoint.run = .error .outside ∧ ¬ secondPoint.Safe := by
  have hrun : secondPoint.run = .error .outside := by
    refine run_outside (by decide) (cons_ne_nil _ _) ?_
    rintro ⟨a, ha, -⟩
    cases ha
  refine ⟨hrun, ?_⟩
  rintro (hexit | ⟨mem, hok, -⟩)
  · rw [hrun] at hexit
    cases hexit
  · rw [hrun] at hok
    cases hok

end InPlaceInsert
end PipeANN
