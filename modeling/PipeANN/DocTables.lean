import PipeANN.CollectionStore
import PipeANN.LastWrites

/-! # The two tables of the document store

The document store (`doc_store.h`) is one key-value store with two families of keys:
`'t'` and a tag has the primary key and the document of a row, `'i'` and a primary key has
the tag.  Here the store is a map of byte strings, written by `put_batch` and
`delete_by_ids`.  Read through its keys it is a pair of tables (`DocTables`), on which the
writes act row by row (`tables_putBatch`, `tables_deleteByIds`).

The tables are meant to be inverse to each other.  Deletes keep that; a batch with fresh tags
keeps it just when its primary keys are distinct, new, and without NUL bytes: the second tag
of a primary key hides the first but does not remove its row, and the value of a tag is split
at the first NUL.

`DocStore`, the store as the collections use it, has the same tables after any calls
(`same_foldl_call`).
-/
namespace PipeANN
open List Function UInt32
open Option (some map_some)
open Prod (fst)

/-! ## Tables -/

/-- What a document store answers: the primary key and the document of a tag, and the tag of
a primary key. -/
@[ext] structure DocTables (τ : Type) where
  entry : τ → Option (Text × Text)
  tagOf : Text → Option τ

namespace DocTables
variable {τ : Type} [DecidableEq τ]

def empty : DocTables τ := ⟨fun _ => none, fun _ => none⟩

/-- The writes for one row. -/
def put (T : DocTables τ) (row : τ × Text × Text) : DocTables τ :=
  ⟨update T.entry row.1 (some (decodeTagValue (encodeTagValue row.2.1 row.2.2))),
    update T.tagOf row.2.1 (some row.1)⟩

def putBatch (T : DocTables τ) (rows : List (τ × Text × Text)) : DocTables τ := rows.foldl put T

/-- The writes that remove a primary key and its tag. -/
def erase (T : DocTables τ) (id : Text) (tag : τ) : DocTables τ :=
  ⟨update T.entry tag none, update T.tagOf id none⟩

/-- The tags are looked up before anything is removed. -/
def deleteByIds (T : DocTables τ) (ids : List Text) : DocTables τ :=
  ids.foldl (fun acc id => (T.tagOf id).elim acc (acc.erase id)) T

/-- The tables are inverse to each other. -/
structure Inverse (T : DocTables τ) : Prop where
  /-- No primary key is stored under two tags. -/
  one : ∀ tag tag' id doc doc', T.entry tag = some (id, doc) → T.entry tag' = some (id, doc') →
    tag = tag'
  /-- The primary key of a stored tag maps back to it. -/
  back : ∀ tag id doc, T.entry tag = some (id, doc) → T.tagOf id = some tag
  /-- The tag of a primary key is stored, with this primary key. -/
  forth : ∀ id tag, T.tagOf id = some tag → ∃ doc, T.entry tag = some (id, doc)

variable {T : DocTables τ}

omit [DecidableEq τ] in
theorem Inverse.of_back_forth
    (back : ∀ tag id doc, T.entry tag = some (id, doc) → T.tagOf id = some tag)
    (forth : ∀ id tag, T.tagOf id = some tag → ∃ doc, T.entry tag = some (id, doc)) : T.Inverse :=
  ⟨fun tag tag' id doc doc' h h' =>
    some.inj ((back tag id doc h).symm.trans (back tag' id doc' h')), back, forth⟩

/-! ### Batches -/

theorem putBatch_eq (T : DocTables τ) (rows : List (τ × Text × Text)) : T.putBatch rows =
      ⟨rows.foldl (fun f row => update f row.1
          (some (decodeTagValue (encodeTagValue row.2.1 row.2.2)))) T.entry,
        rows.foldl (fun f row => update f row.2.1 (some row.1)) T.tagOf⟩ := by
  induction rows generalizing T with
  | nil => rfl
  | cons row rows ih => exact ih (T.put row)

section
variable {T : DocTables τ} {rows : List (τ × Text × Text)} {row : τ × Text × Text}

theorem entry_putBatch_of_not_mem {tag : τ} (h : tag ∉ rows.map fst) :
    (T.putBatch rows).entry tag = T.entry tag := by
  rw [putBatch_eq]
  exact LastWrites.foldl_update_of_forall_ne fun row hrow heq =>
    h (heq ▸ mem_map_of_mem hrow)

theorem entry_putBatch (hnd : (rows.map fst).Nodup)
    (hrow : row ∈ rows) : (T.putBatch rows).entry row.1 =
      some (decodeTagValue (encodeTagValue row.2.1 row.2.2)) := by
  rw [putBatch_eq]
  exact LastWrites.foldl_update_of_nodup _ hnd hrow

theorem tagOf_putBatch_of_not_mem {id : Text} (h : id ∉ rows.map (·.2.1)) :
    (T.putBatch rows).tagOf id = T.tagOf id := by
  rw [putBatch_eq]
  exact LastWrites.foldl_update_of_forall_ne fun row hrow heq =>
    h (heq ▸ mem_map_of_mem hrow)

theorem tagOf_putBatch (hnd : (rows.map (·.2.1)).Nodup)
    (hrow : row ∈ rows) : (T.putBatch rows).tagOf row.2.1 = some row.1 := by
  rw [putBatch_eq]
  exact LastWrites.foldl_update_of_nodup (fun row => row.2.1) hnd hrow

/-- A primary key of the batch gets one of its tags there. -/
theorem exists_tagOf_putBatch {id : Text} (h : id ∈ rows.map (·.2.1)) :
    ∃ row ∈ rows, row.2.1 = id ∧ (T.putBatch rows).tagOf id = some row.1 := by
  rw [putBatch_eq]
  exact LastWrites.exists_foldl_update_eq (fun row : τ × Text × Text => row.2.1) h

end

/-- The value of a tag gives its primary key back up to the first NUL. -/
theorem decodeTagValue_encodeTagValue_fst (id doc : Text) :
    (decodeTagValue (encodeTagValue id doc)).1 = id.takeWhile (· ≠ '\x00') := by
  rw [decodeTagValue, encodeTagValue]
  induction id <;> simp_all [takeWhile_cons]

theorem decodeTagValue_encodeTagValue {id : Text} (h : '\x00' ∉ id) (doc : Text) :
    decodeTagValue (encodeTagValue id doc) = (id, doc) := by
  have hne : ∀ c ∈ id, decide (c ≠ '\x00') = true := fun c hc =>
    decide_eq_true fun heq => h (heq ▸ hc)
  rw [decodeTagValue, encodeTagValue, takeWhile_append_of_pos hne, dropWhile_append_of_pos hne]
  simp

/-- The primary keys of a batch are distinct, new, and without NUL bytes. -/
structure BatchOk (T : DocTables τ) (rows : List (τ × Text × Text)) : Prop where
  distinct : (rows.map (·.2.1)).Nodup
  plain : ∀ row ∈ rows, '\x00' ∉ row.2.1
  new : ∀ row ∈ rows, T.tagOf row.2.1 = none

section
variable {T : DocTables τ} {rows : List (τ × Text × Text)}

theorem BatchOk.entry_iff (hok : T.BatchOk rows) (hnd : (rows.map fst).Nodup) {tag : τ}
    (hmem : tag ∈ rows.map fst) (id doc : Text) :
    (T.putBatch rows).entry tag = some (id, doc) ↔ (tag, id, doc) ∈ rows := by
  have hentry : ∀ row ∈ rows, (T.putBatch rows).entry row.1 = some (row.2.1, row.2.2) :=
    fun row hrow => by
      rw [entry_putBatch hnd hrow, decodeTagValue_encodeTagValue (hok.plain row hrow)]
  grind

/-- A batch with fresh tags that meets the condition keeps the tables inverse. -/
theorem Inverse.putBatch (hT : T.Inverse) (hnd : (rows.map fst).Nodup)
    (hfresh : ∀ tag ∈ rows.map fst, T.entry tag = none) (hok : T.BatchOk rows) :
    (T.putBatch rows).Inverse := by
  refine .of_back_forth (fun tag id doc h => ?_) (fun id tag h => ?_)
  · by_cases hmem : tag ∈ rows.map fst
    · exact tagOf_putBatch hok.distinct ((hok.entry_iff hnd hmem id doc).mp h)
    · -- an older row: its primary key is not in the batch
      rw [entry_putBatch_of_not_mem hmem] at h
      have hold := hT.back tag id doc h
      have hnew := hok.new
      rw [tagOf_putBatch_of_not_mem, hold]
      grind
  · by_cases hmem : id ∈ rows.map (·.2.1)
    · obtain ⟨row, hrow, rfl, htag⟩ := exists_tagOf_putBatch hmem
      obtain rfl : row.1 = tag := some.inj (htag.symm.trans h)
      exact ⟨row.2.2, (hok.entry_iff hnd (mem_map_of_mem hrow) _ _).mpr hrow⟩
    · rw [tagOf_putBatch_of_not_mem hmem] at h
      obtain ⟨doc, hdoc⟩ := hT.forth id tag h
      refine ⟨doc, ?_⟩
      rw [entry_putBatch_of_not_mem, hdoc]
      grind

/-- Only a batch that meets the condition keeps the tables inverse. -/
theorem Inverse.batchOk (hT : T.Inverse) (hnd : (rows.map fst).Nodup)
    (hfresh : ∀ tag ∈ rows.map fst, T.entry tag = none) (h : (T.putBatch rows).Inverse) :
    T.BatchOk rows := by
  -- the primary key of a row has the tag of some row of the batch, which must decode to it
  have hplain : ∀ row ∈ rows, '\x00' ∉ row.2.1 := fun row hrow => by
    obtain ⟨row', hrow', hid, htag⟩ :=
      exists_tagOf_putBatch (mem_map_of_mem hrow)
    obtain ⟨doc, hdoc⟩ := h.forth _ _ htag
    rw [entry_putBatch hnd hrow'] at hdoc
    have hfst := congrArg fst (some.inj hdoc)
    rw [decodeTagValue_encodeTagValue_fst, hid] at hfst
    intro hmem
    have hall := all_eq_true.mp (all_takeWhile (p := (· ≠ '\x00')) (l := row.2.1))
    rw [hfst] at hall
    exact absurd rfl (of_decide_eq_true (hall _ hmem))
  have htag : ∀ row ∈ rows, (T.putBatch rows).tagOf row.2.1 = some row.1 := fun row hrow => by
    refine h.back _ _ row.2.2 ?_
    rw [entry_putBatch hnd hrow, decodeTagValue_encodeTagValue (hplain row hrow)]
  refine ⟨?_, hplain, fun row hrow => ?_⟩
  · -- the tags are distinct and each is found by its primary key
    have hmap : (rows.map (·.2.1)).map (T.putBatch rows).tagOf = (rows.map fst).map some := by
      rw [map_map, map_map]
      exact map_congr_left htag
    refine Nodup.of_map (T.putBatch rows).tagOf ?_
    rw [hmap]
    exact hnd.map fun _ _ => some.inj
  · -- an older row with this primary key would still be stored
    rcases hold : T.tagOf row.2.1 with _ | tag
    · rfl
    obtain ⟨doc, hdoc⟩ := hT.forth _ _ hold
    have hnot : tag ∉ rows.map fst := by grind
    have := h.back tag row.2.1 doc ((entry_putBatch_of_not_mem hnot).trans hdoc)
    obtain rfl : row.1 = tag := some.inj ((htag row hrow).symm.trans this)
    exact absurd (mem_map_of_mem hrow) hnot

end

/-! ### Deletes -/

section
variable (T : DocTables τ) (ids : List Text)

/-- A delete from tables `acc` that are read through `T`. -/
theorem foldl_erase_spec (acc : DocTables τ) :
    (∀ tag, (ids.foldl (fun acc id => (T.tagOf id).elim acc (acc.erase id)) acc).entry tag =
      if ∃ id ∈ ids, T.tagOf id = some tag then none else acc.entry tag) ∧
    ∀ id, (ids.foldl (fun acc id => (T.tagOf id).elim acc (acc.erase id)) acc).tagOf id =
      if id ∈ ids ∧ T.tagOf id ≠ none then none else acc.tagOf id := by
  induction ids generalizing acc with
  | nil => simp
  | cons id ids ih =>
    obtain ⟨hentry, htag⟩ := ih ((T.tagOf id).elim acc (acc.erase id))
    refine ⟨fun tag => ?_, fun id' => ?_⟩
    · rw [foldl_cons, hentry]
      rcases hid : T.tagOf id with _ | t
      · simp [hid]
      · by_cases ht : tag = t <;> simp [hid, erase, ht, eq_comm]
    · rw [foldl_cons, htag]
      rcases hid : T.tagOf id with _ | t <;> by_cases h : id' = id <;> simp [hid, erase, h]

theorem entry_deleteByIds (tag : τ) : (T.deleteByIds ids).entry tag =
    if ∃ id ∈ ids, T.tagOf id = some tag then none else T.entry tag :=
  (T.foldl_erase_spec ids T).1 tag

theorem tagOf_deleteByIds (id : Text) :
    (T.deleteByIds ids).tagOf id = if id ∈ ids then none else T.tagOf id := by
  rw [deleteByIds, (T.foldl_erase_spec ids T).2 id]
  by_cases h : T.tagOf id = none <;> simp [h]

end

/-- Deletes keep the tables inverse. -/
theorem Inverse.deleteByIds (hT : T.Inverse) (ids : List Text) : (T.deleteByIds ids).Inverse := by
  obtain ⟨-, hback, hforth⟩ := hT
  refine .of_back_forth (fun tag id doc h => ?_) (fun id tag h => ?_)
  · rw [entry_deleteByIds, Option.ite_none_left_eq_some] at h
    grind [tagOf_deleteByIds]
  · rw [tagOf_deleteByIds, Option.ite_none_left_eq_some] at h
    obtain ⟨doc, hdoc⟩ := hforth id tag h.2
    -- a deleted primary key with the same tag would be this one
    refine ⟨doc, ?_⟩
    rw [entry_deleteByIds, if_neg (by grind), hdoc]

/-- A deleted primary key is found in neither table. -/
theorem Inverse.not_found (hT : T.Inverse) {ids : List Text} {id : Text}
    (hid : id ∈ ids) : (T.deleteByIds ids).tagOf id = none ∧
      ∀ tag doc, (T.deleteByIds ids).entry tag ≠ some (id, doc) := by
  have hnone : (T.deleteByIds ids).tagOf id = none := by rw [tagOf_deleteByIds, if_pos hid]
  exact ⟨hnone, fun tag doc h =>
    absurd (((hT.deleteByIds ids).back tag id doc h).symm.trans hnone) (Option.some_ne_none _)⟩

end DocTables

/-! ## The store of bytes -/

/-- `kTagPrefix`. -/
def kTagPrefix : Char := 't'

/-- `kIdPrefix`. -/
def kIdPrefix : Char := 'i'

/-- `put_be64`: eight bytes, the highest first. -/
def putBe64 (v : Nat) : Text :=
  (List.range 8).map fun i => Char.ofNat (v / 2 ^ (8 * (7 - i)) % 256)

/-- `get_be64`. -/
def getBe64 (src : Text) : Nat := (src.take 8).foldl (fun v c => v * 256 + c.toNat) 0

/-- `tag_key`. -/
def tagKey (tag : UInt32) : Text := kTagPrefix :: putBe64 tag.toNat

/-- `id_key`. -/
def idKey (id : Text) : Text := kIdPrefix :: id

theorem toNat_ofNat_byte (n : Nat) : (Char.ofNat (n % 256)).toNat = n % 256 := by
  rw [Char.ofNat, dif_pos (.inl (by omega))]
  rfl

theorem getBe64_putBe64 (tag : UInt32) : getBe64 (putBe64 tag.toNat) = tag.toNat := by
  have hlt := tag.toNat_lt
  simp only [getBe64, putBe64, range, range.loop, map_cons,
    take_succ_cons, take_zero, foldl_cons, foldl_nil, toNat_ofNat_byte]
  omega

theorem tagKey_inj {tag tag' : UInt32} (h : tagKey tag = tagKey tag') : tag = tag' := by
  have := congrArg getBe64 (cons.inj h).2
  rw [getBe64_putBe64, getBe64_putBe64] at this
  exact UInt32.toNat_inj.mp this

theorem tagKey_ne_idKey (tag : UInt32) (id : Text) : tagKey tag ≠ idKey id := fun h =>
  absurd (cons.inj h).1 (by decide)

/-- The key-value store. -/
structure DocDb where
  kv : Text → Option Text

namespace DocDb

def empty : DocDb := ⟨fun _ => none⟩

variable (db : DocDb)

/-- The value of a tag and of a primary key are written, or removed (`none`). -/
def write (tag : UInt32) (id : Text) (v w : Option Text) : DocDb :=
  ⟨update (update db.kv (tagKey tag) v) (idKey id) w⟩

/-- The two `Put`s of `put_batch` for a row. -/
def putRow (row : UInt32 × Text × Text) : DocDb :=
  db.write row.1 row.2.1 (some (encodeTagValue row.2.1 row.2.2)) (some (putBe64 row.1.toNat))

/-- `put_batch`. -/
def putBatch (rows : List (UInt32 × Text × Text)) : DocDb := rows.foldl putRow db

/-- `get_tags_by_ids`, for one primary key. -/
def getTagById (id : Text) : Option Nat := (db.kv (idKey id)).map getBe64

/-- `get_by_tags`, for one tag. -/
def getByTag (tag : UInt32) : Option (Text × Text) :=
  (db.kv (tagKey tag)).map decodeTagValue

/-- The two `Delete`s of `delete_by_ids` for a primary key that was found. -/
def deleteRow (id : Text) (tag : Nat) : DocDb :=
  db.write (ofNat tag) id none none

/-- `delete_by_ids`. -/
def deleteByIds (ids : List Text) : DocDb :=
  ids.foldl (fun acc id => (db.getTagById id).elim acc (acc.deleteRow id)) db

/-- The tables; the callers of `get_tags_by_ids` cast what it returns to a tag. -/
def tables : DocTables UInt32 :=
  ⟨db.getByTag, fun id => (db.getTagById id).map ofNat⟩

/-- A write changes one entry of each table. -/
theorem tables_write (tag : UInt32) (id : Text) (v w : Option Text) :
    (db.write tag id v w).tables = ⟨update db.tables.entry tag (v.map decodeTagValue),
        update db.tables.tagOf id ((w.map getBe64).map ofNat)⟩ := by
  have hid : ∀ {id' : Text}, id' ≠ id → idKey id' ≠ idKey id := fun h he =>
    h (cons.inj he).2
  rw [DocTables.mk.injEq]
  refine ⟨funext fun tag' => ?_, funext fun id' => ?_⟩
  · change (update (update db.kv (tagKey tag) v) (idKey id) w (tagKey tag')).map decodeTagValue = _
    rw [update_of_ne (tagKey_ne_idKey tag' id)]
    by_cases h : tag' = tag
    · rw [h, update_self, update_self]
    · rw [update_of_ne (mt tagKey_inj h), update_of_ne h]
      rfl
  · change ((update (update db.kv (tagKey tag) v) (idKey id) w
      (idKey id')).map getBe64).map ofNat = _
    by_cases h : id' = id
    · rw [h, update_self, update_self]
    · rw [update_of_ne (hid h), update_of_ne h]
      rfl

theorem tables_putRow (row : UInt32 × Text × Text) :
    (db.putRow row).tables = db.tables.put row := by
  rw [putRow, tables_write, DocTables.put, map_some, map_some, map_some,
    getBe64_putBe64, UInt32.ofNat_toNat]

theorem tables_putBatch (rows : List (UInt32 × Text × Text)) :
    (db.putBatch rows).tables = db.tables.putBatch rows := by
  exact (foldl_hom tables fun db row => (tables_putRow db row).symm).symm

theorem tables_deleteByIds (ids : List Text) :
    (db.deleteByIds ids).tables = db.tables.deleteByIds ids := by
  -- the tags come from the store before the delete, whatever has been removed so far
  refine (foldl_hom tables fun acc id => ?_).symm
  have htag : db.tables.tagOf id = (db.getTagById id).map ofNat := rfl
  rw [htag]
  rcases db.getTagById id with _ | tag
  · rfl
  · exact (tables_write acc (ofNat tag) id none none).symm

end DocDb

/-! ## Runs -/

/-- A store and the tags that were given to it. -/
structure DocRun where
  db : DocDb
  used : List UInt32

inductive DocCall where
  | putBatch (rows : List (UInt32 × Text × Text))
  | deleteByIds (ids : List Text)

namespace DocRun

def initial : DocRun := ⟨DocDb.empty, []⟩

/-- A call; the tags of a batch are fresh. -/
def step (s : DocRun) : DocCall → Option DocRun
  | .putBatch rows =>
    if (rows.map Prod.fst).Nodup ∧ (rows.map Prod.fst).all (· ∉ s.used) then
      some ⟨s.db.putBatch rows, rows.map Prod.fst ++ s.used⟩
    else none
  | .deleteByIds ids => some ⟨s.db.deleteByIds ids, s.used⟩

/-- The primary keys of a batch are distinct, new, and without NUL bytes. -/
def CallOk (s : DocRun) : DocCall → Prop
  | .putBatch rows => s.db.tables.BatchOk rows
  | .deleteByIds _ => True

/-- The tables are inverse to each other and every stored tag was given. -/
structure Sound (s : DocRun) : Prop where
  inverse : s.db.tables.Inverse
  used : ∀ tag, s.db.tables.entry tag ≠ none → tag ∈ s.used

theorem sound_initial : initial.Sound where
  inverse := .of_back_forth (fun _ _ _ h => nomatch h) (fun _ _ h => nomatch h)
  used _ h := absurd rfl h

variable {s s' : DocRun}

theorem step_putBatch {rows : List (UInt32 × Text × Text)} (h : s.step (.putBatch rows) = some s') :
    ((rows.map fst).Nodup ∧ ∀ tag ∈ rows.map fst, tag ∉ s.used) ∧
      s' = ⟨s.db.putBatch rows, rows.map fst ++ s.used⟩ := by
  grind [step]

/-- Stored tags stay given tags, whatever the call. -/
theorem Sound.used_step (hs : s.Sound) {call : DocCall}
    (h : s.step call = some s') : ∀ tag, s'.db.tables.entry tag ≠ none → tag ∈ s'.used := by
  intro tag htag
  cases call with
  | putBatch rows =>
    obtain ⟨-, rfl⟩ := step_putBatch h
    rw [DocDb.tables_putBatch] at htag
    have hused := hs.used tag
    grind [DocTables.entry_putBatch_of_not_mem]
  | deleteByIds ids =>
    cases h
    rw [DocDb.tables_deleteByIds, DocTables.entry_deleteByIds] at htag
    exact hs.used tag fun h => htag (by rw [h, ite_self])

/-- A call keeps the tables inverse just when it meets the condition. -/
theorem Sound.inverse_step_iff (hs : s.Sound) {call : DocCall}
    (h : s.step call = some s') : s'.db.tables.Inverse ↔ s.CallOk call := by
  cases call with
  | putBatch rows =>
    obtain ⟨⟨hnd, hnew⟩, rfl⟩ := step_putBatch h
    have hused := hs.used
    have hfresh : ∀ tag ∈ rows.map fst, s.db.tables.entry tag = none := by grind
    rw [DocDb.tables_putBatch]
    exact ⟨hs.inverse.batchOk hnd hfresh, hs.inverse.putBatch hnd hfresh⟩
  | deleteByIds ids =>
    cases h
    rw [DocDb.tables_deleteByIds]
    exact iff_of_true (hs.inverse.deleteByIds ids) trivial

theorem sound_of_reach (h : Reach step CallOk initial s) : s.Sound :=
  h.invariant sound_initial fun _ _ _ hs hok hstep =>
    ⟨(hs.inverse_step_iff hstep).mpr hok, hs.used_step hstep⟩

/-- **The tables of the document store.**  After any calls whose batches have distinct, new
primary keys without NUL bytes, the tables are inverse to each other; the next call keeps
them so just when it is such a call too; and the primary keys of a delete are found in
neither table. -/
theorem tables_inverse {s : DocRun} (h : Reach step CallOk initial s) : s.db.tables.Inverse ∧
      (∀ call s', s.step call = some s' → (s'.db.tables.Inverse ↔ s.CallOk call)) ∧
      ∀ ids s', s.step (.deleteByIds ids) = some s' → ∀ id ∈ ids,
        s'.db.getTagById id = none ∧ ∀ tag doc, s'.db.getByTag tag ≠ some (id, doc) := by
  have hs := sound_of_reach h
  refine ⟨hs.inverse, fun call s' hstep => hs.inverse_step_iff hstep, ?_⟩
  intro ids s' hstep id hid
  cases hstep
  have hnot := hs.inverse.not_found hid
  rw [← DocDb.tables_deleteByIds] at hnot
  exact ⟨Option.map_eq_none_iff.mp hnot.1, hnot.2⟩

/-- Two rows, of which one is deleted. -/
theorem tables_inverse_two : ∃ s,
    runSteps step initial [.putBatch [(0, ['a'], []), (1, ['b'], [])], .deleteByIds [['a']]] =
        some s ∧
      s.db.tables.Inverse ∧ s.db.getTagById ['b'] = some 1 := by
  have hok : initial.CallOk (.putBatch [(0, ['a'], []), (1, ['b'], [])]) :=
    ⟨by decide, by decide, fun _ _ => rfl⟩
  refine ⟨_, rfl, ?_, by decide +kernel⟩
  exact (tables_inverse (.step (.deleteByIds [['a']]) (.step _ .refl hok rfl) trivial rfl)).1

/-- A primary key inserted twice: both rows are stored, the second one is found, and a delete
of the primary key leaves the first. -/
theorem repeated_id_survives_delete : ∃ s s',
    runSteps step initial [.putBatch [(0, ['a'], ['x'])], .putBatch [(1, ['a'], ['y'])]] = some s ∧
      s.step (.deleteByIds [['a']]) = some s' ∧
      s.db.getByTag 0 = some (['a'], ['x']) ∧ s.db.getByTag 1 = some (['a'], ['y']) ∧
      s.db.getTagById ['a'] = some 1 ∧ ¬ s.db.tables.Inverse ∧
      s'.db.getTagById ['a'] = none ∧ s'.db.getByTag 0 = some (['a'], ['x']) := by
  refine ⟨_, _, rfl, rfl, by decide +kernel, by decide +kernel, by decide +kernel, fun h => ?_,
    by decide +kernel, by decide +kernel⟩
  exact absurd (h.back 0 ['a'] ['x'] (by decide +kernel)) (by decide +kernel)

end DocRun

/-! ## The store of the collections -/

namespace DocStore

/-- The tables of the store that the collections use. -/
def tables (d : DocStore) : DocTables Nat := ⟨d.getByTag, d.getTagById⟩

theorem lookup_cons_eq_ite {κ β : Type} [DecidableEq κ] [BEq κ] [LawfulBEq κ] (k : κ) (e : κ × β)
    (l : List (κ × β)) : (e :: l).lookup k = if k = e.1 then some e.2 else l.lookup k := by
  grind

theorem lookup_putTag (tag : Nat) (v : Text) (l : List (Nat × Text)) (tag' : Nat) :
    (putTag tag v l).lookup tag' = if tag' = tag then some v else l.lookup tag' := by
  induction l <;> grind [putTag]

theorem lookup_filter_ne {κ β : Type} [DecidableEq κ] [BEq κ] [LawfulBEq κ] (k : κ)
    (l : List (κ × β)) (k' : κ) :
    (l.filter (·.1 ≠ k)).lookup k' = if k' = k then none else l.lookup k' := by
  induction l <;> grind

/-- `put_batch` writes the tables row by row. -/
theorem tables_putBatch (d : DocStore) (rows : List (Nat × Text × Text)) :
    (d.putBatch rows).tables = d.tables.putBatch rows := by
  refine (foldl_hom tables fun d row => ?_).symm
  obtain ⟨tag, id, doc⟩ := row
  rw [tables, tables, DocTables.put, DocTables.mk.injEq]
  refine ⟨funext fun tag' => ?_, funext fun id' => ?_⟩
  · rw [getByTag, lookup_putTag, update_apply]
    split <;> rfl
  · change _ = ((id, tag) :: d.byId.filter (·.1 ≠ id)).lookup id'
    rw [lookup_cons_eq_ite, lookup_filter_ne, update_apply]
    split_ifs <;> rfl

/-- So does `delete_by_ids`. -/
theorem tables_deleteByIds (d : DocStore) (ids : List Text) :
    (d.deleteByIds ids).tables = d.tables.deleteByIds ids := by
  refine (foldl_hom tables fun acc id => ?_).symm
  have htag : d.tables.tagOf id = d.getTagById id := rfl
  rw [htag]
  rcases d.getTagById id with _ | tag
  · rfl
  rw [Option.elim_some, tables, tables, DocTables.erase, DocTables.mk.injEq]
  refine ⟨funext fun tag' => ?_, funext fun id' => ?_⟩
  · rw [getByTag, lookup_filter_ne, update_apply]
    split <;> rfl
  · change _ = (acc.byId.filter (·.1 ≠ id)).lookup id'
    rw [lookup_filter_ne, update_apply]
    rfl

end DocStore

variable {T : DocTables Nat} {U : DocTables UInt32}

/-- The same tables, with tags of 32 bits in one of them. -/
def DocTables.Same (T : DocTables Nat) (U : DocTables UInt32) : Prop :=
  (∀ tag, T.entry tag.toNat = U.entry tag) ∧ ∀ id, T.tagOf id = (U.tagOf id).map toNat

theorem DocTables.Same.putBatch (h : T.Same U) (rows : List (UInt32 × Text × Text)) :
    (T.putBatch (rows.map fun r => (r.1.toNat, r.2))).Same (U.putBatch rows) := by
  rw [DocTables.putBatch, foldl_map]
  refine foldl_rel h fun r _ T U h => ⟨fun tag => ?_, fun id => ?_⟩
  · simp [put, update_apply, UInt32.toNat_inj, h.1]
  · simp only [put, update_apply, h.2]
    split <;> rfl

theorem DocTables.Same.deleteByIds (h : T.Same U) (ids : List Text) :
    (T.deleteByIds ids).Same (U.deleteByIds ids) := by
  refine foldl_rel h fun id _ T' U' h' => ?_
  rw [h.2]
  cases U.tagOf id with
  | none => exact h'
  | some tag =>
    refine ⟨fun tag' => ?_, fun id' => ?_⟩
    · simp [erase, update_apply, UInt32.toNat_inj, h'.1]
    · simp only [erase, Option.map_some, Option.elim_some, update_apply, h'.2]
      split <;> rfl

/-- A call of the store that the collections use. -/
def DocStore.call (d : DocStore) : DocCall → DocStore
  | .putBatch rows => d.putBatch (rows.map fun r => (r.1.toNat, r.2))
  | .deleteByIds ids => d.deleteByIds ids

/-- A call of the store of bytes. -/
def DocDb.call (db : DocDb) : DocCall → DocDb
  | .putBatch rows => db.putBatch rows
  | .deleteByIds ids => db.deleteByIds ids

/-- **The two models of the document store agree** after any calls. -/
theorem DocStore.same_foldl_call (calls : List DocCall) :
    (calls.foldl call empty).tables.Same (calls.foldl DocDb.call .empty).tables := by
  refine foldl_rel (r := fun (d : DocStore) (db : DocDb) => d.tables.Same db.tables)
    ⟨fun _ => rfl, fun _ => rfl⟩ fun c _ d db h => ?_
  cases c with
  | putBatch rows =>
    rw [call, DocDb.call, tables_putBatch, DocDb.tables_putBatch]
    exact h.putBatch rows
  | deleteByIds ids =>
    rw [call, DocDb.call, tables_deleteByIds, DocDb.tables_deleteByIds]
    exact h.deleteByIds ids

end PipeANN
