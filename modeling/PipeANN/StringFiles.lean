import PipeANN.ByteImages
import PipeANN.DiskLayout
import PipeANN.StringListing

/-! # The files of the string index

`write_sorted_file` (`attribute.h`) writes the number of entries, the number of samples, the
offset of every thousandth entry, and the entries, each with its id, the number of words of its
key and the key.  The offsets and the keys there are also kept in memory; `load_header` reads
them from the file.  `pre_filter` takes the part of the file between two of the offsets, reads
the sectors with it and goes from entry to entry.

`preFilter_eq` relates this to the listing by entries: the samples are on the borders of
entries, so the scan passes whole entries only.

All of this needs the number of samples, which is computed in 32 bits.  With fewer than `1000`
ids left unused the sum wraps to a number below `1000`, there are no samples, and nothing of the
file is listed (`tooMany_listsNothing`).  `stringFiles_exact_iff` says that this is the only way to
miss a string or to list a wrong one.

Strings have fewer than `2 ^ 31` bytes, as `next_string_attr_prefix` counts them with an `int`.
-/
namespace PipeANN.StringFiles
open List Function ByteImages SortedLists OrderedMap Nat UInt32 Image
open Dsl (Attribute Direction CText StringIndex packStringAttr stringAttrView kSampleRate
  writeSortedFile nextStringAttrPrefix)
open Dsl.Contents (keyed mem_keyed)

/-! ## Writing -/

/-- What is kept in memory for a file. -/
structure FileIndex where
  nEntries : Nat
  sampledOffsets : List Nat
  histogram : List Attribute
  fileSize : Nat

/-- The bytes of an entry: the id, `klen` and the key. -/
def entryBytes (e : Text × Nat) : List UInt8 :=
  le 4 e.2 ++ (le 4 (packStringAttr e.1).length ++ wordBytes (packStringAttr e.1))

/-- The loop that computes `entry_offsets`, and `cur` after it. -/
def offsetLoop : Nat → List (Text × Nat) → List Nat × Nat
  | cur, [] => ([], cur)
  | cur, e :: entries =>
    let rest := offsetLoop (cur + (2 * 4 + (packStringAttr e.1).length * 4)) entries
    (cur :: rest.1, rest.2)

/-- `ns`, the number of samples. -/
def numSamples (n : UInt32) : UInt32 :=
  (n + UInt32.ofNat kSampleRate - 1) / UInt32.ofNat kSampleRate

/-- `write_sorted_file`, from the sorted entries on. -/
def writeFile (entries : List (Text × Nat)) : File × FileIndex :=
  let n := UInt32.ofNat entries.length
  let ns := (numSamples n).toNat
  let offsets := offsetLoop (2 * 4 + ns * 8) (entries.take n.toNat)
  let sampled := (List.range ns).map fun i => offsets.1.getD (i * kSampleRate) 0
  let bytes := le 4 n.toNat ++ (le 4 ns ++ (sampled.flatMap (le 8) ++ entries.flatMap entryBytes))
  (File.empty.pwrite bytes 0,
    { nEntries := n.toNat
      sampledOffsets := sampled
      histogram := (List.range ns).map fun i =>
        packStringAttr (entries.getD (i * kSampleRate) ([], 0)).1
      fileSize := offsets.2 })

/-! ## Loading -/

/-- The key of the entry at an offset. -/
def keyAt (f : File) (off : Nat) : Attribute :=
  let klen := ofLe (f.pread 4 (off + 4))
  ofWords (f.pread (4 * klen) (off + 8))

/-- `load_header`. -/
def loadHeader (f : File) (old : FileIndex) : FileIndex :=
  if f.size < 2 * 4 then { old with nEntries := 0, fileSize := f.size }
  else
    let ns := ofLe (f.pread 4 4)
    let sampled := (List.range ns).map fun i => ofLe (f.pread 8 (2 * 4 + 8 * i))
    { nEntries := ofLe (f.pread 4 0)
      sampledOffsets := sampled
      histogram := sampled.map (keyAt f)
      fileSize := f.size }

/-! ## Scanning -/

/-- The loop of `scan_range` over the buffer. -/
def scanLoop (buf : Image) (limit off : Nat) : List (Attribute × Nat) :=
  if off + 2 * 4 ≤ limit then
    let id := ofLe (buf.read off 4)
    let klen := ofLe (buf.read (off + 4) 4)
    if limit < off + (2 * 4 + klen * 4) then []
    else (ofWords (buf.read (off + 2 * 4) (4 * klen)), id) ::
      scanLoop buf limit (off + (2 * 4 + klen * 4))
  else []
termination_by limit - off

/-- `scan_range`.  The sectors are read into a buffer, which keeps what it had behind the end of
the file. -/
def scanRange (f : File) (alloc : Image) (range : Nat × Nat) : List (Attribute × Nat) :=
  if range.2 ≤ range.1 then []
  else
    let alignedOff := range.1 / sectorLen * sectorLen
    let readLen := roundUp (range.2 - alignedOff) sectorLen
    scanLoop (alloc.write 0 (f.pread readLen alignedOff)) (range.2 - alignedOff)
      (range.1 - alignedOff)

namespace FileIndex
variable (ix : FileIndex)

/-- The keys of the samples, as they are compared. -/
def keys : List Text := ix.histogram.map stringAttrView

/-- `r_idx` of `byte_range_for`. -/
def rIdx : Option Text → Nat
  | none => ix.sampledOffsets.length
  | some hi =>
    let rIt := lowerBound ix.keys hi
    if rIt < ix.sampledOffsets.length then rIt + 1 else rIt

/-- `byte_range_for`. -/
def byteRangeFor (lo : Text) (hi : Option Text) : Nat × Nat :=
  if ix.histogram = [] ∨ ix.sampledOffsets = [] then (0, 0)
  else
    (ix.sampledOffsets.getD (lowerBound ix.keys lo - 1) 0,
      if ix.sampledOffsets.length ≤ ix.rIdx hi then ix.fileSize
      else ix.sampledOffsets.getD (ix.rIdx hi) 0)

end FileIndex

/-! ## The index -/

/-- The files and maps of `StringAttrIndex`. -/
structure Files where
  file : Direction → File
  index : Direction → FileIndex
  delta : Direction → List (Text × List Nat)
  keyed : ∀ dir, Keyed (delta dir)

/-- `save_both`. -/
def saveBoth (entries : List (Text × Nat)) : Files where
  file dir := (writeFile (writeSortedFile (entries.map fun p => (dir.key p.1, p.2)))).1
  index dir := (writeFile (writeSortedFile (entries.map fun p => (dir.key p.1, p.2)))).2
  delta _ := []
  keyed _ := keyed_nil

/-- What may follow. -/
inductive Op where
  /-- `insert`, as long as the delta is not merged. -/
  | insert (attr : CText) (vectorId : UInt32)
  | loadHeader (dir : Direction)

namespace Files
variable (s : Files)

def step : Op → Files
  | .insert attr vectorId =>
    { s with
      delta := fun dir => push (dir.key attr.text) vectorId.toNat (s.delta dir)
      keyed := fun dir =>
        (push_spec (dir.key attr.text) vectorId.toNat (s.keyed dir)).1 }
  | .loadHeader dir =>
    { s with index := update s.index dir (loadHeader (s.file dir) (s.index dir)) }

/-- `pre_filter`. -/
def preFilter (alloc : Image) (dir : Direction) (query : Attribute) : List Nat :=
  let lo := dir.key (stringAttrView query)
  let hi := nextStringAttrPrefix lo
  let range := (s.index dir).byteRangeFor lo hi
  let scanned := if range.1 < range.2 then
      (scanRange (s.file dir) alloc range).filter fun e =>
        inRange (some lo) hi (stringAttrView e.1)
    else []
  let inDelta := OrderedMap.range (some lo) hi (s.delta dir)
  sortUnique (scanned.map Prod.snd ++ inDelta.flatMap Prod.snd)

end Files

/-! ## Contents -/

/-- A string whose bytes an `int` can count. -/
structure IntText extends CText where
  length_lt : text.length < 2 ^ 31

/-- The strings that a list of calls inserts. -/
def inserted (ops : List Op) : List (Text × UInt32) :=
  ops.filterMap fun op =>
    match op with
    | .insert attr vectorId => some (attr.text, vectorId)
    | .loadHeader _ => none

/-- The strings that were written, and what followed; every id has one string. -/
structure Session where
  saved : List (IntText × UInt32)
  ops : List Op
  oneString : (saved.map Prod.snd ++ (inserted ops).map Prod.snd).Nodup

/-- `PREFIX`: the string begins with the query.  `SUFFIX`: it ends with it. -/
def Matches (query s : Text) : Direction → Prop
  | .byPrefix => query <+: s
  | .bySuffix => query <:+ s

namespace Session
variable (c : Session)

def savedRows : List (Text × Nat) := c.saved.map fun p => (p.1.text, p.2.toNat)

def insertedRows : List (Text × Nat) := (inserted c.ops).map fun p => (p.1, p.2.toNat)

/-- The index at the end. -/
def files : Files := c.ops.foldl Files.step (saveBoth c.savedRows)

/-- **What should be listed**: the ascending list of the ids whose string begins, or ends, with
the query. -/
structure Exact (dir : Direction) (query : Text) (ids : List Nat) : Prop where
  ascending : Ascending ids
  mem_iff : ∀ id, id ∈ ids ↔
    ∃ p ∈ c.savedRows ++ c.insertedRows, p.2 = id ∧ Matches query p.1 dir

end Session

/-! ## Sizes -/

theorem length_entryBytes (e : Text × Nat) :
    (entryBytes e).length = 2 * 4 + (packStringAttr e.1).length * 4 := by
  simp only [entryBytes, length_append, length_le, length_wordBytes]
  omega

theorem toNat_numSamples (n : Nat) :
    (numSamples (ofNat n)).toNat = (n + 999) % 2 ^ 32 / kSampleRate := by
  have hone : toNat 1 = 1 := rfl
  have hrate : 1000 % 2 ^ 32 = 1000 := rfl
  simp only [numSamples, kSampleRate, UInt32.toNat_div, UInt32.toNat_sub, UInt32.toNat_add,
    UInt32.toNat_ofNat', hrate]
  omega

theorem numSamples_of_fits {n : Nat} (h : n + 999 < 2 ^ 32) :
    (numSamples (UInt32.ofNat n)).toNat = (n + kSampleRate - 1) / kSampleRate := by
  rw [toNat_numSamples, mod_eq_of_lt h]
  rfl

theorem offsetLoop_snd (entries : List (Text × Nat)) : ∀ cur,
    (offsetLoop cur entries).2 = cur + (entries.flatMap entryBytes).length := by
  induction entries with
  | nil => exact fun _ => rfl
  | cons e entries ih =>
    intro cur
    rw [offsetLoop, ih, flatMap_cons, length_append, length_entryBytes, add_assoc]

theorem getElem?_offsetLoop {entries : List (Text × Nat)} : ∀ {cur i : Nat}, i < entries.length →
    (offsetLoop cur entries).1[i]? = some (cur + ((entries.take i).flatMap entryBytes).length) := by
  induction entries with
  | nil => exact fun hi => absurd hi (not_lt_zero _)
  | cons e entries ih =>
    intro cur i hi
    cases i with
    | zero => rfl
    | succ i =>
      rw [offsetLoop, getElem?_cons_succ, ih (lt_of_succ_lt_succ hi), take_succ_cons,
        flatMap_cons, length_append, length_entryBytes, add_assoc]

/-! ## What is in the file -/

/-- The entries can be written: the numbers fit, and the keys come back. -/
structure Storable (entries : List (Text × Nat)) : Prop where
  id_lt : ∀ e ∈ entries, e.2 < 2 ^ 32
  length_lt : ∀ e ∈ entries, e.1.length < 2 ^ 31
  view : ∀ e ∈ entries, stringAttrView (packStringAttr e.1) = e.1

section
variable (entries : List (Text × Nat))

/-- The number of samples without overflow. -/
def sampleCount : Nat := (entries.length + kSampleRate - 1) / kSampleRate

/-- The offset of an entry, and the size of the file for the entry after the last. -/
def offset (i : Nat) : Nat :=
  2 * 4 + sampleCount entries * 8 + ((entries.take i).flatMap entryBytes).length

/-- What is in memory for the entries. -/
def indexOf : FileIndex where
  nEntries := entries.length
  sampledOffsets := (List.range (sampleCount entries)).map fun i => offset entries (i * kSampleRate)
  histogram := (List.range (sampleCount entries)).map fun i =>
    packStringAttr (entries.getD (i * kSampleRate) ([], 0)).1
  fileSize := offset entries entries.length

/-- What is in the file. -/
structure Written (f : File) : Prop where
  size : f.size = offset entries entries.length
  count : f.image.Holds 0 (le 4 entries.length)
  samples : f.image.Holds 4 (le 4 (sampleCount entries))
  offsets : f.image.Holds 8 ((indexOf entries).sampledOffsets.flatMap (le 8))
  entries : f.image.Holds (offset entries 0) (entries.flatMap entryBytes)

end

section
variable {entries : List (Text × Nat)}

theorem lt_of_sample {i : Nat} (hi : i < sampleCount entries) :
    i * kSampleRate < entries.length := by
  rw [sampleCount, lt_iff_add_one_le, le_div_iff_mul_le (by decide), succ_mul] at hi
  have : 0 < kSampleRate := by decide
  omega

theorem offset_add {i j : Nat} (hij : i ≤ j) : offset entries j =
      offset entries i + (((entries.take j).drop i).flatMap entryBytes).length := by
  have hsplit : (entries.take j).flatMap entryBytes =
      (entries.take i).flatMap entryBytes ++ ((entries.take j).drop i).flatMap entryBytes := by
    rw [← flatMap_append, ← min_eq_left hij, ← take_take, min_eq_left hij, take_append_drop]
  rw [offset, offset, hsplit, length_append, add_assoc _ (length _)]

/-- An offset is that of an entry after it. -/
theorem offset_lt {i j : Nat} (hij : i < j) (hj : j ≤ entries.length) :
    offset entries i < offset entries j := by
  have hlt : i < (entries.take j).length := by
    rw [length_take]
    omega
  rw [offset_add hij.le, drop_eq_getElem_cons hlt, flatMap_cons, length_append, length_entryBytes]
  omega

theorem length_sampledOffsets : (indexOf entries).sampledOffsets.length = sampleCount entries := by
  rw [indexOf, length_map, length_range]

/-- **The file and the memory** after `write_sorted_file`. -/
theorem writeFile_of_fits (h : entries.length + 999 < 2 ^ 32) :
    Written entries (writeFile entries).1 ∧ (writeFile entries).2 = indexOf entries := by
  have hn : (ofNat entries.length).toNat = entries.length :=
    UInt32.toNat_ofNat_of_lt' (by have : UInt32.size = 2 ^ 32 := rfl; omega)
  have hoffsets : (range (sampleCount entries)).map (fun i =>
      (offsetLoop (2 * 4 + sampleCount entries * 8) entries).1.getD (i * kSampleRate) 0) =
      (indexOf entries).sampledOffsets := by
    refine map_congr_left fun i hi => ?_
    rw [getD_eq_getElem?_getD, getElem?_offsetLoop (lt_of_sample (mem_range.mp hi))]
    rfl
  have hsize : 2 * 4 + sampleCount entries * 8 + (entries.flatMap entryBytes).length =
      offset entries entries.length := by
    rw [offset, take_length]
  have hmem : (writeFile entries).2 = indexOf entries := by
    simp only [writeFile, numSamples_of_fits h, hn, take_length, offsetLoop_snd]
    rw [← sampleCount, hoffsets, hsize]
    rfl
  have hfile : (writeFile entries).1 = File.empty.pwrite (le 4 entries.length ++
      (le 4 (sampleCount entries) ++ ((indexOf entries).sampledOffsets.flatMap (le 8) ++
        entries.flatMap entryBytes))) 0 := by
    simp only [writeFile, numSamples_of_fits h, hn, take_length]
    rw [← sampleCount, hoffsets]
  refine ⟨?_, hmem⟩
  have hholds := read_write_self File.empty.image 0 (le 4 entries.length ++
    (le 4 (sampleCount entries) ++ ((indexOf entries).sampledOffsets.flatMap (le 8) ++
      entries.flatMap entryBytes)))
  rw [← Holds, holds_append, holds_append, holds_append] at hholds
  simp only [length_flatMap_le, length_sampledOffsets] at hholds
  obtain ⟨hcount, hsamples, hsampled, hentries⟩ := hholds
  rw [hfile]
  refine ⟨?_, hcount, hsamples, hsampled, ?_⟩
  · show max 0 (0 + length _) = _
    simp only [length_append, length_le, length_flatMap_le, length_sampledOffsets]
    omega
  · have hstart : offset entries 0 = 4 + 4 + 8 * sampleCount entries := by
      rw [offset, take_zero]
      simp only [flatMap_nil, length_nil]
      omega
    rw [hstart]
    exact hentries

end

/-! ## Reading entries -/

/-- The fields of an entry. -/
theorem entry_of_holds {image : Image} {off : Nat} {e : Text × Nat}
    (hid : e.2 < 2 ^ 32) (hlen : e.1.length < 2 ^ 31) (h : image.Holds off (entryBytes e)) :
    ofLe (image.read off 4) = e.2 ∧ ofLe (image.read (off + 4) 4) = (packStringAttr e.1).length ∧
      ofWords (image.read (off + 2 * 4) (4 * (packStringAttr e.1).length)) =
        packStringAttr e.1 := by
  rw [entryBytes, holds_append, holds_append] at h
  obtain ⟨hfirst, hsecond, hwords⟩ := h
  simp only [Holds, length_le, length_wordBytes] at hfirst hsecond hwords
  refine ⟨?_, ?_, ?_⟩
  · rw [hfirst, ofLe_le hid]
  · have := Dsl.length_packStringAttr e.1
    rw [hsecond, ofLe_le (by omega)]
  · rw [hwords, ofWords_wordBytes]

section
variable {entries : List (Text × Nat)} (hs : Storable entries)
include hs

theorem Storable.subset {part : List (Text × Nat)} (h : part ⊆ entries) : Storable part :=
  ⟨fun e he => hs.id_lt e (h he), fun e he => hs.length_lt e (h he), fun e he => hs.view e (h he)⟩

/-- **The loop of `scan_range`** passes the entries between its ends. -/
theorem scanLoop_eq {buf : Image} : ∀ {off : Nat}, buf.Holds off (entries.flatMap entryBytes) →
    scanLoop buf (off + (entries.flatMap entryBytes).length) off =
      entries.map fun e => (packStringAttr e.1, e.2) := by
  induction entries with
  | nil =>
    intro off _
    rw [scanLoop]
    exact if_neg (by simp)
  | cons e entries ih =>
    intro off h
    rw [flatMap_cons, holds_append, length_entryBytes] at h
    obtain ⟨hid, hklen, hkey⟩ := entry_of_holds (hs.id_lt e mem_cons_self)
      (hs.length_lt e mem_cons_self) h.1
    have hlimit : off + ((e :: entries).flatMap entryBytes).length =
        off + (2 * 4 + (packStringAttr e.1).length * 4) + (entries.flatMap entryBytes).length := by
      rw [flatMap_cons, length_append, length_entryBytes]
      omega
    rw [hlimit, scanLoop, if_pos (by omega)]
    simp only [hid, hklen, hkey]
    rw [if_neg (by omega), ih (hs.subset (subset_cons_self _ _)) h.2]
    rfl

theorem length_flatMap_entryBytes_le :
    (entries.flatMap entryBytes).length ≤ (2 ^ 31 + 8) * entries.length := by
  induction entries with
  | nil => exact zero_le _
  | cons e entries ih =>
    have hrest := ih (hs.subset (subset_cons_self _ _))
    have hkey := Dsl.length_packStringAttr e.1
    have hlen := hs.length_lt e mem_cons_self
    rw [flatMap_cons, length_append, length_entryBytes, length_cons]
    omega

/-- The offsets fit 64 bits. -/
theorem offset_lt_size (hfit : entries.length + 999 < 2 ^ 32) :
    offset entries entries.length < 256 ^ 8 := by
  have hle := length_flatMap_entryBytes_le hs
  have hcount : sampleCount entries ≤ entries.length + 999 := div_le_self _ _
  rw [offset, take_length]
  omega

end

section
variable {entries : List (Text × Nat)} {f : File} (hw : Written entries f) {e : Text × Nat}
include hw

theorem Written.entry {i : Nat} (he : entries[i]? = some e) :
    f.image.Holds (offset entries i) (entryBytes e) := by
  have h := hw.entries.element _ _ he
  rwa [offset] at h

theorem offset_le_size {i : Nat} (hi : i ≤ entries.length) : offset entries i ≤ f.size := by
  rw [hw.size]
  rcases lt_or_eq_of_le hi with hlt | rfl
  · exact (offset_lt hlt le_rfl).le
  · exact le_rfl

/-- The key of an entry is read back. -/
theorem keyAt_offset (hs : Storable entries) {i : Nat}
    (he : entries[i]? = some e) : keyAt f (offset entries i) = packStringAttr e.1 := by
  have hmem := mem_of_getElem? he
  have hlt := (List.getElem?_eq_some_iff.mp he).1
  obtain ⟨-, hklen, hkey⟩ := entry_of_holds (hs.id_lt e hmem) (hs.length_lt e hmem) (hw.entry he)
  have hend : offset entries (i + 1) =
      offset entries i + (2 * 4 + (packStringAttr e.1).length * 4) := by
    rw [offset, offset, take_add_one, he, flatMap_append, length_append,
      Option.toList_some, flatMap_singleton, length_entryBytes]
    omega
  have hsize := offset_le_size hw (i := i + 1) hlt
  unfold keyAt
  rw [File.pread_eq (by omega), hklen]
  dsimp only
  rw [File.pread_eq (by omega)]
  exact hkey

/-- **`load_header`** has what was in memory when the file was written. -/
theorem loadHeader_eq (hs : Storable entries) (hfit : entries.length + 999 < 2 ^ 32)
    (old : FileIndex) : loadHeader f old = indexOf entries := by
  have hcount : sampleCount entries ≤ entries.length + 999 := div_le_self _ _
  have hsize : 2 * 4 + sampleCount entries * 8 ≤ f.size := by
    rw [hw.size]
    exact le_add_right _ _
  have hn : ofLe (f.pread 4 0) = entries.length := by
    rw [File.pread_eq (by omega), ← length_le 4 entries.length, hw.count, ofLe_le (by omega)]
  have hns : ofLe (f.pread 4 4) = sampleCount entries := by
    have hread := hw.samples
    rw [Holds, length_le] at hread
    rw [File.pread_eq (by omega), hread, ofLe_le (by omega)]
  have hsampled : ((range (sampleCount entries)).map fun i =>
      ofLe (f.pread 8 (2 * 4 + 8 * i))) = (indexOf entries).sampledOffsets := by
    refine map_congr_left fun i hi => ?_
    have hi := mem_range.mp hi
    have hget : (indexOf entries).sampledOffsets[i]? = some (offset entries (i * kSampleRate)) := by
      rw [indexOf, getElem?_map, getElem?_range hi]
      rfl
    have hread := hw.offsets.element _ _ hget
    rw [length_flatMap_le, length_take, length_sampledOffsets, min_eq_left hi.le,
      Holds, length_le] at hread
    have hlt := (offset_lt (lt_of_sample hi) le_rfl).trans (offset_lt_size hs hfit)
    rw [File.pread_eq (by omega), hread, ofLe_le hlt]
  rw [loadHeader, if_neg (by omega)]
  simp only [hns, hsampled]
  rw [indexOf, ← hw.size]
  congr 1
  rw [map_map]
  refine map_congr_left fun i hi => ?_
  have hlt := lt_of_sample (mem_range.mp hi)
  rw [comp_apply, keyAt_offset hw hs (getElem?_eq_getElem hlt),
    getD_eq_getElem?_getD, getElem?_eq_getElem hlt, Option.getD_some]

/-- **`scan_range`** between the offsets of two entries. -/
theorem scanRange_offset (hs : Storable entries) (alloc : Image) {i j : Nat} (hij : i < j)
    (hj : j ≤ entries.length) :
    scanRange f alloc (offset entries i, offset entries j) =
      ((entries.take j).drop i).map fun e => (packStringAttr e.1, e.2) := by
  have hlt := offset_lt hij hj
  have hadd : offset entries j = offset entries i +
      (((entries.take j).drop i).flatMap entryBytes).length := offset_add hij.le
  have hsize := offset_le_size hw hj
  have haligned := div_mul_le_self (offset entries i) sectorLen
  rw [scanRange, if_neg (by omega)]
  dsimp only
  generalize offset entries i / sectorLen * sectorLen = aligned at haligned ⊢
  have hround := le_roundUp (offset entries j - aligned) (y := sectorLen) (by decide)
  have hseg := hw.entries.segment _ _ hij.le
  have hstart : offset entries 0 + ((entries.take i).flatMap entryBytes).length =
      offset entries i := by
    rfl
  have hholds : (alloc.write 0 (f.pread (roundUp (offset entries j - aligned) sectorLen)
      aligned)).Holds (offset entries i - aligned)
      (((entries.take j).drop i).flatMap entryBytes) := by
    refine Eq.trans (read_congr fun k hk => ?_) hseg
    rw [File.pread, ← zero_add (offset entries i - aligned + k),
      write_read_apply _ _ _ _ (by omega)]
    congr 1
    omega
  have hlimit : offset entries j - aligned = offset entries i - aligned +
      (((entries.take j).drop i).flatMap entryBytes).length := by omega
  rw [hlimit]
  exact scanLoop_eq (hs.subset fun e he => mem_of_mem_take (mem_of_mem_drop he)) (hlimit ▸ hholds)

end

/-! ## The listing by entries -/

section
variable {entries : List (Text × Nat)}

theorem getD_sampledOffsets {k : Nat} (hk : k < sampleCount entries) :
    (indexOf entries).sampledOffsets.getD k 0 = offset entries (k * kSampleRate) := by
  rw [getD_eq_getElem?_getD, indexOf, getElem?_map, getElem?_range hk]
  rfl

theorem keys_indexOf (hs : Storable entries) :
    (indexOf entries).keys = samples kSampleRate (entries.map Prod.fst) := by
  rw [FileIndex.keys, indexOf, map_map, samples, length_map, ← filterMap_eq_map]
  refine filterMap_congr fun i hi => ?_
  have hlt := lt_of_sample (mem_range.mp hi)
  rw [comp_apply, comp_apply, getD_eq_getElem?_getD, getElem?_map,
    getElem?_eq_getElem hlt, Option.getD_some, Option.map_some,
    hs.view _ (getElem_mem hlt)]

theorem length_keys_indexOf : (indexOf entries).keys.length = sampleCount entries := by
  rw [FileIndex.keys, indexOf, length_map, length_map, length_range]

end

theorem byteRangeFor_of_nil {ix : FileIndex} (h : ix.histogram = []) (lo : Text)
    (hi : Option Text) : ix.byteRangeFor lo hi = (0, 0) := if_pos (.inl h)

section
variable {ix : StringIndex} {dir : Direction} (hs : Storable (ix.file dir))
include hs

theorem histogram_eq : ix.histogram dir = (indexOf (ix.file dir)).keys := (keys_indexOf hs).symm

theorem rIdx_indexOf (hi : Option Text) : (indexOf (ix.file dir)).rIdx hi = ix.rIdx dir hi := by
  have hlen : (ix.histogram dir).length = (indexOf (ix.file dir)).sampledOffsets.length := by
    rw [histogram_eq hs, length_keys_indexOf, length_sampledOffsets]
  cases hi with
  | none => exact hlen.symm
  | some hi => rw [FileIndex.rIdx, StringIndex.rIdx, hlen, histogram_eq hs]

/-- The range of bytes is that of whole entries. -/
theorem byteRangeFor_indexOf (hne : sampleCount (ix.file dir) ≠ 0) (lo : Text) (hi : Option Text) :
    (indexOf (ix.file dir)).byteRangeFor lo hi =
        (offset (ix.file dir) (ix.byteRangeFor dir lo hi).1,
          offset (ix.file dir) (ix.byteRangeFor dir lo hi).2) ∧
      (ix.byteRangeFor dir lo hi).2 ≤ (ix.file dir).length := by
  have hlen : (ix.histogram dir).length = sampleCount (ix.file dir) := by
    rw [histogram_eq hs, length_keys_indexOf]
  have hsome : ¬ ((indexOf (ix.file dir)).histogram = [] ∨
      (indexOf (ix.file dir)).sampledOffsets = []) := by
    rw [indexOf]
    rw [map_eq_nil_iff, map_eq_nil_iff, range_eq_nil, or_self]
    exact hne
  have hfirst : lowerBound (indexOf (ix.file dir)).keys lo - 1 < sampleCount (ix.file dir) := by
    have hle := lowerBound_le (indexOf (ix.file dir)).keys lo
    rw [length_keys_indexOf] at hle
    omega
  have hsome' : ¬ (ix.histogram dir).length = 0 := by rwa [hlen]
  rw [StringIndex.byteRangeFor, FileIndex.byteRangeFor, if_neg hsome,
    length_sampledOffsets, rIdx_indexOf hs, hlen, histogram_eq hs, getD_sampledOffsets hfirst]
  split
  · exact ⟨rfl, le_rfl⟩
  · next hlt =>
    have hlt := not_le.mp hlt
    exact ⟨by rw [getD_sampledOffsets hlt], (lt_of_sample hlt).le⟩

/-- **The bytes give the listing by entries.** -/
theorem preFilter_eq {s : Files} (hw : Written (ix.file dir) (s.file dir))
    (hindex : s.index dir = indexOf (ix.file dir)) (hdelta : s.delta dir = ix.delta dir)
    (alloc : Image) (query : Attribute) : s.preFilter alloc dir query = ix.preFilter dir query := by
  rw [Files.preFilter, StringIndex.preFilter, hindex, hdelta]
  generalize dir.key (stringAttrView query) = lo
  generalize nextStringAttrPrefix lo = hi
  congr 2
  by_cases hne : sampleCount (ix.file dir) = 0
  · -- no entries
    have hlen : (ix.histogram dir).length = 0 := by
      rw [histogram_eq hs, length_keys_indexOf, hne]
    have hnone : (indexOf (ix.file dir)).histogram = [] := by
      rw [indexOf, hne]
      rfl
    have hentries : ix.byteRangeFor dir lo hi = (0, 0) := if_pos hlen
    rw [byteRangeFor_of_nil hnone, hentries]
    rfl
  · obtain ⟨hrange, hle⟩ := byteRangeFor_indexOf hs hne lo hi
    rw [hrange, StringIndex.scanRange]
    generalize ix.byteRangeFor dir lo hi = range at hle ⊢
    by_cases hlt : range.1 < range.2
    · rw [if_pos (offset_lt hlt hle), scanRange_offset hw hs alloc hlt hle, filter_map, map_map]
      refine congrArg (map Prod.snd) (filter_congr fun e he => ?_)
      exact congrArg (inRange (some lo) hi) (hs.view e (mem_of_mem_take (mem_of_mem_drop he)))
    · have hge : ¬ offset (ix.file dir) range.1 < offset (ix.file dir) range.2 := by
        rw [not_lt, offset_add (not_lt.mp hlt)]
        exact le_add_right _ _
      rw [if_neg hge, drop_eq_nil_of_le]
      · rfl
      · rw [length_take]
        omega

end

/-! ## A session -/

/-- The number of samples is in the file, whatever it is. -/
theorem writeFile_samples (entries : List (Text × Nat)) : 2 * 4 ≤ (writeFile entries).1.size ∧
    (writeFile entries).1.image.Holds 4 (le 4 (numSamples (ofNat entries.length)).toNat) := by
  have hholds := read_write_self File.empty.image 0 (le 4 (ofNat entries.length).toNat ++
      (le 4 (numSamples (ofNat entries.length)).toNat ++
        ((writeFile entries).2.sampledOffsets.flatMap (le 8) ++ entries.flatMap entryBytes)))
  rw [← Holds, holds_append, holds_append] at hholds
  refine ⟨?_, hholds.2.1⟩
  show 2 * 4 ≤ max 0 (0 + length _)
  simp only [length_append, length_le]
  omega

theorem histogram_of_wraps {entries : List (Text × Nat)} (h : 2 ^ 32 ≤ entries.length + 999)
    (hn : entries.length ≤ 2 ^ 32) : (writeFile entries).2.histogram = [] ∧
      ∀ old, (loadHeader (writeFile entries).1 old).histogram = [] := by
  -- the sum wraps to a number below `1000`
  have hzero : (numSamples (ofNat entries.length)).toNat = 0 := by
    rw [toNat_numSamples, kSampleRate]
    omega
  obtain ⟨hsize, hsamples⟩ := writeFile_samples entries
  rw [hzero, Holds, length_le] at hsamples
  refine ⟨?_, fun old => ?_⟩
  · show map _ (range (numSamples _).toNat) = []
    rw [hzero]
    rfl
  · have hns : ofLe ((writeFile entries).1.pread 4 4) = 0 := by
      rw [File.pread_eq (by omega), hsamples]
      rfl
    rw [loadHeader]
    rw [hns]
    rfl

namespace Session
variable (c : Session)

variable (dir : Direction)

/-- The entries of a file. -/
def entries : List (Text × Nat) := writeSortedFile (keyed dir c.savedRows)

/-- The number of samples does not wrap. -/
def Fits : Prop := c.saved.length + 999 < 2 ^ 32

variable {c} {p : Text × Nat}

theorem length_entries : (c.entries dir).length = c.saved.length := by
  rw [entries, (Dsl.writeSortedFile_perm _).length_eq, keyed, savedRows, length_map, length_map]

/-- There are no more rows than ids. -/
theorem length_saved_le : c.saved.length ≤ 2 ^ 32 := by
  have hnd := (nodup_append.mp c.oneString).1
  have hids : ((c.saved.map Prod.snd).map toNat).Nodup :=
    hnd.map fun _ _ => UInt32.toNat_inj.mp
  have hsub : (c.saved.map Prod.snd).map toNat ⊆ range (2 ^ 32) := by
    intro i hi
    obtain ⟨id, -, rfl⟩ := mem_map.mp hi
    exact mem_range.mpr id.toNat_lt
  have hle := (hids.subperm hsub).length_le
  rwa [length_map, length_map, length_range] at hle

theorem storable_entries : Storable (c.entries dir) := by
  have hsaved : ∀ e ∈ c.entries dir, ∃ p ∈ c.saved, e = (dir.key p.1.text, p.2.toNat) := by
    intro e he
    obtain ⟨q, hq, rfl⟩ := mem_map.mp ((Dsl.writeSortedFile_perm _).mem_iff.mp he)
    obtain ⟨p, hp, rfl⟩ := mem_map.mp hq
    exact ⟨p, hp, rfl⟩
  refine ⟨fun e he => ?_, fun e he => ?_, fun e he => ?_⟩ <;>
    obtain ⟨p, hp, rfl⟩ := hsaved e he
  · exact p.2.toNat_lt
  · cases dir with
    | byPrefix => exact p.1.length_lt
    | bySuffix => exact (length_reverse ..).trans_lt p.1.length_lt
  · cases dir with
    | byPrefix => exact p.1.view_pack
    | bySuffix =>
      exact CText.view_pack ⟨p.1.text.reverse, Dsl.isBytes_reverse p.1.bytes,
        fun h => p.1.nulFree (mem_reverse.mp h)⟩

/-- What is in memory for a file: what was written, or nothing when the number of samples has
wrapped. -/
def Indexed (c : Session) (dir : Direction) (ix : FileIndex) : Prop :=
  (c.Fits → ix = indexOf (c.entries dir)) ∧ (¬ c.Fits → ix.histogram = [])

theorem indexed_writeFile : c.Indexed dir (writeFile (c.entries dir)).2 ∧
    ∀ old, c.Indexed dir (loadHeader (writeFile (c.entries dir)).1 old) := by
  have hlen := length_entries (c := c) dir
  have hle := length_saved_le (c := c)
  by_cases hfit : c.Fits
  · have hfit' : (c.entries dir).length + 999 < 2 ^ 32 := by rwa [hlen]
    obtain ⟨hw, hindex⟩ := writeFile_of_fits hfit'
    exact ⟨⟨fun _ => hindex, fun h => absurd hfit h⟩, fun old =>
      ⟨fun _ => loadHeader_eq hw (storable_entries dir) hfit' old, fun h => absurd hfit h⟩⟩
  · have hwraps : 2 ^ 32 ≤ (c.entries dir).length + 999 := by
      rw [hlen]
      exact not_lt.mp hfit
    obtain ⟨hwrite, hload⟩ := histogram_of_wraps hwraps (by rwa [hlen])
    exact ⟨⟨fun h => absurd h hfit, fun _ => hwrite⟩, fun old =>
      ⟨fun h => absurd h hfit, fun _ => hload old⟩⟩

/-- The files stay, and the maps have what was inserted. -/
structure Kept (c : Session) (ops : List Op) (s : Files) : Prop where
  file : ∀ dir, s.file dir = (writeFile (c.entries dir)).1
  index : ∀ dir, c.Indexed dir (s.index dir)
  delta : ∀ dir, (OrderedMap.entries (s.delta dir)).Perm
    (keyed dir ((inserted ops).map fun p => (p.1, p.2.toNat)))

theorem Kept.step {ops : List Op} {s : Files} (h : c.Kept ops s) (op : Op) :
    c.Kept (ops ++ [op]) (s.step op) := by
  cases op with
  | insert attr id =>
    refine ⟨h.file, h.index, fun dir => ?_⟩
    have hpush := (push_spec (dir.key attr.text) id.toNat (s.keyed dir)).2
    refine hpush.trans ?_
    simp only [inserted, filterMap_append, map_append, keyed]
    exact ((h.delta dir).cons _).trans (perm_append_singleton _ _).symm
  | loadHeader dir =>
    refine ⟨h.file, fun dir' => ?_, fun dir' => ?_⟩
    · dsimp only [Files.step]
      by_cases hdir : dir' = dir
      · subst hdir
        rw [update_self, h.file]
        exact (indexed_writeFile dir').2 _
      · rw [update_of_ne hdir]
        exact h.index dir'
    · simp only [inserted, filterMap_append, map_append, keyed]
      exact (h.delta dir').trans (Perm.of_eq (append_nil _).symm)

theorem kept_files : c.Kept c.ops c.files := by
  have hinit : c.Kept [] (saveBoth c.savedRows) :=
    ⟨fun _ => rfl, fun dir => (indexed_writeFile dir).1, fun _ => Perm.refl _⟩
  have hrun : ∀ ops, c.Kept ops (ops.foldl Files.step (saveBoth c.savedRows)) := by
    intro ops
    induction ops using reverseRecOn with
    | nil => exact hinit
    | append_singleton ops op ih =>
      rw [foldl_append]
      exact ih.step op
  exact hrun c.ops

/-! ## What is listed -/

theorem matches_iff {query s : Text} : Matches query s dir ↔ dir.key query <+: dir.key s := by
  cases dir with
  | byPrefix => exact Iff.rfl
  | bySuffix => exact reverse_prefix.symm

theorem exists_of_mem_inserted {ops : List Op} {p : Text × UInt32} (hp : p ∈ inserted ops) :
    ∃ attr : CText, p.1 = attr.text := by
  obtain ⟨op, -, hop⟩ := mem_filterMap.mp hp
  cases op with
  | insert attr id =>
    cases hop
    exact ⟨attr, rfl⟩
  | loadHeader dir => cases hop

theorem isBytes_savedRows (hp : p ∈ c.savedRows) : Json.IsBytes p.1 := by
  obtain ⟨q, -, rfl⟩ := mem_map.mp hp
  exact q.1.bytes

theorem isBytes_insertedRows (hp : p ∈ c.insertedRows) : Json.IsBytes p.1 := by
  obtain ⟨q, hq, rfl⟩ := mem_map.mp hp
  obtain ⟨attr, heq⟩ := exists_of_mem_inserted hq
  rw [heq]
  exact attr.bytes

/-- The keys in the range of a query are those of the matching rows. -/
theorem exists_inRange_iff {dir : Direction} {query : CText} {rows : List (Text × Nat)}
    (hrows : ∀ p ∈ rows, Json.IsBytes p.1) (id : Nat) :
    (∃ key, (key, id) ∈ keyed dir rows ∧
      inRange (some (dir.key query.text)) (nextStringAttrPrefix (dir.key query.text))
        key) ↔ ∃ p ∈ rows, p.2 = id ∧ Matches query.text p.1 dir := by
  have hquery := Dsl.isBytes_key query.bytes dir
  constructor
  · rintro ⟨key, hmem, hin⟩
    have hrow := mem_keyed.mp hmem
    have hkey : Json.IsBytes key := dir.key_key key ▸ Dsl.isBytes_key (hrows _ hrow) dir
    refine ⟨_, hrow, rfl, (matches_iff dir).mpr ?_⟩
    rw [Direction.key_key]
    exact (Dsl.inRange_next hquery hkey).mp hin
  · rintro ⟨p, hp, rfl, hmatch⟩
    refine ⟨dir.key p.1, mem_keyed.mpr ?_, ?_⟩
    · rw [Direction.key_key]
      exact hp
    · exact (Dsl.inRange_next hquery (Dsl.isBytes_key (hrows p hp) dir)).mpr
        ((matches_iff dir).mp hmatch)

/-- **What `pre_filter` lists.** -/
theorem mem_preFilter (alloc : Image) (dir : Direction) (query : CText) (id : Nat) :
    id ∈ c.files.preFilter alloc dir (packStringAttr query.text) ↔
      (c.Fits ∧ ∃ p ∈ c.savedRows, p.2 = id ∧ Matches query.text p.1 dir) ∨
        ∃ p ∈ c.insertedRows, p.2 = id ∧ Matches query.text p.1 dir := by
  have hkept := kept_files (c := c)
  have hdelta : ∀ key, (key, id) ∈ OrderedMap.entries (c.files.delta dir) ↔
      (key, id) ∈ keyed dir c.insertedRows := fun key => (hkept.delta dir).mem_iff
  rw [← exists_inRange_iff fun p => isBytes_savedRows,
    ← exists_inRange_iff fun p => isBytes_insertedRows]
  by_cases hfit : c.Fits
  · have hfit' : (c.entries dir).length + 999 < 2 ^ 32 := by rwa [length_entries]
    have hw : Written (c.entries dir) (c.files.file dir) := by
      rw [hkept.file]
      exact (writeFile_of_fits hfit').1
    let ix : StringIndex := ⟨c.entries, fun _ => Dsl.writeSortedFile_sorted _, c.files.delta,
      c.files.keyed⟩
    have hfile : ∀ key, (key, id) ∈ ix.file dir ↔ (key, id) ∈ keyed dir c.savedRows :=
      fun key => (Dsl.writeSortedFile_perm _).mem_iff
    rw [@preFilter_eq ix dir (storable_entries dir) _ hw ((hkept.index dir).1 hfit) rfl,
      StringIndex.mem_preFilter, query.view_pack]
    simp only [mem_append, hfile, or_and_right, exists_or, hfit, true_and]
    exact or_congr Iff.rfl (exists_congr fun key => and_congr (hdelta key) Iff.rfl)
  · rw [Files.preFilter, byteRangeFor_of_nil ((hkept.index dir).2 hfit), (sortUnique_spec _).2,
      values_range _ _ (c.files.keyed dir), query.view_pack]
    simp only [Nat.lt_irrefl, reduceIte, map_nil, nil_append, hfit, false_and, false_or, mem_map,
      mem_filter, Prod.exists, exists_eq_right, hdelta]

/-- The ids of the saved rows are not inserted. -/
theorem not_inserted {p q : Text × Nat} (hp : p ∈ c.savedRows) (hq : q ∈ c.insertedRows) :
    p.2 ≠ q.2 := by
  obtain ⟨p', hp', rfl⟩ := mem_map.mp hp
  obtain ⟨q', hq', rfl⟩ := mem_map.mp hq
  intro heq
  exact (nodup_append.mp c.oneString).2.2 _ (mem_map_of_mem hp') _
    (mem_map_of_mem hq') (UInt32.toNat_inj.mp heq)

/-- **The listing is exact** for any strings that were written, any inserts and loads after that,
any query and both directions, if and only if the number of samples does not wrap or no string
of the file matches. -/
theorem stringFiles_exact_iff (c : Session) (alloc : Image) (dir : Direction) (query : IntText) :
    c.Exact dir query.text (c.files.preFilter alloc dir (packStringAttr query.text)) ↔
      c.saved.length + 999 < 2 ^ 32 ∨ ∀ p ∈ c.saved, ¬ Matches query.text p.1.text dir := by
  have hmem := mem_preFilter (c := c) alloc dir query.toCText
  constructor
  · intro h
    refine or_iff_not_imp_left.mpr fun hno p hp hmatch => ?_
    have hrow : (p.1.text, p.2.toNat) ∈ c.savedRows := mem_map_of_mem hp
    have hlisted := (h.mem_iff p.2.toNat).mpr ⟨_, mem_append_left _ hrow, rfl, hmatch⟩
    rcases (hmem _).mp hlisted with ⟨hfit, -⟩ | ⟨q, hq, heq, -⟩
    · exact hno hfit
    · exact not_inserted hrow hq heq.symm
  · intro h
    refine ⟨(sortUnique_spec _).1, fun id => (hmem id).trans ?_⟩
    simp only [mem_append, or_and_right, exists_or]
    refine or_congr ⟨And.right, fun hsaved => ⟨?_, hsaved⟩⟩ Iff.rfl
    obtain ⟨p, hp, -, hmatch⟩ := hsaved
    obtain ⟨q, hq, rfl⟩ := mem_map.mp hp
    exact h.resolve_right fun hnone => hnone q hq hmatch

/-! ## Too many strings -/

/-- The string `a`. -/
def letterA : IntText := ⟨Dsl.textA, by decide⟩

theorem nodup_ids {n : Nat} (hn : n ≤ 2 ^ 32) : ((range n).map ofNat).Nodup := by
  refine nodup_range.map_on fun i hi j hj heq => ?_
  have hi := mem_range.mp hi
  have hj := mem_range.mp hj
  have heq := congrArg toNat heq
  rwa [UInt32.toNat_ofNat_of_lt' (by have : UInt32.size = 2 ^ 32 := rfl; omega),
    UInt32.toNat_ofNat_of_lt' (by have : UInt32.size = 2 ^ 32 := rfl; omega)] at heq

/-- The first ids, all with the string `a`. -/
def allA (n : Nat) (hn : n ≤ 2 ^ 32) : Session where
  saved := (List.range n).map fun i => (letterA, UInt32.ofNat i)
  ops := []
  oneString := by
    rw [map_map]
    exact (append_nil _).symm ▸ nodup_ids hn

theorem listsNothing {n : Nat} (hn : n ≤ 2 ^ 32) (hwraps : 2 ^ 32 ≤ n + 999) (alloc : Image)
    (dir : Direction) :
    (allA n hn).files.preFilter alloc dir (packStringAttr letterA.text) = [] ∧
      ¬ (allA n hn).Exact dir letterA.text [] := by
  have hno : ¬ (allA n hn).Fits := by
    rw [Fits, allA, length_map, length_range]
    omega
  constructor
  · refine eq_nil_iff_forall_not_mem.mpr fun id hid => ?_
    rcases (mem_preFilter alloc dir letterA.toCText id).mp hid with ⟨hfit, -⟩ | ⟨p, hp, -⟩
    · exact hno hfit
    · exact absurd hp not_mem_nil
  · intro h
    have hrow : (letterA.text, 0) ∈ (allA n hn).savedRows := by
      rw [savedRows, allA, map_map]
      exact mem_map.mpr ⟨0, mem_range.mpr (by omega), rfl⟩
    have hmatch : Matches letterA.text letterA.text dir :=
      (matches_iff dir).mpr (prefix_refl _)
    exact absurd ((h.mem_iff 0).mpr ⟨_, mem_append_left _ hrow, rfl, hmatch⟩) not_mem_nil

/-- **Nothing is listed** of `2 ^ 32 - 999` equal strings. -/
theorem tooMany_listsNothing : ∃ (n : Nat) (hn : n ≤ 2 ^ 32), n = 4294966297 ∧ ∀ alloc dir,
    (allA n hn).files.preFilter alloc dir (packStringAttr letterA.text) = [] ∧
      ¬ (allA n hn).Exact dir letterA.text [] :=
  ⟨4294966297, by omega, rfl, listsNothing _ (by omega)⟩

end Session

end PipeANN.StringFiles
