import Mathlib.Data.Prod.Lex
import Mathlib.Data.Char
import PipeANN.FilterListing
import PipeANN.LikeMatching
import PipeANN.OrderedMaps

/-! # The lists of the string index

`StringAttrIndex` (`attribute.h`) keeps the strings in two sorted files, one by the string
and one by the reversed string, each with every thousandth key in memory, and the inserted
strings in two maps with the same keys.  A scan of one direction reads the part of the file
between two samples and keeps what is in the range of keys.

`pre_filter` lists the strings that begin with the query (`mem_preFilter`): the selector of
string equality takes this list as it is, whatever `strict` says, and so also lists longer
strings.  `pre_filter_like` tests each scanned string with the pattern.  For a pattern that
begins with a wildcard and ends with a fixed text it reads the range of the reversed text
from the second file; but the same range is then looked up in the map by the string itself.

`stringPreFilter_exact_iff` says exactly for which contents and queries the two selectors list
what they test.

The keys are kept as the strings they pack, and are compared byte by byte.  Positions in
the files are counted in entries.
-/
namespace PipeANN.Dsl

open List SortedLists OrderedMap
open Json (IsBytes)

/-! ## The order of the keys -/

/-- `next_string_attr_prefix`: the last byte that is not `0xFF` is incremented and what
follows it is dropped.  Without such a byte there is no upper bound. -/
def nextStringAttrPrefix : Text → Option Text
  | [] => none
  | c :: rest =>
    match nextStringAttrPrefix rest with
    | some next => some (c :: next)
    | none => if c.toNat ≠ 255 then some [Char.ofNat (c.toNat + 1)] else none

theorem toNat_succ {c : Char} (hc : c.toNat < 256) :
    (Char.ofNat (c.toNat + 1)).toNat = c.toNat + 1 := by
  have hvalid : (c.toNat + 1).isValidChar := .inl (by omega)
  rw [Char.ofNat, dif_pos hvalid]
  rfl

variable {s : Text}

theorem isBytes_tail {c : Char} (h : IsBytes (c :: s)) : IsBytes s :=
  fun d hd => h d (mem_cons_of_mem _ hd)

/-- **The keys up to the next text** are the strings that begin with `lo`. -/
theorem inRange_next : ∀ {lo key : Text}, IsBytes lo → IsBytes key →
    (inRange (some lo) (nextStringAttrPrefix lo) key ↔ lo <+: key)
  | [], key, _, _ => by
    apply iff_of_true _ nil_prefix
    rw [inRange_iff]
    exact ⟨atLeast_some.mpr (not_lt.mp (not_lt_nil key)), rfl⟩
  | c :: rest, [], _, _ => by
    simp [inRange, atLeast]
  | c :: rest, d :: key, hlo, hkey => by
    have ih := inRange_next (isBytes_tail hlo) (isBytes_tail hkey)
    have hc := hlo c mem_cons_self
    have hd := hkey d mem_cons_self
    have hcd : c = d ↔ c.toNat = d.toNat := Char.toNat_inj.symm
    have hlt : ∀ a b : Char, a < b ↔ a.toNat < b.toNat := fun a b => Iff.rfl
    have hge : c :: rest ≤ d :: key ↔ c.toNat < d.toNat ∨ c = d ∧ rest ≤ key := by
      rw [← not_lt, cons_lt_cons_iff, hlt, eq_comm, hcd]
      rcases lt_trichotomy c.toNat d.toNat with h | h | h
      · simp [h, Nat.lt_asymm h, ne_of_lt h]
      · simp [h]
      · simp [h, Nat.lt_asymm h, ne_of_gt h]
    rw [inRange_iff, atLeast_some] at ih ⊢
    rw [cons_prefix_cons, nextStringAttrPrefix, hge]
    cases hnext : nextStringAttrPrefix rest with
    | some next =>
      rw [hnext, isBelow_some] at ih
      rw [isBelow_some, cons_lt_cons_iff, ← ih, hlt]
      constructor
      · rintro ⟨hlt' | ⟨heq, hle⟩, hlt'' | ⟨heq', hlt''⟩⟩
        · omega
        · exact absurd (hcd.mp heq'.symm) (by omega)
        · exact absurd (hcd.mp heq) (by omega)
        · exact ⟨heq, hle, hlt''⟩
      · rintro ⟨heq, hle, hlt'⟩
        exact ⟨.inr ⟨heq, hle⟩, .inr ⟨heq.symm, hlt'⟩⟩
    | none =>
      rw [hnext] at ih
      rw [← ih]
      dsimp only
      split
      · next hmax =>
        rw [isBelow_some, cons_lt_cons_iff, hlt, toNat_succ hc]
        constructor
        · rintro ⟨hlt' | hle, hlt'' | ⟨-, hnil⟩⟩
          · omega
          · exact absurd hnil (not_lt_nil key)
          · exact ⟨hle.1, hle.2, rfl⟩
          · exact absurd hnil (not_lt_nil key)
        · rintro ⟨heq, hle, -⟩
          exact ⟨.inr ⟨heq, hle⟩, .inl (by have := hcd.mp heq; omega)⟩
      · next hmax =>
        constructor
        · rintro ⟨hlt' | hle, -⟩
          · omega
          · exact ⟨hle.1, hle.2, rfl⟩
        · rintro ⟨heq, hle, -⟩
          exact ⟨.inr ⟨heq, hle⟩, rfl⟩

/-! ## The index -/

/-- `Direction`: the keys are the strings, or the reversed strings. -/
inductive Direction where
  | byPrefix
  | bySuffix
  deriving DecidableEq

/-- The key of a string, and the string of a key. -/
def Direction.key : Direction → Text → Text
  | .byPrefix, s => s
  | .bySuffix, s => s.reverse

/-- `kSampleRate`. -/
def kSampleRate : Nat := 1000

/-- `write_sorted_file`: the entries by key, and by id among equal keys. -/
def writeSortedFile (entries : List (Text × Nat)) : List (Text × Nat) :=
  ((entries.map toLex).insertionSort (· ≤ ·)).map ofLex

/-- `StringAttrIndex`: the files and the maps of the two directions. -/
structure StringIndex where
  file : Direction → List (Text × Nat)
  sorted : ∀ dir, ((file dir).map Prod.fst).Pairwise (· ≤ ·)
  /-- `delta_` -/
  delta : Direction → List (Text × List Nat)
  keyed : ∀ dir, Keyed (delta dir)

theorem writeSortedFile_perm (entries : List (Text × Nat)) :
    (writeSortedFile entries).Perm entries := by
  have h := (perm_insertionSort (· ≤ ·) (entries.map toLex)).map ofLex
  rwa [map_map, show (ofLex ∘ toLex : Text × Nat → Text × Nat) = id from rfl, map_id] at h

theorem writeSortedFile_sorted (entries : List (Text × Nat)) :
    ((writeSortedFile entries).map Prod.fst).Pairwise (· ≤ ·) := by
  rw [writeSortedFile, map_map]
  apply Pairwise.map _ _ (pairwise_insertionSort (· ≤ ·) (entries.map toLex))
  intro p q hpq
  rcases Prod.Lex.le_iff.mp hpq with hlt | ⟨heq, -⟩
  · exact hlt.le
  · exact heq.le

namespace StringIndex
variable (ix : StringIndex) (dir : Direction) (query : Attribute)

/-- `save_both`. -/
def saveBoth (entries : List (Text × Nat)) : StringIndex where
  file dir := writeSortedFile (entries.map fun p => (dir.key p.1, p.2))
  sorted _ := writeSortedFile_sorted _
  delta _ := []
  keyed _ := List.Pairwise.nil

/-- `insert`, as long as the delta is not merged. -/
def insert (attr : Text) (vectorId : Nat) : StringIndex where
  file := ix.file
  sorted := ix.sorted
  delta dir := push (dir.key attr) vectorId (ix.delta dir)
  keyed dir := (push_spec (dir.key attr) vectorId (ix.keyed dir)).1

/-- The keys of a file. -/
def keys : List Text := (ix.file dir).map Prod.fst

/-- `histogram_`: the key of every `kSampleRate`-th entry. -/
def histogram : List Text := samples kSampleRate (ix.keys dir)

/-- `r_idx` of `byte_range_for`: the first sample that is not below `hi`, and one more. -/
def rIdx : Option Text → Nat
  | none => (ix.histogram dir).length
  | some hi =>
    let rIt := lowerBound (ix.histogram dir) hi
    if rIt < (ix.histogram dir).length then rIt + 1 else rIt

/-- `byte_range_for`: the part of a file that covers the keys from `lo` on and below `hi`. -/
def byteRangeFor (lo : Text) (hi : Option Text) : Nat × Nat :=
  let h := ix.histogram dir
  if h.length = 0 then (0, 0)
  else
    ((lowerBound h lo - 1) * kSampleRate,
      if h.length ≤ ix.rIdx dir hi then (ix.file dir).length else ix.rIdx dir hi * kSampleRate)

/-- The entries that `scan_range` passes. -/
def scanRange (range : Nat × Nat) : List (Text × Nat) :=
  ((ix.file dir).take range.2).drop range.1

/-- `pre_filter` of one direction. -/
def preFilter : List Nat :=
  let lo := dir.key (stringAttrView query)
  let hi := nextStringAttrPrefix lo
  let scanned := (ix.scanRange dir (ix.byteRangeFor dir lo hi)).filter fun e =>
    inRange (some lo) hi e.1
  let inDelta := range (some lo) hi (ix.delta dir)
  sortUnique (scanned.map Prod.snd ++ inDelta.flatMap Prod.snd)

/-- The direction in which `pre_filter_like` scans, and its `range_key`. -/
def likeScan (pat : Text) : Direction × Text :=
  if pat.head?.any (!isWildcard ·) then (.byPrefix, likeFixedPrefix pat)
  else if pat.getLast?.any (!isWildcard ·) then (.bySuffix, (likeFixedSuffix pat).reverse)
  else (.byPrefix, [])

/-- `pre_filter_like`.  Both directions look into the map of the first one. -/
def preFilterLike (pattern : Attribute) : List Nat :=
  let pat := stringAttrView pattern
  let (dir, rangeKey) := likeScan pat
  let lo := if rangeKey = [] then none else some rangeKey
  let hi := if rangeKey = [] then none else nextStringAttrPrefix rangeKey
  let entries :=
    if rangeKey = [] then ix.file dir
    else ix.scanRange dir (ix.byteRangeFor dir rangeKey hi)
  let scanned := entries.filter fun e => likeMatch (dir.key e.1) pat
  let inDelta := (range lo hi (ix.delta .byPrefix)).filter fun p => likeMatch p.1 pat
  sortUnique (scanned.map Prod.snd ++ inDelta.flatMap Prod.snd)

/-- `pre_filter` of the selector of string equality. -/
def eqPreFilter : List Nat :=
  (records (query.length + 1) query).foldl
    (fun result rec => union result (ix.preFilter .byPrefix rec)) []

/-- `pre_filter` of the selector of LIKE. -/
def likePreFilter : List Nat :=
  (records (query.length + 1) query).foldl
    (fun result rec => union result (ix.preFilterLike rec)) []

end StringIndex

/-! ## Contents -/

/-- A string that can be stored: bytes without NUL. -/
structure CText where
  text : Text
  bytes : Json.IsBytes text
  nulFree : '\x00' ∉ text

theorem CText.view_pack (s : CText) : stringAttrView (packStringAttr s.text) = s.text := by
  rw [stringAttrView_pack s.bytes, cString, takeWhile_eq_self_iff]
  intro d hd
  exact decide_eq_true fun h => s.nulFree (h ▸ hd)

/-- The saved strings, by id, and the later inserts; every id has one string. -/
structure Contents where
  saved : List CText
  inserted : List (CText × Nat)
  oneString : (List.range saved.length ++ inserted.map Prod.snd).Nodup

namespace Contents
variable (c : Contents)

/-- The saved rows. -/
def savedRows : List (Text × Nat) := (c.saved.map CText.text).zipIdx

/-- The inserted rows. -/
def insertedRows : List (Text × Nat) := c.inserted.map fun p => (p.1.text, p.2)

/-- All rows. -/
def rows : List (Text × Nat) := c.savedRows ++ c.insertedRows

/-- The index with these contents. -/
def index : StringIndex :=
  c.insertedRows.foldl (fun ix p => ix.insert p.1 p.2) (.saveBoth c.savedRows)

/-- The ascending list of the ids for which `is_member` of a leaf is true. -/
def memberIds (kind : LeafKind) (query : Attribute) : List Nat :=
  sortUnique ((c.rows.filter fun p =>
    kind.test query (packStringAttr p.1) = some true).map Prod.snd)

/-- Every string that begins with a literal is one of the literals. -/
def EqListed (query : Attribute) : Prop :=
  ∀ p ∈ c.rows, ∀ rec ∈ records (query.length + 1) query, stringAttrView rec <+: p.1 →
    packStringAttr p.1 ∈ records (query.length + 1) query

/-- The string is in the range of the map that the scan for a pattern looks up: the pattern
does not scan from the end, or the string begins with the reversed end of the pattern. -/
def ScannedFor (pat s : Text) : Prop :=
  (StringIndex.likeScan pat).1 = .bySuffix → (likeFixedSuffix pat).reverse <+: s

/-- Every inserted string that matches a pattern is found by the scan for one of the patterns
that it matches. -/
def LikeListed (query : Attribute) : Prop :=
  ∀ p ∈ c.insertedRows, ∀ rec ∈ records (query.length + 1) query,
    likeMatch p.1 (stringAttrView rec) = true →
    ∃ rec ∈ records (query.length + 1) query, likeMatch p.1 (stringAttrView rec) = true ∧
      ScannedFor (stringAttrView rec) p.1

end Contents

/-! ## The scans -/

theorem isBytes_view (a : Attribute) : IsBytes (stringAttrView a) := by
  intro c hc
  obtain ⟨w, -, hw⟩ := mem_flatMap.mp (( takeWhile_prefix _).subset hc)
  simp only [wordBytes, mem_cons, not_mem_nil, or_false] at hw
  rcases hw with rfl | rfl | rfl | rfl <;> exact Json.toByte_lt _

theorem isBytes_reverse (h : IsBytes s) : IsBytes s.reverse :=
  fun c hc => h c (mem_reverse.mp hc)

/-- **The interval of a prefix** has just the strings that begin with it, and the interval of a
reversed suffix the reversed strings that end with it. -/
theorem prefixInterval_iff (lo key : CText) :
    ((lo.text ≤ key.text ∧ ∀ hi ∈ nextStringAttrPrefix lo.text, key.text < hi) ↔
      lo.text <+: key.text) ∧
    ((lo.text.reverse ≤ key.text.reverse ∧
      ∀ hi ∈ nextStringAttrPrefix lo.text.reverse, key.text.reverse < hi) ↔
      lo.text <:+ key.text) := by
  have hrange : ∀ {lo key : Text}, IsBytes lo → IsBytes key →
      ((lo ≤ key ∧ ∀ hi ∈ nextStringAttrPrefix lo, key < hi) ↔ lo <+: key) := by
    intro lo key hlo hkey
    rw [← inRange_next hlo hkey, inRange_iff, atLeast_some]
    cases nextStringAttrPrefix lo with
    | none => exact and_congr_right fun _ => iff_of_true (by simp) rfl
    | some hi => simp [isBelow_some]
  refine ⟨hrange lo.bytes key.bytes, ?_⟩
  rw [hrange (isBytes_reverse lo.bytes) (isBytes_reverse key.bytes), reverse_prefix]

theorem isBytes_key (h : IsBytes s) (dir : Direction) : IsBytes (dir.key s) := by
  cases dir with
  | byPrefix => exact h
  | bySuffix => exact isBytes_reverse h

theorem Direction.key_key (dir : Direction) (s : Text) : dir.key (dir.key s) = s := by
  cases dir with
  | byPrefix => rfl
  | bySuffix => exact reverse_reverse s

namespace StringIndex
variable (ix : StringIndex) (dir : Direction)

theorem sorted_keys : (ix.keys dir).Pairwise (· ≤ ·) := ix.sorted dir

/-- The part of a file that is read has every entry of the range. -/
theorem filter_scanRange (lo : Text) (hi : Option Text) {p : Text × Nat → Bool}
    (hp : ∀ e ∈ ix.file dir, p e → inRange (some lo) hi e.1) :
    (ix.scanRange dir (ix.byteRangeFor dir lo hi)).filter p = (ix.file dir).filter p := by
  have hrate : 0 < kSampleRate := by decide
  have hlen : (ix.keys dir).length = (ix.file dir).length := length_map _
  have hsampled := length_samples hrate (ix.keys dir)
  by_cases hempty : (ix.histogram dir).length = 0
  · have hnil : ix.file dir = [] := by
      apply eq_nil_of_length_eq_zero
      change _ ≤ (ix.histogram dir).length * _ at hsampled
      rw [hempty] at hsampled
      omega
    rw [scanRange, hnil, take_nil, drop_nil]
  · apply filter_segment
    intro i e hi' hpe
    have hkey : (ix.keys dir)[i]? = some e.1 := by
      rw [keys, getElem?_map, hi']
      rfl
    have hbound : i < (ix.file dir).length := (List.getElem?_eq_some_iff.mp hi').1
    have hrange := hp e (mem_of_getElem? hi') hpe
    rw [inRange_iff, atLeast_some] at hrange
    rw [byteRangeFor, if_neg hempty]
    constructor
    · have hfirst : lowerBound (ix.keys dir) lo ≤ i := by
        rw [← not_lt, lt_lowerBound_iff between_le (ix.sorted_keys dir) hkey]
        exact not_lt.mpr hrange.1
      rcases (lowerBound_samples between_le hrate (ix.sorted_keys dir) lo).2 with h0 | hlt
      · change lowerBound (ix.histogram dir) lo = 0 at h0
        rw [h0]
        exact Nat.zero_le i
      · exact hlt.le.trans hfirst
    · split
      · exact hbound
      · next hr =>
        cases hi with
        | none => exact absurd le_rfl hr
        | some hi =>
          have hlast : i < lowerBound (ix.keys dir) hi :=
            (lt_lowerBound_iff between_le (ix.sorted_keys dir) hkey).mpr (isBelow_some.mp hrange.2)
          have hle : i < lowerBound (ix.histogram dir) hi * kSampleRate :=
            hlast.trans_le (lowerBound_samples between_le hrate (ix.sorted_keys dir) hi).1
          rw [rIdx]
          split
          · rw [Nat.succ_mul]
            exact Nat.lt_add_right _ hle
          · exact hle

/-- What `pre_filter` lists. -/
theorem mem_preFilter (query : Attribute) (id : Nat) :
    id ∈ ix.preFilter dir query ↔ ∃ key, (key, id) ∈ ix.file dir ++ entries (ix.delta dir) ∧
        inRange (some (dir.key (stringAttrView query)))
          (nextStringAttrPrefix (dir.key (stringAttrView query))) key := by
  rw [preFilter, (sortUnique_spec _).2, filter_scanRange ix dir _ _ (fun _ _ h => h),
    values_range _ _ (ix.keyed dir), ← map_append, ← filter_append]
  simp only [mem_map, mem_filter, Prod.exists, exists_eq_right]

variable {pat : Text}

/-- A string that matches a pattern has a key in the range that is scanned. -/
theorem likeScan_spec {s : Text} (h : likeMatch s pat) :
    (likeScan pat).2 <+: (likeScan pat).1.key s := by
  have hmatch := likeMatch_sound h
  rw [likeScan]
  split
  · exact hmatch.fixedPrefix
  · split
    · exact reverse_prefix.mpr hmatch.fixedSuffix
    · exact nil_prefix

theorem likeScan_bySuffix (h : (likeScan pat).1 = .bySuffix) :
    (likeScan pat).2 = (likeFixedSuffix pat).reverse := by
  rw [likeScan] at h ⊢
  split
  · next hfirst =>
    rw [if_pos hfirst] at h
    cases h
  · next hfirst =>
    split
    · rfl
    · next hlast =>
      rw [if_neg hfirst, if_neg hlast] at h
      cases h

theorem isBytes_likeScan (h : IsBytes pat) : IsBytes (likeScan pat).2 := by
  have hfixed : ∀ {p : Text}, IsBytes p → IsBytes (likeFixedPrefix p) :=
    fun hp c hc => hp c (( takeWhile_prefix _).subset hc)
  rw [likeScan]
  split
  · exact hfixed h
  · split
    · exact isBytes_reverse (isBytes_reverse (hfixed (isBytes_reverse h)))
    · exact fun c hc => absurd hc (not_mem_nil)

/-- The range of a scan has the keys that begin with its key. -/
theorem inRange_rangeKey {rangeKey key : Text} (hr : IsBytes rangeKey) (hkey : IsBytes key) :
    inRange (if rangeKey = [] then none else some rangeKey)
      (if rangeKey = [] then none else nextStringAttrPrefix rangeKey) key = true ↔
      rangeKey <+: key := by
  split
  · next hnil =>
    subst hnil
    exact iff_of_true rfl nil_prefix
  · exact inRange_next hr hkey

/-- What `pre_filter_like` lists. -/
theorem mem_preFilterLike (pattern : Attribute) (hfile : ∀ dir, ∀ e ∈ ix.file dir, IsBytes e.1)
    (hdelta : ∀ e ∈ entries (ix.delta .byPrefix), IsBytes e.1) (id : Nat) :
    id ∈ ix.preFilterLike pattern ↔
      (∃ key, (key, id) ∈ ix.file (likeScan (stringAttrView pattern)).1 ∧
        likeMatch ((likeScan (stringAttrView pattern)).1.key key) (stringAttrView pattern)) ∨
      ∃ key, (key, id) ∈ entries (ix.delta .byPrefix) ∧
        (likeScan (stringAttrView pattern)).2 <+: key ∧
        likeMatch key (stringAttrView pattern) := by
  generalize hpat : stringAttrView pattern = pat
  have hrange : IsBytes (likeScan pat).2 := isBytes_likeScan (hpat ▸ isBytes_view pattern)
  -- the file is scanned where it has matching strings
  have hscan : (if (likeScan pat).2 = [] then ix.file (likeScan pat).1
      else ix.scanRange (likeScan pat).1 (ix.byteRangeFor (likeScan pat).1 (likeScan pat).2
        (if (likeScan pat).2 = [] then none else nextStringAttrPrefix (likeScan pat).2))).filter
        (fun e => likeMatch ((likeScan pat).1.key e.1) pat) =
      (ix.file (likeScan pat).1).filter fun e => likeMatch ((likeScan pat).1.key e.1) pat := by
    split
    · rfl
    · apply filter_scanRange
      intro e he hmatch
      rw [inRange_next hrange (hfile _ e he)]
      have hkey := likeScan_spec hmatch
      rwa [Direction.key_key] at hkey
  have hmap : ((range (if (likeScan pat).2 = [] then none else some (likeScan pat).2)
      (if (likeScan pat).2 = [] then none else nextStringAttrPrefix (likeScan pat).2)
      (ix.delta .byPrefix)).filter fun p => likeMatch p.1 pat).flatMap Prod.snd =
      ((entries (ix.delta .byPrefix)).filter fun e => likeMatch e.1 pat &&
        inRange (if (likeScan pat).2 = [] then none else some (likeScan pat).2)
          (if (likeScan pat).2 = [] then none else nextStringAttrPrefix (likeScan pat).2)
          e.1).map Prod.snd := by
    rw [range_eq_filter _ _ (ix.keyed _), filter_filter]
    exact values_filter (fun k => likeMatch k pat && inRange _ _ k) _
  rw [preFilterLike, (sortUnique_spec _).2, mem_append]
  rw [hpat, hscan, hmap]
  simp only [mem_map, mem_filter, Prod.exists, exists_eq_right, Bool.and_eq_true]
  apply or_congr Iff.rfl
  apply exists_congr
  intro key
  constructor
  · rintro ⟨hmem, hmatch, hin⟩
    exact ⟨hmem, (inRange_rangeKey hrange (hdelta _ hmem)).mp hin, hmatch⟩
  · rintro ⟨hmem, hpre, hmatch⟩
    exact ⟨hmem, hmatch, (inRange_rangeKey hrange (hdelta _ hmem)).mpr hpre⟩

end StringIndex

/-! ## The index of the contents -/

namespace Contents
variable (c : Contents)

/-- The rows with the keys of a direction. -/
def keyed (dir : Direction) (rows : List (Text × Nat)) : List (Text × Nat) :=
  rows.map fun p => (dir.key p.1, p.2)

variable {id : Nat} {dir : Direction}

theorem mem_keyed {rows : List (Text × Nat)} {key : Text} :
    (key, id) ∈ keyed dir rows ↔ (dir.key key, id) ∈ rows := by
  rw [keyed, mem_map]
  constructor
  · rintro ⟨p, hp, heq⟩
    cases heq
    rwa [Direction.key_key]
  · intro h
    exact ⟨_, h, by rw [Direction.key_key]⟩

/-- The file has the saved rows and the map has the inserted ones. -/
theorem index_spec (dir : Direction) : (c.index.file dir).Perm (keyed dir c.savedRows) ∧
      (entries (c.index.delta dir)).Perm (keyed dir c.insertedRows) := by
  rw [index]
  generalize c.insertedRows = inserts
  induction inserts using reverseRecOn with
  | nil => exact ⟨writeSortedFile_perm _, Perm.refl _⟩
  | append_singleton inserts p ih =>
    obtain ⟨hfile, hperm⟩ := ih
    rw [foldl_append]
    refine ⟨hfile, ((push_spec _ p.2 (StringIndex.keyed _ dir)).2).trans ?_⟩
    rw [keyed, map_append]
    exact (hperm.cons _).trans (perm_append_singleton _ _).symm

variable {p : Text × Nat} {query : Attribute}

theorem exists_text (hp : p ∈ c.rows) : ∃ s : CText, p.1 = s.text := by
  rcases mem_append.mp hp with hp | hp
  · obtain ⟨s, -, hs⟩ := mem_map.mp (fst_mem_of_mem_zipIdx hp)
    exact ⟨s, hs.symm⟩
  · obtain ⟨q, -, rfl⟩ := mem_map.mp hp
    exact ⟨q.1, rfl⟩

theorem isBytes_rows (hp : p ∈ c.rows) : IsBytes p.1 := by
  obtain ⟨s, hs⟩ := c.exists_text hp
  rw [hs]
  exact s.bytes

theorem view_pack (hp : p ∈ c.rows) : stringAttrView (packStringAttr p.1) = p.1 := by
  obtain ⟨s, hs⟩ := c.exists_text hp
  rw [hs, s.view_pack]

/-- A row is known by its id. -/
theorem eq_of_id {q : Text × Nat} (hp : p ∈ c.rows) (hq : q ∈ c.rows) (h : p.2 = q.2) : p = q := by
  have hids : c.rows.map Prod.snd = range c.saved.length ++ c.inserted.map Prod.snd := by
    rw [rows, map_append, savedRows, insertedRows, map_map, zipIdx_map_snd,
      length_map, range_eq_range']
    rfl
  exact inj_on_of_nodup_map (hids ▸ c.oneString) hp hq h

theorem not_mem_savedRows (hp : p ∈ c.insertedRows) : p ∉ c.savedRows := by
  intro hsaved
  have hlt : p.2 < c.saved.length := by
    have := snd_lt_of_mem_zipIdx hsaved
    rwa [length_map] at this
  obtain ⟨q, hq, rfl⟩ := mem_map.mp hp
  exact (nodup_append.mp c.oneString).2.2 _ (mem_range.mpr hlt) _ (mem_map_of_mem hq) rfl

theorem mem_memberIds {kind : LeafKind} : id ∈ c.memberIds kind query ↔
      ∃ p ∈ c.rows, p.2 = id ∧ kind.test query (packStringAttr p.1) = some true := by
  rw [memberIds, (sortUnique_spec _).2]
  simp only [mem_map, mem_filter, decide_eq_true_eq]
  constructor
  · rintro ⟨p, ⟨hp, htest⟩, rfl⟩
    exact ⟨p, hp, rfl, htest⟩
  · rintro ⟨p, hp, rfl, htest⟩
    exact ⟨p, ⟨hp, htest⟩, rfl⟩

/-- `pre_filter` lists the strings that begin, or end, with the query. -/
theorem mem_preFilter : id ∈ c.index.preFilter dir query ↔
      ∃ p ∈ c.rows, p.2 = id ∧ dir.key (stringAttrView query) <+: dir.key p.1 := by
  obtain ⟨hfile, hdelta⟩ := c.index_spec dir
  have hrows : ∀ key, (key, id) ∈ c.index.file dir ++ entries (c.index.delta dir) ↔
      (dir.key key, id) ∈ c.rows := by
    intro key
    rw [mem_append, hfile.mem_iff, hdelta.mem_iff, mem_keyed, mem_keyed, rows, mem_append]
  have hquery : IsBytes (dir.key (stringAttrView query)) :=
    isBytes_key (isBytes_view query) dir
  rw [StringIndex.mem_preFilter]
  constructor
  · rintro ⟨key, hmem, hin⟩
    have hrow := (hrows key).mp hmem
    have hkey : IsBytes key := by
      have := isBytes_key (c.isBytes_rows hrow) dir
      rwa [Direction.key_key] at this
    refine ⟨_, hrow, rfl, ?_⟩
    rw [Direction.key_key]
    exact (inRange_next hquery hkey).mp hin
  · rintro ⟨p, hp, rfl, hpre⟩
    refine ⟨dir.key p.1, (hrows _).mpr ?_, ?_⟩
    · rw [Direction.key_key]
      exact hp
    · exact (inRange_next hquery (isBytes_key (c.isBytes_rows hp) dir)).mpr hpre

theorem scannedFor_iff {pat s : Text} (h : likeMatch s pat) :
    (StringIndex.likeScan pat).2 <+: s ↔ ScannedFor pat s := by
  have hkey := StringIndex.likeScan_spec h
  constructor
  · intro hpre hdir
    rwa [StringIndex.likeScan_bySuffix hdir] at hpre
  · intro hscan
    cases hdir : (StringIndex.likeScan pat).1 with
    | byPrefix => rwa [hdir] at hkey
    | bySuffix =>
      rw [StringIndex.likeScan_bySuffix hdir]
      exact hscan hdir

/-- `pre_filter_like` lists the saved strings that match, and of the inserted ones those in
the range of the map. -/
theorem mem_preFilterLike {pattern : Attribute} : id ∈ c.index.preFilterLike pattern ↔
      (∃ p ∈ c.savedRows, p.2 = id ∧ likeMatch p.1 (stringAttrView pattern)) ∨
      ∃ p ∈ c.insertedRows, p.2 = id ∧ likeMatch p.1 (stringAttrView pattern) ∧
        ScannedFor (stringAttrView pattern) p.1 := by
  have hfile : ∀ dir key i, (key, i) ∈ c.index.file dir ↔ (dir.key key, i) ∈ c.savedRows :=
    fun dir key i => by rw [(c.index_spec dir).1.mem_iff, mem_keyed]
  have hdelta : ∀ key i, (key, i) ∈ entries (c.index.delta .byPrefix) ↔ (key, i) ∈ c.insertedRows :=
    fun key i => by rw [(c.index_spec .byPrefix).2.mem_iff, mem_keyed]; rfl
  rw [StringIndex.mem_preFilterLike]
  · constructor
    · rintro (⟨key, hmem, hmatch⟩ | ⟨key, hmem, hpre, hmatch⟩)
      · exact .inl ⟨_, (hfile _ _ _).mp hmem, rfl, hmatch⟩
      · exact .inr ⟨_, (hdelta _ _).mp hmem, rfl, hmatch, (scannedFor_iff hmatch).mp hpre⟩
    · rintro (⟨p, hp, rfl, hmatch⟩ | ⟨p, hp, rfl, hmatch, hscan⟩)
      · refine .inl ⟨(StringIndex.likeScan (stringAttrView pattern)).1.key p.1,
          (hfile _ _ _).mpr ?_, ?_⟩
        · rwa [Direction.key_key]
        · rwa [Direction.key_key]
      · exact .inr ⟨p.1, (hdelta _ _).mpr hp, (scannedFor_iff hmatch).mpr hscan, hmatch⟩
  · rintro dir ⟨key, i⟩ he
    have hbytes := isBytes_key (c.isBytes_rows (mem_append_left _ ((hfile _ _ _).mp he))) dir
    rwa [Direction.key_key] at hbytes
  · rintro ⟨key, i⟩ he
    exact c.isBytes_rows (mem_append_right _ ((hdelta _ _).mp he))

end Contents

/-! ## The selectors -/

/-- The union over the records of a query. -/
theorem foldl_union_records (f : Attribute → List Nat) (hf : ∀ rec, Ascending (f rec))
    (recs : List Attribute) :
    Ascending (recs.foldl (fun result rec => union result (f rec)) []) ∧
      ∀ id, id ∈ recs.foldl (fun result rec => union result (f rec)) [] ↔
        ∃ rec ∈ recs, id ∈ f rec := by
  have hfold : recs.foldl (fun result rec => union result (f rec)) [] =
      (recs.map f).foldl union [] := by rw [foldl_map]
  have hasc : ∀ l ∈ recs.map f, l.Pairwise (· < ·) := by
    intro l hl
    obtain ⟨rec, -, rfl⟩ := mem_map.mp hl
    exact hf rec
  obtain ⟨h1, h2⟩ := foldl_union_spec between_lt (recs.map f) hasc Pairwise.nil
  rw [hfold]
  refine ⟨h1, fun id => ?_⟩
  rw [h2]
  simp

namespace Contents
variable (c : Contents) (query : Attribute)

theorem eqPreFilter_eq_iff :
    c.index.eqPreFilter query = c.memberIds .stringEq query ↔ c.EqListed query := by
  obtain ⟨hasc, hmem⟩ := foldl_union_records (c.index.preFilter .byPrefix)
    (fun _ => (sortUnique_spec _).1) (records (query.length + 1) query)
  have htest : ∀ t : Attribute, LeafKind.test query t .stringEq = some true ↔
      t ∈ records (query.length + 1) query := fun t => by simp [LeafKind.test]
  constructor
  · intro heq p hp rec hrec hpre
    have hlisted : p.2 ∈ c.index.eqPreFilter query :=
      (hmem p.2).mpr ⟨rec, hrec, c.mem_preFilter.mpr ⟨p, hp, rfl, hpre⟩⟩
    rw [heq] at hlisted
    obtain ⟨q, hq, hid, hq'⟩ := c.mem_memberIds.mp hlisted
    obtain rfl := c.eq_of_id hq hp hid
    exact (htest _).mp hq'
  · intro hlisted
    apply hasc.ext (sortUnique_spec _).1
    intro id
    rw [hmem, ← memberIds, c.mem_memberIds]
    constructor
    · rintro ⟨rec, hrec, hid⟩
      obtain ⟨p, hp, rfl, hpre⟩ := c.mem_preFilter.mp hid
      exact ⟨p, hp, rfl, (htest _).mpr (hlisted p hp rec hrec hpre)⟩
    · rintro ⟨p, hp, rfl, hp'⟩
      refine ⟨_, (htest _).mp hp', c.mem_preFilter.mpr ⟨p, hp, rfl, ?_⟩⟩
      exact ⟨[], (append_nil _).trans (c.view_pack hp)⟩

theorem likePreFilter_eq_iff :
    c.index.likePreFilter query = c.memberIds .stringLike query ↔ c.LikeListed query := by
  obtain ⟨hasc, hmem⟩ := foldl_union_records c.index.preFilterLike
    (fun _ => (sortUnique_spec _).1) (records (query.length + 1) query)
  have htest : ∀ p ∈ c.rows, (LeafKind.test query (packStringAttr p.1) .stringLike = some true ↔
      ∃ rec ∈ records (query.length + 1) query, likeMatch p.1 (stringAttrView rec)) := by
    intro p hp
    rw [LeafKind.test, c.view_pack hp]
    simp
  constructor
  · intro heq p hp rec hrec hmatch
    have hrow : p ∈ c.rows := mem_append_right _ hp
    have hlisted : p.2 ∈ c.memberIds .stringLike query :=
      c.mem_memberIds.mpr ⟨p, hrow, rfl, (htest p hrow).mpr ⟨rec, hrec, hmatch⟩⟩
    rw [← heq] at hlisted
    obtain ⟨rec', hrec', hid⟩ := (hmem p.2).mp hlisted
    rcases c.mem_preFilterLike.mp hid with ⟨q, hq, hid, -⟩ | ⟨q, hq, hid, hmatch', hscan⟩
    · obtain rfl := c.eq_of_id (mem_append_left _ hq) hrow hid
      exact absurd hq (c.not_mem_savedRows hp)
    · obtain rfl := c.eq_of_id (mem_append_right _ hq) hrow hid
      exact ⟨rec', hrec', hmatch', hscan⟩
  · intro hlisted
    apply hasc.ext (sortUnique_spec _).1
    intro id
    rw [hmem, ← memberIds, c.mem_memberIds]
    constructor
    · rintro ⟨rec, hrec, hid⟩
      rcases c.mem_preFilterLike.mp hid with ⟨p, hp, rfl, hmatch⟩ | ⟨p, hp, rfl, hmatch, -⟩
      · have hrow : p ∈ c.rows := mem_append_left _ hp
        exact ⟨p, hrow, rfl, (htest p hrow).mpr ⟨rec, hrec, hmatch⟩⟩
      · have hrow : p ∈ c.rows := mem_append_right _ hp
        exact ⟨p, hrow, rfl, (htest p hrow).mpr ⟨rec, hrec, hmatch⟩⟩
    · rintro ⟨p, hp, rfl, hp'⟩
      obtain ⟨rec, hrec, hmatch⟩ := (htest p hp).mp hp'
      rcases mem_append.mp hp with hp | hp
      · exact ⟨rec, hrec, c.mem_preFilterLike.mpr (.inl ⟨p, hp, rfl, hmatch⟩)⟩
      · obtain ⟨rec, hrec, hmatch, hscan⟩ := hlisted p hp rec hrec hmatch
        exact ⟨rec, hrec, c.mem_preFilterLike.mpr (.inr ⟨p, hp, rfl, hmatch, hscan⟩)⟩

/-- **The lists of the string selectors.**  Whatever is stored and whatever is asked for:
the selector of string equality lists exactly the ids it tests true for if and only if every
string that begins with a literal is one of the literals; the selector of LIKE does if and
only if every inserted string that matches is in the range of the map that is looked up. -/
theorem stringPreFilter_exact_iff :
    (c.index.eqPreFilter query = c.memberIds .stringEq query ↔ c.EqListed query) ∧
      (c.index.likePreFilter query = c.memberIds .stringLike query ↔ c.LikeListed query) :=
  ⟨c.eqPreFilter_eq_iff query, c.likePreFilter_eq_iff query⟩

end Contents

theorem isBytes_of_cText (h : (s.all fun c => c.toNat < 256 && c ≠ '\x00')) :
    IsBytes s ∧ '\x00' ∉ s := by
  have hall := all_eq_true.mp h
  constructor
  · intro c hc
    exact of_decide_eq_true (Bool.and_eq_true_iff.mp (hall c hc)).1
  · intro hnul
    exact of_decide_eq_true (Bool.and_eq_true_iff.mp (hall _ hnul)).2 rfl

/-- A string that is checked to be storable. -/
def CText.checked (s : Text) (h : (s.all fun c => c.toNat < 256 && c ≠ '\x00') = true) : CText :=
  ⟨s, (isBytes_of_cText h).1, (isBytes_of_cText h).2⟩

/-- The string `a`. -/
def textA : CText := .checked ['a'] rfl

/-- The strings `a` and `ab` are saved, and `cd` is inserted. -/
def threeStrings : Contents where
  saved := [textA, .checked ['a', 'b'] rfl]
  inserted := [(.checked ['c', 'd'] rfl, 2)]
  oneString := by decide

/-- Equality with `a` also lists `ab`, and LIKE `%d` does not list the inserted `cd`. -/
theorem stringPreFilter_inexact :
    threeStrings.index.eqPreFilter (appendRecord [] (packStringAttr ['a'])) = [0, 1] ∧
    threeStrings.memberIds .stringEq (appendRecord [] (packStringAttr ['a'])) = [0] ∧
    threeStrings.index.likePreFilter (appendRecord [] (packStringAttr ['%', 'd'])) = [] ∧
    threeStrings.memberIds .stringLike (appendRecord [] (packStringAttr ['%', 'd'])) = [2] := by
  decide +kernel

end PipeANN.Dsl
