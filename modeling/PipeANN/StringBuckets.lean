import Mathlib.Data.List.GetD
import PipeANN.LastWrites
import PipeANN.StringListing

/-! # The buckets of the string index

`StringAttrIndex` (`attribute.h`) cuts the sorted keys of a direction into `256` buckets and
keeps the key at each cut and the bucket of each vector.  `is_member_approx` of a direction
accepts a vector if its bucket is among those that the keys beginning with the query can have.

`rebuild_buckets` and `ensure_bucket_id` find a vector's bucket in different ways.  A string
that is inserted beyond the last cut gets the last bucket, number `255`; but a query beyond
the last cut begins its interval of buckets at `256`.  So such a string is rejected, also by
the query that is the string itself, until a merge rebuilds the buckets (`beyondLast_rejected`).
`accepts_run_iff` says that this is the only case: for an index built from any strings and
any later inserts, no vector whose string begins with a query is ever rejected if and only if
no string is inserted beyond the last cut, unless its insert triggers a merge.

The keys are kept as the strings they pack and are compared byte by byte; `hashes_` is left
out.  An id gets a string once.
-/
namespace PipeANN.Dsl
open Prod (fst snd)

open List SortedLists Nat StringIndex

/-! ## The index -/

/-- `kBuckets`. -/
def kBuckets : Nat := 256

/-- A `StringAttrIndex`: the files and the maps, and the buckets of the two directions. -/
structure StringAttrIndex where
  index : StringIndex
  deltaBytes : Nat
  nVectors : Nat
  /-- `bucket_ids_` -/
  bucketIds : Direction → List Nat
  /-- `bucket_boundaries_` -/
  bucketBoundaries : Direction → List Text

/-- The bucket of position `i` among `n` sorted keys. -/
def bucketOf (n i : Nat) : Nat := min (i * kBuckets / n) (kBuckets - 1)

/-- `bucket_ids_` after `rebuild_buckets`. -/
def rebuildBucketIds (nVectors : Nat) (entries : List (Text × Nat)) : List Nat :=
  entries.zipIdx.foldl (fun ids p => ids.set p.1.2 (bucketOf entries.length p.2))
    (List.replicate nVectors 0)

/-- `bucket_boundaries_` after `rebuild_buckets`. -/
def rebuildBoundaries (entries : List (Text × Nat)) : List Text :=
  if entries.isEmpty then []
  else (List.range (kBuckets + 1)).map fun b =>
    ((entries.map Prod.fst).getD (min (b * entries.length / kBuckets) (entries.length - 1)) [])

namespace StringAttrIndex

/-- `save_both`. -/
def saveBoth (nVectors : Nat) (entries : List (Text × Nat)) : StringAttrIndex :=
  let index := StringIndex.saveBoth entries
  { index := index
    deltaBytes := 0
    nVectors := nVectors
    bucketIds := fun dir => rebuildBucketIds nVectors (index.file dir)
    bucketBoundaries := fun dir => rebuildBoundaries (index.file dir) }

variable (ix : StringAttrIndex)

/-- `do_merge`, without an id map. -/
def doMerge : StringAttrIndex :=
  saveBoth ix.nVectors
    (ix.index.file .byPrefix ++ OrderedMap.entries (ix.index.delta .byPrefix))

/-- The bucket that `ensure_bucket_id` finds for a key. -/
def bucketFor (dir : Direction) (key : Text) : Nat :=
  let it := upperBound (ix.bucketBoundaries dir) key
  min (if it = 0 then 0 else it - 1) (kBuckets - 1)

/-- `ensure_bucket_id`. -/
def ensureBucketId (dir : Direction) (vectorId : Nat) (key : Text) : List Nat :=
  let ids := ix.bucketIds dir
  let ids :=
    if ids.length ≤ vectorId then
      ids ++ List.replicate (max 1024 ((vectorId + 1) * 3 / 2) - ids.length) 0
    else ids
  if ix.bucketBoundaries dir = [] then ids else ids.set vectorId (ix.bucketFor dir key)

/-- What an entry adds to `delta_bytes_`. -/
def entryBytes (attr : Text) : Nat := 2 * 4 + (packStringAttr attr).length * 4

/-- `insert` up to the merge. -/
def insertDelta (vectorId : Nat) (attr : Text) : StringAttrIndex :=
  { ix with
    index := ix.index.insert attr vectorId
    deltaBytes := ix.deltaBytes + entryBytes attr
    nVectors := max ix.nVectors (vectorId + 1)
    bucketIds := fun dir =>
      match dir with
      | .byPrefix => ix.ensureBucketId .byPrefix vectorId attr
      | .bySuffix => ix.bucketIds .bySuffix }

/-- The size of the delta from which on it is merged. -/
def kMergeBytes : Nat := 4 * 1024 * 1024

/-- `insert`. -/
def insert (vectorId : Nat) (attr : Text) : StringAttrIndex :=
  let ix' := ix.insertDelta vectorId attr
  if kMergeBytes ≤ ix'.deltaBytes then ix'.doMerge else ix'

/-- `is_member_approx` of a direction. -/
def isMemberApprox (targetId : Nat) (query : Attribute) (dir : Direction) : Bool :=
  match (ix.bucketIds dir)[targetId]? with
  | none => true
  | some bid =>
    let bounds := ix.bucketBoundaries dir
    if bounds = [] then true
    else
      let lo := dir.key (stringAttrView query)
      let l := lowerBound bounds lo
      let r := match nextStringAttrPrefix lo with
        | none => bounds.length
        | some hi => lowerBound bounds hi
      decide (l - 1 ≤ bid) && decide (bid ≤ min (kBuckets - 1) (r + 1))

end StringAttrIndex

open StringAttrIndex

/-! ## Runs -/

/-- The index, with the string of every id that has one. -/
structure StringStore where
  index : StringAttrIndex
  strings : List (CText × Nat)

namespace StringStore

/-- `insert` of a string for an id that has none. -/
def step (s : StringStore) (a : CText × Nat) : Option StringStore :=
  if a.2 ∈ s.strings.map Prod.snd then none
  else some ⟨s.index.insert a.2 a.1.text, s.strings ++ [a]⟩

/-- After `save` of the strings of all vectors. -/
def saved (texts : List CText) : StringStore :=
  ⟨.saveBoth texts.length (texts.map CText.text).zipIdx, texts.zipIdx⟩

/-- No vector whose string begins with the query is rejected. -/
def AcceptsPrefixes (s : StringStore) : Prop :=
  ∀ a ∈ s.strings, ∀ query : Attribute, stringAttrView query <+: a.1.text →
    s.index.isMemberApprox a.2 query .byPrefix = true

/-- **What can be inserted.**  The string is not beyond the last cut, or there is none; or
the delta is merged then. -/
def Fits (s : StringStore) (a : CText × Nat) : Prop :=
  (∀ last, (s.index.bucketBoundaries .byPrefix).getLast? = some last → a.1.text ≤ last) ∨
    StringAttrIndex.kMergeBytes ≤ s.index.deltaBytes + StringAttrIndex.entryBytes a.1.text

end StringStore

/-! ## The buckets that cover a string -/

/-- The cuts are ascending; there are none, or all of them. -/
structure Cuts (bounds : List Text) : Prop where
  sorted : bounds.Pairwise (· ≤ ·)
  length : bounds = [] ∨ bounds.length = kBuckets + 1

/-- A bucket is among those of every query that the string begins with. -/
structure Covers (bounds : List Text) (bid : Nat) (text : Text) : Prop where
  lower : lowerBound bounds text ≤ bid + 1
  upper : ∀ hi, text < hi → bid ≤ lowerBound bounds hi + 1
  lt : bid < kBuckets

section
variable {bounds : List Text} {text : Text}

theorem Cuts.getElem? (h : Cuts bounds) (hne : bounds ≠ []) {b : Nat} (hb : b ≤ kBuckets) :
    ∃ cut, bounds[b]? = some cut := by
  have := h.length.resolve_left hne
  exact ⟨_, getElem?_eq_getElem (by omega)⟩

/-- The bucket of an inserted string covers it exactly if the string is not beyond the last
cut. -/
theorem Cuts.covers_iff (h : Cuts bounds) {last : Text} (hlast : bounds.getLast? = some last)
    {bid : Nat} (hbid : bid = min (if upperBound bounds text = 0 then 0
      else upperBound bounds text - 1) (kBuckets - 1)) :
    Covers bounds bid text ↔ text ≤ last := by
  have hne : bounds ≠ [] := by
    rintro rfl
    cases hlast
  have hlen := h.length.resolve_left hne
  have hk : kBuckets = 256 := rfl
  have hend : bounds[kBuckets]? = some last := by
    rwa [getLast?_eq_getElem?, hlen] at hlast
  have hlow := lowerBound_le_upperBound between_le h.sorted text
  have hbeyond : kBuckets < lowerBound bounds text ↔ last < text :=
    lt_lowerBound_iff between_le h.sorted hend
  constructor
  · intro hcov
    have := hcov.lower
    by_contra hgt
    have := hbeyond.mpr (not_le.mp hgt)
    split_ifs at hbid <;> omega
  · intro hle
    have hin : ¬ kBuckets < lowerBound bounds text := fun hlt => absurd (hbeyond.mp hlt) hle.not_gt
    refine ⟨by split_ifs at hbid <;> omega, fun hi hhi => ?_, by omega⟩
    -- the cut below the bucket is not above the string
    rcases Nat.eq_zero_or_pos (upperBound bounds text) with h0 | hpos
    · rw [h0, if_pos rfl] at hbid
      omega
    · rw [if_neg (by omega)] at hbid
      obtain ⟨cut, hcut⟩ := h.getElem? hne (b := bid) (by omega)
      have hbelow := (lt_upperBound_iff between_le h.sorted (x := text) hcut).mp (by omega)
      have := (lt_lowerBound_iff between_le h.sorted hcut).mpr (hbelow.trans_lt hhi)
      omega

/-- A covering bucket is accepted, whatever the query. -/
theorem Covers.accepts {bid : Nat} (h : Covers bounds bid text) (hsorted : bounds.Pairwise (· ≤ ·))
    (hlen : bounds.length = kBuckets + 1) (htext : Json.IsBytes text) {lo : Text}
    (hbytes : Json.IsBytes lo) (hlo : lo <+: text) :
    lowerBound bounds lo - 1 ≤ bid ∧ bid ≤ min (kBuckets - 1) ((match nextStringAttrPrefix lo with
        | none => bounds.length
        | some hi => lowerBound bounds hi) + 1) := by
  have hlower := h.lower
  have hlt := h.lt
  have hmono := lowerBound_mono between_le hsorted (not_lt.mp (List.IsPrefix.le hlo))
  have hrange := (OrderedMap.inRange_iff.mp ((inRange_next hbytes htext).mpr hlo)).2
  cases hnext : nextStringAttrPrefix lo with
  | none =>
    dsimp only
    omega
  | some hi =>
    rw [hnext, OrderedMap.isBelow_some] at hrange
    have := h.upper hi hrange
    dsimp only
    omega

end

/-! ## Rebuilt buckets -/

section
variable {entries : List (Text × Nat)}

theorem getElem?_rebuildBoundaries (hne : entries ≠ []) {b : Nat} (hb : b ≤ kBuckets) :
    (rebuildBoundaries entries)[b]? =
      (entries.map fst)[min (b * entries.length / kBuckets) (entries.length - 1)]? := by
  have hpos := length_pos_iff.mpr hne
  have hlt : min (b * entries.length / kBuckets) (entries.length - 1) <
      (entries.map fst).length := by
    rw [length_map]
    omega
  rw [rebuildBoundaries, if_neg (by simpa using hne), getElem?_map,
    getElem?_range (by omega), Option.map_some, getD_eq_getElem _ _ hlt,
    getElem?_eq_getElem hlt]

theorem cuts_rebuildBoundaries (hsorted : (entries.map fst).Pairwise (· ≤ ·)) :
    Cuts (rebuildBoundaries entries) := by
  by_cases hne : entries = []
  · subst hne
    exact ⟨Pairwise.nil, .inl rfl⟩
  · have hlen : (rebuildBoundaries entries).length = kBuckets + 1 := by
      simp [rebuildBoundaries, hne]
    refine ⟨pairwise_iff_getElem.mpr fun a b ha hb hab => ?_, .inr hlen⟩
    have hea := getElem?_rebuildBoundaries hne (b := a) (by omega)
    have heb := getElem?_rebuildBoundaries hne (b := b) (by omega)
    obtain ⟨ha', hea⟩ := List.getElem?_eq_some_iff.mp
      (hea.symm.trans (getElem?_eq_getElem (by omega)))
    obtain ⟨hb', heb⟩ := List.getElem?_eq_some_iff.mp
      (heb.symm.trans (getElem?_eq_getElem (by omega)))
    rw [← hea, ← heb]
    have hle : min (a * entries.length / kBuckets) (entries.length - 1) ≤
        min (b * entries.length / kBuckets) (entries.length - 1) := by
      have := Nat.div_le_div_right (c := kBuckets) (Nat.mul_le_mul_right entries.length hab.le)
      omega
    rcases eq_or_lt_of_le hle with heq | hlt
    · simp only [heq, le_refl]
    · exact pairwise_iff_getElem.mp hsorted _ _ ha' hb' hlt

/-- A position lies between the cuts around its bucket. -/
theorem bucketOf_spec {n i : Nat} (hi : i < n) :
    bucketOf n i < kBuckets ∧ bucketOf n i * n / kBuckets ≤ i ∧
      i ≤ (bucketOf n i + 1) * n / kBuckets := by
  have hk : kBuckets = 256 := rfl
  have hle : i * kBuckets / n < kBuckets := by
    apply Nat.div_lt_of_lt_mul
    exact Nat.mul_lt_mul_of_pos_right hi (by omega)
  have hb : bucketOf n i = i * kBuckets / n := by
    rw [bucketOf]
    omega
  rw [hb]
  refine ⟨hle, ?_, ?_⟩
  · have h1 : i * kBuckets / n * n ≤ i * kBuckets := div_mul_le_self _ _
    exact (Nat.div_le_div_right h1).trans (Nat.mul_div_cancel i (by decide)).le
  · rw [le_div_iff_mul_le (by decide)]
    have := lt_mul_div_succ (i * kBuckets) (show 0 < n by omega)
    rw [mul_comm n] at this
    exact this.le

/-- **The rebuilt bucket covers the string**, for every entry. -/
theorem covers_rebuilt (hsorted : (entries.map fst).Pairwise (· ≤ ·)) {i id : Nat}
    {text : Text} (hi : entries[i]? = some (text, id)) :
    Covers (rebuildBoundaries entries) (bucketOf entries.length i) text := by
  have hlt : i < entries.length := (List.getElem?_eq_some_iff.mp hi).1
  have hne : entries ≠ [] := ne_nil_of_length_pos (by omega)
  have hcuts := cuts_rebuildBoundaries hsorted
  obtain ⟨hb, hstart, hstop⟩ := bucketOf_spec hlt
  have hkey : (entries.map fst)[i]? = some text := by rw [getElem?_map, hi]; rfl
  have hmono : ∀ {a b : Nat} {x y : Text}, (entries.map fst)[a]? = some x →
      (entries.map fst)[b]? = some y → a ≤ b → x ≤ y := by
    intro a b x y hx hy hab
    obtain ⟨ha, rfl⟩ := List.getElem?_eq_some_iff.mp hx
    obtain ⟨hb, rfl⟩ := List.getElem?_eq_some_iff.mp hy
    rcases eq_or_lt_of_le hab with rfl | hlt
    · exact le_refl _
    · exact pairwise_iff_getElem.mp hsorted _ _ ha hb hlt
  refine ⟨?_, fun hi hhi => ?_, hb⟩
  · obtain ⟨cut, hcut⟩ : ∃ cut, (rebuildBoundaries entries)[bucketOf entries.length i + 1]? =
        some cut := hcuts.getElem? (by simp [rebuildBoundaries, hne]) (by omega)
    rw [← not_lt, lt_lowerBound_iff between_le hcuts.sorted hcut, not_lt]
    rw [getElem?_rebuildBoundaries hne (by omega)] at hcut
    exact hmono hkey hcut (by omega)
  · obtain ⟨cut, hcut⟩ : ∃ cut, (rebuildBoundaries entries)[bucketOf entries.length i]? =
        some cut := hcuts.getElem? (by simp [rebuildBoundaries, hne]) (by omega)
    have hcut' := hcut
    rw [getElem?_rebuildBoundaries hne (by omega)] at hcut'
    have hbelow := (hmono hcut' hkey (by omega)).trans_lt hhi
    have := (lt_lowerBound_iff between_le hcuts.sorted hcut).mpr hbelow
    omega

/-- `rebuild_buckets` stores the bucket of each entry under its id. -/
theorem getElem?_rebuildBucketIds {nVectors : Nat} (hnd : (entries.map snd).Nodup)
    (hlt : ∀ p ∈ entries, p.2 < nVectors) {i : Nat} {p : Text × Nat} (hi : entries[i]? = some p) :
    (rebuildBucketIds nVectors entries)[p.2]? = some (bucketOf entries.length i) := by
  have hkeys : (entries.zipIdx.map fun q => q.1.2).Nodup := by
    rwa [← zipIdx_map_fst 0 entries, map_map] at hnd
  refine LastWrites.getElem?_foldl_set_of_nodup hkeys (a := (p, i))
    (mem_zipIdx_iff_getElem?.mpr hi) ?_
  rw [length_replicate]
  exact hlt p (mem_of_getElem? hi)

end

/-! ## When no vector is rejected -/

/-- The test, from the bucket of the vector on. -/
theorem StringAttrIndex.isMemberApprox_of_covers {ix : StringAttrIndex} {id bid : Nat}
    {text : CText} (hcuts : Cuts (ix.bucketBoundaries .byPrefix))
    (hbid : (ix.bucketIds .byPrefix)[id]? = some bid)
    (hcov : Covers (ix.bucketBoundaries .byPrefix) bid text.text) {query : Attribute}
    (hquery : stringAttrView query <+: text.text) : ix.isMemberApprox id query .byPrefix := by
  simp only [isMemberApprox, hbid]
  split
  · rfl
  · next hne =>
    rw [Bool.and_eq_true, decide_eq_true_eq, decide_eq_true_eq]
    exact hcov.accepts hcuts.sorted (hcuts.length.resolve_left hne) text.bytes
      (isBytes_view query) hquery

namespace StringStore
variable {s s' : StringStore} {a : CText × Nat}

/-- The rows of the strings. -/
def rows (strings : List (CText × Nat)) : List (Text × Nat) :=
  strings.map fun a => (a.1.text, a.2)

/-- The index holds the strings, once for each id. -/
structure Sound (s : StringStore) : Prop where
  held : (s.index.index.file .byPrefix ++
    OrderedMap.entries (s.index.index.delta .byPrefix)).Perm (rows s.strings)
  ids : (s.strings.map Prod.snd).Nodup
  bounded : ∀ a ∈ s.strings, a.2 < s.index.nVectors
  cuts : Cuts (s.index.bucketBoundaries .byPrefix)
  hasBucket : ∀ a ∈ s.strings, a.2 < (s.index.bucketIds .byPrefix).length

/-- **Rebuilt buckets reject nothing.** -/
theorem saveBoth_spec {strings : List (CText × Nat)} {entries : List (Text × Nat)} {n : Nat}
    (hperm : entries.Perm (rows strings)) (hids : (strings.map snd).Nodup)
    (hlt : ∀ a ∈ strings, a.2 < n) :
    Sound ⟨.saveBoth n entries, strings⟩ ∧ AcceptsPrefixes ⟨.saveBoth n entries, strings⟩ := by
  have hfile : ((saveBoth entries).file .byPrefix).Perm (rows strings) := by
    refine (writeSortedFile_perm _).trans ?_
    have : (entries.map fun p => (Direction.byPrefix.key p.1, p.2)) = entries := map_id entries
    rwa [this]
  have hsorted := (saveBoth entries).sorted .byPrefix
  have hcuts := cuts_rebuildBoundaries hsorted
  have hnd : (((saveBoth entries).file .byPrefix).map snd).Nodup := by
    rw [(hfile.map snd).nodup_iff, rows, map_map]
    exact hids
  have hltFile : ∀ p ∈ (saveBoth entries).file .byPrefix, p.2 < n := by
    intro p hp
    obtain ⟨a, ha, rfl⟩ := mem_map.mp (hfile.mem_iff.mp hp)
    exact hlt a ha
  refine ⟨⟨?_, hids, hlt, hcuts, fun a ha => ?_⟩, fun a ha query hquery => ?_⟩
  · exact (append_nil _).symm ▸ hfile
  · have hlen : ((saveBoth n entries).bucketIds .byPrefix).length = n :=
      LastWrites.length_foldl_set.trans (length_replicate)
    exact hlen.symm ▸ hlt a ha
  · have hmem : (a.1.text, a.2) ∈ (saveBoth entries).file .byPrefix :=
      hfile.mem_iff.mpr (mem_map.mpr ⟨a, ha, rfl⟩)
    obtain ⟨i, hi⟩ := mem_iff_getElem?.mp hmem
    exact isMemberApprox_of_covers hcuts
      (getElem?_rebuildBucketIds hnd hltFile hi) (covers_rebuilt hsorted hi) hquery

theorem saved_spec (texts : List CText) : (saved texts).Sound ∧ (saved texts).AcceptsPrefixes := by
  apply saveBoth_spec
  · rw [zipIdx_map]
    exact Perm.refl _
  · rw [zipIdx_map_snd]
    exact nodup_range'
  · intro a ha
    have := (mem_zipIdx ha).2.1
    omega

/-! ### One insert -/

theorem step_cases (h : step s a = some s') : a.2 ∉ s.strings.map snd ∧
      s' = ⟨s.index.insert a.2 a.1.text, s.strings ++ [a]⟩ := by
  rw [step] at h
  split at h
  · cases h
  · next hnew => exact ⟨hnew, (Option.some.inj h).symm⟩

section
variable (hs : s.Sound) (hnew : a.2 ∉ s.strings.map snd)

/-- The store after `insert`, before a merge. -/
def afterDelta (s : StringStore) (a : CText × Nat) : StringStore :=
  ⟨s.index.insertDelta a.2 a.1.text, s.strings ++ [a]⟩

variable (ix : StringAttrIndex) (dir : Direction)

/-- The bucket of the inserted string. -/
theorem lt_length_ensureBucketId (id : Nat) (key : Text) :
    id < (ix.ensureBucketId dir id key).length ∧
      (ix.bucketIds dir).length ≤ (ix.ensureBucketId dir id key).length := by
  rw [ensureBucketId]
  split_ifs
  · rw [length_append, length_replicate]
    omega
  · omega
  · rw [length_set, length_append, length_replicate]
    omega
  · rw [length_set]
    omega

theorem getElem?_ensureBucketId_of_ne {id other : Nat}
    (key : Text) (hne : other ≠ id) (hlt : other < (ix.bucketIds dir).length) :
    (ix.ensureBucketId dir id key)[other]? = (ix.bucketIds dir)[other]? := by
  rw [ensureBucketId]
  split_ifs
  · exact getElem?_append_left hlt
  · rfl
  · rw [getElem?_set_ne hne.symm]
    exact getElem?_append_left hlt
  · exact getElem?_set_ne hne.symm

theorem getElem?_ensureBucketId_self (id : Nat) (key : Text) (hne : ix.bucketBoundaries dir ≠ []) :
    (ix.ensureBucketId dir id key)[id]? = some (ix.bucketFor dir key) := by
  have hlt := (lt_length_ensureBucketId ix dir id key).1
  rw [ensureBucketId] at hlt ⊢
  rw [if_neg hne] at hlt ⊢
  rw [length_set] at hlt
  exact getElem?_set_self hlt

include hs hnew in
theorem Sound.afterDelta : (s.afterDelta a).Sound where
  held := by
    have hpush := (OrderedMap.push_spec a.1.text a.2 (s.index.index.keyed .byPrefix)).2
    refine (hpush.append_left _).trans ?_
    rw [StringStore.afterDelta, rows, map_append]
    exact perm_middle.trans ((hs.held.cons _).trans (perm_append_singleton _ _).symm)
  ids := by
    rw [StringStore.afterDelta, map_append, nodup_append]
    refine ⟨hs.ids, nodup_singleton _, fun x hx y hy hxy => hnew ?_⟩
    obtain rfl := mem_singleton.mp hy
    exact hxy ▸ hx
  bounded b hb := by
    have hmax : (s.afterDelta a).index.nVectors = max s.index.nVectors (a.2 + 1) := rfl
    rcases mem_append.mp hb with hb | hb
    · have := hs.bounded b hb
      omega
    · obtain rfl := mem_singleton.mp hb
      omega
  cuts := hs.cuts
  hasBucket b hb := by
    have hlen := lt_length_ensureBucketId s.index .byPrefix a.2 a.1.text
    change b.2 < (s.index.ensureBucketId .byPrefix a.2 a.1.text).length
    rcases mem_append.mp hb with hb | hb
    · have := hs.hasBucket b hb
      omega
    · obtain rfl := mem_singleton.mp hb
      exact hlen.1

include hs hnew in
/-- Without a merge, the inserted string must not be beyond the last cut. -/
theorem acceptsPrefixes_afterDelta_iff (hacc : s.AcceptsPrefixes) :
    (s.afterDelta a).AcceptsPrefixes ↔
      ∀ last, (s.index.bucketBoundaries .byPrefix).getLast? = some last → a.1.text ≤ last := by
  constructor
  · intro h last hlast
    have hne : s.index.bucketBoundaries .byPrefix ≠ [] := by
      intro hnil
      rw [hnil] at hlast
      cases hlast
    -- the query that is the string itself
    have htest := h a (mem_append_right _ (mem_singleton.mpr rfl))
      (packStringAttr a.1.text) ⟨[], (append_nil _).trans a.1.view_pack⟩
    have hbid : ((s.afterDelta a).index.bucketIds .byPrefix)[a.2]? =
        some (s.index.bucketFor .byPrefix a.1.text) :=
      getElem?_ensureBucketId_self s.index .byPrefix a.2 a.1.text hne
    simp only [isMemberApprox, hbid, a.1.view_pack] at htest
    change (if s.index.bucketBoundaries .byPrefix = [] then true else _) = true at htest
    rw [if_neg hne, Bool.and_eq_true, decide_eq_true_eq, decide_eq_true_eq] at htest
    have hlower : lowerBound (s.index.bucketBoundaries .byPrefix) a.1.text - 1 ≤ kBuckets - 1 :=
      htest.1.trans (htest.2.trans (min_le_left _ _))
    have hk : kBuckets = 256 := rfl
    have hend : (s.index.bucketBoundaries .byPrefix)[kBuckets]? = some last := by
      rwa [getLast?_eq_getElem?, hs.cuts.length.resolve_left hne] at hlast
    rw [← not_lt, ← lt_lowerBound_iff between_le hs.cuts.sorted hend]
    omega
  · intro hle b hb query hquery
    rcases mem_append.mp hb with hb | hb
    · -- the other vectors keep their buckets
      have hne : b.2 ≠ a.2 := fun h => hnew (h ▸ mem_map_of_mem hb)
      have hsame : ((s.afterDelta a).index.bucketIds .byPrefix)[b.2]? =
          (s.index.bucketIds .byPrefix)[b.2]? :=
        getElem?_ensureBucketId_of_ne s.index .byPrefix a.1.text hne (hs.hasBucket b hb)
      have := hacc b hb query hquery
      rw [isMemberApprox] at this ⊢
      rw [hsame]
      exact this
    · obtain rfl := mem_singleton.mp hb
      by_cases hne : s.index.bucketBoundaries .byPrefix = []
      · rw [isMemberApprox]
        split
        · rfl
        · exact if_pos hne
      · obtain ⟨last, hlast⟩ : ∃ last, (s.index.bucketBoundaries .byPrefix).getLast? = some last :=
          ⟨_, getLast?_eq_getLast_of_ne_nil hne⟩
        exact @isMemberApprox_of_covers (s.afterDelta b).index _ _ _ hs.cuts
          (getElem?_ensureBucketId_self s.index .byPrefix b.2 b.1.text hne)
          ((hs.cuts.covers_iff hlast rfl).mpr (hle last hlast)) _ hquery

end

theorem insert_eq (ix : StringAttrIndex) (id : Nat) (text : Text) : ix.insert id text =
      if kMergeBytes ≤ ix.deltaBytes + entryBytes text then
        (ix.insertDelta id text).doMerge
      else ix.insertDelta id text := rfl

/-- A merge rebuilds the buckets. -/
theorem Sound.doMerge (hs : s.Sound) :
    Sound ⟨s.index.doMerge, s.strings⟩ ∧ AcceptsPrefixes ⟨s.index.doMerge, s.strings⟩ :=
  saveBoth_spec hs.held hs.ids hs.bounded

theorem Sound.step (hs : s.Sound) (h : StringStore.step s a = some s') : s'.Sound := by
  obtain ⟨hnew, rfl⟩ := step_cases h
  rw [insert_eq]
  split
  · exact (hs.afterDelta hnew).doMerge.1
  · exact hs.afterDelta hnew

/-- A call of `insert` keeps that nothing is rejected exactly if the string fits. -/
theorem acceptsPrefixes_step_iff (hs : s.Sound) (hacc : s.AcceptsPrefixes)
    (h : step s a = some s') : s'.AcceptsPrefixes ↔ s.Fits a := by
  obtain ⟨hnew, rfl⟩ := step_cases h
  rw [insert_eq]
  split
  · next hdue => exact iff_of_true (hs.afterDelta hnew).doMerge.2 (.inr hdue)
  · next hdue =>
    rw [Fits, or_iff_left hdue]
    exact acceptsPrefixes_afterDelta_iff hs hnew hacc

/-- **When no vector is ever rejected.**  For an index built from any strings and any later
inserts, no vector whose string begins with the query is rejected at any moment if and only
if every insert fits. -/
theorem accepts_run_iff (texts : List CText) (ops : List (CText × Nat)) {s : StringStore}
    (hrun : runSteps step (saved texts) ops = some s) :
    Always step (saved texts) ops AcceptsPrefixes ↔ EachStep step (saved texts) ops Fits := by
  obtain ⟨hsound, hacc⟩ := saved_spec texts
  exact always_iff_eachStep hrun (always_of_step hsound fun _ _ _ ht hs => ht.step hs) hacc
    fun _ _ _ ht hI hs => acceptsPrefixes_step_iff ht hI hs

/-- The string `"b"`. -/
def textB : CText := .checked ['b'] rfl

/-- **A string that is rejected by itself**: `"b"`, inserted into an index of `"a"`. -/
theorem beyondLast_rejected : ∃ s, runSteps step (saved [textA]) [(textB, 1)] = some s ∧
    s.index.isMemberApprox 1 (packStringAttr ['b']) .byPrefix = false := by
  have hrun : ((runSteps step (saved [textA]) [(textB, 1)]).map fun s =>
      s.index.isMemberApprox 1 (packStringAttr ['b']) .byPrefix) = some false := by
    decide +kernel
  obtain ⟨s, hs, hobs⟩ := Option.map_eq_some_iff.mp hrun
  exact ⟨s, hs, hobs⟩

/-- An insert before the last cut. -/
theorem accepts_run_before : ∃ s, runSteps step (saved [textB]) [(textA, 1)] = some s ∧
      (Always step (saved [textB]) [(textA, 1)] AcceptsPrefixes ↔
        EachStep step (saved [textB]) [(textA, 1)] Fits) := by
  have hrun : (runSteps step (saved [textB]) [(textA, 1)]).isSome = true := by
    decide +kernel
  obtain ⟨s, hs⟩ := Option.isSome_iff_exists.mp hrun
  exact ⟨s, hs, accepts_run_iff _ _ hs⟩

end StringStore

end PipeANN.Dsl
