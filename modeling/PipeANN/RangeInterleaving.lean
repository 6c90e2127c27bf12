import PipeANN.RangeUpdates

/-! # Listing during inserts

`pre_filter` of `SortedRangeAttrIndex` (`attribute.h`) reads the file first, without a lock, and
then the delta under the shared lock.  `insert` holds the exclusive lock; once the delta is
large it merges it into the file and clears it.  If that happens between the two steps of a
call, what the merge moved is in neither half as the call reads them: it was not yet in the
file at the first step, and is no longer in the delta at the second one
(`mergeBetween_misses`).

`preFilter_complete_iff` says that nothing else is missed: in any interleaving of a call with
inserts, the call returns every id in the interval whose insert was complete when it began if
and only if no insert between its two steps merges a delta that still holds such an id.

Each insert, its merge included, is one step, and so is each of the two halves of the call,
which on one state are `pre_filter` (`Store.preFilter_eq_steps`).  An id gets a value once.
-/
namespace PipeANN
open List OrderedMap UInt32
namespace RangeIndex

open SortedLists

/-! ## The two steps of a call -/

namespace Store

/-- The file of the index, without the delta. -/
def fileOnly (s : Store) : Store := { s with delta := [], keyed := OrderedMap.keyed_nil }

/-- What `pre_filter` has before it takes the lock. -/
def fileIds (s : Store) (l r : UInt32) : Option (List Nat) := s.fileOnly.preFilter l r

/-- The two steps on one state are `pre_filter`. -/
theorem preFilter_eq_steps (s : Store) (l r : UInt32) : s.preFilter l r =
      (s.fileIds l r).map fun ids => (ids ++ s.deltaIds l r).insertionSort (· ≤ ·) := by
  have hnone : s.fileOnly.deltaIds l r = [] := rfl
  rcases Nat.lt_or_ge r.toNat l.toNat with hgt | hle
  · rw [fileIds, preFilter_of_gt s hgt, preFilter_of_gt s.fileOnly hgt,
      show s.fileOnly.values = s.values from rfl, show s.fileOnly.histogram = s.histogram from rfl]
    split <;> rfl
  · rw [fileIds, preFilter_of_le s hle, preFilter_of_le s.fileOnly hle, hnone, append_nil]
    congr 1
    exact insertionSort_congr ((perm_insertionSort _ _).symm.append_right _)

/-- What the first step finds. -/
theorem mem_fileIds {s : Store} {l r : UInt32} {ids : List Nat} (h : s.fileIds l r = some ids)
    (id : Nat) : id ∈ ids ↔ ∃ p ∈ s.data, inInterval l r p ∧ p.2 = id := by
  have hnone : s.fileOnly.deltaIds l r = [] := rfl
  rcases Nat.lt_or_ge r.toNat l.toNat with hgt | hle
  · rw [fileIds, preFilter_of_gt s.fileOnly hgt] at h
    have hempty := filter_eq_nil_of_gt hgt s.data
    have hids : ids = [] := by
      split at h
      · exact (Option.some.inj h).symm
      · cases h
    rw [hids]
    refine iff_of_false not_mem_nil ?_
    rintro ⟨p, hp, hin, -⟩
    exact absurd hin (filter_eq_nil_iff.mp hempty p hp)
  · rw [fileIds, preFilter_of_le s.fileOnly hle, hnone, append_nil] at h
    rw [← Option.some.inj h, mem_insertionSort]
    simp only [mem_map, mem_filter, and_assoc]
    exact Iff.rfl

end Store

/-- How far a call of `pre_filter` is, with what was complete when it began. -/
inductive PreFilterCall where
  | idle
  | afterFile (l r : UInt32) (ids : List Nat) (before : List (UInt32 × Nat))
  | done (l r : UInt32) (result : List Nat) (before : List (UInt32 × Nat))

/-- What the call has returned. -/
def PreFilterCall.result : PreFilterCall → Option (List Nat)
  | .done _ _ result _ => some result
  | _ => none

theorem PreFilterCall.exists_done {c : PreFilterCall} {result : List Nat}
    (h : c.result = some result) : ∃ l r before, c = .done l r result before := by
  cases c with
  | idle => cases h
  | afterFile l r ids before => cases h
  | done l r result' before => exact ⟨l, r, before, congrArg (PreFilterCall.done l r · before)
      (Option.some.inj h)⟩

/-- The index, the values of all completed inserts, and the call. -/
structure Listing where
  index : RangeAttrIndex
  entries : List (UInt32 × Nat)
  call : PreFilterCall

/-- The steps of the inserting threads and of the call. -/
inductive ListingStep where
  | insert (vectorId : Nat) (value : UInt32)
  | readFile (l r : UInt32)
  | readDelta

namespace Listing

/-- One step. -/
def step (s : Listing) : ListingStep → Option Listing
  | .insert vectorId value =>
    if vectorId ∈ s.entries.map Prod.snd then none
    else (s.index.insert vectorId value).map fun ix =>
      { s with index := ix, entries := s.entries ++ [(value, vectorId)] }
  | .readFile l r =>
    match s.call with
    | .idle =>
      -- a file of another length than `base_n_vectors_` is not read as it was written
      if s.index.store.data.length = s.index.baseNVectors then
        (s.index.store.fileIds l r).map fun ids =>
          { s with call := .afterFile l r ids s.entries }
      else none
    | _ => none
  | .readDelta =>
    match s.call with
    | .afterFile l r ids before =>
      some { s with
        call := .done l r ((ids ++ s.index.store.deltaIds l r).insertionSort (· ≤ ·)) before }
    | _ => none

/-- After `save` of the values, before the call. -/
def saved (attrs : List UInt32) (h : attrs ≠ []) : Listing := ⟨.save attrs h, attrs.zipIdx, .idle⟩

/-- The call returns every id in the interval that was complete when it began. -/
def Complete (s : Listing) : Prop :=
  ∀ l r result before, s.call = .done l r result before →
    ∀ p ∈ before, inInterval l r p = true → p.2 ∈ result

/-- **What must not happen between the two steps**: an insert that merges a delta in which
there is still an id that the call must return. -/
def Keeps (s : Listing) : ListingStep → Prop
  | .insert vectorId value =>
    ∀ l r ids before, s.call = .afterFile l r ids before →
      (s.index.insertDelta vectorId value).mergeDue = true →
      ∀ p ∈ s.index.deltaData, p ∈ before → inInterval l r p = false
  | _ => True

end Listing

/-! ## The contents of the index -/

namespace RangeAttrIndex
variable {ix ix' : RangeAttrIndex} {id : Nat} {v : UInt32}

/-- Without a renumbering the merged file has all pairs. -/
theorem mergedData_empty (ix : RangeAttrIndex) :
    (ix.mergedData .empty).Perm (ix.store.data ++ ix.deltaData) := by
  refine (perm_insertionSort _ _).trans ?_
  have hsame : (fun p : UInt32 × Nat => (IdMap.empty.newId p.2).map fun new => (p.1, new)) =
      some := rfl
  rw [hsame, filterMap_some]

/-- What `insert` does to the two halves. -/
theorem insert_halves (h : ix.insert id v = some ix') :
    (ix.insertDelta id v).mergeDue = false ∧ ix'.store.data = ix.store.data ∧
        ix'.deltaData.Perm ((v, id) :: ix.deltaData) ∨
      (ix.insertDelta id v).mergeDue ∧
        ix'.store.data.Perm (ix.store.data ++ (v, id) :: ix.deltaData) ∧ ix'.deltaData = [] := by
  have hdelta := deltaData_insertDelta ix id v
  rw [insert, doMerge] at h
  split_ifs at h with hdue hok <;> cases h
  · exact .inr ⟨hdue, (mergedData_empty _).trans (hdelta.append_left _), rfl⟩
  · exact .inl ⟨Bool.eq_false_iff.mpr hdue, rfl, hdelta⟩

/-- The keys of the delta are values. -/
def KeysFit (ix : RangeAttrIndex) : Prop :=
  ∀ q ∈ OrderedMap.entries ix.store.delta, q.1 < UInt32.size

theorem KeysFit.insert (hk : ix.KeysFit) (h : ix.insert id v = some ix') : ix'.KeysFit := by
  have hdelta : (ix.insertDelta id v).KeysFit := by
    intro q hq
    have hpush := (push_spec v.toNat id ix.store.keyed).2
    rcases mem_cons.mp (hpush.mem_iff.mp hq) with rfl | hq
    · exact v.toNat_lt
    · exact hk q hq
  rw [RangeAttrIndex.insert, doMerge] at h
  split_ifs at h with hdue hok <;> cases h
  · exact fun q hq => absurd hq not_mem_nil
  · exact hdelta

/-- What the second step finds. -/
theorem mem_deltaIds (hk : ix.KeysFit) (l r : UInt32) (id : Nat) :
    id ∈ ix.store.deltaIds l r ↔ ∃ p ∈ ix.deltaData, inInterval l r p ∧ p.2 = id := by
  rw [Store.deltaIds, values_range _ _ ix.store.keyed]
  simp only [mem_filter, deltaData, mem_map]
  have hin : ∀ q ∈ entries ix.store.delta, (inRange (some l.toNat) (some r.toNat) q.1 ↔
        inInterval l r (ofNat q.1, q.2)) := by
    intro q hq
    have hq := toNat_ofNat_of_lt' (hk q hq)
    rw [inRange_iff, atLeast_some, isBelow_some, inInterval,
      Bool.and_eq_true, decide_eq_true_eq, decide_eq_true_eq, le_iff_toNat_le,
      lt_iff_toNat_lt]
    rw [hq]
  constructor
  · rintro ⟨q, ⟨hq, hr⟩, rfl⟩
    exact ⟨_, ⟨q, hq, rfl⟩, (hin q hq).mp hr, rfl⟩
  · rintro ⟨_, ⟨q, hq, rfl⟩, hr, rfl⟩
    exact ⟨q, ⟨hq, (hin q hq).mpr hr⟩, rfl⟩

end RangeAttrIndex

open RangeAttrIndex

/-! ## What a call misses -/

namespace Listing
variable {s s' s₀ : Listing} {a : ListingStep} {ops : List ListingStep} {p q : UInt32 × Nat}

/-- The two halves hold what was inserted, once for each id; a call has only found ids of the
file. -/
structure Sound (s : Listing) : Prop where
  held : (s.index.store.data ++ s.index.deltaData).Perm s.entries
  keys : s.index.KeysFit
  ids : (s.entries.map Prod.snd).Nodup
  began : ∀ l r ids before, s.call = .afterFile l r ids before →
    (∀ p ∈ before, p ∈ s.entries) ∧ ∀ id ∈ ids, ∃ p ∈ s.index.store.data, p.2 = id

/-- What a call must return is found, or still in the delta. -/
def Within (s : Listing) : Prop :=
  (∀ l r ids before, s.call = .afterFile l r ids before →
    ∀ p ∈ before, inInterval l r p = true → p.2 ∈ ids ∨ p ∈ s.index.deltaData) ∧ s.Complete

theorem Sound.mem_entries (h : s.Sound) (p : UInt32 × Nat) :
    p ∈ s.entries ↔ p ∈ s.index.store.data ∨ p ∈ s.index.deltaData := by
  rw [← h.held.mem_iff, mem_append]

/-- An entry is known by its id. -/
theorem Sound.eq_of_id (h : s.Sound) (hp : p ∈ s.entries)
    (hq : q ∈ s.entries) (hid : p.2 = q.2) : p = q :=
  inj_on_of_nodup_map h.ids hp hq hid

/-- No id is in both halves. -/
theorem Sound.not_found (h : s.Sound) (hp : p ∈ s.index.store.data)
    (hq : q ∈ s.index.deltaData) : p.2 ≠ q.2 := by
  have hnd : ((s.index.store.data ++ s.index.deltaData).map Prod.snd).Nodup :=
    (h.held.map Prod.snd).nodup_iff.mpr h.ids
  rw [map_append, nodup_append] at hnd
  exact hnd.2.2 _ (mem_map_of_mem hp) _ (mem_map_of_mem hq)

/-- The cases of an insert. -/
theorem insert_cases {id : Nat} {v : UInt32} (h : step s (.insert id v) = some s') :
    id ∉ s.entries.map Prod.snd ∧ ∃ ix, s.index.insert id v = some ix ∧
      s' = { s with index := ix, entries := s.entries ++ [(v, id)] } := by
  grind [step, Option.map_eq_some_iff]

theorem readFile_cases {l r : UInt32} (h : step s (.readFile l r) = some s') :
    s.call = .idle ∧ ∃ ids, s.index.store.fileIds l r = some ids ∧
      s' = { s with call := .afterFile l r ids s.entries } := by
  grind [step, Option.map_eq_some_iff]

theorem readDelta_cases (h : step s .readDelta = some s') : ∃ l r ids before,
    s.call = .afterFile l r ids before ∧ s' = { s with
      call := .done l r ((ids ++ s.index.store.deltaIds l r).insertionSort (· ≤ ·)) before } := by
  grind [step]

theorem Sound.step (hs : s.Sound) (h : Listing.step s a = some s') : s'.Sound := by
  cases a with
  | insert id v =>
    obtain ⟨hnew, ix, hix, rfl⟩ := insert_cases h
    have hall : (s.index.store.data ++ (v, id) :: s.index.deltaData).Perm
        (s.entries ++ [(v, id)]) :=
      perm_middle.trans ((hs.held.cons _).trans (perm_append_singleton _ _).symm)
    obtain ⟨hheld, hdata⟩ : (ix.store.data ++ ix.deltaData).Perm (s.entries ++ [(v, id)]) ∧
        ∀ p ∈ s.index.store.data, p ∈ ix.store.data := by
      rcases insert_halves hix with ⟨-, hdata, hdelta⟩ | ⟨-, hdata, hdelta⟩
      · rw [hdata]
        exact ⟨(hdelta.append_left _).trans hall, fun _ hp => hp⟩
      · rw [hdelta, append_nil]
        exact ⟨hdata.trans hall, fun p hp => hdata.mem_iff.mpr (mem_append_left _ hp)⟩
    refine ⟨hheld, hs.keys.insert hix, ?_, fun l r ids before hcall => ?_⟩
    · have hids := hs.ids
      grind
    · have hbegan := hs.began l r ids before hcall
      grind
  | readFile l r =>
    obtain ⟨-, ids, hids, rfl⟩ := readFile_cases h
    refine { hs with began := ?_ }
    rintro _ _ _ _ ⟨⟩
    refine ⟨fun p hp => hp, fun id hid => ?_⟩
    obtain ⟨p, hp, -, hpid⟩ := (Store.mem_fileIds hids id).mp hid
    exact ⟨p, hp, hpid⟩
  | readDelta =>
    obtain ⟨l, r, ids, before, -, rfl⟩ := readDelta_cases h
    exact { hs with began := fun _ _ _ _ h => by cases h }

/-- **One step.**  What a call must return is lost exactly by a merge that moves it. -/
theorem within_step_iff (hs : s.Sound) (h : step s a = some s') :
    s'.Within ↔ s.Within ∧ s.Keeps a := by
  cases a with
  | insert id v =>
    obtain ⟨hnew, ix, hix, rfl⟩ := insert_cases h
    have hcomplete : Complete { s with index := ix, entries := s.entries ++ [(v, id)] } ↔
        s.Complete := Iff.rfl
    rw [Within, Within, Keeps]
    have hbefore : ∀ l r ids before, s.call = .afterFile l r ids before →
        ∀ p ∈ before, p ≠ (v, id) := by
      rintro l r ids before hcall p hp rfl
      exact hnew (mem_map_of_mem ((hs.began l r ids before hcall).1 _ hp))
    -- what the call has found in the file is not in the delta
    have hfound : ∀ l r ids before, s.call = .afterFile l r ids before →
        ∀ p ∈ s.index.deltaData, p.2 ∉ ids := by
      intro l r ids before hcall p hp hid
      obtain ⟨q, hq, he⟩ := (hs.began l r ids before hcall).2 _ hid
      exact hs.not_found hq hp he
    rcases insert_halves hix with ⟨hdue, -, hdelta⟩ | ⟨hdue, -, hdelta⟩
    · grind
    · grind
  | readFile l r =>
    obtain ⟨hidle, ids, hids, rfl⟩ := readFile_cases h
    refine iff_of_true ⟨?_, fun _ _ _ _ h => by cases h⟩ ⟨⟨?_, ?_⟩, trivial⟩
    · rintro _ _ _ _ ⟨⟩ p hp hin
      refine ((hs.mem_entries p).mp hp).imp_left fun hdata => ?_
      exact (Store.mem_fileIds hids p.2).mpr ⟨p, hdata, hin, rfl⟩
    all_goals simp [hidle, Complete]
  | readDelta =>
    obtain ⟨l, r, ids, before, hcall, rfl⟩ := readDelta_cases h
    have hresult : ∀ p ∈ before, inInterval l r p →
        (p.2 ∈ (ids ++ s.index.store.deltaIds l r).insertionSort (· ≤ ·) ↔
          p.2 ∈ ids ∨ p ∈ s.index.deltaData) := by
      intro p hp hin
      rw [mem_insertionSort, mem_append, mem_deltaIds hs.keys]
      refine or_congr_right ⟨?_, fun h => ⟨p, h, hin, rfl⟩⟩
      rintro ⟨q, hq, -, hid⟩
      have hpe := (hs.began l r ids before hcall).1 p hp
      have hqe := (hs.mem_entries q).mpr (.inr hq)
      exact hs.eq_of_id hqe hpe hid ▸ hq
    simp only [Within, Complete, Keeps]
    grind

theorem sound_saved (attrs : List UInt32) (h : attrs ≠ []) : (saved attrs h).Sound := by
  refine ⟨?_, fun q hq => absurd hq not_mem_nil, ?_, fun _ _ _ _ h => by cases h⟩
  · have : (saved attrs h).index.deltaData = [] := rfl
    rw [this, append_nil]
    exact perm_insertionSort entryLe _
  · show (attrs.zipIdx.map Prod.snd).Nodup
    rw [zipIdx_map_snd]
    exact nodup_range'

/-- What is found at the end of a run, without the claim that the call has returned. -/
theorem within_run_iff {attrs : List UInt32} (hne : attrs ≠ [])
    (hrun : runSteps step (saved attrs hne) ops = some s) :
    s.Within ↔ EachStep step (saved attrs hne) ops Keeps := by
  exact final_iff_eachStep hrun
    (always_of_step (sound_saved attrs hne) fun _ _ _ ht hs => ht.step hs) 
    ⟨fun _ _ _ _ h => (by cases h), fun _ _ _ _ h => by cases h⟩
    fun _ _ _ ht hs => within_step_iff ht hs

/-- **What a concurrent call returns.**  For any saved values and any interleaving of a call of
`pre_filter` with inserts and the merges they trigger, the call that has returned has every id
in the interval whose insert was complete when it began if and only if no insert between its
two steps merges a delta with such an id. -/
theorem preFilter_complete_iff {attrs : List UInt32} (hne : attrs ≠ []) {l r : UInt32}
    {result : List Nat} {before : List (UInt32 × Nat)}
    (hrun : runSteps step (saved attrs hne) ops = some s)
    (hdone : s.call = .done l r result before) :
    s.Complete ↔ EachStep step (saved attrs hne) ops Keeps := by
  -- the call is done, so that nothing is left to list
  have hwithin : s.Within ↔ s.Complete := by
    refine and_iff_right fun l' r' ids' before' hcall => ?_
    rw [hdone] at hcall
    cases hcall
  rw [← hwithin]
  exact within_run_iff hne hrun

/-- A call with an insert between its steps, whose id was not complete when it began. -/
def listingRun : List ListingStep :=
  [.insert 1 7, .readFile 7 9, .insert 2 8, .readDelta]

theorem preFilter_complete_listingRun : ∃ s l r result before,
    runSteps step (saved [0] (cons_ne_nil _ _)) listingRun = some s ∧
      s.call = .done l r result before ∧
      (s.Complete ↔ EachStep step (saved [0] (cons_ne_nil _ _)) listingRun Keeps) := by
  have hrun : ((runSteps step (saved [0] (cons_ne_nil _ _)) listingRun).map fun s =>
      s.call.result) = some (some [1, 2]) := by
    decide +kernel
  obtain ⟨s, hs, hresult⟩ := Option.map_eq_some_iff.mp hrun
  obtain ⟨l, r, before, hdone⟩ := PreFilterCall.exists_done hresult
  exact ⟨s, l, r, _, before, hs, hdone, preFilter_complete_iff _ hs hdone⟩

/-! ## A call that misses what a merge moved -/

/-- Vectors `1` to `n` get the value `7`. -/
def sevens (n : Nat) : List ListingStep := (List.range n).map fun i => .insert (i + 1) 7

/-- An index saved with the value `0` for vector `0`, after these inserts. -/
structure Filled (n : Nat) (s : Listing) : Prop where
  call : s.call = .idle
  bytes : s.index.deltaBytes = 8 * n
  vectors : s.index.nVectors = n + 1
  base : s.index.baseNVectors = 1
  data : s.index.store.data = [(0, 0)]
  entries : s.entries = (0, 0) :: (List.range n).map fun i => (7, i + 1)

theorem Filled.mergeDue {n : Nat} (h : Filled n s) (id : Nat) (v : UInt32) :
    (s.index.insertDelta id v).mergeDue = decide (4 * 1024 * 1024 ≤ 8 * (n + 1)) := by
  show decide (max (4 * 1024 * 1024) (2 * 4 * s.index.baseNVectors / 8) ≤
    s.index.deltaBytes + 2 * 4) = _
  rw [h.base, h.bytes]
  rfl

theorem Filled.fresh {n : Nat} (h : Filled n s) : n + 1 ∉ s.entries.map Prod.snd := by
  rw [h.entries]
  simp

theorem exists_filled (n : Nat) (hn : 8 * n < 4 * 1024 * 1024) : ∃ s,
    runSteps step (saved [0] (cons_ne_nil _ _)) (sevens n) = some s ∧ Filled n s := by
  induction n with
  | zero => exact ⟨_, rfl, rfl, rfl, rfl, rfl, rfl, rfl⟩
  | succ n ih =>
    obtain ⟨s, hs, hfilled⟩ := ih (by omega)
    have hnot : (s.index.insertDelta (n + 1) 7).mergeDue = false := by
      rw [hfilled.mergeDue]
      exact decide_eq_false (by omega)
    have hconcat : sevens (n + 1) = sevens n ++ [.insert (n + 1) 7] := by
      rw [sevens, range_succ, map_append]
      rfl
    refine ⟨⟨s.index.insertDelta (n + 1) 7, s.entries ++ [(7, n + 1)], s.call⟩, ?_,
      hfilled.call, ?_, ?_, hfilled.base, hfilled.data, ?_⟩
    · rw [hconcat, runSteps_concat hs, step, if_neg hfilled.fresh, RangeAttrIndex.insert]
      rw [hnot]
      rfl
    · show s.index.deltaBytes + 2 * 4 = _
      rw [hfilled.bytes]
      omega
    · show max s.index.nVectors _ = _
      rw [hfilled.vectors]
      omega
    · rw [hfilled.entries, range_succ, map_append]
      rfl

/-- The merge that an insert triggers is defined if the file has one entry for each vector. -/
theorem exists_insert_of_mergeDue {ix : RangeAttrIndex} {id : Nat} {v : UInt32}
    (hdue : (ix.insertDelta id v).mergeDue) (hbase : ix.store.data.length = ix.baseNVectors)
    (hall : (ix.store.data ++ ix.deltaData).length + 1 = max ix.nVectors (id + 1)) :
    ∃ ix', ix.insert id v = some ix' := by
  have hlen : ((ix.insertDelta id v).mergedData .empty).length = max ix.nVectors (id + 1) := by
    rw [← hall, (mergedData_empty _).length_eq, length_append,
      (deltaData_insertDelta ix id v).length_eq, length_append]
    rfl
  have hinside : histogramInside (IdMap.empty.newSize
      (ix.insertDelta id v).nVectors) ((ix.insertDelta id v).mergedData .empty) := by
    refine decide_eq_true fun i hi _ => ?_
    rw [hlen]
    exact hi
  have hsome : (ix.insert id v).isSome := by
    rw [RangeAttrIndex.insert, hdue, if_pos rfl, RangeAttrIndex.doMerge, if_pos ⟨hbase, hinside⟩]
    rfl
  exact Option.isSome_iff_exists.mp hsome

/-- With one insert less than a merge takes, a call that reads the file before and the delta
after the next insert finds nothing. -/
theorem not_found_of_merge {n : Nat} (hpos : 0 < n) (hn : 8 * n < 4 * 1024 * 1024)
    (hdue : 4 * 1024 * 1024 ≤ 8 * (n + 1)) : ∃ s result before,
      Reach step anyStep (saved [0] (cons_ne_nil _ _)) s ∧
      s.call = .done 7 8 result before ∧ (7, 1) ∈ before ∧ 1 ∉ result := by
  obtain ⟨s, hs, hfilled⟩ := exists_filled n hn
  have hreach := Reach.of_run hs
  have hsound : s.Sound :=
    Reach.invariant (sound_saved _ _) (fun _ _ _ ht _ hs => ht.step hs) hreach
  obtain ⟨ids, hids⟩ : ∃ ids, s.index.store.fileIds 7 8 = some ids :=
    ⟨_, Store.preFilter_of_le _ (by decide)⟩
  have hfile : step s (.readFile 7 8) = some { s with call := .afterFile 7 8 ids s.entries } := by
    simp only [step, hfilled.call, hfilled.data, hfilled.base, hids]
    rfl
  have hmerge : (s.index.insertDelta (n + 1) 7).mergeDue := by
    rw [hfilled.mergeDue]
    exact decide_eq_true hdue
  obtain ⟨ix, hix⟩ : ∃ ix, s.index.insert (n + 1) 7 = some ix := by
    refine exists_insert_of_mergeDue hmerge ?_ ?_
    · rw [hfilled.data, hfilled.base]
      rfl
    · rw [hsound.held.length_eq, hfilled.entries, hfilled.vectors]
      simp
  have hinsert : step { s with call := .afterFile 7 8 ids s.entries } (.insert (n + 1) 7) =
      some ⟨ix, s.entries ++ [(7, n + 1)], .afterFile 7 8 ids s.entries⟩ := by
    rw [step, if_neg hfilled.fresh]
    exact congrArg _ hix
  have hreach' := (hreach.step _ trivial hfile).step _ trivial hinsert
  refine ⟨_, _, s.entries, hreach'.step .readDelta trivial rfl, rfl, ?_, ?_⟩
  · rw [hfilled.entries]
    exact mem_cons_of_mem _ (mem_map.mpr ⟨0, mem_range.mpr hpos, rfl⟩)
  · rw [mem_insertionSort, mem_append, Store.mem_fileIds hids,
      mem_deltaIds (hsound.keys.insert hix)]
    rintro (⟨p, hp, hin, -⟩ | ⟨p, hp, -⟩)
    · rw [hfilled.data, mem_singleton] at hp
      rw [hp] at hin
      exact absurd hin (by decide)
    · rcases insert_halves hix with ⟨hno, -⟩ | ⟨-, -, hdelta⟩
      · rw [hmerge] at hno
        cases hno
      · rw [hdelta] at hp
        exact absurd hp not_mem_nil

/-- **A call that misses an id.**  Vectors `1` to `524287` have the value `7` in the delta when
the call reads the file; the insert of vector `524288` merges them before it reads the delta. -/
theorem mergeBetween_misses : ∃ s result before,
    Reach step anyStep (saved [0] (cons_ne_nil _ _)) s ∧
      s.call = .done 7 8 result before ∧ (7, 1) ∈ before ∧ 1 ∉ result :=
  @not_found_of_merge 524287 (by omega) (by omega) (by omega)

end Listing
end RangeIndex
end PipeANN
