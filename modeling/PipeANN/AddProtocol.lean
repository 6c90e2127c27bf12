import PipeANN.TransformIndex

/-! # Concurrent bulk adds

Any number of threads call `add` of one index.  A call holds `save_mu_` in shared mode while
its rows are inserted, in any order; it then releases the lock, and tests whether the index
is in memory (`use_disk_index_`) and whether it has more than `kBuildThreshold` points, both
without the lock.  If so it transforms the index, holding `save_mu_` alone.

Two calls may pass the tests before either transforms the index.  The second transformation
then builds the disk index once more from the points in memory, and the rows that were
inserted on disk in between are gone.  `returned_stored` says that this is all that can go
wrong: while no index on disk with further rows is transformed, every row of a call that has
returned is in the index.

The insert of one row is a single step here; how it proceeds on disk is the subject of
`InsertProtocol`.
-/
namespace PipeANN.Streaming
open List Function Streaming.DynamicIndex MemIndex Option

/-- A row of a batch: its tag, and its vector and attributes. -/
abbrev Row (ν α : Type) := Nat × NodePayload ν α

/-- Where a call of `add` with the given rows is. -/
inductive AddPhase (ν α : Type) where
  | idle
  /-- In the shared section; `todo` has the rows that are not inserted yet. -/
  | inserting (rows todo : List (Row ν α))
  /-- Before the test of `use_disk_index_`. -/
  | testFlag (rows : List (Row ν α))
  /-- Before the test of the number of points. -/
  | testCount (rows : List (Row ν α))
  /-- Before the exclusive section. -/
  | transforming (rows : List (Row ν α))

/-- The index and the calls in progress. -/
structure AddState (ν α : Type) where
  ix : DynamicIndex ν α
  phase : Nat → AddPhase ν α
  /-- The threads that hold `save_mu_` in shared mode. -/
  sharedBy : List Nat
  /-- The rows of all calls (history variable). -/
  called : List (Row ν α)
  /-- The rows of the calls that have returned (history variable). -/
  returned : List (Row ν α)

/-- A step of thread `t`. -/
inductive AddLabel (ν α : Type) where
  | call (t : Nat) (rows : List (Row ν α))
  | insertRow (t i : Nat)
  | release (t : Nat)
  | readFlag (t : Nat)
  | readCount (t : Nat)
  | transform (t : Nat)

namespace DynamicIndex
variable {ν α : Type} [Inhabited α] {ix : DynamicIndex ν α}

theorem stored_doInsert_self (hmem : ix.mem.Valid) (point : ν) (tag : Nat) (attrs : α)
    (sampled : Bool) : (ix.doInsert point tag attrs sampled).Stored tag point := by
  rcases huse : ix.useDiskIndex with _ | _
  · rw [stored_mem (by rw [useDiskIndex_doInsert, huse]), doInsert_mem huse,
      hmem.stored_insertPoint]
    exact .inl ⟨rfl, rfl⟩
  · exact (stored_doInsert_disk huse).mpr (.inl ⟨rfl, rfl⟩)

theorem stored_doInsert_of_ne (hmem : ix.mem.Valid) {u tag : Nat} {v : ν} (h : ix.Stored u v)
    (hne : u ≠ tag) (point : ν) (attrs : α) (sampled : Bool) :
    (ix.doInsert point tag attrs sampled).Stored u v := by
  rcases huse : ix.useDiskIndex with _ | _
  · rw [stored_mem huse] at h
    rw [stored_mem (by rw [useDiskIndex_doInsert, huse]), doInsert_mem huse,
      hmem.stored_insertPoint]
    exact .inr (hmem.stored_lazyDelete_of_ne h hne)
  · exact (stored_doInsert_disk huse).mpr (.inr h)

/-- An insert that is not for a navigation graph: in memory it goes to the points in memory,
on disk to the end of the disk index. -/
theorem doInsert_disk (huse : ix.useDiskIndex) (point : ν) (tag : Nat) (attrs : α) :
    ix.doInsert point tag attrs false =
      { ix with disk := ix.disk ++ [(tag, ⟨point, if ix.hasAttrs then attrs else default⟩)] } := by
  rw [doInsert, if_pos huse, Bool.and_false]
  rfl

theorem mem_insertAll_disk (huse : ix.useDiskIndex) (rows : List (Row ν α)) :
    (ix.insertAll rows).mem = ix.mem := by
  induction rows generalizing ix with
  | nil => rfl
  | cons row rows ih =>
    rw [insertAll, foldl_cons, doInsert_disk huse]
    exact ih huse

/-- The transformation of an index in memory keeps its points. -/
theorem stored_transform (hmem : ix.mem.Valid) {tag : Nat} {v : ν} (h : ix.mem.Stored tag v) :
    ix.transform.Stored tag v := by
  obtain ⟨l, hl, hv⟩ := h
  refine (stored_disk rfl).mpr ⟨(tag, ⟨v, default⟩), mem_transform.mpr ⟨l, ?_, hv, rfl⟩, rfl, rfl⟩
  rw [hmem.savedTags_eq hl]
  simp [hmem.lt l tag hl, hl]

end DynamicIndex

namespace AddState
variable {ν α : Type}

/-- An index, and no call. -/
def initial (ix : DynamicIndex ν α) : AddState ν α := ⟨ix, fun _ => .idle, [], [], []⟩

variable (s : AddState ν α)

def setPhase (t : Nat) (p : AddPhase ν α) : AddState ν α :=
  { s with phase := update s.phase t p }

/-- The call of thread `t` returns. -/
def finish (t : Nat) (rows : List (Row ν α)) : AddState ν α :=
  { s.setPhase t .idle with returned := s.returned ++ rows }

def step [Inhabited α] (s : AddState ν α) : AddLabel ν α → Option (AddState ν α)
  | .call t rows =>
    match s.phase t with
    | .idle =>
      some { s.setPhase t (.inserting rows rows) with
        sharedBy := t :: s.sharedBy, called := s.called ++ rows }
    | _ => none
  | .insertRow t i =>
    match s.phase t with
    | .inserting rows todo =>
      (todo[i]?).map fun row =>
        { s.setPhase t (.inserting rows (todo.eraseIdx i)) with
          ix := s.ix.doInsert row.2.coords row.1 row.2.attrs false }
    | _ => none
  | .release t =>
    match s.phase t with
    | .inserting rows [] =>
      some { s.setPhase t (.testFlag rows) with sharedBy := s.sharedBy.filter (· ≠ t) }
    | _ => none
  | .readFlag t =>
    match s.phase t with
    | .testFlag rows =>
      some (if s.ix.useDiskIndex then s.finish t rows else s.setPhase t (.testCount rows))
    | _ => none
  | .readCount t =>
    match s.phase t with
    | .testCount rows =>
      some (if kBuildThreshold < s.ix.mem.vectors.length then
        s.setPhase t (.transforming rows) else s.finish t rows)
    | _ => none
  | .transform t =>
    match s.phase t with
    | .transforming rows =>
      if s.sharedBy = [] then some { s.finish t rows with ix := s.ix.transform } else none
    | _ => none

/-- The index is transformed while it is in memory, or before a row was inserted on disk. -/
def TransformOk : AddLabel ν α → Prop
  | .transform _ => s.ix.useDiskIndex = true → s.ix.disk.length = s.ix.mem.vectors.length
  | _ => True

instance (a : AddLabel ν α) : Decidable (s.TransformOk a) :=
  match a with
  | .transform _ => inferInstanceAs (Decidable (_ = true → _ = _))
  | .call _ _ | .insertRow _ _ | .release _ | .readFlag _ | .readCount _ => isTrue trivial

/-- All calls that have a row of the tag have the vector `v` for it. -/
def OneVector (tag : Nat) (v : ν) : Prop :=
  ∀ row ∈ s.called, row.1 = tag → row.2.coords = v

/-- The row is in the index, if no call has another vector for its tag. -/
def Kept (row : Row ν α) : Prop :=
  s.OneVector row.1 row.2.coords → s.ix.Stored row.1 row.2.coords

/-- The rows that a call has inserted are in the index; the others are rows of a call. -/
def PhaseOk : AddPhase ν α → Prop
  | .idle => True
  | .inserting rows todo =>
    (∀ row ∈ rows, row ∈ todo ∨ s.Kept row) ∧ ∀ row ∈ todo, row ∈ s.called
  | .testFlag rows | .testCount rows | .transforming rows => ∀ row ∈ rows, s.Kept row

/-- What a run keeps. -/
structure Inv [Inhabited α] (s : AddState ν α) : Prop where
  valid : s.ix.mem.Valid
  /-- A disk index has the points in memory, and after them the rows inserted on disk. -/
  frozen : s.ix.useDiskIndex = true → ∃ extra, s.ix.disk = s.ix.transform.disk ++ extra
  phases : ∀ t, s.PhaseOk (s.phase t)
  returned : ∀ row ∈ s.returned, s.Kept row

variable [Inhabited α] {s s' : AddState ν α} {ix : DynamicIndex ν α}

theorem inv_initial (huse : ix.useDiskIndex = false) (hmem : ix.mem.Valid) : (initial ix).Inv where
  valid := hmem
  frozen h := absurd (huse.symm.trans h) (by simp)
  phases _ := trivial
  returned _ h := absurd h not_mem_nil

omit [Inhabited α] in
theorem PhaseOk.mono {p : AddPhase ν α} (h : s.PhaseOk p) (hkept : ∀ row, s.Kept row → s'.Kept row)
    (hcalled : s.called ⊆ s'.called) : s'.PhaseOk p := by
  cases p with
  | idle => trivial
  | inserting rows todo =>
    exact ⟨fun row hrow => (h.1 row hrow).imp_right (hkept row), fun row hrow =>
      hcalled (h.2 row hrow)⟩
  | testFlag | testCount | transforming => exact fun row hrow => hkept row (h row hrow)

/-- A step of thread `t` that keeps the rows in the index. -/
theorem Inv.of_step (hs : s.Inv) (t : Nat) (p : AddPhase ν α)
    (hphase : s'.phase = update s.phase t p) (hp : s'.PhaseOk p)
    (hkept : ∀ row, s.Kept row → s'.Kept row) (hcalled : s.called ⊆ s'.called)
    (hreturned : ∀ row ∈ s'.returned, row ∈ s.returned ∨ s'.Kept row) (hvalid : s'.ix.mem.Valid)
    (hfrozen : s'.ix.useDiskIndex → ∃ extra, s'.ix.disk = s'.ix.transform.disk ++ extra) :
    s'.Inv where
  valid := hvalid
  frozen := hfrozen
  phases u := by
    rw [hphase, update_apply]
    split
    · exact hp
    · exact (hs.phases u).mono hkept hcalled
  returned row hrow := (hreturned row hrow).elim (fun h => hkept row (hs.returned row h)) id

/-- A step that leaves the index alone. -/
theorem Inv.of_same_ix (hs : s.Inv) (t : Nat) (p : AddPhase ν α)
    (hphase : s'.phase = update s.phase t p) (hp : s'.PhaseOk p) (hix : s'.ix = s.ix)
    (hcalled : s.called ⊆ s'.called)
    (hreturned : ∀ row ∈ s'.returned, row ∈ s.returned ∨ s'.Kept row) : s'.Inv := by
  refine hs.of_step t p hphase hp (fun row h hone => ?_) hcalled hreturned
    (by rw [hix]; exact hs.valid) (by rw [hix]; exact hs.frozen)
  rw [hix]
  exact h fun row' hrow' => hone row' (hcalled hrow')

variable {t : Nat} {rows : List (Row ν α)} {todo : List (Row ν α)}

theorem Inv.insertRow (hs : s.Inv) {i : Nat} {row : Row ν α}
    (hphase : s.phase t = .inserting rows todo) (hrow : todo[i]? = some row) :
    Inv { s.setPhase t (.inserting rows (todo.eraseIdx i)) with
      ix := s.ix.doInsert row.2.coords row.1 row.2.attrs false } := by
  obtain ⟨hrows, htodo⟩ : s.PhaseOk (.inserting rows todo) := hphase ▸ hs.phases t
  have hcalled := htodo row (mem_of_getElem? hrow)
  -- a row stays, unless the insert has another vector for its tag
  have hkept : ∀ r, s.Kept r → AddState.Kept { s.setPhase t (.inserting rows (todo.eraseIdx i)) with
        ix := s.ix.doInsert row.2.coords row.1 row.2.attrs false } r := fun r hr hone => by
    by_cases htag : r.1 = row.1
    · rw [htag, ← hone row hcalled htag.symm]
      exact stored_doInsert_self hs.valid ..
    · exact stored_doInsert_of_ne hs.valid (hr hone) htag ..
  refine hs.of_step t (.inserting rows (todo.eraseIdx i)) rfl ⟨fun r hr => ?_, fun r hr => ?_⟩
    hkept (Subset.refl _) (fun r => .inl) ?_ ?_
  · rcases hrows r hr with hr | hr
    · obtain ⟨j, hj⟩ := mem_iff_getElem?.mp hr
      by_cases hij : j = i
      · obtain rfl : row = r := some.inj (hrow.symm.trans (hij ▸ hj))
        exact .inr fun _ => stored_doInsert_self hs.valid ..
      · exact .inl (mem_eraseIdx_iff_getElem?.mpr ⟨j, hij, hj⟩)
    · exact .inr (hkept r hr)
  · exact htodo r (mem_of_mem_eraseIdx hr)
  · rcases huse : s.ix.useDiskIndex with _ | _
    · rw [doInsert_mem huse]
      exact hs.valid.insertPoint ..
    · rw [doInsert_disk huse]
      exact hs.valid
  · intro huse
    have huse : s.ix.useDiskIndex := (useDiskIndex_doInsert ..).symm.trans huse
    obtain ⟨extra, hextra⟩ := hs.frozen huse
    rw [doInsert_disk huse]
    refine ⟨extra ++ [(row.1, ⟨row.2.coords, if s.ix.hasAttrs then row.2.attrs else default⟩)], ?_⟩
    rw [← append_assoc]
    exact congrArg (· ++ [_]) hextra

/-- A call whose rows are in the index may return. -/
theorem Inv.finish (hs : s.Inv) (t : Nat)
    (hrows : ∀ row ∈ rows, s.Kept row) : (s.finish t rows).Inv :=
  hs.of_same_ix t .idle rfl trivial rfl (Subset.refl _) fun row hrow =>
    (mem_append.mp hrow).imp_right (hrows row)

theorem Inv.transform (hs : s.Inv) (hok : s.TransformOk (.transform t))
    (hphase : s.phase t = .transforming rows) :
    Inv { s.finish t rows with ix := s.ix.transform } := by
  have hrows : s.PhaseOk (.transforming rows) := hphase ▸ hs.phases t
  have hkept : ∀ row, s.Kept row →
      AddState.Kept { s.finish t rows with ix := s.ix.transform } row := fun row hrow hone => by
    have hstored := hrow hone
    rcases huse : s.ix.useDiskIndex with _ | _
    · rw [stored_mem huse] at hstored
      exact stored_transform hs.valid hstored
    · -- nothing was inserted on disk, so the disk index is built as it was
      obtain ⟨extra, hextra⟩ := hs.frozen huse
      have hlen := congrArg length hextra
      have hdisk : s.ix.transform.disk.length = s.ix.mem.vectors.length := by
        rw [DynamicIndex.transform, length_zip, length_savedTags, length_map, Nat.min_self]
      rw [length_append, hok huse] at hlen
      have hnil : extra = [] := length_eq_zero_iff.mp (by omega)
      rw [DynamicIndex.stored_disk huse, hextra, hnil, append_nil] at hstored
      exact (stored_disk rfl).mpr hstored
  exact hs.of_step t .idle rfl trivial hkept (Subset.refl _)
    (fun row hrow => (mem_append.mp hrow).imp_right fun h => hkept row (hrows row h))
    hs.valid fun _ => ⟨[], (append_nil _).symm⟩

theorem Inv.step (hs : s.Inv) {a : AddLabel ν α} (hok : s.TransformOk a)
    (h : s.step a = some s') : s'.Inv := by
  have hphase : ∀ {t p}, s.phase t = p → s.PhaseOk p := fun hp => hp ▸ hs.phases _
  revert h
  fun_cases AddState.step s a with
  | case1 t rows =>
    rintro ⟨⟩
    exact hs.of_same_ix t (.inserting rows rows) rfl ⟨fun row hrow => .inl hrow, fun row hrow =>
      mem_append_right _ hrow⟩ rfl (subset_append_left _ _) fun row => .inl
  | case3 t i rows todo hp =>
    intro h
    obtain ⟨row, hrow, rfl⟩ := map_eq_some_iff.mp h
    exact hs.insertRow hp hrow
  | case5 t rows hp =>
    rintro ⟨⟩
    exact hs.of_same_ix t (.testFlag rows) rfl
      (fun row hrow => ((hphase hp).1 row hrow).resolve_left not_mem_nil) rfl (Subset.refl _)
      fun row => .inl
  | case7 t rows hp =>
    rintro ⟨⟩
    split
    · exact hs.finish t (hphase hp)
    · exact hs.of_same_ix t (.testCount rows) rfl (hphase hp :) rfl (Subset.refl _) fun row => .inl
  | case9 t rows hp =>
    rintro ⟨⟩
    split
    · exact hs.of_same_ix t (.transforming rows) rfl (hphase hp :) rfl (Subset.refl _)
        fun row => .inl
    · exact hs.finish t (hphase hp)
  | case11 t rows hp =>
    rintro ⟨⟩
    exact hs.transform hok hp
  | _ => exact fun h => by cases h

theorem inv_of_reach (huse : ix.useDiskIndex = false)
    (hmem : ix.mem.Valid) (h : Reach step TransformOk (initial ix) s) : s.Inv :=
  h.invariant (inv_initial huse hmem) fun _ _ _ hs hok hstep => hs.step hok hstep

/-- **No row is lost.**  From an index in memory, in any interleaving in which the index is
transformed only while it is in memory or has no rows that were inserted on disk: the rows of
every call that has returned are in the index in use, each with its vector, unless a call had
another vector for the tag. -/
theorem returned_stored {ix : DynamicIndex ν α} (huse : ix.useDiskIndex = false)
    (hmem : ix.mem.Valid) (h : Reach step TransformOk (initial ix) s) :
    ∀ row ∈ s.returned, s.OneVector row.1 row.2.coords → s.ix.Stored row.1 row.2.coords :=
  (inv_of_reach huse hmem h).returned

/-! ## Two transformations -/

/-- The steps of a call up to the end of its shared section. -/
def sharedSection (t : Nat) (rows : List (Row ν α)) : List (AddLabel ν α) :=
  .call t rows :: (List.replicate rows.length (.insertRow t 0) ++ [.release t])

/-- A thread in its shared section inserts its rows one after the other. -/
theorem run_insertRow (h : s.phase t = .inserting rows todo) :
    runSteps step s (replicate todo.length (.insertRow t 0)) =
      some { s.setPhase t (.inserting rows []) with ix := s.ix.insertAll todo } := by
  induction todo generalizing s with
  | nil =>
    rw [setPhase, ← h, update_eq_self]
    rfl
  | cons row todo ih =>
    have hstep : s.step (.insertRow t 0) = some { s.setPhase t (.inserting rows todo) with
          ix := s.ix.doInsert row.2.coords row.1 row.2.attrs false } := by
      simp [step, h]
    rw [length_cons, replicate_succ, runSteps, hstep, bind_some, ih (update_self ..)]
    simp only [setPhase, update_idem]
    rfl

section
variable (h : s.phase t = .idle) (hshared : s.sharedBy = [])
include h hshared

theorem run_sharedSection (rows : List (Row ν α)) : runSteps step s (sharedSection t rows) =
      some { s.setPhase t (.testFlag rows) with
        ix := s.ix.insertAll rows, called := s.called ++ rows } := by
  have hcall : s.step (.call t rows) = some { s.setPhase t (.inserting rows rows) with
        sharedBy := t :: s.sharedBy, called := s.called ++ rows } := by
    simp [step, h]
  rw [sharedSection, runSteps, hcall, bind_some, runSteps_append,
    run_insertRow (update_self ..), bind_some, runSteps]
  simp [step, setPhase, hshared, runSteps]

/-- A call that brings an index in memory over the threshold goes on to transform it. -/
theorem run_crossing (huse : s.ix.useDiskIndex = false)
    (hlt : kBuildThreshold < s.ix.mem.vectors.length + rows.length) :
    runSteps step s (sharedSection t rows ++ [.readFlag t, .readCount t]) =
      some { s.setPhase t (.transforming rows) with
        ix := { s.ix with mem := s.ix.mem.insertPoints rows }, called := s.called ++ rows } := by
  rw [← length_vectors_insertPoints] at hlt
  rw [runSteps_append, run_sharedSection h hshared, insertAll_mem huse]
  simp [runSteps, step, setPhase, huse, hlt]

/-- A call that finds a disk index returns. -/
theorem run_onDisk (huse : s.ix.useDiskIndex) (rows : List (Row ν α)) :
    runSteps step s (sharedSection t rows ++ [.readFlag t]) = some { s.setPhase t .idle with
        ix := s.ix.insertAll rows, called := s.called ++ rows,
        returned := s.returned ++ rows } := by
  have huse' : (s.ix.insertAll rows).useDiskIndex :=
    useDiskIndex_insertAll.trans huse
  rw [runSteps_append, run_sharedSection h hshared]
  simp [runSteps, step, setPhase, finish, huse']

end

theorem step_transform (h : s.phase t = .transforming rows) (hshared : s.sharedBy = []) :
    s.step (.transform t) = some { s.finish t rows with ix := s.ix.transform } := by
  simp [step, h, hshared]

/-- Thread `0` adds `rows`, more than the threshold, and thread `1` one more row; both go on
to transform the index.  After thread `0` has done so, thread `2` adds a row on disk and
returns; then thread `1` transforms the index again. -/
def twoTransforms (rows : List (Row ν α)) (b c : Row ν α) : List (AddLabel ν α) :=
  (sharedSection 0 rows ++ [.readFlag 0, .readCount 0]) ++
    ((sharedSection 1 [b] ++ [.readFlag 1, .readCount 1]) ++
      (.transform 0 :: ((sharedSection 2 [c] ++ [.readFlag 2]) ++ [.transform 1])))

/-- The disk index has the points of threads `0` and `1` then, and nothing of thread `2`. -/
theorem run_twoTransforms (hasAttrs : Bool) (hlen : kBuildThreshold < rows.length) (b c : Row ν α) :
    ∃ s, runSteps step (initial (inMemory hasAttrs)) (twoTransforms rows b c) = some s ∧
      c ∈ s.returned ∧ s.phase 2 = .idle ∧ s.ix.useDiskIndex ∧
      s.ix.disk = disk (transform { inMemory hasAttrs with
          mem := (build []).insertPoints (rows ++ [b]) }) := by
  have hpoints : ((build ([] : List (Nat × ν))).insertPoints rows).insertPoints [b] =
      (build []).insertPoints (rows ++ [b]) :=
    (insertPoints_append_singleton _ rows b).symm
  have hlenB : kBuildThreshold <
      ((build ([] : List (Nat × ν))).insertPoints rows).vectors.length + [b].length := by
    rw [length_vectors_insertPoints]
    omega
  rw [twoTransforms, runSteps_append, run_crossing rfl rfl rfl (Nat.lt_add_left _ hlen),
    bind_some, runSteps_append, run_crossing rfl rfl rfl hlenB, bind_some, runSteps,
    step_transform rfl rfl, bind_some, runSteps_append, run_onDisk rfl rfl rfl,
    bind_some, runSteps, step_transform rfl rfl, bind_some, runSteps]
  refine ⟨_, rfl, ?_, rfl, rfl, ?_⟩
  · exact mem_append_left _ (mem_append_right _ (mem_singleton_self c))
  · -- the second transformation starts from the same points in memory
    rw [← hpoints]
    dsimp only [finish, setPhase, DynamicIndex.transform]
    rw [mem_insertAll_disk rfl]
    rfl

/-- A row of thread `2` with a new tag is lost, although its call has returned. -/
theorem lost_of_twoTransforms (hasAttrs : Bool) (rows : List (Row ν α)) (b c : Row ν α)
    (hlen : kBuildThreshold < rows.length) (hnd : ((rows ++ [b]).map Prod.fst).Nodup)
    (hc : c.1 ∉ (rows ++ [b]).map Prod.fst) :
    ∃ s, runSteps step (initial (inMemory hasAttrs)) (twoTransforms rows b c) = some s ∧
      c ∈ s.returned ∧ s.phase 2 = .idle ∧ s.ix.useDiskIndex ∧
      ∀ v, ¬ s.ix.Stored c.1 v := by
  obtain ⟨s, hrun, hreturned, hidle, huse, hdisk⟩ := run_twoTransforms hasAttrs hlen b c
  refine ⟨s, hrun, hreturned, hidle, huse, fun v hstored => ?_⟩
  rw [stored_disk huse, hdisk] at hstored
  obtain ⟨row, hrow, htag, -⟩ := hstored
  -- the tags on disk are those of threads `0` and `1`
  obtain ⟨l, hl, -⟩ := mem_transform.mp hrow
  have hmem := (mem_savedTags_insertPoints (by simp) row.1).mp (mem_of_getElem? hl)
  exact hmem.elim (fun h => hc (htag ▸ h)) fun h => h.2 hnd

/-- The tags of one row more than the threshold, and of another. -/
theorem map_fst_manyRows_append (row : Row Unit Unit) (h : row.1 = kBuildThreshold + 1) :
    (manyRows () ++ [row]).map Prod.fst = range (kBuildThreshold + 2) := by
  rw [map_append, map_fst_manyRows, map_singleton, h, ← range_succ]

/-- So it happens with the first tags. -/
theorem returned_row_lost : ∃ s,
    runSteps step (initial (DynamicIndex.inMemory true)) (twoTransforms (DynamicIndex.manyRows ())
        (kBuildThreshold + 1, ⟨(), ()⟩) (kBuildThreshold + 2, ⟨(), ()⟩)) = some s ∧
      (kBuildThreshold + 2, ⟨(), ()⟩) ∈ s.returned ∧ s.OneVector (kBuildThreshold + 2) () ∧
      ¬ s.ix.Stored (kBuildThreshold + 2) () := by
  obtain ⟨s, hrun, hreturned, -, -, hlost⟩ := lost_of_twoTransforms true (manyRows ())
    (kBuildThreshold + 1, ⟨(), ()⟩) (kBuildThreshold + 2, ⟨(), ()⟩)
    (by rw [length_manyRows]; exact Nat.lt_succ_self _)
    (by rw [map_fst_manyRows_append _ rfl]; exact nodup_range)
    (by rw [map_fst_manyRows_append _ rfl, mem_range]; exact lt_irrefl _)
  exact ⟨s, hrun, hreturned, fun _ _ _ => rfl, hlost ()⟩

/-- A run without a transformation meets the condition. -/
theorem reach_of_run {l : List (AddLabel ν α)} (h : runSteps step s l = some s')
    (hl : ∀ t, .transform t ∉ l) : Reach step TransformOk s s' := by
  refine Reach.of_run_guarded trivial (fun s a s' ha _ _ => ⟨?_, trivial⟩) h
  cases a with
  | transform t => exact absurd ha (hl t)
  | _ => trivial

/-- A call that brings the index over the threshold and transforms it, and a call after it. -/
def oneTransform (rows : List (Row ν α)) (c : Row ν α) : List (AddLabel ν α) :=
  (sharedSection 0 rows ++ [.readFlag 0, .readCount 0]) ++
    (.transform 0 :: (sharedSection 1 [c] ++ [.readFlag 1]))

theorem reach_oneTransform (hasAttrs : Bool) (rows : List (Row ν α)) (c : Row ν α)
    (hlen : kBuildThreshold < rows.length) :
    ∃ s, runSteps step (initial (inMemory hasAttrs)) (oneTransform rows c) = some s ∧
      Reach step TransformOk (initial (inMemory hasAttrs)) s ∧ c ∈ s.returned ∧
      s.ix.useDiskIndex := by
  rw [oneTransform, runSteps_append, run_crossing rfl rfl rfl (Nat.lt_add_left _ hlen),
    bind_some, runSteps, step_transform rfl rfl, bind_some, run_onDisk rfl rfl rfl]
  refine ⟨_, rfl, ?_, mem_append_right _ (mem_singleton_self c), useDiskIndex_insertAll⟩
  refine ((reach_of_run (run_crossing rfl rfl rfl (Nat.lt_add_left _ hlen)) fun t => ?_).trans
    (.step (.transform 0) .refl ?_ (step_transform rfl rfl))).trans
      (reach_of_run (run_onDisk rfl rfl rfl [c]) fun t => ?_)
  · simp [sharedSection]
  · -- the index is in memory when it is transformed
    exact fun h => Bool.noConfusion h
  · simp [sharedSection]

/-- The rows of both calls are on disk then. -/
theorem returned_stored_after_transform : ∃ s, runSteps step (initial (DynamicIndex.inMemory true))
        (oneTransform (DynamicIndex.manyRows ()) (kBuildThreshold + 1, ⟨(), ()⟩)) = some s ∧
      s.ix.useDiskIndex = true ∧ s.ix.Stored (kBuildThreshold + 1) () := by
  obtain ⟨s, hrun, hreach, hreturned, huse⟩ := reach_oneTransform true
    (manyRows ()) (kBuildThreshold + 1, ⟨(), ()⟩)
    (by rw [length_manyRows]; exact Nat.lt_succ_self _)
  exact ⟨s, hrun, huse, returned_stored rfl (valid_build []) hreach _ hreturned fun _ _ _ => rfl⟩

end AddState
end PipeANN.Streaming
