import Mathlib.Data.Option.Basic
import PipeANN.CollectionStore

/-! # When a restart changes nothing

The loader finds what the build wrote, and the document store.  It does not find the buffer,
the rows that were added to the index after the build, and the tombstones.  So a restart
keeps the view of a collection in every run in which

* the collection is new when it is created,
* the index is built from a non-empty buffer, before which no row was deleted, and
* after the build no row is inserted and no row is deleted.

Inserts, upserts and deletes that have no effect are harmless.  Before the build everything
is, as long as nothing that was deleted gets built; there is no view then, since query and
search are refused.

`restart_sameView` is the theorem.  `liveTags_of_sameView` is the other direction for a built
index: if a restart keeps the view, then no row of the build is deleted and no later row is
alive.
-/
namespace PipeANN
open Option
namespace CollectionState

variable {ν α : Type} [Inhabited α] {name : Text}

/-- **The condition on a call.** -/
def CallOk (s : CollectionState ν α) : CollectionCall ν α → Prop
  | .create _ => s.col.isNone ∧ s.files.schema.isNone
  | .insert rows _ | .upsert rows _ => rows = [] ∨ ∀ col ∈ s.col, col.indexBuilt = false
  | .remove pks filter => ∀ col ∈ s.col, col.indexBuilt = true →
      ∀ l ∈ s.pksToRemove col pks filter, s.presentPks col l = []
  | .buildIndex => ∀ col ∈ s.col, col.indexBuilt = false → col.buf ≠ [] ∧ col.index.deleted = []
  | .flush => True

instance (s : CollectionState ν α) (call : CollectionCall ν α) : Decidable (CallOk s call) := by
  cases call <;> unfold CallOk <;> infer_instance

/-- The files are those of the collection's build, and nothing has changed since. -/
structure Persisted (files : CollectionFiles ν α) (col : Collection ν α) : Prop where
  schema : ∃ npoints, files.schema = some (writeSchemaJson col.cm npoints)
  disk : ∃ f, files.index = some f ∧ col.index.disk = some ⟨none, List.range f.npoints, f.tags⟩
  deleted : col.index.deleted = []
  attrIndex : col.index.attrIndex = if col.cm.scalarFields = [] then none else files.attrIndex
  attrFile : col.cm.scalarFields = [] ∨ files.attrIndex.isSome

/-- What holds of the collection in every state. -/
structure ColInv (name : Text) (files : CollectionFiles ν α) (col : Collection ν α) : Prop where
  name_eq : col.cm.name = name
  dim_ne : col.cm.dim ≠ 0
  docsOpen : col.docsOpen = true
  unbuilt : col.indexBuilt = false → files.schema = none
  built : col.indexBuilt = true → Persisted files col

/-- The invariant. -/
def Inv (name : Text) (s : CollectionState ν α) : Prop :=
  match s.col with
  | none => s.files.schema = none
  | some col => ColInv name s.files col

/-! ## The view depends on the files and the loaded index -/

variable {files : CollectionFiles ν α} {col col' : Collection ν α} {d : DiskIndex ν α}

/-- Collections that differ only in the next tag, in the buffer and in the in-memory index
have the same view. -/
theorem sameView_of_agree (hcm : col.cm = col'.cm) (hdisk : col.index.disk = some d)
    (hdisk' : col'.index.disk = some d) (hdeleted : col.index.deleted = col'.index.deleted)
    (hattr : col.index.attrIndex = col'.index.attrIndex) (hdocs : col.docsOpen = col'.docsOpen)
    (hbuilt : col.indexBuilt = col'.indexBuilt) :
    SameView ⟨files, some col⟩ ⟨files, some col'⟩ := by
  obtain ⟨cm, ⟨mem, disk, deleted, attrIndex⟩, docsOpen, nextTag, built, buf⟩ := col
  obtain ⟨cm', ⟨mem', disk', deleted', attrIndex'⟩, docsOpen', nextTag', built', buf'⟩ := col'
  subst hcm hdisk hdisk' hdeleted hattr hdocs hbuilt
  exact ⟨fun _ _ => rfl, fun _ => rfl, rfl⟩

omit [Inhabited α] in
/-- **The loader** gets back the collection that was built. -/
theorem Persisted.load
    (h : Persisted files col) (hname : col.cm.name = name) (hdim : col.cm.dim ≠ 0) :
    ∃ col', loadCollection name files = some col' ∧ col'.cm = col.cm ∧
      col'.index.disk = col.index.disk ∧ col'.index.deleted = [] ∧
      col'.index.attrIndex = col.index.attrIndex ∧ col'.docsOpen ∧
      col'.indexBuilt := by
  obtain ⟨npoints, hschema⟩ := h.schema
  obtain ⟨f, hf, hdisk⟩ := h.disk
  have hload := loadSchema_writeSchemaJson npoints hdim
  rw [hname] at hload
  simp [loadCollection, hschema, hload, h.attrFile, hf, hdisk, h.attrIndex]

variable {files' : CollectionFiles ν α}

variable {s : CollectionState ν α}

/-- **The invariant implies that a restart keeps the view.** -/
theorem Inv.sameView (h : Inv name s) : SameView s (s.restart name) := by
  obtain ⟨files, _ | col⟩ := s
  · have hschema : files.schema = none := h
    have hload : loadCollection name files = none := by simp [loadCollection, hschema]
    rw [restart, hload]
    exact ⟨fun _ _ => rfl, fun _ => rfl, rfl⟩
  · have hcol : ColInv name files col := h
    cases hbuilt : col.indexBuilt with
    | false =>
      have hload : loadCollection name files = none := by
        simp [loadCollection, hcol.unbuilt hbuilt]
      rw [restart, hload]
      exact ⟨by simp [query, hbuilt], by simp [searchRows, hbuilt], by simp [outputMeta, hbuilt]⟩
    | true =>
      have hp := hcol.built hbuilt
      obtain ⟨f, -, hdisk⟩ := hp.disk
      obtain ⟨col', hload, hcm, hdisk', hdel, hattr, hdocs, hb⟩ :=
        hp.load hcol.name_eq hcol.dim_ne
      rw [restart, hload]
      exact sameView_of_agree hcm.symm hdisk (hdisk'.trans hdisk) (hp.deleted.trans hdel.symm)
        hattr.symm (hcol.docsOpen.trans hdocs.symm) (hbuilt.trans hb.symm)

/-! ## Every admitted call keeps the invariant -/

omit [Inhabited α] in
/-- Before the build only the schema file, the metadata and the document store matter. -/
theorem ColInv.of_unbuilt (h : ColInv name files col) (hbuilt : col.indexBuilt = false)
    (hschema : files'.schema = files.schema) (hcm : col'.cm = col.cm)
    (hdocs : col'.docsOpen = col.docsOpen) (hbuilt' : col'.indexBuilt = false) :
    ColInv name files' col' where
  name_eq := hcm ▸ h.name_eq
  dim_ne := hcm ▸ h.dim_ne
  docsOpen := hdocs.trans h.docsOpen
  unbuilt := fun _ => hschema.trans (h.unbuilt hbuilt)
  built := fun hb => absurd hb (by simp [hbuilt'])

variable {s' : CollectionState ν α}

omit [Inhabited α] in
theorem inv_create {spec : CollectionSpec}
    (hcol : s.col = none) (hschema : s.files.schema = none) (hname : spec.name = name)
    (hs : s.create spec = some s') : Inv name s' := by
  obtain ⟨cm, hcm, hs⟩ := bind_eq_some_iff.mp hs
  cases hs
  refine ⟨(name_createMeta hcm).trans hname, dim_createMeta hcm, ?_, fun _ => hschema, ?_⟩
  · rw [hcol]
    rfl
  · intro h
    cases h

variable {arrival : Arrival} {rows : List (InsertRow ν α)} {pks : List Text}

/-- The parallel loop of `add` has nothing to do for an empty batch. -/
theorem add_nil {ix ix' : DynamicIndex ν α} (hdisk : ix.disk = some d)
    (hs : DynamicIndex.add files ix [] arrival = some (files', ix')) :
    ix' = ix ∧ files' = { files with
      attrIndex := if arrival.merges then ix.attrIndex else files.attrIndex } := by
  obtain ⟨order, merges⟩ := arrival
  obtain ⟨mem, disk, deleted, attrIndex⟩ := ix
  cases hdisk
  obtain ⟨_, hperm, hs⟩ := bind_eq_some_iff.mp hs
  rw [guard_eq_some'] at hperm
  obtain rfl : order = [] := List.map_eq_nil_iff.mp hperm.eq_nil
  cases hs
  exact ⟨rfl, rfl⟩

omit [Inhabited α] in
/-- Merging the attribute indexes into their files changes nothing if they agree. -/
theorem Persisted.merge (h : Persisted files col) (merges : Bool) : Persisted { files with
      attrIndex := if merges then col.index.attrIndex else files.attrIndex } col := by
  refine { h with attrIndex := ?_, attrFile := ?_ }
  · rw [h.attrIndex]
    cases merges <;> by_cases hsf : col.cm.scalarFields = [] <;> simp [hsf]
  · rcases h.attrFile with hsf | hfile
    · exact Or.inl hsf
    · by_cases hsf : col.cm.scalarFields = []
      · exact Or.inl hsf
      · rw [h.attrIndex, if_neg hsf, ite_self]
        exact Or.inr hfile

theorem inv_insert (h : Inv name s) (hok : rows = [] ∨ ∀ col ∈ s.col, col.indexBuilt = false)
    (hs : s.insert rows arrival = some s') : Inv name s' := by
  obtain ⟨files, col⟩ := s
  obtain ⟨col, rfl, hs⟩ := bind_eq_some_iff.mp hs
  have hcol : ColInv name files col := h
  cases hbuilt : col.indexBuilt with
  | false =>
    simp only [hbuilt, Bool.false_eq_true, if_false, some.injEq] at hs
    subst hs
    exact hcol.of_unbuilt hbuilt rfl rfl rfl rfl
  | true =>
    obtain rfl : rows = [] := hok.resolve_right fun hno => by simp [hno col rfl] at hbuilt
    simp only [hbuilt] at hs
    obtain ⟨⟨files', ix'⟩, hadd, hs⟩ := bind_eq_some_iff.mp hs
    obtain ⟨f, -, hdisk⟩ := (hcol.built hbuilt).disk
    obtain ⟨rfl, rfl⟩ := add_nil hdisk hadd
    cases hs
    have hp := (hcol.built hbuilt).merge arrival.merges
    exact { hcol with unbuilt := fun hb => (by cases hb), built := fun _ => { hp with } }

omit [Inhabited α] in
theorem inv_deleteByPks (h : Inv name s)
    (hok : ∀ col ∈ s.col, col.indexBuilt → s.presentPks col pks = [])
    (hs : s.deleteByPks pks = some s') : Inv name s' := by
  obtain ⟨files, col⟩ := s
  obtain ⟨col, rfl, hs⟩ := bind_eq_some_iff.mp hs
  have hcol : ColInv name files col := h
  cases hbuilt : col.indexBuilt with
  | false =>
    dsimp only at hs
    split at hs
    · cases hs
      exact h
    · cases hs
      exact hcol.of_unbuilt hbuilt rfl rfl rfl hbuilt
  | true =>
    rw [hok col rfl hbuilt] at hs
    cases hs
    exact h

omit [Inhabited α] in
/-- A delete neither creates nor builds. -/
theorem indexBuilt_deleteByPks (hno : ∀ col ∈ s.col, col.indexBuilt = false)
    (hs : s.deleteByPks pks = some s') : ∀ col ∈ s'.col, col.indexBuilt = false := by
  obtain ⟨files, col⟩ := s
  obtain ⟨col, rfl, hs⟩ := bind_eq_some_iff.mp hs
  dsimp only at hs
  intro col' hcol'
  split at hs
  · cases hs
    exact hno col' hcol'
  · cases hs
    cases hcol'
    exact hno col rfl

theorem inv_upsert (h : Inv name s) (hok : rows = [] ∨ ∀ col ∈ s.col, col.indexBuilt = false)
    (hs : s.upsert rows arrival = some s') : Inv name s' := by
  obtain ⟨s₁, hdel, hs⟩ := bind_eq_some_iff.mp hs
  refine inv_insert (inv_deleteByPks h ?_ hdel) ?_ hs
  · intro col hcol hbuilt
    rcases hok with rfl | hno
    · rfl
    · simp [hno col hcol] at hbuilt
  · exact hok.imp_right fun hno => indexBuilt_deleteByPks hno hdel

omit [Inhabited α] in
theorem inv_buildIndex (h : Inv name s)
    (hok : ∀ col ∈ s.col, col.indexBuilt = false → col.buf ≠ [] ∧ col.index.deleted = [])
    (hs : s.buildIndex = some s') : Inv name s' := by
  obtain ⟨files, col⟩ := s
  obtain ⟨col, rfl, hs⟩ := bind_eq_some_iff.mp hs
  have hcol : ColInv name files col := h
  cases hbuilt : col.indexBuilt with
  | true =>
    simp only [hbuilt] at hs
    cases hs
    exact h
  | false =>
    obtain ⟨hbuf, hdel⟩ := hok col rfl hbuilt
    simp only [hbuilt, hbuf] at hs
    cases hs
    refine { hcol with
      unbuilt := fun hb => (by cases hb)
      built := fun _ => ⟨⟨_, rfl⟩, ⟨_, rfl, rfl⟩, hdel, ?_, ?_⟩ }
    all_goals cases hsf : col.cm.scalarFields <;> simp [buildFromBuffer, hsf]

/-- **Every admitted call keeps the invariant.** -/
theorem inv_step {call : CollectionCall ν α} (h : Inv name s)
    (hok : CallOk s call) (hs : step name s call = some s') : Inv name s' := by
  cases call with
  | create spec =>
    obtain ⟨hname, hs⟩ := ite_none_right_eq_some.mp hs
    exact inv_create (isNone_iff_eq_none.mp hok.1) (isNone_iff_eq_none.mp hok.2) hname hs
  | insert rows arrival => exact inv_insert h hok hs
  | upsert rows arrival => exact inv_upsert h hok hs
  | remove pks filter =>
    obtain ⟨col, hcol, hs⟩ := bind_eq_some_iff.mp hs
    obtain ⟨l, hl, hs⟩ := bind_eq_some_iff.mp hs
    refine inv_deleteByPks h (fun col' hcol' hbuilt => ?_) hs
    obtain rfl : col = col' := some.inj (hcol.symm.trans hcol')
    exact hok col hcol hbuilt l hl
  | buildIndex => exact inv_buildIndex h hok hs
  | flush =>
    cases hs
    exact h

/-- **A restart keeps the view.**  In every run whose calls all meet `CallOk`, in every state
reached: after a restart every query and every search shows what it showed just before. -/
theorem restart_sameView {s : CollectionState ν α}
    (hr : Reach (step name) CallOk initial s) : SameView s (s.restart name) := by
  have hinit : Inv name (initial : CollectionState ν α) := rfl
  exact (hr.invariant hinit fun _ _ _ h hok hs => inv_step h hok hs).sameView

/-- Two rows, one of them inserted twice, are built; the calls after the build have no
effect. -/
def quietAfterBuild : List (CollectionCall Nat Unit) :=
  [.create plainSpec, .insert [⟨['a'], ⟨7, ()⟩, []⟩, ⟨['b'], ⟨8, ()⟩, ['x']⟩] ⟨[], false⟩,
    .insert [⟨['b'], ⟨9, ()⟩, ['y']⟩] ⟨[], false⟩, .buildIndex, .remove [['z']] none,
    .upsert [] ⟨[], false⟩, .flush]

/-- After the calls of `quietAfterBuild` a query for `b` shows its latest row, and a restart
keeps the view. -/
theorem restart_sameView_quiet :
    (runSteps (fun s a => if CallOk s a then step ['c'] s a else none) initial
        quietAfterBuild).bind (fun s => s.query (some (.pks [['b']])) 0) =
      some [⟨['b'], some ⟨9, ()⟩, ['y']⟩] ∧
    ∀ s, runSteps (fun s a => if CallOk s a then step ['c'] s a else none) initial
      quietAfterBuild = some s → SameView s (s.restart ['c']) :=
  ⟨by decide +kernel, fun _ hs => restart_sameView (Reach.of_run_checked hs)⟩

/-! ## What a restart changes -/

/-- Without a filter a search shows every tag of the index that has no tombstone. -/
theorem searchRows_tags (files : CollectionFiles ν α) (hbuilt : col.indexBuilt)
    (hdisk : col.index.disk = some d) (hlen : d.tags.length = d.id2loc.length) :
    ((⟨files, some col⟩ : CollectionState ν α).searchRows none).map (·.map Prod.fst) =
      some (d.tags.filter (· ∉ col.index.deleted)) := by
  have htags : (List.range d.id2loc.length).map (DynamicIndex.id2tag d) = d.tags := by
    apply List.ext_getElem (by simp [hlen])
    intro i h1 h2
    simp [DynamicIndex.id2tag, h2]
  rw [← htags]
  simp [searchRows, candidates, hbuilt, hdisk, List.filter_map, Function.comp_def]

omit [Inhabited α] in
/-- The loader starts from the index file and without tombstones. -/
theorem loadCollection_index (h : loadCollection name files = some col) :
    col.indexBuilt ∧ col.index.deleted = [] ∧
      col.index.disk = files.index.map fun f => ⟨none, List.range f.npoints, f.tags⟩ := by
  obtain ⟨schema, -, h⟩ := bind_eq_some_iff.mp h
  obtain ⟨cm, -, h⟩ := bind_eq_some_iff.mp h
  obtain ⟨_, -, h⟩ := bind_eq_some_iff.mp h
  cases h
  exact ⟨rfl, rfl, rfl⟩

/-- **What a restart needs.**  If it keeps the view, then just before it the tags without a
tombstone are exactly those of the build: no row of the build is deleted, and every row
inserted later is. -/
theorem liveTags_of_sameView {f : IndexFile ν α} (hcol : s.col = some col)
    (hbuilt : col.indexBuilt = true) (hdisk : col.index.disk = some d)
    (hlen : d.tags.length = d.id2loc.length) (hload : loadCollection name s.files = some col')
    (hf : s.files.index = some f) (hflen : f.tags.length = f.npoints)
    (h : SameView s (s.restart name)) : d.tags.filter (· ∉ col.index.deleted) = f.tags := by
  obtain ⟨files, c⟩ := s
  cases hcol
  have hbefore := searchRows_tags files hbuilt hdisk hlen
  obtain ⟨hbuilt', hdel', hdisk'⟩ := loadCollection_index hload
  rw [hf] at hdisk'
  have hafter := searchRows_tags files hbuilt' hdisk' (by simp [hflen])
  rw [h.searchRows none, restart, hload] at hbefore
  rw [← some.inj (hafter.symm.trans hbefore), hdel']
  simp

theorem liveTags_quietAfterBuild : ∃ s col d f, SameView (s : CollectionState Nat Unit)
      (s.restart ['c']) ∧ s.col = some col ∧ col.index.disk = some d ∧
    s.files.index = some f ∧ d.tags.filter (· ∉ col.index.deleted) = f.tags := by
  have hs : runSteps (fun s a => if CallOk s a then step ['c'] s a else none) initial
      quietAfterBuild = some _ := rfl
  have hinit : Inv ['c'] (initial : CollectionState Nat Unit) := rfl
  have h := ((Reach.of_run_checked hs).invariant hinit fun _ _ _ h hok => inv_step h hok).sameView
  exact ⟨_, _, _, _, h, rfl, rfl, rfl, liveTags_of_sameView rfl rfl rfl rfl rfl rfl rfl h⟩

end CollectionState
end PipeANN
