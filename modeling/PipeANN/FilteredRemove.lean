import PipeANN.DocTables
import PipeANN.FilterListing

/-! # Deleting by a filter

`remove` of `collection_store.cpp` with a filter: the compiled filter is answered by the
attribute indexes (`filter_only`), the ids are translated to tags, the tags to primary keys
by the document store, and the primary keys back to tags, which get tombstones.  Nothing on
this way looks at the records of the rows.

`remove_exact` says when the rows that are deleted are those that the filter means: the
rows were inserted with new, distinct, non-empty primary keys, the filter is one that the
indexes can list for, and a kept negation was compiled for the present number of points.
`remove_deletes_longer` is what else happens: `s = 'a'` also deletes the row with `'ab'`.

The rewriting of float literals and the test for an expression on the primary key work with
regular expressions; they are open functions here.  An index that was built without rows
stays in memory; what follows is left out, and so are filters that are compiled before the
index is built.
-/
namespace PipeANN
open Prod (fst snd)

open List Dsl SortedLists
open Option (map_eq_some_iff some_ne_none some bind_some map_some)
open CollectionState (length_takeTags takeTags_eq)

/-- A collection with scalar fields. -/
structure ServedConfig where
  table : Table
  /-- Filters are compiled for collections with scalar fields only. -/
  table_ne : table.schema ≠ []
  /-- `rewrite_float_literals`. -/
  rewriteFloatLiterals : Text → Text
  /-- `parse_pk_expr`: the primary keys of an expression on the primary key. -/
  parsePkExpr : Text → Option (List Text)

/-- A row to insert. -/
structure NewRow where
  pk : Text
  doc : Text
  row : Row

/-- The collection as filters see it: what the attribute indexes and the document store have of the
rows, without vectors and files. -/
structure ServedCollection where
  /-- The rows that wait for the index, with their tags. -/
  buf : List (Nat × Row)
  built : Bool
  /-- The rows of the disk index by id, with their tags. -/
  index : Option (List (Nat × Row))
  /-- The tombstones. -/
  deleted : List Nat
  docs : DocTables Nat
  nextTag : Nat
  compileCache : List (Text × CompiledFilter)

/-- The calls. -/
inductive ServedCall where
  | insert (rows : List NewRow)
  | upsert (rows : List NewRow)
  | remove (pks : List Text) (filter : Text)
  | buildIndex
  | compileFilter (sql : Text)

namespace ServedCollection
variable (cfg : ServedConfig) (s : ServedCollection)

/-- A new collection. -/
def initial : ServedCollection where
  buf := []
  built := false
  index := none
  deleted := []
  docs := .empty
  nextTag := 0
  compileCache := []

/-- The next tags. -/
def takeTags (n : Nat) : List Nat := CollectionState.takeTags (UInt32.ofNat s.nextTag) n

/-- The batch that `insert` writes to the document store. -/
def batch (rows : List NewRow) : List (Nat × Text × Text) :=
  (s.takeTags rows.length).zip (rows.map fun r => (r.pk, r.doc))

/-- `insert`. -/
def insert (rows : List NewRow) : Option ServedCollection :=
  let tagged := (s.takeTags rows.length).zip (rows.map NewRow.row)
  let s' := { s with
    docs := s.docs.putBatch (s.batch rows)
    nextTag := (s.nextTag + rows.length) % 2 ^ 32 }
  if s.built then s.index.map fun ids => { s' with index := some (ids ++ tagged) }
  else some { s' with buf := s.buf ++ tagged }

variable (pks : List Text)

/-- The primary keys that the document store has, with their tags. -/
def presentPks : List (Text × Nat) :=
  pks.filterMap fun pk => (s.docs.tagOf pk).map fun tag => (pk, tag)

/-- `delete_by_pks`. -/
def deleteByPks : Nat × ServedCollection :=
  let present := s.presentPks pks
  (present.length,
    { s with
      deleted := s.deleted ++ present.map Prod.snd
      docs := s.docs.deleteByIds (present.map Prod.fst) })

/-- `upsert`. -/
def upsert (rows : List NewRow) : Option ServedCollection :=
  (s.deleteByPks (rows.map NewRow.pk)).2.insert rows

/-- `build_index`. -/
def buildIndex : ServedCollection :=
  if s.built then s
  else if s.buf = [] then { s with built := true }
  else { s with built := true, index := some s.buf, buf := [] }

/-- The index as filters see it. -/
def cached (ids : List (Nat × Row)) : CachedIndex where
  schema := cfg.table.schema
  schema_ne := cfg.table_ne
  rewriteFloatLiterals := cfg.rewriteFloatLiterals
  rows := ids.map fun p => (p.1, cfg.table.attributes p.2)
  deleted := s.deleted
  compileCache := s.compileCache

/-- `compile_filter`. -/
def compileFilter (sql : Text) : Option (CompiledFilter × ServedCollection) :=
  s.index.bind fun ids => ((s.cached cfg ids).compileFilter sql).map fun r =>
    (r.1, { s with compileCache := r.2.compileCache })

/-- The primary keys of tags, without those that are not stored. -/
def pksOf (tags : List Nat) : List Text :=
  (tags.map fun tag => ((s.docs.entry tag).map Prod.fst).getD []).filter (· ≠ [])

/-- `remove`: the number of rows it reports, and the collection. -/
def remove (filter : Text) : Option (Nat × ServedCollection) :=
  if filter = [] then some (s.deleteByPks pks)
  else
    match cfg.parsePkExpr filter with
    | some pkFromExpr => some (s.deleteByPks (pks ++ pkFromExpr))
    | none =>
      (s.compileFilter cfg filter).bind fun r =>
        (r.2.index.bind fun ids => (r.2.cached cfg ids).filterOnly r.1 0).map fun tags =>
          r.2.deleteByPks (pks ++ r.2.pksOf tags)

/-- One call; a call that throws is not a step. -/
def step (s : ServedCollection) : ServedCall → Option ServedCollection
  | .insert rows => s.insert rows
  | .upsert rows => s.upsert rows
  | .remove pks filter => (s.remove cfg pks filter).map Prod.snd
  | .buildIndex => some s.buildIndex
  | .compileFilter sql => (s.compileFilter cfg sql).map Prod.snd

/-- All rows with their tags. -/
def rows : List (Nat × Row) := s.index.getD [] ++ s.buf

/-- The rows without a tombstone. -/
def liveRows : List (Nat × Row) := s.rows.filter fun p => p.1 ∉ s.deleted

/-! ## The conditions -/

/-- The rows of an insert have new, distinct, non-empty primary keys without NUL, there are
tags for them, and the attribute indexes can hold them. -/
structure InsertOk (s : ServedCollection) (rows : List NewRow) : Prop where
  batchOk : s.docs.BatchOk (s.batch rows)
  pk_ne : ∀ r ∈ rows, r.pk ≠ []
  tags : s.nextTag + rows.length < 2 ^ 32
  storable : ∀ r ∈ rows, cfg.table.Storable r.row

/-- The condition on the calls of a run. -/
def StepOk (s : ServedCollection) : ServedCall → Prop
  | .insert rows => InsertOk cfg s rows
  | .upsert rows => InsertOk cfg (s.deleteByPks (rows.map NewRow.pk)).2 rows
  | _ => True

/-- The condition on a filter: it goes to the index as it is; it is compiled to what it says;
the indexes list what its leaves test on the live rows; and if it has been compiled before,
it has no negation or the number of points is the same. -/
structure RemoveOk (f : Filter cfg.table) : Prop where
  indexed : s.index ≠ none
  plain : cfg.rewriteFloatLiterals f.toSql = f.toSql
  notPk : cfg.parsePkExpr f.toSql = none
  compilable : f.Compilable
  listable : f.Listable
  rowOk : ∀ p ∈ s.liveRows, f.RowOk p.2
  listedOk : ∀ p ∈ s.liveRows, f.ListedOk p.2
  kept : ∀ cf, s.compileCache.lookup f.toSql = some cf → cf.selector.hasNot = true →
    cf.selector.BuiltFor s.rows.length

/-! ## The invariant -/

/-- What holds in every run: the tables of the document store are inverse; the tags are
consecutive; the rows that the document store has are those without a tombstone. -/
structure Sound (s : ServedCollection) : Prop where
  inverse : s.docs.Inverse
  pk_ne : ∀ tag pk doc, s.docs.entry tag = some (pk, doc) → pk ≠ []
  tags : s.rows.map Prod.fst = List.range s.nextTag
  bounded : s.nextTag < 2 ^ 32
  stored : ∀ tag, s.docs.entry tag ≠ none ↔ tag < s.nextTag ∧ tag ∉ s.deleted
  deleted_lt : ∀ tag ∈ s.deleted, tag < s.nextTag
  storable : ∀ p ∈ s.rows, cfg.table.Storable p.2
  unbuilt : s.built = false → s.index = none
  moved : s.built = true → s.buf = []
  kept : ∀ sql cf, s.compileCache.lookup sql = some cf →
    ∃ n, compile (cfg.rewriteFloatLiterals sql) (cfg.table.schema.withCount n) = some cf

variable {cfg s}

theorem sound_initial : Sound cfg initial where
  inverse := .of_back_forth (fun _ _ _ h => by cases h) (fun _ _ h => by cases h)
  pk_ne _ _ _ h := by cases h
  tags := rfl
  bounded := by decide
  stored tag := iff_of_false (fun h => h rfl) fun h => absurd h.1 (Nat.not_lt_zero tag)
  deleted_lt _ h := by cases h
  storable p hp := by cases hp
  unbuilt _ := rfl
  moved h := by cases h
  kept _ _ h := by cases h

/-! ### Inserts -/

theorem batch_tags (rows : List NewRow) : (s.batch rows).map fst = s.takeTags rows.length :=
  map_fst_zip (by rw [takeTags, length_takeTags, length_map])

variable {rows : List NewRow}

theorem mem_batch {b : Nat × Text × Text} (hb : b ∈ s.batch rows) : ∃ r ∈ rows, r.pk = b.2.1 := by
  obtain ⟨r, hr, heq⟩ := mem_map.mp (of_mem_zip hb).2
  exact ⟨r, hr, congrArg fst heq⟩

variable {s' : ServedCollection} {pks : List Text}

/-- What an insert does to a collection. -/
theorem insert_cases (hs : Sound cfg s) (h : s.insert rows = some s') :
    s'.docs = s.docs.putBatch (s.batch rows) ∧
      s'.nextTag = (s.nextTag + rows.length) % 2 ^ 32 ∧
      s'.rows = s.rows ++ (s.takeTags rows.length).zip (rows.map NewRow.row) ∧
      s'.deleted = s.deleted ∧ s'.compileCache = s.compileCache ∧
      (s'.built = false → s'.index = none) ∧ (s'.built → s'.buf = []) := by
  have hmoved := hs.moved
  have hunbuilt := hs.unbuilt
  grind [insert, ServedCollection.rows, map_eq_some_iff]

theorem Sound.insert (hs : Sound cfg s)
    (hok : InsertOk cfg s rows) (h : s.insert rows = some s') : Sound cfg s' := by
  obtain ⟨hdocs, hnext, hrows, hdeleted, hcache, hunbuilt, hmoved⟩ := insert_cases hs h
  have htags : s.takeTags rows.length = _ := takeTags_eq hok.tags.le
  rw [Nat.mod_eq_of_lt hok.tags] at hnext
  have hmem : ∀ {tag}, tag ∈ (s.batch rows).map fst ↔
      s.nextTag ≤ tag ∧ tag < s.nextTag + rows.length := by
    intro tag
    rw [batch_tags, htags, mem_map]
    refine ⟨by grind, fun h => ⟨tag - s.nextTag, by grind⟩⟩
  have hnodup : ((s.batch rows).map fst).Nodup := by
    rw [batch_tags, htags]
    exact nodup_range.map fun a b hab => Nat.add_left_cancel hab
  have hfresh : ∀ tag ∈ (s.batch rows).map fst, s.docs.entry tag = none := by
    grind [hs.stored]
  refine
    { inverse := hdocs ▸ hs.inverse.putBatch hnodup hfresh hok.batchOk
      pk_ne := fun tag pk doc hentry => ?_
      tags := ?_
      bounded := hnext ▸ hok.tags
      stored := fun tag => ?_
      deleted_lt := fun tag htag => ?_
      storable := fun p hp => ?_
      unbuilt := hunbuilt
      moved := hmoved
      kept := hcache ▸ hs.kept }
  · rw [hdocs] at hentry
    by_cases hnew : tag ∈ (s.batch rows).map fst
    · obtain ⟨r, hr, rfl⟩ := mem_batch ((hok.batchOk.entry_iff hnodup hnew pk doc).mp hentry)
      exact hok.pk_ne r hr
    · rw [DocTables.entry_putBatch_of_not_mem hnew] at hentry
      exact hs.pk_ne tag pk doc hentry
  · rw [hrows, map_append, hs.tags, hnext, range_add, map_fst_zip, htags]
    rw [takeTags, length_takeTags, length_map]
  · rw [hdocs, hnext, hdeleted]
    by_cases hnew : tag ∈ (s.batch rows).map fst
    · obtain ⟨b, hb, rfl⟩ := mem_map.mp hnew
      rw [DocTables.entry_putBatch hnodup hb]
      have hlt := hmem.mp hnew
      refine iff_of_true (some_ne_none _) ⟨hlt.2, fun hdel => ?_⟩
      have := hs.deleted_lt _ hdel
      omega
    · rw [DocTables.entry_putBatch_of_not_mem hnew, hs.stored]
      grind
  · have := hs.deleted_lt tag (hdeleted ▸ htag)
    omega
  · rw [hrows] at hp
    rcases mem_append.mp hp with hp | hp
    · exact hs.storable p hp
    · obtain ⟨r, hr, heq⟩ := mem_map.mp (of_mem_zip hp).2
      exact heq ▸ hok.storable r hr

/-! ### Deletes -/

theorem mem_presentPks {pk : Text} {tag : Nat} :
    (pk, tag) ∈ s.presentPks pks ↔ pk ∈ pks ∧ s.docs.tagOf pk = some tag := by
  grind [presentPks, map_eq_some_iff]

/-- The tags of the primary keys that are deleted lose their rows. -/
theorem entry_deleteByPks (tag : Nat) :
    (s.deleteByPks pks).2.docs.entry tag =
      if tag ∈ (s.presentPks pks).map snd then none else s.docs.entry tag := by
  show (s.docs.deleteByIds ((s.presentPks pks).map fst)).entry tag = _
  rw [DocTables.entry_deleteByIds]
  have hiff : (∃ id ∈ (s.presentPks pks).map fst, s.docs.tagOf id = some tag) ↔
      tag ∈ (s.presentPks pks).map snd := by
    simp only [mem_map, Prod.exists, mem_presentPks]
    grind
  simp only [hiff]

theorem Sound.deleteByPks (hs : Sound cfg s) (pks : List Text) :
    Sound cfg (s.deleteByPks pks).2 where
  inverse := hs.inverse.deleteByIds _
  pk_ne tag pk doc h := by
    rw [entry_deleteByPks] at h
    exact hs.pk_ne tag pk doc (Option.ite_none_left_eq_some.mp h).2
  tags := hs.tags
  bounded := hs.bounded
  stored tag := by
    show _ ↔ tag < s.nextTag ∧ tag ∉ s.deleted ++ (s.presentPks pks).map snd
    rw [entry_deleteByPks, mem_append, not_or, ← and_assoc, ← hs.stored]
    grind
  deleted_lt tag htag := by
    rcases mem_append.mp htag with htag | htag
    · exact hs.deleted_lt tag htag
    · obtain ⟨⟨pk, t⟩, hp, rfl⟩ := mem_map.mp htag
      obtain ⟨doc, hdoc⟩ := hs.inverse.forth pk t (mem_presentPks.mp hp).2
      exact ((hs.stored t).mp (by rw [hdoc]; exact some_ne_none _)).1
  storable := hs.storable
  unbuilt := hs.unbuilt
  moved := hs.moved
  kept := hs.kept

/-! ### The index -/

theorem Sound.buildIndex (hs : Sound cfg s) : Sound cfg s.buildIndex := by
  rw [ServedCollection.buildIndex]
  split_ifs with hbuilt hbuf
  · exact hs
  · exact { hs with unbuilt := fun h => (by cases h), moved := fun _ => hbuf }
  · have hrows : s.buf ++ [] = s.rows := by
      rw [rows, hs.unbuilt (Bool.eq_false_iff.mpr hbuilt), append_nil]
      rfl
    exact
      { hs with
        tags := (congrArg (map fst) hrows).trans hs.tags
        storable := fun p hp => hs.storable p (hrows ▸ hp)
        unbuilt := fun h => by cases h
        moved := fun _ => rfl }

variable {cf : CompiledFilter}

theorem Sound.compileFilter {sql : Text}
    (hs : Sound cfg s) (h : s.compileFilter cfg sql = some (cf, s')) : Sound cfg s' := by
  obtain ⟨ids, -, h⟩ := Option.bind_eq_some_iff.mp h
  obtain ⟨⟨cf', c⟩, hc, ⟨⟩⟩ := map_eq_some_iff.mp h
  rw [CachedIndex.compileFilter] at hc
  split at hc
  · cases hc
    exact hs
  · obtain ⟨cf, hfresh, ⟨⟩⟩ := map_eq_some_iff.mp hc
    refine { hs with kept := fun sql' cf' hl => ?_ }
    rw [lookup_cons] at hl
    split at hl
    · next heq =>
      cases hl
      exact beq_iff_eq.mp heq ▸ ⟨_, hfresh⟩
    · exact hs.kept sql' cf' hl

theorem Sound.remove {filter : Text} {count : Nat}
    (hs : Sound cfg s) (h : s.remove cfg pks filter = some (count, s')) : Sound cfg s' := by
  have hdelete : ∀ {t : ServedCollection} {pks}, Sound cfg t →
      t.deleteByPks pks = (count, s') → Sound cfg s' := by
    intro t pks ht heq
    have := ht.deleteByPks pks
    rwa [heq] at this
  rw [ServedCollection.remove] at h
  split at h
  · exact hdelete hs (some.inj h)
  · split at h
    · exact hdelete hs (some.inj h)
    · obtain ⟨⟨cf, t⟩, hc, h⟩ := Option.bind_eq_some_iff.mp h
      obtain ⟨tags, -, h⟩ := map_eq_some_iff.mp h
      exact hdelete (hs.compileFilter hc) h

/-- **The invariant.** -/
theorem sound_of_reach (h : Reach (step cfg) (StepOk cfg) initial s) : Sound cfg s := by
  apply h.invariant sound_initial
  intro s call s' hs hok hstep
  cases call with
  | insert rows => exact hs.insert hok hstep
  | upsert rows => exact (hs.deleteByPks _).insert hok hstep
  | remove pks filter =>
    obtain ⟨⟨count, t⟩, ht, rfl⟩ := map_eq_some_iff.mp hstep
    exact hs.remove ht
  | buildIndex =>
    cases hstep
    exact hs.buildIndex
  | compileFilter sql =>
    obtain ⟨⟨cf, t⟩, ht, rfl⟩ := map_eq_some_iff.mp hstep
    exact hs.compileFilter ht

/-! ## What the index lists -/

theorem npoints_cached (ids : List (Nat × Row)) : (s.cached cfg ids).npoints = ids.length :=
  length_map _

variable {ids : List (Nat × Row)} {queryAttrs : List Attribute} {R : Row → Prop}

/-- A leaf whose lists agree with its tests has the list of the ids it holds of. -/
theorem leafIds_lists {d : LeafSelector} (hstorable : ∀ p ∈ ids, cfg.table.Storable p.2)
    (hd : LeafAgrees cfg.table R queryAttrs d) :
    ∃ out, (s.cached cfg ids).leafIds queryAttrs d = some out ∧
      FilterTree.Lists ids.length ((s.cached cfg ids).leafHolds queryAttrs d) out := by
  have hdefined : (s.cached cfg ids).leafDefined queryAttrs d := by
    obtain ⟨f, hf, hkey, htype⟩ := hd.indexed
    rw [CachedIndex.leafDefined, Bool.and_eq_true, Bool.and_eq_true]
    refine ⟨⟨any_eq_true.mpr ⟨f, hf, ?_⟩, hd.queryDefined⟩, all_eq_true.mpr fun row hrow => ?_⟩
    · rw [hkey, htype, beq_self_eq_true, beq_self_eq_true]
      rfl
    · obtain ⟨p, hp, rfl⟩ := mem_map.mp hrow
      exact (hd.keyDefined p.2 (hstorable p hp)).1
  refine ⟨_, CachedIndex.leafIds_eq hdefined fun row hrow => ?_, pairwise_lt_range.filter _,
    fun id => by rw [mem_filter, mem_range, npoints_cached]⟩
  obtain ⟨p, hp, rfl⟩ := mem_map.mp hrow
  exact (hd.keyDefined p.2 (hstorable p hp)).2

/-- On a row where its lists agree with its tests, a tree holds of the id what it tests. -/
theorem holds_of_agrees {tree : FilterTree LeafSelector} {id tag : Nat} {row : Row}
    (hleaves : tree.AllLeaves (LeafAgrees cfg.table R queryAttrs))
    (hid : ids[id]? = some (tag, row)) (hrow : R row) :
    tree.isMember (fun d => d.isMember queryAttrs (cfg.table.attributes row)) =
      some (tree.holds fun d => (s.cached cfg ids).leafHolds queryAttrs d id) := by
  apply FilterTree.isMember_eq_holds
  apply FilterTree.AllLeaves.imp _ tree hleaves
  intro d hd
  obtain ⟨b, hlists, htest⟩ := hd.agrees row hrow
  have hholds : (s.cached cfg ids).leafHolds queryAttrs d id = b := by
    have hget : (s.cached cfg ids).rows[id]? = some (tag, cfg.table.attributes row) := by
      show (ids.map _)[id]? = _
      rw [getElem?_map, hid]
      rfl
    rw [CachedIndex.leafHolds, hget, bind_some, hlists]
    cases b <;> rfl
  rw [htest, hholds]

variable {f : Filter cfg.table}

/-- **What `filter_only` lists**: on the live rows, those that the filter means. -/
theorem exists_filterOnly {L : Row → Prop} (hf : f.Compilable) (hlist : f.Listable)
    (hL : ∀ row, L row → f.ListedOk row) (hstorable : ∀ p ∈ ids, cfg.table.Storable p.2)
    (htags : ids.map fst = range ids.length) :
    ∃ cf, compile f.toSql (cfg.table.schema.withCount ids.length) = some cf ∧
      ∃ out, (s.cached cfg ids).filterOnly cf 0 = some out ∧ Ascending out ∧
        ∀ tag row, (tag, row) ∈ ids → L row → f.RowOk row → (tag ∈ out ↔ f.holds row) := by
  obtain ⟨cf, hcf, hwf, hleaves, hmember⟩ :=
    exists_compile_withCount cfg.table_ne ids.length hf hlist hL
  refine ⟨cf, hcf, ?_⟩
  have hlists : cf.selector.AllLeaves fun d => ∃ out,
      (s.cached cfg ids).leafIds cf.attrsTemplate d = some out ∧
      FilterTree.Lists ids.length ((s.cached cfg ids).leafHolds cf.attrsTemplate d) out :=
    FilterTree.AllLeaves.imp (fun d hd => leafIds_lists hstorable hd) _ hleaves
  obtain ⟨out, hout, hasc, hmem⟩ := FilterTree.preFilter_lists cf.selector hwf hlists
  -- the tag of an id is the id
  have hid2tag : ∀ id ∈ out, (s.cached cfg ids).id2tag id = id := by
    intro id hid
    have hlt := ((hmem id).mp hid).1
    have hget : (ids.map fst)[id]? = some id := by
      rw [htags, getElem?_range hlt]
    show (((ids.map fun p => (p.1, cfg.table.attributes p.2))[id]?).map fst).getD id = id
    rw [← getElem?_map, map_map]
    exact congrArg (·.getD id) hget
  refine ⟨out, ?_, hasc, fun tag row hrow hL hok => ?_⟩
  · rw [CachedIndex.filterOnly, hout, map_some, if_neg (lt_irrefl 0),
      map_congr_left hid2tag, map_id']
  · obtain ⟨i, hi⟩ := mem_iff_getElem?.mp hrow
    have hlt : i < ids.length := (List.getElem?_eq_some_iff.mp hi).1
    obtain rfl : tag = i := by
      have hget : (ids.map fst)[i]? = some tag := by
        rw [getElem?_map, hi]
        rfl
      rw [htags, getElem?_range hlt] at hget
      exact (some.inj hget).symm
    have hholds := holds_of_agrees (s := s) hleaves hi hL
    have hmeaning := hmember row hok
    rw [CompiledFilter.isMember, hholds] at hmeaning
    rw [hmem]
    dsimp only
    rw [some.inj hmeaning]
    exact ⟨fun h => h.2, fun h => ⟨hlt, h⟩⟩

/-! ## The delete -/

/-- A kept filter is what the compiler gives now. -/
theorem RemoveOk.kept_eq (hs : Sound cfg s)
    (hf : s.RemoveOk cfg f) (hl : s.compileCache.lookup f.toSql = some cf) :
    compile f.toSql (cfg.table.schema.withCount s.rows.length) = some cf := by
  obtain ⟨m, hm⟩ := hs.kept f.toSql cf hl
  rw [hf.plain] at hm
  have hbuilt : cf.selector.BuiltFor s.rows.length := by
    by_cases hnot : cf.selector.hasNot
    · exact hf.kept cf hl hnot
    · have hm' := builtFor_of_compile cfg.table_ne hm
      exact (FilterTree.BuiltFor.builtFor_iff cf.selector hm').mpr fun h => absurd h hnot
  have hagain := compile_withCount (withCount_ne_nil cfg.table_ne m) s.rows.length f.toSql
  rw [withCount_withCount, hm, map_some, (FilterTree.retag_eq_self_iff _).mpr hbuilt]
    at hagain
  exact hagain

/-- The filter that `remove` works with is what the compiler gives now. -/
theorem RemoveOk.exists_compileFilter (hs : Sound cfg s) (hf : s.RemoveOk cfg f)
    (hids : s.index = some ids) (hrows : s.rows = ids)
    (hcf : compile f.toSql (cfg.table.schema.withCount ids.length) = some cf) :
    ∃ cache, s.compileFilter cfg f.toSql = some (cf, { s with compileCache := cache }) := by
  rw [compileFilter, hids, bind_some]
  cases hl : s.compileCache.lookup f.toSql with
  | some kept =>
    have heq := hf.kept_eq hs hl
    rw [hrows, hcf] at heq
    cases heq
    have hcached : (s.cached cfg ids).compileCache.lookup f.toSql = some cf := hl
    rw [CachedIndex.compileFilter_of_cached hcached]
    exact ⟨s.compileCache, rfl⟩
  | none =>
    have hcached : (s.cached cfg ids).compileCache.lookup f.toSql = none := hl
    have hfresh : (s.cached cfg ids).fresh f.toSql = some cf := by
      show compile (cfg.rewriteFloatLiterals f.toSql)
        (cfg.table.schema.withCount (s.cached cfg ids).npoints) = some cf
      rw [hf.plain, npoints_cached, hcf]
    rw [CachedIndex.compileFilter_of_new hcached, hfresh]
    exact ⟨_, rfl⟩

/-- The tags of the primary keys of tags are those tags that are stored. -/
theorem Sound.presentPks_pksOf (hs : Sound cfg s) (tags : List Nat) :
    (s.presentPks (s.pksOf tags)).map snd = tags.filter fun tag => (s.docs.entry tag).isSome := by
  induction tags with
  | nil => rfl
  | cons tag rest ih =>
    unfold presentPks pksOf at ih ⊢
    cases hentry : s.docs.entry tag with
    | none => simpa [hentry] using ih
    | some e =>
      have hne := hs.pk_ne tag e.1 e.2 hentry
      have hback := hs.inverse.back tag e.1 e.2 hentry
      simpa [hentry, hne, hback] using ih

theorem mem_liveRows {p : Nat × Row} : p ∈ s.liveRows ↔ p ∈ s.rows ∧ p.1 ∉ s.deleted := by
  rw [liveRows, mem_filter, decide_eq_true_eq]

theorem Sound.isSome_entry (hs : Sound cfg s) {p : Nat × Row} (hp : p ∈ s.liveRows) :
    (s.docs.entry p.1).isSome := by
  obtain ⟨hrow, hdel⟩ := mem_liveRows.mp hp
  have htag : p.1 ∈ s.rows.map fst := mem_map_of_mem hrow
  rw [hs.tags, mem_range] at htag
  rw [Option.isSome_iff_ne_none]
  exact (hs.stored p.1).mpr ⟨htag, hdel⟩

/-- A delete of the tags of a list that has of the live rows those that `φ` holds of. -/
theorem Sound.delete_exact (hs : Sound cfg s) {out : List Nat} {φ : Row → Bool}
    (hasc : Ascending out) (hout : ∀ p ∈ s.liveRows, (p.1 ∈ out ↔ φ p.2)) :
    (s.deleteByPks (s.pksOf out)).2.liveRows = s.liveRows.filter (fun p => !φ p.2) ∧
      s.liveRows.length =
        (s.deleteByPks (s.pksOf out)).2.liveRows.length + (s.deleteByPks (s.pksOf out)).1 := by
  have hpresent := hs.presentPks_pksOf out
  have hlive : (s.deleteByPks (s.pksOf out)).2.liveRows = s.liveRows.filter fun p => !φ p.2 := by
    show s.rows.filter (fun p => p.1 ∉ s.deleted ++ (s.presentPks (s.pksOf out)).map snd) = _
    rw [liveRows, filter_filter]
    apply filter_congr
    intro p hp
    rw [hpresent]
    by_cases hdel : p.1 ∈ s.deleted
    · simp [hdel]
    · have hmem := mem_liveRows.mpr ⟨hp, hdel⟩
      have hiff := hout p hmem
      have hsome := hs.isSome_entry hmem
      by_cases hφ : φ p.2
      · simp [hφ, hiff.mpr hφ, hsome]
      · simp [hφ, mt hiff.mp hφ]
  refine ⟨hlive, ?_⟩
  have hcount : (s.liveRows.filter fun p => φ p.2).map fst =
      out.filter fun tag => (s.docs.entry tag).isSome := by
    apply Ascending.ext
    · have hsub : ((s.liveRows.filter fun p => φ p.2).map fst).Sublist
          (s.rows.map fst) :=
        (filter_sublist.trans filter_sublist).map _
      rw [hs.tags] at hsub
      exact pairwise_lt_range.sublist hsub
    · exact hasc.filter _
    · intro tag
      rw [mem_map, mem_filter]
      constructor
      · rintro ⟨p, hp, rfl⟩
        obtain ⟨hp, hφ⟩ := mem_filter.mp hp
        exact ⟨(hout p hp).mpr hφ, hs.isSome_entry hp⟩
      · rintro ⟨htag, hsome⟩
        obtain ⟨hlt, hdel⟩ := (hs.stored tag).mp (Option.isSome_iff_ne_none.mp hsome)
        rw [← mem_range, ← hs.tags] at hlt
        obtain ⟨p, hp, rfl⟩ := mem_map.mp hlt
        have hmem := mem_liveRows.mpr ⟨hp, hdel⟩
        exact ⟨p, mem_filter.mpr ⟨hmem, (hout p hmem).mp htag⟩, rfl⟩
  have hlen : (s.deleteByPks (s.pksOf out)).1 = (s.liveRows.filter fun p => φ p.2).length := by
    show (s.presentPks (s.pksOf out)).length = _
    rw [← length_map, hpresent, ← hcount, length_map]
  rw [hlive, hlen, add_comm]
  exact length_eq_length_filter_add fun p : Nat × Row => φ p.2

/-- **Deleting by a filter.**  In every run whose inserts have new primary keys and rows that
the indexes can hold, `remove` with a filter of the conditions deletes exactly the live rows
that the filter means, and reports their number. -/
theorem remove_exact (h : Reach (step cfg) (StepOk cfg) initial s) {f : Filter cfg.table}
    (hf : s.RemoveOk cfg f) :
    ∃ count s', s.remove cfg [] f.toSql = some (count, s') ∧
      s'.liveRows = s.liveRows.filter (fun p => !f.holds p.2) ∧
      s.liveRows.length = s'.liveRows.length + count := by
  have hs := sound_of_reach h
  obtain ⟨ids, hids⟩ := Option.ne_none_iff_exists'.mp hf.indexed
  have hbuilt : s.built = true := by grind [hs.unbuilt]
  have hrows : s.rows = ids := by rw [rows, hids, hs.moved hbuilt, append_nil]; rfl
  have htags : ids.map fst = range ids.length := by
    have hlen := congrArg length hs.tags
    rw [length_map, length_range, hrows] at hlen
    rw [← hrows, hs.tags, hrows, hlen]
  have hstorable : ∀ p ∈ ids, cfg.table.Storable p.2 := hrows ▸ hs.storable
  obtain ⟨cf, hcf, out, hout, hasc, hmem⟩ := exists_filterOnly
    hf.compilable hf.listable (fun _ h => h) hstorable htags
  obtain ⟨cache, hcompile⟩ : ∃ cache, s.compileFilter cfg f.toSql =
      some (cf, { s with compileCache := cache }) := hf.exists_compileFilter hs hids hrows hcf
  have hne : f.toSql ≠ [] := by
    intro hnil
    rw [hnil] at hcf
    cases hcf
  have hs' := hs.compileFilter hcompile
  obtain ⟨hlive, hlen⟩ := hs'.delete_exact (φ := f.holds) hasc fun p hp =>
    hmem p.1 p.2 (hrows ▸ (mem_liveRows.mp hp).1) (hf.listedOk p hp) (hf.rowOk p hp)
  refine ⟨_, _, ?_, hlive, hlen⟩
  rw [remove, if_neg hne, hf.notPk]
  rw [hcompile]
  rw [hids]
  show Option.map _ ((s.cached cfg ids).filterOnly cf 0) = _
  rw [hout, map_some, nil_append]

/-! ## Two collections -/

theorem isBytes_of_all {s : Text} (h : (s.all fun c => c.toNat < 256)) : Json.IsBytes s :=
  fun c hc => of_decide_eq_true (all_eq_true.mp h c hc)

/-- A collection with one number field `x`. -/
def numbers : ServedConfig where
  table := oneField
  table_ne := cons_ne_nil _ _
  rewriteFloatLiterals := id
  parsePkExpr _ := none

/-- A row of numbers. -/
def numberRow (pk : Char) (v : UInt32) : NewRow :=
  ⟨[pk], [], ⟨fun _ => v, fun _ => [], fun _ => ⟨[], isBytes_of_all rfl⟩⟩⟩

/-- The rows `3` and `7`. -/
def threeAndSeven : List NewRow := [numberRow 'p' 3, numberRow 'q' 7]

theorem insertOk_threeAndSeven : InsertOk numbers initial threeAndSeven where
  batchOk :=
    { distinct := by decide
      plain := by
        intro b hb
        obtain ⟨r, hr, hpk⟩ := mem_batch hb
        rw [← hpk]
        rcases mem_pair.mp hr with rfl | rfl
        · decide
        · decide
      new := fun _ _ => rfl }
  pk_ne := by simp [threeAndSeven, numberRow]
  tags := by decide
  storable r hr f hf := by
    obtain rfl := mem_singleton.mp hf
    constructor
    · intro h
      cases h
    · intro h
      cases h

/-- `x >= 5` deletes the row `7`. -/
theorem remove_exact_number : ∃ s,
    runSteps (step numbers) initial [.insert threeAndSeven, .buildIndex] = some s ∧
      ∃ count s', s.remove numbers [] atLeastFive.toSql = some (count, s') ∧
        s'.liveRows = s.liveRows.filter (fun p => !atLeastFive.holds p.2) ∧
        s.liveRows.length = s'.liveRows.length + count := by
  refine ⟨_, rfl, ?_⟩
  have hreach : Reach (step numbers) (StepOk numbers) initial _ :=
    .step .buildIndex (.step (.insert threeAndSeven) .refl insertOk_threeAndSeven rfl)
      trivial rfl
  apply remove_exact hreach
  exact
    { indexed := some_ne_none _
      plain := rfl
      notPk := rfl
      compilable := by
        constructor
        · intro a ha
          obtain rfl := mem_singleton.mp ha
          exact ⟨by simp [Atom.numbers], by simp [Atom.literals]⟩
        · decide
      listable := by
        intro a ha
        obtain rfl := mem_singleton.mp ha
        trivial
      rowOk := by
        intro p hp a ha
        obtain rfl := mem_singleton.mp ha
        have hrow : p ∈ [(0, (numberRow 'p' 3).row), (1, (numberRow 'q' 7).row)] :=
          (mem_liveRows.mp hp).1
        rcases mem_pair.mp hrow with rfl | rfl
        · exact fun h => absurd h.1 (by decide)
        · exact fun h => absurd h.1 (by decide)
      listedOk := by
        intro p hp a ha
        obtain rfl := mem_singleton.mp ha
        trivial
      kept := fun cf h => by cases h }

/-- A collection with one string field `s`. -/
def strings : ServedConfig where
  table :=
    { schema := [(['s'], ⟨0, .string, 1⟩)]
      names_nodup := by decide
      keys_nodup := by decide
      names_ok := by decide }
  table_ne := cons_ne_nil _ _
  rewriteFloatLiterals := id
  parsePkExpr _ := none

/-- A row of strings. -/
def stringRow (pk : Char) (s : ByteString) : NewRow :=
  ⟨[pk], [], ⟨fun _ => 0, fun _ => [], fun _ => s⟩⟩

/-- The filter `s = 'a'`. -/
def isA : Filter strings.table :=
  .atom (.str ⟨['s'], ⟨0, .string, 1⟩, mem_singleton_self _, rfl⟩ false
    ⟨['a'], isBytes_of_all rfl, rfl⟩)

/-- The rows `'a'` and `'ab'`. -/
def aAndAb : List NewRow :=
  [stringRow 'p' ⟨['a'], isBytes_of_all rfl⟩, stringRow 'q' ⟨['a', 'b'], isBytes_of_all rfl⟩]

/-- `s = 'a'` deletes both rows and reports two, although it means the first row only. -/
theorem remove_deletes_longer :
    (runSteps (step strings) initial [.insert aAndAb, .buildIndex]).bind (fun s =>
      (s.remove strings [] isA.toSql).map fun r =>
        (s.liveRows.map (fun p => isA.holds p.2), r.1, r.2.liveRows.map Prod.fst)) =
      some ([true, false], 2, []) := by
  decide +kernel

end ServedCollection
end PipeANN
