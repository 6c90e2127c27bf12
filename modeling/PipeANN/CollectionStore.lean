import PipeANN.CollectionSchema
import PipeANN.GuardedRuns

/-! # A collection and its files

A collection of the server (`collection_store.cpp`) is spread over several places.  The
document store keeps for each *tag* the primary key and the document of a row, and for each
primary key its latest tag.  Rows inserted before `build_index` wait in a buffer; the build
writes them to the index file, with one attribute index for each scalar field, and then the
schema file.  Rows inserted later are added to the index file in place: the record goes to a
free slot, and so do new versions of the records of its neighbours, and the maps from ids to
slots and tags are kept in memory.  A delete removes the row from the document store and
adds its tag to a set of tombstones, which is in memory too.

After a restart the loader looks for schema files.  It reads the index file with the number
of points and the tags of the build, node `i` from slot `i`, and starts with no tombstones.

A build with an empty buffer writes nothing and leaves an index in memory, which moves to
disk when it has more than `kBuildThreshold` points.

Vectors and attributes are arbitrary (`ν`, `α`): they are what `encode_attrs_and_docs` makes
of a row.  A filter is a predicate on attributes.
-/
namespace PipeANN
open Function List Prod

/-! ## The document store -/

/-- `encode_tag_value`. -/
def encodeTagValue (id doc : Text) : Text := id ++ '\x00' :: doc

/-- `decode_tag_value`. -/
def decodeTagValue (v : Text) : Text × Text :=
  (v.takeWhile (· ≠ '\x00'), (v.dropWhile (· ≠ '\x00')).tail)

/-- The key-value store: the entries by tag, in the order of the tags, and the entries by
primary key. -/
structure DocStore where
  byTag : List (Nat × Text)
  byId : List (Text × Nat)

namespace DocStore

def empty : DocStore := ⟨[], []⟩

/-- A put in the entries by tag. -/
def putTag (tag : Nat) (v : Text) : List (Nat × Text) → List (Nat × Text)
  | [] => [(tag, v)]
  | e :: rest =>
    if tag < e.1 then (tag, v) :: e :: rest
    else if tag = e.1 then (tag, v) :: rest
    else e :: putTag tag v rest

variable (d : DocStore)

/-- `put_batch`, of rows with a tag, a primary key and a document. -/
def putBatch (rows : List (Nat × Text × Text)) : DocStore :=
  rows.foldl (fun d (tag, id, doc) =>
    ⟨putTag tag (encodeTagValue id doc) d.byTag, (id, tag) :: d.byId.filter (·.1 ≠ id)⟩) d

/-- `get_tags_by_ids`, for one key. -/
def getTagById (id : Text) : Option Nat := d.byId.lookup id

/-- `get_by_tags`, for one tag: the primary key and the document. -/
def getByTag (tag : Nat) : Option (Text × Text) :=
  (d.byTag.lookup tag).map decodeTagValue

/-- `delete_by_ids`; the tags are looked up before anything is deleted. -/
def deleteByIds (ids : List Text) : DocStore :=
  ids.foldl (fun acc id =>
    match d.getTagById id with
    | none => acc
    | some tag => ⟨acc.byTag.filter (·.1 ≠ tag), acc.byId.filter (·.1 ≠ id)⟩) d

/-- `scan`. -/
def scan : List (Nat × Text × Text) := d.byTag.map fun e => (e.1, decodeTagValue e.2)

/-- `max_tag`. -/
def maxTag : Option Nat := d.byTag.getLast?.map fst

end DocStore

/-! ## The index -/

/-- The vector and the attributes of a record. -/
structure NodePayload (ν α : Type) where
  coords : ν
  attrs : α
  deriving DecidableEq

/-- The index file and the tags file beside it. -/
structure IndexFile (ν α : Type) where
  /-- The number of points in the metadata. -/
  npoints : Nat
  /-- Whether records have room for attributes (`attr_size > 0`). -/
  hasAttrs : Bool
  slots : Nat → Option (NodePayload ν α)
  tags : List Nat

/-- The file that the offline builder writes. -/
def IndexFile.ofRows {ν α : Type} (hasAttrs : Bool) (rows : List (Nat × NodePayload ν α)) :
    IndexFile ν α :=
  ⟨rows.length, hasAttrs, fun loc => (rows.map snd)[loc]?, rows.map fst⟩

/-- The disk index in memory. -/
structure DiskIndex (ν α : Type) where
  /-- The file it works on, if it is a shadow copy of the one under the prefix. -/
  shadow : Option (IndexFile ν α)
  /-- The slot of each id. -/
  id2loc : List Nat
  /-- The tag of each id. -/
  tags : List Nat

/-- `DynamicIndex`. -/
structure DynamicIndex (ν α : Type) where
  /-- The points of the in-memory index with their tags; none after a lazy delete. -/
  mem : List (Option Nat × ν)
  disk : Option (DiskIndex ν α)
  /-- The tombstones. -/
  deleted : List Nat
  /-- The attribute indexes, if loaded: ids with their attributes. -/
  attrIndex : Option (List (Nat × α))

/-! ## The collection and its files -/

/-- What the file system has of a collection. -/
structure CollectionFiles (ν α : Type) where
  schema : Option Json
  index : Option (IndexFile ν α)
  attrIndex : Option (List (Nat × α))
  docs : DocStore

/-- The collection in memory. -/
structure Collection (ν α : Type) where
  cm : CollectionMeta
  index : DynamicIndex ν α
  /-- Whether the document store is open. -/
  docsOpen : Bool
  nextTag : UInt32
  indexBuilt : Bool
  /-- The rows that wait for the build. -/
  buf : List (Nat × NodePayload ν α)

/-- The files, and the collection if the server has it. -/
structure CollectionState (ν α : Type) where
  files : CollectionFiles ν α
  col : Option (Collection ν α)

/-- Nothing on disk, nothing in memory. -/
def CollectionState.initial {ν α : Type} : CollectionState ν α :=
  ⟨⟨none, none, none, DocStore.empty⟩, none⟩

/-- A row of `InsertColumns`, encoded. -/
structure InsertRow (ν α : Type) where
  pk : Text
  node : NodePayload ν α
  doc : Text

/-- Where an in-place insert puts its record, and which records it moves where; the slots
are free ones. -/
structure Placement where
  loc : Nat
  moved : List (Nat × Nat)

/-- How a batch reaches the index: the rows in the order of the parallel loop, each with its
placement, and whether the attribute indexes merge their deltas into their files. -/
structure Arrival where
  order : List (Nat × Placement)
  merges : Bool

/-- A filter expression: on the primary key, or on scalar fields. -/
inductive FilterExpr (α : Type) where
  | pks (l : List Text)
  | scalar (φ : α → Bool)

/-- The calls. -/
inductive CollectionCall (ν α : Type) where
  | create (spec : CollectionSpec)
  | insert (rows : List (InsertRow ν α)) (arrival : Arrival)
  | upsert (rows : List (InsertRow ν α)) (arrival : Arrival)
  | remove (pks : List Text) (filter : Option (FilterExpr α))
  | buildIndex
  | flush

/-- `kBuildThreshold`. -/
def kBuildThreshold : Nat := 100000

section Calls
variable {ν α : Type} [Inhabited α]

namespace DynamicIndex

/-- `id2tag`: an id without a tag is its own tag. -/
def id2tag (d : DiskIndex ν α) (id : Nat) : Nat := d.tags.getD id id

variable (files : CollectionFiles ν α)

/-- The file that the disk index works on. -/
def file (d : DiskIndex ν α) : Option (IndexFile ν α) :=
  match d.shadow with
  | some f => some f
  | none => files.index

/-- The record of an id. -/
def record (d : DiskIndex ν α) (id : Nat) :
    Option (NodePayload ν α) := do
  let f ← file files d
  let loc ← d.id2loc[id]?
  let node ← f.slots loc
  some (if f.hasAttrs then node else { node with attrs := default })

variable (ix : DynamicIndex ν α)

/-- `filter_only`: the ids whose attributes satisfy the filter, in ascending order.  Without
attribute indexes there is nothing to evaluate it on. -/
def filterOnly (φ : α → Bool) : Option (List Nat) :=
  ix.attrIndex.map fun rows => ((rows.filter fun e => φ e.2).map fst).mergeSort

/-- The bulk `remove`. -/
def remove (tags : List Nat) : DynamicIndex ν α :=
  { ix with
    deleted := tags.foldl (fun l tag => if tag ∈ l then l else l ++ [tag]) ix.deleted
    mem := ix.mem.map fun p => if p.1.any (tags.contains ·) then (none, p.2) else p }

/-- `insert_in_place` of one point, and the insert into the attribute indexes. -/
def insertInPlace (d : DiskIndex ν α)
    (attrIndex : Option (List (Nat × α))) (tag : Nat) (node : NodePayload ν α) (at_ : Placement) :
    Option (CollectionFiles ν α × DiskIndex ν α × Option (List (Nat × α))) := do
  let f ← file files d
  let locs := at_.loc :: at_.moved.map snd
  guard (locs.Nodup ∧ ∀ loc ∈ locs, loc ∉ d.id2loc)
  let moved ← at_.moved.mapM fun (id, loc) => do
    let old ← d.id2loc[id]?
    let node ← f.slots old
    some (id, loc, node)
  let target := d.id2loc.length
  let slots := moved.foldl (fun slots (_, loc, node) => update slots loc (some node))
    (update f.slots at_.loc (some node))
  let f := { f with slots := slots }
  let d : DiskIndex ν α :=
    { shadow := d.shadow.map fun _ => f
      id2loc := moved.foldl (fun l (id, loc, _) => l.set id loc) d.id2loc ++ [at_.loc]
      tags := d.tags ++ [tag] }
  some ({ files with index := if d.shadow.isSome then files.index else some f }, d,
    attrIndex.map (· ++ [(target, node.attrs)]))

/-- `transform_mem_index_to_disk_index`: the points are written without attributes, points
without a tag get tag `0`, and the index works on a shadow copy. -/
def transformMemIndex :
    CollectionFiles ν α × DynamicIndex ν α :=
  let f := IndexFile.ofRows false (ix.mem.map fun p => (p.1.getD 0, ⟨p.2, default⟩))
  ({ files with index := some f },
    { ix with disk := some ⟨some f, range f.npoints, f.tags⟩ })

/-- The bulk `add`. -/
def add
    (rows : List (Nat × NodePayload ν α)) (arrival : Arrival) :
    Option (CollectionFiles ν α × DynamicIndex ν α) := do
  guard ((arrival.order.map fst).Perm (range rows.length))
  match ix.disk with
    | some d => do
        let (files, d, attrIndex) ← arrival.order.foldlM (fun (files, d, attrIndex) (i, at_) => do
          let (tag, node) ← rows[i]?
          insertInPlace files d attrIndex tag node at_) (files, d, ix.attrIndex)
        some ({ files with attrIndex := if arrival.merges then attrIndex else files.attrIndex },
          { ix with disk := some d, attrIndex := attrIndex })
    | none => do
        let mem ← arrival.order.foldlM (fun mem (i, _) => do
          let (tag, node) ← rows[i]?
          some (mem ++ [(some tag, node.coords)])) ix.mem
        let ix := { ix with mem := mem }
        if kBuildThreshold < mem.length then some (transformMemIndex files ix) else some (files, ix)

end DynamicIndex

namespace CollectionState

variable (s : CollectionState ν α)

/-- `create_collection`.  If the server has a collection of the name whose document store is
open, opening the store again fails and the new collection has none. -/
def create (spec : CollectionSpec) : Option (CollectionState ν α) := do
  let cm ← createMeta spec
  let docsOpen := !(s.col.any (·.docsOpen))
  some
    { files := { s.files with docs := if docsOpen then DocStore.empty else s.files.docs }
      col := some ⟨cm, ⟨[], none, [], none⟩, docsOpen, 0, false, []⟩ }

/-- Consecutive tags. -/
def takeTags (next : UInt32) (n : Nat) : List Nat :=
  (range n).map fun i => (next + UInt32.ofNat i).toNat

theorem length_takeTags (next : UInt32) (n : Nat) : (takeTags next n).length = n := by
  rw [takeTags, length_map, length_range]

/-- While fewer rows than tags are inserted, the tags are consecutive numbers. -/
theorem takeTags_eq {k n : Nat} (h : k + n ≤ 2 ^ 32) :
    takeTags (UInt32.ofNat k) n = (range n).map (k + ·) := by
  refine map_congr_left fun i hi => ?_
  have hi := mem_range.mp hi
  rw [← UInt32.ofNat_add]
  exact UInt32.toNat_ofNat_of_lt (Nat.lt_of_lt_of_le (Nat.add_lt_add_left hi k) h)

/-- `insert`. -/
def insert (rows : List (InsertRow ν α)) (arrival : Arrival) :
    Option (CollectionState ν α) := do
  let col ← s.col
  let tags := takeTags col.nextTag rows.length
  let tagged := tags.zip (rows.map (·.node))
  let docs :=
    if col.docsOpen then s.files.docs.putBatch (tags.zip (rows.map fun r => (r.pk, r.doc)))
    else s.files.docs
  let col := { col with nextTag := col.nextTag + UInt32.ofNat rows.length }
  if col.indexBuilt then do
    let (files, ix) ← DynamicIndex.add { s.files with docs := docs } col.index tagged arrival
    some ⟨files, some { col with index := ix }⟩
  else some ⟨{ s.files with docs := docs }, some { col with buf := col.buf ++ tagged }⟩

variable (col : Collection ν α)

/-- The document store as the collection sees it: nothing if it is not open. -/
def docs : DocStore :=
  if col.docsOpen then s.files.docs else DocStore.empty

variable (pks : List Text)

/-- The primary keys that the document store has, with their tags. -/
def presentPks :
    List (Text × Nat) :=
  pks.filterMap fun pk => ((s.docs col).getTagById pk).map (pk, ·)

/-- `delete_by_pks`. -/
def deleteByPks : Option (CollectionState ν α) := do
  let col ← s.col
  let present := s.presentPks col pks
  if present = [] then return s
  return {
    files := { s.files with docs := s.files.docs.deleteByIds (present.map fst) }
    col := some { col with index := col.index.remove (present.map snd) } }

/-- `upsert`. -/
def upsert (rows : List (InsertRow ν α)) (arrival : Arrival) :
    Option (CollectionState ν α) := do
  let s ← s.deleteByPks (rows.map (·.pk))
  s.insert rows arrival

variable (filter : Option (FilterExpr α))

/-- The primary keys that `remove` deletes. -/
def pksToRemove : Option (List Text) :=
  match filter with
  | none => some pks
  | some (.pks l) => some (pks ++ l)
  | some (.scalar φ) =>
    if col.cm.scalarFields = [] then some pks
    else do
      let ids ← col.index.filterOnly φ
      let d ← col.index.disk
      let found := ids.filterMap fun id => (s.docs col).getByTag (DynamicIndex.id2tag d id)
      some (pks ++ (found.map fst).filter (· ≠ []))

/-- `remove`. -/
def remove :
    Option (CollectionState ν α) := do
  let col ← s.col
  let pks ← s.pksToRemove col pks filter
  s.deleteByPks pks

/-- `build_from_buffer`: the index file, the attribute indexes, and the index loaded from
them. -/
def buildFromBuffer :
    CollectionFiles ν α × DynamicIndex ν α :=
  let hasAttrs := !col.cm.scalarFields.isEmpty
  let f := IndexFile.ofRows hasAttrs col.buf
  let attrIndex := if hasAttrs then
      some ((col.buf.zipIdx).map fun e => (e.2, e.1.2.attrs))
    else none
  ({ s.files with index := some f, attrIndex := attrIndex },
    { col.index with
      disk := some ⟨none, range f.npoints, f.tags⟩
      attrIndex := attrIndex })

/-- `build_index`. -/
def buildIndex : Option (CollectionState ν α) := do
  let col ← s.col
  if col.indexBuilt then some s
  else if col.buf = [] then some { s with col := some { col with indexBuilt := true } }
  else
    let (files, ix) := s.buildFromBuffer col
    some
      { files := { files with schema := some (writeSchemaJson col.cm col.buf.length) }
        col := some { col with index := ix, indexBuilt := true, buf := [] } }

/-- One call for the collection of the given name.  A flush changes nothing: completed
writes are kept anyway. -/
def step (name : Text) (s : CollectionState ν α) :
    CollectionCall ν α → Option (CollectionState ν α)
  | .create spec => if spec.name = name then s.create spec else none
  | .insert rows arrival => s.insert rows arrival
  | .upsert rows arrival => s.upsert rows arrival
  | .remove pks filter => s.remove pks filter
  | .buildIndex => s.buildIndex
  | .flush => some s

/-! ## The restart -/

/-- `load_collection_from_schema`: `none` if it fails. -/
def loadCollection (name : Text) (files : CollectionFiles ν α) : Option (Collection ν α) := do
  let schema ← files.schema
  let cm ← loadSchema name schema
  guard (cm.scalarFields = [] ∨ files.attrIndex.isSome)
  let npoints := (files.index.map (·.npoints)).getD 0
  let maxTag := (files.docs.maxTag.map (· + 1)).getD 0
  some
    { cm := cm
      index :=
        { mem := []
          disk := files.index.map fun f => ⟨none, range f.npoints, f.tags⟩
          deleted := []
          attrIndex := if cm.scalarFields = [] then none else files.attrIndex }
      docsOpen := true
      nextTag := UInt32.ofNat (max maxTag npoints)
      indexBuilt := true
      buf := [] }

/-- A restart: the files stay, and the loader runs. -/
def restart (name : Text) (s : CollectionState ν α) : CollectionState ν α :=
  ⟨s.files, loadCollection name s.files⟩

/-! ## What query and search show -/

/-- `OutputRow`: what the output fields of a result row are made of. -/
structure OutputRow (ν α : Type) where
  pk : Text
  payload : Option (NodePayload ν α)
  doc : Text
  deriving DecidableEq

/-- The decimal representation. -/
def tagText (tag : Nat) : Text := Nat.toDigits 10 tag

/-- A row without a primary key shows its tag. -/
def pkOr (pk : Text) (tag : Nat) : Text := if pk = [] then tagText tag else pk

/-- The record of a tag (`get_nodes_by_tags`), through the latest id with the tag. -/
def recordOfTag (tag : Nat) :
    Option (NodePayload ν α) := do
  let d ← col.index.disk
  let id ← ((d.tags.zipIdx.filter (·.1 = tag)).getLast?).map snd
  DynamicIndex.record s.files d id

/-- The rows of a query for tags with their records; tags that the document store does not
have are dropped. -/
def rowsOf
    (tags : List (Nat × Option (NodePayload ν α))) : List (OutputRow ν α) :=
  tags.filterMap fun (tag, payload) => ((s.docs col).getByTag tag).map fun (pk, doc) =>
    ⟨pkOr pk tag, payload, doc⟩

/-- At most `limit`, where `0` is no limit. -/
def upTo {β : Type} (limit : Nat) (l : List β) : List β := if limit = 0 then l else l.take limit

/-- `query`; `none` if it throws. -/
def query (limit : Nat) :
    Option (List (OutputRow ν α)) := do
  let col ← s.col
  guard col.indexBuilt
  match filter with
  | none =>
    some ((upTo limit (s.docs col).scan).map fun (tag, pk, doc) => ⟨pkOr pk tag, none, doc⟩)
  | some (.pks l) =>
    let tags := upTo limit (l.filterMap (s.docs col).getTagById)
    some (s.rowsOf col (tags.map fun tag => (tag, s.recordOfTag col tag)))
  | some (.scalar φ) =>
    guard (col.cm.scalarFields ≠ [])
    let ids ← col.index.filterOnly φ
    let d ← col.index.disk
    some (s.rowsOf col ((upTo limit ids).map fun id =>
      (DynamicIndex.id2tag d id, DynamicIndex.record s.files d id)))

/-- The points that a search may return, with their records: on disk all ids, in memory those
that are not lazily deleted. -/
def candidates :
    List (Nat × Option (NodePayload ν α)) :=
  match col.index.disk with
  | some d => (range d.id2loc.length).map fun id =>
    (DynamicIndex.id2tag d id, DynamicIndex.record s.files d id)
  | none => col.index.mem.filterMap fun p => p.1.map (·, none)

/-- **What `search` shows**: the rows it may report, by tag; `none` if it throws.  Candidates
with a tombstone are dropped, and a row that the document store does not have is reported
under its tag.  With a filter only candidates are reported whose attributes satisfy it; a
collection without scalar fields ignores the filter, and without attribute indexes it cannot
be evaluated. -/
def searchRows (filter : Option (α → Bool)) :
    Option (List (Nat × OutputRow ν α)) := do
  let col ← s.col
  guard col.indexBuilt
  let filter := if col.cm.scalarFields = [] then none else filter
  guard (filter.isNone ∨ col.index.attrIndex.isSome)
  let hits := (s.candidates col).filter fun e =>
    e.1 ∉ col.index.deleted && (filter.all fun φ => e.2.any fun node => φ node.attrs)
  some (hits.map fun (tag, payload) =>
    let (pk, doc) := ((s.docs col).getByTag tag).getD ([], [])
    (tag, ⟨pkOr pk tag, payload, doc⟩))

/-- The metadata by which rows are projected to output fields. -/
def outputMeta : Option CollectionMeta := do
  let col ← s.col
  guard col.indexBuilt
  some col.cm

/-- **The same view**: every query and every search shows the same rows, in the same output
fields. -/
structure SameView (s s' : CollectionState ν α) : Prop where
  query : ∀ filter limit, s.query filter limit = s'.query filter limit
  searchRows : ∀ filter, s.searchRows filter = s'.searchRows filter
  outputMeta : s.outputMeta = s'.outputMeta

/-! ## A deleted row comes back -/

/-- A collection with a key and a vector. -/
def plainSpec : CollectionSpec where
  name := ['c']
  fields := [{ name := ['i', 'd'], isPrimary := true },
    { name := ['v'], kind := .floatVector, dim := 4 }]

/-- One row is inserted, built and deleted. -/
def deleteAfterBuild : List (CollectionCall Nat Unit) :=
  [.create plainSpec, .insert [⟨['a'], ⟨7, ()⟩, []⟩] ⟨[], false⟩, .buildIndex, .remove [['a']] none,
    .flush]

/-- **A deleted row comes back.**  Before the restart a search reports nothing; after it the
deleted row is reported again, under its tag `0`, with its vector. -/
theorem deletedRow_returns : ∃ s, runSteps (step ['c']) initial deleteAfterBuild = some s ∧
      s.searchRows none = some [] ∧
      (s.restart ['c']).searchRows none = some [(0, ⟨['0'], some ⟨7, ()⟩, []⟩)] := by
  have hbefore : (runSteps (step ['c']) initial deleteAfterBuild).bind
      (fun s => s.searchRows none) = some [] := by decide +kernel
  have hafter : (runSteps (step ['c']) initial deleteAfterBuild).bind
      (fun s => (s.restart ['c']).searchRows none) =
        some [(0, ⟨['0'], some ⟨7, ()⟩, []⟩)] := by decide +kernel
  obtain ⟨s, hs, hb⟩ := Option.bind_eq_some_iff.mp hbefore
  rw [hs] at hafter
  exact ⟨s, hs, hb, hafter⟩

end CollectionState
end Calls
end PipeANN
