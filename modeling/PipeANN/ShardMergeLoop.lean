import PipeANN.ShardMerge

/-! # The loop of a merge

`nodeShard_eq` says what the sorted pairs are: for every id the shards that have it.  So the
loop goes through the ids one after the other, and the next record of a shard is always that of
the id (`At.held`).  `During` is what holds between two pairs, `Emitted` what has been written.
-/
namespace PipeANN
open List Function ByteImages SortedLists DiskNodeRef SsdMetadata Nat ShardMerge

/-! ## Positions in ascending lists -/

/-- The number of elements below a bound. -/
def below (g : Nat) (l : List Nat) : Nat := l.countP (· < g)

variable {l : List Nat}

theorem getElem?_below (h : l.Pairwise (· < ·)) {g : Nat} (hg : g ∈ l) :
    l[below g l]? = some g := by
  induction l with
  | nil => exact absurd hg not_mem_nil
  | cons a l ih =>
    obtain ⟨hhead, htail⟩ := pairwise_cons.mp h
    rcases mem_cons.mp hg with rfl | hg
    · have hzero : below g (g :: l) = 0 := by
        rw [below, countP_eq_zero]
        intro x hx
        rcases mem_cons.mp hx with rfl | hx
        · simp
        · have := hhead x hx
          simp only [decide_eq_true_eq]
          omega
      rw [hzero]
      rfl
    · have hlt : a < g := hhead g hg
      rw [below, countP_cons_of_pos (by simpa using hlt)]
      exact ih htail hg

theorem eq_below (h : l.Pairwise (· < ·)) {i g : Nat} (hi : l[i]? = some g) : i = below g l :=
  (getElem?_inj (List.getElem?_eq_some_iff.mp hi).1 (h.imp ne_of_lt)).mp
    (hi.trans (getElem?_below h (mem_of_getElem? hi)).symm)

theorem below_succ (h : l.Pairwise (· < ·)) (g : Nat) :
    below (g + 1) l = below g l + if g ∈ l then 1 else 0 := by
  induction l with
  | nil => rfl
  | cons a l ih =>
    obtain ⟨hhead, htail⟩ := pairwise_cons.mp h
    have ih := ih htail
    unfold below at ih ⊢
    rw [countP_cons, countP_cons, ih]
    by_cases hag : a = g
    · subst hag
      have hno : a ∉ l := fun hmem => lt_irrefl _ (hhead a hmem)
      simp [hno]
    · have hmem : g ∈ a :: l ↔ g ∈ l := by simp [Ne.symm hag]
      have hlt : a < g + 1 ↔ a < g := by omega
      simp only [hmem, hlt]
      omega

theorem below_zero (l : List Nat) : below 0 l = 0 := by
  simp [below]

theorem Shard.ascending_ids {ty : ElemType} (s : Shard ty) : s.ids.Pairwise (· < ·) := s.ascending

/-! ## The front of a record -/

namespace NodeData
variable {ty : ElemType} {m : SsdMetadata}

/-- The number of dense neighbours that a reader finds. -/
theorem FrontAt.length_getDenseNbrs {data : NodeData} {image : Image} {addr : Nat}
    (h : data.FrontAt ty m image addr) (hlt : data.dense.length < 2 ^ 16) :
    ((ofAddr ty m addr).getDenseNbrs image).length = data.dense.length := by
  refine length_ofWords _ _ ?_
  show (image.read _ (4 * ofLe (image.read (addr + m.vectorLen ty + 2) 2))).length = _
  rw [Image.length_read, h.nDense, ofLe_le hlt]

end NodeData

namespace ShardMerge
variable {ty : ElemType} (c : ShardMerge ty)

/-! ## The order of the pairs -/

/-- The shards that have an id. -/
def shardsOf (g : Nat) : List Nat := (List.range c.shards.length).filter fun k => g ∈ c.idsAt k

/-- The pairs of an id. -/
def group (g : Nat) : List (Nat × Nat) := (c.shardsOf g).map fun k => (g, k)

theorem foldl_max_spec {l : List Nat} (hne : l ≠ []) :
    l.foldl max 0 ∈ l ∧ ∀ x ∈ l, x ≤ l.foldl max 0 := by
  obtain ⟨m, hm⟩ : ∃ m, l.max? = some m := Option.isSome_iff_exists.mp (by simp [hne])
  rw [foldl_max, hm]
  exact max?_eq_some_iff.mp hm

variable {c}

variable {k : Nat} {s : Shard ty}

theorem idsAt_of_getElem? (h : c.shards[k]? = some s) : c.idsAt k = s.ids := by
  rw [idsAt, h]
  rfl

variable {g : Nat}

theorem exists_shard (h : g ∈ c.idsAt k) : ∃ s, c.shards[k]? = some s ∧ g ∈ s.ids := by
  cases hs : c.shards[k]? with
  | none => simp [idsAt, hs] at h
  | some s => exact ⟨s, rfl, by simpa [idsAt, hs] using h⟩

theorem lt_nnodes (hs : s ∈ c.shards) (hg : g ∈ s.ids) : g < c.nnodes := by
  have hmem := mem_flatMap.mpr ⟨s, hs, hg⟩
  exact lt_succ_of_le ((foldl_max_spec (ne_nil_of_mem hmem)).2 g hmem)

theorem lt_nnodes_of_idsAt (h : g ∈ c.idsAt k) : g < c.nnodes := by
  obtain ⟨s, hs, hg⟩ := exists_shard h
  exact lt_nnodes (mem_of_getElem? hs) hg

/-- Every id below the number of nodes is in a shard. -/
theorem exists_mem_ids (hg : g < c.nnodes) : ∃ s ∈ c.shards, g ∈ s.ids := by
  have hne : c.shards.flatMap Shard.ids ≠ [] := by
    intro hnil
    have hlen := c.entryPoint_lt
    rw [map_eq_nil_iff.mp (flatMap_eq_nil_iff.mp hnil c.first mem_cons_self)] at hlen
    exact not_lt_zero _ hlen
  obtain ⟨s, hs, hmax⟩ := mem_flatMap.mp (foldl_max_spec hne).1
  rcases lt_or_eq_of_le (le_of_lt_succ hg) with hlt | rfl
  · exact c.covering s hs _ hmax g hlt
  · exact ⟨s, hs, hmax⟩

theorem mem_shardsOf (hs : c.shards[k]? = some s) (hg : g ∈ s.ids) : k ∈ c.shardsOf g := by
  refine mem_filter.mpr ⟨mem_range.mpr (List.getElem?_eq_some_iff.mp hs).1, ?_⟩
  rw [idsAt_of_getElem? hs]
  exact decide_eq_true hg

theorem shardsOf_ne_nil (hg : g < c.nnodes) : c.shardsOf g ≠ [] := by
  obtain ⟨s, hs, hmem⟩ := exists_mem_ids hg
  obtain ⟨k, hk⟩ := getElem?_of_mem hs
  exact ne_nil_of_mem (mem_shardsOf hk hmem)

theorem nodup_pairs : c.pairs.Nodup := by
  rw [pairs, nodup_flatMap]
  refine ⟨fun k _ => ?_, nodup_range.imp fun {k k'} hne p hp hp' => ?_⟩
  · have hnd : (c.idsAt k).Nodup := by
      unfold idsAt
      cases c.shards[k]? with
      | none => exact nodup_nil
      | some s => exact s.ascending_ids.imp ne_of_lt
    exact hnd.map fun g g' heq => congrArg Prod.fst heq
  · obtain ⟨g, -, rfl⟩ := mem_map.mp hp
    obtain ⟨g', -, heq⟩ := mem_map.mp hp'
    exact hne (congrArg Prod.snd heq).symm

/-- **The sorted pairs** are those of the ids, one id after the other. -/
theorem nodeShard_eq : c.nodeShard = (range c.nnodes).flatMap c.group := by
  have hsorted : Ascending ((c.pairs.map toLex).insertionSort (· ≤ ·)) := by
    have hle := pairwise_insertionSort (· ≤ ·) (c.pairs.map toLex)
    have hnd : ((c.pairs.map toLex).insertionSort (· ≤ ·)).Nodup :=
      (perm_insertionSort _ _).nodup_iff.mpr (nodup_pairs.map toLex.injective)
    exact (hle.and hnd).imp fun h => lt_of_le_of_ne h.1 h.2
  have hgroups : Ascending (((range c.nnodes).flatMap c.group).map toLex) := by
    rw [Ascending, pairwise_map, pairwise_flatMap]
    refine ⟨fun g _ => ?_, pairwise_lt_range.imp fun {g g'} hlt p hp q hq => ?_⟩
    · rw [group, pairwise_map]
      refine (pairwise_lt_range.filter _).imp fun {k k'} hlt => ?_
      exact Prod.Lex.lt_iff.mpr (.inr ⟨rfl, hlt⟩)
    · obtain ⟨k, -, rfl⟩ := mem_map.mp hp
      obtain ⟨k', -, rfl⟩ := mem_map.mp hq
      exact Prod.Lex.lt_iff.mpr (.inl hlt)
  have hmem : ∀ p, p ∈ c.pairs ↔ p ∈ (range c.nnodes).flatMap c.group := by
    rintro ⟨g, k⟩
    simp only [pairs, group, shardsOf, mem_flatMap, mem_map, mem_filter,
      mem_range, decide_eq_true_eq, Prod.mk.injEq]
    constructor
    · rintro ⟨k, hk, g, hg, rfl, rfl⟩
      exact ⟨g, lt_nnodes_of_idsAt hg, k, ⟨hk, hg⟩, rfl, rfl⟩
    · rintro ⟨g, -, k, ⟨hk, hg⟩, rfl, rfl⟩
      exact ⟨k, hk, g, hg, rfl, rfl⟩
  have heq := hsorted.ext hgroups fun p => by
    rw [mem_insertionSort, mem_map, mem_map]
    exact exists_congr fun q => and_congr (hmem q) Iff.rfl
  rw [nodeShard, heq, map_map]
  exact map_id _

/-! ## The metadata -/

/-- What is known of the metadata of the new file. -/
structure IsOut (c : ShardMerge ty) (m : SsdMetadata) : Prop where
  packed : m.Packed ty
  stored : c.storedMetadata.SameStored m
  npoints : m.npoints = c.nnodes
  vectorLen : m.vectorLen ty = c.first.metadata.vectorLen ty
  attrSize : m.attrSize = c.attrSize
  maxNodeLen : m.maxNodeLen = (c.rDense + 1) * 4 + m.vectorLen ty + m.attrSize
  rangeDense : m.rangeDense = c.rDense
  range : m.range = if c.R.toNat = 0 ∨ c.rDense ≤ c.R.toNat then c.rDense else c.R.toNat

theorem exists_outMeta : ∃ m, c.outMeta = some m ∧ c.IsOut m := by
  have hR := c.R.toNat_lt
  have hdense := c.targetRDense.toNat_lt
  have hlt : c.rDense < 2 ^ 16 := Nat.max_lt.mpr ⟨hdense, hR⟩
  have hvec : c.first.metadata.vectorLen ty < c.storedMetadata.vectorLen ty + 4 :=
    Nat.lt_add_of_pos_right (by decide)
  obtain ⟨m, hinit, hpacked, hsame, hrangeDense, hrange⟩ :=
    @exists_packed c.storedMetadata ty c.rDense _ rfl le_rfl hvec hlt rfl
  have hvec : m.vectorLen ty = c.first.metadata.vectorLen ty := hsame.vectorLen
  refine ⟨m, hinit, hpacked, hsame, hsame.npoints, hvec, hsame.attrSize, ?_, hrangeDense, hrange⟩
  rw [hsame.maxNodeLen, hvec, hsame.attrSize]
  rfl

theorem lt_two_pow (hg : g < c.nnodes) : g < 2 ^ 32 := by
  obtain ⟨s, -, hmem⟩ := exists_mem_ids hg
  obtain ⟨x, -, rfl⟩ := mem_map.mp hmem
  exact x.toNat_lt

/-! ## What a record should be -/

/-- What the record of an id in the `k`-th shard adds to the lists. -/
def addsOf (c : ShardMerge ty) (g k : Nat) : List (NhoodKind × UInt32) :=
  match c.shards[k]? with
  | none => []
  | some s =>
    match s.nodes[below g s.ids]? with
    | none => []
    | some d => s.found c.shardROod d.nbrs d.dense

/-- The lists of an id. -/
def nhoodOf (c : ShardMerge ty) (g : Nat) : Nhoods :=
  ((c.shardsOf g).flatMap (c.addsOf g)).foldl Nhoods.add fun _ => []

/-- The record of an id. -/
def expected (c : ShardMerge ty) (g : Nat) : NodeData := c.nodeData g (c.vector g) (c.nhoodOf g)

/-- The record of an id in a shard. -/
theorem exists_node (hs : s ∈ c.shards) (hg : g ∈ s.ids) :
    ∃ d, s.nodes[below g s.ids]? = some d ∧ d.vec = c.vector g := by
  have hget := getElem?_below s.ascending_ids hg
  have hlt : below g s.ids < s.nodes.length := by
    rw [s.length_nodes, ← length_map UInt32.toNat]
    exact (List.getElem?_eq_some_iff.mp hget).1
  have hd := getElem?_eq_getElem hlt
  exact ⟨_, hd, c.vector_eq s hs _ _ g hd hget⟩

theorem vectorLen_eq (hs : s ∈ c.shards) :
    s.metadata.vectorLen ty = c.first.metadata.vectorLen ty := by
  rcases mem_cons.mp hs with rfl | hs
  · rfl
  · exact (c.compatible s hs).1

theorem nodup_nhoodOf (g : Nat) (kind : NhoodKind) : (c.nhoodOf g kind).Nodup :=
  foldlRecOn (motive := fun n : Nhoods => ∀ kind, (n kind).Nodup) _ Nhoods.add
    (fun _ => nodup_nil) (fun _ hn p _ => Nhoods.nodup_add hn p) kind

theorem addsOf_eq {d : NodeData} (hs : c.shards[k]? = some s)
    (hd : s.nodes[below g s.ids]? = some d) :
    c.addsOf g k = s.found c.shardROod d.nbrs d.dense := by
  unfold addsOf
  rw [hs]
  dsimp only
  rw [hd]

/-! ## Reading -/

/-- What has been written before the record of an id: full buffers are in the file, and the
records of the current one are in the buffer. -/
def Emitted (c : ShardMerge ty) (m : SsdMetadata) (g q : Nat) (st : MergeState) : Prop :=
  st.curSectorStart = q * m.nodesPerIo ∧ st.out.size = sectorLen + q * m.ioSizeDense ∧
    ∀ g' < g, g' / m.nodesPerIo ≤ q ∧
      (g' / m.nodesPerIo < q → (c.expected g').FrontAt ty m st.out.image (m.nodeAddr g')) ∧
      (g' / m.nodesPerIo = q → (c.expected g').FrontAt ty m st.sectorBuf (m.slotOff g'))

/-- The records of an id in some of its shards have been read. -/
structure During (c : ShardMerge ty) (m : SsdMetadata) (g : Nat) (done : List Nat)
    (st : MergeState) : Prop where
  curId : st.curId = g
  readers : ∀ (k : Nat) (s : Shard ty), c.shards[k]? = some s →
    s.At (below (if k ∈ done then g + 1 else g) s.ids) (st.readers k)
  nhood : st.nhood = (done.flatMap (c.addsOf g)).foldl Nhoods.add fun _ => []
  coords : done ≠ [] → st.coordBuf = c.vector g
  emitted : c.Emitted m g ((g - 1) / m.nodesPerIo) st

variable {m : SsdMetadata}

variable {st : MergeState} {data : NodeData}

/-- **A record is read.** -/
theorem During.consume {done : List Nat} (h : c.During m g done st) (hs : c.shards[k]? = some s)
    (hg : g ∈ s.ids) (hk : k ∉ done) : c.During m g (done ++ [k]) (c.consume st k s) := by
  have hmem := mem_of_getElem? hs
  obtain ⟨d, hd, hvec⟩ := exists_node hmem hg
  have hat := h.readers k s hs
  rw [if_neg hk] at hat
  have hfits := s.fits d (mem_of_getElem? hd)
  have hheld := hat.held hd
  refine ⟨h.curId, fun k' s' hs' => ?_, ?_, fun _ => ?_, h.emitted⟩
  · dsimp only [ShardMerge.consume]
    by_cases heq : k' = k
    · subst heq
      obtain rfl : s = s' := Option.some.inj (hs.symm.trans hs')
      rw [update_self, if_pos (mem_append_right _ (mem_singleton_self _)),
        below_succ s.ascending_ids, if_pos hg]
      exact hat.fill.2.2
    · rw [update_of_ne heq]
      have hiff : k' ∈ done ++ [k] ↔ k' ∈ done := by
        rw [mem_append, mem_singleton, or_iff_left heq]
      simp only [hiff]
      exact h.readers k' s' hs'
  · dsimp only [ShardMerge.consume]
    rw [flatMap_append, foldl_append, ← h.nhood, flatMap_singleton, addsOf_eq hs hd]
    congr 2
    · exact hheld.getNbrs s.packed hfits
    · exact hheld.getDenseNbrs s.packed hfits
  · dsimp only [ShardMerge.consume]
    rw [← vectorLen_eq hmem, ← s.vec_length d (mem_of_getElem? hd), hheld.vec, hvec]

/-- The records of an id in the rest of its shards. -/
theorem During.consumeAll {ks : List Nat} : ∀ {done : List Nat} {st : MergeState},
    c.During m g done st → (done ++ ks).Nodup → (∀ k ∈ ks, g ∈ c.idsAt k) →
    ∃ st', (ks.map fun k => (g, k)).foldlM (c.step m) st = some st' ∧
      c.During m g (done ++ ks) st' := by
  induction ks with
  | nil =>
    intro done st h _ _
    exact ⟨st, rfl, by rwa [append_nil]⟩
  | cons k ks ih =>
    intro done st h hnd hks
    obtain ⟨s, hs, hg⟩ := exists_shard (hks k mem_cons_self)
    have hk : k ∉ done := fun hmem =>
      (nodup_append.mp hnd).2.2 k hmem k mem_cons_self rfl
    have hstep : c.step m st (g, k) = some (c.consume st k s) := by
      unfold step advance
      rw [if_neg (not_not.mpr h.curId.symm), Option.bind_some, hs, Option.map_some]
    obtain ⟨st', hrun, hst'⟩ := ih (h.consume hs hg hk)
      (by rwa [append_assoc]) fun k' hk' => hks k' (mem_cons_of_mem _ hk')
    refine ⟨st', ?_, by rwa [append_assoc] at hst'⟩
    rw [map_cons, foldlM_cons, hstep]
    exact hrun

/-! ## Writing -/

theorem mkNode_eq (hg : g < c.nnodes) : mkNode ty m 0 g = ofAddr ty m (m.slotOff g) := by
  rw [mkNode, mod_eq_of_lt (lt_two_pow hg), zero_add]

/-- The dense neighbours of an id end inside the buffer. -/
def InBuffer (c : ShardMerge ty) (m : SsdMetadata) (g : Nat) : Prop :=
  m.slotOff g + m.vectorLen ty + (1 + m.range) * 4 + m.attrSize +
    4 * (c.expected g).dense.length ≤ m.unitBytes

theorem apart_recordWrites (hfits : data.FrontFits ty m) (addr : Nat) :
    (recordWrites (ofAddr ty m addr) data).Pairwise Image.Apart := by
  obtain ⟨hvec, hnbrs, hattrs⟩ := hfits
  simp only [recordWrites, ofAddr, pairwise_cons, mem_cons,
    not_mem_nil, forall_eq_or_imp, Image.Apart, length_le, length_wordBytes, Pairwise.nil,
    false_imp_iff, implies_true, and_true]
  omega

theorem frontAt_recordWrites (hfits : data.FrontFits ty m) (addr : Nat)
    (image : Image) : data.FrontAt ty m
      (image.writeAll (recordWrites (ofAddr ty m addr) data)) addr := by
  have hread : ∀ w ∈ recordWrites (ofAddr ty m addr) data,
      (image.writeAll (recordWrites (ofAddr ty m addr) data)).read w.1 w.2.length = w.2 :=
    fun w hw => image.read_writeAll (apart_recordWrites hfits addr) hw
  simp only [recordWrites, forall_mem_cons] at hread
  obtain ⟨hvec, hnnbrs, hnDense, hnbrs, -⟩ := hread
  exact ⟨hvec, hnnbrs, hnDense, hnbrs⟩

section
variable (hm : c.IsOut m)
include hm

variable {g : Nat}

/-- The record of an id has room for all but the dense neighbours. -/
theorem frontFits_expected (hg : g < c.nnodes) : (c.expected g).FrontFits ty m := by
  obtain ⟨s, hs, hmem⟩ := exists_mem_ids hg
  obtain ⟨d, hd, hvec⟩ := exists_node hs hmem
  have hlen := s.vec_length d (mem_of_getElem? hd)
  refine ⟨?_, ?_, ?_⟩
  · show (c.vector g).length ≤ _
    rw [← hvec, hlen, hm.vectorLen, vectorLen_eq hs]
  · have hbase := (c.baseNhood_spec g (nodup_nhoodOf (c := c) g)).2.1
    have htake : ((c.finalNhood g (c.nhoodOf g)).take (c.nnbrs g (c.nhoodOf g))).length ≤
      min c.R.toNat (c.baseNhood g (c.nhoodOf g)).length := length_take_le _ _
    show ((c.finalNhood g (c.nhoodOf g)).take _).length ≤ _
    rw [hm.range]
    split <;> omega
  · show ((c.attrWriter.map fun w => w.write g).getD []).length ≤ _
    rw [hm.attrSize, attrSize]
    cases c.attrWriter with
    | none => exact le_rfl
    | some w => exact w.write_length g

/-- A record is written if it ends inside the buffer. -/
theorem putRecord_of_inBuffer (hg : g < c.nnodes) (hin : c.InBuffer m g) (buf : Image) :
    ∃ buf', putRecord ty m g (c.expected g) buf = some buf' ∧
      (c.expected g).FrontAt ty m buf' (m.slotOff g) ∧
      ∀ a < m.slotOff g, buf' a = buf a := by
  have hfits := frontFits_expected hm hg
  have hwrites : ∀ w ∈ recordWrites (ofAddr ty m (m.slotOff g)) (c.expected g),
      m.slotOff g ≤ w.1 ∧ w.1 + w.2.length ≤ m.unitBytes := by
    unfold InBuffer at hin
    obtain ⟨hvec, hnbrs, hattrs⟩ := hfits
    intro w hw
    simp only [recordWrites, ofAddr, mem_cons, not_mem_nil, or_false] at hw
    rcases hw with rfl | rfl | rfl | rfl | rfl | rfl <;>
      simp only [length_le, length_wordBytes] <;> omega
  unfold putRecord
  rw [mkNode_eq hg]
  refine ⟨_, if_pos fun w hw => (hwrites w hw).2, frontAt_recordWrites hfits _ _, fun a ha => ?_⟩
  refine buf.writeAll_of_outside fun w hw => .inl ?_
  exact lt_of_lt_of_le ha (hwrites w hw).1

omit hm

/-- Otherwise it is not. -/
theorem putRecord_eq_none (hg : g < c.nnodes) (hout : ¬ c.InBuffer m g) (buf : Image) :
    putRecord ty m g (c.expected g) buf = none := by
  unfold putRecord
  rw [mkNode_eq hg]
  refine if_neg fun hin => hout ?_
  have hdense := hin (_, wordBytes (c.expected g).dense)
    (mem_cons_of_mem _ (mem_cons_of_mem _ (mem_cons_of_mem _ (mem_cons_of_mem _ mem_cons_self))))
  rw [length_wordBytes] at hdense
  exact hdense

end

/-- The record of an id in the buffer does not touch those before it. -/
theorem slotOff_add_le_slotOff (hm : c.IsOut m) {g' : Nat} (hlt : g' < g)
    (hunit : g' / m.nodesPerIo = g / m.nodesPerIo) : m.slotOff g' + m.maxNodeLen ≤ m.slotOff g := by
  have hle := hm.packed.nodeAddr_add_le hlt
  rw [nodeAddr, nodeAddr, locSectorNo_eq, locSectorNo_eq, hunit] at hle
  omega

/-- A full buffer goes to the file. -/
theorem Emitted.flushed (hm : c.IsOut m) {q : Nat} (h : c.Emitted m g q st)
    (hg : g ≤ c.nnodes) (buf : Image) :
    c.Emitted m g (q + 1) { st with
      out := st.out.pwrite (st.sectorBuf.read 0 m.unitBytes) st.out.size
      sectorBuf := buf
      curSectorStart := (q + 1) * m.nodesPerIo } := by
  obtain ⟨-, hsize, hrecords⟩ := h
  refine ⟨rfl, ?_, fun g' hg' => ?_⟩
  · show max st.out.size (st.out.size + length _) = _
    rw [Image.length_read, unitBytes_eq, succ_mul]
    omega
  · obtain ⟨hle, hold, hcur⟩ := hrecords g' hg'
    refine ⟨hle.trans (le_succ q), fun _ => ?_, fun heq => absurd hle (by omega)⟩
    have hslot := hm.packed.slotOff_add_le g'
    have hfits := frontFits_expected hm (lt_of_lt_of_le hg' hg)
    have haddr : m.nodeAddr g' = sectorLen + g' / m.nodesPerIo * m.ioSizeDense + m.slotOff g' := by
      rw [nodeAddr, locSectorNo_eq]
    rcases lt_or_eq_of_le hle with hlt | heq
    · -- it was in the file before
      refine (hold hlt).copy hm.packed hfits fun a ha => ?_
      have hnext := mul_le_mul_right m.ioSizeDense (succ_le_of_lt hlt)
      rw [succ_mul] at hnext
      exact st.out.image.write_of_lt _ _ (by omega)
    · refine (hcur heq).copy hm.packed hfits fun a ha => ?_
      have hlt : m.slotOff g' + a < m.unitBytes := by
        rw [unitBytes_eq]
        omega
      have hget := st.out.image.write_read_apply st.out.size st.sectorBuf 0 hlt
      rw [hsize, zero_add] at hget
      rw [haddr, heq, hsize, add_assoc]
      exact hget

/-- The record of the next id is in the buffer. -/
theorem Emitted.put (hm : c.IsOut m) {q : Nat} (h : c.Emitted m g q st)
    (hg : g < c.nnodes) (hq : g / m.nodesPerIo = q) {buf : Image}
    (hheld : (c.expected g).FrontAt ty m buf (m.slotOff g))
    (hout : ∀ a < m.slotOff g, buf a = st.sectorBuf a)
    (nhood : Nhoods) : c.Emitted m (g + 1) q { st with sectorBuf := buf, nhood := nhood } := by
  obtain ⟨hstart, hsize, hrecords⟩ := h
  refine ⟨hstart, hsize, fun g' hg' => ?_⟩
  rcases lt_or_eq_of_le (le_of_lt_succ hg') with hlt | rfl
  · obtain ⟨hle, hold, hcur⟩ := hrecords g' hlt
    have hfits := frontFits_expected hm (lt_trans hlt hg)
    refine ⟨hle, hold, fun heq => (hcur heq).copy hm.packed hfits fun a ha => ?_⟩
    have hbefore := slotOff_add_le_slotOff hm hlt (heq.trans hq.symm)
    exact hout _ (by omega)
  · exact ⟨hq.le, fun hlt => absurd hq hlt.ne, fun _ => hheld⟩

theorem unit_cases (n g : Nat) : g / n = (g - 1) / n ∨ g / n = (g - 1) / n + 1 := by
  cases g with
  | zero => exact .inl rfl
  | succ g =>
    rw [Nat.succ_div]
    split
    · exact .inr rfl
    · exact .inl rfl

/-- The buffer is that of the id. -/
theorem Emitted.flush (hm : c.IsOut m) (h : c.Emitted m g ((g - 1) / m.nodesPerIo) st)
    (hg : g ≤ c.nnodes) : c.Emitted m g (g / m.nodesPerIo) (flush m st g) := by
  unfold ShardMerge.flush
  by_cases heq : g / m.nodesPerIo * m.nodesPerIo = st.curSectorStart
  · rw [if_neg (not_not.mpr heq)]
    rw [h.1] at heq
    rwa [eq_of_mul_eq_mul_right m.nodesPerIo_pos heq]
  · rw [if_pos heq]
    rcases unit_cases m.nodesPerIo g with hunit | hunit
    · exact absurd (hunit ▸ h.1.symm) heq
    · rw [hunit]
      exact h.flushed hm hg _

/-- What `flush` leaves alone. -/
theorem flush_keeps (st : MergeState) (g : Nat) : (flush m st g).readers = st.readers ∧
    (flush m st g).nhood = st.nhood ∧ (flush m st g).coordBuf = st.coordBuf ∧
    (flush m st g).curId = st.curId := by
  unfold flush
  dsimp only
  split <;> exact ⟨rfl, rfl, rfl, rfl⟩

section
variable (hm : c.IsOut m) {g : Nat} {st : MergeState} (h : c.During m g (c.shardsOf g) st)
  (hg : g < c.nnodes)
include h hg

/-- The record that is made from the lists. -/
theorem During.nodeData_eq : c.nodeData g (flush m st g).coordBuf (flush m st g).nhood =
    c.expected g := by
  obtain ⟨-, hnhood, hcoords, -⟩ := flush_keeps st g
  rw [hnhood, hcoords, h.nhood, h.coords (shardsOf_ne_nil hg)]
  rfl

/-- **`finalize_node`** of a record that does not end inside the buffer. -/
theorem During.finalizeNode_eq_none (hout : ¬ c.InBuffer m g) : c.finalizeNode m st g = none := by
  unfold finalizeNode
  dsimp only
  rw [h.nodeData_eq hg, putRecord_eq_none hg hout]
  rfl

include hm

/-- **`finalize_node`** of one that does. -/
theorem During.finalizeNode (hin : c.InBuffer m g) :
    ∃ st', c.finalizeNode m st g = some st' ∧ c.Emitted m (g + 1) (g / m.nodesPerIo) st' ∧
      st'.readers = st.readers ∧ st'.nhood = (fun _ => []) ∧ st'.curId = g := by
  obtain ⟨hreaders, -, -, hcur⟩ := flush_keeps st g
  have hemitted := h.emitted.flush hm hg.le
  obtain ⟨buf, hput, hheld, hout⟩ := putRecord_of_inBuffer hm hg hin (flush m st g).sectorBuf
  unfold ShardMerge.finalizeNode
  dsimp only
  rw [h.nodeData_eq hg, hput]
  exact ⟨_, rfl, hemitted.put hm hg rfl hheld hout _, hreaders, rfl, hcur.trans h.curId⟩

/-- The next id begins. -/
theorem During.advance (hin : c.InBuffer m g) :
    ∃ st', c.advance m st (g + 1) = some st' ∧ c.During m (g + 1) [] st' := by
  obtain ⟨st', hfinal, hemitted, hreaders, hnhood, -⟩ := h.finalizeNode hm hg hin
  have hne : g + 1 ≠ st.curId := by
    rw [h.curId]
    omega
  unfold ShardMerge.advance
  rw [if_pos hne, h.curId, hfinal]
  refine ⟨_, rfl, rfl, fun k s hs => ?_, hnhood, fun hno => absurd rfl hno, hemitted⟩
  rw [if_neg not_mem_nil]
  rw [hreaders]
  have hat := h.readers k s hs
  by_cases hmem : k ∈ c.shardsOf g
  · rwa [if_pos hmem] at hat
  · have hno : g ∉ s.ids := fun hgs => hmem (mem_shardsOf hs hgs)
    rw [below_succ s.ascending_ids, if_neg hno]
    rwa [if_neg hmem] at hat

end

/-! ## The loop -/

theorem during_initial : c.During m 0 [] c.initial := by
  refine ⟨rfl, fun k s hs => ?_, rfl, fun hno => absurd rfl hno, ?_⟩
  · rw [if_neg not_mem_nil, below_zero]
    show s.At 0 (((c.shards[k]?).map Shard.openReader).getD _)
    rw [hs]
    exact s.at_openReader
  · refine ⟨?_, ?_, fun g' hg' => absurd hg' (not_lt_zero _)⟩
    · rw [Nat.zero_div, Nat.zero_mul]
      rfl
    · rw [Nat.zero_div]
      show max 0 (0 + (replicate sectorLen (0 : UInt8)).length) = _
      rw [length_replicate]
      omega

theorem mem_idsAt_of_shardsOf (h : k ∈ c.shardsOf g) : g ∈ c.idsAt k :=
  of_decide_eq_true (mem_filter.mp h).2

theorem During.group (h : c.During m g [] st) :
    ∃ st', (c.group g).foldlM (c.step m) st = some st' ∧ c.During m g (c.shardsOf g) st' :=
  h.consumeAll (nodup_range.filter _) fun _ => mem_idsAt_of_shardsOf

/-- The first pair of an id. -/
theorem foldlM_group_of_advance (hg : g < c.nnodes) {st' : MergeState}
    (h : c.advance m st g = some st') (hcur : st'.curId = g) :
    (c.group g).foldlM (c.step m) st = (c.group g).foldlM (c.step m) st' := by
  obtain ⟨k, ks, hks⟩ := exists_cons_of_ne_nil (shardsOf_ne_nil hg)
  have hstep : c.step m st (g, k) = c.step m st' (g, k) := by
    unfold step
    rw [h, advance, if_neg (not_not.mpr hcur.symm)]
  rw [group, hks, map_cons, foldlM_cons, foldlM_cons, hstep]

/-- **The loop over the ids.** -/
theorem foldlM_groups (hm : c.IsOut m) (hg : g < c.nnodes) (hin : ∀ g' < g, c.InBuffer m g') :
    ∃ st, ((List.range (g + 1)).flatMap c.group).foldlM (c.step m) c.initial = some st ∧
      c.During m g (c.shardsOf g) st := by
  induction g with
  | zero =>
    obtain ⟨st, hrun, hst⟩ := (during_initial).group
    refine ⟨st, ?_, hst⟩
    rw [range_one, flatMap_singleton]
    exact hrun
  | succ g ih =>
    have hlt := lt_of_succ_lt hg
    obtain ⟨st, hrun, hst⟩ := ih hlt fun g' hg' => hin g' (lt_succ_of_lt hg')
    obtain ⟨st', hadvance, hst'⟩ := hst.advance hm hlt (hin g (lt_succ_self g))
    obtain ⟨st'', hrun', hst''⟩ := hst'.group
    refine ⟨st'', ?_, hst''⟩
    rw [range_succ, flatMap_append, foldlM_append, hrun, flatMap_singleton,
      Option.bind_eq_bind, Option.bind_some, foldlM_group_of_advance hg hadvance hst'.curId]
    exact hrun'

/-- It ends at the first record that does not end inside the buffer. -/
theorem foldlM_groups_eq_none (hm : c.IsOut m) {g' : Nat} (hg : g < c.nnodes) (hlt : g' < g)
    (hin : ∀ h < g', c.InBuffer m h) (hout : ¬ c.InBuffer m g') :
    ((List.range (g + 1)).flatMap c.group).foldlM (c.step m) c.initial = none := by
  induction g with
  | zero => exact absurd hlt (not_lt_zero _)
  | succ g ih =>
    rw [range_succ, flatMap_append, foldlM_append]
    rcases lt_or_eq_of_le (le_of_lt_succ hlt) with hlt | rfl
    · rw [ih (lt_of_succ_lt hg) hlt]
      rfl
    · obtain ⟨st, hrun, hst⟩ := foldlM_groups hm (lt_of_succ_lt hg) hin
      obtain ⟨k, ks, hks⟩ := exists_cons_of_ne_nil (shardsOf_ne_nil hg)
      have hne : g' + 1 ≠ st.curId := by
        rw [hst.curId]
        omega
      have hstep : c.step m st (g' + 1, k) = none := by
        unfold step advance
        rw [if_pos hne, hst.curId, hst.finalizeNode_eq_none (lt_of_succ_lt hg) hout]
        rfl
      rw [hrun, Option.bind_eq_bind, Option.bind_some, flatMap_singleton, group, hks,
        map_cons, foldlM_cons, hstep]
      rfl

end ShardMerge
end PipeANN
