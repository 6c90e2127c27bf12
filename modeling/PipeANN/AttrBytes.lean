import PipeANN.ByteImages
import PipeANN.FilterCompiler

/-! # Attributes as bytes

`serialize` and `deserialize` of `Attributes` (`attribute.h`): the number of keys, and for each
key the key, the number of its values and the values, all as 32-bit words.  `deserialize` takes
the numbers from the bytes, so it reads as far as they say.

The attributes are listed in the order in which the map is walked.  `AttrIndexWriter` reserves room
for the attributes of a row by the most values that its indexes have counted; the label index
does not count those that it reads from its file (`labelFile_left_out`).  `rows_fit_iff` says
which maps come back and which rows fit.
-/
namespace PipeANN.AttrBytes
open List ByteImages Image
open Dsl (Attribute Attributes)

/-- `set`. -/
def set (attrs : Attributes) (key : UInt32) (attr : Attribute) : Attributes :=
  if key ∈ attrs.map Prod.fst then attrs.map fun e => if e.1 = key then (key, attr) else e
  else attrs ++ [(key, attr)]

/-- A key with its values, as many as `n_attrs` counts. -/
def entryBytes (e : UInt32 × Attribute) : List UInt8 :=
  le 4 e.1.toNat ++ (le 4 e.2.length ++ wordBytes (e.2.take (e.2.length % 2 ^ 32)))

/-- `serialize`. -/
def serialize (attrs : Attributes) : List UInt8 := le 4 attrs.length ++ attrs.flatMap entryBytes

/-- A 32-bit word at an address. -/
def wordAt (image : Image) (addr : Nat) : Nat := ofLe (image.read addr 4)

/-- The loop of `deserialize` over so many keys. -/
def deserializeLoop (image : Image) : Nat → Nat → Attributes → Attributes
  | 0, _, ret => ret
  | size + 1, buffer, ret =>
    let nAttrs := wordAt image (buffer + 4)
    deserializeLoop image size (buffer + 8 + 4 * nAttrs)
      (set ret (UInt32.ofNat (wordAt image buffer))
        (ofWords (image.read (buffer + 8) (4 * nAttrs))))

/-- `deserialize`. -/
def deserialize (image : Image) (buffer : Nat) : Attributes :=
  deserializeLoop image (wordAt image buffer) (buffer + 4) []

/-- The map has each key once, and the numbers fit their words. -/
structure Valid (attrs : Attributes) : Prop where
  nodup : (attrs.map Prod.fst).Nodup
  length_lt : attrs.length < 2 ^ 32
  attr_lt : ∀ e ∈ attrs, e.2.length < 2 ^ 32

/-! ## Attributes come back -/

variable {image : Image} {attrs : Attributes}

theorem wordAt_of_holds {addr v : Nat} (hv : v < 2 ^ 32)
    (h : image.Holds addr (le 4 v)) : wordAt image addr = v := by
  rw [Holds, length_le] at h
  rw [wordAt, h, ofLe_le hv]

theorem deserializeLoop_eq (hlt : ∀ e ∈ attrs, e.2.length < 2 ^ 32) :
    ∀ {buffer : Nat} {ret : Attributes}, ((ret ++ attrs).map Prod.fst).Nodup →
      image.Holds buffer (attrs.flatMap entryBytes) →
      deserializeLoop image attrs.length buffer ret = ret ++ attrs := by
  induction attrs with
  | nil =>
    intro buffer ret _ _
    exact (append_nil ret).symm
  | cons e attrs ih =>
    intro buffer ret hnd h
    have hlen := hlt e mem_cons_self
    rw [flatMap_cons, entryBytes, Nat.mod_eq_of_lt hlen, take_length, holds_append,
      holds_append, holds_append] at h
    obtain ⟨⟨hkey, hcount, hvalues⟩, hrest⟩ := h
    simp only [length_append, length_le, length_wordBytes] at hcount hvalues hrest
    have hkey := wordAt_of_holds e.1.toNat_lt hkey
    have hcount := wordAt_of_holds hlen hcount
    have hnew : e.1 ∉ ret.map Prod.fst := by
      rw [map_append, nodup_append] at hnd
      exact fun hmem => hnd.2.2 _ hmem _ mem_cons_self rfl
    have hwords : ofWords (image.read (buffer + 8) (4 * e.2.length)) = e.2 := by
      rw [Holds, length_wordBytes] at hvalues
      rw [hvalues, ofWords_wordBytes]
    rw [length_cons, deserializeLoop]
    simp only [hkey, hcount, hwords, UInt32.ofNat_toNat]
    rw [set, if_neg hnew]
    have hend : buffer + 8 + 4 * e.2.length = buffer + (4 + (4 + 4 * e.2.length)) := by omega
    rw [hend, ih (fun e' he' => hlt e' (mem_cons_of_mem _ he')) _ hrest, append_assoc]
    · rfl
    · rwa [append_assoc]

/-- What was serialized is read back. -/
theorem deserialize_eq {buffer : Nat} (hv : Valid attrs)
    (h : image.Holds buffer (serialize attrs)) : deserialize image buffer = attrs := by
  rw [serialize, holds_append] at h
  rw [deserialize, wordAt_of_holds hv.length_lt h.1]
  exact deserializeLoop_eq hv.attr_lt hv.nodup h.2

/-! ## No attributes -/

theorem set_ne_nil (attrs : Attributes) (key : UInt32) (attr : Attribute) :
    set attrs key attr ≠ [] := by
  unfold set
  split
  · next hmem =>
    intro h
    rw [map_eq_nil_iff.mp h] at hmem
    exact absurd hmem not_mem_nil
  · exact append_ne_nil_of_right_ne_nil _ (cons_ne_nil _ _)

theorem deserializeLoop_ne_nil (image : Image) (size : Nat) :
    ∀ (buffer : Nat) {ret : Attributes}, ret ≠ [] → deserializeLoop image size buffer ret ≠ [] := by
  induction size with
  | zero => exact fun _ _ h => h
  | succ size ih => exact fun buffer _ _ => ih _ (set_ne_nil _ _ _)

/-- There are none if and only if their number is `0`. -/
theorem deserialize_eq_nil_iff (image : Image) (buffer : Nat) :
    deserialize image buffer = [] ↔ wordAt image buffer = 0 := by
  rw [deserialize]
  cases wordAt image buffer with
  | zero => exact iff_of_true rfl rfl
  | succ size =>
    refine iff_of_false (fun h => ?_) (Nat.succ_ne_zero _)
    exact deserializeLoop_ne_nil image size _ (set_ne_nil _ _ _) h

/-! ## Room for the rows of an index -/

/-- `serialized_size`. -/
def serializedSize (attrs : Attributes) : Nat :=
  4 * attrs.foldl (fun cnt e => cnt + (2 + e.2.length)) 1

/-- A count that does not fit its word loses values. -/
theorem length_entries (attrs : Attributes) (cnt : Nat) :
    4 * cnt + (attrs.flatMap entryBytes).length ≤
        4 * attrs.foldl (fun cnt e => cnt + (2 + e.2.length)) cnt ∧
      (4 * cnt + (attrs.flatMap entryBytes).length =
          4 * attrs.foldl (fun cnt e => cnt + (2 + e.2.length)) cnt ↔
        ∀ e ∈ attrs, e.2.length < 2 ^ 32) := by
  induction attrs generalizing cnt with
  | nil => exact ⟨le_rfl, iff_of_true rfl fun e he => absurd he not_mem_nil⟩
  | cons e attrs ih =>
    have hmod := Nat.mod_le e.2.length (2 ^ 32)
    have hlt : e.2.length < 2 ^ 32 ↔ e.2.length % 2 ^ 32 = e.2.length := by omega
    obtain ⟨hle, hiff⟩ := ih (cnt + (2 + e.2.length))
    rw [forall_mem_cons, ← hiff, hlt, foldl_cons]
    simp only [flatMap_cons, entryBytes, length_append, length_le, length_wordBytes, length_take]
    omega

theorem length_serialize_iff (attrs : Attributes) :
    (serialize attrs).length = serializedSize attrs ↔ ∀ e ∈ attrs, e.2.length < 2 ^ 32 := by
  rw [← (length_entries attrs 1).2, serialize, serializedSize, length_append, length_le]

theorem length_deserialize_lt (image : Image) (buffer : Nat) :
    (deserialize image buffer).length < 2 ^ 32 := by
  have hloop : ∀ (size buffer : Nat) (ret : Attributes),
      (deserializeLoop image size buffer ret).length ≤ ret.length + size := by
    intro size
    induction size with
    | zero => exact fun _ _ => le_rfl
    | succ size ih =>
      intro buffer ret
      have hset (key : UInt32) (attr : Attribute) : (set ret key attr).length ≤ ret.length + 1 := by
        unfold set
        split <;> simp
      rw [deserializeLoop]
      exact (ih _ _).trans ((Nat.add_le_add_right (hset _ _) _).trans_eq (by omega))
  have hword := ofLe_lt (image.read buffer 4)
  rw [length_read] at hword
  exact (hloop _ _ _).trans_lt (by rwa [length_nil, zero_add])

/-- **Which maps come back.** -/
theorem comes_back_iff (hmap : (attrs.map Prod.fst).Nodup) :
    ((serialize attrs).length = serializedSize attrs ∧ ∀ (image : Image) (buffer : Nat),
      image.Holds buffer (serialize attrs) → deserialize image buffer = attrs) ↔ Valid attrs := by
  constructor
  · rintro ⟨hlen, hback⟩
    refine ⟨hmap, ?_, (length_serialize_iff attrs).mp hlen⟩
    have heq := hback (write (fun _ => 0) 0 (serialize attrs)) 0 (read_write_self ..)
    exact heq ▸ length_deserialize_lt _ 0
  · exact fun hv => ⟨(length_serialize_iff attrs).mpr hv.attr_lt, fun _ _ => deserialize_eq hv⟩

/-- An attribute index with its attributes in memory.  `load_from_rows` counts the values of
each row, `load_attrs` of the string index too; `load_attrs` of the label index does not. -/
inductive AttrIndex where
  | labelRows (rows : List Attribute)
  | labelFile (rows : List Attribute)
  | range (values : List UInt32)
  | string (rows : List Attribute)

namespace AttrIndex

/-- `get`. -/
def get (id : Nat) : AttrIndex → Attribute
  | .labelRows rows | .labelFile rows | .string rows => rows.getD id []
  | .range values => [values.getD id 0]

/-- `max_attrs`. -/
def maxAttrs : AttrIndex → Nat
  | .labelRows rows | .string rows => (rows.map length).foldl max 0
  | .labelFile _ => 0
  | .range _ => 1

/-- The values of a row that were not counted. -/
def uncounted (id : Nat) : AttrIndex → Nat
  | .labelFile rows => (rows.getD id []).length
  | _ => 0

/-- The values that were counted, by which the row has fewer. -/
def spare (id : Nat) (ix : AttrIndex) : Nat := ix.maxAttrs - (ix.get id).length

theorem length_get_add_spare (ix : AttrIndex) (id : Nat) :
    (ix.get id).length + ix.spare id = ix.maxAttrs + ix.uncounted id := by
  have hmax : ∀ rows : List Attribute,
      (rows.getD id []).length ≤ (rows.map length).foldl max 0 := fun rows => by
    rw [getD_eq_getElem?_getD, foldl_max]
    cases hrow : rows[id]? with
    | none => exact Nat.zero_le _
    | some row => exact le_max?_getD_of_mem (mem_map_of_mem (mem_of_getElem? hrow))
  cases ix with
  | labelRows rows | string rows => exact Nat.add_sub_of_le (hmax rows)
  | labelFile rows => rw [spare, maxAttrs, Nat.zero_sub, zero_add]; rfl
  | range values => rfl

end AttrIndex

/-- `AttrIndexWriter`. -/
structure AttrIndexWriter where
  attrs : List (UInt32 × AttrIndex)
  /-- `attr_size_`; `0` if it is to be inferred. -/
  given : Nat

namespace AttrIndexWriter
variable (w : AttrIndexWriter)

/-- `attr_size`. -/
def attrSize : Nat :=
  if w.given ≠ 0 then w.given else 4 * w.attrs.foldl (fun cnt e => cnt + (2 + e.2.maxAttrs)) 1

/-- The attributes of a row. -/
def row (id : Nat) : Attributes := w.attrs.map fun e => (e.1, e.2.get id)

/-- `write`: a row that is too large is left out. -/
def write (id : Nat) : Option (List UInt8) :=
  if w.attrSize < serializedSize (w.row id) then none else some (serialize (w.row id))

/-- The sum over the indexes. -/
def total (f : AttrIndex → Nat) : Nat := w.attrs.foldl (fun cnt e => cnt + f e.2) 0

/-- **Room for a row.**  In a size that was inferred, the values that were not counted take no more
than the others leave; a size that was given holds the words of the row. -/
def Room (id : Nat) : Prop :=
  if w.given = 0 then w.total (·.uncounted id) ≤ w.total (·.spare id)
  else 4 * (1 + 2 * w.attrs.length + w.total fun ix => (ix.get id).length) ≤ w.given

theorem foldl_add_add {α : Type} (l : List α) (f g : α → Nat) (m n : Nat) :
    l.foldl (fun cnt e => cnt + (f e + g e)) (m + n) =
      l.foldl (fun cnt e => cnt + f e) m + l.foldl (fun cnt e => cnt + g e) n := by
  induction l generalizing m n with
  | nil => rfl
  | cons e l ih => rw [foldl_cons, foldl_cons, foldl_cons, ← ih, Nat.add_add_add_comm]

theorem size_le_iff (id : Nat) : serializedSize (w.row id) ≤ w.attrSize ↔ w.Room id := by
  have hsum : w.total (fun ix => (ix.get id).length) + w.total (·.spare id) =
      w.total (·.maxAttrs) + w.total (·.uncounted id) := by
    simp only [total, ← foldl_add_add, AttrIndex.length_get_add_spare]
  have hwords : ∀ f : AttrIndex → Nat, w.attrs.foldl (fun cnt e => cnt + (2 + f e.2)) 1 =
      1 + 2 * w.attrs.length + w.total f := fun f => by
    rw [total, ← foldl_add_const, ← foldl_add_add]
  rw [serializedSize, row, foldl_map, hwords fun ix => (ix.get id).length, attrSize,
    hwords (·.maxAttrs), Room]
  by_cases hgiven : w.given = 0
  · rw [if_neg (not_not.mpr hgiven), if_pos hgiven]
    omega
  · rw [if_pos hgiven, if_neg hgiven]

/-- **Which maps come back, and which rows there is room for.** -/
theorem rows_fit_iff (attrs : Attributes) (hmap : (attrs.map Prod.fst).Nodup) :
    (((serialize attrs).length = serializedSize attrs ∧ ∀ (image : Image) (buffer : Nat),
      image.Holds buffer (serialize attrs) → deserialize image buffer = attrs) ↔ Valid attrs) ∧
    ∀ id, (serializedSize (w.row id) ≤ w.attrSize ↔ w.Room id) ∧
      (w.write id = some (serialize (w.row id)) ↔ w.Room id) := by
  refine ⟨comes_back_iff hmap, fun id => ⟨w.size_le_iff id, ?_⟩⟩
  rw [← size_le_iff, write]
  split
  · next hlt => exact iff_of_false nofun (Nat.not_le.mpr hlt)
  · next hle => exact iff_of_true rfl (Nat.not_lt.mp hle)

/-- One row with the label `7`. -/
def oneLabel (ix : AttrIndex) : AttrIndexWriter := ⟨[(0, ix)], 0⟩

theorem rows_fit_iff_oneLabel :
    (oneLabel (.labelRows [[7]])).write 0 = some (serialize [(0, [7])]) :=
  ((rows_fit_iff (oneLabel (.labelRows [[7]])) [(0, [7])] (by decide)).2 0).2.mpr (Nat.le_refl 0)

/-- The same label, read from a file, is left out. -/
theorem labelFile_left_out : (oneLabel (.labelFile [[7]])).attrSize
      < serializedSize ((oneLabel (.labelFile [[7]])).row 0) ∧
    (oneLabel (.labelFile [[7]])).write 0 = none := by
  decide

end AttrIndexWriter
end PipeANN.AttrBytes
