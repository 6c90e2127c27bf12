import Mathlib.Data.Nat.Basic
import Mathlib.Data.List.Basic

/-! # Bloom filters in a byte buffer

`attribute.h` keeps one small Bloom filter for each vector, all of them in one byte
buffer: a `BloomFilter` is a slice of `size` bytes at some offset.  The buffer is
modelled by its bits: bit `b` of the buffer is bit `b % 8` of its byte `b / 8`, so
bit `i` of the slice at byte `offset` is bit `8 * offset + i`.

A filter has no false negatives: `contains` holds of a label after it was added
(`contains_add_self`), and bits are never cleared (`le_add`).  `contains` reads no bit
outside the slice (`contains_congr`).
-/
namespace PipeANN
open List Function
namespace BloomFilter

/-- `mix_hash`. -/
def mixHash (k : UInt32) : UInt32 :=
  let k := k ^^^ (k >>> 16)
  let k := k * 0x85ebca6b
  let k := k ^^^ (k >>> 13)
  let k := k * 0xc2b2ae35
  k ^^^ (k >>> 16)

/-- `num_hash_functions`. -/
def numHashFunctions (filterBytes : Nat) : Nat := max 2 (min 8 (filterBytes * 8 / 8))

/-- The bits of a filter of `size` bytes that a label sets. -/
def hashBits (size : Nat) (label : UInt32) : List Nat :=
  let bits := size * 8
  let h1 := mixHash label
  let h2 := mixHash (label ^^^ 0x9e3779b9)
  (List.range (numHashFunctions size)).map fun i => (h1 + UInt32.ofNat i * h2).toNat % bits

/-- `add`. -/
def add (size offset : Nat) (label : UInt32) (data : Nat → Bool) : Nat → Bool :=
  (hashBits size label).foldl (fun data bit => update data (8 * offset + bit) true) data

/-- The labels of a list are added one after the other. -/
def addAll (size offset : Nat) (labels : List UInt32) (data : Nat → Bool) : Nat → Bool :=
  labels.foldl (fun data label => add size offset label data) data

/-- `contains`. -/
def contains (size offset : Nat) (label : UInt32) (data : Nat → Bool) : Bool :=
  (hashBits size label).all fun bit => data (8 * offset + bit)

variable {size offset : Nat} {label : UInt32} {data : Nat → Bool}

theorem hashBits_lt (hsize : 0 < size) {bit : Nat} (h : bit ∈ hashBits size label) :
    bit < size * 8 := by
  obtain ⟨i, -, rfl⟩ := mem_map.mp h
  exact Nat.mod_lt _ (Nat.mul_pos hsize (by decide))

/-- There are at least two hash functions. -/
theorem exists_mem_hashBits (size : Nat) (label : UInt32) : ∃ bit, bit ∈ hashBits size label := by
  have hpos : 0 < numHashFunctions size := lt_of_lt_of_le (by decide) (le_max_left ..)
  exact ⟨_, mem_map_of_mem (mem_range.mpr hpos)⟩

/-- What a label's bits are after they were set. -/
theorem add_apply (b : Nat) : add size offset label data b ↔
      data b ∨ ∃ bit ∈ hashBits size label, b = 8 * offset + bit := by
  unfold add
  induction hashBits size label generalizing data with
  | nil => simp
  | cons bit bits ih =>
    rw [foldl_cons, ih, update_apply]
    split
    · next h => simp [h]
    · next h => simp [h]

/-- Bits are never cleared. -/
theorem le_add {b : Nat} (h : data b) : add size offset label data b :=
  (add_apply b).mpr (.inl h)

theorem contains_iff : contains size offset label data ↔
    ∀ bit ∈ hashBits size label, data (8 * offset + bit) :=
  all_eq_true

/-- **No false negative**: an added label is found. -/
theorem contains_add_self : contains size offset label (add size offset label data) :=
  contains_iff.mpr fun bit hbit => (add_apply _).mpr (.inr ⟨bit, hbit, rfl⟩)

/-- `contains` reads the bits of its slice only. -/
theorem contains_congr {data' : Nat → Bool} (hsize : 0 < size)
    (h : ∀ i < size * 8, data' (8 * offset + i) = data (8 * offset + i)) :
    contains size offset label data' = contains size offset label data := by
  rw [Bool.eq_iff_iff, contains_iff, contains_iff]
  exact forall₂_congr fun bit hbit => by rw [h bit (hashBits_lt hsize hbit)]

/-- A property that every round of a loop keeps and one of the rounds establishes. -/
theorem foldl_establish {δ ι : Type} (P : δ → Prop) {f : δ → ι → δ}
    (hkeep : ∀ d y, P d → P (f d y)) {l : List ι} {x : ι} (hx : x ∈ l) (hest : ∀ d, P (f d x))
    (d : δ) : P (l.foldl f d) := by
  induction l generalizing d with
  | nil => exact absurd hx not_mem_nil
  | cons y l ih =>
    rcases mem_cons.mp hx with rfl | hx
    · exact foldlRecOn l f (hest d) fun d hd y _ => hkeep d y hd
    · exact ih hx (f d y)

/-- What is found stays found when labels are added, to whatever filter. -/
theorem contains_add {offset' : Nat} {l : UInt32} (h : contains size offset' l data) :
    contains size offset' l (add size offset label data) :=
  contains_iff.mpr fun bit hbit => le_add (contains_iff.mp h bit hbit)

theorem contains_addAll {offset' : Nat} {l : UInt32} (labels : List UInt32)
    (h : contains size offset' l data) : contains size offset' l (addAll size offset labels data) :=
  foldlRecOn (motive := fun data => contains size offset' l data) labels _ h
    fun _ h _ _ => contains_add h

theorem contains_addAll_self {labels : List UInt32} (h : label ∈ labels) :
    contains size offset label (addAll size offset labels data) := by
  refine foldl_establish (fun data => contains size offset label data)
    (fun _ _ h => contains_add h) h (fun data => ?_) data
  exact contains_add_self

end BloomFilter
end PipeANN
