import Mathlib.Data.List.Nodup
import Mathlib.Data.List.Perm.Basic
import Mathlib.Order.Nat

/-! # Loops whose chunks run in parallel

A loop over `0 … n-1` is cut in chunks of `size` iterations.  The chunks run one after
the other; the iterations of one chunk run in parallel, so they take effect in any order.
A `Schedule` is one such order for every chunk.

Iterations that satisfy a predicate `p` and draw numbers from a shared counter get the
numbers `0, 1, 2, …` in the order of the schedule: iteration `i` gets the number
`(flat.filter p).idxOf i`.  The chunks before determine the range of these numbers
(`Schedule.le_idxOf`, `Schedule.idxOf_lt`), the order within the chunk the rest
(`Schedule.idxOf_eq`).
-/
namespace ChunkedLoop
open List Function Nat

/-- The iterations of chunk `k`. -/
def chunk (size n k : Nat) : List Nat := List.range' (size * k) (min n (size * (k + 1)) - size * k)

/-- The number of chunks. -/
def numChunks (size n : Nat) : Nat := (n + size - 1) / size

/-- An order of the iterations for every chunk. -/
structure Schedule (size n : Nat) where
  order : Nat → List Nat
  perm : ∀ k, (order k).Perm (chunk size n k)

variable (p : Nat → Bool)

/-- How many of the numbers below `x` satisfy `p`. -/
def countBelow (x : Nat) : Nat := ((List.range x).filter p).length

variable {n : Nat}

theorem mem_chunk {size k i : Nat} (hsize : 0 < size) :
    i ∈ chunk size n k ↔ i < n ∧ i / size = k := by
  rw [chunk, mem_range'_1, Nat.div_eq_iff hsize, Nat.mul_succ, Nat.mul_comm k size]
  omega

theorem lt_numChunks {size k : Nat} (hsize : 0 < size) : k < numChunks size n ↔ size * k < n := by
  rw [numChunks, Nat.lt_div_iff_mul_lt hsize, Nat.mul_comm]
  omega

/-! ## Counting -/

variable {x y : Nat}

theorem countBelow_mono (h : x ≤ y) : countBelow p x ≤ countBelow p y :=
  ((range_sublist.mpr h).filter p).length_le

theorem countBelow_add (x d : Nat) :
    countBelow p (x + d) = countBelow p x + ((List.range' x d).filter p).length := by
  rw [countBelow, range_eq_range', ← range'_append_1, filter_append,
    length_append, Nat.zero_add, countBelow, range_eq_range']

theorem countBelow_add_le (x d : Nat) : countBelow p (x + d) ≤ countBelow p x + d := by
  rw [countBelow_add]
  have := length_filter_le p (range' x d)
  rw [length_range'] at this
  omega

variable {p : Nat → Bool}

/-- Two counts differ when a number in between satisfies `p`. -/
theorem countBelow_lt {i : Nat} (hx : x ≤ i) (hy : i < y) (hi : p i) :
    countBelow p x < countBelow p y := by
  obtain ⟨d, rfl⟩ : ∃ d, y = x + d := ⟨y - x, by omega⟩
  rw [countBelow_add]
  have : 0 < ((range' x d).filter p).length := length_pos_of_mem
    (mem_filter.mpr ⟨mem_range'_1.mpr ⟨hx, hy⟩, hi⟩)
  omega

theorem exists_of_countBelow_lt
    (h : countBelow p x < countBelow p y) : ∃ i, x ≤ i ∧ i < y ∧ p i := by
  have hxy : x < y := by
    by_contra hle
    have := countBelow_mono p (show y ≤ x by omega)
    omega
  obtain ⟨d, rfl⟩ : ∃ d, y = x + d := ⟨y - x, by omega⟩
  rw [countBelow_add] at h
  obtain ⟨i, hi⟩ := exists_mem_of_length_pos (show 0 < ((range' x d).filter p).length by omega)
  obtain ⟨hmem, hp⟩ := mem_filter.mp hi
  exact ⟨i, (mem_range'_1.mp hmem).1, (mem_range'_1.mp hmem).2, hp⟩

/-- Beyond `n` nothing is counted if `p` holds below `n` only. -/
theorem countBelow_of_le (hp : ∀ i, p i → i < n) (h : n ≤ x) : countBelow p x = countBelow p n := by
  apply le_antisymm _ (countBelow_mono p h)
  by_contra hlt
  obtain ⟨i, h1, -, h2⟩ := exists_of_countBelow_lt (not_le.mp hlt)
  exact absurd (hp i h2) (by omega)

/-! ## Schedules -/

namespace Schedule
variable {size n : Nat} (s : Schedule size n)

/-- The iterations of all chunks, chunk by chunk. -/
def rounds : List (List Nat) := (List.range (numChunks size n)).map s.order

/-- The iterations in the order in which they take effect. -/
def flat : List Nat := s.rounds.flatten

@[simp] theorem length_rounds : s.rounds.length = numChunks size n := by
  rw [rounds, length_map, length_range]

variable {k : Nat}

theorem take_rounds_succ (hk : k < numChunks size n) :
    s.rounds.take (k + 1) = s.rounds.take k ++ [s.order k] := by
  rw [take_succ_eq_append_getElem (by simpa using hk)]
  simp [rounds]

/-- The iterations of every chunk in order. -/
def inOrder (size n : Nat) : Schedule size n := ⟨chunk size n, fun _ => List.Perm.refl _⟩

/-- Another order for one chunk. -/
def withOrder (k : Nat) (l : List Nat) (hl : l.Perm (chunk size n k)) : Schedule size n where
  order := update s.order k l
  perm j := by
    by_cases h : j = k
    · subst h
      rwa [update_self]
    · rw [update_of_ne h]
      exact s.perm j

@[simp] theorem order_withOrder {l : List Nat} (hl : l.Perm (chunk size n k)) :
    (s.withOrder k l hl).order k = l :=
  update_self ..

variable {i : Nat} {p : Nat → Bool} (hsize : 0 < size)
include hsize

/-- The first chunks do the first iterations. -/
theorem take_flatten_perm (hk : k ≤ numChunks size n) :
    (s.rounds.take k).flatten.Perm (range (min n (size * k))) := by
  induction k with
  | zero => simp
  | succ k ih =>
    have hlt : size * k < n := (lt_numChunks hsize).mp hk
    have hend : min n (size * (k + 1)) = size * k + (min n (size * (k + 1)) - size * k) := by
      rw [mul_succ]
      omega
    have hsplit : range (min n (size * (k + 1))) = range (min n (size * k)) ++ chunk size n k := by
      rw [chunk, Nat.min_eq_right hlt.le, hend, Nat.add_sub_cancel_left, range_add,
        range'_eq_map_range]
    rw [s.take_rounds_succ hk, flatten_append, flatten_singleton, hsplit]
    exact (ih (by omega)).append (s.perm k)

theorem flat_perm : s.flat.Perm (range n) := by
  have h := s.take_flatten_perm hsize le_rfl
  have hn : n ≤ size * numChunks size n :=
    not_lt.mp fun h => lt_irrefl _ ((lt_numChunks hsize).mpr h)
  rwa [← s.length_rounds, take_length, s.length_rounds, min_eq_left hn] at h

theorem mem_order : i ∈ s.order k ↔ i < n ∧ i / size = k := by
  rw [(s.perm k).mem_iff, mem_chunk hsize]

variable (hp : ∀ i, p i = true → i < n)
include hp

/-- How many numbers the first chunks draw. -/
theorem length_filter_take (hk : k ≤ numChunks size n) :
    ((s.rounds.take k).flatten.filter p).length = countBelow p (size * k) := by
  rw [((s.take_flatten_perm hsize hk).filter p).length_eq]
  show countBelow p (min n (size * k)) = _
  rcases le_total n (size * k) with h | h
  · rw [min_eq_left h, countBelow_of_le hp h]
  · rw [min_eq_right h]

variable (hi : p i = true)
include hi

theorem div_lt_numChunks : i / size < numChunks size n :=
  (lt_numChunks hsize).mpr (lt_of_le_of_lt (mul_div_le i size) (hp i hi))

theorem mem_filter_order : i ∈ (s.order (i / size)).filter p :=
  mem_filter.mpr ⟨(s.mem_order hsize).mpr ⟨hp i hi, rfl⟩, hi⟩

/-- **The number an iteration draws**: those drawn by the chunks before, and by the
iterations of its own chunk that come before it. -/
theorem idxOf_eq : (s.flat.filter p).idxOf i =
      countBelow p (size * (i / size)) + ((s.order (i / size)).filter p).idxOf i := by
  have hk := div_lt_numChunks hsize hp hi
  have hsplit : s.flat = (s.rounds.take (i / size)).flatten ++
      (s.order (i / size) ++ (s.rounds.drop (i / size + 1)).flatten) := by
    rw [flat, ← append_assoc, ← flatten_concat, ← s.take_rounds_succ hk,
      ← flatten_append, take_append_drop]
  have hbefore : i ∉ (s.rounds.take (i / size)).flatten.filter p := by
    intro h
    have := (s.take_flatten_perm hsize hk.le).mem_iff.mp (mem_filter.mp h).1
    rw [mem_range] at this
    have := mul_div_le i size
    omega
  rw [hsplit, filter_append, filter_append, idxOf_append_of_notMem hbefore,
    idxOf_append_of_mem (s.mem_filter_order hsize hp hi), s.length_filter_take hsize hp hk.le]

theorem le_idxOf : countBelow p (size * (i / size)) ≤ (s.flat.filter p).idxOf i := by
  rw [s.idxOf_eq hsize hp hi]
  exact Nat.le_add_right ..

omit hi in
theorem length_filter_order (hk : k < numChunks size n) :
    countBelow p (size * (k + 1)) = countBelow p (size * k) + ((s.order k).filter p).length := by
  rw [← s.length_filter_take hsize hp hk, ← s.length_filter_take hsize hp hk.le,
    s.take_rounds_succ hk, flatten_append, flatten_singleton, filter_append,
    length_append]

theorem idxOf_lt : (s.flat.filter p).idxOf i < countBelow p (size * (i / size + 1)) := by
  rw [s.idxOf_eq hsize hp hi, s.length_filter_order hsize hp (div_lt_numChunks hsize hp hi)]
  exact Nat.add_lt_add_left (idxOf_lt_length_of_mem (s.mem_filter_order hsize hp hi)) _

/-- An iteration may come first in its chunk. -/
theorem exists_first :
    ∃ s : Schedule size n, (s.flat.filter p).idxOf i = countBelow p (size * (i / size)) := by
  have hmem : i ∈ chunk size n (i / size) := (mem_chunk hsize).mpr ⟨hp i hi, rfl⟩
  refine ⟨(inOrder size n).withOrder (i / size) (i :: (chunk size n (i / size)).erase i)
    (perm_cons_erase hmem).symm, ?_⟩
  rw [idxOf_eq _ hsize hp hi, order_withOrder, filter_cons_of_pos hi, idxOf_cons_self, Nat.add_zero]

/-- An iteration may come last in its chunk. -/
theorem exists_last :
    ∃ s : Schedule size n,
      (s.flat.filter p).idxOf i + 1 = countBelow p (size * (i / size + 1)) := by
  have hmem : i ∈ chunk size n (i / size) := (mem_chunk hsize).mpr ⟨hp i hi, rfl⟩
  have hperm : ((chunk size n (i / size)).erase i ++ [i]).Perm (chunk size n (i / size)) :=
    (perm_append_singleton i _).trans (perm_cons_erase hmem).symm
  have hnot : i ∉ ((chunk size n (i / size)).erase i).filter p := fun h =>
    Nodup.not_mem_erase nodup_range' (mem_filter.mp h).1
  refine ⟨(inOrder size n).withOrder (i / size) _ hperm, ?_⟩
  rw [idxOf_eq _ hsize hp hi,
    length_filter_order ((inOrder size n).withOrder (i / size) _ hperm) hsize hp
      (div_lt_numChunks hsize hp hi),
    order_withOrder, filter_append, filter_cons_of_pos hi, filter_nil,
    idxOf_append_of_notMem hnot, idxOf_cons_self, length_append,
    length_singleton]
  omega

end Schedule

end ChunkedLoop
