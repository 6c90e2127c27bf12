import PipeANN.ByteImages
import Mathlib.Data.List.GetD

/-! # A random slice of a data file

`gen_random_slice` passes over a data file once.  For each row a number is drawn, and the row is
copied to one file and its number to another, or it is skipped.  Both files begin with the number
of their rows; it is known only at the end, and is then written over the header.

If no row was drawn, the row buffer is written to the data file and both headers say `1`, although
there is no id.  `slice_faithful_iff` says that nothing else goes wrong.  The outcome of a draw,
`sample < sampling_rate`, is a parameter.
-/
namespace PipeANN.RandomSlice
open List ByteImages

/-- A file of rows: their number, the number of their components, and the rows. -/
def binFile (npts nd : Nat) (rows : List (List UInt8)) : List UInt8 :=
  le 4 npts ++ (le 4 nd ++ rows.flatten)

/-- What is left of the input, the row buffer, and the two files. -/
structure SliceState where
  input : List UInt8
  curRow : List UInt8
  samples : List UInt8
  sampleIds : List UInt8
  numSampled : Nat

variable (drawn : Nat → Bool)

/-- One round of the loop, for rows of `len` bytes. -/
def SliceState.round (len : Nat) (s : SliceState) (i : Nat) : SliceState :=
  if drawn i then
    ⟨s.input.drop len, s.input.take len, s.samples ++ s.input.take len, s.sampleIds ++ le 4 i,
      s.numSampled + 1⟩
  else { s with input := s.input.drop len }

/-- The number of rows is written over the header. -/
def patchHeader (n : Nat) (file : List UInt8) : List UInt8 := le 4 n ++ file.drop 4

/-- `gen_random_slice` of components of `size` bytes: the data file and the file of the ids. -/
def genRandomSlice (size : Nat) (base : List UInt8) : List UInt8 × List UInt8 :=
  let npts := ofLe (base.take 4)
  let nd := ofLe ((base.drop 4).take 4)
  let s := (List.range npts).foldl (SliceState.round drawn (size * nd))
    ⟨base.drop 8, replicate (size * nd) 0, le 4 0 ++ le 4 nd, le 4 0 ++ le 4 1, 0⟩
  let s := if s.numSampled = 0 then { s with samples := s.samples ++ s.curRow, numSampled := 1 }
    else s
  (patchHeader s.numSampled s.samples, patchHeader s.numSampled s.sampleIds)

/-- The headers are the numbers of rows, the ids ascend, and row `i` of the data is the row of the
input whose number is the `i`-th id. -/
def Faithful (rows : List (List UInt8)) (nd : Nat) (files : List UInt8 × List UInt8) : Prop :=
  ∃ (ids : List Nat) (data : List (List UInt8)), ids.Pairwise (· < ·) ∧
    ids.map (rows[·]?) = data.map some ∧
    files = (binFile data.length nd data, binFile ids.length 1 (ids.map (le 4)))

variable (size nd : Nat) (rows : List (List UInt8))

/-- The files after `n` rounds. -/
theorem foldl_round {len : Nat} (hlen : ∀ row ∈ rows, row.length = len) (row a b : List UInt8)
    {n : Nat} (hn : n ≤ rows.length) :
    ∃ curRow, (range n).foldl (SliceState.round drawn len) ⟨rows.flatten, row, a, b, 0⟩ =
      ⟨(rows.drop n).flatten, curRow,
        a ++ (((range n).filter drawn).map (rows.getD · [])).flatten,
        b ++ (((range n).filter drawn).map (le 4)).flatten, ((range n).filter drawn).length⟩ := by
  induction n with
  | zero => exact ⟨row, by simp⟩
  | succ n ih =>
    obtain ⟨curRow, hs⟩ := ih (by omega)
    have hrow : (rows.drop n).flatten = rows.getD n [] ++ (rows.drop (n + 1)).flatten := by
      rw [drop_eq_getElem_cons hn, flatten_cons, getD_eq_getElem _ _ hn]
    have hlen : (rows.getD n []).length = len := by
      rw [getD_eq_getElem _ _ hn]
      exact hlen _ (getElem_mem hn)
    rw [range_succ, foldl_append, hs, foldl_cons, SliceState.round, hrow,
      drop_left' hlen, take_left' hlen]
    by_cases hd : drawn n
    · exact ⟨rows.getD n [], by simp [hd]⟩
    · exact ⟨curRow, by simp [hd]⟩

/-- **The two files**, for any outcome of the draws. -/
theorem genRandomSlice_eq (hlen : ∀ row ∈ rows, row.length = size * nd) (hn : rows.length < 2 ^ 32)
    (hd : nd < 2 ^ 32) {ids : List Nat} (hids : (range rows.length).filter drawn = ids) :
    ∃ curRow, genRandomSlice drawn size (binFile rows.length nd rows) =
      (binFile (max 1 ids.length) nd (if ids = [] then [curRow] else ids.map (rows.getD · [])),
        binFile (max 1 ids.length) 1 (ids.map (le 4))) := by
  subst hids
  have hnpts : ofLe ((binFile rows.length nd rows).take 4) = rows.length := by
    rw [binFile, take_left' (length_le ..), ofLe_le hn]
  have hnd : ofLe (((binFile rows.length nd rows).drop 4).take 4) = nd := by
    rw [binFile, drop_left' (length_le ..), take_left' (length_le ..), ofLe_le hd]
  have hrest : (binFile rows.length nd rows).drop 8 = rows.flatten := by
    rw [binFile, ← append_assoc, drop_left' (by simp)]
  obtain ⟨curRow, hs⟩ := foldl_round drawn rows hlen (replicate (size * nd) 0)
    (le 4 0 ++ le 4 nd) (le 4 0 ++ le 4 1) le_rfl
  refine ⟨curRow, ?_⟩
  simp only [genRandomSlice, hnpts, hnd, hrest, hs]
  by_cases hnone : (range rows.length).filter drawn = []
  · simp [hnone, patchHeader, binFile]
  · have hpos : 0 < ((range rows.length).filter drawn).length := length_pos_iff.mpr hnone
    simp only [if_neg hpos.ne', if_neg hnone, Nat.max_eq_right hpos, patchHeader, append_assoc,
      drop_left' (length_le ..), binFile]

/-- An id file without ids whose header says `1` is not faithful. -/
theorem not_faithful (file : List UInt8) : ¬ Faithful rows nd (file, binFile 1 1 []) := by
  rintro ⟨ids, data, -, -, hfiles⟩
  obtain ⟨hhead, hrest⟩ := append_inj (Prod.ext_iff.mp hfiles).2 (by simp)
  obtain rfl : ids = [] := by
    cases ids with
    | nil => rfl
    | cons id ids => simp [le] at hrest
  exact absurd hhead (by decide)

/-- **When the slice is faithful**: if and only if a row was drawn. -/
theorem slice_faithful_iff (hlen : ∀ row ∈ rows, row.length = size * nd)
    (hn : rows.length < 2 ^ 32) (hd : nd < 2 ^ 32) :
    Faithful rows nd (genRandomSlice drawn size (binFile rows.length nd rows)) ↔
      ∃ i < rows.length, drawn i = true := by
  generalize hids : (range rows.length).filter drawn = ids
  obtain ⟨curRow, heq⟩ := genRandomSlice_eq drawn size nd rows hlen hn hd hids
  have hmem : ∀ i, i ∈ ids ↔ i < rows.length ∧ drawn i = true := by
    intro i
    rw [← hids, mem_filter, mem_range]
  rw [heq]
  by_cases hnone : ids = []
  · subst hnone
    refine iff_of_false (not_faithful nd rows _) ?_
    rintro ⟨i, hi⟩
    exact absurd ((hmem i).mpr hi) not_mem_nil
  · obtain ⟨i, hi⟩ := exists_mem_of_ne_nil ids hnone
    refine iff_of_true ⟨ids, ids.map (rows.getD · []), ?_, ?_, ?_⟩ ⟨i, (hmem i).mp hi⟩
    · exact hids ▸ pairwise_lt_range.filter drawn
    · rw [map_map]
      refine map_congr_left fun i hi => ?_
      have hlt := ((hmem i).mp hi).1
      rw [Function.comp_apply, getD_eq_getElem _ _ hlt, getElem?_eq_getElem hlt]
    · rw [if_neg hnone, length_map, Nat.max_eq_right (length_pos_iff.mpr hnone)]

theorem slice_faithful_iff_second :
    Faithful [[1, 2], [3, 4]] 2 (genRandomSlice (· == 1) 1 (binFile 2 2 [[1, 2], [3, 4]])) :=
  (slice_faithful_iff (· == 1) 1 2 [[1, 2], [3, 4]] (by decide) (by decide) (by decide)).mpr
    ⟨1, by decide, rfl⟩

/-- Of one row nothing is drawn: both headers say `1`, and there is no id. -/
theorem nothing_drawn :
    ¬ Faithful [[7]] 1 (genRandomSlice (fun _ => false) 1 (binFile 1 1 [[7]])) := by
  obtain ⟨curRow, heq⟩ := genRandomSlice_eq (fun _ => false) 1 1 [[7]] (by decide) (by decide)
    (by decide) rfl
  exact heq ▸ not_faithful 1 [[7]] _

end PipeANN.RandomSlice
