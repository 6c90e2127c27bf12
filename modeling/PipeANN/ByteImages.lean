import Mathlib.Algebra.Group.Nat.Defs
import Mathlib.Order.Lattice
import Mathlib.Order.Nat
import Mathlib.Data.List.Basic

/-! # Bytes at addresses

An image gives the byte at every address; a buffer and the contents of a file are images.  What
was written is read back (`read_write_part`), and a read depends on the bytes of its range alone
(`read_congr`, stated for two images at two addresses, so that it also covers copies).

A file has a size besides: `pread` stops at the end of the file.  Numbers are stored with the
lowest byte first (`le`, `ofLe`).
-/
namespace ByteImages
open List Nat

/-- The byte at every address. -/
def Image := Nat → UInt8

namespace Image

/-- The bytes from `off` on. -/
def read (m : Image) (off len : Nat) : List UInt8 := (List.range len).map fun i => m (off + i)

/-- `memcpy` to `off`. -/
def write (m : Image) (off : Nat) (bytes : List UInt8) : Image :=
  fun a => if off ≤ a then bytes[a - off]?.getD (m a) else m a

variable (m : Image) (off : Nat) (bytes : List UInt8) {ws : List (Nat × List UInt8)} {a : Nat}

@[simp] theorem length_read (len : Nat) : (m.read off len).length = len := by
  rw [read, length_map, length_range]

theorem getElem?_read {len i : Nat} (hi : i < len) : (m.read off len)[i]? = some (m (off + i)) := by
  rw [read, getElem?_map, getElem?_range hi, Option.map_some]

/-- A read depends on the bytes that it reads. -/
theorem read_congr {m m' : Image} {off off' len : Nat}
    (h : ∀ i < len, m (off + i) = m' (off' + i)) : m.read off len = m'.read off' len :=
  map_congr_left fun i hi => h i (mem_range.mp hi)

theorem write_apply {i : Nat} {b : UInt8} (h : bytes[i]? = some b) :
    m.write off bytes (off + i) = b := by
  rw [write, if_pos (Nat.le_add_right ..), Nat.add_sub_cancel_left, h, Option.getD_some]

theorem write_of_lt (h : a < off) : m.write off bytes a = m a := if_neg (by omega)

theorem write_of_ge (h : off + bytes.length ≤ a) : m.write off bytes a = m a := by
  rw [write, if_pos (by omega), getElem?_eq_none (by omega), Option.getD_none]

theorem write_nil : m.write off [] = m := by
  funext a
  rw [write]
  split
  · rfl
  · rfl

/-- What was read elsewhere and written here. -/
theorem write_read_apply (src : Image) (from' : Nat) {len i : Nat} (hi : i < len) :
    m.write off (src.read from' len) (off + i) = src (from' + i) :=
  m.write_apply off _ (src.getElem?_read from' hi)

/-- A part of what was written is read back. -/
theorem read_write_part (start n : Nat) (h : start + n ≤ bytes.length) :
    (m.write off bytes).read (off + start) n = (bytes.drop start).take n := by
  refine ext_getElem? fun i => ?_
  rw [getElem?_take]
  split
  · have hlt : start + i < bytes.length := by omega
    rw [getElem?_read _ _ (by omega), getElem?_drop, getElem?_eq_getElem hlt, add_assoc]
    exact congrArg some (m.write_apply off bytes (getElem?_eq_getElem hlt))
  · exact getElem?_eq_none (by rw [length_read]; omega)

theorem read_write_self : (m.write off bytes).read off bytes.length = bytes := by
  have h := m.read_write_part off bytes 0 bytes.length (by omega)
  rwa [drop_zero, take_length] at h

/-- A write leaves what is read before it or after it. -/
theorem read_write_of_disjoint {off' len : Nat} (h : off' + len ≤ off ∨ off + bytes.length ≤ off') :
    (m.write off bytes).read off' len = m.read off' len := by
  refine read_congr fun i hi => ?_
  rcases h with h | h
  · exact m.write_of_lt off bytes (by omega)
  · exact m.write_of_ge off bytes (by omega)

/-- A read in two parts. -/
theorem read_add (len len' : Nat) :
    m.read off (len + len') = m.read off len ++ m.read (off + len) len' := by
  rw [read, range_add, map_append, map_map]
  refine congrArg (m.read off len ++ ·) (map_congr_left fun i _ => ?_)
  exact congrArg m (add_assoc ..).symm

/-- The image has these bytes at an address. -/
def Holds (m : Image) (off : Nat) (bytes : List UInt8) : Prop := m.read off bytes.length = bytes

theorem holds_append {m : Image} {off : Nat} {l l' : List UInt8} :
    m.Holds off (l ++ l') ↔ m.Holds off l ∧ m.Holds (off + l.length) l' := by
  rw [Holds, length_append, read_add]
  exact ⟨fun h => append_inj h (length_read ..), fun h => congrArg₂ _ h.1 h.2⟩

/-- The encodings of some elements of a sequence. -/
theorem Holds.segment {α : Type} {f : α → List UInt8} {l : List α} {i j : Nat}
    (h : m.Holds off (l.flatMap f)) (hij : i ≤ j) :
    m.Holds (off + ((l.take i).flatMap f).length) (((l.take j).drop i).flatMap f) := by
  rw [← take_append_drop j l, flatMap_append, holds_append] at h
  have htake := h.1
  rw [← take_append_drop i (l.take j), flatMap_append, holds_append, take_take,
    min_eq_left hij] at htake
  exact htake.2

theorem Holds.element {α : Type} {f : α → List UInt8} {l : List α} {i : Nat} {x : α}
    (h : m.Holds off (l.flatMap f)) (hx : l[i]? = some x) :
    m.Holds (off + ((l.take i).flatMap f).length) (f x) := by
  have hseg := h.segment m off (le_succ i)
  have hone : (l.take (i + 1)).drop i = [x] := by
    rw [take_add_one, hx, drop_append_of_le_length, drop_take_self]
    · rfl
    · rw [length_take]
      exact Nat.le_min.mpr ⟨le_rfl, (List.getElem?_eq_some_iff.mp hx).1.le⟩
  rwa [hone, flatMap_singleton] at hseg

/-- Several writes, one after the other. -/
def writeAll (m : Image) (ws : List (Nat × List UInt8)) : Image :=
  ws.foldl (fun m w => m.write w.1 w.2) m

/-- Two writes to different bytes. -/
def Apart (w w' : Nat × List UInt8) : Prop :=
  w.1 + w.2.length ≤ w'.1 ∨ w'.1 + w'.2.length ≤ w.1

theorem writeAll_of_outside
    (h : ∀ w ∈ ws, a < w.1 ∨ w.1 + w.2.length ≤ a) : m.writeAll ws a = m a := by
  induction ws generalizing m with
  | nil => rfl
  | cons w ws ih =>
    have hrest := ih (m.write w.1 w.2) fun w' hw' => h w' (mem_cons_of_mem _ hw')
    refine hrest.trans ?_
    rcases h w mem_cons_self with h | h
    · exact m.write_of_lt _ _ h
    · exact m.write_of_ge _ _ h

/-- Each of several writes to different bytes is read back. -/
theorem read_writeAll (h : ws.Pairwise Apart)
    {w : Nat × List UInt8} (hw : w ∈ ws) : (m.writeAll ws).read w.1 w.2.length = w.2 := by
  induction ws generalizing m with
  | nil => cases hw
  | cons v ws ih =>
    obtain ⟨hv, hrest⟩ := pairwise_cons.mp h
    rcases mem_cons.mp hw with rfl | hw
    · -- what comes later does not touch it
      refine Eq.trans (read_congr fun i hi => ?_) (m.read_write_self w.1 w.2)
      refine (m.write w.1 w.2).writeAll_of_outside fun w' hw' => ?_
      rcases hv w' hw' with hle | hle
      · exact .inl (by omega)
      · exact .inr (by omega)
    · exact ih (m.write v.1 v.2) hrest hw

end Image

/-! ## Files -/

/-- A file: its size, and the bytes up to there. -/
structure File where
  size : Nat
  image : Image

namespace File

/-- A file that has just been created. -/
def empty : File := ⟨0, fun _ => 0⟩

/-- `pwrite`. -/
def pwrite (f : File) (bytes : List UInt8) (off : Nat) : File :=
  ⟨max f.size (off + bytes.length), f.image.write off bytes⟩

/-- `pread`: as many bytes as there are. -/
def pread (f : File) (len off : Nat) : List UInt8 := f.image.read off (min len (f.size - off))

theorem pread_eq {f : File} {len off : Nat} (h : off + len ≤ f.size) :
    f.pread len off = f.image.read off len := by
  rw [pread, min_eq_left (by omega)]

end File

/-! ## Numbers -/

/-- The bytes of a number, the lowest first. -/
def le : Nat → Nat → List UInt8
  | 0, _ => []
  | width + 1, v => UInt8.ofNat v :: le width (v / 256)

def ofLe : List UInt8 → Nat
  | [] => 0
  | b :: bytes => b.toNat + 256 * ofLe bytes

@[simp] theorem length_le (width v : Nat) : (le width v).length = width := by
  induction width generalizing v with
  | zero => rfl
  | succ width ih => rw [le, length_cons, ih]

theorem ofLe_lt (bytes : List UInt8) : ofLe bytes < 256 ^ bytes.length := by
  induction bytes with
  | nil => exact Nat.one_pos
  | cons b bytes ih =>
    have hb := b.toNat_lt
    rw [ofLe, length_cons, Nat.pow_succ]
    omega

/-- The number comes back if it has as many bytes. -/
theorem ofLe_le {width v : Nat} (h : v < 256 ^ width) : ofLe (le width v) = v := by
  induction width generalizing v with
  | zero =>
    rw [le, ofLe]
    omega
  | succ width ih =>
    rw [le, ofLe, ih (Nat.div_lt_of_lt_mul (by omega)), UInt8.toNat_ofNat']
    omega

variable (words : List UInt32)

/-- The bytes of a list of 32-bit words. -/
def wordBytes : List UInt8 := words.flatMap fun w => le 4 w.toNat

def ofWords : List UInt8 → List UInt32
  | a :: b :: c :: d :: rest => UInt32.ofNat (ofLe [a, b, c, d]) :: ofWords rest
  | _ => []

@[simp] theorem length_wordBytes : (wordBytes words).length = 4 * words.length := by
  induction words with
  | nil => rfl
  | cons w words ih =>
    rw [wordBytes, flatMap_cons, length_append, length_le, length_cons]
    rw [wordBytes] at ih
    omega

theorem length_ofWords (n : Nat) : ∀ bytes : List UInt8, bytes.length = 4 * n →
    (ofWords bytes).length = n := by
  induction n with
  | zero =>
    intro bytes h
    rw [length_eq_zero_iff.mp h]
    rfl
  | succ n ih =>
    intro bytes h
    match bytes, h with
    | a :: b :: c :: d :: rest, h =>
      rw [ofWords, length_cons, ih rest (by simp only [length_cons] at h; omega)]

theorem ofWords_wordBytes : ofWords (wordBytes words) = words := by
  induction words with
  | nil => rfl
  | cons w words ih =>
    have hw : UInt32.ofNat (ofLe (le 4 w.toNat)) = w := by
      rw [ofLe_le (w.toNat_lt_size), UInt32.ofNat_toNat]
    calc ofWords (wordBytes (w :: words))
        = UInt32.ofNat (ofLe (le 4 w.toNat)) :: ofWords (wordBytes words) := rfl
      _ = w :: words := by rw [hw, ih]

theorem length_flatMap_le (width : Nat) (vs : List Nat) :
    (vs.flatMap (le width)).length = width * vs.length := by
  induction vs with
  | nil => rfl
  | cons v vs ih =>
    rw [flatMap_cons, length_append, length_le, ih, length_cons, mul_succ, add_comm]

/-- The `i`-th of a sequence of numbers of the same width. -/
theorem drop_take_flatMap_le (width : Nat) {vs : List Nat} {i v : Nat} (h : vs[i]? = some v) :
    ((vs.flatMap (le width)).drop (width * i)).take width = le width v := by
  induction vs generalizing i with
  | nil => cases h
  | cons u vs ih =>
    rw [flatMap_cons]
    cases i with
    | zero =>
      cases h
      rw [Nat.mul_zero, drop_zero, take_append_of_le_length (by rw [length_le]),
        take_of_length_le (by rw [length_le])]
    | succ i =>
      have hdrop : (le width u ++ vs.flatMap (le width)).drop width = vs.flatMap (le width) :=
        drop_left' (length_le ..)
      rw [mul_succ, add_comm, ← drop_drop, hdrop]
      exact ih h

end ByteImages
