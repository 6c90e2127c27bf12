import Mathlib.Data.List.Range

/-! # The disk layout of the index

The index file is a sequence of sectors.  Sector `0` holds the metadata; the
records follow from sector `1` on.  A *location* is the position of a record in
the file: with `nnodesPerSector > 0` a sector holds that many locations, with
`nnodesPerSector = 0` a record spans several sectors of its own.  This module
embeds the address arithmetic of `SSDIndexMetadata` (`ssd_index_defs.h`).
-/
namespace PipeANN
open Nat

/-- The sector size, in bytes. -/
def sectorLen : Nat := 4096

/-- `DIV_ROUND_UP(X, Y)`. -/
def divRoundUp (x y : Nat) : Nat := x / y + if x % y ≠ 0 then 1 else 0

/-- `ROUND_UP(X, Y)`. -/
def roundUp (x y : Nat) : Nat := (x / y + if x % y ≠ 0 then 1 else 0) * y

theorem dvd_roundUp (x y : Nat) : y ∣ roundUp x y := Nat.dvd_mul_left _ _

theorem le_roundUp (x : Nat) {y : Nat} (hy : 0 < y) : x ≤ roundUp x y := by
  have h1 := Nat.div_add_mod x y
  have h2 := Nat.mod_lt x hy
  unfold roundUp
  rw [Nat.add_mul, Nat.mul_comm]
  split <;> omega

/-- The part of `SSDIndexMetadata` that addresses records. -/
structure DiskLayout where
  /-- Length of a record in bytes, dense neighbours included. -/
  maxNodeLen : Nat
  /-- Records in a sector; `0` when a record is longer than a sector. -/
  nnodesPerSector : Nat
  deriving DecidableEq, Repr

namespace DiskLayout
variable (m : DiskLayout)

/-- Sectors of one record when a record is longer than a sector. -/
def sectorsPerNode : Nat := divRoundUp m.maxNodeLen sectorLen

/-- `loc_sector_no`: the first sector of a location. -/
def locSectorNo (loc : Nat) : Nat :=
  1 + if 0 < m.nnodesPerSector then loc / m.nnodesPerSector else loc * m.sectorsPerNode

/-- `sector_to_loc(sector_no, 0)`: the first location of a sector. -/
def sectorToLoc (sectorNo : Nat) : Nat :=
  if m.nnodesPerSector = 0 then (sectorNo - 1) / m.sectorsPerNode
  else (sectorNo - 1) * m.nnodesPerSector

/-- The locations of a page, in the order the loops `for (i = st; i < ed; ++i)`
visit them.  For sector `0`, the metadata sector, `sector_no - 1` wraps around,
the loop bounds cross and the loop body never runs. -/
def pageSlots (page : Nat) : List Nat :=
  if page = 0 then []
  else List.range' (m.sectorToLoc page)
    (if m.nnodesPerSector = 0 then 1 else m.nnodesPerSector)

theorem locSectorNo_pos (loc : Nat) : 0 < m.locSectorNo loc :=
  Nat.add_pos_left Nat.one_pos _

section Packed
variable {m} (hnpp : 0 < m.nnodesPerSector)
include hnpp

theorem locSectorNo_eq (loc : Nat) : m.locSectorNo loc = 1 + loc / m.nnodesPerSector := by
  simp [locSectorNo, hnpp]

theorem pageSlots_eq {page : Nat} (hp : page ≠ 0) :
    m.pageSlots page = List.range' ((page - 1) * m.nnodesPerSector) m.nnodesPerSector := by
  simp [pageSlots, hp, sectorToLoc, Nat.pos_iff_ne_zero.mp hnpp]

/-- With packed records, a location is in a page exactly when the page is its
sector. -/
theorem mem_pageSlots {page loc : Nat} : loc ∈ m.pageSlots page ↔ m.locSectorNo loc = page := by
  rw [locSectorNo_eq hnpp]
  by_cases hp : page = 0
  · simp [pageSlots, hp]
  · rw [pageSlots_eq hnpp hp, List.mem_range'_1]
    constructor
    · rintro ⟨hlo, hhi⟩
      have : loc / m.nnodesPerSector = page - 1 := by
        apply Nat.div_eq_of_lt_le
        · rwa [Nat.mul_comm] at hlo ⊢
        · rw [succ_mul]; exact hhi
      omega
    · intro h
      obtain rfl : page = loc / m.nnodesPerSector + 1 := by omega
      have h1 := div_add_mod loc m.nnodesPerSector
      have h2 := mod_lt loc hnpp
      rw [Nat.mul_comm] at h1
      constructor <;> simp only [Nat.add_sub_cancel] <;> omega

/-- Whole pages lie on one side of an aligned boundary: a location of a page below
the boundary shares its page with no location at or above it. -/
theorem lt_of_same_page {bound a b : Nat} (hb : m.nnodesPerSector ∣ bound)
    (hab : m.locSectorNo a = m.locSectorNo b) (ha : a < bound) : b < bound := by
  rw [locSectorNo_eq hnpp, locSectorNo_eq hnpp] at hab
  obtain ⟨k, rfl⟩ := hb
  have h1 : a / m.nnodesPerSector < k := Nat.div_lt_of_lt_mul ha
  have h2 : b / m.nnodesPerSector < k := by omega
  rw [Nat.div_lt_iff_lt_mul hnpp, Nat.mul_comm] at h2
  exact h2

end Packed

theorem nodup_pageSlots (page : Nat) : (m.pageSlots page).Nodup := by
  unfold pageSlots
  split
  · exact List.nodup_nil
  · exact List.nodup_range'

end DiskLayout
end PipeANN
