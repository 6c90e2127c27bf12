import Mathlib.Algebra.Order.BigOperators.Group.Finset
import Mathlib.Tactic.Abel

/-! # What parties hold, and what is stored

Items are handed around: each of any number of parties holds some, finitely many parties
hold any at all, and the rest is in a common store.  `Balanced hold store total` says that
holdings and store make up a given total, with multiplicities.

A step in which one party gives or takes items keeps the balance if it does so locally
(`Balanced.step`); no sum over the parties is seen outside of this module.
-/
namespace PipeANN
open Multiset

variable {ι α : Type}

/-- The items that the parties hold and those in the store are `total`. -/
def Balanced (hold : ι → Multiset α) (store total : Multiset α) : Prop :=
  ∃ S : Finset ι, (∀ i ∉ S, hold i = 0) ∧ total = ∑ i ∈ S, hold i + store

namespace Balanced
variable {hold hold' : ι → Multiset α} {store store' total total' : Multiset α}

theorem start (h : ∀ i, hold i = 0) (store : Multiset α) : Balanced hold store store :=
  ⟨∅, fun i _ => h i, by rw [Finset.sum_empty, zero_add]⟩

section
variable [DecidableEq ι]

/-- One party can be singled out. -/
theorem exists_others (h : Balanced hold store total) (i : ι) :
    ∃ S : Finset ι, i ∉ S ∧ (∀ j ∉ S, j ≠ i → hold j = 0) ∧
      total = hold i + ∑ j ∈ S, hold j + store := by
  obtain ⟨S, hS, htotal⟩ := h
  refine ⟨S.erase i, Finset.notMem_erase i S, fun j hj hji => hS j fun h => ?_, ?_⟩
  · exact hj (Finset.mem_erase.mpr ⟨hji, h⟩)
  · rw [htotal]
    by_cases hi : i ∈ S
    · rw [Finset.add_sum_erase S hold hi]
    · rw [Finset.erase_eq_of_notMem hi, hS i hi, zero_add]

/-- **One party acts.**  What it holds and what is stored change with the total. -/
theorem step (h : Balanced hold store total) (i : ι) (hne : ∀ j, j ≠ i → hold' j = hold j)
    (hlocal : hold' i + store' + total = hold i + store + total') :
    Balanced hold' store' total' := by
  obtain ⟨S, hi, hS, htotal⟩ := h.exists_others i
  refine ⟨insert i S, fun j hj => ?_, ?_⟩
  · obtain ⟨hji, hj⟩ := not_or.mp (fun h => hj (Finset.mem_insert.mpr h))
    rw [hne j hji, hS j hj hji]
  · have hsum : ∑ j ∈ S, hold' j = ∑ j ∈ S, hold j :=
      Finset.sum_congr rfl fun j hj => hne j fun h => hi (h ▸ hj)
    rw [Finset.sum_insert hi, hsum]
    refine add_left_cancel (a := hold i + store) ?_
    rw [← hlocal, htotal]
    abel

/-- If the items have different keys, then a party and the store have no key in common. -/
theorem key_ne (h : Balanced hold store total) {β : Type} {key : α → β}
    (hkeys : (total.map key).Nodup) {i : ι} {a b : α} (ha : a ∈ hold i) (hb : b ∈ store) :
    key a ≠ key b := by
  -- what one party holds and what is stored are different items of the total
  obtain ⟨S, -, -, htotal⟩ := h.exists_others i
  rw [add_right_comm] at htotal
  have hnodup := nodup_of_le (map_le_map (htotal ▸ le_add_right _ _)) hkeys
  rw [map_add] at hnodup
  intro heq
  exact disjoint_left.mp (disjoint_of_nodup_add hnodup)
    (mem_map_of_mem key ha) (heq ▸ mem_map_of_mem key hb)

end

theorem store_le (h : Balanced hold store total) : store ≤ total := by
  obtain ⟨S, -, htotal⟩ := h
  rw [htotal]
  exact le_add_left _ _

/-- An item that no party holds is stored. -/
theorem mem_store (h : Balanced hold store total) {a : α} (ha : a ∈ total)
    (hnot : ∀ i, a ∉ hold i) : a ∈ store := by
  obtain ⟨S, -, htotal⟩ := h
  rw [htotal, mem_add, mem_sum] at ha
  exact ha.resolve_left fun ⟨i, _, hi⟩ => hnot i hi

end Balanced
end PipeANN
