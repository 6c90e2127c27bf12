import Mathlib.Algebra.Order.BigOperators.Group.List
import Mathlib.Algebra.Order.Ring.Nat
import Mathlib.Data.List.Perm.Basic

/-! # A list of parties, one of which moves

The parties of a concurrent system are often kept in a list, in the order of their numbers,
and a step replaces one of them.  What all of them have together (work to do, resources held)
is a sum over the list.  It is the share of one party and the shares of the others
(`sum_map_eraseIdx`), and a step of this party leaves the others alone (`sum_map_set`).
-/
namespace PipeANN
open List

variable {α : Type} {f : α → Nat} {l : List α} {i : Nat} {a : α}

/-- The share of one party and of the others. -/
theorem sum_map_eraseIdx (h : l[i]? = some a) :
    (l.map f).sum = ((l.eraseIdx i).map f).sum + f a := by
  obtain ⟨hi, rfl⟩ := List.getElem?_eq_some_iff.mp h
  rw [← ((getElem_cons_eraseIdx_perm hi).map f).sum_eq, map_cons, sum_cons, add_comm]

/-- A step leaves the shares of the others alone. -/
theorem sum_map_set_eraseIdx (h : l[i]? = some a) (b : α) :
    ((l.set i b).map f).sum = ((l.eraseIdx i).map f).sum + f b := by
  have hi : i < l.length := (List.getElem?_eq_some_iff.mp h).1
  rw [sum_map_eraseIdx (getElem?_set_self hi), eraseIdx_set_eq]

/-- Replacing one party exchanges its share of the sum. -/
theorem sum_map_set (h : l[i]? = some a) (b : α) :
    ((l.set i b).map f).sum + f a = (l.map f).sum + f b := by
  rw [sum_map_set_eraseIdx h, sum_map_eraseIdx h, Nat.add_right_comm]

/-- What one of the parties is, it still is, unless it is the one that moved. -/
theorem exists_mem_set {p : α → Prop} (h : l[i]? = some a) (b : α) (hex : ∃ x ∈ l, p x) :
    p a ∨ ∃ x ∈ l.set i b, p x := by
  obtain ⟨x, hx, hp⟩ := hex
  obtain ⟨j, hj⟩ := mem_iff_getElem?.mp hx
  by_cases hij : i = j
  · subst hij
    obtain rfl : x = a := Option.some.inj (hj.symm.trans h)
    exact .inl hp
  · refine .inr ⟨x, mem_iff_getElem?.mpr ⟨j, ?_⟩, hp⟩
    rw [getElem?_set_ne hij, hj]

/-- If the parties have something, then one of them has. -/
theorem exists_pos_of_sum (h : 0 < (l.map f).sum) : ∃ a ∈ l, 0 < f a := by
  obtain ⟨n, hn, hpos⟩ := List.sum_pos_iff_exists_pos_nat.mp h
  obtain ⟨a, ha, rfl⟩ := mem_map.mp hn
  exact ⟨a, ha, hpos⟩

/-- A bound for each party is one for all. -/
theorem sum_map_le {b : Nat} (h : ∀ a ∈ l, f a ≤ b) : (l.map f).sum ≤ l.length * b := by
  have hle := sum_le_card_nsmul (l.map f) b (forall_mem_map.mpr h)
  rwa [length_map] at hle

end PipeANN
