import Mathlib.Data.List.Nodup

/-! # Loops that write a table

A loop over a list writes one entry of a table in each round: round `a` writes `val a` at
`key a`.  The table is a function.  An entry that no round writes keeps its value; an entry
has the value of its last write, so in particular of its only one.
-/
namespace LastWrites
open List Function

variable {α κ β : Type} [DecidableEq κ] {key : α → κ} {val : α → β} {f : κ → β} {l : List α}

theorem foldl_update_of_forall_ne {x : κ} (h : ∀ a ∈ l, key a ≠ x) :
    l.foldl (fun f a => update f (key a) (val a)) f x = f x := by
  induction l generalizing f with
  | nil => rfl
  | cons a l ih =>
    obtain ⟨ha, hl⟩ := forall_mem_cons.mp h
    exact (ih hl).trans (update_of_ne (Ne.symm ha) _ _)

/-- Where no entry is written twice, each has the value written. -/
theorem foldl_update_of_nodup (key : α → κ) (hnd : (l.map key).Nodup) {a : α} (ha : a ∈ l) :
    l.foldl (fun f a => update f (key a) (val a)) f (key a) = val a := by
  obtain ⟨l₁, l₂, rfl⟩ := append_of_mem ha
  rw [foldl_append, foldl_cons]
  refine (foldl_update_of_forall_ne fun b hb hkey => ?_).trans (update_self _ _ _)
  rw [map_append] at hnd
  exact (nodup_cons.mp hnd.of_append_right).1 (hkey ▸ mem_map_of_mem hb)

/-- An entry that is written has the value of one of its writes. -/
theorem exists_foldl_update_eq (key : α → κ) {x : κ} (h : x ∈ l.map key) : ∃ a ∈ l, key a = x ∧
      l.foldl (fun f a => update f (key a) (val a)) f x = val a := by
  induction l generalizing f with
  | nil => exact absurd h not_mem_nil
  | cons a l ih =>
    by_cases hl : x ∈ l.map key
    · obtain ⟨b, hb, hkey, hval⟩ := ih hl
      exact ⟨b, mem_cons_of_mem _ hb, hkey, hval⟩
    · -- the first round is the last one that writes it
      have ha : key a = x := ((mem_cons.mp h).resolve_right hl).symm
      have hlater : ∀ b ∈ l, key b ≠ x := fun b hb hbx => hl (hbx ▸ mem_map_of_mem hb)
      refine ⟨a, mem_cons_self, ha, ?_⟩
      rw [foldl_cons, foldl_update_of_forall_ne hlater, ← ha, update_self]

/-- A loop that writes one value. -/
theorem foldl_update_const (v : β) (keys : List κ) (x : κ) :
    keys.foldl (fun f k => update f k v) f x = if x ∈ keys then v else f x := by
  induction keys generalizing f with
  | nil => simp
  | cons k keys ih =>
    rw [foldl_cons, ih]
    by_cases hx : x = k <;> by_cases hm : x ∈ keys <;> simp [hx]

/-! ## Tables kept as lists -/

section
variable {pos : α → Nat} {table : List β}

theorem length_foldl_set :
    (l.foldl (fun t a => t.set (pos a) (val a)) table).length = table.length := by
  induction l generalizing table with
  | nil => rfl
  | cons a l ih => rw [foldl_cons, ih, length_set]

theorem getElem?_foldl_set_of_forall_ne {i : Nat} (h : ∀ a ∈ l, pos a ≠ i) :
    (l.foldl (fun t a => t.set (pos a) (val a)) table)[i]? = table[i]? := by
  induction l generalizing table with
  | nil => rfl
  | cons a l ih =>
    obtain ⟨ha, hl⟩ := forall_mem_cons.mp h
    exact (ih hl).trans (getElem?_set_ne ha)

/-- Where no entry is written twice, each has the value written. -/
theorem getElem?_foldl_set_of_nodup (hnd : (l.map pos).Nodup) {a : α} (ha : a ∈ l)
    (hlt : pos a < table.length) :
    (l.foldl (fun t a => t.set (pos a) (val a)) table)[pos a]? = some (val a) := by
  obtain ⟨l₁, l₂, rfl⟩ := append_of_mem ha
  rw [foldl_append, foldl_cons, getElem?_foldl_set_of_forall_ne]
  · exact getElem?_set_self (by rwa [length_foldl_set])
  · intro b hb hkey
    rw [map_append] at hnd
    exact (nodup_cons.mp hnd.of_append_right).1 (hkey ▸ mem_map_of_mem hb)

end

end LastWrites
