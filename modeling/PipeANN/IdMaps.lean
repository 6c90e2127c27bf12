import Mathlib.Data.List.Nodup

/-! # Renumberings

`merge_deletes` gives the vectors that are left new ids, counted from zero, and hands the map
from the old ids to the new ones to the attribute indexes (`merge` in `attribute.h`).  There
an empty map stands for the identity: it is what the automatic merge passes.
-/
namespace PipeANN
open List

/-- `id_map`: from the ids that are left to the ids below their number. -/
structure IdMap where
  pairs : List (Nat × Nat)
  oldNodup : (pairs.map Prod.fst).Nodup
  newNodup : (pairs.map Prod.snd).Nodup
  newLt : ∀ p ∈ pairs, p.2 < pairs.length

namespace IdMap

/-- The map the automatic merge passes. -/
def empty : IdMap := ⟨[], nodup_nil, nodup_nil, fun _ h => absurd h not_mem_nil⟩

variable (m : IdMap)

/-- `id_map.empty()`. -/
def isEmpty : Bool := m.pairs.isEmpty

/-- The new id of an old id, as the indexes look it up. -/
def newId (old : Nat) : Option Nat := if m.isEmpty then some old else m.pairs.lookup old

/-- The size of an index of `n` vectors after the renumbering. -/
def newSize (n : Nat) : Nat := if m.isEmpty then n else m.pairs.length

/-- What belongs to the vectors, by their new ids. -/
def rename {β : Type} (f : Nat → Option β) (new : Nat) : Option β :=
  if m.isEmpty then f new else (m.pairs.find? (·.2 = new)).bind fun p => f p.1

variable {m}

/-- Lookup in an association list with distinct keys. -/
theorem lookup_eq_some_iff {β : Type} : ∀ {l : List (Nat × β)}, (l.map Prod.fst).Nodup →
    ∀ {old : Nat} {new : β}, l.lookup old = some new ↔ (old, new) ∈ l
  | [], _, old, new => by simp
  | (k, v) :: l, h, old, new => by
    obtain ⟨hk, hl⟩ := nodup_cons.mp h
    rw [lookup_cons]
    by_cases hold : old = k
    · subst hold
      have hnot : (old, new) ∉ l := fun hmem => hk (mem_map.mpr ⟨_, hmem, rfl⟩)
      simp [hnot, eq_comm]
    · rw [beq_eq_false_iff_ne.mpr hold]
      simp [hold, lookup_eq_some_iff hl]

theorem newId_of_isEmpty (h : m.isEmpty) (old : Nat) : m.newId old = some old := if_pos h

theorem newId_eq_some_iff (h : m.isEmpty = false) {old new : Nat} :
    m.newId old = some new ↔ (old, new) ∈ m.pairs := by
  rw [newId, h, if_neg Bool.false_ne_true, lookup_eq_some_iff m.oldNodup]

/-- The pair of a new id is the only one. -/
theorem eq_of_mem_of_snd_eq {l : List (Nat × Nat)} (h : (l.map Prod.snd).Nodup) {p q : Nat × Nat}
    (hp : p ∈ l) (hq : q ∈ l) (hpq : p.2 = q.2) : p = q :=
  inj_on_of_nodup_map h hp hq hpq

/-- Different vectors get different ids. -/
theorem newId_inj {a b new : Nat} (ha : m.newId a = some new) (hb : m.newId b = some new) :
    a = b := by
  by_cases h : m.isEmpty
  · rw [newId_of_isEmpty h] at ha hb
    exact (Option.some.inj ha).trans (Option.some.inj hb).symm
  · have h := Bool.not_eq_true _ ▸ h
    rw [newId_eq_some_iff h] at ha hb
    exact congrArg Prod.fst (eq_of_mem_of_snd_eq m.newNodup ha hb rfl)

theorem newId_lt {old new n : Nat} (hold : old < n) (h : m.newId old = some new) :
    new < m.newSize n := by
  by_cases he : m.isEmpty
  · rw [newId_of_isEmpty he] at h
    rw [newSize, if_pos he]
    exact Option.some.inj h ▸ hold
  · have he := Bool.not_eq_true _ ▸ he
    rw [newId_eq_some_iff he] at h
    rw [newSize, he]
    exact m.newLt _ h

/-- What a vector has under its new id is what it had under its old id. -/
theorem rename_eq_some_iff {β : Type} {f : Nat → Option β} {new : Nat} {x : β} :
    m.rename f new = some x ↔ ∃ old, m.newId old = some new ∧ f old = some x := by
  by_cases he : m.isEmpty
  · simp [rename, he, newId_of_isEmpty he]
  · have he := Bool.not_eq_true _ ▸ he
    simp only [rename, he, newId_eq_some_iff he]
    constructor
    · intro h
      obtain ⟨⟨old, new'⟩, hfind, hf⟩ := Option.bind_eq_some_iff.mp h
      have hnew : new' = new := by simpa using find?_some hfind
      exact ⟨old, hnew ▸ mem_of_find?_eq_some hfind, hf⟩
    · rintro ⟨old, hmem, hf⟩
      have hsome : (m.pairs.find? (·.2 = new)).isSome := by
        rw [find?_isSome]
        exact ⟨_, hmem, by simp⟩
      obtain ⟨p, hp⟩ := Option.isSome_iff_exists.mp hsome
      have hpnew : p.2 = new := by simpa using find?_some hp
      have : p = (old, new) :=
        eq_of_mem_of_snd_eq m.newNodup (mem_of_find?_eq_some hp) hmem hpnew
      rw [hp, this]
      exact hf

/-! ## Moving the entries of a table -/

section
variable {β : Type}

/-- The loop of `remap_approx` over the old ids below `n`. -/
def remapLoop (m : IdMap) (old : List β) (table : List β) (n : Nat) : List β :=
  (List.range n).foldl (fun table oldId =>
    match m.newId oldId, old[oldId]? with
    | some new, some x => table.set new x
    | _, _ => table) table

theorem remapLoop_succ (m : IdMap) (old table : List β) (n : Nat) : m.remapLoop old table (n + 1) =
      match m.newId n, old[n]? with
      | some new, some x => (m.remapLoop old table n).set new x
      | _, _ => m.remapLoop old table n := by
  rw [remapLoop, range_succ, foldl_append]
  rfl

theorem length_remapLoop (m : IdMap) (old table : List β) (n : Nat) :
    (m.remapLoop old table n).length = table.length := by
  induction n with
  | zero => rfl
  | succ n ih =>
    rw [remapLoop_succ]
    split
    · rw [length_set, ih]
    · exact ih

/-- Every entry is found at its new id. -/
theorem getElem?_remapLoop {old table : List β} {n oldId new : Nat} {x : β} (hn : oldId < n)
    (hold : old[oldId]? = some x) (hnew : m.newId oldId = some new) (hlt : new < table.length) :
    (m.remapLoop old table n)[new]? = some x := by
  induction n with
  | zero => exact absurd hn (Nat.not_lt_zero _)
  | succ n ih =>
    rw [remapLoop_succ]
    rcases Nat.eq_or_lt_of_le (Nat.le_of_lt_succ hn) with rfl | hlt'
    · rw [hnew, hold]
      exact getElem?_set_self (by rwa [length_remapLoop])
    · split
      · next new' x' hnew' _ =>
        -- a later entry has another place
        have hne : new' ≠ new := fun h => Nat.ne_of_lt hlt' (newId_inj hnew (h ▸ hnew'))
        rw [getElem?_set_ne hne]
        exact ih hlt'
      · exact ih hlt'

end

end IdMap
end PipeANN
