import Mathlib.Data.Finset.Max

/-! # Tables of reader-writer locks

A lock is one word: `0` if it is free, `-1` if a writer holds it, and otherwise the number of
readers, up to a limit.  Nothing in the word says who holds it, so that any party may release
it.

`Accounts w writers readers` says what the word has to do with the holders, and a table is kept
right by the party that acts: `Keeps` compares what this party holds before and after, whatever
the others hold.
-/
namespace PipeANN
open List Function
namespace RwLock

/-- Take the lock for reading, if no writer has it and the limit is not reached. -/
def tryRead (limit w : Int) : Option Int :=
  if 0 ≤ w ∧ w < limit then some (w + 1) else none

/-- Take the lock for writing, if it is free. -/
def tryWrite (w : Int) : Option Int :=
  if w = 0 then some (-1) else none

/-- Release the lock, whoever holds it. -/
def release (w : Int) : Int :=
  if w = -1 then 0 else w - 1

/-- The word of a lock with so many writers and readers. -/
def Accounts (w : Int) (writers readers : Nat) : Prop :=
  w = -1 ∧ writers = 1 ∧ readers = 0 ∨ w = readers ∧ writers = 0

namespace Accounts
variable {limit w w' : Int} {writers readers : Nat}

theorem free : Accounts 0 0 0 := .inr ⟨rfl, rfl⟩

theorem tryWrite (h : Accounts w writers readers) (hw : RwLock.tryWrite w = some w') :
    Accounts w' (writers + 1) readers := by
  unfold RwLock.tryWrite at hw
  split at hw
  · cases hw
    unfold Accounts at h ⊢
    omega
  · cases hw

theorem tryRead (h : Accounts w writers readers) (hw : RwLock.tryRead limit w = some w') :
    Accounts w' writers (readers + 1) := by
  unfold RwLock.tryRead at hw
  split at hw
  · cases hw
    unfold Accounts at h ⊢
    omega
  · cases hw

theorem releaseWrite (h : Accounts w (writers + 1) readers) :
    Accounts (release w) writers readers := by
  unfold Accounts release at *
  split <;> omega

theorem releaseRead (h : Accounts w writers (readers + 1)) :
    Accounts (release w) writers readers := by
  unfold Accounts release at *
  split <;> omega

/-- A lock that cannot be taken for writing has a holder. -/
theorem of_tryWrite_none (h : Accounts w writers readers) (hw : RwLock.tryWrite w = none) :
    0 < writers ∨ 0 < readers := by
  unfold RwLock.tryWrite at hw
  split at hw
  · cases hw
  · unfold Accounts at h
    omega

/-- A lock that cannot be taken for reading has a writer, or is full. -/
theorem of_tryRead_none (h : Accounts w writers readers) (hw : RwLock.tryRead limit w = none) :
    0 < writers ∨ limit ≤ readers := by
  unfold RwLock.tryRead at hw
  split at hw
  · cases hw
  · unfold Accounts at h
    omega

end Accounts

/-! ## Tables -/

variable {κ : Type} [DecidableEq κ] {tbl : κ → Int}

def lockRead (limit : Int) (tbl : κ → Int) (k : κ) : Option (κ → Int) :=
  (tryRead limit (tbl k)).map (update tbl k)

def lockWrite (tbl : κ → Int) (k : κ) : Option (κ → Int) :=
  (tryWrite (tbl k)).map (update tbl k)

def unlock (tbl : κ → Int) (k : κ) : κ → Int :=
  update tbl k (release (tbl k))

/-- A party goes from holding `wr` and `rd` for writing and reading to holding `wr'` and `rd'`,
and the table follows. -/
def Keeps (tbl tbl' : κ → Int) (wr rd wr' rd' : List κ) : Prop :=
  ∀ writers readers : κ → Nat,
    (∀ x, Accounts (tbl x) (writers x + wr.count x) (readers x + rd.count x)) →
    ∀ x, Accounts (tbl' x) (writers x + wr'.count x) (readers x + rd'.count x)

namespace Keeps
variable {limit : Int} {tbl tbl' : κ → Int} {wr rd wr' rd' : List κ} {k : κ}

theorem refl : Keeps tbl tbl wr rd wr rd := fun _ _ h => h

/-- Only how often a lock is held counts. -/
theorem of_perm (hwr : wr.Perm wr') (hrd : rd.Perm rd') : Keeps tbl tbl wr rd wr' rd' := by
  intro writers readers h x
  rw [← hwr.count_eq x, ← hrd.count_eq x]
  exact h x

/-- The word of one lock changes, and with it the holders of that lock. -/
theorem update {w : Int}
    (hself : ∀ writers readers, Accounts (tbl k) (writers + wr.count k) (readers + rd.count k) →
      Accounts w (writers + wr'.count k) (readers + rd'.count k))
    (hwr : ∀ x, x ≠ k → wr'.count x = wr.count x) (hrd : ∀ x, x ≠ k → rd'.count x = rd.count x) :
    Keeps tbl (update tbl k w) wr rd wr' rd' := by
  intro writers readers h x
  by_cases hx : x = k
  · subst hx
    rw [update_self]
    exact hself _ _ (h x)
  · rw [update_of_ne hx, hwr x hx, hrd x hx]
    exact h x

theorem lockWrite (h : RwLock.lockWrite tbl k = some tbl') :
    Keeps tbl tbl' wr rd (wr ++ [k]) rd := by
  obtain ⟨w, hw, rfl⟩ := Option.map_eq_some_iff.mp h
  refine update (fun writers readers ha => ?_) (fun x hx => ?_) fun _ _ => rfl
  · rw [count_append, count_singleton_self]
    exact ha.tryWrite hw
  · rw [count_append, count_singleton, if_neg (by simpa using hx.symm), add_zero]

theorem lockRead (h : RwLock.lockRead limit tbl k = some tbl') :
    Keeps tbl tbl' wr rd wr (rd ++ [k]) := by
  obtain ⟨w, hw, rfl⟩ := Option.map_eq_some_iff.mp h
  refine update (fun writers readers ha => ?_) (fun _ _ => rfl) fun x hx => ?_
  · rw [count_append, count_singleton_self]
    exact ha.tryRead hw
  · rw [count_append, count_singleton, if_neg (by simpa using hx.symm), add_zero]

theorem unlockWrite (h : wr.Perm (k :: wr')) : Keeps tbl (unlock tbl k) wr rd wr' rd := by
  refine update (fun writers readers ha => ?_) (fun x hx => ?_) fun _ _ => rfl
  · rw [h.count_eq, count_cons_self] at ha
    exact ha.releaseWrite
  · rw [h.count_eq, count_cons_of_ne hx.symm]

theorem unlockRead (h : rd.Perm (k :: rd')) : Keeps tbl (unlock tbl k) wr rd wr rd' := by
  refine update (fun writers readers ha => ?_) (fun _ _ => rfl) fun x hx => ?_
  · rw [h.count_eq, count_cons_self] at ha
    exact ha.releaseRead
  · rw [h.count_eq, count_cons_of_ne hx.symm]

end Keeps

/-! ## Locks taken in ascending order -/

/-- If whoever waits for a lock waits for one that is held by somebody who waits for a larger
one, then nobody waits. -/
theorem eq_nil_of_larger [LinearOrder κ] {waited : List κ}
    (h : ∀ k ∈ waited, ∃ k' ∈ waited, k < k') : waited = [] := by
  by_contra hne
  obtain ⟨k, hk, hmax⟩ := waited.toFinset.exists_max_image id (by rwa [toFinset_nonempty_iff])
  obtain ⟨k', hk', hlt⟩ := h k (mem_toFinset.mp hk)
  exact absurd (hmax k' (mem_toFinset.mpr hk')) (not_le.mpr hlt)

end RwLock
end PipeANN
