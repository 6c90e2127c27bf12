import Mathlib.Data.List.Sort
import Mathlib.Data.List.Dedup

/-! # Operations on ascending lists

Sets kept as ascending lists: union and intersection by one pass over both lists,
lookup by binary search, and sorting with removal of duplicates.  The two passes
advance in the list with the smaller head; they are written so that the recursion
is structural (the inner loop walks the second list, and continues with the tail
of the first through `k`), which lets them be evaluated.

Each operation has one lemma: on ascending lists it is the set operation it is
named after, and its result is ascending.  The lemmas hold for strictly ascending
lists and for lists with repetitions alike: "ascending" is pairwise ordered by any
relation between `<` and `≤`.
-/
namespace SortedLists
open List

variable {α : Type} [LinearOrder α]

/-- Strictly ascending. -/
def Ascending (l : List α) : Prop := l.Pairwise (· < ·)

/-- A relation that is `<`, or `≤`, or between the two. -/
structure Between (r : α → α → Prop) : Prop where
  of_lt : ∀ {a b}, a < b → r a b
  le : ∀ {a b}, r a b → a ≤ b

theorem between_lt : Between (α := α) (· < ·) := ⟨fun h => h, fun h => h.le⟩

theorem between_le : Between (α := α) (· ≤ ·) := ⟨fun h => h.le, fun h => h⟩

/-- The pass of `union` while `a` is the head of the first list and `k` continues
with the rest of it. -/
def unionLoop (a : α) (as : List α) (k : List α → List α) : List α → List α
  | [] => a :: as
  | b :: bs =>
    if a < b then a :: k (b :: bs)
    else if b < a then b :: unionLoop a as k bs
    else a :: k bs

/-- Union of two ascending lists. -/
def union : List α → List α → List α
  | [], bs => bs
  | a :: as, bs => unionLoop a as (union as) bs

/-- The pass of `inter` while `a` is the head of the first list. -/
def interLoop (a : α) (k : List α → List α) : List α → List α
  | [] => []
  | b :: bs =>
    if a < b then k (b :: bs)
    else if b < a then interLoop a k bs
    else a :: k bs

/-- Intersection of two ascending lists. -/
def inter : List α → List α → List α
  | [], _ => []
  | a :: as, bs => interLoop a (inter as) bs

/-! ## Union and intersection -/

variable {r : α → α → Prop}

variable {a : α} {l : List α}

theorem Ascending.tail (h : Ascending (a :: l)) : Ascending l :=
  (pairwise_cons.mp h).2

variable {x y : α}

theorem Ascending.head_lt (h : Ascending (a :: l)) (hx : x ∈ l) : a < x :=
  (pairwise_cons.mp h).1 x hx

/-- What is below the head of one list is before all of it. -/
theorem Between.of_lt_head (hr : Between r) {b : α} {bs : List α} (hb : (b :: bs).Pairwise r)
    (hlt : a < b) (hx : x ∈ b :: bs) : r a x := by
  rcases mem_cons.mp hx with rfl | hx
  · exact hr.of_lt hlt
  · exact hr.of_lt (hlt.trans_le (hr.le ((pairwise_cons.mp hb).1 x hx)))

/-- Nothing below the head of an ascending list is in it. -/
theorem Between.not_mem_of_lt (hr : Between r) {b : α} {bs : List α} (h : (b :: bs).Pairwise r)
    (hx : x < b) : x ∉ b :: bs := by
  intro hm
  rcases mem_cons.mp hm with rfl | hm
  · exact lt_irrefl x hx
  · exact not_lt.mpr (hr.le ((pairwise_cons.mp h).1 x hm)) hx

/-- **Union.** -/
theorem union_spec (hr : Between r) : ∀ {as bs : List α}, as.Pairwise r → bs.Pairwise r →
    (union as bs).Pairwise r ∧ ∀ x, x ∈ union as bs ↔ x ∈ as ∨ x ∈ bs
  | [], bs, _, hb => ⟨hb, fun x => by simp [union]⟩
  | a :: as, bs, ha, hb => by
    obtain ⟨hahead, hatail⟩ := pairwise_cons.mp ha
    show (unionLoop a as (union as) bs).Pairwise r ∧
      ∀ x, x ∈ unionLoop a as (union as) bs ↔ x ∈ a :: as ∨ x ∈ bs
    -- the inner loop, by induction on the second list
    induction bs with
    | nil => exact ⟨ha, fun x => by simp [unionLoop]⟩
    | cons b bs ih =>
      obtain ⟨hbhead, hbtail⟩ := pairwise_cons.mp hb
      unfold unionLoop
      split_ifs with hlt hgt
      · obtain ⟨h1, h2⟩ := union_spec hr hatail hb
        refine ⟨pairwise_cons.mpr ⟨fun x hx => ?_, h1⟩, fun x => ?_⟩
        · exact ((h2 x).mp hx).elim (hahead x) (hr.of_lt_head hb hlt)
        · rw [mem_cons, h2, mem_cons (b := a), or_assoc]
      · obtain ⟨h1, h2⟩ := ih hbtail
        refine ⟨pairwise_cons.mpr ⟨fun x hx => ?_, h1⟩, fun x => ?_⟩
        · exact ((h2 x).mp hx).elim (hr.of_lt_head ha hgt) (hbhead x)
        · rw [mem_cons, h2, mem_cons (b := b), or_left_comm]
      · obtain rfl : a = b := le_antisymm (not_lt.mp hgt) (not_lt.mp hlt)
        obtain ⟨h1, h2⟩ := union_spec hr hatail hbtail
        refine ⟨pairwise_cons.mpr ⟨fun x hx => ?_, h1⟩, fun x => ?_⟩
        · exact ((h2 x).mp hx).elim (hahead x) (hbhead x)
        · rw [mem_cons, h2, mem_cons, mem_cons]
          tauto

/-- **Intersection.** -/
theorem inter_spec (hr : Between r) : ∀ {as bs : List α}, as.Pairwise r → bs.Pairwise r →
    (inter as bs).Pairwise r ∧ ∀ x, x ∈ inter as bs ↔ x ∈ as ∧ x ∈ bs
  | [], bs, _, _ => ⟨Pairwise.nil, fun x => by simp [inter]⟩
  | a :: as, bs, ha, hb => by
    obtain ⟨hahead, hatail⟩ := pairwise_cons.mp ha
    show (interLoop a (inter as) bs).Pairwise r ∧
      ∀ x, x ∈ interLoop a (inter as) bs ↔ x ∈ a :: as ∧ x ∈ bs
    induction bs with
    | nil => exact ⟨Pairwise.nil, fun x => by simp [interLoop]⟩
    | cons b bs ih =>
      have hbtail := (pairwise_cons.mp hb).2
      unfold interLoop
      split_ifs with hlt hgt
      · obtain ⟨h1, h2⟩ := inter_spec hr hatail hb
        refine ⟨h1, fun x => ?_⟩
        rw [h2, mem_cons (b := a)]
        refine and_congr_left fun hx => (or_iff_right ?_).symm
        rintro rfl
        exact hr.not_mem_of_lt hb hlt hx
      · obtain ⟨h1, h2⟩ := ih hbtail
        refine ⟨h1, fun x => ?_⟩
        rw [h2, mem_cons (b := b)]
        refine and_congr_right fun hx => (or_iff_right ?_).symm
        rintro rfl
        exact hr.not_mem_of_lt ha hgt hx
      · obtain rfl : a = b := le_antisymm (not_lt.mp hgt) (not_lt.mp hlt)
        obtain ⟨h1, h2⟩ := inter_spec hr hatail hbtail
        refine ⟨pairwise_cons.mpr ⟨fun x hx => hahead x ((h2 x).mp hx).1, h1⟩, fun x => ?_⟩
        rw [mem_cons, h2, mem_cons, mem_cons]
        tauto

/-- The union of a list of ascending lists, from `acc` on. -/
theorem foldl_union_spec (hr : Between r) (ls : List (List α)) (hls : ∀ l ∈ ls, l.Pairwise r) :
    ∀ {acc : List α}, acc.Pairwise r → (ls.foldl union acc).Pairwise r ∧
      ∀ x, x ∈ ls.foldl union acc ↔ x ∈ acc ∨ ∃ l ∈ ls, x ∈ l := by
  induction ls with
  | nil => exact fun hacc => ⟨hacc, fun x => by simp⟩
  | cons l ls ih =>
    intro acc hacc
    obtain ⟨h1, h2⟩ := union_spec hr hacc (hls l mem_cons_self)
    obtain ⟨h3, h4⟩ := ih (fun l hl => hls l (mem_cons_of_mem _ hl)) h1
    refine ⟨h3, fun x => ?_⟩
    rw [foldl_cons, h4, h2, exists_mem_cons_iff, or_assoc]

/-- The intersection of a list of ascending lists, from `acc` on. -/
theorem foldl_inter_spec (hr : Between r) (ls : List (List α)) (hls : ∀ l ∈ ls, l.Pairwise r) :
    ∀ {acc : List α}, acc.Pairwise r → (ls.foldl inter acc).Pairwise r ∧
      ∀ x, x ∈ ls.foldl inter acc ↔ x ∈ acc ∧ ∀ l ∈ ls, x ∈ l := by
  induction ls with
  | nil => exact fun hacc => ⟨hacc, fun x => by simp⟩
  | cons l ls ih =>
    intro acc hacc
    obtain ⟨h1, h2⟩ := inter_spec hr hacc (hls l mem_cons_self)
    obtain ⟨h3, h4⟩ := ih (fun l hl => hls l (mem_cons_of_mem _ hl)) h1
    refine ⟨h3, fun x => ?_⟩
    rw [foldl_cons, h4, h2, forall_mem_cons, and_assoc]

/-! ## Sorting without duplicates -/

/-- `std::unique`: drops every element that is equal to the one before it. -/
def unique : List α → List α
  | [] => []
  | [a] => [a]
  | a :: b :: l => if a = b then unique (b :: l) else a :: unique (b :: l)

/-- `std::sort` followed by `std::unique`. -/
def sortUnique (l : List α) : List α := unique (l.insertionSort (· ≤ ·))

theorem unique_spec : ∀ {l : List α}, l.Pairwise (· ≤ ·) →
    Ascending (unique l) ∧ ∀ x, x ∈ unique l ↔ x ∈ l
  | [], _ => ⟨Pairwise.nil, fun _ => Iff.rfl⟩
  | [a], _ => ⟨pairwise_singleton _ a, fun _ => Iff.rfl⟩
  | a :: b :: l, h => by
    obtain ⟨hhead, htail⟩ := pairwise_cons.mp h
    obtain ⟨h1, h2⟩ := unique_spec htail
    rw [unique]
    split
    · next hab =>
      subst hab
      exact ⟨h1, fun x => by rw [h2]; simp⟩
    · next hab =>
      have hlt : a < b := lt_of_le_of_ne (hhead b mem_cons_self) hab
      refine ⟨pairwise_cons.mpr ⟨fun x hx => ?_, h1⟩, fun x => ?_⟩
      · rcases mem_cons.mp ((h2 x).mp hx) with rfl | hx
        · exact hlt
        · exact hlt.trans_le ((pairwise_cons.mp htail).1 x hx)
      · rw [mem_cons, h2, mem_cons (b := a)]

/-- **Sorting without duplicates** gives the ascending list of the elements. -/
theorem sortUnique_spec (l : List α) :
    Ascending (sortUnique l) ∧ ∀ x, x ∈ sortUnique l ↔ x ∈ l := by
  obtain ⟨h1, h2⟩ := unique_spec (pairwise_insertionSort (· ≤ ·) l)
  exact ⟨h1, fun x => by rw [sortUnique, h2, mem_insertionSort]⟩

theorem length_sortUnique (l : List α) : (sortUnique l).length = l.dedup.length := by
  obtain ⟨h1, h2⟩ := sortUnique_spec l
  apply Perm.length_eq
  apply (perm_ext_iff_of_nodup (h1.imp fun h => h.ne) l.nodup_dedup).mpr
  exact fun x => by rw [h2, mem_dedup]

theorem insertionSort_congr {l' : List α} (h : l.Perm l') :
    l.insertionSort (· ≤ ·) = l'.insertionSort (· ≤ ·) :=
  Perm.eq_of_pairwise' (pairwise_insertionSort _ _) (pairwise_insertionSort _ _)
    ((perm_insertionSort _ _).trans (h.trans (perm_insertionSort _ _).symm))

/-! ## Binary search -/

/-- The loop of `std::lower_bound`, halving the range of length `len` that starts
at `first`; `fuel` bounds the number of rounds. -/
def lowerBoundLoop (l : List α) (x : α) : Nat → Nat → Nat → Nat
  | 0, first, _ => first
  | fuel + 1, first, len =>
    if len = 0 then first
    else
      let half := len / 2
      match l[first + half]? with
      | some y =>
        if y < x then lowerBoundLoop l x fuel (first + half + 1) (len - half - 1)
        else lowerBoundLoop l x fuel first half
      | none => first

/-- `std::lower_bound`: the first position whose element is not less than `x`. -/
def lowerBound (l : List α) (x : α) : Nat := lowerBoundLoop l x l.length 0 l.length

/-- `std::binary_search`. -/
def binarySearch (l : List α) (x : α) : Bool :=
  match l[lowerBound l x]? with
  | some y => !decide (x < y)
  | none => false

theorem lowerBoundLoop_le (l : List α) (x : α) (fuel first len : Nat) :
    lowerBoundLoop l x fuel first len ≤ first + len := by
  fun_induction lowerBoundLoop l x fuel first len <;> omega

theorem lowerBound_le (l : List α) (x : α) : lowerBound l x ≤ l.length := by
  have := lowerBoundLoop_le l x l.length 0 l.length
  rwa [Nat.zero_add] at this

section
variable (hr : Between r) (hl : l.Pairwise r)
include hr hl

theorem Between.mono {i j : Nat} {y z : α}
    (hi : l[i]? = some y) (hj : l[j]? = some z) (hij : i ≤ j) : y ≤ z := by
  obtain ⟨hi', rfl⟩ := List.getElem?_eq_some_iff.mp hi
  obtain ⟨hj', rfl⟩ := List.getElem?_eq_some_iff.mp hj
  rcases eq_or_lt_of_le hij with rfl | hij
  · exact le_refl _
  · exact hr.le (pairwise_iff_getElem.mp hl i j hi' hj' hij)

/-- The loop keeps what is before its range below `x` and what is after it not. -/
theorem lowerBoundLoop_spec (x : α) (fuel first len : Nat) (hlen : len ≤ fuel)
    (hle : first + len ≤ l.length) (hlo : ∀ i y, l[i]? = some y → i < first → y < x)
    (hhi : ∀ i y, l[i]? = some y → first + len ≤ i → ¬ y < x) :
    (∀ i y, l[i]? = some y → i < lowerBoundLoop l x fuel first len → y < x) ∧
      ∀ i y, l[i]? = some y → lowerBoundLoop l x fuel first len ≤ i → ¬ y < x := by
  fun_induction lowerBoundLoop l x fuel first len with
  | case1 first len =>
    obtain rfl : len = 0 := by omega
    exact ⟨hlo, hhi⟩
  | case2 fuel first => exact ⟨hlo, hhi⟩
  | case3 fuel first len hz half z hget hlt ih =>
    refine ih (by omega) (by omega) (fun i y hy hi => ?_) fun i y hy hi => hhi i y hy (by omega)
    exact (hr.mono hl hy hget (by omega)).trans_lt hlt
  | case4 fuel first len hz half z hget hge ih =>
    refine ih (by omega) (by omega) hlo fun i y hy hi hlt => hge ?_
    exact (hr.mono hl hget hy hi).trans_lt hlt
  | case5 fuel first len hz half hget =>
    have := getElem?_eq_none_iff.mp hget
    omega

/-- **The lower bound** separates the elements below `x` from the others. -/
theorem lt_lowerBound_iff {i : Nat} (hi : l[i]? = some y) : i < lowerBound l x ↔ y < x := by
  obtain ⟨hlo, hhi⟩ := lowerBoundLoop_spec hr hl x l.length 0 l.length le_rfl (by omega)
    (fun i y _ h => absurd h (Nat.not_lt_zero i))
    (fun i y hy h => absurd (List.getElem?_eq_some_iff.mp hy).1 (by omega))
  constructor
  · exact hlo i y hi
  · intro hlt
    by_contra hge
    exact hhi i y hi (not_lt.mp hge) hlt

/-- **Binary search** on an ascending list decides membership. -/
theorem binarySearch_iff (x : α) : binarySearch l x ↔ x ∈ l := by
  unfold binarySearch
  constructor
  · intro h
    split at h
    · next y hy =>
      have hle : ¬ x < y := by simpa using h
      have hge : ¬ y < x := fun hlt => lt_irrefl _ ((lt_lowerBound_iff hr hl hy).mpr hlt)
      exact le_antisymm (not_lt.mp hle) (not_lt.mp hge) ▸ mem_of_getElem? hy
    · cases h
  · intro hx
    obtain ⟨i, hi⟩ := mem_iff_getElem?.mp hx
    have hge := not_lt.mp fun hlt => lt_irrefl x ((lt_lowerBound_iff hr hl hi).mp hlt)
    obtain ⟨hi', rfl⟩ := List.getElem?_eq_some_iff.mp hi
    rw [getElem?_eq_getElem (hge.trans_lt hi')]
    simpa using hr.mono hl (getElem?_eq_getElem (hge.trans_lt hi')) hi hge

/-! ## Positions -/

/-- The lower bound is the only position that separates them. -/
theorem lowerBound_unique {k : Nat}
    (hk : k ≤ l.length) (h : ∀ i y, l[i]? = some y → (i < k ↔ y < x)) : lowerBound l x = k := by
  have hle := lowerBound_le l x
  have hsame : ∀ i < l.length, i < lowerBound l x ↔ i < k := fun i hi => by
    have hget := getElem?_eq_getElem hi
    rw [lt_lowerBound_iff hr hl hget, h i _ hget]
  rcases lt_trichotomy (lowerBound l x) k with hlt | heq | hgt
  · exact absurd ((hsame (lowerBound l x) (by omega)).mpr hlt) (lt_irrefl _)
  · exact heq
  · exact absurd ((hsame k (by omega)).mp hgt) (lt_irrefl _)

theorem lowerBound_mono (hxy : x ≤ y) : lowerBound l x ≤ lowerBound l y := by
  by_contra hlt
  have hlen := lowerBound_le l x
  have hget := getElem?_eq_getElem (show lowerBound l y < l.length by omega)
  have hx := (lt_lowerBound_iff hr hl hget).mp (not_le.mp hlt)
  exact absurd ((lt_lowerBound_iff hr hl hget).mpr (hx.trans_le hxy)) (lt_irrefl _)

/-- The lower bound in a segment of the list. -/
theorem lowerBound_segment (x : α) {b e : Nat} (hbe : b ≤ e) (he : e ≤ l.length) :
    lowerBound ((l.take e).drop b) x = min (lowerBound l x) e - b := by
  apply lowerBound_unique hr ((hl.sublist (take_sublist _ _)).sublist (drop_sublist _ _))
  · rw [length_drop, length_take]
    omega
  · intro i y hi
    rw [getElem?_drop] at hi
    have hlt : b + i < e := by
      have := (List.getElem?_eq_some_iff.mp hi).1
      rw [length_take] at this
      omega
    rw [getElem?_take_of_lt hlt] at hi
    rw [← lt_lowerBound_iff hr hl hi]
    omega

end

/-! ## The upper bound -/

/-- The loop of `std::upper_bound`, on the `len` elements from `first` on. -/
def upperBoundLoop (l : List α) (x : α) : Nat → Nat → Nat → Nat
  | 0, first, _ => first
  | fuel + 1, first, len =>
    if len = 0 then first
    else
      let half := len / 2
      match l[first + half]? with
      | some y =>
        if x < y then upperBoundLoop l x fuel first half
        else upperBoundLoop l x fuel (first + half + 1) (len - half - 1)
      | none => first

/-- `std::upper_bound`: the first position whose element is greater than `x`. -/
def upperBound (l : List α) (x : α) : Nat := upperBoundLoop l x l.length 0 l.length

theorem upperBoundLoop_le (l : List α) (x : α) (fuel first len : Nat) :
    upperBoundLoop l x fuel first len ≤ first + len := by
  fun_induction upperBoundLoop l x fuel first len <;> omega

/-- A position at which the comparison with `x` changes: what is before it is not greater
than `x`, and what is at it is. -/
structure Crossing (l : List α) (x : α) (k : Nat) : Prop where
  le_length : k ≤ l.length
  before : ∀ y, k ≠ 0 → l[k - 1]? = some y → y ≤ x
  atPos : ∀ y, l[k]? = some y → x < y

/-- The loop keeps what stands at the two ends of its range. -/
theorem upperBoundLoop_spec (l : List α) (x : α) (fuel first len : Nat) (hlen : len ≤ fuel)
    (hle : first + len ≤ l.length) (hlo : ∀ y, first ≠ 0 → l[first - 1]? = some y → y ≤ x)
    (hhi : ∀ y, l[first + len]? = some y → x < y) :
    Crossing l x (upperBoundLoop l x fuel first len) := by
  fun_induction upperBoundLoop l x fuel first len with
  | case1 first len =>
    obtain rfl : len = 0 := by omega
    exact ⟨hle, hlo, hhi⟩
  | case2 fuel first => exact ⟨hle, hlo, hhi⟩
  | case3 fuel first len hz half z hget hlt ih =>
    refine ih (by omega) (by omega) hlo fun y hy => ?_
    exact Option.some.inj (hget.symm.trans hy) ▸ hlt
  | case4 fuel first len hz half z hget hge ih =>
    refine ih (by omega) (by omega) (fun y _ hy => ?_) fun y hy => hhi y ?_
    · rw [Nat.add_sub_cancel, hget, Option.some.injEq] at hy
      exact hy ▸ not_lt.mp hge
    · rwa [show first + half + 1 + (len - half - 1) = first + len by omega] at hy
  | case5 fuel first len hz half hget =>
    have := getElem?_eq_none_iff.mp hget
    omega

/-- **The upper bound** is a crossing, in any list.  In an ascending list there is only one. -/
theorem crossing_upperBound (l : List α) (x : α) : Crossing l x (upperBound l x) :=
  upperBoundLoop_spec l x l.length 0 l.length le_rfl (by omega)
    (fun _ h => absurd rfl h) fun y hy => by
      have := (List.getElem?_eq_some_iff.mp hy).1
      omega

/-- In an ascending list the upper bound separates the elements up to `x` from the others. -/
theorem lt_upperBound_iff (hr : Between r) (hl : l.Pairwise r) {i : Nat}
    (hi : l[i]? = some y) : i < upperBound l x ↔ y ≤ x := by
  have hcross := crossing_upperBound l x
  have hlen := (List.getElem?_eq_some_iff.mp hi).1
  constructor
  · intro hlt
    have hk := hcross.le_length
    have hget := getElem?_eq_getElem (show upperBound l x - 1 < l.length by omega)
    exact (hr.mono hl hi hget (by omega)).trans (hcross.before _ (by omega) hget)
  · intro hle
    by_contra hge
    have hget := getElem?_eq_getElem (show upperBound l x < l.length by omega)
    have hgt := hcross.atPos _ hget
    exact absurd (hgt.trans_le (hr.mono hl hget hi (by omega))) (not_lt.mpr hle)

theorem lowerBound_le_upperBound (hr : Between r) (hl : l.Pairwise r) (x : α) :
    lowerBound l x ≤ upperBound l x := by
  by_contra hlt
  have hk : upperBound l x < l.length := by
    have := lowerBound_le l x
    omega
  have hget := getElem?_eq_getElem hk
  have hbelow := (lt_lowerBound_iff hr hl hget).mp (not_le.mp hlt)
  exact absurd ((crossing_upperBound l x).atPos _ hget) hbelow.not_gt

variable {β : Type} {p : β → Bool}

/-- What a predicate selects from a segment when it holds nowhere else. -/
theorem filter_segment {l : List β} {b e : Nat} (h : ∀ i y, l[i]? = some y → p y → b ≤ i ∧ i < e) :
    ((l.take e).drop b).filter p = l.filter p := by
  have hbefore : ((l.take e).take b).filter p = [] := by
    rw [filter_eq_nil_iff]
    intro y hy hp
    obtain ⟨i, hi⟩ := mem_iff_getElem?.mp hy
    rw [take_take, getElem?_take] at hi
    split_ifs at hi
    have := h i y hi hp
    omega
  have hafter : (l.drop e).filter p = [] := by
    rw [filter_eq_nil_iff]
    intro y hy hp
    obtain ⟨i, hi⟩ := mem_iff_getElem?.mp hy
    rw [getElem?_drop] at hi
    have := h (e + i) y hi hp
    omega
  calc ((l.take e).drop b).filter p
      = ((l.take e).take b).filter p ++ ((l.take e).drop b).filter p := by rw [hbefore]; rfl
    _ = (l.take e).filter p := by rw [← filter_append, take_append_drop]
    _ = (l.take e).filter p ++ (l.drop e).filter p := by rw [hafter, append_nil]
    _ = l.filter p := by rw [← filter_append, take_append_drop]

/-- What a predicate selects when it holds on the positions from `a` to `b`. -/
theorem filter_eq_drop_take {l : List β} {a b : Nat}
    (h : ∀ i y, l[i]? = some y → (p y ↔ a ≤ i ∧ i < b)) : l.filter p = (l.take b).drop a := by
  rw [← filter_segment fun i y hi => (h i y hi).mp, filter_eq_self]
  intro y hy
  obtain ⟨i, hi⟩ := mem_iff_getElem?.mp hy
  rw [getElem?_drop, getElem?_take] at hi
  split_ifs at hi with hlt
  exact (h _ y hi).mpr ⟨Nat.le_add_right a i, hlt⟩

/-- Ascending lists of the same elements are equal. -/
theorem Ascending.ext {l' : List α} (h : Ascending l) (h' : Ascending l')
    (hmem : ∀ x, x ∈ l ↔ x ∈ l') : l = l' := by
  apply Perm.eq_of_pairwise' h h'
  exact (perm_ext_iff_of_nodup (h.imp fun h => h.ne) (h'.imp fun h => h.ne)).mpr hmem

/-! ## Sampled lists -/

/-- Every `s`-th element, from the first on. -/
def samples (s : Nat) (l : List α) : List α :=
  (List.range ((l.length + s - 1) / s)).filterMap fun i => l[i * s]?

variable {s : Nat}

omit [LinearOrder α] in
/-- The sample at `i` is the element at `i * s`. -/
theorem getElem?_samples (hs : 0 < s) (l : List α) (i : Nat) : (samples s l)[i]? = l[i * s]? := by
  have hindex : ∀ j, j < (l.length + s - 1) / s ↔ j * s < l.length := fun j => by
    rw [Nat.lt_iff_add_one_le, Nat.le_div_iff_mul_le hs, Nat.succ_mul]
    omega
  -- there is an element at all of these positions
  have hsome : (samples s l).map some =
      (range ((l.length + s - 1) / s)).map fun j => l[j * s]? := by
    rw [samples, map_filterMap_some_eq_filter_map_isSome, filter_eq_self, forall_mem_map]
    intro j hj
    rw [getElem?_eq_getElem ((hindex j).mp (mem_range.mp hj))]
    rfl
  have hget := congrArg (·[i]?) hsome
  simp only [getElem?_map] at hget
  by_cases hi : i < (l.length + s - 1) / s
  · rw [getElem?_range hi] at hget
    obtain ⟨y, hy, heq⟩ := Option.map_eq_some_iff.mp hget
    rw [hy, heq]
  · rw [getElem?_eq_none (l := range _) (by simpa using hi), Option.map_none,
      Option.map_eq_none_iff] at hget
    rw [hget, getElem?_eq_none (not_lt.mp fun hlt => hi ((hindex i).mpr hlt))]

omit [LinearOrder α] in
theorem length_samples (hs : 0 < s) (l : List α) : l.length ≤ (samples s l).length * s := by
  by_contra hlt
  have hget := getElem?_samples hs l (samples s l).length
  rw [getElem?_eq_none le_rfl, getElem?_eq_getElem (not_le.mp hlt)] at hget
  cases hget

theorem pairwise_samples (hr : Between r) (hs : 0 < s)
    (hl : l.Pairwise r) : (samples s l).Pairwise (· ≤ ·) := by
  rw [pairwise_iff_getElem]
  intro i j hi hj hij
  have hgi := getElem?_samples hs l i
  have hgj := getElem?_samples hs l j
  rw [getElem?_eq_getElem hi] at hgi
  rw [getElem?_eq_getElem hj] at hgj
  exact hr.mono hl hgi.symm hgj.symm (Nat.mul_le_mul_right s hij.le)

/-- **The lower bound among the samples** is the lower bound in the list, in steps of `s`
and rounded up. -/
theorem lowerBound_samples (hr : Between r) (hs : 0 < s) (hl : l.Pairwise r) (x : α) :
    lowerBound l x ≤ lowerBound (samples s l) x * s ∧ (lowerBound (samples s l) x = 0 ∨
        (lowerBound (samples s l) x - 1) * s < lowerBound l x) := by
  have hsorted := pairwise_samples hr hs hl
  generalize hk : lowerBound (samples s l) x = k
  have hle : k ≤ (samples s l).length := hk ▸ lowerBound_le _ _
  constructor
  · rcases eq_or_lt_of_le hle with rfl | hlt
    · exact (lowerBound_le l x).trans (length_samples hs l)
    · have hget := getElem?_eq_getElem hlt
      have hget' := hget
      rw [getElem?_samples hs] at hget'
      by_contra hgt
      have hbelow := (lt_lowerBound_iff hr hl hget').mp (not_le.mp hgt)
      have := (lt_lowerBound_iff between_le hsorted hget).mpr hbelow
      omega
  · rcases Nat.eq_zero_or_pos k with rfl | hpos
    · exact .inl rfl
    · have hget := getElem?_eq_getElem (show k - 1 < (samples s l).length by omega)
      have hbelow := (lt_lowerBound_iff between_le hsorted (x := x) hget).mp (by omega)
      rw [getElem?_samples hs] at hget
      exact .inr ((lt_lowerBound_iff hr hl hget).mpr hbelow)

end SortedLists
