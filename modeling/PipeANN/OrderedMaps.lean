import Mathlib.Data.List.Sort

/-! # Ordered maps to lists

`std::map<K, std::vector<V>>` as the list of its entries by ascending key: `push` appends a
value to the list of a key, `range lo hi` are the entries an iterator passes from
`lower_bound(lo)` on as long as the key is below `hi`; without `lo` it starts at the
beginning, without `hi` it goes to the end.

`push_spec` says that the keys stay ascending and that one pair is added,
`values_range` that a range has the values of the keys between its ends.
-/
namespace OrderedMap
open List Function

variable {κ ι : Type} [LinearOrder κ] {m : List (κ × List ι)}

/-- `map[key].push_back(value)`. -/
def push (key : κ) (value : ι) : List (κ × List ι) → List (κ × List ι)
  | [] => [(key, [value])]
  | (k, vs) :: rest =>
    if key < k then (key, [value]) :: (k, vs) :: rest
    else if k < key then (k, vs) :: push key value rest
    else (k, vs ++ [value]) :: rest

/-- The key is not before `lo`. -/
def atLeast (lo : Option κ) (key : κ) : Bool := lo.all fun l => l ≤ key

/-- The key is before `hi`. -/
def isBelow (hi : Option κ) (key : κ) : Bool := hi.all fun h => key < h

/-- The key is in the range from `lo` on and below `hi`. -/
def inRange (lo hi : Option κ) (key : κ) : Bool := atLeast lo key && isBelow hi key

/-- The entries from `lo` on and below `hi`. -/
def range (lo hi : Option κ) (m : List (κ × List ι)) : List (κ × List ι) :=
  (m.dropWhile fun p => !atLeast lo p.1).takeWhile fun p => isBelow hi p.1

theorem atLeast_some {lo key : κ} : atLeast (some lo) key ↔ lo ≤ key := decide_eq_true_iff

theorem isBelow_some {hi key : κ} : isBelow (some hi) key ↔ key < hi := decide_eq_true_iff

theorem inRange_iff {lo hi : Option κ} {key : κ} :
    inRange lo hi key ↔ atLeast lo key ∧ isBelow hi key :=
  Bool.and_eq_true_iff

theorem atLeast_mono {lo : Option κ} {a b : κ} (hab : a ≤ b) (h : atLeast lo a) : atLeast lo b := by
  cases lo with
  | none => rfl
  | some l => exact atLeast_some.mpr ((atLeast_some.mp h).trans hab)

theorem isBelow_mono {hi : Option κ} {a b : κ} (hab : a ≤ b) (h : isBelow hi b) : isBelow hi a := by
  cases hi with
  | none => rfl
  | some k => exact isBelow_some.mpr (hab.trans_lt (isBelow_some.mp h))

/-- The pairs of a key and one of its values. -/
def entries (m : List (κ × List ι)) : List (κ × ι) := m.flatMap fun p => p.2.map fun v => (p.1, v)

/-- The keys are ascending. -/
def Keyed (m : List (κ × List ι)) : Prop := (m.map Prod.fst).Pairwise (· < ·)

theorem keyed_nil : Keyed ([] : List (κ × List ι)) := Pairwise.nil

theorem Keyed.tail {p : κ × List ι} (h : Keyed (p :: m)) : Keyed m :=
  (pairwise_cons.mp h).2

theorem Keyed.head_lt {p q : κ × List ι} (h : Keyed (p :: m)) (hq : q ∈ m) : p.1 < q.1 :=
  (pairwise_cons.mp h).1 q.1 (mem_map_of_mem hq)

theorem keys_push (key : κ) (value : ι) : ∀ (m : List (κ × List ι)),
    ∀ k ∈ (push key value m).map Prod.fst, k = key ∨ k ∈ m.map Prod.fst
  | [], k, hk => .inl (mem_singleton.mp hk)
  | (k', vs) :: rest, k, hk => by
    rw [push] at hk
    split at hk
    · exact mem_cons.mp hk
    · split at hk
      · rcases mem_cons.mp hk with rfl | hk
        · exact .inr mem_cons_self
        · exact (keys_push key value rest k hk).imp_right (mem_cons_of_mem _)
      · exact .inr hk

/-- **A push** keeps the keys ascending and adds one pair. -/
theorem push_spec (key : κ) (value : ι) : ∀ {m : List (κ × List ι)}, Keyed m →
    Keyed (push key value m) ∧ (entries (push key value m)).Perm ((key, value) :: entries m)
  | [], _ => ⟨pairwise_singleton _ _, Perm.refl _⟩
  | (k, vs) :: rest, h => by
    obtain ⟨hhead, htail⟩ := pairwise_cons.mp h
    rw [push]
    split
    · next hlt =>
      refine ⟨pairwise_cons.mpr ⟨fun k' hk' => ?_, h⟩, Perm.refl _⟩
      rcases mem_cons.mp hk' with rfl | hk'
      · exact hlt
      · exact hlt.trans (hhead k' hk')
    · split
      · next hgt =>
        obtain ⟨hasc, hperm⟩ := push_spec key value htail
        refine ⟨pairwise_cons.mpr ⟨fun k' hk' => ?_, hasc⟩, ?_⟩
        · rcases keys_push key value rest k' hk' with rfl | hk'
          · exact hgt
          · exact hhead k' hk'
        · exact (hperm.append_left _).trans perm_middle
      · next hge hle =>
        obtain rfl : key = k := le_antisymm (not_lt.mp hle) (not_lt.mp hge)
        refine ⟨h, ?_⟩
        show ((vs ++ [value]).map (fun v => (key, v)) ++ entries rest).Perm _
        rw [map_append, append_assoc]
        exact perm_middle

theorem takeWhile_isBelow (hi : Option κ) : ∀ {m : List (κ × List ι)}, Keyed m →
    m.takeWhile (fun p => isBelow hi p.1) = m.filter fun p => isBelow hi p.1
  | [], _ => rfl
  | p :: rest, h => by
    by_cases hp : isBelow hi p.1
    · rw [takeWhile_cons, filter_cons, if_pos hp, if_pos hp, takeWhile_isBelow hi h.tail]
    · rw [takeWhile_cons, if_neg hp, eq_comm, filter_eq_nil_iff]
      intro q hq hqb
      rcases mem_cons.mp hq with rfl | hq
      · exact hp hqb
      · exact hp (isBelow_mono (h.head_lt hq).le hqb)

/-- What an iterator passes between two keys. -/
theorem range_eq_filter (lo hi : Option κ) : ∀ {m : List (κ × List ι)}, Keyed m →
    range lo hi m = m.filter fun p => inRange lo hi p.1
  | [], _ => rfl
  | p :: rest, h => by
    cases hp : atLeast lo p.1 with
    | false =>
      rw [range, dropWhile_cons_of_pos (by rw [hp]; rfl), filter_cons_of_neg]
      · exact range_eq_filter lo hi h.tail
      · rw [inRange, hp]
        exact Bool.false_ne_true
    | true =>
      -- the keys are at least `lo` from here on
      have hall : ∀ q ∈ p :: rest, atLeast lo q.1 := by
        intro q hq
        rcases mem_cons.mp hq with rfl | hq
        · exact hp
        · exact atLeast_mono (h.head_lt hq).le hp
      rw [range, dropWhile_cons_of_neg (by rw [hp]; exact Bool.false_ne_true),
        takeWhile_isBelow hi h]
      apply filter_congr
      intro q hq
      rw [inRange, hall q hq, Bool.true_and]

omit [LinearOrder κ] in
theorem values_filter (q : κ → Bool) (m : List (κ × List ι)) :
    (m.filter fun p => q p.1).flatMap Prod.snd =
      ((entries m).filter fun e => q e.1).map Prod.snd := by
  induction m with
  | nil => rfl
  | cons p rest ih =>
    have hhead : (p.2.map fun v => (p.1, v)).filter (fun e => q e.1) =
        if q p.1 then p.2.map fun v => (p.1, v) else [] := by
      split
      · next h => simp [h]
      · next h => simp [h]
    rw [entries, flatMap_cons, filter_append, map_append, hhead, ← entries, ← ih]
    cases hq : q p.1 with
    | true =>
      rw [filter_cons, if_pos hq]
      simp
    | false =>
      rw [filter_cons_of_neg (by rw [hq]; exact Bool.false_ne_true)]
      rfl

/-- **The values of a range** are those of the keys between its ends. -/
theorem values_range (lo hi : Option κ) (h : Keyed m) : (range lo hi m).flatMap Prod.snd =
      ((entries m).filter fun e => inRange lo hi e.1).map Prod.snd := by
  rw [range_eq_filter lo hi h]
  exact values_filter (inRange lo hi) m

end OrderedMap
