import Mathlib.Data.List.Induction
import Mathlib.Data.List.Nodup
import Mathlib.Data.List.Perm.Basic
import Mathlib.Order.Nat

/-! # A sliding write buffer

Items with ids `0 … n-1` are produced in rounds, in some order, and written to disk in
the order of their ids, in batches.  Between the two is a buffer of two batches: item
`id` is put in slot `id % (2 * batch)`; after each round one batch is written back if a
whole batch of items has been produced beyond what is on disk, and after the last round
the rest is written back.

The buffer counts the produced items, it does not check which ids they have.  So a slot
may be written back before its item is there, and an item may overwrite another one that
is not on disk yet.  `run_correct_iff` says exactly when neither happens: at the end of
every round but the last, the ids that are on disk have been produced, and no produced
id lies two batches or more above the ids that were on disk at the end of the round
before.
-/
namespace SlidingWindow
open List Function Nat

variable {γ : Type}

/-- The buffer, the number of items on disk and produced, and the disk. -/
structure State (γ : Type) where
  buf : Nat → Option γ
  flushed : Nat
  used : Nat
  disk : Nat → Option γ

/-- Nothing produced. -/
def empty : State γ := ⟨fun _ => none, 0, 0, fun _ => none⟩

/-- An item is put in its slot. -/
def fill (batch : Nat) (s : State γ) (id : Nat) (item : γ) : State γ :=
  { s with buf := update s.buf (id % (2 * batch)) (some item), used := s.used + 1 }

/-- One half of the buffer is written to disk. -/
def writeBack (batch : Nat) (s : State γ) : State γ :=
  let start := s.flushed % (2 * batch) / batch * batch
  let delta := min batch (s.used - s.flushed)
  { s with
    disk := fun id =>
      if s.flushed ≤ id ∧ id < s.flushed + delta then s.buf (start + (id - s.flushed))
      else s.disk id
    flushed := s.flushed + delta }

/-- The end of a round. -/
def endRound (batch : Nat) (s : State γ) : State γ :=
  if batch ≤ s.used - s.flushed then writeBack batch s else s

/-- After the last round. -/
def drain (batch : Nat) : Nat → State γ → State γ
  | 0, s => s
  | fuel + 1, s => if s.flushed < s.used then drain batch fuel (writeBack batch s) else s

variable (batch : Nat) (item : Nat → γ)

/-- One round: the items of the given ids are produced in this order. -/
def round (s : State γ) (ids : List Nat) : State γ :=
  endRound batch (ids.foldl (fun s id => fill batch s id (item id)) s)

/-- All rounds. -/
def run (rounds : List (List Nat)) : State γ :=
  let s := rounds.foldl (round batch item) empty
  drain batch s.used s

/-! ## The last item of a slot -/

/-- The last id of a list that has the slot of `id`. -/
def lastIn (size : Nat) (ids : List Nat) (id : Nat) : Option Nat :=
  (ids.filter fun x => x % size = id % size).getLast?

/-- In a list without repetitions, the last element with a property is the one with the
largest position. -/
theorem getLast?_filter_eq_some_iff {p : Nat → Bool} {a : Nat} {l : List Nat} (hl : l.Nodup) :
    (l.filter p).getLast? = some a ↔
      a ∈ l ∧ p a ∧ ∀ x ∈ l, p x → l.idxOf x ≤ l.idxOf a := by
  induction l using reverseRecOn with
  | nil => simp
  | append_singleton l b ih =>
    obtain ⟨hnd, -, hdisj⟩ := nodup_append.mp hl
    have hb : b ∉ l := fun h => hdisj b h b (mem_singleton_self b) rfl
    have hidxb : (l ++ [b]).idxOf b = l.length := by
      rw [idxOf_append_of_notMem hb, idxOf_cons_self, Nat.add_zero]
    have hidx : ∀ x ∈ l, (l ++ [b]).idxOf x = l.idxOf x ∧ l.idxOf x < l.length := fun x hx =>
      ⟨idxOf_append_of_mem hx, idxOf_lt_length_of_mem hx⟩
    have hlast : ((l ++ [b]).filter p).getLast? =
        if p b then some b else (l.filter p).getLast? := by
      split_ifs with hpb <;> simp [hpb]
    simp only [hlast, mem_append, mem_singleton, or_imp, forall_and, forall_eq, hidxb]
    rw [forall₂_congr fun x hx => by rw [(hidx x hx).1]]
    split_ifs with hpb
    · constructor
      · rintro ⟨⟩
        exact ⟨.inr rfl, hpb, fun x hx _ => hidxb ▸ (hidx x hx).2.le, fun _ => hidxb.ge⟩
      · rintro ⟨ha | rfl, -, -, hle⟩
        · have hlt := hidx a ha
          have hge := hle hpb
          omega
        · rfl
    · rw [ih hnd]
      constructor
      · rintro ⟨ha, hpa, hmax⟩
        rw [(hidx a ha).1]
        exact ⟨.inl ha, hpa, hmax, fun h => absurd h hpb⟩
      · rintro ⟨ha | rfl, hpa, hmax, -⟩
        · exact ⟨ha, hpa, (hidx a ha).1 ▸ hmax⟩
        · exact absurd hpa hpb

/-- Filling the slots leaves in each the last item for it. -/
theorem buf_foldl_fill (ids : List Nat) (s : State γ) (p : Nat) :
    (ids.foldl (fun s id => fill batch s id (item id)) s).buf p =
      (((ids.filter fun x => x % (2 * batch) = p).getLast?).map item).or (s.buf p) := by
  induction ids using reverseRecOn with
  | nil => rfl
  | append_singleton ids b ih =>
    rw [foldl_append, foldl_cons, foldl_nil]
    refine (update_apply ..).trans ?_
    by_cases hb : b % (2 * batch) = p
    · simp [hb]
    · simp [hb, ih, Ne.symm hb]

theorem foldl_fill_fields (ids : List Nat) (s : State γ) :
    (ids.foldl (fun s id => fill batch s id (item id)) s).used = s.used + ids.length ∧
      (ids.foldl (fun s id => fill batch s id (item id)) s).flushed = s.flushed ∧
      (ids.foldl (fun s id => fill batch s id (item id)) s).disk = s.disk := by
  induction ids generalizing s with
  | nil => exact ⟨rfl, rfl, rfl⟩
  | cons id ids ih =>
    obtain ⟨h1, h2, h3⟩ := ih (fill batch s id (item id))
    exact ⟨h1.trans (Nat.add_right_comm ..), h2, h3⟩

/-! ## What is on disk after a run -/

section Run
variable (batch : Nat) (item : Nat → γ) (rounds : List (List Nat))

/-- The number of items produced in the first `k` rounds. -/
def produced (k : Nat) : Nat := (rounds.take k).flatten.length

/-- The number of items on disk after `k` rounds: the whole batches of what was
produced. -/
def onDisk (k : Nat) : Nat := batch * (produced rounds k / batch)

variable {batch} {item} {rounds}

variable {k : Nat}

theorem take_succ_flatten (hk : k < rounds.length) :
    (rounds.take (k + 1)).flatten = (rounds.take k).flatten ++ rounds[k] := by
  rw [take_succ_eq_append_getElem hk, flatten_append, flatten_singleton]

theorem produced_succ (hk : k < rounds.length) :
    produced rounds (k + 1) = produced rounds k + rounds[k].length := by
  rw [produced, take_succ_flatten hk, length_append, produced]

theorem onDisk_le (batch : Nat) (rounds : List (List Nat)) (k : Nat) :
    onDisk batch rounds k ≤ produced rounds k :=
  mul_div_le _ _

theorem lt_onDisk_add (hb : 0 < batch) (rounds : List (List Nat)) (k : Nat) :
    produced rounds k < onDisk batch rounds k + batch := by
  exact lt_mul_div_succ _ hb

/-- One batch is written back when it is complete. -/
theorem onDisk_succ (hb : 0 < batch) (hk : k < rounds.length)
    (hlen : rounds[k].length ≤ batch) : onDisk batch rounds (k + 1) =
      if batch ≤ produced rounds (k + 1) - onDisk batch rounds k then onDisk batch rounds k + batch
      else onDisk batch rounds k := by
  have h1 := onDisk_le batch rounds k
  have h2 := lt_onDisk_add hb rounds k
  have h3 := produced_succ hk
  have hdiv : ∀ q, batch * q ≤ produced rounds (k + 1) →
      produced rounds (k + 1) < batch * q + batch → onDisk batch rounds (k + 1) = batch * q := by
    intro q hlo hhi
    rw [onDisk, Nat.div_eq_of_lt_le (by rwa [Nat.mul_comm]) (by rwa [Nat.mul_comm])]
  have hnext : batch * (produced rounds k / batch + 1) = onDisk batch rounds k + batch :=
    mul_succ _ _
  split
  · rw [hdiv (produced rounds k / batch + 1) (by omega) (by omega), hnext]
  · exact hdiv (produced rounds k / batch) (by unfold onDisk at *; omega)
      (by unfold onDisk at *; omega)

variable {j : Nat}

theorem flatten_take_le (rounds : List (List Nat)) (h : j ≤ k) :
    (rounds.take j).flatten <+: (rounds.take k).flatten := by
  obtain ⟨t, ht⟩ := take_prefix_take_left h
  rw [← ht, flatten_append]
  exact prefix_append ..

theorem onDisk_mono (batch : Nat) (rounds : List (List Nat)) (h : j ≤ k) :
    onDisk batch rounds j ≤ onDisk batch rounds k := by
  apply Nat.mul_le_mul_left
  apply Nat.div_le_div_right
  exact (flatten_take_le rounds h).length_le

/-- The state after `k` rounds: an item on disk was read from its slot at the end of the
round in which its batch was complete. -/
structure After (batch : Nat) (item : Nat → γ) (rounds : List (List Nat)) (k : Nat)
    (s : State γ) : Prop where
  used : s.used = produced rounds k
  flushed : s.flushed = onDisk batch rounds k
  buf : ∀ p, s.buf p =
    (((rounds.take k).flatten.filter fun x => x % (2 * batch) = p).getLast?).map item
  disk : ∀ j < k, ∀ id, onDisk batch rounds j ≤ id → id < onDisk batch rounds (j + 1) →
    s.disk id = (lastIn (2 * batch) (rounds.take (j + 1)).flatten id).map item

variable {q id : Nat}

/-- The slot of an id in the half of the buffer that is written back. -/
theorem slot_eq (hb : 0 < batch) (h1 : batch * q ≤ id) (h2 : id < batch * q + batch) :
    batch * q % (2 * batch) / batch * batch + (id - batch * q) = id % (2 * batch) := by
  rw [Nat.mul_comm 2 batch, Nat.mul_mod_mul_left, Nat.mul_div_cancel_left _ hb, Nat.mod_mul]
  have hdiv : id / batch = q := Nat.div_eq_of_lt_le (by rwa [Nat.mul_comm])
    (by rwa [Nat.mul_comm])
  have hmod : id - batch * q = id % batch := by
    have := Nat.div_add_mod id batch
    rw [hdiv] at this
    omega
  rw [hdiv, hmod, Nat.mul_comm batch, Nat.add_comm]

variable {s : State γ}

/-- What a write-back puts on disk. -/
theorem disk_writeBack (hb : 0 < batch) (hq : s.flushed = batch * q) : (writeBack batch s).disk id =
      if s.flushed ≤ id ∧ id < s.flushed + min batch (s.used - s.flushed) then
        s.buf (id % (2 * batch))
      else s.disk id := by
  show (if _ then _ else _) = _
  split
  · next h =>
    rw [hq] at h
    rw [hq, slot_eq hb h.1 (by omega)]
  · rfl

theorem after_round (hb : 0 < batch) (hk : k < rounds.length)
    (hlen : rounds[k].length ≤ batch) (h : After batch item rounds k s) :
    After batch item rounds (k + 1) (round batch item s rounds[k]) := by
  obtain ⟨hu, hf, hd⟩ := foldl_fill_fields batch item rounds[k] s
  have hused : (rounds[k].foldl (fun s id => fill batch s id (item id)) s).used =
      produced rounds (k + 1) := by
    rw [hu, h.used, produced_succ hk]
  have hbuf : ∀ p, (rounds[k].foldl (fun s id => fill batch s id (item id)) s).buf p =
      (((rounds.take (k + 1)).flatten.filter fun x => x % (2 * batch) = p).getLast?).map item := by
    intro p
    rw [buf_foldl_fill, h.buf, take_succ_flatten hk, filter_append, getLast?_append]
    cases (rounds[k].filter fun x => x % (2 * batch) = p).getLast? <;> rfl
  have hnext := onDisk_succ hb hk hlen
  rw [h.flushed] at hf
  rw [round, endRound, hused, hf]
  split
  · next hfull =>
    rw [if_pos hfull] at hnext
    have hmin : min batch (produced rounds (k + 1) - onDisk batch rounds k) = batch :=
      min_eq_left hfull
    refine ⟨hused, ?_, hbuf, fun j hj id h1 h2 => ?_⟩
    · show _ + min batch (_ - _) = _
      rw [hused, hf, hmin, hnext]
    · rw [disk_writeBack hb hf, hf]
      rcases lt_or_ge j k with hjk | hjk
      · have := onDisk_mono batch rounds (show j + 1 ≤ k from hjk)
        rw [if_neg (by omega), hd]
        exact h.disk j hjk id h1 h2
      · obtain rfl : j = k := by omega
        rw [if_pos ⟨h1, by omega⟩, hbuf]
        rfl
  · next hpart =>
    rw [if_neg hpart] at hnext
    refine ⟨hused, hf.trans hnext.symm, hbuf, fun j hj id h1 h2 => ?_⟩
    rcases lt_or_ge j k with hjk | hjk
    · rw [hd]
      exact h.disk j hjk id h1 h2
    · obtain rfl : j = k := by omega
      omega

/-- **The state after the rounds.** -/
theorem after_rounds (item : Nat → γ) (hb : 0 < batch) (hlen : ∀ r ∈ rounds, r.length ≤ batch)
    (hk : k ≤ rounds.length) :
    After batch item rounds k ((rounds.take k).foldl (round batch item) empty) := by
  induction k with
  | zero => exact ⟨rfl, by simp [onDisk, produced, empty], fun p => rfl, by simp⟩
  | succ k ih =>
    rw [take_succ_eq_append_getElem hk, foldl_append]
    exact after_round hb hk (hlen _ (getElem_mem hk)) (ih (by omega))

theorem drain_done (h : ¬ s.flushed < s.used) (fuel : Nat) : drain batch fuel s = s := by
  cases fuel with
  | zero => rfl
  | succ fuel => exact if_neg h

/-- Draining writes back what is left, which is less than a batch. -/
theorem disk_drain (hb : 0 < batch) (hq : s.flushed = batch * q)
    (hrest : s.used < s.flushed + batch) (id : Nat) :
    (drain batch s.used s).disk id =
      if s.flushed ≤ id ∧ id < s.used then s.buf (id % (2 * batch)) else s.disk id := by
  by_cases hlt : s.flushed < s.used
  · obtain ⟨fuel, hfuel⟩ : ∃ fuel, s.used = fuel + 1 := ⟨s.used - 1, by omega⟩
    have hdelta : s.flushed + min batch (s.used - s.flushed) = s.used := by omega
    have hdone : ¬ (writeBack batch s).flushed < (writeBack batch s).used := by
      show ¬ s.flushed + min batch (s.used - s.flushed) < s.used
      omega
    have hstep : drain batch s.used s = writeBack batch s := by
      rw [hfuel, drain, if_pos hlt, drain_done hdone]
    rw [hstep, disk_writeBack hb hq, hdelta]
  · rw [drain_done hlt, if_neg (by omega)]

/-- **What is on disk**: item `id` is read from its slot at the end of the round in which
its batch is complete, or else at the end of the last round. -/
theorem disk_run (hb : 0 < batch) (hlen : ∀ r ∈ rounds, r.length ≤ batch) (hj : j < rounds.length)
    (hid : id < produced rounds rounds.length) (h1 : onDisk batch rounds j ≤ id)
    (h2 : id < onDisk batch rounds (j + 1) ∨ j + 1 = rounds.length) :
    (run batch item rounds).disk id =
      (lastIn (2 * batch) (rounds.take (j + 1)).flatten id).map item := by
  have h : After batch item rounds rounds.length (rounds.foldl (round batch item) empty) := by
    have := after_rounds item hb hlen (le_refl rounds.length)
    rwa [take_length] at this
  have hmono := onDisk_mono batch rounds (show j + 1 ≤ rounds.length from hj)
  have hrest := lt_onDisk_add hb rounds rounds.length
  rw [run, disk_drain hb h.flushed (by rw [h.used, h.flushed]; exact hrest), h.flushed, h.used]
  split
  · next hin =>
    have hlast : j + 1 = rounds.length := by omega
    rw [h.buf, hlast]
    rfl
  · next hout =>
    refine h.disk j hj id h1 ?_
    rcases h2 with h2 | h2
    · exact h2
    · rw [h2]
      omega

/-- Every item is written back in some round. -/
theorem exists_flush (batch id : Nat) (hid : id < produced rounds rounds.length) :
    ∃ j < rounds.length, onDisk batch rounds j ≤ id ∧
      (id < onDisk batch rounds (j + 1) ∨ j + 1 = rounds.length) := by
  have hpos : 0 < rounds.length := by
    apply Nat.pos_of_ne_zero
    intro h
    rw [h] at hid
    simp [produced] at hid
  have hex : ∃ j, id < onDisk batch rounds (j + 1) ∨ j + 1 = rounds.length :=
    ⟨rounds.length - 1, .inr (by omega)⟩
  -- the first round after which the item is on disk
  refine ⟨Nat.find hex, ?_, ?_, Nat.find_spec hex⟩
  · have : Nat.find hex ≤ rounds.length - 1 := Nat.find_min' hex (.inr (by omega))
    omega
  · rcases hj : Nat.find hex with _ | i
    · simp [onDisk, produced]
    · have := Nat.find_min hex (m := i) (by omega)
      omega

end Run

/-! ## When the disk is right -/

/-- At the end of every round but the last, the ids on disk have been produced, and the
produced ids are less than two batches above the ids that were on disk one round
before. -/
def Safe (batch : Nat) (rounds : List (List Nat)) : Prop :=
  ∀ k, k + 1 < rounds.length →
    (∀ id < onDisk batch rounds (k + 1), id ∈ (rounds.take (k + 1)).flatten) ∧
    ∀ id ∈ (rounds.take (k + 1)).flatten, id < onDisk batch rounds k + 2 * batch

section Correct
variable {batch n : Nat} {rounds : List (List Nat)}

variable {id : Nat}

theorem flatten_split (rounds : List (List Nat)) (k : Nat) :
    rounds.flatten = (rounds.take k).flatten ++ (rounds.drop k).flatten := by
  rw [← flatten_append, take_append_drop]

/-- The items of the first rounds are those at the first positions. -/
theorem mem_take_flatten {k : Nat} :
    id ∈ (rounds.take k).flatten ↔ rounds.flatten.idxOf id < produced rounds k := by
  rw [flatten_split rounds k, produced]
  by_cases h : id ∈ (rounds.take k).flatten
  · exact iff_of_true h (idxOf_append_of_mem h ▸ idxOf_lt_length_of_mem h)
  · exact iff_of_false h (by rw [idxOf_append_of_notMem h]; omega)

/-- The slot of an item holds it at the end of a round if the item was produced and no
other item of the slot was produced after it. -/
theorem lastIn_eq_self_iff (hnd : rounds.flatten.Nodup) {size k : Nat} :
    lastIn size (rounds.take k).flatten id = some id ↔ rounds.flatten.idxOf id < produced rounds k ∧
      ∀ x ∈ rounds.flatten, x % size = id % size → rounds.flatten.idxOf x < produced rounds k →
        rounds.flatten.idxOf x ≤ rounds.flatten.idxOf id := by
  have hsplit := flatten_split rounds k
  have hnd' : (rounds.take k).flatten.Nodup := by
    rw [hsplit] at hnd
    exact (nodup_append.mp hnd).1
  rw [lastIn, getLast?_filter_eq_some_iff hnd']
  simp only [← mem_take_flatten]
  grind

/-- An id that shares the slot of another is at least two batches away. -/
theorem same_slot_far {size x y : Nat} (hslot : x % size = y % size) (hlt : x < y) :
    x + size ≤ y := by
  have hdvd : size ∣ y - x :=
    dvd_of_mod_eq_zero (sub_mod_eq_zero_of_mod_eq hslot.symm)
  have := le_of_dvd (by omega) hdvd
  omega

variable (hb : 0 < batch) (hlen : ∀ r ∈ rounds, r.length ≤ batch)
  (hperm : rounds.flatten.Perm (range n))

include hperm in
theorem mem_flatten_iff : id ∈ rounds.flatten ↔ id < n := by
  rw [hperm.mem_iff, mem_range]

include hperm in
theorem produced_length : produced rounds rounds.length = n := by
  rw [produced, take_length, hperm.length_eq, length_range]

variable {j : Nat}

include hb hlen hperm in
/-- The ids are less than two batches above those on disk before the last round. -/
theorem lt_of_last (hj : j + 1 = rounds.length) : n < onDisk batch rounds j + 2 * batch := by
  have hlt : j < rounds.length := by omega
  have h1 := produced_succ hlt
  have h2 := hlen _ (getElem_mem hlt)
  have h3 := lt_onDisk_add hb rounds j
  have h4 := produced_length hperm
  rw [← hj] at h4
  omega

include hb hlen hperm in
/-- What is produced lies less than two batches above what was on disk one round before,
in the last round always and in the others if the run is safe. -/
theorem Safe.lt_window (hs : Safe batch rounds) (hj : j < rounds.length)
    (hid : id < n) (hpos : rounds.flatten.idxOf id < produced rounds (j + 1)) :
    id < onDisk batch rounds j + 2 * batch := by
  rcases lt_or_ge (j + 1) rounds.length with h | h
  · exact (hs j h).2 id (mem_take_flatten.mpr hpos)
  · have := lt_of_last hb hlen hperm (show j + 1 = rounds.length by omega)
    omega

/-- What is on disk has been produced. -/
theorem Safe.produced_of_onDisk (hs : Safe batch rounds) (hj : j < rounds.length)
    (hid : id < onDisk batch rounds j) : rounds.flatten.idxOf id < produced rounds j := by
  rcases j with _ | j
  · simp [onDisk, produced] at hid
  · exact mem_take_flatten.mp ((hs j hj).1 id hid)

/-- An item is produced in some round. -/
theorem exists_round (hid : rounds.flatten.idxOf id < produced rounds rounds.length) :
    ∃ m < rounds.length, produced rounds m ≤ rounds.flatten.idxOf id ∧
      rounds.flatten.idxOf id < produced rounds (m + 1) := by
  have hex : ∃ m, rounds.flatten.idxOf id < produced rounds (m + 1) := by
    rcases hr : rounds.length with _ | m
    · rw [hr] at hid
      simp [produced] at hid
    · exact ⟨m, hr ▸ hid⟩
  have hlast : Nat.find hex < rounds.length := by
    by_contra hge
    rcases hr : rounds.length with _ | m
    · rw [hr] at hid
      simp [produced] at hid
    · exact Nat.find_min hex (by omega) (hr ▸ hid)
  refine ⟨Nat.find hex, hlast, ?_, Nat.find_spec hex⟩
  rcases hm : Nat.find hex with _ | i
  · simp [produced]
  · exact not_lt.mp (Nat.find_min hex (by omega))

include hb hlen hperm in
/-- In a safe run every slot holds the right item when it is written back. -/
theorem Safe.lastIn_eq_self (hs : Safe batch rounds) (hj : j < rounds.length)
    (hid : id < n) (h1 : onDisk batch rounds j ≤ id)
    (h2 : id < onDisk batch rounds (j + 1) ∨ j + 1 = rounds.length) :
    lastIn (2 * batch) (rounds.take (j + 1)).flatten id = some id := by
  have hnd : rounds.flatten.Nodup := hperm.nodup_iff.mpr nodup_range
  have hall : ∀ x < n, rounds.flatten.idxOf x < produced rounds rounds.length := fun x hx => by
    rw [← mem_take_flatten, take_length]
    exact (mem_flatten_iff hperm).mpr hx
  have hin : rounds.flatten.idxOf id < produced rounds (j + 1) := by
    rcases lt_or_ge (j + 1) rounds.length with hlt | hge
    · exact hs.produced_of_onDisk hlt (h2.resolve_right (by omega))
    · rw [show j + 1 = rounds.length by omega]
      exact hall id hid
  refine (lastIn_eq_self_iff hnd).mpr ⟨hin, fun x hx hslot hxin => ?_⟩
  have hxn : x < n := (mem_flatten_iff hperm).mp hx
  rcases lt_trichotomy x id with hlt | rfl | hgt
  · -- an item two batches below was on disk before the round that produced this one
    obtain ⟨m, hm, hlo, hhi⟩ := exists_round (hall id hid)
    have hfar := same_slot_far hslot hlt
    have hwin := hs.lt_window hb hlen hperm hm hid hhi
    have := hs.produced_of_onDisk hm (show x < onDisk batch rounds m by omega)
    omega
  · exact le_rfl
  · -- an item two batches above is not produced yet
    have hfar := same_slot_far hslot.symm hgt
    have hwin := hs.lt_window hb hlen hperm hj hxn hxin
    omega

include hb hlen hperm in
/-- **When the sliding write buffer is right**: every item ends up on disk, in its place
and read from its slot after it was put there, if and only if the run is safe. -/
theorem run_correct_iff {item : Nat → γ} (hinj : Function.Injective item) :
    (∀ id < n, (run batch item rounds).disk id = some (item id)) ↔ Safe batch rounds := by
  have hnd : rounds.flatten.Nodup := hperm.nodup_iff.mpr nodup_range
  constructor
  · intro h
    -- the slot of every item held it when it was written back
    have hlast : ∀ {j id : Nat}, j < rounds.length → id < n → onDisk batch rounds j ≤ id →
        (id < onDisk batch rounds (j + 1) ∨ j + 1 = rounds.length) →
        lastIn (2 * batch) (rounds.take (j + 1)).flatten id = some id := by
      intro j id hj hid h1 h2
      have hrun := h id hid
      rw [disk_run hb hlen hj (by rwa [produced_length hperm]) h1 h2,
        Option.map_eq_some_iff] at hrun
      obtain ⟨x, hx, he⟩ := hrun
      rwa [hinj he] at hx
    intro k hk
    constructor
    · intro id hid
      have hn : id < n := by
        have h1 := onDisk_le batch rounds (k + 1)
        have h2 := (flatten_take_le rounds hk.le).length_le
        have h3 := produced_length hperm
        unfold produced at h1 h3
        omega
      obtain ⟨j, hj, h1, h2⟩ := exists_flush batch id (by rwa [produced_length hperm])
      have hjk : j + 1 ≤ k + 1 := by
        by_contra hgt
        have := onDisk_mono batch rounds (show k + 1 ≤ j by omega)
        omega
      have hpos := ((lastIn_eq_self_iff hnd).mp (hlast hj hn h1 h2)).1
      exact (flatten_take_le rounds hjk).subset (mem_take_flatten.mpr hpos)
    · intro y hy
      by_contra hfar
      have hyn : y < n := (mem_flatten_iff hperm).mp (by
        have := (flatten_take_le rounds hk.le).subset hy
        rwa [take_length] at this)
      -- `x` shares the slot of `y` and is not on disk when `y` is produced
      obtain ⟨x, rfl⟩ : ∃ x, y = x + 2 * batch := ⟨y - 2 * batch, by omega⟩
      have hxn : x < n := by omega
      obtain ⟨j, hj, h1, h2⟩ := exists_flush batch x (by rwa [produced_length hperm])
      obtain ⟨i, hi, h3, h4⟩ := exists_flush batch (x + 2 * batch) (by rwa [produced_length hperm])
      have hkj : k ≤ j := by
        by_contra hlt
        have := onDisk_mono batch rounds (show j + 1 ≤ k by omega)
        omega
      have hji : j ≤ i := by
        by_contra hlt
        have := onDisk_mono batch rounds (show i + 1 ≤ j by omega)
        omega
      have hslot : (x + 2 * batch) % (2 * batch) = x % (2 * batch) := add_mod_right ..
      obtain ⟨hx1, hx2⟩ := (lastIn_eq_self_iff hnd).mp (hlast hj hxn h1 h2)
      obtain ⟨hy1, hy2⟩ := (lastIn_eq_self_iff hnd).mp (hlast hi hyn h3 h4)
      have hyj : rounds.flatten.idxOf (x + 2 * batch) < produced rounds (j + 1) :=
        mem_take_flatten.mp ((flatten_take_le rounds (show k + 1 ≤ j + 1 by omega)).subset hy)
      have hxi : rounds.flatten.idxOf x < produced rounds (i + 1) := mem_take_flatten.mp
        ((flatten_take_le rounds (show j + 1 ≤ i + 1 by omega)).subset (mem_take_flatten.mpr hx1))
      have hxmem : x ∈ rounds.flatten := (mem_flatten_iff hperm).mpr hxn
      have hymem : x + 2 * batch ∈ rounds.flatten := (mem_flatten_iff hperm).mpr hyn
      have heq := le_antisymm (hx2 _ hymem hslot hyj) (hy2 _ hxmem hslot.symm hxi)
      have := (idxOf_inj hymem).mp heq
      omega
  · intro hs id hid
    obtain ⟨j, hj, h1, h2⟩ := exists_flush batch id (by rwa [produced_length hperm])
    rw [disk_run hb hlen hj (by rwa [produced_length hperm]) h1 h2,
      hs.lastIn_eq_self hb hlen hperm hj hid h1 h2]
    rfl

end Correct

end SlidingWindow
