import Mathlib.Data.List.GetD
import PipeANN.StringListing

/-! # The comparison of packed strings

`str_attr_less` (`attribute.h`) orders the keys of the string index.  It calls `strcmp` on
the words of the two attributes.  `pack_string_attr` fills a string up with zero bytes to
whole words, so there is a terminator unless the length is a multiple of four; then
`strcmp` may go on behind the buffer, where anything may follow.

`strAttrLess_iff` says exactly for which strings the comparison stays inside the two buffers
and decides the order of the strings: neither of them is an unterminated beginning of the
other.  In particular no unterminated string may be compared with itself
(`not_lessWithin_self`), as every lookup of a stored key does.

`strcmp` is modelled by the bytes it has to look at; the memory behind a buffer is a
parameter of the comparison.
-/
namespace PipeANN.Dsl
open List Nat

/-! ## The comparison -/

/-- The bytes a pointer to a buffer leads to: the buffer, then whatever follows in memory. -/
def bytesFrom (buffer : Text) (after : Nat → Char) (i : Nat) : Char :=
  buffer.getD i (after (i - buffer.length))

/-- `strcmp` from position `i` on: the position of the byte that decides, and how the bytes
compare there as `unsigned char`. -/
def strcmp (pa pb : Nat → Char) : Nat → Nat → Option (Nat × Ordering)
  | 0, _ => none
  | fuel + 1, i =>
    if pa i ≠ pb i ∨ pa i = '\x00' then some (i, compare (pa i).toNat (pb i).toNat)
    else strcmp pa pb fuel (i + 1)

/-- What `str_attr_less` points to: the words, or the literal `""` of an empty attribute. -/
def cBuffer (a : Attribute) : Text := if a.isEmpty then ['\x00'] else a.flatMap wordBytes

/-- `str_attr_less`, with the last position that it reads. -/
def strAttrLess (fuel : Nat) (a : Attribute) (afterA : Nat → Char) (b : Attribute)
    (afterB : Nat → Char) : Option (Nat × Bool) :=
  (strcmp (bytesFrom (cBuffer a) afterA) (bytesFrom (cBuffer b) afterB) fuel 0).map
    fun r => (r.1, r.2 = .lt)

/-- Whatever follows the two buffers, the comparison ends inside both of them and decides the
order of the strings. -/
def LessWithin (a b : Attribute) : Prop :=
  ∀ afterA afterB, ∃ fuel last,
    strAttrLess fuel a afterA b afterB =
        some (last, decide (stringAttrView a < stringAttrView b)) ∧
      last < (cBuffer a).length ∧ last < (cBuffer b).length

/-- The string fills its words, and the other one begins with it. -/
def RunsPast (s t : Text) : Prop := s ≠ [] ∧ s.length % 4 = 0 ∧ s <+: t

instance (s t : Text) : Decidable (RunsPast s t) :=
  inferInstanceAs (Decidable (s ≠ [] ∧ s.length % 4 = 0 ∧ s <+: t))

/-! ## Where `strcmp` stops -/

section
variable {pa pb : Nat → Char}

/-- The bytes at a position do not stop `strcmp`. -/
def Passes (pa pb : Nat → Char) (i : Nat) : Prop := pa i = pb i ∧ pa i ≠ '\x00'

theorem Passes.symm {i : Nat} (h : Passes pa pb i) : Passes pb pa i := ⟨h.1.symm, h.1 ▸ h.2⟩

theorem strcmp_of_stop {n : Nat} (hstop : pa n ≠ pb n ∨ pa n = '\x00') :
    ∀ {k i : Nat}, i + k = n → (∀ j, i ≤ j → j < n → Passes pa pb j) →
      strcmp pa pb (k + 1) i = some (n, compare (pa n).toNat (pb n).toNat)
  | 0, i, hi, _ => by
    obtain rfl : i = n := hi
    rw [strcmp, if_pos hstop]
  | k + 1, i, hi, hpass => by
    obtain ⟨heq, hnul⟩ := hpass i (le_refl i) (by omega)
    rw [strcmp, if_neg (by simp [heq, heq ▸ hnul])]
    exact strcmp_of_stop hstop (by omega) fun j hj => hpass j (by omega)

/-- `strcmp` reads on while nothing stops it. -/
theorem le_of_strcmp {n : Nat} : ∀ {fuel i last : Nat} {r : Ordering}, i ≤ n →
    (∀ j, i ≤ j → j < n → Passes pa pb j) → strcmp pa pb fuel i = some (last, r) → n ≤ last
  | 0, _, _, _, _, _, h => by cases h
  | fuel + 1, i, last, r, hi, hpass, h => by
    rw [strcmp] at h
    rcases eq_or_lt_of_le hi with rfl | hlt
    · split at h
      · cases h
        exact le_refl i
      · next hgo =>
        refine le_of_succ_le (le_of_strcmp le_rfl (fun j hj hj' => ?_) h)
        omega
    · obtain ⟨heq, hnul⟩ := hpass i (le_refl i) hlt
      rw [if_neg (by simp [heq, heq ▸ hnul])] at h
      exact le_of_strcmp hlt (fun j hj => hpass j (by omega)) h

end

/-! ## The buffer of a packed string -/

/-- The zero bytes behind a string in its buffer. -/
def terminator (s : Text) : Text :=
  if s = [] then ['\x00'] else List.replicate ((4 - s.length % 4) % 4) '\x00'

theorem cBuffer_packStringAttr {s : Text} (h : Json.IsBytes s) :
    cBuffer (packStringAttr s) = s ++ terminator s := by
  cases s with
  | nil => rfl
  | cons c rest =>
    have hne : packStringAttr (c :: rest) ≠ [] := by
      rw [← length_pos_iff, length_packStringAttr, length_cons]
      omega
    rw [cBuffer, if_neg (by simpa using hne), packStringAttr_bytes h, padded, terminator,
      if_neg (cons_ne_nil _ _)]

variable {s t : CText} {after after' : Nat → Char}

/-- What a pointer to a packed string leads to. -/
def CText.bytesAt (s : CText) (after : Nat → Char) : Nat → Char :=
  bytesFrom (cBuffer (packStringAttr s.text)) after

theorem bytesAt_of_lt {i : Nat} (hi : i < s.text.length) : s.bytesAt after i = s.text[i] := by
  rw [CText.bytesAt, bytesFrom, cBuffer_packStringAttr s.bytes, getD_append _ _ _ _ hi,
    getD_eq_getElem _ _ hi]

theorem bytesAt_ne_nul {i : Nat} (hi : i < s.text.length) : s.bytesAt after i ≠ '\x00' := by
  rw [bytesAt_of_lt hi]
  exact fun h => s.nulFree (h ▸ getElem_mem hi)

theorem length_le_cBuffer (s : CText) :
    s.text.length ≤ (cBuffer (packStringAttr s.text)).length := by
  rw [cBuffer_packStringAttr s.bytes, length_append]
  exact le_add_right _ _

/-- A string that does not fill its words is followed by a zero byte. -/
theorem bytesAt_length (h : s.text = [] ∨ s.text.length % 4 ≠ 0) :
    s.bytesAt after s.text.length = '\x00' ∧
      s.text.length < (cBuffer (packStringAttr s.text)).length := by
  have hterm : ∃ k, terminator s.text = replicate (k + 1) '\x00' := by
    by_cases hnil : s.text = []
    · exact ⟨0, by rw [terminator, if_pos hnil]; rfl⟩
    · refine ⟨3 - s.text.length % 4, ?_⟩
      rw [terminator, if_neg hnil]
      have := h.resolve_left hnil
      congr 1
      omega
  obtain ⟨k, hk⟩ := hterm
  rw [CText.bytesAt, bytesFrom, cBuffer_packStringAttr s.bytes, hk]
  constructor
  · rw [getD_append_right _ _ _ _ le_rfl, Nat.sub_self]
    rfl
  · rw [length_append, length_replicate]
    omega

/-- A string that fills its words has no other byte in its buffer. -/
theorem length_cBuffer_of_full (hne : s.text ≠ []) (hfull : s.text.length % 4 = 0) :
    (cBuffer (packStringAttr s.text)).length = s.text.length := by
  rw [cBuffer_packStringAttr s.bytes, terminator, if_neg hne, length_append, length_replicate]
  omega

/-! ## The order -/

/-- `strcmp` stops at position `n` of the two strings, inside both buffers. -/
structure StopsAt (s t : CText) (after after' : Nat → Char) (n : Nat) : Prop where
  passes : ∀ j < n, Passes (s.bytesAt after) (t.bytesAt after') j
  left : n < (cBuffer (packStringAttr s.text)).length
  right : n < (cBuffer (packStringAttr t.text)).length

theorem StopsAt.symm {n : Nat} (h : StopsAt s t after after' n) : StopsAt t s after' after n where
  passes j hj := (h.passes j hj).symm
  left := h.right
  right := h.left

/-- The bytes of a beginning do not stop `strcmp`. -/
theorem passes_of_isPrefix (h : s.text <+: t.text) {j : Nat} (hj : j < s.text.length) :
    Passes (s.bytesAt after) (t.bytesAt after') j := by
  refine ⟨?_, bytesAt_ne_nul hj⟩
  rw [bytesAt_of_lt hj, bytesAt_of_lt (hj.trans_le h.length_le)]
  exact h.getElem hj

/-- The smaller string has the smaller byte where `strcmp` stops. -/
theorem exists_stopsAt_of_lt (hlt : s.text < t.text) (hpast : ¬ RunsPast s.text t.text) :
    ∃ n, StopsAt s t after after' n ∧ (s.bytesAt after n).toNat < (t.bytesAt after' n).toNat := by
  rcases List.lt_iff_exists.mp hlt with ⟨htake, hlen⟩ | ⟨i, hi, hi', heq, hbyte⟩
  · -- `s` ends first, with its terminator
    have hpre : s.text <+: t.text := htake ▸ take_prefix _ _
    have hend : s.text = [] ∨ s.text.length % 4 ≠ 0 := by
      by_contra hno
      push Not at hno
      exact hpast ⟨hno.1, hno.2, hpre⟩
    obtain ⟨hnul, hin⟩ := @bytesAt_length s after hend
    refine ⟨s.text.length, ⟨fun j hj => passes_of_isPrefix hpre hj, hin,
      hlen.trans_le (length_le_cBuffer t)⟩, ?_⟩
    rw [hnul]
    exact Nat.pos_of_ne_zero fun h0 => bytesAt_ne_nul hlen (Char.toNat_inj.mp h0)
  · refine ⟨i, ⟨fun j hj => ⟨?_, bytesAt_ne_nul (hj.trans hi)⟩,
      hi.trans_le (length_le_cBuffer s), hi'.trans_le (length_le_cBuffer t)⟩, ?_⟩
    · rw [bytesAt_of_lt (hj.trans hi), bytesAt_of_lt (hj.trans hi')]
      exact heq j hj
    · rw [bytesAt_of_lt hi, bytesAt_of_lt hi']
      exact hbyte

/-- The comparison where `strcmp` stops. -/
theorem strAttrLess_of_stopsAt {n : Nat} (h : StopsAt s t after after' n)
    (hstop : s.bytesAt after n ≠ t.bytesAt after' n ∨ s.bytesAt after n = '\x00')
    (hless : (s.bytesAt after n).toNat < (t.bytesAt after' n).toNat ↔ s.text < t.text) :
    ∃ fuel last, strAttrLess fuel (packStringAttr s.text) after (packStringAttr t.text) after' =
        some (last, decide (stringAttrView (packStringAttr s.text) <
          stringAttrView (packStringAttr t.text))) ∧
      last < (cBuffer (packStringAttr s.text)).length ∧
      last < (cBuffer (packStringAttr t.text)).length := by
  have hcmp := strcmp_of_stop hstop (zero_add n) fun j _ hj => h.passes j hj
  refine ⟨n + 1, n, ?_, h.left, h.right⟩
  change Option.map _ (strcmp (s.bytesAt after) (t.bytesAt after') (n + 1) 0) = _
  rw [hcmp, s.view_pack, t.view_pack, Option.map_some]
  simp only [Nat.compare_eq_lt, hless]

/-- **When `str_attr_less` is a comparison of strings.**  For strings without NUL, the
comparison stays inside the two buffers and decides their order, whatever follows in memory,
if and only if neither string is an unterminated beginning of the other. -/
theorem strAttrLess_iff (s t : CText) : LessWithin (packStringAttr s.text) (packStringAttr t.text) ↔
      ¬ RunsPast s.text t.text ∧ ¬ RunsPast t.text s.text := by
  constructor
  · intro h
    obtain ⟨fuel, last, hless, hl, hr⟩ := h (fun _ => 'x') (fun _ => 'x')
    obtain ⟨⟨last', r⟩, hcmp, hlast⟩ := Option.map_eq_some_iff.mp hless
    obtain rfl : last' = last := (Prod.mk.inj hlast).1
    constructor
    · rintro ⟨hne, hfull, hpre⟩
      rw [length_cBuffer_of_full hne hfull] at hl
      have := le_of_strcmp (zero_le _)
        (fun j _ hj => passes_of_isPrefix hpre hj) hcmp
      omega
    · rintro ⟨hne, hfull, hpre⟩
      rw [length_cBuffer_of_full hne hfull] at hr
      have := le_of_strcmp (zero_le _)
        (fun j _ hj => (passes_of_isPrefix hpre hj).symm) hcmp
      omega
  · rintro ⟨hst, hts⟩ after after'
    rcases lt_trichotomy s.text t.text with hlt | heq | hgt
    · obtain ⟨n, hn, hbyte⟩ := @exists_stopsAt_of_lt s t after after' hlt hst
      refine strAttrLess_of_stopsAt hn (.inl fun h => ?_) (iff_of_true hbyte hlt)
      rw [h] at hbyte
      exact absurd hbyte (lt_irrefl _)
    · -- equal strings: both terminators are read
      have hend : s.text = [] ∨ s.text.length % 4 ≠ 0 := by
        by_contra hno
        push Not at hno
        exact hst ⟨hno.1, hno.2, heq ▸ prefix_rfl⟩
      obtain ⟨hnul, hin⟩ := @bytesAt_length s after hend
      obtain ⟨hnul', hin'⟩ := @bytesAt_length t after' (heq ▸ hend)
      rw [← heq] at hnul'
      have hn : StopsAt s t after after' s.text.length :=
        ⟨fun j hj => passes_of_isPrefix (heq ▸ prefix_rfl) hj, hin, by
          rw [heq] at hin ⊢
          exact hin'⟩
      refine strAttrLess_of_stopsAt hn (.inr hnul) (iff_of_false ?_ ?_)
      · rw [hnul, hnul']
        exact lt_irrefl _
      · rw [heq]
        exact lt_irrefl _
    · obtain ⟨n, hn, hbyte⟩ := @exists_stopsAt_of_lt t s after' after hgt hts
      refine strAttrLess_of_stopsAt hn.symm (.inl fun h => ?_)
        (iff_of_false (lt_asymm hbyte) (lt_asymm hgt))
      rw [h] at hbyte
      exact absurd hbyte (lt_irrefl _)

/-- **Equal strings that compare as different.**  Both attributes pack `"abcd"`; what follows
them in memory decides. -/
theorem not_lessWithin_self :
    ¬ LessWithin (packStringAttr ['a', 'b', 'c', 'd']) (packStringAttr ['a', 'b', 'c', 'd']) ∧
      strAttrLess 5 (packStringAttr ['a', 'b', 'c', 'd']) (fun _ => 'x')
        (packStringAttr ['a', 'b', 'c', 'd']) (fun _ => 'y') = some (4, true) := by
  refine ⟨fun h => ?_, by decide⟩
  obtain ⟨fuel, last, hless, hlast, -⟩ := h (fun _ => 'x') (fun _ => 'y')
  obtain ⟨⟨last', r⟩, hcmp, heq⟩ := Option.map_eq_some_iff.mp hless
  obtain rfl : last' = last := (Prod.mk.inj heq).1
  have hpass : ∀ j < 4, bytesFrom (cBuffer (packStringAttr ['a', 'b', 'c', 'd'])) (fun _ => 'x') j =
      bytesFrom (cBuffer (packStringAttr ['a', 'b', 'c', 'd'])) (fun _ => 'y') j ∧
      bytesFrom (cBuffer (packStringAttr ['a', 'b', 'c', 'd'])) (fun _ => 'x') j ≠ '\x00' := by
    decide
  have hfour : 4 ≤ last' := le_of_strcmp (zero_le 4) (fun j _ hj => hpass j hj) hcmp
  exact absurd hlast (not_lt.mpr hfour)

end PipeANN.Dsl
