import Mathlib.Algebra.Order.Ring.Int

/-!
# The integers of a C program

A C `int` is read as an `Int`; `wrap32` brings the result of an `int` expression
back into 32 bits. A `size_t` is read as a `Nat` below `2 ^ 64`, and `sizeT` is
the conversion of an `int` to it: a negative `int` becomes a huge `size_t`. A `long`
is an `Int64`, and `toLong` is the result of a `long` expression that must not overflow.

`round32` and `round32Size` are `((i + 3) & ~0x03)` at the two types. They are
written with division, which is what `omega` reads; `round32_toInt` and
`round32Size_toNat` say that they are the bit operations on `Int32` and `UInt64`.
-/

namespace Machine

/-- The value of an `int` expression of 32 bits in two's complement. -/
def wrap32 (i : Int) : Int :=
  (i + 2147483648) % 4294967296 - 2147483648

theorem wrap32_of_range {i : Int} (h : -2147483648 ≤ i) (h' : i < 2147483648) :
    wrap32 i = i := by
  unfold wrap32
  omega

theorem wrap32_lt (i : Int) : wrap32 i < 2147483648 := by
  unfold wrap32
  omega

theorem toInt_ofInt_eq_wrap32 (i : Int) : (Int32.ofInt i).toInt = wrap32 i := by
  rw [Int32.toInt_ofInt, Int.bmod_def, show (Int32.size : Int) = 4294967296 from rfl]
  unfold wrap32
  split <;> omega

/-- A 32-bit word read as a signed one. -/
theorem toInt_toInt32 (x : UInt32) : x.toInt32.toInt = wrap32 x.toNat := by
  have hx := x.toNat_lt
  have hint : x.toInt32.toInt = x.toBitVec.toInt := rfl
  rw [hint, BitVec.toInt_eq_toNat_cond, UInt32.toNat_toBitVec]
  unfold wrap32
  split <;> omega

theorem toInt_add_eq_wrap32 (i j : Int32) : (i + j).toInt = wrap32 (i.toInt + j.toInt) := by
  rw [Int32.toInt_add, ← toInt_ofInt_eq_wrap32, Int32.toInt_ofInt]

/-- The conversion of an `int` to a 64-bit `size_t`. -/
def sizeT (i : Int) : Nat :=
  (i % 18446744073709551616).toNat

theorem sizeT_of_nonneg {i : Int} (h : 0 ≤ i) (h' : i < 9223372036854775808) :
    sizeT i = i.toNat := by
  unfold sizeT
  omega

theorem le_sizeT_of_neg {i : Int} (h : i < 0) (h' : -2147483648 * 4 ≤ i) :
    18446744065119617024 ≤ sizeT i := by
  unfold sizeT
  omega

/-- `((i + 3) & ~0x03)` on an `int`. -/
def round32 (i : Int) : Int :=
  wrap32 (i + 3) / 4 * 4

/-- `((n + 3) & ~0x03)` on a `size_t`. -/
def round32Size (n : Nat) : Nat :=
  (n + 3) % 18446744073709551616 / 4 * 4

theorem testBit_three (i : Nat) : Nat.testBit 3 i = decide (i < 2) := by
  rcases i with _ | _ | i
  · rfl
  · rfl
  · rw [Nat.testBit_succ, Nat.testBit_succ]
    simp

theorem toNat_and_not_three {w : Nat} (x : BitVec w) :
    (x &&& ~~~3#w).toNat = x.toNat / 4 * 4 := by
  have hmask : x &&& ~~~3#w = (x >>> 2) <<< 2 := by
    apply BitVec.eq_of_getLsbD_eq
    intro i hi
    simp only [BitVec.getLsbD_and, BitVec.getLsbD_not, BitVec.getLsbD_ofNat,
      testBit_three, BitVec.getLsbD_shiftLeft, BitVec.getLsbD_ushiftRight, hi,
      decide_true, Bool.true_and]
    by_cases h : i < 2
    · simp [h]
    · have hshift : 2 + (i - 2) = i := by omega
      simp [h, hshift]
  have hx := x.isLt
  rw [hmask, BitVec.toNat_shiftLeft, BitVec.toNat_ushiftRight, Nat.shiftLeft_eq,
    Nat.shiftRight_eq_div_pow, Nat.mod_eq_of_lt]
  omega

/-- `round32` is the mask of the macro on `int`. -/
theorem round32_toInt (i : Int32) :
    ((i + 3) &&& ~~~3).toInt = round32 i.toInt := by
  have hmask : ∀ x : BitVec 32, (x &&& ~~~3#32).toInt = x.toInt / 4 * 4 := by
    intro x
    have hx := x.isLt
    rw [BitVec.toInt_eq_toNat_cond, BitVec.toInt_eq_toNat_cond, toNat_and_not_three]
    omega
  calc ((i + 3) &&& ~~~3).toInt = (i + 3).toInt / 4 * 4 := hmask (i + 3).toBitVec
    _ = round32 i.toInt := by rw [toInt_add_eq_wrap32]; rfl

/-- `round32Size` is the mask of the macro on `size_t`. -/
theorem round32Size_toNat (n : UInt64) :
    ((n + 3) &&& ~~~3).toNat = round32Size n.toNat := by
  calc ((n + 3) &&& ~~~3).toNat = (n + 3).toNat / 4 * 4 :=
        toNat_and_not_three (n + 3).toBitVec
    _ = round32Size n.toNat := by rw [UInt64.toNat_add]; rfl

/-- The least multiple of four that is not below `n`. -/
def roundUp (n : Nat) : Nat :=
  (n + 3) / 4 * 4

theorem le_roundUp (n : Nat) : n ≤ roundUp n := by
  unfold roundUp
  omega

theorem roundUp_lt (n : Nat) : roundUp n < n + 4 := by
  unfold roundUp
  omega

theorem roundUp_mod (n : Nat) : roundUp n % 4 = 0 := by
  unfold roundUp
  omega

theorem round32Size_eq_roundUp {n : Nat} (h : n < 18446744073709551613) :
    round32Size n = roundUp n := by
  unfold round32Size roundUp
  omega

/-- An `int` that is compared with a rounded length as a `size_t`: one below zero is larger
than any length. -/
theorem sizeT_lt_round32Size_iff {i : Int} {n : Nat} (hlo : -2147483648 * 4 ≤ i)
    (hhi : i < 9223372036854775808) (hn : n < 9223372036854775808) :
    sizeT i < round32Size n ↔ 0 ≤ i ∧ i < roundUp n := by
  have hup := roundUp_lt n
  rw [round32Size_eq_roundUp (by omega)]
  by_cases hneg : i < 0
  · have hlarge := le_sizeT_of_neg hneg hlo
    omega
  · rw [sizeT_of_nonneg (by omega) hhi]
    omega

/-- Below `2 ^ 31 - 3` the rounding of an `int` does not wrap. -/
theorem round32_eq_roundUp {i : Int} (h : 0 ≤ i) (h' : i < 2147483645) :
    round32 i = roundUp i.toNat := by
  unfold round32 wrap32 roundUp
  omega

/-- From `2 ^ 31 - 3` on it wraps to the least `int`. -/
theorem round32_of_large {i : Int} (h : 2147483645 ≤ i) (h' : i < 2147483648) :
    round32 i = -2147483648 := by
  unfold round32 wrap32
  omega

theorem round32_nonpos {i : Int} (h : -2147483648 ≤ i) (h' : i < 0) :
    round32 i ≤ 0 := by
  unfold round32 wrap32
  omega

/-- The integers of type `long`, which has 64 bits. -/
def FitsLong (i : Int) : Prop := -9223372036854775808 ≤ i ∧ i < 9223372036854775808

instance (i : Int) : Decidable (FitsLong i) :=
  inferInstanceAs (Decidable (-9223372036854775808 ≤ i ∧ i < 9223372036854775808))

theorem fitsLong_toInt (x : Int64) : FitsLong x.toInt := ⟨x.le_toInt, x.toInt_lt⟩

/-- The value of a `long` expression. One that overflows is undefined behaviour and has no
value. -/
def toLong (i : Int) : Option Int64 := if FitsLong i then some (Int64.ofInt i) else none

theorem toLong_eq_some {i : Int} {x : Int64} : toLong i = some x ↔ x.toInt = i := by
  rw [toLong]
  constructor
  · intro h
    split at h
    next hfits =>
      cases h
      exact Int64.toInt_ofInt_of_le hfits.1 hfits.2
    next => cases h
  · rintro rfl
    rw [if_pos (fitsLong_toInt x), Int64.ofInt_toInt]

theorem exists_toLong {i : Int} (h : FitsLong i) : ∃ x, toLong i = some x ∧ x.toInt = i := by
  refine ⟨Int64.ofInt i, if_pos h, ?_⟩
  exact Int64.toInt_ofInt_of_le h.1 h.2

theorem toLong_of_not_fitsLong {i : Int} (h : ¬ FitsLong i) : toLong i = none := if_neg h

/-- The number of rounds of `while (i--)`. -/
def loopCount (i : Int) : Nat :=
  (i % 4294967296).toNat

theorem loopCount_of_nonneg {i : Int} (h : 0 ≤ i) (h' : i < 2147483648) :
    loopCount i = i.toNat := by
  unfold loopCount
  omega

/-- The rounded count of a loop, where the rounding does not wrap. -/
theorem loopCount_round32 {i : Int} (h : 0 ≤ i) (h' : i < 2147483645) :
    loopCount (round32 i) = roundUp i.toNat := by
  have hle : roundUp i.toNat < 2147483648 := by
    unfold roundUp
    omega
  rw [round32_eq_roundUp h h', loopCount_of_nonneg (Int.natCast_nonneg _) (by omega),
    Int.toNat_natCast]

theorem loopCount_round32_mod (i : Int) : loopCount (round32 i) % 4 = 0 := by
  unfold loopCount round32
  omega

/-- A round of `while (i--)` is run unless `i` is zero, and leaves one round
less to run, the wrap from the least to the greatest `int` included. -/
theorem loopCount_step {i : Int} (h : -2147483648 ≤ i) (h' : i < 2147483648)
    (hi : i ≠ 0) : loopCount i = loopCount (wrap32 (i - 1)) + 1 := by
  unfold loopCount wrap32
  omega

end Machine
