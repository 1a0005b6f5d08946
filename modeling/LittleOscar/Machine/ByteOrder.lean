import Mathlib.Algebra.Order.Ring.Int
import Mathlib.Data.List.Basic

/-!
# Words as bytes

`littleEndian k x` is the number `x` in `k` bytes, the low byte first, and
`bigEndian k x` the same bytes in network order. `ofLittleEndian` and
`ofBigEndian` read them back, so that loads and stores of every width are
instances of one pair of functions.

`native` is the representation that a host of either byte order gives a word
when the program stores it through a pointer.
-/

namespace Machine

/-- `x` in `k` bytes, the low byte first. -/
def littleEndian : Nat → Nat → List UInt8
  | 0, _ => []
  | k + 1, x => UInt8.ofNat x :: littleEndian k (x / 256)

/-- The number of a sequence of bytes, the low byte first. -/
def ofLittleEndian : List UInt8 → Nat
  | [] => 0
  | b :: bs => b.toNat + 256 * ofLittleEndian bs

/-- `x` in `k` bytes, the high byte first. -/
def bigEndian (k x : Nat) : List UInt8 := (littleEndian k x).reverse

/-- The number of a sequence of bytes, the high byte first. -/
def ofBigEndian (bs : List UInt8) : Nat := ofLittleEndian bs.reverse

@[simp] theorem length_littleEndian (k x : Nat) : (littleEndian k x).length = k := by
  induction k generalizing x with
  | zero => rfl
  | succ k ih => simp [littleEndian, ih]

@[simp] theorem length_bigEndian (k x : Nat) : (bigEndian k x).length = k := by
  simp [bigEndian]

theorem ofLittleEndian_littleEndian {k x : Nat} (h : x < 256 ^ k) :
    ofLittleEndian (littleEndian k x) = x := by
  induction k generalizing x with
  | zero =>
      rw [Nat.pow_zero] at h
      simp [littleEndian, ofLittleEndian]
      omega
  | succ k ih =>
      rw [Nat.pow_succ] at h
      rw [littleEndian, ofLittleEndian, ih (by omega), UInt8.toNat_ofNat']
      omega

theorem ofBigEndian_bigEndian {k x : Nat} (h : x < 256 ^ k) :
    ofBigEndian (bigEndian k x) = x := by
  rw [ofBigEndian, bigEndian, List.reverse_reverse, ofLittleEndian_littleEndian h]

theorem ofLittleEndian_lt (bs : List UInt8) : ofLittleEndian bs < 256 ^ bs.length := by
  induction bs with
  | nil => simp [ofLittleEndian]
  | cons b bs ih =>
      have hb := b.toNat_lt
      rw [ofLittleEndian, List.length_cons, Nat.pow_succ]
      omega

theorem littleEndian_ofLittleEndian (bs : List UInt8) :
    littleEndian bs.length (ofLittleEndian bs) = bs := by
  induction bs with
  | nil => rfl
  | cons b bs ih =>
      have hb := b.toNat_lt
      have hhigh : (b.toNat + 256 * ofLittleEndian bs) / 256 = ofLittleEndian bs := by
        omega
      have hlow : UInt8.ofNat (b.toNat + 256 * ofLittleEndian bs) = b := by
        apply UInt8.toNat_inj.mp
        rw [UInt8.toNat_ofNat']
        omega
      rw [List.length_cons, ofLittleEndian, littleEndian, hhigh, hlow, ih]

theorem bigEndian_ofBigEndian (bs : List UInt8) :
    bigEndian bs.length (ofBigEndian bs) = bs := by
  rw [bigEndian, ofBigEndian, ← List.length_reverse, littleEndian_ofLittleEndian,
    List.reverse_reverse]

theorem ofBigEndian_lt (bs : List UInt8) : ofBigEndian bs < 256 ^ bs.length := by
  simpa [ofBigEndian] using ofLittleEndian_lt bs.reverse

theorem littleEndian_add (j k x y : Nat) (hx : x < 256 ^ j) :
    littleEndian (j + k) (x + 256 ^ j * y) = littleEndian j x ++ littleEndian k y := by
  induction j generalizing x with
  | zero =>
      rw [Nat.pow_zero] at hx ⊢
      have hzero : x = 0 := by omega
      simp [littleEndian, hzero]
  | succ j ih =>
      have hx' : x / 256 < 256 ^ j := by
        rw [Nat.pow_succ] at hx
        omega
      have hhigh : (x + 256 ^ (j + 1) * y) / 256 = x / 256 + 256 ^ j * y := by
        rw [Nat.pow_succ, Nat.mul_comm (256 ^ j) 256, Nat.mul_assoc,
          Nat.add_mul_div_left _ _ (by omega)]
      have hlow : UInt8.ofNat (x + 256 ^ (j + 1) * y) = UInt8.ofNat x := by
        apply UInt8.toNat_inj.mp
        rw [UInt8.toNat_ofNat', UInt8.toNat_ofNat', Nat.pow_succ,
          Nat.mul_comm (256 ^ j) 256, Nat.mul_assoc]
        omega
      rw [Nat.add_right_comm, littleEndian, hhigh, hlow, ih _ hx', littleEndian]
      rfl

/-- The byte order of a host. -/
inductive ByteOrder where
  | little
  | big
  deriving DecidableEq, Repr

/-- The bytes a host stores for a word of `k` bytes. -/
def native (order : ByteOrder) (k x : Nat) : List UInt8 :=
  match order with
  | .little => littleEndian k x
  | .big => bigEndian k x

/-- The word a host loads from the bytes `bs`. -/
def ofNative (order : ByteOrder) (bs : List UInt8) : Nat :=
  match order with
  | .little => ofLittleEndian bs
  | .big => ofBigEndian bs

@[simp] theorem length_native (order : ByteOrder) (k x : Nat) :
    (native order k x).length = k := by
  cases order <;> simp [native]

theorem ofNative_native (order : ByteOrder) {k x : Nat} (h : x < 256 ^ k) :
    ofNative order (native order k x) = x := by
  cases order with
  | little => exact ofLittleEndian_littleEndian h
  | big => exact ofBigEndian_bigEndian h

theorem ofNative_lt (order : ByteOrder) (bs : List UInt8) :
    ofNative order bs < 256 ^ bs.length := by
  cases order with
  | little => exact ofLittleEndian_lt bs
  | big => exact ofBigEndian_lt bs

/-- A number of four bytes fits a word of 32 bits. -/
theorem toNat_ofNat_four {x : Nat} (h : x < 256 ^ 4) : (UInt32.ofNat x).toNat = x :=
  UInt32.toNat_ofNat_of_lt' (by simpa only [UInt32.size, Nat.reducePow] using h)

/-- A number of eight bytes fits a word of 64 bits. -/
theorem toNat_ofNat_eight {x : Nat} (h : x < 256 ^ 8) : (UInt64.ofNat x).toNat = x :=
  UInt64.toNat_ofNat_of_lt' (by simpa only [UInt64.size, Nat.reducePow] using h)

/-- The word whose little-endian bytes are the big-endian bytes of `x`. -/
def byteSwap (k x : Nat) : Nat := ofLittleEndian (bigEndian k x)

theorem byteSwap_lt (k x : Nat) : byteSwap k x < 256 ^ k := by
  simpa [byteSwap] using ofLittleEndian_lt (bigEndian k x)

theorem littleEndian_byteSwap (k x : Nat) :
    littleEndian k (byteSwap k x) = bigEndian k x := by
  simpa [byteSwap] using littleEndian_ofLittleEndian (bigEndian k x)

theorem byteSwap_ofLittleEndian (bs : List UInt8) :
    byteSwap bs.length (ofLittleEndian bs) = ofBigEndian bs := by
  rw [byteSwap, bigEndian, littleEndian_ofLittleEndian, ofBigEndian]

/-- A word that goes through its big-endian bytes changes the order of the host for
network order. -/
theorem ofNative_bigEndian_ofNative (order : ByteOrder) (bs : List UInt8) :
    ofNative order (bigEndian bs.length (ofNative order bs)) = ofBigEndian bs := by
  cases order with
  | little => exact byteSwap_ofLittleEndian bs
  | big => rw [ofNative, ofNative, bigEndian_ofBigEndian]

end Machine
