import LittleOscar.Machine.ByteOrder

/-!
# Return codes and the platform layer

The platform layer of `osc.h` chooses the byte-order macros by the byte order of
the host, and the C implementation chooses whether `char` is signed and what a
`float` or a `double` becomes when it is converted to an unsigned integer. A
`Platform` fixes these choices.

`oscHton32` and `oscHton64` are the macros as they are written. The two lemmas
that matter say that a native store of what they give is a big-endian store, and
that what `oscNtoh32` and `oscNtoh64` give for a native load is a big-endian load.
-/

namespace LittleOscar

open Machine

def oscMessage : Int := 2

def oscBundle : Int := 1

def oscOk : Int := 0

def oscError : Int := -1

def oscEnd : Int := -2

theorem oscError_ne_oscOk : oscError ≠ oscOk := by decide

/-- The implementation-defined choices under the program. A `float` and a
`double` are their bit patterns. -/
structure Platform where
  order : ByteOrder
  charSigned : Bool
  floatToUInt32 : UInt32 → UInt32
  doubleToUInt64 : UInt64 → UInt64

/-- A little-endian host with a signed `char`, such as a desktop machine. The
conversions of `float` and `double` play no part where it is used. -/
def littleHost : Platform := ⟨.little, true, id, id⟩

/-- A big-endian host of the same kind. -/
def bigHost : Platform := ⟨.big, true, id, id⟩

/-- The value of a `char` whose byte is `b`. -/
def charValue (P : Platform) (b : UInt8) : Int :=
  if P.charSigned ∧ 128 ≤ b.toNat then (b.toNat : Int) - 256 else b.toNat

/-- The byte of the `char` that an `int` is converted to. -/
def charByte (i : Int) : UInt8 := UInt8.ofNat (i % 256).toNat

/-- `htonl` of the C library, which is also its `ntohl`. -/
def htonl (P : Platform) (x : UInt32) : UInt32 :=
  match P.order with
  | .big => x
  | .little => UInt32.ofNat (byteSwap 4 x.toNat)

def oscHton32 (P : Platform) (i : UInt32) : UInt32 :=
  match P.order with
  | .big => i
  | .little => htonl P i

def oscHton64 (P : Platform) (i : UInt64) : UInt64 :=
  match P.order with
  | .big => i
  | .little => ((htonl P i.toUInt32).toUInt64 <<< 32) ||| (htonl P (i >>> 32).toUInt32).toUInt64

def oscNtoh32 (P : Platform) (i : UInt32) : UInt32 :=
  match P.order with
  | .big => i
  | .little => htonl P i

def oscNtoh64 (P : Platform) (i : UInt64) : UInt64 :=
  match P.order with
  | .big => i
  | .little => ((htonl P i.toUInt32).toUInt64 <<< 32) ||| (htonl P (i >>> 32).toUInt32).toUInt64

/-- A number of `k` bytes that reads the same in both byte orders. -/
def Palindromic (k x : Nat) : Prop := byteSwap k x = x

instance (k x : Nat) : Decidable (Palindromic k x) :=
  inferInstanceAs (Decidable (byteSwap k x = x))

variable (P : Platform)

theorem toNat_htonl_little (h : P.order = .little) (x : UInt32) :
    (htonl P x).toNat = byteSwap 4 x.toNat := by
  have hlt := byteSwap_lt 4 x.toNat
  rw [htonl, h, UInt32.toNat_ofNat', Nat.mod_eq_of_lt (by omega)]

theorem toNat_oscHton64_little (h : P.order = .little) (x : UInt64) :
    (oscHton64 P x).toNat =
      byteSwap 4 (x.toNat / 4294967296) + 4294967296 * byteSwap 4 (x.toNat % 4294967296) := by
  have hhigh := byteSwap_lt 4 (x.toNat / 4294967296)
  have hlow := byteSwap_lt 4 (x.toNat % 4294967296)
  have hx := x.toNat_lt
  have hshift : (x >>> 32).toUInt32.toNat = x.toNat / 4294967296 := by
    rw [UInt64.toNat_toUInt32, UInt64.toNat_shiftRight, Nat.shiftRight_eq_div_pow]
    simp
    omega
  rw [oscHton64, h]
  simp only [UInt64.toNat_or, UInt64.toNat_shiftLeft, UInt32.toNat_toUInt64,
    toNat_htonl_little P h, hshift, UInt64.toNat_toUInt32]
  simp only [UInt64.reduceToNat, Nat.reducePow, Nat.reduceMod, Nat.shiftLeft_eq]
  rw [Nat.mod_eq_of_lt (by omega), Nat.mul_comm, ← Nat.two_pow_add_eq_or_of_lt (i := 32)]
  · omega
  · omega

theorem bigEndian_split (x : Nat) :
    bigEndian 8 x = bigEndian 4 (x / 4294967296) ++ bigEndian 4 (x % 4294967296) := by
  have hsplit := littleEndian_add 4 4 (x % 4294967296) (x / 4294967296) (by omega)
  rw [show x % 4294967296 + 256 ^ 4 * (x / 4294967296) = x by omega] at hsplit
  rw [bigEndian, hsplit, List.reverse_append]
  rfl

theorem native_oscHton32 (x : UInt32) :
    native P.order 4 (oscHton32 P x).toNat = bigEndian 4 x.toNat := by
  cases h : P.order with
  | big => simp [native, oscHton32, h]
  | little =>
      simp only [native, oscHton32, h]
      rw [toNat_htonl_little P h, littleEndian_byteSwap]

theorem native_oscHton64 (x : UInt64) :
    native P.order 8 (oscHton64 P x).toNat = bigEndian 8 x.toNat := by
  cases h : P.order with
  | big => simp [native, oscHton64, h]
  | little =>
      have hlt := byteSwap_lt 4 (x.toNat / 4294967296)
      have hsplit := littleEndian_add 4 4 _ (byteSwap 4 (x.toNat % 4294967296)) hlt
      simp only [native]
      rw [toNat_oscHton64_little P h, bigEndian_split, ← littleEndian_byteSwap,
        ← littleEndian_byteSwap]
      exact hsplit

theorem toNat_oscHton32 (x : UInt32) :
    (oscHton32 P x).toNat = ofNative P.order (bigEndian 4 x.toNat) := by
  rw [← native_oscHton32 P x, ofNative_native P.order (UInt32.toNat_lt _)]

theorem toNat_oscHton64 (x : UInt64) :
    (oscHton64 P x).toNat = ofNative P.order (bigEndian 8 x.toNat) := by
  rw [← native_oscHton64 P x, ofNative_native P.order (UInt64.toNat_lt _)]

theorem oscNtoh32_eq_oscHton32 (x : UInt32) : oscNtoh32 P x = oscHton32 P x := rfl

theorem oscNtoh64_eq_oscHton64 (x : UInt64) : oscNtoh64 P x = oscHton64 P x := rfl

/-- `osc_ntoh32` of a native load is a big-endian load. -/
theorem oscNtoh32_ofNative {bs : List UInt8} (h : bs.length = 4) :
    oscNtoh32 P (UInt32.ofNat (ofNative P.order bs)) = UInt32.ofNat (ofBigEndian bs) := by
  have hraw := ofNative_lt P.order bs
  have hword := ofBigEndian_lt bs
  have hswap := ofNative_bigEndian_ofNative P.order bs
  rw [h] at hraw hword hswap
  apply UInt32.toNat_inj.mp
  rw [oscNtoh32_eq_oscHton32, toNat_oscHton32, toNat_ofNat_four hraw,
    toNat_ofNat_four hword, hswap]

/-- `osc_ntoh64` of a native load is a big-endian load. -/
theorem oscNtoh64_ofNative {bs : List UInt8} (h : bs.length = 8) :
    oscNtoh64 P (UInt64.ofNat (ofNative P.order bs)) = UInt64.ofNat (ofBigEndian bs) := by
  have hraw := ofNative_lt P.order bs
  have hword := ofBigEndian_lt bs
  have hswap := ofNative_bigEndian_ofNative P.order bs
  rw [h] at hraw hword hswap
  apply UInt64.toNat_inj.mp
  rw [oscNtoh64_eq_oscHton64, toNat_oscHton64, toNat_ofNat_eight hraw,
    toNat_ofNat_eight hword, hswap]

theorem oscNtoh32_bigEndian (x : UInt32) :
    oscNtoh32 P (UInt32.ofNat (ofNative P.order (bigEndian 4 x.toNat))) = x := by
  rw [oscNtoh32_ofNative P (length_bigEndian 4 _), ofBigEndian_bigEndian x.toNat_lt,
    UInt32.ofNat_toNat]

theorem oscNtoh64_bigEndian (x : UInt64) :
    oscNtoh64 P (UInt64.ofNat (ofNative P.order (bigEndian 8 x.toNat))) = x := by
  rw [oscNtoh64_ofNative P (length_bigEndian 8 _), ofBigEndian_bigEndian x.toNat_lt,
    UInt64.ofNat_toNat]

/-- A native load of a number in network order, without a conversion. -/
theorem ofNat_ofNative_bigEndian (x : UInt64) :
    UInt64.ofNat (ofNative P.order (bigEndian 8 x.toNat)) = x ↔
      P.order = .big ∨ Palindromic 8 x.toNat := by
  cases horder : P.order with
  | big =>
      have hnat : ofNative .big (bigEndian 8 x.toNat) = x.toNat :=
        ofBigEndian_bigEndian x.toNat_lt
      simp [hnat]
  | little =>
      have hswap : ofNative .little (bigEndian 8 x.toNat) = byteSwap 8 x.toNat := rfl
      rw [hswap, ← UInt64.toNat_inj, toNat_ofNat_eight (byteSwap_lt 8 _), Palindromic]
      simp

/-- Where `char` is signed, `OSC_END` survives its conversion to `char`. -/
theorem charValue_charByte_oscEnd (h : P.charSigned) :
    charValue P (charByte oscEnd) = oscEnd := by
  have hbyte : 128 ≤ (charByte oscEnd).toNat := by decide
  rw [charValue, if_pos ⟨h, hbyte⟩]
  decide

end LittleOscar
