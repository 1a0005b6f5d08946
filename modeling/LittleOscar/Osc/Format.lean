import LittleOscar.Machine.Integer
import LittleOscar.Machine.Memory
import LittleOscar.Osc.Platform

/-!
# The OSC message format

The format a message reader is meant for, stated without a program: an argument
has a type tag and a payload, a message is its address, its tags behind a comma
and the payloads, and every part is padded with NUL to a multiple of four. Both
sides of the library are compared with these definitions. Nothing of the code is
read here.
-/

namespace LittleOscar

open Machine

/-- The three tags that share the string payload. -/
inductive StringTag where
  | s
  | S
  | k
  deriving DecidableEq, Repr

def StringTag.byte : StringTag → UInt8
  | .s => 's'.toUInt8
  | .S => 'S'.toUInt8
  | .k => 'k'.toUInt8

/-- An OSC argument. A `float` and a `double` are their bit patterns, and the
size of a blob fits in the field that carries it. -/
inductive OscArgument where
  | boolTrue
  | boolFalse
  | null
  | infinity
  | int32 (v : Int32)
  | int64 (v : Int64)
  | timetag (v : UInt64)
  | float (bits : UInt32)
  | double (bits : UInt64)
  | string (tag : StringTag) (s : CString)
  | blob (bytes : List UInt8)

def OscArgument.tag : OscArgument → UInt8
  | .boolTrue => 'T'.toUInt8
  | .boolFalse => 'F'.toUInt8
  | .null => 'N'.toUInt8
  | .infinity => 'I'.toUInt8
  | .int32 _ => 'i'.toUInt8
  | .int64 _ => 'h'.toUInt8
  | .timetag _ => 't'.toUInt8
  | .float _ => 'f'.toUInt8
  | .double _ => 'd'.toUInt8
  | .string tag _ => tag.byte
  | .blob _ => 'b'.toUInt8

/-- The number of bytes of a string of `n` characters, terminator and padding
included. -/
def paddedSize (n : Nat) : Nat := roundUp (n + 1)

/-- A string with its terminator, padded with NUL to a multiple of four. -/
def padString (s : List UInt8) : List UInt8 :=
  s ++ 0 :: List.replicate (paddedSize s.length - (s.length + 1)) 0

/-- Bytes padded with NUL to a multiple of four. -/
def padBytes (bs : List UInt8) : List UInt8 :=
  bs ++ List.replicate (roundUp bs.length - bs.length) 0

theorem lt_paddedSize (n : Nat) : n < paddedSize n := le_roundUp (n + 1)

theorem four_le_paddedSize (n : Nat) : 4 ≤ paddedSize n := by
  unfold paddedSize roundUp
  omega

theorem roundUp_le_paddedSize (n : Nat) : roundUp n ≤ paddedSize n := by
  unfold paddedSize roundUp
  omega

theorem paddedSize_mod (n : Nat) : paddedSize n % 4 = 0 := roundUp_mod (n + 1)

@[simp] theorem length_padString (s : List UInt8) :
    (padString s).length = paddedSize s.length := by
  have hlt := lt_paddedSize s.length
  simp only [padString, List.length_append, List.length_cons, List.length_replicate]
  omega

@[simp] theorem length_padBytes (bs : List UInt8) :
    (padBytes bs).length = roundUp bs.length := by
  have hle := le_roundUp bs.length
  simp only [padBytes, List.length_append, List.length_replicate]
  omega

/-- The signed 32-bit field, high byte first, that `bs` begins with. -/
def int32Field (bs : List UInt8) : Int := wrap32 (ofBigEndian (bs.take 4))

def OscArgument.payload : OscArgument → List UInt8
  | .boolTrue | .boolFalse | .null | .infinity => []
  | .int32 v => bigEndian 4 v.toUInt32.toNat
  | .int64 v => bigEndian 8 v.toUInt64.toNat
  | .timetag v => bigEndian 8 v.toNat
  | .float bits => bigEndian 4 bits.toNat
  | .double bits => bigEndian 8 bits.toNat
  | .string _ s => padString s.bytes
  | .blob bytes => bigEndian 4 bytes.length ++ padBytes bytes

theorem OscArgument.tag_ne_zero (a : OscArgument) : a.tag ≠ 0 := by
  rcases a with _ | _ | _ | _ | _ | _ | _ | _ | _ | ⟨_ | _ | _, _⟩ | _ <;>
    simp only [tag, StringTag.byte] <;> decide

/-- The tags of a message behind their comma. -/
def tagString (args : List OscArgument) : List UInt8 :=
  ','.toUInt8 :: args.map OscArgument.tag

/-- The reference encoding of a message. -/
def encodeMessage (address : CString) (args : List OscArgument) : List UInt8 :=
  padString address.bytes ++ padString (tagString args) ++
    (args.map OscArgument.payload).flatten

/-- The payloads of a list of arguments, one behind the other. -/
def payloads (args : List OscArgument) : List UInt8 := (args.map OscArgument.payload).flatten

theorem payloads_cons (arg : OscArgument) (args : List OscArgument) :
    payloads (arg :: args) = arg.payload ++ payloads args := rfl

theorem tagString_noNul (args : List OscArgument) : 0 ∉ tagString args := by
  intro h
  rcases List.mem_cons.mp h with habs | htag
  · exact absurd habs (by decide)
  · obtain ⟨arg, -, harg⟩ := List.mem_map.mp htag
    exact arg.tag_ne_zero harg

theorem length_encodeMessage (address : CString) (args : List OscArgument) :
    (encodeMessage address args).length = paddedSize address.bytes.length +
      paddedSize (tagString args).length + (payloads args).length := by
  simp only [encodeMessage, payloads, List.length_append, length_padString]

theorem OscArgument.payload_mod (a : OscArgument) : a.payload.length % 4 = 0 := by
  cases a with
  | boolTrue => rfl
  | boolFalse => rfl
  | null => rfl
  | infinity => rfl
  | int32 v => rw [payload, length_bigEndian]
  | int64 v => rw [payload, length_bigEndian]
  | timetag v => rw [payload, length_bigEndian]
  | float bits => rw [payload, length_bigEndian]
  | double bits => rw [payload, length_bigEndian]
  | string tag s => rw [payload, length_padString, paddedSize_mod]
  | blob bytes =>
      have hmod := roundUp_mod bytes.length
      rw [payload, List.length_append, length_bigEndian, length_padBytes]
      omega

theorem payloads_mod (args : List OscArgument) : (payloads args).length % 4 = 0 := by
  induction args with
  | nil => rfl
  | cons arg args ih =>
      have harg := arg.payload_mod
      rw [payloads_cons, List.length_append]
      omega

/-- A message is a multiple of four bytes long. -/
theorem encodeMessage_mod (address : CString) (args : List OscArgument) :
    (encodeMessage address args).length % 4 = 0 := by
  have haddress := paddedSize_mod address.bytes.length
  have htags := paddedSize_mod (tagString args).length
  have hpayloads := payloads_mod args
  rw [length_encodeMessage]
  omega

/-- The reference encoding of an element of a bundle: its length and its bytes. -/
def encodeRecord (message : List UInt8) : List UInt8 :=
  bigEndian 4 message.length ++ message

/-- The reference encoding of a bundle of encoded messages. -/
def encodeBundle (timetag : UInt64) (messages : List (List UInt8)) : List UInt8 :=
  ['#', 'b', 'u', 'n', 'd', 'l', 'e'].map Char.toUInt8 ++ [0] ++ bigEndian 8 timetag.toNat ++
    (messages.map encodeRecord).flatten

theorem length_encodeRecord (message : List UInt8) :
    (encodeRecord message).length = 4 + message.length := by
  rw [encodeRecord, List.length_append, length_bigEndian]

theorem encodeBundle_append (timetag : UInt64) (messages : List (List UInt8))
    (message : List UInt8) :
    encodeBundle timetag (messages ++ [message]) =
      encodeBundle timetag messages ++ encodeRecord message := by
  simp [encodeBundle]

/-- The address `/a`. -/
def slashA : CString where
  bytes := ['/'.toUInt8, 'a'.toUInt8]
  noNul := by decide
  length_lt := by decide

end LittleOscar
