import LittleOscar.Osc.Platform
import LittleOscar.Machine.Integer
import LittleOscar.Machine.Memory

/-!
# The bundle reader and the message reader

The functions of `read.c` over a memory object `m` that holds the packet. Pointers
are offsets into the object, and `NULL` is `none`; the address space is taken to be
large enough for the sum of a pointer and an `int`. A call gives its return code,
the values it assigns through its output parameters and the reader after it. A call
that reads outside the object, or through `NULL`, has no result.

An output parameter is an `Option`: it is `none` where the call leaves the variable
of its caller alone.
-/

namespace LittleOscar

open Machine

/-- `osc_bundle_reader_t`. -/
structure OscBundleReader where
  bundlePtr : Int
  bundleEnd : Int
  msgPtr : Int
  deriving DecidableEq, Repr

/-- `osc_msg_reader_t`. -/
structure OscMsgReader where
  msgPtr : Int
  msgEnd : Int
  typePtr : Option Int
  argPtr : Option Int
  deriving DecidableEq, Repr

variable (P : Platform) (m : Memory)

/-- The word of `k` bytes that the host loads through a pointer. -/
def loadNative (p : Int) (k : Nat) : Option Nat :=
  (loadBytes m p k).map (ofNative P.order)

/-- `osc_packet_get_type`. -/
def oscPacketGetType (buffer len : Int) : Option Int :=
  if len < 4 ∨ len % 4 ≠ 0 then some oscError
  else do
    let b ← loadByte m buffer
    some (if b = '#'.toUInt8 then oscBundle else oscMessage)

/-! ## Bundles -/

/-- `osc_bundle_reader_init`. -/
def oscBundleReaderInit (reader : OscBundleReader) (buffer len : Int) :
    Int × OscBundleReader :=
  if len < 20 then (oscError, reader)
  else (oscOk, { bundlePtr := buffer, bundleEnd := buffer + len, msgPtr := buffer + 16 })

/-- `osc_bundle_reader_get_timetag`, which does not convert the byte order. -/
def oscBundleReaderGetTimetag (reader : OscBundleReader) : Option UInt64 :=
  (loadNative P m (reader.bundlePtr + 8) 8).map UInt64.ofNat

/-- The outputs `*start` and `*len` of `osc_bundle_reader_next`. -/
structure OscElement where
  start : Int
  len : Int
  deriving DecidableEq, Repr

/-- `osc_bundle_reader_next`. -/
def oscBundleReaderNext (reader : OscBundleReader) :
    Option (Int × Option OscElement × OscBundleReader) :=
  if reader.msgPtr = reader.bundleEnd then some (oscEnd, none, reader)
  else do
    let raw ← loadNative P m reader.msgPtr 4
    let start := reader.msgPtr + 4
    let len := (oscNtoh32 P (UInt32.ofNat raw)).toInt32.toInt
    let reader := { reader with msgPtr := start + len }
    if reader.msgPtr > reader.bundleEnd then some (oscError, some ⟨start, len⟩, reader)
    else do
      let type ← oscPacketGetType m start len
      some (type, some ⟨start, len⟩, reader)

/-! ## Messages -/

/-- `osc_msg_reader_init`. The length of the address goes through an `int`, the
length of the tags does not. -/
def oscMsgReaderInit (reader : OscMsgReader) (buffer len : Int) :
    Option (Int × OscMsgReader) := do
  let reader := { reader with msgPtr := buffer, msgEnd := buffer + len }
  let n ← strlen m reader.msgPtr
  let typePtr := reader.msgPtr + wrap32 (round32Size (n + 1))
  if typePtr > reader.msgEnd then some (oscError, reader)
  else if typePtr = reader.msgEnd then
    some (oscOk, { reader with typePtr := none, argPtr := none })
  else do
    let b ← loadByte m typePtr
    if b = ','.toUInt8 then do
      let k ← strlen m typePtr
      let argPtr := typePtr + round32Size (k + 1)
      if argPtr > reader.msgEnd then some (oscError, reader)
      else some (oscOk, { reader with typePtr := some (typePtr + 1), argPtr := some argPtr })
    else some (oscOk, { reader with typePtr := none, argPtr := some typePtr })

/-- `osc_msg_reader_is_typed`. -/
def oscMsgReaderIsTyped (reader : OscMsgReader) : Bool := reader.typePtr.isSome

/-- `osc_msg_reader_get_address`. -/
def oscMsgReaderGetAddress (reader : OscMsgReader) : Int := reader.msgPtr

/-- `osc_msg_reader_next_arg`; the result is the byte of its `char`. -/
def oscMsgReaderNextArg (reader : OscMsgReader) : Option (UInt8 × OscMsgReader) :=
  match reader.typePtr with
  | some typePtr => do
      let curr ← loadByte m typePtr
      if curr ≠ 0 then some (curr, { reader with typePtr := some (typePtr + 1) })
      else some (charByte oscEnd, reader)
  | none => some (charByte oscError, reader)

/-- The getters that are an instance of `READ_FIXED`, which loads a word of `k`
bytes at the argument pointer. -/
def readFixed {α : Type} (k : Nat) (decode : Nat → α) (reader : OscMsgReader) :
    Option (Int × Option α × OscMsgReader) := do
  let argPtr ← reader.argPtr
  if reader.msgEnd - argPtr < k then some (oscError, none, reader)
  else do
    let raw ← loadNative P m argPtr k
    some (oscOk, some (decode raw), { reader with argPtr := some (argPtr + k) })

def oscMsgReaderGetArgInt32 : OscMsgReader → Option (Int × Option Int32 × OscMsgReader) :=
  readFixed P m 4 fun raw => (oscNtoh32 P (UInt32.ofNat raw)).toInt32

def oscMsgReaderGetArgInt64 : OscMsgReader → Option (Int × Option Int64 × OscMsgReader) :=
  readFixed P m 8 fun raw => (oscNtoh64 P (UInt64.ofNat raw)).toInt64

def oscMsgReaderGetArgTimetag : OscMsgReader → Option (Int × Option UInt64 × OscMsgReader) :=
  readFixed P m 8 fun raw => oscNtoh64 P (UInt64.ofNat raw)

def oscMsgReaderGetArgFloat : OscMsgReader → Option (Int × Option UInt32 × OscMsgReader) :=
  readFixed P m 4 fun raw => oscNtoh32 P (UInt32.ofNat raw)

def oscMsgReaderGetArgDouble : OscMsgReader → Option (Int × Option UInt64 × OscMsgReader) :=
  readFixed P m 8 fun raw => oscNtoh64 P (UInt64.ofNat raw)

/-- `osc_msg_reader_get_arg_str`. -/
def oscMsgReaderGetArgStr (reader : OscMsgReader) :
    Option (Int × Option Int × OscMsgReader) := do
  let argPtr ← reader.argPtr
  let n ← strlen m argPtr
  let len := wrap32 (round32Size (n + 1))
  if argPtr + len > reader.msgEnd then some (oscError, none, reader)
  else some (oscOk, some argPtr, { reader with argPtr := some (argPtr + len) })

/-- The outputs `*sz` and `*val` of `osc_msg_reader_get_arg_blob`, which assigns
them in this order. -/
structure OscBlob where
  sz : Option Int32
  val : Option Int
  deriving DecidableEq

/-- `osc_msg_reader_get_arg_blob`. -/
def oscMsgReaderGetArgBlob (reader : OscMsgReader) :
    Option (Int × OscBlob × OscMsgReader) := do
  let (_, sz, reader) ← oscMsgReaderGetArgInt32 P m reader
  match sz with
  | none => some (oscError, ⟨none, none⟩, reader)
  | some sz => do
      let argPtr ← reader.argPtr
      let roundedSz := round32 sz.toInt
      if argPtr + roundedSz > reader.msgEnd then some (oscError, ⟨some sz, none⟩, reader)
      else
        some (oscOk, ⟨some sz, some argPtr⟩,
          { reader with argPtr := some (argPtr + roundedSz) })

/-- `osc_arg_t`. The members of its union share eight bytes of storage. -/
structure OscArg where
  type : UInt8
  val : List UInt8
  length_val : val.length = 8

namespace OscArg

/-- An assignment to a member of four bytes. -/
def set32 (arg : OscArg) (x : UInt32) : OscArg where
  type := arg.type
  val := overwrite arg.val 0 (native P.order 4 x.toNat)
  length_val := by
    rw [length_overwrite (by rw [length_native, arg.length_val]; decide)]
    exact arg.length_val

/-- An assignment to a member of eight bytes. -/
def set64 (arg : OscArg) (x : UInt64) : OscArg where
  type := arg.type
  val := overwrite arg.val 0 (native P.order 8 x.toNat)
  length_val := by
    rw [length_overwrite (by rw [length_native, arg.length_val])]
    exact arg.length_val

end OscArg

/-- The address of a pointer into an object that lies at `base`. -/
def address (base p : Int) : UInt64 := UInt64.ofNat ((base + p) % 18446744073709551616).toNat

/-- The `switch` of `osc_msg_reader_get_arg` over the tag `t`. -/
def getArgSwitch (base : Int) (t : UInt8) (reader : OscMsgReader) (arg : OscArg) :
    Option (Int × OscArg × OscMsgReader) :=
  if t = 'T'.toUInt8 ∨ t = 'F'.toUInt8 ∨ t = 'N'.toUInt8 ∨ t = 'I'.toUInt8 then
    some (oscOk, arg, reader)
  else if t = 'i'.toUInt8 then
    (oscMsgReaderGetArgInt32 P m reader).map fun (ret, val, reader) =>
      (ret, val.elim arg fun v => arg.set32 P v.toUInt32, reader)
  else if t = 'h'.toUInt8 then
    (oscMsgReaderGetArgInt64 P m reader).map fun (ret, val, reader) =>
      (ret, val.elim arg fun v => arg.set64 P v.toUInt64, reader)
  else if t = 't'.toUInt8 then
    (oscMsgReaderGetArgTimetag P m reader).map fun (ret, val, reader) =>
      (ret, val.elim arg fun v => arg.set64 P v, reader)
  else if t = 'f'.toUInt8 then
    (oscMsgReaderGetArgFloat P m reader).map fun (ret, val, reader) =>
      (ret, val.elim arg fun v => arg.set32 P v, reader)
  else if t = 'd'.toUInt8 then
    (oscMsgReaderGetArgDouble P m reader).map fun (ret, val, reader) =>
      (ret, val.elim arg fun v => arg.set64 P v, reader)
  else if t = 'k'.toUInt8 ∨ t = 's'.toUInt8 ∨ t = 'S'.toUInt8 then
    (oscMsgReaderGetArgStr m reader).map fun (ret, val, reader) =>
      (ret, val.elim arg fun p => arg.set64 P (address base p), reader)
  else if t = 'b'.toUInt8 then
    (oscMsgReaderGetArgBlob P m reader).map fun (ret, out, reader) =>
      let arg := out.sz.elim arg fun sz => arg.set32 P sz.toUInt32
      (ret, out.val.elim arg fun p => arg.set64 P (address base p), reader)
  else some (oscError, arg, reader)

/-- `osc_msg_reader_get_arg` over an object that lies at the address `base`. -/
def oscMsgReaderGetArg (base : Int) (reader : OscMsgReader) (arg : OscArg) :
    Option (Int × OscArg × OscMsgReader) := do
  let (t, reader) ← oscMsgReaderNextArg m reader
  if charValue P t < 0 then some (charValue P t, arg, reader)
  else getArgSwitch P m base t reader { arg with type := t }

end LittleOscar
