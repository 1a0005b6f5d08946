import LittleOscar.Osc.Format

/-!
# The message writer

The functions of `write.c`, on the record of an `osc_writer_t` together with the
memory object it writes to and the file-level variable `k_bundle`. A call gives
its return code and the state after it; a call that leaves the object has no
result.

The cursors are plain integers: they are only moved past bytes that were stored
inside the object, so their increments do not overflow. The quantities that come
from a caller (`nargs`, the size of a blob) go through the wrapping arithmetic of
`int`, and the checks against a `size_t` convert the remaining length to it.
-/

namespace LittleOscar

open Machine

/-- The bits of the `state` field. -/
structure OscWriterState where
  out : Bool
  bundle : Bool
  msg : Bool
  complete : Bool
  deriving DecidableEq, Repr

def OSC_WRITER_OUT : OscWriterState := ⟨true, false, false, false⟩

def OSC_WRITER_BUNDLE : OscWriterState := ⟨false, true, false, false⟩

def OSC_WRITER_COMPLETE : OscWriterState := ⟨false, false, false, true⟩

/-- `osc_writer_t`. -/
structure OscWriter where
  data : Int
  len : Int
  pos : Int
  msgStart : Int
  typePos : Int
  state : OscWriterState
  deriving DecidableEq, Repr

/-- A writer, the memory object its `data` points into and the string that the
file-level pointer `k_bundle` points to. -/
structure WriterState extends OscWriter where
  mem : Memory
  kBundle : CString

/-- The string literal that `k_bundle` is initialised with. -/
def bundleLiteral : CString where
  bytes := ['#'.toUInt8, 'b'.toUInt8, 'u'.toUInt8, 'n'.toUInt8, 'd'.toUInt8, 'l'.toUInt8,
    'e'.toUInt8]
  noNul := by decide
  length_lt := by decide

/-- The second parameter of `osc_msg_writer_init`, which the third tells apart. -/
inductive BufferOrWriter where
  | buffer (data : Int)
  | writer (parent : OscWriter)

/-- `osc_msg_writer_init`. The fields `msg_start` and `type_pos` keep what the
record held before. -/
def oscMsgWriterInit (writer : OscWriter) (arg : BufferOrWriter) (len : Int) :
    Option (Int × OscWriter) :=
  match arg with
  | .buffer data =>
      if len > 0 then
        some (oscOk, { writer with data, len, pos := 0, state := OSC_WRITER_OUT })
      else none
  | .writer parent =>
      if len > 0 then none
      else
        some (oscOk, { writer with
          data := parent.data + parent.pos
          len := parent.len - parent.pos
          pos := 0
          state := OSC_WRITER_OUT })

namespace WriterState

/-- `writer->len - writer->pos`. -/
def remain (s : WriterState) : Int := s.len - s.pos

/-- `writer->data[writer->pos++] = b`. -/
def put (s : WriterState) (b : UInt8) : Option WriterState := do
  let mem ← storeByte s.mem (s.data + s.pos) b
  some { s with mem, pos := s.pos + 1 }

/-- A loop that puts one byte a round. -/
def putAll (s : WriterState) : List UInt8 → Option WriterState
  | [] => some s
  | b :: bs => do
      let s ← s.put b
      s.putAll bs

/-- `PAD()`, whose loop runs at most three rounds. -/
def pad (s : WriterState) : Nat → Option WriterState
  | 0 => some s
  | n + 1 =>
      if s.pos % 4 = 0 then some s
      else do
        let s ← s.put 0
        s.pad n

/-- `WRITE_STRING(str)`. -/
def writeString (s : WriterState) (str : CString) : Option WriterState := do
  let s ← s.putAll str.bytes
  let s ← s.put 0
  s.pad 3

/-- `WRITE_FIXED`: the bytes that the host stores for the word, at once. -/
def writeFixed (s : WriterState) (raw : List UInt8) : Option WriterState := do
  let mem ← storeBytes s.mem (s.data + s.pos) raw
  some { s with mem, pos := s.pos + raw.length }

/-- `ADD_TYPE(t)`. -/
def addType (s : WriterState) (t : UInt8) : Option WriterState := do
  let mem ← storeByte s.mem (s.data + s.typePos) t
  some { s with mem, typePos := s.typePos + 1 }

end WriterState

open WriterState

variable (P : Platform)

/-- `osc_msg_writer_start_msg`. -/
def oscMsgWriterStartMsg (address : CString) (nargs : Int) (s : WriterState) :
    Option (Int × WriterState) :=
  if s.state.msg then some (oscError, s)
  else
    let s := if s.state = OSC_WRITER_BUNDLE then { s with pos := s.pos + 4 } else s
    let s := { s with msgStart := s.pos }
    if sizeT s.remain < round32Size address.bytes.length then some (oscError, s)
    else do
      let s ← s.writeString address
      let nargs := round32 nargs
      if s.remain < nargs then some (oscError, s)
      else do
        let s := { s with typePos := s.pos }
        let s ← s.putAll (List.replicate (loopCount nargs) 0)
        some (oscOk, { s with state := { s.state with msg := true } })

/-- `osc_msg_writer_end_msg`. The length is stored in the byte order of the host. -/
def oscMsgWriterEndMsg (s : WriterState) : Option (Int × WriterState) :=
  if ¬ s.state.msg then some (oscError, s)
  else if s.state.bundle then do
    let mem ← storeBytes s.mem (s.data + (s.msgStart - 4))
      (native P.order 4 ((s.pos - s.msgStart) % 4294967296).toNat)
    some (oscOk, { s with mem, state := { s.state with msg := false } })
  else some (oscOk, { s with state := OSC_WRITER_COMPLETE })

/-- `osc_msg_writer_start_bundle`. `WRITE_STRING` moves `k_bundle` itself to the
terminator of its literal. -/
def oscMsgWriterStartBundle (timetag : UInt64) (s : WriterState) :
    Option (Int × WriterState) :=
  if s.state ≠ OSC_WRITER_OUT then some (oscError, s)
  else if s.remain < 12 then some (oscError, s)
  else do
    let s ← s.writeString s.kBundle
    let s := { s with kBundle := CString.empty }
    let s ← s.writeFixed (native P.order 8 (oscHton64 P timetag).toNat)
    some (oscOk, { s with state := OSC_WRITER_BUNDLE })

/-- `osc_msg_writer_end_bundle`. -/
def oscMsgWriterEndBundle (s : WriterState) : Option (Int × WriterState) :=
  some (oscOk, { s with state := OSC_WRITER_COMPLETE })

/-- The four functions that write a tag and no payload. -/
def writeFlag (t : UInt8) (s : WriterState) : Option (Int × WriterState) := do
  let s ← s.addType t
  some (oscOk, s)

def oscMsgWriteNull : WriterState → Option (Int × WriterState) := writeFlag 'N'.toUInt8

def oscMsgWriteTrue : WriterState → Option (Int × WriterState) := writeFlag 'T'.toUInt8

def oscMsgWriteFalse : WriterState → Option (Int × WriterState) := writeFlag 'F'.toUInt8

def oscMsgWriteInfinity : WriterState → Option (Int × WriterState) := writeFlag 'I'.toUInt8

/-- The functions that write a tag and a word of fixed size. -/
def writeWord (t : UInt8) (raw : List UInt8) (s : WriterState) :
    Option (Int × WriterState) := do
  let s ← s.addType t
  if s.remain < raw.length then some (oscError, s)
  else do
    let s ← s.writeFixed raw
    some (oscOk, s)

def oscMsgWriteInt32 (val : Int32) : WriterState → Option (Int × WriterState) :=
  writeWord 'i'.toUInt8 (native P.order 4 (oscHton32 P val.toUInt32).toNat)

def oscMsgWriteInt64 (val : Int64) : WriterState → Option (Int × WriterState) :=
  writeWord 'h'.toUInt8 (native P.order 8 (oscHton64 P val.toUInt64).toNat)

def oscMsgWriteTimetag (val : UInt64) : WriterState → Option (Int × WriterState) :=
  writeWord 't'.toUInt8 (native P.order 8 (oscHton64 P val).toNat)

/-- `osc_msg_write_float`. The operand of `osc_hton32` is the `float` itself, so
it is converted by value. -/
def oscMsgWriteFloat (val : UInt32) : WriterState → Option (Int × WriterState) :=
  writeWord 'f'.toUInt8 (native P.order 4 (oscHton32 P (P.floatToUInt32 val)).toNat)

/-- `osc_msg_write_double`, where `osc_hton64` takes a `uint64_t`: as a macro of
the little-endian branch it shifts its operand, which C does not allow of a
`double`. -/
def oscMsgWriteDouble (val : UInt64) : WriterState → Option (Int × WriterState) :=
  writeWord 'd'.toUInt8 (native P.order 8 (oscHton64 P (P.doubleToUInt64 val)).toNat)

def oscMsgWriteStr (val : CString) (s : WriterState) : Option (Int × WriterState) := do
  let s ← s.addType 's'.toUInt8
  if sizeT s.remain < round32Size val.bytes.length then some (oscError, s)
  else do
    let s ← s.writeString val
    some (oscOk, s)

/-- `osc_msg_write_blob`; `val` is the memory object of the caller's bytes. -/
def oscMsgWriteBlob (val : Memory) (sz : Int) (s : WriterState) :
    Option (Int × WriterState) := do
  let s ← s.addType 'b'.toUInt8
  if s.remain < wrap32 (4 + round32 sz) then some (oscError, s)
  else do
    let s ← s.writeFixed (native P.order 4 (oscHton32 P (Int32.ofInt sz).toUInt32).toNat)
    let bytes ← loadBytes val 0 (loopCount sz)
    let s ← s.putAll bytes
    let s ← s.pad 3
    some (oscOk, s)

/-- A call of one of the `osc_msg_write_*` functions with its argument. -/
inductive WriteArg where
  | null
  | boolTrue
  | boolFalse
  | infinity
  | int32 (val : Int32)
  | int64 (val : Int64)
  | timetag (val : UInt64)
  | float (val : UInt32)
  | double (val : UInt64)
  | str (val : CString)
  | blob (val : Memory) (sz : Int)

/-- A call on a writer after its initialisation. -/
inductive WriterCall where
  | startBundle (timetag : UInt64)
  | startMsg (address : CString) (nargs : Int)
  | write (arg : WriteArg)
  | endMsg
  | endBundle

/-- The function that a `WriteArg` calls. -/
def oscMsgWrite : WriteArg → WriterState → Option (Int × WriterState)
  | .null => oscMsgWriteNull
  | .boolTrue => oscMsgWriteTrue
  | .boolFalse => oscMsgWriteFalse
  | .infinity => oscMsgWriteInfinity
  | .int32 val => oscMsgWriteInt32 P val
  | .int64 val => oscMsgWriteInt64 P val
  | .timetag val => oscMsgWriteTimetag P val
  | .float val => oscMsgWriteFloat P val
  | .double val => oscMsgWriteDouble P val
  | .str val => oscMsgWriteStr val
  | .blob val sz => oscMsgWriteBlob P val sz

/-- The function that a `WriterCall` calls. -/
def writerCall : WriterCall → WriterState → Option (Int × WriterState)
  | .startBundle timetag => oscMsgWriterStartBundle P timetag
  | .startMsg address nargs => oscMsgWriterStartMsg address nargs
  | .write arg => oscMsgWrite P arg
  | .endMsg => oscMsgWriterEndMsg P
  | .endBundle => oscMsgWriterEndBundle

/-- The writer that `osc_msg_writer_init(writer, buffer, len)` makes of the record
`w` over a buffer of `len` bytes, which is the whole object. -/
def freshWriter (w : OscWriter) (buffer : Memory) (kBundle : CString) :
    Option WriterState := do
  let (_, w) ← oscMsgWriterInit w (.buffer 0) buffer.length
  some { toOscWriter := w, mem := buffer, kBundle }

/-- A record that holds only zeros, as a static `osc_writer_t` does. -/
def zeroWriter : OscWriter := ⟨0, 0, 0, 0, 0, ⟨false, false, false, false⟩⟩

/-- The state after a call, whatever it returned. -/
def writerStep (s : WriterState) (c : WriterCall) : Option WriterState :=
  (writerCall P c s).map Prod.snd

end LittleOscar
