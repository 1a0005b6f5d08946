import LittleOscar.Osc.Reader.Definitions

/-!
# The reader of `ideas/osc.c`

One record reads a packet, its bundle and its messages. `osc_reader_init` rewrites the
packet, so it gives the memory object after it. Its loop adds whatever the packet says
to its pointer and need not end; it is run on `fuel`, and what it returns does not
depend on how much of it is left (`initWalk_mono`).
-/

namespace LittleOscar.Ideas

open Machine

/-- `OSC_NOW`. -/
def oscNow : UInt64 := 1

/-- `osc_reader_t`. -/
structure OscReader where
  buffer : Int
  bufferEnd : Int
  isBundle : Int
  msgPtr : Option Int
  msgEnd : Option Int
  typePtr : Option Int
  argPtr : Option Int
  deriving DecidableEq, Repr

variable (P : Platform) (m : Memory)

/-- Whether `strcmp` returns 0 for the string `s` and the one at `p`. It stops at the
first difference. -/
def strcmpEq (m : Memory) : List UInt8 → Int → Option Bool
  | [], p => (loadByte m p).map fun b => decide (b = 0)
  | c :: s, p => do
      let b ← loadByte m p
      if b = c then strcmpEq m s (p + 1) else some false

/-- The loop of `osc_reader_init`, with `msg_start` at the pointer. -/
def initWalk (bufferEnd : Int) : Nat → Memory → Int → Option (Memory × Int)
  | 0, _, _ => none
  | fuel + 1, m, msgStart =>
      if msgStart < bufferEnd then do
        let raw ← loadNative P m (msgStart - 4) 4
        let hbLen := (oscNtoh32 P (UInt32.ofNat raw)).toInt32
        let m ← storeBytes m (msgStart - 4) (native P.order 4 hbLen.toUInt32.toNat)
        initWalk bufferEnd fuel m (msgStart + hbLen.toInt)
      else some (m, msgStart)

/-- The string `"#bundle"`. -/
def bundleName : List UInt8 := ['#', 'b', 'u', 'n', 'd', 'l', 'e'].map Char.toUInt8

/-- `osc_reader_init`. The field `is_bundle` is not assigned where it returns an error. -/
def oscReaderInit (fuel : Nat) (reader : OscReader) (buffer : Int) (packetLen : Nat)
    (m : Memory) : Option (Int × OscReader × Memory) := do
  let reader : OscReader := { reader with
    buffer
    bufferEnd := buffer + packetLen
    msgPtr := none
    msgEnd := none
    typePtr := none
    argPtr := none }
  if ← strcmpEq m bundleName reader.buffer then do
    let (m, msgStart) ← initWalk P reader.bufferEnd fuel m (reader.buffer + 20)
    if msgStart ≠ reader.bufferEnd then some (oscError, reader, m)
    else some (oscOk, { reader with isBundle := 1 }, m)
  else some (oscOk, { reader with isBundle := 0 }, m)

/-- `osc_reader_is_bundle`. -/
def oscReaderIsBundle (reader : OscReader) : Int := reader.isBundle

/-- `osc_reader_get_timetag`, which does not convert the byte order. -/
def oscReaderGetTimetag (reader : OscReader) : Option UInt64 :=
  if reader.isBundle ≠ 0 then
    (loadNative P m (reader.buffer + 8) 8).map UInt64.ofNat
  else some oscNow

/-- The length in front of the message at `msgPtr`, as the host reads it. -/
def hostLength (msgPtr : Int) : Option Int :=
  (loadNative P m (msgPtr - 4) 4).map fun raw => (UInt32.ofNat raw).toInt32.toInt

/-- The first half of `osc_reader_start_msg`: where the next message lies. -/
def nextRange (reader : OscReader) : Option OscReader :=
  if reader.isBundle ≠ 0 then
    match reader.msgPtr, reader.msgEnd with
    | none, none => do
        let msgPtr := reader.buffer + 20
        let len ← hostLength P m msgPtr
        some { reader with msgPtr := some msgPtr, msgEnd := some (msgPtr + len) }
    | some _, some msgEnd =>
        if msgEnd = reader.bufferEnd then some { reader with msgPtr := none }
        else do
          let msgPtr := msgEnd + 4
          let len ← hostLength P m msgPtr
          some { reader with msgPtr := some msgPtr, msgEnd := some (msgPtr + len) }
    | some _, none => none
    | none, some _ => some reader
  else
    match reader.msgPtr, reader.msgEnd with
    | none, none =>
        some { reader with msgPtr := some reader.buffer, msgEnd := some reader.bufferEnd }
    | _, _ => some { reader with msgPtr := none }

/-- The second half: the parts of the message from `msgPtr` to `msgEnd`. -/
def startParts (msgPtr msgEnd : Int) (reader : OscReader) : Option (Int × OscReader) :=
  if (msgEnd - msgPtr) % 4 ≠ 0 then some (oscError, reader)
  else do
    let n ← strlen m msgPtr
    let typePtr := msgPtr + round32Size (n + 1)
    if typePtr > msgEnd then some (oscError, reader)
    else if typePtr = msgEnd then
      some (oscOk, { reader with typePtr := none, argPtr := none })
    else do
      let b ← loadByte m typePtr
      if b = ','.toUInt8 then do
        let k ← strlen m typePtr
        let argPtr := typePtr + round32Size (k + 1)
        if argPtr > msgEnd then some (oscError, reader)
        else some (oscOk, { reader with typePtr := some (typePtr + 1), argPtr := some argPtr })
      else some (oscOk, { reader with typePtr := none, argPtr := some typePtr })

/-- `osc_reader_start_msg`. -/
def oscReaderStartMsg (reader : OscReader) : Option (Int × OscReader) := do
  let reader ← nextRange P m reader
  match reader.msgPtr with
  | none => some (oscEnd, reader)
  | some msgPtr => do
      let msgEnd ← reader.msgEnd
      startParts m msgPtr msgEnd reader

/-- `osc_reader_msg_is_typed`. -/
def oscReaderMsgIsTyped (reader : OscReader) : Bool := reader.typePtr.isSome

/-- `osc_reader_get_msg_address`. -/
def oscReaderGetMsgAddress (reader : OscReader) : Option Int := reader.msgPtr

/-- `osc_reader_next_arg`; the result is the byte of its `char`. -/
def oscReaderNextArg (reader : OscReader) : Option (UInt8 × OscReader) :=
  match reader.typePtr with
  | some typePtr => do
      let curr ← loadByte m typePtr
      if curr ≠ 0 then some (curr, { reader with typePtr := some (typePtr + 1) })
      else some (charByte oscEnd, reader)
  | none => some (charByte oscError, reader)

/-- The getters that are an instance of `READ_FIXED`, which compares with a `size_t`. -/
def readFixed {α : Type} (k : Nat) (decode : Nat → α) (reader : OscReader) :
    Option (Int × Option α × OscReader) := do
  let argPtr ← reader.argPtr
  let msgEnd ← reader.msgEnd
  if sizeT (msgEnd - argPtr) < k then some (oscError, none, reader)
  else do
    let raw ← loadNative P m argPtr k
    some (oscOk, some (decode raw), { reader with argPtr := some (argPtr + k) })

def oscReaderGetArgInt32 : OscReader → Option (Int × Option Int32 × OscReader) :=
  readFixed P m 4 fun raw => (oscNtoh32 P (UInt32.ofNat raw)).toInt32

def oscReaderGetArgInt64 : OscReader → Option (Int × Option Int64 × OscReader) :=
  readFixed P m 8 fun raw => (oscNtoh64 P (UInt64.ofNat raw)).toInt64

def oscReaderGetArgTimetag : OscReader → Option (Int × Option UInt64 × OscReader) :=
  readFixed P m 8 fun raw => oscNtoh64 P (UInt64.ofNat raw)

def oscReaderGetArgFloat : OscReader → Option (Int × Option UInt32 × OscReader) :=
  readFixed P m 4 fun raw => oscNtoh32 P (UInt32.ofNat raw)

def oscReaderGetArgDouble : OscReader → Option (Int × Option UInt64 × OscReader) :=
  readFixed P m 8 fun raw => oscNtoh64 P (UInt64.ofNat raw)

/-- `osc_reader_get_arg_str`. -/
def oscReaderGetArgStr (reader : OscReader) : Option (Int × Option Int × OscReader) := do
  let argPtr ← reader.argPtr
  let n ← strlen m argPtr
  let msgEnd ← reader.msgEnd
  let len := round32Size (n + 1)
  if argPtr + len > msgEnd then some (oscError, none, reader)
  else some (oscOk, some argPtr, { reader with argPtr := some (argPtr + len) })

/-- `osc_reader_get_arg_blob`. -/
def oscReaderGetArgBlob (reader : OscReader) : Option (Int × OscBlob × OscReader) := do
  let (_, sz, reader) ← oscReaderGetArgInt32 P m reader
  match sz with
  | none => some (oscError, ⟨none, none⟩, reader)
  | some sz => do
      let argPtr ← reader.argPtr
      let msgEnd ← reader.msgEnd
      let roundedSz := round32 sz.toInt
      if argPtr + roundedSz > msgEnd then some (oscError, ⟨some sz, none⟩, reader)
      else
        some (oscOk, ⟨some sz, some argPtr⟩,
          { reader with argPtr := some (argPtr + roundedSz) })

end LittleOscar.Ideas
