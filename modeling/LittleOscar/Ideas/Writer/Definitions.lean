import LittleOscar.Osc.Format

/-!
# The writers of `ideas/osc.c`

The functions that write a message and a bundle, over the memory object `m` of the
buffer. Pointers are offsets into it and `NULL` is `none`. A writing function moves its
cursor or returns, with `NULL` or `-1`, and leaves in either case what it stored; a call
that leaves its buffer, or reads past the end of one of its arguments, has no result.

The arguments behind a format are a list, and taking one of another type than the
caller passed has no result. A `float` is passed as a `double`, so the conversion back,
`demote`, is a parameter.
-/

namespace LittleOscar.Ideas

open Machine

/-- An argument behind a format. The 64-bit types share a constructor. -/
inductive VaArg where
  | int (val : Int32)
  | int64 (bits : UInt64)
  | double (bits : UInt64)
  | pointer (object : Object)

/-- The cursor after a write, or `none` for a return in the middle, with the buffer. -/
abbrev Written := Option (Option Int × Memory)

/-- `if (!pos) return -1;` and what follows it. -/
def Written.andThen (r : Written) (next : Int → Memory → Written) : Written := do
  let (pos, m) ← r
  match pos with
  | none => some (none, m)
  | some pos => next pos m

/-- `osc_write_aligned`. -/
def oscWriteAligned (remain : Nat) (source : Memory) (len alreadyWritten : Nat) (buffer : Int)
    (m : Memory) : Written :=
  let unrounded := (len + alreadyWritten) % 18446744073709551616
  let rounded := round32Size unrounded
  if sizeT (rounded - alreadyWritten) > remain then some (none, m)
  else do
    let bytes ← loadBytes source 0 len
    let m ← storeBytes m buffer bytes
    let padding := sizeT (rounded - unrounded)
    let zeros := List.replicate (if padding ≤ 3 then padding else 0) 0
    let m ← storeBytes m (buffer + len) zeros
    some (some (buffer + len + zeros.length), m)

variable (P : Platform) (demote : UInt64 → UInt32)

/-- The bytes of a word of 32 bits in the order that `osc_hton32` gives it. -/
def word32 (x : UInt32) : List UInt8 := native P.order 4 (oscHton32 P x).toNat

def word64 (x : UInt64) : List UInt8 := native P.order 8 (oscHton64 P x).toNat

/-- `WRITE_FIXED`, up to `end`. The argument is taken behind the check. -/
def writeFixed (stop : Int) (size : Nat) (word : Option (List UInt8)) (pos : Int)
    (m : Memory) : Written :=
  if sizeT (stop - pos) < size then some (none, m)
  else do
    let bytes ← word
    let m ← storeBytes m pos bytes
    some (some (pos + size), m)

def vaInt : List VaArg → Option Int32
  | .int val :: _ => some val
  | _ => none

def vaInt64 : List VaArg → Option UInt64
  | .int64 bits :: _ => some bits
  | _ => none

def vaDouble : List VaArg → Option UInt64
  | .double bits :: _ => some bits
  | _ => none

def vaPointer : List VaArg → Option Object
  | .pointer object :: _ => some object
  | _ => none

/-- The `switch` of `osc_writev` over the character `t` of the format. -/
def writeArg (stop : Int) (t : UInt8) (args : List VaArg) (pos : Int) (m : Memory) : Written :=
  if t = 'T'.toUInt8 ∨ t = 'F'.toUInt8 ∨ t = 'N'.toUInt8 ∨ t = 'I'.toUInt8 then
    some (some pos, m)
  else if t = 'i'.toUInt8 then
    writeFixed stop 4 ((vaInt args).map fun val => word32 P val.toUInt32) pos m
  else if t = 'h'.toUInt8 ∨ t = 't'.toUInt8 then
    writeFixed stop 8 ((vaInt64 args).map (word64 P)) pos m
  else if t = 'f'.toUInt8 then
    writeFixed stop 4 ((vaDouble args).map fun bits => word32 P (demote bits)) pos m
  else if t = 'd'.toUInt8 then
    writeFixed stop 8 ((vaDouble args).map (word64 P)) pos m
  else if t = 's'.toUInt8 ∨ t = 'S'.toUInt8 then do
    let stringVal ← vaPointer args
    let n ← strlenFrom stringVal.bytes
    oscWriteAligned (sizeT (stop - pos)) stringVal.bytes (n + 1) 0 pos m
  else if t = 'b'.toUInt8 then
    (writeFixed stop 4 ((vaInt args).map fun val => word32 P val.toUInt32) pos m).andThen
      fun pos m => do
        let realVal ← vaInt args
        let blob ← vaPointer args.tail
        oscWriteAligned (sizeT (stop - pos)) blob.bytes (sizeT realVal.toInt) 0 pos m
  else some (none, m)

/-- The number of arguments that the `switch` takes. -/
def vaCount (t : UInt8) : Nat :=
  if t = 'T'.toUInt8 ∨ t = 'F'.toUInt8 ∨ t = 'N'.toUInt8 ∨ t = 'I'.toUInt8 then 0
  else if t = 'b'.toUInt8 then 2
  else 1

/-- The loop of `osc_writev` over the format. -/
def writeArgs (stop : Int) : List UInt8 → List VaArg → Int → Memory → Written
  | [], _, pos, m => some (some pos, m)
  | t :: format, args, pos, m =>
      (writeArg P demote stop t args pos m).andThen
        (writeArgs stop format (args.drop (vaCount t)))

/-- `osc_writev`, and `osc_write`. -/
def oscWritev (buffer : Int) (bufferLen : Nat) (address format : CString)
    (args : List VaArg) (m : Memory) : Option (Int × Memory) := do
  let stop := buffer + bufferLen
  let (pos, m) ← (oscWriteAligned (sizeT (stop - buffer)) (address.bytes ++ [0])
    (address.bytes.length + 1) 0 buffer m).andThen fun pos m =>
      if stop - pos < 1 then some (none, m)
      else do
        let m ← storeByte m pos ','.toUInt8
        (oscWriteAligned (sizeT (stop - (pos + 1))) (format.bytes ++ [0])
          (format.bytes.length + 1) 1 (pos + 1) m).andThen
            (writeArgs P demote stop format.bytes args)
  match pos with
  | none => some (-1, m)
  | some pos => some (wrap32 (pos - buffer), m)

/-! ## Bundles -/

/-- `osc_bundle_t`. -/
structure OscBundle where
  buffer : Int
  bufferPos : Option Int
  bufferEnd : Int
  len : Nat
  deriving DecidableEq, Repr

/-- `osc_bundle_init`, which assigns every field. -/
def oscBundleInit (buffer : Int) (bufferSz : Nat) : OscBundle where
  buffer := buffer
  bufferPos := some buffer
  bufferEnd := buffer + bufferSz
  len := 0

/-- The eight bytes of `"#bundle"`. -/
def bundleBytes : List UInt8 :=
  ['#', 'b', 'u', 'n', 'd', 'l', 'e'].map Char.toUInt8 ++ [0]

/-- `osc_bundle_start`. -/
def oscBundleStart (when : UInt64) (bundle : OscBundle) (m : Memory) :
    Option (Int × OscBundle × Memory) := do
  let (pos, m) ← oscWriteAligned (sizeT (bundle.bufferEnd - bundle.buffer)) bundleBytes 8 0
    bundle.buffer m
  let bundle := { bundle with bufferPos := pos, len := 0 }
  match pos with
  | none => some (0, bundle, m)
  | some pos =>
      if bundle.bufferEnd - pos < 8 then some (0, bundle, m)
      else do
        let m ← storeBytes m pos (word64 P when)
        let pos := pos + 8
        some (1, { bundle with bufferPos := some pos, len := sizeT (pos - bundle.buffer) }, m)

/-- `osc_bundle_writev`, and `osc_bundle_write`. -/
def oscBundleWritev (address format : CString) (args : List VaArg) (bundle : OscBundle)
    (m : Memory) : Option (Int × OscBundle × Memory) := do
  let bufferBefore ← bundle.bufferPos
  if bundle.bufferEnd - bufferBefore < 4 then some (0, bundle, m)
  else do
    let pos := bufferBefore + 4
    let bundle := { bundle with bufferPos := some pos }
    let (written, m) ← oscWritev P demote pos (sizeT (bundle.bufferEnd - pos)) address format
      args m
    if written < 0 then some (0, bundle, m)
    else do
      let m ← storeBytes m bufferBefore (word32 P (Int32.ofInt written).toUInt32)
      let len := (bundle.len + sizeT (wrap32 (written + 4))) % 18446744073709551616
      some (1, { bundle with bufferPos := some (pos + written), len }, m)

end LittleOscar.Ideas
