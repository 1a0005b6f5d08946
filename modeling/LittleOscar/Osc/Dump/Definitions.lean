import LittleOscar.Osc.Reader.Argument

/-!
# The program `udp_dump`

The functions of `udp_dump.c` with the text they print, which is a list of bytes. The
program keeps one buffer for all datagrams. It lies at the address `base`, and the
pointers that `osc_msg_reader_get_arg` leaves in an `osc_arg_t` are addresses, so
printing a string follows one back into the buffer.

What `printf` makes of a `float` and of a `double` under `%f` is the matter of the C
library and a parameter, `FloatText`. A `long` has 64 bits. The local variables are not
initialised; `Locals` is what they hold when a call begins.
-/

namespace LittleOscar.UdpDump

open Machine

/-- The text of a string literal. -/
def literal (s : String) : List UInt8 := s.toList.map Char.toUInt8

/-- The line that ends with `bytes`. -/
def endLine (bytes : List UInt8) : List UInt8 := bytes ++ ['\n'.toUInt8]

/-- What `%d` and `%ld` print. -/
def decimal (i : Int) : List UInt8 :=
  (if i < 0 then ['-'.toUInt8] else []) ++ (Nat.toDigits 10 i.natAbs).map Char.toUInt8

/-- What `%f` prints for a `float`, which is passed as a `double`, and for a `double`. -/
structure FloatText where
  single : UInt32 → List UInt8
  double : UInt64 → List UInt8

/-- `p_indent`. -/
def pIndent (c : Int) : List UInt8 := (List.replicate (loopCount c) (literal "  ")).flatten

/-- The offset of an address in an object that lies at `base`. -/
def offset (base : Int) (x : UInt64) : Int := (x.toNat : Int) - base

/-- The local variables of `dump_osc_packet` and `dump_osc_message` before they are
assigned. -/
structure Locals where
  mr : OscMsgReader
  br : OscBundleReader
  arg : OscArg

variable (P : Platform) (F : FloatText) (m : Memory) (base : Int)

/-- The `switch` of `dump_osc_message`. The size of a blob is read through a union with its
address. -/
def argText (arg : OscArg) : Option (List UInt8) :=
  if arg.type = 'T'.toUInt8 then some (endLine (literal "true"))
  else if arg.type = 'F'.toUInt8 then some (endLine (literal "false"))
  else if arg.type = 'N'.toUInt8 then some (endLine (literal "null"))
  else if arg.type = 'I'.toUInt8 then some (endLine (literal "infinity"))
  else if arg.type = 'i'.toUInt8 then
    some (endLine (decimal (arg.get32 P).toInt32.toInt))
  else if arg.type = 'h'.toUInt8 then
    some (endLine (decimal (arg.get64 P).toInt64.toInt))
  else if arg.type = 't'.toUInt8 then
    some (endLine (literal "timetag: " ++ decimal (arg.get64 P).toInt64.toInt))
  else if arg.type = 'f'.toUInt8 then some (endLine (F.single (arg.get32 P)))
  else if arg.type = 'd'.toUInt8 then some (endLine (F.double (arg.get64 P)))
  else if arg.type = 's'.toUInt8 ∨ arg.type = 'S'.toUInt8 ∨ arg.type = 'k'.toUInt8 then
    (stringAt m (offset base (arg.get64 P))).map endLine
  else if arg.type = 'b'.toUInt8 then
    some (endLine (literal "blob, " ++ decimal (arg.get32 P).toInt32.toInt ++
      literal " byte(s)"))
  else some (endLine (literal "(unknown argument type)"))

/-- The loop of `dump_osc_message`, for at most `fuel` calls: what it prints, and the reader
after the call that does not return `OSC_OK`. -/
def dumpArgs (indent : Int) : Nat → OscMsgReader → OscArg →
    Option (List UInt8 × OscMsgReader)
  | 0, _, _ => none
  | fuel + 1, reader, arg => do
      let (ret, arg, reader) ← oscMsgReaderGetArg P m base reader arg
      if ret = oscOk then do
        let text ← argText P F m base arg
        let (rest, reader) ← dumpArgs indent fuel reader arg
        some (pIndent indent ++ arg.type :: literal ": " ++ text ++ rest, reader)
      else some ([], reader)

/-- `dump_osc_message`. -/
def dumpOscMessage (fuel : Nat) (locals : Locals) (reader : OscMsgReader) (indent : Int) :
    Option (List UInt8 × OscMsgReader) := do
  let address ← stringAt m (oscMsgReaderGetAddress reader)
  let head := pIndent indent ++ endLine address
  if oscMsgReaderIsTyped reader then do
    let (text, reader) ← dumpArgs P F m base (indent + 1) fuel reader locals.arg
    some (head ++ text, reader)
  else
    some (head ++ pIndent (indent + 1) ++ endLine (literal "(message has no type tag)"), reader)

mutual

/-- `dump_osc_packet`, for at most `fuel` calls and rounds inside each other. The calls for
the bundles in a bundle have variables of their own; they find in them what this call found
in its own, and print the same whatever that is (`dump_same`). -/
def dumpOscPacket (locals : Locals) : Nat → Int → Int → Int → Option (List UInt8)
  | 0, _, _, _ => none
  | fuel + 1, buffer, len, indent => do
      let type ← oscPacketGetType m buffer len
      if type = oscMessage then do
        let (ret, mr) ← oscMsgReaderInit m locals.mr buffer len
        if ret = oscOk then (dumpOscMessage P F m base fuel locals mr indent).map Prod.fst
        else some []
      else if type = oscBundle then
        let (ret, br) := oscBundleReaderInit locals.br buffer len
        if ret = oscOk then do
          let text ← dumpElements locals fuel locals.mr br indent
          some (pIndent indent ++ endLine (literal "#bundle (timetag=xxx,sz=xxx)") ++ text)
        else some []
      else some []

/-- Its loop over the elements of a bundle. A message that is refused ends the loop, a
bundle does not. -/
def dumpElements (locals : Locals) : Nat → OscMsgReader → OscBundleReader → Int →
    Option (List UInt8)
  | 0, _, _, _ => none
  | fuel + 1, mr, br, indent => do
      let (type, out, br) ← oscBundleReaderNext P m br
      if type > oscOk then do
        let element ← out
        if type = oscMessage then do
          let (ret, mr) ← oscMsgReaderInit m mr element.start element.len
          if ret = oscOk then do
            let (text, mr) ← dumpOscMessage P F m base fuel locals mr (indent + 1)
            let rest ← dumpElements locals fuel mr br indent
            some (text ++ rest)
          else some []
        else do
          let text ← dumpOscPacket locals fuel element.start element.len (indent + 1)
          let rest ← dumpElements locals fuel mr br indent
          some (text ++ rest)
      else some []

end

/-- `BUFFER_SIZE`. -/
def bufferSize : Nat := 1536

/-- A return of `recvfrom`: with a datagram, or with `-1`; and what the locals of the call
that follows hold. -/
structure Arrival where
  datagram : Option (List UInt8)
  locals : Locals

/-- `recvfrom` into the first `size` bytes of the buffer. It cuts off what does not fit. -/
def recvfrom (size : Nat) (datagram : Option (List UInt8)) (buffer : Memory) : Int × Memory :=
  match datagram with
  | none => (-1, buffer)
  | some bytes => ((bytes.take size).length, overwrite buffer 0 (bytes.take size))

/-- The loop of `main`, for the arrivals so far. -/
def receiveLoop (fuel : Nat) : List Arrival → Memory → Option (List UInt8)
  | [], _ => some []
  | arrival :: arrivals, buffer => do
      let (n, buffer) := recvfrom (bufferSize - 1) arrival.datagram buffer
      let text ← dumpOscPacket P F buffer base arrival.locals fuel 0 n 0
      let rest ← receiveLoop fuel arrivals buffer
      some (text ++ rest)

end LittleOscar.UdpDump
