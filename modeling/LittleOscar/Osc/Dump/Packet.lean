import LittleOscar.Osc.Dump.Line

/-!
# Packets and their text

`OscPacket` is a packet of the format: a message, or a bundle whose elements are packets
again. A reader tells the two apart by the first byte, so the address of a message does not
begin with a number sign. `OscPacket.encode` are the bytes that stand for a packet and
`OscPacket.text` is what a dump of it should say. Nothing of the code is read here.

The words for a blob have to know where the packet lies: see `blobText`. A bundle without
elements has no text.
-/

namespace LittleOscar.UdpDump

open Machine

/-- The address of a message that is not taken for a bundle. -/
structure MessageAddress extends CString where
  head_ne : bytes.head? ≠ some '#'.toUInt8

/-- A packet of the format. -/
inductive OscPacket where
  | message (address : MessageAddress) (args : List OscArgument)
  | bundle (timetag : UInt64) (elements : List OscPacket)

mutual

/-- The reference encoding of a packet. -/
def OscPacket.encode : OscPacket → List UInt8
  | .message address args => encodeMessage address.toCString args
  | .bundle timetag elements => encodeBundle timetag (encodeEach elements)

/-- The encodings of a list of packets. -/
def encodeEach : List OscPacket → List (List UInt8)
  | [] => []
  | packet :: packets => packet.encode :: encodeEach packets

end

/-! ## The text -/

section Text

variable (P : Platform) (F : FloatText) (base : Int)

/-- The words for an argument whose payload lies at `p`. -/
def valueText (p : Int) : OscArgument → List UInt8
  | .boolTrue => literal "true"
  | .boolFalse => literal "false"
  | .null => literal "null"
  | .infinity => literal "infinity"
  | .int32 v => decimal v.toInt
  | .int64 v => decimal v.toInt
  | .timetag v => literal "timetag: " ++ decimal v.toInt64.toInt
  | .float bits => F.single bits
  | .double bits => F.double bits
  | .string _ s => s.bytes
  | .blob _ => blobText P base (p + 4)

/-- A line for each argument, with its tag. The payloads lie at `p`. -/
def argLines (indent p : Int) : List OscArgument → List UInt8
  | [] => []
  | arg :: args => pIndent indent ++ arg.tag :: literal ": " ++
      endLine (valueText P F base p arg) ++ argLines indent (p + arg.payload.length) args

/-- The lines of a message at `buffer`: its address, and under it its arguments. -/
def messageText (buffer indent : Int) (address : CString) (args : List OscArgument) :
    List UInt8 :=
  pIndent indent ++ endLine address.bytes ++ argLines P F base (indent + 1)
    (buffer + paddedSize address.bytes.length + paddedSize (tagString args).length) args

mutual

/-- The lines of a packet at `buffer`. -/
def OscPacket.text (buffer indent : Int) : OscPacket → List UInt8
  | .message address args => messageText P F base buffer indent address.toCString args
  | .bundle _ elements =>
      if elements.isEmpty then []
      else pIndent indent ++ endLine (literal "#bundle (timetag=xxx,sz=xxx)") ++
        elementsText (buffer + 16) (indent + 1) elements

/-- The lines of the elements of a bundle, whose records lie at `p`. -/
def elementsText (p indent : Int) : List OscPacket → List UInt8
  | [] => []
  | packet :: packets => OscPacket.text (p + 4) indent packet ++
      elementsText (p + 4 + packet.encode.length) indent packets

end

end Text

/-! ## The encoding -/

/-- The bytes of the elements of a bundle. -/
def records (packets : List OscPacket) : List UInt8 :=
  ((encodeEach packets).map encodeRecord).flatten

theorem records_cons (packet : OscPacket) (packets : List OscPacket) :
    records (packet :: packets) =
      bigEndian 4 packet.encode.length ++ (packet.encode ++ records packets) := by
  rw [records, encodeEach, List.map_cons, List.flatten_cons, encodeRecord, List.append_assoc,
    records]

theorem length_records_cons (packet : OscPacket) (packets : List OscPacket) :
    (records (packet :: packets)).length =
      4 + packet.encode.length + (records packets).length := by
  rw [records_cons, List.length_append, List.length_append, length_bigEndian]
  omega

/-- The header of a bundle. -/
def header (timetag : UInt64) : List UInt8 :=
  '#'.toUInt8 :: ((['b', 'u', 'n', 'd', 'l', 'e'].map Char.toUInt8 ++ [0]) ++
    bigEndian 8 timetag.toNat)

theorem length_header (timetag : UInt64) : (header timetag).length = 16 := by
  rw [header, List.length_cons, List.length_append, length_bigEndian]
  rfl

theorem encode_bundle (timetag : UInt64) (elements : List OscPacket) :
    (OscPacket.bundle timetag elements).encode = header timetag ++ records elements := by
  rw [OscPacket.encode, encodeBundle, records, header]
  rfl

theorem length_encode_bundle (timetag : UInt64) (elements : List OscPacket) :
    (OscPacket.bundle timetag elements).encode.length = 16 + (records elements).length := by
  rw [encode_bundle, List.length_append, length_header]

mutual

/-- A packet is a multiple of four bytes long. -/
theorem OscPacket.encode_mod : ∀ packet : OscPacket, packet.encode.length % 4 = 0
  | .message address args => by
      rw [OscPacket.encode]
      exact encodeMessage_mod address.toCString args
  | .bundle timetag elements => by
      have hrecords := records_mod elements
      rw [length_encode_bundle]
      omega

theorem records_mod : ∀ packets : List OscPacket, (records packets).length % 4 = 0
  | [] => rfl
  | packet :: packets => by
      have hpacket := packet.encode_mod
      have hrest := records_mod packets
      rw [length_records_cons]
      omega

end

theorem OscPacket.eight_le (packet : OscPacket) : 8 ≤ packet.encode.length := by
  cases packet with
  | message address args =>
      have haddress := four_le_paddedSize address.bytes.length
      have htags := four_le_paddedSize (tagString args).length
      rw [encode, length_encodeMessage]
      omega
  | bundle timetag elements =>
      rw [length_encode_bundle]
      omega

/-- The type that a reader gives a packet. -/
def OscPacket.type : OscPacket → Int
  | .message _ _ => oscMessage
  | .bundle _ _ => oscBundle

/-- The first byte of a message is that of its address, or the NUL behind it. -/
theorem head_encodeMessage (address : MessageAddress) (args : List OscArgument) :
    (encodeMessage address.toCString args).head? ≠ some '#'.toUInt8 := by
  have hhead := address.head_ne
  rw [encodeMessage, padString]
  cases hbytes : address.bytes with
  | nil =>
      simp only [List.nil_append, List.cons_append, List.head?_cons]
      decide
  | cons b bs =>
      rw [hbytes] at hhead
      simpa using hhead

/-- The first byte of a packet tells its type. -/
theorem OscPacket.first (packet : OscPacket) {m : Memory} {p : Int} {b : UInt8}
    (hat : At m p packet.encode) (hb : loadByte m p = some b) :
    (if b = '#'.toUInt8 then oscBundle else oscMessage) = packet.type := by
  have hpos := packet.eight_le
  have hhead : packet.encode.head? = some b := by
    have hload := hat.loadByte_add (i := 0) (by omega)
    rw [Int.natCast_zero, Int.add_zero, hb, ← List.head?_eq_getElem?] at hload
    exact hload.symm
  cases packet with
  | message address args =>
      rw [if_neg, type]
      rintro rfl
      exact head_encodeMessage address args hhead
  | bundle timetag elements =>
      rw [encode_bundle, header, List.cons_append, List.head?_cons] at hhead
      rw [if_pos (Option.some.inj hhead).symm, type]

end LittleOscar.UdpDump
