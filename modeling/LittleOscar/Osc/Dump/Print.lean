import LittleOscar.Osc.Dump.Packet
import LittleOscar.Osc.Dump.Receive
import LittleOscar.Osc.Reader.Decode

/-!
# What is printed for an encoded packet

`dumpOscPacket_encode` is the correctness of `dump_osc_packet` on the reference encoding:
wherever in an object a packet lies, it is printed as its text, however deep its bundles are
nested. The proof follows the packet; for the elements of a bundle it follows the list. So
the loop of `main` prints the texts of the packets that it receives (`receiveLoop_encode`).
-/

namespace LittleOscar.UdpDump

open Machine

/-- The kind of an argument. -/
def argKind : OscArgument → ArgKind
  | .boolTrue | .boolFalse | .null | .infinity => .empty
  | .int32 _ => .int32
  | .int64 _ => .int64
  | .timetag _ => .timetag
  | .float _ => .float
  | .double _ => .double
  | .string _ _ => .str
  | .blob _ => .blob

theorem ofTag_tag (arg : OscArgument) : ArgKind.ofTag arg.tag = some (argKind arg) := by
  cases arg with
  | string tag s => cases tag <;> rfl
  | _ => rfl

variable {P : Platform} {F : FloatText} {m : Memory} {base : Int}

/-! ## Arguments -/

section Argument

variable {reader : OscMsgReader} {q p : Int}

/-- The getter of an argument gives an output that is printed as the argument. -/
theorem getter_text {arg : OscArgument} (harg : reader.argPtr = some p)
    (hat : At m p arg.payload) (hlt : arg.payload.length < 2147483648)
    (hend : p + arg.payload.length ≤ reader.msgEnd) :
    ∃ output, (argKind arg).getter P m reader =
        some (oscOk, some output, { reader with argPtr := some (p + arg.payload.length) }) ∧
      outputText P F m base arg.tag output = some (endLine (valueText P F base p arg)) := by
  have hreturns := getterReturns_of_at (P := P) harg hat hlt hend
  have hmoved : { reader with argPtr := some (p + (0 : Nat)) } = reader := by
    rw [Int.natCast_zero, Int.add_zero, ← harg]
  cases arg with
  | boolTrue | boolFalse | null | infinity =>
      exact ⟨.empty, congrArg (fun reader => some (oscOk, some ArgOutput.empty, reader))
        hmoved.symm, rfl⟩
  | int32 v =>
      rw [GetterReturns] at hreturns
      exact ⟨.int32 v, by rw [argKind, ArgKind.getter, hreturns]; rfl, rfl⟩
  | int64 v =>
      rw [GetterReturns] at hreturns
      exact ⟨.int64 v, by rw [argKind, ArgKind.getter, hreturns]; rfl, rfl⟩
  | timetag v =>
      rw [GetterReturns] at hreturns
      exact ⟨.timetag v, by rw [argKind, ArgKind.getter, hreturns]; rfl, rfl⟩
  | float bits =>
      rw [GetterReturns] at hreturns
      exact ⟨.float bits, by rw [argKind, ArgKind.getter, hreturns]; rfl, rfl⟩
  | double bits =>
      rw [GetterReturns] at hreturns
      exact ⟨.double bits, by rw [argKind, ArgKind.getter, hreturns]; rfl, rfl⟩
  | string tag s =>
      obtain ⟨p', hget, hstring⟩ := hreturns
      refine ⟨.str p', by rw [argKind, ArgKind.getter, hget]; rfl, ?_⟩
      rw [outputText, hstring, Option.map_some, valueText]
  | blob bytes =>
      obtain ⟨sz, p', hget, -, -⟩ := hreturns
      refine ⟨.blob sz p', by rw [argKind, ArgKind.getter, hget]; rfl, ?_⟩
      rcases getArgBlob_cases P m reader with
        ⟨p₁, bs, sz₁, hblob, -, hcall⟩ | ⟨-, hnone | ⟨out, reader₁, herror⟩⟩
      · obtain rfl := Option.some.inj (harg.symm.trans hblob.argPtr)
        have hout := congrArg (·.2.1.val) (Option.some.inj (hget.symm.trans hcall))
        obtain rfl := Option.some.inj hout
        rfl
      · rw [hget] at hnone
        cases hnone
      · have hret := congrArg Prod.fst (Option.some.inj (hget.symm.trans herror))
        exact absurd hret.symm oscError_ne_oscOk

/-- A call that prints what a getter gives has filled the `osc_arg_t`. -/
theorem Prints.exists_arg {t : UInt8} {x : Option (Int × OscArg × OscMsgReader)}
    {output : ArgOutput} (h : Prints P F base t x (some (oscOk, some output, reader))) :
    ∃ arg, x = some (oscOk, arg, reader) ∧ arg.type = t ∧
      ∀ m', argText P F m' base arg = outputText P F m' base t output := by
  cases x with
  | none => exact h.elim
  | some x =>
      obtain ⟨ret, arg, reader'⟩ := x
      obtain ⟨rfl, rfl, hok⟩ := h
      obtain ⟨htype, output', houtput, htext⟩ := hok rfl
      obtain rfl := Option.some.inj houtput
      exact ⟨arg, rfl, htype, htext⟩

/-- Behind the tags the loop ends, whether `char` is signed or not. -/
theorem dumpArgs_of_nul (htype : reader.typePtr = some q) (hb : loadByte m q = some 0)
    (indent : Int) (fuel : Nat) (arg : OscArg) :
    dumpArgs P F m base indent (fuel + 1) reader arg = some ([], reader) := by
  rw [dumpArgs]
  by_cases hP : P.charSigned
  · rw [getArg_of_nul_signed hP htype hb]
    rfl
  · rw [getArg_of_nul_unsigned hP htype hb]
    rfl

/-- The loop prints a line for each argument. -/
theorem dumpArgs_of_at (hplaced : Placed base m) {args : List OscArgument} {pad : List UInt8}
    (htype : reader.typePtr = some q) (harg : reader.argPtr = some p)
    (htags : At m q (args.map OscArgument.tag ++ 0 :: pad)) (hpayloads : At m p (payloads args))
    (hend : p + (payloads args).length ≤ reader.msgEnd)
    (hlt : (payloads args).length < 2147483648) (indent : Int) (fuel : Nat)
    (hfuel : args.length < fuel) (arg₀ : OscArg) :
    ∃ reader', dumpArgs P F m base indent fuel reader arg₀ =
      some (argLines P F base indent p args, reader') := by
  induction args generalizing reader q p fuel arg₀ with
  | nil =>
      obtain ⟨fuel, rfl⟩ := Nat.exists_eq_add_of_lt hfuel
      exact ⟨reader, dumpArgs_of_nul htype htags.loadByte indent _ arg₀⟩
  | cons arg args ih =>
      obtain ⟨fuel, rfl⟩ : ∃ k, fuel = k + 1 := ⟨fuel - 1, by omega⟩
      rw [payloads_cons] at hpayloads hend hlt
      rw [List.length_append] at hend hlt
      rw [List.map_cons, List.cons_append] at htags
      rw [List.length_cons] at hfuel
      have hgetter : ∃ output, (argKind arg).getter P m { reader with typePtr := some (q + 1) } =
          some (oscOk, some output, { reader with
            typePtr := some (q + 1)
            argPtr := some (p + arg.payload.length) }) ∧
          outputText P F m base arg.tag output = some (endLine (valueText P F base p arg)) :=
        getter_text harg hpayloads.left (by omega) (by simp only; omega)
      obtain ⟨output, hget, htext⟩ := hgetter
      have hprints := getArg_prints (P := P) (F := F) hplaced htype htags.loadByte (ofTag_tag arg)
        arg₀
      rw [hget] at hprints
      obtain ⟨arg₁, hcall, htag, hline⟩ := hprints.exists_arg
      obtain ⟨reader', hrest⟩ := @ih { reader with
            typePtr := some (q + 1)
            argPtr := some (p + arg.payload.length) } (q + 1) (p + arg.payload.length) rfl rfl
        (show At m q ([arg.tag] ++ _) from htags).right hpayloads.right (by simp only; omega)
        (by omega) fuel (by omega) arg₁
      refine ⟨reader', ?_⟩
      rw [dumpArgs, hcall]
      simp only [Option.bind_eq_bind, Option.bind_some, if_true, hline, htext, hrest, htag,
        argLines]

end Argument

/-! ## Messages -/

/-- A message is accepted with a length that is too large, too. -/
theorem init_of_le {buffer len : Int} {address : CString} {args : List OscArgument}
    (hat : At m buffer (encodeMessage address args))
    (hlt : (encodeMessage address args).length < 2147483648)
    (hle : (encodeMessage address args).length ≤ len) (reader₀ : OscMsgReader) :
    oscMsgReaderInit m reader₀ buffer len = some (oscOk, ⟨buffer, buffer + len,
      some (buffer + paddedSize address.bytes.length + 1),
      some (buffer + paddedSize address.bytes.length + paddedSize (tagString args).length)⟩) := by
  have hlen := length_encodeMessage address args
  have htags := hat.left.right
  rw [length_padString] at htags
  have hfour := four_le_paddedSize (tagString args).length
  have hless := lt_paddedSize address.bytes.length
  have hless' := lt_paddedSize (tagString args).length
  have hsize : AddressSize m buffer address.bytes.length (paddedSize address.bytes.length) :=
    ⟨hat.left.left.strlen address.noNul, by omega, wrap32_of_range (by omega) (by omega)⟩
  rw [hsize.init_of_tags (by omega) htags.loadByte (htags.strlen (tagString_noNul args))
    (by omega), if_neg (by omega)]

/-- A message is printed as its text, also with a length that is too large. -/
theorem dumpOscMessage_encode (hplaced : Placed base m) {buffer len : Int} {address : CString}
    {args : List OscArgument} (hat : At m buffer (encodeMessage address args))
    (hlt : (encodeMessage address args).length < 2147483648)
    (hle : (encodeMessage address args).length ≤ len) (reader₀ : OscMsgReader)
    (locals : Locals) (indent : Int) (fuel : Nat)
    (hfuel : (encodeMessage address args).length ≤ fuel) :
    ∃ reader reader', oscMsgReaderInit m reader₀ buffer len = some (oscOk, reader) ∧
      dumpOscMessage P F m base fuel locals reader indent =
        some (messageText P F base buffer indent address args, reader') := by
  have hlen := length_encodeMessage address args
  have hright := hat.left.right
  rw [length_padString] at hright
  have htags := (show At m _ ([','.toUInt8] ++ _) from hright).right
  have hpayloads : At m (buffer + paddedSize address.bytes.length +
      paddedSize (tagString args).length) (payloads args) := by
    have hright' := hat.right
    rw [List.length_append, length_padString, length_padString, Int.natCast_add,
      ← Int.add_assoc] at hright'
    exact hright'
  have hcount : args.length < paddedSize (tagString args).length := by
    have hpadded := lt_paddedSize (tagString args).length
    rw [tagString, List.length_cons, List.length_map] at hpadded
    rw [tagString, List.length_cons, List.length_map]
    omega
  obtain ⟨reader', hargs⟩ := @dumpArgs_of_at P F m base ⟨buffer, buffer + len,
      some (buffer + paddedSize address.bytes.length + 1),
      some (buffer + paddedSize address.bytes.length + paddedSize (tagString args).length)⟩
    _ _ hplaced args _ rfl rfl htags hpayloads (by simp only; omega) (by omega) (indent + 1) fuel
    (by omega) locals.arg
  refine ⟨_, reader', init_of_le hat hlt hle reader₀, ?_⟩
  rw [dumpOscMessage, oscMsgReaderGetAddress, hat.left.left.stringAt address.noNul,
    Option.bind_eq_bind, Option.bind_some, if_pos (by rfl), hargs]
  rfl

/-! ## One step of the program -/

section Step

variable {locals : Locals} {fuel : Nat} {buffer len indent : Int} {reader mr mr' : OscMsgReader}
  {br br' : OscBundleReader} {text : List UInt8}

theorem dumpOscPacket_of_message (htype : oscPacketGetType m buffer len = some oscMessage)
    (hinit : oscMsgReaderInit m locals.mr buffer len = some (oscOk, reader))
    (htext : dumpOscMessage P F m base fuel locals reader indent = some (text, mr')) :
    dumpOscPacket P F m base locals (fuel + 1) buffer len indent = some text := by
  rw [dumpOscPacket, htype]
  simp only [Option.bind_eq_bind, Option.bind_some, if_true, hinit, htext, Option.map_some]

theorem dumpOscPacket_of_bundle (htype : oscPacketGetType m buffer len = some oscBundle)
    (hlen : 20 ≤ len) (helements : dumpElements P F m base locals fuel locals.mr
      ⟨buffer, buffer + len, buffer + 16⟩ indent = some text) :
    dumpOscPacket P F m base locals (fuel + 1) buffer len indent =
      some (pIndent indent ++ endLine (literal "#bundle (timetag=xxx,sz=xxx)") ++ text) := by
  have hne : oscBundle ≠ oscMessage := by decide
  rw [dumpOscPacket, htype]
  simp only [Option.bind_eq_bind, Option.bind_some, if_neg hne, if_true, oscBundleReaderInit,
    if_neg (show ¬ len < 20 by omega), helements]

theorem dumpOscPacket_of_short (htype : oscPacketGetType m buffer len = some oscBundle)
    (hlen : len < 20) :
    dumpOscPacket P F m base locals (fuel + 1) buffer len indent = some [] := by
  have hne : oscBundle ≠ oscMessage := by decide
  rw [dumpOscPacket, htype]
  simp only [Option.bind_eq_bind, Option.bind_some, if_neg hne, if_true, oscBundleReaderInit,
    if_pos hlen, if_neg oscError_ne_oscOk]

/-- An accepted message is printed in front of the other elements. -/
theorem dumpElements_of_message {element : OscElement}
    (hnext : oscBundleReaderNext P m br = some (oscMessage, some element, br'))
    (hinit : oscMsgReaderInit m mr element.start element.len = some (oscOk, reader))
    (htext : dumpOscMessage P F m base fuel locals reader (indent + 1) = some (text, mr')) :
    dumpElements P F m base locals (fuel + 1) mr br indent =
      (dumpElements P F m base locals fuel mr' br' indent).map fun rest => text ++ rest := by
  have hpos : oscMessage > oscOk := by decide
  rw [dumpElements, hnext]
  simp only [Option.bind_eq_bind, Option.bind_some, if_pos hpos, if_true, hinit, htext]
  cases dumpElements P F m base locals fuel mr' br' indent <;> rfl

end Step

/-! ## Packets -/

/-- The length in front of an element. -/
theorem int32Field_of_at {p : Int} {n : Nat} {bs : List UInt8}
    (hat : At m p (bigEndian 4 n ++ bs)) (hn : n < 2147483648) :
    int32Field (m.drop p.toNat) = n := by
  have hload := hat.left.loadBytes
  have hle := hat.left.le_length
  rw [length_bigEndian] at hload hle
  rw [loadBytes_eq_take hat.nonneg hle] at hload
  rw [int32Field, Option.some.inj hload, ofBigEndian_bigEndian (by omega),
    wrap32_of_range (by omega) (by omega)]

/-- The reader in front of a length. -/
theorem atField_of_at {br : OscBundleReader} {p : Int} {n : Nat} {bs : List UInt8}
    (hat : At m p (bigEndian 4 n ++ bs)) (hptr : br.msgPtr = p) (hne : p ≠ br.bundleEnd)
    (hinside : br.bundleEnd ≤ m.length) (hn : n < 2147483648) : AtField m br n := by
  have hnonneg := hat.nonneg
  have hle := hat.left.le_length
  rw [length_bigEndian] at hle
  refine ⟨by omega, by omega, by omega, hinside, ?_⟩
  rw [hptr]
  exact int32Field_of_at hat hn

theorem getType_encode {packet : OscPacket} {buffer : Int} (hat : At m buffer packet.encode) :
    oscPacketGetType m buffer packet.encode.length = some packet.type := by
  have hmod := packet.encode_mod
  have height := packet.eight_le
  have hnonneg := hat.nonneg
  have hle := hat.le_length
  obtain ⟨b, hb⟩ := exists_loadByte (m := m) (p := buffer) (by omega) (by omega)
  rw [oscPacketGetType, if_neg (by omega), hb, Option.bind_eq_bind, Option.bind_some,
    packet.first hat hb]

/-- The reader in front of the record of a packet reports the packet. -/
theorem next_encode {packet : OscPacket} {rest : List UInt8} {br : OscBundleReader} {p : Int}
    (hat : At m p (bigEndian 4 packet.encode.length ++ (packet.encode ++ rest)))
    (hptr : br.msgPtr = p)
    (hend : br.bundleEnd = p + (4 + packet.encode.length + rest.length : Nat))
    (hlt : packet.encode.length < 2147483648) :
    oscBundleReaderNext P m br = some (packet.type, some ⟨p + 4, packet.encode.length⟩,
      { br with msgPtr := p + 4 + packet.encode.length }) := by
  have height := packet.eight_le
  have hmod := packet.encode_mod
  have hnonneg := hat.nonneg
  have hle := hat.le_length
  rw [List.length_append, List.length_append, length_bigEndian] at hle
  have hfield : AtField m br packet.encode.length :=
    atField_of_at hat hptr (by omega) (by omega) hlt
  obtain ⟨b, hb, hnext⟩ := hfield.next_of_record (P := P) ⟨by omega, by omega, by omega⟩
  have hpacket := hat.right.left
  rw [length_bigEndian] at hpacket
  rw [hptr] at hb hnext
  rw [hnext, packet.first hpacket hb]

mutual

/-- A packet is printed as its text. -/
theorem dumpOscPacket_encode (P : Platform) (F : FloatText) (m : Memory) (base : Int)
    (hplaced : Placed base m) : ∀ (packet : OscPacket) (buffer indent : Int) (locals : Locals)
    (fuel : Nat), At m buffer packet.encode → packet.encode.length < 2147483648 →
      packet.encode.length < fuel →
      dumpOscPacket P F m base locals fuel buffer packet.encode.length indent =
        some (packet.text P F base buffer indent)
  | .message address args, buffer, indent, locals, fuel, hat, hlt, hfuel => by
      obtain ⟨fuel, rfl⟩ : ∃ k, fuel = k + 1 := ⟨fuel - 1, by omega⟩
      have htype := getType_encode hat
      rw [OscPacket.encode] at hat hlt hfuel htype ⊢
      obtain ⟨reader, reader', hinit, htext⟩ := dumpOscMessage_encode (P := P) (F := F) hplaced
        hat hlt (le_refl _) locals.mr locals indent fuel (Nat.le_of_lt_succ hfuel)
      exact dumpOscPacket_of_message htype hinit htext
  | .bundle timetag elements, buffer, indent, locals, fuel, hat, hlt, hfuel => by
      obtain ⟨fuel, rfl⟩ : ∃ k, fuel = k + 1 := ⟨fuel - 1, by omega⟩
      have hlen := length_encode_bundle timetag elements
      have htype := getType_encode hat
      rw [encode_bundle] at hat
      have hrecords := hat.right
      rw [length_header] at hrecords
      cases elements with
      | nil =>
          have hnil : (records []).length = 0 := rfl
          exact dumpOscPacket_of_short htype (by omega)
      | cons packet packets =>
          have hcons := length_records_cons packet packets
          have height := packet.eight_le
          have helements := dumpElements_encode P F m base hplaced (packet :: packets)
            (buffer + 16) indent locals fuel locals.mr
            ⟨buffer, buffer + (OscPacket.bundle timetag (packet :: packets)).encode.length,
              buffer + 16⟩ hrecords rfl (by simp only; omega) (by omega) (by omega)
          exact dumpOscPacket_of_bundle htype (by omega) helements

/-- And the elements of a bundle as theirs. -/
theorem dumpElements_encode (P : Platform) (F : FloatText) (m : Memory) (base : Int)
    (hplaced : Placed base m) : ∀ (packets : List OscPacket) (p indent : Int) (locals : Locals)
    (fuel : Nat) (mr : OscMsgReader) (br : OscBundleReader), At m p (records packets) →
      br.msgPtr = p → br.bundleEnd = p + (records packets).length →
      (records packets).length < 2147483648 → (records packets).length < fuel →
      dumpElements P F m base locals fuel mr br indent =
        some (elementsText P F base p (indent + 1) packets)
  | [], p, indent, locals, fuel, mr, br, hat, hptr, hend, hlt, hfuel => by
      obtain ⟨fuel, rfl⟩ : ∃ k, fuel = k + 1 := ⟨fuel - 1, by omega⟩
      have hnil : (records []).length = 0 := rfl
      rw [dumpElements, oscBundleReaderNext_end (by omega)]
      rfl
  | packet :: packets, p, indent, locals, fuel, mr, br, hat, hptr, hend, hlt, hfuel => by
      obtain ⟨fuel, rfl⟩ : ∃ k, fuel = k + 1 := ⟨fuel - 1, by omega⟩
      have hlen := length_records_cons packet packets
      rw [records_cons] at hat
      have hnext := next_encode (P := P) hat hptr (by omega) (by omega)
      have hright := hat.right
      rw [length_bigEndian] at hright
      have hpacket : At m (p + 4) packet.encode := hright.left
      have hrest : At m (p + 4 + packet.encode.length) (records packets) := hright.right
      have hbehind := fun mr => dumpElements_encode P F m base hplaced packets
        (p + 4 + packet.encode.length) indent locals fuel mr
        { br with msgPtr := p + 4 + packet.encode.length } hrest rfl (by simp only; omega)
        (by omega) (by omega)
      cases packet with
      | message address args =>
          have hbound : (OscPacket.message address args).encode.length ≤ fuel := by omega
          have hshort : (OscPacket.message address args).encode.length < 2147483648 := by omega
          rw [OscPacket.encode] at hpacket hbound hshort
          obtain ⟨reader, reader', hinit, htext⟩ := dumpOscMessage_encode (P := P) (F := F)
            hplaced hpacket hshort (le_refl _) mr locals (indent + 1) fuel hbound
          rw [dumpElements_of_message hnext hinit htext, hbehind]
          rfl
      | bundle timetag elements =>
          have hinner := dumpOscPacket_encode P F m base hplaced (.bundle timetag elements) (p + 4)
            (indent + 1) locals fuel hpacket (by omega) (by omega)
          have hpos : oscBundle > oscOk := by decide
          have htype : oscBundle ≠ oscMessage := by decide
          rw [dumpElements, hnext, elementsText]
          simp only [OscPacket.type, Option.bind_eq_bind, Option.bind_some, if_pos hpos,
            if_neg htype, hinner, hbehind]

end

/-! ## The loop of `main` -/

/-- A datagram that is printed as its text wherever it lies leaves a receive buffer for the
datagrams behind it. -/
theorem ReceiveBuffer.receiveLoop_cons {datagram text : List UInt8} {fuel : Nat}
    {buffer : Memory} (hbuffer : ReceiveBuffer base buffer) (locals : Locals)
    (hshort : datagram.length < bufferSize)
    (hdump : ∀ m, Placed base m → At m 0 datagram →
      dumpOscPacket P F m base locals fuel 0 datagram.length 0 = some text)
    (arrivals : List Arrival) :
    ∃ buffer', ReceiveBuffer base buffer' ∧
      receiveLoop P F base fuel (⟨some datagram, locals⟩ :: arrivals) buffer =
        (receiveLoop P F base fuel arrivals buffer').map fun rest => text ++ rest := by
  have hlength := hbuffer.length
  have htake : datagram.take (bufferSize - 1) = datagram :=
    List.take_of_length_le (by omega)
  have hfilled := hbuffer.filled hshort
  have hat : At (overwrite buffer 0 datagram) (0 : Nat) datagram := at_overwrite (by omega)
  refine ⟨overwrite buffer 0 datagram, hfilled, ?_⟩
  rw [receiveLoop, recvfrom]
  simp only [htake, hdump _ hfilled.placed hat, Option.bind_eq_bind, Option.bind_some]
  cases receiveLoop P F base fuel arrivals (overwrite buffer 0 datagram) <;> rfl

/-- If every datagram is printed as its text wherever it lies, the loop prints the texts in the
order in which the datagrams arrive. -/
theorem ReceiveBuffer.receiveLoop_eq_flatten {α : Type} {datagram text : α → List UInt8}
    {locals : α → Locals} {fuel : Nat} (arrivals : List α) {buffer : Memory}
    (hbuffer : ReceiveBuffer base buffer)
    (hshort : ∀ a ∈ arrivals, (datagram a).length < bufferSize)
    (hdump : ∀ a ∈ arrivals, ∀ m, Placed base m → At m 0 (datagram a) →
      dumpOscPacket P F m base (locals a) fuel 0 (datagram a).length 0 = some (text a)) :
    receiveLoop P F base fuel (arrivals.map fun a => ⟨some (datagram a), locals a⟩) buffer =
      some (arrivals.map text).flatten := by
  induction arrivals generalizing buffer with
  | nil => rfl
  | cons a arrivals ih =>
      obtain ⟨buffer', hbuffer', hcons⟩ := hbuffer.receiveLoop_cons (locals a)
        (hshort a List.mem_cons_self) (hdump a List.mem_cons_self)
        (arrivals.map fun a => ⟨some (datagram a), locals a⟩)
      have hrest := ih hbuffer' (fun a ha => hshort a (List.mem_cons_of_mem _ ha))
        fun a ha => hdump a (List.mem_cons_of_mem _ ha)
      rw [List.map_cons, List.map_cons, List.flatten_cons, hcons, hrest]
      rfl

/-- A packet that arrives in one datagram. -/
def arrive (arrival : OscPacket × Locals) : Arrival := ⟨some arrival.1.encode, arrival.2⟩

/-- The loop prints the texts of the packets, in the order in which they arrive. -/
theorem receiveLoop_encode (P : Platform) (F : FloatText) (base : Int) (fuel : Nat)
    (arrivals : List (OscPacket × Locals)) (buffer : Memory)
    (hbuffer : ReceiveBuffer base buffer)
    (hshort : ∀ arrival ∈ arrivals, arrival.1.encode.length < bufferSize)
    (hfuel : bufferSize ≤ fuel) :
    receiveLoop P F base fuel (arrivals.map arrive) buffer =
      some (arrivals.map fun arrival => arrival.1.text P F base 0 0).flatten := by
  refine hbuffer.receiveLoop_eq_flatten arrivals hshort ?_
  intro arrival harrival m hplaced hat
  have hlt := hshort arrival harrival
  exact dumpOscPacket_encode P F m base hplaced arrival.1 0 0 arrival.2 fuel hat
    (by rw [bufferSize] at hlt; omega) (by omega)

/-- The address `/a` of a message. -/
def slashAddress : MessageAddress := { slashA with head_ne := by decide }

theorem receiveLoop_encode_nested :
    receiveLoop littleHost ⟨fun _ => [], fun _ => []⟩ 4096 bufferSize
        ([(.bundle 1 [.message slashAddress [.int32 7], .bundle 2 [.message slashAddress []]],
            zeroLocals), (.message slashAddress [.string .s slashA], zeroLocals)].map arrive)
        (List.replicate bufferSize 0) =
      some (literal "#bundle (timetag=xxx,sz=xxx)\n  /a\n    i: 7\n" ++
        literal "  #bundle (timetag=xxx,sz=xxx)\n    /a\n/a\n  s: /a\n") := by
  rw [receiveLoop_encode littleHost ⟨fun _ => [], fun _ => []⟩ 4096 bufferSize _
    (List.replicate bufferSize 0) (ReceiveBuffer.fresh (by decide) (by decide)) (by decide)
    (le_refl _)]
  decide

end LittleOscar.UdpDump
