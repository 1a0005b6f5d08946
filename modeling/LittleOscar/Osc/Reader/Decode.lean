import LittleOscar.Osc.Reader.Getter

/-!
# Reading a message back

`ReadsAs` says what it means that a caller gets a message back from the reader: the
address first, then for every argument the tag from `osc_msg_reader_next_arg` and the
value from the getter of that tag, and `OSC_END` behind the last one. The function
returns a `char`, so it is the conversion of `OSC_END` to `char` that the caller sees.

`readsAs_encodeMessage` is the correctness of the reader on the reference encoding,
wherever in an object it lies.
-/

namespace LittleOscar

open Machine

variable (P : Platform) (m : Memory)

/-- The getter of the argument's tag returns `OSC_OK` and the argument, and leaves the
reader `reader'`; a tag without a payload has no getter. -/
def GetterReturns (reader reader' : OscMsgReader) : OscArgument → Prop
  | .boolTrue | .boolFalse | .null | .infinity => reader' = reader
  | .int32 v => oscMsgReaderGetArgInt32 P m reader = some (oscOk, some v, reader')
  | .int64 v => oscMsgReaderGetArgInt64 P m reader = some (oscOk, some v, reader')
  | .timetag v => oscMsgReaderGetArgTimetag P m reader = some (oscOk, some v, reader')
  | .float bits => oscMsgReaderGetArgFloat P m reader = some (oscOk, some bits, reader')
  | .double bits => oscMsgReaderGetArgDouble P m reader = some (oscOk, some bits, reader')
  | .string _ s => ∃ p, oscMsgReaderGetArgStr m reader = some (oscOk, some p, reader') ∧
      stringAt m p = some s.bytes
  | .blob bytes => ∃ sz p,
      oscMsgReaderGetArgBlob P m reader = some (oscOk, ⟨some sz, some p⟩, reader') ∧
        sz.toInt = bytes.length ∧ loadBytes m p bytes.length = some bytes

/-- From `reader` on, the calls give the tags and the values of the arguments in
order, and leave the last reader. -/
def Delivers (reader reader' : OscMsgReader) : List OscArgument → Prop
  | [] => reader' = reader
  | arg :: args => ∃ reader₁ reader₂,
      oscMsgReaderNextArg m reader = some (arg.tag, reader₁) ∧
        GetterReturns P m reader₁ reader₂ arg ∧ Delivers reader₂ reader' args

/-- The byte is what a function of type `char` makes of `OSC_END`: `OSC_END` itself
where `char` is signed. -/
def ReportsEnd (c : UInt8) : Prop :=
  c = charByte oscEnd ∧ (P.charSigned → charValue P c = oscEnd)

/-- A reader that was initialised on a message gives this address and these
arguments, and then the end. -/
structure ReadsAs (reader reader' : OscMsgReader) (address : CString)
    (args : List OscArgument) : Prop where
  typed : oscMsgReaderIsTyped reader
  address : stringAt m (oscMsgReaderGetAddress reader) = some address.bytes
  args : Delivers P m reader reader' args
  last : ∃ c, oscMsgReaderNextArg m reader' = some (c, reader') ∧ ReportsEnd P c

variable {P m} {reader : OscMsgReader} {q p : Int}

/-- The getter of a blob goes past its length, the bytes and the padding. -/
theorem getterReturns_blob {bytes : List UInt8} (harg : reader.argPtr = some p)
    (hat : At m p (OscArgument.blob bytes).payload)
    (hlt : (OscArgument.blob bytes).payload.length < 2147483648)
    (hend : p + (OscArgument.blob bytes).payload.length ≤ reader.msgEnd) :
    GetterReturns P m reader
      { reader with argPtr := some (p + (OscArgument.blob bytes).payload.length) }
      (.blob bytes) := by
  have hfour := length_bigEndian 4 bytes.length
  simp only [OscArgument.payload, List.length_append, hfour, length_padBytes] at hat hlt hend ⊢
  have hround := le_roundUp bytes.length
  have hmod := roundUp_mod bytes.length
  have hget : oscMsgReaderGetArgInt32 P m reader = some (oscOk,
      some (UInt32.ofNat bytes.length).toInt32,
      { reader with argPtr := some (p + (4 : Nat)) }) := by
    rw [oscMsgReaderGetArgInt32, readFixed_of_at harg hat.left hfour (by omega),
      oscNtoh32_ofNative P hfour, ofBigEndian_bigEndian (by omega)]
  have hsz : (UInt32.ofNat bytes.length).toInt32.toInt = bytes.length := by
    rw [toInt_toInt32, UInt32.toNat_ofNat', Nat.mod_eq_of_lt (by omega),
      wrap32_of_range (by omega) (by omega)]
  have hbytes : loadBytes m (p + 4) bytes.length = some bytes := by
    have hright := hat.right
    rw [hfour] at hright
    exact hright.left.loadBytes
  have hblob := getArgBlob_eq hget rfl
  rw [hsz, round32_eq_roundUp (by omega) (by omega), Int.toNat_natCast,
    if_neg (by simp only; omega)] at hblob
  have hmove : p + (4 : Nat) + roundUp bytes.length =
      p + (4 + roundUp bytes.length : Nat) := by omega
  rw [hmove] at hblob
  exact ⟨_, _, hblob, hsz, hbytes⟩

theorem getterReturns_of_at {arg : OscArgument} (harg : reader.argPtr = some p)
    (hat : At m p arg.payload) (hlt : arg.payload.length < 2147483648)
    (hend : p + arg.payload.length ≤ reader.msgEnd) :
    GetterReturns P m reader { reader with argPtr := some (p + arg.payload.length) } arg := by
  have hmoved : { reader with argPtr := some (p + (0 : Nat)) } = reader := by
    rw [Int.natCast_zero, Int.add_zero, ← harg]
  cases arg with
  | boolTrue => exact hmoved
  | boolFalse => exact hmoved
  | null => exact hmoved
  | infinity => exact hmoved
  | int32 v =>
      have hlen := length_bigEndian 4 v.toUInt32.toNat
      simp only [OscArgument.payload, hlen] at hat hend ⊢
      rw [GetterReturns, oscMsgReaderGetArgInt32, readFixed_of_at harg hat hlen hend,
        oscNtoh32_bigEndian, Int32.toInt32_toUInt32]
  | int64 v =>
      have hlen := length_bigEndian 8 v.toUInt64.toNat
      simp only [OscArgument.payload, hlen] at hat hend ⊢
      rw [GetterReturns, oscMsgReaderGetArgInt64, readFixed_of_at harg hat hlen hend,
        oscNtoh64_bigEndian, Int64.toInt64_toUInt64]
  | timetag v =>
      have hlen := length_bigEndian 8 v.toNat
      simp only [OscArgument.payload, hlen] at hat hend ⊢
      rw [GetterReturns, oscMsgReaderGetArgTimetag, readFixed_of_at harg hat hlen hend,
        oscNtoh64_bigEndian]
  | float bits =>
      have hlen := length_bigEndian 4 bits.toNat
      simp only [OscArgument.payload, hlen] at hat hend ⊢
      rw [GetterReturns, oscMsgReaderGetArgFloat, readFixed_of_at harg hat hlen hend,
        oscNtoh32_bigEndian]
  | double bits =>
      have hlen := length_bigEndian 8 bits.toNat
      simp only [OscArgument.payload, hlen] at hat hend ⊢
      rw [GetterReturns, oscMsgReaderGetArgDouble, readFixed_of_at harg hat hlen hend,
        oscNtoh64_bigEndian]
  | string tag s =>
      simp only [OscArgument.payload, length_padString] at hat hlt hend ⊢
      have hn := hat.strlen s.noNul
      have hless := lt_paddedSize s.bytes.length
      have hmod := paddedSize_mod s.bytes.length
      refine ⟨p, ?_, hat.stringAt s.noNul⟩
      rw [getArgStr_eq harg hn (by omega), if_neg (by omega)]
  | blob bytes => exact getterReturns_blob harg hat hlt hend

/-- A tag other than NUL is returned and passed. -/
theorem nextArg_of_at {b : UInt8} {bs : List UInt8} (htype : reader.typePtr = some q)
    (hat : At m q (b :: bs)) (hb : b ≠ 0) :
    oscMsgReaderNextArg m reader = some (b, { reader with typePtr := some (q + 1) }) := by
  rw [nextArg_eq htype hat.loadByte, if_pos hb]

/-- NUL is where the tags end. -/
theorem nextArg_of_nul {bs : List UInt8} (htype : reader.typePtr = some q)
    (hat : At m q (0 :: bs)) :
    oscMsgReaderNextArg m reader = some (charByte oscEnd, reader) := by
  rw [nextArg_eq htype hat.loadByte, if_neg (not_not_intro rfl)]

/-- Where the tags lie at the tag cursor and the payloads at the argument cursor, the
calls deliver the arguments, in step with both cursors. -/
theorem delivers_of_at {args : List OscArgument} {pad : List UInt8}
    (htype : reader.typePtr = some q) (harg : reader.argPtr = some p)
    (htags : At m q (args.map OscArgument.tag ++ 0 :: pad)) (hpayloads : At m p (payloads args))
    (hend : reader.msgEnd = p + (payloads args).length)
    (hlt : (payloads args).length < 2147483648) :
    ∃ reader', Delivers P m reader reader' args ∧
      oscMsgReaderNextArg m reader' = some (charByte oscEnd, reader') ∧
      reader'.argPtr = some reader'.msgEnd := by
  induction args generalizing reader q p with
  | nil =>
      refine ⟨reader, rfl, nextArg_of_nul htype htags, ?_⟩
      rw [harg, hend]
      simp [payloads]
  | cons arg args ih =>
      rw [payloads_cons] at hpayloads hend hlt
      rw [List.length_append] at hend hlt
      rw [List.map_cons, List.cons_append] at htags
      have hnext := nextArg_of_at htype htags arg.tag_ne_zero
      have hgetter : GetterReturns P m { reader with typePtr := some (q + 1) } _ arg :=
        getterReturns_of_at harg hpayloads.left (by omega) (by simp only; omega)
      obtain ⟨reader', hdelivers, hlast, hargs⟩ :=
        @ih { reader with
            typePtr := some (q + 1)
            argPtr := some (p + arg.payload.length) }
          (q + 1) (p + arg.payload.length) rfl rfl
          (show At m q ([arg.tag] ++ _) from htags).right hpayloads.right
          (by simp only; omega) (by omega)
      exact ⟨reader', ⟨_, _, hnext, hgetter, hdelivers⟩, hlast, hargs⟩

/-- `osc_msg_reader_init` finds the tags and the payloads of an encoded message. -/
theorem init_encodeMessage {buffer : Int} {address : CString} {args : List OscArgument}
    (reader₀ : OscMsgReader) (hat : At m buffer (encodeMessage address args))
    (hlt : (encodeMessage address args).length < 2147483648) :
    ∃ reader, oscMsgReaderInit m reader₀ buffer (encodeMessage address args).length =
        some (oscOk, reader) ∧
      reader.msgPtr = buffer ∧
      reader.msgEnd = buffer + (encodeMessage address args).length ∧
      reader.typePtr = some (buffer + paddedSize address.bytes.length + 1) ∧
      reader.argPtr =
        some (buffer + paddedSize address.bytes.length + paddedSize (tagString args).length) := by
  have hlen := length_encodeMessage address args
  have haddress : At m buffer (padString address.bytes) := hat.left.left
  have htags : At m (buffer + paddedSize address.bytes.length) (padString (tagString args)) := by
    have hright := hat.left.right
    rw [length_padString] at hright
    exact hright
  have hfour := four_le_paddedSize (tagString args).length
  have hless := lt_paddedSize address.bytes.length
  have hmod := paddedSize_mod address.bytes.length
  have hless' := lt_paddedSize (tagString args).length
  have hround : round32Size ((tagString args).length + 1) =
      paddedSize (tagString args).length := round32Size_eq_roundUp (by omega)
  refine ⟨{
    msgPtr := buffer
    msgEnd := buffer + (encodeMessage address args).length
    typePtr := some (buffer + paddedSize address.bytes.length + 1)
    argPtr := some (buffer + paddedSize address.bytes.length +
      paddedSize (tagString args).length) }, ?_, rfl, rfl, rfl, rfl⟩
  simp only [oscMsgReaderInit, Option.bind_eq_bind, haddress.strlen address.noNul,
    Option.bind_some, wrap32_round32Size (show address.bytes.length < 2147483644 by omega)]
  rw [if_neg (by omega), if_neg (by omega), htags.loadByte, Option.bind_some, if_pos rfl,
    htags.strlen (tagString_noNul args), Option.bind_some, hround, if_neg (by omega)]

/-- The reader gives back every message from its reference encoding, whatever it was
before, and stops at the end of the message. -/
theorem readsAs_encodeMessage (P : Platform) (m : Memory) (buffer : Int) (address : CString)
    (args : List OscArgument) (reader₀ : OscMsgReader)
    (hat : At m buffer (encodeMessage address args))
    (hlt : (encodeMessage address args).length < 2147483648) :
    ∃ reader reader',
      oscMsgReaderInit m reader₀ buffer (encodeMessage address args).length =
        some (oscOk, reader) ∧
      ReadsAs P m reader reader' address args ∧ reader'.argPtr = some reader'.msgEnd := by
  obtain ⟨reader, hinit, hptr, hend, htype, harg⟩ := init_encodeMessage reader₀ hat hlt
  have hlen := length_encodeMessage address args
  have hright := hat.left.right
  rw [length_padString] at hright
  have htags := (show At m _ ([','.toUInt8] ++ _) from hright).right
  have hpayloads : At m (buffer + paddedSize address.bytes.length +
      paddedSize (tagString args).length) (payloads args) := by
    have hright' := hat.right
    rw [List.length_append, length_padString, length_padString, Int.natCast_add,
      ← Int.add_assoc] at hright'
    exact hright'
  obtain ⟨reader', hdelivers, hlast, hargs⟩ := delivers_of_at (P := P) htype harg htags
    hpayloads (by omega) (by omega)
  refine ⟨reader, reader', hinit, ⟨?_, ?_, hdelivers, ?_⟩, hargs⟩
  · rw [oscMsgReaderIsTyped, htype]
    rfl
  · rw [oscMsgReaderGetAddress, hptr]
    exact hat.left.left.stringAt address.noNul
  · exact ⟨_, hlast, rfl, charValue_charByte_oscEnd P⟩

/-- An argument of every shape: nothing, a word, a string and a blob. -/
def mixedArgs : List OscArgument :=
  [.null, .int32 7, .string .S slashA, .blob [1, 2, 3]]

theorem readsAs_mixedArgs :
    ∃ reader reader',
      oscMsgReaderInit (encodeMessage slashA mixedArgs) ⟨0, 0, none, none⟩ 0
        (encodeMessage slashA mixedArgs).length = some (oscOk, reader) ∧
      ReadsAs littleHost (encodeMessage slashA mixedArgs) reader reader' slashA mixedArgs ∧
      reader'.argPtr = some reader'.msgEnd :=
  readsAs_encodeMessage littleHost _ 0 slashA mixedArgs ⟨0, 0, none, none⟩ (At.self _)
    (by decide)

end LittleOscar
