import LittleOscar.Osc.Dump.Print
import LittleOscar.Osc.RoundTrip.Message

/-!
# Messages of the writer in a dump

The functions of `write.c` leave out the comma in front of the tags. A reader takes such a
message for one of the old kind, without tags: `udp_dump` prints none of its arguments, whatever
the message (`dumpOscMessage_bytes`).
-/

namespace LittleOscar.Interop

open Machine UdpDump

/-- The lines of a message that has no tags. -/
def untypedText (indent : Int) (address : CString) : List UInt8 :=
  pIndent indent ++ endLine address.bytes ++ pIndent (indent + 1) ++
    endLine (literal "(message has no type tag)")

variable {P Q : Platform} {F : FloatText} {base : Int} {m : Memory} {p : Int}

theorem dumpOscMessage_untyped {address : CString} {reader : OscMsgReader}
    (hptr : reader.msgPtr = p) (hnone : reader.typePtr = none)
    (hat : At m p (padString address.bytes)) (locals : Locals) (indent : Int) (fuel : Nat) :
    dumpOscMessage Q F m base fuel locals reader indent =
      some (untypedText indent address, reader) := by
  have htyped : ¬ oscMsgReaderIsTyped reader := by
    rw [oscMsgReaderIsTyped, hnone]
    exact Bool.false_ne_true
  rw [dumpOscMessage, oscMsgReaderGetAddress, hptr, hat.stringAt address.noNul,
    Option.bind_eq_bind, Option.bind_some, if_neg htyped, untypedText]

/-- The tag area of a message does not begin with a comma. -/
theorem tagArea_cases (msg : OscMessage) :
    (msg.tagArea = [] ∧ msg.args = []) ∨
      ∃ (b : UInt8) (area : List UInt8), msg.tagArea = b :: area ∧ b ≠ ','.toUInt8 := by
  cases hargs : msg.args with
  | nil =>
      obtain ⟨k, hk⟩ : ∃ k, roundUp msg.nargs.toNat - msg.args.length = k := ⟨_, rfl⟩
      have harea : msg.tagArea = List.replicate k 0 := by
        rw [OscMessage.tagArea, hk, hargs, List.map_nil, List.nil_append]
      cases k with
      | zero => exact Or.inl ⟨harea, rfl⟩
      | succ k => exact Or.inr ⟨0, List.replicate k 0, harea, by decide⟩
  | cons arg args =>
      have harea : ∃ area, msg.tagArea = arg.tag :: area :=
        ⟨_, by rw [OscMessage.tagArea, hargs, List.map_cons, List.cons_append]⟩
      obtain ⟨area, harea⟩ := harea
      exact Or.inr ⟨arg.tag, area, harea, arg.tag_ne_comma⟩

/-- A reader finds no tags in the bytes of a message, also where `nargs` is too large. -/
theorem init_untyped {msg : OscMessage} (hat : At m p (msg.bytes P))
    (hlt : (msg.bytes P).length < 2147483648) (reader₀ : OscMsgReader) :
    ∃ reader, oscMsgReaderInit m reader₀ p (msg.bytes P).length = some (oscOk, reader) ∧
      reader.msgPtr = p ∧ reader.typePtr = none := by
  have haddress : At m p (padString msg.address.bytes) := hat.left.left
  have hlength : (msg.bytes P).length = paddedSize msg.address.bytes.length +
      msg.tagArea.length + (argBytes P msg.args).length := by
    rw [OscMessage.bytes, List.length_append, List.length_append, length_padString]
  have hsize : AddressSize m p msg.address.bytes.length
      (paddedSize msg.address.bytes.length) :=
    ⟨haddress.strlen msg.address.noNul, msg.address.length_lt,
      wrap32_of_range (by omega) (by omega)⟩
  rcases tagArea_cases msg with ⟨hnil, hargs⟩ | ⟨b, area, harea, hcomma⟩
  · have hfills : (paddedSize msg.address.bytes.length : Int) = (msg.bytes P).length := by
      rw [hlength, hnil, hargs, argBytes, List.map_nil, List.flatten_nil, List.length_nil,
        Nat.add_zero]
    exact ⟨_, hsize.init_of_fills hfills, rfl, rfl⟩
  · have htags : At m (p + paddedSize msg.address.bytes.length) (b :: area) := by
      have hright := hat.left.right
      rw [length_padString, harea] at hright
      exact hright
    rw [harea, List.length_cons] at hlength
    exact ⟨_, hsize.init_of_untyped (by omega) htags.loadByte hcomma, rfl, rfl⟩

/-- The bytes of a message are accepted and printed as its address alone. -/
theorem dumpOscMessage_bytes (Q : Platform) (F : FloatText) (base : Int) {msg : OscMessage}
    (hat : At m p (msg.bytes P)) (hlt : (msg.bytes P).length < 2147483648)
    (reader₀ : OscMsgReader) :
    ∃ reader, oscMsgReaderInit m reader₀ p (msg.bytes P).length = some (oscOk, reader) ∧
      ∀ locals indent fuel, dumpOscMessage Q F m base fuel locals reader indent =
        some (untypedText indent msg.address, reader) := by
  obtain ⟨reader, hinit, hptr, hnone⟩ := init_untyped hat hlt reader₀
  exact ⟨reader, hinit, dumpOscMessage_untyped hptr hnone hat.left.left⟩

/-- The bytes of a message do not look like a bundle. -/
theorem loadByte_bytes {msg : OscMessage} (haddress : msg.address.bytes.head? ≠ some '#'.toUInt8)
    (hat : At m p (msg.bytes P)) : ∃ b, loadByte m p = some b ∧ b ≠ '#'.toUInt8 := by
  have hstring : At m p (padString msg.address.bytes) := hat.left.left
  cases hbytes : msg.address.bytes with
  | nil =>
      rw [hbytes] at hstring
      exact ⟨0, hstring.loadByte, by decide⟩
  | cons b bytes =>
      rw [hbytes] at hstring haddress
      exact ⟨b, hstring.loadByte, fun habs => haddress (congrArg some habs)⟩

end LittleOscar.Interop
