import LittleOscar.Osc.Reader.Decode
import LittleOscar.Osc.Writer.Message

/-!
# A message from the writer to the reader

`ReadsBack` is the round trip that the writer and the reader of one library should
make: the packet is a message, it is typed, and the reader gives back the address
and the arguments. It never happens. The writer puts the tags right behind the
address and leaves out the comma in front of them, which `osc_msg_reader_init` looks
for, so that every message of the writer is read as one without tags.
-/

namespace LittleOscar

open Machine Transition WriterState

/-- The argument that a call is meant to carry. -/
def WriteArg.argument : WriteArg → OscArgument
  | .null => .null
  | .boolTrue => .boolTrue
  | .boolFalse => .boolFalse
  | .infinity => .infinity
  | .int32 val => .int32 val
  | .int64 val => .int64 val
  | .timetag val => .timetag val
  | .float val => .float val
  | .double val => .double val
  | .str val => .string .s val
  | .blob val sz => .blob (val.take sz.toNat)

/-- The reader gives back the message from the first `len` bytes of `m`. -/
def ReadsBack (P : Platform) (m : Memory) (len : Int) (reader₀ : OscMsgReader)
    (msg : OscMessage) : Prop :=
  oscPacketGetType m 0 len = some oscMessage ∧
    ∃ reader reader', oscMsgReaderInit m reader₀ 0 len = some (oscOk, reader) ∧
      ReadsAs P m reader reader' msg.address (msg.args.map WriteArg.argument)

variable {P : Platform}

theorem WriteArg.tag_ne_comma (arg : WriteArg) : arg.tag ≠ ','.toUInt8 := by
  cases arg with
  | _ => exact fun habs => absurd habs (by rw [WriteArg.tag]; decide)

/-- The tag area of a message that announces what it writes is empty, or it begins
with a tag. -/
theorem OscMessage.tagArea_head {msg : OscMessage} (hnargs : msg.nargs = msg.args.length) :
    (msg.tagArea = [] ∧ msg.args = []) ∨
      ∃ (arg : WriteArg) (area : List UInt8), msg.tagArea = arg.tag :: area := by
  cases hargs : msg.args with
  | nil =>
      have hzero : msg.nargs = 0 := by
        rw [hnargs, hargs]
        rfl
      refine Or.inl ⟨?_, rfl⟩
      rw [OscMessage.tagArea, hargs, hzero]
      rfl
  | cons arg args =>
      exact Or.inr ⟨arg, _, by rw [OscMessage.tagArea, hargs, List.map_cons, List.cons_append]⟩

/-- A reader finds no tags in the bytes of a message of the writer. -/
theorem init_bytes {msg : OscMessage} (hnargs : msg.nargs = msg.args.length) {m : Memory}
    {buffer : Int} (hat : At m buffer (msg.bytes P)) (reader₀ : OscMsgReader)
    (hlt : (msg.bytes P).length < 2147483648) :
    ∃ reader, oscMsgReaderInit m reader₀ buffer (msg.bytes P).length =
      some (oscOk, reader) ∧ reader.typePtr = none := by
  have haddress : At m buffer (padString msg.address.bytes) := hat.left.left
  have hlen : (msg.bytes P).length = paddedSize msg.address.bytes.length +
      msg.tagArea.length + (argBytes P msg.args).length := by
    rw [OscMessage.bytes, List.length_append, List.length_append, length_padString]
  have hless := lt_paddedSize msg.address.bytes.length
  have hmod := paddedSize_mod msg.address.bytes.length
  simp only [oscMsgReaderInit, Option.bind_eq_bind, haddress.strlen msg.address.noNul,
    Option.bind_some,
    wrap32_round32Size (show msg.address.bytes.length < 2147483644 by omega)]
  rcases OscMessage.tagArea_head hnargs with ⟨hnil, hargs⟩ | ⟨arg, area, harea⟩
  · have hend : buffer + paddedSize msg.address.bytes.length =
        buffer + (msg.bytes P).length := by
      rw [hlen, hnil, hargs, argBytes, List.map_nil, List.flatten_nil, List.length_nil,
        Nat.add_zero]
    rw [if_neg (by omega), if_pos hend]
    exact ⟨_, rfl, rfl⟩
  · have htags : At m (buffer + paddedSize msg.address.bytes.length) (arg.tag :: area) := by
      have hright := hat.left.right
      rw [length_padString, harea] at hright
      exact hright
    rw [harea, List.length_cons] at hlen
    rw [if_neg (by omega), if_neg (by omega), htags.loadByte, Option.bind_some,
      if_neg arg.tag_ne_comma]
    exact ⟨_, rfl, rfl⟩

/-- No message whose calls all return `OSC_OK` is read back, whatever follows its bytes
in memory. -/
theorem not_readsBack (P : Platform) (w : OscWriter) (buffer : Memory) (kBundle : CString)
    (msg : OscMessage) (s₀ s : WriterState) (rest : Memory) (reader₀ : OscMsgReader)
    (hlen : buffer.length < 2147483648) (hnargs : msg.nargs = msg.args.length)
    (hinit : freshWriter w buffer kBundle = some s₀)
    (hrun : run (okStep P) s₀ msg.calls = some s) :
    ¬ ReadsBack P (s.mem.take s.pos.toNat ++ rest) s.pos reader₀ msg := by
  obtain ⟨-, hpos, hmem, hstate, -, -⟩ := freshWriter_eq hinit
  obtain ⟨hwrote, -, -⟩ := OscMessage.run_alone (ready_freshWriter hlen hinit) hstate hrun
  have hlength := hwrote.length
  rw [hwrote.mem, hpos] at hlength
  have hroom := le_of_length_overwrite (Nat.zero_le _) hlength
  have hend : s.pos = (msg.bytes P).length := by
    rw [hwrote.pos, hpos]
    omega
  rw [hwrote.take_eq hpos, hend]
  rintro ⟨-, reader, reader', hreader, hreads⟩
  rw [hmem] at hroom
  obtain ⟨reader₁, hreader₁, hnone⟩ :=
    init_bytes (P := P) hnargs ⟨[], rest, rfl, rfl⟩ reader₀ (by omega)
  have hsame := (Prod.mk.inj (Option.some.inj (hreader.symm.trans hreader₁))).2
  have htyped := hreads.typed
  rw [oscMsgReaderIsTyped, hsame, hnone] at htyped
  exact absurd htyped Bool.false_ne_true

/-- The message `/a` with the argument `7`. -/
def sevenMessage : OscMessage :=
  ⟨slashA, 1, [.int32 7], by decide, by decide, by simp [WriteArg.Valid]⟩

theorem not_readsBack_sevenMessage :
    ∃ s₀ s, freshWriter zeroWriter (List.replicate 64 0) bundleLiteral = some s₀ ∧
      run (okStep littleHost) s₀ sevenMessage.calls = some s ∧
      ¬ ReadsBack littleHost (s.mem.take s.pos.toNat ++ [0]) s.pos ⟨0, 0, none, none⟩
        sevenMessage := by
  obtain ⟨s₀, hinit⟩ : ∃ s₀, freshWriter zeroWriter (List.replicate 64 0) bundleLiteral =
      some s₀ := ⟨_, rfl⟩
  obtain ⟨s, hrun⟩ : ∃ s, run (okStep littleHost) s₀ sevenMessage.calls = some s := by
    cases hinit
    exact ⟨_, rfl⟩
  exact ⟨s₀, s, hinit, hrun, not_readsBack littleHost zeroWriter (List.replicate 64 0)
    bundleLiteral sevenMessage s₀ s [0] ⟨0, 0, none, none⟩ (by decide) rfl hinit hrun⟩

/-- Its bytes are `/a`, the tag and the value; the reader takes the tag for the first
byte of an argument. -/
theorem sevenMessage_not_readsBack :
    ∃ s₀ s, freshWriter zeroWriter (List.replicate 64 0) bundleLiteral = some s₀ ∧
      run (okStep littleHost) s₀ sevenMessage.calls = some s ∧
      s.mem.take s.pos.toNat = [47, 97, 0, 0, 105, 0, 0, 0, 0, 0, 0, 7] ∧
      ¬ ReadsBack littleHost s.mem s.pos ⟨0, 0, none, none⟩ sevenMessage := by
  refine ⟨_, _, rfl, rfl, by decide, ?_⟩
  rintro ⟨-, reader, reader', hinit, hreads⟩
  cases hinit
  exact absurd hreads.typed Bool.false_ne_true

end LittleOscar
