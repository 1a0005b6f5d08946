import LittleOscar.Osc.Writer.Primitive

/-!
# What one call of the writer does

`osc_msg_write_*` is one function up to three things: the tag it adds, the test
that refuses it and the bytes it stores. `oscMsgWrite_eq` states all of them at
once, so that no later proof looks into a single one. The calls that open and
close messages and bundles have their own equations. What follows of a call that has
a result is stated once for each function, from `cases_of_write` on.
-/

namespace LittleOscar

open Machine WriterState

variable (P : Platform)

namespace WriteArg

/-- The tag that the call adds. -/
def tag : WriteArg → UInt8
  | .null => 'N'.toUInt8
  | .boolTrue => 'T'.toUInt8
  | .boolFalse => 'F'.toUInt8
  | .infinity => 'I'.toUInt8
  | .int32 _ => 'i'.toUInt8
  | .int64 _ => 'h'.toUInt8
  | .timetag _ => 't'.toUInt8
  | .float _ => 'f'.toUInt8
  | .double _ => 'd'.toUInt8
  | .str _ => 's'.toUInt8
  | .blob _ _ => 'b'.toUInt8

/-- The test of `ENSURE_REMAIN` refuses the call when `room` bytes remain. -/
def Refused : WriteArg → Int → Prop
  | .null, _ | .boolTrue, _ | .boolFalse, _ | .infinity, _ => False
  | .int32 _, room | .float _, room => room < 4
  | .int64 _, room | .timetag _, room | .double _, room => room < 8
  | .str val, room => sizeT room < round32Size val.bytes.length
  | .blob _ sz, room => room < wrap32 (4 + round32 sz)

instance (arg : WriteArg) (room : Int) : Decidable (arg.Refused room) := by
  cases arg <;> unfold Refused <;> infer_instance

/-- The bytes that an accepted call stores at the cursor `pos`; there are none to
name when the caller's blob is shorter than its size. -/
def stored (pos : Int) : WriteArg → Option (List UInt8)
  | .null | .boolTrue | .boolFalse | .infinity => some []
  | .int32 val => some (bigEndian 4 val.toUInt32.toNat)
  | .int64 val => some (bigEndian 8 val.toUInt64.toNat)
  | .timetag val => some (bigEndian 8 val.toNat)
  | .float val => some (bigEndian 4 (P.floatToUInt32 val).toNat)
  | .double val => some (bigEndian 8 (P.doubleToUInt64 val).toNat)
  | .str val => some (stringBytes pos val)
  | .blob val sz => (loadBytes val 0 (loopCount sz)).map fun bytes =>
      bigEndian 4 (Int32.ofInt sz).toUInt32.toNat ++ bytes ++ padZeros (pos + 4 + bytes.length)

end WriteArg

theorem writeFlag_eq (arg : WriteArg) (hroom : ∀ room, ¬ arg.Refused room)
    (hstored : ∀ pos, arg.stored P pos = some []) (s : WriterState) :
    writeFlag arg.tag s = (s.addType arg.tag).bind fun s₁ =>
      if arg.Refused s₁.remain then some (oscError, s₁)
      else ((arg.stored P s₁.pos).bind s₁.putAll).map fun s₂ => (oscOk, s₂) := by
  simp only [writeFlag, hroom, hstored, if_false, Option.bind_some, putAll, Option.map_some,
    Option.bind_eq_bind]

theorem writeWord_eq (t : UInt8) (raw : List UInt8) (s : WriterState) :
    writeWord t raw s = (s.addType t).bind fun s₁ =>
      if s₁.remain < raw.length then some (oscError, s₁)
      else (s₁.putAll raw).map fun s₂ => (oscOk, s₂) := by
  unfold writeWord
  cases s.addType t with
  | none => rfl
  | some s₁ =>
      simp only [Option.bind_eq_bind, Option.bind_some, writeFixed_eq_putAll]
      cases s₁.putAll raw <;> rfl

theorem oscMsgWriteStr_eq (val : CString) (s : WriterState) :
    oscMsgWriteStr val s = (s.addType 's'.toUInt8).bind fun s₁ =>
      if sizeT s₁.remain < round32Size val.bytes.length then some (oscError, s₁)
      else (s₁.putAll (stringBytes s₁.pos val)).map fun s₂ => (oscOk, s₂) := by
  unfold oscMsgWriteStr
  cases s.addType 's'.toUInt8 with
  | none => rfl
  | some s₁ =>
      simp only [Option.bind_eq_bind, Option.bind_some, writeString_eq]
      cases s₁.putAll (stringBytes s₁.pos val) <;> rfl

theorem putAll_blob (s : WriterState) {raw : List UInt8} (hraw : raw.length = 4)
    (bytes : List UInt8) :
    s.putAll (raw ++ bytes ++ padZeros (s.pos + 4 + bytes.length)) =
      (s.putAll raw).bind fun s₁ => (s₁.putAll bytes).bind fun s₂ => s₂.pad 3 := by
  rw [List.append_assoc, putAll_append]
  cases h₁ : s.putAll raw with
  | none => rfl
  | some s₁ =>
      have hpos₁ : s₁.pos = s.pos + 4 := by rw [putAll_eq_some h₁, filled_pos, hraw]; rfl
      simp only [Option.bind_some]
      rw [putAll_append]
      cases h₂ : s₁.putAll bytes with
      | none => rfl
      | some s₂ =>
          have hpos₂ : s₂.pos = s₁.pos + bytes.length := by rw [putAll_eq_some h₂]; rfl
          simp only [Option.bind_some]
          rw [pad_three, hpos₂, hpos₁]

theorem oscMsgWriteBlob_eq (val : Memory) (sz : Int) (s : WriterState) :
    oscMsgWriteBlob P val sz s = (s.addType 'b'.toUInt8).bind fun s₁ =>
      if s₁.remain < wrap32 (4 + round32 sz) then some (oscError, s₁)
      else (((WriteArg.blob val sz).stored P s₁.pos).bind s₁.putAll).map
        fun s₂ => (oscOk, s₂) := by
  unfold oscMsgWriteBlob
  cases s.addType 'b'.toUInt8 with
  | none => rfl
  | some s₁ =>
      simp only [Option.bind_eq_bind, Option.bind_some, writeFixed_eq_putAll,
        native_oscHton32, WriteArg.stored]
      split
      · rfl
      · cases loadBytes val 0 (loopCount sz) with
        | none => cases s₁.putAll (bigEndian 4 (Int32.ofInt sz).toUInt32.toNat) <;> rfl
        | some bytes =>
            simp only [Option.bind_some, Option.map_some]
            rw [putAll_blob s₁ (length_bigEndian 4 _) bytes]
            cases s₁.putAll (bigEndian 4 (Int32.ofInt sz).toUInt32.toNat) with
            | none => rfl
            | some s₂ =>
                simp only [Option.bind_some]
                cases s₂.putAll bytes with
                | none => rfl
                | some s₃ => cases h₃ : s₃.pad 3 <;> simp [h₃]

/-- Every `osc_msg_write_*` adds its tag first, then tests the room, then stores. -/
theorem oscMsgWrite_eq (arg : WriteArg) (s : WriterState) :
    oscMsgWrite P arg s = (s.addType arg.tag).bind fun s₁ =>
      if arg.Refused s₁.remain then some (oscError, s₁)
      else ((arg.stored P s₁.pos).bind s₁.putAll).map fun s₂ => (oscOk, s₂) := by
  cases arg with
  | null => exact writeFlag_eq P .null (fun _ h => h) (fun _ => rfl) s
  | boolTrue => exact writeFlag_eq P .boolTrue (fun _ h => h) (fun _ => rfl) s
  | boolFalse => exact writeFlag_eq P .boolFalse (fun _ h => h) (fun _ => rfl) s
  | infinity => exact writeFlag_eq P .infinity (fun _ h => h) (fun _ => rfl) s
  | int32 val =>
      rw [oscMsgWrite, oscMsgWriteInt32, writeWord_eq, native_oscHton32, length_bigEndian]
      rfl
  | int64 val =>
      rw [oscMsgWrite, oscMsgWriteInt64, writeWord_eq, native_oscHton64, length_bigEndian]
      rfl
  | timetag val =>
      rw [oscMsgWrite, oscMsgWriteTimetag, writeWord_eq, native_oscHton64, length_bigEndian]
      rfl
  | float val =>
      rw [oscMsgWrite, oscMsgWriteFloat, writeWord_eq, native_oscHton32, length_bigEndian]
      rfl
  | double val =>
      rw [oscMsgWrite, oscMsgWriteDouble, writeWord_eq, native_oscHton64, length_bigEndian]
      rfl
  | str val => exact oscMsgWriteStr_eq val s
  | blob val sz => exact oscMsgWriteBlob_eq P val sz s

/-- The bytes that `osc_msg_writer_start_msg` leaves free for the length field of
an element. -/
def WriterState.reserve (s : WriterState) : Int :=
  if s.state = OSC_WRITER_BUNDLE then 4 else 0

/-- The state after the length field was reserved and the start was recorded. -/
def WriterState.reserved (s : WriterState) : WriterState :=
  { s with pos := s.pos + s.reserve, msgStart := s.pos + s.reserve }

theorem oscMsgWriterStartMsg_eq (address : CString) (nargs : Int) (s : WriterState) :
    oscMsgWriterStartMsg address nargs s =
      if s.state.msg then some (oscError, s)
      else if sizeT s.reserved.remain < round32Size address.bytes.length then
        some (oscError, s.reserved)
      else (s.reserved.putAll (stringBytes s.reserved.pos address)).bind fun s₂ =>
        if s₂.remain < round32 nargs then some (oscError, s₂)
        else (putAll { s₂ with typePos := s₂.pos }
            (List.replicate (loopCount (round32 nargs)) 0)).map
          fun s₃ => (oscOk, { s₃ with state := { s₃.state with msg := true } }) := by
  have hreserved : s.reserved =
      { (if s.state = OSC_WRITER_BUNDLE then { s with pos := s.pos + 4 } else s) with
        msgStart :=
          (if s.state = OSC_WRITER_BUNDLE then { s with pos := s.pos + 4 } else s).pos } := by
    unfold reserved reserve
    split <;> simp
  unfold oscMsgWriterStartMsg
  simp only [← hreserved, Option.bind_eq_bind, writeString_eq]
  split
  · rfl
  · split
    · rfl
    · congr 1
      funext s₂
      split
      · rfl
      · cases putAll { s₂ with typePos := s₂.pos }
          (List.replicate (loopCount (round32 nargs)) 0) <;> rfl

theorem oscMsgWriterStartBundle_eq (timetag : UInt64) (s : WriterState) :
    oscMsgWriterStartBundle P timetag s =
      if s.state ≠ OSC_WRITER_OUT then some (oscError, s)
      else if s.remain < 12 then some (oscError, s)
      else (s.putAll (stringBytes s.pos s.kBundle)).bind fun s₁ =>
        (putAll { s₁ with kBundle := CString.empty } (bigEndian 8 timetag.toNat)).map
          fun s₂ => (oscOk, { s₂ with state := OSC_WRITER_BUNDLE }) := by
  unfold oscMsgWriterStartBundle
  simp only [Option.bind_eq_bind, writeString_eq, writeFixed_eq_putAll, native_oscHton64]
  split
  · rfl
  · split
    · rfl
    · congr 1
      funext s₁
      cases putAll { s₁ with kBundle := CString.empty } (bigEndian 8 timetag.toNat) <;> rfl

/-! ## What a call has done -/

section Cases

variable {P} {s s' : WriterState} {ret : Int}

/-- An `osc_msg_write_*` adds its tag, and then it is refused or stores its bytes. -/
theorem cases_of_write {arg : WriteArg} (h : oscMsgWrite P arg s = some (ret, s')) :
    (ret = oscError ∧ arg.Refused s.remain ∧ s' = s.tagged arg.tag) ∨
      (ret = oscOk ∧ ¬ arg.Refused s.remain ∧
        ∃ bs, arg.stored P s.pos = some bs ∧ (s.tagged arg.tag).putAll bs = some s') := by
  rw [oscMsgWrite_eq] at h
  obtain ⟨s₁, htag, hrest⟩ := Option.bind_eq_some_iff.mp h
  obtain rfl := addType_eq_some htag
  rw [tagged_remain, tagged_pos] at hrest
  split at hrest
  · next hroom =>
      obtain ⟨rfl, rfl⟩ := Prod.mk.inj (Option.some.inj hrest)
      exact Or.inl ⟨rfl, hroom, rfl⟩
  · next hroom =>
      obtain ⟨s₂, hput, hs₂⟩ := Option.map_eq_some_iff.mp hrest
      obtain ⟨bs, hstored, hbs⟩ := Option.bind_eq_some_iff.mp hput
      obtain ⟨rfl, rfl⟩ := Prod.mk.inj hs₂
      exact Or.inr ⟨rfl, hroom, bs, hstored, hbs⟩

/-- `osc_msg_writer_start_msg` is refused inside a message, or for want of room for the
address, or for want of room for the tags, or it opens the message. -/
theorem cases_of_startMsg {address : CString} {nargs : Int}
    (h : oscMsgWriterStartMsg address nargs s = some (ret, s')) :
    (ret = oscError ∧ s.state.msg ∧ s' = s) ∨
      (ret = oscError ∧ ¬ s.state.msg ∧
        sizeT s.reserved.remain < round32Size address.bytes.length ∧ s' = s.reserved) ∨
      (ret = oscError ∧ ¬ s.state.msg ∧
        ¬ sizeT s.reserved.remain < round32Size address.bytes.length ∧
        s.reserved.putAll (stringBytes s.reserved.pos address) = some s') ∨
      (ret = oscOk ∧ ¬ s.state.msg ∧
        ∃ s₂ s₃, s.reserved.putAll (stringBytes s.reserved.pos address) = some s₂ ∧
          putAll { s₂ with typePos := s₂.pos } (List.replicate (loopCount (round32 nargs)) 0) =
            some s₃ ∧
          s' = { s₃ with state := { s₃.state with msg := true } }) := by
  rw [oscMsgWriterStartMsg_eq] at h
  split at h
  · next hmsg =>
      obtain ⟨rfl, rfl⟩ := Prod.mk.inj (Option.some.inj h)
      exact Or.inl ⟨rfl, hmsg, rfl⟩
  next hmsg =>
  split at h
  · next hroom =>
      obtain ⟨rfl, rfl⟩ := Prod.mk.inj (Option.some.inj h)
      exact Or.inr (Or.inl ⟨rfl, hmsg, hroom, rfl⟩)
  next hroom =>
  obtain ⟨s₂, haddress, hrest⟩ := Option.bind_eq_some_iff.mp h
  split at hrest
  · obtain ⟨rfl, rfl⟩ := Prod.mk.inj (Option.some.inj hrest)
    exact Or.inr (Or.inr (Or.inl ⟨rfl, hmsg, hroom, haddress⟩))
  · obtain ⟨s₃, htags, hs₃⟩ := Option.map_eq_some_iff.mp hrest
    obtain ⟨rfl, rfl⟩ := Prod.mk.inj hs₃
    exact Or.inr (Or.inr (Or.inr ⟨rfl, hmsg, s₂, s₃, haddress, htags, rfl⟩))

/-- `osc_msg_writer_start_bundle` is refused and does nothing, or it stores the header. -/
theorem cases_of_startBundle {timetag : UInt64}
    (h : oscMsgWriterStartBundle P timetag s = some (ret, s')) :
    (ret = oscError ∧ s' = s) ∨
      (ret = oscOk ∧ s.state = OSC_WRITER_OUT ∧ 12 ≤ s.remain ∧
        ∃ s₁ s₂, s.putAll (stringBytes s.pos s.kBundle) = some s₁ ∧
          putAll { s₁ with kBundle := CString.empty } (bigEndian 8 timetag.toNat) = some s₂ ∧
          s' = { s₂ with state := OSC_WRITER_BUNDLE }) := by
  rw [oscMsgWriterStartBundle_eq] at h
  split at h
  · obtain ⟨rfl, rfl⟩ := Prod.mk.inj (Option.some.inj h)
    exact Or.inl ⟨rfl, rfl⟩
  next hout =>
  split at h
  · obtain ⟨rfl, rfl⟩ := Prod.mk.inj (Option.some.inj h)
    exact Or.inl ⟨rfl, rfl⟩
  next hroom =>
  obtain ⟨s₁, hheader, hrest⟩ := Option.bind_eq_some_iff.mp h
  obtain ⟨s₂, htimetag, hs₂⟩ := Option.map_eq_some_iff.mp hrest
  obtain ⟨rfl, rfl⟩ := Prod.mk.inj hs₂
  exact Or.inr ⟨rfl, not_not.mp hout, by omega, s₁, s₂, hheader, htimetag, rfl⟩

/-- `osc_msg_writer_end_msg` is refused outside a message; in a bundle it stores the
length of the message. -/
theorem cases_of_endMsg (h : oscMsgWriterEndMsg P s = some (ret, s')) :
    (ret = oscError ∧ ¬ s.state.msg ∧ s' = s) ∨
      (ret = oscOk ∧ s.state.msg ∧ s.state.bundle ∧
        ∃ mem, storeBytes s.mem (s.data + (s.msgStart - 4))
            (native P.order 4 ((s.pos - s.msgStart) % 4294967296).toNat) = some mem ∧
          s' = { s with mem, state := { s.state with msg := false } }) ∨
      (ret = oscOk ∧ s.state.msg ∧ ¬ s.state.bundle ∧
        s' = { s with state := OSC_WRITER_COMPLETE }) := by
  unfold oscMsgWriterEndMsg at h
  split at h
  · next hmsg =>
      obtain ⟨rfl, rfl⟩ := Prod.mk.inj (Option.some.inj h)
      exact Or.inl ⟨rfl, hmsg, rfl⟩
  next hmsg =>
  split at h
  · next hbundle =>
      obtain ⟨mem, hstore, hs'⟩ := Option.bind_eq_some_iff.mp h
      obtain ⟨rfl, rfl⟩ := Prod.mk.inj (Option.some.inj hs')
      exact Or.inr (Or.inl ⟨rfl, not_not.mp hmsg, hbundle, mem, hstore, rfl⟩)
  · next hbundle =>
      obtain ⟨rfl, rfl⟩ := Prod.mk.inj (Option.some.inj h)
      exact Or.inr (Or.inr ⟨rfl, not_not.mp hmsg, hbundle, rfl⟩)

end Cases

/-! ## An opened message -/

section Opened

variable {s s' : WriterState} {address : CString} {nargs : Int}

/-- What an accepted `osc_msg_writer_start_msg` leaves: the address from `msg_start` on, and
behind it the tag area up to the cursor. -/
structure Opened (address : CString) (nargs : Int) (s s' : WriterState) : Prop where
  closed : ¬ s.state.msg
  fits : s.reserved.Fits (stringBytes s.reserved.pos address).length
  data : s'.data = s.data
  len : s'.len = s.len
  length : s'.mem.length = s.mem.length
  state : s'.state = { s.state with msg := true }
  msgStart : s'.msgStart = s.reserved.pos
  typePos : s'.typePos = s.reserved.pos + (stringBytes s.reserved.pos address).length
  pos : s'.pos = s'.typePos + loopCount (round32 nargs)
  zeros : ∀ t, s'.typePos ≤ t → t < s'.pos → loadByte s'.mem (s'.data + t) = some 0

theorem opened_of_startMsg (h : oscMsgWriterStartMsg address nargs s = some (oscOk, s')) :
    Opened address nargs s s' := by
  rcases cases_of_startMsg h with
    ⟨habs, -⟩ | ⟨habs, -⟩ | ⟨habs, -⟩ | ⟨-, hclosed, s₂, s₃, haddress, htags, rfl⟩
  · exact absurd habs.symm oscError_ne_oscOk
  · exact absurd habs.symm oscError_ne_oscOk
  · exact absurd habs.symm oscError_ne_oscOk
  have hs₂ := putAll_eq_some haddress
  have hs₃ := putAll_eq_some htags
  have hlength₂ : s₂.mem.length = s.reserved.mem.length := length_of_putAll haddress
  have htype : s₃.typePos = s₂.pos := by rw [hs₃, filled_typePos]
  have hpos : s₃.pos = s₂.pos + loopCount (round32 nargs) := by
    rw [hs₃, filled_pos, List.length_replicate]
  exact {
    closed := hclosed
    fits := fits_of_putAll (stringBytes_ne_nil s.reserved.pos address) haddress
    data := by rw [hs₃, hs₂]; rfl
    len := by rw [hs₃, hs₂]; rfl
    length := (length_of_putAll htags).trans hlength₂
    state := by rw [hs₃, hs₂]; rfl
    msgStart := by rw [hs₃, hs₂]; rfl
    typePos := by rw [htype, hs₂]; rfl
    pos := by rw [hpos, htype]
    zeros := by
      intro t ht ht'
      simp only [htype, hpos] at ht ht'
      have hne : List.replicate (loopCount (round32 nargs)) (0 : UInt8) ≠ [] :=
        List.ne_nil_of_length_pos (by rw [List.length_replicate]; omega)
      obtain ⟨hnonneg, hle⟩ := fits_of_putAll hne htags
      simp only at hnonneg hle
      have hzeros := (At.overwrite hnonneg hle).loadByte_add (i := (t - s₂.pos).toNat)
        (by rw [List.length_replicate]; omega)
      rw [show s₂.data + s₂.pos + ((t - s₂.pos).toNat : Int) = s₂.data + t by omega,
        List.getElem?_replicate, if_pos (by omega)] at hzeros
      rw [hs₃]
      exact hzeros }

namespace Opened

theorem typePos_mod (h : Opened address nargs s s') : s'.typePos % 4 = 0 := by
  rw [h.typePos]
  exact stringBytes_mod s.reserved.pos address

theorem pos_mod (h : Opened address nargs s s') : s'.pos % 4 = 0 := by
  have htype := h.typePos_mod
  have hcount := loopCount_round32_mod nargs
  rw [h.pos]
  omega

end Opened

end Opened

/-! ## The size of the object -/

section Length

variable {P} {s s' : WriterState} {ret : Int}

theorem length_of_oscMsgWrite {arg : WriteArg} (h : oscMsgWrite P arg s = some (ret, s')) :
    s'.mem.length = s.mem.length := by
  have hlength : (s.tagged arg.tag).mem.length = s.mem.length := by
    rw [tagged_mem, List.length_set]
  rcases cases_of_write h with ⟨-, -, rfl⟩ | ⟨-, -, bs, -, hput⟩
  · exact hlength
  · exact (length_of_putAll hput).trans hlength

theorem length_of_startMsg {address : CString} {nargs : Int}
    (h : oscMsgWriterStartMsg address nargs s = some (ret, s')) :
    s'.mem.length = s.mem.length := by
  have hreserved : s.reserved.mem.length = s.mem.length := rfl
  rcases cases_of_startMsg h with
    ⟨-, -, rfl⟩ | ⟨-, -, -, rfl⟩ | ⟨-, -, -, hput⟩ | ⟨-, -, s₂, s₃, hput, htags, rfl⟩
  · rfl
  · exact hreserved
  · exact (length_of_putAll hput).trans hreserved
  · exact (length_of_putAll htags).trans ((length_of_putAll hput).trans hreserved)

theorem length_of_startBundle {timetag : UInt64}
    (h : oscMsgWriterStartBundle P timetag s = some (ret, s')) :
    s'.mem.length = s.mem.length := by
  rcases cases_of_startBundle h with ⟨-, rfl⟩ | ⟨-, -, -, s₁, s₂, hheader, htimetag, rfl⟩
  · rfl
  · have hlength : s₁.mem.length = s.mem.length := length_of_putAll hheader
    exact (length_of_putAll htimetag).trans hlength

theorem length_of_endMsg (h : oscMsgWriterEndMsg P s = some (ret, s')) :
    s'.mem.length = s.mem.length := by
  rcases cases_of_endMsg h with ⟨-, -, rfl⟩ | ⟨-, -, -, mem, hstore, rfl⟩ | ⟨-, -, -, rfl⟩
  · rfl
  · exact length_of_storeBytes hstore
  · rfl

/-- No call changes the size of the object. -/
theorem length_of_writerCall {c : WriterCall} (h : writerCall P c s = some (ret, s')) :
    s'.mem.length = s.mem.length := by
  cases c with
  | startBundle timetag => exact length_of_startBundle h
  | startMsg address nargs => exact length_of_startMsg h
  | write arg => exact length_of_oscMsgWrite h
  | endMsg => exact length_of_endMsg h
  | endBundle =>
      obtain ⟨-, rfl⟩ := Prod.mk.inj (Option.some.inj h)
      rfl

end Length

end LittleOscar
