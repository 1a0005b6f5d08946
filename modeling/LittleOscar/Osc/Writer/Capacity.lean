import LittleOscar.Osc.Writer.Call
import LittleOscar.Transition.Run

/-!
# The capacity checks of the writer

`CallInside` is what a writer owes its buffer at one call: every byte it stores has
an index in the buffer, the cursor stays between the ends, and the call is accepted
exactly when the bytes it has to emit fit. `HasRoom` is the condition on the state
before the call under which the checks of `write.c` achieve that. They are too
weak by the terminator of a string whose length is a multiple of four, by four
bytes of a bundle header and by the length field of an element, and they wrap for
counts within a few of the greatest `int`.

`Inside` is the invariant of a run that keeps to `HasRoom`. Each kind of call has
one lemma for what it does then and one for the overrun it runs into otherwise.
-/

namespace LittleOscar

open Machine Transition WriterState

variable (P : Platform)

/-! ## Sizes and conditions -/

/-- The number of bytes that a call has to emit at the cursor for an argument. -/
def WriteArg.size : WriteArg → Nat
  | .null | .boolTrue | .boolFalse | .infinity => 0
  | .int32 _ | .float _ => 4
  | .int64 _ | .timetag _ | .double _ => 8
  | .str val => paddedSize val.bytes.length
  | .blob _ sz => 4 + roundUp sz.toNat

/-- The size of a blob is not negative and its bytes are there. -/
def WriteArg.Valid : WriteArg → Prop
  | .blob val sz => 0 ≤ sz ∧ sz < 2147483648 ∧ sz ≤ val.length
  | _ => True

/-- The number of bytes that a call has to emit, the length field of an element
included. -/
def emitted (s : WriterState) : WriterCall → Int
  | .startBundle _ => paddedSize s.kBundle.bytes.length + 8
  | .startMsg address nargs =>
      s.reserve + paddedSize address.bytes.length + roundUp nargs.toNat
  | .write arg => arg.size
  | .endMsg | .endBundle => 0

/-- The calls that a legal order makes in the state `s`, whatever the calls before
returned: a message is opened when none is open and a bundle first of all. -/
def LegalCall (s : WriterState) : WriterCall → Prop
  | .startBundle _ => s.state = OSC_WRITER_OUT
  | .startMsg _ nargs => ¬ s.state.msg ∧ 0 ≤ nargs ∧ nargs < 2147483648
  | .write arg => arg.Valid
  | .endMsg | .endBundle => True

/-- The room that the test for an argument judges rightly. -/
def WriteArg.HasRoom (room : Int) : WriteArg → Prop
  | .str val =>
      room < roundUp val.bytes.length ∨ (paddedSize val.bytes.length : Int) ≤ room
  | .blob _ sz => sz < 2147483641
  | _ => True

/-- The next tag has a place: one that `osc_msg_writer_start_msg` made for it, or a
left-over cursor that points into the buffer. -/
def HasTagSlot (s : WriterState) (slots : Nat) : Prop :=
  (s.state.msg ∧ 0 < slots) ∨ (0 ≤ s.typePos ∧ s.typePos < s.len)

/-- The room that the test of a call judges rightly, in a state in which `slots`
tags of the open message are not yet written. -/
def HasRoom (s : WriterState) (slots : Nat) : WriterCall → Prop
  | .startBundle _ =>
      s.remain < 12 ∨ (paddedSize s.kBundle.bytes.length : Int) + 8 ≤ s.remain
  | .startMsg address nargs =>
      s.reserve ≤ s.remain ∧
        (s.remain - s.reserve < roundUp address.bytes.length ∨
          ((paddedSize address.bytes.length : Int) ≤ s.remain - s.reserve ∧
            nargs < 2147483645))
  | .write arg => HasTagSlot s slots ∧ arg.HasRoom s.remain
  | .endMsg => s.state.msg
  | .endBundle => True

/-- The call stores inside the buffer, leaves the cursor inside it and is accepted
exactly when what it has to emit fits. -/
def CallInside (s : WriterState) (c : WriterCall) : Prop :=
  ∃ ret s', writerCall P c s = some (ret, s') ∧ 0 ≤ s'.pos ∧ s'.pos ≤ s'.len ∧
    (ret = oscOk ↔ emitted s c ≤ s.remain)

/-- The tags of the open message that are not yet written after a call. -/
def slotsAfter (slots : Nat) (ret : Int) : WriterCall → Nat
  | .startMsg _ nargs => if ret = oscOk then nargs.toNat else slots
  | .write _ => slots - 1
  | _ => slots

/-- A call together with the count of the tags that are still free. -/
def trackedStep (t : WriterState × Nat) (c : WriterCall) : Option (WriterState × Nat) :=
  (writerCall P c t.1).map fun (ret, s') => (s', slotsAfter t.2 ret c)

/-- The writer is inside its buffer, which is the whole object. -/
structure Inside (s : WriterState) (slots : Nat) : Prop where
  data : s.data = 0
  len : s.len = s.mem.length
  bound : s.len < 2147483648
  nonneg : 0 ≤ s.pos
  le : s.pos ≤ s.len
  aligned : s.pos % 4 = 0
  tags : s.state.msg → 0 < slots → 0 ≤ s.typePos ∧ s.typePos + slots ≤ s.pos
  start : s.state.msg → s.state.bundle → 4 ≤ s.msgStart ∧ s.msgStart ≤ s.pos
  bundle : s.state.bundle → s.state.out = false ∧ s.state.complete = false

namespace Inside

variable {P} {s : WriterState} {slots : Nat}

theorem fits_iff (h : Inside s slots) (n : Nat) : s.Fits n ↔ (n : Int) ≤ s.remain := by
  have hdata := h.data
  have hlen := h.len
  have hnonneg := h.nonneg
  unfold Fits remain
  omega

theorem remain_nonneg (h : Inside s slots) : 0 ≤ s.remain := by
  have hle := h.le
  unfold remain
  omega

theorem remain_lt (h : Inside s slots) : s.remain < 2147483648 := by
  have hbound := h.bound
  have hnonneg := h.nonneg
  unfold remain
  omega

end Inside

/-! ## Arguments -/

/-- An aligned cursor gets as many bytes as the argument has to emit. -/
theorem exists_stored {arg : WriteArg} (harg : arg.Valid) {pos : Int} (hpos : pos % 4 = 0) :
    ∃ bs, arg.stored P pos = some bs ∧ bs.length = arg.size := by
  cases arg with
  | str val =>
      refine ⟨_, rfl, ?_⟩
      rw [stringBytes_of_mod hpos, length_padString]
      rfl
  | blob val sz =>
      obtain ⟨h, h', hle⟩ := harg
      have hcount := loopCount_of_nonneg h h'
      have hload := loadBytes_eq_take (m := val) (p := 0) (n := sz.toNat) (by omega) (by omega)
      refine ⟨_, by rw [WriteArg.stored, hcount, hload]; rfl, ?_⟩
      simp only [List.length_append, length_bigEndian, List.length_take, List.length_drop,
        padZeros, List.length_replicate, WriteArg.size, roundUp]
      omega
  | _ => exact ⟨_, rfl, by simp [WriteArg.size]⟩

/-- Where the test is right, it refuses exactly what does not fit. -/
theorem WriteArg.HasRoom.refused_iff {arg : WriteArg} {room : Int} (hroom : 0 ≤ room)
    (hlt : room < 2147483648) (harg : arg.Valid) (h : arg.HasRoom room) :
    arg.Refused room ↔ room < arg.size := by
  cases arg with
  | str val =>
      have hval := val.length_lt
      have hrefused := sizeT_lt_round32Size_iff (by omega) (show room < _ by omega) hval
      have hle := roundUp_le_paddedSize val.bytes.length
      simp only [HasRoom, Refused, WriteArg.size, hrefused] at h ⊢
      omega
  | blob val sz =>
      obtain ⟨hnonneg, -, -⟩ := harg
      have hlarge : sz < 2147483641 := h
      have hround := round32_eq_roundUp hnonneg (by omega)
      have hup : roundUp sz.toNat < 2147483644 := by
        unfold roundUp
        omega
      simp only [Refused, WriteArg.size, hround]
      rw [wrap32_of_range (by omega) (by omega)]
      omega
  | null | boolTrue | boolFalse | infinity => simpa [Refused, WriteArg.size] using hroom
  | _ => simp [Refused, WriteArg.size]

/-- Where it is wrong, it accepts what does not fit. -/
theorem WriteArg.not_refused_of_not_hasRoom {arg : WriteArg} {room : Int}
    (hroom : 0 ≤ room) (hlt : room < 2147483648) (harg : arg.Valid)
    (h : ¬ arg.HasRoom room) : ¬ arg.Refused room ∧ room < arg.size := by
  cases arg with
  | str val =>
      have hval := val.length_lt
      have hrefused := sizeT_lt_round32Size_iff (by omega) (show room < _ by omega) hval
      simp only [HasRoom, Refused, WriteArg.size, hrefused] at h ⊢
      omega
  | blob val sz =>
      obtain ⟨hnonneg, hsz, -⟩ := harg
      have hlarge : ¬ sz < 2147483641 := h
      have hwrap : wrap32 (4 + round32 sz) ≤ 0 := by
        by_cases hlt' : sz < 2147483645
        · rw [round32_eq_roundUp hnonneg hlt']
          unfold wrap32 roundUp
          omega
        · rw [round32_of_large (by omega) hsz]
          decide
      simp only [Refused, WriteArg.size, roundUp]
      omega
  | _ => exact absurd trivial h

namespace Inside

variable {s : WriterState} {slots : Nat}

/-- The test for an argument is right where the argument fits. -/
theorem hasRoom_of_fit {arg : WriteArg} {room : Int} (harg : arg.Valid)
    (hlt : room < 2147483648) (hfit : (arg.size : Int) ≤ room) : arg.HasRoom room := by
  cases arg with
  | str val => exact Or.inr hfit
  | blob val sz =>
      have hle := le_roundUp sz.toNat
      have hmod := roundUp_mod sz.toNat
      have hnonneg : 0 ≤ sz := harg.1
      simp only [WriteArg.size] at hfit
      show sz < 2147483641
      omega
  | _ => trivial

theorem addType (h : Inside s slots) (hslot : HasTagSlot s slots) (t : UInt8) :
    s.addType t = some (s.tagged t) := by
  have hdata := h.data
  have hlen := h.len
  have hle := h.le
  have hrange : 0 ≤ s.typePos ∧ s.typePos < s.len := by
    rcases hslot with ⟨hmsg, hpos⟩ | hrange
    · have htags := h.tags hmsg hpos
      omega
    · exact hrange
  exact addType_of_range s (by omega) (by omega)

theorem write_outcome (h : Inside s slots) {arg : WriteArg} (harg : arg.Valid)
    (hroom : HasRoom s slots (.write arg)) :
    (s.remain < arg.size ∧ oscMsgWrite P arg s = some (oscError, s.tagged arg.tag)) ∨
      ((arg.size : Int) ≤ s.remain ∧ ∃ bs, bs.length = arg.size ∧
        oscMsgWrite P arg s = some (oscOk, (s.tagged arg.tag).filled bs)) := by
  have hrefused := hroom.2.refused_iff h.remain_nonneg h.remain_lt harg
  have heq := oscMsgWrite_eq P arg s
  rw [h.addType hroom.1, Option.bind_some, tagged_remain] at heq
  by_cases hfit : s.remain < arg.size
  · rw [if_pos (hrefused.mpr hfit)] at heq
    exact Or.inl ⟨hfit, heq⟩
  · obtain ⟨bs, hbs, hlen⟩ := exists_stored P harg h.aligned
    have hfits : (s.tagged arg.tag).Fits bs.length := by
      have hs := (h.fits_iff bs.length).mpr (by omega)
      simpa [Fits] using hs
    rw [if_neg (fun hr => hfit (hrefused.mp hr)), tagged_pos, hbs, Option.bind_some,
      putAll_of_fits _ hfits] at heq
    exact Or.inr ⟨by omega, bs, hlen, heq⟩

theorem write_overrun (h : Inside s slots) {arg : WriteArg} (harg : arg.Valid)
    (hroom : ¬ HasRoom s slots (.write arg)) : oscMsgWrite P arg s = none := by
  rw [oscMsgWrite_eq]
  by_cases hslot : HasTagSlot s slots
  · have harg' : ¬ arg.HasRoom s.remain := fun ha => hroom ⟨hslot, ha⟩
    obtain ⟨hrefused, hsize⟩ :=
      WriteArg.not_refused_of_not_hasRoom h.remain_nonneg h.remain_lt harg harg'
    obtain ⟨bs, hbs, hlen⟩ := exists_stored P harg h.aligned
    have hne : bs ≠ [] := by
      intro hnil
      have hnonneg := h.remain_nonneg
      rw [hnil, List.length_nil] at hlen
      omega
    have hfits : ¬ (s.tagged arg.tag).Fits bs.length := by
      intro hf
      have hs := (h.fits_iff bs.length).mp (by simpa [Fits] using hf)
      omega
    rw [h.addType hslot, Option.bind_some, tagged_remain, if_neg hrefused, tagged_pos, hbs,
      Option.bind_some, putAll_of_not_fits _ hne hfits]
    rfl
  · have hdata := h.data
    have hlen := h.len
    have hstore : s.addType arg.tag = none := by
      have hrange : ¬ (0 ≤ s.data + s.typePos ∧ s.data + s.typePos < s.mem.length) := by
        intro hr
        exact hslot (Or.inr (by omega))
      rw [WriterState.addType, storeByte, if_neg hrange]
      rfl
    rw [hstore]
    rfl

end Inside

/-! ## Opening a message -/

/-- The state after a message was opened: its address, then its free tags. -/
def WriterState.opened (s : WriterState) (address : CString) (nargs : Int) : WriterState :=
  let s₂ := s.reserved.filled (padString address.bytes)
  let s₃ := filled { s₂ with typePos := s₂.pos } (List.replicate (roundUp nargs.toNat) 0)
  { s₃ with state := { s₃.state with msg := true } }

namespace Inside

variable {s : WriterState} {slots : Nat}

theorem reserve_mod (s : WriterState) : s.reserve % 4 = 0 ∧ 0 ≤ s.reserve := by
  unfold reserve
  split <;> decide

theorem reserved_fits_iff (h : Inside s slots) (n : Nat) :
    s.reserved.Fits n ↔ (n : Int) ≤ s.remain - s.reserve := by
  have hdata := h.data
  have hlen := h.len
  have hnonneg := h.nonneg
  have hreserve := reserve_mod s
  simp only [Fits, reserved, remain]
  omega

theorem reserved_remain (s : WriterState) : s.reserved.remain = s.remain - s.reserve := by
  simp only [reserved, remain]
  omega

theorem stringBytes_reserved (h : Inside s slots) (address : CString) :
    stringBytes s.reserved.pos address = padString address.bytes := by
  have haligned := h.aligned
  have hreserve := reserve_mod s
  exact stringBytes_of_mod (by simp only [reserved]; omega) address

/-- Where the reserved length field fits, the address test compares with the length
of the address rounded up. -/
theorem address_refused_iff (h : Inside s slots) (address : CString)
    (hreserve : s.reserve ≤ s.remain) :
    sizeT s.reserved.remain < round32Size address.bytes.length ↔
      s.remain - s.reserve < roundUp address.bytes.length := by
  have hlt := h.remain_lt
  have hmod := reserve_mod s
  rw [reserved_remain, sizeT_lt_round32Size_iff (by omega) (by omega) address.length_lt]
  omega

/-- Where it does not, the test compares with a huge `size_t` and passes. -/
theorem address_not_refused (h : Inside s slots) (address : CString)
    (hreserve : ¬ s.reserve ≤ s.remain) :
    ¬ sizeT s.reserved.remain < round32Size address.bytes.length := by
  have hnonneg := h.remain_nonneg
  have hle : s.reserve ≤ 4 := by
    unfold reserve
    split <;> omega
  rw [reserved_remain, sizeT_lt_round32Size_iff (by omega) (by omega) address.length_lt]
  omega

theorem address_fits_iff (h : Inside s slots) (address : CString) :
    s.reserved.Fits (padString address.bytes).length ↔
      (paddedSize address.bytes.length : Int) ≤ s.remain - s.reserve := by
  rw [length_padString]
  exact h.reserved_fits_iff _

theorem address_remain (s : WriterState) (address : CString) :
    (s.reserved.filled (padString address.bytes)).remain =
      s.remain - s.reserve - paddedSize address.bytes.length := by
  rw [filled_remain, reserved_remain, length_padString]

/-- Behind the address, the zeros of the tag area fit when both do. -/
theorem tagArea_fits_iff (h : Inside s slots) (address : CString)
    (hpadded : (paddedSize address.bytes.length : Int) ≤ s.remain - s.reserve) (k : Nat) :
    Fits { s.reserved.filled (padString address.bytes) with
        typePos := (s.reserved.filled (padString address.bytes)).pos }
        (List.replicate k (0 : UInt8)).length ↔
      (paddedSize address.bytes.length : Int) + k ≤ s.remain - s.reserve := by
  have hfits := (h.address_fits_iff address).mpr hpadded
  have hnonneg := h.nonneg
  have hdata := h.data
  have hlen := h.len
  have hreserve := (reserve_mod s).2
  simp only [Fits, filled_data, filled_pos, filled_mem, length_padString,
    List.length_replicate] at hfits ⊢
  rw [length_overwrite (by simp only [length_padString]; omega)]
  simp only [reserved, remain]
  omega

theorem startMsg_outcome (h : Inside s slots) {address : CString} {nargs : Int}
    (hlegal : LegalCall s (.startMsg address nargs))
    (hroom : HasRoom s slots (.startMsg address nargs)) :
    (s.remain - s.reserve < roundUp address.bytes.length ∧
        oscMsgWriterStartMsg address nargs s = some (oscError, s.reserved)) ∨
      ((paddedSize address.bytes.length : Int) ≤ s.remain - s.reserve ∧
        s.remain - s.reserve - paddedSize address.bytes.length < roundUp nargs.toNat ∧
        oscMsgWriterStartMsg address nargs s =
          some (oscError, s.reserved.filled (padString address.bytes))) ∨
      ((paddedSize address.bytes.length : Int) + roundUp nargs.toNat ≤
          s.remain - s.reserve ∧
        oscMsgWriterStartMsg address nargs s = some (oscOk, s.opened address nargs)) := by
  obtain ⟨hmsg, hnargs, -⟩ := hlegal
  obtain ⟨hreserve, hor⟩ := hroom
  have hrefused := h.address_refused_iff address hreserve
  have heq := oscMsgWriterStartMsg_eq address nargs s
  rw [if_neg hmsg, h.stringBytes_reserved] at heq
  by_cases hshort : s.remain - s.reserve < roundUp address.bytes.length
  · rw [if_pos (hrefused.mpr hshort)] at heq
    exact Or.inl ⟨hshort, heq⟩
  · obtain ⟨hpadded, hlarge⟩ := hor.resolve_left hshort
    rw [if_neg (fun hr => hshort (hrefused.mp hr)),
      putAll_of_fits _ ((h.address_fits_iff address).mpr hpadded), Option.bind_some,
      address_remain, loopCount_round32 hnargs hlarge, round32_eq_roundUp hnargs hlarge] at heq
    by_cases htags : s.remain - s.reserve - paddedSize address.bytes.length <
        roundUp nargs.toNat
    · rw [if_pos htags] at heq
      exact Or.inr (Or.inl ⟨hpadded, htags, heq⟩)
    · have hboth : (paddedSize address.bytes.length : Int) + roundUp nargs.toNat ≤
          s.remain - s.reserve := by omega
      rw [if_neg htags,
        putAll_of_fits _ ((h.tagArea_fits_iff address hpadded _).mpr hboth)] at heq
      exact Or.inr (Or.inr ⟨hboth, heq⟩)

theorem startMsg_overrun (h : Inside s slots) {address : CString} {nargs : Int}
    (hlegal : LegalCall s (.startMsg address nargs))
    (hroom : ¬ HasRoom s slots (.startMsg address nargs)) :
    oscMsgWriterStartMsg address nargs s = none := by
  obtain ⟨hmsg, hnargs, hlt⟩ := hlegal
  have hne : padString address.bytes ≠ [] := by simp [padString]
  rw [oscMsgWriterStartMsg_eq, if_neg hmsg, h.stringBytes_reserved]
  by_cases hreserve : s.reserve ≤ s.remain
  · have hrefused := h.address_refused_iff address hreserve
    have hshort : ¬ s.remain - s.reserve < roundUp address.bytes.length :=
      fun hs => hroom ⟨hreserve, Or.inl hs⟩
    rw [if_neg (fun hr => hshort (hrefused.mp hr))]
    by_cases hpadded : (paddedSize address.bytes.length : Int) ≤ s.remain - s.reserve
    · -- the rounded number of tags wraps to a negative one, and the loop runs on
      have hlarge : ¬ nargs < 2147483645 := fun hn => hroom ⟨hreserve, Or.inr ⟨hpadded, hn⟩⟩
      have hround := round32_of_large (Int.not_lt.mp hlarge) hlt
      obtain ⟨k, hcount, hk⟩ : ∃ k, loopCount (round32 nargs) = k ∧ 2147483648 ≤ k := by
        refine ⟨_, rfl, ?_⟩
        rw [hround]
        decide
      have hzeros : ¬ (paddedSize address.bytes.length : Int) + k ≤ s.remain - s.reserve := by
        have hremain := h.remain_lt
        have hnonneg := (reserve_mod s).2
        omega
      have hnil : List.replicate k (0 : UInt8) ≠ [] := by
        rw [ne_eq, List.replicate_eq_nil_iff]
        omega
      rw [putAll_of_fits _ ((h.address_fits_iff address).mpr hpadded), Option.bind_some,
        address_remain, if_neg (by rw [hround]; omega), hcount,
        putAll_of_not_fits _ hnil fun hf => hzeros ((h.tagArea_fits_iff address hpadded k).mp hf)]
      rfl
    · rw [putAll_of_not_fits _ hne fun hf => hpadded ((h.address_fits_iff address).mp hf)]
      rfl
  · have hpadded : ¬ (paddedSize address.bytes.length : Int) ≤ s.remain - s.reserve := by
      omega
    rw [if_neg (h.address_not_refused address hreserve),
      putAll_of_not_fits _ hne fun hf => hpadded ((h.address_fits_iff address).mp hf)]
    rfl

end Inside

/-! ## Bundles and the ends of messages -/

/-- The state after a bundle was opened: its header, then its timetag. -/
def WriterState.bundleOpened (s : WriterState) (timetag : UInt64) : WriterState :=
  let s₁ := s.filled (padString s.kBundle.bytes)
  let s₂ := filled { s₁ with kBundle := CString.empty } (bigEndian 8 timetag.toNat)
  { s₂ with state := OSC_WRITER_BUNDLE }

/-- The state after a message was closed. -/
def WriterState.closed (s : WriterState) : WriterState :=
  if s.state.bundle then
    { s with
      mem := overwrite s.mem (s.data + (s.msgStart - 4)).toNat
        (native P.order 4 ((s.pos - s.msgStart) % 4294967296).toNat)
      state := { s.state with msg := false } }
  else { s with state := OSC_WRITER_COMPLETE }

namespace Inside

variable {s : WriterState} {slots : Nat}

theorem header_fits_iff (h : Inside s slots)
    (hheader : s.Fits (padString s.kBundle.bytes).length) (n : Nat) :
    Fits { s.filled (padString s.kBundle.bytes) with kBundle := CString.empty } n ↔
      (paddedSize s.kBundle.bytes.length : Int) + n ≤ s.remain := by
  have hdata := h.data
  have hlen := h.len
  have hnonneg := h.nonneg
  simp only [Fits, filled_data, filled_pos, filled_mem, length_padString, remain] at hheader ⊢
  rw [length_overwrite (by simp only [length_padString]; omega)]
  omega

theorem startBundle_outcome (h : Inside s slots) (timetag : UInt64)
    (hlegal : LegalCall s (.startBundle timetag))
    (hroom : HasRoom s slots (.startBundle timetag)) :
    (s.remain < 12 ∧ oscMsgWriterStartBundle P timetag s = some (oscError, s)) ∨
      ((paddedSize s.kBundle.bytes.length : Int) + 8 ≤ s.remain ∧
        oscMsgWriterStartBundle P timetag s = some (oscOk, s.bundleOpened timetag)) := by
  have hout : s.state = OSC_WRITER_OUT := hlegal
  have heq := oscMsgWriterStartBundle_eq P timetag s
  rw [if_neg (not_not_intro hout), stringBytes_of_mod h.aligned] at heq
  by_cases hshort : s.remain < 12
  · rw [if_pos hshort] at heq
    exact Or.inl ⟨hshort, heq⟩
  · have hfit : (paddedSize s.kBundle.bytes.length : Int) + 8 ≤ s.remain := by
      rcases hroom with habs | hfit
      · exact absurd habs hshort
      · exact hfit
    have hheader : s.Fits (padString s.kBundle.bytes).length := by
      rw [length_padString]
      exact (h.fits_iff _).mpr (by omega)
    have htime := (h.header_fits_iff hheader (bigEndian 8 timetag.toNat).length).mpr (by
      rw [length_bigEndian]
      omega)
    rw [if_neg hshort, putAll_of_fits _ hheader, Option.bind_some, putAll_of_fits _ htime]
      at heq
    exact Or.inr ⟨hfit, heq⟩

theorem startBundle_overrun (h : Inside s slots) {timetag : UInt64}
    (hlegal : LegalCall s (.startBundle timetag))
    (hroom : ¬ HasRoom s slots (.startBundle timetag)) :
    oscMsgWriterStartBundle P timetag s = none := by
  have hout : s.state = OSC_WRITER_OUT := hlegal
  have hshort : ¬ s.remain < 12 := fun hs => hroom (Or.inl hs)
  have hfit : ¬ (paddedSize s.kBundle.bytes.length : Int) + 8 ≤ s.remain :=
    fun hf => hroom (Or.inr hf)
  rw [oscMsgWriterStartBundle_eq, if_neg (not_not_intro hout), if_neg hshort,
    stringBytes_of_mod h.aligned]
  by_cases hheader : s.Fits (padString s.kBundle.bytes).length
  · have htime : ¬ Fits { s.filled (padString s.kBundle.bytes) with
        kBundle := CString.empty } (bigEndian 8 timetag.toNat).length := by
      rw [h.header_fits_iff hheader, length_bigEndian]
      exact hfit
    have hne : bigEndian 8 timetag.toNat ≠ [] :=
      List.ne_nil_of_length_pos (by rw [length_bigEndian]; decide)
    rw [putAll_of_fits _ hheader, Option.bind_some, putAll_of_not_fits _ hne htime]
    rfl
  · rw [putAll_of_not_fits _ (by simp [padString]) hheader]
    rfl

theorem endMsg_outcome (h : Inside s slots) (hmsg : s.state.msg) :
    oscMsgWriterEndMsg P s = some (oscOk, s.closed P) := by
  unfold oscMsgWriterEndMsg closed
  rw [if_neg (not_not_intro hmsg)]
  split
  · next hbundle =>
      have hstart := h.start hmsg hbundle
      have hdata := h.data
      have hlen := h.len
      have hle := h.le
      rw [storeBytes_eq, if_pos (Or.inr (by rw [length_native]; omega))]
      rfl
  · rfl

end Inside

/-! ## One step and a whole run -/

theorem WriteArg.size_mod (arg : WriteArg) : arg.size % 4 = 0 := by
  cases arg <;> simp [size, paddedSize_mod, roundUp_mod]

namespace Inside

variable {s : WriterState} {slots : Nat}

theorem filled (h : Inside s slots) (bs : List UInt8) (hfits : (bs.length : Int) ≤ s.remain)
    (hmod : bs.length % 4 = 0) : Inside (s.filled bs) slots := by
  have hdata := h.data
  have hlen := h.len
  have hnonneg := h.nonneg
  have haligned := h.aligned
  have hle := h.le
  simp only [remain] at hfits
  constructor
  · exact hdata
  · rw [filled_mem, length_overwrite (by omega)]
    exact hlen
  · exact h.bound
  · simp only [filled_pos]
    omega
  · simp only [filled_pos, filled_len]
    omega
  · simp only [filled_pos]
    omega
  · intro hmsg hslots
    have htags := h.tags hmsg hslots
    simp only [filled_pos, filled_typePos]
    omega
  · intro hmsg hbundle
    have hstart := h.start hmsg hbundle
    simp only [filled_pos, filled_msgStart]
    omega
  · exact h.bundle

theorem tagged (h : Inside s slots) (t : UInt8) :
    Inside (s.tagged t) (slots - 1) := by
  constructor
  · exact h.data
  · rw [tagged_mem, List.length_set]
    exact h.len
  · exact h.bound
  · exact h.nonneg
  · exact h.le
  · exact h.aligned
  · intro hmsg hslots
    have htags := h.tags hmsg (by omega)
    simp only [tagged_typePos, tagged_pos]
    omega
  · exact h.start
  · exact h.bundle

theorem reserved (h : Inside s slots) (hmsg : ¬ s.state.msg)
    (hreserve : s.reserve ≤ s.remain) : Inside s.reserved slots := by
  have hmod := reserve_mod s
  have hnonneg := h.nonneg
  have haligned := h.aligned
  simp only [remain] at hreserve
  constructor
  · exact h.data
  · exact h.len
  · exact h.bound
  · simp only [WriterState.reserved]
    omega
  · simp only [WriterState.reserved]
    omega
  · simp only [WriterState.reserved]
    omega
  · exact fun habs => absurd habs hmsg
  · exact fun habs => absurd habs hmsg
  · exact h.bundle

theorem opened (h : Inside s slots) {address : CString} {nargs : Int}
    (hmsg : ¬ s.state.msg)
    (hfits : (paddedSize address.bytes.length : Int) + roundUp nargs.toNat ≤
      s.remain - s.reserve) : Inside (s.opened address nargs) nargs.toNat := by
  have hreserved := h.reserved hmsg (by omega)
  have haddress := hreserved.filled (padString address.bytes)
    (by rw [length_padString, reserved_remain]; omega)
    (by rw [length_padString]; exact paddedSize_mod _)
  have hle := le_roundUp nargs.toNat
  have hpos : (s.opened address nargs).pos =
      s.pos + s.reserve + paddedSize address.bytes.length + roundUp nargs.toNat := by
    simp [WriterState.opened, WriterState.reserved]
  have htypePos : (s.opened address nargs).typePos =
      s.pos + s.reserve + paddedSize address.bytes.length := by
    simp [WriterState.opened, WriterState.reserved]
  have hstart : (s.opened address nargs).msgStart = s.pos + s.reserve := rfl
  have hremain : s.remain = s.len - s.pos := rfl
  have hnonneg := h.nonneg
  have hmod := reserve_mod s
  have haligned := h.aligned
  have hmod' := paddedSize_mod address.bytes.length
  have hround := roundUp_mod nargs.toNat
  constructor
  · exact h.data
  · have hlen := haddress.len
    have hdata := haddress.data
    have hbase := haddress.nonneg
    simp only [WriterState.opened, filled_mem, filled_data, filled_pos, filled_len,
      length_padString, WriterState.reserved] at hlen hdata hbase ⊢
    rw [length_overwrite (by simp only [List.length_replicate]; omega)]
    exact hlen
  · exact h.bound
  · omega
  · rw [hpos]
    show _ ≤ s.len
    omega
  · omega
  · intro _ _
    omega
  · intro _ hbundle
    have hbits := h.bundle hbundle
    have hstate : s.state = OSC_WRITER_BUNDLE := by
      cases hs : s.state
      simp_all [OSC_WRITER_BUNDLE, WriterState.opened, WriterState.reserved]
    have hfour : s.reserve = 4 := by
      rw [reserve, if_pos hstate]
    omega
  · exact fun hbundle => h.bundle hbundle

theorem of_slots_le (h : Inside s slots) {slots' : Nat} (hle : slots' ≤ slots) :
    Inside s slots' := by
  refine { h with tags := ?_ }
  intro hmsg hpos
  have htags := h.tags hmsg (by omega)
  omega

/-- A writer that has no message open any more only needs its cursor. -/
theorem of_not_msg (h : Inside s slots) {s' : WriterState} (hdata : s'.data = s.data)
    (hlen : s'.len = s.len) (hpos : s'.pos = s.pos) (hmem : s'.mem.length = s.mem.length)
    (hmsg : ¬ s'.state.msg)
    (hbundle : s'.state.bundle → s'.state.out = false ∧ s'.state.complete = false) :
    Inside s' slots := by
  constructor
  · rw [hdata]
    exact h.data
  · rw [hlen, hmem]
    exact h.len
  · rw [hlen]
    exact h.bound
  · rw [hpos]
    exact h.nonneg
  · rw [hpos, hlen]
    exact h.le
  · rw [hpos]
    exact h.aligned
  · intro habs
    exact absurd habs hmsg
  · intro habs
    exact absurd habs hmsg
  · exact hbundle

theorem bundleOpened (h : Inside s slots) (timetag : UInt64)
    (hfits : (paddedSize s.kBundle.bytes.length : Int) + 8 ≤ s.remain) :
    Inside (s.bundleOpened timetag) slots := by
  have hheader := h.filled (padString s.kBundle.bytes)
    (by rw [length_padString]; omega) (by rw [length_padString]; exact paddedSize_mod _)
  have htime := hheader.filled (bigEndian 8 timetag.toNat)
    (by rw [filled_remain, length_padString, length_bigEndian]; omega)
    (by rw [length_bigEndian])
  exact htime.of_not_msg rfl rfl rfl rfl Bool.false_ne_true fun _ => ⟨rfl, rfl⟩

theorem closed (h : Inside s slots) (hmsg : s.state.msg) : Inside (s.closed P) slots := by
  unfold WriterState.closed
  split
  · next hbundle =>
      have hstart := h.start hmsg hbundle
      have hdata := h.data
      have hlen := h.len
      have hle := h.le
      have hmem : (overwrite s.mem (s.data + (s.msgStart - 4)).toNat (native P.order 4
          ((s.pos - s.msgStart) % 4294967296).toNat)).length = s.mem.length :=
        length_overwrite (by rw [length_native]; omega)
      exact h.of_not_msg rfl rfl rfl hmem Bool.false_ne_true h.bundle
  · exact h.of_not_msg rfl rfl rfl rfl Bool.false_ne_true
      fun habs => absurd habs Bool.false_ne_true

end Inside

theorem oscOk_iff_of_ok {p : Prop} (h : p) : oscOk = oscOk ↔ p :=
  ⟨fun _ => h, fun _ => rfl⟩

theorem oscOk_iff_of_error {p : Prop} (h : ¬ p) : oscError = oscOk ↔ p :=
  ⟨fun habs => absurd habs oscError_ne_oscOk, fun hP => absurd hP h⟩

/-- Where the test of a call judges the room rightly, the call keeps the writer
inside and is accepted exactly when its bytes fit. -/
theorem Inside.step {s : WriterState} {slots : Nat} (h : Inside s slots) {c : WriterCall}
    (hlegal : LegalCall s c) (hroom : HasRoom s slots c) :
    ∃ ret s', writerCall P c s = some (ret, s') ∧ Inside s' (slotsAfter slots ret c) ∧
      (ret = oscOk ↔ emitted s c ≤ s.remain) := by
  cases c with
  | startBundle timetag =>
      rcases h.startBundle_outcome (P := P) timetag hlegal hroom with ⟨hshort, heq⟩ | ⟨hfit, heq⟩
      · have hpadded := four_le_paddedSize s.kBundle.bytes.length
        exact ⟨_, _, heq, h, oscOk_iff_of_error (by simp only [emitted]; omega)⟩
      · exact ⟨_, _, heq, h.bundleOpened timetag hfit, oscOk_iff_of_ok hfit⟩
  | startMsg address nargs =>
      have hle := roundUp_le_paddedSize address.bytes.length
      rcases h.startMsg_outcome hlegal hroom with
        ⟨hshort, heq⟩ | ⟨hpadded, hshort, heq⟩ | ⟨hfit, heq⟩
      · exact ⟨_, _, heq, h.reserved hlegal.1 hroom.1,
          oscOk_iff_of_error (by simp only [emitted]; omega)⟩
      · have hreserved := h.reserved hlegal.1 hroom.1
        have hfilled := hreserved.filled (padString address.bytes)
          (by rw [length_padString, Inside.reserved_remain]; exact hpadded)
          (by rw [length_padString]; exact paddedSize_mod _)
        exact ⟨_, _, heq, hfilled, oscOk_iff_of_error (by simp only [emitted]; omega)⟩
      · exact ⟨_, _, heq, h.opened hlegal.1 hfit,
          oscOk_iff_of_ok (by simp only [emitted]; omega)⟩
  | write arg =>
      rcases h.write_outcome (P := P) hlegal hroom with ⟨hshort, heq⟩ | ⟨hfit, bs, hlen, heq⟩
      · exact ⟨_, _, heq, h.tagged _, oscOk_iff_of_error (by simp only [emitted]; omega)⟩
      · have hfilled := (h.tagged arg.tag).filled bs
          (by rw [tagged_remain, hlen]; exact hfit) (by rw [hlen]; exact arg.size_mod)
        exact ⟨_, _, heq, hfilled, oscOk_iff_of_ok hfit⟩
  | endMsg =>
      exact ⟨_, _, h.endMsg_outcome P hroom, h.closed P hroom, oscOk_iff_of_ok h.remain_nonneg⟩
  | endBundle =>
      have hcomplete : Inside { s with state := OSC_WRITER_COMPLETE } slots :=
        h.of_not_msg rfl rfl rfl rfl Bool.false_ne_true
          fun habs => absurd habs Bool.false_ne_true
      exact ⟨_, _, rfl, hcomplete, oscOk_iff_of_ok h.remain_nonneg⟩

/-- Where it does not, the call leaves the buffer, or there was no message for
`osc_msg_writer_end_msg` to close. -/
theorem Inside.not_callInside {s : WriterState} {slots : Nat} (h : Inside s slots)
    {c : WriterCall} (hlegal : LegalCall s c) (hroom : ¬ HasRoom s slots c) :
    ¬ CallInside P s c := by
  rintro ⟨ret, s', heq, -, -, hret⟩
  cases c with
  | startBundle timetag =>
      have hnone := h.startBundle_overrun (P := P) hlegal hroom
      exact absurd (heq.symm.trans hnone) (by simp)
  | startMsg address nargs =>
      have hnone := h.startMsg_overrun hlegal hroom
      exact absurd (heq.symm.trans hnone) (by simp)
  | write arg =>
      have hnone := h.write_overrun (P := P) hlegal hroom
      exact absurd (heq.symm.trans hnone) (by simp)
  | endMsg =>
      have herror : writerCall P .endMsg s = some (oscError, s) := by
        have hmsg : ¬ s.state.msg := hroom
        rw [writerCall, oscMsgWriterEndMsg, if_pos hmsg]
      have hfst : ret = oscError := congrArg Prod.fst (Option.some.inj (heq.symm.trans herror))
      exact oscError_ne_oscOk (hfst.symm.trans (hret.mpr h.remain_nonneg))
  | endBundle => exact hroom trivial

theorem Inside.callInside_iff {s : WriterState} {slots : Nat} (h : Inside s slots)
    {c : WriterCall} (hlegal : LegalCall s c) :
    CallInside P s c ↔ HasRoom s slots c := by
  constructor
  · intro hinside
    by_contra hroom
    exact h.not_callInside P hlegal hroom hinside
  · intro hroom
    obtain ⟨ret, s', heq, hs', hret⟩ := h.step P hlegal hroom
    exact ⟨ret, s', heq, hs'.nonneg, hs'.le, hret⟩

theorem inside_freshWriter {w : OscWriter} {buffer : Memory} {kBundle : CString}
    {s : WriterState} (hlen : buffer.length < 2147483648)
    (h : freshWriter w buffer kBundle = some s) : Inside s 0 := by
  obtain ⟨⟨ret, w'⟩, hinit, hs⟩ := Option.bind_eq_some_iff.mp h
  cases hs
  simp only [oscMsgWriterInit] at hinit
  split at hinit
  · cases hinit
    constructor
    · rfl
    · rfl
    · simp only
      omega
    · exact Int.le_refl 0
    · exact Int.natCast_nonneg _
    · rfl
    · intro habs
      exact absurd habs Bool.false_ne_true
    · intro habs
      exact absurd habs Bool.false_ne_true
    · intro habs
      exact absurd habs Bool.false_ne_true
  · cases hinit

/-- The step relation of a run with its count of free tags, from one call. -/
theorem trackedStep_eq_some {t t' : WriterState × Nat} {c : WriterCall}
    (h : trackedStep P t c = some t') :
    ∃ ret, writerCall P c t.1 = some (ret, t'.1) ∧ t'.2 = slotsAfter t.2 ret c := by
  obtain ⟨⟨ret, s'⟩, heq, ht'⟩ := Option.map_eq_some_iff.mp h
  cases ht'
  exact ⟨ret, heq, rfl⟩

/-- A run of legal calls over a buffer keeps to the buffer, at every call, exactly
when at every call the test of the function judges the remaining room rightly. -/
theorem along_callInside_iff (w : OscWriter) (buffer : Memory) (kBundle : CString)
    (s₀ : WriterState) (cs : List WriterCall) (hlen : buffer.length < 2147483648)
    (hinit : freshWriter w buffer kBundle = some s₀)
    (hlegal : Along (trackedStep P) (fun t c => LegalCall t.1 c) (s₀, 0) cs) :
    Along (trackedStep P) (fun t c => CallInside P t.1 c) (s₀, 0) cs ↔
      Along (trackedStep P) (fun t c => HasRoom t.1 t.2 c) (s₀, 0) cs := by
  refine along_iff_of_invariant (fun t => Inside t.1 t.2) ?_ ?_
    (inside_freshWriter hlen hinit) hlegal
  · intro t c ht hc
    exact ht.callInside_iff P hc
  · intro t c t' ht hc hroom hstep
    obtain ⟨ret, heq, hslots⟩ := trackedStep_eq_some P hstep
    obtain ⟨ret', s', heq', hs', -⟩ := ht.step P hc hroom
    have hpair := Prod.mk.inj (Option.some.inj (heq.symm.trans heq'))
    rw [hslots, hpair.1, hpair.2]
    exact hs'

/-- A message without arguments in a buffer of eight bytes. -/
theorem along_callInside_short :
    ∃ s₀, freshWriter zeroWriter (List.replicate 8 0) bundleLiteral = some s₀ ∧
      Along (trackedStep littleHost) (fun t c => CallInside littleHost t.1 c) (s₀, 0)
        [.startMsg slashA 0, .endMsg] := by
  refine ⟨_, rfl, ?_⟩
  refine (along_callInside_iff littleHost zeroWriter (List.replicate 8 0) bundleLiteral _ _
    (by decide) rfl ?_).mpr ?_
  · rw [along_cons_of_eq_some rfl, along_cons_of_eq_some rfl]
    exact ⟨⟨Bool.false_ne_true, by decide, by decide⟩, trivial, along_nil _⟩
  · rw [along_cons_of_eq_some rfl, along_cons_of_eq_some rfl]
    exact ⟨⟨by decide, Or.inr ⟨by decide, by decide⟩⟩, rfl, along_nil _⟩

/-- The address `/abc`. -/
def slashAbc : CString where
  bytes := ['/'.toUInt8, 'a'.toUInt8, 'b'.toUInt8, 'c'.toUInt8]
  noNul := by decide
  length_lt := by decide

/-- Four bytes of room are enough for the test of an address of four characters, but
not for the terminator that is stored after them. -/
theorem startMsg_terminator_not_callInside :
    ∃ s₀, freshWriter zeroWriter (List.replicate 4 0) bundleLiteral = some s₀ ∧
      Along (trackedStep littleHost) (fun t c => LegalCall t.1 c) (s₀, 0)
        [.startMsg slashAbc 0] ∧
      ¬ Along (trackedStep littleHost) (fun t c => CallInside littleHost t.1 c) (s₀, 0)
        [.startMsg slashAbc 0] := by
  refine ⟨_, rfl, ⟨⟨Bool.false_ne_true, by decide, by decide⟩, ?_⟩, ?_⟩
  · intro t _
    exact along_nil t
  · rintro ⟨⟨ret, s', heq, -⟩, -⟩
    have hnone : writerCall littleHost (.startMsg slashAbc 0)
        ⟨⟨0, 4, 0, 0, 0, OSC_WRITER_OUT⟩, List.replicate 4 0, bundleLiteral⟩ = none := rfl
    exact absurd (heq.symm.trans hnone) (by simp)

end LittleOscar
