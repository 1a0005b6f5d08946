import LittleOscar.Osc.Writer.Capacity

/-!
# The counts of the writer

`osc_msg_writer_start_msg` and `osc_msg_write_blob` count an `int` down to zero that was
rounded and compared, but not tested for its sign. A negative count that passes the
comparison runs through the whole range of `int`, unless it is rounded to zero, and one near
the greatest `int` is rounded to the least. `counts_iff` says which counts are treated as
they should be.
-/

namespace LittleOscar

open Machine WriterState

/-- The buffer lies in its object. The cursor may have left it already. -/
structure OverBuffer (s : WriterState) : Prop where
  data : 0 ≤ s.data
  nonneg : 0 ≤ s.pos
  inside : s.data + s.len ≤ s.mem.length
  bound : s.len < 2147483648

/-- The address with its terminator and padding, where it is written. -/
def addressSize (address : CString) (s : WriterState) : ℕ :=
  (stringBytes s.reserved.pos address).length

/-- The call returns, stores nothing behind the buffer, and gives an error for a negative
count and for one that has no room behind the address. -/
def StartMsgEnds (address : CString) (nargs : Int) (s : WriterState) : Prop :=
  ∃ ret s', oscMsgWriterStartMsg address nargs s = some (ret, s') ∧
    s'.pos ≤ max s.pos s.len ∧
    (nargs < 0 ∨ s.reserved.remain - addressSize address s < roundUp nargs.toNat →
      ret = oscError)

/-- A message is open; or there is room for the length field, and the address is refused, or
it has room and the count is one that `ROUND32` keeps. -/
def StartMsgCounts (address : CString) (nargs : Int) (s : WriterState) : Prop :=
  s.state.msg ∨ (0 ≤ s.reserved.remain ∧
    (s.reserved.remain < roundUp address.bytes.length ∨
      ((addressSize address s : Int) ≤ s.reserved.remain ∧ 0 ≤ nargs ∧ nargs < 2147483645)))

/-- The call returns, stores nothing behind the buffer, and gives an error for a negative
size and for one that has no room. -/
def BlobEnds (P : Platform) (val : Memory) (sz : Int) (s : WriterState) : Prop :=
  ∃ ret s', oscMsgWriteBlob P val sz s = some (ret, s') ∧ s'.pos ≤ max s.pos s.len ∧
    (sz < 0 ∨ s.remain < 4 + roundUp sz.toNat → ret = oscError)

/-- The zeros behind a blob. -/
def blobPadding (sz : Int) (s : WriterState) : ℕ := (padZeros (s.pos + 4 + sz)).length

/-- The tag cursor points into the object, and the size is one for which the test does not
wrap, and which is refused or has room; or it is none, but what it is rounded to is refused. -/
def BlobCounts (sz : Int) (s : WriterState) : Prop :=
  (0 ≤ s.data + s.typePos ∧ s.data + s.typePos < s.mem.length) ∧
    ((0 ≤ sz ∧ sz < 2147483641 ∧
        (s.remain < 4 + roundUp sz.toNat ∨ 4 + sz + blobPadding sz s ≤ s.remain)) ∨
      (sz < 0 ∧ s.remain < 4 + (sz + 3) / 4 * 4) ∨
      (2147483645 ≤ sz ∧ s.remain < -2147483644))

variable {s s' : WriterState} {address : CString} {nargs sz ret : Int}

/-! ## Opening a message -/

theorem OverBuffer.reserved_pos (h : OverBuffer s) :
    0 ≤ s.reserved.pos ∧ s.pos ≤ s.reserved.pos ∧
      s.reserved.remain = s.len - s.reserved.pos := by
  have hnonneg := h.nonneg
  have hreserve := (Inside.reserve_mod s).2
  refine ⟨?_, ?_, rfl⟩
  · simp only [reserved]
    omega
  · simp only [reserved]
    omega

theorem OverBuffer.address_refused_iff (h : OverBuffer s)
    (hint : -2147483648 ≤ s.reserved.remain) (address : CString) :
    sizeT s.reserved.remain < round32Size address.bytes.length ↔
      0 ≤ s.reserved.remain ∧ s.reserved.remain < roundUp address.bytes.length := by
  obtain ⟨hnonneg, -, hremain⟩ := h.reserved_pos
  have hbound := h.bound
  exact sizeT_lt_round32Size_iff (by omega) (by omega) address.length_lt

/-- Where the address is not refused, it is stored. -/
theorem le_pos_of_startMsg (hmsg : ¬ s.state.msg)
    (hroom : ¬ sizeT s.reserved.remain < round32Size address.bytes.length)
    (h : oscMsgWriterStartMsg address nargs s = some (ret, s')) :
    s.reserved.pos + addressSize address s ≤ s'.pos := by
  rcases cases_of_startMsg h with
    ⟨-, habs, -⟩ | ⟨-, -, habs, -⟩ | ⟨-, -, -, haddress⟩ | ⟨rfl, -⟩
  · exact absurd habs hmsg
  · exact absurd habs hroom
  · rw [putAll_eq_some haddress, filled_pos]
    rfl
  · have hopened := opened_of_startMsg h
    rw [hopened.pos, hopened.typePos]
    exact Int.le_add_of_nonneg_right (Int.natCast_nonneg _)

/-- What follows the address where it has room. -/
theorem OverBuffer.startMsg_eq (h : OverBuffer s) (nargs : Int) (hmsg : ¬ s.state.msg)
    (hroom : ¬ sizeT s.reserved.remain < round32Size address.bytes.length)
    (hfits : (addressSize address s : Int) ≤ s.reserved.remain) :
    ∃ s₂, s₂.pos = s.reserved.pos + addressSize address s ∧ s₂.data = s.data ∧
      s₂.len = s.len ∧ s₂.mem.length = s.mem.length ∧
      oscMsgWriterStartMsg address nargs s =
        if s₂.remain < round32 nargs then some (oscError, s₂)
        else (putAll { s₂ with typePos := s₂.pos }
            (List.replicate (loopCount (round32 nargs)) 0)).map
          fun s₃ => (oscOk, { s₃ with state := { s₃.state with msg := true } }) := by
  obtain ⟨hnonneg, -, hremain⟩ := h.reserved_pos
  obtain ⟨hdata, -, hinside, -⟩ := h
  have hreserved : s.reserved.Fits (stringBytes s.reserved.pos address).length := by
    have hdata' : s.reserved.data = s.data := rfl
    have hmem : s.reserved.mem = s.mem := rfl
    rw [addressSize] at hfits
    simp only [Fits, hdata', hmem]
    omega
  have hput := putAll_of_fits s.reserved hreserved
  have hlength := length_of_putAll hput
  refine ⟨s.reserved.filled (stringBytes s.reserved.pos address), rfl, rfl, rfl, hlength, ?_⟩
  rw [oscMsgWriterStartMsg_eq, if_neg hmsg, if_neg hroom, hput, Option.bind_some]

/-- The counting loop runs through a range that no buffer has, or not at all. -/
theorem round32_of_not_counted (hlo : -2147483648 ≤ nargs) (hhi : nargs < 2147483648)
    (h : ¬ (0 ≤ nargs ∧ nargs < 2147483645)) :
    round32 nargs ≤ 0 ∧ (nargs < 0 ∨ 2147483648 ≤ loopCount (round32 nargs)) := by
  unfold loopCount round32 wrap32
  omega

/-- Behind an address that has room, the count decides. -/
theorem OverBuffer.startMsgEnds_iff_of_fits (h : OverBuffer s) (hmsg : ¬ s.state.msg)
    (hroom : ¬ sizeT s.reserved.remain < round32Size address.bytes.length)
    (hfits : (addressSize address s : Int) ≤ s.reserved.remain)
    (hlo : -2147483648 ≤ nargs) (hhi : nargs < 2147483648) :
    StartMsgEnds address nargs s ↔ 0 ≤ nargs ∧ nargs < 2147483645 := by
  obtain ⟨hnonneg, hreserved, hremain⟩ := h.reserved_pos
  obtain ⟨s₂, hpos₂, hdata₂, hlen₂, hmem₂, hcall⟩ := h.startMsg_eq nargs hmsg hroom hfits
  obtain ⟨hdata, -, hinside, hbound⟩ := h
  have hremain₂ : s₂.remain = s₂.len - s₂.pos := rfl
  constructor
  · rintro ⟨ret, s', heq, hpos, herror⟩
    by_contra hcount
    obtain ⟨hround, hor⟩ := round32_of_not_counted hlo hhi hcount
    rw [hcall, if_neg (by omega)] at heq
    obtain ⟨s₃, hzeros, hs'⟩ := Option.map_eq_some_iff.mp heq
    obtain ⟨rfl, rfl⟩ := Prod.mk.inj hs'
    rcases hor with hneg | hmany
    · exact oscError_ne_oscOk (herror (Or.inl hneg)).symm
    · rw [putAll_eq_some hzeros] at hpos
      simp only [filled_pos, List.length_replicate] at hpos
      omega
  · rintro ⟨hcount, hsmall⟩
    have hround := round32_eq_roundUp hcount hsmall
    have hloop := loopCount_round32 hcount hsmall
    rw [hloop, hround] at hcall
    by_cases hshort : s₂.remain < roundUp nargs.toNat
    · exact ⟨oscError, s₂, by rw [hcall, if_pos hshort], by omega, fun _ => rfl⟩
    · have hzeros : Fits { s₂ with typePos := s₂.pos }
          (List.replicate (roundUp nargs.toNat) (0 : UInt8)).length := by
        simp only [Fits, List.length_replicate]
        omega
      rw [if_neg hshort, putAll_of_fits _ hzeros] at hcall
      refine ⟨_, _, hcall, ?_, fun habs => by omega⟩
      simp only [filled_pos, List.length_replicate]
      omega

/-- Which counts `osc_msg_writer_start_msg` treats as it should. -/
theorem OverBuffer.startMsgEnds_iff (h : OverBuffer s)
    (hint : -2147483648 ≤ s.reserved.remain) (address : CString)
    (hlo : -2147483648 ≤ nargs) (hhi : nargs < 2147483648) :
    StartMsgEnds address nargs s ↔ StartMsgCounts address nargs s := by
  have hrefused := h.address_refused_iff hint address
  obtain ⟨hnonneg, hreserved, hremain⟩ := h.reserved_pos
  unfold StartMsgCounts
  by_cases hmsg : s.state.msg
  · refine iff_of_true ⟨oscError, s, ?_, le_max_left _ _, fun _ => rfl⟩ (Or.inl hmsg)
    rw [oscMsgWriterStartMsg_eq, if_pos hmsg]
  rw [or_iff_right hmsg]
  by_cases hroom : sizeT s.reserved.remain < round32Size address.bytes.length
  · obtain ⟨hreserve, hshort⟩ := hrefused.mp hroom
    refine iff_of_true ⟨oscError, s.reserved, ?_, by omega, fun _ => rfl⟩
      ⟨hreserve, Or.inl hshort⟩
    rw [oscMsgWriterStartMsg_eq, if_neg hmsg, if_pos hroom]
  have hcounts : (0 ≤ s.reserved.remain ∧ (s.reserved.remain < roundUp address.bytes.length ∨
      (addressSize address s ≤ s.reserved.remain ∧ 0 ≤ nargs ∧ nargs < 2147483645))) ↔
      addressSize address s ≤ s.reserved.remain ∧ 0 ≤ nargs ∧ nargs < 2147483645 := by
    rw [hrefused] at hroom
    omega
  rw [hcounts]
  by_cases hfits : (addressSize address s : Int) ≤ s.reserved.remain
  · rw [h.startMsgEnds_iff_of_fits hmsg hroom hfits hlo hhi, and_iff_right hfits]
  · -- the address is stored all the same
    refine iff_of_false ?_ fun habs => hfits habs.1
    rintro ⟨ret, s', hcall, hpos, -⟩
    have hstored := le_pos_of_startMsg hmsg hroom hcall
    have haddress : 0 < addressSize address s :=
      List.length_pos_of_ne_nil (stringBytes_ne_nil s.reserved.pos address)
    omega

/-! ## Writing a blob -/

variable {P : Platform} {val : Memory}

/-- What the test refuses: a size that it rounds as it should and that has no room, or one
that is negative or wraps, which takes a room that is next to none. -/
theorem lt_wrap32_iff {room : Int} (hroom : -2147483648 ≤ room) (hlo : -2147483648 ≤ sz)
    (hhi : sz < 2147483648) :
    room < wrap32 (4 + round32 sz) ↔
      (0 ≤ sz ∧ sz < 2147483641 ∧ room < 4 + roundUp sz.toNat) ∨
        (sz < 0 ∧ room < 4 + (sz + 3) / 4 * 4) ∨
        (2147483645 ≤ sz ∧ room < -2147483644) := by
  unfold wrap32 round32 roundUp wrap32
  omega

/-- The bytes of a blob with its length and padding. -/
theorem stored_blob (P : Platform) (s : WriterState) (hsz : 0 ≤ sz) (hhi : sz < 2147483648)
    (hval : sz ≤ val.length) : ∃ bs, (WriteArg.blob val sz).stored P s.pos = some bs ∧
      (bs.length : Int) = 4 + sz + blobPadding sz s := by
  have hcount := loopCount_of_nonneg hsz hhi
  have hload := loadBytes_eq_take (m := val) (p := 0) (n := sz.toNat) (by omega) (by omega)
  have hlength : ((val.drop (0 : Int).toNat).take sz.toNat).length = sz.toNat := by
    rw [List.length_take, List.length_drop]
    omega
  refine ⟨_, by rw [WriteArg.stored, hcount, hload, Option.map_some], ?_⟩
  rw [List.length_append, List.length_append, length_bigEndian, hlength, blobPadding,
    Int.toNat_of_nonneg hsz]
  omega

/-- What the test lets through has to have room. -/
theorem OverBuffer.blobEnds_iff_of_accepted (h : OverBuffer s)
    (htag : 0 ≤ s.data + s.typePos ∧ s.data + s.typePos < s.mem.length)
    (hroom : ¬ s.remain < wrap32 (4 + round32 sz)) (hhi : sz < 2147483648)
    (hval : sz ≤ val.length) :
    BlobEnds P val sz s ↔ 0 ≤ sz ∧ ¬ s.remain < 4 + roundUp sz.toNat ∧
      4 + sz + blobPadding sz s ≤ s.remain := by
  obtain ⟨hdata, hnonneg, hinside, hbound⟩ := h
  have hremain : s.remain = s.len - s.pos := rfl
  have hcall := oscMsgWriteBlob_eq P val sz s
  rw [addType_of_range s htag.1 htag.2, Option.bind_some, tagged_remain, tagged_pos,
    if_neg hroom] at hcall
  constructor
  · rintro ⟨ret, s', heq, hpos, herror⟩
    rw [hcall] at heq
    obtain ⟨s₃, hput, hs₃⟩ := Option.map_eq_some_iff.mp heq
    obtain ⟨rfl, rfl⟩ := Prod.mk.inj hs₃
    have hcounted : 0 ≤ sz ∧ ¬ s.remain < 4 + roundUp sz.toNat := by
      by_contra hbad
      exact oscError_ne_oscOk (herror (by omega)).symm
    obtain ⟨bs, hstored, hlen⟩ := stored_blob P s hcounted.1 hhi hval
    rw [hstored, Option.bind_some] at hput
    rw [putAll_eq_some hput, filled_pos, tagged_pos] at hpos
    exact ⟨hcounted.1, hcounted.2, by omega⟩
  · rintro ⟨hsz, hshort, hfits⟩
    obtain ⟨bs, hstored, hlen⟩ := stored_blob P s hsz hhi hval
    have hput : (s.tagged 'b'.toUInt8).Fits bs.length := by
      simp only [Fits, tagged_data, tagged_pos, tagged_mem, List.length_set]
      omega
    rw [hstored, Option.bind_some, putAll_of_fits _ hput] at hcall
    refine ⟨_, _, hcall, ?_, fun habs => by omega⟩
    rw [filled_pos, tagged_pos]
    omega

/-- Which sizes `osc_msg_write_blob` treats as it should. -/
theorem OverBuffer.blobEnds_iff (h : OverBuffer s) (hint : -2147483648 ≤ s.remain)
    (hlo : -2147483648 ≤ sz) (hhi : sz < 2147483648) (hval : sz ≤ val.length) :
    BlobEnds P val sz s ↔ BlobCounts sz s := by
  have hcall := oscMsgWriteBlob_eq P val sz s
  have hrefused := lt_wrap32_iff hint hlo hhi
  have hremain : s.remain = s.len - s.pos := rfl
  have hnonneg := h.nonneg
  have hbound := h.bound
  have hround := le_roundUp sz.toNat
  have hmod := roundUp_mod sz.toNat
  unfold BlobCounts
  by_cases htag : 0 ≤ s.data + s.typePos ∧ s.data + s.typePos < s.mem.length
  swap
  · have hnone : s.addType 'b'.toUInt8 = none := by
      rw [addType, storeByte, if_neg htag]
      rfl
    rw [hnone, Option.bind_none] at hcall
    refine iff_of_false ?_ fun habs => htag habs.1
    rintro ⟨ret, s', heq, -⟩
    cases hcall.symm.trans heq
  rw [and_iff_right htag]
  by_cases hroom : s.remain < wrap32 (4 + round32 sz)
  · rw [addType_of_range s htag.1 htag.2, Option.bind_some, tagged_remain,
      if_pos hroom] at hcall
    refine iff_of_true ⟨oscError, _, hcall, le_max_left _ _, fun _ => rfl⟩ ?_
    rcases hrefused.mp hroom with ⟨hsz, hsmall, hshort⟩ | hnone
    · exact Or.inl ⟨hsz, hsmall, Or.inl hshort⟩
    · exact Or.inr hnone
  · rw [h.blobEnds_iff_of_accepted htag hroom hhi hval]
    rw [hrefused] at hroom
    omega

/-- The counts that both functions treat as they should, in every state of a writer. -/
theorem counts_iff (P : Platform) (s : WriterState) (address : CString) (nargs : Int)
    (val : Memory) (sz : Int) (h : OverBuffer s) (hint : -2147483648 ≤ s.reserved.remain)
    (hlo : -2147483648 ≤ nargs) (hhi : nargs < 2147483648) (hlo' : -2147483648 ≤ sz)
    (hhi' : sz < 2147483648) (hval : sz ≤ val.length) :
    (StartMsgEnds address nargs s ↔ StartMsgCounts address nargs s) ∧
      (BlobEnds P val sz s ↔ BlobCounts sz s) := by
  obtain ⟨-, hreserved, hremain⟩ := h.reserved_pos
  have hint' : -2147483648 ≤ s.remain := by
    unfold remain
    omega
  exact ⟨h.startMsgEnds_iff hint address hlo hhi, h.blobEnds_iff hint' hlo' hhi' hval⟩

/-- A fresh writer over 64 bytes. -/
def wideWriter : WriterState where
  toOscWriter := ⟨0, 64, 0, 0, 0, OSC_WRITER_OUT⟩
  mem := List.replicate 64 0
  kBundle := bundleLiteral

theorem overBuffer_wideWriter : OverBuffer wideWriter :=
  ⟨by decide, by decide, by decide, by decide⟩

theorem counts_iff_wideWriter :
    (StartMsgEnds slashA 3 wideWriter ↔ StartMsgCounts slashA 3 wideWriter) ∧
      (BlobEnds littleHost [1, 2] 2 wideWriter ↔ BlobCounts 2 wideWriter) :=
  counts_iff littleHost wideWriter slashA 3 [1, 2] 2 overBuffer_wideWriter (by decide)
    (by decide) (by decide) (by decide) (by decide) (by decide)

/-- A count of -1 is rounded to zero and accepted, and a size of -1 runs through the range of
an `int`. -/
theorem minusOne_not_counts :
    ¬ StartMsgEnds slashA (-1) wideWriter ∧ ¬ BlobEnds littleHost [1, 2] (-1) wideWriter := by
  rw [overBuffer_wideWriter.startMsgEnds_iff (by decide) slashA (by decide) (by decide),
    overBuffer_wideWriter.blobEnds_iff (by decide) (by decide) (by decide) (by decide)]
  constructor
  · rintro (habs | ⟨-, habs | ⟨-, habs, -⟩⟩)
    · cases habs
    · exact absurd habs (by decide)
    · exact absurd habs (by decide)
  · rintro ⟨-, ⟨habs, -⟩ | ⟨-, habs⟩ | ⟨habs, -⟩⟩
    · exact absurd habs (by decide)
    · exact absurd habs (by decide)
    · exact absurd habs (by decide)

end LittleOscar
