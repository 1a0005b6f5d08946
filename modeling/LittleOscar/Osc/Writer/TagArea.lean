import LittleOscar.Osc.Writer.Counts
import LittleOscar.Transition.Run

/-!
# The tag area

`osc_msg_writer_start_msg` puts `nargs` zeros behind the address, rounded up to a multiple of
four, and `osc_msg_write_*` puts a tag in place of each. The tag cursor has no limit of its
own: the last of these zeros is the terminator of the tags, and what follows it is the
payload of the arguments. A message is undamaged exactly as long as it has fewer arguments
than the area has bytes (`along_keepsWritten_iff`), so one whose `nargs` is a multiple of four
has room for one argument less than was asked for.
-/

namespace LittleOscar

open Machine Transition WriterState

variable (P : Platform)

/-- A call of an `osc_msg_write_*`, as a step. -/
def writeStep (s : WriterState) (arg : WriteArg) : Option WriterState :=
  (oscMsgWrite P arg s).map Prod.snd

/-- What a call owes to what is already written, where the tag area is what lies from `first`
up to `last`. In front of the cursor it changes at most one byte, which is in the area and was
not used; a NUL is left in the area; and without a free byte the call is refused. -/
def KeepsWritten (first last : Int) (s : WriterState) (arg : WriteArg) : Prop :=
  ∃ ret s', oscMsgWrite P arg s = some (ret, s') ∧
    (∃ t, ∀ j : ℕ, (j : Int) < s.data + s.pos → s'.mem[j]? ≠ s.mem[j]? →
      (j : Int) = s.data + t ∧ first ≤ t ∧ t < last ∧ s.mem[j]? = some 0) ∧
    (first < last → ∃ z, first ≤ z ∧ z < last ∧ loadByte s'.mem (s.data + z) = some 0) ∧
    (last ≤ s.typePos → ret = oscError)

/-- The cursor is aligned besides. -/
structure Placed (s : WriterState) : Prop extends OverBuffer s where
  aligned : s.pos % 4 = 0

/-- The tags that were written are at the beginning of the area, and zeros behind them. -/
structure InTagArea (first last : Int) (s : WriterState) : Prop extends Placed s where
  first_nonneg : 0 ≤ first
  first_le : first ≤ s.typePos
  le_last : s.typePos ≤ last
  last_le : last ≤ s.pos
  used : ∀ t, first ≤ t → t < s.typePos → ∃ b, loadByte s.mem (s.data + t) = some b ∧ b ≠ 0
  unused : ∀ t, s.typePos ≤ t → t < last → loadByte s.mem (s.data + t) = some 0

variable {P} {first last : Int} {s s' : WriterState} {arg : WriteArg}

theorem WriteArg.tag_ne_zero (arg : WriteArg) : arg.tag ≠ 0 := by
  cases arg <;> (rw [WriteArg.tag]; decide)

/-! ## One call -/

/-- An accepted call leaves what is in front of the cursor, but for the byte of its tag. -/
theorem getElem?_filled_tagged (hnonneg : 0 ≤ s.data + s.pos)
    (hle : s.data + s.pos ≤ s.mem.length) (t : UInt8) (bs : List UInt8) {j : ℕ}
    (hj : (j : Int) < s.data + s.pos) :
    ((s.tagged t).filled bs).mem[j]? =
      if (s.data + s.typePos).toNat = j then some t else s.mem[j]? := by
  rw [filled_mem, tagged_data, tagged_pos, tagged_mem,
    getElem?_overwrite_of_lt (by rw [List.length_set]; omega) (by omega), List.getElem?_set]
  split
  · rw [if_pos (by omega)]
  · rfl

theorem loadByte_filled_tagged (hle : s.data + s.pos ≤ s.mem.length) (t : UInt8)
    (bs : List UInt8) {z : Int} (hz : 0 ≤ s.data + z) (hpos : z < s.pos)
    (htype : 0 ≤ s.data + s.typePos) :
    loadByte ((s.tagged t).filled bs).mem (s.data + z) =
      if z = s.typePos then some t else loadByte s.mem (s.data + z) := by
  obtain ⟨j, hj⟩ := Int.eq_ofNat_of_zero_le hz
  rw [hj, loadByte_natCast, loadByte_natCast,
    getElem?_filled_tagged (by omega) hle t bs (by omega)]
  by_cases heq : z = s.typePos
  · rw [if_pos (by omega), if_pos heq]
  · rw [if_neg (by omega), if_neg heq]

theorem not_refused_of_fit (hbound : s.len < 2147483648) (hnonneg : 0 ≤ s.pos)
    (harg : arg.Valid) (hfit : (arg.size : Int) ≤ s.remain) : ¬ arg.Refused s.remain := by
  have hlt : s.remain < 2147483648 := by
    unfold remain
    omega
  have hroom := Inside.hasRoom_of_fit harg hlt hfit
  rw [hroom.refused_iff (by omega) hlt harg]
  omega

/-- An argument that fits is stored, and its tag, if the tag cursor is in the object. -/
theorem oscMsgWrite_of_fit (h : Placed s) (harg : arg.Valid)
    (hfit : (arg.size : Int) ≤ s.remain) (htype : 0 ≤ s.data + s.typePos)
    (hlt : s.data + s.typePos < s.mem.length) :
    ∃ bs, bs.length = arg.size ∧
      oscMsgWrite P arg s = some (oscOk, (s.tagged arg.tag).filled bs) := by
  obtain ⟨⟨hdata, hnonneg, hinside, hbound⟩, haligned⟩ := h
  obtain ⟨bs, hbs, hlen⟩ := exists_stored P harg haligned
  have hremain : s.remain = s.len - s.pos := rfl
  have hfits : (s.tagged arg.tag).Fits bs.length := by
    simp only [Fits, tagged_data, tagged_pos, tagged_mem, List.length_set]
    omega
  refine ⟨bs, hlen, ?_⟩
  rw [oscMsgWrite_eq, addType_of_range s htype hlt, Option.bind_some, tagged_remain,
    if_neg (not_refused_of_fit hbound hnonneg harg hfit), tagged_pos, hbs, Option.bind_some,
    putAll_of_fits _ hfits]
  rfl

/-- What an argument that fits leaves. -/
theorem Placed.filled_tagged (h : Placed s) {bs : List UInt8} (hlen : bs.length = arg.size)
    (hfit : (arg.size : Int) ≤ s.remain) : Placed ((s.tagged arg.tag).filled bs) := by
  obtain ⟨⟨hdata, hnonneg, hinside, hbound⟩, haligned⟩ := h
  have hmod := arg.size_mod
  have hremain : s.remain = s.len - s.pos := rfl
  refine ⟨⟨hdata, ?_, ?_, hbound⟩, ?_⟩
  · simp only [filled_pos, tagged_pos]
    omega
  · rw [filled_mem, tagged_mem,
      length_overwrite (by rw [List.length_set, tagged_data, tagged_pos]; omega),
      List.length_set]
    exact hinside
  · simp only [filled_pos, tagged_pos]
    omega

namespace InTagArea

theorem bounds (h : InTagArea first last s) (hfit : (arg.size : Int) ≤ s.remain) :
    s.data + s.pos ≤ s.mem.length ∧ 0 ≤ s.data + s.typePos ∧ s.pos ≤ s.len := by
  have hdata := h.data
  have hfirst := h.first_nonneg
  have hle := h.first_le
  have hinside := h.inside
  have hremain : s.remain = s.len - s.pos := rfl
  omega

/-- A call with a free byte besides the terminator. -/
theorem outcome (h : InTagArea first last s) (harg : arg.Valid)
    (hfit : (arg.size : Int) ≤ s.remain) (hlt : s.typePos + 1 < last) :
    ∃ bs, bs.length = arg.size ∧
      oscMsgWrite P arg s = some (oscOk, (s.tagged arg.tag).filled bs) := by
  obtain ⟨hpos, htype, -⟩ := h.bounds hfit
  have hlast := h.last_le
  exact oscMsgWrite_of_fit h.toPlaced harg hfit htype (by omega)

/-- It leaves the area with one tag more. -/
theorem next (h : InTagArea first last s) {bs : List UInt8} (hlen : bs.length = arg.size)
    (hfit : (arg.size : Int) ≤ s.remain) (hlt : s.typePos + 1 < last) :
    InTagArea first last ((s.tagged arg.tag).filled bs) := by
  obtain ⟨hpos, htype, hle⟩ := h.bounds hfit
  have hdata := h.data
  have hfirst := h.first_nonneg
  have hcursor := h.first_le
  have hlast := h.last_le
  have hbyte {z : Int} (hz : 0 ≤ s.data + z) (hz' : z < s.pos) :=
    loadByte_filled_tagged hpos arg.tag bs hz hz' htype
  refine {
    toPlaced := h.toPlaced.filled_tagged hlen hfit
    first_nonneg := hfirst
    first_le := ?_
    le_last := ?_
    last_le := ?_
    used := ?_
    unused := ?_ }
  · simp only [filled_typePos, tagged_typePos]
    omega
  · simp only [filled_typePos, tagged_typePos]
    omega
  · simp only [filled_pos, tagged_pos]
    omega
  · intro t ht ht'
    simp only [filled_typePos, tagged_typePos] at ht'
    rw [filled_data, tagged_data, hbyte (by omega) (by omega)]
    by_cases heq : t = s.typePos
    · exact ⟨arg.tag, if_pos heq, arg.tag_ne_zero⟩
    · rw [if_neg heq]
      exact h.used t ht (by omega)
  · intro t ht ht'
    simp only [filled_typePos, tagged_typePos] at ht
    rw [filled_data, tagged_data, hbyte (by omega) (by omega), if_neg (by omega)]
    exact h.unused t (by omega) ht'

/-- A call does no damage exactly if a byte is free besides the terminator. -/
theorem keepsWritten_iff (h : InTagArea first last s) (harg : arg.Valid)
    (hfit : (arg.size : Int) ≤ s.remain) :
    KeepsWritten P first last s arg ↔ s.typePos + 1 < last := by
  obtain ⟨hpos, htype, hle⟩ := h.bounds hfit
  have hdata := h.data
  have hfirst := h.first_nonneg
  have hcursor := h.first_le
  have hlast := h.last_le
  constructor
  · rintro ⟨ret, s', hcall, -, hnul, hrefuses⟩
    by_contra hfull
    have hrefused := not_refused_of_fit h.bound h.nonneg harg hfit
    rcases cases_of_write hcall with ⟨-, habs, -⟩ | ⟨rfl, -, bs, -, hput⟩
    · exact hrefused habs
    · obtain rfl := putAll_eq_some hput
      have hin : s.typePos < last := by
        by_contra habs
        exact oscError_ne_oscOk (hrefuses (not_lt.mp habs)).symm
      -- the tag of the last byte is no NUL, and neither are those before it
      obtain ⟨z, hz, hz', hzero⟩ := hnul (by omega)
      rw [loadByte_filled_tagged hpos arg.tag bs (by omega) (by omega) htype] at hzero
      by_cases heq : z = s.typePos
      · rw [if_pos heq] at hzero
        exact arg.tag_ne_zero (Option.some.inj hzero)
      · rw [if_neg heq] at hzero
        obtain ⟨b, hb, hne⟩ := h.used z hz (by omega)
        exact hne (Option.some.inj (hb.symm.trans hzero))
  · intro hlt
    obtain ⟨bs, -, hcall⟩ := h.outcome (P := P) harg hfit hlt
    refine ⟨_, _, hcall, ⟨s.typePos, ?_⟩, ?_, fun habs => by omega⟩
    · intro j hj hchanged
      rw [getElem?_filled_tagged (by omega) hpos arg.tag bs hj] at hchanged
      by_cases heq : (s.data + s.typePos).toNat = j
      · have hindex : (j : Int) = s.data + s.typePos := by omega
        have hunused := h.unused s.typePos le_rfl (by omega)
        rw [← hindex, loadByte_natCast] at hunused
        exact ⟨hindex, hcursor, by omega, hunused⟩
      · exact absurd (if_neg heq) hchanged
    · intro _
      refine ⟨last - 1, by omega, by omega, ?_⟩
      rw [loadByte_filled_tagged hpos arg.tag bs (by omega) (by omega) htype,
        if_neg (by omega)]
      exact h.unused (last - 1) (by omega) (by omega)

end InTagArea

/-! ## A message -/

/-- A count that wraps is more than the buffer has room for. -/
theorem count_of_startMsg (h : Placed s) {address : CString} {nargs : Int}
    (hnargs : 0 ≤ nargs) (hlt : nargs < 2147483648) (hopened : Opened address nargs s s')
    (hroom : 0 ≤ s'.remain) : loopCount (round32 nargs) = roundUp nargs.toNat := by
  refine loopCount_round32 hnargs ?_
  by_contra hlarge
  obtain ⟨k, hcount, hk⟩ : ∃ k, loopCount (round32 nargs) = k ∧ 2147483648 ≤ k := by
    refine ⟨_, rfl, ?_⟩
    rw [round32_of_large (not_lt.mp hlarge) hlt]
    decide
  have hreserve := (Inside.reserve_mod s).2
  have hreserved : s.reserved.pos = s.pos + s.reserve := rfl
  have htype := hopened.typePos
  have hpos := hopened.pos
  have hnonneg := h.nonneg
  have hbound := h.bound
  rw [remain, hopened.len] at hroom
  omega

/-- An accepted `osc_msg_writer_start_msg` leaves the area empty. -/
theorem inTagArea_of_startMsg (h : Placed s) {address : CString} {nargs : Int}
    (hnargs : 0 ≤ nargs) (hlt : nargs < 2147483648)
    (hstart : oscMsgWriterStartMsg address nargs s = some (oscOk, s'))
    (hroom : 0 ≤ s'.remain) :
    InTagArea s'.typePos s'.pos s' ∧ s'.pos = s'.typePos + roundUp nargs.toNat := by
  have hopened := opened_of_startMsg hstart
  have hcount := count_of_startMsg h hnargs hlt hopened hroom
  have hreserve := (Inside.reserve_mod s).2
  have hreserved : s.reserved.pos = s.pos + s.reserve := rfl
  have htype := hopened.typePos
  have hpos := hopened.pos
  have hnonneg := h.nonneg
  have hinside := h.inside
  rw [hcount] at hpos
  refine ⟨{
    data := by rw [hopened.data]; exact h.data
    nonneg := by omega
    inside := by rw [hopened.data, hopened.len, hopened.length]; exact hinside
    bound := by rw [hopened.len]; exact h.bound
    aligned := hopened.pos_mod
    first_nonneg := by omega
    first_le := le_rfl
    le_last := by omega
    last_le := le_rfl
    used := fun t ht ht' => absurd ht (by omega)
    unused := hopened.zeros }, hpos⟩

/-- The calls of a message do no damage exactly if there are fewer of them than bytes in the
tag area. -/
theorem InTagArea.along_iff (h : InTagArea first last s) {args : List WriteArg}
    (hvalid : ∀ arg ∈ args, arg.Valid)
    (hample : ((args.map WriteArg.size).sum : Int) ≤ s.remain) :
    Along (writeStep P) (KeepsWritten P first last) s args ↔
      args = [] ∨ s.typePos + args.length < last := by
  induction args generalizing s with
  | nil => simp
  | cons arg args ih =>
      obtain ⟨harg, hargs⟩ := List.forall_mem_cons.mp hvalid
      rw [List.map_cons, List.sum_cons] at hample
      have hfit : (arg.size : Int) ≤ s.remain := by omega
      have hiff := h.keepsWritten_iff (P := P) harg hfit
      have hcons : ¬ arg :: args = [] := List.cons_ne_nil arg args
      by_cases hlt : s.typePos + 1 < last
      · obtain ⟨bs, hlen, hcall⟩ := h.outcome (P := P) harg hfit hlt
        have hstep : writeStep P s arg = some ((s.tagged arg.tag).filled bs) := by
          rw [writeStep, hcall, Option.map_some]
        have hremain : ((s.tagged arg.tag).filled bs).remain = s.remain - arg.size := by
          rw [filled_remain, tagged_remain, hlen]
        have hrest := ih (h.next hlen hfit hlt) hargs (by omega)
        rw [along_cons_of_eq_some hstep, hiff, hrest]
        simp only [filled_typePos, tagged_typePos, List.length_cons, hcons, false_or, hlt,
          true_and]
        constructor
        · rintro (rfl | hmore)
          · simpa using hlt
          · omega
        · intro hmore
          exact Or.inr (by omega)
      · rw [along_cons, hiff]
        simp only [hlt, false_and, List.length_cons, hcons, false_or, false_iff]
        omega

/-- A message in a buffer with room for all its arguments is undamaged by their calls exactly
if there are none, or fewer than the rounded `nargs`. -/
theorem along_keepsWritten_iff (P : Platform) (s s' : WriterState) (address : CString)
    (nargs : Int) (args : List WriteArg) (h : Placed s) (hnargs : 0 ≤ nargs)
    (hlt : nargs < 2147483648)
    (hstart : oscMsgWriterStartMsg address nargs s = some (oscOk, s'))
    (hvalid : ∀ arg ∈ args, arg.Valid)
    (hample : ((args.map WriteArg.size).sum : Int) ≤ s'.remain) :
    Along (writeStep P) (KeepsWritten P s'.typePos s'.pos) s' args ↔
      args = [] ∨ args.length < roundUp nargs.toNat := by
  obtain ⟨hs', hpos⟩ := inTagArea_of_startMsg h hnargs hlt hstart (by omega)
  rw [hs'.along_iff hvalid hample]
  refine or_congr_right ?_
  omega

theorem placed_wideWriter : Placed wideWriter := ⟨overBuffer_wideWriter, rfl⟩

/-- Two arguments where two are announced. -/
theorem along_keepsWritten_two : ∃ s', oscMsgWriterStartMsg slashA 2 wideWriter =
      some (oscOk, s') ∧
    Along (writeStep littleHost) (KeepsWritten littleHost s'.typePos s'.pos) s'
      [.int32 7, .boolTrue] := by
  refine ⟨_, rfl, ?_⟩
  exact (along_keepsWritten_iff littleHost wideWriter _ slashA 2 [.int32 7, .boolTrue]
    placed_wideWriter (by decide) (by decide) rfl (by simp [WriteArg.Valid]) (by decide)).mpr
    (Or.inr (by decide))

/-- Four arguments, as announced, take the terminator too. -/
theorem four_not_keepsWritten : ∃ s', oscMsgWriterStartMsg slashA 4 wideWriter =
      some (oscOk, s') ∧
    ¬ Along (writeStep littleHost) (KeepsWritten littleHost s'.typePos s'.pos) s'
      [.boolTrue, .boolTrue, .boolTrue, .boolTrue] := by
  refine ⟨_, rfl, ?_⟩
  intro hrun
  obtain ⟨harea, -⟩ := inTagArea_of_startMsg placed_wideWriter (by decide) (by decide)
    (show oscMsgWriterStartMsg slashA 4 wideWriter = some (oscOk, _) from rfl) (by decide)
  rcases (harea.along_iff (by simp [WriteArg.Valid]) (by decide)).mp hrun with habs | habs
  · cases habs
  · exact absurd habs (by decide)

end LittleOscar
