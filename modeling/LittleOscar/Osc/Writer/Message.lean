import LittleOscar.Osc.Writer.Capacity

/-!
# What the writer lays out

The bytes of a message are its address, a tag area of the rounded number of
arguments and the payloads; nothing stands between the address and the tags.
`OscMessage.run_eq` says that the calls of a message, when all of them return
`OSC_OK`, have put these bytes at the cursor, behind the length field in a bundle,
and have touched nothing else. During the calls the two cursors fill two areas at
once: `Laid` is the shape of the memory between them.
-/

namespace LittleOscar

open Machine Transition WriterState

variable (P : Platform)

/-- The state after a call that returns `OSC_OK`. -/
def okStep (s : WriterState) (c : WriterCall) : Option WriterState :=
  (writerCall P c s).bind fun (ret, s') => if ret = oscOk then some s' else none

/-- The bytes that a call stores at an aligned cursor. -/
def WriteArg.bytes : WriteArg → List UInt8
  | .null | .boolTrue | .boolFalse | .infinity => []
  | .int32 val => bigEndian 4 val.toUInt32.toNat
  | .int64 val => bigEndian 8 val.toUInt64.toNat
  | .timetag val => bigEndian 8 val.toNat
  | .float val => bigEndian 4 (P.floatToUInt32 val).toNat
  | .double val => bigEndian 8 (P.doubleToUInt64 val).toNat
  | .str val => padString val.bytes
  | .blob val sz => bigEndian 4 sz.toNat ++ padBytes (val.take sz.toNat)

/-- The bytes of the arguments, one behind the other. -/
def argBytes (args : List WriteArg) : List UInt8 := (args.map (WriteArg.bytes P)).flatten

/-- A message as the caller of the writer has it; it may announce more arguments than
it writes. -/
structure OscMessage where
  address : CString
  nargs : Int
  args : List WriteArg
  length_le : args.length ≤ nargs
  nargs_lt : nargs < 2147483648
  valid : ∀ arg ∈ args, arg.Valid

/-- The message `/a` without arguments. -/
def emptyMessage : OscMessage := ⟨slashA, 0, [], by decide, by decide, by simp⟩

namespace OscMessage

/-- The calls that write the message. -/
def calls (msg : OscMessage) : List WriterCall :=
  .startMsg msg.address msg.nargs :: (msg.args.map .write ++ [.endMsg])

/-- The tags with the zeros that are left of their area. -/
def tagArea (msg : OscMessage) : List UInt8 :=
  msg.args.map WriteArg.tag ++ List.replicate (roundUp msg.nargs.toNat - msg.args.length) 0

/-- The bytes of the message. -/
def bytes (msg : OscMessage) : List UInt8 :=
  padString msg.address.bytes ++ msg.tagArea ++ argBytes P msg.args

end OscMessage

variable {P}

theorem okStep_eq_some {s s' : WriterState} {c : WriterCall} :
    okStep P s c = some s' ↔ writerCall P c s = some (oscOk, s') := by
  rw [okStep, Option.bind_eq_some_iff]
  constructor
  · rintro ⟨⟨ret, t⟩, heq, hret⟩
    simp only at hret
    split at hret
    · next hok =>
        obtain rfl := Option.some.inj hret
        rw [heq, hok]
    · cases hret
  · intro heq
    exact ⟨_, heq, rfl⟩

/-! ## One argument -/

theorem toNat_ofInt_toUInt32 {sz : Int} (h : 0 ≤ sz) (h' : sz < 2147483648) :
    (Int32.ofInt sz).toUInt32.toNat = sz.toNat := by
  have hword := UInt32.toNat_lt (Int32.ofInt sz).toUInt32
  have hsigned := toInt_toInt32 (Int32.ofInt sz).toUInt32
  rw [Int32.toInt32_toUInt32, toInt_ofInt_eq_wrap32, wrap32_of_range (by omega) h'] at hsigned
  unfold wrap32 at hsigned
  omega

/-- At an aligned cursor the stored bytes do not depend on the cursor. -/
theorem WriteArg.stored_of_aligned {arg : WriteArg} (harg : arg.Valid) {pos : Int}
    (hpos : pos % 4 = 0) : arg.stored P pos = some (arg.bytes P) := by
  cases arg with
  | str val => rw [WriteArg.stored, stringBytes_of_mod hpos, WriteArg.bytes]
  | blob val sz =>
      obtain ⟨h, h', hle⟩ := harg
      have hload := loadBytes_eq_take (m := val) (p := 0) (n := sz.toNat) (by omega) (by omega)
      have hlen : (val.take sz.toNat).length = sz.toNat := by
        rw [List.length_take]
        omega
      have hpad : padZeros (pos + 4 + sz.toNat) =
          List.replicate (roundUp sz.toNat - sz.toNat) 0 := by
        rw [padZeros, roundUp]
        congr 1
        omega
      rw [WriteArg.stored, loopCount_of_nonneg h h', hload, Option.map_some,
        toNat_ofInt_toUInt32 h h', Int.toNat_zero, List.drop_zero, hlen, hpad,
        List.append_assoc, WriteArg.bytes, padBytes, hlen]
  | _ => rfl

theorem WriteArg.length_bytes {arg : WriteArg} (harg : arg.Valid) :
    (arg.bytes P).length = arg.size := by
  obtain ⟨bs, hbs, hlen⟩ := exists_stored P harg (Int.zero_emod 4)
  rw [WriteArg.stored_of_aligned harg rfl] at hbs
  rw [← hlen, Option.some.inj hbs]

theorem okStep_write {s s' : WriterState} {arg : WriteArg} (harg : arg.Valid)
    (hpos : s.pos % 4 = 0) (h : okStep P s (.write arg) = some s') :
    s' = (s.tagged arg.tag).filled (arg.bytes P) := by
  have hcall : oscMsgWrite P arg s = some (oscOk, s') := okStep_eq_some.mp h
  rcases cases_of_write hcall with ⟨hret, -⟩ | ⟨-, -, bs, hstored, hput⟩
  · exact absurd hret.symm oscError_ne_oscOk
  · rw [WriteArg.stored_of_aligned harg hpos] at hstored
    rw [putAll_eq_some hput, Option.some.inj hstored]

/-! ## The arguments of a message -/

/-- The fields that no call inside a message changes. -/
structure SameFrame (s s' : WriterState) : Prop where
  data : s'.data = s.data
  len : s'.len = s.len
  msgStart : s'.msgStart = s.msgStart
  state : s'.state = s.state
  kBundle : s'.kBundle = s.kBundle

theorem SameFrame.refl (s : WriterState) : SameFrame s s := ⟨rfl, rfl, rfl, rfl, rfl⟩

theorem SameFrame.trans {s s' s'' : WriterState} (h : SameFrame s s') (h' : SameFrame s' s'') :
    SameFrame s s'' :=
  ⟨h'.data.trans h.data, h'.len.trans h.len, h'.msgStart.trans h.msgStart,
    h'.state.trans h.state, h'.kBundle.trans h.kBundle⟩

/-- A writer inside a message that began at the index `p` of `m`: the bytes `pre`, the
tags so far, the free part of their area and the payloads so far. -/
structure Laid (m : Memory) (p : Nat) (pre tags : List UInt8) (free : Nat)
    (payload : List UInt8) (s : WriterState) : Prop where
  le : p ≤ m.length
  data : s.data = 0
  mem : s.mem = overwrite m p (pre ++ (tags ++ List.replicate free 0) ++ payload)
  typePos : s.typePos = (p + pre.length + tags.length : Nat)
  pos : s.pos = (p + pre.length + tags.length + free + payload.length : Nat)
  aligned : s.pos % 4 = 0

namespace Laid

variable {m : Memory} {p free : Nat} {pre tags payload : List UInt8} {s s' : WriterState}

theorem write (h : Laid m p pre tags (free + 1) payload s) {arg : WriteArg} (harg : arg.Valid)
    (hstep : okStep P s (.write arg) = some s') :
    Laid m p pre (tags ++ [arg.tag]) free (payload ++ arg.bytes P) s' ∧ SameFrame s s' := by
  obtain rfl := okStep_write harg h.aligned hstep
  have hsize := WriteArg.length_bytes (P := P) harg
  have hmod := arg.size_mod
  have haligned := h.aligned
  have hindex : (s.data + s.typePos).toNat = p + (pre ++ tags).length := by
    rw [h.data, h.typePos, Int.zero_add, Int.toNat_natCast, List.length_append, Nat.add_assoc]
  have harea : pre ++ (tags ++ List.replicate (free + 1) 0) ++ payload =
      pre ++ tags ++ 0 :: (List.replicate free 0 ++ payload) := by
    simp [List.replicate_succ]
  have hset : (pre ++ tags ++ 0 :: (List.replicate free 0 ++ payload)).set
      (pre ++ tags).length arg.tag =
        pre ++ (tags ++ [arg.tag] ++ List.replicate free 0) ++ payload := by
    rw [List.set_append_right _ _ (Nat.le_refl _), Nat.sub_self, List.set_cons_zero]
    simp
  have hmem : (s.tagged arg.tag).mem =
      overwrite m p (pre ++ (tags ++ [arg.tag] ++ List.replicate free 0) ++ payload) := by
    rw [tagged_mem, hindex, h.mem, harea, overwrite_set h.le (by simp), hset]
  have hpos : (s.data + s.pos).toNat = p +
      (pre ++ (tags ++ [arg.tag] ++ List.replicate free 0) ++ payload).length := by
    rw [h.data, h.pos, Int.zero_add, Int.toNat_natCast]
    simp only [List.length_append, List.length_replicate, List.length_singleton]
    omega
  refine ⟨?_, ⟨rfl, rfl, rfl, rfl, rfl⟩⟩
  constructor
  · exact h.le
  · exact h.data
  · rw [filled_mem, tagged_data, tagged_pos, hmem, hpos, overwrite_append h.le,
      List.append_assoc]
  · rw [filled_typePos, tagged_typePos, h.typePos, List.length_append, List.length_singleton]
    omega
  · rw [filled_pos, tagged_pos, h.pos]
    simp only [List.length_append, List.length_singleton]
    omega
  · rw [filled_pos, tagged_pos, hsize]
    omega

/-- The arguments of a message, one after the other. -/
theorem writes {args : List WriteArg} (h : Laid m p pre tags free payload s)
    (hlen : args.length ≤ free) (hvalid : ∀ arg ∈ args, arg.Valid)
    (hrun : run (okStep P) s (args.map .write) = some s') :
    Laid m p pre (tags ++ args.map WriteArg.tag) (free - args.length)
      (payload ++ argBytes P args) s' ∧ SameFrame s s' := by
  induction args generalizing s tags free payload with
  | nil =>
      obtain rfl := Option.some.inj hrun
      simp only [List.map_nil, List.append_nil, argBytes, List.flatten_nil, List.length_nil,
        Nat.sub_zero]
      exact ⟨h, SameFrame.refl s⟩
  | cons arg args ih =>
      obtain ⟨s₁, hstep, hrest⟩ := run_cons_eq_some.mp hrun
      rw [List.length_cons] at hlen
      obtain ⟨free', rfl⟩ : ∃ free', free = free' + 1 := ⟨free - 1, by omega⟩
      obtain ⟨h₁, hsame₁⟩ := h.write (hvalid arg List.mem_cons_self) hstep
      obtain ⟨h', hsame'⟩ := ih h₁ (by omega)
        (fun a ha => hvalid a (List.mem_cons_of_mem arg ha)) hrest
      rw [List.append_assoc, List.append_assoc] at h'
      rw [List.map_cons, List.length_cons, Nat.add_sub_add_right]
      exact ⟨h', hsame₁.trans hsame'⟩

end Laid

/-! ## The calls around the arguments -/

section Call

variable {s s' : WriterState}

/-- The cursor of a writer that is the whole object, between two calls. -/
structure Ready (s : WriterState) : Prop where
  data : s.data = 0
  nonneg : 0 ≤ s.pos
  aligned : s.pos % 4 = 0
  bound : s.mem.length < 2147483648

theorem okStep_startMsg {address : CString} {nargs : Int} (h : Ready s) (hnargs : 0 ≤ nargs)
    (hlt : nargs < 2147483648) (hstep : okStep P s (.startMsg address nargs) = some s') :
    s.reserved.Fits (paddedSize address.bytes.length) ∧ s' = s.opened address nargs := by
  have hcall : oscMsgWriterStartMsg address nargs s = some (oscOk, s') :=
    okStep_eq_some.mp hstep
  have haligned := h.aligned
  have hmod := Inside.reserve_mod s
  have hstring : stringBytes s.reserved.pos address = padString address.bytes :=
    stringBytes_of_mod (by simp only [reserved]; omega) address
  have hne : padString address.bytes ≠ [] := by simp [padString]
  have hopened := cases_of_startMsg hcall
  rw [hstring] at hopened
  rcases hopened with ⟨hret, -⟩ | ⟨hret, -⟩ | ⟨hret, -⟩ | ⟨-, -, s₂, s₃, hput, hzeros, hs'⟩
  · exact absurd hret.symm oscError_ne_oscOk
  · exact absurd hret.symm oscError_ne_oscOk
  · exact absurd hret.symm oscError_ne_oscOk
  have hfits := fits_of_putAll hne hput
  have hlength := length_of_putAll hput
  rw [length_padString] at hfits
  obtain rfl := putAll_eq_some hput
  obtain ⟨k, hk⟩ : ∃ k, loopCount (round32 nargs) = k := ⟨_, rfl⟩
  -- the wrapped count would need more stores than the object has bytes
  have hsmall : nargs < 2147483645 := by
    by_contra hlarge
    have hcount : k = 2147483648 := by
      rw [← hk, round32_of_large (by omega) hlt]
      rfl
    have hbound := h.bound
    have hne' : List.replicate (loopCount (round32 nargs)) (0 : UInt8) ≠ [] := by
      rw [hk, ne_eq, List.replicate_eq_nil_iff]
      omega
    have hfits' := fits_of_putAll hne' hzeros
    rw [List.length_replicate, hk, hcount] at hfits'
    obtain ⟨hlo, hhi⟩ := hfits'
    simp only [hlength] at hlo hhi
    have hmem : s.reserved.mem.length = s.mem.length := rfl
    omega
  rw [loopCount_round32 hnargs hsmall] at hzeros
  refine ⟨hfits, ?_⟩
  rw [hs', putAll_eq_some hzeros]
  rfl

theorem okStep_endMsg (hstep : okStep P s .endMsg = some s') :
    s.state.msg ∧ s' = s.closed P := by
  have hcall : oscMsgWriterEndMsg P s = some (oscOk, s') := okStep_eq_some.mp hstep
  rcases cases_of_endMsg hcall with
    ⟨hret, -⟩ | ⟨-, hmsg, hbundle, mem, hstore, hs'⟩ | ⟨-, hmsg, hbundle, hs'⟩
  · exact absurd hret.symm oscError_ne_oscOk
  · refine ⟨hmsg, ?_⟩
    rw [storeBytes_eq] at hstore
    split at hstore
    · obtain rfl := Option.some.inj hstore
      rw [closed, if_pos hbundle, hs']
    · cases hstore
  · refine ⟨hmsg, ?_⟩
    rw [closed, if_neg hbundle, hs']

/-- What a piece of the run has written: these bytes from the cursor on. -/
structure Wrote (s s' : WriterState) (bs : List UInt8) : Prop where
  data : s'.data = s.data
  len : s'.len = s.len
  mem : s'.mem = overwrite s.mem s.pos.toNat bs
  pos : s'.pos = s.pos + bs.length
  length : s'.mem.length = s.mem.length

theorem Wrote.trans {s'' : WriterState} {bs cs : List UInt8} (h : Wrote s s' bs)
    (h' : Wrote s' s'' cs) (hnonneg : 0 ≤ s.pos) (hle : s.pos ≤ s.mem.length) :
    Wrote s s'' (bs ++ cs) := by
  have hpos := h.pos
  have hpos' := h'.pos
  have hindex : s'.pos.toNat = s.pos.toNat + bs.length := by omega
  constructor
  · exact h'.data.trans h.data
  · exact h'.len.trans h.len
  · rw [h'.mem, h.mem, hindex, overwrite_append (by omega)]
  · rw [List.length_append]
    omega
  · exact h'.length.trans h.length

/-- The hole that is left for the length field. -/
def WriterState.hole (s : WriterState) : List UInt8 :=
  (s.mem.drop s.pos.toNat).take s.reserve.toNat

/-- A message that was opened has its hole, its address and an empty tag area. -/
theorem Ready.laid_opened (h : Ready s) {address : CString} (nargs : Int)
    (hfits : s.reserved.Fits (paddedSize address.bytes.length)) :
    s.hole.length = s.reserve.toNat ∧
      Laid s.mem s.pos.toNat (s.hole ++ padString address.bytes) [] (roundUp nargs.toNat) []
        (s.opened address nargs) := by
  have hdata := h.data
  have hnonneg := h.nonneg
  have haligned := h.aligned
  have hmod := Inside.reserve_mod s
  have hpadded := paddedSize_mod address.bytes.length
  have hround := roundUp_mod nargs.toNat
  obtain ⟨-, hroom⟩ := hfits
  simp only [reserved] at hroom
  have hhole : s.hole.length = s.reserve.toNat := by
    rw [WriterState.hole, List.length_take, List.length_drop]
    omega
  have hself : overwrite s.mem s.pos.toNat s.hole = s.mem := overwrite_take (by omega)
  have haddress : s.reserved.data + s.reserved.pos = (s.pos.toNat + s.hole.length : Nat) := by
    simp only [reserved]
    omega
  have htags : s.data + (s.pos + s.reserve + paddedSize address.bytes.length) =
      (s.pos.toNat + (s.hole ++ padString address.bytes).length : Nat) := by
    rw [List.length_append, length_padString]
    omega
  refine ⟨hhole, ?_⟩
  constructor
  · omega
  · exact hdata
  · have hmem : (s.opened address nargs).mem =
        overwrite (overwrite s.mem (s.reserved.data + s.reserved.pos).toNat
          (padString address.bytes))
          (s.data + (s.pos + s.reserve + paddedSize address.bytes.length)).toNat
          (List.replicate (roundUp nargs.toNat) 0) := by
      rw [← length_padString]
      rfl
    rw [hmem, haddress, htags, Int.toNat_natCast, Int.toNat_natCast]
    nth_rewrite 1 [← hself]
    rw [overwrite_append (by omega), overwrite_append (by omega), List.append_nil,
      List.nil_append]
  · simp only [WriterState.opened, reserved, filled_pos, filled_typePos, length_padString,
      List.length_append, List.length_nil]
    omega
  · simp only [WriterState.opened, reserved, filled_pos, length_padString,
      List.length_append, List.length_nil, List.length_replicate]
    omega
  · simp only [WriterState.opened, reserved, filled_pos, length_padString,
      List.length_replicate]
    omega

theorem length_of_okRun {cs : List WriterCall} (h : run (okStep P) s cs = some s') :
    s'.mem.length = s.mem.length := by
  induction cs generalizing s with
  | nil =>
      obtain rfl := Option.some.inj h
      rfl
  | cons c cs ih =>
      obtain ⟨s₁, hstep, hrest⟩ := run_cons_eq_some.mp h
      exact (ih hrest).trans (length_of_writerCall (okStep_eq_some.mp hstep))

end Call

theorem freshWriter_eq {w : OscWriter} {buffer : Memory} {kBundle : CString}
    {s : WriterState} (h : freshWriter w buffer kBundle = some s) :
    s.data = 0 ∧ s.pos = 0 ∧ s.mem = buffer ∧ s.state = OSC_WRITER_OUT ∧
      s.kBundle = kBundle ∧ s.len = buffer.length := by
  obtain ⟨⟨ret, w'⟩, hinit, hs⟩ := Option.bind_eq_some_iff.mp h
  obtain rfl := Option.some.inj hs
  simp only [oscMsgWriterInit] at hinit
  split at hinit
  · obtain ⟨-, rfl⟩ := Prod.mk.inj (Option.some.inj hinit)
    exact ⟨rfl, rfl, rfl, rfl, rfl, rfl⟩
  · cases hinit

theorem ready_freshWriter {w : OscWriter} {buffer : Memory} {kBundle : CString}
    {s : WriterState} (hlen : buffer.length < 2147483648)
    (h : freshWriter w buffer kBundle = some s) : Ready s := by
  obtain ⟨hdata, hpos, hmem, -, -, -⟩ := freshWriter_eq h
  constructor
  · exact hdata
  · rw [hpos]
  · rw [hpos]
    rfl
  · rw [hmem]
    exact hlen

/-- The finished bytes of a buffer that was written from its beginning on. -/
theorem Wrote.take_eq {s s' : WriterState} {bs : List UInt8} (h : Wrote s s' bs)
    (hpos : s.pos = 0) : s'.mem.take s'.pos.toNat = bs := by
  have hend : s'.pos.toNat = bs.length := by
    rw [h.pos, hpos]
    omega
  rw [h.mem, hpos, hend, overwrite, Int.toNat_zero, List.take_zero, List.nil_append,
    List.take_left]

/-! ## A whole message -/

namespace OscMessage

variable {msg : OscMessage} {s s' : WriterState}

theorem length_tagArea (msg : OscMessage) : msg.tagArea.length = roundUp msg.nargs.toNat := by
  have hargs := msg.length_le
  have hle := le_roundUp msg.nargs.toNat
  simp only [tagArea, List.length_append, List.length_map, List.length_replicate]
  omega

theorem length_argBytes_mod {args : List WriteArg} (hvalid : ∀ arg ∈ args, arg.Valid) :
    (argBytes P args).length % 4 = 0 := by
  induction args with
  | nil => rfl
  | cons arg args ih =>
      have hsize := WriteArg.length_bytes (P := P) (hvalid arg List.mem_cons_self)
      have hmod := arg.size_mod
      have hrest := ih fun a ha => hvalid a (List.mem_cons_of_mem arg ha)
      have hcons : argBytes P (arg :: args) = arg.bytes P ++ argBytes P args := rfl
      rw [hcons, List.length_append]
      omega

theorem length_bytes_mod (msg : OscMessage) : (msg.bytes P).length % 4 = 0 := by
  have haddress := paddedSize_mod msg.address.bytes.length
  have htags := roundUp_mod msg.nargs.toNat
  have hargs := length_argBytes_mod (P := P) msg.valid
  rw [bytes, List.length_append, List.length_append, length_padString, length_tagArea]
  omega

theorem four_le_length_bytes (msg : OscMessage) : 4 ≤ (msg.bytes P).length := by
  have haddress := four_le_paddedSize msg.address.bytes.length
  rw [bytes, List.length_append, List.length_append, length_padString]
  omega

/-- Before `osc_msg_writer_end_msg` the hole and the bytes of the message are there. -/
theorem run_eq (h : Ready s) (hrun : run (okStep P) s msg.calls = some s') :
    ∃ s₂, s' = s₂.closed P ∧ s.hole.length = s.reserve.toNat ∧
      s.pos.toNat ≤ s.mem.length ∧
      s₂.mem = overwrite s.mem s.pos.toNat (s.hole ++ msg.bytes P) ∧
      s₂.pos = s.pos + s.reserve + (msg.bytes P).length ∧
      SameFrame (s.opened msg.address msg.nargs) s₂ := by
  have hargs := msg.length_le
  have hle := le_roundUp msg.nargs.toNat
  have hreserve := (Inside.reserve_mod s).2
  have hnonneg := h.nonneg
  obtain ⟨s₁, hstart, hrest⟩ := run_cons_eq_some.mp hrun
  obtain ⟨hfits, rfl⟩ := okStep_startMsg h (by omega) msg.nargs_lt hstart
  obtain ⟨hhole, hlaid⟩ := h.laid_opened msg.nargs hfits
  rw [run_append] at hrest
  obtain ⟨s₂, hwrites, hend⟩ := Option.bind_eq_some_iff.mp hrest
  obtain ⟨hlaid₂, hsame⟩ := hlaid.writes (by omega) msg.valid hwrites
  obtain ⟨s₃, hclose, hlast⟩ := run_cons_eq_some.mp hend
  obtain rfl := Option.some.inj hlast
  have hbytes : s.hole ++ padString msg.address.bytes ++ (([] ++ msg.args.map WriteArg.tag) ++
      List.replicate (roundUp msg.nargs.toNat - msg.args.length) 0) ++
        ([] ++ argBytes P msg.args) = s.hole ++ msg.bytes P := by
    simp only [bytes, tagArea, List.nil_append, List.append_assoc]
  refine ⟨s₂, (okStep_endMsg hclose).2, hhole, hlaid.le, ?_, ?_, hsame⟩
  · rw [hlaid₂.mem, hbytes]
  · have hlength : (msg.bytes P).length = paddedSize msg.address.bytes.length +
        roundUp msg.nargs.toNat + (argBytes P msg.args).length := by
      rw [bytes, List.length_append, List.length_append, length_padString, length_tagArea]
    rw [hlaid₂.pos, hlength]
    simp only [List.length_append, List.length_nil, List.length_map, length_padString]
    omega

/-- Alone, a message is its bytes. -/
theorem run_alone (h : Ready s) (hstate : s.state = OSC_WRITER_OUT)
    (hrun : run (okStep P) s msg.calls = some s') :
    Wrote s s' (msg.bytes P) ∧ s'.msgStart = s.pos ∧ s'.state = OSC_WRITER_COMPLETE := by
  have hlength := length_of_okRun hrun
  obtain ⟨s₂, rfl, hhole, -, hmem, hpos, hsame⟩ := run_eq h hrun
  have hreserve : s.reserve = 0 := by
    rw [reserve, hstate]
    rfl
  have hnil : s.hole = [] := by
    rw [hreserve] at hhole
    exact List.eq_nil_of_length_eq_zero hhole
  have hbundle : ¬ s₂.state.bundle := by
    have hopened : (s.opened msg.address msg.nargs).state = { s.state with msg := true } := rfl
    rw [hsame.state, hopened, hstate]
    exact Bool.false_ne_true
  have hstart : s₂.msgStart = s.pos + s.reserve := hsame.msgStart
  rw [hreserve] at hpos hstart
  rw [hnil, List.nil_append] at hmem
  rw [closed, if_neg hbundle] at hlength ⊢
  refine ⟨⟨hsame.data, hsame.len, hmem, ?_, hlength⟩, ?_, rfl⟩
  · simp only
    omega
  · simp only
    omega

/-- In a bundle, a message is its length as the host stores it and its bytes. -/
theorem run_inBundle (h : Ready s) (hstate : s.state = OSC_WRITER_BUNDLE)
    (hrun : run (okStep P) s msg.calls = some s') :
    Wrote s s' (native P.order 4 (msg.bytes P).length ++ msg.bytes P) ∧
      s'.msgStart = s.pos + 4 ∧ s'.state = OSC_WRITER_BUNDLE := by
  have hlength := length_of_okRun hrun
  have hdata := h.data
  have hnonneg := h.nonneg
  have hbound := h.bound
  obtain ⟨s₂, rfl, hhole, hle, hmem, hpos, hsame⟩ := run_eq h hrun
  have hreserve : s.reserve = 4 := by
    rw [reserve, if_pos hstate]
  have hopened : (s.opened msg.address msg.nargs).state = { s.state with msg := true } := rfl
  have hbundle : s₂.state.bundle := by
    rw [hsame.state, hopened, hstate]
    rfl
  have hstart : s₂.msgStart = s.pos + s.reserve := hsame.msgStart
  have hdata₂ : s₂.data = s.data := hsame.data
  rw [hreserve] at hpos hstart hhole
  have hindex : (s₂.data + (s₂.msgStart - 4)).toNat = s.pos.toNat := by
    rw [hdata₂, hdata, hstart]
    omega
  have hhole' : s.hole.length = (native P.order 4
      ((s₂.pos - s₂.msgStart) % 4294967296).toNat).length := by
    rw [hhole, length_native]
    rfl
  rw [closed, if_pos hbundle] at hlength ⊢
  simp only [hindex, hmem] at hlength ⊢
  rw [overwrite_overwrite hle hhole'] at hlength ⊢
  have hroom := le_of_length_overwrite hle hlength
  rw [List.length_append, length_native] at hroom
  have hfield : ((s₂.pos - s₂.msgStart) % 4294967296).toNat = (msg.bytes P).length := by
    omega
  rw [hfield] at hlength ⊢
  refine ⟨⟨hdata₂, hsame.len, rfl, ?_, hlength⟩, hstart, ?_⟩
  · rw [List.length_append, length_native]
    simp only
    omega
  · simp only [hsame.state, hopened, hstate]
    rfl

end OscMessage

end LittleOscar
