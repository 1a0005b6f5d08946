import LittleOscar.Ideas.Writer.Definitions
import LittleOscar.Osc.Writer.Message

/-!
# The varargs writer and the step-by-step writer

`oscWritev` is the function of `write.c` that takes a typestring and its arguments. It
has a copy of the body of every `osc_msg_write_*` of its own, so that each character has
to be compared with the call it stands for. `writevSwitch_eq` says what the copies store:
all of them what the calls store, except that of `b`, which stores the length of the blob
and not the blob.

So where all blobs are empty the two writers are the same function of the state, whether
the message fits or not: `oscWritev_eq`. Where the message fits and one is not, the
varargs writer stops short by the length of the blobs.
-/

namespace LittleOscar

open Machine WriterState Inside
open Ideas (VaArg vaInt vaInt64 vaDouble vaPointer vaCount)

/-- The C string in an object; there is none in an object without a NUL. -/
def cStringOf (object : Object) : Option CString :=
  match h : strlenFrom object.bytes with
  | none => none
  | some n => some
      { bytes := object.bytes.take n
        noNul := (strlenFrom_eq_some h).2
        length_lt := Nat.lt_of_le_of_lt (List.length_take_le' n _) object.length_lt }

/-- The next argument as a `char *` that is read as a string. -/
def vaString (args : List VaArg) : Option CString := (vaPointer args).bind cStringOf

variable (P : Platform) (demote : UInt64 → UInt32)

/-- `ENSURE_REMAIN` and `WRITE_FIXED_VA`. -/
def writeFixedVa (size : Nat) (word : Option (List UInt8)) (s : WriterState) :
    Option (Int × WriterState) :=
  if s.remain < size then some (oscError, s)
  else do
    let raw ← word
    let s ← s.writeFixed raw
    some (oscOk, s)

/-- The `switch` of `osc_writev` over the character `t` of the typestring. A `float` is
passed as a `double`, and `demote` is the conversion back. -/
def writevSwitch (t : UInt8) (args : List VaArg) (s : WriterState) :
    Option (Int × WriterState) :=
  if t = 'T'.toUInt8 ∨ t = 'F'.toUInt8 ∨ t = 'N'.toUInt8 ∨ t = 'I'.toUInt8 then
    some (oscOk, s)
  else if t = 'i'.toUInt8 then
    writeFixedVa 4
      ((vaInt args).map fun val => native P.order 4 (oscHton32 P val.toUInt32).toNat) s
  else if t = 'h'.toUInt8 then
    writeFixedVa 8 ((vaInt64 args).map fun val => native P.order 8 (oscHton64 P val).toNat) s
  else if t = 't'.toUInt8 then
    writeFixedVa 8 ((vaInt64 args).map fun val => native P.order 8 (oscHton64 P val).toNat) s
  else if t = 'f'.toUInt8 then
    writeFixedVa 4 ((vaDouble args).map fun val =>
      native P.order 4 (oscHton32 P (P.floatToUInt32 (demote val))).toNat) s
  else if t = 'd'.toUInt8 then
    writeFixedVa 8 ((vaDouble args).map fun val =>
      native P.order 8 (oscHton64 P (P.doubleToUInt64 val)).toNat) s
  else if t = 'k'.toUInt8 ∨ t = 's'.toUInt8 ∨ t = 'S'.toUInt8 then do
    let stringVal ← vaString args
    if sizeT s.remain < round32Size stringVal.bytes.length then some (oscError, s)
    else do
      let s ← s.writeString stringVal
      some (oscOk, s)
  else if t = 'b'.toUInt8 then do
    let blobLen ← vaInt args
    let _ ← vaPointer args.tail
    if s.remain < wrap32 (4 + round32 blobLen.toInt) then some (oscError, s)
    else do
      -- the data is not copied
      let s ← s.writeFixed (native P.order 4 (oscHton32 P blobLen.toUInt32).toNat)
      some (oscOk, s)
  else some (oscError, s)

/-- The loop of `osc_writev` over the typestring. -/
def writevLoop : List UInt8 → List VaArg → WriterState → Option (Int × WriterState)
  | [], _, s => some (oscOk, s)
  | t :: typestring, args, s => do
      let s ← s.addType t
      let (ret, s) ← writevSwitch P demote t args s
      if ret ≠ oscOk then some (oscError, s)
      else writevLoop typestring (args.drop (vaCount t)) s

/-- `osc_writev`, and `osc_write`. -/
def oscWritev (address typestring : CString) (args : List VaArg) (s : WriterState) :
    Option (Int × WriterState) := do
  let nargs := wrap32 typestring.bytes.length
  let (ret, s) ← oscMsgWriterStartMsg address nargs s
  if ret ≠ oscOk then some (oscError, s)
  else do
    let (ret, s) ← writevLoop P demote typestring.bytes args s
    if ret ≠ oscOk then some (oscError, s)
    else do
      let (ret, s) ← oscMsgWriterEndMsg P s
      if ret ≠ oscOk then some (oscError, s) else some (oscOk, s)

/-! ## The calls it stands for -/

/-- The `osc_msg_write_*` of a character, with its argument. The bytes of a blob have to
be there. -/
def writeArgOf (t : UInt8) (args : List VaArg) : Option WriteArg :=
  if t = 'T'.toUInt8 then some .boolTrue
  else if t = 'F'.toUInt8 then some .boolFalse
  else if t = 'N'.toUInt8 then some .null
  else if t = 'I'.toUInt8 then some .infinity
  else if t = 'i'.toUInt8 then (vaInt args).map .int32
  else if t = 'h'.toUInt8 then (vaInt64 args).map fun bits => .int64 bits.toInt64
  else if t = 't'.toUInt8 then (vaInt64 args).map .timetag
  else if t = 's'.toUInt8 then (vaString args).map .str
  else if t = 'b'.toUInt8 then do
    let sz ← vaInt args
    let blob ← vaPointer args.tail
    if 0 ≤ sz.toInt ∧ sz.toInt ≤ blob.bytes.length then some (.blob blob.bytes sz.toInt)
    else none
  else none

/-- The calls of a typestring whose arguments match it. -/
def writeArgsOf : List UInt8 → List VaArg → Option (List WriteArg)
  | [], _ => some []
  | t :: typestring, args => do
      let arg ← writeArgOf t args
      let rest ← writeArgsOf typestring (args.drop (vaCount t))
      some (arg :: rest)

/-- Calls up to the first one that does not return `OSC_OK`. -/
def writerCalls : List WriterCall → WriterState → Option (Int × WriterState)
  | [], s => some (oscOk, s)
  | c :: cs, s => do
      let (ret, s) ← writerCall P c s
      if ret ≠ oscOk then some (ret, s) else writerCalls cs s

/-- The calls that write the message step by step. -/
def messageCalls (address typestring : CString) (ws : List WriteArg) : List WriterCall :=
  .startMsg address (wrap32 typestring.bytes.length) :: (ws.map .write ++ [.endMsg])

/-- The length of the bytes of a blob. -/
def WriteArg.blobLength : WriteArg → Int
  | .blob _ sz => sz
  | _ => 0

/-- Both writers have a result, and it is the same up to the cursors that mean nothing
between two messages. -/
def WritersAgree (address typestring : CString) (args : List VaArg) (ws : List WriteArg)
    (s : WriterState) : Prop :=
  ∃ ret s₁ s₂, oscWritev P demote address typestring args s = some (ret, s₁) ∧
    writerCalls P (messageCalls address typestring ws) s = some (ret, s₂) ∧
    s₁.pos = s₂.pos ∧ s₁.state = s₂.state ∧ s₁.mem = s₂.mem

/-- The message fits into the buffer, so that no call is refused or leaves it; or another
message is open, so that nothing is written. -/
def FitsBuffer (address typestring : CString) (ws : List WriteArg) (s : WriterState) : Prop :=
  s.state.msg ∨
    ∃ s', writerCalls P (messageCalls address typestring ws) s = some (oscOk, s')

/-! ## One character -/

/-- The call `arg` is what the character stands for in front of `args`. -/
inductive StandsFor (args : List VaArg) : UInt8 → WriteArg → Prop where
  | boolTrue : StandsFor args 'T'.toUInt8 .boolTrue
  | boolFalse : StandsFor args 'F'.toUInt8 .boolFalse
  | null : StandsFor args 'N'.toUInt8 .null
  | infinity : StandsFor args 'I'.toUInt8 .infinity
  | int32 {val : Int32} (h : vaInt args = some val) : StandsFor args 'i'.toUInt8 (.int32 val)
  | int64 {val : UInt64} (h : vaInt64 args = some val) :
      StandsFor args 'h'.toUInt8 (.int64 val.toInt64)
  | timetag {val : UInt64} (h : vaInt64 args = some val) :
      StandsFor args 't'.toUInt8 (.timetag val)
  | str {val : CString} (h : vaString args = some val) : StandsFor args 's'.toUInt8 (.str val)
  | blob {sz : Int32} {blob : Object} (hsz : vaInt args = some sz)
      (hblob : vaPointer args.tail = some blob) (hnonneg : 0 ≤ sz.toInt)
      (hle : sz.toInt ≤ blob.bytes.length) :
      StandsFor args 'b'.toUInt8 (.blob blob.bytes sz.toInt)

section Switch

variable {P demote} {t : UInt8} {args : List VaArg} {arg : WriteArg}

theorem standsFor_of_writeArgOf (h : writeArgOf t args = some arg) : StandsFor args t arg := by
  rw [writeArgOf] at h
  rcases ite_eq_iff.mp h with ⟨rfl, h⟩ | ⟨-, h⟩
  · rw [← Option.some.inj h]
    exact .boolTrue
  rcases ite_eq_iff.mp h with ⟨rfl, h⟩ | ⟨-, h⟩
  · rw [← Option.some.inj h]
    exact .boolFalse
  rcases ite_eq_iff.mp h with ⟨rfl, h⟩ | ⟨-, h⟩
  · rw [← Option.some.inj h]
    exact .null
  rcases ite_eq_iff.mp h with ⟨rfl, h⟩ | ⟨-, h⟩
  · rw [← Option.some.inj h]
    exact .infinity
  rcases ite_eq_iff.mp h with ⟨rfl, h⟩ | ⟨-, h⟩
  · obtain ⟨val, hval, rfl⟩ := Option.map_eq_some_iff.mp h
    exact .int32 hval
  rcases ite_eq_iff.mp h with ⟨rfl, h⟩ | ⟨-, h⟩
  · obtain ⟨val, hval, rfl⟩ := Option.map_eq_some_iff.mp h
    exact .int64 hval
  rcases ite_eq_iff.mp h with ⟨rfl, h⟩ | ⟨-, h⟩
  · obtain ⟨val, hval, rfl⟩ := Option.map_eq_some_iff.mp h
    exact .timetag hval
  rcases ite_eq_iff.mp h with ⟨rfl, h⟩ | ⟨-, h⟩
  · obtain ⟨val, hval, rfl⟩ := Option.map_eq_some_iff.mp h
    exact .str hval
  rcases ite_eq_iff.mp h with ⟨rfl, h⟩ | ⟨-, h⟩
  · obtain ⟨sz, hsz, h⟩ := Option.bind_eq_some_iff.mp h
    obtain ⟨blob, hblob, h⟩ := Option.bind_eq_some_iff.mp h
    split at h
    · next hrange =>
        rw [← Option.some.inj h]
        exact .blob hsz hblob hrange.1 hrange.2
    · cases h
  · cases h

namespace StandsFor

theorem tag_eq (h : StandsFor args t arg) : arg.tag = t := by
  cases h <;> rfl

theorem valid (h : StandsFor args t arg) : arg.Valid := by
  cases h with
  | @blob sz blob hsz hblob hnonneg hle => exact ⟨hnonneg, sz.toInt_lt, hle⟩
  | _ => trivial

end StandsFor

/-- The bytes that the copy of a call in `osc_writev` stores at the cursor `pos`. -/
def WriteArg.copied (P : Platform) (pos : Int) : WriteArg → Option (List UInt8)
  | .blob _ sz => some (bigEndian 4 (Int32.ofInt sz).toUInt32.toNat)
  | arg => arg.stored P pos

theorem writeFixedVa_eq (size : Nat) (raw : List UInt8) (s : WriterState) :
    writeFixedVa size (some raw) s =
      if s.remain < size then some (oscError, s)
      else (s.putAll raw).map fun s' => (oscOk, s') := by
  unfold writeFixedVa
  rw [Option.bind_eq_bind, Option.bind_some, writeFixed_eq_putAll]
  cases s.putAll raw <;> rfl

/-- Behind its `ADD_TYPE`, a character is tested as the call it stands for. -/
theorem writevSwitch_eq (h : StandsFor args t arg) (s : WriterState) :
    writevSwitch P demote t args s =
      if arg.Refused s.remain then some (oscError, s)
      else ((arg.copied P s.pos).bind s.putAll).map fun s' => (oscOk, s') := by
  cases h with
  | boolTrue | boolFalse | null | infinity => rfl
  | int32 hval =>
      have hswitch : writevSwitch P demote 'i'.toUInt8 args s = writeFixedVa 4
          ((vaInt args).map fun val => native P.order 4 (oscHton32 P val.toUInt32).toNat) s := rfl
      rw [hswitch, hval, Option.map_some, writeFixedVa_eq, native_oscHton32]
      rfl
  | int64 hval =>
      have hswitch : writevSwitch P demote 'h'.toUInt8 args s = writeFixedVa 8
          ((vaInt64 args).map fun val => native P.order 8 (oscHton64 P val).toNat) s := rfl
      rw [hswitch, hval, Option.map_some, writeFixedVa_eq, native_oscHton64]
      rfl
  | timetag hval =>
      have hswitch : writevSwitch P demote 't'.toUInt8 args s = writeFixedVa 8
          ((vaInt64 args).map fun val => native P.order 8 (oscHton64 P val).toNat) s := rfl
      rw [hswitch, hval, Option.map_some, writeFixedVa_eq, native_oscHton64]
      rfl
  | @str val hval =>
      have hswitch : writevSwitch P demote 's'.toUInt8 args s = (vaString args).bind fun val =>
          if sizeT s.remain < round32Size val.bytes.length then some (oscError, s)
          else (s.writeString val).bind fun s' => some (oscOk, s') := rfl
      have hcopied : ((WriteArg.str val).copied P s.pos).bind s.putAll =
          s.putAll (stringBytes s.pos val) := rfl
      rw [hswitch, hval, Option.bind_some, writeString_eq, hcopied]
      cases s.putAll (stringBytes s.pos val) <;> rfl
  | @blob sz blob hsz hblob hnonneg hle =>
      have hswitch : writevSwitch P demote 'b'.toUInt8 args s = (vaInt args).bind fun sz =>
          (vaPointer args.tail).bind fun _ =>
            if s.remain < wrap32 (4 + round32 sz.toInt) then some (oscError, s)
            else (s.writeFixed (native P.order 4 (oscHton32 P sz.toUInt32).toNat)).bind
              fun s' => some (oscOk, s') := rfl
      rw [hswitch, hsz, hblob, Option.bind_some, Option.bind_some, writeFixed_eq_putAll,
        native_oscHton32, WriteArg.copied, Int32.ofInt_toInt, Option.bind_some]
      cases s.putAll (bigEndian 4 sz.toUInt32.toNat) <;> rfl

end Switch

/-! ## The two loops -/

section Loop

variable {P demote} {t : UInt8} {typestring : List UInt8} {args : List VaArg}
variable {arg : WriteArg} {ws : List WriteArg} {s s' : WriterState}

theorem writevLoop_cons (h : StandsFor args t arg) :
    writevLoop P demote (t :: typestring) args s = (s.addType arg.tag).bind fun s₁ =>
      if arg.Refused s₁.remain then some (oscError, s₁)
      else ((arg.copied P s₁.pos).bind s₁.putAll).bind
        (writevLoop P demote typestring (args.drop (vaCount t))) := by
  rw [writevLoop, h.tag_eq]
  cases s.addType t with
  | none => rfl
  | some s₁ =>
      simp only [Option.bind_eq_bind, Option.bind_some, writevSwitch_eq h]
      split
      · rfl
      · cases (arg.copied P s₁.pos).bind s₁.putAll <;> rfl

theorem writerCalls_write (cs : List WriterCall) :
    writerCalls P (.write arg :: cs) s = (s.addType arg.tag).bind fun s₁ =>
      if arg.Refused s₁.remain then some (oscError, s₁)
      else ((arg.stored P s₁.pos).bind s₁.putAll).bind (writerCalls P cs) := by
  rw [writerCalls, writerCall, oscMsgWrite_eq]
  cases s.addType arg.tag with
  | none => rfl
  | some s₁ =>
      simp only [Option.bind_eq_bind, Option.bind_some]
      split
      · rfl
      · cases (arg.stored P s₁.pos).bind s₁.putAll <;> rfl

theorem writeArgsOf_cons (h : writeArgsOf (t :: typestring) args = some ws) :
    ∃ arg rest, StandsFor args t arg ∧
      writeArgsOf typestring (args.drop (vaCount t)) = some rest ∧ ws = arg :: rest := by
  obtain ⟨arg, harg, h⟩ := Option.bind_eq_some_iff.mp h
  obtain ⟨rest, hrest, h⟩ := Option.bind_eq_some_iff.mp h
  exact ⟨arg, rest, standsFor_of_writeArgOf harg, hrest, (Option.some.inj h).symm⟩

/-- The copy of a call stores what the call stores, if that is no blob. -/
theorem WriteArg.copied_of_empty (hempty : arg.blobLength = 0) {pos : Int}
    (hpos : pos % 4 = 0) : arg.copied P pos = arg.stored P pos := by
  cases arg with
  | blob val sz =>
      obtain rfl : sz = 0 := hempty
      have hpad : padZeros (pos + 4 + ([] : List UInt8).length) = [] :=
        padZeros_of_mod (by rw [List.length_nil]; omega)
      have hload : loadBytes val 0 (loopCount 0) = some [] := rfl
      rw [copied, stored, hload, Option.map_some, hpad, List.append_nil, List.append_nil]
  | _ => rfl

/-- The cursor stays aligned from one character to the next. -/
theorem aligned_of_stored (harg : arg.Valid) (hpos : s.pos % 4 = 0)
    (h : (arg.stored P s.pos).bind s.putAll = some s') :
    s'.pos = s.pos + arg.size ∧ s'.pos % 4 = 0 := by
  rw [WriteArg.stored_of_aligned harg hpos, Option.bind_some] at h
  have hsize := WriteArg.length_bytes (P := P) harg
  have hmod := arg.size_mod
  rw [putAll_eq_some h, filled_pos, hsize]
  omega

/-- Where all blobs are empty the loop makes the calls. -/
theorem writevLoop_eq (hargs : writeArgsOf typestring args = some ws)
    (hempty : ∀ arg ∈ ws, arg.blobLength = 0) (hpos : s.pos % 4 = 0) :
    writevLoop P demote typestring args s = writerCalls P (ws.map .write) s := by
  induction typestring generalizing args ws s with
  | nil =>
      obtain rfl := Option.some.inj hargs
      rfl
  | cons t typestring ih =>
      obtain ⟨arg, rest, hstands, hrest, rfl⟩ := writeArgsOf_cons hargs
      rw [writevLoop_cons hstands, List.map_cons, writerCalls_write]
      cases htag : s.addType arg.tag with
      | none => rfl
      | some s₁ =>
          have hpos₁ : s₁.pos % 4 = 0 := by
            rw [addType_eq_some htag, tagged_pos, hpos]
          simp only [Option.bind_some,
            WriteArg.copied_of_empty (hempty arg List.mem_cons_self) hpos₁]
          split
          · rfl
          · cases hput : (arg.stored P s₁.pos).bind s₁.putAll with
            | none => rfl
            | some s₂ =>
                obtain ⟨-, hpos₂⟩ := aligned_of_stored hstands.valid hpos₁ hput
                exact ih hrest (fun a ha => hempty a (List.mem_cons_of_mem arg ha)) hpos₂

/-- How far the loop stops short of the calls. -/
def blobBytes (ws : List WriteArg) : Nat :=
  (ws.map fun arg => roundUp arg.blobLength.toNat).sum

theorem WriteArg.exists_copied (harg : arg.Valid) {pos : Int} (hpos : pos % 4 = 0) :
    ∃ bs, arg.copied P pos = some bs ∧
      bs.length + roundUp arg.blobLength.toNat = arg.size := by
  cases arg with
  | blob val sz =>
      exact ⟨_, rfl, by rw [length_bigEndian]; rfl⟩
  | _ =>
      obtain ⟨bs, hbs, hlen⟩ := exists_stored P harg hpos
      exact ⟨bs, hbs, by simp [hlen, blobLength, roundUp]⟩

theorem pos_of_writevLoop (hargs : writeArgsOf typestring args = some ws)
    (hpos : s.pos % 4 = 0) (h : writevLoop P demote typestring args s = some (oscOk, s')) :
    s'.pos + blobBytes ws = s.pos + (ws.map WriteArg.size).sum := by
  induction typestring generalizing args ws s with
  | nil =>
      obtain rfl := Option.some.inj hargs
      obtain ⟨-, rfl⟩ := Prod.mk.inj (Option.some.inj h)
      rfl
  | cons t typestring ih =>
      obtain ⟨arg, rest, hstands, hrest, rfl⟩ := writeArgsOf_cons hargs
      rw [writevLoop_cons hstands] at h
      obtain ⟨s₁, htag, h⟩ := Option.bind_eq_some_iff.mp h
      have hpos₁ : s₁.pos = s.pos := by rw [addType_eq_some htag, tagged_pos]
      split at h
      · exact absurd (congrArg Prod.fst (Option.some.inj h)) oscError_ne_oscOk
      · obtain ⟨s₂, hput, h⟩ := Option.bind_eq_some_iff.mp h
        obtain ⟨bs, hbs, hlen⟩ := arg.exists_copied (P := P) hstands.valid
          (show s₁.pos % 4 = 0 by rw [hpos₁, hpos])
        rw [hbs, Option.bind_some] at hput
        have hpos₂ : s₂.pos = s₁.pos + bs.length := by rw [putAll_eq_some hput, filled_pos]
        have hmod := arg.size_mod
        have hround := roundUp_mod arg.blobLength.toNat
        have hloop := ih hrest (by omega) h
        simp only [blobBytes, List.map_cons, List.sum_cons] at hloop ⊢
        omega

theorem pos_of_writerCalls (hvalid : ∀ arg ∈ ws, arg.Valid) (hpos : s.pos % 4 = 0)
    (h : writerCalls P (ws.map .write) s = some (oscOk, s')) :
    s'.pos = s.pos + (ws.map WriteArg.size).sum := by
  induction ws generalizing s with
  | nil =>
      obtain ⟨-, rfl⟩ := Prod.mk.inj (Option.some.inj h)
      exact (Int.add_zero _).symm
  | cons arg ws ih =>
      rw [List.map_cons, writerCalls_write] at h
      obtain ⟨s₁, htag, h⟩ := Option.bind_eq_some_iff.mp h
      have hpos₁ : s₁.pos = s.pos := by rw [addType_eq_some htag, tagged_pos]
      split at h
      · exact absurd (congrArg Prod.fst (Option.some.inj h)) oscError_ne_oscOk
      · obtain ⟨s₂, hput, h⟩ := Option.bind_eq_some_iff.mp h
        obtain ⟨hpos₂, hmod⟩ := aligned_of_stored (hvalid arg List.mem_cons_self)
          (show s₁.pos % 4 = 0 by rw [hpos₁, hpos]) hput
        have hloop := ih (fun a ha => hvalid a (List.mem_cons_of_mem arg ha)) hmod h
        rw [List.map_cons, List.sum_cons]
        omega

theorem valid_of_writeArgsOf (hargs : writeArgsOf typestring args = some ws) :
    ∀ arg ∈ ws, arg.Valid := by
  induction typestring generalizing args ws with
  | nil =>
      obtain rfl := Option.some.inj hargs
      exact fun _ harg => absurd harg List.not_mem_nil
  | cons t typestring ih =>
      obtain ⟨arg, rest, hstands, hrest, rfl⟩ := writeArgsOf_cons hargs
      intro a ha
      rcases List.mem_cons.mp ha with rfl | ha
      · exact hstands.valid
      · exact ih hrest a ha

theorem blobBytes_eq_zero (hvalid : ∀ arg ∈ ws, arg.Valid) (h : blobBytes ws = 0) :
    ∀ arg ∈ ws, arg.blobLength = 0 := by
  intro arg harg
  have hzero : roundUp arg.blobLength.toNat = 0 :=
    List.sum_eq_zero_iff_forall_eq_nat.mp h _ (List.mem_map_of_mem harg)
  have hle := le_roundUp arg.blobLength.toNat
  have hnonneg : 0 ≤ arg.blobLength := by
    have hval := hvalid arg harg
    cases arg with
    | blob val sz => exact hval.1
    | _ => exact Int.le_refl 0
  omega

end Loop

/-! ## The whole function -/

section Whole

variable {P demote} {address typestring : CString} {args : List VaArg} {ws : List WriteArg}
variable {s s' : WriterState} {ret : Int}

/-- What opens a message leaves the cursor aligned. -/
theorem ret_of_startMsg {nargs : Int}
    (h : oscMsgWriterStartMsg address nargs s = some (ret, s')) :
    ret = oscError ∨ ret = oscOk ∧ s'.pos % 4 = 0 := by
  rcases cases_of_startMsg h with
    ⟨hret, -⟩ | ⟨hret, -⟩ | ⟨hret, -⟩ | ⟨rfl, -⟩
  · exact Or.inl hret
  · exact Or.inl hret
  · exact Or.inl hret
  · exact Or.inr ⟨rfl, (opened_of_startMsg h).pos_mod⟩

theorem ret_of_endMsg (h : oscMsgWriterEndMsg P s = some (ret, s')) :
    (ret = oscError ∨ ret = oscOk) ∧ s'.pos = s.pos := by
  rcases cases_of_endMsg h with
    ⟨hret, -, rfl⟩ | ⟨hret, -, -, mem, -, rfl⟩ | ⟨hret, -, -, rfl⟩
  · exact ⟨Or.inl hret, rfl⟩
  · exact ⟨Or.inr hret, rfl⟩
  · exact ⟨Or.inr hret, rfl⟩

theorem ret_of_writerCall {c : WriterCall} (hc : (∃ arg, c = .write arg) ∨ c = .endMsg)
    (h : writerCall P c s = some (ret, s')) : ret = oscError ∨ ret = oscOk := by
  rcases hc with ⟨arg, rfl⟩ | rfl
  · rcases cases_of_write h with ⟨hret, -⟩ | ⟨hret, -⟩
    · exact Or.inl hret
    · exact Or.inr hret
  · exact (ret_of_endMsg h).1

theorem ret_of_writerCalls {cs : List WriterCall}
    (hcs : ∀ c ∈ cs, (∃ arg, c = .write arg) ∨ c = .endMsg)
    (h : writerCalls P cs s = some (ret, s')) : ret = oscError ∨ ret = oscOk := by
  induction cs generalizing s with
  | nil => exact Or.inr (Prod.mk.inj (Option.some.inj h)).1.symm
  | cons c cs ih =>
      obtain ⟨⟨ret₁, s₁⟩, hcall, h⟩ := Option.bind_eq_some_iff.mp h
      simp only at h
      split at h
      · rw [← (Prod.mk.inj (Option.some.inj h)).1]
        exact ret_of_writerCall (hcs c List.mem_cons_self) hcall
      · exact ih (fun c' hc' => hcs c' (List.mem_cons_of_mem c hc')) h

theorem writerCalls_append (cs ds : List WriterCall) (s : WriterState) :
    writerCalls P (cs ++ ds) s = (writerCalls P cs s).bind fun (ret, s') =>
      if ret ≠ oscOk then some (ret, s') else writerCalls P ds s' := by
  induction cs generalizing s with
  | nil => rfl
  | cons c cs ih =>
      rw [List.cons_append, writerCalls, writerCalls]
      cases writerCall P c s with
      | none => rfl
      | some result =>
          obtain ⟨ret, s'⟩ := result
          simp only [Option.bind_eq_bind, Option.bind_some]
          split
          · next hret => simp only [Option.bind_some, if_pos hret]
          · exact ih s'

/-- Where all blobs are empty, the varargs writer makes the calls of the message, for any
state and whether they succeed or not. -/
theorem oscWritev_eq (hargs : writeArgsOf typestring.bytes args = some ws)
    (hempty : ∀ arg ∈ ws, arg.blobLength = 0) :
    oscWritev P demote address typestring args s =
      writerCalls P (messageCalls address typestring ws) s := by
  rw [oscWritev, messageCalls, writerCalls, writerCall]
  cases hstart : oscMsgWriterStartMsg address (wrap32 typestring.bytes.length) s with
  | none => rfl
  | some result =>
      obtain ⟨ret, s₁⟩ := result
      simp only [Option.bind_eq_bind, Option.bind_some]
      rcases ret_of_startMsg hstart with rfl | ⟨rfl, hpos⟩
      · rfl
      · rw [if_neg (not_not_intro rfl), if_neg (not_not_intro rfl), writerCalls_append,
          ← writevLoop_eq hargs hempty hpos]
        cases hloop : writevLoop P demote typestring.bytes args s₁ with
        | none => rfl
        | some result =>
            obtain ⟨ret, s₂⟩ := result
            simp only [Option.bind_some]
            rw [writevLoop_eq hargs hempty hpos] at hloop
            have hwrites : ∀ c ∈ ws.map WriterCall.write,
                (∃ arg, c = .write arg) ∨ c = .endMsg := by
              intro c hc
              obtain ⟨arg, -, rfl⟩ := List.mem_map.mp hc
              exact Or.inl ⟨arg, rfl⟩
            rcases ret_of_writerCalls hwrites hloop with rfl | rfl
            · rfl
            · rw [if_neg (not_not_intro rfl), if_neg (not_not_intro rfl), writerCalls, writerCall]
              cases hend : oscMsgWriterEndMsg P s₂ with
              | none => rfl
              | some result =>
                  obtain ⟨ret, s₃⟩ := result
                  rcases (ret_of_endMsg hend).1 with rfl | rfl <;> rfl

/-- A function that returns `OSC_OK` went on behind a call. -/
theorem ok_of_guard {error : Int} {t : WriterState} {x : Option (Int × WriterState)}
    (herror : error = oscOk → ret = oscOk)
    (h : (if ret ≠ oscOk then some (error, t) else x) = some (oscOk, s')) :
    ret = oscOk ∧ x = some (oscOk, s') := by
  split at h
  · next hne => exact absurd (herror (Prod.mk.inj (Option.some.inj h)).1) hne
  · next hok => exact ⟨not_not.mp hok, h⟩

/-- The calls of a message that all return `OSC_OK`. -/
theorem writerCalls_message
    (h : writerCalls P (messageCalls address typestring ws) s = some (oscOk, s')) :
    ∃ s₁ s₂, oscMsgWriterStartMsg address (wrap32 typestring.bytes.length) s = some (oscOk, s₁) ∧
      writerCalls P (ws.map .write) s₁ = some (oscOk, s₂) ∧
      oscMsgWriterEndMsg P s₂ = some (oscOk, s') := by
  obtain ⟨⟨_, s₁⟩, hstart, h⟩ := Option.bind_eq_some_iff.mp h
  obtain ⟨rfl, hrest⟩ := ok_of_guard id h
  rw [writerCalls_append] at hrest
  obtain ⟨⟨_, s₂⟩, hwrites, h⟩ := Option.bind_eq_some_iff.mp hrest
  obtain ⟨rfl, hlast⟩ := ok_of_guard id h
  obtain ⟨⟨_, s₃⟩, hend, h⟩ := Option.bind_eq_some_iff.mp hlast
  obtain ⟨rfl, hret⟩ := ok_of_guard id h
  obtain ⟨-, rfl⟩ := Prod.mk.inj (Option.some.inj hret)
  exact ⟨s₁, s₂, hstart, hwrites, hend⟩

/-- A run of the varargs writer that returns `OSC_OK`. -/
theorem oscWritev_message
    (h : oscWritev P demote address typestring args s = some (oscOk, s')) :
    ∃ s₁ s₂, oscMsgWriterStartMsg address (wrap32 typestring.bytes.length) s = some (oscOk, s₁) ∧
      writevLoop P demote typestring.bytes args s₁ = some (oscOk, s₂) ∧
      oscMsgWriterEndMsg P s₂ = some (oscOk, s') := by
  obtain ⟨⟨_, s₁⟩, hstart, h⟩ := Option.bind_eq_some_iff.mp h
  obtain ⟨rfl, hrest⟩ := ok_of_guard (fun herror => absurd herror oscError_ne_oscOk) h
  obtain ⟨⟨_, s₂⟩, hloop, h⟩ := Option.bind_eq_some_iff.mp hrest
  obtain ⟨rfl, hlast⟩ := ok_of_guard (fun herror => absurd herror oscError_ne_oscOk) h
  obtain ⟨⟨_, s₃⟩, hend, h⟩ := Option.bind_eq_some_iff.mp hlast
  obtain ⟨rfl, hret⟩ := ok_of_guard (fun herror => absurd herror oscError_ne_oscOk) h
  obtain ⟨-, rfl⟩ := Prod.mk.inj (Option.some.inj hret)
  exact ⟨s₁, s₂, hstart, hloop, hend⟩

/-- Where the calls of a message succeed, the varargs writer stops short by its blobs. -/
theorem pos_of_oscWritev {s₁ s₂ : WriterState}
    (hargs : writeArgsOf typestring.bytes args = some ws)
    (hwritev : oscWritev P demote address typestring args s = some (oscOk, s₁))
    (hcalls : writerCalls P (messageCalls address typestring ws) s = some (oscOk, s₂)) :
    s₁.pos + blobBytes ws = s₂.pos := by
  obtain ⟨t, t₁, hstart, hloop, hend⟩ := oscWritev_message hwritev
  obtain ⟨t', t₂, hstart', hwrites, hend'⟩ := writerCalls_message hcalls
  obtain ⟨-, rfl⟩ := Prod.mk.inj (Option.some.inj (hstart.symm.trans hstart'))
  obtain ⟨-, haligned⟩ := (ret_of_startMsg hstart).resolve_left oscError_ne_oscOk.symm
  have hpos := pos_of_writevLoop hargs haligned hloop
  have hpos' := pos_of_writerCalls (valid_of_writeArgsOf hargs) haligned hwrites
  have hlast := (ret_of_endMsg hend).2
  have hlast' := (ret_of_endMsg hend').2
  omega

/-- Where both agree on a message that fits, its blobs are empty. -/
theorem blobLength_of_agree (hargs : writeArgsOf typestring.bytes args = some ws)
    (hfits : writerCalls P (messageCalls address typestring ws) s = some (oscOk, s'))
    (h : WritersAgree P demote address typestring args ws s) :
    ∀ arg ∈ ws, arg.blobLength = 0 := by
  obtain ⟨ret, s₁, s₂, hwritev, hcalls, hpos, -, -⟩ := h
  obtain ⟨rfl, rfl⟩ := Prod.mk.inj (Option.some.inj (hcalls.symm.trans hfits))
  have hshort := pos_of_oscWritev hargs hwritev hcalls
  exact blobBytes_eq_zero (valid_of_writeArgsOf hargs) (by omega)

/-- Inside a message both writers refuse another one. -/
theorem writersAgree_of_msg (hmsg : s.state.msg) :
    WritersAgree P demote address typestring args ws s := by
  have hstart : oscMsgWriterStartMsg address (wrap32 typestring.bytes.length) s =
      some (oscError, s) := by
    rw [oscMsgWriterStartMsg, if_pos hmsg]
  refine ⟨oscError, s, s, ?_, ?_, rfl, rfl, rfl⟩
  · rw [oscWritev, hstart]
    rfl
  · rw [messageCalls, writerCalls, writerCall, hstart]
    rfl

/-- Arguments that fit behind an open message are written. -/
theorem writerCalls_of_room {slots : Nat} (h : Inside s slots) (hmsg : s.state.msg)
    (hslots : ws.length ≤ slots) (hvalid : ∀ arg ∈ ws, arg.Valid)
    (hroom : ((ws.map WriteArg.size).sum : Int) ≤ s.remain) :
    ∃ s' slots', writerCalls P (ws.map .write) s = some (oscOk, s') ∧ s'.state.msg ∧
      Inside s' slots' := by
  induction ws generalizing s slots with
  | nil => exact ⟨s, slots, rfl, hmsg, h⟩
  | cons arg ws ih =>
      rw [List.map_cons, List.sum_cons] at hroom
      rw [List.length_cons] at hslots
      have harg := hvalid arg List.mem_cons_self
      have hhas : HasRoom s slots (.write arg) :=
        ⟨Or.inl ⟨hmsg, by omega⟩, hasRoom_of_fit harg h.remain_lt (by omega)⟩
      rcases h.write_outcome P harg hhas with ⟨hshort, -⟩ | ⟨hfit, bs, hlen, hcall⟩
      · omega
      · have hmod := arg.size_mod
        have hinside := (h.tagged arg.tag).filled bs (by rw [tagged_remain, hlen]; exact hfit)
          (by omega)
        obtain ⟨s', slots', hrest, hmsg', hinside'⟩ := ih hinside hmsg (by omega)
          (fun a ha => hvalid a (List.mem_cons_of_mem arg ha))
          (by rw [filled_remain, tagged_remain, hlen]; omega)
        refine ⟨s', slots', ?_, hmsg', hinside'⟩
        rw [List.map_cons, writerCalls, writerCall, hcall]
        exact hrest

theorem length_writeArgsOf {typestring : List UInt8}
    (hargs : writeArgsOf typestring args = some ws) : ws.length = typestring.length := by
  induction typestring generalizing args ws with
  | nil =>
      obtain rfl := Option.some.inj hargs
      rfl
  | cons t typestring ih =>
      obtain ⟨arg, rest, -, hrest, rfl⟩ := writeArgsOf_cons hargs
      rw [List.length_cons, List.length_cons, ih hrest]

/-- In particular a message fits where there is room for its bytes. -/
theorem fitsBuffer_of_room {slots : Nat} (h : Inside s slots)
    (hargs : writeArgsOf typestring.bytes args = some ws)
    (hroom : s.reserve + paddedSize address.bytes.length + roundUp typestring.bytes.length +
      ((ws.map WriteArg.size).sum : Nat) ≤ s.remain) :
    FitsBuffer P address typestring ws s := by
  by_cases hmsg : s.state.msg
  · exact Or.inl hmsg
  have hlength := length_writeArgsOf hargs
  have hle := le_roundUp typestring.bytes.length
  have hlt := h.remain_lt
  have hmod := (reserve_mod s).2
  have hround := roundUp_mod typestring.bytes.length
  have hcount : wrap32 typestring.bytes.length = typestring.bytes.length :=
    wrap32_of_range (by omega) (by omega)
  have hhas : HasRoom s slots (.startMsg address typestring.bytes.length) :=
    ⟨by omega, Or.inr ⟨by omega, by omega⟩⟩
  have hfits : (paddedSize address.bytes.length : Int) +
      roundUp (typestring.bytes.length : Int).toNat ≤ s.remain - s.reserve := by
    rw [Int.toNat_natCast]
    omega
  rcases h.startMsg_outcome ⟨hmsg, Int.natCast_nonneg _, by omega⟩ hhas with
    ⟨hshort, -⟩ | ⟨-, hshort, -⟩ | ⟨-, hstart⟩
  · have hpadded := roundUp_le_paddedSize address.bytes.length
    omega
  · omega
  · have hopened := h.opened hmsg hfits
    have hremain : (s.opened address typestring.bytes.length).remain =
        s.remain - s.reserve - paddedSize address.bytes.length -
          roundUp typestring.bytes.length := by
      simp [WriterState.opened, WriterState.reserved, remain]
      omega
    obtain ⟨s₂, slots₂, hwrites, hmsg₂, hinside⟩ := writerCalls_of_room (P := P) hopened rfl
      (by rw [Int.toNat_natCast, hlength]) (valid_of_writeArgsOf hargs) (by rw [hremain]; omega)
    refine Or.inr ⟨s₂.closed P, ?_⟩
    rw [messageCalls, writerCalls, writerCall, hcount, hstart]
    simp only [Option.bind_eq_bind, Option.bind_some]
    rw [if_neg (not_not_intro rfl), writerCalls_append, hwrites]
    simp only [Option.bind_some]
    rw [if_neg (not_not_intro rfl), writerCalls, writerCall, hinside.endMsg_outcome P hmsg₂]
    rfl

end Whole

/-- A message that fits is written the same by both, exactly when all its blobs are
empty. -/
theorem writersAgree_iff (P : Platform) (demote : UInt64 → UInt32)
    (address typestring : CString) (args : List VaArg) (ws : List WriteArg) (s : WriterState)
    (hargs : writeArgsOf typestring.bytes args = some ws)
    (hfits : FitsBuffer P address typestring ws s) :
    WritersAgree P demote address typestring args ws s ↔
      s.state.msg ∨ ∀ arg ∈ ws, arg.blobLength = 0 := by
  constructor
  · intro hagree
    refine hfits.imp_right fun ⟨s', hcalls⟩ => ?_
    exact blobLength_of_agree hargs hcalls hagree
  · rintro (hmsg | hempty)
    · exact writersAgree_of_msg hmsg
    · rcases hfits with hmsg | ⟨s', hcalls⟩
      · exact writersAgree_of_msg hmsg
      · exact ⟨oscOk, s', s', (oscWritev_eq hargs hempty).trans hcalls, hcalls, rfl, rfl, rfl⟩

/-- The typestring `is`. -/
def typestringIs : CString where
  bytes := ['i'.toUInt8, 's'.toUInt8]
  noNul := by decide
  length_lt := by decide

/-- The string `/a` in its object. -/
def slashAObject : Object := ⟨slashA.bytes ++ [0], by decide⟩

theorem writersAgree_typestringIs :
    ∃ s, freshWriter zeroWriter (List.replicate 64 0) bundleLiteral = some s ∧
      WritersAgree littleHost UInt64.toUInt32 slashA typestringIs
        [.int 7, .pointer slashAObject] [.int32 7, .str slashA] s := by
  refine ⟨_, rfl, ?_⟩
  refine (writersAgree_iff littleHost UInt64.toUInt32 slashA typestringIs
    [.int 7, .pointer slashAObject] [.int32 7, .str slashA] _ rfl ?_).mpr (Or.inr ?_)
  · have hargs : writeArgsOf typestringIs.bytes [.int 7, .pointer slashAObject] =
        some [.int32 7, .str slashA] := rfl
    exact fitsBuffer_of_room
      (@inside_freshWriter zeroWriter (List.replicate 64 0) bundleLiteral _ (by decide) rfl)
      hargs (by decide)
  · decide

/-- The typestring `b`. -/
def typestringB : CString where
  bytes := ['b'.toUInt8]
  noNul := by decide
  length_lt := by decide

/-- A blob of four bytes fits, and the varargs writer ends the message without it. -/
theorem typestringB_not_writersAgree :
    ∃ s, freshWriter zeroWriter (List.replicate 64 0) bundleLiteral = some s ∧
      writeArgsOf typestringB.bytes [.int 4, .pointer ⟨[1, 2, 3, 4], by decide⟩] =
        some [.blob [1, 2, 3, 4] 4] ∧
      FitsBuffer littleHost slashA typestringB [.blob [1, 2, 3, 4] 4] s ∧
      ¬ WritersAgree littleHost UInt64.toUInt32 slashA typestringB
        [.int 4, .pointer ⟨[1, 2, 3, 4], by decide⟩] [.blob [1, 2, 3, 4] 4] s := by
  have hargs : writeArgsOf typestringB.bytes [.int 4, .pointer ⟨[1, 2, 3, 4], by decide⟩] =
      some [.blob [1, 2, 3, 4] 4] := rfl
  have hfits : FitsBuffer littleHost slashA typestringB [.blob [1, 2, 3, 4] 4]
      ⟨⟨0, 64, 0, 0, 0, OSC_WRITER_OUT⟩, List.replicate 64 0, bundleLiteral⟩ :=
    fitsBuffer_of_room
      (@inside_freshWriter zeroWriter (List.replicate 64 0) bundleLiteral _ (by decide) rfl)
      hargs (by decide)
  refine ⟨_, rfl, hargs, hfits, fun hagree => ?_⟩
  obtain ⟨s', hcalls⟩ := hfits.resolve_left Bool.false_ne_true
  have hempty := blobLength_of_agree hargs hcalls hagree
  exact absurd (hempty _ List.mem_cons_self) (by decide)

end LittleOscar
