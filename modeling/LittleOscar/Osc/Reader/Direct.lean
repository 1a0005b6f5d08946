import LittleOscar.Osc.Reader.Argument
import LittleOscar.Transition.Run

/-!
# The getters without tags

The getters may be called on a message without tags, in any order, and then do not look
at the tags at all. `CallExact` is the contract their header states for one call: it
fails if and only if the argument would reach beyond the end of the message, and
otherwise moves the argument pointer behind it.

The calls keep to it on every message but one kind. For a message that its address
fills, `osc_msg_reader_init` sets the argument pointer to `NULL`, and no getter looks
for that: each of them reads through it.
-/

namespace LittleOscar

open Machine Transition

/-- The getters for a value that lies in the message whole. -/
inductive DirectGetter where
  | int32
  | int64
  | timetag
  | float
  | double
  | str
  deriving DecidableEq, Repr

variable (P : Platform) (m : Memory)

def DirectGetter.kind : DirectGetter → ArgKind
  | .int32 => .int32
  | .int64 => .int64
  | .timetag => .timetag
  | .float => .float
  | .double => .double
  | .str => .str

/-- A call fails if and only if its argument reaches beyond the end of the message, and
otherwise moves the argument pointer behind the argument; where there are no bytes
behind the address, it fails. -/
def CallExact (reader : OscMsgReader) (getter : DirectGetter) : Prop :=
  ∃ ret reader', getter.kind.call P m reader = some (ret, reader') ∧
    match reader.argPtr with
    | none => ret = oscError
    | some p => ∃ size, getter.kind.encodedSize m p = some size ∧
        (ret = oscError ↔ reader.msgEnd < p + size) ∧
        (¬ reader.msgEnd < p + size → ret = oscOk ∧ reader'.argPtr = some (p + size))

/-- The reader after a call of the getter. -/
def directStep (reader : OscMsgReader) (getter : DirectGetter) : Option OscMsgReader :=
  (getter.kind.call P m reader).map fun (_, reader') => reader'

variable {P m} {reader : OscMsgReader} {p : Int}

theorem DirectGetter.kind_ne_blob (getter : DirectGetter) : getter.kind ≠ .blob := by
  cases getter <;> decide

theorem DirectGetter.kind_ne_empty (getter : DirectGetter) : getter.kind ≠ .empty := by
  cases getter <;> decide

/-- A reader with its argument cursor at `p`, over a message that a NUL follows. -/
structure ArgCursor (m : Memory) (reader : OscMsgReader) (p : Int) : Prop where
  argPtr : reader.argPtr = some p
  length : (m.length : Int) = reader.msgEnd + 1
  nul : loadByte m reader.msgEnd = some 0
  bound : reader.msgEnd < 2147483648
  four_le : 4 ≤ p
  le : p ≤ reader.msgEnd

namespace ArgCursor

theorem moved (h : ArgCursor m reader p) {p' : Int} (hle : p ≤ p') (hend : p' ≤ reader.msgEnd) :
    ArgCursor m { reader with argPtr := some p' } p' := by
  have hfour := h.four_le
  exact ⟨rfl, h.length, h.nul, h.bound, by omega, hend⟩

theorem retyped (h : ArgCursor m reader p) (q : Option Int) :
    ArgCursor m { reader with typePtr := q } p :=
  ⟨h.argPtr, h.length, h.nul, h.bound, h.four_le, h.le⟩

theorem readFixed_eq {α : Type} {k : Nat} {decode : Nat → α} (output : α → ArgOutput)
    (h : ArgCursor m reader p) :
    (((readFixed P m k decode reader).map fun (ret, val, reader') =>
      (ret, val.map output, reader')).map fun (ret, _, reader') => (ret, reader')) =
      some (if reader.msgEnd < p + k then (oscError, reader)
        else (oscOk, { reader with argPtr := some (p + k) })) := by
  have hfour := h.four_le
  have hlength := h.length
  by_cases hshort : reader.msgEnd < p + k
  · rw [readFixed_of_short h.argPtr (by omega), if_pos hshort]
    rfl
  · have hat := at_take (m := m) (p := p) (k := k) (by omega) (by omega)
    have hlen := length_take_drop (m := m) (p := p) (k := k) (by omega) (by omega)
    rw [readFixed_of_at h.argPtr hat hlen (by omega), if_neg hshort]
    rfl

theorem getArgStr_eq (h : ArgCursor m reader p) :
    ∃ n, strlen m p = some n ∧
      oscMsgReaderGetArgStr m reader =
        if p + paddedSize n > reader.msgEnd then some (oscError, none, reader)
        else some (oscOk, some p, { reader with argPtr := some (p + paddedSize n) }) := by
  have hfour := h.four_le
  have hbound := h.bound
  obtain ⟨n, hn, hle⟩ := exists_strlen_of_loadByte (by omega) h.le h.nul
  exact ⟨n, hn, LittleOscar.getArgStr_eq h.argPtr hn (by omega)⟩

/-- The getter of every kind but a blob compares the encoded size of its argument with
the end of the message. -/
theorem call_eq (h : ArgCursor m reader p) {kind : ArgKind} (hkind : kind ≠ .blob) :
    ∃ size, kind.encodedSize m p = some size ∧
      kind.call P m reader = some (if reader.msgEnd < p + size then (oscError, reader)
        else (oscOk, { reader with argPtr := some (p + size) })) := by
  have hle := h.le
  cases kind with
  | empty =>
      refine ⟨0, rfl, ?_⟩
      rw [if_neg (by omega), Int.natCast_zero, Int.add_zero, ← h.argPtr]
      rfl
  | int32 => exact ⟨4, rfl, h.readFixed_eq .int32⟩
  | int64 => exact ⟨8, rfl, h.readFixed_eq .int64⟩
  | timetag => exact ⟨8, rfl, h.readFixed_eq .timetag⟩
  | float => exact ⟨4, rfl, h.readFixed_eq .float⟩
  | double => exact ⟨8, rfl, h.readFixed_eq .double⟩
  | str =>
      obtain ⟨n, hn, heq⟩ := h.getArgStr_eq
      refine ⟨paddedSize n, by rw [ArgKind.encodedSize, hn]; rfl, ?_⟩
      rw [ArgKind.call, ArgKind.getter, heq]
      by_cases hpast : reader.msgEnd < p + paddedSize n
      · rw [if_pos hpast, if_pos hpast]
        rfl
      · rw [if_neg hpast, if_neg hpast]
        rfl
  | blob => exact absurd rfl hkind

theorem callExact (h : ArgCursor m reader p) (getter : DirectGetter) :
    CallExact P m reader getter := by
  obtain ⟨size, hsize, heq⟩ := h.call_eq (P := P) getter.kind_ne_blob
  rw [CallExact, heq, h.argPtr]
  by_cases hpast : reader.msgEnd < p + size
  · rw [if_pos hpast]
    exact ⟨_, _, rfl, size, hsize, ⟨fun _ => hpast, fun _ => rfl⟩,
      fun hnot => absurd hpast hnot⟩
  · rw [if_neg hpast]
    exact ⟨_, _, rfl, size, hsize,
      ⟨fun hok => absurd hok.symm oscError_ne_oscOk, fun hlt => absurd hlt hpast⟩,
      fun _ => ⟨rfl, rfl⟩⟩

theorem step (h : ArgCursor m reader p) {getter : DirectGetter} {reader' : OscMsgReader}
    (hstep : directStep P m reader getter = some reader') : ∃ p', ArgCursor m reader' p' := by
  obtain ⟨size, hsize, heq⟩ := h.call_eq (P := P) getter.kind_ne_blob
  rw [directStep, heq, Option.map_some] at hstep
  by_cases hpast : reader.msgEnd < p + size
  · rw [if_pos hpast] at hstep
    obtain rfl := Option.some.inj hstep
    exact ⟨p, h⟩
  · rw [if_neg hpast] at hstep
    obtain rfl := Option.some.inj hstep
    exact ⟨p + size, h.moved (by omega) (by omega)⟩

end ArgCursor

/-- Every getter reads through the argument pointer, `NULL` or not. -/
theorem ArgKind.call_of_null (h : reader.argPtr = none) {kind : ArgKind} (hkind : kind ≠ .empty) :
    kind.call P m reader = none := by
  have hfixed : ∀ {α : Type} (k : Nat) (decode : Nat → α),
      readFixed P m k decode reader = none := by
    intro α k decode
    rw [readFixed, h]
    rfl
  cases kind with
  | empty => exact absurd rfl hkind
  | int32 => simp only [call, getter, oscMsgReaderGetArgInt32, hfixed, Option.map_none]
  | int64 => simp only [call, getter, oscMsgReaderGetArgInt64, hfixed, Option.map_none]
  | timetag => simp only [call, getter, oscMsgReaderGetArgTimetag, hfixed, Option.map_none]
  | float => simp only [call, getter, oscMsgReaderGetArgFloat, hfixed, Option.map_none]
  | double => simp only [call, getter, oscMsgReaderGetArgDouble, hfixed, Option.map_none]
  | str =>
      rw [call, getter, oscMsgReaderGetArgStr, h]
      rfl
  | blob =>
      rw [call, getter, oscMsgReaderGetArgBlob, oscMsgReaderGetArgInt32, hfixed]
      rfl

/-- A cursor behind the address of a packet that a NUL follows. -/
theorem argCursor_behind {buffer : Memory} {n : Nat} {a p : Int} {q : Option Int}
    (hlen : buffer.length < 2147483648) (hn : strlen (buffer ++ [0]) 0 = some n)
    (ha : wrap32 (round32Size (n + 1)) = a) (hnonneg : 0 ≤ a) (hle : 0 + a ≤ p)
    (hend : p ≤ buffer.length) :
    ArgCursor (buffer ++ [0]) ⟨0, 0 + buffer.length, q, some p⟩ p := by
  have hlength : ((buffer ++ [0] : Memory).length : Int) = buffer.length + 1 := by simp
  have hnul : loadByte (buffer ++ [0]) (0 + buffer.length) = some 0 := by
    rw [Int.zero_add, loadByte_natCast, List.getElem?_concat_length]
  obtain ⟨-, hnlt, -⟩ := strlen_eq_some hn
  have haddress := addressSize_of_nonneg (by omega) hnonneg ha
  have hfour := four_le_paddedSize n
  exact ⟨rfl, by simp only; omega, hnul, by simp only; omega, by omega, by simp only; omega⟩

/-- The argument cursor that `osc_msg_reader_init` leaves on a packet that a NUL
follows. -/
theorem argCursor_of_init {buffer : Memory} {reader₀ : OscMsgReader}
    (hlen : buffer.length < 2147483648)
    (hinit : oscMsgReaderInit (buffer ++ [0]) reader₀ 0 buffer.length = some (oscOk, reader)) :
    reader.argPtr = none ∨ ∃ p, ArgCursor (buffer ++ [0]) reader p := by
  cases accepted_of_init hinit with
  | address hn hfills => exact Or.inl rfl
  | untyped hn ha hlt hb hne =>
      obtain ⟨hnonneg, -⟩ := loadByte_eq_some hb
      exact Or.inr ⟨_, argCursor_behind hlen hn ha (by omega) (by omega) (by omega)⟩
  | typed hn ha hlt hb hk hle =>
      obtain ⟨hnonneg, -⟩ := loadByte_eq_some hb
      exact Or.inr ⟨_, argCursor_behind hlen hn ha (by omega) (by omega) (by omega)⟩

/-- On every message that is accepted, the calls of every run keep to their contract,
exactly if there are none or the address does not fill the message. -/
theorem along_callExact_iff (P : Platform) (buffer : Memory) (reader₀ reader : OscMsgReader)
    (calls : List DirectGetter) (hlen : buffer.length < 2147483648)
    (hinit : oscMsgReaderInit (buffer ++ [0]) reader₀ 0 buffer.length = some (oscOk, reader)) :
    Along (directStep P (buffer ++ [0])) (CallExact P (buffer ++ [0])) reader calls ↔
      calls = [] ∨ reader.argPtr ≠ none := by
  rcases argCursor_of_init hlen hinit with hnull | ⟨p, hcur⟩
  · constructor
    · intro hexact
      cases calls with
      | nil => exact Or.inl rfl
      | cons getter calls =>
          obtain ⟨ret, reader', hcall, -⟩ := hexact.1
          rw [ArgKind.call_of_null hnull getter.kind_ne_empty] at hcall
          cases hcall
    · rintro (rfl | hptr)
      · exact along_nil reader
      · exact absurd hnull hptr
  · refine ⟨fun _ => Or.inr (by rw [hcur.argPtr]; exact Option.some_ne_none p), fun _ => ?_⟩
    refine along_of_invariant (G := fun _ _ => True)
      (fun r => ∃ p, ArgCursor (buffer ++ [0]) r p) ?_ ?_ ⟨p, hcur⟩
      (along_of_forall (fun _ _ => trivial) _ _)
    · rintro r getter ⟨p, hr⟩ -
      exact hr.callExact getter
    · rintro r getter r' ⟨p, hr⟩ - hstep
      exact hr.step hstep

theorem along_callExact_untyped :
    ∃ reader, oscMsgReaderInit ([47, 97, 0, 0, 0, 0, 0, 7] ++ [0]) ⟨0, 0, none, none⟩ 0 8 =
        some (oscOk, reader) ∧
      Along (directStep littleHost ([47, 97, 0, 0, 0, 0, 0, 7] ++ [0]))
        (CallExact littleHost ([47, 97, 0, 0, 0, 0, 0, 7] ++ [0])) reader
        [.int64, .int32, .str] := by
  refine ⟨_, rfl, ?_⟩
  exact (along_callExact_iff littleHost [47, 97, 0, 0, 0, 0, 0, 7] ⟨0, 0, none, none⟩
    ⟨0, 8, none, some 4⟩ _ (by decide) rfl).mpr (Or.inr (by decide))

/-- The message `/a` without any bytes behind its address. -/
def addressMessage : Memory := [47, 97, 0, 0]

/-- The first getter called on it reads through `NULL`. -/
theorem addressMessage_not_callExact :
    ∃ reader, oscMsgReaderInit (addressMessage ++ [0]) ⟨0, 0, none, none⟩ 0
        addressMessage.length = some (oscOk, reader) ∧
      ¬ Along (directStep littleHost (addressMessage ++ [0]))
        (CallExact littleHost (addressMessage ++ [0])) reader [.int32] := by
  refine ⟨⟨0, 4, none, none⟩, rfl, ?_⟩
  rintro ⟨⟨ret, reader', hcall, -⟩, -⟩
  cases hcall

end LittleOscar
