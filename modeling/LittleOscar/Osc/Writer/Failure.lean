import LittleOscar.Osc.Writer.Call
import LittleOscar.Transition.Run

/-!
# What a failed call leaves behind

A call that returns `OSC_ERROR` should leave the writer as it was, so that the
caller can go on with something smaller. `AtomicFailure s c` is the exact
condition on the state and the call under which it does: the two calls that open
and close a bundle and `osc_msg_writer_end_msg` test before they touch anything;
`osc_msg_writer_start_msg` records the start of the message, and in a bundle moves
the cursor, before it tests the room; and every `osc_msg_write_*` has added its tag
by then.
-/

namespace LittleOscar

open Machine Transition WriterState

/-- The fields of the writer that a later call reads, and all bytes, are the same. -/
structure SameWriter (s s' : WriterState) : Prop where
  pos : s'.pos = s.pos
  typePos : s'.typePos = s.typePos
  msgStart : s'.msgStart = s.msgStart
  state : s'.state = s.state
  mem : s'.mem = s.mem

theorem SameWriter.refl (s : WriterState) : SameWriter s s :=
  ⟨rfl, rfl, rfl, rfl, rfl⟩

/-- The failures of a call that leave the writer as it was. -/
def AtomicFailure (s : WriterState) : WriterCall → Prop
  | .startMsg address _ =>
      s.state.msg ∨ (s.state ≠ OSC_WRITER_BUNDLE ∧ s.msgStart = s.pos ∧
        sizeT s.remain < round32Size address.bytes.length)
  | .write _ => False
  | .startBundle _ | .endMsg | .endBundle => True

variable (P : Platform)

/-- Whatever it returns, an `osc_msg_write_*` has moved the tag cursor. -/
theorem typePos_of_oscMsgWrite {arg : WriteArg} {s s' : WriterState} {ret : Int}
    (h : oscMsgWrite P arg s = some (ret, s')) : s'.typePos = s.typePos + 1 := by
  rcases cases_of_write h with ⟨-, -, rfl⟩ | ⟨-, -, bs, -, hput⟩
  · rfl
  · rw [putAll_eq_some hput]
    rfl

theorem startBundle_error {timetag : UInt64} {s s' : WriterState}
    (h : oscMsgWriterStartBundle P timetag s = some (oscError, s')) : s' = s := by
  rcases cases_of_startBundle h with ⟨-, hs'⟩ | ⟨hret, -⟩
  · exact hs'
  · exact absurd hret oscError_ne_oscOk

theorem endMsg_error {s s' : WriterState}
    (h : oscMsgWriterEndMsg P s = some (oscError, s')) : s' = s := by
  rcases cases_of_endMsg h with ⟨-, -, hs'⟩ | ⟨hret, -⟩ | ⟨hret, -⟩
  · exact hs'
  · exact absurd hret oscError_ne_oscOk
  · exact absurd hret oscError_ne_oscOk

/-- The three ways in which `osc_msg_writer_start_msg` fails. -/
theorem startMsg_error {address : CString} {nargs : Int} {s s' : WriterState}
    (h : oscMsgWriterStartMsg address nargs s = some (oscError, s')) :
    (s.state.msg ∧ s' = s) ∨
      (¬ s.state.msg ∧ sizeT s.reserved.remain < round32Size address.bytes.length ∧
        s' = s.reserved) ∨
      (¬ s.state.msg ∧ ¬ sizeT s.reserved.remain < round32Size address.bytes.length ∧
        s' = s.reserved.filled (stringBytes s.reserved.pos address)) := by
  rcases cases_of_startMsg h with
    ⟨-, hmsg, hs'⟩ | ⟨-, hmsg, hroom, hs'⟩ | ⟨-, hmsg, hroom, hput⟩ | ⟨hret, -⟩
  · exact Or.inl ⟨hmsg, hs'⟩
  · exact Or.inr (Or.inl ⟨hmsg, hroom, hs'⟩)
  · exact Or.inr (Or.inr ⟨hmsg, hroom, putAll_eq_some hput⟩)
  · exact absurd hret oscError_ne_oscOk

theorem reserved_of_ne {s : WriterState} (h : s.state ≠ OSC_WRITER_BUNDLE) :
    s.reserved = { s with msgStart := s.pos } := by
  simp [reserved, reserve, h]

theorem startMsg_error_iff {address : CString} {nargs : Int} {s s' : WriterState}
    (h : oscMsgWriterStartMsg address nargs s = some (oscError, s')) :
    SameWriter s s' ↔ AtomicFailure s (.startMsg address nargs) := by
  rcases startMsg_error h with ⟨hmsg, rfl⟩ | ⟨hmsg, hroom, rfl⟩ | ⟨hmsg, hroom, rfl⟩
  · exact ⟨fun _ => Or.inl hmsg, fun _ => SameWriter.refl s'⟩
  · constructor
    · intro hsame
      have hstate : s.state ≠ OSC_WRITER_BUNDLE := by
        intro hbundle
        have hpos := hsame.pos
        simp only [reserved, reserve, hbundle, if_true] at hpos
        omega
      rw [reserved_of_ne hstate] at hroom
      have hstart := hsame.msgStart
      rw [reserved_of_ne hstate] at hstart
      exact Or.inr ⟨hstate, hstart.symm, hroom⟩
    · rintro (habs | ⟨hstate, hstart, -⟩)
      · exact absurd habs hmsg
      · rw [reserved_of_ne hstate]
        exact ⟨rfl, rfl, hstart.symm, rfl, rfl⟩
  · constructor
    · intro hsame
      have hpos := hsame.pos
      have hlen : 0 < (stringBytes s.reserved.pos address).length :=
        List.length_pos_of_ne_nil (stringBytes_ne_nil _ _)
      have hreserve : 0 ≤ s.reserve := by
        unfold reserve
        split <;> omega
      simp only [filled_pos, reserved] at hpos hlen
      omega
    · rintro (habs | ⟨hstate, -, hroom'⟩)
      · exact absurd habs hmsg
      · rw [reserved_of_ne hstate] at hroom
        exact absurd hroom' hroom

/-- A call that returns `OSC_ERROR` leaves the writer and its bytes as they were
exactly in the cases of `AtomicFailure`. -/
theorem writerCall_error_sameWriter_iff {s s' : WriterState} {c : WriterCall}
    (h : writerCall P c s = some (oscError, s')) :
    SameWriter s s' ↔ AtomicFailure s c := by
  cases c with
  | startBundle timetag =>
      rw [startBundle_error P h]
      exact ⟨fun _ => trivial, fun _ => SameWriter.refl s⟩
  | startMsg address nargs => exact startMsg_error_iff h
  | write arg =>
      have htype := typePos_of_oscMsgWrite P h
      constructor
      · intro hsame
        have hsameType := hsame.typePos
        omega
      · exact False.elim
  | endMsg =>
      rw [endMsg_error P h]
      exact ⟨fun _ => trivial, fun _ => SameWriter.refl s⟩
  | endBundle =>
      exact absurd (congrArg Prod.fst (Option.some.inj h)).symm oscError_ne_oscOk

/-- A bundle that is refused for want of room leaves the writer as it was. -/
theorem startBundle_short_sameWriter :
    ∃ s s' : WriterState,
      freshWriter zeroWriter (List.replicate 8 0) bundleLiteral = some s ∧
        writerCall littleHost (.startBundle 1) s = some (oscError, s') ∧ SameWriter s s' :=
  ⟨_, _, rfl, rfl,
    (writerCall_error_sameWriter_iff littleHost (c := .startBundle 1) rfl).mpr trivial⟩

/-- A message of one argument that has no room for its value: the failed call has
added the tag all the same. -/
theorem writeInt32_short_not_sameWriter :
    ∃ s₀ s s' : WriterState,
      freshWriter zeroWriter (List.replicate 8 0) bundleLiteral = some s₀ ∧
        run (writerStep littleHost) s₀ [.startMsg slashA 1] = some s ∧
        writerCall littleHost (.write (.int32 7)) s = some (oscError, s') ∧
        ¬ SameWriter s s' := by
  refine ⟨_, _, _, rfl, rfl, rfl, ?_⟩
  intro h
  exact absurd h.typePos (by decide)

end LittleOscar
