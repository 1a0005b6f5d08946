import LittleOscar.Osc.Writer.Message

/-!
# What the writer lays out for a bundle

A bundle is its header and a frame for every message: the length of the message as
the host stores it, then the message. `writeMessages_eq` says that in a buffer with
room for the frames the calls of the messages all return `OSC_OK` and put the frames
one behind the other, and it names the range of every message. `writeBundle_eq` adds
the header, which the writer takes from the string that `k_bundle` points to.
-/

namespace LittleOscar

open Machine Transition WriterState

variable (P : Platform)

/-- A message behind its length field. -/
def OscMessage.frame (msg : OscMessage) : List UInt8 :=
  native P.order 4 (msg.bytes P).length ++ msg.bytes P

def frames (msgs : List OscMessage) : List UInt8 := (msgs.map (OscMessage.frame P)).flatten

/-- The ranges of the messages whose frames lie from `p` on. -/
def ranges (p : Int) : List OscMessage → List (Int × Int)
  | [] => []
  | msg :: msgs =>
      (p + 4, p + (msg.frame P).length) :: ranges (p + (msg.frame P).length) msgs

/-- The header that the writer stores where `k_bundle` points to `kBundle`. -/
def bundleHeader (kBundle : CString) (timetag : UInt64) : List UInt8 :=
  padString kBundle.bytes ++ bigEndian 8 timetag.toNat

/-- The calls of the messages, all of which return `OSC_OK`, with `msg_start` and `pos`
after each message. -/
def writeMessages : WriterState → List OscMessage → Option (List (Int × Int) × WriterState)
  | s, [] => some ([], s)
  | s, msg :: msgs => do
      let s ← run (okStep P) s msg.calls
      let (rest, s') ← writeMessages s msgs
      some ((s.msgStart, s.pos) :: rest, s')

/-- The calls of a bundle, all of which return `OSC_OK`. -/
def writeBundle (timetag : UInt64) (msgs : List OscMessage) (s : WriterState) :
    Option (List (Int × Int) × WriterState) := do
  let s ← okStep P s (.startBundle timetag)
  let (written, s) ← writeMessages P s msgs
  let s ← okStep P s .endBundle
  some (written, s)

variable {P} {s : WriterState} {slots : Nat}

/-! ## Enough room is enough -/

namespace Inside

theorem ready (h : Inside s slots) : Ready s := by
  have hlen := h.len
  have hbound := h.bound
  exact ⟨h.data, h.nonneg, h.aligned, by omega⟩

theorem okStep {c : WriterCall} (h : Inside s slots) (hlegal : LegalCall s c)
    (hroom : HasRoom s slots c) (hfit : emitted s c ≤ s.remain) :
    ∃ s', okStep P s c = some s' ∧ Inside s' (slotsAfter slots oscOk c) := by
  obtain ⟨ret, s', heq, hinside, hret⟩ := h.step P hlegal hroom
  rw [hret.mpr hfit] at heq hinside
  exact ⟨s', okStep_eq_some.mpr heq, hinside⟩

theorem exists_writes {args : List WriteArg} (h : Inside s slots) (hmsg : s.state.msg)
    (hlen : args.length ≤ slots) (hvalid : ∀ arg ∈ args, arg.Valid)
    (hfit : ((argBytes P args).length : Int) ≤ s.remain) :
    ∃ s' slots', run (LittleOscar.okStep P) s (args.map .write) = some s' ∧
      Inside s' slots' ∧ s'.state.msg := by
  induction args generalizing s slots with
  | nil => exact ⟨s, slots, rfl, h, hmsg⟩
  | cons arg args ih =>
      have harg := hvalid arg List.mem_cons_self
      have hsize := WriteArg.length_bytes (P := P) harg
      have hcons : argBytes P (arg :: args) = arg.bytes P ++ argBytes P args := rfl
      rw [hcons, List.length_append] at hfit
      rw [List.length_cons] at hlen
      obtain ⟨s₁, hstep, h₁⟩ := h.okStep (P := P) (c := .write arg) harg
        ⟨Or.inl ⟨hmsg, by omega⟩, hasRoom_of_fit harg h.remain_lt (by omega)⟩
        (by simp only [emitted]; omega)
      have hs₁ := okStep_write harg h.aligned hstep
      have hremain : s₁.remain = s.remain - arg.size := by
        rw [hs₁, filled_remain, tagged_remain, hsize]
      have hstate : s₁.state = s.state := by
        rw [hs₁]
        rfl
      obtain ⟨s', slots', hrest, h', hmsg'⟩ := ih h₁ (by rw [hstate]; exact hmsg)
        (by simp only [slotsAfter]; omega) (fun a ha => hvalid a (List.mem_cons_of_mem arg ha))
        (by omega)
      exact ⟨s', slots', run_cons_eq_some.mpr ⟨s₁, hstep, hrest⟩, h', hmsg'⟩

theorem exists_message (h : Inside s slots) (msg : OscMessage)
    (hstate : s.state = OSC_WRITER_BUNDLE) (hfit : ((msg.frame P).length : Int) ≤ s.remain) :
    ∃ s' slots', run (LittleOscar.okStep P) s msg.calls = some s' ∧ Inside s' slots' := by
  have hargs := msg.length_le
  have hle := le_roundUp msg.nargs.toNat
  have hlt := h.remain_lt
  have hreserve : s.reserve = 4 := by
    rw [reserve, if_pos hstate]
  have hmsg : ¬ s.state.msg := by
    rw [hstate]
    exact Bool.false_ne_true
  rw [OscMessage.frame, OscMessage.bytes] at hfit
  simp only [List.length_append, length_native, length_padString,
    OscMessage.length_tagArea] at hfit
  obtain ⟨s₁, hstart, h₁⟩ := h.okStep (P := P) (c := .startMsg msg.address msg.nargs)
    ⟨hmsg, by omega, msg.nargs_lt⟩ ⟨by omega, Or.inr ⟨by omega, by omega⟩⟩
    (by simp only [emitted]; omega)
  obtain ⟨-, hs₁⟩ := okStep_startMsg h.ready (by omega) msg.nargs_lt hstart
  have hopened : s₁.state.msg := by
    rw [hs₁]
    rfl
  have hremain : s₁.remain = s.remain - 4 - paddedSize msg.address.bytes.length -
      roundUp msg.nargs.toNat := by
    rw [hs₁]
    simp only [WriterState.opened, WriterState.reserved, WriterState.remain, filled_pos,
      filled_len, length_padString, List.length_replicate]
    omega
  obtain ⟨s₂, slots₂, hwrites, h₂, hmsg₂⟩ := h₁.exists_writes (P := P) hopened
    (by simp only [slotsAfter, if_true]; omega) msg.valid (by omega)
  obtain ⟨s', hend, h'⟩ := h₂.okStep (P := P) (c := .endMsg) trivial hmsg₂ h₂.remain_nonneg
  refine ⟨s', _, ?_, h'⟩
  rw [OscMessage.calls, run_cons, hstart, Option.bind_some, run_append, hwrites,
    Option.bind_some, run_cons, hend]
  rfl

end Inside

/-! ## The layout -/

/-- With room for the frames, the calls of the messages lay them out. -/
theorem writeMessages_eq (msgs : List OscMessage) (h : Inside s slots)
    (hstate : s.state = OSC_WRITER_BUNDLE)
    (hfit : ((frames P msgs).length : Int) ≤ s.remain) :
    ∃ s' slots', writeMessages P s msgs = some (ranges P s.pos msgs, s') ∧
      Inside s' slots' ∧ Wrote s s' (frames P msgs) := by
  induction msgs generalizing s slots with
  | nil =>
      refine ⟨s, slots, rfl, h, ⟨rfl, rfl, ?_, ?_, rfl⟩⟩
      · exact (overwrite_nil s.mem s.pos.toNat).symm
      · exact (Int.add_zero s.pos).symm
  | cons msg msgs ih =>
      have hcons : frames P (msg :: msgs) = msg.frame P ++ frames P msgs := rfl
      have hlen := h.len
      have hle := h.le
      rw [hcons, List.length_append] at hfit
      obtain ⟨s₁, slots₁, hrun, h₁⟩ := h.exists_message (P := P) msg hstate (by omega)
      obtain ⟨hwrote, hstart, hstate₁⟩ := OscMessage.run_inBundle h.ready hstate hrun
      have hpos : s₁.pos = s.pos + (msg.frame P).length := hwrote.pos
      have hremain : s₁.remain = s.remain - (msg.frame P).length := by
        have hlen₁ : s₁.len = s.len := hwrote.len
        unfold remain
        omega
      obtain ⟨s', slots', hrest, h', hwrote'⟩ := ih h₁ hstate₁ (by omega)
      refine ⟨s', slots', ?_, h', ?_⟩
      · rw [writeMessages, hrun, Option.bind_eq_bind, Option.bind_some, hrest,
          Option.bind_eq_bind, Option.bind_some, hstart, hpos, ranges]
      · rw [hcons]
        exact hwrote.trans hwrote' h.nonneg (by omega)

theorem wrote_bundleOpened (h : Inside s slots) (timetag : UInt64)
    (hfit : ((bundleHeader s.kBundle timetag).length : Int) ≤ s.remain) :
    Wrote s (s.bundleOpened timetag) (bundleHeader s.kBundle timetag) := by
  have hdata := h.data
  have hnonneg := h.nonneg
  have hlen := h.len
  have hremain : s.remain = s.len - s.pos := rfl
  rw [bundleHeader, List.length_append] at hfit
  have hindex : (s.data + s.pos).toNat = s.pos.toNat := by
    rw [hdata, Int.zero_add]
  have hnext : (s.data + (s.pos + (padString s.kBundle.bytes).length)).toNat =
      s.pos.toNat + (padString s.kBundle.bytes).length := by
    omega
  have hmem : (s.bundleOpened timetag).mem =
      overwrite s.mem s.pos.toNat (bundleHeader s.kBundle timetag) := by
    have hstores : (s.bundleOpened timetag).mem =
        overwrite (overwrite s.mem (s.data + s.pos).toNat (padString s.kBundle.bytes))
          (s.data + (s.pos + (padString s.kBundle.bytes).length)).toNat
          (bigEndian 8 timetag.toNat) := rfl
    rw [hstores, hindex, hnext, overwrite_append (by omega), bundleHeader]
  refine ⟨rfl, rfl, hmem, ?_, ?_⟩
  · have hpos : (s.bundleOpened timetag).pos =
        s.pos + (padString s.kBundle.bytes).length + (bigEndian 8 timetag.toNat).length := rfl
    rw [hpos, bundleHeader, List.length_append]
    omega
  · rw [hmem]
    exact length_overwrite (by rw [bundleHeader, List.length_append]; omega)

/-- With room for the header and the frames, the calls of a bundle lay them out in a
fresh buffer, and name the range of every message. -/
theorem writeBundle_eq (timetag : UInt64) (msgs : List OscMessage) (h : Inside s slots)
    (hstate : s.state = OSC_WRITER_OUT) (hpos : s.pos = 0)
    (hfit : ((bundleHeader s.kBundle timetag ++ frames P msgs).length : Int) ≤ s.len) :
    ∃ s', writeBundle P timetag msgs s =
        some (ranges P (bundleHeader s.kBundle timetag).length msgs, s') ∧
      s'.mem.take s'.pos.toNat = bundleHeader s.kBundle timetag ++ frames P msgs ∧
      s'.pos = (bundleHeader s.kBundle timetag ++ frames P msgs).length := by
  have hlen := h.len
  have hremain : s.remain = s.len := by
    rw [remain, hpos, Int.sub_zero]
  rw [List.length_append] at hfit
  have hheader : ((bundleHeader s.kBundle timetag).length : Int) =
      paddedSize s.kBundle.bytes.length + 8 := by
    rw [bundleHeader, List.length_append, length_padString, length_bigEndian]
    rfl
  obtain ⟨s₁, hstart, h₁⟩ := h.okStep (P := P) (c := .startBundle timetag) hstate
    (Or.inr (by omega)) (by simp only [emitted]; omega)
  obtain rfl : s₁ = s.bundleOpened timetag := by
    rcases h.startBundle_outcome (P := P) timetag hstate (Or.inr (by omega)) with
      ⟨hshort, -⟩ | ⟨-, heq⟩
    · have hfour := four_le_paddedSize s.kBundle.bytes.length
      omega
    · exact (Prod.mk.inj (Option.some.inj ((okStep_eq_some.mp hstart).symm.trans heq))).2
  have hwrote := wrote_bundleOpened h timetag (by omega)
  have hpos₁ : (s.bundleOpened timetag).pos = (bundleHeader s.kBundle timetag).length := by
    rw [hwrote.pos, hpos, Int.zero_add]
  have hremain₁ : (s.bundleOpened timetag).remain =
      s.len - (bundleHeader s.kBundle timetag).length := by
    rw [remain, hpos₁]
    rfl
  obtain ⟨s₂, slots₂, hmessages, h₂, hwrote₂⟩ :=
    writeMessages_eq (P := P) msgs h₁ rfl (by omega)
  have hall := hwrote.trans hwrote₂ h.nonneg (by omega)
  refine ⟨{ s₂ with state := OSC_WRITER_COMPLETE }, ?_, ?_, ?_⟩
  · rw [writeBundle, hstart, Option.bind_eq_bind, Option.bind_some, hmessages, hpos₁]
    rfl
  · exact hall.take_eq hpos
  · have hend : s₂.pos = s.pos +
        (bundleHeader s.kBundle timetag ++ frames P msgs).length := hall.pos
    rw [hpos, Int.zero_add] at hend
    exact hend

end LittleOscar
