import LittleOscar.Osc.Writer.Capacity
import Mathlib.Computability.Language
import Mathlib.Order.CompletePartialOrder

/-!
# The order of the calls

A writer is meant for one message or for one bundle of messages, so the accepted
calls of a run should be the beginning of a word of `messageOrder` or `bundleOrder`.
`Phase` is the deterministic automaton of these beginnings, and the `state` bits that
a run in a legal order can reach are the images of its five phases.

The functions of `write.c` do not follow the automaton everywhere. `osc_msg_write_*`
and `osc_msg_writer_end_bundle` do not look at the state, and
`osc_msg_writer_start_msg` only looks for an open message, so that it reopens a writer
that is complete. `TestsState` leaves out exactly the calls where this matters.
-/

namespace LittleOscar

open Machine Transition WriterState Computability

/-! ## Legal orders -/

/-- The kinds of calls, which is all that an order is about. -/
inductive CallKind where
  | startBundle
  | startMsg
  | write
  | endMsg
  | endBundle
  deriving DecidableEq, Repr

def WriterCall.kind : WriterCall → CallKind
  | .startBundle _ => .startBundle
  | .startMsg _ _ => .startMsg
  | .write _ => .write
  | .endMsg => .endMsg
  | .endBundle => .endBundle

/-- `start_msg write* end_msg`. -/
def messageOrder : Language CallKind := {[.startMsg]} * {[.write]}∗ * {[.endMsg]}

/-- `start_bundle (start_msg write* end_msg)* end_bundle`. -/
def bundleOrder : Language CallKind := {[.startBundle]} * messageOrder∗ * {[.endBundle]}

/-- The calls are the beginning of a legal order. -/
def LegalOrder (ks : List CallKind) : Prop :=
  ∃ word ∈ messageOrder + bundleOrder, ks <+: word

/-- Where a legal order stands. -/
inductive Phase where
  | fresh
  | message
  | complete
  | bundle
  | bundleMessage
  deriving DecidableEq, Repr

namespace Phase

def next : Phase → CallKind → Option Phase
  | .fresh, .startMsg => some .message
  | .fresh, .startBundle => some .bundle
  | .message, .write => some .message
  | .message, .endMsg => some .complete
  | .bundle, .startMsg => some .bundleMessage
  | .bundle, .endBundle => some .complete
  | .bundleMessage, .write => some .bundleMessage
  | .bundleMessage, .endMsg => some .bundle
  | _, _ => none

/-- The orders that lead to a phase. -/
def history : Phase → Language CallKind
  | .fresh => 1
  | .message => {[.startMsg]} * {[.write]}∗
  | .complete => messageOrder + bundleOrder
  | .bundle => {[.startBundle]} * messageOrder∗
  | .bundleMessage => {[.startBundle]} * messageOrder∗ * ({[.startMsg]} * {[.write]}∗)

/-- A way to complete the order. -/
def completion : Phase → List CallKind
  | .fresh => [.startMsg, .endMsg]
  | .message => [.endMsg]
  | .complete => []
  | .bundle => [.endBundle]
  | .bundleMessage => [.endMsg, .endBundle]

/-- One call takes the orders of a phase to those of the next. -/
theorem history_mul_le {phase phase' : Phase} {k : CallKind}
    (h : phase.next k = some phase') : phase.history * {[k]} ≤ phase'.history := by
  cases phase <;> cases k <;> cases h
  case fresh.startBundle =>
      exact (one_mul _).trans_le (le_mul_of_one_le_right' one_le_kstar)
  case fresh.startMsg =>
      exact (one_mul _).trans_le (le_mul_of_one_le_right' one_le_kstar)
  case message.write =>
      rw [history, mul_assoc]
      exact mul_le_mul_right kstar_mul_le_kstar _
  case message.endMsg => exact le_self_add
  case bundle.startMsg =>
      exact mul_le_mul_right (le_mul_of_one_le_right' one_le_kstar) _
  case bundle.endBundle => exact le_add_self
  case bundleMessage.write =>
      rw [history, mul_assoc, mul_assoc {[CallKind.startMsg]}]
      exact mul_le_mul_right (mul_le_mul_right kstar_mul_le_kstar _) _
  case bundleMessage.endMsg =>
      have hregroup : bundleMessage.history * {[CallKind.endMsg]} =
          {[CallKind.startBundle]} * (messageOrder∗ * messageOrder) := by
        simp only [history, messageOrder, mul_assoc]
      rw [hregroup]
      exact mul_le_mul_right kstar_mul_le_kstar _

theorem append_mem_history {ks : List CallKind} {k : CallKind} {phase phase' : Phase}
    (h : ks ∈ phase.history) (hnext : phase.next k = some phase') :
    ks ++ [k] ∈ phase'.history :=
  history_mul_le hnext (Language.append_mem_mul h rfl)

theorem mem_history {ks : List CallKind} {phase : Phase}
    (h : run next .fresh ks = some phase) : ks ∈ phase.history := by
  induction ks using List.reverseRecOn generalizing phase with
  | nil =>
      cases h
      exact Language.nil_mem_one
  | append_singleton ks k ih =>
      rw [run_append] at h
      obtain ⟨phase', hks, hk⟩ := Option.bind_eq_some_iff.mp h
      obtain ⟨phase'', hnext, hnil⟩ := run_cons_eq_some.mp hk
      cases hnil
      exact append_mem_history (ih hks) hnext

theorem append_completion_mem {ks : List CallKind} {phase : Phase} (h : ks ∈ phase.history) :
    ks ++ phase.completion ∈ messageOrder + bundleOrder := by
  cases phase with
  | fresh =>
      have hstart : ks ++ [.startMsg] ∈ message.history := append_mem_history h rfl
      have hend : ks ++ [.startMsg] ++ [.endMsg] ∈ complete.history :=
        append_mem_history hstart rfl
      rw [List.append_assoc] at hend
      exact hend
  | message =>
      have hclosed : ks ++ [.endMsg] ∈ complete.history := append_mem_history h rfl
      exact hclosed
  | complete =>
      rw [completion, List.append_nil]
      exact h
  | bundle =>
      have hclosed : ks ++ [.endBundle] ∈ complete.history := append_mem_history h rfl
      exact hclosed
  | bundleMessage =>
      have hclosed : ks ++ [.endMsg] ∈ bundle.history := append_mem_history h rfl
      have hend : ks ++ [.endMsg] ++ [.endBundle] ∈ complete.history :=
        append_mem_history hclosed rfl
      rw [List.append_assoc] at hend
      exact hend

/-- An order that returns to its phase does so any number of times. -/
theorem run_kstar {phase : Phase} {order : Language CallKind}
    (h : ∀ ks ∈ order, run next phase ks = some phase) :
    ∀ ks ∈ order∗, run next phase ks = some phase := by
  intro ks hks
  obtain ⟨words, rfl, hwords⟩ := Language.mem_kstar.mp hks
  clear hks
  induction words with
  | nil => rfl
  | cons word words ih =>
      have hword := h word (hwords word List.mem_cons_self)
      have hrest := ih fun w hw => hwords w (List.mem_cons_of_mem word hw)
      rw [List.flatten_cons, run_append, hword, Option.bind_some, hrest]

theorem run_message (opened : Phase) {phase closed : Phase}
    (hstart : phase.next .startMsg = some opened) (hwrite : opened.next .write = some opened)
    (hend : opened.next .endMsg = some closed) :
    ∀ ks ∈ messageOrder, run next phase ks = some closed := by
  intro ks hks
  obtain ⟨front, hfront, last, rfl, rfl⟩ := Language.mem_mul.mp hks
  obtain ⟨first, rfl, writes, hwrites, rfl⟩ := Language.mem_mul.mp hfront
  have hloop : run next opened writes = some opened := by
    refine run_kstar ?_ writes hwrites
    intro word hword
    obtain rfl := hword
    rw [run_cons, hwrite]
    rfl
  rw [List.append_assoc, List.singleton_append, run_cons, hstart, Option.bind_some, run_append,
    hloop, Option.bind_some, run_cons, hend]
  rfl

theorem run_complete {ks : List CallKind} (h : ks ∈ messageOrder + bundleOrder) :
    run next .fresh ks = some .complete := by
  rcases h with hmessage | hbundle
  · exact run_message .message rfl rfl rfl ks hmessage
  · obtain ⟨front, hfront, last, rfl, rfl⟩ := Language.mem_mul.mp hbundle
    obtain ⟨first, rfl, messages, hmessages, rfl⟩ := Language.mem_mul.mp hfront
    have hloop : run next .bundle messages = some .bundle :=
      run_kstar (run_message .bundleMessage rfl rfl rfl) messages hmessages
    have hopen : next .fresh .startBundle = some .bundle := rfl
    rw [List.append_assoc, List.singleton_append, run_cons, hopen, Option.bind_some, run_append,
      hloop]
    rfl

end Phase

/-- The automaton runs on exactly the beginnings of the legal orders. -/
theorem legalOrder_iff (ks : List CallKind) :
    LegalOrder ks ↔ ∃ phase, run Phase.next .fresh ks = some phase := by
  constructor
  · rintro ⟨word, hword, rest, rfl⟩
    have hrun := Phase.run_complete hword
    rw [run_append] at hrun
    obtain ⟨phase, hphase, -⟩ := Option.bind_eq_some_iff.mp hrun
    exact ⟨phase, hphase⟩
  · rintro ⟨phase, hphase⟩
    exact ⟨_, Phase.append_completion_mem (Phase.mem_history hphase), List.prefix_append _ _⟩

/-! ## The writer against the automaton -/

/-- The `state` bits of a phase. -/
def Phase.bits : Phase → OscWriterState
  | .fresh => OSC_WRITER_OUT
  | .message => { OSC_WRITER_OUT with msg := true }
  | .complete => OSC_WRITER_COMPLETE
  | .bundle => OSC_WRITER_BUNDLE
  | .bundleMessage => { OSC_WRITER_BUNDLE with msg := true }

/-- A writer, the tags of the open message that are still free and the calls that
were accepted so far. -/
structure OrderedWriter where
  writer : WriterState
  slots : Nat
  accepted : List CallKind

variable (P : Platform)

/-- A call, which is recorded when it returns `OSC_OK`. -/
def orderedStep (t : OrderedWriter) (c : WriterCall) : Option OrderedWriter :=
  (writerCall P c t.writer).map fun (ret, s') =>
    { writer := s'
      slots := slotsAfter t.slots ret c
      accepted := if ret = oscOk then t.accepted ++ [c.kind] else t.accepted }

/-- The call is accepted exactly when it continues a legal order and returns
`OSC_ERROR` otherwise; a writer that is complete stays as it is. -/
def KeepsOrder (t : OrderedWriter) (c : WriterCall) : Prop :=
  ∃ ret s', writerCall P c t.writer = some (ret, s') ∧
    (ret = oscOk ↔ LegalOrder (t.accepted ++ [c.kind])) ∧ (ret = oscOk ∨ ret = oscError) ∧
    (t.writer.state = OSC_WRITER_COMPLETE →
      s'.pos = t.writer.pos ∧ s'.state = t.writer.state ∧ s'.mem = t.writer.mem)

/-- The calls that the test of the `state` bits judges rightly. -/
def TestsState (s : WriterState) : WriterCall → Prop
  | .startMsg _ _ => ¬ s.state.complete
  | .write _ => s.state.msg
  | .endBundle => s.state = OSC_WRITER_BUNDLE
  | .startBundle _ | .endMsg => True

instance (s : WriterState) (c : WriterCall) : Decidable (TestsState s c) := by
  cases c <;> unfold TestsState <;> infer_instance

/-- The arguments of the call are values of their C types, and a blob has its bytes. -/
def WriterCall.Valid : WriterCall → Prop
  | .startMsg _ nargs => 0 ≤ nargs ∧ nargs < 2147483648
  | .write arg => arg.Valid
  | .startBundle _ | .endMsg | .endBundle => True

/-- The most bytes that the call stores at the cursor. -/
def demand (kBundle : CString) : WriterCall → Nat
  | .startBundle _ => paddedSize kBundle.bytes.length + 8
  | .startMsg address nargs => 4 + paddedSize address.bytes.length + roundUp nargs.toNat
  | .write arg => arg.size
  | .endMsg | .endBundle => 0

/-- A message gets no more arguments than it announced. -/
def WithinTags (t : OrderedWriter) : WriterCall → Prop
  | .write _ => t.writer.state.msg → 0 < t.slots
  | _ => True

instance (t : OrderedWriter) (c : WriterCall) : Decidable (WithinTags t c) := by
  cases c <;> unfold WithinTags <;> infer_instance

/-- The writer stands where its accepted calls have led the automaton, and there is
room for the calls that are still to come. -/
structure InOrder (literal : CString) (t : OrderedWriter) (cs : List WriterCall)
    (phase : Phase) : Prop where
  inside : Inside t.writer t.slots
  run : run Phase.next .fresh t.accepted = some phase
  bits : t.writer.state = phase.bits
  kBundle : phase = .fresh → t.writer.kBundle = literal
  room : ((cs.map (demand literal)).sum : Int) ≤ t.writer.remain
  valid : ∀ c ∈ cs, c.Valid

namespace InOrder

variable {P} {literal : CString} {t : OrderedWriter} {c : WriterCall} {cs : List WriterCall}
  {phase phase' : Phase}

theorem legalOrder_append_iff (h : InOrder literal t cs phase) (k : CallKind) :
    LegalOrder (t.accepted ++ [k]) ↔ ∃ phase', phase.next k = some phase' := by
  rw [legalOrder_iff, run_append, h.run, Option.bind_some]
  cases hnext : phase.next k with
  | none => simp [run_cons, hnext]
  | some phase' => simp [run_cons, hnext]

theorem room_head (h : InOrder literal t (c :: cs) phase) :
    (demand literal c : Int) ≤ t.writer.remain ∧
      ((cs.map (demand literal)).sum : Int) ≤ t.writer.remain - demand literal c := by
  have hroom := h.room
  rw [List.map_cons, List.sum_cons] at hroom
  omega

theorem accepts_startBundle {timetag : UInt64}
    (h : InOrder literal t (.startBundle timetag :: cs) .fresh) :
    writerCall P (.startBundle timetag) t.writer =
      some (oscOk, t.writer.bundleOpened timetag) ∧
      Inside (t.writer.bundleOpened timetag) t.slots ∧
      (t.writer.bundleOpened timetag).remain =
        t.writer.remain - demand literal (.startBundle timetag) := by
  have hroom := h.room_head.1
  have hpadded := four_le_paddedSize t.writer.kBundle.bytes.length
  rw [demand, ← h.kBundle rfl] at hroom
  rw [demand, ← h.kBundle rfl]
  rcases h.inside.startBundle_outcome (P := P) timetag h.bits (Or.inr (by omega)) with
    ⟨hshort, -⟩ | ⟨hfit, heq⟩
  · omega
  · refine ⟨heq, h.inside.bundleOpened timetag hfit, ?_⟩
    simp only [WriterState.bundleOpened, remain, filled_len, filled_pos, length_padString,
      length_bigEndian]
    omega

theorem accepts_startMsg {address : CString} {nargs : Int}
    (h : InOrder literal t (.startMsg address nargs :: cs) phase) (hmsg : ¬ t.writer.state.msg) :
    writerCall P (.startMsg address nargs) t.writer =
      some (oscOk, t.writer.opened address nargs) ∧
      Inside (t.writer.opened address nargs) nargs.toNat ∧
      t.writer.remain - demand literal (.startMsg address nargs) ≤
        (t.writer.opened address nargs).remain := by
  have hroom := h.room_head.1
  have hlt := h.inside.remain_lt
  have hle := le_roundUp nargs.toNat
  have hmod := roundUp_mod nargs.toNat
  have hreserve : 0 ≤ t.writer.reserve ∧ t.writer.reserve ≤ 4 := by
    unfold reserve
    split <;> decide
  have hlegal : LegalCall t.writer (.startMsg address nargs) :=
    ⟨hmsg, h.valid _ List.mem_cons_self⟩
  have hnargs : 0 ≤ nargs := hlegal.2.1
  rw [demand] at hroom
  have hjudged : HasRoom t.writer t.slots (.startMsg address nargs) :=
    ⟨by omega, Or.inr ⟨by omega, by omega⟩⟩
  rcases h.inside.startMsg_outcome hlegal hjudged with
    ⟨hshort, -⟩ | ⟨-, hshort, -⟩ | ⟨hfit, heq⟩
  · have hup := roundUp_le_paddedSize address.bytes.length
    omega
  · omega
  · refine ⟨heq, h.inside.opened hmsg hfit, ?_⟩
    simp only [demand, WriterState.opened, WriterState.reserved, remain, filled_pos, filled_len,
      length_padString, List.length_replicate]
    omega

theorem accepts_write {arg : WriteArg} (h : InOrder literal t (.write arg :: cs) phase)
    (hmsg : t.writer.state.msg) (hslots : 0 < t.slots) :
    ∃ bs, bs.length = arg.size ∧
      writerCall P (.write arg) t.writer = some (oscOk, (t.writer.tagged arg.tag).filled bs) ∧
      Inside ((t.writer.tagged arg.tag).filled bs) (t.slots - 1) := by
  have hfit : (arg.size : Int) ≤ t.writer.remain := h.room_head.1
  have harg : arg.Valid := h.valid _ List.mem_cons_self
  rcases h.inside.write_outcome (P := P) harg
      ⟨Or.inl ⟨hmsg, hslots⟩, Inside.hasRoom_of_fit harg h.inside.remain_lt hfit⟩ with
    ⟨hshort, -⟩ | ⟨-, bs, hlen, heq⟩
  · omega
  · refine ⟨bs, hlen, heq, (h.inside.tagged arg.tag).filled bs ?_ ?_⟩
    · rw [tagged_remain, hlen]
      exact hfit
    · rw [hlen]
      exact arg.size_mod

/-- With room for its bytes, an `osc_msg_write_*` is accepted in every state. -/
theorem ret_of_write {arg : WriteArg} (h : InOrder literal t (.write arg :: cs) phase)
    {ret : Int} {s' : WriterState} (hcall : writerCall P (.write arg) t.writer = some (ret, s')) :
    ret = oscOk := by
  have hfit : (arg.size : Int) ≤ t.writer.remain := h.room_head.1
  have harg : arg.Valid := h.valid _ List.mem_cons_self
  have hrefused := (Inside.hasRoom_of_fit harg h.inside.remain_lt hfit).refused_iff
    h.inside.remain_nonneg h.inside.remain_lt harg
  rw [writerCall, oscMsgWrite_eq] at hcall
  obtain ⟨s₁, htag, hrest⟩ := Option.bind_eq_some_iff.mp hcall
  obtain rfl := addType_eq_some htag
  rw [tagged_remain, if_neg (fun hr => by have := hrefused.mp hr; omega)] at hrest
  obtain ⟨s₂, -, hs₂⟩ := Option.map_eq_some_iff.mp hrest
  exact (congrArg Prod.fst hs₂).symm

theorem advance (h : InOrder literal t (c :: cs) phase) (hnext : phase.next c.kind = some phase')
    {s' : WriterState} {slots : Nat} (hinside : Inside s' slots)
    (hbits : s'.state = phase'.bits)
    (hremain : t.writer.remain - demand literal c ≤ s'.remain) :
    InOrder literal ⟨s', slots, t.accepted ++ [c.kind]⟩ cs phase' := by
  have hroom := h.room_head.2
  constructor
  · exact hinside
  · rw [run_append, h.run, Option.bind_some, run_cons, hnext]
    rfl
  · exact hbits
  · intro hfresh
    subst hfresh
    cases phase <;> cases c <;> cases hnext
  · show _ ≤ s'.remain
    omega
  · exact fun c' hc' => h.valid c' (List.mem_cons_of_mem c hc')

/-- A call that continues the order is accepted. -/
theorem accepts (h : InOrder literal t (c :: cs) phase) (hnext : phase.next c.kind = some phase')
    (htags : WithinTags t c) :
    ∃ s', writerCall P c t.writer = some (oscOk, s') ∧
      InOrder literal ⟨s', slotsAfter t.slots oscOk c, t.accepted ++ [c.kind]⟩ cs phase' := by
  have hbits := h.bits
  cases c with
  | startBundle timetag =>
      cases phase <;> cases hnext
      obtain ⟨heq, hinside, hremain⟩ := h.accepts_startBundle (P := P)
      exact ⟨_, heq, h.advance rfl hinside rfl hremain.ge⟩
  | startMsg address nargs =>
      have hmsg : ¬ t.writer.state.msg := by
        rw [hbits]
        cases phase <;> cases hnext <;> exact Bool.false_ne_true
      obtain ⟨heq, hinside, hremain⟩ := h.accepts_startMsg (P := P) hmsg
      refine ⟨_, heq, h.advance hnext hinside ?_ hremain⟩
      have hopened : (t.writer.opened address nargs).state =
          { t.writer.state with msg := true } := rfl
      rw [hopened, hbits]
      cases phase <;> cases hnext <;> rfl
  | write arg =>
      have hmsg : t.writer.state.msg := by
        rw [hbits]
        cases phase <;> cases hnext <;> rfl
      obtain ⟨bs, hlen, heq, hinside⟩ := h.accepts_write (P := P) hmsg (htags hmsg)
      refine ⟨_, heq, h.advance hnext hinside ?_ ?_⟩
      · rw [filled_state, tagged_state, hbits]
        cases phase <;> cases hnext <;> rfl
      · rw [filled_remain, tagged_remain, hlen]
        exact Int.le_refl _
  | endMsg =>
      have hmsg : t.writer.state.msg := by
        rw [hbits]
        cases phase <;> cases hnext <;> rfl
      refine ⟨_, h.inside.endMsg_outcome P hmsg,
        h.advance hnext (h.inside.closed P hmsg) ?_ ?_⟩
      · rw [WriterState.closed, hbits]
        cases phase <;> cases hnext <;> rfl
      · rw [WriterState.closed, hbits]
        cases phase <;> cases hnext <;> exact Int.sub_le_self _ (Int.le_refl 0)
  | endBundle =>
      have hinside : Inside { t.writer with state := OSC_WRITER_COMPLETE } t.slots :=
        h.inside.of_not_msg rfl rfl rfl rfl Bool.false_ne_true
          fun habs => absurd habs Bool.false_ne_true
      refine ⟨_, rfl, h.advance hnext hinside ?_ (Int.sub_le_self _ (Int.le_refl 0))⟩
      cases phase <;> cases hnext
      rfl

/-- A call that breaks the order is refused and changes nothing, if the test of the
`state` bits is right about it. -/
theorem refuses (h : InOrder literal t (c :: cs) phase) (hnext : phase.next c.kind = none)
    (htests : TestsState t.writer c) : writerCall P c t.writer = some (oscError, t.writer) := by
  have hbits := h.bits
  cases c with
  | startBundle timetag =>
      have hout : t.writer.state ≠ OSC_WRITER_OUT := by
        rw [hbits]
        cases phase <;> cases hnext <;> decide
      rw [writerCall, oscMsgWriterStartBundle_eq, if_pos hout]
  | startMsg address nargs =>
      have hmsg : t.writer.state.msg := by
        simp only [TestsState, hbits] at htests ⊢
        cases phase <;> cases hnext
        · rfl
        · exact absurd rfl htests
        · rfl
      rw [writerCall, oscMsgWriterStartMsg_eq, if_pos hmsg]
  | write arg =>
      simp only [TestsState, hbits] at htests
      cases phase <;> cases hnext <;> exact absurd htests Bool.false_ne_true
  | endMsg =>
      have hmsg : ¬ t.writer.state.msg := by
        rw [hbits]
        cases phase <;> cases hnext <;> exact Bool.false_ne_true
      rw [writerCall, oscMsgWriterEndMsg, if_pos hmsg]
  | endBundle =>
      simp only [TestsState, hbits] at htests
      cases phase <;> cases hnext <;> exact absurd htests (by decide)

/-- Where the test is wrong, the call breaks the order and does not return
`OSC_ERROR`. -/
theorem ret_of_not_testsState (h : InOrder literal t (c :: cs) phase)
    (htests : ¬ TestsState t.writer c) {ret : Int} {s' : WriterState}
    (hcall : writerCall P c t.writer = some (ret, s')) :
    phase.next c.kind = none ∧ ret = oscOk := by
  have hbits := h.bits
  cases c with
  | startBundle timetag => exact absurd trivial htests
  | startMsg address nargs =>
      simp only [TestsState, hbits] at htests
      obtain rfl : phase = .complete := by
        cases phase <;> first | rfl | exact absurd Bool.false_ne_true htests
      have hmsg : ¬ t.writer.state.msg := by
        rw [hbits]
        exact Bool.false_ne_true
      obtain ⟨heq, -, -⟩ := h.accepts_startMsg (P := P) hmsg
      exact ⟨rfl, (congrArg Prod.fst (Option.some.inj (heq.symm.trans hcall))).symm⟩
  | write arg =>
      refine ⟨?_, h.ret_of_write hcall⟩
      simp only [TestsState, hbits] at htests
      cases phase <;> first | rfl | exact absurd rfl htests
  | endMsg => exact absurd trivial htests
  | endBundle =>
      refine ⟨?_, (congrArg Prod.fst (Option.some.inj hcall)).symm⟩
      simp only [TestsState, hbits] at htests
      cases phase <;> first | rfl | exact absurd rfl htests

theorem keepsOrder_iff (h : InOrder literal t (c :: cs) phase) (htags : WithinTags t c) :
    KeepsOrder P t c ↔ TestsState t.writer c := by
  have hlegal := h.legalOrder_append_iff c.kind
  constructor
  · rintro ⟨ret, s', hcall, hret, -⟩
    by_contra htests
    obtain ⟨hnext, hok⟩ := h.ret_of_not_testsState htests hcall
    obtain ⟨phase', hphase'⟩ := hlegal.mp (hret.mp hok)
    cases hnext.symm.trans hphase'
  · intro htests
    cases hnext : phase.next c.kind with
    | none =>
        refine ⟨_, _, h.refuses hnext htests, ?_, Or.inr rfl, fun _ => ⟨rfl, rfl, rfl⟩⟩
        rw [hlegal, hnext]
        exact oscOk_iff_of_error (by simp)
    | some phase' =>
        obtain ⟨s', hcall, -⟩ := h.accepts (P := P) hnext htags
        refine ⟨_, _, hcall, oscOk_iff_of_ok (hlegal.mpr ⟨phase', hnext⟩), Or.inl rfl, ?_⟩
        intro hcomplete
        rw [h.bits] at hcomplete
        cases phase <;> cases c <;> cases hnext <;> cases hcomplete

/-- A refused call may leave fewer free tags behind, and nothing else. -/
theorem refused (h : InOrder literal t (c :: cs) phase) {slots : Nat} (hslots : slots ≤ t.slots) :
    InOrder literal ⟨t.writer, slots, t.accepted⟩ cs phase := by
  have hroom := h.room_head.2
  refine ⟨h.inside.of_slots_le hslots, h.run, h.bits, h.kBundle, ?_, ?_⟩
  · show _ ≤ t.writer.remain
    omega
  · exact fun c' hc' => h.valid c' (List.mem_cons_of_mem c hc')

theorem slotsAfter_error_le (slots : Nat) (c : WriterCall) :
    slotsAfter slots oscError c ≤ slots := by
  cases c with
  | startMsg address nargs => rw [slotsAfter, if_neg oscError_ne_oscOk]
  | write arg => exact Nat.sub_le slots 1
  | startBundle timetag | endMsg | endBundle => exact Nat.le_refl slots

theorem step (h : InOrder literal t (c :: cs) phase) (htags : WithinTags t c)
    (htests : TestsState t.writer c) {t' : OrderedWriter} (hstep : orderedStep P t c = some t') :
    ∃ phase', InOrder literal t' cs phase' := by
  obtain ⟨⟨ret, s'⟩, hcall, rfl⟩ := Option.map_eq_some_iff.mp hstep
  cases hnext : phase.next c.kind with
  | none =>
      obtain ⟨rfl, rfl⟩ :=
        Prod.mk.inj (Option.some.inj (hcall.symm.trans (h.refuses hnext htests)))
      simp only [if_neg oscError_ne_oscOk]
      exact ⟨phase, h.refused (slotsAfter_error_le t.slots c)⟩
  | some phase' =>
      obtain ⟨s'', hcall', h'⟩ := h.accepts (P := P) hnext htags
      obtain ⟨rfl, rfl⟩ := Prod.mk.inj (Option.some.inj (hcall.symm.trans hcall'))
      simp only [if_true]
      exact ⟨phase', h'⟩

end InOrder

theorem inOrder_freshWriter {w : OscWriter} {buffer : Memory} {literal : CString}
    {s : WriterState} {cs : List WriterCall} (hlen : buffer.length < 2147483648)
    (hinit : freshWriter w buffer literal = some s) (hvalid : ∀ c ∈ cs, c.Valid)
    (hroom : (cs.map (demand literal)).sum ≤ buffer.length) :
    InOrder literal ⟨s, 0, []⟩ cs .fresh := by
  have hinside := inside_freshWriter hlen hinit
  obtain ⟨⟨ret, w'⟩, hw, hs⟩ := Option.bind_eq_some_iff.mp hinit
  cases hs
  simp only [oscMsgWriterInit] at hw
  split at hw
  · cases hw
    refine ⟨hinside, rfl, rfl, fun _ => rfl, ?_, hvalid⟩
    simp only [remain]
    omega
  · cases hw

/-- On a buffer with room for all calls, a run that gives no message more arguments than
it announced keeps to the legal orders, at every call, exactly when the test of the
`state` bits is right at every call. -/
theorem along_keepsOrder_iff (w : OscWriter) (buffer : Memory) (literal : CString)
    (s₀ : WriterState) (cs : List WriterCall) (hlen : buffer.length < 2147483648)
    (hinit : freshWriter w buffer literal = some s₀) (hvalid : ∀ c ∈ cs, c.Valid)
    (hroom : (cs.map (demand literal)).sum ≤ buffer.length)
    (htags : Along (orderedStep P) WithinTags ⟨s₀, 0, []⟩ cs) :
    Along (orderedStep P) (KeepsOrder P) ⟨s₀, 0, []⟩ cs ↔
      Along (orderedStep P) (fun t c => TestsState t.writer c) ⟨s₀, 0, []⟩ cs := by
  refine along_iff_of_remaining (fun t cs => ∃ phase, InOrder literal t cs phase) ?_ ?_
    ⟨.fresh, inOrder_freshWriter hlen hinit hvalid hroom⟩ htags
  · rintro t c cs ⟨phase, ht⟩ hc
    exact ht.keepsOrder_iff hc
  · rintro t c cs t' ⟨phase, ht⟩ hc htests hstep
    exact ht.step hc htests hstep

/-- A bundle of one message; the bundle is opened and closed once more in between. -/
theorem along_keepsOrder_bundle :
    ∃ s₀, freshWriter zeroWriter (List.replicate 64 0) bundleLiteral = some s₀ ∧
      Along (orderedStep littleHost) (KeepsOrder littleHost) ⟨s₀, 0, []⟩
        [.startBundle 1, .startMsg slashA 1, .write (.int32 7), .startBundle 1, .endMsg,
          .endBundle, .endMsg] := by
  refine ⟨_, rfl, ?_⟩
  refine (along_keepsOrder_iff littleHost zeroWriter (List.replicate 64 0) bundleLiteral _ _
    (by decide) rfl ?_ (by decide) (by decide)).mpr (by decide)
  simp [WriterCall.Valid, WriteArg.Valid]

/-- A writer that has completed a message takes another one. -/
theorem reopened_not_keepsOrder :
    ∃ s₀, freshWriter zeroWriter (List.replicate 64 0) bundleLiteral = some s₀ ∧
      (∀ c ∈ [WriterCall.startMsg slashA 0, .endMsg, .startMsg slashA 0], c.Valid) ∧
      ([WriterCall.startMsg slashA 0, .endMsg, .startMsg slashA 0].map
        (demand bundleLiteral)).sum ≤ 64 ∧
      Along (orderedStep littleHost) WithinTags ⟨s₀, 0, []⟩
        [.startMsg slashA 0, .endMsg, .startMsg slashA 0] ∧
      ¬ Along (orderedStep littleHost) (KeepsOrder littleHost) ⟨s₀, 0, []⟩
        [.startMsg slashA 0, .endMsg, .startMsg slashA 0] := by
  refine ⟨_, rfl, ?_, by decide, by decide, ?_⟩
  · simp [WriterCall.Valid]
  · intro h
    obtain ⟨ret, s', hcall, hret, -⟩ := ((h.2 _ rfl).2 _ rfl).1
    have hok : ret = oscOk := (congrArg Prod.fst (Option.some.inj hcall)).symm
    obtain ⟨phase, hphase⟩ := (legalOrder_iff _).mp (hret.mp hok)
    cases hphase

end LittleOscar
