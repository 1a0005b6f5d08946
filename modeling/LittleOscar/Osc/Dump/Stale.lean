import LittleOscar.Machine.Agree
import LittleOscar.Osc.Bundle.Traversal
import LittleOscar.Osc.Dump.Line
import LittleOscar.Osc.Reader.Init

/-!
# What an earlier datagram leaves behind

`main` receives every datagram into the same buffer. Behind a short datagram lie bytes of
longer ones before it, and the strings of a datagram need not end inside it. The local
variables are not initialised either, nor is the union of `osc_arg_t` wholly assigned.

None of it is ever printed. Two loops over the arguments of a message, in objects that agree
on the bytes of the packet and have a NUL somewhere behind it, print the same and fail in the
same way, whatever their variables hold (`dumpArgs_same`).
-/

namespace LittleOscar.UdpDump

open Machine

variable {P : Platform} {F : FloatText} {base : Int} {n : Nat} {m m' : Memory}

/-- Two objects with the same bytes before `n`, at the address `base` and of less than
`2 ^ 31 - 4` bytes. -/
structure Alike (base : Int) (n : Nat) (m m' : Memory) : Prop extends Agree n m m' where
  placed : Placed base m
  placed' : Placed base m'
  lt : m.length < 2147483644
  lt' : m'.length < 2147483644

/-- A typed reader that stays before `n`: its tag cursor `q` is in front of a NUL there, and
its argument cursor is not behind the message. -/
structure StaysBefore (n : Nat) (m : Memory) (reader : OscMsgReader) (q : Int) : Prop where
  msgEnd : reader.msgEnd ≤ n
  typePtr : reader.typePtr = some q
  nonneg : 0 ≤ q
  tags : ∃ e : Int, q ≤ e ∧ e < n ∧ loadByte m e = some 0
  argPtr : ∀ p, reader.argPtr = some p → p ≤ reader.msgEnd

/-! ## The getters -/

section Getter

variable {reader : OscMsgReader}

theorem readFixed_same (h : Agree n m m') (hend : reader.msgEnd ≤ n) {α : Type} {k : Nat}
    {decode : Nat → α} : readFixed P m k decode reader = readFixed P m' k decode reader := by
  rw [readFixed, readFixed]
  cases reader.argPtr with
  | none => rfl
  | some p =>
      simp only [Option.bind_eq_bind, Option.bind_some]
      split
      · rfl
      · rw [loadNative, loadNative, h.loadBytes_eq (by omega)]

/-- A string is the same in both objects, or its getter refuses it in both. -/
theorem getArgStr_same (h : Alike base n m m') (hend : reader.msgEnd ≤ n)
    (harg : ∀ p, reader.argPtr = some p → p ≤ reader.msgEnd) :
    oscMsgReaderGetArgStr m reader = oscMsgReaderGetArgStr m' reader ∧
      ∀ p ret reader', oscMsgReaderGetArgStr m reader = some (ret, some p, reader') →
        stringAt m p = stringAt m' p := by
  cases hp : reader.argPtr with
  | none =>
      have hnone : ∀ l, oscMsgReaderGetArgStr l reader = none := fun l => by
        rw [oscMsgReaderGetArgStr, hp, Option.bind_eq_bind, Option.bind_none]
      rw [hnone, hnone]
      exact ⟨rfl, fun p ret reader' habs => by cases habs⟩
  | some p =>
      have hle := harg p hp
      have hbound := h.lt
      have hbound' := h.lt'
      rcases h.strlen_cases (p := p) (by omega) with
        ⟨heq, hlt⟩ | ⟨k, k', hk, hk', hpast, hpast'⟩
      · refine ⟨?_, fun p' ret reader' hget => ?_⟩
        · simp only [oscMsgReaderGetArgStr, hp, heq, Option.bind_eq_bind, Option.bind_some]
        · obtain ⟨p₁, k, hp₁, hk, ⟨-, -, habs, -⟩ | ⟨-, hval, -⟩⟩ := cases_of_getArgStr hget
          · cases habs
          · obtain rfl := Option.some.inj (hp.symm.trans hp₁)
            obtain rfl := Option.some.inj hval
            exact h.stringAt_eq hk (hlt k hk)
      · have hrefused : ∀ (l : Memory) (j : Nat), strlen l p = some j → l.length < 2147483644 →
            n ≤ p + j → oscMsgReaderGetArgStr l reader = some (oscError, none, reader) := by
          intro l j hj hl hout
          obtain ⟨hnonneg, hin, -⟩ := strlen_eq_some hj
          have hpad := lt_paddedSize j
          rw [getArgStr_eq hp hj (by omega), if_pos (by omega)]
        rw [hrefused m k hk hbound hpast, hrefused m' k' hk' hbound' hpast']
        exact ⟨rfl, fun p ret reader' habs => by cases habs⟩

theorem getArgBlob_same (h : Agree n m m') (hend : reader.msgEnd ≤ n) :
    oscMsgReaderGetArgBlob P m reader = oscMsgReaderGetArgBlob P m' reader := by
  have hint : oscMsgReaderGetArgInt32 P m reader = oscMsgReaderGetArgInt32 P m' reader :=
    readFixed_same h hend
  rw [oscMsgReaderGetArgBlob, oscMsgReaderGetArgBlob, hint]

/-- Every getter gives the same in both objects, and its output is printed the same. -/
theorem getter_same (h : Alike base n m m') (hend : reader.msgEnd ≤ n)
    (harg : ∀ p, reader.argPtr = some p → p ≤ reader.msgEnd) (t : UInt8) (kind : ArgKind) :
    kind.getter P m reader = kind.getter P m' reader ∧
      ∀ ret out reader', kind.getter P m reader = some (ret, some out, reader') →
        outputText P F m base t out = outputText P F m' base t out := by
  have hfixed : ∀ {α : Type} (k : Nat) (decode : Nat → α),
      readFixed P m k decode reader = readFixed P m' k decode reader :=
    fun k decode => readFixed_same h.toAgree hend
  refine ⟨?_, fun ret out reader' hget => ?_⟩
  · cases kind with
    | empty => rfl
    | int32 => simp only [ArgKind.getter, oscMsgReaderGetArgInt32, hfixed]
    | int64 => simp only [ArgKind.getter, oscMsgReaderGetArgInt64, hfixed]
    | timetag => simp only [ArgKind.getter, oscMsgReaderGetArgTimetag, hfixed]
    | float => simp only [ArgKind.getter, oscMsgReaderGetArgFloat, hfixed]
    | double => simp only [ArgKind.getter, oscMsgReaderGetArgDouble, hfixed]
    | str => simp only [ArgKind.getter, (getArgStr_same h hend harg).1]
    | blob => simp only [ArgKind.getter, getArgBlob_same h.toAgree hend]
  · cases out with
    | str p =>
        -- only the getter of a string gives a pointer to a string
        cases kind with
        | str =>
            obtain ⟨⟨ret₁, val, reader₁⟩, hstr, hout⟩ := Option.map_eq_some_iff.mp hget
            cases val with
            | none => cases hout
            | some p' =>
                cases hout
                rw [outputText, outputText, (getArgStr_same h hend harg).2 p ret reader' hstr]
        | empty => cases hget
        | int32 | int64 | timetag | float | double =>
            obtain ⟨⟨ret₁, val, reader₁⟩, -, hout⟩ := Option.map_eq_some_iff.mp hget
            simp at hout
        | blob =>
            obtain ⟨⟨ret₁, ⟨_ | sz, _ | p⟩, reader₁⟩, -, hout⟩ := Option.map_eq_some_iff.mp hget
            all_goals cases hout
    | empty | int32 | int64 | timetag | float | double | blob => rfl

/-- A getter moves the argument cursor of a reader at most to the end of the message. -/
def EndsInside (reader : OscMsgReader) (ret : Int) (reader' : OscMsgReader) : Prop :=
  GetterFrame reader ret reader' ∧ ∀ p, reader'.argPtr = some p → p ≤ reader'.msgEnd

theorem readFixed_endsInside {α : Type} {k : Nat} {decode : Nat → α} {ret : Int}
    {val : Option α} {reader' : OscMsgReader}
    (h : readFixed P m k decode reader = some (ret, val, reader'))
    (harg : ∀ p, reader.argPtr = some p → p ≤ reader.msgEnd) :
    EndsInside reader ret reader' := by
  refine ⟨readFixed_frame h, fun p' hp' => ?_⟩
  obtain ⟨p, -, ⟨-, -, -, rfl⟩ | ⟨-, hroom, raw, -, -, rfl⟩⟩ := cases_of_readFixed h
  · exact harg p' hp'
  · obtain rfl := Option.some.inj hp'
    simp only
    omega

theorem getArgStr_endsInside {ret : Int} {val : Option Int} {reader' : OscMsgReader}
    (h : oscMsgReaderGetArgStr m reader = some (ret, val, reader'))
    (harg : ∀ p, reader.argPtr = some p → p ≤ reader.msgEnd) :
    EndsInside reader ret reader' := by
  refine ⟨getArgStr_frame h, fun p' hp' => ?_⟩
  rw [oscMsgReaderGetArgStr, Option.bind_eq_bind] at h
  obtain ⟨p, hp, hstr⟩ := Option.bind_eq_some_iff.mp h
  obtain ⟨k, -, hrest⟩ := Option.bind_eq_some_iff.mp hstr
  simp only at hrest
  split at hrest
  · cases hrest
    exact harg p' hp'
  · cases hrest
    obtain rfl := Option.some.inj hp'
    simp only
    omega

theorem getArgBlob_endsInside {ret : Int} {out : OscBlob} {reader' : OscMsgReader}
    (h : oscMsgReaderGetArgBlob P m reader = some (ret, out, reader'))
    (harg : ∀ p, reader.argPtr = some p → p ≤ reader.msgEnd) :
    EndsInside reader ret reader' := by
  refine ⟨getArgBlob_frame h, fun p' hp' => ?_⟩
  obtain ⟨p, -, ⟨-, -, rfl⟩ | ⟨hroom, bs, -, ⟨-, -, rfl⟩ | ⟨-, hle, rfl⟩⟩⟩ :=
    cases_of_getArgBlob h
  · exact harg p' hp'
  · obtain rfl := Option.some.inj hp'
    simp only
    omega
  · obtain rfl := Option.some.inj hp'
    exact hle

theorem getter_endsInside {kind : ArgKind} {ret : Int} {out : Option ArgOutput}
    {reader' : OscMsgReader} (h : kind.getter P m reader = some (ret, out, reader'))
    (harg : ∀ p, reader.argPtr = some p → p ≤ reader.msgEnd) :
    EndsInside reader ret reader' := by
  cases kind with
  | empty =>
      cases h
      exact ⟨GetterFrame.moved reader.argPtr, harg⟩
  | int32 | int64 | timetag | float | double =>
      obtain ⟨⟨ret₁, val, reader₁⟩, hget, hout⟩ := Option.map_eq_some_iff.mp h
      cases hout
      exact readFixed_endsInside hget harg
  | str =>
      obtain ⟨⟨ret₁, val, reader₁⟩, hget, hout⟩ := Option.map_eq_some_iff.mp h
      cases hout
      exact getArgStr_endsInside hget harg
  | blob =>
      obtain ⟨⟨ret₁, val, reader₁⟩, hget, hout⟩ := Option.map_eq_some_iff.mp h
      cases hout
      exact getArgBlob_endsInside hget harg

end Getter

/-! ## The arguments of a message -/

/-- Two calls give the same code and the same reader. On `OSC_OK` the two `osc_arg_t` have
the same tag and are printed the same, and the reader still stays before `n`. -/
def SameLine (P : Platform) (F : FloatText) (base : Int) (n : Nat) (m m' : Memory) :
    Option (Int × OscArg × OscMsgReader) → Option (Int × OscArg × OscMsgReader) → Prop
  | some (ret, arg, reader), some (ret', arg', reader') =>
      ret = ret' ∧ reader = reader' ∧ (ret = oscOk → arg.type = arg'.type ∧
        argText P F m base arg = argText P F m' base arg' ∧ ∃ q, StaysBefore n m reader q)
  | none, none => True
  | _, _ => False

/-- Two calls that both fail in the same way. -/
theorem SameLine.of_failed {ret : Int} {arg arg' : OscArg} {reader : OscMsgReader}
    (hret : ret ≠ oscOk) :
    SameLine P F base n m m' (some (ret, arg, reader)) (some (ret, arg', reader)) :=
  ⟨rfl, rfl, fun hok => absurd hok hret⟩

/-- At a tag of the format, both calls print what the getter gives. -/
theorem SameLine.of_prints (h : Alike base n m m') {reader : OscMsgReader} {q : Int}
    (hstays : StaysBefore n m reader q) {t : UInt8} {kind : ArgKind}
    {x y : Option (Int × OscArg × OscMsgReader)}
    (hx : Prints P F base t x (kind.getter P m reader))
    (hy : Prints P F base t y (kind.getter P m' reader)) : SameLine P F base n m m' x y := by
  obtain ⟨hsame, htext⟩ := getter_same (P := P) (F := F) h hstays.msgEnd hstays.argPtr t kind
  rw [← hsame] at hy
  cases hget : kind.getter P m reader with
  | none =>
      rw [hget] at hx hy
      cases x with
      | some _ => exact hx.elim
      | none =>
          cases y with
          | some _ => exact hy.elim
          | none => exact trivial
  | some result =>
      obtain ⟨ret, out, reader'⟩ := result
      rw [hget] at hx hy
      cases x with
      | none => exact hx.elim
      | some x =>
          cases y with
          | none => exact hy.elim
          | some y =>
              obtain ⟨ret₁, arg₁, reader₁⟩ := x
              obtain ⟨ret₂, arg₂, reader₂⟩ := y
              obtain ⟨rfl, rfl, hok₁⟩ := hx
              obtain ⟨rfl, rfl, hok₂⟩ := hy
              refine ⟨rfl, rfl, fun hok => ?_⟩
              obtain ⟨htype₁, out₁, hout₁, htext₁⟩ := hok₁ hok
              obtain ⟨htype₂, out₂, hout₂, htext₂⟩ := hok₂ hok
              obtain rfl := Option.some.inj (hout₁.symm.trans hout₂)
              rw [hout₁] at hget
              obtain ⟨hframe, hinside⟩ := getter_endsInside hget hstays.argPtr
              refine ⟨htype₁.trans htype₂.symm, ?_, q, ?_, ?_, hstays.nonneg, hstays.tags,
                hinside⟩
              · rw [htext₁, htext₂, htext _ _ _ hget]
              · rw [hframe.msgEnd]
                exact hstays.msgEnd
              · rw [hframe.typePtr]
                exact hstays.typePtr

/-- One call on each object, into any two variables. -/
theorem getArg_same (h : Alike base n m m') {reader : OscMsgReader} {q : Int}
    (hstays : StaysBefore n m reader q) (arg arg' : OscArg) :
    SameLine P F base n m m' (oscMsgReaderGetArg P m base reader arg)
      (oscMsgReaderGetArg P m' base reader arg') := by
  obtain ⟨e, hle, hlt, hnul⟩ := hstays.tags
  have hnonneg := hstays.nonneg
  have hn := h.lt_length
  obtain ⟨b, hb⟩ := exists_loadByte (m := m) (p := q) (by omega) (by omega)
  have hb' : loadByte m' q = some b := by rw [← h.loadByte_eq (by omega), hb]
  have htype := hstays.typePtr
  by_cases hzero : b = 0
  · rw [hzero] at hb hb'
    by_cases hP : P.charSigned
    · rw [getArg_of_nul_signed hP htype hb, getArg_of_nul_signed hP htype hb']
      exact SameLine.of_failed (by decide)
    · rw [getArg_of_nul_unsigned hP htype hb, getArg_of_nul_unsigned hP htype hb']
      exact SameLine.of_failed oscError_ne_oscOk
  by_cases hneg : charValue P b < 0
  · rw [getArg_of_neg htype hb hzero hneg, getArg_of_neg htype hb' hzero hneg]
    refine SameLine.of_failed fun hok => ?_
    rw [hok] at hneg
    exact absurd hneg (by decide)
  cases hkind : ArgKind.ofTag b with
  | none =>
      rw [getArg_of_nonneg htype hb hzero hneg, getArg_of_nonneg htype hb' hzero hneg,
        getArgSwitch_unknown hkind, getArgSwitch_unknown hkind]
      exact SameLine.of_failed oscError_ne_oscOk
  | some kind =>
      have hne : q ≠ e := by
        rintro rfl
        exact hzero (Option.some.inj (hb.symm.trans hnul))
      have hmoved : StaysBefore n m { reader with typePtr := some (q + 1) } (q + 1) :=
        ⟨hstays.msgEnd, rfl, by omega, ⟨e, by omega, hlt, hnul⟩, hstays.argPtr⟩
      exact SameLine.of_prints h hmoved (getArg_prints h.placed htype hb hkind arg)
        (getArg_prints h.placed' htype hb' hkind arg')

/-- The loop over the arguments prints the same, whatever the variable holds. -/
theorem dumpArgs_same (h : Alike base n m m') {reader : OscMsgReader} {q : Int}
    (hstays : StaysBefore n m reader q) (indent : Int) (fuel : Nat) (arg arg' : OscArg) :
    dumpArgs P F m base indent fuel reader arg = dumpArgs P F m' base indent fuel reader arg' := by
  induction fuel generalizing reader q arg arg' with
  | zero => rfl
  | succ fuel ih =>
      have hsame := getArg_same (P := P) (F := F) h hstays arg arg'
      rw [dumpArgs, dumpArgs]
      cases hx : oscMsgReaderGetArg P m base reader arg with
      | none =>
          cases hy : oscMsgReaderGetArg P m' base reader arg' with
          | none => rfl
          | some y =>
              rw [hx, hy] at hsame
              exact hsame.elim
      | some x =>
          obtain ⟨ret, arg₁, reader₁⟩ := x
          cases hy : oscMsgReaderGetArg P m' base reader arg' with
          | none =>
              rw [hx, hy] at hsame
              exact hsame.elim
          | some y =>
              obtain ⟨ret', arg₂, reader₂⟩ := y
              rw [hx, hy] at hsame
              obtain ⟨rfl, rfl, hok⟩ := hsame
              simp only [Option.bind_eq_bind, Option.bind_some]
              split
              · next hret =>
                  obtain ⟨htype, htext, q', hstays'⟩ := hok hret
                  rw [htype, htext, ih hstays' arg₁ arg₂]
              · rfl

end LittleOscar.UdpDump
