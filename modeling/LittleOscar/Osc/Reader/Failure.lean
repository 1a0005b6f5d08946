import LittleOscar.Osc.Reader.Direct
import LittleOscar.Osc.Reader.TagCursor

/-!
# What a failed read leaves behind

`KeepsCursors` asks of a call that returns `OSC_ERROR` that it moves neither cursor. The
getters for a fixed number of bytes and the getter of a string test before they move.
The getter of a blob moves over the size before its second test, and
`osc_msg_reader_get_arg` moves over the tag before it calls any getter.

After a failure the tags and the bytes are out of step. As long as no call fails, and
no blob has a size that is negative or too large to be rounded, the value of a tag is
decoded where the format has it: behind the arguments of all earlier tags.
-/

namespace LittleOscar

open Machine Transition

variable (P : Platform) (m : Memory) (base : Int)

/-- The calls on a message reader after its initialisation. -/
inductive ReaderCall where
  | nextArg
  | getArg (arg : OscArg)
  | direct (getter : DirectGetter)
  | blob

/-- The result of the call and the reader after it. -/
def ReaderCall.run (reader : OscMsgReader) : ReaderCall → Option (Int × OscMsgReader)
  | .nextArg => (oscMsgReaderNextArg m reader).map fun (c, reader') => (charValue P c, reader')
  | .getArg arg => (oscMsgReaderGetArg P m base reader arg).map fun (ret, _, reader') =>
      (ret, reader')
  | .direct getter => getter.kind.call P m reader
  | .blob => ArgKind.blob.call P m reader

/-- The reader after the call. -/
def readerStep (reader : OscMsgReader) (call : ReaderCall) : Option OscMsgReader :=
  (call.run P m base reader).map fun (_, reader') => reader'

/-- A call of `osc_msg_reader_get_arg` or of a getter that returns `OSC_ERROR` leaves the
tag pointer and the argument pointer as they were. -/
def KeepsCursors (reader : OscMsgReader) (call : ReaderCall) : Prop :=
  match call with
  | .nextArg => True
  | _ => ∀ reader', call.run P m base reader = some (oscError, reader') →
      reader'.typePtr = reader.typePtr ∧ reader'.argPtr = reader.argPtr

/-- The argument at the argument pointer goes past the end of the message by the tests
of its getter. -/
def Overruns (reader : OscMsgReader) (kind : ArgKind) : Prop :=
  ∃ p, reader.argPtr = some p ∧
    match kind with
    | .empty => False
    | .int32 | .float => reader.msgEnd - p < 4
    | .int64 | .timetag | .double => reader.msgEnd - p < 8
    | .str => ∃ n, strlen m p = some n ∧ reader.msgEnd < p + wrap32 (round32Size (n + 1))
    | .blob => reader.msgEnd - p < 4 ∨
        ∃ bs, loadBytes m p 4 = some bs ∧ reader.msgEnd < p + 4 + round32 (int32Field bs)

/-- The call does not fail after it has moved a cursor: at a tag,
`osc_msg_reader_get_arg` finds neither 255 as a negative `char`, nor a byte that is no
tag of the format, nor an argument that goes past the end; the getter of a blob finds
no room for the size, or room for all of it. -/
def FailsFirst (reader : OscMsgReader) : ReaderCall → Prop
  | .nextArg | .direct _ => True
  | .getArg _ => ∀ q b, reader.typePtr = some q → loadByte m q = some b → b ≠ 0 →
      charValue P b ≠ oscError ∧
        (0 ≤ charValue P b → ∃ kind, ArgKind.ofTag b = some kind ∧ ¬ Overruns m reader kind)
  | .blob => ∀ p bs, reader.argPtr = some p → 4 ≤ reader.msgEnd - p →
      loadBytes m p 4 = some bs → p + 4 + round32 (int32Field bs) ≤ reader.msgEnd

/-! ## Where the format has an argument -/

/-- The number of bytes that a tag stands for; a byte that is no tag of the format
stands for none. -/
def tagSize (p : Int) (t : UInt8) : Option Nat :=
  match ArgKind.ofTag t with
  | some kind => kind.encodedSize m p
  | none => some 0

/-- The offset behind the arguments of these tags, the first of which lies at `p`. -/
def offsetAfter : Int → List UInt8 → Option Int
  | p, [] => some p
  | p, t :: ts => do
      let size ← tagSize m p t
      offsetAfter (p + size) ts

/-- What a call of `osc_msg_reader_get_arg` returns with `OSC_OK` was decoded behind the
arguments of the tags that were consumed before. -/
def DecodedInPlace (p₀ : Int) (tags : List UInt8) (s : TagRun) (arg : OscArg) : Prop :=
  ∀ arg' reader', oscMsgReaderGetArg P m base s.reader arg = some (oscOk, arg', reader') →
    ∃ p, offsetAfter m p₀ (tags.take s.consumed) = some p ∧ s.reader.argPtr = some p

variable {P m} {reader : OscMsgReader} {p : Int} {t : UInt8} {kind : ArgKind}

theorem offsetAfter_append_singleton (ts : List UInt8) (p : Int) (t : UInt8) :
    offsetAfter m p (ts ++ [t]) =
      (offsetAfter m p ts).bind fun p' =>
        (tagSize m p' t).map fun (size : Nat) => p' + (size : Int) := by
  induction ts generalizing p with
  | nil =>
      rw [List.nil_append, offsetAfter, offsetAfter, Option.bind_some]
      cases tagSize m p t <;> rfl
  | cons u ts ih =>
      rw [List.cons_append, offsetAfter, offsetAfter]
      cases tagSize m p u with
      | none => rfl
      | some size => exact ih (p + size)

/-! ## When a getter fails -/

section Getter

variable {reader' : OscMsgReader}

/-- Only the code and the reader of a getter are looked at. -/
theorem map_map_eq_some {α β : Type} {getter : Option (Int × α × OscMsgReader)} {f : α → β}
    {ret : Int} :
    ((getter.map fun (ret, val, reader') => (ret, f val, reader')).map
        fun (ret, _, reader') => (ret, reader')) = some (ret, reader') ↔
      ∃ val, getter = some (ret, val, reader') := by
  cases getter with
  | none =>
      constructor
      · intro h
        cases h
      · rintro ⟨val, h⟩
        cases h
  | some result =>
      obtain ⟨ret₁, val, reader₁⟩ := result
      constructor
      · intro h
        obtain ⟨rfl, rfl⟩ := Prod.mk.inj (Option.some.inj h)
        exact ⟨val, rfl⟩
      · rintro ⟨val', h⟩
        obtain ⟨rfl, hrest⟩ := Prod.mk.inj (Option.some.inj h)
        obtain ⟨-, rfl⟩ := Prod.mk.inj hrest
        rfl

theorem readFixed_error_iff {α : Type} {k : Nat} {decode : Nat → α} :
    (∃ val, readFixed P m k decode reader = some (oscError, val, reader')) ↔
      (∃ p, reader.argPtr = some p ∧ reader.msgEnd - p < k) ∧ reader' = reader := by
  constructor
  · rintro ⟨val, h⟩
    obtain ⟨p, hp, ⟨-, hshort, -, hreader⟩ | ⟨hret, -⟩⟩ := cases_of_readFixed h
    · exact ⟨⟨p, hp, hshort⟩, hreader⟩
    · exact absurd hret oscError_ne_oscOk
  · rintro ⟨⟨p, hp, hshort⟩, rfl⟩
    exact ⟨none, readFixed_of_short hp hshort⟩

theorem getArgStr_error_iff :
    (∃ val, oscMsgReaderGetArgStr m reader = some (oscError, val, reader')) ↔
      (∃ p, reader.argPtr = some p ∧ ∃ n, strlen m p = some n ∧
        reader.msgEnd < p + wrap32 (round32Size (n + 1))) ∧ reader' = reader := by
  constructor
  · rintro ⟨val, h⟩
    obtain ⟨p, n, hp, hn, ⟨-, hpast, -, hreader⟩ | ⟨hret, -⟩⟩ := cases_of_getArgStr h
    · exact ⟨⟨p, hp, n, hn, hpast⟩, hreader⟩
    · exact absurd hret oscError_ne_oscOk
  · rintro ⟨⟨p, hp, n, hn, hpast⟩, rfl⟩
    refine ⟨none, ?_⟩
    simp only [oscMsgReaderGetArgStr, hp, hn, Option.bind_eq_bind, Option.bind_some]
    rw [if_pos hpast]

/-- A getter that is not for a blob fails where the argument goes past the end, and moves
nothing. -/
theorem call_error_iff (hkind : kind ≠ .blob) :
    kind.call P m reader = some (oscError, reader') ↔
      Overruns m reader kind ∧ reader' = reader := by
  cases kind with
  | empty =>
      constructor
      · intro h
        exact absurd (congrArg Prod.fst (Option.some.inj h)).symm oscError_ne_oscOk
      · rintro ⟨⟨p, -, habs⟩, -⟩
        exact absurd habs not_false
  | int32 => exact map_map_eq_some.trans readFixed_error_iff
  | int64 => exact map_map_eq_some.trans readFixed_error_iff
  | timetag => exact map_map_eq_some.trans readFixed_error_iff
  | float => exact map_map_eq_some.trans readFixed_error_iff
  | double => exact map_map_eq_some.trans readFixed_error_iff
  | str => exact map_map_eq_some.trans getArgStr_error_iff
  | blob => exact absurd rfl hkind

/-- The getter of a blob fails in front of the size, or behind it. -/
theorem getArgBlob_error_iff :
    ArgKind.blob.call P m reader = some (oscError, reader') ↔
      ∃ p, reader.argPtr = some p ∧
        (reader.msgEnd - p < 4 ∧ reader' = reader ∨
          4 ≤ reader.msgEnd - p ∧ ∃ bs, loadBytes m p 4 = some bs ∧
            reader.msgEnd < p + 4 + round32 (int32Field bs) ∧
              reader' = { reader with argPtr := some (p + 4) }) := by
  refine (map_map_eq_some (f := fun out : OscBlob => out.sz.bind fun sz => out.val.map fun p =>
    ArgOutput.blob sz p)).trans ?_
  constructor
  · rintro ⟨out, h⟩
    obtain ⟨p, hp, ⟨-, hshort, hreader⟩ |
      ⟨hroom, bs, hbs, ⟨-, hpast, hreader⟩ | ⟨hret, -⟩⟩⟩ := cases_of_getArgBlob h
    · exact ⟨p, hp, Or.inl ⟨hshort, hreader⟩⟩
    · exact ⟨p, hp, Or.inr ⟨hroom, bs, hbs, hpast, hreader⟩⟩
    · exact absurd hret oscError_ne_oscOk
  · rintro ⟨p, hp, ⟨hshort, rfl⟩ | ⟨hroom, bs, hbs, hpast, rfl⟩⟩
    · exact ⟨_, getArgBlob_of_short hp hshort⟩
    · obtain ⟨sz, hsz, heq⟩ := getArgBlob_of_loadBytes (P := P) hp hroom hbs
      rw [hsz, if_pos hpast] at heq
      exact ⟨_, heq⟩

/-- Whatever the kind is, the getter fails where the argument goes past the end. -/
theorem exists_call_error_iff :
    (∃ reader', kind.call P m reader = some (oscError, reader')) ↔ Overruns m reader kind := by
  by_cases hkind : kind = .blob
  · rw [hkind]
    constructor
    · rintro ⟨reader', h⟩
      obtain ⟨p, hp, ⟨hshort, -⟩ | ⟨-, bs, hbs, hpast, -⟩⟩ := getArgBlob_error_iff.mp h
      · exact ⟨p, hp, Or.inl hshort⟩
      · exact ⟨p, hp, Or.inr ⟨bs, hbs, hpast⟩⟩
    · rintro ⟨p, hp, hcases⟩
      by_cases hshort : reader.msgEnd - p < 4
      · exact ⟨reader, getArgBlob_error_iff.mpr ⟨p, hp, Or.inl ⟨hshort, rfl⟩⟩⟩
      · obtain ⟨bs, hbs, hpast⟩ := hcases.resolve_left hshort
        exact ⟨_, getArgBlob_error_iff.mpr
          ⟨p, hp, Or.inr ⟨Int.not_lt.mp hshort, bs, hbs, hpast, rfl⟩⟩⟩
  · constructor
    · rintro ⟨reader', h⟩
      exact ((call_error_iff hkind).mp h).1
    · intro hover
      exact ⟨reader, (call_error_iff hkind).mpr ⟨hover, rfl⟩⟩

end Getter

/-! ## When a failure moves a cursor -/

/-- Where there is no tag, `osc_msg_reader_get_arg` leaves the reader as it is. -/
theorem getArg_of_no_tag
    (hnone : ∀ q b, reader.typePtr = some q → loadByte m q = some b → b = 0)
    {arg arg' : OscArg} {ret : Int} {reader' : OscMsgReader}
    (h : oscMsgReaderGetArg P m base reader arg = some (ret, arg', reader')) :
    reader' = reader := by
  cases htype : reader.typePtr with
  | none =>
      have hkind : ArgKind.ofTag (charByte oscError) = none := rfl
      rw [oscMsgReaderGetArg, oscMsgReaderNextArg, htype, Option.bind_eq_bind,
        Option.bind_some] at h
      simp only [getArgSwitch_unknown hkind] at h
      split at h
      · exact (Prod.mk.inj (Prod.mk.inj (Option.some.inj h)).2).2.symm
      · exact (Prod.mk.inj (Prod.mk.inj (Option.some.inj h)).2).2.symm
  | some q =>
      cases hb : loadByte m q with
      | none =>
          rw [oscMsgReaderGetArg, oscMsgReaderNextArg, htype] at h
          simp only [hb, Option.bind_eq_bind, Option.bind_none] at h
          cases h
      | some b =>
          rw [hnone q b htype hb] at hb
          exact getArg_nul_reader htype hb h

/-- The `switch` fails on a byte that is no tag of the format, and on one whose argument
goes past the end. -/
theorem getArgSwitch_error_iff {b : UInt8} (arg : OscArg) :
    (∃ arg' reader', getArgSwitch P m base b reader arg = some (oscError, arg', reader')) ↔
      ¬ ∃ kind, ArgKind.ofTag b = some kind ∧ ¬ Overruns m reader kind := by
  cases hkind : ArgKind.ofTag b with
  | none =>
      rw [getArgSwitch_unknown hkind]
      refine iff_of_true ⟨_, _, rfl⟩ ?_
      rintro ⟨kind, habs, -⟩
      cases habs
  | some kind =>
      have hover : (∃ kind', some kind = some kind' ∧ ¬ Overruns m reader kind') ↔
          ¬ Overruns m reader kind := by
        simp only [Option.some.injEq, exists_eq_left']
      rw [hover, not_not, ← exists_call_error_iff (P := P)]
      constructor
      · rintro ⟨arg', reader', h⟩
        exact ⟨reader', getArgSwitch_result hkind h⟩
      · rintro ⟨reader', hfail⟩
        rw [← getArgSwitch_call hkind arg] at hfail
        obtain ⟨⟨ret, arg', reader₁⟩, hswitch, heq⟩ := Option.map_eq_some_iff.mp hfail
        obtain ⟨rfl, rfl⟩ := Prod.mk.inj heq
        exact ⟨_, _, hswitch⟩

/-- At a tag, `osc_msg_reader_get_arg` fails if and only if the tag is taken for
`OSC_ERROR`, is no tag of the format or announces an argument that goes past the end. -/
theorem getArg_error_iff {q : Int} {b : UInt8} (htype : reader.typePtr = some q)
    (hb : loadByte m q = some b) (hne : b ≠ 0) (arg : OscArg) :
    (∃ arg' reader', oscMsgReaderGetArg P m base reader arg =
        some (oscError, arg', reader')) ↔
      ¬ (charValue P b ≠ oscError ∧
        (0 ≤ charValue P b → ∃ kind, ArgKind.ofTag b = some kind ∧
          ¬ Overruns m reader kind)) := by
  by_cases hneg : charValue P b < 0
  · rw [getArg_of_neg htype hb hne hneg]
    constructor
    · rintro ⟨arg', reader', h⟩ ⟨herror, -⟩
      exact herror (Prod.mk.inj (Option.some.inj h)).1
    · intro hnot
      have herror : charValue P b = oscError := by
        by_contra hother
        exact hnot ⟨hother, fun hnonneg => by omega⟩
      rw [herror]
      exact ⟨_, _, rfl⟩
  · have herror : charValue P b ≠ oscError := by
      intro heq
      rw [heq] at hneg
      exact hneg (by decide)
    rw [getArg_of_nonneg htype hb hne hneg, getArgSwitch_error_iff]
    apply not_congr
    exact ⟨fun hsome => ⟨herror, fun _ => hsome⟩, fun hsome => hsome.2 (Int.not_lt.mp hneg)⟩

/-- One call of `osc_msg_reader_get_arg`. -/
theorem getArg_keepsCursors_iff (reader : OscMsgReader) (arg : OscArg) :
    KeepsCursors P m base reader (.getArg arg) ↔ FailsFirst P m reader (.getArg arg) := by
  constructor
  · intro hkeeps q b htype hb hne
    by_contra hnot
    obtain ⟨arg', reader', hget⟩ := (getArg_error_iff base htype hb hne arg).mpr hnot
    have hmoved := getArg_typePtr htype hb hne hget
    have hsame := (hkeeps reader' (by rw [ReaderCall.run, hget]; rfl)).1
    rw [hmoved, htype] at hsame
    have hptr := Option.some.inj hsame
    omega
  · intro hfirst reader' hrun
    obtain ⟨⟨ret, arg', reader₁⟩, hget, heq⟩ := Option.map_eq_some_iff.mp hrun
    obtain ⟨rfl, rfl⟩ := Prod.mk.inj heq
    have hnone : ∀ q b, reader.typePtr = some q → loadByte m q = some b → b = 0 := by
      intro q b htype hb
      by_contra hne
      exact (getArg_error_iff base htype hb hne arg).mp ⟨_, _, hget⟩ (hfirst q b htype hb hne)
    rw [getArg_of_no_tag base hnone hget]
    exact ⟨rfl, rfl⟩

/-- One call of the getter of a blob. -/
theorem getArgBlob_keepsCursors_iff (reader : OscMsgReader) :
    KeepsCursors P m base reader .blob ↔ FailsFirst P m reader .blob := by
  constructor
  · intro hkeeps p bs hp hroom hbs
    by_contra hpast
    have hfail := getArgBlob_error_iff (P := P).mpr
      ⟨p, hp, Or.inr ⟨hroom, bs, hbs, by omega, rfl⟩⟩
    have hsame := (hkeeps _ hfail).2
    rw [hp] at hsame
    have hptr := Option.some.inj hsame
    omega
  · intro hfirst reader' hrun
    obtain ⟨p, hp, ⟨-, rfl⟩ | ⟨hroom, bs, hbs, hpast, -⟩⟩ := getArgBlob_error_iff.mp hrun
    · exact ⟨rfl, rfl⟩
    · have hle := hfirst p bs hp hroom hbs
      omega

/-- At every reader, a failing call leaves the cursors alone exactly where it does not
fail after it has moved one. -/
theorem keepsCursors_iff (reader : OscMsgReader) (call : ReaderCall) :
    KeepsCursors P m base reader call ↔ FailsFirst P m reader call := by
  cases call with
  | nextArg => exact Iff.rfl
  | getArg arg => exact getArg_keepsCursors_iff base reader arg
  | direct getter =>
      refine iff_of_true (fun reader' hrun => ?_) trivial
      obtain ⟨-, rfl⟩ := (call_error_iff getter.kind_ne_blob).mp hrun
      exact ⟨rfl, rfl⟩
  | blob => exact getArgBlob_keepsCursors_iff base reader

/-! ## Tags and values in step -/

/-- A getter whose argument fits moves the argument cursor behind it, a blob's provided
that its size can be rounded. -/
theorem ArgCursor.call_of_fits (h : ArgCursor m reader p) (hfits : ¬ Overruns m reader kind)
    (hsane : kind = .blob → 4 ≤ reader.msgEnd - p → 0 ≤ int32Field (m.drop p.toNat) ∧
      int32Field (m.drop p.toNat) < 2147483645) :
    ∃ size, kind.encodedSize m p = some size ∧ p + size ≤ reader.msgEnd ∧
      kind.call P m reader = some (oscOk, { reader with argPtr := some (p + size) }) := by
  by_cases hblob : kind = .blob
  · subst hblob
    have hfour := h.four_le
    have hlength := h.length
    have hroom : 4 ≤ reader.msgEnd - p := by
      by_contra hshort
      exact hfits ⟨p, h.argPtr, Or.inl (by omega)⟩
    obtain ⟨hnonneg, hlt⟩ := hsane rfl hroom
    have hbs := loadBytes_eq_take (m := m) (p := p) (n := 4) (by omega) (by omega)
    have hfield : int32Field ((m.drop p.toNat).take 4) = int32Field (m.drop p.toNat) := by
      rw [int32Field, int32Field, List.take_take, Nat.min_self]
    obtain ⟨sz, hsz, heq⟩ := getArgBlob_of_loadBytes (P := P) h.argPtr hroom hbs
    have hround := round32_eq_roundUp hnonneg hlt
    rw [hsz, hfield, hround] at heq
    have hle : p + 4 + roundUp (int32Field (m.drop p.toNat)).toNat ≤ reader.msgEnd := by
      by_contra hpast
      refine hfits ⟨p, h.argPtr, Or.inr ⟨_, hbs, ?_⟩⟩
      rw [hfield, hround]
      omega
    rw [if_neg (by omega), Int.add_assoc] at heq
    refine ⟨4 + roundUp (int32Field (m.drop p.toNat)).toNat, ?_, by omega, ?_⟩
    · rw [ArgKind.encodedSize, hbs, Option.bind_some, hfield, if_pos hnonneg]
    · rw [ArgKind.call, ArgKind.getter, heq]
      rfl
  · obtain ⟨size, hsize, heq⟩ := h.call_eq (P := P) hblob
    have hle : ¬ reader.msgEnd < p + size := by
      intro hpast
      rw [if_pos hpast] at heq
      exact hfits ((call_error_iff hblob).mp heq).1
    rw [if_neg hle] at heq
    exact ⟨size, hsize, by omega, heq⟩

/-- The reader behind the tags that were consumed and behind their arguments. -/
structure InStep (m : Memory) (q₀ p₀ : Int) (tags rest : List UInt8) (s : TagRun) : Prop where
  atTag : AtTag m q₀ tags rest s
  cursor : ∃ p, ArgCursor m s.reader p ∧ offsetAfter m p₀ (tags.take s.consumed) = some p

section Step

variable {q₀ p₀ : Int} {tags rest : List UInt8} {s s' : TagRun}

/-- A tag that is passed with as many bytes as it stands for. -/
theorem InStep.of_passed (hs' : AtTag m q₀ tags rest s')
    (hlt : s.consumed < tags.length) (hcount : s'.consumed = s.consumed + 1)
    {p p' : Int} {size : Nat} (hp : offsetAfter m p₀ (tags.take s.consumed) = some p)
    (hsize : tagSize m p tags[s.consumed] = some size) (hp' : p' = p + size)
    (hcur : ArgCursor m s'.reader p') : InStep m q₀ p₀ tags rest s' := by
  refine ⟨hs', p', hcur, ?_⟩
  rw [hcount, List.take_succ_eq_append_getElem hlt, offsetAfter_append_singleton, hp,
    Option.bind_some, hsize, Option.map_some, hp']

/-- A call that does not fail, on a tag whose blob has a sane size, keeps both cursors
in step. -/
theorem InStep.step (h : InStep m q₀ p₀ tags rest s) {arg : OscArg}
    (hfirst : FailsFirst P m s.reader (.getArg arg)) (hsane : SaneBlob m s.reader)
    (hstep : getArgTagStep P m base s arg = some s') : InStep m q₀ p₀ tags rest s' := by
  have hs' := h.atTag.step base hstep
  obtain ⟨p, hcur, hp⟩ := h.cursor
  obtain ⟨⟨ret, arg', reader'⟩, hget, hrun⟩ := Option.map_eq_some_iff.mp hstep
  have hreader : reader' = s'.reader := congrArg TagRun.reader hrun
  rcases Nat.lt_or_eq_of_le h.atTag.le with hlt | hend
  · have hb := h.atTag.loadByte_tag hlt
    have hne : tags[s.consumed] ≠ 0 := fun hzero =>
      h.atTag.noNul (hzero ▸ List.getElem_mem hlt)
    have hcount : s'.consumed = s.consumed + 1 := by
      have htype := getArg_typePtr h.atTag.typePtr hb hne hget
      rw [hreader, hs'.typePtr] at htype
      have hptr := Option.some.inj htype
      omega
    obtain ⟨-, hfits⟩ := hfirst _ _ h.atTag.typePtr hb hne
    by_cases hneg : charValue P tags[s.consumed] < 0
    · rw [getArg_of_neg h.atTag.typePtr hb hne hneg] at hget
      have hmoved := (Prod.mk.inj (Prod.mk.inj (Option.some.inj hget)).2).2
      have hkind : ArgKind.ofTag tags[s.consumed] = none := by
        rw [Option.eq_none_iff_forall_ne_some]
        intro kind hkind
        rw [charValue_of_lt (ArgKind.ofTag_lt hkind).2] at hneg
        omega
      refine InStep.of_passed hs' hlt hcount hp (by rw [tagSize, hkind]) (Int.add_zero p).symm ?_
      rw [← hreader, ← hmoved]
      exact hcur.retyped _
    · obtain ⟨kind, hkind, hroom⟩ := hfits (Int.not_lt.mp hneg)
      rw [getArg_of_nonneg h.atTag.typePtr hb hne hneg] at hget
      have hcur₁ := hcur.retyped (some (q₀ + s.consumed + 1))
      obtain ⟨size, hsize, hle, heq⟩ := hcur₁.call_of_fits (P := P) hroom fun hblob hspace => by
        rw [hblob] at hkind
        rw [ArgKind.ofTag_blob hkind] at hb
        exact hsane _ p h.atTag.typePtr hcur.argPtr hb hspace
      have hcall := getArgSwitch_result hkind hget
      have hmoved := (Prod.mk.inj (Option.some.inj (hcall.symm.trans heq))).2
      refine InStep.of_passed hs' hlt hcount hp (by rw [tagSize, hkind]; exact hsize) rfl ?_
      rw [← hreader, hmoved]
      exact hcur₁.moved (by omega) hle
  · obtain ⟨b, hb, hzero⟩ := h.atTag.next
    rw [hzero.mpr hend] at hb
    have hsame := getArg_nul_reader h.atTag.typePtr hb hget
    have hcount : s'.consumed = s.consumed := by
      have htype := hs'.typePtr
      rw [← hreader, hsame, h.atTag.typePtr] at htype
      have hptr := Option.some.inj htype
      omega
    refine ⟨hs', p, ?_, by rw [hcount, hp]⟩
    rw [← hreader, hsame]
    exact hcur

end Step

/-- From the initialisation of a message on, in any run of calls, a failure leaves both
cursors alone if and only if no call fails after it has moved one; and while that is so,
and no blob has a size that cannot be rounded, `osc_msg_reader_get_arg` decodes every
value behind the arguments of all earlier tags. -/
theorem along_keepsCursors_iff (P : Platform) (base : Int) (buffer : Memory)
    (reader₀ reader : OscMsgReader) (hlen : buffer.length < 2147483648)
    (hinit : oscMsgReaderInit (buffer ++ [0]) reader₀ 0 buffer.length = some (oscOk, reader)) :
    (∀ calls, Along (readerStep P (buffer ++ [0]) base) (KeepsCursors P (buffer ++ [0]) base)
        reader calls ↔
      Along (readerStep P (buffer ++ [0]) base) (FailsFirst P (buffer ++ [0])) reader calls) ∧
    (oscMsgReaderIsTyped reader → ∃ q p₀ tags, reader.typePtr = some q ∧
      reader.argPtr = some p₀ ∧ stringAt (buffer ++ [0]) q = some tags ∧
      ∀ args, Along (getArgTagStep P (buffer ++ [0]) base)
          (fun s arg => FailsFirst P (buffer ++ [0]) s.reader (.getArg arg) ∧
            SaneBlob (buffer ++ [0]) s.reader) ⟨reader, 0⟩ args →
        Along (getArgTagStep P (buffer ++ [0]) base)
          (DecodedInPlace P (buffer ++ [0]) base p₀ tags) ⟨reader, 0⟩ args) := by
  constructor
  · intro calls
    exact along_iff_of_invariant (G := fun _ _ => True) (fun _ => True)
      (fun r call _ _ => keepsCursors_iff base r call) (fun _ _ _ _ _ _ _ => trivial) trivial
      (along_of_forall (fun _ _ => trivial) _ _)
  · intro htyped
    obtain ⟨q, tags, rest, htype, hat⟩ := exists_atTag hinit htyped
    rcases argCursor_of_init hlen hinit with hnull | ⟨p₀, hcur⟩
    · cases accepted_of_init hinit with
      | address hn hfills => exact absurd htyped Bool.false_ne_true
      | untyped hn ha hlt hb hne => exact absurd htyped Bool.false_ne_true
      | typed hn ha hlt hb hk hle => cases hnull
    · refine ⟨q, p₀, tags, htype, hcur.argPtr, hat.tags_at.stringAt hat.noNul, fun args hargs => ?_⟩
      refine along_of_invariant (InStep (buffer ++ [0]) q p₀ tags rest) ?_ ?_ ⟨hat, p₀, hcur, rfl⟩
        hargs
      · intro s arg hs _ arg' reader' _
        obtain ⟨p, hp, hoffset⟩ := hs.cursor
        exact ⟨p, hoffset, hp.argPtr⟩
      · intro s arg s' hs hcond hstep
        exact hs.step base hcond.1 hcond.2 hstep

theorem along_keepsCursors_intMessage :
    ∃ reader, oscMsgReaderInit (intMessage ++ [0]) ⟨0, 0, none, none⟩ 0 intMessage.length =
        some (oscOk, reader) ∧
      Along (readerStep littleHost (intMessage ++ [0]) 0)
        (KeepsCursors littleHost (intMessage ++ [0]) 0) reader
        [.direct .double, .direct .int32, .blob] ∧
      ∃ tags, Along (getArgTagStep littleHost (intMessage ++ [0]) 0)
        (DecodedInPlace littleHost (intMessage ++ [0]) 0 8 tags) ⟨reader, 0⟩ [zeroArg] := by
  refine ⟨⟨0, 12, some 5, some 8⟩, rfl, ?_⟩
  obtain ⟨hkeeps, hplace⟩ := along_keepsCursors_iff littleHost 0 intMessage ⟨0, 0, none, none⟩
    ⟨0, 12, some 5, some 8⟩ (by decide) rfl
  constructor
  · refine (hkeeps _).mpr ?_
    rw [along_cons_of_eq_some rfl, along_cons_of_eq_some rfl, along_cons_of_eq_some rfl]
    refine ⟨trivial, trivial, ?_, along_nil _⟩
    intro p bs hp hroom
    obtain rfl := Option.some.inj hp
    exact absurd hroom (by decide)
  · obtain ⟨q, p₀, tags, hq, hp, -, hargs⟩ := hplace rfl
    obtain rfl := Option.some.inj hq
    obtain rfl := Option.some.inj hp
    refine ⟨tags, hargs [zeroArg] ?_⟩
    rw [along_cons_of_eq_some rfl]
    refine ⟨⟨?_, ?_⟩, along_nil _⟩
    · intro q b hq hb _
      obtain rfl := Option.some.inj hq
      obtain rfl := Option.some.inj hb
      refine ⟨by decide, fun _ => ⟨.int32, rfl, ?_⟩⟩
      rintro ⟨p, hp, hshort⟩
      obtain rfl := Option.some.inj hp
      exact absurd hshort (by decide)
    · intro q p hq _ hb
      obtain rfl := Option.some.inj hq
      exact absurd hb (by decide)

/-- The message `/a ,hi` with four bytes of arguments. -/
def shortMessage : Memory := [47, 97, 0, 0, 44, 104, 105, 0, 0, 0, 0, 7]

/-- The first call fails and consumes the tag `h`; the second takes the bytes of `h` for
the argument of `i`. -/
theorem shortMessage_not_keepsCursors :
    ∃ reader, oscMsgReaderInit (shortMessage ++ [0]) ⟨0, 0, none, none⟩ 0 shortMessage.length =
        some (oscOk, reader) ∧ reader.argPtr = some 8 ∧
      ¬ Along (readerStep littleHost (shortMessage ++ [0]) 0)
        (KeepsCursors littleHost (shortMessage ++ [0]) 0) reader [.getArg zeroArg] ∧
      ¬ Along (getArgTagStep littleHost (shortMessage ++ [0]) 0)
        (DecodedInPlace littleHost (shortMessage ++ [0]) 0 8 [104, 105]) ⟨reader, 0⟩
        [zeroArg, zeroArg] := by
  refine ⟨⟨0, 12, some 5, some 8⟩, rfl, rfl, ?_, ?_⟩
  · rintro ⟨hkeeps, -⟩
    exact absurd (hkeeps _ rfl).1 (by decide)
  · rw [along_cons_of_eq_some rfl]
    rintro ⟨-, hplace, -⟩
    obtain ⟨p, hp, hptr⟩ := hplace _ _ rfl
    obtain rfl := Option.some.inj hptr
    exact absurd hp (by decide)

end LittleOscar
