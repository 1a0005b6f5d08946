import LittleOscar.Osc.Format
import LittleOscar.Osc.Reader.Definitions

/-!
# What the getters return

Each getter has one lemma for a message that is long enough for its argument and one
for a message that is too short. The first is stated for bytes that lie at the
argument pointer, so that the loads disappear from every later proof; `native` loads
followed by `osc_ntoh32` and `osc_ntoh64` are big-endian loads.

The `switch` of `osc_msg_reader_get_arg` tells the tags apart by the kind of their
argument, an `ArgKind`; `getArgSwitch_eq` splits it once and for all.
-/

namespace LittleOscar

open Machine

variable {P : Platform} {m : Memory}

theorem loadNative_at {p : Int} {bs : List UInt8} (h : At m p bs) :
    loadNative P m p bs.length = some (ofNative P.order bs) := by
  rw [loadNative, h.loadBytes]
  rfl

theorem nonneg_of_loadNative {p : Int} {k raw : Nat} (hk : 0 < k)
    (h : loadNative P m p k = some raw) : 0 ≤ p := by
  obtain ⟨bs, hbs, -⟩ := Option.map_eq_some_iff.mp h
  exact nonneg_of_loadBytes hk hbs

/-- The bytes that a pointer into the object points to. -/
theorem at_take {p : Int} {k : Nat} (hp : 0 ≤ p) (hle : p + k ≤ m.length) :
    At m p ((m.drop p.toNat).take k) := by
  refine ⟨m.take p.toNat, (m.drop p.toNat).drop k, ?_, ?_⟩
  · rw [List.take_append_drop, List.take_append_drop]
  · rw [List.length_take]
    omega

theorem length_take_drop {p : Int} {k : Nat} (hp : 0 ≤ p) (hle : p + k ≤ m.length) :
    ((m.drop p.toNat).take k).length = k := by
  rw [List.length_take, List.length_drop]
  omega

/-- A native load of four bytes goes through `osc_ntoh32` to the field that is
there. -/
theorem loadNative_int32Field {p : Int} (hp : 0 ≤ p) (hle : p + 4 ≤ m.length) :
    ∃ raw, loadNative P m p 4 = some raw ∧
      (oscNtoh32 P (UInt32.ofNat raw)).toInt32.toInt = int32Field (m.drop p.toNat) := by
  have hfour := length_take_drop (k := 4) hp hle
  have hload := loadNative_at (P := P) (at_take (k := 4) hp hle)
  have hword := ofBigEndian_lt ((m.drop p.toNat).take 4)
  rw [hfour] at hload hword
  refine ⟨_, hload, ?_⟩
  rw [oscNtoh32_ofNative P hfour, toInt_toInt32, toNat_ofNat_four hword,
    int32Field]

/-- The size in the first four bytes behind a pointer. -/
theorem int32Field_of_loadBytes {bs : List UInt8} (h : loadBytes m p 4 = some bs) :
    int32Field bs = int32Field (m.drop p.toNat) := by
  have hend := le_length_of_loadBytes (by decide) h
  have hp := nonneg_of_loadBytes (by decide) h
  rw [loadBytes_eq_take hp hend] at h
  rw [← Option.some.inj h, int32Field, int32Field, List.take_take, Nat.min_self]

/-- The next tag is returned and passed, unless it is the NUL behind the tags. -/
theorem nextArg_eq {reader : OscMsgReader} {q : Int} {b : UInt8}
    (htype : reader.typePtr = some q) (hb : loadByte m q = some b) :
    oscMsgReaderNextArg m reader =
      if b ≠ 0 then some (b, { reader with typePtr := some (q + 1) })
      else some (charByte oscEnd, reader) := by
  rw [oscMsgReaderNextArg, htype]
  simp only [hb, Option.bind_eq_bind, Option.bind_some]

section Fixed

variable {α : Type} {k : Nat} {decode : Nat → α} {reader : OscMsgReader} {p : Int}

theorem readFixed_of_short (harg : reader.argPtr = some p) (h : reader.msgEnd - p < k) :
    readFixed P m k decode reader = some (oscError, none, reader) := by
  rw [readFixed, harg, Option.bind_eq_bind, Option.bind_some, if_pos h]

/-- An instance of `READ_FIXED` fails in front of the end of the message and moves
nothing, or it gives what it has loaded. -/
theorem cases_of_readFixed {ret : Int} {val : Option α} {reader' : OscMsgReader}
    (h : readFixed P m k decode reader = some (ret, val, reader')) :
    ∃ p, reader.argPtr = some p ∧
      ((ret = oscError ∧ reader.msgEnd - p < k ∧ val = none ∧ reader' = reader) ∨
        (ret = oscOk ∧ ¬ reader.msgEnd - p < k ∧
          ∃ raw, loadNative P m p k = some raw ∧ val = some (decode raw) ∧
            reader' = { reader with argPtr := some (p + k) })) := by
  simp only [readFixed, Option.bind_eq_bind] at h
  obtain ⟨p, hp, hrest⟩ := Option.bind_eq_some_iff.mp h
  refine ⟨p, hp, ?_⟩
  split at hrest
  · next hshort =>
      obtain ⟨rfl, hout⟩ := Prod.mk.inj (Option.some.inj hrest)
      obtain ⟨rfl, rfl⟩ := Prod.mk.inj hout
      exact Or.inl ⟨rfl, hshort, rfl, rfl⟩
  · next hroom =>
      obtain ⟨raw, hraw, hresult⟩ := Option.bind_eq_some_iff.mp hrest
      obtain ⟨rfl, hout⟩ := Prod.mk.inj (Option.some.inj hresult)
      obtain ⟨rfl, rfl⟩ := Prod.mk.inj hout
      exact Or.inr ⟨rfl, hroom, raw, hraw, rfl, rfl⟩

/-- One that assigns nothing has failed. -/
theorem readFixed_none {ret : Int} {reader' : OscMsgReader}
    (h : readFixed P m k decode reader = some (ret, none, reader')) : ret ≠ oscOk := by
  obtain ⟨p, -, ⟨hret, -⟩ | ⟨-, -, raw, -, hval, -⟩⟩ := cases_of_readFixed h
  · rw [hret]
    exact oscError_ne_oscOk
  · cases hval

theorem readFixed_of_at {bs : List UInt8} (harg : reader.argPtr = some p)
    (hat : At m p bs) (hk : bs.length = k) (h : p + k ≤ reader.msgEnd) :
    readFixed P m k decode reader = some (oscOk, some (decode (ofNative P.order bs)),
      { reader with argPtr := some (p + k) }) := by
  have hload := loadNative_at (P := P) hat
  rw [hk] at hload
  rw [readFixed, harg, Option.bind_eq_bind, Option.bind_some, if_neg (by omega), hload]
  rfl

end Fixed

section Getter

variable {reader : OscMsgReader} {p : Int}

/-- `READ_FIXED` for an `int32_t`, whatever is in the message. -/
theorem getArgInt32_of_room (harg : reader.argPtr = some p) (hp : 0 ≤ p)
    (h : p + 4 ≤ reader.msgEnd) (hend : p + 4 ≤ m.length) :
    ∃ sz : Int32, sz.toInt = int32Field (m.drop p.toNat) ∧
      oscMsgReaderGetArgInt32 P m reader =
        some (oscOk, some sz, { reader with argPtr := some (p + 4) }) := by
  obtain ⟨raw, hraw, hfield⟩ := loadNative_int32Field (P := P) (m := m) hp hend
  refine ⟨_, hfield, ?_⟩
  rw [oscMsgReaderGetArgInt32, readFixed, harg, Option.bind_eq_bind, Option.bind_some,
    if_neg (by omega), hraw]
  rfl

/-- The length of a string goes through an `int` unchanged. -/
theorem wrap32_round32Size {n : Nat} (h : n < 2147483644) :
    wrap32 (round32Size (n + 1)) = paddedSize n := by
  have hround := round32Size_eq_roundUp (n := n + 1) (by omega)
  have hlt := roundUp_lt (n + 1)
  have hmod := roundUp_mod (n + 1)
  rw [hround, paddedSize]
  exact wrap32_of_range (by omega) (by omega)

theorem getArgStr_eq {n : Nat} (harg : reader.argPtr = some p) (hn : strlen m p = some n)
    (hlt : n < 2147483644) :
    oscMsgReaderGetArgStr m reader =
      if p + paddedSize n > reader.msgEnd then some (oscError, none, reader)
      else some (oscOk, some p, { reader with argPtr := some (p + paddedSize n) }) := by
  rw [oscMsgReaderGetArgStr, harg, Option.bind_eq_bind, Option.bind_some, hn,
    Option.bind_eq_bind, Option.bind_some, wrap32_round32Size hlt]

/-- The getter of a string fails where it goes past the end and moves nothing, or it
gives the string. -/
theorem cases_of_getArgStr {ret : Int} {val : Option Int} {reader' : OscMsgReader}
    (h : oscMsgReaderGetArgStr m reader = some (ret, val, reader')) :
    ∃ p n, reader.argPtr = some p ∧ strlen m p = some n ∧
      ((ret = oscError ∧ reader.msgEnd < p + wrap32 (round32Size (n + 1)) ∧ val = none ∧
          reader' = reader) ∨
        (ret = oscOk ∧ val = some p ∧
          reader' = { reader with argPtr := some (p + wrap32 (round32Size (n + 1))) })) := by
  simp only [oscMsgReaderGetArgStr, Option.bind_eq_bind] at h
  obtain ⟨p, hp, hstr⟩ := Option.bind_eq_some_iff.mp h
  obtain ⟨n, hn, hrest⟩ := Option.bind_eq_some_iff.mp hstr
  refine ⟨p, n, hp, hn, ?_⟩
  split at hrest
  · next hpast =>
      obtain ⟨rfl, hout⟩ := Prod.mk.inj (Option.some.inj hrest)
      obtain ⟨rfl, rfl⟩ := Prod.mk.inj hout
      exact Or.inl ⟨rfl, hpast, rfl, rfl⟩
  · obtain ⟨rfl, hout⟩ := Prod.mk.inj (Option.some.inj hrest)
    obtain ⟨rfl, rfl⟩ := Prod.mk.inj hout
    exact Or.inr ⟨rfl, rfl, rfl⟩

/-- One that assigns nothing has failed. -/
theorem getArgStr_none {ret : Int} {reader' : OscMsgReader}
    (h : oscMsgReaderGetArgStr m reader = some (ret, none, reader')) : ret ≠ oscOk := by
  obtain ⟨p, n, -, -, ⟨hret, -⟩ | ⟨-, hval, -⟩⟩ := cases_of_getArgStr h
  · rw [hret]
    exact oscError_ne_oscOk
  · cases hval

theorem getArgBlob_of_short (harg : reader.argPtr = some p) (h : reader.msgEnd - p < 4) :
    oscMsgReaderGetArgBlob P m reader = some (oscError, ⟨none, none⟩, reader) := by
  rw [oscMsgReaderGetArgBlob, oscMsgReaderGetArgInt32, readFixed_of_short harg h]
  rfl

theorem getArgBlob_eq {reader₁ : OscMsgReader} {sz : Int32}
    (h : oscMsgReaderGetArgInt32 P m reader = some (oscOk, some sz, reader₁))
    (harg : reader₁.argPtr = some p) :
    oscMsgReaderGetArgBlob P m reader =
      if p + round32 sz.toInt > reader₁.msgEnd then
        some (oscError, ⟨some sz, none⟩, reader₁)
      else some (oscOk, ⟨some sz, some p⟩,
        { reader₁ with argPtr := some (p + round32 sz.toInt) }) := by
  rw [oscMsgReaderGetArgBlob, h, Option.bind_eq_bind, Option.bind_some]
  simp only [harg, Option.bind_eq_bind, Option.bind_some]

/-- What the getter of a blob does at bytes that can be loaded. -/
theorem getArgBlob_of_loadBytes {bs : List UInt8} (harg : reader.argPtr = some p)
    (hroom : 4 ≤ reader.msgEnd - p) (hbs : loadBytes m p 4 = some bs) :
    ∃ sz : Int32, sz.toInt = int32Field bs ∧
      oscMsgReaderGetArgBlob P m reader =
        if p + 4 + round32 sz.toInt > reader.msgEnd then
          some (oscError, ⟨some sz, none⟩, { reader with argPtr := some (p + 4) })
        else some (oscOk, ⟨some sz, some (p + 4)⟩,
          { reader with argPtr := some (p + 4 + round32 sz.toInt) }) := by
  have hend := le_length_of_loadBytes (by decide) hbs
  have hp := nonneg_of_loadBytes (by decide) hbs
  obtain ⟨sz, hsz, hget⟩ := getArgInt32_of_room (P := P) harg hp (by omega) hend
  exact ⟨sz, hsz.trans (int32Field_of_loadBytes hbs).symm, getArgBlob_eq hget rfl⟩

/-- The getter of a blob fails in front of the size, or it has moved over the size and
fails there, or it gives the blob. -/
theorem cases_of_getArgBlob {ret : Int} {out : OscBlob} {reader' : OscMsgReader}
    (h : oscMsgReaderGetArgBlob P m reader = some (ret, out, reader')) :
    ∃ p, reader.argPtr = some p ∧
      ((ret = oscError ∧ reader.msgEnd - p < 4 ∧ reader' = reader) ∨
        (4 ≤ reader.msgEnd - p ∧ ∃ bs, loadBytes m p 4 = some bs ∧
          ((ret = oscError ∧ reader.msgEnd < p + 4 + round32 (int32Field bs) ∧
              reader' = { reader with argPtr := some (p + 4) }) ∨
            (ret = oscOk ∧ p + 4 + round32 (int32Field bs) ≤ reader.msgEnd ∧
              reader' = { reader with
                argPtr := some (p + 4 + round32 (int32Field bs)) })))) := by
  have hcall := h
  rw [oscMsgReaderGetArgBlob, Option.bind_eq_bind] at h
  obtain ⟨⟨ret₁, sz₁, reader₁⟩, hget, -⟩ := Option.bind_eq_some_iff.mp h
  obtain ⟨p, hp, ⟨-, hshort, -⟩ | ⟨-, hroom, raw, hraw, -⟩⟩ := cases_of_readFixed hget
  · rw [getArgBlob_of_short hp hshort] at hcall
    obtain ⟨rfl, hrest⟩ := Prod.mk.inj (Option.some.inj hcall)
    exact ⟨p, hp, Or.inl ⟨rfl, hshort, (Prod.mk.inj hrest).2.symm⟩⟩
  · obtain ⟨bs, hbs, -⟩ := Option.map_eq_some_iff.mp hraw
    obtain ⟨sz, hsz, heq⟩ := getArgBlob_of_loadBytes (P := P) hp (Int.not_lt.mp hroom) hbs
    rw [heq, hsz] at hcall
    refine ⟨p, hp, Or.inr ⟨Int.not_lt.mp hroom, bs, hbs, ?_⟩⟩
    split at hcall
    · next hpast =>
        obtain ⟨rfl, hrest⟩ := Prod.mk.inj (Option.some.inj hcall)
        exact Or.inl ⟨rfl, hpast, (Prod.mk.inj hrest).2.symm⟩
    · next hpast =>
        obtain ⟨rfl, hrest⟩ := Prod.mk.inj (Option.some.inj hcall)
        exact Or.inr ⟨rfl, Int.not_lt.mp hpast, (Prod.mk.inj hrest).2.symm⟩

end Getter

/-! ## The kinds of argument -/

/-- The kinds of argument that `osc_msg_reader_get_arg` tells apart. -/
inductive ArgKind where
  | empty
  | int32
  | int64
  | timetag
  | float
  | double
  | str
  | blob
  deriving DecidableEq, Repr

/-- The kind of argument that a tag announces, if it is a tag of the format. -/
def ArgKind.ofTag (t : UInt8) : Option ArgKind :=
  if t = 'T'.toUInt8 ∨ t = 'F'.toUInt8 ∨ t = 'N'.toUInt8 ∨ t = 'I'.toUInt8 then some .empty
  else if t = 'i'.toUInt8 then some .int32
  else if t = 'h'.toUInt8 then some .int64
  else if t = 't'.toUInt8 then some .timetag
  else if t = 'f'.toUInt8 then some .float
  else if t = 'd'.toUInt8 then some .double
  else if t = 'k'.toUInt8 ∨ t = 's'.toUInt8 ∨ t = 'S'.toUInt8 then some .str
  else if t = 'b'.toUInt8 then some .blob
  else none

/-- The tags of a kind of argument. -/
def ArgKind.tags : ArgKind → List UInt8
  | .empty => ['T', 'F', 'N', 'I'].map Char.toUInt8
  | .int32 => ['i'.toUInt8]
  | .int64 => ['h'.toUInt8]
  | .timetag => ['t'.toUInt8]
  | .float => ['f'.toUInt8]
  | .double => ['d'.toUInt8]
  | .str => ['k', 's', 'S'].map Char.toUInt8
  | .blob => ['b'.toUInt8]

section Kind

variable (P m) in
/-- The case of the `switch` for a kind of argument. -/
def ArgKind.assign (base : Int) (reader : OscMsgReader) (arg : OscArg) :
    ArgKind → Option (Int × OscArg × OscMsgReader)
  | .empty => some (oscOk, arg, reader)
  | .int32 => (oscMsgReaderGetArgInt32 P m reader).map fun (ret, val, reader) =>
      (ret, val.elim arg fun v => arg.set32 P v.toUInt32, reader)
  | .int64 => (oscMsgReaderGetArgInt64 P m reader).map fun (ret, val, reader) =>
      (ret, val.elim arg fun v => arg.set64 P v.toUInt64, reader)
  | .timetag => (oscMsgReaderGetArgTimetag P m reader).map fun (ret, val, reader) =>
      (ret, val.elim arg fun v => arg.set64 P v, reader)
  | .float => (oscMsgReaderGetArgFloat P m reader).map fun (ret, val, reader) =>
      (ret, val.elim arg fun v => arg.set32 P v, reader)
  | .double => (oscMsgReaderGetArgDouble P m reader).map fun (ret, val, reader) =>
      (ret, val.elim arg fun v => arg.set64 P v, reader)
  | .str => (oscMsgReaderGetArgStr m reader).map fun (ret, val, reader) =>
      (ret, val.elim arg fun p => arg.set64 P (address base p), reader)
  | .blob => (oscMsgReaderGetArgBlob P m reader).map fun (ret, out, reader) =>
      let arg := out.sz.elim arg fun sz => arg.set32 P sz.toUInt32
      (ret, out.val.elim arg fun p => arg.set64 P (address base p), reader)

variable {base : Int} {reader : OscMsgReader} {t : UInt8} {kind : ArgKind}

theorem ArgKind.mem_tags (h : ofTag t = some kind) : t ∈ kind.tags := by
  rw [ofTag] at h
  rcases ite_eq_iff.mp h with ⟨ht, h⟩ | ⟨-, h⟩
  · rw [← Option.some.inj h]
    rcases ht with rfl | rfl | rfl | rfl <;> decide
  rcases ite_eq_iff.mp h with ⟨rfl, h⟩ | ⟨-, h⟩
  · rw [← Option.some.inj h]
    decide
  rcases ite_eq_iff.mp h with ⟨rfl, h⟩ | ⟨-, h⟩
  · rw [← Option.some.inj h]
    decide
  rcases ite_eq_iff.mp h with ⟨rfl, h⟩ | ⟨-, h⟩
  · rw [← Option.some.inj h]
    decide
  rcases ite_eq_iff.mp h with ⟨rfl, h⟩ | ⟨-, h⟩
  · rw [← Option.some.inj h]
    decide
  rcases ite_eq_iff.mp h with ⟨rfl, h⟩ | ⟨-, h⟩
  · rw [← Option.some.inj h]
    decide
  rcases ite_eq_iff.mp h with ⟨ht, h⟩ | ⟨-, h⟩
  · rw [← Option.some.inj h]
    rcases ht with rfl | rfl | rfl <;> decide
  rcases ite_eq_iff.mp h with ⟨rfl, h⟩ | ⟨-, h⟩
  · rw [← Option.some.inj h]
    decide
  · cases h

/-- The tags of the format are positive as a `char`, signed or not. -/
theorem ArgKind.ofTag_lt (h : ofTag t = some kind) : t ≠ 0 ∧ t.toNat < 128 := by
  have htags : kind.tags.all (fun b => b ≠ 0 ∧ b.toNat < 128) = true := by
    cases kind <;> decide
  exact of_decide_eq_true (List.all_eq_true.mp htags t (mem_tags h))

theorem ArgKind.ofTag_blob (h : ofTag t = some .blob) : t = 'b'.toUInt8 :=
  List.mem_singleton.mp (mem_tags h)

/-- The `switch` distinguishes the tags by their kinds. -/
theorem getArgSwitch_eq (t : UInt8) (arg : OscArg) :
    getArgSwitch P m base t reader arg =
      (ArgKind.ofTag t).elim (some (oscError, arg, reader))
        (ArgKind.assign P m base reader arg) := by
  have hite : ∀ (c : Prop) [Decidable c] (kind : ArgKind) (rest : Option ArgKind),
      (if c then some kind else rest).elim (some (oscError, arg, reader))
          (ArgKind.assign P m base reader arg) =
        if c then ArgKind.assign P m base reader arg kind
        else rest.elim (some (oscError, arg, reader)) (ArgKind.assign P m base reader arg) := by
    intro c _ kind rest
    split <;> rfl
  rw [ArgKind.ofTag, hite, hite, hite, hite, hite, hite, hite, hite]
  rfl

theorem getArgSwitch_of_kind (hkind : ArgKind.ofTag t = some kind) (arg : OscArg) :
    getArgSwitch P m base t reader arg = kind.assign P m base reader arg := by
  rw [getArgSwitch_eq, hkind, Option.elim_some]

/-- A byte that is no tag of the format is refused. -/
theorem getArgSwitch_unknown (hkind : ArgKind.ofTag t = none) (arg : OscArg) :
    getArgSwitch P m base t reader arg = some (oscError, arg, reader) := by
  rw [getArgSwitch_eq, hkind, Option.elim_none]

end Kind

/-! ## What no getter changes -/

/-- A call returned `OSC_OK` or `OSC_ERROR` and moved at most the argument pointer. -/
structure GetterFrame (reader : OscMsgReader) (ret : Int) (reader' : OscMsgReader) : Prop where
  ret : ret = oscOk ∨ ret = oscError
  msgPtr : reader'.msgPtr = reader.msgPtr
  msgEnd : reader'.msgEnd = reader.msgEnd
  typePtr : reader'.typePtr = reader.typePtr

section Frame

variable {reader reader' : OscMsgReader} {ret : Int}

theorem GetterFrame.failed : GetterFrame reader oscError reader := ⟨Or.inr rfl, rfl, rfl, rfl⟩

theorem GetterFrame.moved (p : Option Int) :
    GetterFrame reader oscOk { reader with argPtr := p } := ⟨Or.inl rfl, rfl, rfl, rfl⟩

theorem readFixed_frame {α : Type} {k : Nat} {decode : Nat → α} {val : Option α}
    (h : readFixed P m k decode reader = some (ret, val, reader')) :
    GetterFrame reader ret reader' := by
  obtain ⟨p, -, ⟨rfl, -, -, rfl⟩ | ⟨rfl, -, raw, -, -, rfl⟩⟩ := cases_of_readFixed h
  · exact GetterFrame.failed
  · exact GetterFrame.moved _

theorem getArgStr_frame {val : Option Int}
    (h : oscMsgReaderGetArgStr m reader = some (ret, val, reader')) :
    GetterFrame reader ret reader' := by
  obtain ⟨p, n, -, -, ⟨rfl, -, -, rfl⟩ | ⟨rfl, -, rfl⟩⟩ := cases_of_getArgStr h
  · exact GetterFrame.failed
  · exact GetterFrame.moved _

theorem getArgBlob_frame {out : OscBlob}
    (h : oscMsgReaderGetArgBlob P m reader = some (ret, out, reader')) :
    GetterFrame reader ret reader' := by
  obtain ⟨p, -, ⟨rfl, -, rfl⟩ | ⟨-, bs, -, ⟨rfl, -, rfl⟩ | ⟨rfl, -, rfl⟩⟩⟩ :=
    cases_of_getArgBlob h
  · exact GetterFrame.failed
  · exact ⟨Or.inr rfl, rfl, rfl, rfl⟩
  · exact GetterFrame.moved _

/-- A getter whose output goes into an `osc_arg_t`. -/
theorem GetterFrame.of_map {α : Type} {getter : Option (Int × α × OscMsgReader)}
    {store : Int × α × OscMsgReader → Int × OscArg × OscMsgReader} {arg : OscArg}
    (h : getter.map store = some (ret, arg, reader'))
    (hstore : ∀ ret val reader', ∃ arg', store (ret, val, reader') = (ret, arg', reader'))
    (hframe : ∀ ret val reader', getter = some (ret, val, reader') →
      GetterFrame reader ret reader') : GetterFrame reader ret reader' := by
  obtain ⟨⟨ret₁, val, reader₁⟩, hget, h⟩ := Option.map_eq_some_iff.mp h
  obtain ⟨arg', hstore⟩ := hstore ret₁ val reader₁
  rw [hstore] at h
  obtain ⟨rfl, hrest⟩ := Prod.mk.inj h
  obtain ⟨-, rfl⟩ := Prod.mk.inj hrest
  exact hframe _ _ _ hget

/-- No case of the `switch` moves the tag pointer. -/
theorem getArgSwitch_frame {base : Int} {t : UInt8} {arg arg' : OscArg}
    (h : getArgSwitch P m base t reader arg = some (ret, arg', reader')) :
    GetterFrame reader ret reader' := by
  rw [getArgSwitch_eq] at h
  cases hkind : ArgKind.ofTag t with
  | none =>
      rw [hkind] at h
      cases h
      exact GetterFrame.failed
  | some kind =>
      rw [hkind, Option.elim_some] at h
      cases kind with
      | empty =>
          cases h
          exact GetterFrame.moved reader.argPtr
      | int32 | int64 | timetag | float | double =>
          exact GetterFrame.of_map h (fun _ _ _ => ⟨_, rfl⟩) fun _ _ _ => readFixed_frame
      | str => exact GetterFrame.of_map h (fun _ _ _ => ⟨_, rfl⟩) fun _ _ _ => getArgStr_frame
      | blob => exact GetterFrame.of_map h (fun _ _ _ => ⟨_, rfl⟩) fun _ _ _ => getArgBlob_frame

end Frame

/-! ## One call for the tag and the argument -/

section Tag

variable {base : Int} {reader : OscMsgReader} {q : Int} {b : UInt8}

theorem charValue_of_lt (h : b.toNat < 128) : charValue P b = b.toNat := by
  rw [charValue, if_neg (fun hneg => absurd hneg.2 (by omega))]

theorem charValue_of_unsigned (h : ¬ P.charSigned) : charValue P b = b.toNat := by
  rw [charValue, if_neg (fun hneg => h hneg.1)]

/-- A tag that is negative as a `char` is returned as it is. -/
theorem getArg_of_neg (htype : reader.typePtr = some q) (hb : loadByte m q = some b)
    (hne : b ≠ 0) (hneg : charValue P b < 0) (arg : OscArg) :
    oscMsgReaderGetArg P m base reader arg =
      some (charValue P b, arg, { reader with typePtr := some (q + 1) }) := by
  rw [oscMsgReaderGetArg, nextArg_eq htype hb, if_pos hne, Option.bind_eq_bind,
    Option.bind_some]
  exact if_pos hneg

/-- Any other tag goes on to the `switch`. -/
theorem getArg_of_nonneg (htype : reader.typePtr = some q) (hb : loadByte m q = some b)
    (hne : b ≠ 0) (hnonneg : ¬ charValue P b < 0) (arg : OscArg) :
    oscMsgReaderGetArg P m base reader arg = getArgSwitch P m base b
      { reader with typePtr := some (q + 1) } { arg with type := b } := by
  rw [oscMsgReaderGetArg, nextArg_eq htype hb, if_pos hne, Option.bind_eq_bind,
    Option.bind_some]
  exact if_neg hnonneg

theorem getArg_of_nul_signed (hP : P.charSigned) (htype : reader.typePtr = some q)
    (hb : loadByte m q = some 0) (arg : OscArg) :
    oscMsgReaderGetArg P m base reader arg = some (oscEnd, arg, reader) := by
  rw [oscMsgReaderGetArg, nextArg_eq htype hb, if_neg (not_not_intro rfl),
    Option.bind_eq_bind, Option.bind_some]
  simp only [charValue_charByte_oscEnd P hP]
  exact if_pos (by decide)

/-- Where `char` is unsigned, the end of the tags is taken for a tag. -/
theorem getArg_of_nul_unsigned (hP : ¬ P.charSigned) (htype : reader.typePtr = some q)
    (hb : loadByte m q = some 0) (arg : OscArg) :
    oscMsgReaderGetArg P m base reader arg =
      some (oscError, { arg with type := charByte oscEnd }, reader) := by
  rw [oscMsgReaderGetArg, nextArg_eq htype hb, if_neg (not_not_intro rfl),
    Option.bind_eq_bind, Option.bind_some]
  simp only [charValue_of_unsigned hP]
  rw [if_neg (by decide)]
  exact getArgSwitch_unknown (by decide) _

/-- Behind the tags, the reader stays as it is. -/
theorem getArg_nul_reader (htype : reader.typePtr = some q) (hb : loadByte m q = some 0)
    {arg arg' : OscArg} {ret : Int} {reader' : OscMsgReader}
    (h : oscMsgReaderGetArg P m base reader arg = some (ret, arg', reader')) :
    reader' = reader := by
  by_cases hP : P.charSigned
  · rw [getArg_of_nul_signed hP htype hb] at h
    exact (Prod.mk.inj (Prod.mk.inj (Option.some.inj h)).2).2.symm
  · rw [getArg_of_nul_unsigned hP htype hb] at h
    exact (Prod.mk.inj (Prod.mk.inj (Option.some.inj h)).2).2.symm

/-- At a tag, the tag cursor moves whatever the result is. -/
theorem getArg_typePtr (htype : reader.typePtr = some q)
    (hb : loadByte m q = some b) (hne : b ≠ 0) {arg arg' : OscArg} {ret : Int}
    {reader' : OscMsgReader}
    (h : oscMsgReaderGetArg P m base reader arg = some (ret, arg', reader')) :
    reader'.typePtr = some (q + 1) := by
  by_cases hneg : charValue P b < 0
  · rw [getArg_of_neg htype hb hne hneg] at h
    rw [← (Prod.mk.inj (Prod.mk.inj (Option.some.inj h)).2).2]
  · rw [getArg_of_nonneg htype hb hne hneg] at h
    exact (getArgSwitch_frame h).typePtr

end Tag

end LittleOscar
