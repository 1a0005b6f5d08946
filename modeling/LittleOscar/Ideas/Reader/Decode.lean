import LittleOscar.Ideas.Reader.Definitions
import LittleOscar.Osc.Reader.Decode

/-!
# The getters of the two readers

The reader of `ideas/osc.c` reads arguments as the one of `read.c` does, except that
`READ_FIXED` compares with a `size_t` and the length of a string does not go through an
`int`. So its calls follow those of the other reader wherever these succeed on a message
of a realistic size (`delivers_withCursors`), and what was shown of the one holds of the
other.
-/

namespace LittleOscar.Ideas

open Machine

variable (P : Platform) (m : Memory)

/-- The getter of the argument's tag returns `OSC_OK` and the argument. -/
def GetterReturns (reader reader' : OscReader) : OscArgument → Prop
  | .boolTrue | .boolFalse | .null | .infinity => reader' = reader
  | .int32 v => oscReaderGetArgInt32 P m reader = some (oscOk, some v, reader')
  | .int64 v => oscReaderGetArgInt64 P m reader = some (oscOk, some v, reader')
  | .timetag v => oscReaderGetArgTimetag P m reader = some (oscOk, some v, reader')
  | .float bits => oscReaderGetArgFloat P m reader = some (oscOk, some bits, reader')
  | .double bits => oscReaderGetArgDouble P m reader = some (oscOk, some bits, reader')
  | .string _ s => ∃ p, oscReaderGetArgStr m reader = some (oscOk, some p, reader') ∧
      stringAt m p = some s.bytes
  | .blob bytes => ∃ sz p,
      oscReaderGetArgBlob P m reader = some (oscOk, ⟨some sz, some p⟩, reader') ∧
        sz.toInt = bytes.length ∧ loadBytes m p bytes.length = some bytes

/-- From `reader` on, the calls give the tags and the values of the arguments in order. -/
def Delivers (reader reader' : OscReader) : List OscArgument → Prop
  | [] => reader' = reader
  | arg :: args => ∃ reader₁ reader₂,
      oscReaderNextArg m reader = some (arg.tag, reader₁) ∧
        GetterReturns P m reader₁ reader₂ arg ∧ Delivers reader₂ reader' args

/-- The reader with the message and the cursors of a reader of `read.c`. -/
def OscReader.withCursors (reader : OscReader) (r : OscMsgReader) : OscReader :=
  { reader with
    msgPtr := some r.msgPtr
    msgEnd := some r.msgEnd
    typePtr := r.typePtr
    argPtr := r.argPtr }

variable {P m} {reader : OscReader} {r r' : OscMsgReader}

theorem nextArg_withCursors :
    oscReaderNextArg m (reader.withCursors r) =
      (oscMsgReaderNextArg m r).map fun (c, r') => (c, reader.withCursors r') := by
  obtain ⟨msgPtr, msgEnd, typePtr, argPtr⟩ := r
  cases typePtr with
  | none => rfl
  | some q =>
      simp only [oscReaderNextArg, oscMsgReaderNextArg, OscReader.withCursors,
        Option.bind_eq_bind]
      cases loadByte m q with
      | none => rfl
      | some curr =>
          simp only [Option.bind_some]
          split <;> rfl

theorem msgEnd_of_nextArg {c : UInt8} (h : oscMsgReaderNextArg m r = some (c, r')) :
    r'.msgEnd = r.msgEnd := by
  rw [oscMsgReaderNextArg] at h
  cases hq : r.typePtr with
  | none =>
      rw [hq] at h
      cases h
      rfl
  | some q =>
      simp only [hq, Option.bind_eq_bind, Option.bind_eq_some_iff] at h
      obtain ⟨curr, -, h⟩ := h
      split at h <;> cases h <;> rfl

/-- What a `READ_FIXED` of `read.c` that gives a value found. -/
theorem readFixed_eq_some {α : Type} {k : Nat} {decode : Nat → α} {ret : Int} {v : α}
    (h : LittleOscar.readFixed P m k decode r = some (ret, some v, r')) :
    ∃ p raw, r.argPtr = some p ∧ (k : Int) ≤ r.msgEnd - p ∧ loadNative P m p k = some raw ∧
      ret = oscOk ∧ v = decode raw ∧ r' = { r with argPtr := some (p + k) } := by
  rw [LittleOscar.readFixed, Option.bind_eq_bind, Option.bind_eq_some_iff] at h
  obtain ⟨p, hp, h⟩ := h
  split at h
  · cases h
  · next hroom =>
      rw [Option.bind_eq_bind, Option.bind_eq_some_iff] at h
      obtain ⟨raw, hraw, h⟩ := h
      cases h
      exact ⟨p, raw, hp, by omega, hraw, rfl, rfl, rfl⟩

/-- `READ_FIXED` succeeds where the word lies in the message. -/
theorem readFixed_withCursors (reader : OscReader) {α : Type} {k : Nat} {decode : Nat → α}
    {ret : Int} {v : α} (hk : 0 < k) (hend : r.msgEnd < 9223372036854775808)
    (h : LittleOscar.readFixed P m k decode r = some (ret, some v, r')) :
    readFixed P m k decode (reader.withCursors r) = some (ret, some v, reader.withCursors r') ∧
      r'.msgEnd = r.msgEnd := by
  obtain ⟨p, raw, hp, hroom, hraw, rfl, rfl, rfl⟩ := readFixed_eq_some h
  have hnonneg := nonneg_of_loadNative hk hraw
  have hsize : sizeT (r.msgEnd - p) = (r.msgEnd - p).toNat :=
    sizeT_of_nonneg (by omega) (by omega)
  refine ⟨?_, rfl⟩
  simp only [readFixed, OscReader.withCursors, hp, Option.bind_eq_bind, Option.bind_some,
    hsize, hraw]
  rw [if_neg (by omega)]

theorem getArgStr_withCursors (reader : OscReader) {p : Int} {s : List UInt8}
    (hlt : s.length < 2147483644) (hs : stringAt m p = some s)
    (h : oscMsgReaderGetArgStr m r = some (oscOk, some p, r')) :
    oscReaderGetArgStr m (reader.withCursors r) =
        some (oscOk, some p, reader.withCursors r') ∧ r'.msgEnd = r.msgEnd := by
  rw [oscMsgReaderGetArgStr, Option.bind_eq_bind, Option.bind_eq_some_iff] at h
  obtain ⟨p', hp', h⟩ := h
  rw [Option.bind_eq_bind, Option.bind_eq_some_iff] at h
  obtain ⟨n, hn, h⟩ := h
  simp only at h
  split at h
  · cases h
  · next hroom =>
      cases h
      have hlen : n = s.length := by
        rw [stringAt, hn] at hs
        obtain ⟨hp, hle, -⟩ := strlen_eq_some hn
        rw [Option.bind_eq_bind, Option.bind_some, loadBytes_eq_take hp (by omega)] at hs
        rw [← Option.some.inj hs, length_take_drop hp (by omega)]
      have hround : round32Size (n + 1) = paddedSize n := round32Size_eq_roundUp (by omega)
      have hwrap := wrap32_round32Size (n := n) (by omega)
      rw [hround] at hwrap hroom
      refine ⟨?_, rfl⟩
      rw [hwrap] at hroom
      simp only [oscReaderGetArgStr, OscReader.withCursors, hp', Option.bind_eq_bind,
        Option.bind_some, hn, hround, hwrap]
      rw [if_neg hroom]

theorem getArgBlob_withCursors (reader : OscReader) {sz : Int32} {p : Int}
    (hend : r.msgEnd < 9223372036854775808)
    (h : oscMsgReaderGetArgBlob P m r = some (oscOk, ⟨some sz, some p⟩, r')) :
    oscReaderGetArgBlob P m (reader.withCursors r) =
        some (oscOk, ⟨some sz, some p⟩, reader.withCursors r') ∧ r'.msgEnd = r.msgEnd := by
  rw [oscMsgReaderGetArgBlob, Option.bind_eq_bind, Option.bind_eq_some_iff] at h
  obtain ⟨⟨ret, val, r₁⟩, hint, h⟩ := h
  cases val with
  | none => cases h
  | some val =>
      obtain ⟨q, raw, -, -, -, -, -, hr₁⟩ := readFixed_eq_some hint
      have hq : r₁.argPtr = some (q + 4) := by rw [hr₁]; rfl
      obtain ⟨hword, hmsgEnd⟩ := readFixed_withCursors reader (by decide) hend hint
      simp only [hq, Option.bind_eq_bind, Option.bind_some] at h
      split at h
      · cases h
      · next hroom =>
          cases h
          refine ⟨?_, hmsgEnd⟩
          have hval : oscReaderGetArgInt32 P m (reader.withCursors r) =
              some (ret, some sz, reader.withCursors r₁) := hword
          rw [oscReaderGetArgBlob, hval]
          simp only [OscReader.withCursors, hq, Option.bind_eq_bind, Option.bind_some]
          rw [if_neg hroom]

/-- A getter that succeeds in `read.c` succeeds here. -/
theorem getterReturns_withCursors (reader : OscReader) {a : OscArgument}
    (hlt : a.payload.length < 2147483648) (hend : r.msgEnd < 9223372036854775808)
    (h : LittleOscar.GetterReturns P m r r' a) :
    GetterReturns P m (reader.withCursors r) (reader.withCursors r') a ∧
      r'.msgEnd = r.msgEnd := by
  have hsame : r' = r → reader.withCursors r' = reader.withCursors r ∧ r'.msgEnd = r.msgEnd := by
    rintro rfl
    exact ⟨rfl, rfl⟩
  cases a with
  | boolTrue => exact hsame h
  | boolFalse => exact hsame h
  | null => exact hsame h
  | infinity => exact hsame h
  | int32 v => exact readFixed_withCursors reader (by decide) hend h
  | int64 v => exact readFixed_withCursors reader (by decide) hend h
  | timetag v => exact readFixed_withCursors reader (by decide) hend h
  | float bits => exact readFixed_withCursors reader (by decide) hend h
  | double bits => exact readFixed_withCursors reader (by decide) hend h
  | string tag s =>
      obtain ⟨p, hget, hs⟩ := h
      have hlen := lt_paddedSize s.bytes.length
      have hmod := paddedSize_mod s.bytes.length
      rw [OscArgument.payload, length_padString] at hlt
      obtain ⟨hstr, hmsgEnd⟩ := getArgStr_withCursors reader (by omega) hs hget
      exact ⟨⟨p, hstr, hs⟩, hmsgEnd⟩
  | blob bytes =>
      obtain ⟨sz, p, hget, hsz, hbytes⟩ := h
      obtain ⟨hblob, hmsgEnd⟩ := getArgBlob_withCursors reader hend hget
      exact ⟨⟨sz, p, hblob, hsz, hbytes⟩, hmsgEnd⟩

/-- What the reader of `read.c` delivers from the same cursors is delivered. -/
theorem delivers_withCursors (reader : OscReader) {as : List OscArgument}
    (hlt : ∀ a ∈ as, a.payload.length < 2147483648) (hend : r.msgEnd < 9223372036854775808)
    (h : LittleOscar.Delivers P m r r' as) :
    Delivers P m (reader.withCursors r) (reader.withCursors r') as := by
  induction as generalizing r with
  | nil =>
      obtain rfl : r' = r := h
      rfl
  | cons a as ih =>
      obtain ⟨ha, has⟩ := List.forall_mem_cons.mp hlt
      obtain ⟨r₁, r₂, hnext, hgetter, hrest⟩ := h
      have hend₁ := msgEnd_of_nextArg hnext
      obtain ⟨hgetter', hend₂⟩ :=
        getterReturns_withCursors reader ha (hend₁ ▸ hend) hgetter
      refine ⟨reader.withCursors r₁, reader.withCursors r₂, ?_, hgetter',
        ih has (hend₂ ▸ hend₁ ▸ hend) hrest⟩
      rw [nextArg_withCursors, hnext]
      rfl

end LittleOscar.Ideas
