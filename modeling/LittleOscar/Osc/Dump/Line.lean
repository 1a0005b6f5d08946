import LittleOscar.Osc.Dump.Definitions

/-!
# The line of an argument

`dump_osc_message` prints an argument from the `osc_arg_t` that
`osc_msg_reader_get_arg` has filled. `outputText` says the same of what the getter of
the tag gives (`getArg_prints`), so that no proof about the printed text has to follow the
bytes of the union. The union shows in one line: that of a blob has the first half of the
blob's address where its size should be.
-/

namespace LittleOscar.UdpDump

open Machine

/-- The object lies in the address space. -/
structure Placed (base : Int) (m : Memory) : Prop where
  nonneg : 0 ≤ base
  le : base + m.length ≤ 18446744073709551616

variable (P : Platform) (F : FloatText) (m : Memory) (base : Int)

/-- The words for an argument that its tag alone makes. -/
def tagText (t : UInt8) : List UInt8 :=
  if t = 'T'.toUInt8 then literal "true"
  else if t = 'F'.toUInt8 then literal "false"
  else if t = 'N'.toUInt8 then literal "null"
  else literal "infinity"

/-- What is printed for a tag of each kind. -/
def kindText (arg : OscArg) : ArgKind → Option (List UInt8)
  | .empty => some (endLine (tagText arg.type))
  | .int32 => some (endLine (decimal (arg.get32 P).toInt32.toInt))
  | .int64 => some (endLine (decimal (arg.get64 P).toInt64.toInt))
  | .timetag => some (endLine (literal "timetag: " ++ decimal (arg.get64 P).toInt64.toInt))
  | .float => some (endLine (F.single (arg.get32 P)))
  | .double => some (endLine (F.double (arg.get64 P)))
  | .str => (stringAt m (offset base (arg.get64 P))).map endLine
  | .blob => some (endLine (literal "blob, " ++ decimal (arg.get32 P).toInt32.toInt ++
      literal " byte(s)"))

/-- The number of bytes that the line of a blob at `p` reports. -/
def blobText (p : Int) : List UInt8 :=
  literal "blob, " ++ decimal (firstHalf P (address base p)).toInt32.toInt ++ literal " byte(s)"

/-- What is printed for a tag and the output of its getter. -/
def outputText (t : UInt8) : ArgOutput → Option (List UInt8)
  | .empty => some (endLine (tagText t))
  | .int32 v => some (endLine (decimal v.toInt))
  | .int64 v => some (endLine (decimal v.toInt))
  | .timetag v => some (endLine (literal "timetag: " ++ decimal v.toInt64.toInt))
  | .float bits => some (endLine (F.single bits))
  | .double bits => some (endLine (F.double bits))
  | .str p => (stringAt m p).map endLine
  | .blob _ p => some (endLine (blobText P base p))

/-- A call into an `osc_arg_t` and the getter of the tag give the same code and reader, and
on `OSC_OK` the `osc_arg_t` has the tag and is printed as the output of the getter. -/
def Prints (t : UInt8) : Option (Int × OscArg × OscMsgReader) →
    Option (Int × Option ArgOutput × OscMsgReader) → Prop
  | some (ret, arg, reader), some (ret', out, reader') =>
      ret = ret' ∧ reader = reader' ∧ (ret = oscOk → arg.type = t ∧ ∃ output, out = some output ∧
        ∀ m', argText P F m' base arg = outputText P F m' base t output)
  | none, none => True
  | _, _ => False

variable {P F m base}

theorem offset_address (h : Placed base m) {p : Int} (hp : 0 ≤ p) (hlt : p < m.length) :
    offset base (address base p) = p := by
  have hbase := h.nonneg
  have hle := h.le
  have hword : (address base p).toNat = (base + p).toNat := by
    rw [address, UInt64.toNat_ofNat']
    omega
  rw [offset, hword]
  omega

theorem argText_eq (arg : OscArg) {kind : ArgKind}
    (hkind : ArgKind.ofTag arg.type = some kind) :
    argText P F m base arg = kindText P F m base arg kind := by
  have htag := ArgKind.mem_tags hkind
  obtain ⟨t, val, hval⟩ := arg
  simp only at htag
  cases kind with
  | empty =>
      simp only [ArgKind.tags, List.map_cons, List.map_nil, List.mem_cons, List.not_mem_nil,
        or_false] at htag
      rcases htag with rfl | rfl | rfl | rfl <;> rfl
  | str =>
      simp only [ArgKind.tags, List.map_cons, List.map_nil, List.mem_cons, List.not_mem_nil,
        or_false] at htag
      rcases htag with rfl | rfl | rfl <;> rfl
  | int32 | int64 | timetag | float | double | blob =>
      obtain rfl := List.mem_singleton.mp htag
      rfl

section Switch

variable {reader : OscMsgReader} {t : UInt8} {kind : ArgKind} {arg : OscArg}

/-- A getter whose output goes to one member. -/
theorem Prints.of_getter {α : Type}
    (getter : OscMsgReader → Option (Int × Option α × OscMsgReader)) (store : α → OscArg)
    (output : α → ArgOutput) (htype : ∀ v, (store v).type = t)
    (hstore : ∀ ret v reader', getter reader = some (ret, some v, reader') →
      ∀ m', argText P F m' base (store v) = outputText P F m' base t (output v))
    (hfail : ∀ ret reader', getter reader = some (ret, none, reader') → ret ≠ oscOk) :
    Prints P F base t
      ((getter reader).map fun (ret, val, reader') => (ret, val.elim arg store, reader'))
      ((getter reader).map fun (ret, val, reader') => (ret, val.map output, reader')) := by
  cases hget : getter reader with
  | none => exact trivial
  | some result =>
      obtain ⟨ret, val, reader'⟩ := result
      refine ⟨rfl, rfl, fun hok => ?_⟩
      cases val with
      | none => exact absurd hok (hfail ret reader' hget)
      | some v => exact ⟨htype v, output v, rfl, hstore ret v reader' hget⟩

/-- The case of the `switch` prints what its getter gives. -/
theorem assign_prints (hplaced : Placed base m) (hkind : ArgKind.ofTag t = some kind)
    (htype : arg.type = t) :
    Prints P F base t (kind.assign P m base reader arg) (kind.getter P m reader) := by
  subst htype
  cases kind with
  | empty => exact ⟨rfl, rfl, fun _ => ⟨rfl, .empty, rfl, fun m' => argText_eq arg hkind⟩⟩
  | int32 =>
      refine Prints.of_getter (oscMsgReaderGetArgInt32 P m)
        (fun v => arg.set32 P v.toUInt32) .int32 (fun _ => rfl) (fun _ v _ _ m' => ?_)
        fun _ _ => readFixed_none
      rw [argText_eq (arg.set32 P v.toUInt32) hkind]
      simp only [kindText, OscArg.get32_set32, Int32.toInt32_toUInt32, outputText]
  | int64 =>
      refine Prints.of_getter (oscMsgReaderGetArgInt64 P m)
        (fun v => arg.set64 P v.toUInt64) .int64 (fun _ => rfl) (fun _ v _ _ m' => ?_)
        fun _ _ => readFixed_none
      rw [argText_eq (arg.set64 P v.toUInt64) hkind]
      simp only [kindText, OscArg.get64_set64, Int64.toInt64_toUInt64, outputText]
  | timetag =>
      refine Prints.of_getter (oscMsgReaderGetArgTimetag P m)
        (fun v => arg.set64 P v) .timetag (fun _ => rfl) (fun _ v _ _ m' => ?_)
        fun _ _ => readFixed_none
      rw [argText_eq (arg.set64 P v) hkind]
      simp only [kindText, OscArg.get64_set64, outputText]
  | float =>
      refine Prints.of_getter (oscMsgReaderGetArgFloat P m)
        (fun v => arg.set32 P v) .float (fun _ => rfl) (fun _ v _ _ m' => ?_)
        fun _ _ => readFixed_none
      rw [argText_eq (arg.set32 P v) hkind]
      simp only [kindText, OscArg.get32_set32, outputText]
  | double =>
      refine Prints.of_getter (oscMsgReaderGetArgDouble P m)
        (fun v => arg.set64 P v) .double (fun _ => rfl) (fun _ v _ _ m' => ?_)
        fun _ _ => readFixed_none
      rw [argText_eq (arg.set64 P v) hkind]
      simp only [kindText, OscArg.get64_set64, outputText]
  | str =>
      refine Prints.of_getter (oscMsgReaderGetArgStr m)
        (fun p => arg.set64 P (address base p)) .str (fun _ => rfl) (fun ret p _ hget m' => ?_)
        fun _ _ => getArgStr_none
      obtain ⟨p', n, -, hn, ⟨-, -, habs, -⟩ | ⟨-, hval, -⟩⟩ := cases_of_getArgStr hget
      · cases habs
      · obtain rfl := Option.some.inj hval
        obtain ⟨hp, hlt, -⟩ := strlen_eq_some hn
        rw [argText_eq (arg.set64 P (address base p)) hkind]
        simp only [kindText, OscArg.get64_set64, outputText, offset_address hplaced hp (by omega)]
  | blob =>
      rw [ArgKind.assign, ArgKind.getter]
      rcases getArgBlob_cases P m reader with
        ⟨p, bs, sz, -, -, hget⟩ | ⟨-, hget | ⟨out, reader', hget⟩⟩
      · rw [hget]
        refine ⟨rfl, rfl, fun _ => ⟨rfl, .blob sz (p + 4), rfl, fun m' => ?_⟩⟩
        have hshown : argText P F m' base
            ((arg.set32 P sz.toUInt32).set64 P (address base (p + 4))) = _ := argText_eq _ hkind
        exact hshown.trans (by simp only [kindText, OscArg.get32_set64, outputText, blobText])
      · rw [hget]
        exact trivial
      · rw [hget]
        exact ⟨rfl, rfl, fun hok => absurd hok oscError_ne_oscOk⟩

/-- At a tag of the format, the call prints what the getter of the tag gives. -/
theorem getArg_prints {q : Int} (hplaced : Placed base m) (htype : reader.typePtr = some q)
    (htag : loadByte m q = some t) (hkind : ArgKind.ofTag t = some kind) (arg : OscArg) :
    Prints P F base t (oscMsgReaderGetArg P m base reader arg)
      (kind.getter P m { reader with typePtr := some (q + 1) }) := by
  rw [getArg_of_tag htype htag hkind, getArgSwitch_of_kind hkind]
  exact assign_prints hplaced hkind rfl

end Switch

end LittleOscar.UdpDump
