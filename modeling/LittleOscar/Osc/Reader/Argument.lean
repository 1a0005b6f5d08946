import LittleOscar.Osc.Reader.Cursor

/-!
# One call for a tag and its argument

`osc_msg_reader_get_arg` is meant to deliver what `osc_msg_reader_next_arg` and the
getter of the tag deliver in two calls. `ArgOutput` is what the getter gives through
its output parameters, and `Holds` says that the members of the `osc_arg_t`, read
back from the storage they share, have these values.

They do for every kind of argument but one. `val_blob` is a union where a structure
is needed: the pointer is assigned after the size and over it, so what is left of the
size is the half of the address that the host stores first.
-/

namespace LittleOscar

open Machine

/-- The half of a word of eight bytes that lies at its lower address. -/
def firstHalf (P : Platform) (x : UInt64) : UInt32 :=
  match P.order with
  | .little => x.toUInt32
  | .big => (x >>> 32).toUInt32

theorem ofNative_take_native (P : Platform) (x : UInt64) :
    UInt32.ofNat (ofNative P.order ((native P.order 8 x.toNat).take 4)) = firstHalf P x := by
  have hx := x.toNat_lt
  cases h : P.order with
  | little =>
      have hsplit := littleEndian_add 4 4 (x.toNat % 4294967296) (x.toNat / 4294967296)
        (Nat.mod_lt _ (by decide))
      rw [show x.toNat % 4294967296 + 256 ^ 4 * (x.toNat / 4294967296) = x.toNat by omega]
        at hsplit
      have htake : (littleEndian 8 x.toNat).take 4 = littleEndian 4 (x.toNat % 4294967296) := by
        rw [hsplit]
        exact List.take_left' (length_littleEndian 4 _)
      simp only [native, ofNative, firstHalf, h, htake]
      rw [ofLittleEndian_littleEndian (k := 4) (by omega)]
      apply UInt32.toNat_inj.mp
      simp
  | big =>
      have htake : (bigEndian 8 x.toNat).take 4 = bigEndian 4 (x.toNat / 4294967296) := by
        rw [bigEndian_split]
        exact List.take_left' (length_bigEndian 4 _)
      simp only [native, ofNative, firstHalf, h, htake]
      rw [ofBigEndian_bigEndian (by omega)]
      apply UInt32.toNat_inj.mp
      simp [UInt64.toNat_shiftRight, Nat.shiftRight_eq_div_pow]

namespace OscArg

variable (P : Platform)

/-- A member of four bytes, read back. -/
def get32 (arg : OscArg) : UInt32 := UInt32.ofNat (ofNative P.order (arg.val.take 4))

/-- A member of eight bytes, read back. -/
def get64 (arg : OscArg) : UInt64 := UInt64.ofNat (ofNative P.order arg.val)

theorem val_set64 (arg : OscArg) (x : UInt64) :
    (arg.set64 P x).val = native P.order 8 x.toNat := by
  have hdrop : arg.val.drop (0 + (native P.order 8 x.toNat).length) = [] :=
    List.drop_eq_nil_of_le (by rw [arg.length_val, length_native])
  calc (arg.set64 P x).val = overwrite arg.val 0 (native P.order 8 x.toNat) := rfl
    _ = native P.order 8 x.toNat := by
        rw [overwrite, hdrop, List.take_zero, List.nil_append, List.append_nil]

theorem get64_set64 (arg : OscArg) (x : UInt64) : (arg.set64 P x).get64 P = x := by
  rw [get64, val_set64, ofNative_native P.order x.toNat_lt, UInt64.ofNat_toNat]

theorem get32_set32 (arg : OscArg) (x : UInt32) : (arg.set32 P x).get32 P = x := by
  have htake := take_overwrite (m := arg.val) (Nat.zero_le _) (native P.order 4 x.toNat)
  rw [length_native, Nat.zero_add, List.take_zero, List.nil_append] at htake
  rw [get32, set32, htake, ofNative_native P.order x.toNat_lt, UInt32.ofNat_toNat]

/-- An assignment to a member of eight bytes changes the members of four. -/
theorem get32_set64 (arg : OscArg) (x : UInt64) :
    (arg.set64 P x).get32 P = firstHalf P x := by
  rw [get32, val_set64, ofNative_take_native]

end OscArg

/-! ## The getter of a tag -/

/-- What a getter assigns through its output parameters. A string and a blob are
pointers into the message. -/
inductive ArgOutput where
  | empty
  | int32 (v : Int32)
  | int64 (v : Int64)
  | timetag (v : UInt64)
  | float (bits : UInt32)
  | double (bits : UInt64)
  | str (p : Int)
  | blob (sz : Int32) (p : Int)
  deriving DecidableEq

variable (P : Platform) (m : Memory)

/-- The getter for a kind of argument; there is nothing to get where the tag is the
argument. -/
def ArgKind.getter (reader : OscMsgReader) :
    ArgKind → Option (Int × Option ArgOutput × OscMsgReader)
  | .empty => some (oscOk, some .empty, reader)
  | .int32 => (oscMsgReaderGetArgInt32 P m reader).map fun (ret, val, reader) =>
      (ret, val.map .int32, reader)
  | .int64 => (oscMsgReaderGetArgInt64 P m reader).map fun (ret, val, reader) =>
      (ret, val.map .int64, reader)
  | .timetag => (oscMsgReaderGetArgTimetag P m reader).map fun (ret, val, reader) =>
      (ret, val.map .timetag, reader)
  | .float => (oscMsgReaderGetArgFloat P m reader).map fun (ret, val, reader) =>
      (ret, val.map .float, reader)
  | .double => (oscMsgReaderGetArgDouble P m reader).map fun (ret, val, reader) =>
      (ret, val.map .double, reader)
  | .str => (oscMsgReaderGetArgStr m reader).map fun (ret, val, reader) =>
      (ret, val.map .str, reader)
  | .blob => (oscMsgReaderGetArgBlob P m reader).map fun (ret, out, reader) =>
      (ret, out.sz.bind fun sz => out.val.map fun p => .blob sz p, reader)

/-- The result of the getter and the reader after it. -/
def ArgKind.call (reader : OscMsgReader) (kind : ArgKind) : Option (Int × OscMsgReader) :=
  (kind.getter P m reader).map fun (ret, _, reader') => (ret, reader')

/-- The number of bytes of the encoding of an argument at `p`. A blob has its size in
front of it; there is no blob of a negative size. -/
def ArgKind.encodedSize (p : Int) : ArgKind → Option Nat
  | .empty => some 0
  | .int32 | .float => some 4
  | .int64 | .timetag | .double => some 8
  | .str => (strlen m p).map paddedSize
  | .blob => (loadBytes m p 4).bind fun bs =>
      if 0 ≤ int32Field bs then some (4 + roundUp (int32Field bs).toNat) else none

/-- The members of the `osc_arg_t` hold what the getter assigned. -/
def Holds (base : Int) (arg : OscArg) : ArgOutput → Prop
  | .empty => True
  | .int32 v => (arg.get32 P).toInt32 = v
  | .int64 v => (arg.get64 P).toInt64 = v
  | .timetag v => arg.get64 P = v
  | .float bits => arg.get32 P = bits
  | .double bits => arg.get64 P = bits
  | .str p => arg.get64 P = address base p
  | .blob sz p => arg.get64 P = address base p ∧ (arg.get32 P).toInt32 = sz

/-- A call into an `osc_arg_t` and a call of a getter give the same code and leave the
same cursors, and on `OSC_OK` the `osc_arg_t` has the tag and the output of the getter.
Either both calls have a result or none has. -/
def SameDelivery (base : Int) (t : UInt8) :
    Option (Int × OscArg × OscMsgReader) → Option (Int × Option ArgOutput × OscMsgReader) → Prop
  | some (ret, arg, reader), some (ret', out, reader') =>
      ret = ret' ∧ reader.typePtr = reader'.typePtr ∧ reader.argPtr = reader'.argPtr ∧
        (ret = oscOk → arg.type = t ∧ ∃ output, out = some output ∧ Holds P base arg output)
  | none, none => True
  | _, _ => False

/-- `osc_msg_reader_get_arg` delivers what `osc_msg_reader_next_arg` and then the getter
for the kind of argument deliver. -/
def DeliversSeparate (base : Int) (reader : OscMsgReader) (arg : OscArg) (t : UInt8)
    (kind : ArgKind) : Prop :=
  SameDelivery P base t (oscMsgReaderGetArg P m base reader arg)
    ((oscMsgReaderNextArg m reader).bind fun (_, reader) => kind.getter P m reader)

/-- `bs` is the size of a blob at the argument pointer `p` that the getter accepts. -/
structure AcceptsBlob (reader : OscMsgReader) (p : Int) (bs : List UInt8) : Prop where
  argPtr : reader.argPtr = some p
  room : 4 ≤ reader.msgEnd - p
  size : loadBytes m p 4 = some bs
  le : p + 4 + round32 (int32Field bs) ≤ reader.msgEnd

/-- Where the next argument is a blob that is accepted, the half of its address that the
host stores first reads like its size. -/
def SizeSurvives (base : Int) (reader : OscMsgReader) : Prop :=
  ∀ q p bs, reader.typePtr = some q → loadByte m q = some 'b'.toUInt8 →
    AcceptsBlob m reader p bs →
      (firstHalf P (address base (p + 4))).toInt32.toInt = int32Field bs

variable {P m} {base : Int} {reader : OscMsgReader} {q : Int} {t : UInt8} {kind : ArgKind}

/-- At a tag of the format, `osc_msg_reader_get_arg` goes on to its `switch`. -/
theorem getArg_of_tag (htype : reader.typePtr = some q) (htag : loadByte m q = some t)
    (hkind : ArgKind.ofTag t = some kind) (arg : OscArg) :
    oscMsgReaderGetArg P m base reader arg = getArgSwitch P m base t
      { reader with typePtr := some (q + 1) } { arg with type := t } := by
  obtain ⟨hne, hlt⟩ := ArgKind.ofTag_lt hkind
  have hnonneg : ¬ charValue P t < 0 := by
    rw [charValue_of_lt hlt]
    omega
  exact getArg_of_nonneg htype htag hne hnonneg arg

/-- A getter whose output is assigned to one member. -/
theorem SameDelivery.of_getter {α : Type}
    (getter : OscMsgReader → Option (Int × Option α × OscMsgReader))
    {arg : OscArg} (store : α → OscArg) (output : α → ArgOutput)
    (hstore : ∀ v, (store v).type = arg.type ∧ Holds P base (store v) (output v))
    (hfail : ∀ ret reader', getter reader = some (ret, none, reader') → ret ≠ oscOk)
    (htype : arg.type = t) :
    SameDelivery P base t
      ((getter reader).map fun (ret, val, reader') =>
        (ret, val.elim arg store, reader'))
      ((getter reader).map fun (ret, val, reader') => (ret, val.map output, reader')) := by
  cases hget : getter reader with
  | none => exact trivial
  | some result =>
      obtain ⟨ret, val, reader'⟩ := result
      refine ⟨rfl, rfl, rfl, ?_⟩
      intro hok
      cases val with
      | none => exact absurd hok (hfail ret reader' hget)
      | some v => exact ⟨(hstore v).1.trans htype, output v, rfl, (hstore v).2⟩

/-- The `switch` delivers the argument of every tag but that of a blob. -/
theorem getArgSwitch_same (hkind : ArgKind.ofTag t = some kind) (hblob : kind ≠ .blob)
    {arg : OscArg} (htype : arg.type = t) :
    SameDelivery P base t (getArgSwitch P m base t reader arg) (kind.getter P m reader) := by
  rw [getArgSwitch_of_kind hkind]
  cases kind with
  | empty => exact ⟨rfl, rfl, rfl, fun _ => ⟨htype, .empty, rfl, trivial⟩⟩
  | int32 =>
      refine SameDelivery.of_getter (oscMsgReaderGetArgInt32 P m)
        (fun v => arg.set32 P v.toUInt32) .int32 (fun v => ⟨rfl, ?_⟩) (fun _ _ => readFixed_none)
        htype
      rw [Holds, OscArg.get32_set32, Int32.toInt32_toUInt32]
  | int64 =>
      refine SameDelivery.of_getter (oscMsgReaderGetArgInt64 P m)
        (fun v => arg.set64 P v.toUInt64) .int64 (fun v => ⟨rfl, ?_⟩) (fun _ _ => readFixed_none)
        htype
      rw [Holds, OscArg.get64_set64, Int64.toInt64_toUInt64]
  | timetag =>
      exact SameDelivery.of_getter (oscMsgReaderGetArgTimetag P m) (fun v => arg.set64 P v)
        .timetag (fun v => ⟨rfl, OscArg.get64_set64 P arg v⟩) (fun _ _ => readFixed_none) htype
  | float =>
      exact SameDelivery.of_getter (oscMsgReaderGetArgFloat P m) (fun v => arg.set32 P v)
        .float (fun v => ⟨rfl, OscArg.get32_set32 P arg v⟩) (fun _ _ => readFixed_none) htype
  | double =>
      exact SameDelivery.of_getter (oscMsgReaderGetArgDouble P m) (fun v => arg.set64 P v)
        .double (fun v => ⟨rfl, OscArg.get64_set64 P arg v⟩) (fun _ _ => readFixed_none) htype
  | str =>
      exact SameDelivery.of_getter (oscMsgReaderGetArgStr m)
        (fun p => arg.set64 P (address base p)) .str
        (fun p => ⟨rfl, OscArg.get64_set64 P arg (address base p)⟩) (fun _ _ => getArgStr_none)
        htype
  | blob => exact absurd rfl hblob

/-- Two uses of the output of one getter give the same code and the same reader. -/
theorem map_code_eq {α β γ : Type} (getter : Option (Int × α × OscMsgReader))
    (f : Int × α × OscMsgReader → Int × β × OscMsgReader)
    (g : Int × α × OscMsgReader → Int × γ × OscMsgReader)
    (h : ∀ ret val reader', (f (ret, val, reader')).1 = (g (ret, val, reader')).1 ∧
      (f (ret, val, reader')).2.2 = (g (ret, val, reader')).2.2) :
    ((getter.map f).map fun (ret, _, reader') => (ret, reader')) =
      (getter.map g).map fun (ret, _, reader') => (ret, reader') := by
  cases getter with
  | none => rfl
  | some result =>
      obtain ⟨ret, val, reader'⟩ := result
      exact congrArg some (Prod.ext (h ret val reader').1 (h ret val reader').2)

/-- The `switch` gives the code of the getter and leaves its reader. -/
theorem getArgSwitch_call (hkind : ArgKind.ofTag t = some kind) (arg : OscArg) :
    ((getArgSwitch P m base t reader arg).map fun (ret, _, reader') => (ret, reader')) =
      kind.call P m reader := by
  rw [getArgSwitch_of_kind hkind]
  cases kind with
  | empty => rfl
  | int32 => exact map_code_eq _ _ _ fun _ _ _ => ⟨rfl, rfl⟩
  | int64 => exact map_code_eq _ _ _ fun _ _ _ => ⟨rfl, rfl⟩
  | timetag => exact map_code_eq _ _ _ fun _ _ _ => ⟨rfl, rfl⟩
  | float => exact map_code_eq _ _ _ fun _ _ _ => ⟨rfl, rfl⟩
  | double => exact map_code_eq _ _ _ fun _ _ _ => ⟨rfl, rfl⟩
  | str => exact map_code_eq _ _ _ fun _ _ _ => ⟨rfl, rfl⟩
  | blob => exact map_code_eq _ _ _ fun _ _ _ => ⟨rfl, rfl⟩

theorem getArgSwitch_result (hkind : ArgKind.ofTag t = some kind) {arg arg' : OscArg} {ret : Int}
    {reader' : OscMsgReader}
    (h : getArgSwitch P m base t reader arg = some (ret, arg', reader')) :
    kind.call P m reader = some (ret, reader') := by
  rw [← @getArgSwitch_call P m base reader t kind hkind arg, h]
  rfl

/-- The getter of a blob accepts it, or it gives the caller nothing. -/
theorem getArgBlob_cases (P : Platform) (m : Memory) (reader : OscMsgReader) :
    (∃ p bs sz, AcceptsBlob m reader p bs ∧ sz.toInt = int32Field bs ∧
      oscMsgReaderGetArgBlob P m reader = some (oscOk, ⟨some sz, some (p + 4)⟩,
        { reader with argPtr := some (p + 4 + round32 sz.toInt) })) ∨
    (∀ p bs, ¬ AcceptsBlob m reader p bs) ∧
      (oscMsgReaderGetArgBlob P m reader = none ∨
        ∃ out reader', oscMsgReaderGetArgBlob P m reader = some (oscError, out, reader')) := by
  by_cases haccepts : ∃ p bs, AcceptsBlob m reader p bs
  · obtain ⟨p, bs, hblob⟩ := haccepts
    obtain ⟨sz, hsz, heq⟩ :=
      getArgBlob_of_loadBytes (P := P) hblob.argPtr hblob.room hblob.size
    have hle := hblob.le
    rw [if_neg (by rw [hsz]; omega)] at heq
    exact Or.inl ⟨p, bs, sz, hblob, hsz, heq⟩
  · refine Or.inr ⟨fun p bs hblob => haccepts ⟨p, bs, hblob⟩, ?_⟩
    cases hcall : oscMsgReaderGetArgBlob P m reader with
    | none => exact Or.inl rfl
    | some result =>
        obtain ⟨ret, out, reader'⟩ := result
        obtain ⟨p, hp, ⟨rfl, -⟩ | ⟨hroom, bs, hbs, ⟨rfl, -⟩ | ⟨-, hle, -⟩⟩⟩ :=
          cases_of_getArgBlob hcall
        · exact Or.inr ⟨out, reader', rfl⟩
        · exact Or.inr ⟨out, reader', rfl⟩
        · exact absurd ⟨p, bs, hp, hroom, hbs, hle⟩ haccepts

theorem AcceptsBlob.unique {p p' : Int} {bs bs' : List UInt8} (h : AcceptsBlob m reader p bs)
    (h' : AcceptsBlob m reader p' bs') : p = p' ∧ bs = bs' := by
  obtain rfl := Option.some.inj (h.argPtr.symm.trans h'.argPtr)
  exact ⟨rfl, Option.some.inj (h.size.symm.trans h'.size)⟩

/-- The `switch` delivers a blob exactly where the assignment of its pointer leaves its
size as it was. -/
theorem getArgSwitch_blob_same_iff {arg : OscArg} (htype : arg.type = 'b'.toUInt8) :
    SameDelivery P base 'b'.toUInt8 (getArgSwitch P m base 'b'.toUInt8 reader arg)
        (ArgKind.blob.getter P m reader) ↔
      ∀ p bs, AcceptsBlob m reader p bs →
        (firstHalf P (address base (p + 4))).toInt32.toInt = int32Field bs := by
  have hkind : ArgKind.ofTag 'b'.toUInt8 = some .blob := rfl
  rw [getArgSwitch_of_kind hkind, ArgKind.assign, ArgKind.getter]
  rcases getArgBlob_cases P m reader with
    ⟨p, bs, sz, hblob, hsz, hget⟩ | ⟨hnot, hget | ⟨out, reader', hget⟩⟩
  · have hlen := OscArg.get32_set64 P (arg.set32 P sz.toUInt32) (address base (p + 4))
    rw [hget]
    constructor
    · rintro ⟨-, -, -, hout⟩ p' bs' hblob'
      obtain ⟨rfl, rfl⟩ := hblob.unique hblob'
      obtain ⟨-, output, houtput, hholds⟩ := hout rfl
      obtain rfl := Option.some.inj houtput
      rw [← hlen, ← hsz]
      exact congrArg Int32.toInt hholds.2
    · intro hsurvives
      refine ⟨rfl, rfl, rfl, fun _ => ⟨htype, .blob sz (p + 4), rfl, ?_, ?_⟩⟩
      · exact OscArg.get64_set64 P _ _
      · have hhalf := hsurvives p bs hblob
        rw [← hlen, ← hsz] at hhalf
        exact Int32.toInt_inj.mp hhalf
  · rw [hget]
    exact ⟨fun _ p bs hblob => absurd hblob (hnot p bs), fun _ => trivial⟩
  · rw [hget]
    exact ⟨fun _ p bs hblob => absurd hblob (hnot p bs),
      fun _ => ⟨rfl, rfl, rfl, fun hok => absurd hok oscError_ne_oscOk⟩⟩

/-- At every reader whose next tag is one of the format, one call delivers what the
separate calls deliver, exactly where the size of a blob survives. -/
theorem deliversSeparate_iff (P : Platform) (m : Memory) (base : Int) (reader : OscMsgReader)
    (arg : OscArg) (q : Int) (t : UInt8) (kind : ArgKind) (htype : reader.typePtr = some q)
    (htag : loadByte m q = some t) (hkind : ArgKind.ofTag t = some kind) :
    DeliversSeparate P m base reader arg t kind ↔ SizeSurvives P m base reader := by
  obtain ⟨hne, -⟩ := ArgKind.ofTag_lt hkind
  rw [DeliversSeparate, getArg_of_tag htype htag hkind, nextArg_eq htype htag, if_pos hne,
    Option.bind_some]
  by_cases hblob : t = 'b'.toUInt8
  · obtain rfl : ArgKind.blob = kind := by
      rw [hblob] at hkind
      exact Option.some.inj hkind
    rw [hblob] at htag ⊢
    rw [getArgSwitch_blob_same_iff rfl]
    constructor
    · intro hsurvives q' p bs _ _ haccepts
      exact hsurvives p bs ⟨haccepts.argPtr, haccepts.room, haccepts.size, haccepts.le⟩
    · intro hsurvives p bs haccepts
      exact hsurvives q p bs htype htag
        ⟨haccepts.argPtr, haccepts.room, haccepts.size, haccepts.le⟩
  · have hkind' : kind ≠ .blob := by
      rintro rfl
      exact hblob (ArgKind.ofTag_blob hkind)
    constructor
    · intro _ q' p bs htype' htag' _
      obtain rfl := Option.some.inj (htype.symm.trans htype')
      exact absurd (Option.some.inj (htag.symm.trans htag')) hblob
    · exact fun _ => getArgSwitch_same hkind hkind' rfl

theorem deliversSeparate_intMessage :
    ∃ reader q, oscMsgReaderInit (intMessage ++ [0]) ⟨0, 0, none, none⟩ 0 intMessage.length =
        some (oscOk, reader) ∧ reader.typePtr = some q ∧
      DeliversSeparate littleHost (intMessage ++ [0]) 4096 reader zeroArg 'i'.toUInt8 .int32 := by
  refine ⟨⟨0, 12, some 5, some 8⟩, 5, rfl, rfl, ?_⟩
  refine (deliversSeparate_iff littleHost (intMessage ++ [0]) 4096 _ zeroArg 5 'i'.toUInt8 .int32
    rfl rfl rfl).mpr ?_
  intro q p bs hq htag
  obtain rfl := Option.some.inj hq
  exact absurd htag (by decide)

/-- The message `/a ,b` with the blob `abc`. -/
def blobMessage : Memory := [47, 97, 0, 0, 44, 98, 0, 0, 0, 0, 0, 3, 97, 98, 99, 0]

/-- At the address 4096 the size of its blob is read as 4108. -/
theorem blobMessage_not_deliversSeparate :
    ∃ reader q, oscMsgReaderInit (blobMessage ++ [0]) ⟨0, 0, none, none⟩ 0 blobMessage.length =
        some (oscOk, reader) ∧ reader.typePtr = some q ∧
      loadByte (blobMessage ++ [0]) q = some 'b'.toUInt8 ∧
      ¬ DeliversSeparate littleHost (blobMessage ++ [0]) 4096 reader zeroArg 'b'.toUInt8
        .blob := by
  refine ⟨⟨0, 16, some 5, some 8⟩, 5, rfl, rfl, rfl, ?_⟩
  rintro ⟨-, -, -, hout⟩
  obtain ⟨-, output, houtput, hholds⟩ := hout rfl
  obtain rfl := Option.some.inj houtput
  exact absurd hholds.2 (by decide)

end LittleOscar
