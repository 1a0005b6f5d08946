import LittleOscar.Osc.Reader.Argument
import LittleOscar.Transition.Run

/-!
# What the reader hands out of a message

`StaysInside` is what one `osc_msg_reader_get_arg` owes its caller on bytes that come
from the network: it reads only the packet and its NUL, the argument pointer moves
forward by a multiple of four and not past the end of the message, and a blob that it
returns lies inside the message, with the size that the message gives it and with the
size that the `osc_arg_t` holds when the caller looks at it.

Two conditions are needed. A size that is not sane moves the argument pointer back, or
is returned as it is. And since the members of `val_blob` share their storage, the
caller finds half of an address in the place of the size, which has to be no more than
the message has left.
-/

namespace LittleOscar

open Machine Transition

variable (P : Platform) (m : Memory) (base : Int)

/-- A blob of `sz` bytes at `val` lies inside the message. -/
structure BlobInside (reader : OscMsgReader) (sz val : Int) : Prop where
  nonneg : 0 ≤ sz
  start : reader.msgPtr ≤ val
  le : val + sz ≤ reader.msgEnd

/-- The blob that `arg` holds, read back, lies inside the message, and so does the blob
of the size that the message gives at `p`. -/
def HoldsInside (reader : OscMsgReader) (p : Int) (arg : OscArg) : Prop :=
  ∃ val, arg.get64 P = address base val ∧
    BlobInside reader (arg.get32 P).toInt32.toInt val ∧
    BlobInside reader (int32Field (m.drop p.toNat)) val

/-- A call of `osc_msg_reader_get_arg` reads inside the object, moves the argument
cursor forward inside the message and returns only blobs inside it. -/
def StaysInside (reader : OscMsgReader) (arg : OscArg) : Prop :=
  ∃ ret arg' reader' p p',
    oscMsgReaderGetArg P m base reader arg = some (ret, arg', reader') ∧
      reader.argPtr = some p ∧ reader'.argPtr = some p' ∧ p ≤ p' ∧
      (p' - reader.msgPtr) % 4 = 0 ∧ p' ≤ reader.msgEnd ∧
      (ret = oscOk → arg'.type = 'b'.toUInt8 → HoldsInside P m base reader p arg')

/-- Where the next argument is a blob that is accepted, the half of its address that the
host stores first reads as a number of bytes that the message has behind the size. -/
def HalfInside (reader : OscMsgReader) : Prop :=
  ∀ q p bs, reader.typePtr = some q → loadByte m q = some 'b'.toUInt8 →
    AcceptsBlob m reader p bs →
      BlobInside reader (firstHalf P (address base (p + 4))).toInt32.toInt (p + 4)

variable {P m base} {reader : OscMsgReader} {q p : Int}

/-- Two pointers into the same object have different addresses. -/
theorem address_injective {p p' : Int} (h : address base p = address base p')
    (hlt : p - p' < 18446744073709551616) (hgt : p' - p < 18446744073709551616) : p = p' := by
  have hmod := congrArg UInt64.toNat h
  simp only [address, UInt64.toNat_ofNat'] at hmod
  omega

/-- At the tag of a blob, the call accepts it and holds its pointer, or it does not
return `OSC_OK`. -/
theorem getArg_blob_cases (htype : reader.typePtr = some q)
    (htag : loadByte m q = some 'b'.toUInt8) (arg : OscArg) :
    (∃ p bs arg' reader', AcceptsBlob m reader p bs ∧ arg'.type = 'b'.toUInt8 ∧
      arg'.get64 P = address base (p + 4) ∧
      arg'.get32 P = firstHalf P (address base (p + 4)) ∧
      oscMsgReaderGetArg P m base reader arg = some (oscOk, arg', reader')) ∨
    (∀ p bs, ¬ AcceptsBlob m reader p bs) ∧
      ∀ arg' reader', oscMsgReaderGetArg P m base reader arg ≠ some (oscOk, arg', reader') := by
  have hkind : ArgKind.ofTag 'b'.toUInt8 = some .blob := rfl
  rw [getArg_of_tag htype htag hkind, getArgSwitch_of_kind hkind, ArgKind.assign]
  rcases getArgBlob_cases P m { reader with typePtr := some (q + 1) } with
    ⟨p, bs, sz, hblob, -, hget⟩ | ⟨hnot, hget⟩
  · refine Or.inl ⟨p, bs, _, _, ⟨hblob.argPtr, hblob.room, hblob.size, hblob.le⟩, ?_, ?_, ?_,
      by rw [hget]; rfl⟩
    · rfl
    · exact OscArg.get64_set64 P _ _
    · exact OscArg.get32_set64 P _ _
  · refine Or.inr ⟨fun p bs hblob => hnot p bs
      ⟨hblob.argPtr, hblob.room, hblob.size, hblob.le⟩, ?_⟩
    intro arg' reader' h
    rcases hget with hget | ⟨out, reader₁, hget⟩
    · rw [hget] at h
      cases h
    · rw [hget] at h
      exact absurd (congrArg Prod.fst (Option.some.inj h)) oscError_ne_oscOk

/-- An argument that is returned as a blob has the tag of one. -/
theorem blob_of_getArg {b : UInt8} (htype : reader.typePtr = some q)
    (hb : loadByte m q = some b) {arg arg' : OscArg} {reader' : OscMsgReader}
    (h : oscMsgReaderGetArg P m base reader arg = some (oscOk, arg', reader'))
    (hblob : arg'.type = 'b'.toUInt8) : b = 'b'.toUInt8 := by
  by_cases hzero : b = 0
  · rw [hzero] at hb
    by_cases hP : P.charSigned
    · rw [getArg_of_nul_signed hP htype hb] at h
      exact absurd (congrArg Prod.fst (Option.some.inj h)) (show oscEnd ≠ oscOk by decide)
    · rw [getArg_of_nul_unsigned hP htype hb] at h
      exact absurd (congrArg Prod.fst (Option.some.inj h)) oscError_ne_oscOk
  by_cases hneg : charValue P b < 0
  · rw [getArg_of_neg htype hb hzero hneg] at h
    have hzero : charValue P b = oscOk := congrArg Prod.fst (Option.some.inj h)
    rw [hzero] at hneg
    exact absurd hneg (by decide)
  rw [getArg_of_nonneg htype hb hzero hneg] at h
  cases hkind : ArgKind.ofTag b with
  | none =>
      rw [getArgSwitch_unknown hkind] at h
      exact absurd (congrArg Prod.fst (Option.some.inj h)) oscError_ne_oscOk
  | some kind =>
      by_cases hk : kind = .blob
      · rw [hk] at hkind
        exact ArgKind.ofTag_blob hkind
      · have hsame : SameDelivery P base b _
            (kind.getter P m { reader with typePtr := some (q + 1) }) :=
          getArgSwitch_same hkind hk (show OscArg.type { arg with type := b } = b from rfl)
        rw [h] at hsame
        cases hget : kind.getter P m { reader with typePtr := some (q + 1) } with
        | none =>
            rw [hget] at hsame
            exact hsame.elim
        | some result =>
            rw [hget] at hsame
            obtain ⟨-, -, -, hout⟩ := hsame
            exact (hout rfl).1.symm.trans hblob

namespace Cursor

/-- A size that is not sane makes the getter accept the blob. -/
theorem acceptsBlob_of_not_sane (h : Cursor m reader q p) (hroom : 4 ≤ reader.msgEnd - p)
    (hsane : ¬ (0 ≤ int32Field (m.drop p.toNat) ∧ int32Field (m.drop p.toNat) < 2147483645)) :
    ∃ bs, AcceptsBlob m reader p bs := by
  have hfour := h.four_le
  have hlength := h.length
  have hload := loadBytes_eq_take (m := m) (p := p) (n := 4) (by omega) (by omega)
  refine ⟨_, h.argPtr, hroom, hload, ?_⟩
  rw [int32Field_of_loadBytes hload]
  generalize hsize : int32Field (m.drop p.toNat) = size at hsane
  have hrange : -2147483648 ≤ size ∧ size < 2147483648 := by
    rw [← hsize]
    unfold int32Field wrap32
    omega
  have hround : round32 size ≤ 0 := by
    by_cases hneg : size < 0
    · exact round32_nonpos hrange.1 hneg
    · rw [round32_of_large (by omega) hrange.2]
      decide
  omega

/-- Where a blob is returned inside the message, its size is sane and the half of its
address is inside the message. -/
theorem sane_of_staysInside (h : Cursor m reader q p) {arg : OscArg}
    (hstays : StaysInside P m base reader arg) :
    SaneBlob m reader ∧ HalfInside P m base reader := by
  obtain ⟨ret, arg', reader', p', p'', hcall, hp, -, -, -, -, hinside⟩ := hstays
  obtain rfl := Option.some.inj (hp.symm.trans h.argPtr)
  have hbound := h.bound
  have hfour := h.four_le
  have hstart := h.msgPtr
  -- the blob that is accepted is the one that `arg'` holds
  have hholds : ∀ bs, loadByte m q = some 'b'.toUInt8 → AcceptsBlob m reader p' bs →
      BlobInside reader (firstHalf P (address base (p' + 4))).toInt32.toInt (p' + 4) ∧
        BlobInside reader (int32Field (m.drop p'.toNat)) (p' + 4) := by
    intro bs htag haccepts
    rcases @getArg_blob_cases P m base _ _ h.typePtr htag arg with
      ⟨p₁, bs₁, arg₁, reader₁, haccepts₁, htype, hdata, hlen, hget⟩ | ⟨hnot, -⟩
    · obtain ⟨rfl, -⟩ := haccepts₁.unique haccepts
      rw [hget] at hcall
      cases hcall
      obtain ⟨val, hval, hhalf, hsize⟩ := hinside rfl htype
      have hroom := haccepts.room
      have hnonneg := hsize.nonneg
      have hfrom := hsize.start
      have hto := hsize.le
      obtain rfl : p₁ + 4 = val :=
        address_injective (hdata.symm.trans hval) (by omega) (by omega)
      rw [hlen] at hhalf
      exact ⟨hhalf, hsize⟩
    · exact absurd haccepts (hnot p' bs)
  constructor
  · intro q₁ p₁ hq hp₁ htag hroom
    obtain rfl := Option.some.inj (hq.symm.trans h.typePtr)
    obtain rfl := Option.some.inj (hp₁.symm.trans hp)
    by_contra hsane
    obtain ⟨bs, haccepts⟩ := h.acceptsBlob_of_not_sane hroom hsane
    obtain ⟨-, hsize⟩ := hholds bs htag haccepts
    have hnonneg := hsize.nonneg
    have hto := hsize.le
    omega
  · intro q₁ p₁ bs hq htag haccepts
    obtain rfl := Option.some.inj (hq.symm.trans h.typePtr)
    obtain rfl := Option.some.inj (haccepts.argPtr.symm.trans hp)
    exact (hholds bs htag haccepts).1

/-- A blob with a sane size is returned inside the message, if the half of its address
is inside the message. -/
theorem holdsInside_of_sane (h : Cursor m reader q p) (hsane : SaneBlob m reader)
    (hhalf : HalfInside P m base reader) {arg arg' : OscArg} {reader' : OscMsgReader}
    (hcall : oscMsgReaderGetArg P m base reader arg = some (oscOk, arg', reader'))
    (hblob : arg'.type = 'b'.toUInt8) : HoldsInside P m base reader p arg' := by
  obtain ⟨b, hb, -⟩ := h.nextArg
  have htag := blob_of_getArg h.typePtr hb hcall hblob
  rw [htag] at hb
  rcases @getArg_blob_cases P m base _ _ h.typePtr hb arg with
    ⟨p₁, bs, arg₁, reader₁, haccepts, -, hdata, hlen, hget⟩ | ⟨-, hfails⟩
  · obtain rfl := Option.some.inj (haccepts.argPtr.symm.trans h.argPtr)
    rw [hget] at hcall
    cases hcall
    have hinside := hhalf q p₁ bs h.typePtr hb haccepts
    obtain ⟨hnonneg, hlt⟩ := hsane q p₁ h.typePtr h.argPtr hb haccepts.room
    have hle := haccepts.le
    rw [int32Field_of_loadBytes haccepts.size, round32_eq_roundUp hnonneg hlt] at hle
    have hround := le_roundUp (int32Field (m.drop p₁.toNat)).toNat
    refine ⟨p₁ + 4, hdata, ?_, hnonneg, hinside.start, by omega⟩
    rw [hlen]
    exact hinside
  · exact absurd hcall (hfails arg' reader')

/-- One call keeps to the message exactly when the size of a blob is sane and the half of
its address is inside the message. -/
theorem staysInside_iff (h : Cursor m reader q p) (arg : OscArg) :
    StaysInside P m base reader arg ↔ SaneBlob m reader ∧ HalfInside P m base reader := by
  constructor
  · exact h.sane_of_staysInside
  · rintro ⟨hsane, hhalf⟩
    obtain ⟨ret, arg', reader', q', p', heq, hle, hcur⟩ :=
      h.getArg_stays (P := P) base hsane arg
    have hstart := h.msgPtr
    have haligned := hcur.aligned
    have hend := hcur.le
    rw [← h.msgEnd_eq hcur] at hend
    refine ⟨ret, arg', reader', p, p', heq, h.argPtr, hcur.argPtr, hle, by omega, hend, ?_⟩
    rintro rfl hblob
    exact h.holdsInside_of_sane hsane hhalf heq hblob

/-- The half of the address is inside the message where it reads like the size. -/
theorem halfInside_of_sizeSurvives (h : Cursor m reader q p) (hsane : SaneBlob m reader)
    (hsurvives : SizeSurvives P m base reader) : HalfInside P m base reader := by
  intro q₁ p₁ bs hq htag haccepts
  obtain rfl := Option.some.inj (haccepts.argPtr.symm.trans h.argPtr)
  obtain ⟨hnonneg, hlt⟩ := hsane q₁ p₁ hq h.argPtr htag haccepts.room
  have hle := haccepts.le
  have hstart := h.msgPtr
  have hfour := h.four_le
  rw [int32Field_of_loadBytes haccepts.size, round32_eq_roundUp hnonneg hlt] at hle
  have hround := le_roundUp (int32Field (m.drop p₁.toNat)).toNat
  rw [hsurvives q₁ p₁ bs hq htag haccepts, int32Field_of_loadBytes haccepts.size]
  exact ⟨hnonneg, by omega, by omega⟩

end Cursor

/-! ## A run of calls -/

/-- A call that finds no bad size keeps the cursors. -/
theorem getArgStep_cursor {r r' : OscMsgReader} {arg : OscArg} (h : ∃ q p, Cursor m r q p)
    (hsane : SaneBlob m r) (hstep : getArgStep P m base r arg = some r') :
    ∃ q p, Cursor m r' q p := by
  obtain ⟨q, p, hcur⟩ := h
  obtain ⟨ret, arg', r'', q', p', heq, -, hcur'⟩ := hcur.getArg_stays (P := P) base hsane arg
  rw [getArgStep, heq] at hstep
  obtain rfl : r'' = r' := Option.some.inj hstep
  exact ⟨q', p', hcur'⟩

/-- A run of calls on a typed message from the network keeps to the message exactly
when no call finds a blob whose size is negative or too large to be rounded, or a blob
that is accepted and the half of whose address is no length that the message has left.
A sane size that survives is enough. -/
theorem along_staysInside_iff (P : Platform) (base : Int) (buffer : Memory)
    (reader₀ reader : OscMsgReader) (args : List OscArg) (hlen : buffer.length < 2147483648)
    (htype : oscPacketGetType (buffer ++ [0]) 0 buffer.length = some oscMessage)
    (hinit : oscMsgReaderInit (buffer ++ [0]) reader₀ 0 buffer.length = some (oscOk, reader))
    (htyped : oscMsgReaderIsTyped reader) :
    (Along (getArgStep P (buffer ++ [0]) base)
        (fun r arg => StaysInside P (buffer ++ [0]) base r arg) reader args ↔
      Along (getArgStep P (buffer ++ [0]) base)
        (fun r _ => SaneBlob (buffer ++ [0]) r ∧ HalfInside P (buffer ++ [0]) base r)
        reader args) ∧
    (Along (getArgStep P (buffer ++ [0]) base)
        (fun r _ => SaneBlob (buffer ++ [0]) r ∧ SizeSurvives P (buffer ++ [0]) base r)
        reader args →
      Along (getArgStep P (buffer ++ [0]) base)
        (fun r arg => StaysInside P (buffer ++ [0]) base r arg) reader args) := by
  have hcursor := exists_cursor hlen htype hinit htyped
  constructor
  · refine along_iff_of_invariant (G := fun _ _ => True)
      (fun r => ∃ q p, Cursor (buffer ++ [0]) r q p) ?_ ?_ hcursor
      (along_of_forall (fun _ _ => trivial) _ _)
    · rintro r arg ⟨q, p, hcur⟩ -
      exact hcur.staysInside_iff arg
    · rintro r arg r' hcur - hboth hstep
      exact getArgStep_cursor hcur hboth.1 hstep
  · refine along_of_invariant (fun r => ∃ q p, Cursor (buffer ++ [0]) r q p) ?_ ?_ hcursor
    · rintro r arg ⟨q, p, hcur⟩ ⟨hsane, hsurvives⟩
      exact (hcur.staysInside_iff arg).mpr
        ⟨hsane, hcur.halfInside_of_sizeSurvives hsane hsurvives⟩
    · rintro r arg r' hcur ⟨hsane, -⟩ hstep
      exact getArgStep_cursor hcur hsane hstep

/-- At the address 4294967288 the low half of the address of its blob is 4. -/
theorem along_staysInside_blobMessage :
    ∃ reader, oscMsgReaderInit (blobMessage ++ [0]) ⟨0, 0, none, none⟩ 0 blobMessage.length =
        some (oscOk, reader) ∧
      Along (getArgStep littleHost (blobMessage ++ [0]) 4294967288)
        (fun r arg => StaysInside littleHost (blobMessage ++ [0]) 4294967288 r arg) reader
        [zeroArg, zeroArg] := by
  refine ⟨⟨0, 16, some 5, some 8⟩, rfl, ?_⟩
  refine (along_staysInside_iff littleHost 4294967288 blobMessage ⟨0, 0, none, none⟩ _ _
    (by decide) rfl rfl rfl).1.mpr ?_
  rw [along_cons_of_eq_some rfl, along_cons_of_eq_some rfl]
  refine ⟨⟨?_, ?_⟩, ⟨?_, ?_⟩, along_nil _⟩
  · intro q p _ hp _ _
    cases hp
    decide
  · intro q p bs _ _ haccepts
    cases haccepts.argPtr
    exact ⟨by decide, by decide, by decide⟩
  · intro q p hq _ htag
    cases hq
    exact absurd htag (by decide)
  · intro q p bs hq htag
    cases hq
    exact absurd htag (by decide)

/-- The message `/a ,b` with a blob of size `-8`. -/
def negativeBlob : Memory := [47, 97, 0, 0, 44, 98, 0, 0, 255, 255, 255, 248]

/-- One call on the message `buffer`, which lies at `base`, does not keep to it. -/
def LeavesMessage (base : Int) (buffer : Memory) : Prop :=
  ∃ reader, oscPacketGetType (buffer ++ [0]) 0 buffer.length = some oscMessage ∧
    oscMsgReaderInit (buffer ++ [0]) ⟨0, 0, none, none⟩ 0 buffer.length =
      some (oscOk, reader) ∧ oscMsgReaderIsTyped reader ∧
    ¬ Along (getArgStep littleHost (buffer ++ [0]) base)
      (fun r arg => StaysInside littleHost (buffer ++ [0]) base r arg) reader [zeroArg]

/-- A size of `-8` moves the argument cursor back into the tags. A size of 3 is read as 4108
at the address 4096. -/
theorem blobs_not_staysInside :
    LeavesMessage 0 negativeBlob ∧ LeavesMessage 4096 blobMessage := by
  constructor
  · refine ⟨⟨0, 12, some 5, some 8⟩, rfl, rfl, rfl, ?_⟩
    rintro ⟨⟨ret, arg', reader', p, p', heq, hp, hp', hle, -⟩, -⟩
    cases heq
    cases hp
    cases hp'
    exact absurd hle (by decide)
  · refine ⟨⟨0, 16, some 5, some 8⟩, rfl, rfl, rfl, ?_⟩
    rintro ⟨⟨ret, arg', reader', p, p', heq, -, -, -, -, -, hinside⟩, -⟩
    cases heq
    obtain ⟨val, -, hhalf, -⟩ := hinside rfl rfl
    have hstart := hhalf.start
    have hend := hhalf.le
    exact absurd (Int.le_trans (Int.add_le_add_right hstart _) hend) (by decide)

end LittleOscar
