import LittleOscar.Osc.Reader.Init

/-!
# The cursor of the message reader

A `Cursor` is the reader of a typed message that came from the network: both of its
pointers are inside the message, and the argument pointer is aligned. All getters but
one keep it, and move the argument pointer forward. The size of a blob is a signed
field of the message that goes through `ROUND32` unchecked: a negative one, and one
from `2 ^ 31 - 3` on, rounds to a number that is not positive, and the test against
the end of the message passes. `SaneBlob` excludes these two kinds.
-/

namespace LittleOscar

open Machine

variable (P : Platform) (m : Memory) (base : Int)

/-- A typed reader with its tag cursor at `q` and its argument cursor at `p`, over a
message that a NUL follows. -/
structure Cursor (reader : OscMsgReader) (q p : Int) : Prop where
  msgPtr : reader.msgPtr = 0
  typePtr : reader.typePtr = some q
  argPtr : reader.argPtr = some p
  length : (m.length : Int) = reader.msgEnd + 1
  nul : loadByte m reader.msgEnd = some 0
  bound : reader.msgEnd < 2147483648
  end_mod : reader.msgEnd % 4 = 0
  tag_nonneg : 0 ≤ q
  tag_le : q ≤ reader.msgEnd
  four_le : 4 ≤ p
  le : p ≤ reader.msgEnd
  aligned : p % 4 = 0

/-- Where the next argument is a blob with a size, the size is neither negative nor
so large that its rounding wraps. -/
def SaneBlob (reader : OscMsgReader) : Prop :=
  ∀ q p, reader.typePtr = some q → reader.argPtr = some p →
    loadByte m q = some 'b'.toUInt8 → 4 ≤ reader.msgEnd - p →
      0 ≤ int32Field (m.drop p.toNat) ∧ int32Field (m.drop p.toNat) < 2147483645

/-- The reader after a call of `osc_msg_reader_get_arg` into the variable `arg`. -/
def getArgStep (reader : OscMsgReader) (arg : OscArg) : Option OscMsgReader :=
  (oscMsgReaderGetArg P m base reader arg).map fun (_, _, reader') => reader'

variable {P m} {reader : OscMsgReader} {q p : Int}

namespace Cursor

theorem msgEnd_eq {reader' : OscMsgReader} {q' p' : Int} (h : Cursor m reader q p)
    (h' : Cursor m reader' q' p') : reader.msgEnd = reader'.msgEnd := by
  have hlength := h.length
  have hlength' := h'.length
  omega

theorem moved (h : Cursor m reader q p) {p' : Int} (hle : p ≤ p') (hmod : p' % 4 = 0)
    (hend : p' ≤ reader.msgEnd) : Cursor m { reader with argPtr := some p' } q p' := by
  have hfour := h.four_le
  constructor
  · exact h.msgPtr
  · exact h.typePtr
  · rfl
  · exact h.length
  · exact h.nul
  · exact h.bound
  · exact h.end_mod
  · exact h.tag_nonneg
  · exact h.tag_le
  · omega
  · exact hend
  · exact hmod

/-- The next tag is a byte of the message, or the tags are at their end. -/
theorem nextArg (h : Cursor m reader q p) :
    ∃ b, loadByte m q = some b ∧
      ((b ≠ 0 ∧ ∃ reader₁, oscMsgReaderNextArg m reader = some (b, reader₁) ∧
          Cursor m reader₁ (q + 1) p) ∨
        (b = 0 ∧ oscMsgReaderNextArg m reader = some (charByte oscEnd, reader))) := by
  have hlength := h.length
  have hle := h.tag_le
  have hnonneg := h.tag_nonneg
  obtain ⟨b, hb⟩ := exists_loadByte (m := m) (p := q) h.tag_nonneg (by omega)
  have hnext := nextArg_eq h.typePtr hb
  refine ⟨b, hb, ?_⟩
  by_cases hzero : b = 0
  · rw [if_neg (not_not_intro hzero)] at hnext
    exact Or.inr ⟨hzero, hnext⟩
  · rw [if_pos hzero] at hnext
    have hlt : q + 1 ≤ reader.msgEnd := by
      by_contra habs
      have hq : q = reader.msgEnd := by omega
      rw [hq, h.nul] at hb
      exact hzero (Option.some.inj hb).symm
    refine Or.inl ⟨hzero, _, hnext, ?_⟩
    constructor
    · exact h.msgPtr
    · rfl
    · exact h.argPtr
    · exact h.length
    · exact h.nul
    · exact h.bound
    · exact h.end_mod
    · omega
    · exact hlt
    · exact h.four_le
    · exact h.le
    · exact h.aligned

end Cursor

/-- The getter reads inside the object and moves the argument cursor forward. -/
def GetterStays {α : Type} (m : Memory) (getter : OscMsgReader → Option (Int × α × OscMsgReader))
    (reader : OscMsgReader) (q p : Int) : Prop :=
  ∃ ret val reader' p', getter reader = some (ret, val, reader') ∧ p ≤ p' ∧
    Cursor m reader' q p'

namespace Cursor

theorem readFixed_stays {α : Type} {k : Nat} {decode : Nat → α} (h : Cursor m reader q p)
    (hk : k % 4 = 0) : GetterStays m (readFixed P m k decode) reader q p := by
  have haligned := h.aligned
  have hfour := h.four_le
  have hlength := h.length
  by_cases hshort : reader.msgEnd - p < k
  · exact ⟨_, _, reader, p, readFixed_of_short h.argPtr hshort, Int.le_refl p, h⟩
  · have hat := at_take (m := m) (p := p) (k := k) (by omega) (by omega)
    have hlen := length_take_drop (m := m) (p := p) (k := k) (by omega) (by omega)
    exact ⟨_, _, _, p + k, readFixed_of_at h.argPtr hat hlen (by omega), by omega,
      h.moved (by omega) (by omega) (by omega)⟩

theorem getArgStr_stays (h : Cursor m reader q p) :
    GetterStays m (oscMsgReaderGetArgStr m) reader q p := by
  have haligned := h.aligned
  have hfour := h.four_le
  have hlength := h.length
  have hbound := h.bound
  have hle := h.le
  have hmod := h.end_mod
  obtain ⟨n, hn, hsize⟩ := exists_strlen_of_loadByte (by omega) hle h.nul
  have heq := getArgStr_eq h.argPtr hn (by omega)
  have hpadded := paddedSize_mod n
  by_cases hshort : p + paddedSize n > reader.msgEnd
  · rw [if_pos hshort] at heq
    exact ⟨_, _, reader, p, heq, Int.le_refl p, h⟩
  · rw [if_neg hshort] at heq
    exact ⟨_, _, _, _, heq, by omega, h.moved (by omega) (by omega) (by omega)⟩

/-- What the getter of a blob does where there is a size. -/
theorem getArgBlob_eq (h : Cursor m reader q p) (hroom : 4 ≤ reader.msgEnd - p) :
    ∃ sz : Int32, sz.toInt = int32Field (m.drop p.toNat) ∧
      Cursor m { reader with argPtr := some (p + 4) } q (p + 4) ∧
      oscMsgReaderGetArgBlob P m reader =
        if p + 4 + round32 sz.toInt > reader.msgEnd then
          some (oscError, ⟨some sz, none⟩, { reader with argPtr := some (p + 4) })
        else some (oscOk, ⟨some sz, some (p + 4)⟩,
          { reader with argPtr := some (p + 4 + round32 sz.toInt) }) := by
  have haligned := h.aligned
  have hfour := h.four_le
  have hlength := h.length
  obtain ⟨sz, hsz, hget⟩ := getArgInt32_of_room (P := P) (m := m) h.argPtr (by omega)
    (by omega) (by omega)
  exact ⟨sz, hsz, h.moved (by omega) (by omega) (by omega),
    LittleOscar.getArgBlob_eq hget rfl⟩

/-- With a sane size the getter of a blob keeps to the message. -/
theorem getArgBlob_stays (h : Cursor m reader q p)
    (hsane : 4 ≤ reader.msgEnd - p → 0 ≤ int32Field (m.drop p.toNat) ∧
      int32Field (m.drop p.toNat) < 2147483645) :
    GetterStays m (oscMsgReaderGetArgBlob P m) reader q p := by
  by_cases hroom : 4 ≤ reader.msgEnd - p
  · obtain ⟨hnonneg, hlt⟩ := hsane hroom
    obtain ⟨sz, hsz, hmoved, heq⟩ := h.getArgBlob_eq (P := P) hroom
    have hmod := roundUp_mod sz.toInt.toNat
    have haligned := hmoved.aligned
    rw [← hsz] at hnonneg hlt
    rw [round32_eq_roundUp hnonneg hlt] at heq
    by_cases hpast : p + 4 + roundUp sz.toInt.toNat > reader.msgEnd
    · rw [if_pos hpast] at heq
      exact ⟨_, _, _, _, heq, by omega, hmoved⟩
    · rw [if_neg hpast] at heq
      exact ⟨_, _, _, _, heq, by omega, hmoved.moved (by omega) (by omega)
        (Int.not_lt.mp hpast)⟩
  · exact ⟨_, _, reader, p, getArgBlob_of_short h.argPtr (by omega), Int.le_refl p, h⟩

end Cursor

theorem GetterStays.map {α : Type} {getter : OscMsgReader → Option (Int × α × OscMsgReader)}
    {store : Int × α × OscMsgReader → Int × OscArg × OscMsgReader}
    (hstore : ∀ ret val reader', ∃ ret' arg', store (ret, val, reader') = (ret', arg', reader'))
    (h : GetterStays m getter reader q p) :
    ∃ ret arg reader' p', (getter reader).map store = some (ret, arg, reader') ∧ p ≤ p' ∧
      Cursor m reader' q p' := by
  obtain ⟨ret, val, reader', p', heq, hle, hcur⟩ := h
  obtain ⟨ret', arg', hstore'⟩ := hstore ret val reader'
  refine ⟨ret', arg', reader', p', ?_, hle, hcur⟩
  rw [heq, Option.map_some, hstore']

namespace Cursor

/-- With a sane size of a blob, every case of the `switch` keeps to the message. -/
theorem getArgSwitch_stays (h : Cursor m reader q p) {t : UInt8}
    (hsane : t = 'b'.toUInt8 → 4 ≤ reader.msgEnd - p → 0 ≤ int32Field (m.drop p.toNat) ∧
      int32Field (m.drop p.toNat) < 2147483645) (arg : OscArg) :
    ∃ ret arg' reader' p', getArgSwitch P m base t reader arg = some (ret, arg', reader') ∧
      p ≤ p' ∧ Cursor m reader' q p' := by
  have hfixed : ∀ {α : Type} (k : Nat) (decode : Nat → α), k % 4 = 0 →
      GetterStays m (readFixed P m k decode) reader q p :=
    fun k decode hk => h.readFixed_stays hk
  rw [getArgSwitch_eq]
  cases hkind : ArgKind.ofTag t with
  | none => exact ⟨_, _, reader, p, rfl, Int.le_refl p, h⟩
  | some kind =>
      rw [Option.elim_some]
      cases kind with
      | empty => exact ⟨_, _, reader, p, rfl, Int.le_refl p, h⟩
      | int32 | float => exact (hfixed 4 _ rfl).map fun _ _ _ => ⟨_, _, rfl⟩
      | int64 | timetag | double => exact (hfixed 8 _ rfl).map fun _ _ _ => ⟨_, _, rfl⟩
      | str => exact h.getArgStr_stays.map fun _ _ _ => ⟨_, _, rfl⟩
      | blob =>
          have hblob := hsane (ArgKind.ofTag_blob hkind)
          exact (h.getArgBlob_stays hblob).map fun _ _ _ => ⟨_, _, rfl⟩

/-- With a sane size, whatever the tag is, the call keeps to the message. -/
theorem getArg_stays (h : Cursor m reader q p) (hsane : SaneBlob m reader) (arg : OscArg) :
    ∃ ret arg' reader' q' p', oscMsgReaderGetArg P m base reader arg =
      some (ret, arg', reader') ∧ p ≤ p' ∧ Cursor m reader' q' p' := by
  obtain ⟨b, hb, hcases⟩ := h.nextArg
  obtain ⟨t, reader₁, q₁, hnext, hcur, hblob⟩ : ∃ t reader₁ q₁,
      oscMsgReaderNextArg m reader = some (t, reader₁) ∧ Cursor m reader₁ q₁ p ∧
        (t = 'b'.toUInt8 → 4 ≤ reader₁.msgEnd - p → 0 ≤ int32Field (m.drop p.toNat) ∧
          int32Field (m.drop p.toNat) < 2147483645) := by
    rcases hcases with ⟨-, reader₁, hnext, hcur⟩ | ⟨-, hnext⟩
    · refine ⟨b, reader₁, q + 1, hnext, hcur, ?_⟩
      intro hblob
      rw [hblob] at hb
      rw [← h.msgEnd_eq hcur]
      exact hsane q p h.typePtr h.argPtr hb
    · exact ⟨_, reader, q, hnext, h, fun habs => absurd habs (by decide)⟩
  have heq : oscMsgReaderGetArg P m base reader arg =
      if charValue P t < 0 then some (charValue P t, arg, reader₁)
      else getArgSwitch P m base t reader₁ { arg with type := t } := by
    rw [oscMsgReaderGetArg, hnext]
    rfl
  rw [heq]
  split
  · exact ⟨_, _, reader₁, q₁, p, rfl, Int.le_refl p, hcur⟩
  · obtain ⟨ret, arg', reader', p', hswitch, hle, hcur'⟩ :=
      hcur.getArgSwitch_stays (P := P) base hblob { arg with type := t }
    exact ⟨ret, arg', reader', q₁, p', hswitch, hle, hcur'⟩

end Cursor

/-- The reader that `osc_msg_reader_init` makes of a typed message. -/
theorem exists_cursor {buffer : Memory} {reader₀ reader : OscMsgReader}
    (hlen : buffer.length < 2147483648)
    (htype : oscPacketGetType (buffer ++ [0]) 0 buffer.length = some oscMessage)
    (hinit : oscMsgReaderInit (buffer ++ [0]) reader₀ 0 buffer.length = some (oscOk, reader))
    (htyped : oscMsgReaderIsTyped reader) :
    ∃ q p, Cursor (buffer ++ [0]) reader q p := by
  have hmod : buffer.length % 4 = 0 := by
    unfold oscPacketGetType at htype
    split at htype
    · exact absurd (Option.some.inj htype) (by decide)
    · omega
  have hlength : ((buffer ++ [0] : Memory).length : Int) = buffer.length + 1 := by simp
  have hnul : loadByte (buffer ++ [0]) buffer.length = some 0 := by
    rw [loadByte_natCast, List.getElem?_concat_length]
  cases accepted_of_init hinit with
  | address hn hfills => exact absurd htyped Bool.false_ne_true
  | untyped hn ha hlt hb hne => exact absurd htyped Bool.false_ne_true
  | @typed n k a hn ha hlt hb hk hle =>
      obtain ⟨-, hnlt, -⟩ := strlen_eq_some hn
      obtain ⟨hnonneg, hklt, -⟩ := strlen_eq_some hk
      have haddress := addressSize_of_nonneg (by omega) (by omega) ha
      have hround : round32Size (k + 1) = paddedSize k := round32Size_eq_roundUp (by omega)
      have hfour := four_le_paddedSize n
      have hfour' := four_le_paddedSize k
      have hmod' := paddedSize_mod n
      have hmod'' := paddedSize_mod k
      rw [hround] at hle ⊢
      refine ⟨0 + a + 1, 0 + a + paddedSize k, ?_⟩
      constructor
      · rfl
      · rfl
      · rfl
      · simp only
        omega
      · rw [Int.zero_add]
        exact hnul
      · simp only
        omega
      · simp only
        omega
      · omega
      · simp only
        omega
      · omega
      · simp only
        omega
      · omega

/-- A variable of type `osc_arg_t` that holds zeros. -/
def zeroArg : OscArg := ⟨0, List.replicate 8 0, rfl⟩

/-- The message `/a ,i` with its argument. -/
def intMessage : Memory := [47, 97, 0, 0, 44, 105, 0, 0, 0, 0, 0, 7]

end LittleOscar
