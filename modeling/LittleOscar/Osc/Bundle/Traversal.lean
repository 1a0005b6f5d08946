import LittleOscar.Osc.Reader.Getter

/-!
# Walking over the elements of a bundle

`splitRecords` is the split of a list of bytes into records that a bundle stands
for: a signed big-endian length, then that many bytes. `traverse` is the loop of a
caller of `osc_bundle_reader_next`, which it calls until the result is not positive.

`traverse_eq` says that on a bundle the loop ends and gives exactly the records of
the split, and that the last result tells whether they fill the bundle. The
memory object of the theorem is the buffer alone, so that a result also means that
no byte outside the buffer was read.
-/

namespace LittleOscar

open Machine

/-- A record of a bundle: where its bytes start, and its bytes. -/
structure BundleRecord where
  start : Nat
  bytes : List UInt8

/-- A length that a record may have where `room` bytes are left for its bytes. -/
def IsRecordLength (room n : Int) : Prop := 4 ≤ n ∧ n % 4 = 0 ∧ n ≤ room

instance (room n : Int) : Decidable (IsRecordLength room n) :=
  inferInstanceAs (Decidable (4 ≤ n ∧ n % 4 = 0 ∧ n ≤ room))

/-- The records of `bs`, which start at the offset `i`, as far as they are well
formed, and whether they fill `bs`; `announced` is the length in front of a record. -/
def splitBy (announced : List UInt8 → Int) (i : Nat) (bs : List UInt8) :
    List BundleRecord × Bool :=
  if bs = [] then ([], true)
  else if IsRecordLength (bs.length - 4) (announced bs) then
    let rest := splitBy announced (i + 4 + (announced bs).toNat)
      (bs.drop (4 + (announced bs).toNat))
    (⟨i + 4, (bs.drop 4).take (announced bs).toNat⟩ :: rest.1, rest.2)
  else ([], false)
termination_by bs.length
decreasing_by
  rw [List.length_drop]
  exact Nat.sub_lt (List.length_pos_of_ne_nil (by assumption))
    (Nat.lt_of_lt_of_le (by decide) (Nat.le_add_right 4 _))

/-- The records of `bs`, whose lengths are big-endian. -/
def splitRecords (i : Nat) (bs : List UInt8) : List BundleRecord × Bool :=
  splitBy int32Field i bs

/-- What the reader reports of a record. -/
def BundleRecord.report (r : BundleRecord) : Int × OscElement :=
  (if r.bytes.head? = some '#'.toUInt8 then oscBundle else oscMessage,
    ⟨r.start, r.bytes.length⟩)

variable (P : Platform) (m : Memory)

/-- The loop over the elements of a bundle, for at most `fuel` calls: the elements,
the first result that is not positive and the reader after it. -/
def traverse : Nat → OscBundleReader →
    Option (List (Int × OscElement) × Int × OscBundleReader)
  | 0, _ => none
  | fuel + 1, reader => do
      let (ret, out, reader) ← oscBundleReaderNext P m reader
      if ret ≤ 0 then some ([], ret, reader)
      else do
        let element ← out
        let (elements, final, reader) ← traverse fuel reader
        some ((ret, element) :: elements, final, reader)

/-! ## The split -/

section Split

variable {announced : List UInt8 → Int} {i : Nat} {bs : List UInt8}

theorem splitBy_nil : splitBy announced i [] = ([], true) := by
  rw [splitBy, if_pos rfl]

theorem splitBy_of_length {n : Int} (hbs : bs ≠ []) (hn : announced bs = n)
    (h : IsRecordLength (bs.length - 4) n) :
    splitBy announced i bs =
      (⟨i + 4, (bs.drop 4).take n.toNat⟩ ::
          (splitBy announced (i + 4 + n.toNat) (bs.drop (4 + n.toNat))).1,
        (splitBy announced (i + 4 + n.toNat) (bs.drop (4 + n.toNat))).2) := by
  subst hn
  rw [splitBy, if_neg hbs, if_pos h]

theorem splitBy_of_not_length (hbs : bs ≠ [])
    (h : ¬ IsRecordLength (bs.length - 4) (announced bs)) :
    splitBy announced i bs = ([], false) := by
  rw [splitBy, if_neg hbs, if_neg h]

/-- The records of a split lie where they say. -/
theorem splitBy_at {r : BundleRecord} (h : r ∈ (splitBy announced i bs).1) :
    i ≤ r.start ∧ (bs.drop (r.start - i)).take r.bytes.length = r.bytes := by
  fun_induction splitBy announced i bs with
  | case1 => cases h
  | case2 i bs hbs hlen rest ih =>
      rcases List.mem_cons.mp h with rfl | hrest
      · constructor
        · exact Nat.le_add_right i 4
        · rw [Nat.add_sub_cancel_left, List.length_take, List.take_eq_take_iff]
          omega
      · obtain ⟨hle, htake⟩ := ih hrest
        constructor
        · omega
        · rw [List.drop_drop] at htake
          rw [← htake]
          congr 3
          omega
  | case3 => cases h

end Split

/-! ## One call -/

variable {P m} {reader : OscBundleReader} {p : Nat}

theorem oscBundleReaderNext_end (h : reader.msgPtr = reader.bundleEnd) :
    oscBundleReaderNext P m reader = some (oscEnd, none, reader) := by
  rw [oscBundleReaderNext, if_pos h]

/-- A call finds the end, or it loads a length from four bytes of the object and moves by
it, whatever it returns. -/
theorem cases_of_next {reader' : OscBundleReader} {ret : Int} {out : Option OscElement}
    (h : oscBundleReaderNext P m reader = some (ret, out, reader')) :
    (reader.msgPtr = reader.bundleEnd ∧ ret = oscEnd ∧ out = none ∧ reader' = reader) ∨
      (0 ≤ reader.msgPtr ∧ reader.msgPtr + 4 ≤ m.length ∧
        ∃ n, out = some ⟨reader.msgPtr + 4, n⟩ ∧
          reader' = { reader with msgPtr := reader.msgPtr + 4 + n } ∧
          (ret = oscError ∨ reader.msgPtr + 4 + n ≤ reader.bundleEnd ∧
            oscPacketGetType m (reader.msgPtr + 4) n = some ret)) := by
  simp only [oscBundleReaderNext, Option.bind_eq_bind] at h
  split at h
  · next hlast =>
      obtain ⟨rfl, hrest⟩ := Prod.mk.inj (Option.some.inj h)
      obtain ⟨rfl, rfl⟩ := Prod.mk.inj hrest
      exact Or.inl ⟨hlast, rfl, rfl, rfl⟩
  · obtain ⟨raw, hraw, hlength⟩ := Option.bind_eq_some_iff.mp h
    obtain ⟨bs, hbs, -⟩ := Option.map_eq_some_iff.mp hraw
    refine Or.inr ⟨nonneg_of_loadBytes (by decide) hbs, le_length_of_loadBytes (by decide) hbs,
      (oscNtoh32 P (UInt32.ofNat raw)).toInt32.toInt, ?_⟩
    generalize (oscNtoh32 P (UInt32.ofNat raw)).toInt32.toInt = n at hlength
    split at hlength
    · obtain ⟨rfl, hrest⟩ := Prod.mk.inj (Option.some.inj hlength)
      obtain ⟨rfl, rfl⟩ := Prod.mk.inj hrest
      exact ⟨rfl, rfl, Or.inl rfl⟩
    · next hpast =>
        obtain ⟨type, htype, hresult⟩ := Option.bind_eq_some_iff.mp hlength
        obtain ⟨rfl, hrest⟩ := Prod.mk.inj (Option.some.inj hresult)
        obtain ⟨rfl, rfl⟩ := Prod.mk.inj hrest
        exact ⟨rfl, rfl, Or.inr ⟨Int.not_lt.mp hpast, htype⟩⟩

/-- The reader in front of four bytes of the object, which hold the length `n`. -/
structure AtField (m : Memory) (reader : OscBundleReader) (n : Int) : Prop where
  ne_end : reader.msgPtr ≠ reader.bundleEnd
  nonneg : 0 ≤ reader.msgPtr
  le : reader.msgPtr + 4 ≤ m.length
  end_le : reader.bundleEnd ≤ m.length
  field : int32Field (m.drop reader.msgPtr.toNat) = n

namespace AtField

variable {n : Int}

theorem next_eq (h : AtField m reader n) :
    oscBundleReaderNext P m reader =
      if reader.bundleEnd < reader.msgPtr + 4 + n then
        some (oscError, some ⟨reader.msgPtr + 4, n⟩,
          { reader with msgPtr := reader.msgPtr + 4 + n })
      else (oscPacketGetType m (reader.msgPtr + 4) n).map fun type =>
        (type, some ⟨reader.msgPtr + 4, n⟩, { reader with msgPtr := reader.msgPtr + 4 + n }) := by
  obtain ⟨raw, hraw, hn⟩ := loadNative_int32Field (P := P) h.nonneg h.le
  rw [h.field] at hn
  rw [oscBundleReaderNext, if_neg h.ne_end, hraw]
  simp only [Option.bind_eq_bind, Option.bind_some, hn, gt_iff_lt]
  split
  · rfl
  · cases oscPacketGetType m (reader.msgPtr + 4) n <;> rfl

/-- A length that a record may have is reported with the type of its first byte. -/
theorem next_of_record (h : AtField m reader n)
    (hlen : IsRecordLength (reader.bundleEnd - reader.msgPtr - 4) n) :
    ∃ b, loadByte m (reader.msgPtr + 4) = some b ∧ oscBundleReaderNext P m reader =
      some (if b = '#'.toUInt8 then oscBundle else oscMessage, some ⟨reader.msgPtr + 4, n⟩,
        { reader with msgPtr := reader.msgPtr + 4 + n }) := by
  obtain ⟨hfour, hmod, hle⟩ := hlen
  have hnonneg := h.nonneg
  have hend := h.end_le
  obtain ⟨b, hb⟩ := exists_loadByte (m := m) (p := reader.msgPtr + 4) (by omega) (by omega)
  refine ⟨b, hb, ?_⟩
  rw [h.next_eq, if_neg (by omega), oscPacketGetType, if_neg (by omega), hb]
  rfl

/-- Any other length is an error, and the reader moves by it all the same. -/
theorem next_of_not_record (h : AtField m reader n)
    (hlen : ¬ IsRecordLength (reader.bundleEnd - reader.msgPtr - 4) n) :
    oscBundleReaderNext P m reader = some (oscError, some ⟨reader.msgPtr + 4, n⟩,
      { reader with msgPtr := reader.msgPtr + 4 + n }) := by
  rw [h.next_eq]
  split
  · rfl
  · have hbad : n < 4 ∨ n % 4 ≠ 0 := by
      unfold IsRecordLength at hlen
      omega
    rw [oscPacketGetType, if_pos hbad]
    rfl

end AtField

/-- The reader between two elements of a bundle that is the whole object. -/
structure AtElement (m : Memory) (reader : OscBundleReader) (p : Nat) : Prop where
  bundleEnd : reader.bundleEnd = m.length
  msgPtr : reader.msgPtr = p
  le : p ≤ m.length
  aligned : p % 4 = 0
  length_mod : m.length % 4 = 0

namespace AtElement

theorem atField (h : AtElement m reader p) (hlt : p < m.length) :
    AtField m reader (int32Field (m.drop p)) := by
  have hend := h.bundleEnd
  have hptr := h.msgPtr
  have haligned := h.aligned
  have hmod := h.length_mod
  refine ⟨by omega, by omega, by omega, by omega, ?_⟩
  rw [hptr, Int.toNat_natCast]

theorem room (h : AtElement m reader p) :
    (m.drop p).length - 4 = reader.bundleEnd - reader.msgPtr - 4 := by
  have hle := h.le
  rw [h.bundleEnd, h.msgPtr, List.length_drop]
  omega

/-- A record is reported as it is, and the reader stops behind it. -/
theorem next_of_length {n : Int} (h : AtElement m reader p) (hlt : p < m.length)
    (hn : int32Field (m.drop p) = n) (hlen : IsRecordLength ((m.drop p).length - 4) n) :
    ∃ reader', oscBundleReaderNext P m reader =
        some ((BundleRecord.report ⟨p + 4, ((m.drop p).drop 4).take n.toNat⟩).1,
          some (BundleRecord.report ⟨p + 4, ((m.drop p).drop 4).take n.toNat⟩).2, reader') ∧
      AtElement m reader' (p + 4 + n.toNat) := by
  have hfield := h.atField hlt
  rw [hn] at hfield
  have hrecord := hlen
  rw [h.room] at hrecord
  obtain ⟨b, hb, hnext⟩ := hfield.next_of_record (P := P) hrecord
  obtain ⟨hfour, hmod, hle⟩ := hlen
  have haligned := h.aligned
  have hdrop : (m.drop p).length = m.length - p := List.length_drop
  have hget : m[p + 4]? = some b := by
    rw [← loadByte_natCast, ← hb, h.msgPtr]
    rfl
  have hlength : (((m.drop p).drop 4).take n.toNat).length = n.toNat := by
    rw [List.length_take, List.length_drop]
    omega
  have hhead : (((m.drop p).drop 4).take n.toNat).head? = some b := by
    rw [List.head?_take, if_neg (by omega), List.drop_drop, List.head?_drop, hget]
  have hsize : (n.toNat : Int) = n := Int.toNat_of_nonneg (by omega)
  have hstart : ((p + 4 : Nat) : Int) = p + 4 := rfl
  refine ⟨{ reader with msgPtr := p + 4 + n }, ?_, ?_⟩
  · rw [hnext]
    simp only [BundleRecord.report, hhead, hlength, Option.some.injEq, hsize, hstart, h.msgPtr]
  · constructor
    · exact h.bundleEnd
    · simp only
      omega
    · omega
    · omega
    · exact h.length_mod

theorem next_of_not_length (h : AtElement m reader p) (hlt : p < m.length)
    (hlen : ¬ IsRecordLength ((m.drop p).length - 4) (int32Field (m.drop p))) :
    ∃ out reader', oscBundleReaderNext P m reader = some (oscError, out, reader') := by
  rw [h.room] at hlen
  exact ⟨_, _, (h.atField hlt).next_of_not_record hlen⟩

end AtElement

theorem report_pos (r : BundleRecord) : ¬ r.report.1 ≤ 0 := by
  unfold BundleRecord.report
  split
  · show ¬ oscBundle ≤ 0
    decide
  · show ¬ oscMessage ≤ 0
    decide

/-! ## The whole loop -/

/-- How many calls the loop is given does not matter, once they are enough. -/
theorem traverse_unique {fuel fuel' : Nat} {x y : List (Int × OscElement) × Int × OscBundleReader}
    (h : traverse P m fuel reader = some x) (h' : traverse P m fuel' reader = some y) :
    x = y := by
  induction fuel generalizing fuel' reader x y with
  | zero => cases h
  | succ fuel ih =>
      cases fuel' with
      | zero => cases h'
      | succ fuel' =>
          rw [traverse] at h h'
          obtain ⟨⟨ret, out, reader₁⟩, hnext, hrest⟩ := Option.bind_eq_some_iff.mp h
          rw [hnext, Option.bind_eq_bind, Option.bind_some] at h'
          by_cases hret : ret ≤ 0
          · simp only [if_pos hret] at hrest h'
            exact Option.some.inj (hrest.symm.trans h')
          · simp only [if_neg hret] at hrest h'
            obtain ⟨element, hout, hrest⟩ := Option.bind_eq_some_iff.mp hrest
            rw [hout, Option.bind_eq_bind, Option.bind_some] at h'
            obtain ⟨x₁, hx₁, hx⟩ := Option.bind_eq_some_iff.mp hrest
            obtain ⟨y₁, hy₁, hy⟩ := Option.bind_eq_some_iff.mp h'
            obtain rfl := ih hx₁ hy₁
            exact Option.some.inj (hx.symm.trans hy)

/-- From every element on, the loop gives the records of the rest of the bundle. -/
theorem AtElement.traverse_eq (h : AtElement m reader p) {fuel : Nat}
    (hfuel : m.length - p < fuel) :
    ∃ reader', traverse P m fuel reader =
      some ((splitRecords p (m.drop p)).1.map BundleRecord.report,
        if (splitRecords p (m.drop p)).2 then oscEnd else oscError, reader') := by
  induction fuel generalizing reader p with
  | zero => exact absurd hfuel (Nat.not_lt_zero _)
  | succ fuel ih =>
      by_cases hlt : p < m.length
      · have hne : m.drop p ≠ [] := by
          rw [ne_eq, List.drop_eq_nil_iff]
          omega
        obtain ⟨n, hn⟩ : ∃ n, int32Field (m.drop p) = n := ⟨_, rfl⟩
        by_cases hlen : IsRecordLength ((m.drop p).length - 4) n
        · obtain ⟨reader₁, hnext, hat⟩ := h.next_of_length (P := P) hlt hn hlen
          obtain ⟨reader', hrest⟩ := ih hat (by omega)
          have hdrop : (m.drop p).drop (4 + n.toNat) = m.drop (p + 4 + n.toNat) := by
            rw [List.drop_drop, Nat.add_assoc]
          refine ⟨reader', ?_⟩
          rw [traverse, hnext, splitRecords, splitBy_of_length hne hn hlen, hdrop]
          rw [splitRecords] at hrest
          simp only [Option.bind_eq_bind, Option.bind_some, report_pos, if_false, hrest,
            List.map_cons]
        · rw [← hn] at hlen
          obtain ⟨out, reader', hnext⟩ := h.next_of_not_length (P := P) hlt hlen
          refine ⟨reader', ?_⟩
          rw [traverse, hnext, splitRecords, splitBy_of_not_length hne hlen]
          rfl
      · have hend : reader.msgPtr = reader.bundleEnd := by
          have hptr := h.msgPtr
          have hlast := h.bundleEnd
          have hle := h.le
          omega
        have hnil : m.drop p = [] := by
          rw [List.drop_eq_nil_iff]
          omega
        refine ⟨reader, ?_⟩
        rw [traverse, oscBundleReaderNext_end hend, hnil, splitRecords, splitBy_nil]
        rfl

/-- The reader that `osc_bundle_reader_init` makes of an aligned buffer. -/
theorem atElement_of_init {buffer : Memory} {reader₀ reader : OscBundleReader}
    (hmod : buffer.length % 4 = 0)
    (hinit : oscBundleReaderInit reader₀ 0 buffer.length = (oscOk, reader)) :
    AtElement buffer reader 16 := by
  unfold oscBundleReaderInit at hinit
  split at hinit
  · cases hinit
  · cases hinit
    exact ⟨by simp, by simp, by omega, by decide, hmod⟩

/-- On a bundle the loop over `osc_bundle_reader_next` ends, reads only bytes of the
buffer and gives the records of the bytes behind the header. -/
theorem traverse_splitRecords (P : Platform) (buffer : Memory)
    (reader₀ reader : OscBundleReader)
    (htype : oscPacketGetType buffer 0 buffer.length = some oscBundle)
    (hinit : oscBundleReaderInit reader₀ 0 buffer.length = (oscOk, reader)) :
    (∀ fuel, buffer.length - 16 < fuel → ∃ reader', traverse P buffer fuel reader =
      some ((splitRecords 16 (buffer.drop 16)).1.map BundleRecord.report,
        if (splitRecords 16 (buffer.drop 16)).2 then oscEnd else oscError, reader')) ∧
      ∀ r ∈ (splitRecords 16 (buffer.drop 16)).1,
        (buffer.drop r.start).take r.bytes.length = r.bytes := by
  constructor
  · have hmod : buffer.length % 4 = 0 := by
      unfold oscPacketGetType at htype
      split at htype
      · cases htype
      · omega
    have hat := atElement_of_init hmod hinit
    exact fun fuel hfuel => hat.traverse_eq hfuel
  · intro r hr
    obtain ⟨hle, htake⟩ := splitBy_at hr
    rw [List.drop_drop, Nat.add_sub_cancel' hle] at htake
    exact htake

/-- A bundle with an element of four bytes and one that announces too many. -/
def truncatedBundle : Memory :=
  [35, 98, 117, 110, 100, 108, 101] ++ List.replicate 9 0 ++ [0, 0, 0, 4, 47, 0, 0, 0, 0, 0, 0, 8]

theorem traverse_truncatedBundle :
    ∃ reader, oscBundleReaderInit ⟨0, 0, 0⟩ 0 truncatedBundle.length = (oscOk, reader) ∧
      ∃ reader', traverse littleHost truncatedBundle 16 reader =
        some ([(oscMessage, ⟨20, 4⟩)], oscError, reader') := by
  refine ⟨_, rfl, ?_⟩
  obtain ⟨hrun, -⟩ := traverse_splitRecords littleHost truncatedBundle ⟨0, 0, 0⟩ _
    (by decide) rfl
  obtain ⟨reader', htraverse⟩ := hrun 16 (by decide)
  rw [splitRecords, splitBy_of_length (n := 4) (by decide) (by decide) (by decide),
    splitBy_of_not_length (by decide) (by decide)] at htraverse
  exact ⟨reader', htraverse⟩

end LittleOscar
