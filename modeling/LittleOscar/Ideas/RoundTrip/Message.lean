import LittleOscar.Ideas.Reader.Decode
import LittleOscar.Ideas.Writer.Encoding

/-!
# A message from `osc_writev` to the reader

`osc_writev` writes the reference encoding if it fits, and a reader that is started on
it gives back the address and the arguments, then the end of the arguments and the end
of the packet (`oscWritev_roundTrips`).
-/

namespace LittleOscar.Ideas

open Machine

variable {P : Platform} {m : Memory} {reader : OscReader} {p : Int}

/-! ## The reader on an encoded message -/

theorem strcmpEq_of_at {s t rest : List UInt8} (hs : 0 ∉ s) (ht : 0 ∉ t)
    (h : At m p (t ++ 0 :: rest)) : strcmpEq m s p = some (decide (s = t)) := by
  induction s generalizing t p with
  | nil =>
      cases t with
      | nil =>
          rw [List.nil_append] at h
          rw [strcmpEq, h.loadByte]
          rfl
      | cons b t =>
          rw [List.mem_cons, not_or] at ht
          rw [List.cons_append] at h
          rw [strcmpEq, h.loadByte, Option.map_some]
          simp [Ne.symm ht.1]
  | cons c s ih =>
      rw [List.mem_cons, not_or] at hs
      cases t with
      | nil =>
          rw [List.nil_append] at h
          rw [strcmpEq, h.loadByte, Option.bind_eq_bind, Option.bind_some, if_neg hs.1]
          simp
      | cons b t =>
          rw [List.mem_cons, not_or] at ht
          rw [List.cons_append] at h
          rw [strcmpEq, h.loadByte, Option.bind_eq_bind, Option.bind_some]
          by_cases hbc : b = c
          · have hnext : At m (p + 1) (t ++ 0 :: rest) :=
              (show At m p ([b] ++ (t ++ 0 :: rest)) from h).right
            rw [if_pos hbc, ih hs.2 ht.2 hnext]
            simp [hbc]
          · rw [if_neg hbc]
            simp [Ne.symm hbc]

/-- `osc_reader_start_msg` finds the tags and the payloads. -/
theorem startParts_encodeMessage (reader : OscReader) {address : CString} {as : List OscArgument}
    (hat : At m p (encodeMessage address as))
    (hlt : (encodeMessage address as).length < 9223372036854775808) :
    startParts m p (p + (encodeMessage address as).length) reader =
      some (oscOk, { reader with
        typePtr := some (p + paddedSize address.bytes.length + 1)
        argPtr := some (p + paddedSize address.bytes.length +
          paddedSize (tagString as).length) }) := by
  have hlen := length_encodeMessage address as
  have hmod := encodeMessage_mod address as
  have haddress : At m p (padString address.bytes) := hat.left.left
  have htags : At m (p + paddedSize address.bytes.length) (padString (tagString as)) := by
    have hright := hat.left.right
    rw [length_padString] at hright
    exact hright
  have hfour := four_le_paddedSize (tagString as).length
  have hless := lt_paddedSize address.bytes.length
  have hless' := lt_paddedSize (tagString as).length
  have hround : round32Size (address.bytes.length + 1) = paddedSize address.bytes.length :=
    round32Size_eq_roundUp (by omega)
  have hround' : round32Size ((tagString as).length + 1) = paddedSize (tagString as).length :=
    round32Size_eq_roundUp (by omega)
  rw [startParts, if_neg (by omega), haddress.strlen address.noNul]
  simp only [Option.bind_eq_bind, Option.bind_some, hround]
  rw [if_neg (by omega), if_neg (by omega), htags.loadByte, Option.bind_some, if_pos rfl,
    htags.strlen (tagString_noNul as), Option.bind_some, hround', if_neg (by omega)]

/-- From there the reader delivers the arguments, and then the end. -/
theorem delivers_encodeMessage (reader : OscReader) {address : CString} {as : List OscArgument}
    (hat : At m p (encodeMessage address as))
    (hlt : (encodeMessage address as).length < 2147483648)
    (hend : p + (encodeMessage address as).length < 9223372036854775808) :
    ∃ r', Delivers P m
        { reader with
          msgPtr := some p
          msgEnd := some (p + (encodeMessage address as).length)
          typePtr := some (p + paddedSize address.bytes.length + 1)
          argPtr := some (p + paddedSize address.bytes.length +
            paddedSize (tagString as).length) }
        (reader.withCursors r') as ∧
      oscReaderNextArg m (reader.withCursors r') =
        some (charByte oscEnd, reader.withCursors r') := by
  have hlen := length_encodeMessage address as
  have hright := hat.left.right
  rw [length_padString] at hright
  have htags := (show At m _ ([','.toUInt8] ++ _) from hright).right
  have hpayloads : At m (p + paddedSize address.bytes.length +
      paddedSize (tagString as).length) (payloads as) := by
    have hright' := hat.right
    rw [List.length_append, length_padString, length_padString, Int.natCast_add,
      ← Int.add_assoc] at hright'
    exact hright'
  have hsmall : ∀ a ∈ as, a.payload.length < 2147483648 := by
    intro a ha
    have hle : a.payload.length ≤ (payloads as).length :=
      (List.sublist_flatten_of_mem (List.mem_map_of_mem ha)).length_le
    omega
  let r : OscMsgReader := {
    msgPtr := p
    msgEnd := p + (encodeMessage address as).length
    typePtr := some (p + paddedSize address.bytes.length + 1)
    argPtr := some (p + paddedSize address.bytes.length + paddedSize (tagString as).length) }
  have htypePtr : r.typePtr = some (p + paddedSize address.bytes.length + 1) := rfl
  have hargPtr : r.argPtr = some (p + paddedSize address.bytes.length +
      paddedSize (tagString as).length) := rfl
  obtain ⟨r', hdelivers, hlast, -⟩ := delivers_of_at (P := P) htypePtr hargPtr htags hpayloads
    (by simp only [r]; omega) (by omega)
  refine ⟨r', delivers_withCursors reader (r := r) hsmall hend hdelivers, ?_⟩
  rw [nextArg_withCursors, hlast]
  rfl

/-! ## The round trip -/

/-- The reader gives back the message from the `len` bytes that `m` begins with: the
address, the arguments in order, their end, and the end of the packet. -/
def ReadsBack (P : Platform) (m : Memory) (len : Nat) (reader₀ : OscReader)
    (address : CString) (as : List OscArgument) : Prop :=
  ∃ reader reader₁ reader₂ reader₃,
    (∀ fuel, oscReaderInit P fuel reader₀ 0 len m = some (oscOk, reader, m)) ∧
    oscReaderStartMsg P m reader = some (oscOk, reader₁) ∧
    (oscReaderGetMsgAddress reader₁).bind (stringAt m) = some address.bytes ∧
    Delivers P m reader₁ reader₂ as ∧
    (∃ c, oscReaderNextArg m reader₂ = some (c, reader₂) ∧ ReportsEnd P c) ∧
    oscReaderStartMsg P m reader₂ = some (oscEnd, reader₃)

theorem readsBack_encodeMessage {address : CString} {as : List OscArgument}
    (haddress : address.bytes ≠ bundleName)
    (hlt : (encodeMessage address as).length < 2147483648) (rest : Memory)
    (reader₀ : OscReader) :
    ReadsBack P (encodeMessage address as ++ rest) (encodeMessage address as).length reader₀
      address as := by
  have hat : At (encodeMessage address as ++ rest) 0 (encodeMessage address as) :=
    ⟨[], rest, rfl, rfl⟩
  have hname : At (encodeMessage address as ++ rest) 0 (padString address.bytes) := hat.left.left
  have hstrcmp := strcmpEq_of_at (s := bundleName) (by decide) address.noNul hname
  have hparts := fun reader => startParts_encodeMessage reader hat (by omega)
  let reader : OscReader := {
    buffer := 0
    bufferEnd := 0 + (encodeMessage address as).length
    isBundle := 0
    msgPtr := none
    msgEnd := none
    typePtr := none
    argPtr := none }
  obtain ⟨r', hdelivers, hlast⟩ :=
    delivers_encodeMessage (P := P) reader hat hlt (by omega)
  refine ⟨reader, _, reader.withCursors r', _, ?_, ?_, ?_, hdelivers,
    ⟨_, hlast, rfl, charValue_charByte_oscEnd P⟩, rfl⟩
  · intro fuel
    simp only [oscReaderInit, Option.bind_eq_bind, hstrcmp, Option.bind_some,
      decide_eq_false (Ne.symm haddress)]
    rfl
  · exact hparts _
  · exact hname.stringAt address.noNul

/-- The round trip of a message. -/
theorem oscWritev_roundTrips (P : Platform) (demote : UInt64 → UInt32) (buffer : Memory)
    (address format : CString) (as : List OscArgument) (args : List VaArg)
    (hlen : buffer.length ≤ 2147483647) (haddress : address.bytes ≠ bundleName)
    (hformat : format.bytes = as.map OscArgument.tag) (hargs : PassedAll demote as args) :
    ∃ n m, oscWritev P demote 0 buffer.length address format args buffer = some (n, m) ∧
      (0 ≤ n ↔ (encodeMessage address as).length ≤ buffer.length) ∧
      (0 ≤ n → n = (encodeMessage address as).length ∧ n % 4 = 0 ∧
        m.take n.toNat = encodeMessage address as ∧
        ∀ rest reader₀, ReadsBack P (m.take n.toNat ++ rest) n.toNat reader₀ address as) := by
  have hroom : Room (0 + (buffer.length : Nat)) 0 buffer := ⟨by omega, by omega, by omega, by omega⟩
  obtain ⟨hfits, hfull⟩ := oscWritev_eq (P := P) address hformat hargs hroom
  by_cases hle : (encodeMessage address as).length ≤ buffer.length
  · have hwrap : wrap32 (encodeMessage address as).length = (encodeMessage address as).length :=
      wrap32_of_range (by omega) (by omega)
    have hmod := encodeMessage_mod address as
    rw [hwrap] at hfits
    refine ⟨_, _, hfits hle, ?_, ?_⟩
    · simp [hle]
    · intro _
      have htake : (overwrite buffer (0 : Int).toNat (encodeMessage address as)).take
          ((encodeMessage address as).length : Int).toNat = encodeMessage address as := by
        simp [overwrite]
      refine ⟨rfl, by omega, htake, ?_⟩
      intro rest reader₀
      rw [htake]
      exact readsBack_encodeMessage haddress (by omega) rest reader₀
  · obtain ⟨m, hnone⟩ := hfull (by omega)
    refine ⟨-1, m, hnone, ?_, fun habs => absurd habs (by decide)⟩
    constructor
    · intro habs
      exact absurd habs (by decide)
    · intro habs
      exact absurd habs hle

/-- The format of `mixedArgs`. -/
def mixedFormat : CString where
  bytes := ['N', 'i', 'S', 'b'].map Char.toUInt8
  noNul := by decide
  length_lt := by decide

/-- The string `/a` and a blob of three bytes, as a caller passes them. -/
def mixedVaArgs : List VaArg :=
  [.int 7, .pointer ⟨[47, 97, 0], by decide⟩, .int 3, .pointer ⟨[1, 2, 3], by decide⟩]

theorem oscWritev_roundTrips_mixedArgs :
    ∃ n m, oscWritev littleHost UInt64.toUInt32 0 64 slashA mixedFormat mixedVaArgs
        (List.replicate 64 0) = some (n, m) ∧
      (0 ≤ n ↔ (encodeMessage slashA mixedArgs).length ≤ 64) ∧
      (0 ≤ n → n = (encodeMessage slashA mixedArgs).length ∧ n % 4 = 0 ∧
        m.take n.toNat = encodeMessage slashA mixedArgs ∧
        ∀ rest reader₀,
          ReadsBack littleHost (m.take n.toNat ++ rest) n.toNat reader₀ slashA mixedArgs) :=
  oscWritev_roundTrips littleHost UInt64.toUInt32 (List.replicate 64 0) slashA mixedFormat
    mixedArgs mixedVaArgs (by decide) (by decide) rfl
    ⟨trivial, rfl, ⟨by decide, _, [], rfl, rfl⟩, ⟨3, _, [], rfl, by decide, rfl, rfl⟩, trivial⟩

end LittleOscar.Ideas
