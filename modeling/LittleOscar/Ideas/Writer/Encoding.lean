import LittleOscar.Ideas.Writer.Definitions

/-!
# What `osc_writev` writes

`Emits stop bs w` says that the writing function `w` is one for the bytes `bs`: it
stores them at its cursor if they fit before `stop`, and else returns in the middle.
Such functions compose along `++`, so `osc_writev` emits the reference encoding of the
message that its arguments carry (`oscWritev_eq`), and its capacity test is exact.

`Passed` says which arguments behind a format carry an argument of a message. A call that
does not return `-1` was passed such arguments (`passedAll_of_oscWritev`).
-/

namespace LittleOscar.Ideas

open Machine

/-- The cursor lies in the buffer, which ends at `stop`. -/
structure Room (stop pos : Int) (m : Memory) : Prop where
  nonneg : 0 ≤ pos
  le : pos ≤ stop
  inside : stop ≤ m.length
  length_lt : m.length < 9223372036854775808

/-- The function writes `bs`, if there is room for them. -/
def Emits (stop : Int) (bs : List UInt8) (w : Int → Memory → Written) : Prop :=
  ∀ pos m, Room stop pos m →
    (pos + bs.length ≤ stop →
        w pos m = some (some (pos + bs.length), overwrite m pos.toNat bs)) ∧
      (stop < pos + bs.length → ∃ m', w pos m = some (none, m'))

variable {stop : Int} {bs cs : List UInt8}

theorem Room.advance {pos : Int} {m : Memory} (h : Room stop pos m)
    (hfits : pos + bs.length ≤ stop) :
    Room stop (pos + bs.length) (overwrite m pos.toNat bs) := by
  obtain ⟨hnonneg, hle, hinside, hlt⟩ := h
  have hlen : (overwrite m pos.toNat bs).length = m.length := length_overwrite (by omega)
  exact ⟨by omega, hfits, by omega, by omega⟩

theorem Room.sizeT_eq {pos : Int} {m : Memory} (h : Room stop pos m) :
    sizeT (stop - pos) = (stop - pos).toNat := by
  obtain ⟨hnonneg, hle, hinside, hlt⟩ := h
  exact sizeT_of_nonneg (by omega) (by omega)

theorem emits_nil : Emits stop [] fun pos m => some (some pos, m) := by
  intro pos m h
  constructor
  · intro _
    simp
  · intro habs
    have hle := h.le
    rw [List.length_nil] at habs
    omega

theorem Emits.andThen {w w' : Int → Memory → Written} (hw : Emits stop bs w)
    (hw' : Emits stop cs w') : Emits stop (bs ++ cs) fun pos m => (w pos m).andThen w' := by
  intro pos m h
  rw [List.length_append]
  constructor
  · intro hfits
    have hfirst : pos + bs.length ≤ stop := by omega
    have hpos : (pos + bs.length).toNat = pos.toNat + bs.length := by
      have hnonneg := h.nonneg
      omega
    have hmem : pos.toNat ≤ m.length := by
      have hnonneg := h.nonneg
      have hle := h.le
      have hinside := h.inside
      omega
    have hsecond := ((hw' _ _ (h.advance hfirst)).1 (by omega))
    rw [hpos, overwrite_append hmem] at hsecond
    change (w pos m).andThen w' = _
    rw [(hw pos m h).1 hfirst, Written.andThen]
    simp only [Option.bind_eq_bind, Option.bind_some, hsecond]
    congr 3
    omega
  · intro hfull
    by_cases hfirst : pos + bs.length ≤ stop
    · obtain ⟨m', hsecond⟩ := (hw' _ _ (h.advance hfirst)).2 (by omega)
      refine ⟨m', ?_⟩
      change (w pos m).andThen w' = _
      rw [(hw pos m h).1 hfirst]
      exact hsecond
    · obtain ⟨m', hnone⟩ := (hw pos m h).2 (by omega)
      refine ⟨m', ?_⟩
      change (w pos m).andThen w' = _
      rw [hnone]
      rfl

/-- `osc_write_aligned` behind `alreadyWritten` bytes of the same string. -/
theorem emits_oscWriteAligned (stop : Int) (source : Memory) (len alreadyWritten : Nat)
    (hlen : len ≤ source.length) (hlt : len ≤ 9223372036854775808)
    (halready : alreadyWritten ≤ 1) :
    Emits stop (source.take len ++
        List.replicate (roundUp (len + alreadyWritten) - (len + alreadyWritten)) 0)
      fun pos => oscWriteAligned (sizeT (stop - pos)) source len alreadyWritten pos := by
  intro pos m h
  have hle := le_roundUp (len + alreadyWritten)
  have hround := roundUp_lt (len + alreadyWritten)
  have hunrounded : (len + alreadyWritten) % 18446744073709551616 = len + alreadyWritten :=
    Nat.mod_eq_of_lt (by omega)
  have htake : (source.take len).length = len := by
    rw [List.length_take]
    omega
  have hneed : sizeT (roundUp (len + alreadyWritten) - alreadyWritten) =
      roundUp (len + alreadyWritten) - alreadyWritten := by
    rw [sizeT]
    omega
  have hpadding : sizeT (roundUp (len + alreadyWritten) - (len + alreadyWritten : Nat)) =
      roundUp (len + alreadyWritten) - (len + alreadyWritten) := by
    rw [sizeT]
    omega
  have hroom := h.sizeT_eq
  obtain ⟨hnonneg, hstop, hinside, hmem⟩ := h
  simp only [List.length_append, htake, List.length_replicate]
  simp only [oscWriteAligned, hunrounded, round32Size_eq_roundUp (show len + alreadyWritten <
    18446744073709551613 by omega), hneed, hpadding, hroom]
  constructor
  · intro hfits
    have hload : loadBytes source 0 len = some (source.take len) := by
      rw [loadBytes_eq_take (by omega) (by omega)]
      rfl
    have hpos : (pos + len).toNat = pos.toNat + (source.take len).length := by
      rw [htake]
      omega
    have hlen₁ : (overwrite m pos.toNat (source.take len)).length = m.length :=
      length_overwrite (by omega)
    rw [if_neg (by omega), hload, if_pos (show roundUp (len + alreadyWritten) -
      (len + alreadyWritten) ≤ 3 by omega)]
    simp only [Option.bind_eq_bind, Option.bind_some]
    rw [storeBytes_eq, if_pos (Or.inr ⟨hnonneg, by omega⟩), Option.bind_some, storeBytes_eq,
      if_pos (Or.inr ⟨by omega, by rw [hlen₁, List.length_replicate]; omega⟩), hpos,
      overwrite_append (by omega), List.length_replicate]
    simp only [Option.bind_some]
    congr 3
    omega
  · intro hfull
    rw [if_pos (by omega)]
    exact ⟨m, rfl⟩

theorem emits_writeFixed {word : List UInt8} {size : Nat} (h : word.length = size) :
    Emits stop word (writeFixed stop size (some word)) := by
  intro pos m hroom
  have hsize := hroom.sizeT_eq
  obtain ⟨hnonneg, hstop, hinside, hmem⟩ := hroom
  rw [writeFixed, hsize, h]
  constructor
  · intro hfits
    rw [if_neg (by omega), Option.bind_eq_bind, Option.bind_some, storeBytes_eq,
      if_pos (Or.inr ⟨hnonneg, by omega⟩)]
    rfl
  · intro hfull
    rw [if_pos (by omega)]
    exact ⟨m, rfl⟩

/-! ## Arguments -/

variable (P : Platform) (demote : UInt64 → UInt32)

/-- The arguments behind a format begin with those that carry an argument of a message. -/
def Passed : OscArgument → List VaArg → Prop
  | .boolTrue, _ | .boolFalse, _ | .null, _ | .infinity, _ => True
  | .int32 v, args => vaInt args = some v
  | .int64 v, args => vaInt64 args = some v.toUInt64
  | .timetag v, args => vaInt64 args = some v
  | .float bits, args => ∃ d, vaDouble args = some d ∧ demote d = bits
  | .double bits, args => vaDouble args = some bits
  | .string tag s, args => tag ≠ .k ∧
      ∃ object rest, vaPointer args = some object ∧ object.bytes = s.bytes ++ 0 :: rest
  | .blob bytes, args =>
      ∃ val object rest, vaInt args = some val ∧ val.toInt = bytes.length ∧
        vaPointer args.tail = some object ∧ object.bytes = bytes ++ rest

/-- They carry these arguments. -/
def PassedAll : List OscArgument → List VaArg → Prop
  | [], _ => True
  | a :: as, args => Passed demote a args ∧ PassedAll as (args.drop (vaCount a.tag))

variable {P demote}

theorem length_word32 (x : UInt32) : (word32 P x).length = 4 := length_native _ 4 _

theorem word32_eq (x : UInt32) : word32 P x = bigEndian 4 x.toNat := native_oscHton32 P x

theorem length_word64 (x : UInt64) : (word64 P x).length = 8 := length_native _ 8 _

theorem word64_eq (x : UInt64) : word64 P x = bigEndian 8 x.toNat := native_oscHton64 P x

/-- A string of an argument or of the message itself. -/
theorem emits_string {s : List UInt8} (rest : List UInt8) (hlt : s.length < 9223372036854775808) :
    Emits stop (padString s)
      fun pos => oscWriteAligned (sizeT (stop - pos)) (s ++ 0 :: rest) (s.length + 1) 0 pos := by
  have hemits := emits_oscWriteAligned stop (s ++ 0 :: rest) (s.length + 1) 0 (by simp)
    (by omega) (by omega)
  have htake : (s ++ 0 :: rest).take (s.length + 1) = s ++ [0] := by
    rw [List.take_append, List.take_of_length_le (by omega)]
    simp
  rw [htake] at hemits
  have hbytes : padString s = s ++ [0] ++
      List.replicate (roundUp (s.length + 1 + 0) - (s.length + 1 + 0)) 0 := by
    rw [padString, paddedSize, List.append_assoc]
    rfl
  rw [hbytes]
  exact hemits

/-- A blob behind its length. -/
theorem emits_blob {bytes rest : List UInt8} (hlt : bytes.length < 9223372036854775808) :
    Emits stop (padBytes bytes)
      fun pos => oscWriteAligned (sizeT (stop - pos)) (bytes ++ rest) bytes.length 0 pos := by
  have hemits := emits_oscWriteAligned stop (bytes ++ rest) bytes.length 0 (by simp)
    (by omega) (by omega)
  rw [List.take_left] at hemits
  exact hemits

theorem toInt_ofNat_word {n : Nat} {val : Int32} (h : val.toInt = n) :
    val.toUInt32.toNat = n := by
  have hword : val.toInt = wrap32 val.toUInt32.toNat := by
    rw [← toInt_toInt32, Int32.toInt32_toUInt32]
  have hlt := val.toUInt32.toNat_lt
  rw [h] at hword
  unfold wrap32 at hword
  omega

theorem emits_writeArg {a : OscArgument} {args : List VaArg} (h : Passed demote a args) :
    Emits stop a.payload (writeArg P demote stop a.tag args) := by
  cases a with
  | boolTrue => exact emits_nil
  | boolFalse => exact emits_nil
  | null => exact emits_nil
  | infinity => exact emits_nil
  | int32 v =>
      have harg : vaInt args = some v := h
      have hword : writeArg P demote stop (OscArgument.int32 v).tag args =
          writeFixed stop 4 ((vaInt args).map fun val => word32 P val.toUInt32) := rfl
      rw [OscArgument.payload, ← word32_eq (P := P), hword, harg]
      exact emits_writeFixed (length_word32 _)
  | int64 v =>
      have harg : vaInt64 args = some v.toUInt64 := h
      have hword : writeArg P demote stop (OscArgument.int64 v).tag args =
          writeFixed stop 8 ((vaInt64 args).map (word64 P)) := rfl
      rw [OscArgument.payload, ← word64_eq (P := P), hword, harg]
      exact emits_writeFixed (length_word64 _)
  | timetag v =>
      have harg : vaInt64 args = some v := h
      have hword : writeArg P demote stop (OscArgument.timetag v).tag args =
          writeFixed stop 8 ((vaInt64 args).map (word64 P)) := rfl
      rw [OscArgument.payload, ← word64_eq (P := P), hword, harg]
      exact emits_writeFixed (length_word64 _)
  | float bits =>
      obtain ⟨d, harg, rfl⟩ := h
      have hword : writeArg P demote stop (OscArgument.float (demote d)).tag args =
          writeFixed stop 4 ((vaDouble args).map fun bits => word32 P (demote bits)) := rfl
      rw [OscArgument.payload, ← word32_eq (P := P), hword, harg]
      exact emits_writeFixed (length_word32 _)
  | double bits =>
      have harg : vaDouble args = some bits := h
      have hword : writeArg P demote stop (OscArgument.double bits).tag args =
          writeFixed stop 8 ((vaDouble args).map (word64 P)) := rfl
      rw [OscArgument.payload, ← word64_eq (P := P), hword, harg]
      exact emits_writeFixed (length_word64 _)
  | string tag s =>
      obtain ⟨htag, object, rest, harg, hobject⟩ := h
      have hword : writeArg P demote stop (OscArgument.string tag s).tag args =
          fun pos m => (vaPointer args).bind fun stringVal =>
            (strlenFrom stringVal.bytes).bind fun n =>
              oscWriteAligned (sizeT (stop - pos)) stringVal.bytes (n + 1) 0 pos m := by
        cases tag with
        | s => rfl
        | S => rfl
        | k => exact absurd rfl htag
      rw [OscArgument.payload, hword, harg]
      simp only [Option.bind_some, hobject, strlenFrom_append s.noNul]
      exact emits_string _ s.length_lt
  | blob bytes =>
      obtain ⟨val, object, rest, hval, hlen, harg, hobject⟩ := h
      have hlt := val.toInt_lt
      have hword : writeArg P demote stop (OscArgument.blob bytes).tag args = fun pos m =>
          (writeFixed stop 4 ((vaInt args).map fun val => word32 P val.toUInt32) pos m).andThen
            fun pos m => (vaInt args).bind fun realVal => (vaPointer args.tail).bind fun blob =>
              oscWriteAligned (sizeT (stop - pos)) blob.bytes (sizeT realVal.toInt) 0 pos m :=
        rfl
      have hsize : sizeT val.toInt = bytes.length := by
        rw [hlen, sizeT_of_nonneg (by omega) (by omega), Int.toNat_natCast]
      rw [OscArgument.payload, ← toInt_ofNat_word hlen, ← word32_eq (P := P), hword, hval, harg]
      refine (emits_writeFixed (length_word32 _)).andThen ?_
      simp only [Option.bind_some, hobject, hsize]
      exact emits_blob (by omega)

theorem emits_writeArgs (stop : Int) {as : List OscArgument} {args : List VaArg}
    (h : PassedAll demote as args) :
    Emits stop (payloads as) (writeArgs P demote stop (as.map OscArgument.tag) args) := by
  induction as generalizing args with
  | nil => exact emits_nil
  | cons a as ih => exact (emits_writeArg h.1).andThen (ih h.2)

/-! ## Messages -/

/-- The comma before the tags. -/
def writeComma (stop pos : Int) (m : Memory) : Written :=
  if stop - pos < 1 then some (none, m)
  else (storeByte m pos ','.toUInt8).map fun m => (some (pos + 1), m)

theorem emits_writeComma : Emits stop [','.toUInt8] (writeComma stop) := by
  intro pos m hroom
  obtain ⟨hnonneg, hstop, hinside, hmem⟩ := hroom
  rw [writeComma]
  constructor
  · intro hfits
    rw [List.length_singleton] at hfits
    have hset := overwrite_cons (m := m) (i := pos.toNat) ','.toUInt8 [] (by omega)
    rw [overwrite_nil] at hset
    rw [if_neg (by omega), storeByte, if_pos ⟨hnonneg, by omega⟩, hset]
    rfl
  · intro hfull
    rw [List.length_singleton] at hfull
    rw [if_pos (by omega)]
    exact ⟨m, rfl⟩

theorem writeComma_andThen (next : Int → Memory → Written) (pos : Int) (m : Memory) :
    (writeComma stop pos m).andThen next =
      if stop - pos < 1 then some (none, m)
      else (storeByte m pos ','.toUInt8).bind fun m => next (pos + 1) m := by
  rw [writeComma]
  split
  · rfl
  · cases storeByte m pos ','.toUInt8 with
    | none => rfl
    | some m => rfl

/-- The format behind its comma. -/
theorem emits_format (format : CString) :
    Emits stop (format.bytes ++ 0 ::
        List.replicate (paddedSize (format.bytes.length + 1) - (format.bytes.length + 2)) 0)
      fun pos => oscWriteAligned (sizeT (stop - pos)) (format.bytes ++ [0])
        (format.bytes.length + 1) 1 pos := by
  have hlt := format.length_lt
  have hemits := emits_oscWriteAligned stop (format.bytes ++ [0]) (format.bytes.length + 1) 1
    (by simp) (by omega) (by omega)
  rw [List.take_of_length_le (by simp), List.append_assoc] at hemits
  exact hemits

/-- `osc_writev` writes the encoding of the message if it fits, and returns `-1` if it does
not. -/
theorem oscWritev_eq {buffer : Int} {bufferLen : Nat} (address : CString) {format : CString}
    {as : List OscArgument} {args : List VaArg} {m : Memory}
    (hformat : format.bytes = as.map OscArgument.tag) (h : PassedAll demote as args)
    (hroom : Room (buffer + bufferLen) buffer m) :
    ((encodeMessage address as).length ≤ bufferLen →
        oscWritev P demote buffer bufferLen address format args m =
          some (wrap32 (encodeMessage address as).length,
            overwrite m buffer.toNat (encodeMessage address as))) ∧
      (bufferLen < (encodeMessage address as).length →
        ∃ m', oscWritev P demote buffer bufferLen address format args m = some (-1, m')) := by
  have htags : padString (tagString as) = [','.toUInt8] ++ (format.bytes ++ 0 ::
      List.replicate (paddedSize (format.bytes.length + 1) - (format.bytes.length + 2)) 0) := by
    rw [padString, tagString, hformat]
    simp only [List.length_cons, List.length_map, List.cons_append, List.nil_append]
  have hencode : encodeMessage address as = padString address.bytes ++ ([','.toUInt8] ++
      ((format.bytes ++ 0 :: List.replicate (paddedSize (format.bytes.length + 1) -
        (format.bytes.length + 2)) 0) ++ payloads as)) := by
    rw [encodeMessage, htags]
    simp only [List.append_assoc]
    rfl
  have hwrites := (emits_string [] address.length_lt).andThen
    (emits_writeComma.andThen ((emits_format format).andThen
      (hformat ▸ emits_writeArgs (P := P) (buffer + bufferLen) h)))
  obtain ⟨hfits, hfull⟩ := hwrites buffer m hroom
  rw [← hencode] at hfits hfull
  simp only [writeComma_andThen] at hfits hfull
  constructor
  · intro hle
    simp only [oscWritev, Option.bind_eq_bind]
    rw [hfits (by omega), Option.bind_some]
    simp only
    congr 3
    omega
  · intro hlt
    obtain ⟨m', hnone⟩ := hfull (by omega)
    refine ⟨m', ?_⟩
    simp only [oscWritev, Option.bind_eq_bind]
    rw [hnone]
    rfl

/-! ## Arguments that were taken -/

theorem andThen_eq_some {r : Written} {next : Int → Memory → Written} {pos : Int} {m : Memory} :
    r.andThen next = some (some pos, m) ↔
      ∃ pos₁ m₁, r = some (some pos₁, m₁) ∧ next pos₁ m₁ = some (some pos, m) := by
  rw [Written.andThen, Option.bind_eq_bind, Option.bind_eq_some_iff]
  constructor
  · rintro ⟨⟨pos₁, m₁⟩, hr, hnext⟩
    cases pos₁ with
    | none => cases hnext
    | some pos₁ => exact ⟨pos₁, m₁, hr, hnext⟩
  · rintro ⟨pos₁, m₁, hr, hnext⟩
    exact ⟨(some pos₁, m₁), hr, hnext⟩

theorem word_of_writeFixed {size : Nat} {word : Option (List UInt8)} {pos pos' : Int}
    {m m' : Memory} (h : writeFixed stop size word pos m = some (some pos', m')) :
    ∃ bytes, word = some bytes := by
  rw [writeFixed] at h
  split at h
  · cases h
  · rw [Option.bind_eq_bind, Option.bind_eq_some_iff] at h
    obtain ⟨bytes, hword, -⟩ := h
    exact ⟨bytes, hword⟩

theorem le_of_oscWriteAligned {remain len alreadyWritten : Nat} {source : Memory}
    {pos pos' : Int} {m m' : Memory}
    (h : oscWriteAligned remain source len alreadyWritten pos m = some (some pos', m')) :
    len ≤ source.length := by
  rw [oscWriteAligned] at h
  split at h
  · cases h
  · rw [Option.bind_eq_bind, Option.bind_eq_some_iff] at h
    obtain ⟨bytes, hload, -⟩ := h
    rcases Nat.eq_zero_or_pos len with rfl | hpos
    · exact Nat.zero_le _
    · have hle := le_length_of_loadBytes hpos hload
      omega

/-- The string that an object begins with. -/
theorem exists_cString {object : Object} {n : Nat} (h : strlenFrom object.bytes = some n) :
    ∃ s : CString, ∃ rest, object.bytes = s.bytes ++ 0 :: rest := by
  obtain ⟨hnul, hfree⟩ := strlenFrom_eq_some h
  obtain ⟨hlt, hzero⟩ := List.getElem?_eq_some_iff.mp hnul
  have hsize := object.length_lt
  refine ⟨⟨object.bytes.take n, hfree, by rw [List.length_take]; omega⟩,
    object.bytes.drop (n + 1), ?_⟩
  rw [← hzero, ← List.drop_eq_getElem_cons hlt, List.take_append_drop]

/-- A character that does not stop the loop is the tag of an argument that was passed. -/
theorem passed_of_writeArg {t : UInt8} {args : List VaArg} {pos pos' : Int} {m m' : Memory}
    (h : writeArg P demote stop t args pos m = some (some pos', m')) :
    ∃ a : OscArgument, a.tag = t ∧ Passed demote a args := by
  rw [writeArg] at h
  split at h
  · next ht =>
      rcases ht with rfl | rfl | rfl | rfl
      · exact ⟨.boolTrue, rfl, trivial⟩
      · exact ⟨.boolFalse, rfl, trivial⟩
      · exact ⟨.null, rfl, trivial⟩
      · exact ⟨.infinity, rfl, trivial⟩
  split at h
  · next ht =>
      obtain ⟨bytes, hword⟩ := word_of_writeFixed h
      obtain ⟨val, hval, -⟩ := Option.map_eq_some_iff.mp hword
      exact ⟨.int32 val, ht.symm, hval⟩
  split at h
  · next ht =>
      obtain ⟨bytes, hword⟩ := word_of_writeFixed h
      obtain ⟨bits, hbits, -⟩ := Option.map_eq_some_iff.mp hword
      rcases ht with rfl | rfl
      · exact ⟨.int64 bits.toInt64, rfl, by rw [Passed, UInt64.toUInt64_toInt64, hbits]⟩
      · exact ⟨.timetag bits, rfl, hbits⟩
  split at h
  · next ht =>
      obtain ⟨bytes, hword⟩ := word_of_writeFixed h
      obtain ⟨bits, hbits, -⟩ := Option.map_eq_some_iff.mp hword
      exact ⟨.float (demote bits), ht.symm, bits, hbits, rfl⟩
  split at h
  · next ht =>
      obtain ⟨bytes, hword⟩ := word_of_writeFixed h
      obtain ⟨bits, hbits, -⟩ := Option.map_eq_some_iff.mp hword
      exact ⟨.double bits, ht.symm, hbits⟩
  split at h
  · next ht =>
      simp only [Option.bind_eq_bind, Option.bind_eq_some_iff] at h
      obtain ⟨object, hobject, n, hn, -⟩ := h
      obtain ⟨s, rest, hbytes⟩ := exists_cString hn
      rcases ht with rfl | rfl
      · exact ⟨.string .s s, rfl, by decide, object, rest, hobject, hbytes⟩
      · exact ⟨.string .S s, rfl, by decide, object, rest, hobject, hbytes⟩
  split at h
  · next ht =>
      obtain ⟨pos₁, m₁, -, h⟩ := andThen_eq_some.mp h
      simp only [Option.bind_eq_bind, Option.bind_eq_some_iff] at h
      obtain ⟨val, hval, object, hobject, haligned⟩ := h
      have hle := le_of_oscWriteAligned haligned
      have hsize := object.length_lt
      have hlower := val.le_toInt
      have hupper := val.toInt_lt
      -- a negative length is more than any object has
      have hlen : val.toInt = (object.bytes.take (sizeT val.toInt)).length := by
        rw [List.length_take, Nat.min_eq_left hle]
        unfold sizeT at hle ⊢
        omega
      exact ⟨.blob (object.bytes.take (sizeT val.toInt)), ht.symm, val, object,
        object.bytes.drop (sizeT val.toInt), hval, hlen, hobject,
        (List.take_append_drop _ _).symm⟩
  · cases h

theorem passedAll_of_writeArgs {format : List UInt8} {args : List VaArg} {pos pos' : Int}
    {m m' : Memory} (h : writeArgs P demote stop format args pos m = some (some pos', m')) :
    ∃ as, format = as.map OscArgument.tag ∧ PassedAll demote as args := by
  induction format generalizing args pos m with
  | nil => exact ⟨[], rfl, trivial⟩
  | cons t format ih =>
      obtain ⟨pos₁, m₁, hfirst, hrest⟩ := andThen_eq_some.mp h
      obtain ⟨a, rfl, ha⟩ := passed_of_writeArg hfirst
      obtain ⟨as, rfl, has⟩ := ih hrest
      exact ⟨a :: as, rfl, ha, has⟩

/-- A call that does not return `-1` was passed the arguments of a message. -/
theorem passedAll_of_oscWritev {buffer n : Int} {bufferLen : Nat} {address format : CString}
    {args : List VaArg} {m m' : Memory}
    (h : oscWritev P demote buffer bufferLen address format args m = some (n, m'))
    (hn : 0 ≤ n) : ∃ as, format.bytes = as.map OscArgument.tag ∧ PassedAll demote as args := by
  simp only [oscWritev, Option.bind_eq_bind, Option.bind_eq_some_iff] at h
  obtain ⟨⟨pos, m₁⟩, hwritten, h⟩ := h
  cases pos with
  | none =>
      cases h
      exact absurd hn (by decide)
  | some pos =>
      obtain ⟨pos₂, m₂, -, hcomma⟩ := andThen_eq_some.mp hwritten
      split at hcomma
      · cases hcomma
      · obtain ⟨m₃, -, hformat⟩ := Option.bind_eq_some_iff.mp hcomma
        obtain ⟨pos₄, m₄, -, hargs⟩ := andThen_eq_some.mp hformat
        exact passedAll_of_writeArgs hargs

end LittleOscar.Ideas
