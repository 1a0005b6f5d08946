import LittleOscar.Ideas.Reader.Walk
import LittleOscar.Transition.Run

/-!
# The messages of a packet

`osc_reader_start_msg` trusts the length fields that it finds. `osc_reader_init` is meant
to check them, but after the first message it looks four bytes before the field, and in a
bundle of twenty bytes it looks at none. `startMsgs_safe` tells which of the packets that
it accepts its check protects: those of one message, and those that are no bundle.
-/

namespace LittleOscar.Ideas

open Machine Transition

variable (P : Platform) (m : Memory)

/-- The results of `n` calls of `osc_reader_start_msg`, with the reader after each. -/
def startMsgs : Nat → OscReader → Option (List (Int × OscReader))
  | 0, _ => some []
  | n + 1, reader => do
      let (ret, reader) ← oscReaderStartMsg P m reader
      let calls ← startMsgs n reader
      some ((ret, reader) :: calls)

/-- The messages that the calls exposed with `OSC_OK`. -/
def exposed (calls : List (Int × OscReader)) : List (Int × Int) :=
  calls.filterMap fun (ret, reader) =>
    if ret = oscOk then do
      let msgPtr ← reader.msgPtr
      let msgEnd ← reader.msgEnd
      some (msgPtr, msgEnd)
    else none

/-- What the check of a packet of `len` bytes should guarantee for the calls on it. -/
structure SafeCalls (len : Nat) (calls : List (Int × OscReader)) : Prop where
  inside : ∀ r ∈ exposed calls, 0 ≤ r.1 ∧ r.1 ≤ r.2 ∧ r.2 ≤ len
  ordered : (exposed calls).Pairwise fun r s => r.2 ≤ s.1
  ends : len / 4 + 1 ≤ calls.length → ∃ c ∈ calls, c.1 ≠ oscOk

/-- One call, as a step without a label. -/
def startStep (reader : OscReader) (_ : Unit) : Option OscReader :=
  (oscReaderStartMsg P m reader).map Prod.snd

/-- The length field that the next call reads. -/
def lengthField (reader : OscReader) : Option Int :=
  if reader.isBundle ≠ 0 then
    match reader.msgPtr, reader.msgEnd with
    | none, none => some (reader.buffer + 16)
    | some _, some msgEnd => if msgEnd = reader.bufferEnd then none else some msgEnd
    | _, _ => none
  else none

/-- It lies in the packet, and in the byte order of the host it is not negative and not
more than what follows it. -/
def FieldInside (len : Nat) (reader : OscReader) : Prop :=
  ∀ p, lengthField reader = some p →
    0 ≤ p ∧ p + 4 ≤ len ∧ ∀ v, hostLength P m (p + 4) = some v → 0 ≤ v ∧ p + 4 + v ≤ len

/-- A reader on a packet of `len` bytes, of which it has not exposed any from `low` on. -/
structure Stands (len : Nat) (reader : OscReader) (low : Int) : Prop where
  buffer : reader.buffer = 0
  bufferEnd : reader.bufferEnd = len
  nonneg : 0 ≤ low
  le : low ≤ len
  place : (reader.msgPtr = none ∧ reader.msgEnd = none ∧ low = 0) ∨
    (∃ p, reader.msgPtr = some p ∧ reader.msgEnd = some low) ∨
    ∃ e, reader.msgPtr = none ∧ reader.msgEnd = some e

variable {P m} {len : Nat} {reader : OscReader} {low : Int}

theorem exists_hostLength {p : Int} (hp : 0 ≤ p) (hle : p + 4 ≤ m.length) :
    ∃ v, hostLength P m (p + 4) = some v := by
  have hload := loadBytes_eq_take (n := 4) hp hle
  rw [hostLength, loadNative, show p + 4 - 4 = p by omega, hload]
  exact ⟨_, rfl⟩

/-- Where the next message lies. -/
theorem Stands.nextRange (h : Stands len reader low) (hm : len ≤ m.length)
    (hfield : FieldInside P m len reader) :
    ∃ reader', nextRange P m reader = some reader' ∧
      ((reader'.msgPtr = none ∧ Stands len reader' low) ∨
        ∃ p e, reader'.msgPtr = some p ∧ reader'.msgEnd = some e ∧ low ≤ p ∧ p ≤ e ∧
          Stands len reader' e) := by
  obtain ⟨hbuffer, hend, hnonneg, hle, hplace⟩ := h
  rw [Ideas.nextRange]
  by_cases hbundle : reader.isBundle ≠ 0
  · rw [if_pos hbundle]
    rcases hplace with ⟨hptr, hmsgEnd, hlow⟩ | ⟨p, hptr, hmsgEnd⟩ | ⟨e, hptr, hmsgEnd⟩
    · have hfirst : lengthField reader = some 16 := by
        rw [lengthField, if_pos hbundle, hptr, hmsgEnd, hbuffer]
        rfl
      obtain ⟨-, hinside, hlen⟩ := hfield 16 hfirst
      obtain ⟨v, hv⟩ := exists_hostLength (P := P) (m := m) (p := 16) (by decide) (by omega)
      obtain ⟨hv₀, hv₁⟩ := hlen v hv
      simp only [hptr, hmsgEnd, hbuffer]
      rw [show (0 : Int) + 20 = 16 + 4 by decide, hv]
      refine ⟨_, rfl, Or.inr ⟨16 + 4, 16 + 4 + v, rfl, rfl, by omega, by omega, ?_⟩⟩
      exact ⟨rfl, hend, by omega, hv₁, Or.inr (Or.inl ⟨_, rfl, rfl⟩)⟩
    · by_cases hlast : low = reader.bufferEnd
      · simp only [hptr, hmsgEnd]
        rw [if_pos hlast]
        refine ⟨_, rfl, Or.inl ⟨rfl, ?_⟩⟩
        exact ⟨hbuffer, hend, hnonneg, hle, Or.inr (Or.inr ⟨low, rfl, rfl⟩)⟩
      · have hnext : lengthField reader = some low := by
          rw [lengthField, if_pos hbundle, hptr, hmsgEnd]
          exact if_neg hlast
        obtain ⟨-, hinside, hlen⟩ := hfield low hnext
        obtain ⟨v, hv⟩ := exists_hostLength (P := P) (m := m) hnonneg (by omega)
        obtain ⟨hv₀, hv₁⟩ := hlen v hv
        simp only [hptr, hmsgEnd]
        rw [if_neg hlast, hv]
        refine ⟨_, rfl, Or.inr ⟨low + 4, low + 4 + v, rfl, rfl, by omega, by omega, ?_⟩⟩
        exact ⟨hbuffer, hend, by omega, hv₁, Or.inr (Or.inl ⟨_, rfl, rfl⟩)⟩
    · simp only [hptr, hmsgEnd]
      refine ⟨_, rfl, Or.inl ⟨hptr, ?_⟩⟩
      exact ⟨hbuffer, hend, hnonneg, hle, Or.inr (Or.inr ⟨e, hptr, hmsgEnd⟩)⟩
  · rw [if_neg hbundle]
    rcases hplace with ⟨hptr, hmsgEnd, hlow⟩ | ⟨p, hptr, hmsgEnd⟩ | ⟨e, hptr, hmsgEnd⟩
    · simp only [hptr, hmsgEnd, hbuffer, hend]
      refine ⟨_, rfl, Or.inr ⟨0, len, rfl, rfl, by omega, by omega, ?_⟩⟩
      exact ⟨rfl, rfl, by omega, by omega, Or.inr (Or.inl ⟨_, rfl, rfl⟩)⟩
    · simp only [hptr, hmsgEnd]
      refine ⟨_, rfl, Or.inl ⟨rfl, ?_⟩⟩
      exact ⟨hbuffer, hend, hnonneg, hle, Or.inr (Or.inr ⟨low, rfl, rfl⟩)⟩
    · simp only [hptr, hmsgEnd]
      refine ⟨_, rfl, Or.inl ⟨rfl, ?_⟩⟩
      exact ⟨hbuffer, hend, hnonneg, hle, Or.inr (Or.inr ⟨e, rfl, rfl⟩)⟩

/-- A message inside the packet is started without leaving it, as the packet is followed by
a NUL, and one that is started has at least four bytes. -/
theorem startParts_of_inside (reader : OscReader) {msgPtr msgEnd : Int}
    (hm : m.length = len + 1) (hnul : m[len]? = some 0) (hlt : len < 9223372036854775808)
    (hptr : 0 ≤ msgPtr) (hle : msgPtr ≤ msgEnd) (hend : msgEnd ≤ len) :
    ∃ ret typePtr argPtr,
      startParts m msgPtr msgEnd reader = some (ret, { reader with typePtr, argPtr }) ∧
        (ret = oscOk ∧ msgPtr + 4 ≤ msgEnd ∨ ret = oscError) := by
  rw [startParts]
  split
  · exact ⟨oscError, reader.typePtr, reader.argPtr, rfl, Or.inr rfl⟩
  obtain ⟨n, hn, hnle⟩ := exists_strlen hptr (show msgPtr ≤ (len : Nat) by omega) hnul
  have hround : round32Size (n + 1) = paddedSize n := round32Size_eq_roundUp (by omega)
  have hfour := four_le_paddedSize n
  rw [hn]
  simp only [Option.bind_eq_bind, Option.bind_some, hround]
  split
  · exact ⟨oscError, reader.typePtr, reader.argPtr, rfl, Or.inr rfl⟩
  split
  · exact ⟨oscOk, none, none, rfl, Or.inl ⟨rfl, by omega⟩⟩
  obtain ⟨b, hb⟩ := exists_loadByte (m := m) (p := msgPtr + paddedSize n) (by omega) (by omega)
  rw [hb, Option.bind_some]
  split
  · obtain ⟨k, hk, hkle⟩ := exists_strlen (p := msgPtr + paddedSize n) (by omega)
      (show msgPtr + paddedSize n ≤ (len : Nat) by omega) hnul
    rw [hk, Option.bind_some]
    split
    · exact ⟨oscError, reader.typePtr, reader.argPtr, rfl, Or.inr rfl⟩
    · exact ⟨oscOk, _, _, rfl, Or.inl ⟨rfl, by omega⟩⟩
  · exact ⟨oscOk, none, _, rfl, Or.inl ⟨rfl, by omega⟩⟩

theorem Stands.withParts (h : Stands len reader low) (typePtr argPtr : Option Int) :
    Stands len { reader with typePtr, argPtr } low :=
  ⟨h.buffer, h.bufferEnd, h.nonneg, h.le, h.place⟩

/-- One call ends the walk, or finds a message behind the ones before. -/
theorem Stands.startMsg (h : Stands len reader low) (hm : m.length = len + 1)
    (hnul : m[len]? = some 0) (hlt : len < 9223372036854775808)
    (hfield : FieldInside P m len reader) :
    ∃ ret reader', oscReaderStartMsg P m reader = some (ret, reader') ∧
      ((ret = oscEnd ∧ Stands len reader' low) ∨
        ∃ p e, reader'.msgPtr = some p ∧ reader'.msgEnd = some e ∧ low ≤ p ∧ p ≤ e ∧
          (ret = oscOk ∧ p + 4 ≤ e ∨ ret = oscError) ∧ Stands len reader' e) := by
  obtain ⟨reader₁, hnext, hcases⟩ := h.nextRange (by omega) hfield
  rw [oscReaderStartMsg, hnext]
  simp only [Option.bind_eq_bind, Option.bind_some]
  rcases hcases with ⟨hptr, hstands⟩ | ⟨p, e, hptr, hmsgEnd, hlow, hle, hstands⟩
  · rw [hptr]
    exact ⟨oscEnd, reader₁, rfl, Or.inl ⟨rfl, hstands⟩⟩
  · have hnonneg := h.nonneg
    obtain ⟨ret, typePtr, argPtr, hparts, hret⟩ := startParts_of_inside reader₁ hm
      hnul hlt (by omega) hle hstands.le
    rw [hptr, hmsgEnd]
    simp only [Option.bind_some, hparts]
    exact ⟨ret, _, rfl, Or.inr ⟨p, e, hptr, hmsgEnd, hlow, hle, hret,
      hstands.withParts typePtr argPtr⟩⟩

/-- The messages that any number of calls expose lie behind `low`, one behind the other,
and each has at least four bytes. -/
theorem Stands.startMsgs (h : Stands len reader low) (hm : m.length = len + 1)
    (hnul : m[len]? = some 0) (hlt : len < 9223372036854775808) (n : Nat)
    (hfields : Along (startStep P m) (fun reader _ => FieldInside P m len reader) reader
      (List.replicate n ())) :
    ∃ calls, startMsgs P m n reader = some calls ∧ calls.length = n ∧
      (∀ r ∈ exposed calls, low ≤ r.1 ∧ r.1 ≤ r.2 ∧ r.2 ≤ len) ∧
      (exposed calls).Pairwise (fun r s => r.2 ≤ s.1) ∧
      ((∀ c ∈ calls, c.1 = oscOk) → low + 4 * n ≤ len) := by
  induction n generalizing reader low with
  | zero => exact ⟨[], rfl, rfl, by simp [exposed], by simp [exposed], fun _ => by
      have hle := h.le
      omega⟩
  | succ n ih =>
      obtain ⟨ret, reader', hcall, hcases⟩ := h.startMsg hm hnul hlt hfields.1
      have hrest := hfields.2 reader' (by rw [startStep, hcall]; rfl)
      have hcons (calls) (hcalls : Ideas.startMsgs P m n reader' = some calls) :
          Ideas.startMsgs P m (n + 1) reader = some ((ret, reader') :: calls) := by
        rw [Ideas.startMsgs, hcall]
        simp only [Option.bind_eq_bind, Option.bind_some, hcalls]
      rcases hcases with ⟨hret, hstands⟩ | ⟨p, e, hptr, hmsgEnd, hlow, hle, hret, hstands⟩
      · obtain ⟨calls, hcalls, hlen, hinside, hordered, -⟩ := ih hstands hrest
        have hnone : exposed ((ret, reader') :: calls) = exposed calls := by
          rw [hret]
          rfl
        refine ⟨_, hcons calls hcalls, by simp [hlen], ?_, ?_, ?_⟩
        · rwa [hnone]
        · rwa [hnone]
        · intro hall
          exact absurd (hret.symm.trans (hall _ List.mem_cons_self)) (by decide)
      · obtain ⟨calls, hcalls, hlen, hinside, hordered, hcount⟩ := ih hstands hrest
        have hend := hstands.le
        refine ⟨_, hcons calls hcalls, by simp [hlen], ?_⟩
        rcases hret with ⟨hret, hfour⟩ | hret
        · have hsome : exposed ((ret, reader') :: calls) = (p, e) :: exposed calls := by
            simp [exposed, hret, hptr, hmsgEnd]
          rw [hsome, List.forall_mem_cons, List.pairwise_cons]
          refine ⟨⟨⟨hlow, hle, hend⟩, ?_⟩, ⟨fun r hr => (hinside r hr).1, hordered⟩, ?_⟩
          · intro r hr
            obtain ⟨h₁, h₂, h₃⟩ := hinside r hr
            exact ⟨by omega, h₂, h₃⟩
          · intro hall
            have hrest := hcount fun c hc => hall c (List.mem_cons_of_mem _ hc)
            omega
        · have hnone : exposed ((ret, reader') :: calls) = exposed calls := by
            rw [hret]
            rfl
          rw [hnone]
          refine ⟨?_, hordered, ?_⟩
          · intro r hr
            obtain ⟨h₁, h₂, h₃⟩ := hinside r hr
            exact ⟨by omega, h₂, h₃⟩
          · intro hall
            exact absurd (hret.symm.trans (hall _ List.mem_cons_self)) oscError_ne_oscOk

/-- What a packet is like after a successful `osc_reader_init`. -/
theorem stands_of_init {fuel len : Nat} {reader₀ : OscReader} {m₀ : Memory}
    (h : oscReaderInit P fuel reader₀ 0 len m₀ = some (oscOk, reader, m)) :
    Stands len reader 0 ∧ m.length = m₀.length ∧ m[len]? = m₀[len]? := by
  rcases init_cases h with ⟨-, rfl, rfl⟩ | ⟨-, rfl, hwalk⟩
  · exact ⟨⟨rfl, rfl, le_refl 0, by omega, Or.inl ⟨rfl, rfl, rfl⟩⟩, rfl, rfl⟩
  · obtain ⟨hlength, hbytes⟩ := initWalk_frame hwalk
    exact ⟨⟨rfl, rfl, le_refl 0, by omega, Or.inl ⟨rfl, rfl, rfl⟩⟩, hlength,
      hbytes len (le_refl _)⟩

/-- The calls on a packet of `len` bytes and its NUL return, having read no other byte, and
are safe. -/
def Protected (P : Platform) (len n : Nat) (reader : OscReader) (m : Memory) : Prop :=
  m.length = len + 1 ∧
    ∃ calls, startMsgs P m n reader = some calls ∧ calls.length = n ∧ SafeCalls len calls

/-- The calls are safe if all length fields that they read are inside the packet. -/
theorem protected_of_along {packet : Object} {fuel n : Nat} {reader₀ : OscReader}
    (hinit : oscReaderInit P fuel reader₀ 0 packet.bytes.length (packet.bytes ++ [0]) =
      some (oscOk, reader, m))
    (hfields : Along (startStep P m) (fun reader _ => FieldInside P m packet.bytes.length reader)
      reader (List.replicate n ())) :
    Protected P packet.bytes.length n reader m := by
  obtain ⟨hstands, hlength, hlast⟩ := stands_of_init hinit
  rw [List.length_append, List.length_singleton] at hlength
  rw [List.getElem?_append_right (le_refl _), Nat.sub_self] at hlast
  obtain ⟨calls, hcalls, hlen, hinside, hordered, hcount⟩ :=
    hstands.startMsgs hlength hlast packet.length_lt n hfields
  refine ⟨hlength, calls, hcalls, hlen, hinside, hordered, ?_⟩
  intro hle
  by_contra hnone
  have hall : ∀ c ∈ calls, c.1 = oscOk := by
    intro c hc
    by_contra hne
    exact hnone ⟨c, hc, hne⟩
  have hbound := hcount hall
  omega

/-! ## A bundle of one message -/

theorem hostLength_native {p : Int} {len : Nat} (hat : At m (p - 4) (native P.order 4 len))
    (hlt : len < 2147483648) : hostLength P m p = some (len : Int) := by
  have hload := loadNative_at (P := P) hat
  have hnat := toNat_ofNat_four (x := len) (by omega)
  rw [length_native] at hload
  rw [hostLength, hload, Option.map_some, ofNative_native P.order (by omega), toInt_toInt32,
    hnat, wrap32_of_range (by omega) (by omega)]

/-- What the second half leaves of the reader. -/
theorem startParts_frame {msgPtr msgEnd ret : Int} {reader' : OscReader}
    (h : startParts m msgPtr msgEnd reader = some (ret, reader')) :
    ret ≠ oscEnd ∧ ∃ typePtr argPtr, reader' = { reader with typePtr, argPtr } := by
  have hok : oscOk ≠ oscEnd := by decide
  have hsame {reader' : OscReader} (h : some (oscError, reader) = some (ret, reader')) :
      ret ≠ oscEnd ∧ ∃ typePtr argPtr, reader' = { reader with typePtr, argPtr } := by
    cases h
    exact ⟨by decide, reader.typePtr, reader.argPtr, rfl⟩
  rw [startParts] at h
  split at h
  · exact hsame h
  simp only [Option.bind_eq_bind, Option.bind_eq_some_iff] at h
  obtain ⟨n, -, h⟩ := h
  split at h
  · exact hsame h
  split at h
  · cases h
    exact ⟨hok, none, none, rfl⟩
  rw [Option.bind_eq_some_iff] at h
  obtain ⟨b, -, h⟩ := h
  split at h
  · rw [Option.bind_eq_some_iff] at h
    obtain ⟨k, -, h⟩ := h
    split at h
    · exact hsame h
    · cases h
      exact ⟨hok, _, _, rfl⟩
  · cases h
    exact ⟨hok, none, _, rfl⟩

/-- Behind a message that ends with the packet there is no other. -/
theorem startMsg_last (h : reader.msgEnd = some reader.bufferEnd) :
    oscReaderStartMsg P m reader = some (oscEnd, { reader with msgPtr := none }) := by
  have hnext : nextRange P m reader = some { reader with msgPtr := none } := by
    obtain ⟨buffer, bufferEnd, isBundle, msgPtr, msgEnd, typePtr, argPtr⟩ := reader
    obtain rfl : msgEnd = some bufferEnd := h
    rw [nextRange]
    split
    · cases msgPtr with
      | none => rfl
      | some p => exact if_pos rfl
    · cases msgPtr with
      | none => rfl
      | some p => rfl
  rw [oscReaderStartMsg, hnext]
  rfl

theorem lengthField_of_msgEnd (h : reader.msgEnd = some reader.bufferEnd) :
    lengthField reader = none := by
  rw [lengthField, h]
  split
  · cases reader.msgPtr with
    | none => rfl
    | some p => exact if_pos rfl
  · rfl

/-- The first call, if the first length spans the rest of the bundle. -/
theorem nextRange_whole {len : Nat} (hlen : hostLength P m 20 = some (len : Int)) :
    nextRange P m (bundleReader (20 + len)) = some { bundleReader (20 + len) with
      msgPtr := some 20
      msgEnd := some ((20 + len : Nat) : Int) } := by
  have hbundle : (bundleReader (20 + len)).isBundle ≠ 0 := Int.one_ne_zero
  rw [nextRange, if_pos hbundle]
  simp only [bundleReader, Int.zero_add, hlen]
  rfl

/-- Such a bundle meets the condition. -/
theorem along_fieldInside_whole {len : Nat} (hlen : hostLength P m 20 = some (len : Int))
    (n : Nat) :
    Along (startStep P m) (fun reader _ => FieldInside P m (20 + len) reader)
      (bundleReader (20 + len)) (List.replicate n ()) := by
  cases n with
  | zero => exact along_nil _
  | succ n =>
      refine ⟨?_, ?_⟩
      · intro p hp
        obtain rfl : 16 = p := Option.some.inj hp
        refine ⟨by decide, by omega, ?_⟩
        intro v hv
        obtain rfl : v = len := Option.some.inj (hv.symm.trans hlen)
        omega
      · intro reader hreader
        obtain ⟨⟨ret, reader⟩, hcall, rfl⟩ := Option.map_eq_some_iff.mp hreader
        have hend : reader.msgEnd = some reader.bufferEnd := by
          rw [oscReaderStartMsg, nextRange_whole hlen, Option.bind_eq_bind,
            Option.bind_some] at hcall
          obtain ⟨-, typePtr, argPtr, rfl⟩ := startParts_frame hcall
          rfl
        refine along_of_invariant (G := fun _ _ => True)
          (fun reader => reader.msgEnd = some reader.bufferEnd) ?_ ?_ hend
          (along_of_forall (fun _ _ => trivial) _ _)
        · intro reader _ hreader _ p hp
          cases hp.symm.trans (lengthField_of_msgEnd hreader)
        · intro reader _ reader' hreader _ hstep
          obtain ⟨⟨ret, reader'⟩, hcall, rfl⟩ := Option.map_eq_some_iff.mp hstep
          cases hcall.symm.trans (startMsg_last hreader)
          exact hreader

/-- A call behind a message ends the bundle exactly if the message ended it. -/
theorem startMsg_behind {reader reader' : OscReader} {ret p e : Int}
    (hbundle : reader.isBundle ≠ 0) (hptr : reader.msgPtr = some p)
    (hmsgEnd : reader.msgEnd = some e)
    (hcall : oscReaderStartMsg P m reader = some (ret, reader')) :
    (e = reader.bufferEnd ∧ ret = oscEnd) ∨
      (e ≠ reader.bufferEnd ∧ ret ≠ oscEnd ∧ e + 4 ≤ m.length) := by
  rw [oscReaderStartMsg, nextRange, if_pos hbundle] at hcall
  simp only [hptr, hmsgEnd] at hcall
  by_cases hlast : e = reader.bufferEnd
  · rw [if_pos hlast] at hcall
    cases hcall
    exact Or.inl ⟨hlast, rfl⟩
  · rw [if_neg hlast] at hcall
    simp only [Option.bind_eq_bind, Option.bind_eq_some_iff] at hcall
    obtain ⟨reader₁, ⟨size, hsize, hreader₁⟩, hcall⟩ := hcall
    cases hreader₁
    obtain ⟨raw, hraw, -⟩ := Option.map_eq_some_iff.mp hsize
    obtain ⟨bytes, hbytes, -⟩ := Option.map_eq_some_iff.mp hraw
    have hle := le_length_of_loadBytes (by decide) hbytes
    exact Or.inr ⟨hlast, (startParts_frame hcall).1, by omega⟩

/-! ## The packets that the check protects -/

theorem startMsg_single {reader' : OscReader} {ret : Int} (h : reader.isBundle = 0)
    (hcall : oscReaderStartMsg P m reader = some (ret, reader')) : reader'.isBundle = 0 := by
  obtain ⟨reader₁, hnext, hframe⟩ : ∃ reader₁, nextRange P m reader = some reader₁ ∧
      reader₁.isBundle = 0 := by
    rw [nextRange, if_neg (not_not_intro h)]
    split
    · exact ⟨_, rfl, h⟩
    · exact ⟨_, rfl, h⟩
  rw [oscReaderStartMsg, hnext, Option.bind_eq_bind, Option.bind_some] at hcall
  cases hptr : reader₁.msgPtr with
  | none =>
      rw [hptr] at hcall
      cases hcall
      exact hframe
  | some msgPtr =>
      simp only [hptr, Option.bind_eq_bind, Option.bind_eq_some_iff] at hcall
      obtain ⟨msgEnd, -, hparts⟩ := hcall
      obtain ⟨-, typePtr, argPtr, rfl⟩ := startParts_frame hparts
      exact hframe

/-- A packet that is no bundle has no length fields. -/
theorem along_fieldInside_single (hsingle : reader.isBundle = 0) (len n : Nat) :
    Along (startStep P m) (fun reader _ => FieldInside P m len reader) reader
      (List.replicate n ()) := by
  refine along_of_invariant (G := fun _ _ => True) (fun reader => reader.isBundle = 0) ?_ ?_
    hsingle (along_of_forall (fun _ _ => trivial) _ _)
  · intro reader _ hreader _ p hp
    rw [lengthField, if_neg (not_not_intro hreader)] at hp
    cases hp
  · intro reader _ reader' hreader _ hstep
    obtain ⟨⟨ret, reader'⟩, hcall, rfl⟩ := Option.map_eq_some_iff.mp hstep
    exact startMsg_single hreader hcall

/-- The first length of a bundle, in network order. -/
def firstLength (packet : Memory) : Int := int32Field (packet.drop 16)

/-- The loop of `osc_reader_init` looks at one length if there are any: the first one leads
to the end of the packet, or behind it. -/
def LooksAtOne (packet : Memory) : Prop :=
  IsBundle packet → 20 < packet.length ∧ (packet.length : Int) ≤ 20 + firstLength packet

instance (packet : Memory) : Decidable (LooksAtOne packet) := inferInstanceAs (Decidable (_ → _))

theorem lengthAt_first (P : Platform) (packet : Memory) :
    lengthAt P packet 4 20 = firstLength packet := by
  rw [lengthAt, drop_native_four]
  rfl

/-- If the loop that looks at one length only ends where the packet does, the length spans
the rest of the packet. -/
theorem exists_hostLength_whole {packet : Memory} {fuel : Nat} (hlt : 20 < packet.length)
    (hle : (packet.length : Int) ≤ 20 + firstLength packet)
    (hwalk : initWalk P packet.length fuel (packet ++ [0]) 20 = some (m, (packet.length : Int))) :
    ∃ len : Nat, packet.length = 20 + len ∧ hostLength P m 20 = some (len : Int) := by
  obtain ⟨len, hlen⟩ := Int.eq_ofNat_of_zero_le (show 0 ≤ firstLength packet by omega)
  have hmax := wrap32_lt (ofBigEndian ((packet.drop 16).take 4))
  rw [firstLength, int32Field] at hlen
  cases fuel with
  | zero => cases hwalk
  | succ fuel =>
      have hround := (Tracks.first P packet).initWalk_succ (by decide) hlt
        ((lengthAt_first P packet).trans hlen) fuel
      have hrest := hround.symm.trans hwalk
      rw [firstLength, int32Field, hlen] at hle
      obtain ⟨rfl, hend⟩ := initWalk_of_le hrest (by omega)
      refine ⟨len, by omega, hostLength_native ?_ (by omega)⟩
      exact at_overwrite (i := 16) (by rw [length_native, List.length_append]; omega)

/-- On a bundle of twenty bytes, the calls trust the last four as they are. -/
theorem protected_headerOnly_iff {packet : Object} {fuel : Nat} {reader₀ : OscReader} {v : Int}
    (hinit : oscReaderInit P fuel reader₀ 0 packet.bytes.length (packet.bytes ++ [0]) =
      some (oscOk, bundleReader packet.bytes.length, m))
    (hlen : packet.bytes.length = 20) (hv : hostLength P m 20 = some v) (hnonneg : 0 ≤ v) :
    (∀ n, Protected P packet.bytes.length n (bundleReader packet.bytes.length) m) ↔ v = 0 := by
  constructor
  · intro hprotected
    obtain ⟨hlength, calls, hcalls, -, -⟩ := hprotected 2
    simp only [startMsgs, Option.bind_eq_bind, Option.bind_eq_some_iff] at hcalls
    obtain ⟨⟨ret, reader⟩, hcall, calls', ⟨⟨ret', reader'⟩, hnext, -⟩, -⟩ := hcalls
    simp only [oscReaderStartMsg, nextRange, bundleReader, Int.zero_add, hv,
      Option.bind_eq_bind, Option.bind_some] at hcall
    obtain ⟨-, typePtr, argPtr, rfl⟩ := startParts_frame hcall
    rcases startMsg_behind Int.one_ne_zero rfl rfl hnext with ⟨hlast, -⟩ | ⟨-, -, hinside⟩
    · simp only at hlast
      omega
    · omega
  · rintro rfl n
    have hfields := @along_fieldInside_whole P m 0 hv n
    rw [← hlen] at hfields
    exact protected_of_along hinit hfields

/-- The calls on a packet that `osc_reader_init` accepts are safe if its loop looks at one
length, or there are none. In a bundle of twenty bytes it looks at none; if the last four of
them are no negative number on the host, the calls are safe only if they are zero. In any
other bundle it goes on to the four bytes in front of the second length. -/
theorem startMsgs_safe (P : Platform) (packet : Object) (fuel : Nat) (reader₀ reader : OscReader)
    (m : Memory)
    (hinit : oscReaderInit P fuel reader₀ 0 packet.bytes.length (packet.bytes ++ [0]) =
      some (oscOk, reader, m)) :
    (LooksAtOne packet.bytes → ∀ n, Protected P packet.bytes.length n reader m) ∧
    (¬ LooksAtOne packet.bytes →
      (packet.bytes.length = 20 ∧ ∀ v, hostLength P (packet.bytes ++ [0]) 20 = some v → 0 ≤ v →
        ((∀ n, Protected P packet.bytes.length n reader m) ↔ v = 0)) ∨
      20 + firstLength packet.bytes < packet.bytes.length) := by
  constructor
  · intro hone n
    refine protected_of_along hinit ?_
    rcases init_cases hinit with ⟨-, rfl, -⟩ | ⟨hbundle, rfl, hwalk⟩
    · exact along_fieldInside_single rfl _ _
    · obtain ⟨hlt, hle⟩ := hone hbundle
      obtain ⟨len, hlen, hhost⟩ := exists_hostLength_whole hlt hle hwalk
      rw [hlen]
      exact along_fieldInside_whole hhost n
  · intro hmany
    rcases init_cases hinit with ⟨hsingle, -, -⟩ | ⟨hbundle, rfl, hwalk⟩
    · exact absurd (fun hbundle => by cases hsingle.symm.trans hbundle) hmany
    · by_cases hlt : 20 < packet.bytes.length
      · refine Or.inr ?_
        by_contra hle
        exact hmany fun _ => ⟨hlt, not_lt.mp hle⟩
      · obtain ⟨rfl, hend⟩ := initWalk_of_le hwalk (by omega)
        have hlen : packet.bytes.length = 20 := by omega
        exact Or.inl ⟨hlen, fun v hv hnonneg => protected_headerOnly_iff hinit hlen hv hnonneg⟩

/-- A bundle of the message `/a` alone. -/
def soloBundle : Object := ⟨encodeBundle 1 [encodeMessage slashA []], by decide⟩

theorem startMsgs_safe_soloBundle :
    ∃ reader m, oscReaderInit littleHost 2 zeroReader 0 28 (soloBundle.bytes ++ [0]) =
        some (oscOk, reader, m) ∧ ∀ n, Protected littleHost 28 n reader m := by
  refine ⟨_, _, rfl, ?_⟩
  exact (startMsgs_safe littleHost soloBundle 2 zeroReader _ _ rfl).1 (by decide)

/-- A bundle of twenty bytes, which ends with the length of a message. -/
def headerOnly : Object :=
  ⟨bundleName ++ 0 :: List.replicate 8 0 ++ [4, 0, 0, 0], by decide⟩

/-- It is accepted, and the message that is found in it lies behind it. -/
theorem headerOnly_not_protected :
    ∃ reader m, oscReaderInit littleHost 1 zeroReader 0 20 (headerOnly.bytes ++ [0]) =
        some (oscOk, reader, m) ∧ ¬ Protected littleHost 20 1 reader m := by
  refine ⟨_, _, rfl, ?_⟩
  rintro ⟨-, calls, hcalls, -, hsafe⟩
  cases hcalls
  exact absurd (hsafe.inside (20, 24) (by decide)) (by decide)

end LittleOscar.Ideas
