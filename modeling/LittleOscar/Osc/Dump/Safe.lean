import LittleOscar.Osc.Bundle.Packet
import LittleOscar.Osc.Dump.Receive
import LittleOscar.Osc.Reader.Cursor
import LittleOscar.Transition.Run

/-!
# Arbitrary datagrams

`udp_dump` listens to the network, so that anything can arrive. Apart from one thing it does
not have to care: it looks at every length before it follows it, and it comes to an end
because each call of `osc_msg_reader_get_arg` uses up a tag, each element of a bundle some of
its bytes. The one thing is the size of a blob, which `osc_msg_reader_get_arg_blob` adds to
its pointer unseen. `SaneDatagram` says that no blob that the program comes across has a bad
one, and then the program prints its text without a read outside the buffer
(`receiveLoop_prints`).
-/

namespace LittleOscar.UdpDump

open Machine Transition

variable {P : Platform} {F : FloatText} {m : Memory} {base : Int} {n : Nat}
variable {reader : OscMsgReader} {q p : Int}

/-! ## The getters -/

/-- A typed reader that stays before `n`, with its argument cursor at `p`. -/
structure Within (n : Nat) (m : Memory) (reader : OscMsgReader) (q p : Int) : Prop extends
    StaysBefore n m reader q where
  argPtr_eq : reader.argPtr = some p
  argPtr_nonneg : 0 ≤ p

/-- The getter reads inside the object and leaves the argument cursor there. -/
def GetterEnds {α : Type} (getter : OscMsgReader → Option (Int × α × OscMsgReader))
    (reader : OscMsgReader) : Prop :=
  ∃ ret out reader' p, getter reader = some (ret, out, reader') ∧ reader'.argPtr = some p ∧ 0 ≤ p

theorem GetterEnds.map {α β : Type} {getter : OscMsgReader → Option (Int × α × OscMsgReader)}
    {output : Int × α × OscMsgReader → Int × β × OscMsgReader}
    (houtput : ∀ ret out reader', ∃ ret' out', output (ret, out, reader') = (ret', out', reader'))
    (h : GetterEnds getter reader) :
    GetterEnds (fun reader => (getter reader).map output) reader := by
  obtain ⟨ret, out, reader', p, hget, hp, hnonneg⟩ := h
  obtain ⟨ret', out', heq⟩ := houtput ret out reader'
  exact ⟨ret', out', reader', p, by simp only [hget, Option.map_some, heq], hp, hnonneg⟩

section Getter

variable (h : Alike base n m m) (hend : reader.msgEnd ≤ n) (hp : reader.argPtr = some p)
  (hnonneg : 0 ≤ p)

include h hend hp hnonneg

theorem readFixed_ends {α : Type} (k : Nat) (decode : Nat → α) :
    GetterEnds (readFixed P m k decode) reader := by
  have hlt := h.lt_length
  by_cases hshort : reader.msgEnd - p < k
  · exact ⟨_, _, reader, p, readFixed_of_short hp hshort, hp, hnonneg⟩
  · have hat := at_take (m := m) (p := p) (k := k) hnonneg (by omega)
    have hlength := length_take_drop (m := m) (p := p) (k := k) hnonneg (by omega)
    exact ⟨_, _, _, p + k, readFixed_of_at hp hat hlength (by omega), rfl, by omega⟩

theorem getArgStr_ends (hle : p ≤ reader.msgEnd) : GetterEnds (oscMsgReaderGetArgStr m) reader := by
  have hbound := h.lt
  obtain ⟨k, hk⟩ := h.exists_strlen hnonneg (show p ≤ n by omega)
  obtain ⟨-, hlt, -⟩ := strlen_eq_some hk
  have heq := getArgStr_eq hp hk (by omega)
  split at heq
  · exact ⟨_, _, _, p, heq, hp, hnonneg⟩
  · exact ⟨_, _, _, _, heq, rfl, by omega⟩

theorem getArgBlob_ends (hsane : 4 ≤ reader.msgEnd - p → 0 ≤ int32Field (m.drop p.toNat) ∧
    int32Field (m.drop p.toNat) < 2147483645) : GetterEnds (oscMsgReaderGetArgBlob P m) reader := by
  have hlt := h.lt_length
  by_cases hroom : 4 ≤ reader.msgEnd - p
  · obtain ⟨sz, hsz, hget⟩ := getArgInt32_of_room (P := P) (m := m) hp hnonneg (by omega) (by omega)
    obtain ⟨hsize, hsmall⟩ := hsane hroom
    rw [← hsz] at hsize hsmall
    have heq := getArgBlob_eq hget rfl
    rw [round32_eq_roundUp hsize hsmall] at heq
    split at heq
    · exact ⟨_, _, _, p + 4, heq, rfl, by omega⟩
    · exact ⟨_, _, _, _, heq, rfl, by omega⟩
  · exact ⟨_, _, reader, p, getArgBlob_of_short hp (by omega), hp, hnonneg⟩

end Getter

/-- With a sane size of a blob, each getter ends. -/
theorem getter_ends (h : Alike base n m m) (hwithin : Within n m reader q p) {kind : ArgKind}
    (hsane : kind = .blob → 4 ≤ reader.msgEnd - p → 0 ≤ int32Field (m.drop p.toNat) ∧
      int32Field (m.drop p.toNat) < 2147483645) : GetterEnds (kind.getter P m) reader := by
  have hp := hwithin.argPtr_eq
  have hnonneg := hwithin.argPtr_nonneg
  have hend := hwithin.msgEnd
  cases kind with
  | empty => exact ⟨_, _, reader, p, rfl, hp, hnonneg⟩
  | int32 | int64 | timetag | float | double =>
      exact (readFixed_ends h hend hp hnonneg _ _).map fun _ _ _ => ⟨_, _, rfl⟩
  | str =>
      have hle := hwithin.argPtr p hp
      exact (getArgStr_ends h hend hp hnonneg hle).map fun _ _ _ => ⟨_, _, rfl⟩
  | blob =>
      exact (getArgBlob_ends h hend hp hnonneg (hsane rfl)).map fun _ _ _ => ⟨_, _, rfl⟩

/-- An output is printed if it is no string, or one that ends. -/
theorem exists_outputText {kind : ArgKind} {ret : Int} {output : ArgOutput}
    {reader' : OscMsgReader} (hget : kind.getter P m reader = some (ret, some output, reader'))
    (t : UInt8) : ∃ text, outputText P F m base t output = some text := by
  cases output with
  | str p =>
      cases kind with
      | str =>
          obtain ⟨⟨ret₁, val, reader₁⟩, hstr, hout⟩ := Option.map_eq_some_iff.mp hget
          obtain ⟨p₁, k, -, hk, ⟨-, -, habs, -⟩ | ⟨-, hval, -⟩⟩ := cases_of_getArgStr hstr
          · rw [habs] at hout
            cases hout
          · rw [hval] at hout
            cases hout
            obtain ⟨s, rest, -, hfree, hat⟩ := exists_at_of_strlen hk
            rw [outputText, hat.stringAt hfree]
            exact ⟨_, rfl⟩
      | empty => cases hget
      | int32 | int64 | timetag | float | double =>
          obtain ⟨⟨ret₁, val, reader₁⟩, -, hout⟩ := Option.map_eq_some_iff.mp hget
          simp at hout
      | blob =>
          obtain ⟨⟨ret₁, ⟨_ | sz, _ | p⟩, reader₁⟩, -, hout⟩ := Option.map_eq_some_iff.mp hget
          all_goals cases hout
  | empty | int32 | int64 | timetag | float | double | blob => exact ⟨_, rfl⟩

/-! ## The arguments of a message -/

/-- One call ends. If it returns `OSC_OK`, its argument is printed and the reader has come one
tag nearer to the end. -/
theorem getArg_ends (h : Alike base n m m) (hwithin : Within n m reader q p)
    (hsane : SaneBlob m reader) (arg : OscArg) :
    ∃ ret arg' reader', oscMsgReaderGetArg P m base reader arg = some (ret, arg', reader') ∧
      (ret = oscOk → (∃ text, argText P F m base arg' = some text) ∧
        ∃ p', Within n m reader' (q + 1) p') := by
  obtain ⟨e, hle, hlt, hnul⟩ := hwithin.tags
  have hnonneg := hwithin.nonneg
  have hn := h.lt_length
  obtain ⟨b, hb⟩ := exists_loadByte (m := m) (p := q) hnonneg (by omega)
  have htype := hwithin.typePtr
  by_cases hzero : b = 0
  · rw [hzero] at hb
    by_cases hP : P.charSigned
    · exact ⟨_, _, _, getArg_of_nul_signed hP htype hb arg, fun habs => absurd habs (by decide)⟩
    · exact ⟨_, _, _, getArg_of_nul_unsigned hP htype hb arg,
        fun habs => absurd habs oscError_ne_oscOk⟩
  by_cases hneg : charValue P b < 0
  · refine ⟨_, _, _, getArg_of_neg htype hb hzero hneg arg, fun habs => ?_⟩
    rw [habs] at hneg
    exact absurd hneg (by decide)
  cases hkind : ArgKind.ofTag b with
  | none =>
      refine ⟨oscError, { arg with type := b }, { reader with typePtr := some (q + 1) }, ?_,
        fun habs => absurd habs oscError_ne_oscOk⟩
      rw [getArg_of_nonneg htype hb hzero hneg, getArgSwitch_unknown hkind]
  | some kind =>
      have hne : q ≠ e := by
        rintro rfl
        exact hzero (Option.some.inj (hb.symm.trans hnul))
      have hmoved : Within n m { reader with typePtr := some (q + 1) } (q + 1) p :=
        ⟨⟨hwithin.msgEnd, rfl, by omega, ⟨e, by omega, hlt, hnul⟩, hwithin.argPtr⟩,
          hwithin.argPtr_eq, hwithin.argPtr_nonneg⟩
      have hblob : kind = .blob → 4 ≤ reader.msgEnd - p → 0 ≤ int32Field (m.drop p.toNat) ∧
          int32Field (m.drop p.toNat) < 2147483645 := by
        rintro rfl hroom
        rw [ArgKind.ofTag_blob hkind] at hb
        exact hsane q p htype hwithin.argPtr_eq hb hroom
      obtain ⟨ret, out, reader', p', hget, hp', hnonneg'⟩ := getter_ends (P := P) h hmoved hblob
      replace hget : kind.getter P m { reader with typePtr := some (q + 1) } =
        some (ret, out, reader') := hget
      have hprints := getArg_prints (P := P) (F := F) h.placed htype hb hkind arg
      rw [hget] at hprints
      cases hcall : oscMsgReaderGetArg P m base reader arg with
      | none =>
          rw [hcall] at hprints
          exact hprints.elim
      | some x =>
          obtain ⟨ret₁, arg₁, reader₁⟩ := x
          rw [hcall] at hprints
          obtain ⟨rfl, rfl, hok⟩ := hprints
          refine ⟨_, _, _, rfl, fun hret => ?_⟩
          obtain ⟨-, output, rfl, htext⟩ := hok hret
          obtain ⟨hframe, hinside⟩ := getter_endsInside hget hmoved.argPtr
          refine ⟨?_, p', ⟨?_, ?_, hmoved.nonneg, hmoved.tags, hinside⟩, hp', hnonneg'⟩
          · rw [htext m]
            exact exists_outputText hget b
          · rw [hframe.msgEnd]
            exact hmoved.msgEnd
          · rw [hframe.typePtr]

/-- However often `osc_msg_reader_get_arg` is called, it finds no blob with a bad size. -/
def SaneArgs (P : Platform) (m : Memory) (base : Int) (reader : OscMsgReader) : Prop :=
  ∀ args, Along (getArgStep P m base) (fun reader _ => SaneBlob m reader) reader args

theorem SaneArgs.saneBlob (h : SaneArgs P m base reader) (arg : OscArg) : SaneBlob m reader :=
  (h [arg]).1

theorem SaneArgs.next (h : SaneArgs P m base reader) {arg arg' : OscArg} {ret : Int}
    {reader' : OscMsgReader}
    (hget : oscMsgReaderGetArg P m base reader arg = some (ret, arg', reader')) :
    SaneArgs P m base reader' :=
  fun args => (h (arg :: args)).2 reader' (by rw [getArgStep, hget]; rfl)

/-- The loop over the arguments ends. -/
theorem dumpArgs_ends (h : Alike base n m m) (hwithin : Within n m reader q p)
    (hsane : SaneArgs P m base reader) (fuel : Nat) (hfuel : n < q + fuel) (indent : Int)
    (arg : OscArg) :
    ∃ text reader', dumpArgs P F m base indent fuel reader arg = some (text, reader') := by
  induction fuel generalizing reader q p arg with
  | zero =>
      obtain ⟨e, hle, hlt, -⟩ := hwithin.tags
      omega
  | succ fuel ih =>
      obtain ⟨ret, arg', reader', hget, hok⟩ :=
        getArg_ends (F := F) h hwithin (hsane.saneBlob arg) arg
      rw [dumpArgs, hget, Option.bind_eq_bind, Option.bind_some]
      by_cases hret : ret = oscOk
      · obtain ⟨⟨text, htext⟩, p', hwithin'⟩ := hok hret
        obtain ⟨rest, last, hrest⟩ := ih hwithin' (hsane.next hget) (by omega) arg'
        simp only [if_pos hret, htext, hrest, Option.bind_eq_bind, Option.bind_some]
        exact ⟨_, _, rfl⟩
      · simp only [if_neg hret]
        exact ⟨_, _, rfl⟩

/-- In a message that is accepted, `osc_msg_reader_get_arg` finds no blob with a bad size. -/
def SaneMessage (P : Platform) (m : Memory) (base : Int) (range : OscElement) : Prop :=
  ∀ reader₀ reader, oscMsgReaderInit m reader₀ range.start range.len = some (oscOk, reader) →
    oscMsgReaderIsTyped reader → SaneArgs P m base reader

/-- An accepted message is printed. -/
theorem dumpOscMessage_ends (h : Alike base n m m) {buffer : Int} {size : Nat}
    (hbuffer : 0 ≤ buffer) (hn : buffer + size = n) {reader₀ : OscMsgReader}
    (hinit : oscMsgReaderInit m reader₀ buffer size = some (oscOk, reader))
    (hsane : SaneMessage P m base ⟨buffer, size⟩) {fuel : Nat} (hfuel : size ≤ fuel)
    (locals : Locals) (indent : Int) :
    ∃ text reader', dumpOscMessage P F m base fuel locals reader indent =
      some (text, reader') := by
  have hbound := h.lt
  have hlt := h.lt_length
  have hargs := hsane reader₀ reader hinit
  have haddress : ∃ s, stringAt m buffer = some s := by
    obtain ⟨k, hk⟩ := h.exists_strlen hbuffer (by omega)
    obtain ⟨s, rest, -, hfree, hat⟩ := exists_at_of_strlen hk
    exact ⟨s, hat.stringAt hfree⟩
  obtain ⟨s, hs⟩ := haddress
  cases accepted_of_init hinit with
  | address hn hfills =>
      rw [dumpOscMessage, oscMsgReaderGetAddress, hs]
      exact ⟨_, _, rfl⟩
  | untyped hn ha hlt hb hne =>
      rw [dumpOscMessage, oscMsgReaderGetAddress, hs]
      exact ⟨_, _, rfl⟩
  | @typed k j a hk ha hlt hb hj hle =>
      obtain ⟨-, hkend, -⟩ := strlen_eq_some hk
      obtain ⟨hjstart, hjend, hjnul⟩ := strlen_eq_some hj
      have hround : round32Size (j + 1) = paddedSize j := round32Size_eq_roundUp (by omega)
      have hsize := addressSize_of_length hk hbound
      have haddress : a = paddedSize k := by
        rw [← ha, round32Size_eq_roundUp (by omega)]
        exact hsize.size
      have hpad := lt_paddedSize j
      have hone : j ≠ 0 := by
        rintro rfl
        rw [Int.natCast_zero, Int.add_zero, hb] at hjnul
        exact absurd hjnul (by decide)
      rw [hround] at hle hargs ⊢
      have hwithin : Within n m ⟨buffer, buffer + size, some (buffer + a + 1),
          some (buffer + a + paddedSize j)⟩ (buffer + a + 1) (buffer + a + paddedSize j) := by
        refine ⟨⟨by simp only; omega, rfl, by omega, ?_, ?_⟩, rfl, by omega⟩
        · exact ⟨buffer + a + j, by omega, by omega, hjnul⟩
        · rintro p ⟨rfl⟩
          simp only
          omega
      obtain ⟨text, last, htext⟩ := dumpArgs_ends (F := F) h hwithin (hargs rfl) fuel
        (by omega) (indent + 1) locals.arg
      rw [dumpOscMessage, oscMsgReaderGetAddress, hs, Option.bind_eq_bind, Option.bind_some]
      simp only [oscMsgReaderIsTyped, Option.isSome_some, if_true, htext, Option.bind_eq_bind,
        Option.bind_some]
      exact ⟨_, _, rfl⟩

/-! ## Packets -/

section Packets

variable (P F m base)

/-- What `SaneDatagram` asks of the ranges that the walk visits. -/
def SaneWalk (walk : Nat → Option PacketWalk) (size : Nat) : Prop :=
  ∀ found, (∀ fuel, size < fuel → walk fuel = some found) →
    ∀ range ∈ found.messages, SaneMessage P m base range

/-- A packet of `size` bytes is printed if the walk over it finds only sane messages. -/
def PacketPrints (visit : OscMsgReader → OscMsgReader) (mr₀ : OscMsgReader)
    (br₀ : OscBundleReader) (len : Int) (size : Nat) : Prop :=
  ∀ buffer : Int, 0 ≤ buffer → buffer + size ≤ len →
    SaneWalk P m base (fun fuel => LittleOscar.dumpOscPacket P m visit mr₀ br₀ fuel buffer size)
      size →
    ∀ fuel, size < fuel → ∀ locals indent,
      ∃ text, dumpOscPacket P F m base locals fuel buffer size indent = some text

/-- The last `size` bytes of a bundle are printed if the walk over them finds only sane
messages. -/
def ElementsPrint (visit : OscMsgReader → OscMsgReader) (mr₀ : OscMsgReader)
    (br₀ : OscBundleReader) (len : Int) (size : Nat) : Prop :=
  ∀ mr br, BytesLeft len br size →
    SaneWalk P m base (fun fuel => LittleOscar.dumpElements P m visit mr₀ br₀ fuel mr br) size →
    ∀ fuel, size < fuel → ∀ locals mr' indent,
      ∃ text, dumpElements P F m base locals fuel mr' br indent = some text

end Packets

theorem SaneWalk.of_succ {walk : Nat → Option PacketWalk} {size : Nat}
    (h : SaneWalk P m base walk size) (found : PacketWalk)
    (hwalk : ∀ fuel, size ≤ fuel → walk (fuel + 1) = some found) :
    ∀ range ∈ found.messages, SaneMessage P m base range := by
  refine h found fun fuel hfuel => ?_
  cases fuel with
  | zero => exact absurd hfuel (Nat.not_lt_zero _)
  | succ fuel => exact hwalk fuel (Nat.le_of_lt_succ hfuel)

/-- An object with a NUL behind the packet, for two readers of its packets. -/
theorem alike_of_nulBehind {len : Int} (h : NulBehind m len) (hplaced : Placed base m)
    (hlt : len < 2147483643) (hn : (n : Int) ≤ len) : Alike base n m m := by
  have hlength := h.length
  have hnul := h.nul
  obtain ⟨k, rfl⟩ := Int.eq_ofNat_of_zero_le (show 0 ≤ len by omega)
  rw [loadByte_natCast] at hnul
  have hmem : 0 ∈ m.drop n := by
    refine List.mem_of_getElem? (i := k - n) ?_
    rw [List.getElem?_drop, Nat.add_sub_cancel' (by omega)]
    exact hnul
  exact ⟨⟨rfl, hmem, hmem⟩, hplaced, hplaced, by omega, by omega⟩

section Walk

variable {visit : OscMsgReader → OscMsgReader} {mr₀ : OscMsgReader} {br₀ : OscBundleReader}
  {len : Int} {size : Nat}

/-- A message is refused whatever the reader holds, or printed. -/
theorem exists_message (h : NulBehind m len) (hplaced : Placed base m) (hlt : len < 2147483643)
    {buffer : Int} (hbuffer : 0 ≤ buffer) (hpos : 0 < size) (hle : buffer + size ≤ len)
    (reader₀ reader₀' : OscMsgReader) :
    ∃ ret reader reader', oscMsgReaderInit m reader₀ buffer size = some (ret, reader) ∧
      oscMsgReaderInit m reader₀' buffer size = some (ret, reader') ∧
      (ret = oscOk → SaneMessage P m base ⟨buffer, size⟩ → ∀ fuel, size ≤ fuel →
        ∀ locals indent, ∃ text last, dumpOscMessage P F m base fuel locals reader' indent =
          some (text, last)) := by
  have hlength := h.length
  have hshort : ∀ i, strlen m buffer = some i → i < 2147483644 := by
    intro i hi
    obtain ⟨-, hend, -⟩ := strlen_eq_some hi
    omega
  obtain ⟨n, hn⟩ := Int.eq_ofNat_of_zero_le (show 0 ≤ buffer + size by omega)
  have halike : Alike base n m m := alike_of_nulBehind h hplaced hlt (by omega)
  obtain ⟨ret, reader, hinit⟩ := h.exists_init reader₀ hbuffer hle hshort
  obtain ⟨ret', reader', hinit'⟩ := h.exists_init reader₀' hbuffer hle hshort
  have hsame : SameInit n m m (oscMsgReaderInit m reader₀ buffer size)
      (oscMsgReaderInit m reader₀' buffer size) :=
    init_same halike hbuffer (by omega) (by omega)
  rw [hinit, hinit'] at hsame
  obtain ⟨rfl, -⟩ := hsame
  refine ⟨ret, reader, reader', hinit, hinit', fun hret hsane fuel hfuel locals indent => ?_⟩
  rw [hret] at hinit'
  exact dumpOscMessage_ends halike hbuffer hn hinit' hsane hfuel locals indent

theorem packetPrints_of_elements (h : NulBehind m len) (hplaced : Placed base m)
    (hlt : len < 2147483643)
    (helements : ∀ size' < size, ElementsPrint P F m base visit mr₀ br₀ len size') :
    PacketPrints P F m base visit mr₀ br₀ len size := by
  intro buffer hbuffer hle hsane fuel hfuel locals indent
  obtain ⟨fuel, rfl⟩ := Nat.exists_eq_succ_of_ne_zero (show fuel ≠ 0 by omega)
  have hlength := h.length
  rw [dumpOscPacket]
  by_cases hbad : (size : Int) < 4 ∨ (size : Int) % 4 ≠ 0
  · have htype : oscPacketGetType m buffer size = some oscError := by
      rw [oscPacketGetType, if_pos hbad]
    rw [htype]
    exact ⟨_, rfl⟩
  obtain ⟨b, hb⟩ := exists_loadByte (m := m) (p := buffer) hbuffer (by omega)
  have htype : oscPacketGetType m buffer size =
      some (if b = '#'.toUInt8 then oscBundle else oscMessage) := by
    rw [oscPacketGetType, if_neg hbad, hb]
    rfl
  by_cases hsharp : b = '#'.toUInt8
  · rw [if_pos hsharp] at htype
    rw [htype, Option.bind_eq_bind, Option.bind_some,
      if_neg (show ¬ oscBundle = oscMessage by decide), if_pos rfl, oscBundleReaderInit]
    by_cases hshort : (size : Int) < 20
    · rw [if_pos hshort]
      exact ⟨_, rfl⟩
    · have hleft : BytesLeft len ⟨buffer, buffer + size, buffer + 16⟩ (size - 16) :=
        ⟨by simp only; omega, by simp only; omega, hle, by omega⟩
      obtain ⟨text, htext⟩ := helements (size - 16) (by omega) mr₀ _ hleft
        (fun found hfound => hsane.of_succ ⟨found.messages, found.depth + 1⟩ fun fuel hfuel => by
          have hrun := hfound fuel (by omega)
          simp only at hrun
          rw [LittleOscar.dumpOscPacket_of_bundle htype, if_neg hshort, hrun, Option.map_some])
        fuel (by omega) locals locals.mr indent
      simp only [if_neg hshort, if_true, htext, Option.bind_eq_bind, Option.bind_some]
      exact ⟨_, rfl⟩
  · rw [if_neg hsharp] at htype
    obtain ⟨ret, reader, reader', hinit, hinit', hprints⟩ :=
      exists_message (P := P) (F := F) h hplaced hlt hbuffer (show 0 < size by omega) hle mr₀
        locals.mr
    have hmessage : SaneMessage P m base ⟨buffer, size⟩ :=
      hsane.of_succ ⟨[⟨buffer, size⟩], 1⟩ (fun fuel _ => by
        rw [LittleOscar.dumpOscPacket_of_message htype, hinit, Option.map_some])
        _ (List.mem_singleton_self _)
    simp only [htype, hinit', Option.bind_eq_bind, Option.bind_some, if_true]
    by_cases hret : ret = oscOk
    · obtain ⟨text, last, htext⟩ := hprints hret hmessage fuel (by omega) locals indent
      rw [if_pos hret, htext]
      exact ⟨_, rfl⟩
    · rw [if_neg hret]
      exact ⟨_, rfl⟩

theorem elementsPrint_of_smaller (h : NulBehind m len) (hplaced : Placed base m)
    (hlt : len < 2147483643)
    (hpackets : ∀ size' < size, PacketPrints P F m base visit mr₀ br₀ len size')
    (helements : ∀ size' < size, ElementsPrint P F m base visit mr₀ br₀ len size') :
    ElementsPrint P F m base visit mr₀ br₀ len size := by
  intro mr br hleft hsane fuel hfuel locals mr' indent
  obtain ⟨hptr, hend, hle, haligned⟩ := id hleft
  obtain ⟨fuel, rfl⟩ := Nat.exists_eq_succ_of_ne_zero (show fuel ≠ 0 by omega)
  have hlength := h.length
  rw [dumpElements]
  by_cases hlast : br.msgPtr = br.bundleEnd
  · rw [oscBundleReaderNext_end hlast]
    exact ⟨_, rfl⟩
  obtain ⟨n, hn⟩ : ∃ n, int32Field (m.drop br.msgPtr.toNat) = n := ⟨_, rfl⟩
  have hfield : AtField m br n := ⟨hlast, by omega, by omega, by omega, hn⟩
  have hwalks := @walks P m visit mr₀ br₀ len h
  by_cases hrecord : IsRecordLength (br.bundleEnd - br.msgPtr - 4) n
  swap
  · rw [hfield.next_of_not_record hrecord]
    exact ⟨_, rfl⟩
  obtain ⟨b, -, hnext⟩ := hfield.next_of_record (P := P) hrecord
  obtain ⟨hfour, -, hroom⟩ := id hrecord
  obtain ⟨k, rfl⟩ := Int.eq_ofNat_of_zero_le (show 0 ≤ n by omega)
  have hbehind := hleft.behind hrecord
  have hprintsRest := helements (size - 4 - k) (by omega)
  by_cases hsharp : b = '#'.toUInt8
  · rw [if_pos hsharp] at hnext
    obtain ⟨inner, hinner, -⟩ := (hwalks k).1
      (br.msgPtr + 4) (by omega) (by omega) fun _ =>
        h.exists_init mr₀ (by omega) (by omega) fun i hi => by
          obtain ⟨-, hlast, -⟩ := strlen_eq_some hi
          omega
    obtain ⟨rest, hrest, -⟩ := (hwalks (size - 4 - k)).2 mr _ hbehind
    -- the walk over the elements is the walk over the first one and over the others
    have hboth : ∀ first others : PacketWalk,
        (∀ fuel, k < fuel → LittleOscar.dumpOscPacket P m visit mr₀ br₀ fuel (br.msgPtr + 4) k =
          some first) →
        (∀ fuel, size - 4 - k < fuel → LittleOscar.dumpElements P m visit mr₀ br₀ fuel mr
          { br with msgPtr := br.msgPtr + 4 + k } = some others) →
        ∀ range ∈ first.messages ++ others.messages, SaneMessage P m base range := by
      intro first others hfirst hothers
      refine hsane.of_succ ⟨first.messages ++ others.messages, max first.depth others.depth⟩
        fun fuel hfuel => ?_
      simp only [LittleOscar.dumpElements_of_bundle hnext, hfirst fuel (by omega),
        hothers fuel (by omega), Option.bind_some, Option.map_some]
    obtain ⟨text, htext⟩ := hpackets k (by omega) (br.msgPtr + 4) (by omega) (by omega)
      (fun first hfirst range hrange =>
        hboth first rest hfirst hrest range (List.mem_append_left _ hrange))
      fuel (by omega) locals (indent + 1)
    obtain ⟨others, hothers⟩ := hprintsRest mr _ hbehind
      (fun others hothers range hrange =>
        hboth inner others hinner hothers range (List.mem_append_right _ hrange))
      fuel (by omega) locals mr' indent
    simp only [hnext, Option.bind_eq_bind, Option.bind_some,
      if_pos (show oscBundle > oscOk by decide), if_neg (show ¬ oscBundle = oscMessage by decide),
      htext, hothers]
    exact ⟨_, rfl⟩
  · rw [if_neg hsharp] at hnext
    obtain ⟨ret, reader, reader', hinit, hinit', hprints⟩ :=
      exists_message (P := P) (F := F) h hplaced hlt (show 0 ≤ br.msgPtr + 4 by omega)
        (show 0 < k by omega) (by omega) mr mr'
    simp only [hnext, hinit', Option.bind_eq_bind, Option.bind_some,
      if_pos (show oscMessage > oscOk by decide), if_true]
    by_cases hret : ret = oscOk
    swap
    · rw [if_neg hret]
      exact ⟨_, rfl⟩
    obtain ⟨rest, hrest, -⟩ := (hwalks (size - 4 - k)).2 (visit reader) _ hbehind
    have hboth : ∀ others : PacketWalk,
        (∀ fuel, size - 4 - k < fuel → LittleOscar.dumpElements P m visit mr₀ br₀ fuel
          (visit reader) { br with msgPtr := br.msgPtr + 4 + k } = some others) →
        ∀ range ∈ ⟨br.msgPtr + 4, (k : Int)⟩ :: others.messages, SaneMessage P m base range := by
      intro others hothers
      refine hsane.of_succ ⟨⟨br.msgPtr + 4, k⟩ :: others.messages, others.depth⟩
        fun fuel hfuel => ?_
      simp only [LittleOscar.dumpElements_of_message hnext hinit, if_pos hret,
        hothers fuel (by omega), Option.map_some]
    obtain ⟨text, last, htext⟩ := hprints hret (hboth rest hrest _ List.mem_cons_self) fuel
      (by omega) locals (indent + 1)
    obtain ⟨others, hothers⟩ := hprintsRest (visit reader) _ hbehind
      (fun others hothers range hrange =>
        hboth others hothers range (List.mem_cons_of_mem _ hrange))
      fuel (by omega) locals last indent
    simp only [if_pos hret, htext, hothers, Option.bind_some]
    exact ⟨_, rfl⟩

/-- Packets and elements are printed, by one induction on the number of their bytes. -/
theorem prints (h : NulBehind m len) (hplaced : Placed base m) (hlt : len < 2147483643)
    (size : Nat) :
    PacketPrints P F m base visit mr₀ br₀ len size ∧
      ElementsPrint P F m base visit mr₀ br₀ len size := by
  induction size using Nat.strong_induction_on with
  | h size ih =>
      constructor
      · exact packetPrints_of_elements h hplaced hlt fun size' hsize => (ih size' hsize).2
      · exact elementsPrint_of_smaller h hplaced hlt (fun size' hsize => (ih size' hsize).1)
          fun size' hsize => (ih size' hsize).2

end Walk

/-! ## Datagrams -/

/-- The walk over the datagram comes across no blob with a bad size. -/
def SaneDatagram (P : Platform) (base : Int) (packet : List UInt8) : Prop :=
  ∀ found ∈ LittleOscar.dumpOscPacket P (packet ++ [0]) id ⟨0, 0, none, none⟩ ⟨0, 0, 0⟩
      (packet.length + 1) 0 packet.length,
    ∀ range ∈ found.messages, SaneMessage P (packet ++ [0]) base range

/-- A datagram in which no byte is the tag of a blob. -/
theorem saneDatagram_of_not_mem {packet : List UInt8} (h : 'b'.toUInt8 ∉ packet) :
    SaneDatagram P base packet := by
  have hsane : ∀ reader, SaneBlob (packet ++ [0]) reader := by
    intro reader q p _ _ hb
    rw [loadByte] at hb
    split at hb
    · rcases List.mem_append.mp (List.mem_of_getElem? hb) with habs | habs
      · exact absurd habs h
      · exact absurd (List.mem_singleton.mp habs) (by decide)
    · cases hb
  exact fun _ _ _ _ _ _ _ _ args => along_of_forall (fun reader _ => hsane reader) _ args

/-- A datagram that fits is printed. -/
theorem ReceiveBuffer.exists_text (h : ReceiveBuffer base m) {packet : List UInt8}
    (hlt : packet.length < bufferSize) (hsane : SaneDatagram P base packet) {fuel : Nat}
    (hfuel : bufferSize ≤ fuel) (locals : Locals) :
    ∃ text, dumpOscPacket P F (overwrite m 0 packet) base locals fuel 0 packet.length 0 =
      some text := by
  have hfilled := h.filled hlt
  have hlength := h.length
  have hnonneg := h.placed.nonneg
  have hle := h.placed.le
  rw [bufferSize] at hlength hlt hfuel
  have hplaced : Placed base (packet ++ [0]) :=
    ⟨hnonneg, by rw [List.length_append, List.length_singleton]; omega⟩
  have htake : (overwrite m 0 packet).take packet.length = (packet ++ [0]).take packet.length := by
    have heq := take_overwrite (m := m) (Nat.zero_le _) packet
    rw [Nat.zero_add, List.take_zero, List.nil_append] at heq
    rw [heq, List.take_left]
  have hbehind : 0 ∈ (packet ++ [0]).drop packet.length := by
    rw [List.drop_left]
    exact List.mem_singleton_self 0
  have hnul : 0 ∈ (overwrite m 0 packet).drop packet.length := by
    have hlast := hfilled.nul
    rw [bufferSize] at hlast
    refine List.mem_of_getElem? (i := 1535 - packet.length) ?_
    rw [List.getElem?_drop, Nat.add_sub_cancel' (by omega)]
    exact hlast
  have hfilledLength := hfilled.length
  rw [bufferSize] at hfilledLength
  have halike : Alike base packet.length (overwrite m 0 packet) (packet ++ [0]) :=
    ⟨⟨htake, hnul, hbehind⟩, hfilled.placed, hplaced, by omega,
      by rw [List.length_append, List.length_singleton]; omega⟩
  rw [(dump_same halike fuel).1 0 packet.length 0 locals locals (le_refl _) (Int.zero_add _).le]
  have hprints := (@prints P F _ base id ⟨0, 0, none, none⟩ ⟨0, 0, 0⟩ packet.length
    (nulBehind_append (by omega)) hplaced (by omega) packet.length).1
  refine hprints 0 (le_refl _) (Int.zero_add _).le (fun found hfound => ?_) fuel (by omega)
    locals 0
  exact hsane found (hfound (packet.length + 1) (Nat.lt_succ_self _))

/-- Whatever arrives, `udp_dump` prints its text, without a read outside the buffer and
without running for ever, as long as no blob that it comes across has a bad size. -/
theorem receiveLoop_prints (P : Platform) (F : FloatText) (base : Int) (fuel : Nat)
    (arrivals : List Arrival) (buffer : Memory) (hbuffer : ReceiveBuffer base buffer)
    (hfuel : bufferSize ≤ fuel)
    (hsane : ∀ arrival ∈ arrivals, ∀ bytes ∈ arrival.datagram,
      SaneDatagram P base (bytes.take (bufferSize - 1))) :
    ∃ text, receiveLoop P F base fuel arrivals buffer = some text := by
  induction arrivals generalizing buffer with
  | nil => exact ⟨[], rfl⟩
  | cons arrival arrivals ih =>
      obtain ⟨datagram, locals⟩ := arrival
      have hrest : ∀ arrival ∈ arrivals, ∀ bytes ∈ arrival.datagram,
          SaneDatagram P base (bytes.take (bufferSize - 1)) :=
        fun arrival harrival => hsane arrival (List.mem_cons_of_mem _ harrival)
      cases datagram with
      | none =>
          obtain ⟨rest, htext⟩ := ih buffer hbuffer hrest
          obtain ⟨fuel, rfl⟩ := Nat.exists_eq_succ_of_ne_zero
            (show fuel ≠ 0 by rw [bufferSize] at hfuel; omega)
          refine ⟨rest, ?_⟩
          rw [receiveLoop, recvfrom]
          simp only [dumpOscPacket, oscPacketGetType, Option.bind_eq_bind]
          rw [if_pos (by decide), Option.bind_some, if_neg (by decide), if_neg (by decide),
            Option.bind_some, htext]
          rfl
      | some bytes =>
          have hlt : (bytes.take (bufferSize - 1)).length < bufferSize := by
            rw [List.length_take, bufferSize]
            omega
          obtain ⟨text, htext⟩ := hbuffer.exists_text (F := F) hlt
            (hsane _ List.mem_cons_self bytes rfl) hfuel locals
          obtain ⟨rest, hmore⟩ := ih _ (hbuffer.filled hlt) hrest
          refine ⟨text ++ rest, ?_⟩
          rw [receiveLoop, recvfrom]
          simp only [htext, hmore, Option.bind_eq_bind, Option.bind_some]

/-- The size of this blob is -256, and the argument behind it is looked for in front of the
buffer. -/
example : dumpOscPacket littleHost ⟨fun _ => [], fun _ => []⟩
    [47, 97, 0, 0, 44, 98, 105, 0, 255, 255, 255, 0, 0] 4096 zeroLocals 13 0 12 0 = none := by
  decide

/-- A bundle that ends in the middle of its element. -/
def cutBundle : List UInt8 :=
  [35, 98, 117, 110, 100, 108, 101, 0, 0, 0, 0, 0, 0, 0, 0, 1, 0, 0, 0, 16, 47, 97, 0, 0]

theorem receiveLoop_prints_cut :
    ∃ text, receiveLoop littleHost ⟨fun _ => [], fun _ => []⟩ 4096 bufferSize
      [⟨some cutBundle, zeroLocals⟩, ⟨none, zeroLocals⟩, ⟨some openAddress, zeroLocals⟩]
      (List.replicate bufferSize 0) = some text := by
  refine receiveLoop_prints littleHost ⟨fun _ => [], fun _ => []⟩ 4096 bufferSize _ _
    (ReceiveBuffer.fresh (by decide) (by decide)) (le_refl _) ?_
  intro arrival harrival bytes hbytes
  simp only [List.mem_cons, List.not_mem_nil, or_false] at harrival
  rcases harrival with rfl | rfl | rfl
  · obtain rfl := Option.some.inj hbytes
    rintro found ⟨rfl⟩ range hrange
    exact absurd hrange List.not_mem_nil
  · cases hbytes
  · obtain rfl := Option.some.inj hbytes
    exact saneDatagram_of_not_mem (by decide)

end LittleOscar.UdpDump
