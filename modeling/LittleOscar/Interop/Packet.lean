import LittleOscar.Interop.Message
import LittleOscar.Osc.RoundTrip.Bundle

/-!
# Packets of the writer in a dump

What `udp_dump` prints when a process sends it the packets that it writes with the functions of
`write.c`. A message is printed as its address. Of the first bundle of the process nothing but
the first line is printed where the host is little-endian, since the lengths are stored in the
order of the host; in network order, the addresses of its messages are. The first bundle uses up
the string of `k_bundle`: every later one begins with zeros, and is printed as a message with
an empty address. `packets_printed` says so of any packets in any order.
-/

namespace LittleOscar.Interop

open Machine Transition UdpDump WriterState

/-! ## The bytes of a packet -/

/-- A packet that is written with the functions of `write.c`. -/
inductive WriterPacket where
  | message (msg : OscMessage)
  | bundle (timetag : UInt64) (msgs : List OscMessage)

namespace WriterPacket

/-- The calls of a packet, all of which return `OSC_OK`. -/
def write (P : Platform) : WriterPacket → WriterState → Option WriterState
  | .message msg, s => run (okStep P) s msg.calls
  | .bundle timetag msgs, s => (writeBundle P timetag msgs s).map Prod.snd

/-- The bytes of a packet in a process where `k_bundle` points to `kBundle`. -/
def bytes (P : Platform) (kBundle : CString) : WriterPacket → List UInt8
  | .message msg => msg.bytes P
  | .bundle timetag msgs => bundleHeader kBundle timetag ++ frames P msgs

/-- What `k_bundle` points to behind a packet. -/
def after (kBundle : CString) : WriterPacket → CString
  | .message _ => kBundle
  | .bundle _ _ => CString.empty

end WriterPacket

variable {P : Platform} {s s' : WriterState}

theorem kBundle_of_run {msg : OscMessage} (h : Ready s)
    (hrun : run (okStep P) s msg.calls = some s') : s'.kBundle = s.kBundle := by
  obtain ⟨s₂, rfl, -, -, -, -, hsame⟩ := OscMessage.run_eq h hrun
  have hclosed : (s₂.closed P).kBundle = s₂.kBundle := by
    unfold WriterState.closed
    split <;> rfl
  rw [hclosed, hsame.kBundle]
  rfl

/-- In a bundle, the calls of messages lay out their frames. -/
theorem wrote_of_writeMessages {msgs : List OscMessage} {written : List (Int × Int)}
    (h : Ready s) (hstate : s.state = OSC_WRITER_BUNDLE) (hle : s.pos ≤ s.mem.length)
    (hwrite : writeMessages P s msgs = some (written, s')) :
    Wrote s s' (frames P msgs) ∧ s'.kBundle = s.kBundle := by
  induction msgs generalizing s written with
  | nil =>
      cases hwrite
      exact ⟨⟨rfl, rfl, (overwrite_nil s'.mem s'.pos.toNat).symm, (Int.add_zero s'.pos).symm, rfl⟩,
        rfl⟩
  | cons msg msgs ih =>
      obtain ⟨s₁, hrun, hrest⟩ := Option.bind_eq_some_iff.mp hwrite
      obtain ⟨⟨rest, s₂⟩, hmessages, hrest⟩ := Option.bind_eq_some_iff.mp hrest
      cases hrest
      obtain ⟨hwrote, -, hstate₁⟩ := OscMessage.run_inBundle h hstate hrun
      have hmod := msg.length_bytes_mod (P := P)
      have hnonneg := h.nonneg
      have haligned := h.aligned
      have hpos := hwrote.pos
      have hlength := hwrote.length
      rw [← OscMessage.frame, length_frame] at hpos
      have hroom : s₁.pos ≤ s₁.mem.length := by
        have hmem := congrArg List.length hwrote.mem
        have hroom := le_of_length_overwrite (by omega) (hmem.symm.trans hlength)
        rw [← OscMessage.frame, length_frame] at hroom
        omega
      have hready : Ready s₁ :=
        ⟨hwrote.data.trans h.data, by omega, by omega, by rw [hlength]; exact h.bound⟩
      obtain ⟨hwrote', hkBundle⟩ := ih hready hstate₁ hroom hmessages
      exact ⟨hwrote.trans hwrote' hnonneg hle, hkBundle.trans (kBundle_of_run h hrun)⟩

/-- A bundle that is started had room for its header. -/
theorem fits_of_startBundle {timetag : UInt64} (h : Inside s 0)
    (hstart : okStep P s (.startBundle timetag) = some s') :
    ((bundleHeader s.kBundle timetag).length : Int) ≤ s.remain ∧
      s' = s.bundleOpened timetag := by
  have hcall : oscMsgWriterStartBundle P timetag s = some (oscOk, s') := okStep_eq_some.mp hstart
  rcases cases_of_startBundle hcall with ⟨hret, -⟩ | ⟨-, hout, -, s₁, s₂, hheader, htimetag, rfl⟩
  · exact absurd hret.symm oscError_ne_oscOk
  rw [stringBytes_of_mod h.aligned] at hheader
  have hne : padString s.kBundle.bytes ≠ [] := by
    apply List.ne_nil_of_length_pos
    have hfour := four_le_paddedSize s.kBundle.bytes.length
    rw [length_padString]
    omega
  have hfits := fits_of_putAll hne hheader
  obtain rfl := putAll_eq_some hheader
  have htime : bigEndian 8 timetag.toNat ≠ [] := by
    apply List.ne_nil_of_length_pos
    rw [length_bigEndian]
    decide
  have hroom := (h.header_fits_iff hfits _).mp (fits_of_putAll htime htimetag)
  obtain rfl := putAll_eq_some htimetag
  rw [length_bigEndian] at hroom
  rw [length_bundleHeader]
  exact ⟨by omega, rfl⟩

/-- The packet of a fresh writer lies at the beginning of its buffer. -/
theorem WriterPacket.take_eq {packet : WriterPacket} (h : Inside s 0)
    (hstate : s.state = OSC_WRITER_OUT) (hpos : s.pos = 0) (hwrite : packet.write P s = some s') :
    s'.mem.take s'.pos.toNat = packet.bytes P s.kBundle ∧
      s'.kBundle = packet.after s.kBundle := by
  cases packet with
  | message msg =>
      obtain ⟨hwrote, -, -⟩ := OscMessage.run_alone h.ready hstate hwrite
      exact ⟨hwrote.take_eq hpos, kBundle_of_run h.ready hwrite⟩
  | bundle timetag msgs =>
      obtain ⟨⟨written, s₃⟩, hbundle, rfl⟩ := Option.map_eq_some_iff.mp hwrite
      obtain ⟨s₁, hstart, hrest⟩ := Option.bind_eq_some_iff.mp hbundle
      obtain ⟨⟨ranges, s₂⟩, hmessages, hrest⟩ := Option.bind_eq_some_iff.mp hrest
      obtain ⟨s₄, hend, hrest⟩ := Option.bind_eq_some_iff.mp hrest
      cases hrest
      have hended : s₃ = { s₂ with state := OSC_WRITER_COMPLETE } :=
        (Prod.mk.inj (Option.some.inj (okStep_eq_some.mp hend))).2.symm
      obtain ⟨hfits, rfl⟩ := fits_of_startBundle h hstart
      have hheader := wrote_bundleOpened h timetag hfits
      have hopened := h.bundleOpened timetag (by rw [length_bundleHeader] at hfits; omega)
      have hle := hopened.le
      have hlen := hopened.len
      have hroom := h.le
      have hlength := h.len
      obtain ⟨hframes, hkBundle⟩ := wrote_of_writeMessages hopened.ready rfl (by omega) hmessages
      have hwrote := hheader.trans hframes h.nonneg (by omega)
      subst hended
      exact ⟨hwrote.take_eq hpos, hkBundle⟩

/-! ## The lines of a packet -/

namespace WriterPacket

/-- No address begins with `#`, and the timetag of a bundle does not begin with a comma. -/
def Plain : WriterPacket → Prop
  | .message msg => msg.address.bytes.head? ≠ some '#'.toUInt8
  | .bundle timetag msgs => (bigEndian 8 timetag.toNat).head? ≠ some ','.toUInt8 ∧
      ∀ msg ∈ msgs, msg.address.bytes.head? ≠ some '#'.toUInt8

instance : DecidablePred Plain
  | .message msg => inferInstanceAs (Decidable (msg.address.bytes.head? ≠ some '#'.toUInt8))
  | .bundle timetag msgs =>
      inferInstanceAs (Decidable ((bigEndian 8 timetag.toNat).head? ≠ some ','.toUInt8 ∧
        ∀ msg ∈ msgs, msg.address.bytes.head? ≠ some '#'.toUInt8))

/-- The lines of the elements of a bundle. -/
def elementsText (P : Platform) (msgs : List OscMessage) : List UInt8 :=
  match P.order with
  | .little => []
  | .big => (msgs.map fun msg => untypedText 1 msg.address).flatten

/-- The lines of a packet in a process where `k_bundle` points to `kBundle`. -/
def text (P : Platform) (kBundle : CString) : WriterPacket → List UInt8
  | .message msg => untypedText 0 msg.address
  | .bundle _ msgs =>
      if kBundle ≠ bundleLiteral then untypedText 0 CString.empty
      else if msgs = [] then []
      else endLine (literal "#bundle (timetag=xxx,sz=xxx)") ++ elementsText P msgs

end WriterPacket

section Dump

variable {Q : Platform} {F : FloatText} {base : Int} {m : Memory} {br : OscBundleReader} {p : Int}

/-- A number of less than two bytes, with its four bytes in reverse, is not the length of a
record of less than two bytes. -/
theorem not_isRecordLength_byteSwap {n : Nat} {room : Int} (hn : n < 65536) (hroom : room < 65536) :
    ¬ IsRecordLength room (wrap32 (byteSwap 4 n)) := by
  have hhigh : n / 256 / 256 = 0 := Nat.div_eq_of_lt (by omega)
  have hswap : byteSwap 4 n = n / 256 % 256 * 65536 + n % 256 * 16777216 := by
    simp only [byteSwap, bigEndian, littleEndian, ofLittleEndian, List.reverse_cons,
      List.reverse_nil, List.nil_append, List.cons_append, UInt8.toNat_ofNat', hhigh]
    omega
  rintro ⟨hfour, -, hle⟩
  rw [hswap] at hfour hle
  unfold wrap32 at hfour hle
  omega

/-- On a little-endian host, no element of a bundle is printed. -/
theorem dumpElements_little (hlittle : P.order = .little) {msgs : List OscMessage}
    (hat : At m p (frames P msgs)) (hptr : br.msgPtr = p)
    (hend : br.bundleEnd = p + (frames P msgs).length) (hshort : (frames P msgs).length < 65536)
    (fuel : Nat) (mr : OscMsgReader) (locals : Locals) :
    UdpDump.dumpElements Q F m base locals (fuel + 1) mr br 0 = some [] := by
  have hnonneg := hat.nonneg
  have hinside := hat.le_length
  rw [UdpDump.dumpElements]
  cases msgs with
  | nil =>
      have hnil : (frames P []).length = 0 := rfl
      rw [oscBundleReaderNext_end (by omega)]
      rfl
  | cons msg msgs =>
      have hlength : (frames P (msg :: msgs)).length =
          4 + (msg.bytes P).length + (frames P msgs).length := by
        rw [frames_cons, List.length_append, length_frame]
      obtain ⟨before, behind, rfl, hstart⟩ := hat
      have hdrop : (before ++ (frames P (msg :: msgs) ++ behind)).drop br.msgPtr.toNat =
          msg.frame P ++ (frames P msgs ++ behind) := by
        rw [hptr, hstart, Int.toNat_natCast, List.drop_left, frames_cons, List.append_assoc]
      have hfield : AtField (before ++ (frames P (msg :: msgs) ++ behind)) br
          (wrap32 (byteSwap 4 (msg.bytes P).length)) := by
        refine ⟨by omega, by omega, by omega, by omega, ?_⟩
        rw [hdrop, int32Field_frame hlittle]
      rw [hfield.next_of_not_record (not_isRecordLength_byteSwap (by omega) (by omega))]
      rfl

/-- On a big-endian host, the elements of a bundle are printed as their addresses. -/
theorem dumpElements_big (hbig : P.order = .big) {msgs : List OscMessage}
    (hplain : ∀ msg ∈ msgs, msg.address.bytes.head? ≠ some '#'.toUInt8)
    (hat : At m p (frames P msgs)) (hptr : br.msgPtr = p)
    (hend : br.bundleEnd = p + (frames P msgs).length)
    (hshort : (frames P msgs).length < 2147483648) {fuel : Nat}
    (hfuel : (frames P msgs).length < fuel) (mr : OscMsgReader) (locals : Locals) :
    UdpDump.dumpElements Q F m base locals fuel mr br 0 =
      some (msgs.map fun msg => untypedText 1 msg.address).flatten := by
  induction msgs generalizing p br fuel mr with
  | nil =>
      obtain ⟨fuel, rfl⟩ : ∃ k, fuel = k + 1 := ⟨fuel - 1, by omega⟩
      have hnil : (frames P []).length = 0 := rfl
      rw [UdpDump.dumpElements, oscBundleReaderNext_end (by omega)]
      rfl
  | cons msg msgs ih =>
      obtain ⟨fuel, rfl⟩ : ∃ k, fuel = k + 1 := ⟨fuel - 1, by omega⟩
      obtain ⟨n, hn⟩ : ∃ n, (msg.bytes P).length = n := ⟨_, rfl⟩
      have hfour := msg.four_le_length_bytes (P := P)
      have hmod := msg.length_bytes_mod (P := P)
      have hnonneg := hat.nonneg
      have hinside := hat.le_length
      rw [frames_cons, List.length_append, length_frame, hn] at hend hshort hfuel hinside
      rw [frames_cons] at hat
      have hframe : At m p (bigEndian 4 n ++ msg.bytes P) := by
        have hleft := hat.left
        rw [OscMessage.frame, hbig, hn] at hleft
        exact hleft
      have hbytes : At m (p + 4) (msg.bytes P) := by
        have hright := hframe.right
        rwa [length_bigEndian] at hright
      have hfield : AtField m br n :=
        UdpDump.atField_of_at hframe hptr (by omega) (by omega) (by omega)
      obtain ⟨b, hb, hnext⟩ := hfield.next_of_record (P := Q) ⟨by omega, by omega, by omega⟩
      obtain ⟨b', hb', hnumber⟩ := loadByte_bytes (hplain msg List.mem_cons_self) hbytes
      have hsame : b = b' := by
        rw [hptr] at hb
        exact Option.some.inj (hb.symm.trans hb')
      rw [hptr, hsame, if_neg hnumber] at hnext
      obtain ⟨reader, hinit, htext⟩ := dumpOscMessage_bytes Q F base hbytes (by omega) mr
      rw [hn] at hinit
      have hfirst := UdpDump.dumpElements_of_message hnext hinit (htext locals (0 + 1) fuel)
      have hrest := hat.right
      rw [length_frame, hn] at hrest
      have hbehind := @ih { br with msgPtr := p + 4 + n } (p + (4 + n : Nat))
        (fun msg hmsg => hplain msg (List.mem_cons_of_mem _ hmsg)) hrest (by simp only; omega)
        (by simp only; omega) (by omega) fuel (by omega) reader
      rw [hfirst, hbehind, List.map_cons, List.flatten_cons]
      rfl

theorem dumpOscPacket_message {msg : OscMessage}
    (hplain : msg.address.bytes.head? ≠ some '#'.toUInt8) (hat : At m 0 (msg.bytes P))
    (hshort : (msg.bytes P).length < 2147483648) {fuel : Nat} (hfuel : 0 < fuel)
    (locals : Locals) :
    UdpDump.dumpOscPacket Q F m base locals fuel 0 (msg.bytes P).length 0 =
      some (untypedText 0 msg.address) := by
  obtain ⟨fuel, rfl⟩ : ∃ k, fuel = k + 1 := ⟨fuel - 1, by omega⟩
  have hmod := msg.length_bytes_mod (P := P)
  have hfour := msg.four_le_length_bytes (P := P)
  obtain ⟨b, hb, hnumber⟩ := loadByte_bytes hplain hat
  obtain ⟨reader, hinit, htext⟩ := dumpOscMessage_bytes Q F base hat hshort locals.mr
  have htype : oscPacketGetType m 0 (msg.bytes P).length = some oscMessage := by
    rw [oscPacketGetType, if_neg (by omega), hb, Option.bind_eq_bind, Option.bind_some,
      if_neg hnumber]
  exact UdpDump.dumpOscPacket_of_message htype hinit (htext locals 0 fuel)

/-- The first bundle of a process. -/
theorem dumpOscPacket_first {timetag : UInt64} {msgs : List OscMessage}
    (hplain : ∀ msg ∈ msgs, msg.address.bytes.head? ≠ some '#'.toUInt8)
    (hat : At m 0 (bundleHeader bundleLiteral timetag ++ frames P msgs))
    (hshort : (bundleHeader bundleLiteral timetag ++ frames P msgs).length < 65536) {fuel : Nat}
    (hfuel : (bundleHeader bundleLiteral timetag ++ frames P msgs).length < fuel)
    (locals : Locals) :
    UdpDump.dumpOscPacket Q F m base locals fuel 0
        (bundleHeader bundleLiteral timetag ++ frames P msgs).length 0 =
      some (WriterPacket.text P bundleLiteral (.bundle timetag msgs)) := by
  obtain ⟨fuel, rfl⟩ : ∃ k, fuel = k + 1 := ⟨fuel - 1, by omega⟩
  have hheader : (bundleHeader bundleLiteral timetag).length = 16 := length_bundleHeader timetag
  have hmod := length_frames_mod (P := P) msgs
  have hframes := hat.right
  have hnumber : loadByte m 0 = some '#'.toUInt8 := hat.left.left.loadByte
  have hliteral : ¬ bundleLiteral ≠ bundleLiteral := not_not.mpr rfl
  rw [hheader] at hframes
  rw [List.length_append, hheader] at hshort hfuel ⊢
  have htype : oscPacketGetType m 0 ((16 + (frames P msgs).length : Nat) : Int) =
      some oscBundle := by
    rw [oscPacketGetType, if_neg (by omega), hnumber, Option.bind_eq_bind, Option.bind_some,
      if_pos rfl]
  rw [WriterPacket.text, if_neg hliteral]
  cases msgs with
  | nil =>
      have hnil : (frames P []).length = 0 := rfl
      exact UdpDump.dumpOscPacket_of_short htype (by omega)
  | cons msg msgs =>
      have hfour := msg.four_le_length_bytes (P := P)
      have hlength : (frames P (msg :: msgs)).length =
          4 + (msg.bytes P).length + (frames P msgs).length := by
        rw [frames_cons, List.length_append, length_frame]
      obtain ⟨n, hn⟩ : ∃ n, (frames P (msg :: msgs)).length = n := ⟨_, rfl⟩
      rw [hn] at hshort hfuel hlength htype ⊢
      have helements : UdpDump.dumpElements Q F m base locals fuel locals.mr
          ⟨0, 0 + ((16 + n : Nat) : Int), 0 + 16⟩ 0 =
            some (WriterPacket.elementsText P (msg :: msgs)) := by
        unfold WriterPacket.elementsText
        split
        · next horder =>
            obtain ⟨fuel, rfl⟩ : ∃ k, fuel = k + 1 := ⟨fuel - 1, by omega⟩
            exact dumpElements_little horder hframes rfl (by rw [hn]; simp only; omega)
              (by omega) fuel locals.mr locals
        · next horder =>
            exact dumpElements_big horder hplain hframes rfl (by rw [hn]; simp only; omega)
              (by omega) (by omega) locals.mr locals
      rw [if_neg (List.cons_ne_nil msg msgs)]
      exact UdpDump.dumpOscPacket_of_bundle htype (by omega) helements

/-- A bundle of a process that has started one before. -/
theorem dumpOscPacket_later {timetag : UInt64} {bs : List UInt8}
    (hplain : (bigEndian 8 timetag.toNat).head? ≠ some ','.toUInt8)
    (hat : At m 0 (bundleHeader CString.empty timetag ++ bs)) (hmod : bs.length % 4 = 0)
    {fuel : Nat} (hfuel : 0 < fuel) (locals : Locals) :
    UdpDump.dumpOscPacket Q F m base locals fuel 0
        (bundleHeader CString.empty timetag ++ bs).length 0 =
      some (untypedText 0 CString.empty) := by
  obtain ⟨fuel, rfl⟩ : ∃ k, fuel = k + 1 := ⟨fuel - 1, by omega⟩
  have hheader : (bundleHeader CString.empty timetag).length = 12 := length_bundleHeader timetag
  have haddress : At m 0 (padString CString.empty.bytes) := hat.left.left
  have hzero : loadByte m 0 = some 0 := haddress.loadByte
  obtain ⟨b, rest, htag⟩ : ∃ b rest, bigEndian 8 timetag.toNat = b :: rest := by
    apply List.exists_cons_of_ne_nil
    apply List.ne_nil_of_length_pos
    rw [length_bigEndian]
    decide
  have hcomma : b ≠ ','.toUInt8 := by
    rintro rfl
    rw [htag] at hplain
    exact hplain rfl
  have hbyte : loadByte m (0 + 4) = some b := by
    have htime : At m (0 + 4) (bigEndian 8 timetag.toNat) := hat.left.right
    rw [htag] at htime
    exact htime.loadByte
  have hsize : AddressSize m 0 0 4 :=
    ⟨haddress.strlen List.not_mem_nil, by decide, by decide⟩
  have hlength : (bundleHeader CString.empty timetag ++ bs).length = 12 + bs.length := by
    rw [List.length_append, hheader]
  obtain ⟨n, hn⟩ : ∃ n, (bundleHeader CString.empty timetag ++ bs).length = n := ⟨_, rfl⟩
  rw [hn] at hlength ⊢
  have hinit := @AddressSize.init_of_untyped m locals.mr 0 n 4 0 b hsize (by omega) hbyte hcomma
  have hnumber : (0 : UInt8) ≠ '#'.toUInt8 := by decide
  have htext := @dumpOscMessage_untyped Q F base m 0 CString.empty
    ⟨0, 0 + n, none, some (0 + 4)⟩ rfl rfl haddress locals 0 fuel
  have htype : oscPacketGetType m 0 n = some oscMessage := by
    rw [oscPacketGetType, if_neg (by omega), hzero, Option.bind_eq_bind, Option.bind_some,
      if_neg hnumber]
  exact UdpDump.dumpOscPacket_of_message htype hinit htext

/-- The bytes of a packet are printed as its text. -/
theorem dumpOscPacket_text {packet : WriterPacket} {kBundle : CString} (hplain : packet.Plain)
    (hkBundle : kBundle = bundleLiteral ∨ kBundle = CString.empty)
    (hat : At m 0 (packet.bytes P kBundle)) (hshort : (packet.bytes P kBundle).length < 65536)
    {fuel : Nat} (hfuel : (packet.bytes P kBundle).length < fuel) (locals : Locals) :
    UdpDump.dumpOscPacket Q F m base locals fuel 0 (packet.bytes P kBundle).length 0 =
      some (packet.text P kBundle) := by
  cases packet with
  | message msg =>
      simp only [WriterPacket.bytes] at hat hshort ⊢
      exact dumpOscPacket_message hplain hat (by omega) (by omega) locals
  | bundle timetag msgs =>
      obtain ⟨htimetag, haddress⟩ := hplain
      simp only [WriterPacket.bytes] at hat hshort hfuel ⊢
      rcases hkBundle with rfl | rfl
      · exact dumpOscPacket_first haddress hat hshort hfuel locals
      · have hlater : CString.empty ≠ bundleLiteral := by decide
        rw [WriterPacket.text, if_pos hlater]
        exact dumpOscPacket_later htimetag hat (length_frames_mod msgs) (by omega) locals

end Dump

/-! ## A process that sends packets -/

/-- The datagrams of the packets that a process sends from when `k_bundle` points to `kBundle`.
Each packet is written with a fresh writer. -/
inductive Session (P : Platform) : CString → List (WriterPacket × List UInt8) → Prop where
  | done {kBundle : CString} : Session P kBundle []
  | send {kBundle : CString} {packet : WriterPacket} {w : OscWriter} {buffer : Memory}
      {s₀ s : WriterState} {rest : List (WriterPacket × List UInt8)}
      (hlen : buffer.length < 2147483648) (hinit : freshWriter w buffer kBundle = some s₀)
      (hwrite : packet.write P s₀ = some s) (hrest : Session P s.kBundle rest) :
      Session P kBundle ((packet, s.mem.take s.pos.toNat) :: rest)

/-- The lines of the packets. -/
def sessionText (P : Platform) : CString → List WriterPacket → List UInt8
  | _, [] => []
  | kBundle, packet :: packets =>
      packet.text P kBundle ++ sessionText P (packet.after kBundle) packets

theorem Session.head {kBundle : CString} {packet : WriterPacket} {datagram : List UInt8}
    {rest : List (WriterPacket × List UInt8)}
    (h : Session P kBundle ((packet, datagram) :: rest)) :
    datagram = packet.bytes P kBundle ∧ Session P (packet.after kBundle) rest := by
  cases h with
  | send hlen hinit hwrite hrest =>
      obtain ⟨-, hpos, -, hstate, hk, -⟩ := freshWriter_eq hinit
      obtain ⟨hbytes, hafter⟩ :=
        WriterPacket.take_eq (inside_freshWriter hlen hinit) hstate hpos hwrite
      rw [hk] at hbytes hafter
      rw [hafter] at hrest
      exact ⟨hbytes, hrest⟩

/-- The packets that a process sends from some moment on are printed as their lines. -/
theorem receiveLoop_session {Q : Platform} {F : FloatText} {base : Int} {fuel : Nat}
    {kBundle : CString} {sent : List (WriterPacket × List UInt8 × Locals)} {buffer : Memory}
    (hkBundle : kBundle = bundleLiteral ∨ kBundle = CString.empty)
    (hbuffer : ReceiveBuffer base buffer)
    (hsent : Session P kBundle (sent.map fun s => (s.1, s.2.1)))
    (hshort : ∀ s ∈ sent, s.2.1.length < bufferSize) (hplain : ∀ s ∈ sent, s.1.Plain)
    (hfuel : bufferSize ≤ fuel) :
    receiveLoop Q F base fuel (sent.map fun s => ⟨some s.2.1, s.2.2⟩) buffer =
      some (sessionText P kBundle (sent.map Prod.fst)) := by
  induction sent generalizing kBundle buffer with
  | nil => rfl
  | cons s sent ih =>
      obtain ⟨hbytes, hrest⟩ := hsent.head
      have hlt : (s.1.bytes P kBundle).length < bufferSize := by
        rw [← hbytes]
        exact hshort s List.mem_cons_self
      have hafter : s.1.after kBundle = bundleLiteral ∨ s.1.after kBundle = CString.empty := by
        cases s.1 with
        | message msg => exact hkBundle
        | bundle timetag msgs => exact Or.inr rfl
      obtain ⟨buffer', hbuffer', hcons⟩ := hbuffer.receiveLoop_cons (P := Q) (F := F) s.2.2
        hlt (fun m _ hat => dumpOscPacket_text (hplain s List.mem_cons_self) hkBundle hat
          (by rw [bufferSize] at hlt; omega) (Nat.lt_of_lt_of_le hlt hfuel) s.2.2)
        (sent.map fun s => ⟨some s.2.1, s.2.2⟩)
      rw [List.map_cons, hbytes, hcons, ih hafter hbuffer' hrest
        (fun s hs => hshort s (List.mem_cons_of_mem _ hs))
        fun s hs => hplain s (List.mem_cons_of_mem _ hs)]
      rfl

/-- Whatever packets a process writes and sends, in whatever order, `udp_dump` prints the
addresses of its messages and none of their arguments; of its first bundle it prints the
first line, and the addresses of its messages where the host is big-endian; and it takes every
later bundle for a message with an empty address. -/
theorem packets_printed (P Q : Platform) (F : FloatText) (base : Int) (fuel : Nat)
    (sent : List (WriterPacket × List UInt8 × Locals)) (buffer : Memory)
    (hbuffer : ReceiveBuffer base buffer)
    (hsent : Session P bundleLiteral (sent.map fun s => (s.1, s.2.1)))
    (hshort : ∀ s ∈ sent, s.2.1.length < bufferSize) (hplain : ∀ s ∈ sent, s.1.Plain)
    (hfuel : bufferSize ≤ fuel) :
    receiveLoop Q F base fuel (sent.map fun s => ⟨some s.2.1, s.2.2⟩) buffer =
      some (sessionText P bundleLiteral (sent.map Prod.fst)) :=
  receiveLoop_session (Or.inl rfl) hbuffer hsent hshort hplain hfuel

/-- A message, and two bundles of it. -/
theorem packets_printed_twice :
    ∃ first second third, Session bigHost bundleLiteral [(.message sevenMessage, first),
        (.bundle 1 [sevenMessage], second), (.bundle 1 [sevenMessage], third)] ∧
      receiveLoop littleHost ⟨fun _ => [], fun _ => []⟩ 4096 bufferSize
          [⟨some first, zeroLocals⟩, ⟨some second, zeroLocals⟩, ⟨some third, zeroLocals⟩]
          (List.replicate bufferSize 0) =
        some (literal "/a\n  (message has no type tag)\n" ++
          literal "#bundle (timetag=xxx,sz=xxx)\n  /a\n    (message has no type tag)\n" ++
          literal "\n  (message has no type tag)\n") := by
  have hsent : ∃ first second third, Session bigHost bundleLiteral
      [(.message sevenMessage, first), (.bundle 1 [sevenMessage], second),
        (.bundle 1 [sevenMessage], third)] :=
    ⟨_, _, _, @Session.send _ _ _ zeroWriter (List.replicate 32 0) _ _ _ (by decide) rfl rfl
      (@Session.send _ _ _ zeroWriter (List.replicate 32 0) _ _ _ (by decide) rfl rfl
        (@Session.send _ _ _ zeroWriter (List.replicate 32 0) _ _ _ (by decide) rfl rfl .done))⟩
  obtain ⟨first, second, third, hsent⟩ := hsent
  obtain ⟨hfirst, hrest⟩ := hsent.head
  obtain ⟨hsecond, hrest⟩ := hrest.head
  obtain ⟨hthird, -⟩ := hrest.head
  refine ⟨first, second, third, hsent, ?_⟩
  have hprinted := packets_printed bigHost littleHost ⟨fun _ => [], fun _ => []⟩ 4096 bufferSize
    [(.message sevenMessage, first, zeroLocals), (.bundle 1 [sevenMessage], second, zeroLocals),
      (.bundle 1 [sevenMessage], third, zeroLocals)] (List.replicate bufferSize 0)
    (ReceiveBuffer.fresh (by decide) (by decide)) hsent ?_ ?_ (le_refl _)
  · exact hprinted
  · subst hfirst hsecond hthird
    decide
  · simp only [List.forall_mem_cons]
    exact ⟨by decide, by decide, by decide, List.forall_mem_nil _⟩

end LittleOscar.Interop
