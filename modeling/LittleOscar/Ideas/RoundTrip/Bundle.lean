import LittleOscar.Ideas.Reader.Packet
import LittleOscar.Ideas.RoundTrip.Message
import LittleOscar.Ideas.Writer.Bundle

/-!
# A bundle from `osc_bundle_start` to the reader

`osc_reader_init` is meant to bring every length field of a bundle into host order. Its
loop adds the length of a message and not the four bytes of the next length to its
pointer, so from the second hop on it takes the last word of a message for a length.
A bundle of one message comes back, apart from its timetag, which the reader does not
convert. A longer one can only come back if the last word of its first message leads
the loop to another place of the packet.
-/

namespace LittleOscar.Ideas

open Machine

variable (P : Platform) (demote : UInt64 → UInt32)

/-- `osc_bundle_write` calls that all return 1, with the pointers that `osc_writev` was
called with. -/
def writeMessages : List MessageCall → OscBundle → Memory →
    Option (List Int × OscBundle × Memory)
  | [], bundle, m => some ([], bundle, m)
  | message :: messages, bundle, m => do
      let pos ← bundle.bufferPos
      let (ret, bundle, m) ← oscBundleWritev P demote message.address message.format
        message.args bundle m
      if ret = 1 then do
        let (starts, bundle, m) ← writeMessages messages bundle m
        some ((pos + 4) :: starts, bundle, m)
      else none

/-- The same behind an `osc_bundle_start` that returns 1. -/
def writeBundle (when : UInt64) (messages : List MessageCall) (buffer : Object) :
    Option (List Int × OscBundle × Memory) := do
  let (ret, bundle, m) ← oscBundleStart P when (oscBundleInit 0 buffer.bytes.length)
    buffer.bytes
  if ret = 1 then writeMessages P demote messages bundle m else none

/-- The two objects have the same bytes outside the length fields, which lie before the
pointers in `starts`. -/
def SameOutside (starts : List Int) (m m' : Memory) : Prop :=
  ∀ j : Nat, (∀ p ∈ starts, ¬ (p - 4 ≤ j ∧ j < p)) → m'[j]? = m[j]?

/-- The ranges that `osc_writev` wrote. -/
def writtenRanges (starts : List Int) (encoded : List (List UInt8)) : List (Int × Int) :=
  List.zipWith (fun start bs => (start, start + bs.length)) starts encoded

/-- The reader gives back the bundle from the first `len` bytes of `m`. -/
def RoundTrips (reader₀ : OscReader) (when : UInt64) (starts : List Int)
    (encoded : List (List UInt8)) (m : Memory) (len : Nat) : Prop :=
  ∃ fuel reader m' calls,
    oscReaderInit P fuel reader₀ 0 len (m.take len ++ [0]) = some (oscOk, reader, m') ∧
    SameOutside starts (m.take len ++ [0]) m' ∧
    oscReaderIsBundle reader = 1 ∧
    oscReaderGetTimetag P m' reader = some when ∧
    startMsgs P m' (encoded.length + 1) reader = some calls ∧
    calls.map Prod.fst = List.replicate encoded.length oscOk ++ [oscEnd] ∧
    exposed calls = writtenRanges starts encoded

/-- The host reads the timetag as the bytes lie in the packet. -/
def TimetagAgrees (when : UInt64) : Prop := P.order = .big ∨ Palindromic 8 when.toNat

/-- The last word of the message `bs`, as a length in a packet of `len` bytes with the
message at 20: it is not zero, and the loop finds another word behind it. -/
def LeadsInside (bs : List UInt8) (len : Nat) : Prop :=
  int32Field (bs.drop (bs.length - 4)) ≠ 0 ∧
    4 ≤ 20 + bs.length + int32Field (bs.drop (bs.length - 4)) ∧
    20 + bs.length + int32Field (bs.drop (bs.length - 4)) ≤ len

variable {P demote} {m m' : Memory} {bundle bundle' : OscBundle}

/-! ## What the writer leaves -/

/-- `osc_bundle_write` has put the message `bs` behind a length field at `pos`. The length
went through an `int`. -/
structure Appended (m : Memory) (bundle : OscBundle) (pos : Int) (bs : List UInt8)
    (m' : Memory) (bundle' : OscBundle) : Prop where
  fits : pos + 4 + bs.length ≤ m.length
  nonneg : 0 ≤ wrap32 bs.length
  bufferPos : bundle'.bufferPos = some (pos + 4 + wrap32 bs.length)
  bufferEnd : bundle'.bufferEnd = m.length
  len : bundle'.len =
    (bundle.len + sizeT (wrap32 (wrap32 bs.length + 4))) % 18446744073709551616
  mem : m' = overwrite (overwrite m (pos + 4).toNat bs) pos.toNat
    (bigEndian 4 (wrap32 bs.length).toNat)

/-- A call that returns 1, read backwards. -/
theorem oscBundleWritev_eq_some {pos : Int} {message : MessageCall}
    (hpos : bundle.bufferPos = some pos) (hnonneg : 0 ≤ pos)
    (hend : bundle.bufferEnd = m.length) (hlt : m.length < 9223372036854775808)
    (h : oscBundleWritev P demote message.address message.format message.args bundle m =
      some (1, bundle', m')) :
    ∃ bs, Encodes demote message bs ∧ Appended m bundle pos bs m' bundle' := by
  obtain ⟨bs, henc, hfits, hret⟩ := encodes_of_oscBundleWritev hpos hnonneg (by omega) hlt h
  have hcall := oscBundleWritev_of_encodes (P := P) henc hpos hnonneg (by omega) hlt hfits hret
  have heq := Option.some.inj (h.symm.trans hcall)
  have hbundle := congrArg (·.2.1) heq
  simp only at hbundle
  subst hbundle
  exact ⟨bs, henc, by omega, hret, rfl, hend, rfl, congrArg (·.2.2) heq⟩

section Appended

variable {pos : Int} {bs : List UInt8}

theorem Appended.length_eq (h : Appended m bundle pos bs m' bundle') (hnonneg : 0 ≤ pos) :
    m'.length = m.length := by
  have hfits := h.fits
  have hlength : (overwrite m (pos + 4).toNat bs).length = m.length :=
    length_overwrite (by omega)
  rw [h.mem, length_overwrite (by rw [length_bigEndian]; omega), hlength]

theorem Appended.take_eq (h : Appended m bundle pos bs m' bundle') (hnonneg : 0 ≤ pos) :
    m'.take pos.toNat = m.take pos.toNat := by
  have hfits := h.fits
  have hlength : (overwrite m (pos + 4).toNat bs).length = m.length :=
    length_overwrite (by omega)
  rw [h.mem, take_overwrite_of_le (by omega) (le_refl _),
    take_overwrite_of_le (by omega) (by omega)]

end Appended

/-- The first of the calls, and the others. -/
theorem writeMessages_cons_eq_some {message : MessageCall} {messages : List MessageCall}
    {pos : Int} {starts : List Int} (hpos : bundle.bufferPos = some pos)
    (h : writeMessages P demote (message :: messages) bundle m = some (starts, bundle', m')) :
    ∃ bundle₁ m₁ starts₁,
      oscBundleWritev P demote message.address message.format message.args bundle m =
        some (1, bundle₁, m₁) ∧
      writeMessages P demote messages bundle₁ m₁ = some (starts₁, bundle', m') ∧
      starts = (pos + 4) :: starts₁ := by
  simp only [writeMessages, hpos, Option.bind_eq_bind, Option.bind_some,
    Option.bind_eq_some_iff] at h
  obtain ⟨⟨ret, bundle₁, m₁⟩, hcall, h⟩ := h
  split at h
  · next hret =>
      obtain rfl : ret = 1 := hret
      obtain ⟨⟨starts₁, bundle₂, m₂⟩, hrest, h⟩ := Option.bind_eq_some_iff.mp h
      cases h
      exact ⟨bundle₁, m₁, starts₁, hcall, hrest, rfl⟩
  · cases h

/-- The calls write behind the cursor. -/
theorem writeMessages_frame {messages : List MessageCall} {pos : Int} {starts : List Int}
    (hpos : bundle.bufferPos = some pos) (hnonneg : 0 ≤ pos)
    (hend : bundle.bufferEnd = m.length) (hlt : m.length < 9223372036854775808)
    (h : writeMessages P demote messages bundle m = some (starts, bundle', m')) :
    ∃ encoded, List.Forall₂ (Encodes demote) messages encoded ∧
      m'.take pos.toNat = m.take pos.toNat ∧ ∀ p ∈ starts, pos + 4 ≤ p := by
  induction messages generalizing bundle m pos starts with
  | nil =>
      cases h
      exact ⟨[], .nil, rfl, by simp⟩
  | cons message messages ih =>
      obtain ⟨bundle₁, m₁, starts₁, hcall, hrest, rfl⟩ := writeMessages_cons_eq_some hpos h
      obtain ⟨bs, henc, happended⟩ := oscBundleWritev_eq_some hpos hnonneg hend hlt hcall
      have hwrap := happended.nonneg
      have hlength := happended.length_eq hnonneg
      obtain ⟨encoded, hencoded, htake, hstarts⟩ := ih happended.bufferPos (by omega)
        (happended.bufferEnd.trans (by rw [hlength])) (by omega) hrest
      have hsame := congrArg (List.take pos.toNat) htake
      rw [List.take_take, List.take_take, Nat.min_eq_left (by omega),
        happended.take_eq hnonneg] at hsame
      refine ⟨bs :: encoded, .cons henc hencoded, hsame, ?_⟩
      intro p hp
      rcases List.mem_cons.mp hp with rfl | hmem
      · omega
      · have hle := hstarts p hmem
        omega

/-- A packet that begins with the record of the message `bs`. Its length went through an
`int`. -/
structure BeginsWith (when : UInt64) (bs : List UInt8) (m : Memory) : Prop where
  header : At m 0 (encodeBundle when [])
  length : At m 16 (bigEndian 4 (wrap32 bs.length).toNat)
  message : wrap32 bs.length = bs.length → At m 20 bs

/-- What is written behind the first record leaves it. -/
theorem beginsWith_of_take_eq {when : UInt64} {bs : List UInt8} {buffer : Memory}
    (hfits : 20 + bs.length ≤ buffer.length) (hwrap : 0 ≤ wrap32 bs.length)
    (htake : m.take (20 + wrap32 bs.length).toNat =
      (overwrite (overwrite (overwrite buffer 0 (encodeBundle when [])) 20 bs) 16
        (bigEndian 4 (wrap32 bs.length).toNat)).take (20 + wrap32 bs.length).toNat) :
    BeginsWith when bs m := by
  have hheader := length_encodeBundle_nil when
  have hfour := length_bigEndian 4 (wrap32 bs.length).toNat
  let started := overwrite buffer 0 (encodeBundle when [])
  have hlength : started.length = buffer.length := length_overwrite (by omega)
  have hrecord : overwrite (overwrite started 20 bs) 16 (bigEndian 4 (wrap32 bs.length).toNat) =
      overwrite started 16 (bigEndian 4 (wrap32 bs.length).toNat ++ bs) := by
    have hprepend : overwrite (overwrite started
          (16 + (bigEndian 4 (wrap32 bs.length).toNat).length) bs) 16
          (bigEndian 4 (wrap32 bs.length).toNat) =
        overwrite started 16 (bigEndian 4 (wrap32 bs.length).toNat ++ bs) :=
      overwrite_prepend (by rw [hfour]; omega) bs
    rwa [hfour] at hprepend
  have hstarted : At started (0 : Nat) (encodeBundle when []) := at_overwrite (by omega)
  have hat : At (overwrite started 16 (bigEndian 4 (wrap32 bs.length).toNat ++ bs)) (16 : Nat)
      (bigEndian 4 (wrap32 bs.length).toNat ++ bs) :=
    at_overwrite (by rw [List.length_append, hfour, hlength]; omega)
  have hbefore : (overwrite started 16 (bigEndian 4 (wrap32 bs.length).toNat ++ bs)).take 16 =
      started.take 16 := take_overwrite_of_le (by omega) (le_refl _) _
  change m.take _ = (overwrite (overwrite started 20 bs) 16 _).take _ at htake
  rw [hrecord] at htake
  refine ⟨?_, ?_, ?_⟩
  · exact (hstarted.of_take_eq (by omega) hbefore).of_take_eq (by omega) htake
  · exact hat.left.of_take_eq (by rw [hfour]; omega) htake
  · intro hsame
    have hmessage := hat.right
    rw [hfour] at hmessage
    exact hmessage.of_take_eq (by omega) htake

/-- A bundle that could be written, read backwards. -/
theorem writeBundle_eq_some {when : UInt64} {first : MessageCall} {messages : List MessageCall}
    {buffer : Object} {starts : List Int}
    (h : writeBundle P demote when (first :: messages) buffer = some (starts, bundle, m)) :
    ∃ bs encoded starts', Encodes demote first bs ∧
      List.Forall₂ (Encodes demote) messages encoded ∧ BeginsWith when bs m ∧
      starts = 20 :: starts' ∧ (∀ p ∈ starts', 20 ≤ p) ∧
      (messages = [] → starts' = [] ∧
        bundle.len = (16 + sizeT (wrap32 (wrap32 bs.length + 4))) % 18446744073709551616) := by
  have hlt := buffer.length_lt
  have hend₀ : (oscBundleInit 0 buffer.bytes.length).bufferEnd = buffer.bytes.length :=
    Int.zero_add _
  simp only [writeBundle, Option.bind_eq_bind, Option.bind_eq_some_iff] at h
  obtain ⟨⟨ret, bundle₀, m₀⟩, hstart, h⟩ := h
  split at h
  · next hret =>
      obtain rfl : ret = 1 := hret
      have hroom := le_length_of_oscBundleStart rfl hend₀ hlt hstart
      cases hstart.symm.trans (oscBundleStart_eq when rfl hend₀ hlt hroom)
      have hheader := length_encodeBundle_nil when
      have hlength₀ : (overwrite buffer.bytes 0 (encodeBundle when [])).length =
          buffer.bytes.length := length_overwrite (by omega)
      change writeMessages P demote (first :: messages) _
        (overwrite buffer.bytes 0 (encodeBundle when [])) = _ at h
      obtain ⟨bundle₁, m₁, starts', hcall, hrest, rfl⟩ := writeMessages_cons_eq_some rfl h
      obtain ⟨bs, henc, happended⟩ := oscBundleWritev_eq_some rfl (by decide)
        (by rw [hlength₀]; exact hend₀) (by omega) hcall
      have hfits := happended.fits
      have hwrap := happended.nonneg
      have hlength := happended.length_eq (by decide)
      obtain ⟨encoded, hencoded, htake, hstarts⟩ := writeMessages_frame happended.bufferPos
        (by omega) (happended.bufferEnd.trans (by rw [hlength])) (by omega) hrest
      rw [happended.mem] at htake
      refine ⟨bs, encoded, starts', henc, hencoded,
        beginsWith_of_take_eq (by omega) hwrap htake, rfl, ?_, ?_⟩
      · intro p hp
        have hle := hstarts p hp
        omega
      · rintro rfl
        cases hrest
        exact ⟨rfl, happended.len⟩
  · cases h

/-! ## What the reader finds -/

/-- The first of the calls exposes the message behind the first length. -/
theorem startMsgs_first {n len : Nat} {calls : List (Int × OscReader)} {rets : List Int}
    {size : Int} {ranges : List (Int × Int)}
    (h : startMsgs P m (n + 1) (bundleReader len) = some calls)
    (hrets : calls.map Prod.fst = oscOk :: rets)
    (hexposed : exposed calls = (20, 20 + size) :: ranges) :
    hostLength P m 20 = some size ∧ ∃ reader calls', reader.isBundle ≠ 0 ∧
      reader.bufferEnd = (len : Int) ∧ reader.msgPtr = some 20 ∧ reader.msgEnd = some (20 + size) ∧
      startMsgs P m n reader = some calls' ∧ calls'.map Prod.fst = rets := by
  simp only [startMsgs, Option.bind_eq_bind, Option.bind_eq_some_iff] at h
  obtain ⟨⟨ret, reader⟩, hcall, calls', hcalls, h⟩ := h
  cases h
  obtain ⟨hret, hrets'⟩ := List.cons.inj hrets
  have hbundle : (bundleReader len).isBundle ≠ 0 := Int.one_ne_zero
  rw [oscReaderStartMsg, nextRange, if_pos hbundle] at hcall
  simp only [bundleReader, Int.zero_add, Option.bind_eq_bind, Option.bind_eq_some_iff] at hcall
  obtain ⟨reader₁, ⟨size', hsize, hreader₁⟩, hcall⟩ := hcall
  cases hreader₁
  obtain ⟨-, typePtr, argPtr, rfl⟩ := startParts_frame hcall
  have hhead : (20, 20 + size') :: exposed calls' = (20, 20 + size) :: ranges := by
    rw [← hexposed]
    simp only at hret
    rw [hret]
    rfl
  have hend := (Prod.mk.inj (List.cons.inj hhead).1).2
  obtain rfl : size' = size := by omega
  exact ⟨hsize, _, calls', Int.one_ne_zero, rfl, rfl, rfl, hcalls, hrets'⟩

theorem hostLength_lt {p size : Int} (h : hostLength P m p = some size) : size < 2147483648 := by
  obtain ⟨raw, -, rfl⟩ := Option.map_eq_some_iff.mp h
  exact Int32.toInt_lt _

theorem getTimetag_iff {when : UInt64} {len : Nat} (hat : At m 8 (bigEndian 8 when.toNat)) :
    oscReaderGetTimetag P m (bundleReader len) = some when ↔ TimetagAgrees P when := by
  have hbundle : (bundleReader len).isBundle ≠ 0 := Int.one_ne_zero
  have hbuffer : (bundleReader len).buffer + 8 = 8 := rfl
  have hload := loadNative_at (P := P) hat
  rw [length_bigEndian] at hload
  rw [oscReaderGetTimetag, if_pos hbundle, hbuffer, hload, Option.map_some, Option.some.injEq,
    ofNat_ofNative_bigEndian, TimetagAgrees]

theorem SameOutside.take_eq {starts : List Int} (h : SameOutside starts m m')
    (hstarts : ∀ p ∈ starts, 20 ≤ p) : m'.take 16 = m.take 16 := by
  apply List.ext_getElem?
  intro j
  rw [List.getElem?_take, List.getElem?_take]
  split
  · next hlt =>
      apply h
      rintro p hp ⟨hle, -⟩
      have hstart := hstarts p hp
      omega
  · rfl

/-! ## One message -/

/-- A bundle whose first length spans the rest of it is accepted. -/
theorem oscReaderInit_whole {packet : Memory} {len : Nat} (reader₀ : OscReader)
    (hname : At packet 0 (bundleName ++ [0])) (hat : At packet 16 (bigEndian 4 len))
    (hpos : 0 < len) (hlt : len < 2147483648) :
    oscReaderInit P 2 reader₀ 0 (20 + len) packet =
      some (oscOk, bundleReader (20 + len), overwrite packet 16 (native P.order 4 len)) := by
  have hstrcmp := strcmpEq_of_at (s := bundleName) (by decide) (by decide) hname
  have hend : (0 : Int) + 20 + len = 0 + (20 + len : Nat) := by omega
  have hwalk : initWalk P (0 + (20 + len : Nat)) 2 packet (0 + 20) =
      some (overwrite packet 16 (native P.order 4 len), 0 + 20 + (len : Int)) := by
    rw [initWalk_length hat hlt (by omega), initWalk, if_neg (by omega)]
    rfl
  simp only [oscReaderInit, Option.bind_eq_bind, hstrcmp, Option.bind_some, decide_true, if_true,
    hwalk]
  rw [if_neg (by omega), bundleReader, Int.zero_add]

/-- The timetag and the length of the packet that the reader is given. -/
theorem BeginsWith.packet {when : UInt64} {bs : List UInt8} {len : Nat}
    (h : BeginsWith when bs m) (hlt : bs.length < 2147483648) (hlen : 20 + bs.length ≤ len) :
    At (m.take len ++ [0]) 0 (bundleName ++ [0]) ∧
      At (m.take len ++ [0]) 8 (bigEndian 8 when.toNat) ∧
      At (m.take len ++ [0]) 16 (bigEndian 4 bs.length) ∧ At (m.take len ++ [0]) 20 bs := by
  have hwrap : wrap32 bs.length = bs.length := wrap32_of_range (by omega) (by omega)
  have hheader := length_encodeBundle_nil when
  have hfour := length_bigEndian 4 bs.length
  have hlength := h.length
  rw [hwrap, Int.toNat_natCast] at hlength
  have hat := h.header.take (n := len) (by omega) [0]
  exact ⟨hat.left.left, hat.left.right, hlength.take (by omega) [0],
    (h.message hwrap).take (by omega) [0]⟩

/-- The calls on a bundle whose first length spans the rest of it. -/
theorem startMsgs_whole {address : CString} {as : List OscArgument}
    (hlen : hostLength P m 20 = some ((encodeMessage address as).length : Int))
    (hat : At m 20 (encodeMessage address as))
    (hlt : (encodeMessage address as).length < 9223372036854775808) :
    ∃ reader, startMsgs P m 2 (bundleReader (20 + (encodeMessage address as).length)) =
        some [(oscOk, reader), (oscEnd, { reader with msgPtr := none })] ∧
      reader.msgPtr = some 20 ∧
      reader.msgEnd = some (20 + ((encodeMessage address as).length : Int)) := by
  have hnext := nextRange_whole hlen
  have hparts := startParts_encodeMessage
    { bundleReader (20 + (encodeMessage address as).length) with
      msgPtr := some 20
      msgEnd := some ((20 + (encodeMessage address as).length : Nat) : Int) } hat hlt
  have hfirst : oscReaderStartMsg P m (bundleReader (20 + (encodeMessage address as).length)) =
      some (oscOk, { bundleReader (20 + (encodeMessage address as).length) with
        msgPtr := some 20
        msgEnd := some ((20 + (encodeMessage address as).length : Nat) : Int)
        typePtr := some (20 + paddedSize address.bytes.length + 1)
        argPtr := some (20 + paddedSize address.bytes.length +
          paddedSize (tagString as).length) }) := by
    rw [oscReaderStartMsg, hnext]
    exact hparts
  generalize hreader : ({ bundleReader (20 + (encodeMessage address as).length) with
    msgPtr := some 20
    msgEnd := some ((20 + (encodeMessage address as).length : Nat) : Int)
    typePtr := some (20 + paddedSize address.bytes.length + 1)
    argPtr := some (20 + paddedSize address.bytes.length +
      paddedSize (tagString as).length) } : OscReader) = reader at hfirst
  have hlast : reader.msgEnd = some reader.bufferEnd := by
    rw [← hreader]
    rfl
  refine ⟨reader, ?_, by rw [← hreader], by rw [← hreader]; rfl⟩
  simp only [startMsgs, hfirst, Option.bind_eq_bind, Option.bind_some, startMsg_last hlast]

/-- A bundle of one message comes back. -/
theorem roundTrips_single {when : UInt64} {bs : List UInt8} {message : MessageCall}
    (reader₀ : OscReader) (henc : Encodes demote message bs) (hbegins : BeginsWith when bs m)
    (htime : TimetagAgrees P when) (hsmall : 4 + bs.length < 2147483648) :
    RoundTrips P reader₀ when [20] [bs] m (20 + bs.length) := by
  obtain ⟨hname, htimetag, hlength, hmessage⟩ := hbegins.packet (by omega) (le_refl _)
  rw [RoundTrips]
  generalize m.take (20 + bs.length) ++ [0] = packet at *
  have hsize := hmessage.le_length
  have hfour : (native P.order 4 bs.length).length = 4 := length_native _ 4 _
  have hword : At (overwrite packet 16 (native P.order 4 bs.length)) (16 : Nat)
      (native P.order 4 bs.length) := at_overwrite (by omega)
  have hhost : hostLength P (overwrite packet 16 (native P.order 4 bs.length)) 20 =
      some (bs.length : Int) := hostLength_native hword (by omega)
  have hmessage' : At (overwrite packet 16 (native P.order 4 bs.length)) 20 bs :=
    hmessage.overwrite_of_le (by rw [hfour]; decide)
  have htimetag' : At (overwrite packet 16 (native P.order 4 bs.length)) 8
      (bigEndian 8 when.toNat) :=
    htimetag.of_take_eq (n := 16) (show (8 : Int) + (8 : Nat) ≤ (16 : Nat) by decide)
      (take_overwrite_of_le (by omega) (le_refl 16) _)
  obtain ⟨as, -, -, rfl⟩ := henc
  have hpos : 0 < (encodeMessage message.address as).length := by
    have hpadded := four_le_paddedSize message.address.bytes.length
    rw [length_encodeMessage]
    omega
  obtain ⟨reader, hcalls, hptr, hmsgEnd⟩ := startMsgs_whole hhost hmessage' (by omega)
  refine ⟨2, _, _, _, oscReaderInit_whole reader₀ hname hlength hpos (by omega), ?_, rfl,
    (getTimetag_iff htimetag').mpr htime, hcalls, rfl, ?_⟩
  · intro j hj
    have hout := hj 20 List.mem_cons_self
    by_cases hlt : j < 16
    · rw [getElem?_overwrite_of_lt (by omega) hlt]
    · rw [getElem?_overwrite_of_le (by omega) (by omega)]
  · simp [exposed, hptr, hmsgEnd, writtenRanges]

/-! ## What a round trip needs -/

/-- The loop ends with the packet, the timetag is the host's, and the first length leads to
the end of the packet if there is one message, and before it if there are more. -/
theorem RoundTrips.first {reader₀ : OscReader} {when : UInt64} {starts : List Int}
    {bs : List UInt8} {encoded : List (List UInt8)} {len : Nat}
    (h : RoundTrips P reader₀ when (20 :: starts) (bs :: encoded) m len) :
    ∃ fuel m', SameOutside (20 :: starts) (m.take len ++ [0]) m' ∧
      initWalk P len fuel (m.take len ++ [0]) 20 = some (m', (len : Int)) ∧
      oscReaderGetTimetag P m' (bundleReader len) = some when ∧
      bs.length < 2147483648 ∧ (encoded = [] → 20 + bs.length = len) ∧
      (encoded ≠ [] → 20 + bs.length < len) := by
  obtain ⟨fuel, reader, m', calls, hinit, hsame, hbundle, htime, hcalls, hrets, hexposed⟩ := h
  obtain ⟨rfl, hwalk⟩ := walk_of_init hinit hbundle
  have hlength := (initWalk_frame hwalk).1
  rw [List.length_append, List.length_take, List.length_singleton] at hlength
  obtain ⟨hhost, reader, calls', hreader, hend, hptr, hmsgEnd, hcalls', hrets'⟩ :=
    startMsgs_first hcalls hrets hexposed
  have hsmall := hostLength_lt hhost
  simp only [List.length_cons, startMsgs, Option.bind_eq_bind,
    Option.bind_eq_some_iff] at hcalls'
  obtain ⟨⟨ret, reader'⟩, hcall, calls'', -, hcons⟩ := hcalls'
  cases hcons
  have hbehind := startMsg_behind hreader hptr hmsgEnd hcall
  rw [hend] at hbehind
  refine ⟨fuel, m', hsame, hwalk, htime, by omega, ?_, ?_⟩
  · rintro rfl
    have hret : ret = oscEnd := (List.cons.inj hrets').1
    rcases hbehind with ⟨hlast, -⟩ | ⟨-, habs, -⟩
    · omega
    · exact absurd hret habs
  · intro hne
    obtain ⟨bs', encoded', rfl⟩ := List.exists_cons_of_ne_nil hne
    have hret : ret = oscOk := (List.cons.inj hrets').1
    rcases hbehind with ⟨-, habs⟩ | ⟨-, -, hinside⟩
    · exact absurd (hret.symm.trans habs) (by decide)
    · omega

/-- The last word of a message. -/
theorem at_lastWord {bs : List UInt8} {p : Int} (h : At m p bs) (hfour : 4 ≤ bs.length) :
    At m (p + bs.length - 4) (bs.drop (bs.length - 4)) := by
  have hsplit : At m p (bs.take (bs.length - 4) ++ bs.drop (bs.length - 4)) := by
    rw [List.take_append_drop]
    exact h
  have hpos : p + ((bs.take (bs.length - 4)).length : Nat) = p + bs.length - 4 := by
    rw [List.length_take]
    omega
  rw [← hpos]
  exact hsplit.right

/-- The walk over a bundle of more messages takes the last word of the first one for a
length. -/
theorem leadsInside_of_walk {fuel len : Nat} {packet : Memory} {bs : List UInt8}
    (hlength : At packet 16 (bigEndian 4 bs.length)) (hmessage : At packet 20 bs)
    (hsmall : bs.length < 2147483648) (hfour : 4 ≤ bs.length) (hlt : 20 + bs.length < len)
    (hwalk : initWalk P len fuel packet 20 = some (m', (len : Int))) : LeadsInside bs len := by
  have hword : (bs.drop (bs.length - 4)).length = 4 := by
    rw [List.length_drop]
    omega
  cases fuel with
  | zero => cases hwalk
  | succ fuel =>
      rw [initWalk_length hlength hsmall (by omega)] at hwalk
      change initWalk P len fuel (overwrite packet 16 _) _ = _ at hwalk
      have hmessage' : At (overwrite packet 16 (native P.order 4 bs.length)) 20 bs :=
        hmessage.overwrite_of_le (by rw [length_native]; decide)
      have hlast := at_lastWord hmessage' hfour
      have hnonzero : int32Field (bs.drop (bs.length - 4)) ≠ 0 := by
        intro hzero
        rw [eq_zero_of_int32Field hword hzero] at hlast
        have hstuck := initWalk_stuck (P := P) fuel
          (show (20 + bs.length : Int) < len by omega) hlast
        cases hwalk.symm.trans hstuck
      cases fuel with
      | zero => cases hwalk
      | succ fuel =>
          rw [initWalk_word hlast hword (show (20 + bs.length : Int) < len by omega)] at hwalk
          refine ⟨hnonzero, ?_, ?_⟩
          · by_contra habs
            have hfour := four_le_of_initWalk hwalk (by omega)
            omega
          · by_contra habs
            have hend := (initWalk_of_le hwalk (by omega)).2
            omega

theorem RoundTrips.timetagAgrees {reader₀ : OscReader} {when : UInt64} {starts : List Int}
    {bs : List UInt8} {encoded : List (List UInt8)} {len : Nat}
    (h : RoundTrips P reader₀ when (20 :: starts) (bs :: encoded) m len)
    (hbegins : BeginsWith when bs m) (hstarts : ∀ p ∈ starts, 20 ≤ p) :
    TimetagAgrees P when := by
  obtain ⟨fuel, m', hsame, -, htime, hsmall, hsingle, hmore⟩ := h.first
  have hlen : 20 + bs.length ≤ len := by
    by_cases hnil : encoded = []
    · exact (hsingle hnil).le
    · exact (hmore hnil).le
  obtain ⟨-, htimetag, -, -⟩ := hbegins.packet hsmall hlen
  have htake := hsame.take_eq (List.forall_mem_cons.mpr ⟨le_refl 20, hstarts⟩)
  exact (getTimetag_iff (htimetag.of_take_eq
    (show (8 : Int) + (8 : Nat) ≤ (16 : Nat) by decide) htake)).mp htime

/-- A message is longer than its last word. -/
theorem four_le_of_encodes {message : MessageCall} {bs : List UInt8}
    (h : Encodes demote message bs) : 4 ≤ bs.length := by
  obtain ⟨as, -, -, rfl⟩ := h
  have hpadded := four_le_paddedSize message.address.bytes.length
  rw [length_encodeMessage]
  omega

/-- A bundle of one message comes back exactly if its timetag does and its length fits an
`int` with the four bytes of the length field. A longer bundle only comes back if the last
word of its first message happens to lead the loop to another word or to the end. -/
theorem writeBundle_roundTrips (P : Platform) (demote : UInt64 → UInt32) (reader₀ : OscReader)
    (when : UInt64) (first : MessageCall) (messages : List MessageCall) (buffer : Object)
    (starts : List Int) (bundle : OscBundle) (m : Memory)
    (h : writeBundle P demote when (first :: messages) buffer = some (starts, bundle, m)) :
    ∃ bs encoded, Encodes demote first bs ∧ List.Forall₂ (Encodes demote) messages encoded ∧
      (messages = [] → (RoundTrips P reader₀ when starts (bs :: encoded) m bundle.len ↔
        TimetagAgrees P when ∧ 4 + bs.length < 2147483648)) ∧
      (messages ≠ [] → RoundTrips P reader₀ when starts (bs :: encoded) m bundle.len →
        TimetagAgrees P when ∧ LeadsInside bs bundle.len) := by
  obtain ⟨bs, encoded, starts', henc, hencoded, hbegins, rfl, hstarts, hsingle⟩ :=
    writeBundle_eq_some h
  have hfour := four_le_of_encodes henc
  refine ⟨bs, encoded, henc, hencoded, ?_, ?_⟩
  · rintro rfl
    cases hencoded
    obtain ⟨rfl, hlen⟩ := hsingle rfl
    constructor
    · intro hround
      refine ⟨hround.timetagAgrees hbegins hstarts, ?_⟩
      obtain ⟨-, -, -, -, -, hsmall, hend, -⟩ := hround.first
      have hsame : wrap32 bs.length = bs.length := wrap32_of_range (by omega) (by omega)
      have hbundle := hend rfl
      rw [hlen, hsame] at hbundle
      unfold sizeT wrap32 at hbundle
      omega
    · rintro ⟨htime, hsmall⟩
      have hsame : wrap32 bs.length = bs.length := wrap32_of_range (by omega) (by omega)
      have hbundle : bundle.len = 20 + bs.length := by
        rw [hlen, hsame, wrap32_of_range (by omega) (by omega),
          sizeT_of_nonneg (by omega) (by omega)]
        omega
      rw [hbundle]
      exact roundTrips_single reader₀ henc hbegins htime hsmall
  · intro hne hround
    refine ⟨hround.timetagAgrees hbegins hstarts, ?_⟩
    have hmore : encoded ≠ [] := by
      rintro rfl
      cases hencoded
      exact hne rfl
    obtain ⟨fuel, m', -, hwalk, -, hsmall, -, hlt⟩ := hround.first
    obtain ⟨-, -, hlength, hmessage⟩ := hbegins.packet hsmall (hlt hmore).le
    exact leadsInside_of_walk hlength hmessage hsmall hfour (hlt hmore) hwalk

/-- A bundle of the message `/a` with the argument `7` comes back. -/
theorem writeBundle_roundTrips_seven :
    ∃ starts bundle m, writeBundle littleHost UInt64.toUInt32 0 [sevenCall] smallBuffer =
        some (starts, bundle, m) ∧
      ∃ bs encoded, Encodes UInt64.toUInt32 sevenCall bs ∧
        List.Forall₂ (Encodes UInt64.toUInt32) [] encoded ∧
        (([] : List MessageCall) = [] →
          (RoundTrips littleHost zeroReader 0 starts (bs :: encoded) m bundle.len ↔
            TimetagAgrees littleHost 0 ∧ 4 + bs.length < 2147483648)) ∧
        (([] : List MessageCall) ≠ [] →
          RoundTrips littleHost zeroReader 0 starts (bs :: encoded) m bundle.len →
            TimetagAgrees littleHost 0 ∧ LeadsInside bs bundle.len) := by
  refine ⟨_, _, _, rfl, ?_⟩
  exact writeBundle_roundTrips littleHost UInt64.toUInt32 zeroReader 0 sevenCall [] smallBuffer
    _ _ _ rfl

/-- The message `/a` with the argument `0`. -/
def zeroCall : MessageCall := { sevenCall with args := [.int 0] }

/-- `osc_reader_init` does not return from a bundle of two such messages. -/
theorem zeroArguments_not_roundTrips :
    ∃ starts bundle m, writeBundle littleHost UInt64.toUInt32 0 [zeroCall, zeroCall]
        smallBuffer = some (starts, bundle, m) ∧
      ¬ RoundTrips littleHost zeroReader 0 starts
        (List.replicate 2 (encodeMessage slashA [.int32 0])) m bundle.len := by
  refine ⟨_, _, _, rfl, ?_⟩
  intro hround
  obtain ⟨fuel, m', -, hwalk, -⟩ := hround.first
  obtain ⟨hnonzero, -⟩ : LeadsInside (encodeMessage slashA [.int32 0]) 48 :=
    leadsInside_of_walk (at_take (k := 4) (by decide) (by decide))
      (at_take (k := 12) (by decide) (by decide)) (by decide) (by decide) (by decide) hwalk
  exact hnonzero (by decide)

end LittleOscar.Ideas
