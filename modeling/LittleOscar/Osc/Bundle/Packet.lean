import LittleOscar.Osc.Bundle.Traversal
import LittleOscar.Osc.Reader.Init

/-!
# The recursive walk over a packet

`dumpOscPacket` is the walk that `udp_dump` makes over a datagram: it asks for the type
of a packet, iterates over the elements of a bundle and calls itself for every element
that is a bundle. It gives the ranges that it hands to `osc_msg_reader_init` and how deep
its calls nest. The datagram has a NUL behind it and nothing else, so that a result also
means that no other byte was read.

The lengths that drive the loop are arbitrary, and both the loop and the recursion go by
the number of bytes that are left to them: `walks` is one induction on it for both. The
ranges come out in the order of their bytes, which is what makes them disjoint.

One packet is too long for the walk. `osc_msg_reader_init` takes the rounded length of an
address through an `int`, and `LongestAddress` is the one whose address does not fit.
-/

namespace LittleOscar

open Machine

/-- What a walk does: the ranges for which it initialises a message reader, in this
order, and the number of calls that are nested in each other. -/
structure PacketWalk where
  messages : List OscElement
  depth : Nat
  deriving DecidableEq, Repr

section Walk

variable (P : Platform) (m : Memory) (visit : OscMsgReader → OscMsgReader)
variable (mr₀ : OscMsgReader) (br₀ : OscBundleReader)

mutual

/-- `dump_osc_packet`, for at most `fuel` calls and rounds inside each other. `mr₀` and
`br₀` are what its locals hold before they are initialised, and `visit` is what
`dump_osc_message` leaves of the reader. -/
def dumpOscPacket : Nat → Int → Int → Option PacketWalk
  | 0, _, _ => none
  | fuel + 1, buffer, len => do
      let type ← oscPacketGetType m buffer len
      if type = oscMessage then do
        let _ ← oscMsgReaderInit m mr₀ buffer len
        some ⟨[⟨buffer, len⟩], 1⟩
      else if type = oscBundle then
        let (ret, br) := oscBundleReaderInit br₀ buffer len
        if ret = oscOk then do
          let elements ← dumpElements fuel mr₀ br
          some ⟨elements.messages, elements.depth + 1⟩
        else some ⟨[], 1⟩
      else some ⟨[], 1⟩

/-- Its loop over the elements of a bundle. A message that is refused ends the loop, a
bundle does not. -/
def dumpElements : Nat → OscMsgReader → OscBundleReader → Option PacketWalk
  | 0, _, _ => none
  | fuel + 1, mr, br => do
      let (type, out, br) ← oscBundleReaderNext P m br
      if type > oscOk then do
        let element ← out
        if type = oscMessage then do
          let (ret, mr) ← oscMsgReaderInit m mr element.start element.len
          if ret = oscOk then do
            let rest ← dumpElements fuel (visit mr) br
            some ⟨element :: rest.messages, rest.depth⟩
          else some ⟨[element], 0⟩
        else do
          let inner ← dumpOscPacket fuel element.start element.len
          let rest ← dumpElements fuel mr br
          some ⟨inner.messages ++ rest.messages, max inner.depth rest.depth⟩
      else some ⟨[], 0⟩

end

end Walk

/-- No byte is in both. -/
def OscElement.Disjoint (e f : OscElement) : Prop :=
  e.start + e.len ≤ f.start ∨ f.start + f.len ≤ e.start

/-- The walk over a packet with a NUL behind it ends and reads no other byte, does not
nest deeper than the packet allows, and initialises readers for ranges of whole words
of the packet that are disjoint. -/
def WalkSafe (P : Platform) (visit : OscMsgReader → OscMsgReader) (mr₀ : OscMsgReader)
    (br₀ : OscBundleReader) (packet : List UInt8) : Prop :=
  ∃ walk, (∀ fuel, packet.length < fuel →
      dumpOscPacket P (packet ++ [0]) visit mr₀ br₀ fuel 0 packet.length = some walk) ∧
    walk.depth ≤ packet.length / 20 + 1 ∧
    (∀ e ∈ walk.messages, 0 < e.len ∧ e.len % 4 = 0 ∧
      0 ≤ e.start ∧ e.start + e.len ≤ packet.length) ∧
    walk.messages.Pairwise OscElement.Disjoint

/-- The longest message there is, with no NUL in it. -/
def LongestAddress (packet : List UInt8) : Prop :=
  packet.length = 2147483644 ∧ packet.head? ≠ some '#'.toUInt8 ∧ 0 ∉ packet

/-! ## Ranges in order -/

/-- Ranges of whole words that lie one behind the other between `lo` and `hi`. -/
structure Ordered (lo hi : Int) (messages : List OscElement) : Prop where
  range : ∀ e ∈ messages, lo ≤ e.start ∧ 0 < e.len ∧ e.len % 4 = 0 ∧ e.start + e.len ≤ hi
  pairwise : messages.Pairwise fun e f => e.start + e.len ≤ f.start

namespace Ordered

variable {lo mid hi : Int} {es fs : List OscElement}

theorem nil : Ordered lo hi [] :=
  ⟨fun _ he => absurd he List.not_mem_nil, List.Pairwise.nil⟩

theorem singleton {e : OscElement} (hlo : lo ≤ e.start) (hpos : 0 < e.len)
    (hmod : e.len % 4 = 0) (hhi : e.start + e.len ≤ hi) : Ordered lo hi [e] := by
  refine ⟨fun f hf => ?_, List.pairwise_singleton _ _⟩
  obtain rfl := List.mem_singleton.mp hf
  exact ⟨hlo, hpos, hmod, hhi⟩

theorem append (hes : Ordered lo mid es) (hfs : Ordered mid hi fs) (hlo : lo ≤ mid)
    (hhi : mid ≤ hi) : Ordered lo hi (es ++ fs) := by
  constructor
  · intro e he
    rcases List.mem_append.mp he with he | he
    · obtain ⟨hle, hpos, hmod, hend⟩ := hes.range e he
      exact ⟨hle, hpos, hmod, Int.le_trans hend hhi⟩
    · obtain ⟨hle, hpos, hmod, hend⟩ := hfs.range e he
      exact ⟨Int.le_trans hlo hle, hpos, hmod, hend⟩
  · rw [List.pairwise_append]
    refine ⟨hes.pairwise, hfs.pairwise, fun e he f hf => ?_⟩
    exact Int.le_trans (hes.range e he).2.2.2 (hfs.range f hf).1

theorem of_le (h : Ordered mid hi es) (hlo : lo ≤ mid) : Ordered lo hi es :=
  ⟨fun e he => (h.range e he).imp_left (Int.le_trans hlo), h.pairwise⟩

theorem disjoint (h : Ordered lo hi es) : es.Pairwise OscElement.Disjoint := by
  apply h.pairwise.imp
  intro e f hle
  exact Or.inl hle

end Ordered

/-! ## One call and one round -/

section Steps

variable {P : Platform} {m : Memory} {visit : OscMsgReader → OscMsgReader}
variable {mr₀ mr mr' : OscMsgReader} {br₀ br br' : OscBundleReader} {fuel : Nat}

theorem dumpOscPacket_of_error {buffer len : Int}
    (h : oscPacketGetType m buffer len = some oscError) :
    dumpOscPacket P m visit mr₀ br₀ (fuel + 1) buffer len = some ⟨[], 1⟩ := by
  rw [dumpOscPacket, h]
  rfl

theorem dumpOscPacket_of_message {buffer len : Int}
    (h : oscPacketGetType m buffer len = some oscMessage) :
    dumpOscPacket P m visit mr₀ br₀ (fuel + 1) buffer len =
      (oscMsgReaderInit m mr₀ buffer len).map fun _ => ⟨[⟨buffer, len⟩], 1⟩ := by
  rw [dumpOscPacket, h]
  cases oscMsgReaderInit m mr₀ buffer len <;> rfl

theorem dumpOscPacket_of_bundle {buffer len : Int}
    (h : oscPacketGetType m buffer len = some oscBundle) :
    dumpOscPacket P m visit mr₀ br₀ (fuel + 1) buffer len =
      if len < 20 then some ⟨[], 1⟩
      else (dumpElements P m visit mr₀ br₀ fuel mr₀ ⟨buffer, buffer + len, buffer + 16⟩).map
        fun elements => ⟨elements.messages, elements.depth + 1⟩ := by
  rw [dumpOscPacket, h, Option.bind_eq_bind, Option.bind_some,
    if_neg (show ¬ oscBundle = oscMessage by decide), if_pos rfl, oscBundleReaderInit]
  by_cases hlen : len < 20
  · rw [if_pos hlen, if_pos hlen]
    rfl
  · rw [if_neg hlen, if_neg hlen]
    simp only [if_pos]
    cases dumpElements P m visit mr₀ br₀ fuel mr₀ ⟨buffer, buffer + len, buffer + 16⟩ <;> rfl

theorem dumpElements_of_stop {type : Int} {out : Option OscElement}
    (h : oscBundleReaderNext P m br = some (type, out, br')) (htype : type ≤ oscOk) :
    dumpElements P m visit mr₀ br₀ (fuel + 1) mr br = some ⟨[], 0⟩ := by
  rw [dumpElements, h, Option.bind_eq_bind, Option.bind_some]
  exact if_neg (Int.not_lt.mpr htype)

theorem dumpElements_of_message {ret : Int} {element : OscElement}
    (h : oscBundleReaderNext P m br = some (oscMessage, some element, br'))
    (hinit : oscMsgReaderInit m mr element.start element.len = some (ret, mr')) :
    dumpElements P m visit mr₀ br₀ (fuel + 1) mr br =
      if ret = oscOk then
        (dumpElements P m visit mr₀ br₀ fuel (visit mr') br').map fun rest =>
          ⟨element :: rest.messages, rest.depth⟩
      else some ⟨[element], 0⟩ := by
  rw [dumpElements, h]
  simp only [Option.bind_eq_bind, Option.bind_some, hinit]
  rw [if_pos (show oscMessage > oscOk by decide), if_true]
  cases dumpElements P m visit mr₀ br₀ fuel (visit mr') br' <;> rfl

theorem dumpElements_of_bundle {element : OscElement}
    (h : oscBundleReaderNext P m br = some (oscBundle, some element, br')) :
    dumpElements P m visit mr₀ br₀ (fuel + 1) mr br =
      (dumpOscPacket P m visit mr₀ br₀ fuel element.start element.len).bind fun inner =>
        (dumpElements P m visit mr₀ br₀ fuel mr br').map fun rest =>
          ⟨inner.messages ++ rest.messages, max inner.depth rest.depth⟩ := by
  rw [dumpElements, h]
  simp only [Option.bind_eq_bind, Option.bind_some]
  rw [if_pos (show oscBundle > oscOk by decide),
    if_neg (show ¬ oscBundle = oscMessage by decide)]
  cases dumpOscPacket P m visit mr₀ br₀ fuel element.start element.len with
  | none => rfl
  | some inner =>
      cases dumpElements P m visit mr₀ br₀ fuel mr br' <;> rfl

end Steps

/-! ## The walk -/

/-- A packet of `len` bytes that is the object but for a NUL behind it. -/
structure NulBehind (m : Memory) (len : Int) : Prop where
  length : m.length = len + 1
  nul : loadByte m len = some 0
  lt : len < 2147483648

/-- A message reader is initialised without a read behind the NUL, unless the length of
the address is too large for an `int`. -/
theorem NulBehind.exists_init {m : Memory} {len buffer : Int} {size : Nat} (h : NulBehind m len)
    (mr : OscMsgReader) (hbuffer : 0 ≤ buffer) (hle : buffer + size ≤ len)
    (hint : ∀ n, strlen m buffer = some n → n < 2147483644) :
    ∃ ret mr', oscMsgReaderInit m mr buffer size = some (ret, mr') := by
  have hlength := h.length
  have hlt := h.lt
  obtain ⟨n, hn, -⟩ := exists_strlen_of_loadByte hbuffer (by omega) h.nul
  have hsmall := hint n hn
  have hround : paddedSize n < n + 1 + 4 := roundUp_lt (n + 1)
  have hmod := paddedSize_mod n
  have haddress : AddressSize m buffer n (paddedSize n) :=
    ⟨hn, by omega, wrap32_of_range (by omega) (by omega)⟩
  rcases Int.lt_trichotomy size (paddedSize n) with hpast | hfills | hinside
  · exact ⟨_, _, haddress.init_of_past hpast⟩
  · exact ⟨_, _, haddress.init_of_fills hfills.symm⟩
  · obtain ⟨b, hb⟩ := exists_loadByte (m := m) (p := buffer + paddedSize n) (by omega) (by omega)
    by_cases hcomma : b = ','.toUInt8
    · obtain ⟨k, hk, hkle⟩ := exists_strlen_of_loadByte
        (show 0 ≤ buffer + (paddedSize n : Int) by omega) (by omega) h.nul
      rw [hcomma] at hb
      have hinit := @AddressSize.init_of_tags m mr _ _ _ _ _ haddress hinside hb hk (by omega)
      split at hinit
      · exact ⟨_, _, hinit⟩
      · exact ⟨_, _, hinit⟩
    · exact ⟨_, _, haddress.init_of_untyped hinside hb hcomma⟩

/-- A run ends with any fuel above `size`; its calls nest at most `depth` times and its
ranges lie in order. -/
def EndsWithin (size depth : Nat) (lo hi : Int) (run : Nat → Option PacketWalk) : Prop :=
  ∃ walk, (∀ fuel, size < fuel → run fuel = some walk) ∧ walk.depth ≤ depth ∧
    Ordered lo hi walk.messages

theorem EndsWithin.of_succ {size depth : Nat} {lo hi : Int} {run : Nat → Option PacketWalk}
    (walk : PacketWalk) (hrun : ∀ fuel, size ≤ fuel → run (fuel + 1) = some walk)
    (hdepth : walk.depth ≤ depth) (hordered : Ordered lo hi walk.messages) :
    EndsWithin size depth lo hi run := by
  refine ⟨walk, fun fuel hfuel => ?_, hdepth, hordered⟩
  cases fuel with
  | zero => exact absurd hfuel (Nat.not_lt_zero _)
  | succ fuel => exact hrun fuel (Nat.le_of_lt_succ hfuel)

/-- The bundle reader inside the packet, with `size` bytes left to it. -/
structure BytesLeft (len : Int) (br : OscBundleReader) (size : Nat) : Prop where
  le_ptr : 16 ≤ br.msgPtr
  end_eq : br.bundleEnd = br.msgPtr + size
  end_le : br.bundleEnd ≤ len
  aligned : size % 4 = 0

section Run

variable (P : Platform) (m : Memory) (visit : OscMsgReader → OscMsgReader)
variable (mr₀ : OscMsgReader) (br₀ : OscBundleReader) (len : Int)

/-- The walk over any `size` bytes of the packet ends. -/
def PacketEnds (size : Nat) : Prop :=
  ∀ buffer : Int, 0 ≤ buffer → buffer + size ≤ len →
    (oscPacketGetType m buffer size = some oscMessage →
      ∃ ret mr', oscMsgReaderInit m mr₀ buffer size = some (ret, mr')) →
    EndsWithin size (size / 20 + 1) buffer (buffer + size) fun fuel =>
      dumpOscPacket P m visit mr₀ br₀ fuel buffer size

/-- The loop over the last `size` bytes of any bundle of the packet ends. -/
def ElementsEnd (size : Nat) : Prop :=
  ∀ mr br, BytesLeft len br size →
    EndsWithin size ((size + 16) / 20) br.msgPtr br.bundleEnd fun fuel =>
      dumpElements P m visit mr₀ br₀ fuel mr br

variable {P m visit mr₀ br₀ len}

theorem packetEnds_of_elements {size : Nat} (h : NulBehind m len)
    (helements : ∀ size' < size, ElementsEnd P m visit mr₀ br₀ len size') :
    PacketEnds P m visit mr₀ br₀ len size := by
  intro buffer hbuffer hle hinit
  have hlength := h.length
  by_cases hbad : (size : Int) < 4 ∨ (size : Int) % 4 ≠ 0
  · have htype : oscPacketGetType m buffer size = some oscError := by
      rw [oscPacketGetType, if_pos hbad]
    exact EndsWithin.of_succ ⟨[], 1⟩ (fun _ _ => dumpOscPacket_of_error htype)
      (Nat.le_add_left _ _) Ordered.nil
  obtain ⟨b, hb⟩ := exists_loadByte (m := m) (p := buffer) hbuffer (by omega)
  have htype : oscPacketGetType m buffer size =
      some (if b = '#'.toUInt8 then oscBundle else oscMessage) := by
    rw [oscPacketGetType, if_neg hbad, hb]
    rfl
  by_cases hsharp : b = '#'.toUInt8
  · rw [if_pos hsharp] at htype
    by_cases hshort : (size : Int) < 20
    · exact EndsWithin.of_succ ⟨[], 1⟩
        (fun _ _ => (dumpOscPacket_of_bundle htype).trans (if_pos hshort))
        (Nat.le_add_left _ _) Ordered.nil
    · have hleft : BytesLeft len ⟨buffer, buffer + size, buffer + 16⟩ (size - 16) :=
        ⟨by simp only; omega, by simp only; omega, hle, by omega⟩
      obtain ⟨walk, hwalk, hdepth, hordered⟩ := helements _ (by omega) mr₀ _ hleft
      refine EndsWithin.of_succ ⟨walk.messages, walk.depth + 1⟩ (fun fuel hfuel => ?_) ?_
        (hordered.of_le (by simp))
      · have hrest := hwalk fuel (by omega)
        simp only at hrest
        simp only [dumpOscPacket_of_bundle htype, if_neg hshort, hrest, Option.map_some]
      · simp only
        omega
  · rw [if_neg hsharp] at htype
    obtain ⟨ret, mr', hinit⟩ := hinit htype
    refine EndsWithin.of_succ ⟨[⟨buffer, size⟩], 1⟩ (fun fuel _ => ?_) (Nat.le_add_left _ _) ?_
    · simp only [dumpOscPacket_of_message htype, hinit, Option.map_some]
    · exact Ordered.singleton (Int.le_refl _) (by simp only; omega) (by simp only; omega)
        (Int.le_refl _)

section Element

variable {size k : Nat} {mr mr' : OscMsgReader} {br : OscBundleReader} {ret : Int}

theorem BytesLeft.behind (hleft : BytesLeft len br size)
    (hrecord : IsRecordLength (br.bundleEnd - br.msgPtr - 4) k) :
    BytesLeft len { br with msgPtr := br.msgPtr + 4 + k } (size - 4 - k) := by
  obtain ⟨hptr, hend, hle, haligned⟩ := hleft
  obtain ⟨hfour, hmod, hroom⟩ := hrecord
  exact ⟨by simp only; omega, by simp only; omega, hle, by omega⟩

/-- An element that is a bundle: the walk over it, then the rest of the loop. -/
theorem ends_of_bundle (hleft : BytesLeft len br size)
    (hrecord : IsRecordLength (br.bundleEnd - br.msgPtr - 4) k)
    (hnext : oscBundleReaderNext P m br = some (oscBundle, some ⟨br.msgPtr + 4, k⟩,
      { br with msgPtr := br.msgPtr + 4 + k }))
    (hinit : ∃ ret mr', oscMsgReaderInit m mr₀ (br.msgPtr + 4) k = some (ret, mr'))
    (hpacket : PacketEnds P m visit mr₀ br₀ len k)
    (helements : ElementsEnd P m visit mr₀ br₀ len (size - 4 - k)) :
    EndsWithin size ((size + 16) / 20) br.msgPtr br.bundleEnd fun fuel =>
      dumpElements P m visit mr₀ br₀ fuel mr br := by
  obtain ⟨rest, hwalk, hdepth', hordered'⟩ := helements mr _ (hleft.behind hrecord)
  obtain ⟨hptr, hend, hle, -⟩ := hleft
  obtain ⟨hfour, hmod, hroom⟩ := hrecord
  obtain ⟨inner, hinner, hdepth, hordered⟩ :=
    hpacket (br.msgPtr + 4) (by omega) (by omega) fun _ => hinit
  refine EndsWithin.of_succ ⟨inner.messages ++ rest.messages, max inner.depth rest.depth⟩
    (fun fuel hfuel => ?_) ?_ ?_
  · have hcall := hinner fuel (by omega)
    have hloop := hwalk fuel (by omega)
    simp only at hcall hloop
    simp only [dumpElements_of_bundle hnext, hcall, hloop, Option.bind_some, Option.map_some]
  · simp only
    omega
  · exact (hordered.of_le (by omega)).append hordered' (by omega) (by omega)

/-- An element that is a message: the loop ends behind it if it is refused. -/
theorem ends_of_message (hleft : BytesLeft len br size)
    (hrecord : IsRecordLength (br.bundleEnd - br.msgPtr - 4) k)
    (hnext : oscBundleReaderNext P m br = some (oscMessage, some ⟨br.msgPtr + 4, k⟩,
      { br with msgPtr := br.msgPtr + 4 + k }))
    (hinit : oscMsgReaderInit m mr (br.msgPtr + 4) k = some (ret, mr'))
    (helements : ElementsEnd P m visit mr₀ br₀ len (size - 4 - k)) :
    EndsWithin size ((size + 16) / 20) br.msgPtr br.bundleEnd fun fuel =>
      dumpElements P m visit mr₀ br₀ fuel mr br := by
  obtain ⟨rest, hwalk, hdepth, hordered⟩ := helements (visit mr') _ (hleft.behind hrecord)
  obtain ⟨hptr, hend, hle, -⟩ := hleft
  obtain ⟨hfour, hmod, hroom⟩ := hrecord
  have hfirst : Ordered br.msgPtr (br.msgPtr + 4 + k) [⟨br.msgPtr + 4, k⟩] :=
    Ordered.singleton (by simp only; omega) (by simp only; omega) hmod (Int.le_refl _)
  by_cases hret : ret = oscOk
  · refine EndsWithin.of_succ ⟨⟨br.msgPtr + 4, k⟩ :: rest.messages, rest.depth⟩
      (fun fuel hfuel => ?_) ?_ (hfirst.append hordered (by omega) (by omega))
    · have hloop := hwalk fuel (by omega)
      simp only at hloop
      simp only [dumpElements_of_message hnext hinit, if_pos hret, hloop, Option.map_some]
    · simp only
      omega
  · refine EndsWithin.of_succ ⟨[⟨br.msgPtr + 4, k⟩], 0⟩ (fun fuel _ => ?_) (Nat.zero_le _) ?_
    · simp only [dumpElements_of_message hnext hinit, if_neg hret]
    · exact hfirst.append Ordered.nil (by omega) (by omega)

end Element

/-- The message readers of elements are initialised without a read behind the NUL. -/
theorem elementsEnd_of_smaller {size : Nat} (h : NulBehind m len)
    (hpackets : ∀ size' < size, PacketEnds P m visit mr₀ br₀ len size')
    (helements : ∀ size' < size, ElementsEnd P m visit mr₀ br₀ len size') :
    ElementsEnd P m visit mr₀ br₀ len size := by
  intro mr br hleft
  obtain ⟨hptr, hend, hle, haligned⟩ := id hleft
  have hlength := h.length
  have hlt := h.lt
  by_cases hlast : br.msgPtr = br.bundleEnd
  · exact EndsWithin.of_succ ⟨[], 0⟩
      (fun _ _ => dumpElements_of_stop (oscBundleReaderNext_end hlast) (by decide))
      (Nat.zero_le _) Ordered.nil
  obtain ⟨n, hn⟩ : ∃ n, int32Field (m.drop br.msgPtr.toNat) = n := ⟨_, rfl⟩
  have hfield : AtField m br n := ⟨hlast, by omega, by omega, by omega, hn⟩
  by_cases hrecord : IsRecordLength (br.bundleEnd - br.msgPtr - 4) n
  · obtain ⟨b, -, hnext⟩ := hfield.next_of_record (P := P) hrecord
    obtain ⟨hfour, -, hroom⟩ := id hrecord
    obtain ⟨k, rfl⟩ := Int.eq_ofNat_of_zero_le (show 0 ≤ n by omega)
    have hinit : ∀ mr, ∃ ret mr', oscMsgReaderInit m mr (br.msgPtr + 4) k = some (ret, mr') := by
      intro mr
      refine h.exists_init mr (by omega) (by omega) fun i hi => ?_
      have hnonneg := strlen_eq_some hi
      omega
    have hrest := helements (size - 4 - k) (by omega)
    by_cases hsharp : b = '#'.toUInt8
    · rw [if_pos hsharp] at hnext
      exact ends_of_bundle hleft hrecord hnext (hinit mr₀) (hpackets k (by omega)) hrest
    · rw [if_neg hsharp] at hnext
      obtain ⟨ret, mr', hmessage⟩ := hinit mr
      exact ends_of_message hleft hrecord hnext hmessage hrest
  · exact EndsWithin.of_succ ⟨[], 0⟩
      (fun _ _ => dumpElements_of_stop (hfield.next_of_not_record hrecord) (by decide))
      (Nat.zero_le _) Ordered.nil

/-- Both end, by one induction on the number of bytes that are left to them. -/
theorem walks (h : NulBehind m len) (size : Nat) :
    PacketEnds P m visit mr₀ br₀ len size ∧ ElementsEnd P m visit mr₀ br₀ len size := by
  induction size using Nat.strong_induction_on with
  | h size ih =>
      constructor
      · exact packetEnds_of_elements h fun size' hlt => (ih size' hlt).2
      · exact elementsEnd_of_smaller h (fun size' hlt => (ih size' hlt).1)
          fun size' hlt => (ih size' hlt).2

end Run

theorem nulBehind_append {packet : List UInt8} (hlen : packet.length < 2147483648) :
    NulBehind (packet ++ [0]) packet.length := by
  refine ⟨by simp, ?_, by omega⟩
  rw [loadByte_natCast, List.getElem?_concat_length]

theorem strlen_longestAddress {packet : List UInt8} (h : LongestAddress packet) :
    strlen (packet ++ [0]) 0 = some 2147483644 := by
  obtain ⟨hlength, -, hfree⟩ := h
  have hat : At (packet ++ [0]) 0 (packet ++ 0 :: []) := At.self _
  rw [hat.strlen hfree, hlength]

/-- The length of that address wraps to the least `int`, and the reader looks for the
tags in front of the packet. -/
theorem init_longestAddress {packet : List UInt8} (h : LongestAddress packet)
    (mr : OscMsgReader) : oscMsgReaderInit (packet ++ [0]) mr 0 packet.length = none := by
  have haddress : AddressSize (packet ++ [0]) 0 2147483644 (-2147483648) :=
    ⟨strlen_longestAddress h, by decide, by decide⟩
  have hbefore : loadByte (packet ++ [0]) (0 + -2147483648) = none := by
    rw [loadByte, if_neg (by decide)]
  rw [haddress.init_of_lt (by omega), hbefore]
  rfl

theorem type_eq_message_iff {packet : List UInt8} :
    oscPacketGetType (packet ++ [0]) 0 packet.length = some oscMessage ↔
      4 ≤ packet.length ∧ packet.length % 4 = 0 ∧ packet.head? ≠ some '#'.toUInt8 := by
  rw [oscPacketGetType]
  split
  · next hbad =>
      refine iff_of_false (fun heq => absurd (Option.some.inj heq) (by decide)) ?_
      omega
  · next hgood =>
      cases packet with
      | nil => exact absurd (Or.inl (by decide)) hgood
      | cons b bs =>
          have hb : loadByte (b :: bs ++ [0]) 0 = some b := rfl
          rw [hb, Option.bind_eq_bind, Option.bind_some, List.head?_cons]
          by_cases hsharp : b = '#'.toUInt8
          · rw [if_pos hsharp, hsharp]
            exact iff_of_false (fun heq => absurd (Option.some.inj heq) (by decide))
              fun h => h.2.2 rfl
          · rw [if_neg hsharp]
            refine iff_of_true rfl ⟨by omega, by omega, fun heq => ?_⟩
            exact hsharp (Option.some.inj heq)

/-- An address that is too large for an `int` takes the whole packet. -/
theorem longestAddress_of_strlen {packet : List UInt8} {n : Nat}
    (hlen : packet.length < 2147483648)
    (htype : oscPacketGetType (packet ++ [0]) 0 packet.length = some oscMessage)
    (hn : strlen (packet ++ [0]) 0 = some n) (hlarge : 2147483644 ≤ n) :
    LongestAddress packet := by
  obtain ⟨-, hmod, hhead⟩ := type_eq_message_iff.mp htype
  obtain ⟨-, hlt, -⟩ := strlen_eq_some hn
  rw [List.length_append, List.length_singleton] at hlt
  have heq : packet.length = n := by omega
  rw [strlen, if_pos (Int.le_refl _)] at hn
  obtain ⟨-, hfree⟩ := strlenFrom_eq_some hn
  refine ⟨by omega, hhead, ?_⟩
  rw [← heq] at hfree
  simpa using hfree

theorem not_walkSafe_of_longest {P : Platform} {visit : OscMsgReader → OscMsgReader}
    {mr₀ : OscMsgReader} {br₀ : OscBundleReader} {packet : List UInt8}
    (h : LongestAddress packet) : ¬ WalkSafe P visit mr₀ br₀ packet := by
  rintro ⟨walk, hwalk, -⟩
  have hlength := h.1
  have htype := type_eq_message_iff.mpr ⟨by omega, by omega, h.2.1⟩
  have hrun := hwalk (packet.length + 1) (Nat.lt_succ_self _)
  rw [dumpOscPacket_of_message htype, init_longestAddress h] at hrun
  cases hrun

/-- The walk is safe for every packet but one that is a message of the greatest length
with no NUL in it. -/
theorem walkSafe_iff (P : Platform) (visit : OscMsgReader → OscMsgReader) (mr₀ : OscMsgReader)
    (br₀ : OscBundleReader) (packet : List UInt8) (hlen : packet.length < 2147483648) :
    WalkSafe P visit mr₀ br₀ packet ↔ ¬ LongestAddress packet := by
  have hnul := nulBehind_append hlen
  constructor
  · exact fun hsafe hlongest => not_walkSafe_of_longest hlongest hsafe
  · intro hshort
    have hinit : oscPacketGetType (packet ++ [0]) 0 packet.length = some oscMessage →
        ∃ ret mr', oscMsgReaderInit (packet ++ [0]) mr₀ 0 packet.length = some (ret, mr') := by
      intro htype
      refine hnul.exists_init mr₀ (Int.le_refl _) (by omega) fun n hn => ?_
      by_contra hlarge
      exact hshort (longestAddress_of_strlen hlen htype hn (by omega))
    have hends : PacketEnds P (packet ++ [0]) visit mr₀ br₀ packet.length packet.length :=
      (walks hnul packet.length).1
    obtain ⟨walk, hwalk, hdepth, hordered⟩ := hends 0 (Int.le_refl _) (by omega) hinit
    refine ⟨walk, hwalk, hdepth, fun e he => ?_, hordered.disjoint⟩
    obtain ⟨hlo, hpos, hmod, hhi⟩ := hordered.range e he
    exact ⟨hpos, hmod, hlo, by omega⟩

/-- A bundle in a bundle, with a message in front of it and one inside. -/
def nestedBundle : List UInt8 :=
  [35, 98, 117, 110, 100, 108, 101] ++ List.replicate 9 0 ++ [0, 0, 0, 4, 47, 0, 0, 0] ++
    [0, 0, 0, 24] ++ ([35, 98, 117, 110, 100, 108, 101] ++ List.replicate 9 0 ++
      [0, 0, 0, 4, 47, 0, 0, 0])

example : dumpOscPacket littleHost (nestedBundle ++ [0]) id ⟨0, 0, none, none⟩ ⟨0, 0, 0⟩ 8 0 52 =
    some ⟨[⟨20, 4⟩, ⟨48, 4⟩], 2⟩ := by decide

theorem walkSafe_nestedBundle :
    WalkSafe littleHost id ⟨0, 0, none, none⟩ ⟨0, 0, 0⟩ nestedBundle :=
  (walkSafe_iff littleHost id ⟨0, 0, none, none⟩ ⟨0, 0, 0⟩ nestedBundle (by decide)).mpr
    fun h => absurd h.1 (by decide)

/-- A message of `k` slashes. -/
def slashes (k : Nat) : List UInt8 := List.replicate k '/'.toUInt8

theorem longestAddress_slashes {k : Nat} (hk : k = 2147483644) : LongestAddress (slashes k) := by
  refine ⟨by rw [slashes, List.length_replicate, hk], ?_, ?_⟩
  · rw [slashes, List.head?_replicate, if_neg (by omega)]
    decide
  · rw [slashes, List.mem_replicate]
    rintro ⟨-, hzero⟩
    exact absurd hzero (by decide)

/-- Where the message is all address and of the greatest length, the walk reads in front of
the packet. -/
theorem slashes_not_walkSafe :
    ¬ WalkSafe littleHost id ⟨0, 0, none, none⟩ ⟨0, 0, 0⟩ (slashes 2147483644) :=
  not_walkSafe_of_longest (longestAddress_slashes rfl)

end LittleOscar
