import LittleOscar.Osc.Dump.Stale

/-!
# The loop of `main`

The last byte of the receive buffer is set to NUL, which "ensures unterminated strings in
message payload cannot break out of the buffer". They do break out of the datagram, into
what datagrams before it have left. `receiveLoop_eq` says that this is never seen: by
`dump_same` a packet is printed the same in all buffers that begin with it.
-/

namespace LittleOscar.UdpDump

open Machine

variable {P : Platform} {F : FloatText} {base : Int} {n : Nat} {m m' : Memory}

/-! ## Messages -/

/-- Two calls of `osc_msg_reader_init` both refuse the message, or both accept it with the
same reader, which stays before `n`. -/
def SameInit (n : Nat) (m m' : Memory) :
    Option (Int × OscMsgReader) → Option (Int × OscMsgReader) → Prop
  | some (ret, reader), some (ret', reader') =>
      ret = ret' ∧ (ret = oscOk → reader = reader' ∧
        stringAt m reader.msgPtr = stringAt m' reader.msgPtr ∧
        (oscMsgReaderIsTyped reader → ∃ q, StaysBefore n m reader q))
  | _, _ => False

theorem addressSize_of_length {p : Int} {k : Nat} (hk : strlen m p = some k)
    (hm : m.length < 2147483644) : AddressSize m p k (paddedSize k) := by
  obtain ⟨hp, hlt, -⟩ := strlen_eq_some hk
  have hround : paddedSize k < k + 1 + 4 := roundUp_lt (k + 1)
  have hmod := paddedSize_mod k
  exact ⟨hk, by omega, wrap32_of_range (by omega) (by omega)⟩

section Init

variable {reader₀ reader₀' : OscMsgReader} {buffer len : Int}

theorem init_same (h : Alike base n m m') (hbuffer : 0 ≤ buffer) (hlen : 0 < len)
    (hle : buffer + len ≤ n) :
    SameInit n m m' (oscMsgReaderInit m reader₀ buffer len)
      (oscMsgReaderInit m' reader₀' buffer len) := by
  have hm := h.lt
  have hm' := h.lt'
  have hn := h.lt_length
  rcases h.strlen_cases (p := buffer) (by omega) with
    ⟨heq, hends⟩ | ⟨j, j', hj, hj', hpast, hpast'⟩
  swap
  · have hpad := lt_paddedSize j
    have hpad' := lt_paddedSize j'
    rw [(addressSize_of_length hj hm).init_of_past (by omega),
      (addressSize_of_length hj' hm').init_of_past (by omega)]
    exact ⟨rfl, fun hok => absurd hok oscError_ne_oscOk⟩
  obtain ⟨k, hk⟩ := h.exists_strlen hbuffer (by omega)
  have hsize := addressSize_of_length hk hm
  have hsize' := addressSize_of_length (heq ▸ hk) hm'
  have haddress := h.stringAt_eq hk (hends k hk)
  rcases Int.lt_trichotomy len (paddedSize k) with hpast | hfills | hinside
  · rw [hsize.init_of_past hpast, hsize'.init_of_past hpast]
    exact ⟨rfl, fun hok => absurd hok oscError_ne_oscOk⟩
  · rw [hsize.init_of_fills hfills.symm, hsize'.init_of_fills hfills.symm]
    exact ⟨rfl, fun _ => ⟨rfl, haddress, fun htyped => absurd htyped Bool.false_ne_true⟩⟩
  obtain ⟨b, hb⟩ := exists_loadByte (m := m) (p := buffer + paddedSize k) (by omega) (by omega)
  have hb' : loadByte m' (buffer + paddedSize k) = some b := by
    rw [← h.loadByte_eq (by omega), hb]
  by_cases hcomma : b = ','.toUInt8
  swap
  · rw [hsize.init_of_untyped hinside hb hcomma, hsize'.init_of_untyped hinside hb' hcomma]
    exact ⟨rfl, fun _ => ⟨rfl, haddress, fun htyped => absurd htyped Bool.false_ne_true⟩⟩
  rw [hcomma] at hb hb'
  rcases h.strlen_cases (p := buffer + paddedSize k) (by omega) with
    ⟨htags, hinner⟩ | ⟨j, j', hj, hj', hbehind, hbehind'⟩
  · obtain ⟨e, he⟩ := h.exists_strlen (p := buffer + paddedSize k) (by omega) (by omega)
    obtain ⟨-, hlt, hnul⟩ := strlen_eq_some he
    have hlt' := hinner e he
    rw [hsize.init_of_tags hinside hb he (by omega),
      hsize'.init_of_tags hinside hb' (htags ▸ he) (by omega)]
    split
    · exact ⟨rfl, fun hok => absurd hok oscError_ne_oscOk⟩
    · next hfits =>
        refine ⟨rfl, fun _ => ⟨rfl, haddress, fun _ => ⟨_, hle, rfl, by omega, ?_, ?_⟩⟩⟩
        · refine ⟨buffer + paddedSize k + e, ?_, by omega, hnul⟩
          have hne : e ≠ 0 := by
            rintro rfl
            rw [Int.natCast_zero, Int.add_zero, hb] at hnul
            exact absurd hnul (by decide)
          omega
        · rintro p ⟨rfl⟩
          simp only
          omega
  · obtain ⟨-, hlt, -⟩ := strlen_eq_some hj
    obtain ⟨-, hlt', -⟩ := strlen_eq_some hj'
    have hpad := lt_paddedSize j
    have hpad' := lt_paddedSize j'
    rw [hsize.init_of_tags hinside hb hj (by omega), if_pos (by omega),
      hsize'.init_of_tags hinside hb' hj' (by omega), if_pos (by omega)]
    exact ⟨rfl, fun hok => absurd hok oscError_ne_oscOk⟩

end Init

/-- A message that both objects accept is printed the same. -/
theorem dumpOscMessage_same (h : Alike base n m m') {reader : OscMsgReader}
    (haddress : stringAt m reader.msgPtr = stringAt m' reader.msgPtr)
    (htyped : oscMsgReaderIsTyped reader → ∃ q, StaysBefore n m reader q) (fuel : Nat)
    (locals locals' : Locals) (indent : Int) :
    dumpOscMessage P F m base fuel locals reader indent =
      dumpOscMessage P F m' base fuel locals' reader indent := by
  rw [dumpOscMessage, dumpOscMessage, oscMsgReaderGetAddress, haddress]
  cases stringAt m' reader.msgPtr with
  | none => rfl
  | some address =>
      simp only [Option.bind_eq_bind, Option.bind_some]
      split
      · next ht =>
          obtain ⟨q, hstays⟩ := htyped ht
          rw [dumpArgs_same h hstays (indent + 1) fuel locals.arg locals'.arg]
      · rfl

/-! ## Packets -/

theorem getType_same (h : Agree n m m') {buffer len : Int} (hle : buffer + len ≤ n) :
    oscPacketGetType m buffer len = oscPacketGetType m' buffer len := by
  rw [oscPacketGetType, oscPacketGetType]
  split
  · rfl
  · rw [h.loadByte_eq (by omega)]

/-- The bundle reader in front of elements that end before `n`. -/
structure ElementsBefore (n : Nat) (br : OscBundleReader) : Prop where
  nonneg : 0 ≤ br.msgPtr
  le : br.msgPtr ≤ br.bundleEnd
  bundleEnd : br.bundleEnd ≤ n
  aligned : (br.bundleEnd - br.msgPtr) % 4 = 0

section Elements

variable {br br' : OscBundleReader}

theorem next_same (h : Agree n m m') (hbr : ElementsBefore n br) :
    oscBundleReaderNext P m br = oscBundleReaderNext P m' br := by
  have hle := hbr.le
  have hend := hbr.bundleEnd
  have haligned := hbr.aligned
  rw [oscBundleReaderNext, oscBundleReaderNext]
  split
  · rfl
  · next hne =>
      rw [loadNative, loadNative, h.loadBytes_eq (by omega)]
      cases loadBytes m' br.msgPtr 4 with
      | none => rfl
      | some bs =>
          simp only [Option.map_some, Option.bind_eq_bind, Option.bind_some]
          split
          · rfl
          · rw [getType_same h (by omega)]

/-- An element that is reported ends before `n`, and so do those behind it. -/
theorem elementsBefore_next (hbr : ElementsBefore n br) {type : Int} {out : Option OscElement}
    (hnext : oscBundleReaderNext P m br = some (type, out, br')) (htype : type > oscOk) :
    ∃ element, out = some element ∧ 0 ≤ element.start ∧ 0 < element.len ∧
      element.start + element.len ≤ n ∧ ElementsBefore n br' := by
  have hend := hbr.bundleEnd
  have haligned := hbr.aligned
  rcases cases_of_next hnext with ⟨-, rfl, -, -⟩ | ⟨hnonneg, -, len, rfl, rfl, hret⟩
  · exact absurd htype (by decide)
  rcases hret with rfl | ⟨hle, hget⟩
  · exact absurd htype (by decide)
  have hlen : 4 ≤ len ∧ len % 4 = 0 := by
    by_contra hbad
    rw [oscPacketGetType, if_pos (by omega)] at hget
    rw [← Option.some.inj hget] at htype
    exact absurd htype (by decide)
  exact ⟨_, rfl, by simp only; omega, by simp only; omega, by simp only; omega,
    by simp only; omega, hle, hend, by simp only; omega⟩

end Elements

/-- What follows a call of `osc_msg_reader_init` is the same if it is the same for every
message that is accepted. -/
theorem bind_init_same (h : Alike base n m m') {α : Type} {reader₀ reader₀' : OscMsgReader}
    {buffer len : Int} (hbuffer : 0 ≤ buffer) (hlen : 0 < len) (hle : buffer + len ≤ n)
    (accept accept' : OscMsgReader → Option α) (refuse : Option α)
    (haccept : ∀ reader, stringAt m reader.msgPtr = stringAt m' reader.msgPtr →
      (oscMsgReaderIsTyped reader → ∃ q, StaysBefore n m reader q) →
      accept reader = accept' reader) :
    ((oscMsgReaderInit m reader₀ buffer len).bind fun x =>
        if x.1 = oscOk then accept x.2 else refuse) =
      (oscMsgReaderInit m' reader₀' buffer len).bind fun x =>
        if x.1 = oscOk then accept' x.2 else refuse := by
  have hsame : SameInit n m m' (oscMsgReaderInit m reader₀ buffer len)
      (oscMsgReaderInit m' reader₀' buffer len) := init_same h hbuffer hlen hle
  cases hx : oscMsgReaderInit m reader₀ buffer len with
  | none =>
      rw [hx] at hsame
      exact hsame.elim
  | some x =>
      obtain ⟨ret, reader⟩ := x
      cases hy : oscMsgReaderInit m' reader₀' buffer len with
      | none =>
          rw [hx, hy] at hsame
          exact hsame.elim
      | some y =>
          obtain ⟨ret', reader'⟩ := y
          rw [hx, hy] at hsame
          obtain ⟨rfl, hok⟩ := hsame
          simp only [Option.bind_some]
          split
          · next hret =>
              obtain ⟨rfl, haddress, htyped⟩ := hok hret
              exact haccept reader haddress htyped
          · rfl

/-- Packets and the elements of bundles are printed the same in both objects. -/
theorem dump_same (h : Alike base n m m') (fuel : Nat) :
    (∀ (buffer len indent : Int) locals locals', 0 ≤ buffer → buffer + len ≤ n →
      dumpOscPacket P F m base locals fuel buffer len indent =
        dumpOscPacket P F m' base locals' fuel buffer len indent) ∧
    ∀ mr mr' br indent locals locals', ElementsBefore n br →
      dumpElements P F m base locals fuel mr br indent =
        dumpElements P F m' base locals' fuel mr' br indent := by
  induction fuel with
  | zero => exact ⟨fun _ _ _ _ _ _ _ => rfl, fun _ _ _ _ _ _ _ => rfl⟩
  | succ fuel ih =>
      obtain ⟨ihPacket, ihElements⟩ := ih
      constructor
      · intro buffer len indent locals locals' hbuffer hle
        rw [dumpOscPacket, dumpOscPacket, getType_same h.toAgree hle]
        cases htype : oscPacketGetType m' buffer len with
        | none => rfl
        | some type =>
            simp only [Option.bind_eq_bind, Option.bind_some]
            split
            · next hmessage =>
                have hlen : 0 < len := by
                  by_contra hneg
                  rw [hmessage, oscPacketGetType, if_pos (by omega)] at htype
                  exact absurd (Option.some.inj htype) (by decide)
                refine bind_init_same h hbuffer hlen hle
                  (fun mr => (dumpOscMessage P F m base fuel locals mr indent).map Prod.fst)
                  (fun mr => (dumpOscMessage P F m' base fuel locals' mr indent).map Prod.fst)
                  (some []) fun reader haddress htyped => ?_
                rw [dumpOscMessage_same h haddress htyped fuel locals locals' indent]
            split
            · next hbundle =>
                rw [oscBundleReaderInit, oscBundleReaderInit]
                split
                · rfl
                · next hlen =>
                    have hmod : len % 4 = 0 := by
                      by_contra hbad
                      rw [hbundle, oscPacketGetType, if_pos (by omega)] at htype
                      exact absurd (Option.some.inj htype) (by decide)
                    have hbr : ElementsBefore n ⟨buffer, buffer + len, buffer + 16⟩ := by
                      refine ⟨?_, ?_, hle, ?_⟩ <;> simp only <;> omega
                    simp only [ihElements locals.mr locals'.mr _ indent locals locals' hbr]
            · rfl
      · intro mr mr' br indent locals locals' hbr
        rw [dumpElements, dumpElements, next_same h.toAgree hbr]
        cases hnext : oscBundleReaderNext P m' br with
        | none => rfl
        | some x =>
            obtain ⟨type, out, br'⟩ := x
            simp only [Option.bind_eq_bind, Option.bind_some]
            split
            · next hpos =>
                obtain ⟨element, rfl, hstart, hlen, hle, hbehind⟩ :=
                  elementsBefore_next hbr hnext hpos
                simp only [Option.bind_some]
                split
                · refine bind_init_same h hstart hlen hle
                    (fun reader =>
                      (dumpOscMessage P F m base fuel locals reader (indent + 1)).bind fun out =>
                        (dumpElements P F m base locals fuel out.2 br' indent).bind fun rest =>
                          some (out.1 ++ rest))
                    (fun reader =>
                      (dumpOscMessage P F m' base fuel locals' reader (indent + 1)).bind fun out =>
                        (dumpElements P F m' base locals' fuel out.2 br' indent).bind fun rest =>
                          some (out.1 ++ rest))
                    (some []) fun reader haddress htyped => ?_
                  rw [dumpOscMessage_same h haddress htyped fuel locals locals' (indent + 1)]
                  simp only [fun mr => ihElements mr mr br' indent locals locals' hbehind]
                · rw [ihPacket _ _ (indent + 1) locals locals' hstart hle,
                    ihElements mr mr' br' indent locals locals' hbehind]
            · rfl

/-! ## The receive buffer -/

/-- The buffer as `main` keeps it: its last byte is NUL. -/
structure ReceiveBuffer (base : Int) (m : Memory) : Prop where
  length : m.length = bufferSize
  nul : m[bufferSize - 1]? = some 0
  placed : Placed base m

/-- The text of a datagram that `main` receives into a buffer of zeros. -/
def freshText (P : Platform) (F : FloatText) (base : Int) (fuel : Nat) (locals : Locals)
    (datagram : Option (List UInt8)) : Option (List UInt8) :=
  let (n, buffer) := recvfrom (bufferSize - 1) datagram (List.replicate bufferSize 0)
  dumpOscPacket P F buffer base locals fuel 0 n 0

theorem ReceiveBuffer.fresh (hbase : 0 ≤ base) (hle : base + bufferSize ≤ 18446744073709551616) :
    ReceiveBuffer base (List.replicate bufferSize 0) :=
  ⟨List.length_replicate, by rw [List.getElem?_replicate, if_pos (by decide)], hbase,
    by rwa [List.length_replicate]⟩

/-- A datagram changes no byte behind it, and never the last one. -/
theorem ReceiveBuffer.filled (h : ReceiveBuffer base m) {bytes : List UInt8}
    (hlt : bytes.length < bufferSize) : ReceiveBuffer base (overwrite m 0 bytes) := by
  have hlength := h.length
  have hsame : (overwrite m 0 bytes).length = m.length := length_overwrite (by omega)
  refine ⟨hsame.trans hlength, ?_, h.placed.nonneg, ?_⟩
  · rw [getElem?_overwrite_of_le (Nat.zero_le _) (by omega)]
    exact h.nul
  · rw [hsame]
    exact h.placed.le

/-- Two buffers with the same datagram in front. -/
theorem ReceiveBuffer.alike (h : ReceiveBuffer base m) (h' : ReceiveBuffer base m')
    (htake : m.take n = m'.take n) (hn : n < bufferSize) : Alike base n m m' := by
  have hnul : ∀ l, ReceiveBuffer base l → 0 ∈ l.drop n := by
    intro l hl
    refine List.mem_of_getElem? (i := bufferSize - 1 - n) ?_
    rw [List.getElem?_drop, Nat.add_sub_cancel' (by omega)]
    exact hl.nul
  have hlength := h.length
  have hlength' := h'.length
  rw [bufferSize] at hlength hlength'
  exact ⟨⟨htake, hnul m h, hnul m' h'⟩, h.placed, h'.placed, by omega, by omega⟩

/-- One round of the loop prints what it prints with a buffer of zeros. -/
theorem ReceiveBuffer.dump_eq (h : ReceiveBuffer base m) (fuel : Nat) (locals locals' : Locals)
    (datagram : Option (List UInt8)) :
    ReceiveBuffer base (recvfrom (bufferSize - 1) datagram m).2 ∧
      dumpOscPacket P F (recvfrom (bufferSize - 1) datagram m).2 base locals fuel 0
          (recvfrom (bufferSize - 1) datagram m).1 0 =
        freshText P F base fuel locals' datagram := by
  have hfresh : ReceiveBuffer base (List.replicate bufferSize 0) := by
    refine ReceiveBuffer.fresh h.placed.nonneg ?_
    rw [← h.length]
    exact h.placed.le
  cases datagram with
  | none =>
      have halike : Alike base 0 m (List.replicate bufferSize 0) := h.alike hfresh rfl (by decide)
      exact ⟨h, (dump_same halike fuel).1 0 (-1) 0 locals locals' (by decide) (by decide)⟩
  | some bytes =>
      have hlt : (bytes.take (bufferSize - 1)).length < bufferSize := by
        rw [List.length_take, bufferSize]
        omega
      have htake : ∀ l : Memory, (overwrite l 0 (bytes.take (bufferSize - 1))).take
          (bytes.take (bufferSize - 1)).length = bytes.take (bufferSize - 1) := by
        intro l
        have heq := take_overwrite (m := l) (Nat.zero_le _) (bytes.take (bufferSize - 1))
        rwa [Nat.zero_add, List.take_zero, List.nil_append] at heq
      have halike := (h.filled hlt).alike (hfresh.filled hlt)
        ((htake m).trans (htake _).symm) hlt
      exact ⟨h.filled hlt, (dump_same halike fuel).1 0 _ 0 locals locals' (by decide)
        (Int.zero_add _).le⟩

/-- Whatever datagrams came before, and whatever the locals hold, the loop prints every
datagram as if it were the only one. -/
theorem receiveLoop_eq (P : Platform) (F : FloatText) (base : Int) (fuel : Nat)
    (arrivals : List Arrival) (buffer : Memory) (locals : Locals)
    (hbuffer : ReceiveBuffer base buffer) :
    receiveLoop P F base fuel arrivals buffer =
      (arrivals.mapM fun arrival => freshText P F base fuel locals arrival.datagram).map
        List.flatten := by
  induction arrivals generalizing buffer with
  | nil => rfl
  | cons arrival arrivals ih =>
      obtain ⟨hnext, htext⟩ := hbuffer.dump_eq (P := P) (F := F) fuel arrival.locals locals
        arrival.datagram
      have hloop : receiveLoop P F base fuel (arrival :: arrivals) buffer =
          (freshText P F base fuel locals arrival.datagram).bind fun text =>
            (receiveLoop P F base fuel arrivals
              (recvfrom (bufferSize - 1) arrival.datagram buffer).2).bind fun rest =>
                some (text ++ rest) := by
        rw [← htext]
        rfl
      rw [hloop, List.mapM_cons, ih _ hnext]
      cases freshText P F base fuel locals arrival.datagram with
      | none => rfl
      | some text =>
          cases arrivals.mapM fun arrival => freshText P F base fuel locals arrival.datagram with
          | none => rfl
          | some texts => rfl

/-- The locals of a call that has not assigned any. -/
def zeroLocals : Locals := ⟨⟨0, 0, none, none⟩, ⟨0, 0, 0⟩, zeroArg⟩

/-- A message with tags, and then four bytes without a NUL, in front of what is left of it. -/
theorem receiveLoop_eq_stale :
    receiveLoop littleHost ⟨fun _ => [], fun _ => []⟩ 4096 bufferSize
        [⟨some intMessage, zeroLocals⟩, ⟨some openAddress, zeroLocals⟩]
        (List.replicate bufferSize 0) =
      ([⟨some intMessage, zeroLocals⟩, ⟨some openAddress, zeroLocals⟩].mapM fun arrival : Arrival =>
        freshText littleHost ⟨fun _ => [], fun _ => []⟩ 4096 bufferSize zeroLocals
          arrival.datagram).map List.flatten :=
  receiveLoop_eq littleHost ⟨fun _ => [], fun _ => []⟩ 4096 bufferSize
    [⟨some intMessage, zeroLocals⟩, ⟨some openAddress, zeroLocals⟩] (List.replicate bufferSize 0)
    zeroLocals (ReceiveBuffer.fresh (by decide) (by decide))

end LittleOscar.UdpDump
