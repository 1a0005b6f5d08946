import LittleOscar.Ideas.Writer.Frame
import LittleOscar.Osc.Dump.Print

/-!
# Frames of TUIO in a dump

What `udp_dump` prints when it is sent frames of TUIO, `len` bytes of each. The messages in
front of an alive message are printed. The length of the alive message itself is too large by
eight, and it is not counted in `len`; so it is printed only if at least that many bytes were
counted behind it, and what the reader then takes for the next length are the letters `o/2D`
of an address. Nothing behind an alive message is printed: `frames_printed`.
-/

namespace LittleOscar.Interop

open Machine Ideas UdpDump

/-! ## The text -/

section Text

variable (P : Platform) (F : FloatText) (base : Int) (demote : UInt64 → UInt32)
  (promote : UInt32 → UInt64)

/-- The lines of the message of a call. They do not depend on where it lies. -/
def callText (type : TuioProfile) (call : TuioCall) : List UInt8 :=
  messageText P F base 0 1 (profileAddresses type) (tuioArguments demote promote type call)

/-- The bytes that `len` counts behind the header. -/
def room (type : TuioProfile) (calls : List TuioCall) : Nat :=
  (calls.map (counted demote promote type)).sum

/-- The calls whose messages are printed. -/
def shown (type : TuioProfile) : List TuioCall → List TuioCall
  | [] => []
  | .alive sIds :: calls =>
      if (tuioRecord demote promote type (.alive sIds)).length + 8 ≤ room demote promote type calls
      then [.alive sIds] else []
  | call :: calls => call :: shown type calls

/-- The lines of a frame. -/
def frameText (frame : TuioFrame) : List UInt8 :=
  if room demote promote frame.type frame.calls = 0 then []
  else endLine (literal "#bundle (timetag=xxx,sz=xxx)") ++
    ((shown demote promote frame.type frame.calls).map
      (callText P F base demote promote frame.type)).flatten

end Text

variable {P : Platform} {F : FloatText} {base : Int} {demote : UInt64 → UInt32}
  {promote : UInt32 → UInt64} {m : Memory} {type : TuioProfile}

/-- An argument that is not a blob is printed the same everywhere. -/
theorem argLines_eq {args : List OscArgument} (h : ∀ bytes, .blob bytes ∉ args)
    (indent p p' : Int) :
    argLines P F base indent p args = argLines P F base indent p' args := by
  induction args generalizing p p' with
  | nil => rfl
  | cons arg args ih =>
      have hvalue : valueText P F base p arg = valueText P F base p' arg := by
        cases arg with
        | blob bytes => exact absurd List.mem_cons_self (h bytes)
        | _ => rfl
      rw [argLines, argLines, hvalue,
        ih (fun bytes hmem => h bytes (List.mem_cons_of_mem _ hmem)) _
          (p' + arg.payload.length)]

theorem blob_notMem_tuioArguments (type : TuioProfile) (call : TuioCall) (bytes : List UInt8) :
    .blob bytes ∉ tuioArguments demote promote type call := by
  cases call with
  | source source => simp [tuioArguments]
  | alive sIds => simp [tuioArguments, idArguments]
  | set msg => cases type <;> simp [tuioArguments]
  | fseq fseq => simp [tuioArguments]

theorem messageText_eq (type : TuioProfile) (call : TuioCall) (p : Int) :
    messageText P F base p 1 (profileAddresses type) (tuioArguments demote promote type call) =
      callText P F base demote promote type call := by
  rw [callText, messageText, messageText,
    argLines_eq (blob_notMem_tuioArguments type call)]

/-! ## The records -/

/-- The address of every message begins with `/tui` and goes on with what a reader takes for
a length. -/
theorem exists_tuioMessage (demote : UInt64 → UInt32) (promote : UInt32 → UInt64)
    (type : TuioProfile) (call : TuioCall) :
    ∃ tail, tuioMessage demote promote type call =
      ['/', 't', 'u', 'i'].map Char.toUInt8 ++ (bigEndian 4 1865364036 ++ tail) := by
  have haddress : padString (profileAddresses type).bytes =
      ['/', 't', 'u', 'i'].map Char.toUInt8 ++ (bigEndian 4 1865364036 ++
        (padString (profileAddresses type).bytes).drop 8) := by
    cases type <;> decide
  refine ⟨(padString (profileAddresses type).bytes).drop 8 ++
    (padString (tagString (tuioArguments demote promote type call)) ++
      payloads (tuioArguments demote promote type call)), ?_⟩
  rw [tuioMessage, encodeMessage, ← payloads]
  nth_rewrite 1 [haddress]
  simp only [List.append_assoc]

theorem tuioMessage_mod (demote : UInt64 → UInt32) (promote : UInt32 → UInt64)
    (type : TuioProfile) (call : TuioCall) :
    (tuioMessage demote promote type call).length % 4 = 0 :=
  encodeMessage_mod _ _

theorem room_mod (demote : UInt64 → UInt32) (promote : UInt32 → UInt64) (type : TuioProfile)
    (calls : List TuioCall) : room demote promote type calls % 4 = 0 := by
  induction calls with
  | nil => rfl
  | cons call calls ih =>
      have hmod := tuioMessage_mod demote promote type call
      have hcounted : counted demote promote type call % 4 = 0 := by
        cases call with
        | alive sIds => rfl
        | _ =>
            rw [counted_of_ne_alive]
            · omega
            · exact nofun
      rw [room, List.map_cons, List.sum_cons, ← room]
      omega

theorem at_take_append {p : Int} {bs cs : List UInt8} {k : Nat} (h : At m p ((bs ++ cs).take k))
    (hle : bs.length ≤ k) : At m p bs ∧ At m (p + bs.length) (cs.take (k - bs.length)) := by
  rw [List.take_append, List.take_of_length_le hle] at h
  exact ⟨h.left, h.right⟩

/-! ## What is printed -/

section Elements

variable {br : OscBundleReader} {p : Int}

/-- A message behind a length that is at least its own is printed. -/
theorem dumpElements_message (hplaced : Placed base m) (call : TuioCall) {n : Nat} (k fuel : Nat)
    (hrecord : At m p (bigEndian 4 n ++ tuioMessage demote promote type call))
    (hptr : br.msgPtr = p) (hend : br.bundleEnd = p + (4 + n + k : Nat))
    (hinside : br.bundleEnd ≤ m.length) (hlt : n < 2147483648) (hmod : n % 4 = 0)
    (hle : (tuioMessage demote promote type call).length ≤ n) (hfuel : n ≤ fuel) (mr : OscMsgReader)
    (locals : Locals) :
    ∃ mr', UdpDump.dumpElements P F m base locals (fuel + 1) mr br 0 =
      (UdpDump.dumpElements P F m base locals fuel mr'
        { br with msgPtr := p + (4 + n : Nat) } 0).map
          fun rest => callText P F base demote promote type call ++ rest := by
  have hright := hrecord.right
  rw [length_bigEndian] at hright
  have hmessage : At m (p + 4) (tuioMessage demote promote type call) := hright
  have hnonneg := hrecord.nonneg
  have hwithin := hmessage.le_length
  obtain ⟨tail, hshape⟩ := exists_tuioMessage demote promote type call
  have height : 8 ≤ (tuioMessage demote promote type call).length := by
    rw [hshape, List.length_append, List.length_append, length_bigEndian]
    simp
    omega
  have hfield : AtField m br n := UdpDump.atField_of_at hrecord hptr (by omega) hinside hlt
  obtain ⟨b, hb, hnext⟩ := hfield.next_of_record (P := P) ⟨by omega, by omega, by omega⟩
  have hslash : b = '/'.toUInt8 := by
    have hfirst : At m (p + 4) ('/'.toUInt8 :: (['t', 'u', 'i'].map Char.toUInt8 ++
        (bigEndian 4 1865364036 ++ tail))) := by
      rw [hshape] at hmessage
      exact hmessage
    rw [hptr] at hb
    exact Option.some.inj (hb.symm.trans hfirst.loadByte)
  obtain ⟨reader, mr', hinit, htext⟩ := @dumpOscMessage_encode P F m base hplaced _ n _ _
    hmessage (by rw [← tuioMessage]; omega) (by rw [← tuioMessage]; omega) mr locals 1 fuel
    (by rw [← tuioMessage]; omega)
  refine ⟨mr', ?_⟩
  have hnumber : '/'.toUInt8 ≠ '#'.toUInt8 := by decide
  have hbehind : p + 4 + (n : Int) = p + (4 + n : Nat) := by omega
  rw [hptr, hslash, if_neg hnumber] at hnext
  rw [hbehind] at hnext
  rw [UdpDump.dumpElements_of_message hnext hinit htext, messageText_eq]

/-- Where a length is too large, the loop ends. -/
theorem dumpElements_past {n k fuel : Nat} (hn : n < 2147483648) (hk : k < 4 + n)
    (hmod : k % 4 = 0) (hat : 4 ≤ k → At m p (bigEndian 4 n)) (hptr : br.msgPtr = p)
    (hend : br.bundleEnd = p + k) (hinside : br.bundleEnd ≤ m.length) (mr : OscMsgReader)
    (locals : Locals) :
    UdpDump.dumpElements P F m base locals (fuel + 1) mr br 0 = some [] := by
  rw [UdpDump.dumpElements]
  by_cases hzero : k = 0
  · rw [oscBundleReaderNext_end (by omega)]
    rfl
  · have hfour : At m p (bigEndian 4 n ++ []) := by
      rw [List.append_nil]
      exact hat (by omega)
    have hnonneg := hfour.nonneg
    have hfield : AtField m br n := UdpDump.atField_of_at hfour hptr (by omega) hinside hn
    have hlarge : ¬ IsRecordLength (br.bundleEnd - br.msgPtr - 4) n := by
      rintro ⟨-, -, hle⟩
      omega
    rw [hfield.next_of_not_record hlarge]
    rfl

/-- Eight bytes into a record, a reader takes letters of the address for a length. -/
theorem at_letters {calls : List TuioCall} {k : Nat} (hcalls : calls ≠ [])
    (hat : At m p (((calls.map (tuioRecord demote promote type)).flatten).take k)) (hk : 12 ≤ k) :
    At m (p + 8) (bigEndian 4 1865364036) := by
  obtain ⟨call, calls, rfl⟩ := List.exists_cons_of_ne_nil hcalls
  obtain ⟨tail, hshape⟩ := exists_tuioMessage demote promote type call
  obtain ⟨before, hlength, hrecord⟩ : ∃ before, before.length = 8 ∧
      tuioRecord demote promote type call = before ++ (bigEndian 4 1865364036 ++ tail) := by
    refine ⟨bigEndian 4 (storedLength (tuioMessage demote promote type call).length call) ++
      ['/', 't', 'u', 'i'].map Char.toUInt8, ?_, ?_⟩
    · rw [List.length_append, length_bigEndian]
      rfl
    · rw [tuioRecord]
      nth_rewrite 2 [hshape]
      rw [List.append_assoc]
  rw [List.map_cons, List.flatten_cons, hrecord, List.append_assoc, List.append_assoc] at hat
  have hbehind := (at_take_append hat (by omega)).2
  rw [hlength] at hbehind
  exact (at_take_append hbehind (by rw [length_bigEndian]; omega)).1

/-- An alive message is printed if enough is counted behind it, and nothing behind it is. -/
theorem dumpElements_alive (hplaced : Placed base m) (sIds : SessionIds) (calls : List TuioCall)
    {fuel : Nat} (hat : At m p ((tuioRecord demote promote type (.alive sIds) ++
      (calls.map (tuioRecord demote promote type)).flatten).take (room demote promote type calls)))
    (hptr : br.msgPtr = p) (hend : br.bundleEnd = p + room demote promote type calls)
    (hinside : br.bundleEnd ≤ m.length) (hlt : room demote promote type calls < 1865364036)
    (hsmall : (tuioRecord demote promote type (.alive sIds)).length + 16 < 2147483648)
    (hfuel : room demote promote type calls < fuel + 1) (mr : OscMsgReader) (locals : Locals) :
    UdpDump.dumpElements P F m base locals (fuel + 1) mr br 0 =
      some ((shown demote promote type (.alive sIds :: calls)).map
        (callText P F base demote promote type)).flatten := by
  obtain ⟨n, hn⟩ : ∃ n, (tuioMessage demote promote type (.alive sIds)).length = n := ⟨_, rfl⟩
  have hmod := tuioMessage_mod demote promote type (.alive sIds)
  have hrest := room_mod demote promote type calls
  have hrecord := length_tuioRecord demote promote type (.alive sIds)
  have hstored : tuioRecord demote promote type (.alive sIds) =
      bigEndian 4 (n + 8) ++ tuioMessage demote promote type (.alive sIds) := by
    rw [tuioRecord, hn, storedLength]
  rw [shown]
  split
  · next hfits =>
      obtain ⟨hfirst, hbehind⟩ := at_take_append hat (by omega)
      rw [hstored] at hfirst
      rw [hrecord, hn] at hbehind
      obtain ⟨mr', hmessage⟩ := dumpElements_message (P := P) (F := F) hplaced
        (.alive sIds) (room demote promote type calls - (n + 12)) fuel hfirst hptr (by omega)
        hinside (by omega) (by omega) (by omega) (by omega) mr locals
      have hcalls : calls ≠ [] := by
        rintro rfl
        have hnil : room demote promote type [] = 0 := rfl
        omega
      have hletters : 4 ≤ room demote promote type calls - (n + 12) →
          At m (p + (4 + (n + 8) : Nat)) (bigEndian 4 1865364036) := by
        intro hfour
        have hletters := at_letters hcalls hbehind (by omega)
        rwa [Int.add_assoc] at hletters
      obtain ⟨fuel, rfl⟩ : ∃ k, fuel = k + 1 := ⟨fuel - 1, by omega⟩
      have hpast := @dumpElements_past P F base m { br with msgPtr := p + (4 + (n + 8) : Nat) }
        (p + (4 + (n + 8) : Nat)) 1865364036 (room demote promote type calls - (n + 12)) fuel
        (by decide) (by omega) (by omega) hletters rfl (by simp only; omega) hinside mr' locals
      rw [hmessage, hpast]
      rfl
  · next hcut =>
      have hlength : 4 ≤ room demote promote type calls → At m p (bigEndian 4 (n + 8)) := by
        intro hfour
        rw [hstored, List.append_assoc] at hat
        exact (at_take_append hat (by rwa [length_bigEndian])).1
      exact dumpElements_past (by omega) (by omega) hrest hlength hptr hend hinside mr locals

/-- The elements of a frame are printed up to the alive message. -/
theorem dumpElements_calls (hplaced : Placed base m) (calls : List TuioCall) {fuel : Nat}
    (hat : At m p (((calls.map (tuioRecord demote promote type)).flatten).take
      (room demote promote type calls)))
    (hptr : br.msgPtr = p) (hend : br.bundleEnd = p + room demote promote type calls)
    (hinside : br.bundleEnd ≤ m.length) (hlt : room demote promote type calls < 1865364036)
    (hsmall : (calls.map (tuioRecord demote promote type)).flatten.length + 16 < 2147483648)
    (hfuel : room demote promote type calls < fuel) (mr : OscMsgReader) (locals : Locals) :
    UdpDump.dumpElements P F m base locals fuel mr br 0 =
      some ((shown demote promote type calls).map
        (callText P F base demote promote type)).flatten := by
  induction calls generalizing br p fuel mr with
  | nil =>
      obtain ⟨fuel, rfl⟩ : ∃ k, fuel = k + 1 := ⟨fuel - 1, by omega⟩
      have hzero : room demote promote type [] = 0 := rfl
      rw [UdpDump.dumpElements, oscBundleReaderNext_end (by omega)]
      rfl
  | cons call calls ih =>
      obtain ⟨fuel, rfl⟩ : ∃ k, fuel = k + 1 := ⟨fuel - 1, by omega⟩
      obtain ⟨n, hn⟩ : ∃ n, (tuioMessage demote promote type call).length = n := ⟨_, rfl⟩
      have hmod := tuioMessage_mod demote promote type call
      have hrecord := length_tuioRecord demote promote type call
      have hroom : room demote promote type (call :: calls) =
          counted demote promote type call + room demote promote type calls := by
        rw [room, List.map_cons, List.sum_cons, ← room]
      have hrest := room_mod demote promote type calls
      rw [List.map_cons, List.flatten_cons, hroom] at hat
      rw [List.map_cons, List.flatten_cons, List.length_append] at hsmall
      rw [hroom] at hend hlt hfuel
      by_cases halive : ∃ sIds, call = .alive sIds
      · obtain ⟨sIds, rfl⟩ := halive
        have hcounted : counted demote promote type (.alive sIds) = 0 := rfl
        rw [hcounted, Nat.zero_add] at hat hend hlt hfuel
        exact dumpElements_alive hplaced sIds calls hat hptr hend hinside hlt (by omega) hfuel mr
          locals
      · have hother : ∀ sIds, call ≠ .alive sIds := fun sIds heq => halive ⟨sIds, heq⟩
        have hshown : shown demote promote type (call :: calls) =
            call :: shown demote promote type calls := by
          cases call with
          | alive sIds => exact absurd rfl (hother sIds)
          | _ => rfl
        have hcounted := counted_of_ne_alive demote promote type hother
        obtain ⟨hfirst, hbehind⟩ := at_take_append hat (by omega)
        rw [tuioRecord, storedLength_of_ne_alive hother] at hfirst
        rw [hcounted, hrecord, hn, Nat.add_sub_cancel_left] at hbehind
        obtain ⟨mr', hmessage⟩ := dumpElements_message (P := P) (F := F) hplaced call
          (room demote promote type calls) fuel (hn ▸ hfirst) hptr (by omega) hinside (by omega)
          (by omega) (by omega) (by omega) mr locals
        have helements := @ih { br with msgPtr := p + (4 + n : Nat) } (p + (4 + n : Nat)) fuel
          hbehind rfl (by simp only; omega) hinside (by omega) (by omega) (by omega) mr'
        rw [hmessage, helements, hshown, List.map_cons, List.flatten_cons]
        rfl

end Elements

/-! ## Frames that are sent -/

/-- The frame is written over the whole of a buffer and all of its calls return 1. The `len`
bytes of the bundle are sent. -/
def Sends (P : Platform) (demote : UInt64 → UInt32) (promote : UInt32 → UInt64)
    (frame : TuioFrame) (datagram : List UInt8) : Prop :=
  ∃ (bundle : TuioBundle) (m : Memory) (bundle' : TuioBundle) (m' : Memory),
    bundle.oscBundle.buffer = 0 ∧ bundle.oscBundle.bufferEnd = m.length ∧ m.length < 2147483648 ∧
    tuioFrame P demote promote frame bundle m = some (bundle', m') ∧
    datagram = m'.take bundle'.oscBundle.len

theorem Sends.eq_take {frame : TuioFrame} {datagram : List UInt8}
    (h : Sends P demote promote frame datagram) :
    datagram = (tuioContent demote promote frame).take (tuioCount demote promote frame) ∧
      tuioCount demote promote frame ≤ (tuioContent demote promote frame).length ∧
      (tuioContent demote promote frame).length < 2147483648 := by
  obtain ⟨bundle, m, bundle', m', hbuffer, hend, hlt, hframe, rfl⟩ := h
  have hfilled := filled_of_tuioFrame hbuffer hend hlt hframe
  have hle := hfilled.le
  have hinside := hfilled.length_le
  have hlt' := hfilled.length_lt
  refine ⟨?_, hle, by omega⟩
  rw [hfilled.len, ← hfilled.take, List.take_take, Nat.min_eq_left hle]

/-- The datagram of a frame is printed as the text of the frame. -/
theorem dumpOscPacket_frame (hplaced : Placed base m) {frame : TuioFrame} {datagram : List UInt8}
    {Q : Platform} (hsends : Sends Q demote promote frame datagram) (hat : At m 0 datagram)
    {fuel : Nat} (hlt : datagram.length < 1865364036) (hfuel : datagram.length < fuel)
    (locals : Locals) :
    UdpDump.dumpOscPacket P F m base locals fuel 0 datagram.length 0 =
      some (frameText P F base demote promote frame) := by
  obtain ⟨hdatagram, hle, hcontent⟩ := hsends.eq_take
  have hlength : datagram.length = tuioCount demote promote frame := by
    rw [hdatagram, List.length_take]
    omega
  have hheader := length_encodeBundle_nil frame.when
  have hcount : tuioCount demote promote frame =
      16 + room demote promote frame.type frame.calls := rfl
  have hmod := room_mod demote promote frame.type frame.calls
  have hinside := hat.le_length
  rw [tuioContent, List.length_append, hheader] at hcontent
  rw [hdatagram, tuioContent] at hat
  obtain ⟨hfirst, hrecords⟩ := at_take_append hat (by omega)
  have hnumber : At m 0 ('#'.toUInt8 :: ((['b', 'u', 'n', 'd', 'l', 'e'].map Char.toUInt8 ++ [0]) ++
      bigEndian 8 frame.when.toNat ++ [])) := hfirst
  rw [hlength] at hlt hfuel hinside ⊢
  rw [hheader, hcount, Nat.add_sub_cancel_left] at hrecords
  obtain ⟨fuel, rfl⟩ : ∃ k, fuel = k + 1 := ⟨fuel - 1, by omega⟩
  have htype : oscPacketGetType m 0 (tuioCount demote promote frame) = some oscBundle := by
    rw [oscPacketGetType, if_neg (by omega), hnumber.loadByte, Option.bind_eq_bind,
      Option.bind_some, if_pos rfl]
  rw [frameText]
  by_cases hzero : room demote promote frame.type frame.calls = 0
  · rw [if_pos hzero]
    exact UdpDump.dumpOscPacket_of_short htype (by omega)
  · have helements := @dumpElements_calls P F base demote promote m frame.type
      ⟨0, (0 : Int) + tuioCount demote promote frame, 0 + 16⟩ (0 + 16) hplaced frame.calls fuel
      hrecords rfl (by simp only; omega) (by simp only; omega) (by omega) (by omega) (by omega)
      locals.mr locals
    rw [if_neg hzero]
    exact UdpDump.dumpOscPacket_of_bundle htype (by omega) helements

/-- Whatever frames of TUIO arrive, `udp_dump` prints the texts of the frames. -/
theorem frames_printed (P Q : Platform) (F : FloatText) (demote : UInt64 → UInt32)
    (promote : UInt32 → UInt64) (base : Int) (fuel : Nat)
    (sent : List (TuioFrame × List UInt8 × Locals)) (buffer : Memory)
    (hbuffer : ReceiveBuffer base buffer)
    (hsent : ∀ s ∈ sent, Sends P demote promote s.1 s.2.1 ∧ s.2.1.length < bufferSize)
    (hfuel : bufferSize ≤ fuel) :
    receiveLoop Q F base fuel (sent.map fun s => ⟨some s.2.1, s.2.2⟩) buffer =
      some (sent.map fun s => frameText Q F base demote promote s.1).flatten := by
  refine hbuffer.receiveLoop_eq_flatten sent (fun s hs => (hsent s hs).2) ?_
  intro s hs m hplaced hat
  obtain ⟨hsends, hlt⟩ := hsent s hs
  exact dumpOscPacket_frame hplaced hsends hat (by rw [bufferSize] at hlt; omega)
    (Nat.lt_of_lt_of_le hlt hfuel) s.2.2

/-- A buffer of 72 bytes for frames. -/
def smallFrames : TuioBundle := ⟨⟨0, none, 72, 0⟩, .tuio2DCur⟩

/-- The bytes that are sent of a frame in this buffer, where a `double` is cut to a `float`. -/
def sentBytes (frame : TuioFrame) : List UInt8 :=
  ((tuioFrame littleHost UInt64.toUInt32 UInt32.toUInt64 frame smallFrames
    (List.replicate 72 0)).map fun r => r.2.take r.1.oscBundle.len).getD []

theorem sends_sentBytes {frame : TuioFrame} (h : (tuioFrame littleHost UInt64.toUInt32
    UInt32.toUInt64 frame smallFrames (List.replicate 72 0)).isSome) :
    Sends littleHost UInt64.toUInt32 UInt32.toUInt64 frame (sentBytes frame) := by
  obtain ⟨⟨bundle', m'⟩, hframe⟩ := Option.isSome_iff_exists.mp h
  refine ⟨smallFrames, List.replicate 72 0, bundle', m', rfl, rfl, by decide, hframe, ?_⟩
  rw [sentBytes, hframe]
  rfl

/-- An alive message with one id, and the number of the frame. -/
def aliveFirst : TuioFrame := ⟨1, .tuio2DCur, [.alive ⟨[7], by decide⟩, .fseq 1]⟩

/-- The same calls in the other order. -/
def aliveLast : TuioFrame := ⟨1, .tuio2DCur, [.fseq 1, .alive ⟨[7], by decide⟩]⟩

theorem frames_printed_alive :
    receiveLoop littleHost ⟨fun _ => [], fun _ => []⟩ 4096 bufferSize
        ([(aliveFirst, sentBytes aliveFirst, zeroLocals),
          (aliveLast, sentBytes aliveLast, zeroLocals)].map fun s => ⟨some s.2.1, s.2.2⟩)
        (List.replicate bufferSize 0) =
      some (literal "#bundle (timetag=xxx,sz=xxx)\n  /tuio/2Dcur\n    i: 7\n" ++
        literal "#bundle (timetag=xxx,sz=xxx)\n  /tuio/2Dcur\n    s: fseq\n    i: 1\n") := by
  rw [frames_printed littleHost littleHost ⟨fun _ => [], fun _ => []⟩ UInt64.toUInt32
    UInt32.toUInt64 4096 bufferSize _ (List.replicate bufferSize 0)
    (ReceiveBuffer.fresh (by decide) (by decide)) ?_ (le_refl _)]
  · decide
  · intro s hs
    rw [List.mem_cons, List.mem_singleton] at hs
    rcases hs with rfl | rfl
    · exact ⟨sends_sentBytes (by decide), by decide⟩
    · exact ⟨sends_sentBytes (by decide), by decide⟩

end LittleOscar.Interop
