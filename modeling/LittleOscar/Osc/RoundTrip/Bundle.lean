import LittleOscar.Osc.Bundle.Traversal
import LittleOscar.Osc.Writer.Bundle
import Mathlib.Data.List.Forall2

/-!
# A bundle from the writer to the reader

`BundleReadsBack` is the round trip of a bundle: the packet is a bundle, its timetag
comes back, and the elements are the ranges that the writer reported for its messages,
in order and followed by `OSC_END`. On a little-endian host the two sides disagree in
three places. The writer stores the length of an element as the host does, and the
reader converts it from network order; the writer converts the timetag to network
order, and the reader does not convert it back; and `osc_bundle_reader_init` refuses a
bundle without elements. Besides, the first bundle of a process uses up the string
that the header of every later one is copied from.
-/

namespace LittleOscar

open Machine Transition WriterState

variable {P : Platform}

/-- The reader gives back the bundle from the first `len` bytes of `m`. -/
def BundleReadsBack (P : Platform) (m : Memory) (len : Int) (reader₀ : OscBundleReader)
    (timetag : UInt64) (written : List (Int × Int)) : Prop :=
  oscPacketGetType m 0 len = some oscBundle ∧
    ∃ reader, oscBundleReaderInit reader₀ 0 len = (oscOk, reader) ∧
      oscBundleReaderGetTimetag P m reader = some timetag ∧
      ∃ fuel elements reader', traverse P m fuel reader = some (elements, oscEnd, reader') ∧
        elements.map (fun e => (e.2.start, e.2.start + e.2.len)) = written

/-- The range of a record. -/
def BundleRecord.range (r : BundleRecord) : Int × Int := (r.start, r.start + r.bytes.length)

theorem int32Field_frame (hpf : P.order = .little) (msg : OscMessage) (rest : List UInt8) :
    int32Field (msg.frame P ++ rest) = wrap32 (byteSwap 4 (msg.bytes P).length) := by
  have htake : (msg.frame P ++ rest).take 4 = littleEndian 4 (msg.bytes P).length := by
    have hnative : native P.order 4 (msg.bytes P).length =
        littleEndian 4 (msg.bytes P).length := by
      simp only [native, hpf]
    rw [OscMessage.frame, hnative, List.append_assoc,
      List.take_left' (length_littleEndian 4 _)]
  rw [int32Field, htake]
  rfl

theorem length_frame (msg : OscMessage) :
    (msg.frame P).length = 4 + (msg.bytes P).length := by
  rw [OscMessage.frame, List.length_append, length_native]

theorem drop_frame (msg : OscMessage) (rest : List UInt8) :
    (msg.frame P ++ rest).drop (4 + (msg.bytes P).length) = rest := by
  rw [← length_frame, List.drop_left]

theorem frames_cons (msg : OscMessage) (msgs : List OscMessage) :
    frames P (msg :: msgs) = msg.frame P ++ frames P msgs := rfl

theorem frame_append_ne_nil (msg : OscMessage) (rest : List UInt8) :
    msg.frame P ++ rest ≠ [] := by
  apply List.ne_nil_of_length_pos
  rw [List.length_append, length_frame]
  omega

/-- Frames of palindromic lengths are split into the ranges of their messages. -/
theorem splitRecords_frames (hpf : P.order = .little) {msgs : List OscMessage} {i : Nat}
    (hlt : (frames P msgs).length < 2147483648)
    (hswap : ∀ msg ∈ msgs, Palindromic 4 (msg.bytes P).length) :
    (splitRecords i (frames P msgs)).1.map BundleRecord.range = ranges P i msgs ∧
      (splitRecords i (frames P msgs)).2 = true := by
  induction msgs generalizing i with
  | nil =>
      have hnil : frames P [] = [] := rfl
      rw [splitRecords, hnil, splitBy_nil]
      exact ⟨rfl, rfl⟩
  | cons msg msgs ih =>
      have hfour := msg.four_le_length_bytes (P := P)
      have hmod := msg.length_bytes_mod (P := P)
      rw [frames_cons, List.length_append, length_frame] at hlt
      have hpal : byteSwap 4 (msg.bytes P).length = (msg.bytes P).length :=
        hswap msg List.mem_cons_self
      have hfield : int32Field (msg.frame P ++ frames P msgs) = (msg.bytes P).length := by
        rw [int32Field_frame hpf, hpal, wrap32_of_range (by omega) (by omega)]
      have hrecord : IsRecordLength ((msg.frame P ++ frames P msgs).length - 4)
          ((msg.bytes P).length : Int) := by
        rw [List.length_append, length_frame]
        exact ⟨by omega, by omega, by omega⟩
      have hlength : (((msg.frame P ++ frames P msgs).drop 4).take
          (msg.bytes P).length).length = (msg.bytes P).length := by
        rw [List.length_take, List.length_drop, List.length_append, length_frame]
        omega
      obtain ⟨hranges, htile⟩ := ih (i := i + 4 + (msg.bytes P).length) (by omega)
        fun a ha => hswap a (List.mem_cons_of_mem msg ha)
      rw [splitRecords] at hranges htile
      rw [splitRecords, frames_cons, splitBy_of_length (frame_append_ne_nil _ _) hfield hrecord,
        Int.toNat_natCast, drop_frame]
      refine ⟨?_, htile⟩
      have hstart : ((i + 4 : Nat) : Int) = i + 4 := rfl
      have hend : (i : Int) + 4 + ((msg.bytes P).length : Nat) =
          i + (4 + (msg.bytes P).length : Nat) := by omega
      have hnext : ((i + 4 + (msg.bytes P).length : Nat) : Int) =
          i + (4 + (msg.bytes P).length : Nat) := by omega
      rw [List.map_cons, hranges, ranges, length_frame, BundleRecord.range, hlength, hnext,
        hstart, hend]

/-- A split that gives the ranges of the messages finds palindromic lengths only. -/
theorem palindromic_of_splitRecords (hpf : P.order = .little) {msgs : List OscMessage}
    {i : Nat} (hlt : (frames P msgs).length < 2147483648)
    (h : (splitRecords i (frames P msgs)).1.map BundleRecord.range = ranges P i msgs) :
    ∀ msg ∈ msgs, Palindromic 4 (msg.bytes P).length := by
  induction msgs generalizing i with
  | nil => simp
  | cons msg msgs ih =>
      rw [frames_cons, List.length_append, length_frame] at hlt
      obtain ⟨n, hn⟩ : ∃ n, int32Field (msg.frame P ++ frames P msgs) = n := ⟨_, rfl⟩
      have hne := frame_append_ne_nil (P := P) msg (frames P msgs)
      rw [splitRecords, frames_cons] at h
      by_cases hrecord : IsRecordLength ((msg.frame P ++ frames P msgs).length - 4) n
      · rw [splitBy_of_length hne hn hrecord, List.map_cons, ranges, List.cons.injEq] at h
        obtain ⟨hhead, htail⟩ := h
        obtain ⟨hfour, -, hle⟩ := hrecord
        have hlength : (((msg.frame P ++ frames P msgs).drop 4).take n.toNat).length =
            n.toNat := by
          rw [List.length_take, List.length_drop]
          omega
        have hsize : n.toNat = (msg.bytes P).length := by
          rw [BundleRecord.range, hlength, length_frame] at hhead
          have hend := (Prod.mk.inj hhead).2
          simp only at hend
          omega
        have hpal : Palindromic 4 (msg.bytes P).length := by
          have hswap := byteSwap_lt 4 (msg.bytes P).length
          rw [int32Field_frame hpf] at hn
          unfold Palindromic
          generalize byteSwap 4 (msg.bytes P).length = x at hn hswap ⊢
          unfold wrap32 at hn
          omega
        have hnext : ((i + 4 + n.toNat : Nat) : Int) = i + ((msg.frame P).length : Nat) := by
          rw [length_frame]
          omega
        rw [← hnext, hsize, drop_frame] at htail
        intro a ha
        rcases List.mem_cons.mp ha with rfl | hmem
        · exact hpal
        · exact ih (by omega) htail a hmem
      · rw [← hn] at hrecord
        rw [splitBy_of_not_length hne hrecord, ranges] at h
        cases h

/-! ## The whole bundle -/

/-- The range holds the bytes of the message. -/
def HoldsMessage (P : Platform) (m : Memory) (range : Int × Int) (msg : OscMessage) : Prop :=
  At m range.1 (msg.bytes P) ∧ range.2 = range.1 + ((msg.bytes P).length : Nat)

theorem forall₂_ranges {m : Memory} {p : Int} {msgs : List OscMessage}
    (hat : At m p (frames P msgs)) :
    List.Forall₂ (HoldsMessage P m) (ranges P p msgs) msgs := by
  induction msgs generalizing p with
  | nil => exact List.Forall₂.nil
  | cons msg msgs ih =>
      rw [frames_cons] at hat
      have hright := hat.left.right
      rw [length_native] at hright
      have hend : p + ((msg.frame P).length : Nat) = p + 4 + ((msg.bytes P).length : Nat) := by
        rw [length_frame]
        omega
      exact List.Forall₂.cons ⟨hright, hend⟩ (ih hat.right)

/-- The host loads the timetag as the bytes lie in the packet. -/
theorem getTimetag_eq (hpf : P.order = .little) {m : Memory} {timetag : UInt64}
    {reader : OscBundleReader} (hat : At m (reader.bundlePtr + 8) (bigEndian 8 timetag.toNat)) :
    oscBundleReaderGetTimetag P m reader = some timetag ↔ Palindromic 8 timetag.toNat := by
  have hload := loadNative_at (P := P) hat
  have hnative := ofNat_ofNative_bigEndian P timetag
  rw [length_bigEndian] at hload
  rw [oscBundleReaderGetTimetag, hload, Option.map_some, Option.some.injEq, hnative]
  simp [hpf]

theorem map_report (records : List BundleRecord) :
    (records.map BundleRecord.report).map (fun e => (e.2.start, e.2.start + e.2.len)) =
      records.map BundleRecord.range := by
  rw [List.map_map]
  rfl

/-- Behind a header of sixteen bytes, the reader finds the messages where their lengths
read the same in both byte orders. -/
theorem traverse_frames_iff (hpf : P.order = .little) {header : List UInt8}
    {msgs : List OscMessage} {reader : OscBundleReader} (hheader : header.length = 16)
    (hlt : (frames P msgs).length < 2147483648)
    (hat : AtElement (header ++ frames P msgs) reader 16) :
    (∃ fuel elements reader', traverse P (header ++ frames P msgs) fuel reader =
        some (elements, oscEnd, reader') ∧
      elements.map (fun e => (e.2.start, e.2.start + e.2.len)) = ranges P 16 msgs) ↔
      ∀ msg ∈ msgs, Palindromic 4 (msg.bytes P).length := by
  have hdrop : (header ++ frames P msgs).drop 16 = frames P msgs := by
    rw [← hheader, List.drop_left]
  obtain ⟨reader₁, hrun⟩ := hat.traverse_eq (P := P) (Nat.lt_succ_self _)
  rw [hdrop] at hrun
  constructor
  · rintro ⟨fuel, elements, reader', htraverse, hranges⟩
    obtain ⟨helements, -⟩ := Prod.mk.inj (traverse_unique htraverse hrun)
    rw [helements, map_report] at hranges
    exact palindromic_of_splitRecords hpf hlt hranges
  · intro hswap
    obtain ⟨hranges, htile⟩ := splitRecords_frames (i := 16) hpf hlt hswap
    rw [htile] at hrun
    exact ⟨_, _, reader₁, hrun, (map_report _).trans hranges⟩

theorem length_bundleHeader {kBundle : CString} (timetag : UInt64) :
    (bundleHeader kBundle timetag).length = paddedSize kBundle.bytes.length + 8 := by
  rw [bundleHeader, List.length_append, length_padString, length_bigEndian]

theorem length_frames_mod (msgs : List OscMessage) : (frames P msgs).length % 4 = 0 := by
  induction msgs with
  | nil => rfl
  | cons msg msgs ih =>
      have hmod := msg.length_bytes_mod (P := P)
      rw [frames_cons, List.length_append, length_frame]
      omega

/-- A packet with the header of a fresh process is read back under the three conditions
that the two sides need to agree. -/
theorem bundleReadsBack_literal_iff (hpf : P.order = .little) {timetag : UInt64}
    {msgs : List OscMessage} (reader₀ : OscBundleReader)
    (hlt : (frames P msgs).length < 2147483648) :
    BundleReadsBack P (bundleHeader bundleLiteral timetag ++ frames P msgs)
        (bundleHeader bundleLiteral timetag ++ frames P msgs).length reader₀ timetag
        (ranges P (bundleHeader bundleLiteral timetag).length msgs) ↔
      msgs ≠ [] ∧ Palindromic 8 timetag.toNat ∧
        ∀ msg ∈ msgs, Palindromic 4 (msg.bytes P).length := by
  have hheader : (bundleHeader bundleLiteral timetag).length = 16 := length_bundleHeader timetag
  have hmod := length_frames_mod (P := P) msgs
  have hlen : (bundleHeader bundleLiteral timetag ++ frames P msgs).length =
      16 + (frames P msgs).length := by
    rw [List.length_append, hheader]
  have hat : At (bundleHeader bundleLiteral timetag ++ frames P msgs) 0
      (bundleHeader bundleLiteral timetag) := ⟨[], frames P msgs, rfl, rfl⟩
  have hfirst : loadByte (bundleHeader bundleLiteral timetag ++ frames P msgs) 0 =
      some '#'.toUInt8 := hat.left.loadByte
  have htype : oscPacketGetType (bundleHeader bundleLiteral timetag ++ frames P msgs) 0
      (bundleHeader bundleLiteral timetag ++ frames P msgs).length = some oscBundle := by
    rw [oscPacketGetType, if_neg (by rw [hlen]; omega), hfirst]
    rfl
  have htime : At (bundleHeader bundleLiteral timetag ++ frames P msgs) (0 + 8)
      (bigEndian 8 timetag.toNat) := hat.right
  have hsize : msgs ≠ [] ↔ ¬ (16 + (frames P msgs).length : Int) < 20 := by
    cases msgs with
    | nil =>
        have hshort : (16 + (frames P []).length : Int) < 20 :=
          show (16 + (0 : Nat) : Int) < 20 by decide
        exact ⟨fun habs => absurd rfl habs, fun habs => absurd hshort habs⟩
    | cons msg msgs =>
        have hfour := msg.four_le_length_bytes (P := P)
        rw [frames_cons, List.length_append, length_frame]
        exact ⟨fun _ => by omega, fun _ => List.cons_ne_nil msg msgs⟩
  have helement : AtElement (bundleHeader bundleLiteral timetag ++ frames P msgs)
      ⟨0, 0 + (bundleHeader bundleLiteral timetag ++ frames P msgs).length, 0 + 16⟩ 16 :=
    ⟨Int.zero_add _, rfl, by omega, rfl, by omega⟩
  have hinit : oscBundleReaderInit reader₀ 0
      (bundleHeader bundleLiteral timetag ++ frames P msgs).length =
        if (16 + (frames P msgs).length : Int) < 20 then (oscError, reader₀)
        else (oscOk, ⟨0, 0 + (bundleHeader bundleLiteral timetag ++ frames P msgs).length,
          0 + 16⟩) := by
    rw [oscBundleReaderInit, hlen, Int.natCast_add]
    rfl
  rw [BundleReadsBack, hinit, hsize, hheader]
  constructor
  · rintro ⟨-, reader, hreader, htimetag, htraverse⟩
    split at hreader
    · exact absurd (congrArg Prod.fst hreader) oscError_ne_oscOk
    · next hroom =>
        obtain rfl := (Prod.mk.inj hreader).2
        exact ⟨hroom, (getTimetag_eq hpf htime).mp htimetag,
          (traverse_frames_iff hpf hheader hlt helement).mp htraverse⟩
  · rintro ⟨hroom, hpal, hswap⟩
    rw [if_neg hroom]
    exact ⟨htype, _, rfl, (getTimetag_eq hpf htime).mpr hpal,
      (traverse_frames_iff hpf hheader hlt helement).mpr hswap⟩

/-- The header of a later bundle does not begin with `#`. -/
theorem not_bundleReadsBack_empty {timetag : UInt64} {rest : List UInt8} {len : Int}
    {reader₀ : OscBundleReader} {written : List (Int × Int)} :
    ¬ BundleReadsBack P (bundleHeader CString.empty timetag ++ rest) len reader₀ timetag
      written := by
  rintro ⟨htype, -⟩
  have hat : At (bundleHeader CString.empty timetag ++ rest) 0
      (bundleHeader CString.empty timetag) := ⟨[], rest, rfl, rfl⟩
  have hfirst : loadByte (bundleHeader CString.empty timetag ++ rest) 0 = some 0 :=
    hat.left.loadByte
  rw [oscPacketGetType, hfirst] at htype
  split at htype
  · exact absurd (Option.some.inj htype) (by decide)
  · exact absurd (Option.some.inj htype) (by decide)

/-- In a buffer with room for all of it the writer lays out the bundle and says where
its messages are, and the reader gives it back exactly when it is the first bundle of
the process, has an element, and its timetag and the length of every message read the
same in both byte orders. -/
theorem bundleReadsBack_iff (P : Platform) (w : OscWriter) (buffer : Memory)
    (kBundle : CString) (timetag : UInt64) (msgs : List OscMessage) (s₀ : WriterState)
    (reader₀ : OscBundleReader) (hpf : P.order = .little)
    (hlen : buffer.length < 2147483648)
    (hkBundle : kBundle = bundleLiteral ∨ kBundle = CString.empty)
    (hroom : 16 + (frames P msgs).length ≤ buffer.length)
    (hinit : freshWriter w buffer kBundle = some s₀) :
    ∃ written s, writeBundle P timetag msgs s₀ = some (written, s) ∧
      List.Forall₂ (HoldsMessage P (s.mem.take s.pos.toNat)) written msgs ∧
      (BundleReadsBack P (s.mem.take s.pos.toNat) s.pos reader₀ timetag written ↔
        kBundle = bundleLiteral ∧ msgs ≠ [] ∧ Palindromic 8 timetag.toNat ∧
          ∀ msg ∈ msgs, Palindromic 4 (msg.bytes P).length) := by
  obtain ⟨-, hpos, -, hstate, hk, hend⟩ := freshWriter_eq hinit
  have hheader : (bundleHeader kBundle timetag).length ≤ 16 := by
    rw [length_bundleHeader]
    rcases hkBundle with rfl | rfl
    · decide
    · decide
  obtain ⟨s, hwrite, hmem, hlast⟩ := writeBundle_eq (P := P) timetag
    msgs (inside_freshWriter hlen hinit) hstate hpos
    (by rw [hk, hend, List.length_append]; omega)
  rw [hk] at hwrite hmem hlast
  have hat : At (bundleHeader kBundle timetag ++ frames P msgs)
      (bundleHeader kBundle timetag).length (frames P msgs) :=
    ⟨_, [], by rw [List.append_nil], rfl⟩
  refine ⟨_, s, hwrite, ?_, ?_⟩
  · rw [hmem]
    exact forall₂_ranges hat
  · rw [hmem, hlast]
    rcases hkBundle with rfl | rfl
    · rw [bundleReadsBack_literal_iff hpf reader₀ (by omega)]
      exact ⟨fun h => ⟨rfl, h⟩, fun h => h.2⟩
    · constructor
      · exact fun h => absurd h not_bundleReadsBack_empty
      · rintro ⟨hliteral, -⟩
        exact absurd hliteral (by decide)

/-- A bundle with the message `/a`, in a buffer that has just the room for it. -/
theorem bundleReadsBack_emptyMessage :
    ∃ s₀, freshWriter zeroWriter (List.replicate 24 0) bundleLiteral = some s₀ ∧
      ∃ written s, writeBundle littleHost 0 [emptyMessage] s₀ = some (written, s) ∧
        (BundleReadsBack littleHost (s.mem.take s.pos.toNat) s.pos ⟨0, 0, 0⟩ 0 written ↔
          Palindromic 4 4) := by
  obtain ⟨s₀, hinit⟩ : ∃ s₀, freshWriter zeroWriter (List.replicate 24 0) bundleLiteral =
      some s₀ := ⟨_, rfl⟩
  obtain ⟨written, s, hwrite, -, hiff⟩ := bundleReadsBack_iff littleHost zeroWriter
    (List.replicate 24 0) bundleLiteral 0 [emptyMessage] s₀ ⟨0, 0, 0⟩ rfl (by decide)
    (Or.inl rfl) (by decide) hinit
  refine ⟨s₀, hinit, written, s, hwrite, ?_⟩
  rw [hiff]
  constructor
  · rintro ⟨-, -, -, hswap⟩
    exact hswap emptyMessage List.mem_cons_self
  · intro habs
    exact absurd habs (by decide)

/-- The timetag `1` is read as the number with its bytes in reverse. -/
theorem timetag_one_not_bundleReadsBack :
    ∃ s₀ written s, freshWriter zeroWriter (List.replicate 24 0) bundleLiteral = some s₀ ∧
      writeBundle littleHost 1 [emptyMessage] s₀ = some (written, s) ∧
      ¬ BundleReadsBack littleHost (s.mem.take s.pos.toNat) s.pos ⟨0, 0, 0⟩ 1 written := by
  refine ⟨_, _, _, rfl, rfl, ?_⟩
  rintro ⟨-, reader, hinit, htimetag, -⟩
  cases hinit
  exact absurd htimetag (by decide)

end LittleOscar
