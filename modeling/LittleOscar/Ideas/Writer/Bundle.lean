import LittleOscar.Ideas.Writer.Encoding
import LittleOscar.Transition.Run
import Mathlib.Data.List.Forall2

/-!
# Runs of the bundle writer

`osc_bundle_writev` moves the cursor over the length field before it knows that the
message fits, and does not move it back when `osc_writev` returns `-1`. What is written
afterwards lies four bytes behind the record before it, and `len` no longer says where
the bundle ends. `along_keepsBundle` is what holds of the runs without such a call.
-/

namespace LittleOscar.Ideas

open Machine Transition

/-- The message of an `osc_bundle_write` call. -/
structure MessageCall where
  address : CString
  format : CString
  args : List VaArg

/-- A call on a bundle. The buffer of `osc_bundle_init` is a whole object. -/
inductive BundleCall where
  | init (buffer : Object)
  | start (when : UInt64)
  | write (message : MessageCall)

/-- A bundle and its buffer. After a successful `osc_bundle_start`, `since` holds its
timetag and the messages that were written since. -/
structure BundleState where
  bundle : OscBundle
  mem : Memory
  since : Option (UInt64 × List MessageCall)

/-- The bundle that `osc_bundle_init` makes. -/
def freshBundle (buffer : Object) : BundleState where
  bundle := oscBundleInit 0 buffer.bytes.length
  mem := buffer.bytes
  since := none

variable (P : Platform) (demote : UInt64 → UInt32)

/-- The function that a `BundleCall` calls; `osc_bundle_init` returns nothing. -/
def bundleCall (s : BundleState) : BundleCall → Option (Option Int × BundleState)
  | .init buffer => some (none, freshBundle buffer)
  | .start when => do
      let (ret, bundle, mem) ← oscBundleStart P when s.bundle s.mem
      let since := if ret = 1 then some (when, []) else s.since
      some (some ret, { bundle, mem, since })
  | .write message => do
      let (ret, bundle, mem) ← oscBundleWritev P demote message.address message.format
        message.args s.bundle s.mem
      let since :=
        if ret = 1 then s.since.map fun (when, messages) => (when, messages ++ [message])
        else s.since
      some (some ret, { bundle, mem, since })

def bundleStep (s : BundleState) (c : BundleCall) : Option BundleState :=
  (bundleCall P demote s c).map Prod.snd

/-- The reference encoding of the message that a call is given. -/
def Encodes (message : MessageCall) (bs : List UInt8) : Prop :=
  ∃ as, message.format.bytes = as.map OscArgument.tag ∧ PassedAll demote as message.args ∧
    bs = encodeMessage message.address as

/-- The cursor lies in the buffer, `len` bytes behind its beginning, and what is before
it is the bundle of the messages that were written. -/
structure WellFormed (s : BundleState) : Prop where
  cursor : ∃ pos, s.bundle.bufferPos = some pos ∧ s.bundle.buffer ≤ pos ∧
    pos ≤ s.bundle.bufferEnd ∧ s.bundle.len = pos - s.bundle.buffer
  content : ∀ when messages, s.since = some (when, messages) →
    ∃ encoded, List.Forall₂ (Encodes demote) messages encoded ∧
      s.mem.take s.bundle.len = encodeBundle when encoded

/-- The call returns. After a successful `osc_bundle_start` it leaves a well-formed
bundle, and where it returns 0 it leaves the cursor and `len`. -/
def KeepsBundle (s : BundleState) (c : BundleCall) : Prop :=
  ∃ ret t, bundleCall P demote s c = some (ret, t) ∧
    (t.since.isSome → WellFormed demote t) ∧
    (ret = some 0 → t.bundle.bufferPos = s.bundle.bufferPos ∧ t.bundle.len = s.bundle.len)

/-- The bytes behind the cursor. -/
def BundleState.remain (s : BundleState) : Int :=
  s.bundle.bufferEnd - s.bundle.bufferPos.getD 0

/-- There is room for the header of a bundle, and for a message and its length, if there
is room for the length at all. -/
def Admitted (s : BundleState) : BundleCall → Prop
  | .init _ => True
  | .start _ => 16 ≤ s.mem.length
  | .write message => s.remain < 4 ∨
      ∃ bs, Encodes demote message bs ∧ 4 + bs.length ≤ s.remain ∧ 4 + bs.length < 2147483648

variable {P demote}

/-! ## What one call writes -/

/-- The header of a bundle. -/
theorem encodeBundle_nil (when : UInt64) :
    encodeBundle when [] = bundleBytes ++ word64 P when := by
  rw [encodeBundle, word64_eq, List.map_nil, List.flatten_nil, List.append_nil]
  rfl

theorem length_encodeBundle_nil (when : UInt64) : (encodeBundle when []).length = 16 := by
  rw [encodeBundle]
  simp

/-- The name is written if there is room for it. -/
theorem oscWriteAligned_bundleBytes {stop : Int} {m : Memory} (h : Room stop 0 m) :
    (8 ≤ stop → oscWriteAligned (sizeT (stop - 0)) bundleBytes 8 0 0 m =
        some (some 8, overwrite m 0 bundleBytes)) ∧
      (stop < 8 → ∃ m', oscWriteAligned (sizeT (stop - 0)) bundleBytes 8 0 0 m =
        some (none, m')) := by
  obtain ⟨hfits, hfull⟩ := emits_oscWriteAligned stop bundleBytes 8 0 (by decide) (by decide)
    (by decide) 0 m h
  exact ⟨hfits, hfull⟩

/-- A bundle of a buffer that is large enough is started with its header. -/
theorem oscBundleStart_eq {bundle : OscBundle} {m : Memory} (when : UInt64)
    (hbuffer : bundle.buffer = 0) (hend : bundle.bufferEnd = m.length)
    (hlt : m.length < 9223372036854775808) (hroom : 16 ≤ m.length) :
    oscBundleStart P when bundle m =
      some (1, { bundle with bufferPos := some 16, len := 16 },
        overwrite m 0 (encodeBundle when [])) := by
  have hcursor : Room bundle.bufferEnd 0 m := ⟨by omega, by omega, by omega, hlt⟩
  have hname := (oscWriteAligned_bundleBytes hcursor).1 (by omega)
  have hlen : (overwrite m 0 bundleBytes).length = m.length :=
    length_overwrite (show 0 + 8 ≤ m.length by omega)
  have hword := length_word64 (P := P) when
  have hstore : storeBytes (overwrite m 0 bundleBytes) 8 (word64 P when) =
      some (overwrite m 0 (encodeBundle when [])) := by
    rw [storeBytes_eq, if_pos (Or.inr ⟨by omega, by omega⟩), encodeBundle_nil (P := P),
      ← overwrite_append (Nat.zero_le _)]
    rfl
  simp only [oscBundleStart, hbuffer, Option.bind_eq_bind, hname, Option.bind_some]
  rw [if_neg (by omega), hstore]
  rfl

/-- A bundle that could be started has room for its header. -/
theorem le_length_of_oscBundleStart {bundle bundle' : OscBundle} {m m' : Memory} {when : UInt64}
    (hbuffer : bundle.buffer = 0) (hend : bundle.bufferEnd = m.length)
    (hlt : m.length < 9223372036854775808)
    (h : oscBundleStart P when bundle m = some (1, bundle', m')) : 16 ≤ m.length := by
  by_contra hshort
  have hcursor : Room bundle.bufferEnd 0 m := ⟨by omega, by omega, by omega, hlt⟩
  obtain ⟨hfits, hfull⟩ := oscWriteAligned_bundleBytes hcursor
  rw [oscBundleStart, hbuffer] at h
  by_cases hname : 8 ≤ bundle.bufferEnd
  · rw [hfits hname] at h
    simp only [Option.bind_eq_bind, Option.bind_some] at h
    rw [if_pos (by omega)] at h
    cases h
  · obtain ⟨m₁, hnone⟩ := hfull (by omega)
    rw [hnone] at h
    cases h

theorem oscBundleWritev_full (P : Platform) (demote : UInt64 → UInt32) {bundle : OscBundle}
    {pos : Int} (message : MessageCall) (m : Memory) (hpos : bundle.bufferPos = some pos)
    (h : bundle.bufferEnd - pos < 4) :
    oscBundleWritev P demote message.address message.format message.args bundle m =
      some (0, bundle, m) := by
  rw [oscBundleWritev, hpos, Option.bind_eq_bind, Option.bind_some, if_pos h]

theorem toNat_ofInt {n : Nat} (h : n < 2147483648) :
    (Int32.ofInt (n : Int)).toUInt32.toNat = n := by
  apply toInt_ofNat_word
  rw [toInt_ofInt_eq_wrap32, wrap32_of_range (by omega) (by omega)]

/-- What a call that returns 1 writes. The length goes through the `int` that
`osc_writev` returns. -/
theorem oscBundleWritev_of_encodes {bundle : OscBundle} {m : Memory} {pos : Int}
    {message : MessageCall} {bs : List UInt8} (henc : Encodes demote message bs)
    (hpos : bundle.bufferPos = some pos) (hnonneg : 0 ≤ pos)
    (hend : bundle.bufferEnd ≤ m.length) (hlt : m.length < 9223372036854775808)
    (hfits : pos + 4 + bs.length ≤ bundle.bufferEnd) (hret : 0 ≤ wrap32 bs.length) :
    oscBundleWritev P demote message.address message.format message.args bundle m =
      some (1, { bundle with
          bufferPos := some (pos + 4 + wrap32 bs.length)
          len := (bundle.len + sizeT (wrap32 (wrap32 bs.length + 4))) % 18446744073709551616 },
        overwrite (overwrite m (pos + 4).toNat bs) pos.toNat
          (bigEndian 4 (wrap32 bs.length).toNat)) := by
  obtain ⟨as, hformat, hargs, rfl⟩ := henc
  have hsize : sizeT (bundle.bufferEnd - (pos + 4)) = (bundle.bufferEnd - (pos + 4)).toNat :=
    sizeT_of_nonneg (by omega) (by omega)
  have hroom : Room (pos + 4 + (sizeT (bundle.bufferEnd - (pos + 4)) : Nat)) (pos + 4) m := by
    rw [hsize]
    exact ⟨by omega, by omega, by omega, hlt⟩
  have hwritten := (oscWritev_eq (P := P) message.address hformat hargs hroom).1
    (by rw [hsize]; omega)
  have hword : (Int32.ofInt (wrap32 (encodeMessage message.address as).length)).toUInt32.toNat =
      (wrap32 (encodeMessage message.address as).length).toNat := by
    have hsmall := wrap32_lt (encodeMessage message.address as).length
    have hword := toNat_ofInt (n := (wrap32 (encodeMessage message.address as).length).toNat)
      (by omega)
    rwa [Int.toNat_of_nonneg hret] at hword
  have hlen : (overwrite m (pos + 4).toNat (encodeMessage message.address as)).length =
      m.length := length_overwrite (by omega)
  have hstore : storeBytes (overwrite m (pos + 4).toNat (encodeMessage message.address as)) pos
      (bigEndian 4 (wrap32 (encodeMessage message.address as).length).toNat) =
        some (overwrite (overwrite m (pos + 4).toNat (encodeMessage message.address as)) pos.toNat
          (bigEndian 4 (wrap32 (encodeMessage message.address as).length).toNat)) := by
    rw [storeBytes_eq, if_pos (Or.inr ⟨hnonneg, by rw [length_bigEndian]; omega⟩)]
  simp only [oscBundleWritev, hpos, Option.bind_eq_bind, Option.bind_some]
  rw [if_neg (by omega), hwritten, Option.bind_some]
  simp only [word32_eq, hword, hstore, Option.bind_some]
  rw [if_neg (by omega)]

/-- A message that fits becomes a record. -/
theorem oscBundleWritev_eq {bundle : OscBundle} {m : Memory} {pos : Int}
    {message : MessageCall} {bs : List UInt8} (henc : Encodes demote message bs)
    (hpos : bundle.bufferPos = some pos) (hnonneg : 0 ≤ pos)
    (hend : bundle.bufferEnd ≤ m.length) (hlt : m.length < 9223372036854775808)
    (hfits : pos + 4 + bs.length ≤ bundle.bufferEnd) (hsmall : 4 + bs.length < 2147483648) :
    oscBundleWritev P demote message.address message.format message.args bundle m =
      some (1, { bundle with
          bufferPos := some (pos + (4 + bs.length : Nat))
          len := (bundle.len + (4 + bs.length)) % 18446744073709551616 },
        overwrite m pos.toNat (encodeRecord bs)) := by
  have hwrap : wrap32 bs.length = bs.length := wrap32_of_range (by omega) (by omega)
  have hcall := oscBundleWritev_of_encodes (P := P) henc hpos hnonneg hend hlt hfits (by omega)
  have hcount : sizeT (wrap32 (bs.length + 4)) = 4 + bs.length := by
    rw [wrap32_of_range (by omega) (by omega), sizeT_of_nonneg (by omega) (by omega)]
    omega
  have hnext : pos + 4 + (bs.length : Int) = pos + (4 + bs.length : Nat) := by omega
  have hbehind : (pos + 4).toNat = pos.toNat + (bigEndian 4 bs.length).length := by
    rw [length_bigEndian]
    omega
  rw [hwrap, hcount, hnext, Int.toNat_natCast, hbehind,
    overwrite_prepend (by rw [length_bigEndian]; omega)] at hcall
  exact hcall

/-- A call that returns 1 was given a message, and it had room for it. -/
theorem encodes_of_oscBundleWritev {bundle bundle' : OscBundle} {m m' : Memory} {pos : Int}
    {message : MessageCall} (hpos : bundle.bufferPos = some pos) (hnonneg : 0 ≤ pos)
    (hend : bundle.bufferEnd ≤ m.length) (hlt : m.length < 9223372036854775808)
    (h : oscBundleWritev P demote message.address message.format message.args bundle m =
      some (1, bundle', m')) :
    ∃ bs, Encodes demote message bs ∧ pos + 4 + bs.length ≤ bundle.bufferEnd ∧
      0 ≤ wrap32 bs.length := by
  simp only [oscBundleWritev, hpos, Option.bind_eq_bind, Option.bind_some] at h
  split at h
  · cases h
  · rw [Option.bind_eq_some_iff] at h
    obtain ⟨⟨written, m₁⟩, hwritten, h⟩ := h
    simp only at h
    split at h
    · cases h
    · next hroom hret =>
        obtain ⟨as, hformat, hargs⟩ := passedAll_of_oscWritev hwritten (by omega)
        have hsize : sizeT (bundle.bufferEnd - (pos + 4)) =
            (bundle.bufferEnd - (pos + 4)).toNat := sizeT_of_nonneg (by omega) (by omega)
        have hcursor : Room (pos + 4 + (sizeT (bundle.bufferEnd - (pos + 4)) : Nat)) (pos + 4)
            m := by
          rw [hsize]
          exact ⟨by omega, by omega, by omega, hlt⟩
        obtain ⟨hfits, hfull⟩ := oscWritev_eq (P := P) message.address hformat hargs hcursor
        by_cases hle : (encodeMessage message.address as).length ≤
            sizeT (bundle.bufferEnd - (pos + 4))
        · have hvalue : written = wrap32 (encodeMessage message.address as).length :=
            (Prod.mk.inj (Option.some.inj (hwritten.symm.trans (hfits hle)))).1
          exact ⟨_, ⟨as, hformat, hargs, rfl⟩, by omega, by omega⟩
        · obtain ⟨m₂, hnone⟩ := hfull (by omega)
          have hvalue : written = -1 :=
            (Prod.mk.inj (Option.some.inj (hwritten.symm.trans hnone))).1
          omega

/-! ## Runs -/

/-- A well-formed bundle over the whole of its buffer. -/
structure Tidy (demote : UInt64 → UInt32) (s : BundleState) : Prop extends
    WellFormed demote s where
  buffer : s.bundle.buffer = 0
  bufferEnd : s.bundle.bufferEnd = s.mem.length
  length_lt : s.mem.length < 9223372036854775808

theorem tidy_freshBundle (buffer : Object) : Tidy demote (freshBundle buffer) where
  cursor := ⟨0, rfl, le_refl 0, by simp [freshBundle, oscBundleInit], rfl⟩
  content := fun when messages habs => by cases habs
  buffer := rfl
  bufferEnd := by simp [freshBundle, oscBundleInit]
  length_lt := buffer.length_lt

/-- A successful start leaves the header. -/
theorem Tidy.start {s : BundleState} (h : Tidy demote s) (when : UInt64)
    (hroom : 16 ≤ s.mem.length) :
    ∃ t, bundleCall P demote s (.start when) = some (some 1, t) ∧ Tidy demote t := by
  have hcall := oscBundleStart_eq (P := P) when h.buffer h.bufferEnd h.length_lt hroom
  have hheader := length_encodeBundle_nil when
  have hlen : (overwrite s.mem 0 (encodeBundle when [])).length = s.mem.length :=
    length_overwrite (by omega)
  have htake := take_overwrite (m := s.mem) (Nat.zero_le _) (encodeBundle when [])
  rw [hheader] at htake
  have hend := h.bufferEnd
  refine ⟨{
    bundle := { s.bundle with bufferPos := some 16, len := 16 }
    mem := overwrite s.mem 0 (encodeBundle when [])
    since := some (when, []) }, ?_, ⟨⟨?_, ?_⟩, h.buffer, ?_, ?_⟩⟩
  · simp only [bundleCall, hcall, Option.bind_eq_bind, Option.bind_some, if_true]
  · refine ⟨16, rfl, ?_, ?_, ?_⟩
    · rw [h.buffer]
      decide
    · simp only
      omega
    · simp [h.buffer]
  · intro when' messages hsince
    cases hsince
    exact ⟨[], .nil, htake⟩
  · simp only
    omega
  · simp only [hlen]
    exact h.length_lt

/-- A message that fits is appended. -/
theorem Tidy.write {s : BundleState} (h : Tidy demote s) {message : MessageCall}
    {bs : List UInt8} (henc : Encodes demote message bs) (hfits : 4 + bs.length ≤ s.remain)
    (hsmall : 4 + bs.length < 2147483648) :
    ∃ t, bundleCall P demote s (.write message) = some (some 1, t) ∧ Tidy demote t := by
  obtain ⟨pos, hpos, hle, hpos', hlen⟩ := h.cursor
  have hbuffer := h.buffer
  have hend := h.bufferEnd
  have hlt := h.length_lt
  rw [BundleState.remain, hpos, Option.getD_some] at hfits
  have hcall := oscBundleWritev_eq (P := P) (m := s.mem) henc hpos (by omega) (by omega)
    hlt (by omega) hsmall
  have hrecord := length_encodeRecord bs
  have hlen' : (overwrite s.mem pos.toNat (encodeRecord bs)).length = s.mem.length :=
    length_overwrite (by omega)
  have hcount : (s.bundle.len + (4 + bs.length)) % 18446744073709551616 =
      pos.toNat + (encodeRecord bs).length := by omega
  refine ⟨{
    bundle := { s.bundle with
      bufferPos := some (pos + (4 + bs.length : Nat))
      len := (s.bundle.len + (4 + bs.length)) % 18446744073709551616 }
    mem := overwrite s.mem pos.toNat (encodeRecord bs)
    since := s.since.map fun (when, messages) => (when, messages ++ [message]) },
    ?_, ⟨⟨?_, ?_⟩, hbuffer, ?_, ?_⟩⟩
  · simp only [bundleCall, hcall, Option.bind_eq_bind, Option.bind_some, if_true]
  · refine ⟨pos + (4 + bs.length : Nat), rfl, ?_, ?_, ?_⟩
    · simp only
      omega
    · simp only
      omega
    · simp only [hcount]
      omega
  · intro when messages hsince
    obtain ⟨⟨when', messages'⟩, hsince', heq⟩ := Option.map_eq_some_iff.mp hsince
    cases heq
    obtain ⟨encoded, hencoded, hcontent⟩ := h.content when messages' hsince'
    refine ⟨encoded ++ [bs], List.rel_append hencoded (.cons henc .nil), ?_⟩
    have htake := take_overwrite (m := s.mem) (i := pos.toNat) (by omega) (encodeRecord bs)
    simp only [hcount, htake, encodeBundle_append, ← hcontent]
    congr 2
    omega
  · simp only [hlen', hend]
  · simp only [hlen']
    exact hlt

theorem Tidy.bundleCall {s : BundleState} (h : Tidy demote s) {c : BundleCall}
    (hc : Admitted demote s c) :
    ∃ ret t, bundleCall P demote s c = some (ret, t) ∧ Tidy demote t ∧
      (ret = some 0 → t = s) := by
  cases c with
  | init buffer => exact ⟨none, _, rfl, tidy_freshBundle buffer, fun habs => by cases habs⟩
  | start when =>
      obtain ⟨t, hcall, ht⟩ := h.start (P := P) when hc
      exact ⟨some 1, t, hcall, ht, fun habs => by cases habs⟩
  | write message =>
      rcases hc with hfull | ⟨bs, henc, hfits, hsmall⟩
      · obtain ⟨pos, hpos, -⟩ := h.cursor
        rw [BundleState.remain, hpos, Option.getD_some] at hfull
        have hcall := oscBundleWritev_full P demote message s.mem hpos hfull
        refine ⟨some 0, s, ?_, h, fun _ => rfl⟩
        simp only [Ideas.bundleCall, hcall, Option.bind_eq_bind, Option.bind_some]
        rfl
      · obtain ⟨t, hcall, ht⟩ := h.write (P := P) henc hfits hsmall
        exact ⟨some 1, t, hcall, ht, fun habs => by cases habs⟩

/-- In a run whose calls are all admitted, the bundle is well formed at every call that
follows a successful start, and a call that returns 0 changes nothing. -/
theorem along_keepsBundle (P : Platform) (demote : UInt64 → UInt32) (buffer : Object)
    (cs : List BundleCall)
    (hcs : Along (bundleStep P demote) (Admitted demote) (freshBundle buffer) cs) :
    Along (bundleStep P demote) (KeepsBundle P demote) (freshBundle buffer) cs := by
  refine along_of_invariant (Tidy demote) ?_ ?_ (tidy_freshBundle buffer) hcs
  · intro s c hs hc
    obtain ⟨ret, t, hcall, ht, hzero⟩ := hs.bundleCall (P := P) hc
    refine ⟨ret, t, hcall, fun _ => ht.toWellFormed, ?_⟩
    intro hret
    rw [hzero hret]
    exact ⟨rfl, rfl⟩
  · intro s c t hs hc hstep
    obtain ⟨ret, t', hcall, ht, -⟩ := hs.bundleCall (P := P) hc
    rw [bundleStep, hcall] at hstep
    cases hstep
    exact ht

/-- A buffer of 64 bytes. -/
def smallBuffer : Object := ⟨List.replicate 64 0, by decide⟩

/-- The message `/a` with the argument `7`. -/
def sevenCall : MessageCall where
  address := slashA
  format := ⟨['i'.toUInt8], by decide, by decide⟩
  args := [.int 7]

theorem along_keepsBundle_seven :
    Along (bundleStep littleHost UInt64.toUInt32) (KeepsBundle littleHost UInt64.toUInt32)
      (freshBundle smallBuffer) [.start 1, .write sevenCall] :=
  along_keepsBundle littleHost UInt64.toUInt32 smallBuffer [.start 1, .write sevenCall]
    ((along_cons_of_eq_some rfl).mpr ⟨show 16 ≤ 64 by decide,
      (along_cons_of_eq_some rfl).mpr
        ⟨Or.inr ⟨_, ⟨[.int32 7], rfl, ⟨rfl, trivial⟩, rfl⟩, by decide, by decide⟩,
          along_nil _⟩⟩)

/-- The message `/a` with a format that is not supported. -/
def unsupportedCall : MessageCall where
  address := slashA
  format := ⟨['c'.toUInt8], by decide, by decide⟩
  args := []

/-- The call that refuses it leaves the cursor four bytes further. -/
theorem unsupportedCall_not_keepsBundle :
    ¬ Along (bundleStep littleHost UInt64.toUInt32) (KeepsBundle littleHost UInt64.toUInt32)
      (freshBundle smallBuffer) [.start 1, .write unsupportedCall] := by
  intro hrun
  obtain ⟨ret, t, hcall, -, hzero⟩ := (hrun.2 _ rfl).1
  cases hcall
  exact absurd (hzero rfl).1 (by decide)

end LittleOscar.Ideas
