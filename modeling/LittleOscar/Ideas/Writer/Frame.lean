import LittleOscar.Ideas.Writer.Tuio

/-!
# Frames of TUIO

The functions of TUIO other than `tuio_bundle_alive`, and the frames that are written with all
of them: a `tuio_bundle_start` and any calls behind it. `filled_of_tuioFrame` says what a
frame leaves in the buffer if all of its calls return 1: the header of a bundle and a record
for each call, but `len` has not counted the alive messages, and the length in front of them
is too large.

A `float` behind a format is passed as a `double`, which `promote` makes of it.
-/

namespace LittleOscar.Ideas

open Machine

/-! ## The functions -/

/-- `tuio_msg_t`, with the bit patterns of the floats. -/
structure TuioMsg where
  sessionId : Int32
  classId : Int32
  x : UInt32
  y : UInt32
  a : UInt32
  vx : UInt32
  vy : UInt32
  va : UInt32
  motionAcceleration : UInt32
  rotationAcceleration : UInt32
  width : UInt32
  height : UInt32
  area : UInt32

/-- A string in an object. -/
structure StringArg where
  value : CString
  rest : List UInt8
  length_lt : (value.bytes ++ 0 :: rest).length < 9223372036854775808

/-- The object that a pointer to the string points into. -/
def StringArg.object (s : StringArg) : Object := ⟨s.value.bytes ++ 0 :: s.rest, s.length_lt⟩

/-- `"source"`. -/
def sourceString : StringArg :=
  ⟨⟨['s', 'o', 'u', 'r', 'c', 'e'].map Char.toUInt8, by decide, by decide⟩, [], by decide⟩

/-- `"set"`. -/
def setString : StringArg :=
  ⟨⟨['s', 'e', 't'].map Char.toUInt8, by decide, by decide⟩, [], by decide⟩

/-- `"fseq"`. -/
def fseqString : StringArg :=
  ⟨⟨['f', 's', 'e', 'q'].map Char.toUInt8, by decide, by decide⟩, [], by decide⟩

variable (P : Platform) (demote : UInt64 → UInt32) (promote : UInt32 → UInt64)

/-- `tuio_bundle_start`. -/
def tuioBundleStart (when : UInt64) (type : TuioProfile) (bundle : TuioBundle) (m : Memory) :
    Option (Int × TuioBundle × Memory) := do
  let (ret, oscBundle, m) ← oscBundleStart P when bundle.oscBundle m
  if ret = 0 then some (0, { bundle with oscBundle }, m)
  else some (1, { oscBundle, type }, m)

/-- An `osc_bundle_write` to the address of the profile. -/
def tuioBundleWrite (format : CString) (args : List VaArg) (bundle : TuioBundle) (m : Memory) :
    Option (Int × TuioBundle × Memory) := do
  let (ret, oscBundle, m) ← oscBundleWritev P demote (profileAddresses bundle.type) format args
    bundle.oscBundle m
  some (ret, { bundle with oscBundle }, m)

/-- `tuio_bundle_source`. -/
def tuioBundleSource (source : StringArg) (bundle : TuioBundle) (m : Memory) :
    Option (Int × TuioBundle × Memory) :=
  tuioBundleWrite P demote ⟨['s', 's'].map Char.toUInt8, by decide, by decide⟩
    [.pointer sourceString.object, .pointer source.object] bundle m

/-- The format and the arguments behind it in the cases of `tuio_bundle_set`. -/
def setCase (msg : TuioMsg) : TuioProfile → CString × List VaArg
  | .tuio2DObj =>
      (⟨['s', 'i', 'i', 'f', 'f', 'f', 'f', 'f', 'f', 'f', 'f'].map Char.toUInt8, by decide,
        by decide⟩,
        [.pointer setString.object,
          .int msg.sessionId,
          .int msg.classId,
          .double (promote msg.x), .double (promote msg.y), .double (promote msg.a),
          .double (promote msg.vx), .double (promote msg.vy), .double (promote msg.va),
          .double (promote msg.motionAcceleration),
          .double (promote msg.rotationAcceleration)])
  | .tuio2DCur =>
      (⟨['s', 'i', 'f', 'f', 'f', 'f', 'f'].map Char.toUInt8, by decide, by decide⟩,
        [.pointer setString.object,
          .int msg.sessionId,
          .double (promote msg.x), .double (promote msg.y),
          .double (promote msg.vx), .double (promote msg.vy),
          .double (promote msg.motionAcceleration)])
  | .tuio2DBlb =>
      (⟨['s', 'f', 'f', 'f', 'f', 'f', 'f', 'f', 'f', 'f', 'f', 'f'].map Char.toUInt8, by decide,
        by decide⟩,
        [.pointer setString.object,
          .double (promote msg.x), .double (promote msg.y), .double (promote msg.a),
          .double (promote msg.width), .double (promote msg.height), .double (promote msg.area),
          .double (promote msg.vx), .double (promote msg.vy), .double (promote msg.va),
          .double (promote msg.motionAcceleration),
          .double (promote msg.rotationAcceleration)])

/-- `tuio_bundle_set`. -/
def tuioBundleSet (msg : TuioMsg) (bundle : TuioBundle) (m : Memory) :
    Option (Int × TuioBundle × Memory) :=
  let (format, args) := setCase promote msg bundle.type
  tuioBundleWrite P demote format args bundle m

/-- `tuio_bundle_fseq`. -/
def tuioBundleFseq (fseq : Int32) (bundle : TuioBundle) (m : Memory) :
    Option (Int × TuioBundle × Memory) :=
  tuioBundleWrite P demote ⟨['s', 'i'].map Char.toUInt8, by decide, by decide⟩
    [.pointer fseqString.object, .int fseq] bundle m

/-! ## Frames -/

/-- A call that adds a message to a frame. -/
inductive TuioCall where
  | source (source : StringArg)
  | alive (sIds : SessionIds)
  | set (msg : TuioMsg)
  | fseq (fseq : Int32)

def tuioCall : TuioCall → TuioBundle → Memory → Option (Int × TuioBundle × Memory)
  | .source source => tuioBundleSource P demote source
  | .alive sIds => tuioBundleAlive P sIds
  | .set msg => tuioBundleSet P demote promote msg
  | .fseq fseq => tuioBundleFseq P demote fseq

/-- The calls, as long as they return 1. -/
def tuioCalls : List TuioCall → TuioBundle → Memory → Option (TuioBundle × Memory)
  | [], bundle, m => some (bundle, m)
  | call :: calls, bundle, m => do
      let (ret, bundle, m) ← tuioCall P demote promote call bundle m
      if ret = 1 then tuioCalls calls bundle m else none

/-- What is written from one `tuio_bundle_start` to the next. -/
structure TuioFrame where
  when : UInt64
  type : TuioProfile
  calls : List TuioCall

/-- The bundle and its buffer behind a frame of which all calls return 1. -/
def tuioFrame (frame : TuioFrame) (bundle : TuioBundle) (m : Memory) :
    Option (TuioBundle × Memory) := do
  let (ret, bundle, m) ← tuioBundleStart P frame.when frame.type bundle m
  if ret = 1 then tuioCalls P demote promote frame.calls bundle m else none

/-! ## Messages -/

/-- The arguments of the message that a call writes for the profile `type`. -/
def tuioArguments (type : TuioProfile) : TuioCall → List OscArgument
  | .source source => [.string .s sourceString.value, .string .s source.value]
  | .alive sIds => idArguments sIds
  | .set msg =>
      .string .s setString.value :: (match type with
        | .tuio2DObj => [.int32 msg.sessionId, .int32 msg.classId]
        | .tuio2DCur => [.int32 msg.sessionId]
        | .tuio2DBlb => []) ++
      (match type with
        | .tuio2DObj => [msg.x, msg.y, msg.a, msg.vx, msg.vy, msg.va, msg.motionAcceleration,
            msg.rotationAcceleration]
        | .tuio2DCur => [msg.x, msg.y, msg.vx, msg.vy, msg.motionAcceleration]
        | .tuio2DBlb => [msg.x, msg.y, msg.a, msg.width, msg.height, msg.area, msg.vx, msg.vy,
            msg.va, msg.motionAcceleration, msg.rotationAcceleration]).map
        fun bits => .float (demote (promote bits))
  | .fseq fseq => [.string .s fseqString.value, .int32 fseq]

/-- The message that a call writes. -/
def tuioMessage (type : TuioProfile) (call : TuioCall) : List UInt8 :=
  encodeMessage (profileAddresses type) (tuioArguments demote promote type call)

/-- The length that a call stores in front of its message. -/
def storedLength (n : Nat) : TuioCall → Nat
  | .alive _ => n + 8
  | _ => n

/-- The bytes of a call in the buffer. -/
def tuioRecord (type : TuioProfile) (call : TuioCall) : List UInt8 :=
  bigEndian 4 (storedLength (tuioMessage demote promote type call).length call) ++
    tuioMessage demote promote type call

/-- The bytes that `len` counts for a call. -/
def counted (type : TuioProfile) : TuioCall → Nat
  | .alive _ => 0
  | call => (tuioRecord demote promote type call).length

variable {P demote promote}

theorem storedLength_of_ne_alive {call : TuioCall} (hcall : ∀ sIds, call ≠ .alive sIds) (n : Nat) :
    storedLength n call = n := by
  cases call with
  | alive sIds => exact absurd rfl (hcall sIds)
  | _ => rfl

theorem length_tuioRecord (demote : UInt64 → UInt32) (promote : UInt32 → UInt64)
    (type : TuioProfile) (call : TuioCall) :
    (tuioRecord demote promote type call).length =
      4 + (tuioMessage demote promote type call).length := by
  rw [tuioRecord, List.length_append, length_bigEndian]

theorem counted_of_ne_alive (demote : UInt64 → UInt32) (promote : UInt32 → UInt64)
    (type : TuioProfile) {call : TuioCall}
    (hcall : ∀ sIds, call ≠ .alive sIds) :
    counted demote promote type call = 4 + (tuioMessage demote promote type call).length := by
  cases call with
  | alive sIds => exact absurd rfl (hcall sIds)
  | _ => exact length_tuioRecord demote promote type _

/-- A call that is not `tuio_bundle_alive` is an `osc_bundle_write` of its message. -/
theorem exists_messageCall (P : Platform) (demote : UInt64 → UInt32)
    (promote : UInt32 → UInt64) (type : TuioProfile) {call : TuioCall}
    (hcall : ∀ sIds, call ≠ .alive sIds) :
    ∃ message : MessageCall, Encodes demote message (tuioMessage demote promote type call) ∧
      ∀ bundle m, bundle.type = type → tuioCall P demote promote call bundle m =
        (oscBundleWritev P demote message.address message.format message.args bundle.oscBundle
          m).bind fun (ret, oscBundle, m) => some (ret, { bundle with oscBundle }, m) := by
  have hstring : ∀ (s : StringArg) (args : List VaArg),
      Passed demote (.string .s s.value) (.pointer s.object :: args) :=
    fun s args => ⟨by decide, s.object, s.rest, rfl, rfl⟩
  have hfloat : ∀ (bits : UInt32) (args : List VaArg),
      Passed demote (.float (demote (promote bits))) (.double (promote bits) :: args) :=
    fun bits args => ⟨promote bits, rfl, rfl⟩
  cases call with
  | alive sIds => exact absurd rfl (hcall sIds)
  | source source =>
      refine ⟨⟨profileAddresses type, ⟨['s', 's'].map Char.toUInt8, by decide, by decide⟩,
        [.pointer sourceString.object, .pointer source.object]⟩, ⟨_, rfl, ?_, rfl⟩, ?_⟩
      · exact ⟨hstring sourceString _, hstring source _, trivial⟩
      · rintro bundle m rfl
        rfl
  | fseq fseq =>
      refine ⟨⟨profileAddresses type, ⟨['s', 'i'].map Char.toUInt8, by decide, by decide⟩,
        [.pointer fseqString.object, .int fseq]⟩, ⟨_, rfl, ?_, rfl⟩, ?_⟩
      · exact ⟨hstring fseqString _, rfl, trivial⟩
      · rintro bundle m rfl
        rfl
  | set msg =>
      refine ⟨⟨profileAddresses type, (setCase promote msg type).1, (setCase promote msg type).2⟩,
        ⟨tuioArguments demote promote type (.set msg), ?_, ?_, rfl⟩, ?_⟩
      · cases type <;> rfl
      · cases type with
        | tuio2DObj =>
            exact ⟨hstring setString _, rfl, rfl, hfloat _ _, hfloat _ _, hfloat _ _, hfloat _ _,
              hfloat _ _, hfloat _ _, hfloat _ _, hfloat _ _, trivial⟩
        | tuio2DCur =>
            exact ⟨hstring setString _, rfl, hfloat _ _, hfloat _ _, hfloat _ _, hfloat _ _,
              hfloat _ _, trivial⟩
        | tuio2DBlb =>
            exact ⟨hstring setString _, hfloat _ _, hfloat _ _, hfloat _ _, hfloat _ _,
              hfloat _ _, hfloat _ _, hfloat _ _, hfloat _ _, hfloat _ _, hfloat _ _,
              hfloat _ _, trivial⟩
      · rintro bundle m rfl
        rfl

/-- A call that returns 1 had room for its message. -/
theorem fits_of_oscBundleWritev {bundle bundle' : OscBundle} {m m' : Memory} {pos : Int}
    {message : MessageCall} {bs : List UInt8} (henc : Encodes demote message bs)
    (hpos : bundle.bufferPos = some pos) (hnonneg : 0 ≤ pos)
    (hend : bundle.bufferEnd ≤ m.length) (hlt : m.length < 9223372036854775808)
    (h : oscBundleWritev P demote message.address message.format message.args bundle m =
      some (1, bundle', m')) : pos + 4 + bs.length ≤ bundle.bufferEnd := by
  obtain ⟨as, hformat, hargs, rfl⟩ := henc
  simp only [oscBundleWritev, hpos, Option.bind_eq_bind, Option.bind_some] at h
  split at h
  · cases h
  · next hroom =>
      obtain ⟨⟨written, m₁⟩, hwritten, h⟩ := Option.bind_eq_some_iff.mp h
      have hsize : sizeT (bundle.bufferEnd - (pos + 4)) =
          (bundle.bufferEnd - (pos + 4)).toNat := sizeT_of_nonneg (by omega) (by omega)
      have hcursor : Room (pos + 4 + (sizeT (bundle.bufferEnd - (pos + 4)) : Nat)) (pos + 4)
          m := by
        rw [hsize]
        exact ⟨by omega, by omega, by omega, hlt⟩
      obtain ⟨-, hfull⟩ := oscWritev_eq (P := P) message.address hformat hargs hcursor
      by_contra hpast
      obtain ⟨m₂, hnone⟩ := hfull (by omega)
      have hvalue : written = -1 :=
        (Prod.mk.inj (Option.some.inj (hwritten.symm.trans hnone))).1
      simp only [hvalue] at h
      rw [if_pos (by decide)] at h
      cases h

/-! ## What the calls leave in the buffer -/

/-- The buffer begins with `content`, and the cursor stands behind it; `len` is `n`. -/
structure Filled (bundle : OscBundle) (m : Memory) (content : List UInt8) (n : Nat) : Prop where
  buffer : bundle.buffer = 0
  bufferEnd : bundle.bufferEnd = m.length
  length_lt : m.length < 2147483648
  bufferPos : bundle.bufferPos = some (content.length : Int)
  len : bundle.len = n
  sixteen_le : 16 ≤ n
  le : n ≤ content.length
  length_le : content.length ≤ m.length
  take : m.take content.length = content

theorem Filled.overwrite {bundle : OscBundle} {m : Memory} {content : List UInt8} {n : Nat}
    (h : Filled bundle m content n) (record : List UInt8) (k : Nat)
    (hfits : content.length + record.length ≤ m.length) (hk : k ≤ record.length) :
    Filled { bundle with bufferPos := some (content.length + record.length : Nat), len := n + k }
      (overwrite m content.length record) (content ++ record) (n + k) := by
  have hlength : (Machine.overwrite m content.length record).length = m.length :=
    length_overwrite hfits
  have hle := h.le
  have hheader := h.sixteen_le
  have happend : (content ++ record).length = content.length + record.length :=
    List.length_append
  refine ⟨h.buffer, ?_, ?_, ?_, rfl, by omega, by omega, by omega, ?_⟩
  · rw [hlength]
    exact h.bufferEnd
  · rw [hlength]
    exact h.length_lt
  · simp only [happend]
  · rw [happend, take_overwrite h.length_le record, h.take]

/-- A message that `osc_bundle_write` appends. -/
theorem Filled.write {bundle bundle' : OscBundle} {m m' : Memory} {content bs : List UInt8}
    {n : Nat} (h : Filled bundle m content n) {message : MessageCall}
    (henc : Encodes demote message bs)
    (hcall : oscBundleWritev P demote message.address message.format message.args bundle m =
      some (1, bundle', m')) :
    Filled bundle' m' (content ++ (bigEndian 4 bs.length ++ bs)) (n + (4 + bs.length)) := by
  have hlt := h.length_lt
  have hend := h.bufferEnd
  have hle := h.le
  have hinside := h.length_le
  have hrecord : (bigEndian 4 bs.length ++ bs).length = 4 + bs.length := by
    rw [List.length_append, length_bigEndian]
  have hfits := fits_of_oscBundleWritev henc h.bufferPos (Int.natCast_nonneg _) (by omega)
    (by omega) hcall
  have heq := oscBundleWritev_eq (P := P) (m := m) henc h.bufferPos (Int.natCast_nonneg _)
    (by omega) (by omega) hfits (by omega)
  have hcount : (n + (4 + bs.length)) % 18446744073709551616 = n + (4 + bs.length) :=
    Nat.mod_eq_of_lt (by omega)
  obtain ⟨rfl, rfl⟩ := Prod.mk.inj (Prod.mk.inj (Option.some.inj (hcall.symm.trans heq))).2
  have hfilled := h.overwrite (bigEndian 4 bs.length ++ bs) (4 + bs.length)
    (by omega) (by omega)
  rw [hrecord, Int.natCast_add] at hfilled
  rw [h.len, hcount, Int.toNat_natCast]
  exact hfilled

/-- `tuio_bundle_alive` does not look at `len`. -/
theorem tuioBundleAlive_of_len {sIds : SessionIds} {bundle bundle' : TuioBundle} {m m' : Memory}
    {ret : Int} {n : Nat}
    (h : tuioBundleAlive P sIds { bundle with oscBundle := { bundle.oscBundle with len := n } } m =
      some (ret, bundle', m')) :
    tuioBundleAlive P sIds bundle m = some (ret, { bundle' with
      oscBundle := { bundle'.oscBundle with len := bundle.oscBundle.len } }, m') := by
  simp only [tuioBundleAlive, Option.bind_eq_bind] at h ⊢
  obtain ⟨pos, hpos, h⟩ := Option.bind_eq_some_iff.mp h
  rw [hpos, Option.bind_some]
  split at h
  · next hroom =>
      rw [if_pos hroom]
      cases h
      rfl
  next hroom =>
  rw [if_neg hroom]
  obtain ⟨⟨pos₁, m₁⟩, haddress, h⟩ := Option.bind_eq_some_iff.mp h
  rw [haddress, Option.bind_some]
  cases pos₁ with
  | none =>
      cases h
      rfl
  | some pos₁ =>
      simp only at h ⊢
      split at h
      · next hfull =>
          rw [if_pos hfull]
          cases h
          rfl
      next hfull =>
      rw [if_neg hfull]
      split at h
      · cases h
      next hcount =>
      rw [if_neg hcount]
      obtain ⟨m₂, hcomma, h⟩ := Option.bind_eq_some_iff.mp h
      obtain ⟨m₃, htags, h⟩ := Option.bind_eq_some_iff.mp h
      obtain ⟨m₄, hzeros, h⟩ := Option.bind_eq_some_iff.mp h
      obtain ⟨m₅, hids, h⟩ := Option.bind_eq_some_iff.mp h
      obtain ⟨m₆, hlength, h⟩ := Option.bind_eq_some_iff.mp h
      rw [hcomma, Option.bind_some, htags, Option.bind_some, hzeros, Option.bind_some, hids,
        Option.bind_some, hlength, Option.bind_some]
      cases h
      rfl

/-- If `tuio_bundle_alive` returns 1, it had room for its message. -/
theorem fits_of_tuioBundleAlive {sIds : SessionIds} {bundle bundle' : TuioBundle} {m m' : Memory}
    {pos : Int} (hpos : bundle.oscBundle.bufferPos = some pos) (hnonneg : 0 ≤ pos)
    (hle : pos ≤ bundle.oscBundle.bufferEnd) (hend : bundle.oscBundle.bufferEnd ≤ m.length)
    (hlt : m.length < 9223372036854775808)
    (h : tuioBundleAlive P sIds bundle m = some (1, bundle', m')) :
    sIds.ids.length ≤ 2147483647 ∧ pos + 4 +
      (encodeMessage (profileAddresses bundle.type) (idArguments sIds)).length ≤
        bundle.oscBundle.bufferEnd := by
  have hids := sIds.length_lt
  have htypes : round32Size (sIds.ids.length + 2) = roundUp (sIds.ids.length + 2) :=
    round32Size_eq_roundUp (by omega)
  have hlength : (encodeMessage (profileAddresses bundle.type) (idArguments sIds)).length =
      paddedSize (profileAddresses bundle.type).bytes.length +
        (roundUp (sIds.ids.length + 2) + 4 * sIds.ids.length) := by
    rw [encodeMessage_idArguments P, List.length_append, length_padString, length_aliveTail]
  simp only [tuioBundleAlive, Option.bind_eq_bind, hpos, Option.bind_some] at h
  split at h
  · cases h
  next hroom =>
  rw [sizeT_of_nonneg (by omega) (by omega)] at hroom
  have hemits : Emits bundle.oscBundle.bufferEnd
      (padString (profileAddresses bundle.type).bytes) _ :=
    emits_string [] (profileAddresses bundle.type).length_lt
  obtain ⟨hfits, hfull⟩ := hemits (pos + 4) m ⟨by omega, by omega, hend, hlt⟩
  obtain ⟨⟨pos₁, m₁⟩, haddress, h⟩ := Option.bind_eq_some_iff.mp h
  rw [length_padString] at hfits hfull
  by_cases hname : pos + 4 + (paddedSize (profileAddresses bundle.type).bytes.length : Nat) ≤
      bundle.oscBundle.bufferEnd
  · obtain ⟨rfl, -⟩ := Prod.mk.inj (Option.some.inj (haddress.symm.trans (hfits hname)))
    simp only [htypes] at h
    split at h
    · cases h
    split at h
    · cases h
    next hcount =>
    exact ⟨by omega, by omega⟩
  · obtain ⟨m₂, hnone⟩ := hfull (by omega)
    obtain ⟨rfl, -⟩ := Prod.mk.inj (Option.some.inj (haddress.symm.trans hnone))
    cases h

/-- A message that `tuio_bundle_alive` appends. -/
theorem Filled.alive {sIds : SessionIds} {bundle bundle' : TuioBundle} {m m' : Memory}
    {content : List UInt8} {n : Nat} (h : Filled bundle.oscBundle m content n)
    (hcall : tuioBundleAlive P sIds bundle m = some (1, bundle', m')) :
    bundle'.type = bundle.type ∧ Filled bundle'.oscBundle m'
      (content ++ tuioRecord demote promote bundle.type (.alive sIds)) n := by
  have hlt := h.length_lt
  have hheader := h.sixteen_le
  have hend := h.bufferEnd
  have hle := h.le
  have hinside := h.length_le
  obtain ⟨hcount, hfits⟩ := fits_of_tuioBundleAlive h.bufferPos (Int.natCast_nonneg _) (by omega)
    (by omega) (by omega) hcall
  obtain ⟨k, hk⟩ : ∃ k, (encodeMessage (profileAddresses bundle.type) (idArguments sIds)).length =
    k := ⟨_, rfl⟩
  rw [hk] at hfits
  have hcursor : CursorIn { bundle.oscBundle with len := content.length } m content.length :=
    ⟨h.bufferPos, h.buffer.ge, by rw [h.buffer]; omega, by simp only; omega, by simp only; omega,
      by omega, by simp [h.buffer]⟩
  have halive := @tuioBundleAlive_eq P sIds
    { bundle with oscBundle := { bundle.oscBundle with len := content.length } } m _
    hcursor k hk hcount hfits
  have hstored : (Int32.ofInt (wrap32 (k + 8))).toUInt32.toNat = k + 8 := by
    have hword := toNat_ofInt (n := k + 8) (by omega)
    rwa [wrap32_of_range (by omega) (by omega)]
  have hrecord : tuioRecord demote promote bundle.type (.alive sIds) =
      bigEndian 4 (k + 8) ++ encodeMessage (profileAddresses bundle.type) (idArguments sIds) := by
    rw [← hk]
    rfl
  have hlength : (tuioRecord demote promote bundle.type (.alive sIds)).length = 4 + k := by
    rw [hrecord, List.length_append, length_bigEndian, hk]
  have heq := tuioBundleAlive_of_len halive
  rw [hstored, ← hrecord, Int.toNat_natCast] at heq
  obtain ⟨rfl, rfl⟩ := Prod.mk.inj (Prod.mk.inj (Option.some.inj (hcall.symm.trans heq))).2
  have hfilled := h.overwrite (tuioRecord demote promote bundle.type (.alive sIds)) 0
    (by omega) (by omega)
  rw [hlength] at hfilled
  refine ⟨rfl, ?_⟩
  simp only [h.len, Int.add_assoc]
  exact hfilled

/-- Every call appends its record. -/
theorem Filled.call {call : TuioCall} {bundle bundle' : TuioBundle} {m m' : Memory}
    {content : List UInt8} {n : Nat} (h : Filled bundle.oscBundle m content n)
    (hcall : tuioCall P demote promote call bundle m = some (1, bundle', m')) :
    bundle'.type = bundle.type ∧ Filled bundle'.oscBundle m'
      (content ++ tuioRecord demote promote bundle.type call)
      (n + counted demote promote bundle.type call) := by
  by_cases halive : ∃ sIds, call = .alive sIds
  · obtain ⟨sIds, rfl⟩ := halive
    exact h.alive hcall
  · have hother : ∀ sIds, call ≠ .alive sIds := fun sIds heq => halive ⟨sIds, heq⟩
    obtain ⟨message, henc, hwrite⟩ := exists_messageCall P demote promote bundle.type
      hother
    rw [hwrite bundle m rfl] at hcall
    obtain ⟨⟨ret, oscBundle, m₁⟩, hwritten, hcall⟩ := Option.bind_eq_some_iff.mp hcall
    cases hcall
    rw [counted_of_ne_alive demote promote bundle.type hother, tuioRecord,
      storedLength_of_ne_alive hother]
    exact ⟨rfl, h.write henc hwritten⟩

/-- The calls of a frame append their records in order. -/
theorem Filled.calls (calls : List TuioCall) {bundle bundle' : TuioBundle} {m m' : Memory}
    {content : List UInt8} {n : Nat} (h : Filled bundle.oscBundle m content n)
    (hcalls : tuioCalls P demote promote calls bundle m = some (bundle', m')) :
    Filled bundle'.oscBundle m'
      (content ++ (calls.map (tuioRecord demote promote bundle.type)).flatten)
      (n + (calls.map (counted demote promote bundle.type)).sum) := by
  induction calls generalizing bundle m content n with
  | nil =>
      cases hcalls
      simpa using h
  | cons call calls ih =>
      obtain ⟨⟨ret, bundle₁, m₁⟩, hcall, hcalls⟩ := Option.bind_eq_some_iff.mp hcalls
      simp only at hcalls
      split at hcalls
      · next hret =>
          subst hret
          obtain ⟨htype, hfilled⟩ := h.call hcall
          have hrest := ih hfilled hcalls
          rw [htype] at hrest
          simpa only [List.map_cons, List.flatten_cons, List.sum_cons, List.append_assoc,
            Nat.add_assoc] using hrest
      · cases hcalls

/-! ## The frame -/

/-- The bytes of a frame. -/
def tuioContent (demote : UInt64 → UInt32) (promote : UInt32 → UInt64) (frame : TuioFrame) :
    List UInt8 :=
  encodeBundle frame.when [] ++ (frame.calls.map (tuioRecord demote promote frame.type)).flatten

/-- What `len` has counted behind a frame. -/
def tuioCount (demote : UInt64 → UInt32) (promote : UInt32 → UInt64) (frame : TuioFrame) : Nat :=
  16 + (frame.calls.map (counted demote promote frame.type)).sum

/-- `osc_bundle_start` returns 0 or 1. -/
theorem ret_of_oscBundleStart {when : UInt64} {bundle bundle' : OscBundle} {m m' : Memory}
    {ret : Int} (h : oscBundleStart P when bundle m = some (ret, bundle', m')) :
    ret = 0 ∨ ret = 1 := by
  obtain ⟨⟨pos, m₁⟩, -, h⟩ := Option.bind_eq_some_iff.mp h
  cases pos with
  | none =>
      cases h
      exact Or.inl rfl
  | some pos =>
      simp only at h
      split at h
      · cases h
        exact Or.inl rfl
      · obtain ⟨m₂, -, h⟩ := Option.bind_eq_some_iff.mp h
        cases h
        exact Or.inr rfl

/-- A frame over the whole of a buffer, all of whose calls return 1, leaves the header and a
record for each call, and a `len` that has not counted the alive messages. -/
theorem filled_of_tuioFrame {frame : TuioFrame} {bundle bundle' : TuioBundle} {m m' : Memory}
    (hbuffer : bundle.oscBundle.buffer = 0) (hend : bundle.oscBundle.bufferEnd = m.length)
    (hlt : m.length < 2147483648)
    (h : tuioFrame P demote promote frame bundle m = some (bundle', m')) :
    Filled bundle'.oscBundle m' (tuioContent demote promote frame)
      (tuioCount demote promote frame) := by
  obtain ⟨⟨ret, bundle₁, m₁⟩, hstart, hcalls⟩ := Option.bind_eq_some_iff.mp h
  simp only at hcalls
  split at hcalls
  swap
  · cases hcalls
  obtain ⟨⟨ret', oscBundle, m₂⟩, hosc, hstart⟩ := Option.bind_eq_some_iff.mp hstart
  simp only at hstart
  split at hstart
  · next hret hzero => cases hstart; cases hret
  next hret hzero =>
  have hone : ret' = 1 := (ret_of_oscBundleStart hosc).resolve_left hzero
  subst hone
  have hheader := length_encodeBundle_nil frame.when
  have hroom := le_length_of_oscBundleStart hbuffer hend (by omega) hosc
  have heq := oscBundleStart_eq (P := P) frame.when hbuffer hend (by omega) hroom
  have hlength : (overwrite m 0 (encodeBundle frame.when [])).length = m.length :=
    length_overwrite (by omega)
  have htake := take_overwrite (m := m) (Nat.zero_le _) (encodeBundle frame.when [])
  obtain ⟨hbundle, hmem⟩ := Prod.mk.inj (Prod.mk.inj (Option.some.inj (hosc.symm.trans heq))).2
  have hfilled : Filled (TuioBundle.mk oscBundle frame.type).oscBundle m₂
      (encodeBundle frame.when []) 16 := by
    subst hbundle hmem
    refine ⟨hbuffer, ?_, ?_, ?_, rfl, le_refl 16, hheader.ge, ?_, ?_⟩
    · rw [hlength]
      exact hend
    · rwa [hlength]
    · rw [hheader]
      rfl
    · rwa [hheader, hlength]
    · rw [Nat.zero_add, List.take_zero, List.nil_append] at htake
      exact htake
  have hframe : bundle₁ = ⟨oscBundle, frame.type⟩ ∧ m₁ = m₂ := by
    cases hstart
    exact ⟨rfl, rfl⟩
  rw [hframe.1, hframe.2] at hcalls
  rw [tuioContent, tuioCount]
  exact hfilled.calls frame.calls hcalls

end LittleOscar.Ideas
