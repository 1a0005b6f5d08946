import LittleOscar.Ideas.Writer.Bundle

/-!
# The alive message of TUIO

`tuio_bundle_alive` writes its message by hand where the other functions of the profile
call `osc_bundle_write`. `tuioBundleAlive_eq` is what it writes if there is room: the
message is the one that `osc_bundle_write` would have written, but the length in front of
it is too large by eight, since it counts its own four bytes and adds four more, and the
`len` of the bundle stays what it was.

Where there is no room for the message, it is the other function that goes wrong and leaves
its cursor four bytes further. So the two agree only where there is not even room for the
length: `aliveAgrees_iff`.
-/

namespace LittleOscar.Ideas

open Machine

/-- `tuio_profile_t`. -/
inductive TuioProfile where
  | tuio2DObj
  | tuio2DCur
  | tuio2DBlb
  deriving DecidableEq, Repr

/-- `tuio_bundle_t`. -/
structure TuioBundle where
  oscBundle : OscBundle
  type : TuioProfile
  deriving DecidableEq, Repr

/-- The bytes of `"/tuio/2D"` and of what follows it. -/
def tuioBytes (suffix : List Char) : List UInt8 :=
  (['/', 't', 'u', 'i', 'o', '/', '2', 'D'] ++ suffix).map Char.toUInt8

/-- `profile_addresses`. -/
def profileAddresses : TuioProfile → CString
  | .tuio2DObj => ⟨tuioBytes ['o', 'b', 'j'], by decide, by decide⟩
  | .tuio2DCur => ⟨tuioBytes ['c', 'u', 'r'], by decide, by decide⟩
  | .tuio2DBlb => ⟨tuioBytes ['b', 'l', 'b'], by decide, by decide⟩

/-- An array of session ids. It lies in an object. -/
structure SessionIds where
  ids : List Int32
  length_lt : 4 * ids.length < 9223372036854775808

variable (P : Platform) (demote : UInt64 → UInt32)

/-- The bytes of the ids, as the last loop stores them one word a round. -/
def idBytes (ids : List Int32) : List UInt8 :=
  (ids.map fun id => word32 P id.toUInt32).flatten

/-- `tuio_bundle_alive`. -/
def tuioBundleAlive (sIds : SessionIds) (bundle : TuioBundle) (m : Memory) :
    Option (Int × TuioBundle × Memory) := do
  let pos ← bundle.oscBundle.bufferPos
  let stop := bundle.oscBundle.bufferEnd
  if sizeT (stop - pos) < 4 then some (0, bundle, m)
  else do
    let before := pos
    let addr := profileAddresses bundle.type
    let pos := pos + 4
    let (pos, m) ← oscWriteAligned (sizeT (stop - pos)) (addr.bytes ++ [0])
      (addr.bytes.length + 1) 0 pos m
    match pos with
    | none => some (0, bundle, m)
    | some pos =>
        let count := sIds.ids.length
        let typeEnd := pos + round32Size (count + 2)
        if typeEnd + (4 * count : Nat) > stop then some (0, bundle, m)
        -- the loops count to `count` in an `int`
        else if 2147483647 < count then none
        else do
          let m ← storeByte m pos ','.toUInt8
          let pos := pos + 1
          let m ← storeBytes m pos (List.replicate count 'i'.toUInt8)
          let pos := pos + count
          let m ← storeBytes m pos (List.replicate (typeEnd - pos).toNat 0)
          let pos := pos + (typeEnd - pos).toNat
          let m ← storeBytes m pos (idBytes P sIds.ids)
          let pos := pos + (4 * count : Nat)
          let written := wrap32 (pos - before + 4)
          let m ← storeBytes m before (word32 P (Int32.ofInt written).toUInt32)
          some (1, { bundle with oscBundle := { bundle.oscBundle with bufferPos := some pos } }, m)

/-- A format of one `i` for every id. -/
def aliveFormat (sIds : SessionIds) : CString where
  bytes := List.replicate sIds.ids.length 'i'.toUInt8
  noNul := by
    rw [List.mem_replicate]
    rintro ⟨-, hzero⟩
    exact absurd hzero (by decide)
  length_lt := by
    have hlt := sIds.length_lt
    rw [List.length_replicate]
    omega

/-- The `osc_bundle_write` call that writes the same message. -/
def aliveCall (sIds : SessionIds) (type : TuioProfile) : MessageCall where
  address := profileAddresses type
  format := aliveFormat sIds
  args := sIds.ids.map .int

/-- `osc_bundle_write` with this call. -/
def oscBundleWriteAlive (sIds : SessionIds) (bundle : TuioBundle) (m : Memory) :
    Option (Int × OscBundle × Memory) :=
  oscBundleWritev P demote (aliveCall sIds bundle.type).address
    (aliveCall sIds bundle.type).format (aliveCall sIds bundle.type).args bundle.oscBundle m

/-- Both calls return the same code and leave the same cursor, the same `len` and the same
bytes before it. -/
def AliveAgrees (sIds : SessionIds) (bundle : TuioBundle) (m : Memory) : Prop :=
  ∃ ret bundle₁ m₁ bundle₂ m₂, tuioBundleAlive P sIds bundle m = some (ret, bundle₁, m₁) ∧
    oscBundleWriteAlive P demote sIds bundle m = some (ret, bundle₂, m₂) ∧
    bundle₁.oscBundle.bufferPos = bundle₂.bufferPos ∧
    bundle₁.oscBundle.len = bundle₂.len ∧
    (m₁.drop bundle.oscBundle.buffer.toNat).take bundle₂.len =
      (m₂.drop bundle.oscBundle.buffer.toNat).take bundle₂.len

/-- The cursor of a bundle lies in its buffer, `len` bytes behind the beginning. -/
structure CursorIn (bundle : OscBundle) (m : Memory) (pos : Int) : Prop where
  bufferPos : bundle.bufferPos = some pos
  nonneg : 0 ≤ bundle.buffer
  le : bundle.buffer ≤ pos
  le_end : pos ≤ bundle.bufferEnd
  end_le : bundle.bufferEnd ≤ m.length
  length_lt : m.length < 9223372036854775808
  len : bundle.len = pos - bundle.buffer

variable {P demote} {sIds : SessionIds} {bundle bundle' : TuioBundle} {m m' : Memory}
variable {pos ret : Int}

/-! ## What is written -/

/-- The arguments of the message. -/
def idArguments (sIds : SessionIds) : List OscArgument := sIds.ids.map .int32

theorem tags_idArguments (sIds : SessionIds) :
    (idArguments sIds).map OscArgument.tag =
      List.replicate sIds.ids.length 'i'.toUInt8 := by
  rw [idArguments, List.map_map]
  exact List.map_const'

theorem length_idBytes (ids : List Int32) : (idBytes P ids).length = 4 * ids.length := by
  induction ids with
  | nil => rfl
  | cons id ids ih =>
      have hcons : idBytes P (id :: ids) = word32 P id.toUInt32 ++ idBytes P ids := rfl
      rw [hcons, List.length_append, length_word32, ih, List.length_cons]
      omega

/-- The bytes behind the address, in the order in which they are stored. -/
def aliveTail (P : Platform) (sIds : SessionIds) : List UInt8 :=
  ','.toUInt8 :: (List.replicate sIds.ids.length 'i'.toUInt8 ++
    (List.replicate (roundUp (sIds.ids.length + 2) - (sIds.ids.length + 1)) 0 ++
      idBytes P sIds.ids))

theorem encodeMessage_idArguments (P : Platform) (address : CString) (sIds : SessionIds) :
    encodeMessage address (idArguments sIds) = padString address.bytes ++ aliveTail P sIds := by
  have hsize : paddedSize (sIds.ids.length + 1) = roundUp (sIds.ids.length + 2) := rfl
  have hle := le_roundUp (sIds.ids.length + 2)
  have hcount : roundUp (sIds.ids.length + 2) - (sIds.ids.length + 1) =
      roundUp (sIds.ids.length + 2) - (sIds.ids.length + 1 + 1) + 1 := by omega
  have htags : padString (tagString (idArguments sIds)) = ','.toUInt8 ::
      (List.replicate sIds.ids.length 'i'.toUInt8 ++
        List.replicate (roundUp (sIds.ids.length + 2) - (sIds.ids.length + 1)) 0) := by
    rw [tagString, tags_idArguments, padString, List.length_cons, List.length_replicate, hsize,
      hcount, List.replicate_succ, List.cons_append]
  have hids : ((idArguments sIds).map OscArgument.payload).flatten = idBytes P sIds.ids := by
    rw [idArguments, List.map_map, idBytes]
    congr 2
    funext id
    exact (word32_eq id.toUInt32).symm
  rw [encodeMessage, htags, hids, aliveTail]
  simp only [List.append_assoc, List.cons_append]

theorem length_aliveTail (P : Platform) (sIds : SessionIds) :
    (aliveTail P sIds).length = roundUp (sIds.ids.length + 2) + 4 * sIds.ids.length := by
  have hle := le_roundUp (sIds.ids.length + 2)
  simp only [aliveTail, List.length_cons, List.length_append, List.length_replicate,
    length_idBytes]
  omega

/-- The stores behind the address are one run of stores. -/
theorem storeBytes_aliveTail {p : Int} (h : storeBytes m p (aliveTail P sIds) = some m') :
    ∃ m₁ m₂ m₃, storeByte m p ','.toUInt8 = some m₁ ∧
      storeBytes m₁ (p + 1) (List.replicate sIds.ids.length 'i'.toUInt8) = some m₂ ∧
      storeBytes m₂ (p + 1 + sIds.ids.length)
        (List.replicate (roundUp (sIds.ids.length + 2) - (sIds.ids.length + 1)) 0) = some m₃ ∧
      storeBytes m₃ (p + 1 + sIds.ids.length +
        (roundUp (sIds.ids.length + 2) - (sIds.ids.length + 1) : Nat)) (idBytes P sIds.ids) =
          some m' := by
  rw [aliveTail, storeBytes, Option.bind_eq_bind] at h
  obtain ⟨m₁, hcomma, h⟩ := Option.bind_eq_some_iff.mp h
  rw [storeBytes_append, List.length_replicate] at h
  obtain ⟨m₂, htags, h⟩ := Option.bind_eq_some_iff.mp h
  rw [storeBytes_append, List.length_replicate] at h
  obtain ⟨m₃, hzeros, h⟩ := Option.bind_eq_some_iff.mp h
  exact ⟨m₁, m₂, m₃, hcomma, htags, hzeros, h⟩

/-- The address and the bytes stored behind it are the message. -/
theorem overwrite_aliveTail (P : Platform) (address : CString) (sIds : SessionIds) {k : Nat}
    (hk : paddedSize address.bytes.length = k) (hpos : 0 ≤ pos) (hle : pos + 4 ≤ m.length) :
    overwrite (overwrite m (pos + 4).toNat (padString address.bytes)) (pos + 4 + k).toNat
        (aliveTail P sIds) =
      overwrite m (pos.toNat + 4) (encodeMessage address (idArguments sIds)) := by
  have hbehind : (pos + 4 + k).toNat = (pos + 4).toNat + (padString address.bytes).length := by
    rw [length_padString, hk]
    omega
  have hstart : (pos + 4).toNat = pos.toNat + 4 := by omega
  rw [hbehind, overwrite_append (by omega), ← encodeMessage_idArguments P, hstart]

/-- The length is stored in front of the message. -/
theorem storeBytes_recordLength {bs : List UInt8} (hpos : 0 ≤ pos)
    (hle : pos + 4 + bs.length ≤ m.length) (x : UInt32) :
    storeBytes (overwrite m (pos.toNat + 4) bs) pos (word32 P x) =
      some (overwrite m pos.toNat (bigEndian 4 x.toNat ++ bs)) := by
  have hword := length_bigEndian 4 x.toNat
  have hover := @overwrite_prepend m pos.toNat (bigEndian 4 x.toNat) (by omega) bs
  rw [hword] at hover
  have hlen : (overwrite m (pos.toNat + 4) bs).length = m.length := length_overwrite (by omega)
  rw [word32_eq, storeBytes_eq, if_pos (Or.inr ⟨by omega, by omega⟩), hover]

/-- If there is room for the message, it is written as it should be, behind a length that
is too large by eight. -/
theorem tuioBundleAlive_eq (h : CursorIn bundle.oscBundle m pos) {n : Nat}
    (hn : (encodeMessage (profileAddresses bundle.type) (idArguments sIds)).length = n)
    (hcount : sIds.ids.length ≤ 2147483647) (hfits : pos + 4 + n ≤ bundle.oscBundle.bufferEnd) :
    tuioBundleAlive P sIds bundle m =
      some (1, { bundle with oscBundle :=
          { bundle.oscBundle with bufferPos := some (pos + 4 + n) } },
        overwrite m pos.toNat (bigEndian 4 (Int32.ofInt (wrap32 (n + 8))).toUInt32.toNat ++
          encodeMessage (profileAddresses bundle.type) (idArguments sIds))) := by
  have hlength := h.length_lt
  have hle := h.le
  have hend_le := h.end_le
  have hnonneg := h.nonneg
  have hround := le_roundUp (sIds.ids.length + 2)
  have hroundlt := roundUp_lt (sIds.ids.length + 2)
  have hids := sIds.length_lt
  obtain ⟨k, hk⟩ : ∃ k, paddedSize (profileAddresses bundle.type).bytes.length = k := ⟨_, rfl⟩
  have htail := length_aliveTail P sIds
  have hsum : n = k + (aliveTail P sIds).length := by
    rw [← hn, encodeMessage_idArguments P, List.length_append, length_padString, hk]
  have hroom : Room bundle.oscBundle.bufferEnd (pos + 4) m :=
    ⟨by omega, by omega, hend_le, hlength⟩
  have hsize : ¬ sizeT (bundle.oscBundle.bufferEnd - pos) < 4 := by
    rw [sizeT_of_nonneg (by omega) (by omega)]
    omega
  have hemits : Emits bundle.oscBundle.bufferEnd
      (padString (profileAddresses bundle.type).bytes) _ :=
    emits_string [] (profileAddresses bundle.type).length_lt
  have haddress := (hemits (pos + 4) m hroom).1 (by rw [length_padString, hk]; omega)
  rw [length_padString, hk] at haddress
  obtain ⟨m₁, hm₁⟩ : ∃ m₁, overwrite m (pos + 4).toNat
    (padString (profileAddresses bundle.type).bytes) = m₁ := ⟨_, rfl⟩
  have hlen₁ : m₁.length = m.length := by
    rw [← hm₁, length_overwrite (by rw [length_padString, hk]; omega)]
  rw [hm₁] at haddress
  have hstores : storeBytes m₁ (pos + 4 + k) (aliveTail P sIds) =
      some (overwrite m₁ (pos + 4 + k).toNat (aliveTail P sIds)) := by
    rw [storeBytes_eq, if_pos (Or.inr ⟨by omega, by omega⟩)]
  obtain ⟨m₂, m₃, m₄, hcomma, htags, hzeros, hwords⟩ := storeBytes_aliveTail hstores
  have htypes : round32Size (sIds.ids.length + 2) = roundUp (sIds.ids.length + 2) :=
    round32Size_eq_roundUp (by omega)
  have hfill : (pos + 4 + k + (roundUp (sIds.ids.length + 2) : Int) -
      (pos + 4 + k + 1 + sIds.ids.length)).toNat =
        roundUp (sIds.ids.length + 2) - (sIds.ids.length + 1) := by omega
  have hmessage := overwrite_aliveTail P (profileAddresses bundle.type) sIds (m := m) hk
    (show 0 ≤ pos by omega) (by omega)
  rw [hm₁] at hmessage
  have hlast : pos + 4 + k + 1 + sIds.ids.length +
      ((roundUp (sIds.ids.length + 2) - (sIds.ids.length + 1) : Nat) : Int) +
        ((4 * sIds.ids.length : Nat) : Int) = pos + 4 + n := by omega
  have hwritten : pos + 4 + n - pos + 4 = (n : Int) + 8 := by omega
  rw [hmessage] at hwords
  simp only [tuioBundleAlive, h.bufferPos, Option.bind_eq_bind, Option.bind_some, if_neg hsize,
    haddress, htypes]
  rw [if_neg (by omega), if_neg (by omega), hcomma, Option.bind_some, htags, Option.bind_some,
    hfill, hzeros, Option.bind_some, hwords, Option.bind_some, hlast, hwritten,
    storeBytes_recordLength (by omega) (by omega), Option.bind_some]

/-! ## What the two calls leave of the record -/

/-- `tuio_bundle_alive` never assigns `len`, and assigns the cursor only where it returns
1. -/
theorem tuioBundleAlive_frame (h : tuioBundleAlive P sIds bundle m = some (ret, bundle', m')) :
    bundle'.oscBundle.len = bundle.oscBundle.len ∧ (ret = 0 ∧ bundle' = bundle ∨ ret = 1) := by
  simp only [tuioBundleAlive, Option.bind_eq_bind] at h
  obtain ⟨pos, -, h⟩ := Option.bind_eq_some_iff.mp h
  split at h
  · cases h
    exact ⟨rfl, Or.inl ⟨rfl, rfl⟩⟩
  obtain ⟨⟨pos₁, m₁⟩, -, h⟩ := Option.bind_eq_some_iff.mp h
  cases pos₁ with
  | none =>
      cases h
      exact ⟨rfl, Or.inl ⟨rfl, rfl⟩⟩
  | some pos₁ =>
      simp only at h
      split at h
      · cases h
        exact ⟨rfl, Or.inl ⟨rfl, rfl⟩⟩
      split at h
      · cases h
      obtain ⟨m₂, -, h⟩ := Option.bind_eq_some_iff.mp h
      obtain ⟨m₃, -, h⟩ := Option.bind_eq_some_iff.mp h
      obtain ⟨m₄, -, h⟩ := Option.bind_eq_some_iff.mp h
      obtain ⟨m₅, -, h⟩ := Option.bind_eq_some_iff.mp h
      obtain ⟨m₆, -, h⟩ := Option.bind_eq_some_iff.mp h
      cases h
      exact ⟨rfl, Or.inr rfl⟩

/-- `osc_writev` returns an `int`. -/
theorem oscWritev_lt {buffer n : Int} {bufferLen : Nat} {address format : CString}
    {args : List VaArg} (h : oscWritev P demote buffer bufferLen address format args m =
      some (n, m')) : n < 2147483648 := by
  simp only [oscWritev, Option.bind_eq_bind] at h
  obtain ⟨⟨pos, m₁⟩, -, h⟩ := Option.bind_eq_some_iff.mp h
  cases pos with
  | none =>
      obtain ⟨rfl, -⟩ := Prod.mk.inj (Option.some.inj h)
      decide
  | some pos =>
      rw [← (Prod.mk.inj (Option.some.inj h)).1]
      exact wrap32_lt _

/-- `osc_bundle_write` moves the cursor over the length before it fails, and changes `len`
where it does not. -/
theorem oscBundleWritev_frame {bundle bundle' : OscBundle} (message : MessageCall)
    (hpos : bundle.bufferPos = some pos) (hroom : 4 ≤ bundle.bufferEnd - pos)
    (h : oscBundleWritev P demote message.address message.format message.args bundle m =
      some (ret, bundle', m')) :
    ret = 0 ∧ bundle'.bufferPos = some (pos + 4) ∨ ret = 1 ∧ bundle'.len ≠ bundle.len := by
  simp only [oscBundleWritev, hpos, Option.bind_eq_bind, Option.bind_some] at h
  rw [if_neg (by omega)] at h
  obtain ⟨⟨written, m₁⟩, hwritten, h⟩ := Option.bind_eq_some_iff.mp h
  have hlt := oscWritev_lt hwritten
  simp only at h
  split at h
  · obtain ⟨rfl, hbundle⟩ := Prod.mk.inj (Option.some.inj h)
    rw [← (Prod.mk.inj hbundle).1]
    exact Or.inl ⟨rfl, rfl⟩
  · next hnonneg =>
      obtain ⟨m₂, -, h⟩ := Option.bind_eq_some_iff.mp h
      obtain ⟨rfl, hbundle⟩ := Prod.mk.inj (Option.some.inj h)
      rw [← (Prod.mk.inj hbundle).1]
      refine Or.inr ⟨rfl, ?_⟩
      simp only [sizeT, wrap32]
      omega

/-- Where there is room for the length, the two calls leave different records. -/
theorem not_aliveAgrees_of_room (hpos : bundle.oscBundle.bufferPos = some pos)
    (hroom : 4 ≤ bundle.oscBundle.bufferEnd - pos) : ¬ AliveAgrees P demote sIds bundle m := by
  rintro ⟨ret, bundle₁, m₁, bundle₂, m₂, halive, hgeneric, hcursor, hlast, -⟩
  obtain ⟨hkept, hcases⟩ := tuioBundleAlive_frame halive
  rcases oscBundleWritev_frame (aliveCall sIds bundle.type) hpos hroom hgeneric with
    ⟨hret, hmoved⟩ | ⟨hret, hchanged⟩
  · rcases hcases with ⟨-, rfl⟩ | hret'
    · rw [hpos, hmoved] at hcursor
      have heq := Option.some.inj hcursor
      omega
    · omega
  · exact hchanged (hlast.symm.trans hkept)

/-- The alive message is written as by `osc_bundle_write` exactly where there is no room
for its length. -/
theorem aliveAgrees_iff (P : Platform) (demote : UInt64 → UInt32) (sIds : SessionIds)
    (bundle : TuioBundle) (m : Memory) (pos : Int) (h : CursorIn bundle.oscBundle m pos) :
    AliveAgrees P demote sIds bundle m ↔ bundle.oscBundle.bufferEnd - pos < 4 := by
  have hlength := h.length_lt
  have hle := h.le
  have hle_end := h.le_end
  have hend_le := h.end_le
  have hnonneg := h.nonneg
  have hlen := h.len
  constructor
  · intro hagree
    by_contra hroom
    exact not_aliveAgrees_of_room h.bufferPos (by omega) hagree
  · intro hfull
    have hsize : sizeT (bundle.oscBundle.bufferEnd - pos) < 4 := by
      rw [sizeT_of_nonneg (by omega) (by omega)]
      omega
    refine ⟨0, bundle, m, bundle.oscBundle, m, ?_, ?_, rfl, rfl, rfl⟩
    · simp only [tuioBundleAlive, h.bufferPos, Option.bind_eq_bind, Option.bind_some, if_pos hsize]
    · exact oscBundleWritev_full P demote (aliveCall sIds bundle.type) m h.bufferPos hfull

/-- A bundle of 16 bytes that its header fills. -/
def fullBundle : TuioBundle := ⟨⟨0, some 16, 16, 16⟩, .tuio2DCur⟩

theorem aliveAgrees_fullBundle :
    AliveAgrees littleHost UInt64.toUInt32 ⟨[7], by decide⟩ fullBundle (List.replicate 16 0) :=
  (aliveAgrees_iff littleHost UInt64.toUInt32 ⟨[7], by decide⟩ fullBundle (List.replicate 16 0) 16
    ⟨rfl, by decide, by decide, by decide, by decide, by decide, by decide⟩).mpr (by decide)

/-- A bundle of 64 bytes behind its header. -/
def roomyBundle : TuioBundle := ⟨⟨0, some 16, 64, 16⟩, .tuio2DCur⟩

/-- One id fits, and it leaves another length and another `len`. -/
theorem roomyBundle_not_aliveAgrees :
    CursorIn roomyBundle.oscBundle (List.replicate 64 0) 16 ∧
      ¬ AliveAgrees littleHost UInt64.toUInt32 ⟨[7], by decide⟩ roomyBundle
        (List.replicate 64 0) :=
  ⟨⟨rfl, by decide, by decide, by decide, by decide, by decide, by decide⟩,
    not_aliveAgrees_of_room rfl (by decide)⟩

end LittleOscar.Ideas
