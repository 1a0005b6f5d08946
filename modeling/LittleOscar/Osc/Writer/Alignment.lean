import LittleOscar.Osc.Reader.Getter
import LittleOscar.Osc.Writer.Interference
import LittleOscar.Osc.Writer.Varargs
import LittleOscar.Transition.Run

/-!
# Alignment

Every function of `write.c` that returns leaves the cursor at a multiple of four, and not in
front of where it was: a string is padded, a blob too, the tag area is rounded up, and the
words are of four and of eight bytes. This holds in whatever order the functions are called
and whatever they return.

What carries it over to the length fields is the start of the open element: from the call
that opened it on it stays four bytes or more in front of the cursor. So a length that
`osc_msg_writer_end_msg` stores is one that `osc_packet_get_type` accepts
(`along_keepsAligned`).
-/

namespace LittleOscar

open Machine Transition WriterState Inside
open Ideas (VaArg vaInt vaInt64 vaDouble vaPointer vaCount)

/-- A call on a writer after its initialisation, those of `osc_writev` and `osc_write`
included. -/
inductive WriterAction where
  | call (c : WriterCall)
  | writev (address typestring : CString) (args : List VaArg)

/-- The calls in which `osc_msg_writer_end_msg` is called. -/
def WriterAction.EndsMsg : WriterAction → Prop
  | .call .endMsg | .writev _ _ _ => True
  | .call _ => False

variable (P : Platform) (demote : UInt64 → UInt32)

/-- The function that a `WriterAction` calls. -/
def writerAction : WriterAction → WriterState → Option (Int × WriterState)
  | .call c => writerCall P c
  | .writev address typestring args => oscWritev P demote address typestring args

/-- The state after a call, whatever it returned. -/
def writerActionStep (s : WriterState) (a : WriterAction) : Option WriterState :=
  (writerAction P demote a s).map Prod.snd

/-- The field in front of the element that ends at the cursor holds its length, and
`osc_packet_get_type` accepts it. -/
def LengthStored (s : WriterState) : Prop :=
  ∃ n : ℕ, (n : Int) = s.pos - s.msgStart ∧ n % 4 = 0 ∧ 4 ≤ n ∧
    loadNative P s.mem (s.data + (s.msgStart - 4)) 4 = some n ∧
    ∃ type, oscPacketGetType s.mem (s.data + s.msgStart) n = some type ∧ type ≠ oscError

/-- What a call owes to the alignment. -/
def KeepsAligned (s : WriterState) (a : WriterAction) : Prop :=
  ∀ ret s', writerAction P demote a s = some (ret, s') →
    s'.pos % 4 = 0 ∧ s.pos ≤ s'.pos ∧
      (ret = oscOk → a.EndsMsg → s.state.bundle → LengthStored P s')

/-- The cursor is an `int` after the call. -/
def StaysInt (s : WriterState) (a : WriterAction) : Prop :=
  ∀ s' ∈ writerActionStep P demote s a, s'.pos < 2147483648

instance (s : WriterState) (a : WriterAction) : Decidable (StaysInt P demote s a) := by
  unfold StaysInt
  infer_instance

/-- The cursor is aligned, and so is the beginning of an open element, which lies in front of
it and in the object. -/
structure Aligned (s : WriterState) : Prop where
  mod : s.pos % 4 = 0
  nonneg : 0 ≤ s.pos
  start : s.state.bundle → s.state.msg →
    s.msgStart % 4 = 0 ∧ 0 ≤ s.msgStart ∧ s.msgStart + 4 ≤ s.pos ∧
      0 ≤ s.data + s.msgStart ∧ s.data + s.msgStart < s.mem.length

/-- What is done to a writer between the opening and the closing of a message. -/
structure Continues (s s' : WriterState) : Prop where
  mod : s.pos % 4 = 0 → s'.pos % 4 = 0
  le : s.pos ≤ s'.pos
  data : s'.data = s.data
  msgStart : s'.msgStart = s.msgStart
  state : s'.state = s.state
  length : s'.mem.length = s.mem.length

variable {P demote} {s s' s'' : WriterState} {ret : Int}

/-! ## Arguments -/

namespace Continues

theorem refl (s : WriterState) : Continues s s :=
  ⟨id, le_rfl, rfl, rfl, rfl, rfl⟩

theorem trans (h : Continues s s') (h' : Continues s' s'') : Continues s s'' where
  mod := fun hmod => h'.mod (h.mod hmod)
  le := h.le.trans h'.le
  data := h'.data.trans h.data
  msgStart := h'.msgStart.trans h.msgStart
  state := h'.state.trans h.state
  length := h'.length.trans h.length

end Continues

theorem continues_tagged (s : WriterState) (t : UInt8) : Continues s (s.tagged t) :=
  ⟨id, le_rfl, rfl, rfl, rfl, by rw [tagged_mem, List.length_set]⟩

theorem continues_of_putAll {bs : List UInt8} (h : s.putAll bs = some s')
    (hmod : s.pos % 4 = 0 → (s.pos + bs.length) % 4 = 0) : Continues s s' := by
  have hlength := length_of_putAll h
  obtain rfl := putAll_eq_some h
  refine ⟨hmod, ?_, rfl, rfl, rfl, hlength⟩
  rw [filled_pos]
  omega

theorem continues_of_write {arg : WriteArg} (h : oscMsgWrite P arg s = some (ret, s')) :
    Continues s s' := by
  rcases cases_of_write h with ⟨-, -, rfl⟩ | ⟨-, -, bs, hstored, hput⟩
  · exact continues_tagged s arg.tag
  · refine (continues_tagged s arg.tag).trans (continues_of_putAll hput ?_)
    intro hmod
    exact stored_mod hmod hstored

theorem continues_of_writeFixedVa {size : Nat} {word : Option (List UInt8)}
    (hword : ∀ raw ∈ word, raw.length % 4 = 0)
    (h : writeFixedVa size word s = some (ret, s')) : Continues s s' := by
  unfold writeFixedVa at h
  split at h
  · obtain ⟨-, rfl⟩ := Prod.mk.inj (Option.some.inj h)
    exact Continues.refl s
  · obtain ⟨raw, hraw, h⟩ := Option.bind_eq_some_iff.mp h
    obtain ⟨s₁, hput, h⟩ := Option.bind_eq_some_iff.mp h
    obtain ⟨-, rfl⟩ := Prod.mk.inj (Option.some.inj h)
    rw [writeFixed_eq_putAll] at hput
    have hlen := hword raw hraw
    exact continues_of_putAll hput (by omega)

/-- The words of `osc_writev` are of four and of eight bytes. -/
theorem length_mod_of_mem_map {α : Type} {val : Option α} {word : α → List UInt8} {k : Nat}
    (hk : k % 4 = 0) (hword : ∀ a, (word a).length = k) :
    ∀ raw ∈ val.map word, raw.length % 4 = 0 := by
  intro raw hraw
  obtain ⟨a, -, rfl⟩ := Option.map_eq_some_iff.mp hraw
  rw [hword, hk]

/-- No character of a typestring leaves the cursor between two multiples of four, that of an
unfinished blob included. -/
theorem continues_of_writevSwitch {t : UInt8} {args : List VaArg}
    (h : writevSwitch P demote t args s = some (ret, s')) : Continues s s' := by
  rw [writevSwitch] at h
  rcases ite_eq_iff.mp h with ⟨-, h⟩ | ⟨-, h⟩
  · obtain ⟨-, rfl⟩ := Prod.mk.inj (Option.some.inj h)
    exact Continues.refl s
  rcases ite_eq_iff.mp h with ⟨-, h⟩ | ⟨-, h⟩
  · exact continues_of_writeFixedVa
      (length_mod_of_mem_map rfl fun _ => length_native P.order 4 _) h
  rcases ite_eq_iff.mp h with ⟨-, h⟩ | ⟨-, h⟩
  · exact continues_of_writeFixedVa
      (length_mod_of_mem_map rfl fun _ => length_native P.order 8 _) h
  rcases ite_eq_iff.mp h with ⟨-, h⟩ | ⟨-, h⟩
  · exact continues_of_writeFixedVa
      (length_mod_of_mem_map rfl fun _ => length_native P.order 8 _) h
  rcases ite_eq_iff.mp h with ⟨-, h⟩ | ⟨-, h⟩
  · exact continues_of_writeFixedVa
      (length_mod_of_mem_map rfl fun _ => length_native P.order 4 _) h
  rcases ite_eq_iff.mp h with ⟨-, h⟩ | ⟨-, h⟩
  · exact continues_of_writeFixedVa
      (length_mod_of_mem_map rfl fun _ => length_native P.order 8 _) h
  rcases ite_eq_iff.mp h with ⟨-, h⟩ | ⟨-, h⟩
  · obtain ⟨stringVal, -, h⟩ := Option.bind_eq_some_iff.mp h
    split at h
    · obtain ⟨-, rfl⟩ := Prod.mk.inj (Option.some.inj h)
      exact Continues.refl s
    · obtain ⟨s₁, hput, h⟩ := Option.bind_eq_some_iff.mp h
      obtain ⟨-, rfl⟩ := Prod.mk.inj (Option.some.inj h)
      rw [writeString_eq] at hput
      exact continues_of_putAll hput fun _ => stringBytes_mod s.pos stringVal
  rcases ite_eq_iff.mp h with ⟨-, h⟩ | ⟨-, h⟩
  · obtain ⟨blobLen, -, h⟩ := Option.bind_eq_some_iff.mp h
    obtain ⟨blobData, -, h⟩ := Option.bind_eq_some_iff.mp h
    split at h
    · obtain ⟨-, rfl⟩ := Prod.mk.inj (Option.some.inj h)
      exact Continues.refl s
    · obtain ⟨s₁, hput, h⟩ := Option.bind_eq_some_iff.mp h
      obtain ⟨-, rfl⟩ := Prod.mk.inj (Option.some.inj h)
      rw [writeFixed_eq_putAll] at hput
      refine continues_of_putAll hput fun hmod => ?_
      rw [length_native]
      omega
  · obtain ⟨-, rfl⟩ := Prod.mk.inj (Option.some.inj h)
    exact Continues.refl s

theorem continues_of_writevLoop {typestring : List UInt8} {args : List VaArg}
    (h : writevLoop P demote typestring args s = some (ret, s')) : Continues s s' := by
  induction typestring generalizing args s with
  | nil =>
      obtain ⟨-, rfl⟩ := Prod.mk.inj (Option.some.inj h)
      exact Continues.refl s
  | cons t typestring ih =>
      obtain ⟨s₁, htag, hrest⟩ := Option.bind_eq_some_iff.mp h
      obtain ⟨⟨r, s₂⟩, hswitch, hloop⟩ := Option.bind_eq_some_iff.mp hrest
      obtain rfl := addType_eq_some htag
      have hcharacter := (continues_tagged s t).trans (continues_of_writevSwitch hswitch)
      simp only at hloop
      split at hloop
      · obtain ⟨-, rfl⟩ := Prod.mk.inj (Option.some.inj hloop)
        exact hcharacter
      · exact hcharacter.trans (ih hloop)

namespace Aligned

theorem continues (h : Aligned s) (h' : Continues s s') : Aligned s' := by
  have hnonneg := h.nonneg
  have hle := h'.le
  refine ⟨h'.mod h.mod, by omega, ?_⟩
  intro hbundle hmsg
  rw [h'.state] at hbundle hmsg
  obtain ⟨hmod, hstart, hin, hdata, hlt⟩ := h.start hbundle hmsg
  rw [h'.msgStart, h'.data, h'.length]
  exact ⟨hmod, hstart, by omega, hdata, hlt⟩

/-! ## Opening and closing -/

theorem startMsg (h : Aligned s) {address : CString} {nargs : Int}
    (hcall : oscMsgWriterStartMsg address nargs s = some (ret, s')) :
    Aligned s' ∧ s.pos ≤ s'.pos ∧ s'.state.bundle = s.state.bundle := by
  have hnonneg := h.nonneg
  have hreserve := reserve_mod s
  have hreserved : s.reserved.pos = s.pos + s.reserve := rfl
  have hmod := reserved_pos_mod h.mod
  have haddress := stringBytes_mod s.reserved.pos address
  rcases cases_of_startMsg hcall with
    ⟨-, -, rfl⟩ | ⟨-, hmsg, -, rfl⟩ | ⟨-, hmsg, -, hput⟩ | ⟨rfl, -⟩
  · exact ⟨h, le_rfl, rfl⟩
  · exact ⟨⟨hmod, by omega, fun _ habs => absurd habs hmsg⟩, by omega, rfl⟩
  · obtain rfl := putAll_eq_some hput
    simp only [filled_pos]
    exact ⟨⟨haddress, by rw [filled_pos]; omega, fun _ habs => absurd habs hmsg⟩, by omega, rfl⟩
  · have hopened := opened_of_startMsg hcall
    have hstart := hopened.msgStart
    have htype := hopened.typePos
    have hpos := hopened.pos
    have hlength := hopened.length
    have hpositive := List.length_pos_of_ne_nil (stringBytes_ne_nil s.reserved.pos address)
    obtain ⟨hdata, hle⟩ := hopened.fits
    have hsame : s.reserved.data = s.data ∧ s.reserved.mem = s.mem := ⟨rfl, rfl⟩
    rw [hsame.1] at hdata hle
    rw [hsame.2] at hle
    refine ⟨⟨hopened.pos_mod, by omega, ?_⟩, by omega, by rw [hopened.state]⟩
    intro _ _
    rw [hstart, hopened.data]
    exact ⟨hmod, by omega, by omega, hdata, by omega⟩

theorem startBundle (h : Aligned s) {timetag : UInt64}
    (hcall : oscMsgWriterStartBundle P timetag s = some (ret, s')) :
    Aligned s' ∧ s.pos ≤ s'.pos := by
  have hnonneg := h.nonneg
  have hmod := aligned_of_writerCall (c := .startBundle timetag) h.mod hcall
  rcases cases_of_startBundle hcall with ⟨-, rfl⟩ | ⟨-, -, -, s₁, s₂, hheader, htimetag, rfl⟩
  · exact ⟨h, le_rfl⟩
  · have hle : s.pos ≤ s₂.pos := by
      rw [putAll_eq_some htimetag, putAll_eq_some hheader]
      simp only [filled_pos]
      omega
    exact ⟨⟨hmod, by simp only; omega, fun _ habs => by cases habs⟩, hle⟩

theorem endMsg (h : Aligned s) (hcall : oscMsgWriterEndMsg P s = some (ret, s')) :
    Aligned s' ∧ s'.pos = s.pos := by
  rcases cases_of_endMsg hcall with ⟨-, -, rfl⟩ | ⟨-, -, -, mem, -, rfl⟩ | ⟨-, -, -, rfl⟩
  · exact ⟨h, rfl⟩
  · exact ⟨⟨h.mod, h.nonneg, fun _ habs => by cases habs⟩, rfl⟩
  · exact ⟨⟨h.mod, h.nonneg, fun habs => by cases habs⟩, rfl⟩

/-- What `osc_msg_writer_end_msg` stores for an element. -/
theorem lengthStored (h : Aligned s) (hint : s.pos < 2147483648) (hbundle : s.state.bundle)
    (hcall : oscMsgWriterEndMsg P s = some (oscOk, s')) : LengthStored P s' := by
  rcases cases_of_endMsg hcall with
    ⟨habs, -⟩ | ⟨-, hmsg, -, mem, hstore, rfl⟩ | ⟨-, -, habs, -⟩
  · exact absurd habs.symm oscError_ne_oscOk
  · obtain ⟨hmod, hstart, hle, hdata, hlt⟩ := h.start hbundle hmsg
    have haligned := h.mod
    have hlength := length_of_storeBytes hstore
    obtain ⟨n, hn⟩ := Int.eq_ofNat_of_zero_le (show 0 ≤ s.pos - s.msgStart by omega)
    have hword : ((s.pos - s.msgStart) % 4294967296).toNat = n := by omega
    rw [hword] at hstore
    refine ⟨n, hn.symm, by omega, by omega, ?_, ?_⟩
    · have hne : native P.order 4 n ≠ [] :=
        List.ne_nil_of_length_pos (by rw [length_native]; decide)
      have hat := at_of_storeBytes hne hstore
      have hload := loadNative_at (P := P) hat
      rw [length_native, ofNative_native P.order (by omega)] at hload
      exact hload
    · obtain ⟨b, hb⟩ := exists_loadByte (m := mem) hdata (by omega)
      refine ⟨if b = '#'.toUInt8 then oscBundle else oscMessage, ?_, ?_⟩
      · simp only
        rw [oscPacketGetType, if_neg (by omega), hb]
        rfl
      · split <;> decide
  · exact absurd hbundle habs

/-- `osc_writev` opens a message, goes on with it and closes it, as far as it gets. -/
theorem writev (h : Aligned s) {address typestring : CString} {args : List VaArg}
    (hcall : oscWritev P demote address typestring args s = some (ret, s')) :
    Aligned s' ∧ s.pos ≤ s'.pos ∧
      (s'.pos < 2147483648 → ret = oscOk → s.state.bundle → LengthStored P s') := by
  obtain ⟨⟨r₁, s₁⟩, hstart, hrest⟩ := Option.bind_eq_some_iff.mp hcall
  obtain ⟨hs₁, hle₁, hbundle₁⟩ := h.startMsg hstart
  simp only at hrest
  split at hrest
  · obtain ⟨rfl, rfl⟩ := Prod.mk.inj (Option.some.inj hrest)
    exact ⟨hs₁, hle₁, fun _ habs => absurd habs oscError_ne_oscOk⟩
  obtain ⟨⟨r₂, s₂⟩, hloop, hrest⟩ := Option.bind_eq_some_iff.mp hrest
  have hcontinues := continues_of_writevLoop hloop
  have hs₂ := hs₁.continues hcontinues
  have hle₂ := hle₁.trans hcontinues.le
  simp only at hrest
  split at hrest
  · obtain ⟨rfl, rfl⟩ := Prod.mk.inj (Option.some.inj hrest)
    exact ⟨hs₂, hle₂, fun _ habs => absurd habs oscError_ne_oscOk⟩
  obtain ⟨⟨r₃, s₃⟩, hend, hrest⟩ := Option.bind_eq_some_iff.mp hrest
  obtain ⟨hs₃, hpos₃⟩ := hs₂.endMsg hend
  have hle₃ : s.pos ≤ s₃.pos := by rw [hpos₃]; exact hle₂
  simp only at hrest
  split at hrest
  · obtain ⟨rfl, rfl⟩ := Prod.mk.inj (Option.some.inj hrest)
    exact ⟨hs₃, hle₃, fun _ habs => absurd habs oscError_ne_oscOk⟩
  next hok =>
  obtain ⟨rfl, rfl⟩ := Prod.mk.inj (Option.some.inj hrest)
  refine ⟨hs₃, hle₃, fun hint _ hbundle => ?_⟩
  rw [not_not.mp hok] at hend
  refine hs₂.lengthStored (by omega) ?_ hend
  rw [hcontinues.state, hbundle₁]
  exact hbundle

/-! ## A run -/

theorem action (h : Aligned s) {a : WriterAction}
    (hcall : writerAction P demote a s = some (ret, s')) :
    Aligned s' ∧ s.pos ≤ s'.pos ∧ (s'.pos < 2147483648 →
      ret = oscOk → a.EndsMsg → s.state.bundle → LengthStored P s') := by
  cases a with
  | writev address typestring args =>
      obtain ⟨hs', hle, hlength⟩ := h.writev hcall
      exact ⟨hs', hle, fun hint hok _ => hlength hint hok⟩
  | call c =>
      cases c with
      | startBundle timetag =>
          obtain ⟨hs', hle⟩ := h.startBundle hcall
          exact ⟨hs', hle, fun _ _ habs => absurd habs not_false⟩
      | startMsg address nargs =>
          obtain ⟨hs', hle, -⟩ := h.startMsg hcall
          exact ⟨hs', hle, fun _ _ habs => absurd habs not_false⟩
      | write arg =>
          have hcontinues := continues_of_write hcall
          exact ⟨h.continues hcontinues, hcontinues.le,
            fun _ _ habs => absurd habs not_false⟩
      | endMsg =>
          obtain ⟨hs', hpos⟩ := h.endMsg hcall
          refine ⟨hs', hpos.ge, fun hint hok _ hbundle => ?_⟩
          exact h.lengthStored (by omega) hbundle (hok ▸ hcall)
      | endBundle =>
          cases hcall
          exact ⟨⟨h.mod, h.nonneg, fun habs => by cases habs⟩, le_rfl,
            fun _ _ habs => absurd habs not_false⟩

end Aligned

theorem aligned_of_init {w w' : OscWriter} {arg : BufferOrWriter} {len : Int}
    (h : oscMsgWriterInit w arg len = some (ret, w')) (mem : Memory) (kBundle : CString) :
    Aligned { toOscWriter := w', mem, kBundle } := by
  unfold oscMsgWriterInit at h
  split at h
  all_goals
    split at h
    · cases h <;> exact ⟨rfl, le_rfl, fun habs => by cases habs⟩
    · cases h <;> exact ⟨rfl, le_rfl, fun habs => by cases habs⟩

/-- Whatever is called after `osc_msg_writer_init`, and whether it is refused or not, the
cursor is aligned and does not move back, and a length that is stored for an element is that
of the element and one that it may have. -/
theorem along_keepsAligned (P : Platform) (demote : UInt64 → UInt32) (w w' : OscWriter)
    (arg : BufferOrWriter) (len : Int) (mem : Memory) (kBundle : CString)
    (actions : List WriterAction) (hinit : oscMsgWriterInit w arg len = some (oscOk, w'))
    (hint : Along (writerActionStep P demote) (StaysInt P demote)
      { toOscWriter := w', mem, kBundle } actions) :
    Along (writerActionStep P demote) (KeepsAligned P demote)
      { toOscWriter := w', mem, kBundle } actions := by
  refine along_of_invariant Aligned ?_ ?_ (aligned_of_init hinit mem kBundle) hint
  · intro s a hs hint ret s' hcall
    have hstep : s' ∈ writerActionStep P demote s a := by
      rw [writerActionStep, hcall]
      rfl
    obtain ⟨hs', hle, hlength⟩ := hs.action hcall
    exact ⟨hs'.mod, hle, hlength (hint s' hstep)⟩
  · intro s a s' hs _ hstep
    obtain ⟨⟨ret, t⟩, hcall, rfl⟩ := Option.map_eq_some_iff.mp hstep
    exact (hs.action hcall).1

/-- A bundle with one element, which is closed twice. -/
theorem along_keepsAligned_bundle :
    ∃ w', oscMsgWriterInit zeroWriter (.buffer 0) 64 = some (oscOk, w') ∧
      Along (writerActionStep littleHost UInt64.toUInt32)
        (KeepsAligned littleHost UInt64.toUInt32)
        { toOscWriter := w', mem := List.replicate 64 0, kBundle := bundleLiteral }
        [.call (.startBundle 1), .call (.startMsg slashA 1), .call (.write (.int32 7)),
          .call .endMsg, .call .endMsg, .call .endBundle] :=
  ⟨_, rfl, along_keepsAligned littleHost UInt64.toUInt32 zeroWriter _ (.buffer 0) 64
    (List.replicate 64 0) bundleLiteral _ rfl (by decide)⟩

end LittleOscar
