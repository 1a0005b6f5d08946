import LittleOscar.Osc.Reader.Getter

/-!
# Which messages the reader accepts

`expectedReader` says which messages `osc_msg_reader_init` is meant to accept, and with
which cursors: those whose address, and whose tags if there are any, have their NUL
inside the message. It is a function of the bytes of the message alone, whereas the
code looks for the NULs with `strlen`, which runs past the end of the message into
whatever lies behind it, and tells only from the rounded length that it did.

The length of the tags is a `size_t`, but that of the address goes through an `int`. An
address without a NUL in the message, in an object of more than `2 ^ 31` bytes, can
come out of it short enough to be accepted. `IntLength` excludes that.
-/

namespace LittleOscar

open Machine

/-- A memory object with a message at the pointer `buffer` and a NUL somewhere behind
it. -/
structure PacketIn (range : List UInt8) (buffer : Nat) where
  before : List UInt8
  after : List UInt8
  length_before : before.length = buffer
  nul : 0 ∈ after
  length_lt : (before ++ (range ++ after)).length < 9223372036854775808

/-- The bytes of the object. -/
def PacketIn.bytes {range : List UInt8} {buffer : Nat} (packet : PacketIn range buffer) : Memory :=
  packet.before ++ (range ++ packet.after)

/-- The reader of a message at `buffer` whose strings end inside it. -/
def expectedReader (range : List UInt8) (buffer : Nat) : Option OscMsgReader := do
  let n ← strlenFrom range
  let rounded : Int := buffer + paddedSize n
  match range.drop (paddedSize n) with
  | [] => some ⟨buffer, buffer + range.length, none, none⟩
  | b :: bs =>
      if b = ','.toUInt8 then do
        let k ← strlenFrom (b :: bs)
        some ⟨buffer, buffer + range.length, some (rounded + 1), some (rounded + paddedSize k)⟩
      else some ⟨buffer, buffer + range.length, none, some rounded⟩

/-- `osc_msg_reader_init` accepts the message exactly when it is meant to, with the
cursors it is meant to have, and leaves no argument cursor behind the end. -/
def InitExact (m : Memory) (reader₀ : OscMsgReader) (range : List UInt8) (buffer : Nat) : Prop :=
  ∃ ret reader, oscMsgReaderInit m reader₀ buffer range.length = some (ret, reader) ∧
    (ret = oscOk ↔ (expectedReader range buffer).isSome) ∧
    (ret = oscOk → expectedReader range buffer = some reader ∧
      ∀ p, reader.argPtr = some p → p ≤ buffer + range.length)

/-- The first string at `buffer` ends inside the message, or its rounded length is still
seen to go past the end once it is an `int`: it is greater than the length of the
message, or it is smaller and leads to a ',' from which the tags go past the end. -/
def IntLength (m : Memory) (range : List UInt8) (buffer : Nat) : Prop :=
  ∀ n, strlen m buffer = some n →
    n < range.length ∨ (range.length : Int) < wrap32 (paddedSize n) ∨
      wrap32 (paddedSize n) < range.length ∧
        loadByte m (buffer + wrap32 (paddedSize n)) = some ','.toUInt8 ∧
        ∃ k, strlen m (buffer + wrap32 (paddedSize n)) = some k ∧
          (range.length : Int) < wrap32 (paddedSize n) + paddedSize k

/-! ## The four ends of the function -/

section Ends

variable {m : Memory} {reader₀ : OscMsgReader} {buffer len a : Int} {n k : Nat} {b : UInt8}

/-- The code up to its first test, which goes by the length of the address as an
`int`. -/
structure AddressSize (m : Memory) (buffer : Int) (n : Nat) (a : Int) : Prop where
  strlen : strlen m buffer = some n
  lt : n < 9223372036854775808
  size : wrap32 (paddedSize n) = a

theorem AddressSize.init_of_past (h : AddressSize m buffer n a) (hpast : len < a) :
    oscMsgReaderInit m reader₀ buffer len =
      some (oscError, { reader₀ with msgPtr := buffer, msgEnd := buffer + len }) := by
  have hlt := h.lt
  have hround : round32Size (n + 1) = paddedSize n := round32Size_eq_roundUp (by omega)
  simp only [oscMsgReaderInit, h.strlen, hround, h.size, Option.bind_eq_bind, Option.bind_some]
  rw [if_pos (by omega)]

theorem AddressSize.init_of_fills (h : AddressSize m buffer n a) (hfills : a = len) :
    oscMsgReaderInit m reader₀ buffer len = some (oscOk, ⟨buffer, buffer + len, none, none⟩) := by
  have hlt := h.lt
  have hround : round32Size (n + 1) = paddedSize n := round32Size_eq_roundUp (by omega)
  simp only [oscMsgReaderInit, h.strlen, hround, h.size, Option.bind_eq_bind, Option.bind_some]
  rw [if_neg (by omega), if_pos (by omega)]

theorem AddressSize.init_of_lt (h : AddressSize m buffer n a) (hinside : a < len) :
    oscMsgReaderInit m reader₀ buffer len = (loadByte m (buffer + a)).bind fun b =>
      if b = ','.toUInt8 then
        (Machine.strlen m (buffer + a)).bind fun k =>
          if buffer + a + round32Size (k + 1) > buffer + len then
            some (oscError, { reader₀ with msgPtr := buffer, msgEnd := buffer + len })
          else some (oscOk, ⟨buffer, buffer + len, some (buffer + a + 1),
            some (buffer + a + round32Size (k + 1))⟩)
      else some (oscOk, ⟨buffer, buffer + len, none, some (buffer + a)⟩) := by
  have hlt := h.lt
  have hround : round32Size (n + 1) = paddedSize n := round32Size_eq_roundUp (by omega)
  simp only [oscMsgReaderInit, h.strlen, hround, h.size, Option.bind_eq_bind, Option.bind_some]
  rw [if_neg (by omega), if_neg (by omega)]

theorem AddressSize.init_of_untyped (h : AddressSize m buffer n a) (hinside : a < len)
    (hb : loadByte m (buffer + a) = some b) (hcomma : b ≠ ','.toUInt8) :
    oscMsgReaderInit m reader₀ buffer len =
      some (oscOk, ⟨buffer, buffer + len, none, some (buffer + a)⟩) := by
  rw [h.init_of_lt hinside, hb, Option.bind_some, if_neg hcomma]

theorem AddressSize.init_of_tags (h : AddressSize m buffer n a) (hinside : a < len)
    (hb : loadByte m (buffer + a) = some ','.toUInt8)
    (hk : Machine.strlen m (buffer + a) = some k) (hlt : k < 9223372036854775808) :
    oscMsgReaderInit m reader₀ buffer len =
      if buffer + a + paddedSize k > buffer + len then
        some (oscError, { reader₀ with msgPtr := buffer, msgEnd := buffer + len })
      else some (oscOk, ⟨buffer, buffer + len, some (buffer + a + 1),
        some (buffer + a + paddedSize k)⟩) := by
  have hround : round32Size (k + 1) = paddedSize k := round32Size_eq_roundUp (by omega)
  rw [h.init_of_lt hinside, hb, Option.bind_some, if_pos rfl, hk, Option.bind_some, hround]

/-- In an object of less than `2 ^ 31` bytes, the length of the address changes on its way
through an `int` only if it becomes negative. -/
theorem addressSize_of_nonneg (hn : n < 2147483648) (ha : 0 ≤ a)
    (hsize : wrap32 (round32Size (n + 1)) = a) : a = paddedSize n := by
  have hround : round32Size (n + 1) = paddedSize n := round32Size_eq_roundUp (by omega)
  have hlt : paddedSize n < n + 1 + 4 := roundUp_lt (n + 1)
  have hmod := paddedSize_mod n
  rw [hround] at hsize
  unfold wrap32 at hsize
  omega

/-- The readers that a call which succeeds leaves. -/
inductive Accepted (m : Memory) (buffer len : Int) : OscMsgReader → Prop where
  | address {n : Nat} (hn : Machine.strlen m buffer = some n)
      (hfills : wrap32 (round32Size (n + 1)) = len) :
      Accepted m buffer len ⟨buffer, buffer + len, none, none⟩
  | untyped {n : Nat} {a : Int} {b : UInt8} (hn : Machine.strlen m buffer = some n)
      (ha : wrap32 (round32Size (n + 1)) = a) (hlt : a < len)
      (hb : loadByte m (buffer + a) = some b) (hne : b ≠ ','.toUInt8) :
      Accepted m buffer len ⟨buffer, buffer + len, none, some (buffer + a)⟩
  | typed {n k : Nat} {a : Int} (hn : Machine.strlen m buffer = some n)
      (ha : wrap32 (round32Size (n + 1)) = a) (hlt : a < len)
      (hb : loadByte m (buffer + a) = some ','.toUInt8)
      (hk : Machine.strlen m (buffer + a) = some k) (hle : a + round32Size (k + 1) ≤ len) :
      Accepted m buffer len ⟨buffer, buffer + len, some (buffer + a + 1),
        some (buffer + a + round32Size (k + 1))⟩

/-- A call fails and leaves the cursors of the reader as they were, or it succeeds. -/
theorem cases_of_init {ret : Int} {reader : OscMsgReader}
    (h : oscMsgReaderInit m reader₀ buffer len = some (ret, reader)) :
    (ret = oscError ∧ reader = { reader₀ with msgPtr := buffer, msgEnd := buffer + len }) ∨
      (ret = oscOk ∧ Accepted m buffer len reader) := by
  simp only [oscMsgReaderInit, Option.bind_eq_bind] at h
  obtain ⟨n, hn, h⟩ := Option.bind_eq_some_iff.mp h
  split at h
  · obtain ⟨rfl, rfl⟩ := Prod.mk.inj (Option.some.inj h)
    exact Or.inl ⟨rfl, rfl⟩
  split at h
  · obtain ⟨rfl, rfl⟩ := Prod.mk.inj (Option.some.inj h)
    exact Or.inr ⟨rfl, Accepted.address hn (by omega)⟩
  obtain ⟨b, hb, h⟩ := Option.bind_eq_some_iff.mp h
  split at h
  · next hcomma =>
      obtain ⟨k, hk, h⟩ := Option.bind_eq_some_iff.mp h
      split at h
      · obtain ⟨rfl, rfl⟩ := Prod.mk.inj (Option.some.inj h)
        exact Or.inl ⟨rfl, rfl⟩
      · obtain ⟨rfl, rfl⟩ := Prod.mk.inj (Option.some.inj h)
        rw [hcomma] at hb
        exact Or.inr ⟨rfl, Accepted.typed hn rfl (by omega) hb hk (by omega)⟩
  · next hcomma =>
      obtain ⟨rfl, rfl⟩ := Prod.mk.inj (Option.some.inj h)
      exact Or.inr ⟨rfl, Accepted.untyped hn rfl (by omega) hb hcomma⟩

theorem init_failed {ret : Int} {reader : OscMsgReader}
    (h : oscMsgReaderInit m reader₀ buffer len = some (ret, reader)) (hret : ret ≠ oscOk) :
    ret = oscError ∧ reader = { reader₀ with msgPtr := buffer, msgEnd := buffer + len } := by
  apply (cases_of_init h).resolve_right
  exact fun haccepted => hret haccepted.1

theorem accepted_of_init {reader : OscMsgReader}
    (h : oscMsgReaderInit m reader₀ buffer len = some (oscOk, reader)) :
    Accepted m buffer len reader := by
  rcases cases_of_init h with ⟨hret, -⟩ | ⟨-, haccepted⟩
  · exact absurd hret.symm oscError_ne_oscOk
  · exact haccepted

end Ends

variable {range : List UInt8} {buffer : Nat} {reader₀ : OscMsgReader} {n : Nat}

namespace PacketIn

variable (packet : PacketIn range buffer)

/-- A string that starts in the message ends in it, or at the first NUL behind it. -/
theorem strlen_cases {i : Nat} (hi : i ≤ range.length) :
    ∃ k, strlen packet.bytes (buffer + i : Nat) = some k ∧ k < 9223372036854775808 ∧
      (k < range.length - i ∧ strlenFrom (range.drop i) = some k ∨
        range.length - i ≤ k ∧ strlenFrom (range.drop i) = none) := by
  obtain ⟨j, hj⟩ := List.mem_iff_getElem?.mp packet.nul
  obtain ⟨after, hafter, -⟩ := exists_strlenFrom hj
  have hlength := packet.length_lt
  have hbefore := packet.length_before
  have hlt := strlenFrom_lt hafter
  simp only [List.length_append] at hlength
  have hdrop : packet.bytes.drop (buffer + i) = range.drop i ++ packet.after := by
    rw [bytes, List.drop_append, List.drop_eq_nil_of_le (by omega), List.nil_append, hbefore,
      Nat.add_sub_cancel_left, List.drop_append_of_le_length hi]
  have heq : strlen packet.bytes (buffer + i : Nat) =
      (strlenFrom (range.drop i)).or (some (after + (range.length - i))) := by
    rw [strlen, if_pos (Int.natCast_nonneg _), Int.toNat_natCast, hdrop, strlenFrom_append_eq,
      hafter, List.length_drop, Option.map_some]
  cases hstring : strlenFrom (range.drop i) with
  | none =>
      rw [hstring] at heq
      exact ⟨_, heq, by omega, Or.inr ⟨by omega, rfl⟩⟩
  | some k =>
      have hk := strlenFrom_lt hstring
      rw [List.length_drop] at hk
      rw [hstring] at heq
      exact ⟨k, heq, by omega, Or.inl ⟨hk, rfl⟩⟩

theorem loadByte_eq {i : Nat} {b : UInt8} {bs : List UInt8} (hdrop : range.drop i = b :: bs) :
    loadByte packet.bytes (buffer + i : Nat) = some b := by
  have hi : i < range.length := by
    by_contra hle
    rw [List.drop_eq_nil_of_le (by omega)] at hdrop
    cases hdrop
  have hbefore := packet.length_before
  rw [List.drop_eq_getElem_cons hi] at hdrop
  rw [loadByte_natCast, bytes, List.getElem?_append_right (by omega), hbefore,
    Nat.add_sub_cancel_left, List.getElem?_append_left hi, List.getElem?_eq_getElem hi,
    (List.cons.inj hdrop).1]

end PacketIn

/-- An address that ends inside the message keeps its length as an `int`. -/
theorem wrap32_paddedSize_of_lt (hlen : range.length < 2147483648)
    (hmod : range.length % 4 = 0) (hn : n < range.length) :
    wrap32 (paddedSize n) = paddedSize n ∧ paddedSize n ≤ range.length := by
  have hpadded := paddedSize_mod n
  have hlt : paddedSize n < n + 1 + 4 := roundUp_lt (n + 1)
  have hle : paddedSize n ≤ range.length := by omega
  exact ⟨wrap32_of_range (by omega) (by omega), hle⟩

/-- A message that is accepted as it is meant to be. -/
theorem initExact_of_accepted {m : Memory} {reader : OscMsgReader}
    (hinit : oscMsgReaderInit m reader₀ buffer range.length = some (oscOk, reader))
    (hexpected : expectedReader range buffer = some reader)
    (hptr : ∀ p, reader.argPtr = some p → p ≤ buffer + range.length) :
    InitExact m reader₀ range buffer := by
  refine ⟨oscOk, reader, hinit, ?_, fun _ => ⟨hexpected, hptr⟩⟩
  rw [hexpected]
  exact ⟨fun _ => rfl, fun _ => rfl⟩

/-- A message that is refused as it is meant to be. -/
theorem initExact_of_refused {m : Memory} {ret : Int} {reader : OscMsgReader}
    (hinit : oscMsgReaderInit m reader₀ buffer range.length = some (ret, reader))
    (hret : ret ≠ oscOk) (hexpected : expectedReader range buffer = none) :
    InitExact m reader₀ range buffer := by
  refine ⟨ret, reader, hinit, ?_, fun hok => absurd hok hret⟩
  rw [hexpected]
  exact ⟨fun hok => absurd hok hret, fun hsome => by cases hsome⟩

theorem PacketIn.addressSize (packet : PacketIn range buffer) (hlen : range.length < 2147483648)
    (hmod : range.length % 4 = 0) (hn : strlenFrom range = some n) :
    AddressSize packet.bytes buffer n (paddedSize n) := by
  obtain ⟨hwrap, -⟩ := wrap32_paddedSize_of_lt hlen hmod (strlenFrom_lt hn)
  obtain ⟨k, hk, hklt, ⟨-, heq⟩ | ⟨-, heq⟩⟩ := packet.strlen_cases (Nat.zero_le _)
  · rw [List.drop_zero, hn] at heq
    obtain rfl := Option.some.inj heq
    exact ⟨hk, hklt, hwrap⟩
  · rw [List.drop_zero, hn] at heq
    cases heq

/-- A message with a tag string is accepted if that ends inside it. -/
theorem initExact_of_tags (packet : PacketIn range buffer) (hlen : range.length < 2147483648)
    (hmod : range.length % 4 = 0) (hn : strlenFrom range = some n) {bs : List UInt8}
    (htags : range.drop (paddedSize n) = ','.toUInt8 :: bs) :
    InitExact packet.bytes reader₀ range buffer := by
  have hinside : paddedSize n < range.length := by
    by_contra hge
    rw [List.drop_eq_nil_of_le (by omega)] at htags
    cases htags
  have hexpected : expectedReader range buffer =
      (strlenFrom (range.drop (paddedSize n))).map fun k =>
        ⟨buffer, buffer + range.length, some (buffer + paddedSize n + 1),
          some (buffer + paddedSize n + paddedSize k)⟩ := by
    simp only [expectedReader, hn, htags, Option.bind_eq_bind, Option.bind_some, if_true]
    cases strlenFrom (','.toUInt8 :: bs) <;> rfl
  obtain ⟨k, hk, hklt, hcases⟩ := packet.strlen_cases (Nat.le_of_lt hinside)
  have hinit := @AddressSize.init_of_tags _ reader₀ _ range.length _ _ _
    (packet.addressSize hlen hmod hn) (by omega) (packet.loadByte_eq htags) hk hklt
  have hpadded := paddedSize_mod n
  have hround : paddedSize k < k + 1 + 4 := roundUp_lt (k + 1)
  have hmod' := paddedSize_mod k
  have hkpadded := lt_paddedSize k
  rcases hcases with ⟨hin, heq⟩ | ⟨hout, heq⟩
  · rw [if_neg (by omega)] at hinit
    rw [heq] at hexpected
    refine initExact_of_accepted hinit hexpected fun p hp => ?_
    obtain rfl := Option.some.inj hp
    omega
  · rw [if_pos (by omega)] at hinit
    rw [heq] at hexpected
    exact initExact_of_refused hinit oscError_ne_oscOk hexpected

/-- Behind an address that ends inside the message, the code and the specification see
the same. -/
theorem initExact_of_lt (packet : PacketIn range buffer) (hlen : range.length < 2147483648)
    (hmod : range.length % 4 = 0) (hn : strlenFrom range = some n) :
    InitExact packet.bytes reader₀ range buffer := by
  obtain ⟨-, hle⟩ := wrap32_paddedSize_of_lt hlen hmod (strlenFrom_lt hn)
  have haddress := packet.addressSize hlen hmod hn
  cases htags : range.drop (paddedSize n) with
  | nil =>
      have heq : paddedSize n = range.length :=
        Nat.le_antisymm hle (List.drop_eq_nil_iff.mp htags)
      refine initExact_of_accepted (haddress.init_of_fills (congrArg _ heq)) ?_ fun p hp => by
        cases hp
      simp only [expectedReader, hn, htags, Option.bind_eq_bind, Option.bind_some]
  | cons b bs =>
      by_cases hcomma : b = ','.toUInt8
      · rw [hcomma] at htags
        exact initExact_of_tags packet hlen hmod hn htags
      · have hinside : paddedSize n < range.length := by
          by_contra hge
          rw [List.drop_eq_nil_of_le (by omega)] at htags
          cases htags
        have hb := packet.loadByte_eq htags
        refine initExact_of_accepted (haddress.init_of_untyped (by omega) hb hcomma) ?_
          fun p hp => ?_
        · simp only [expectedReader, hn, htags, Option.bind_eq_bind, Option.bind_some,
            if_neg hcomma]
        · obtain rfl := Option.some.inj hp
          omega

/-- An address that does not end inside the message must be refused. -/
theorem initExact_of_none {m : Memory} (hn : strlenFrom range = none) :
    InitExact m reader₀ range buffer ↔
      ∃ ret reader, oscMsgReaderInit m reader₀ buffer range.length = some (ret, reader) ∧
        ret ≠ oscOk := by
  have hexpected : expectedReader range buffer = none := by
    rw [expectedReader, hn]
    rfl
  constructor
  · rintro ⟨ret, reader, hinit, hiff, -⟩
    refine ⟨ret, reader, hinit, fun hok => ?_⟩
    have hsome := hiff.mp hok
    rw [hexpected] at hsome
    cases hsome
  · rintro ⟨ret, reader, hinit, hret⟩
    exact initExact_of_refused hinit hret hexpected

/-- Behind an address that goes past the end of the message, only its length as an `int`
can tell. -/
theorem AddressSize.fails_iff {m : Memory} {buffer len a : Int} (h : AddressSize m buffer n a)
    (hlength : m.length < 9223372036854775808) :
    (∃ ret reader, oscMsgReaderInit m reader₀ buffer len = some (ret, reader) ∧ ret ≠ oscOk) ↔
      len < a ∨ a < len ∧ loadByte m (buffer + a) = some ','.toUInt8 ∧
        ∃ k, Machine.strlen m (buffer + a) = some k ∧ len < a + paddedSize k := by
  rcases Int.lt_trichotomy len a with hpast | hfills | hinside
  · exact ⟨fun _ => Or.inl hpast, fun _ => ⟨_, _, h.init_of_past hpast, oscError_ne_oscOk⟩⟩
  · have hinit := @AddressSize.init_of_fills m reader₀ _ _ _ _ h hfills.symm
    constructor
    · rintro ⟨ret, reader, heq, hret⟩
      exact absurd (congrArg Prod.fst (Option.some.inj (heq.symm.trans hinit))) hret
    · rintro (hpast | ⟨hinside, -⟩) <;> omega
  · have hinit := @AddressSize.init_of_lt m reader₀ _ _ _ _ h hinside
    constructor
    · rintro ⟨ret, reader, heq, hret⟩
      have hcall := heq
      rw [hinit] at heq
      obtain ⟨b, hb, heq⟩ := Option.bind_eq_some_iff.mp heq
      by_cases hcomma : b = ','.toUInt8
      · rw [if_pos hcomma] at heq
        obtain ⟨k, hk, -⟩ := Option.bind_eq_some_iff.mp heq
        obtain ⟨hnonneg, hklt, -⟩ := strlen_eq_some hk
        rw [hcomma] at hb
        refine Or.inr ⟨hinside, hb, k, hk, ?_⟩
        rw [h.init_of_tags hinside hb hk (by omega)] at hcall
        by_contra hle
        rw [if_neg (by omega)] at hcall
        exact absurd (congrArg Prod.fst (Option.some.inj hcall)).symm hret
      · rw [if_neg hcomma] at heq
        exact absurd (congrArg Prod.fst (Option.some.inj heq)).symm hret
    · rintro (hpast | ⟨-, hb, k, hk, hout⟩)
      · omega
      · obtain ⟨hnonneg, hklt, -⟩ := strlen_eq_some hk
        have hcall := @AddressSize.init_of_tags m reader₀ _ _ _ _ _ h hinside hb hk (by omega)
        rw [if_pos (by omega)] at hcall
        exact ⟨_, _, hcall, oscError_ne_oscOk⟩

/-- One memory: the message is accepted as it is meant to be exactly where the length of
its address survives as an `int`. -/
theorem PacketIn.initExact_iff (packet : PacketIn range buffer)
    (hlen : range.length < 2147483648) (hmod : range.length % 4 = 0) :
    InitExact packet.bytes reader₀ range buffer ↔ IntLength packet.bytes range buffer := by
  obtain ⟨n, hn, hlt, ⟨hinside, hstring⟩ | ⟨hbeyond, hstring⟩⟩ :=
    packet.strlen_cases (Nat.zero_le _)
  · rw [List.drop_zero] at hstring
    refine ⟨fun _ n' hn' => Or.inl ?_, fun _ => initExact_of_lt packet hlen hmod hstring⟩
    obtain rfl := Option.some.inj (hn.symm.trans hn')
    omega
  · rw [List.drop_zero] at hstring
    have haddress : AddressSize packet.bytes buffer n (wrap32 (paddedSize n)) := ⟨hn, hlt, rfl⟩
    rw [initExact_of_none hstring, haddress.fails_iff packet.length_lt]
    constructor
    · intro hcases n' hn'
      obtain rfl := Option.some.inj (hn.symm.trans hn')
      exact Or.inr hcases
    · intro hint
      exact (hint n hn).resolve_left (by omega)

/-- Two memories that agree on the message: both are read as they are meant to be, with
the same result, exactly where in both of them the length of the address survives as an
`int`. -/
theorem initExact_both_iff (reader₀ : OscMsgReader) (range : List UInt8) (buffer : Nat)
    (hlen : range.length < 2147483648) (hmod : range.length % 4 = 0)
    (packet packet' : PacketIn range buffer) :
    (InitExact packet.bytes reader₀ range buffer ∧ InitExact packet'.bytes reader₀ range buffer ∧
        oscMsgReaderInit packet.bytes reader₀ buffer range.length =
          oscMsgReaderInit packet'.bytes reader₀ buffer range.length) ↔
      IntLength packet.bytes range buffer ∧ IntLength packet'.bytes range buffer := by
  constructor
  · rintro ⟨hexact, hexact', -⟩
    exact ⟨(packet.initExact_iff hlen hmod).mp hexact, (packet'.initExact_iff hlen hmod).mp hexact'⟩
  · rintro ⟨hint, hint'⟩
    have hexact : InitExact packet.bytes reader₀ range buffer :=
      (packet.initExact_iff hlen hmod).mpr hint
    have hexact' : InitExact packet'.bytes reader₀ range buffer :=
      (packet'.initExact_iff hlen hmod).mpr hint'
    refine ⟨hexact, hexact', ?_⟩
    obtain ⟨ret, reader, hinit, hiff, hcursors⟩ := hexact
    obtain ⟨ret', reader', hinit', hiff', hcursors'⟩ := hexact'
    rw [hinit, hinit']
    by_cases hok : ret = oscOk
    · have hok' := hiff'.mpr (hiff.mp hok)
      have hreader := Option.some.inj ((hcursors hok).1.symm.trans (hcursors' hok').1)
      rw [hok, hok', hreader]
    · have hok' : ret' ≠ oscOk := fun heq => hok (hiff.mpr (hiff'.mp heq))
      obtain ⟨hret, hreader⟩ := init_failed hinit hok
      obtain ⟨hret', hreader'⟩ := init_failed hinit' hok'
      rw [hret, hreader, hret', hreader']

/-- In particular where a NUL comes before `2 ^ 31 - 4` bytes. -/
theorem intLength_of_strlen {m : Memory} (hn : strlen m buffer = some n)
    (hlt : n < 2147483644) : IntLength m range buffer := by
  intro n' hn'
  obtain rfl := Option.some.inj (hn.symm.trans hn')
  have hround : paddedSize n < n + 1 + 4 := roundUp_lt (n + 1)
  have hmod := paddedSize_mod n
  have hpadded := lt_paddedSize n
  rw [wrap32_of_range (by omega) (by omega)]
  omega

/-- A message of four bytes without a NUL. -/
def openAddress : List UInt8 := [47, 97, 97, 97]

/-- A NUL right behind it. -/
def nulBehind : PacketIn openAddress 0 where
  before := []
  after := [0]
  length_before := rfl
  nul := List.mem_singleton.mpr rfl
  length_lt := by decide

/-- Another message behind it, and then a NUL. -/
def messageBehind : PacketIn openAddress 0 where
  before := []
  after := [47, 98, 0, 0]
  length_before := rfl
  nul := by decide
  length_lt := by decide

theorem initExact_openAddress :
    InitExact nulBehind.bytes ⟨0, 0, none, none⟩ openAddress 0 ∧
      InitExact messageBehind.bytes ⟨0, 0, none, none⟩ openAddress 0 ∧
      oscMsgReaderInit nulBehind.bytes ⟨0, 0, none, none⟩ (0 : Nat) openAddress.length =
        oscMsgReaderInit messageBehind.bytes ⟨0, 0, none, none⟩ (0 : Nat) openAddress.length :=
  (initExact_both_iff ⟨0, 0, none, none⟩ openAddress 0 (by decide) (by decide) nulBehind
    messageBehind).mpr
    ⟨intLength_of_strlen (n := 4) rfl (by decide), intLength_of_strlen (n := 6) rfl (by decide)⟩

/-- A NUL `k` bytes behind it. -/
def distantNul (k : Nat) (hk : k < 4294967296) : PacketIn openAddress 0 where
  before := []
  after := List.replicate k 97 ++ [0]
  length_before := rfl
  nul := List.mem_append_right _ (List.mem_singleton.mpr rfl)
  length_lt := by
    simp [openAddress]
    omega

theorem strlen_distantNul {k : Nat} (hk : k < 4294967296) :
    strlen (distantNul k hk).bytes (0 : Nat) = some (k + 4) := by
  have hfree : 0 ∉ openAddress ++ List.replicate k (97 : UInt8) := by
    rw [List.mem_append, List.mem_replicate]
    rintro (hmem | ⟨-, hzero⟩)
    · exact absurd hmem (by decide)
    · exact absurd hzero (by decide)
  have hat : At (distantNul k hk).bytes (0 : Nat)
      (openAddress ++ List.replicate k (97 : UInt8) ++ 0 :: []) := by
    refine ⟨[], [], ?_, rfl⟩
    simp [PacketIn.bytes, distantNul]
  rw [hat.strlen hfree, List.length_append, List.length_replicate, Nat.add_comm]
  rfl

/-- With the NUL `2 ^ 32 - 1` bytes behind it, the message is accepted. -/
theorem distantNul_not_initExact :
    ¬ (InitExact nulBehind.bytes ⟨0, 0, none, none⟩ openAddress 0 ∧
      InitExact (distantNul 4294967295 (by decide)).bytes ⟨0, 0, none, none⟩ openAddress 0 ∧
      oscMsgReaderInit nulBehind.bytes ⟨0, 0, none, none⟩ (0 : Nat) openAddress.length =
        oscMsgReaderInit (distantNul 4294967295 (by decide)).bytes ⟨0, 0, none, none⟩ (0 : Nat)
          openAddress.length) := by
  rintro ⟨-, ⟨ret, reader, hinit, hiff, -⟩, -⟩
  have haddress : AddressSize (distantNul 4294967295 (by decide)).bytes (0 : Nat) 4294967299 4 :=
    ⟨strlen_distantNul (by decide), by decide, by decide⟩
  have hcall := @AddressSize.init_of_fills _ ⟨0, 0, none, none⟩ _ openAddress.length _ _ haddress
    rfl
  rw [hcall] at hinit
  obtain ⟨hret, -⟩ := Prod.mk.inj (Option.some.inj hinit)
  exact absurd (hiff.mp hret.symm) (by decide)

end LittleOscar
