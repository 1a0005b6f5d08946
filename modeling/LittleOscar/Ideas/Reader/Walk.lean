import LittleOscar.Ideas.Reader.Definitions
import LittleOscar.Osc.Reader.Getter

/-!
# The walk over the lengths of a bundle

The loop of `osc_reader_init` moves its pointer by what the packet says, forwards, backwards
or not at all, and turns around the bytes that it may read again. `Reaches` follows the
lengths through the packet as it came from the network, as long as they are positive: what
the loop reads then is what is there, but for the bytes of a length of less than four that
it has just turned around. Positive lengths lead to the end; a length of zero never does,
and neither does one that leads in front of the packet.
-/

namespace LittleOscar.Ideas

open Machine

variable {P : Platform} {m : Memory} {p : Int}

/-- The result does not depend on the fuel. -/
theorem initWalk_mono {bufferEnd : Int} {fuel : Nat} {m : Memory} {p : Int}
    {r : Memory × Int} (h : initWalk P bufferEnd fuel m p = some r) (extra : Nat) :
    initWalk P bufferEnd (fuel + extra) m p = some r := by
  induction fuel generalizing m p with
  | zero => cases h
  | succ fuel ih =>
      rw [Nat.succ_add, initWalk]
      rw [initWalk] at h
      split at h
      · next hlt =>
          rw [if_pos hlt]
          simp only [Option.bind_eq_bind, Option.bind_eq_some_iff] at h ⊢
          obtain ⟨raw, hraw, m', hm', hrest⟩ := h
          exact ⟨raw, hraw, m', hm', ih hrest⟩
      · next hlt =>
          rw [if_neg hlt]
          exact h

/-- The loop ends behind the packet, and before it rewrites the word in front of its
pointer. -/
theorem initWalk_succ_eq_some {bufferEnd : Int} {fuel : Nat} {m : Memory} {p : Int}
    {r : Memory × Int} (h : initWalk P bufferEnd (fuel + 1) m p = some r) :
    (bufferEnd ≤ p ∧ r = (m, p)) ∨
      (p < bufferEnd ∧ 4 ≤ p ∧ ∃ word hop, word.length = 4 ∧
        initWalk P bufferEnd fuel (overwrite m (p - 4).toNat word) (p + hop) = some r ∧
        (p - 4).toNat + 4 ≤ m.length) := by
  rw [initWalk] at h
  split at h
  · next hlt =>
      simp only [Option.bind_eq_bind, Option.bind_eq_some_iff] at h
      obtain ⟨raw, hraw, m₁, hm₁, hrest⟩ := h
      obtain ⟨bytes, hbytes, -⟩ := Option.map_eq_some_iff.mp hraw
      have hnonneg := nonneg_of_loadNative (by decide) hraw
      have hle := le_length_of_loadBytes (by decide) hbytes
      rw [storeBytes_eq, if_pos (Or.inr ⟨hnonneg, by rw [length_native]; omega⟩)] at hm₁
      cases hm₁
      exact Or.inr ⟨hlt, by omega, _, _, length_native _ 4 _, hrest, by omega⟩
  · next hge =>
      cases h
      exact Or.inl ⟨not_lt.mp hge, rfl⟩

/-- From the end on, the loop makes no round. -/
theorem initWalk_of_le {bufferEnd : Int} {fuel : Nat} {m m' : Memory} {p p' : Int}
    (h : initWalk P bufferEnd fuel m p = some (m', p')) (hle : bufferEnd ≤ p) :
    m' = m ∧ p' = p := by
  cases fuel with
  | zero => cases h
  | succ fuel =>
      rcases initWalk_succ_eq_some h with ⟨-, hr⟩ | ⟨hlt, -⟩
      · exact Prod.mk.inj hr
      · omega

theorem four_le_of_initWalk {bufferEnd : Int} {fuel : Nat} {m : Memory} {p : Int}
    {r : Memory × Int} (h : initWalk P bufferEnd fuel m p = some r) (hlt : p < bufferEnd) :
    4 ≤ p := by
  cases fuel with
  | zero => cases h
  | succ fuel =>
      rcases initWalk_succ_eq_some h with ⟨hge, -⟩ | ⟨-, hfour, -⟩
      · omega
      · exact hfour

/-- It keeps the length of the packet, and rewrites nothing from the end on. -/
theorem initWalk_frame {bufferEnd : Int} {fuel : Nat} {m m' : Memory} {p p' : Int}
    (h : initWalk P bufferEnd fuel m p = some (m', p')) :
    m'.length = m.length ∧ ∀ j : Nat, bufferEnd ≤ j → m'[j]? = m[j]? := by
  induction fuel generalizing m p with
  | zero => cases h
  | succ fuel ih =>
      rcases initWalk_succ_eq_some h with ⟨-, hr⟩ | ⟨hlt, hfour, word, hop, hword, hrest, hle⟩
      · cases hr
        exact ⟨rfl, fun _ _ => rfl⟩
      · obtain ⟨hlength, hbytes⟩ := ih hrest
        refine ⟨hlength.trans (length_overwrite (by omega)), ?_⟩
        intro j hj
        rw [hbytes j hj, getElem?_overwrite_of_le (by omega) (by omega)]

/-- A walk over a word converts it and goes on by what it says in network order. -/
theorem initWalk_word {bufferEnd p : Int} {fuel : Nat} {m : Memory} {word : List UInt8}
    (hat : At m (p - 4) word) (hfour : word.length = 4) (hp : p < bufferEnd) :
    initWalk P bufferEnd (fuel + 1) m p =
      initWalk P bufferEnd fuel
        (overwrite m (p - 4).toNat (native P.order 4 (ofBigEndian word)))
        (p + int32Field word) := by
  have hword := ofBigEndian_lt word
  have hload := loadNative_at (P := P) hat
  have hnonneg := hat.nonneg
  have hle := hat.le_length
  rw [hfour] at hword hload hle
  have hnat := toNat_ofNat_four hword
  have htake : word.take 4 = word := List.take_of_length_le (by omega)
  rw [initWalk, if_pos hp, hload]
  simp only [Option.bind_eq_bind, Option.bind_some, oscNtoh32_ofNative P hfour, toInt_toInt32,
    UInt32.toUInt32_toInt32, hnat, int32Field, htake]
  rw [storeBytes_eq, if_pos (Or.inr ⟨hnonneg, by rw [length_native]; omega⟩)]
  rfl

theorem int32Field_bigEndian {len : Nat} (hlt : len < 2147483648) :
    int32Field (bigEndian 4 len) = len := by
  rw [int32Field, List.take_of_length_le (by simp), ofBigEndian_bigEndian (by omega),
    wrap32_of_range (by omega) (by omega)]

/-- A walk over a length field converts it and goes on behind the message. -/
theorem initWalk_length {bufferEnd p : Int} {len fuel : Nat} {m : Memory}
    (hat : At m (p - 4) (bigEndian 4 len)) (hlt : len < 2147483648) (hp : p < bufferEnd) :
    initWalk P bufferEnd (fuel + 1) m p =
      initWalk P bufferEnd fuel (overwrite m (p - 4).toNat (native P.order 4 len))
        (p + len) := by
  rw [initWalk_word hat (length_bigEndian 4 len) hp, int32Field_bigEndian hlt,
    ofBigEndian_bigEndian (by omega)]

/-- A word that is not negative as an `int32_t`. -/
theorem ofBigEndian_of_int32Field {word : List UInt8} {n : Nat} (hfour : word.length = 4)
    (h : int32Field word = n) : ofBigEndian word = n := by
  have hlt := ofBigEndian_lt word
  rw [hfour] at hlt
  rw [int32Field, List.take_of_length_le (by omega)] at h
  unfold wrap32 at h
  omega

theorem eq_zero_of_int32Field {word : List UInt8} (hfour : word.length = 4)
    (h : int32Field word = 0) : word = bigEndian 4 0 := by
  have hback := bigEndian_ofBigEndian word
  rw [hfour, ofBigEndian_of_int32Field (n := 0) hfour h] at hback
  exact hback.symm

/-- A zero in front of the pointer keeps the loop where it is. -/
theorem initWalk_stuck {bufferEnd p : Int} (fuel : Nat) (hp : p < bufferEnd)
    (hat : At m (p - 4) (bigEndian 4 0)) : initWalk P bufferEnd fuel m p = none := by
  induction fuel generalizing m with
  | zero => rfl
  | succ fuel ih =>
      have hzero : native P.order 4 0 = bigEndian 4 0 := by
        cases horder : P.order <;> rfl
      have hle := hat.le_length
      rw [length_bigEndian] at hle
      rw [initWalk_length hat (by decide) hp, hzero, Int.natCast_zero, Int.add_zero]
      exact ih (At.overwrite hat.nonneg (by rw [length_bigEndian]; omega))

/-- The reader of a bundle of `len` bytes before the first call. -/
def bundleReader (len : Nat) : OscReader where
  buffer := 0
  bufferEnd := len
  isBundle := 1
  msgPtr := none
  msgEnd := none
  typePtr := none
  argPtr := none

/-- The reader before `osc_reader_init`. -/
def zeroReader : OscReader := bundleReader 0

/-- The reader before the first call, on a packet that is no bundle. -/
def singleReader (len : Nat) : OscReader := { bundleReader len with isBundle := 0 }

/-- What a successful `osc_reader_init` has done. -/
theorem init_cases {fuel len : Nat} {reader₀ reader : OscReader} {packet : Memory}
    (h : oscReaderInit P fuel reader₀ 0 len packet = some (oscOk, reader, m)) :
    (strcmpEq packet bundleName 0 = some false ∧ reader = singleReader len ∧ m = packet) ∨
      (strcmpEq packet bundleName 0 = some true ∧ reader = bundleReader len ∧
        initWalk P len fuel packet 20 = some (m, (len : Int))) := by
  simp only [oscReaderInit, Option.bind_eq_bind, Option.bind_eq_some_iff, Int.zero_add] at h
  obtain ⟨name, hname, h⟩ := h
  cases name with
  | false =>
      cases h
      exact Or.inl ⟨hname, rfl, rfl⟩
  | true =>
      simp only [if_true, Option.bind_eq_some_iff] at h
      obtain ⟨⟨m', p⟩, hwalk, h⟩ := h
      split at h
      · cases h
      · next hend =>
          cases h
          rw [not_not] at hend
          exact Or.inr ⟨hname, rfl, hend ▸ hwalk⟩

theorem walk_of_init {fuel len : Nat} {reader₀ reader : OscReader} {packet : Memory}
    (h : oscReaderInit P fuel reader₀ 0 len packet = some (oscOk, reader, m))
    (hbundle : oscReaderIsBundle reader = 1) :
    reader = bundleReader len ∧ initWalk P len fuel packet 20 = some (m, (len : Int)) := by
  rcases init_cases h with ⟨-, rfl, -⟩ | ⟨-, hreader, hwalk⟩
  · exact absurd hbundle Int.zero_ne_one
  · exact ⟨hreader, hwalk⟩

/-- `strcmp` comes to an end at a NUL. -/
theorem exists_strcmpEq {k : Int} {name : List UInt8} (hname : 0 ∉ name) (hp : 0 ≤ p)
    (hk : p ≤ k) (hnul : loadByte m k = some 0) : ∃ b, strcmpEq m name p = some b := by
  induction name generalizing p with
  | nil =>
      have hlt := (loadByte_eq_some hnul).2
      obtain ⟨b, hb⟩ := exists_loadByte (m := m) hp (by omega)
      exact ⟨_, by rw [strcmpEq, hb, Option.map_some]⟩
  | cons c name ih =>
      rw [List.mem_cons, not_or] at hname
      have hlt := (loadByte_eq_some hnul).2
      obtain ⟨b, hb⟩ := exists_loadByte (m := m) hp (by omega)
      simp only [strcmpEq, hb, Option.bind_eq_bind, Option.bind_some]
      by_cases hbc : b = c
      · rw [if_pos hbc]
        have hne : p ≠ k := by
          rintro rfl
          exact hname.1 ((Option.some.inj (hnul.symm.trans hb)).trans hbc)
        exact ih hname.2 (by omega) (by omega)
      · exact ⟨false, by rw [if_neg hbc]⟩

/-! ## The lengths of a packet -/

/-- `osc_reader_init` takes the packet for a bundle. -/
def IsBundle (packet : Memory) : Prop := strcmpEq (packet ++ [0]) bundleName 0 = some true

instance (packet : Memory) : Decidable (IsBundle packet) := inferInstanceAs (Decidable (_ = _))

/-- The length in front of `p`, where a length of `last` led to `p`. The loop has turned
`last` around, and four bytes in front of `p` begin with bytes of it if it is less than
four. -/
def lengthAt (P : Platform) (packet : Memory) (last p : Nat) : Int :=
  int32Field ((native P.order 4 last).drop last ++ packet.drop (p - min last 4))

theorem drop_native_four (P : Platform) (n : Nat) : (native P.order 4 n).drop 4 = [] :=
  List.drop_eq_nil_of_le (by rw [length_native])

/-- Positive lengths lead from the first one, in front of byte 20, to the one in front of
`p`, and the last of them is `last`. -/
inductive Reaches (P : Platform) (packet : Memory) : Nat → Nat → Prop
  | first : Reaches P packet 4 20
  | hop {last p n : Nat} (h : Reaches P packet last p) (hlt : p < packet.length)
      (hn : lengthAt P packet last p = n) (hpos : 0 < n) : Reaches P packet n (p + n)

/-- Every length that the ones before lead to is positive. -/
def LengthsPositive (P : Platform) (packet : Memory) : Prop :=
  ∀ last p, Reaches P packet last p → p < packet.length → 0 < lengthAt P packet last p

/-- No length that the ones before lead to is zero, or leads to a place with less than four
bytes of the packet in front of it. -/
def LengthsLead (P : Platform) (packet : Memory) : Prop :=
  ∀ last p, Reaches P packet last p → p < packet.length →
    lengthAt P packet last p ≠ 0 ∧ 4 ≤ p + lengthAt P packet last p

variable {packet : Memory} {last n k : Nat}

theorem Reaches.le (h : Reaches P packet last k) : 20 ≤ k := by
  induction h with
  | first => exact Nat.le_refl 20
  | hop _ _ _ _ ih => omega

/-- The packet while the loop is at `k` and has met positive lengths only. -/
structure Tracks (P : Platform) (packet : Memory) (last k : Nat) (m : Memory) : Prop where
  length : m.length = packet.length + 1
  drop : m.drop (k - 4) =
    (native P.order 4 last).drop last ++ (packet ++ [0]).drop (k - min last 4)

namespace Tracks

theorem first (P : Platform) (packet : Memory) : Tracks P packet 4 20 (packet ++ [0]) :=
  ⟨by simp, by rw [drop_native_four]; rfl⟩

/-- The word that the loop takes for a length. -/
theorem exists_word (h : Tracks P packet last k m) (hfour : 4 ≤ k) (hlt : k < packet.length) :
    ∃ word, word.length = 4 ∧ At m ((k : Int) - 4) word ∧
      int32Field word = lengthAt P packet last k := by
  have hlength := h.length
  have hat := at_take (m := m) (p := (k : Int) - 4) (k := 4) (by omega) (by omega)
  have hword := length_take_drop (m := m) (p := (k : Int) - 4) (k := 4) (by omega) (by omega)
  refine ⟨_, hword, hat, ?_⟩
  have hbytes : ((native P.order 4 last).drop last ++ (packet ++ [0]).drop (k - min last 4)).take
      4 = ((native P.order 4 last).drop last ++ packet.drop (k - min last 4)).take 4 := by
    rw [List.drop_append_of_le_length (by omega), ← List.append_assoc,
      List.take_append_of_le_length]
    rw [List.length_append, List.length_drop, List.length_drop, length_native]
    omega
  rw [lengthAt, int32Field, int32Field, List.take_take, Nat.min_self,
    show ((k : Int) - 4).toNat = k - 4 by omega, h.drop, hbytes]

/-- The packet after the length `n`. -/
theorem next (h : Tracks P packet last k m) (hfour : 4 ≤ k) (hlt : k < packet.length) :
    Tracks P packet n (k + n) (overwrite m (k - 4) (native P.order 4 n)) := by
  have hlength := h.length
  have hnative := length_native P.order 4 n
  have hturned : ((native P.order 4 last).drop last).length = 4 - last := by
    rw [List.length_drop, length_native]
  have hbehind : m.drop k = (packet ++ [0]).drop k := by
    calc m.drop k = (m.drop (k - 4)).drop 4 := by rw [List.drop_drop, Nat.sub_add_cancel hfour]
      _ = ((packet ++ [0]).drop (k - min last 4)).drop (4 - (4 - last)) := by
          have hnil : ((native P.order 4 last).drop last).drop 4 = [] :=
            List.drop_eq_nil_of_le (by omega)
          rw [h.drop, List.drop_append, hnil, List.nil_append, hturned]
      _ = _ := by
          rw [List.drop_drop]
          congr 1
          omega
  refine ⟨(length_overwrite (by omega)).trans hlength, ?_⟩
  rw [overwrite, hnative, Nat.sub_add_cancel hfour, hbehind, List.append_assoc, List.drop_append,
    List.drop_eq_nil_of_le (by rw [List.length_take]; omega), List.nil_append, List.length_take,
    List.drop_append, hnative, List.drop_drop]
  congr 2
  · omega
  · omega

/-- A round of the loop at a length that is not negative. -/
theorem initWalk_succ (h : Tracks P packet last k m) (hfour : 4 ≤ k) (hlt : k < packet.length)
    (hn : lengthAt P packet last k = n) (fuel : Nat) :
    initWalk P packet.length (fuel + 1) m k =
      initWalk P packet.length fuel (overwrite m (k - 4) (native P.order 4 n))
        ((k + n : Nat) : Int) := by
  obtain ⟨word, hword, hat, hfield⟩ := h.exists_word hfour hlt
  rw [initWalk_word hat hword (by omega), hfield, hn,
    ofBigEndian_of_int32Field hword (hfield.trans hn), Int.natCast_add,
    show ((k : Int) - 4).toNat = k - 4 by omega]

end Tracks

/-- The loop comes to every place that positive lengths lead to. -/
theorem Reaches.tracks (h : Reaches P packet last k) :
    ∃ m rounds, Tracks P packet last k m ∧ ∀ fuel,
      initWalk P packet.length (fuel + rounds) (packet ++ [0]) 20 =
        initWalk P packet.length fuel m k := by
  induction h with
  | first => exact ⟨_, 0, Tracks.first P packet, fun _ => rfl⟩
  | @hop last k n hreach hlt hn hpos ih =>
      obtain ⟨m, rounds, htracks, hwalk⟩ := ih
      have hfour : 4 ≤ k := by
        have hle := hreach.le
        omega
      refine ⟨_, rounds + 1, htracks.next hfour hlt, fun fuel => ?_⟩
      rw [← htracks.initWalk_succ hfour hlt hn, ← hwalk, Nat.add_right_comm, Nat.add_assoc]

/-- Positive lengths lead the loop to the end. -/
theorem LengthsPositive.exists_initWalk (h : LengthsPositive P packet) (d : Nat)
    (hreach : Reaches P packet last k) (htracks : Tracks P packet last k m)
    (hd : packet.length ≤ k + d) : ∃ fuel r, initWalk P packet.length fuel m k = some r := by
  induction d generalizing last k m with
  | zero => exact ⟨1, _, by rw [initWalk, if_neg (by omega)]⟩
  | succ d ih =>
      by_cases hlt : k < packet.length
      · have hfour : 4 ≤ k := by
          have hle := hreach.le
          omega
        have hpos := h last k hreach hlt
        obtain ⟨n, hn⟩ := Int.eq_ofNat_of_zero_le hpos.le
        obtain ⟨fuel, r, hr⟩ := ih (hreach.hop hlt hn (by omega))
          (htracks.next (n := n) hfour hlt) (by omega)
        exact ⟨fuel + 1, r, (htracks.initWalk_succ hfour hlt hn fuel).trans hr⟩
      · exact ⟨1, _, by rw [initWalk, if_neg (by omega)]⟩

/-- Where the loop comes to an end, every length that positive ones lead to moves its
pointer, and not in front of the packet. -/
theorem lengthsLead_of_initWalk {fuel : Nat} {r : Memory × Int}
    (h : initWalk P packet.length fuel (packet ++ [0]) 20 = some r) : LengthsLead P packet := by
  intro last k hreach hlt
  have hle := hreach.le
  obtain ⟨m, rounds, htracks, hwalk⟩ := hreach.tracks
  obtain ⟨word, hword, hat, hfield⟩ := htracks.exists_word (by omega) hlt
  have hends : initWalk P packet.length fuel m k = some r := by
    rw [← hwalk]
    exact initWalk_mono h rounds
  constructor
  · intro hzero
    rw [eq_zero_of_int32Field hword (hfield.trans hzero)] at hat
    rw [initWalk_stuck fuel (by omega) hat] at hends
    cases hends
  · by_contra hfront
    cases fuel with
    | zero => cases hends
    | succ fuel =>
        rw [initWalk_word hat hword (by omega), hfield] at hends
        have hfour := four_le_of_initWalk hends (by omega)
        omega

/-! ## The end of `osc_reader_init` -/

/-- `osc_reader_init` on the packet and its NUL ends, and it reads and writes nothing else. -/
def InitEnds (P : Platform) (packet : Memory) : Prop :=
  ∀ reader, ∃ fuel r, oscReaderInit P fuel reader 0 packet.length (packet ++ [0]) = some r

theorem initEnds_iff_initWalk : InitEnds P packet ↔
    (IsBundle packet →
      ∃ fuel r, initWalk P packet.length fuel (packet ++ [0]) 20 = some r) := by
  have hnul : loadByte (packet ++ [0]) packet.length = some 0 := by
    rw [loadByte_natCast, List.getElem?_concat_length]
  obtain ⟨b, hb⟩ : ∃ b, strcmpEq (packet ++ [0]) bundleName 0 = some b :=
    exists_strcmpEq (by decide) le_rfl (by omega) hnul
  cases b with
  | false =>
      refine iff_of_true ?_ fun habs => by cases hb.symm.trans habs
      intro reader
      exact ⟨0, _, by simp [oscReaderInit, hb]; rfl⟩
  | true =>
      have hinit (fuel : Nat) (reader : OscReader) :
          (∃ r, oscReaderInit P fuel reader 0 packet.length (packet ++ [0]) = some r) ↔
            ∃ t, initWalk P packet.length fuel (packet ++ [0]) 20 = some t := by
        simp only [oscReaderInit, hb, Option.bind_eq_bind, Option.bind_some, if_true, Int.zero_add]
        cases initWalk P packet.length fuel (packet ++ [0]) 20 with
        | none => simp
        | some t =>
            simp only [Option.bind_some, Option.some.injEq, exists_eq', iff_true]
            split
            · exact ⟨_, rfl⟩
            · exact ⟨_, rfl⟩
      constructor
      · intro hends _
        obtain ⟨fuel, hr⟩ := hends zeroReader
        exact ⟨fuel, (hinit fuel zeroReader).mp hr⟩
      · intro hwalk reader
        obtain ⟨fuel, hr⟩ := hwalk hb
        exact ⟨fuel, (hinit fuel reader).mpr hr⟩

/-- `osc_reader_init` ends on every bundle in which the lengths are positive, and on none
with a length that is zero or that leads in front of the packet. -/
theorem initEnds_of_lengths (P : Platform) (packet : Memory) :
    ((IsBundle packet → LengthsPositive P packet) → InitEnds P packet) ∧
      (InitEnds P packet → IsBundle packet → LengthsLead P packet) := by
  constructor
  · intro hpos
    refine initEnds_iff_initWalk.mpr fun hbundle => ?_
    exact (hpos hbundle).exists_initWalk packet.length .first (Tracks.first P packet) (by omega)
  · intro hends hbundle
    obtain ⟨fuel, r, hr⟩ := initEnds_iff_initWalk.mp hends hbundle
    exact lengthsLead_of_initWalk hr

/-- The first length is the only one if it leads to the end. -/
theorem lengthsPositive_of_le (hlt : 20 < packet.length)
    (hle : (packet.length : Int) ≤ 20 + lengthAt P packet 4 20) : LengthsPositive P packet := by
  have honly : ∀ last k, Reaches P packet last k →
      (last = 4 ∧ k = 20) ∨ packet.length ≤ k := by
    intro last k h
    induction h with
    | first => exact Or.inl ⟨rfl, rfl⟩
    | hop _ hbefore hn _ ih =>
        rcases ih with ⟨rfl, rfl⟩ | habs
        · exact Or.inr (by omega)
        · exact absurd hbefore (not_lt.mpr habs)
  intro last k h hbefore
  rcases honly last k h with ⟨rfl, rfl⟩ | habs
  · omega
  · exact absurd hbefore (not_lt.mpr habs)

/-- A bundle of the message `/a` alone. -/
def slashBundle : Memory :=
  bundleName ++ 0 :: List.replicate 8 0 ++ [0, 0, 0, 4, '/'.toUInt8, 'a'.toUInt8, 0, 0]

theorem initEnds_of_lengths_slashBundle : InitEnds littleHost slashBundle :=
  (initEnds_of_lengths littleHost slashBundle).1 fun _ =>
    lengthsPositive_of_le (by decide) (by decide)

/-- A negative length need not keep the loop from its end: one of -4 leads back into the
time tag, and 8 from there to the end. -/
example : ∃ r, oscReaderInit littleHost 3 zeroReader 0 24
    (bundleName ++ [0] ++ bigEndian 8 8 ++ [255, 255, 255, 252] ++ List.replicate 5 0) =
      some r := ⟨_, rfl⟩

/-- A bundle whose first length is zero. -/
def standingBundle : Memory := bundleName ++ 0 :: List.replicate 16 0

/-- The loop stays at the first message for ever. -/
theorem standingBundle_not_initEnds : ¬ InitEnds littleHost standingBundle := by
  intro hends
  obtain ⟨fuel, r, hr⟩ := initEnds_iff_initWalk.mp hends (by decide)
  exact absurd (lengthsLead_of_initWalk hr 4 20 .first (by decide)).1 (by decide)

end LittleOscar.Ideas
