import LittleOscar.Osc.Reader.Cursor
import LittleOscar.Transition.Run

/-!
# The end of the arguments

A caller of `osc_msg_reader_get_arg` goes through the tags until it returns
`OSC_END`. `EndExact` is what one call owes such a loop: its result is one of three
codes, it is `OSC_END` exactly when all tags have been consumed, and otherwise the
call has consumed one tag.

A tag and a status code go through the same `char`. Where `char` is signed, a tag from
128 on is taken for a status, and only 255 is taken for one that a failed call may
return; where it is unsigned, `OSC_END` itself arrives as the tag 254.
-/

namespace LittleOscar

open Machine Transition

variable (P : Platform) (m : Memory) (base : Int)

/-- A reader, and how many tags the calls before have consumed. -/
structure TagRun where
  reader : OscMsgReader
  consumed : Nat

/-- One call of `osc_msg_reader_get_arg` into the variable `arg`. A tag is consumed when
the tag pointer moves. -/
def getArgTagStep (s : TagRun) (arg : OscArg) : Option TagRun :=
  (oscMsgReaderGetArg P m base s.reader arg).map fun (_, _, reader') =>
    ⟨reader', if reader'.typePtr = s.reader.typePtr then s.consumed else s.consumed + 1⟩

/-- The next call returns one of three codes, `OSC_END` exactly when `count` tags were
consumed, and consumes a tag otherwise. -/
def EndExact (count : Nat) (s : TagRun) (arg : OscArg) : Prop :=
  ∀ ret arg' reader', oscMsgReaderGetArg P m base s.reader arg = some (ret, arg', reader') →
    (ret = oscOk ∨ ret = oscError ∨ ret = oscEnd) ∧ (ret = oscEnd ↔ s.consumed = count) ∧
      (ret ≠ oscEnd → reader'.typePtr = s.reader.typePtr.map (· + 1))

/-- The byte is told from the status codes: where `char` is signed it is not negative or
it is `OSC_ERROR`, and where it is unsigned it is not the NUL behind the tags. -/
def TagTold (b : UInt8) : Prop :=
  if P.charSigned then b.toNat < 128 ∨ b = charByte oscError else b ≠ 0

instance (b : UInt8) : Decidable (TagTold P b) := by
  unfold TagTold
  infer_instance

/-- The next byte at the tag pointer is told from the status codes. -/
def NextTagTold (reader : OscMsgReader) : Prop :=
  ∀ q b, reader.typePtr = some q → loadByte m q = some b → TagTold P b

variable {P m} {q₀ : Int} {tags rest : List UInt8} {s : TagRun}

theorem tagTold_iff_of_neg {b : UInt8} (hneg : charValue P b < 0) :
    TagTold P b ↔ charValue P b = oscError := by
  have hlt := b.toNat_lt
  unfold charValue at hneg ⊢
  split at hneg
  · next hhigh =>
      have herror : (b.toNat : Int) - 256 = oscError ↔ b = charByte oscError := by
        rw [← UInt8.toNat_inj, show (charByte oscError).toNat = 255 from rfl]
        unfold oscError
        omega
      rw [TagTold, if_pos hhigh, if_pos hhigh.1, herror]
      exact ⟨fun hor => hor.resolve_left (by omega), Or.inr⟩
  · omega

theorem tagTold_of_nonneg {b : UInt8} (hne : b ≠ 0) (hnonneg : ¬ charValue P b < 0) :
    TagTold P b := by
  have hlt := b.toNat_lt
  unfold TagTold
  split
  · next hP =>
      refine Or.inl ?_
      by_contra hhigh
      rw [charValue, if_pos ⟨hP, by omega⟩] at hnonneg
      omega
  · exact hne

theorem tagTold_zero : TagTold P 0 ↔ P.charSigned := by
  unfold TagTold
  split
  · next hP => exact iff_of_true (Or.inl (by decide)) hP
  · next hP => exact iff_of_false (not_not_intro rfl) hP

/-- The reader behind the tags that were consumed. -/
structure AtTag (m : Memory) (q₀ : Int) (tags rest : List UInt8) (s : TagRun) : Prop where
  noNul : 0 ∉ tags
  tags_at : At m q₀ (tags ++ 0 :: rest)
  typePtr : s.reader.typePtr = some (q₀ + s.consumed)
  le : s.consumed ≤ tags.length

namespace AtTag

theorem loadByte_tag (h : AtTag m q₀ tags rest s) (hlt : s.consumed < tags.length) :
    loadByte m (q₀ + s.consumed) = some tags[s.consumed] := by
  have htake : (tags.take s.consumed).length = s.consumed := by
    rw [List.length_take]
    omega
  have hat := h.tags_at
  rw [← List.take_append_drop s.consumed tags, List.drop_eq_getElem_cons hlt,
    List.append_assoc] at hat
  have hright := hat.right
  rw [htake] at hright
  exact hright.loadByte

/-- The next byte is a tag, or all tags are consumed and it is the NUL behind them. -/
theorem next (h : AtTag m q₀ tags rest s) :
    ∃ b, loadByte m (q₀ + s.consumed) = some b ∧ (b = 0 ↔ s.consumed = tags.length) := by
  rcases Nat.lt_or_eq_of_le h.le with hlt | heq
  · refine ⟨tags[s.consumed], h.loadByte_tag hlt, ?_⟩
    constructor
    · intro hzero
      exact absurd (hzero ▸ List.getElem_mem hlt) h.noNul
    · intro heq
      omega
  · have hright := h.tags_at.right
    rw [← heq] at hright
    exact ⟨0, hright.loadByte, ⟨fun _ => heq, fun _ => rfl⟩⟩

/-- A call that goes on to the `switch` is exact. -/
theorem endExact_of_nonneg (h : AtTag m q₀ tags rest s) {b : UInt8}
    (hb : loadByte m (q₀ + s.consumed) = some b) (hne : b ≠ 0)
    (hcount : s.consumed ≠ tags.length) (hnonneg : ¬ charValue P b < 0) (arg : OscArg) :
    EndExact P m base tags.length s arg := by
  intro ret arg' reader' hget
  rw [getArg_of_nonneg h.typePtr hb hne hnonneg] at hget
  have hframe := getArgSwitch_frame hget
  have hnot : ret ≠ oscEnd := by
    rcases hframe.ret with hret | hret <;> rw [hret] <;> decide
  refine ⟨?_, ⟨fun hend => absurd hend hnot, fun hend => absurd hend hcount⟩, fun _ => ?_⟩
  · rcases hframe.ret with hret | hret
    · exact Or.inl hret
    · exact Or.inr (Or.inl hret)
  · rw [hframe.typePtr, h.typePtr]
    rfl

/-- A tag that is negative as a `char` is reported rightly only if it is `OSC_ERROR`. -/
theorem endExact_of_neg (h : AtTag m q₀ tags rest s) {b : UInt8}
    (hb : loadByte m (q₀ + s.consumed) = some b) (hne : b ≠ 0)
    (hcount : s.consumed ≠ tags.length) (hneg : charValue P b < 0) (arg : OscArg) :
    EndExact P m base tags.length s arg ↔ charValue P b = oscError := by
  constructor
  · intro hexact
    obtain ⟨hret, hend, -⟩ := hexact _ _ _ (getArg_of_neg h.typePtr hb hne hneg arg)
    rcases hret with hok | herror | hlast
    · rw [hok] at hneg
      exact absurd hneg (by decide)
    · exact herror
    · exact absurd (hend.mp hlast) hcount
  · intro herror ret arg' reader' hget
    rw [getArg_of_neg h.typePtr hb hne hneg] at hget
    obtain ⟨hret, hrest⟩ := Prod.mk.inj (Option.some.inj hget)
    obtain ⟨-, hreader⟩ := Prod.mk.inj hrest
    have hnot : ret ≠ oscEnd := by
      rw [← hret, herror]
      decide
    refine ⟨Or.inr (Or.inl (hret.symm.trans herror)),
      ⟨fun hlast => absurd hlast hnot, fun hlast => absurd hlast hcount⟩, fun _ => ?_⟩
    rw [← hreader, h.typePtr]
    rfl

/-- Behind the tags a call is exact where `char` is signed. -/
theorem endExact_of_nul (h : AtTag m q₀ tags rest s)
    (hb : loadByte m (q₀ + s.consumed) = some 0) (hcount : s.consumed = tags.length)
    (arg : OscArg) : EndExact P m base tags.length s arg ↔ P.charSigned := by
  constructor
  · intro hexact
    by_contra hP
    obtain ⟨-, hend, -⟩ := hexact _ _ _ (getArg_of_nul_unsigned hP h.typePtr hb arg)
    exact absurd (hend.mpr hcount) (by decide)
  · intro hP ret arg' reader' hget
    rw [getArg_of_nul_signed hP h.typePtr hb] at hget
    obtain ⟨rfl, -⟩ := Prod.mk.inj (Option.some.inj hget)
    exact ⟨Or.inr (Or.inr rfl), ⟨fun _ => hcount, fun _ => rfl⟩, fun hne => absurd rfl hne⟩

theorem nextTagTold_iff (h : AtTag m q₀ tags rest s) {b : UInt8}
    (hb : loadByte m (q₀ + s.consumed) = some b) :
    NextTagTold P m s.reader ↔ TagTold P b := by
  constructor
  · intro hnext
    exact hnext _ b h.typePtr hb
  · intro hbyte q b' hq hb'
    obtain rfl := Option.some.inj (h.typePtr.symm.trans hq)
    obtain rfl := Option.some.inj (hb.symm.trans hb')
    exact hbyte

/-- One call is exact if and only if the next byte is told from the status codes. -/
theorem endExact_iff (h : AtTag m q₀ tags rest s) (arg : OscArg) :
    EndExact P m base tags.length s arg ↔ NextTagTold P m s.reader := by
  obtain ⟨b, hb, hzero⟩ := h.next
  rw [h.nextTagTold_iff hb]
  by_cases hnul : b = 0
  · rw [hnul] at hb ⊢
    rw [h.endExact_of_nul base hb (hzero.mp hnul), tagTold_zero]
  · have hcount : s.consumed ≠ tags.length := fun heq => hnul (hzero.mpr heq)
    by_cases hneg : charValue P b < 0
    · rw [h.endExact_of_neg base hb hnul hcount hneg, tagTold_iff_of_neg hneg]
    · exact iff_of_true (h.endExact_of_nonneg base hb hnul hcount hneg arg)
        (tagTold_of_nonneg hnul hneg)

/-- Whatever the byte is, the count of the consumed tags keeps up with the cursor. -/
theorem step (h : AtTag m q₀ tags rest s) {arg : OscArg} {s' : TagRun}
    (hstep : getArgTagStep P m base s arg = some s') : AtTag m q₀ tags rest s' := by
  obtain ⟨b, hb, hzero⟩ := h.next
  obtain ⟨⟨ret, arg', reader'⟩, hget, hs'⟩ := Option.map_eq_some_iff.mp hstep
  have hrun : (⟨reader', if reader'.typePtr = s.reader.typePtr then s.consumed
      else s.consumed + 1⟩ : TagRun) = s' := hs'
  have hle := h.le
  by_cases hnul : b = 0
  · have hreader : reader' = s.reader := by
      rw [hnul] at hb
      exact getArg_nul_reader h.typePtr hb hget
    rw [hreader, if_pos rfl] at hrun
    subst hrun
    exact ⟨h.noNul, h.tags_at, h.typePtr, hle⟩
  · have htype := getArg_typePtr h.typePtr hb hnul hget
    have hmoved : reader'.typePtr ≠ s.reader.typePtr := by
      rw [htype, h.typePtr]
      intro heq
      have hptr := Option.some.inj heq
      omega
    have hcount : s.consumed ≠ tags.length := fun heq => hnul (hzero.mpr heq)
    rw [if_neg hmoved] at hrun
    subst hrun
    have hnext : q₀ + s.consumed + 1 = q₀ + (s.consumed + 1 : Nat) := by omega
    exact ⟨h.noNul, h.tags_at, htype.trans (congrArg some hnext), by simp only; omega⟩

end AtTag

/-- The tag string that `osc_msg_reader_init` leaves the tag cursor at. -/
theorem exists_atTag {reader₀ reader : OscMsgReader} {buffer len : Int}
    (hinit : oscMsgReaderInit m reader₀ buffer len = some (oscOk, reader))
    (htyped : oscMsgReaderIsTyped reader) :
    ∃ q tags rest, reader.typePtr = some q ∧ AtTag m q tags rest ⟨reader, 0⟩ := by
  cases accepted_of_init hinit with
  | address hn hfills => exact absurd htyped Bool.false_ne_true
  | untyped hn ha hlt hb hne => exact absurd htyped Bool.false_ne_true
  | typed hn ha hlt hb hk hle =>
      obtain ⟨s, rest, -, hfree, hat⟩ := exists_at_of_strlen hk
      cases s with
      | nil => exact absurd (Option.some.inj (hat.loadByte.symm.trans hb)) (by decide)
      | cons c tags =>
          rw [show c :: tags ++ 0 :: rest = [c] ++ (tags ++ 0 :: rest) from rfl] at hat
          refine ⟨_, tags, rest, rfl, fun hnul => hfree (List.mem_cons_of_mem _ hnul),
            hat.right, ?_, Nat.zero_le _⟩
          rw [Int.natCast_zero, Int.add_zero]

/-- From the initialisation of a typed message on, the calls of a run report the end of
the tags exactly if and only if each finds a byte that is told from the status codes. -/
theorem along_endExact_iff (P : Platform) (m : Memory) (base : Int)
    (reader₀ reader : OscMsgReader) (buffer len : Int)
    (hinit : oscMsgReaderInit m reader₀ buffer len = some (oscOk, reader))
    (htyped : oscMsgReaderIsTyped reader) :
    ∃ q tags, reader.typePtr = some q ∧ stringAt m q = some tags ∧ 0 ∉ tags ∧
      ∀ args, Along (getArgTagStep P m base) (EndExact P m base tags.length) ⟨reader, 0⟩ args ↔
        Along (getArgTagStep P m base) (fun s _ => NextTagTold P m s.reader) ⟨reader, 0⟩
          args := by
  obtain ⟨q, tags, rest, htype, hat⟩ := exists_atTag hinit htyped
  refine ⟨q, tags, htype, hat.tags_at.stringAt hat.noNul, hat.noNul, fun args => ?_⟩
  refine along_iff_of_invariant (G := fun _ _ => True) (AtTag m q tags rest) ?_ ?_ hat
    (along_of_forall (fun _ _ => trivial) _ _)
  · exact fun s arg hs _ => hs.endExact_iff base arg
  · exact fun s arg s' hs _ _ hstep => hs.step base hstep

theorem along_endExact_intMessage :
    ∃ reader, oscMsgReaderInit (intMessage ++ [0]) ⟨0, 0, none, none⟩ 0 intMessage.length =
        some (oscOk, reader) ∧
      Along (getArgTagStep littleHost (intMessage ++ [0]) 0)
        (EndExact littleHost (intMessage ++ [0]) 0 1) ⟨reader, 0⟩ [zeroArg, zeroArg] := by
  refine ⟨_, rfl, ?_⟩
  obtain ⟨q, tags, hq, htags, -, hiff⟩ := along_endExact_iff littleHost (intMessage ++ [0]) 0
    ⟨0, 0, none, none⟩ _ 0 intMessage.length rfl rfl
  obtain rfl := Option.some.inj hq
  obtain rfl : ['i'.toUInt8] = tags := Option.some.inj htags
  refine (hiff [zeroArg, zeroArg]).mpr ?_
  rw [along_cons_of_eq_some rfl, along_cons_of_eq_some rfl]
  refine ⟨?_, ?_, along_nil _⟩
  · intro q b hq hb
    obtain rfl := Option.some.inj hq
    obtain rfl := Option.some.inj hb
    decide
  · intro q b hq hb
    obtain rfl := Option.some.inj hq
    obtain rfl := Option.some.inj hb
    decide

/-- The message `/a` with the single tag 254. -/
def endTagMessage : Memory := [47, 97, 0, 0, 44, 254, 0, 0]

/-- Where `char` is signed, the first call returns `OSC_END`. -/
theorem endTagMessage_not_endExact :
    ∃ reader q, oscMsgReaderInit (endTagMessage ++ [0]) ⟨0, 0, none, none⟩ 0
        endTagMessage.length = some (oscOk, reader) ∧ reader.typePtr = some q ∧
      stringAt (endTagMessage ++ [0]) q = some [254] ∧
      ¬ Along (getArgTagStep littleHost (endTagMessage ++ [0]) 0)
        (EndExact littleHost (endTagMessage ++ [0]) 0 1) ⟨reader, 0⟩ [zeroArg] := by
  refine ⟨_, 5, rfl, rfl, rfl, ?_⟩
  rintro ⟨hexact, -⟩
  obtain ⟨-, hend, -⟩ := hexact _ _ _ rfl
  exact absurd (hend.mp rfl) (by decide)

end LittleOscar
