import LittleOscar.Ideas.Reader.Decode
import LittleOscar.Ideas.Reader.Packet
import LittleOscar.Osc.Reader.Argument
import LittleOscar.Transition.Output

/-!
# One call for a tag and its argument, in both readers

`osc_reader_get_arg` has the cases of `osc_msg_reader_get_arg` except for the tag `k`, which
it does not know. On a message without this tag the two readers cannot be told apart, whatever
bytes it has: `getArgs_agree`.
-/

namespace LittleOscar.Ideas

open Machine Transition

variable (P : Platform) (m : Memory) (base : Int)

/-- The `switch` of `osc_reader_get_arg` over the tag `t`. -/
def getArgSwitch (t : UInt8) (reader : OscReader) (arg : OscArg) :
    Option (Int × OscArg × OscReader) :=
  if t = 'T'.toUInt8 ∨ t = 'F'.toUInt8 ∨ t = 'N'.toUInt8 ∨ t = 'I'.toUInt8 then
    some (oscOk, arg, reader)
  else if t = 'i'.toUInt8 then
    (oscReaderGetArgInt32 P m reader).map fun (ret, val, reader) =>
      (ret, val.elim arg fun v => arg.set32 P v.toUInt32, reader)
  else if t = 'h'.toUInt8 then
    (oscReaderGetArgInt64 P m reader).map fun (ret, val, reader) =>
      (ret, val.elim arg fun v => arg.set64 P v.toUInt64, reader)
  else if t = 't'.toUInt8 then
    (oscReaderGetArgTimetag P m reader).map fun (ret, val, reader) =>
      (ret, val.elim arg fun v => arg.set64 P v, reader)
  else if t = 'f'.toUInt8 then
    (oscReaderGetArgFloat P m reader).map fun (ret, val, reader) =>
      (ret, val.elim arg fun v => arg.set32 P v, reader)
  else if t = 'd'.toUInt8 then
    (oscReaderGetArgDouble P m reader).map fun (ret, val, reader) =>
      (ret, val.elim arg fun v => arg.set64 P v, reader)
  else if t = 's'.toUInt8 ∨ t = 'S'.toUInt8 then
    (oscReaderGetArgStr m reader).map fun (ret, val, reader) =>
      (ret, val.elim arg fun p => arg.set64 P (address base p), reader)
  else if t = 'b'.toUInt8 then
    (oscReaderGetArgBlob P m reader).map fun (ret, out, reader) =>
      let arg := out.sz.elim arg fun sz => arg.set32 P sz.toUInt32
      (ret, out.val.elim arg fun p => arg.set64 P (address base p), reader)
  else some (oscError, arg, reader)

/-- `osc_reader_get_arg` over an object that lies at the address `base`. -/
def oscReaderGetArg (reader : OscReader) (arg : OscArg) : Option (Int × OscArg × OscReader) := do
  let (t, reader) ← oscReaderNextArg m reader
  if charValue P t < 0 then some (charValue P t, arg, reader)
  else getArgSwitch P m base t reader { arg with type := t }

/-- A call of either reader into the variable `arg`, with what it returns and leaves in the
variable as its output. -/
def getArgOutput {ρ : Type} (getArg : ρ → OscArg → Option (Int × OscArg × ρ)) (reader : ρ)
    (arg : OscArg) : Option ((Int × OscArg) × ρ) :=
  (getArg reader arg).map fun (ret, arg, reader) => ((ret, arg), reader)

/-- There is no `k` in front of the NUL of the tags. -/
def NoSymbol (r : OscMsgReader) : Prop :=
  ∀ q, r.typePtr = some q → ∀ i : Nat, (∀ j < i, loadByte m (q + j) ≠ some 0) →
    loadByte m (q + i) ≠ some 'k'.toUInt8

/-- A reader whose argument cursor is not behind the end of the message, and not far in front
of the object. -/
structure Reads (r : OscMsgReader) : Prop where
  length_lt : m.length < 2147483644
  msgEnd_lt : r.msgEnd < 4294967296
  noSymbol : NoSymbol m r
  le : ∀ p, r.argPtr = some p → p ≤ r.msgEnd
  far : ∀ p, r.argPtr = some p → -2147483648 ≤ p

variable {P m base} {r r' : OscMsgReader}

/-- Another argument cursor in the message. -/
theorem Reads.moved (h : Reads m r) {p : Int} (hle : p ≤ r.msgEnd) (hfar : -2147483648 ≤ p) :
    Reads m { r with argPtr := some p } where
  length_lt := h.length_lt
  msgEnd_lt := h.msgEnd_lt
  noSymbol := h.noSymbol
  le := by
    rintro p' ⟨rfl⟩
    exact hle
  far := by
    rintro p' ⟨rfl⟩
    exact hfar

/-! ## The getters -/

/-- Both instances of `READ_FIXED` do the same. -/
theorem Reads.readFixed (h : Reads m r) (reader : OscReader) {α : Type} {k : Nat}
    (decode : Nat → α) :
    Ideas.readFixed P m k decode (reader.withCursors r) =
      (LittleOscar.readFixed P m k decode r).map fun (ret, v, r') =>
        (ret, v, reader.withCursors r') := by
  obtain ⟨msgPtr, msgEnd, typePtr, argPtr⟩ := r
  cases argPtr with
  | none => rfl
  | some p =>
      have hend := h.msgEnd_lt
      have hle := h.le p rfl
      have hfar := h.far p rfl
      simp only at hend hle
      have hsize : sizeT (msgEnd - p) = (msgEnd - p).toNat :=
        sizeT_of_nonneg (by omega) (by omega)
      simp only [Ideas.readFixed, LittleOscar.readFixed, OscReader.withCursors,
        Option.bind_eq_bind, Option.bind_some, hsize]
      by_cases hshort : msgEnd - p < k
      · rw [if_pos (by omega), if_pos hshort]
        rfl
      · rw [if_neg (by omega), if_neg hshort]
        cases loadNative P m p k with
        | none => rfl
        | some raw => rfl

/-- The getters of a string do the same, since its length is not too large for an `int`. -/
theorem Reads.getArgStr (h : Reads m r) (reader : OscReader) :
    oscReaderGetArgStr m (reader.withCursors r) =
      (oscMsgReaderGetArgStr m r).map fun (ret, v, r') => (ret, v, reader.withCursors r') := by
  have hlength := h.length_lt
  obtain ⟨msgPtr, msgEnd, typePtr, argPtr⟩ := r
  cases argPtr with
  | none => rfl
  | some p =>
      simp only [oscReaderGetArgStr, oscMsgReaderGetArgStr, OscReader.withCursors,
        Option.bind_eq_bind, Option.bind_some]
      cases hn : strlen m p with
      | none => rfl
      | some n =>
          obtain ⟨hnonneg, hlt, -⟩ := strlen_eq_some hn
          have hround : round32Size (n + 1) = paddedSize n := round32Size_eq_roundUp (by omega)
          have hwrap := wrap32_round32Size (n := n) (by omega)
          rw [hround] at hwrap
          simp only [Option.bind_some, hround, hwrap]
          split <;> rfl

/-- The getters of a blob do the same. -/
theorem Reads.getArgInt32 (h : Reads m r) (reader : OscReader) :
    oscReaderGetArgInt32 P m (reader.withCursors r) =
      (oscMsgReaderGetArgInt32 P m r).map fun (ret, v, r') => (ret, v, reader.withCursors r') :=
  h.readFixed reader _

theorem Reads.getArgBlob (h : Reads m r) (reader : OscReader) :
    oscReaderGetArgBlob P m (reader.withCursors r) =
      (oscMsgReaderGetArgBlob P m r).map fun (ret, v, r') => (ret, v, reader.withCursors r') := by
  rw [oscReaderGetArgBlob, oscMsgReaderGetArgBlob, h.getArgInt32]
  cases oscMsgReaderGetArgInt32 P m r with
  | none => rfl
  | some out =>
      obtain ⟨ret, sz, msgPtr, msgEnd, typePtr, argPtr⟩ := out
      cases sz with
      | none => rfl
      | some sz =>
          cases argPtr with
          | none => rfl
          | some p =>
              simp only [Option.map_some, Option.bind_eq_bind, Option.bind_some,
                OscReader.withCursors]
              split <;> rfl

/-! ## What the getters keep -/

theorem Reads.of_readFixed (h : Reads m r) {α : Type} {k : Nat} {decode : Nat → α} {ret : Int}
    {v : Option α} (hcall : LittleOscar.readFixed P m k decode r = some (ret, v, r')) :
    Reads m r' := by
  obtain ⟨p, hp, ⟨-, -, -, rfl⟩ | ⟨-, hroom, -, -, -, rfl⟩⟩ := cases_of_readFixed hcall
  · exact h
  · have hfar := h.far p hp
    exact h.moved (by omega) (by omega)

theorem Reads.of_getArgStr (h : Reads m r) {ret : Int} {v : Option Int}
    (hcall : oscMsgReaderGetArgStr m r = some (ret, v, r')) : Reads m r' := by
  have hlength := h.length_lt
  obtain ⟨p, n, hp, hn, -⟩ := cases_of_getArgStr hcall
  obtain ⟨hnonneg, hlt, -⟩ := strlen_eq_some hn
  have hwrap := wrap32_round32Size (n := n) (by omega)
  simp only [oscMsgReaderGetArgStr, hp, hn, Option.bind_eq_bind, Option.bind_some] at hcall
  split at hcall
  · cases hcall
    exact h
  · cases hcall
    exact h.moved (by omega) (by omega)

theorem Reads.of_getArgBlob (h : Reads m r) {ret : Int} {out : OscBlob}
    (hcall : oscMsgReaderGetArgBlob P m r = some (ret, out, r')) : Reads m r' := by
  obtain ⟨p, hp, ⟨-, -, rfl⟩ | ⟨hroom, bs, hbs, hcases⟩⟩ := cases_of_getArgBlob hcall
  · exact h
  · have hnonneg := nonneg_of_loadBytes (by decide) hbs
    have hround : -2147483648 ≤ round32 (int32Field bs) := by
      unfold round32 wrap32
      omega
    rcases hcases with ⟨-, -, rfl⟩ | ⟨-, hle, rfl⟩
    · exact h.moved (by omega) (by omega)
    · exact h.moved hle (by omega)

/-! ## One call -/

/-- The two `switch`es do the same for every other tag. -/
theorem Reads.getArgSwitch (h : Reads m r) (reader : OscReader) {t : UInt8}
    (ht : t ≠ 'k'.toUInt8) (arg : OscArg) :
    Ideas.getArgSwitch P m base t (reader.withCursors r) arg =
      (LittleOscar.getArgSwitch P m base t r arg).map fun (ret, arg, r') =>
        (ret, arg, reader.withCursors r') := by
  have hfixed : ∀ {α : Type} (k : Nat) (decode : Nat → α),
      Ideas.readFixed P m k decode (reader.withCursors r) =
        (LittleOscar.readFixed P m k decode r).map fun (ret, v, r') =>
          (ret, v, reader.withCursors r') := fun k decode => h.readFixed reader decode
  have hstring : (t = 'k'.toUInt8 ∨ t = 's'.toUInt8 ∨ t = 'S'.toUInt8) ↔
      (t = 's'.toUInt8 ∨ t = 'S'.toUInt8) := or_iff_right ht
  rw [Ideas.getArgSwitch, LittleOscar.getArgSwitch, if_congr hstring rfl rfl]
  simp only [oscReaderGetArgInt32, oscReaderGetArgInt64, oscReaderGetArgTimetag,
    oscReaderGetArgFloat, oscReaderGetArgDouble, hfixed, h.getArgStr reader, h.getArgBlob reader,
    oscMsgReaderGetArgInt32, oscMsgReaderGetArgInt64, oscMsgReaderGetArgTimetag,
    oscMsgReaderGetArgFloat, oscMsgReaderGetArgDouble]
  split_ifs <;> simp only [Option.map_map, Option.map_some] <;> rfl

theorem Reads.of_getArgSwitch (h : Reads m r) {t : UInt8} {arg arg' : OscArg} {ret : Int}
    (hcall : LittleOscar.getArgSwitch P m base t r arg = some (ret, arg', r')) : Reads m r' := by
  have hmap : ∀ {α : Type} {out : Option (Int × α × OscMsgReader)}
      {store : Int × α × OscMsgReader → Int × OscArg × OscMsgReader},
      (∀ ret v r₁, out = some (ret, v, r₁) → Reads m r₁) →
        (∀ ret v r₁, (store (ret, v, r₁)).2.2 = r₁) → out.map store = some (ret, arg', r') →
          Reads m r' := by
    intro α out store hkeeps hstore hout
    obtain ⟨⟨ret₁, v, r₁⟩, hget, heq⟩ := Option.map_eq_some_iff.mp hout
    have hlast := hstore ret₁ v r₁
    rw [heq] at hlast
    obtain rfl : r' = r₁ := hlast
    exact hkeeps ret₁ v r' hget
  rw [LittleOscar.getArgSwitch] at hcall
  split_ifs at hcall
  · cases hcall
    exact h
  · exact hmap (fun _ _ _ => h.of_readFixed) (fun _ _ _ => rfl) hcall
  · exact hmap (fun _ _ _ => h.of_readFixed) (fun _ _ _ => rfl) hcall
  · exact hmap (fun _ _ _ => h.of_readFixed) (fun _ _ _ => rfl) hcall
  · exact hmap (fun _ _ _ => h.of_readFixed) (fun _ _ _ => rfl) hcall
  · exact hmap (fun _ _ _ => h.of_readFixed) (fun _ _ _ => rfl) hcall
  · exact hmap (fun _ _ _ => h.of_getArgStr) (fun _ _ _ => rfl) hcall
  · exact hmap (fun _ _ _ => h.of_getArgBlob) (fun _ _ _ => rfl) hcall
  · cases hcall
    exact h

/-- The next tag is not a `k`, and there is none behind it. -/
theorem Reads.of_nextArg (h : Reads m r) {t : UInt8}
    (hnext : oscMsgReaderNextArg m r = some (t, r')) : Reads m r' ∧ t ≠ 'k'.toUInt8 := by
  rw [oscMsgReaderNextArg] at hnext
  cases hq : r.typePtr with
  | none =>
      rw [hq] at hnext
      cases hnext
      exact ⟨h, by decide⟩
  | some q =>
      rw [hq] at hnext
      obtain ⟨curr, hcurr, hnext⟩ := Option.bind_eq_some_iff.mp hnext
      split at hnext
      · next hne =>
          cases hnext
          have hk : loadByte m (q + (0 : Nat)) ≠ some 'k'.toUInt8 :=
            h.noSymbol q hq 0 fun j hj => absurd hj (Nat.not_lt_zero j)
          rw [Int.natCast_zero, Int.add_zero, hcurr] at hk
          refine ⟨⟨h.length_lt, h.msgEnd_lt, ?_, h.le, h.far⟩, fun heq => hk (congrArg some heq)⟩
          rintro q' ⟨rfl⟩ i hi
          have hbehind : q + 1 + (i : Int) = q + (i + 1 : Nat) := by omega
          rw [hbehind]
          refine h.noSymbol q hq (i + 1) ?_
          intro j hj
          cases j with
          | zero =>
              rw [Int.natCast_zero, Int.add_zero, hcurr]
              exact fun heq => hne (Option.some.inj heq)
          | succ j =>
              have hbefore := hi j (by omega)
              rwa [show q + 1 + (j : Int) = q + (j + 1 : Nat) by omega] at hbefore
      · cases hnext
        exact ⟨h, by decide⟩

/-- A call of one reader follows a call of the other. -/
theorem Reads.getArg (h : Reads m r) (reader : OscReader) (arg : OscArg) :
    oscReaderGetArg P m base (reader.withCursors r) arg =
      (oscMsgReaderGetArg P m base r arg).map fun (ret, arg, r') =>
        (ret, arg, reader.withCursors r') := by
  rw [oscReaderGetArg, oscMsgReaderGetArg, nextArg_withCursors]
  cases hnext : oscMsgReaderNextArg m r with
  | none => rfl
  | some next =>
      obtain ⟨t, r₁⟩ := next
      obtain ⟨hreads, ht⟩ := h.of_nextArg hnext
      simp only [Option.map_some, Option.bind_eq_bind, Option.bind_some]
      split
      · rfl
      · exact hreads.getArgSwitch reader ht _

theorem Reads.of_getArg (h : Reads m r) {arg arg' : OscArg} {ret : Int}
    (hcall : oscMsgReaderGetArg P m base r arg = some (ret, arg', r')) : Reads m r' := by
  obtain ⟨⟨t, r₁⟩, hnext, hcall⟩ := Option.bind_eq_some_iff.mp hcall
  obtain ⟨hreads, -⟩ := h.of_nextArg hnext
  simp only at hcall
  split at hcall
  · cases hcall
    exact hreads
  · exact hreads.of_getArgSwitch hcall

/-! ## A message and the calls on it -/

/-- The bytes of a string are those in front of the NUL. -/
theorem noSymbol_of_stringAt {q : Int} {n : Nat} (hn : strlen m q = some n)
    (hk : ∀ tags, stringAt m q = some tags → 'k'.toUInt8 ∉ tags) (hq : r.typePtr = some q) :
    NoSymbol m r := by
  obtain ⟨hnonneg, hlt, hnul⟩ := strlen_eq_some hn
  have hat := at_take (m := m) (p := q) (k := n) hnonneg (by omega)
  have hlength := length_take_drop (m := m) (p := q) (k := n) hnonneg (by omega)
  have hload := hat.loadBytes
  rw [hlength] at hload
  have htags := hk _ (by rw [stringAt, hn, Option.bind_eq_bind, Option.bind_some, hload])
  intro q' hq' i hi hsymbol
  obtain rfl := Option.some.inj (hq.symm.trans hq')
  rcases Nat.lt_trichotomy i n with hbefore | rfl | hbehind
  · rw [hat.loadByte_add (by omega)] at hsymbol
    exact htags (List.mem_of_getElem? hsymbol)
  · rw [hnul] at hsymbol
    cases hsymbol
  · exact hi n hbehind hnul

/-- Both readers look for the parts of a message in the same way. -/
theorem startParts_agrees (hlength : m.length < 2147483644) {reader reader' : OscReader}
    {p e ret : Int} (hp : reader.msgPtr = some p) (he : reader.msgEnd = some e)
    (hmod : (e - p) % 4 = 0) (hstart : startParts m p e reader = some (ret, reader'))
    (r₀ : OscMsgReader) :
    0 ≤ p ∧ p < m.length ∧ ∃ r, oscMsgReaderInit m r₀ p (e - p) = some (ret, r) ∧
      (ret = oscOk → reader' = reader.withCursors r ∧ r.msgEnd = e ∧
        (∀ q, r.typePtr = some q → ∃ n, strlen m q = some n) ∧
        ∀ a, r.argPtr = some a → 0 ≤ a ∧ a ≤ e) := by
  rw [startParts, if_neg (by omega)] at hstart
  obtain ⟨n, hn, hstart⟩ := Option.bind_eq_some_iff.mp hstart
  obtain ⟨hnonneg, hlt, -⟩ := strlen_eq_some hn
  have hround : round32Size (n + 1) = paddedSize n := round32Size_eq_roundUp (by omega)
  have hwrap := wrap32_round32Size (n := n) (by omega)
  rw [hround] at hwrap
  have hsize : AddressSize m p n (paddedSize n) := ⟨hn, by omega, hwrap⟩
  have hend : p + (e - p) = e := by omega
  refine ⟨hnonneg, by omega, ?_⟩
  simp only [hround] at hstart
  split at hstart
  · cases hstart
    exact ⟨_, hsize.init_of_past (by omega), fun hok => absurd hok oscError_ne_oscOk⟩
  split at hstart
  · cases hstart
    refine ⟨_, hsize.init_of_fills (by omega), fun _ => ⟨?_, hend, fun q hq => ?_, fun a ha => ?_⟩⟩
    · rw [OscReader.withCursors, hend, ← hp, ← he]
    · cases hq
    · cases ha
  next hpast hfills =>
  have hinside : (paddedSize n : Int) < e - p := by omega
  obtain ⟨b, hb, hstart⟩ := Option.bind_eq_some_iff.mp hstart
  split at hstart
  · next hcomma =>
      obtain ⟨k, hk, hstart⟩ := Option.bind_eq_some_iff.mp hstart
      obtain ⟨-, hklt, hnul⟩ := strlen_eq_some hk
      have hround' : round32Size (k + 1) = paddedSize k := round32Size_eq_roundUp (by omega)
      have hinit := @AddressSize.init_of_tags _ r₀ _ _ _ _ _ hsize hinside (hcomma ▸ hb) hk
        (by omega)
      simp only [hround'] at hstart
      split at hstart
      · cases hstart
        rw [if_pos (by omega)] at hinit
        exact ⟨_, hinit, fun hok => absurd hok oscError_ne_oscOk⟩
      · cases hstart
        rw [if_neg (by omega)] at hinit
        refine ⟨_, hinit, fun _ => ⟨?_, hend, ?_, ?_⟩⟩
        · rw [OscReader.withCursors, hend, ← hp, ← he]
        · rintro q ⟨rfl⟩
          have hne : k ≠ 0 := by
            rintro rfl
            rw [Int.natCast_zero, Int.add_zero, hb, hcomma] at hnul
            exact absurd hnul (by decide)
          obtain ⟨j, hj, -⟩ := exists_strlen_of_loadByte (p := p + paddedSize n + 1) (by omega)
            (by omega) hnul
          exact ⟨j, hj⟩
        · rintro a ⟨rfl⟩
          exact ⟨by omega, by omega⟩
  · next hcomma =>
      cases hstart
      refine ⟨_, hsize.init_of_untyped hinside hb hcomma, fun _ => ⟨?_, hend, fun q hq => ?_, ?_⟩⟩
      · rw [OscReader.withCursors, hend, ← hp, ← he]
      · cases hq
      · rintro a ⟨rfl⟩
        exact ⟨by omega, by omega⟩

/-- Where the current message lies. -/
theorem range_of_startMsg {reader reader' : OscReader} {p e ret : Int}
    (hbuffer : reader.bufferEnd ≤ m.length) (hstart : oscReaderStartMsg P m reader =
      some (ret, reader')) (hp : reader'.msgPtr = some p) (he : reader'.msgEnd = some e) :
    (e ≤ m.length ∨ e < p + 2147483648) ∧ ∃ reader₁, reader₁.msgPtr = some p ∧
      reader₁.msgEnd = some e ∧ startParts m p e reader₁ = some (ret, reader') := by
  obtain ⟨reader₁, hnext, hstart⟩ := Option.bind_eq_some_iff.mp hstart
  cases hp₁ : reader₁.msgPtr with
  | none =>
      rw [hp₁] at hstart
      cases hstart
      cases hp₁.symm.trans hp
  | some p₁ =>
      rw [hp₁] at hstart
      obtain ⟨e₁, he₁, hparts⟩ := Option.bind_eq_some_iff.mp hstart
      obtain ⟨-, typePtr, argPtr, rfl⟩ := startParts_frame hparts
      obtain rfl := Option.some.inj (hp₁.symm.trans hp)
      obtain rfl := Option.some.inj (he₁.symm.trans he)
      refine ⟨?_, reader₁, hp₁, he₁, hparts⟩
      have hlen : ∀ {q len : Int}, hostLength P m q = some len → len < 2147483648 := by
        intro q len hlen
        obtain ⟨raw, -, rfl⟩ := Option.map_eq_some_iff.mp hlen
        exact Int32.toInt_lt _
      rw [nextRange] at hnext
      split at hnext
      · split at hnext
        · obtain ⟨len, hfield, hnext⟩ := Option.bind_eq_some_iff.mp hnext
          have hlt := hlen hfield
          cases hnext
          cases hp₁
          cases he₁
          exact Or.inr (by omega)
        · split at hnext
          · cases hnext
            cases hp₁
          · obtain ⟨len, hfield, hnext⟩ := Option.bind_eq_some_iff.mp hnext
            have hlt := hlen hfield
            cases hnext
            cases hp₁
            cases he₁
            exact Or.inr (by omega)
        · cases hnext
        · next hnone hsome =>
            cases hnext
            rw [hnone] at hp₁
            cases hp₁
      · split at hnext
        · cases hnext
          cases he₁
          exact Or.inl hbuffer
        · cases hnext
          cases hp₁

/-- On a message without symbols, `osc_reader_start_msg` and `osc_msg_reader_init` return the
same, and any calls for its arguments return the same, leave the same in the variables and
leave the cursors at the same places. The bytes of the message may be any. -/
theorem getArgs_agree (P : Platform) (m : Memory) (base : Int) (reader reader' : OscReader)
    (r₀ : OscMsgReader) (p e ret : Int) (hlength : m.length < 2147483644)
    (hbuffer : reader.bufferEnd ≤ m.length)
    (hstart : oscReaderStartMsg P m reader = some (ret, reader'))
    (hp : reader'.msgPtr = some p) (he : reader'.msgEnd = some e) (hmod : (e - p) % 4 = 0) :
    ∃ r, oscMsgReaderInit m r₀ p (e - p) = some (ret, r) ∧ (ret = oscOk →
      (∀ q tags, r.typePtr = some q → stringAt m q = some tags → 'k'.toUInt8 ∉ tags) →
        ∀ args, trace (getArgOutput (oscReaderGetArg P m base)) reader' args =
          (trace (getArgOutput (oscMsgReaderGetArg P m base)) r args).map fun (outs, r') =>
            (outs, reader'.withCursors r')) := by
  obtain ⟨hrange, reader₁, hp₁, he₁, hparts⟩ := range_of_startMsg hbuffer hstart hp he
  obtain ⟨hnonneg, hlt, r, hinit, hagrees⟩ := startParts_agrees hlength hp₁ he₁ hmod hparts r₀
  refine ⟨r, hinit, ?_⟩
  intro hok hk args
  obtain ⟨hsame, hend, htypes, hargs⟩ := hagrees hok
  have hreads : Reads m r := by
    refine ⟨hlength, by omega, ?_, ?_, ?_⟩
    · intro q hq
      obtain ⟨n, hn⟩ := htypes q hq
      exact noSymbol_of_stringAt hn (fun tags => hk q tags hq) hq q hq
    · intro a ha
      rw [hend]
      exact (hargs a ha).2
    · intro a ha
      have hfirst := (hargs a ha).1
      omega
  have hfix : reader'.withCursors r = reader' := by
    rw [hsame]
    rfl
  have hstep : ∀ s arg, Reads m s →
      getArgOutput (oscReaderGetArg P m base) (reader'.withCursors s) arg =
        (getArgOutput (oscMsgReaderGetArg P m base) s arg).map fun (out, s') =>
          (out, reader'.withCursors s') := by
    intro s arg hs
    rw [getArgOutput, getArgOutput, hs.getArg, Option.map_map, Option.map_map]
    rfl
  have hinv : ∀ s arg out s', Reads m s →
      getArgOutput (oscMsgReaderGetArg P m base) s arg = some (out, s') → Reads m s' := by
    intro s arg out s' hs hcall
    obtain ⟨⟨ret, arg', s₁⟩, hget, heq⟩ := Option.map_eq_some_iff.mp hcall
    cases heq
    exact hs.of_getArg hget
  have htrace := trace_map (Reads m) reader'.withCursors hstep hinv hreads args
  rwa [hfix] at htrace

/-- A blob of the size -8 and an integer, which is then read from the tags. -/
def backwardMessage : Memory :=
  ['/', 'a'].map Char.toUInt8 ++ [0, 0] ++ [','.toUInt8, 'b'.toUInt8, 'i'.toUInt8, 0] ++
    [255, 255, 255, 248] ++ [0, 0, 0, 0] ++ [0]

theorem getArgs_agree_backward :
    ∃ r, oscMsgReaderInit backwardMessage ⟨0, 0, none, none⟩ 0 16 = some (oscOk, r) ∧ ∀ args,
      trace (getArgOutput (oscReaderGetArg littleHost backwardMessage 4096))
          ⟨0, 16, 0, some 0, some 16, some 5, some 8⟩ args =
        (trace (getArgOutput (oscMsgReaderGetArg littleHost backwardMessage 4096)) r args).map
          fun (outs, r') =>
            (outs, OscReader.withCursors ⟨0, 16, 0, some 0, some 16, some 5, some 8⟩ r') := by
  obtain ⟨r, hinit, hagree⟩ := getArgs_agree littleHost backwardMessage 4096
    ⟨0, 16, 0, none, none, none, none⟩ ⟨0, 16, 0, some 0, some 16, some 5, some 8⟩
    ⟨0, 0, none, none⟩ 0 16 oscOk (by decide) (by decide) (by decide) rfl rfl (by decide)
  refine ⟨r, hinit, hagree rfl ?_⟩
  intro q tags hq htags
  have hcursors : oscMsgReaderInit backwardMessage ⟨0, 0, none, none⟩ 0 (16 - 0) =
      some (oscOk, ⟨0, 16, some 5, some 8⟩) := by decide
  obtain ⟨-, rfl⟩ := Prod.mk.inj (Option.some.inj (hinit.symm.trans hcursors))
  obtain rfl := Option.some.inj hq
  have hstring : stringAt backwardMessage 5 = some ['b'.toUInt8, 'i'.toUInt8] := by decide
  obtain rfl := Option.some.inj (htags.symm.trans hstring)
  decide

end LittleOscar.Ideas
