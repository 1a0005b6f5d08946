import LittleOscar.Osc.Writer.Call
import LittleOscar.Transition.Interleave

/-!
# Several writers in one process

Writers over disjoint buffers share nothing but the file-level pointer `k_bundle`, so
the process is a composite with `k_bundle` as its shared state. No function reads it
but `osc_msg_writer_start_bundle`, which takes the header from it and moves it to the
end of its literal. `HeaderInPlace` is the condition under which that call finds it
where it was when the program started.
-/

namespace LittleOscar

open Machine Transition WriterState

/-- An operation on a writer, its initialisation included. -/
inductive WriterOp where
  | init (arg : BufferOrWriter) (len : Int)
  | call (c : WriterCall)

variable (P : Platform)

/-- The operation on a writer with its memory object, where `k_bundle` points to
`kBundle`. -/
def writerOp (s : OscWriter × Memory) (kBundle : CString) :
    WriterOp → Option (Int × (OscWriter × Memory) × CString)
  | .init arg len => (oscMsgWriterInit s.1 arg len).map fun (ret, w) => (ret, (w, s.2), kBundle)
  | .call c => (writerCall P c { toOscWriter := s.1, mem := s.2, kBundle }).map
      fun (ret, s') => (ret, (s'.toOscWriter, s'.mem), s'.kBundle)

/-- A process with a family of writers, each over an object of its own. -/
abbrev Process (ι : Type) := Composite ι (OscWriter × Memory) CString Int

/-- The start of the program: `k_bundle` points to its literal. -/
def programStart {ι : Type} (locals : ι → OscWriter × Memory) : Process ι :=
  ⟨locals, bundleLiteral, []⟩

variable {ι : Type} [DecidableEq ι]

def processStep : Process ι → ι × WriterOp → Option (Process ι) := compositeStep (writerOp P)

/-- Every writer gets the return codes, the record and the bytes that its own operations
give it in a process of its own. -/
def RunsAlone (locals : ι → OscWriter × Memory) (ops : List (ι × WriterOp)) : Prop :=
  ∃ p, run (processStep P) (programStart locals) ops = some p ∧
    ∀ i, ∃ q, run (processStep P) (programStart locals) (labelsOf i ops) = some q ∧
      p.locals i = q.locals i ∧ p.resultsOf i = q.resultsOf i

/-- The bytes that a bundle begins with. -/
def expectedHeader (timetag : UInt64) : List UInt8 :=
  bundleLiteral.bytes ++ 0 :: bigEndian 8 timetag.toNat

/-- An accepted `osc_msg_writer_start_bundle` emits the header and the timetag. -/
def EmitsHeader (s : OscWriter × Memory) (kBundle : CString) (op : WriterOp) : Prop :=
  ∀ timetag s' kBundle', op = .call (.startBundle timetag) →
    writerOp P s kBundle op = some (oscOk, s', kBundle') →
    s'.1.pos = s.1.pos + (expectedHeader timetag).length ∧
      At s'.2 (s.1.data + s.1.pos) (expectedHeader timetag)

/-- An `osc_msg_writer_start_bundle` that its tests let through finds `k_bundle` at the
beginning of its literal. -/
def HeaderInPlace (s : OscWriter × Memory) (kBundle : CString) : WriterOp → Prop
  | .call (.startBundle _) =>
      s.1.state = OSC_WRITER_OUT → 12 ≤ s.1.len - s.1.pos → kBundle = bundleLiteral
  | _ => True

instance (s : OscWriter × Memory) (kBundle : CString) (op : WriterOp) :
    Decidable (HeaderInPlace s kBundle op) := by
  unfold HeaderInPlace
  split <;> infer_instance

/-- The operations on the writer `i` begin with its initialisation. -/
def BeginsWithInit (i : ι) (ops : List (ι × WriterOp)) : Prop :=
  ∀ op ∈ (labelsOf i ops).head?, ∃ arg len, op.2 = .init arg len

variable {P}

/-! ## The pointer and the calls that do not read it -/

/-- The writer in a process where `k_bundle` points to `kBundle`. -/
def WriterState.withBundle (s : WriterState) (kBundle : CString) : WriterState :=
  { s with kBundle }

section Frame

variable (s : WriterState) (kBundle : CString)

theorem putAll_withBundle (bs : List UInt8) :
    (s.withBundle kBundle).putAll bs = (s.putAll bs).map (withBundle · kBundle) := by
  rw [putAll_eq, putAll_eq, Option.map_map]
  rfl

theorem addType_withBundle (t : UInt8) :
    (s.withBundle kBundle).addType t = (s.addType t).map (withBundle · kBundle) := by
  unfold addType
  cases h : storeByte s.mem (s.data + s.typePos) t with
  | none => simp [withBundle, h]
  | some mem => simp [withBundle, h]

/-- The result of a call in a process where `k_bundle` points to `kBundle`. -/
def withBundleResult (r : Int × WriterState) : Int × WriterState :=
  (r.1, r.2.withBundle kBundle)

theorem oscMsgWrite_withBundle (arg : WriteArg) :
    oscMsgWrite P arg (s.withBundle kBundle) =
      (oscMsgWrite P arg s).map (withBundleResult kBundle) := by
  rw [oscMsgWrite_eq, oscMsgWrite_eq, addType_withBundle]
  cases s.addType arg.tag with
  | none => rfl
  | some s₁ =>
      simp only [Option.map_some, Option.bind_some]
      have hremain : (s₁.withBundle kBundle).remain = s₁.remain := rfl
      have hpos : (s₁.withBundle kBundle).pos = s₁.pos := rfl
      rw [hremain, hpos]
      split
      · rfl
      · cases arg.stored P s₁.pos with
        | none => rfl
        | some bs =>
            simp only [Option.bind_some]
            rw [putAll_withBundle]
            cases s₁.putAll bs <;> rfl

theorem startMsg_withBundle (address : CString) (nargs : Int) :
    oscMsgWriterStartMsg address nargs (s.withBundle kBundle) =
      (oscMsgWriterStartMsg address nargs s).map (withBundleResult kBundle) := by
  have hreserved : (s.withBundle kBundle).reserved = s.reserved.withBundle kBundle := rfl
  have hstate : (s.withBundle kBundle).state = s.state := rfl
  rw [oscMsgWriterStartMsg_eq, oscMsgWriterStartMsg_eq, hreserved, hstate]
  have hremain : (s.reserved.withBundle kBundle).remain = s.reserved.remain := rfl
  have hpos : (s.reserved.withBundle kBundle).pos = s.reserved.pos := rfl
  rw [hremain, hpos, putAll_withBundle]
  split
  · rfl
  split
  · rfl
  cases s.reserved.putAll (stringBytes s.reserved.pos address) with
  | none => rfl
  | some s₂ =>
      have htags : ({ s₂.withBundle kBundle with typePos := (s₂.withBundle kBundle).pos } :
          WriterState) = WriterState.withBundle { s₂ with typePos := s₂.pos } kBundle := rfl
      have hremain₂ : (s₂.withBundle kBundle).remain = s₂.remain := rfl
      simp only [Option.map_some, Option.bind_some]
      rw [htags, hremain₂, putAll_withBundle]
      split
      · rfl
      · cases putAll { s₂ with typePos := s₂.pos } (List.replicate (loopCount (round32 nargs)) 0)
          <;> rfl

theorem endMsg_withBundle :
    oscMsgWriterEndMsg P (s.withBundle kBundle) =
      (oscMsgWriterEndMsg P s).map (withBundleResult kBundle) := by
  have hfields : (s.withBundle kBundle).state = s.state ∧ (s.withBundle kBundle).mem = s.mem :=
    ⟨rfl, rfl⟩
  unfold oscMsgWriterEndMsg
  rw [hfields.1, hfields.2]
  split
  · rfl
  split
  · have hword : storeBytes s.mem ((s.withBundle kBundle).data +
        ((s.withBundle kBundle).msgStart - 4)) (native P.order 4
          (((s.withBundle kBundle).pos - (s.withBundle kBundle).msgStart) % 4294967296).toNat) =
        storeBytes s.mem (s.data + (s.msgStart - 4)) (native P.order 4
          ((s.pos - s.msgStart) % 4294967296).toNat) := rfl
    rw [hword]
    cases storeBytes s.mem (s.data + (s.msgStart - 4)) (native P.order 4
      ((s.pos - s.msgStart) % 4294967296).toNat) <;> rfl
  · rfl

/-- Only `osc_msg_writer_start_bundle` reads the pointer. -/
theorem writerCall_withBundle {c : WriterCall} (hc : ∀ timetag, c ≠ .startBundle timetag) :
    writerCall P c (s.withBundle kBundle) =
      (writerCall P c s).map (withBundleResult kBundle) := by
  cases c with
  | startBundle timetag => exact absurd rfl (hc timetag)
  | startMsg address nargs => exact startMsg_withBundle s kBundle address nargs
  | write arg => exact oscMsgWrite_withBundle s kBundle arg
  | endMsg => exact endMsg_withBundle s kBundle
  | endBundle => rfl

/-- What its tests refuse does not depend on the pointer either. -/
theorem startBundle_refused {timetag : UInt64}
    (h : ¬ (s.state = OSC_WRITER_OUT ∧ 12 ≤ s.remain)) :
    oscMsgWriterStartBundle P timetag s = some (oscError, s) := by
  rw [oscMsgWriterStartBundle_eq]
  by_cases hout : s.state = OSC_WRITER_OUT
  · have hshort : s.remain < 12 := by
      by_contra hlong
      exact h ⟨hout, by omega⟩
    rw [if_neg (not_not_intro hout), if_pos hshort]
  · rw [if_pos hout]

end Frame

/-- A call leaves the pointer where it was or moves it to the end of its literal. -/
theorem kBundle_of_writerCall {s s' : WriterState} {c : WriterCall} {ret : Int}
    (h : writerCall P c s = some (ret, s')) :
    s'.kBundle = s.kBundle ∨ s'.kBundle = CString.empty := by
  by_cases hc : ∃ timetag, c = .startBundle timetag
  · obtain ⟨timetag, rfl⟩ := hc
    rcases cases_of_startBundle h with ⟨-, rfl⟩ | ⟨-, -, -, s₁, s₂, -, htimetag, rfl⟩
    · exact Or.inl rfl
    · rw [putAll_eq_some htimetag]
      exact Or.inr rfl
  · have hframe := writerCall_withBundle (P := P) s s.kBundle (c := c)
      fun timetag hstart => hc ⟨timetag, hstart⟩
    have hself : s.withBundle s.kBundle = s := rfl
    rw [hself, h, Option.map_some] at hframe
    have hs' : s' = s'.withBundle s.kBundle := congrArg Prod.snd (Option.some.inj hframe)
    rw [hs']
    exact Or.inl rfl

/-! ## The cursor stays aligned -/

theorem stored_mod {arg : WriteArg} {pos : Int} (hpos : pos % 4 = 0) {bs : List UInt8}
    (h : arg.stored P pos = some bs) : (pos + bs.length) % 4 = 0 := by
  cases arg with
  | str val =>
      cases h
      exact stringBytes_mod pos val
  | blob val sz =>
      obtain ⟨bytes, -, rfl⟩ := Option.map_eq_some_iff.mp h
      simp only [padZeros, List.length_append, length_bigEndian, List.length_replicate]
      omega
  | null | boolTrue | boolFalse | infinity =>
      cases h
      rw [List.length_nil]
      omega
  | int32 val | int64 val | timetag val | float val | double val =>
      cases h
      rw [length_bigEndian]
      omega

theorem reserved_pos_mod {s : WriterState} (h : s.pos % 4 = 0) : s.reserved.pos % 4 = 0 := by
  simp only [reserved, reserve]
  split <;> omega

/-- No call leaves the cursor between two multiples of four. -/
theorem aligned_of_writerCall {s s' : WriterState} {c : WriterCall} {ret : Int}
    (hpos : s.pos % 4 = 0) (h : writerCall P c s = some (ret, s')) : s'.pos % 4 = 0 := by
  cases c with
  | startBundle timetag =>
      rcases cases_of_startBundle h with ⟨-, rfl⟩ | ⟨-, -, -, s₁, s₂, hheader, htimetag, rfl⟩
      · exact hpos
      · have hmod := stringBytes_mod s.pos s.kBundle
        rw [putAll_eq_some htimetag, filled_pos, length_bigEndian, putAll_eq_some hheader]
        simp only [filled_pos]
        omega
  | startMsg address nargs =>
      have hreserved := reserved_pos_mod hpos
      rcases cases_of_startMsg h with
        ⟨-, -, rfl⟩ | ⟨-, -, -, rfl⟩ | ⟨-, -, -, haddress⟩ | ⟨rfl, -⟩
      · exact hpos
      · exact hreserved
      · rw [putAll_eq_some haddress]
        exact stringBytes_mod s.reserved.pos address
      · exact (opened_of_startMsg h).pos_mod
  | write arg =>
      rcases cases_of_write h with ⟨-, -, rfl⟩ | ⟨-, -, bs, hstored, hput⟩
      · exact hpos
      · rw [putAll_eq_some hput, filled_pos, tagged_pos]
        exact stored_mod hpos hstored
  | endMsg =>
      rcases cases_of_endMsg h with ⟨-, -, rfl⟩ | ⟨-, -, -, mem, -, rfl⟩ | ⟨-, -, -, rfl⟩
      · exact hpos
      · exact hpos
      · exact hpos
  | endBundle =>
      cases h
      exact hpos

/-! ## The header -/

/-- An accepted `osc_msg_writer_start_bundle` stores the string of the pointer, padded,
and the timetag. -/
theorem startBundle_ok {s s' : WriterState} {timetag : UInt64}
    (h : oscMsgWriterStartBundle P timetag s = some (oscOk, s')) :
    s.state = OSC_WRITER_OUT ∧ 12 ≤ s.remain ∧
      s'.pos = s.pos + (stringBytes s.pos s.kBundle).length + 8 ∧
      At s'.mem (s.data + s.pos) (stringBytes s.pos s.kBundle ++ bigEndian 8 timetag.toNat) := by
  rcases cases_of_startBundle h with ⟨hret, -⟩ | ⟨-, hout, hroom, s₁, s₂, hheader, htimetag, rfl⟩
  · exact absurd hret.symm oscError_ne_oscOk
  · obtain ⟨hnonneg, hle⟩ := fits_of_putAll (stringBytes_ne_nil s.pos s.kBundle) hheader
    have hne : bigEndian 8 timetag.toNat ≠ [] :=
      List.ne_nil_of_length_pos (by rw [length_bigEndian]; decide)
    obtain ⟨-, hle'⟩ := fits_of_putAll hne htimetag
    obtain rfl := putAll_eq_some hheader
    obtain rfl := putAll_eq_some htimetag
    simp only [filled_data, filled_pos, filled_mem, length_bigEndian] at hle' ⊢
    rw [length_overwrite (by omega)] at hle'
    refine ⟨hout, hroom, rfl, ?_⟩
    have hindex : (s.data + (s.pos + (stringBytes s.pos s.kBundle).length)).toNat =
        (s.data + s.pos).toNat + (stringBytes s.pos s.kBundle).length := by omega
    rw [hindex, overwrite_append (by omega)]
    exact At.overwrite hnonneg (by rw [List.length_append, length_bigEndian]; omega)

theorem stringBytes_literal {pos : Int} (h : pos % 4 = 0) (timetag : UInt64) :
    stringBytes pos bundleLiteral ++ bigEndian 8 timetag.toNat = expectedHeader timetag := by
  have hpadded : padString bundleLiteral.bytes = bundleLiteral.bytes ++ [0] := by decide
  rw [stringBytes_of_mod h, hpadded, expectedHeader, List.append_assoc]
  rfl

/-- With `k_bundle` in its place an aligned writer emits the expected header. -/
theorem emitsHeader_of_headerInPlace {s : OscWriter × Memory} {kBundle : CString}
    {op : WriterOp} (hpos : s.1.pos % 4 = 0) (h : HeaderInPlace s kBundle op) :
    EmitsHeader P s kBundle op := by
  rintro timetag s' kBundle' rfl hcall
  obtain ⟨⟨ret, t⟩, heq, ht⟩ := Option.map_eq_some_iff.mp hcall
  cases ht
  obtain ⟨hout, hremain, hend, hat⟩ := startBundle_ok heq
  obtain rfl : kBundle = bundleLiteral := h hout hremain
  have hlen := congrArg List.length (stringBytes_literal hpos timetag)
  simp only [stringBytes_literal hpos] at hat
  rw [List.length_append, length_bigEndian] at hlen
  refine ⟨?_, hat⟩
  simp only at hend ⊢
  omega

/-- Behind the end of its literal the pointer gives a header of four bytes at most. -/
theorem literal_of_emitsHeader {s : OscWriter × Memory} {kBundle : CString} {timetag : UInt64}
    (hkBundle : kBundle = bundleLiteral ∨ kBundle = CString.empty)
    (hresult : ∃ r, writerOp P s kBundle (.call (.startBundle timetag)) = some r)
    (h : EmitsHeader P s kBundle (.call (.startBundle timetag)))
    (hout : s.1.state = OSC_WRITER_OUT) (hremain : 12 ≤ s.1.len - s.1.pos) :
    kBundle = bundleLiteral := by
  refine hkBundle.resolve_right ?_
  rintro rfl
  obtain ⟨⟨ret, s', kBundle'⟩, hcall⟩ := hresult
  obtain ⟨⟨ret', t⟩, heq, ht⟩ := Option.map_eq_some_iff.mp hcall
  have hret : ret' = oscOk := by
    rw [writerCall, oscMsgWriterStartBundle_eq, if_neg (not_not_intro hout),
      if_neg (by simp only [remain]; omega)] at heq
    obtain ⟨s₁, -, hrest⟩ := Option.bind_eq_some_iff.mp heq
    obtain ⟨s₂, -, hs₂⟩ := Option.map_eq_some_iff.mp hrest
    exact (congrArg Prod.fst hs₂).symm
  cases ht
  rw [hret] at heq hcall
  obtain ⟨-, -, hend, -⟩ := startBundle_ok heq
  obtain ⟨hpos, -⟩ := h timetag _ _ rfl hcall
  have hshort : (stringBytes s.1.pos CString.empty).length ≤ 4 := by
    simp only [stringBytes, padZeros, CString.empty, List.length_append, List.length_cons,
      List.length_replicate, List.length_nil]
    omega
  have hlen : (expectedHeader timetag).length = 16 := by
    rw [expectedHeader, List.length_append, List.length_cons, length_bigEndian]
    rfl
  simp only at hend hpos
  omega

theorem headerInPlace_of_emitsHeader {s : OscWriter × Memory} {kBundle : CString}
    {op : WriterOp} (hkBundle : kBundle = bundleLiteral ∨ kBundle = CString.empty)
    (hresult : ∃ r, writerOp P s kBundle op = some r) (h : EmitsHeader P s kBundle op) :
    HeaderInPlace s kBundle op := by
  cases op with
  | init arg len => trivial
  | call c =>
      cases c with
      | startBundle timetag => exact literal_of_emitsHeader hkBundle hresult h
      | startMsg address nargs => trivial
      | write arg => trivial
      | endMsg | endBundle => trivial

/-! ## The process -/

/-- `k_bundle` points to one end of its literal, and every writer is aligned unless it is
still to be initialised. -/
structure KeepsHeader (p : Process ι) (ops : List (ι × WriterOp)) : Prop where
  kBundle : p.shared = bundleLiteral ∨ p.shared = CString.empty
  aligned : ∀ i, (p.locals i).1.pos % 4 = 0 ∨ BeginsWithInit i ops

theorem aligned_of_writerOp {s s' : OscWriter × Memory} {kBundle kBundle' : CString}
    {op : WriterOp} {ret : Int} (hpos : s.1.pos % 4 = 0 ∨ ∃ arg len, op = .init arg len)
    (h : writerOp P s kBundle op = some (ret, s', kBundle')) : s'.1.pos % 4 = 0 := by
  cases op with
  | init arg len =>
      obtain ⟨⟨ret', w⟩, hinit, hw⟩ := Option.map_eq_some_iff.mp h
      cases hw
      unfold oscMsgWriterInit at hinit
      cases arg with
      | buffer data =>
          simp only at hinit
          split at hinit
          · cases hinit
            rfl
          · cases hinit
      | writer parent =>
          simp only at hinit
          split at hinit
          · cases hinit
          · cases hinit
            rfl
  | call c =>
      obtain ⟨⟨ret', t⟩, hcall, ht⟩ := Option.map_eq_some_iff.mp h
      cases ht
      rcases hpos with hpos | ⟨arg, len, habs⟩
      · exact aligned_of_writerCall (s := ⟨s.1, s.2, kBundle⟩) hpos hcall
      · cases habs

theorem kBundle_of_writerOp {s s' : OscWriter × Memory} {kBundle kBundle' : CString}
    {op : WriterOp} {ret : Int} (h : writerOp P s kBundle op = some (ret, s', kBundle')) :
    kBundle' = kBundle ∨ kBundle' = CString.empty := by
  cases op with
  | init arg len =>
      obtain ⟨⟨ret', w⟩, -, hw⟩ := Option.map_eq_some_iff.mp h
      cases hw
      exact Or.inl rfl
  | call c =>
      obtain ⟨⟨ret', t⟩, hcall, ht⟩ := Option.map_eq_some_iff.mp h
      cases ht
      exact kBundle_of_writerCall hcall

theorem KeepsHeader.step {p p' : Process ι} {i : ι} {op : WriterOp}
    {ops : List (ι × WriterOp)} (h : KeepsHeader p ((i, op) :: ops))
    (hstep : processStep P p (i, op) = some p') : KeepsHeader p' ops := by
  obtain ⟨ret, s, kBundle, hcall, rfl⟩ := compositeStep_eq_some.mp hstep
  constructor
  · rcases kBundle_of_writerOp hcall with hsame | hempty
    · rw [hsame]
      exact h.kBundle
    · exact Or.inr hempty
  · intro j
    by_cases hij : i = j
    · subst hij
      refine Or.inl ?_
      simp only [Function.update_self]
      refine aligned_of_writerOp ((h.aligned i).imp_right fun hinit => ?_) hcall
      exact hinit (i, op) (by rw [labelsOf_cons_self]; rfl)
    · simp only [Function.update_of_ne (Ne.symm hij)]
      refine (h.aligned j).imp_right fun hinit => ?_
      rw [BeginsWithInit, labelsOf_cons_of_ne hij] at hinit
      exact hinit

theorem KeepsHeader.emitsHeader_iff {p : Process ι} {l : ι × WriterOp}
    {ops : List (ι × WriterOp)} (h : KeepsHeader p (l :: ops))
    (hresult : ∃ p', processStep P p l = some p') :
    EmitsHeader P (p.locals l.1) p.shared l.2 ↔ HeaderInPlace (p.locals l.1) p.shared l.2 := by
  obtain ⟨i, op⟩ := l
  obtain ⟨p', hstep⟩ := hresult
  obtain ⟨ret, s, kBundle, hcall, -⟩ := compositeStep_eq_some.mp hstep
  refine ⟨headerInPlace_of_emitsHeader h.kBundle ⟨_, hcall⟩, fun hplace => ?_⟩
  rcases h.aligned i with hpos | hinit
  · exact emitsHeader_of_headerInPlace hpos hplace
  · obtain ⟨arg, len, hop⟩ := hinit (i, op) (by rw [labelsOf_cons_self]; rfl)
    intro timetag s' kBundle' habs
    cases hop.symm.trans habs

/-- With `k_bundle` in its place wherever it is read, an operation does beside the other
writers what it does alone. -/
theorem writerOp_alone {s s' : OscWriter × Memory} {g h h' : CString} {op : WriterOp} {ret : Int}
    (hshared : g = bundleLiteral → h = bundleLiteral) (hplace : HeaderInPlace s g op)
    (hcall : writerOp P s h op = some (ret, s', h')) :
    ∃ g', writerOp P s g op = some (ret, s', g') ∧ (g' = bundleLiteral → h' = bundleLiteral) := by
  cases op with
  | init arg len =>
      obtain ⟨⟨ret', w⟩, hinit, hw⟩ := Option.map_eq_some_iff.mp hcall
      cases hw
      exact ⟨g, by rw [writerOp, hinit]; rfl, hshared⟩
  | call c =>
      obtain ⟨⟨ret', t⟩, heq, ht⟩ := Option.map_eq_some_iff.mp hcall
      cases ht
      by_cases hread : ∃ timetag, c = .startBundle timetag ∧ s.1.state = OSC_WRITER_OUT ∧
          12 ≤ s.1.len - s.1.pos
      · obtain ⟨timetag, rfl, hout, hremain⟩ := hread
        obtain rfl := hplace hout hremain
        obtain rfl := hshared rfl
        exact ⟨_, hcall, id⟩
      · have hframe : ∀ k, writerCall P c ⟨s.1, s.2, k⟩ =
            (writerCall P c ⟨s.1, s.2, h⟩).map (withBundleResult k) := by
          intro k
          by_cases hc : ∃ timetag, c = .startBundle timetag
          · obtain ⟨timetag, rfl⟩ := hc
            have hrefused : ∀ k, oscMsgWriterStartBundle P timetag ⟨s.1, s.2, k⟩ =
                some (oscError, ⟨s.1, s.2, k⟩) := fun k =>
              startBundle_refused _ fun habs => hread ⟨timetag, rfl, habs⟩
            rw [writerCall, hrefused, hrefused]
            rfl
          · exact writerCall_withBundle ⟨s.1, s.2, h⟩ k fun timetag habs => hc ⟨timetag, habs⟩
        have hother := hframe g
        have hself := hframe h
        rw [heq, Option.map_some] at hother hself
        refine ⟨g, by rw [writerOp, hother]; rfl, fun hg => ?_⟩
        have hkBundle : t.kBundle = h :=
          congrArg (fun r : Int × WriterState => r.2.kBundle) (Option.some.inj hself)
        rw [hkBundle]
        exact hshared hg

/-- Another writer can move `k_bundle` away from its place, but not back. -/
theorem shared_of_writerOp {s s' : OscWriter × Memory} {g h g' : CString} {op : WriterOp}
    {ret : Int} (hshared : g = bundleLiteral → h = bundleLiteral)
    (hcall : writerOp P s g op = some (ret, s', g')) (hg' : g' = bundleLiteral) :
    h = bundleLiteral := by
  rcases kBundle_of_writerOp hcall with hsame | hempty
  · exact hshared (hsame.symm.trans hg')
  · cases hg'.symm.trans hempty

/-- Where each writer alone keeps to its buffer, the writers of a process do not notice
each other and all bundles get their header exactly when every accepted start of a bundle
finds `k_bundle` where it was at the start of the program. -/
theorem runsAlone_iff (P : Platform) (locals : ι → OscWriter × Memory)
    (ops : List (ι × WriterOp)) (hinit : ∀ i, BeginsWithInit i ops)
    (halone : ∀ i, ∃ q, run (processStep P) (programStart locals) (labelsOf i ops) = some q) :
    RunsAlone P locals ops ∧
        Along (processStep P) (fun p l => EmitsHeader P (p.locals l.1) p.shared l.2)
          (programStart locals) ops ↔
      Along (processStep P) (fun p l => HeaderInPlace (p.locals l.1) p.shared l.2)
        (programStart locals) ops := by
  have hstart : KeepsHeader (programStart locals) ops := ⟨Or.inl rfl, fun i => Or.inr (hinit i)⟩
  have hemits : ∀ {p}, run (processStep P) (programStart locals) ops = some p →
      (Along (processStep P) (fun p l => EmitsHeader P (p.locals l.1) p.shared l.2)
          (programStart locals) ops ↔
        Along (processStep P) (fun p l => HeaderInPlace (p.locals l.1) p.shared l.2)
          (programStart locals) ops) := by
    intro p hrun
    refine along_iff_of_remaining KeepsHeader ?_ ?_ hstart (along_of_run hrun)
    · intro p l ls hp hresult
      exact hp.emitsHeader_iff hresult
    · intro p l ls p' hp _ _ hstep
      exact hp.step hstep
  constructor
  · rintro ⟨⟨p, hrun, -⟩, halong⟩
    exact (hemits hrun).mp halong
  · intro hplace
    obtain ⟨p, hrun, hall⟩ := project_run (writerOp P)
      (fun g h => g = bundleLiteral → h = bundleLiteral) HeaderInPlace
      (fun _ _ _ _ _ _ _ => writerOp_alone)
      (fun _ _ _ _ _ _ _ => shared_of_writerOp)
      (programStart locals) (fun _ => programStart locals) ops
      (fun _ => ⟨rfl, rfl, id⟩) halone hplace
    refine ⟨⟨p, hrun, fun i => ?_⟩, (hemits hrun).mpr hplace⟩
    obtain ⟨q, hq, hsame⟩ := hall i
    exact ⟨q, hq, hsame.locals, hsame.results⟩

/-- Two writers with buffers of sixteen bytes. -/
def twoWriters : Bool → OscWriter × Memory := fun _ => (zeroWriter, List.replicate 16 0)

/-- One of them starts a bundle, the other one writes a message. -/
theorem runsAlone_oneBundle :
    RunsAlone littleHost twoWriters
        [(false, .init (.buffer 0) 16), (true, .init (.buffer 0) 16),
          (false, .call (.startBundle 1)), (true, .call (.startMsg slashA 0)),
          (false, .call .endBundle), (true, .call .endMsg)] ∧
      Along (processStep littleHost)
        (fun p l => EmitsHeader littleHost (p.locals l.1) p.shared l.2) (programStart twoWriters)
        [(false, .init (.buffer 0) 16), (true, .init (.buffer 0) 16),
          (false, .call (.startBundle 1)), (true, .call (.startMsg slashA 0)),
          (false, .call .endBundle), (true, .call .endMsg)] := by
  refine (runsAlone_iff littleHost twoWriters _ ?_ ?_).mpr (by decide)
  · intro i op hop
    cases i <;> cases hop <;> exact ⟨_, _, rfl⟩
  · intro i
    cases i <;> exact ⟨_, rfl⟩

/-- Both of them start a bundle: the second one gets a header of twelve bytes. -/
theorem twoBundles_not_runsAlone :
    (∀ i, ∃ q, run (processStep littleHost) (programStart twoWriters) (labelsOf i
        [(false, .init (.buffer 0) 16), (true, .init (.buffer 0) 16),
          (false, .call (.startBundle 1)), (true, .call (.startBundle 1))]) = some q) ∧
      ¬ RunsAlone littleHost twoWriters
        [(false, .init (.buffer 0) 16), (true, .init (.buffer 0) 16),
          (false, .call (.startBundle 1)), (true, .call (.startBundle 1))] := by
  constructor
  · intro i
    cases i <;> exact ⟨_, rfl⟩
  · rintro ⟨p, hrun, hall⟩
    obtain ⟨q, hq, hlocals, -⟩ := hall true
    cases hrun
    cases hq
    exact absurd (congrArg (fun s : OscWriter × Memory => s.1.pos) hlocals) (by decide)

end LittleOscar
