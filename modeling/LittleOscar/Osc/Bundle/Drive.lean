import LittleOscar.Osc.Bundle.Traversal
import LittleOscar.Transition.Run

/-!
# A bundle reader that is called on and on

`CallSafe` is what a call of `osc_bundle_reader_next` owes a caller who does not stop at
the first result that is not positive: it reads inside the buffer, and after an error or
the end it reports no further element.

The end of the bundle is found by equality, and the cursor is moved by the length in
front of an element before that length is tested. So a length that is refused decides
where the next call reads: behind the buffer, or at bytes that may pass for a length
again. `SafeField` is the exact condition, and a bundle that its records fill meets it
for any number of calls.
-/

namespace LittleOscar

open Machine Transition

variable (P : Platform) (m : Memory)

/-- A bundle reader, and whether a call has returned `OSC_ERROR` or `OSC_END`. -/
structure BundleRun where
  reader : OscBundleReader
  stopped : Bool

/-- One call of `osc_bundle_reader_next`. -/
def bundleNextStep (s : BundleRun) (_ : Unit) : Option BundleRun :=
  (oscBundleReaderNext P m s.reader).map fun (ret, _, reader') =>
    ⟨reader', s.stopped || ret == oscError || ret == oscEnd⟩

/-- The call reads inside the buffer, and reports no element after an error or the
end. -/
def CallSafe (s : BundleRun) (_ : Unit) : Prop :=
  ∃ ret out reader', oscBundleReaderNext P m s.reader = some (ret, out, reader') ∧
    (s.stopped → ret ≠ oscMessage ∧ ret ≠ oscBundle)

/-- The reader is at the end of the bundle, or in front of four bytes of it, which do not
pass for the length of an element once a call has returned `OSC_ERROR` or `OSC_END`. -/
def SafeField (s : BundleRun) (_ : Unit) : Prop :=
  s.reader.msgPtr = s.reader.bundleEnd ∨
    0 ≤ s.reader.msgPtr ∧ s.reader.msgPtr + 4 ≤ s.reader.bundleEnd ∧
      (s.stopped → ¬ IsRecordLength (s.reader.bundleEnd - s.reader.msgPtr - 4)
        (int32Field (m.drop s.reader.msgPtr.toNat)))

variable {P m} {s s' : BundleRun}

/-- A call that reports an element returns one of two codes. -/
theorem type_eq_or (b : UInt8) :
    (if b = '#'.toUInt8 then oscBundle else oscMessage) = oscMessage ∨
      (if b = '#'.toUInt8 then oscBundle else oscMessage) = oscBundle := by
  split
  · exact Or.inr rfl
  · exact Or.inl rfl

/-- One call, at any cursor whatever. -/
theorem callSafe_iff (hend : s.reader.bundleEnd = m.length) :
    CallSafe P m s () ↔ SafeField m s () := by
  by_cases hlast : s.reader.msgPtr = s.reader.bundleEnd
  · refine iff_of_true ⟨_, _, _, oscBundleReaderNext_end hlast, fun _ => ?_⟩ (Or.inl hlast)
    exact ⟨by decide, by decide⟩
  · constructor
    · rintro ⟨ret, out, reader', hnext, hstopped⟩
      obtain ⟨hnonneg, hle, -⟩ :=
        (cases_of_next hnext).resolve_left fun hend => hlast hend.1
      refine Or.inr ⟨hnonneg, by omega, fun hstop hrecord => ?_⟩
      have hfield : AtField m s.reader (int32Field (m.drop s.reader.msgPtr.toNat)) :=
        ⟨hlast, hnonneg, hle, by omega, rfl⟩
      obtain ⟨b, -, hrec⟩ := hfield.next_of_record (P := P) hrecord
      obtain ⟨hret, -⟩ := Prod.mk.inj (Option.some.inj (hnext.symm.trans hrec))
      rw [hret] at hstopped
      obtain ⟨hmessage, hbundle⟩ := hstopped hstop
      exact (type_eq_or b).elim hmessage hbundle
    · intro hsafe
      obtain ⟨hnonneg, hle, hstopped⟩ := hsafe.resolve_left hlast
      have hfield : AtField m s.reader (int32Field (m.drop s.reader.msgPtr.toNat)) :=
        ⟨hlast, hnonneg, by omega, by omega, rfl⟩
      by_cases hrecord : IsRecordLength (s.reader.bundleEnd - s.reader.msgPtr - 4)
          (int32Field (m.drop s.reader.msgPtr.toNat))
      · obtain ⟨b, -, hrec⟩ := hfield.next_of_record (P := P) hrecord
        exact ⟨_, _, _, hrec, fun hstop => absurd hrecord (hstopped hstop)⟩
      · exact ⟨_, _, _, hfield.next_of_not_record hrecord, fun _ => ⟨by decide, by decide⟩⟩

/-- No call moves the end of the bundle. -/
theorem bundleEnd_of_next {reader reader' : OscBundleReader} {ret : Int} {out : Option OscElement}
    (h : oscBundleReaderNext P m reader = some (ret, out, reader')) :
    reader'.bundleEnd = reader.bundleEnd := by
  rcases cases_of_next h with ⟨-, -, -, rfl⟩ | ⟨-, -, n, -, rfl, -⟩ <;> rfl

theorem bundleEnd_step (hstep : bundleNextStep P m s () = some s') :
    s'.reader.bundleEnd = s.reader.bundleEnd := by
  obtain ⟨⟨ret, out, reader'⟩, hnext, hrun⟩ := Option.map_eq_some_iff.mp hstep
  have hreader : reader' = s'.reader := congrArg BundleRun.reader hrun
  rw [← hreader, bundleEnd_of_next hnext]

/-- The reader between two elements of a bundle that its records fill, and a call has
found the end only if it is there. -/
structure AtTile (m : Memory) (s : BundleRun) : Prop where
  element : ∃ p, AtElement m s.reader p ∧ (splitRecords p (m.drop p)).2 = true
  stopped : s.stopped → s.reader.msgPtr = s.reader.bundleEnd

/-- From an element of such a bundle a call goes to the next one, or stays at the end. -/
theorem AtTile.step (h : AtTile m s) : SafeField m s () ∧
    ∀ s', bundleNextStep P m s () = some s' → AtTile m s' := by
  obtain ⟨p, hat, hsplit⟩ := h.element
  by_cases hlast : s.reader.msgPtr = s.reader.bundleEnd
  · refine ⟨Or.inl hlast, fun s' hstep => ?_⟩
    rw [bundleNextStep, oscBundleReaderNext_end hlast] at hstep
    obtain rfl := Option.some.inj hstep
    exact ⟨⟨p, hat, hsplit⟩, fun _ => hlast⟩
  · have hptr := hat.msgPtr
    have hend := hat.bundleEnd
    have hle := hat.le
    have hne : m.drop p ≠ [] := by
      rw [ne_eq, List.drop_eq_nil_iff]
      omega
    obtain ⟨n, hn⟩ : ∃ n, int32Field (m.drop p) = n := ⟨_, rfl⟩
    have hlen : IsRecordLength ((m.drop p).length - 4) n := by
      by_contra hnot
      rw [← hn] at hnot
      rw [splitRecords, splitBy_of_not_length hne hnot] at hsplit
      cases hsplit
    have hdrop : (m.drop p).drop (4 + n.toNat) = m.drop (p + 4 + n.toNat) := by
      rw [List.drop_drop, Nat.add_assoc]
    have hnot : s.stopped = false := by
      by_contra hstop
      exact hlast (h.stopped (by simpa using hstop))
    obtain ⟨reader', hnext, hat'⟩ := hat.next_of_length (P := P) (by omega) hn hlen
    have hpos := report_pos ⟨p + 4, ((m.drop p).drop 4).take n.toNat⟩
    have haligned := hat.aligned
    have hmod := hat.length_mod
    refine ⟨Or.inr ⟨by omega, by omega, fun hstop => ?_⟩, fun s' hstep => ?_⟩
    · rw [hnot] at hstop
      cases hstop
    · rw [bundleNextStep, hnext, Option.map_some, hnot] at hstep
      generalize (BundleRecord.report ⟨p + 4, ((m.drop p).drop 4).take n.toNat⟩).1 = ret
        at hpos hstep
      obtain rfl := Option.some.inj hstep
      refine ⟨⟨_, hat', ?_⟩, fun hstop => absurd hstop ?_⟩
      · rw [splitRecords, splitBy_of_length hne hn hlen, hdrop] at hsplit
        exact hsplit
      · unfold oscError oscEnd
        simp
        omega

/-- A bundle that its records fill is read safely by any number of calls. -/
theorem along_callSafe_of_split {buffer : Memory} {reader₀ reader : OscBundleReader}
    (hmod : buffer.length % 4 = 0)
    (hinit : oscBundleReaderInit reader₀ 0 buffer.length = (oscOk, reader))
    (hsplit : (splitRecords 16 (buffer.drop 16)).2 = true) (calls : List Unit) :
    Along (bundleNextStep P buffer) (CallSafe P buffer) ⟨reader, false⟩ calls := by
  have hat : AtElement buffer reader 16 := atElement_of_init hmod hinit
  refine along_of_invariant (G := fun _ _ => True) (AtTile buffer) ?_ ?_
    ⟨⟨16, hat, hsplit⟩, fun hstop => by cases hstop⟩ (along_of_forall (fun _ _ => trivial) _ _)
  · intro s _ hs _
    obtain ⟨p, hp, -⟩ := hs.element
    exact (callSafe_iff hp.bundleEnd).mpr (hs.step (P := P)).1
  · exact fun s _ s' hs _ hstep => hs.step.2 s' hstep

/-- The calls of a run are safe if and only if each of them finds the end of the bundle,
or a field that is in it and may be read as a length there; and so are any calls on a bundle
that its records fill. -/
theorem along_callSafe_iff (P : Platform) (buffer : Memory) (reader₀ reader : OscBundleReader)
    (calls : List Unit)
    (hinit : oscBundleReaderInit reader₀ 0 buffer.length = (oscOk, reader)) :
    (Along (bundleNextStep P buffer) (CallSafe P buffer) ⟨reader, false⟩ calls ↔
      Along (bundleNextStep P buffer) (SafeField buffer) ⟨reader, false⟩ calls) ∧
    (buffer.length % 4 = 0 → (splitRecords 16 (buffer.drop 16)).2 = true →
      Along (bundleNextStep P buffer) (CallSafe P buffer) ⟨reader, false⟩ calls) := by
  have hend : reader.bundleEnd = buffer.length := by
    unfold oscBundleReaderInit at hinit
    split at hinit
    · cases hinit
    · cases hinit
      exact Int.zero_add _
  refine ⟨?_, fun hmod hsplit => along_callSafe_of_split hmod hinit hsplit calls⟩
  refine along_iff_of_invariant (G := fun _ _ => True)
    (fun s => s.reader.bundleEnd = (buffer.length : Int)) ?_ ?_ hend
    (along_of_forall (fun _ _ => trivial) _ _)
  · exact fun s _ hs _ => callSafe_iff hs
  · exact fun s _ s' hs _ _ hstep => (bundleEnd_step hstep).trans hs

theorem along_callSafe_truncated :
    ∃ reader, oscBundleReaderInit ⟨0, 0, 0⟩ 0 truncatedBundle.length = (oscOk, reader) ∧
      Along (bundleNextStep littleHost truncatedBundle) (CallSafe littleHost truncatedBundle)
        ⟨reader, false⟩ [(), ()] := by
  refine ⟨_, rfl, ?_⟩
  refine (along_callSafe_iff littleHost truncatedBundle ⟨0, 0, 0⟩ _ _ rfl).1.mpr ?_
  rw [along_cons_of_eq_some rfl, along_cons_of_eq_some rfl]
  refine ⟨Or.inr ⟨by decide, by decide, fun hstop => ?_⟩,
    Or.inr ⟨by decide, by decide, fun hstop => ?_⟩, along_nil _⟩
  · cases hstop
  · cases hstop

/-- A bundle whose first length is zero, in front of a record of four bytes. -/
def emptyElement : Memory :=
  [35, 98, 117, 110, 100, 108, 101] ++ List.replicate 9 0 ++ [0, 0, 0, 0, 0, 0, 0, 4, 47, 0, 0, 0]

/-- The first call on it fails and the second reports a message; and the third call on a
bundle that is cut off reads behind the buffer. -/
theorem emptyElement_not_callSafe :
    (∃ reader, oscBundleReaderInit ⟨0, 0, 0⟩ 0 emptyElement.length = (oscOk, reader) ∧
      ¬ Along (bundleNextStep littleHost emptyElement) (CallSafe littleHost emptyElement)
        ⟨reader, false⟩ [(), ()]) ∧
    ∃ reader, oscBundleReaderInit ⟨0, 0, 0⟩ 0 truncatedBundle.length = (oscOk, reader) ∧
      ¬ Along (bundleNextStep littleHost truncatedBundle) (CallSafe littleHost truncatedBundle)
        ⟨reader, false⟩ [(), (), ()] := by
  constructor
  · refine ⟨_, rfl, ?_⟩
    rw [along_cons_of_eq_some rfl]
    rintro ⟨-, ⟨ret, out, reader', hnext, hstopped⟩, -⟩
    obtain ⟨hret, -⟩ := Prod.mk.inj (Option.some.inj hnext)
    rw [← hret] at hstopped
    exact (hstopped rfl).1 rfl
  · refine ⟨_, rfl, ?_⟩
    rw [along_cons_of_eq_some rfl, along_cons_of_eq_some rfl]
    rintro ⟨-, -, ⟨ret, out, reader', hnext, -⟩, -⟩
    cases hnext

end LittleOscar
