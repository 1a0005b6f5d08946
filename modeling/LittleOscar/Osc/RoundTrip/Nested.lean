import LittleOscar.Osc.Bundle.Drive
import LittleOscar.Osc.RoundTrip.Bundle

/-!
# A writer inside a writer

Given a writer in place of a buffer, `osc_msg_writer_init` hands the rest of the buffer
of this parent to the child, and it hands it over without a length field in front. The
parent is not told: neither the initialisation nor the child moves its cursor. For a
message of its own the parent does both, in `osc_msg_writer_start_msg` and
`osc_msg_writer_end_msg`.

So what a child has written lies behind the end of the bundle. `NestedChild` is a child
that has done its work inside the room it was given, and `not_survives` says that none
of them survives: the parent may end its bundle in front of the child's bytes. If it
writes a message first, the frame of this message begins where the child began
(`message_at`).
-/

namespace LittleOscar

open Machine Transition WriterState

variable (P : Platform)

/-- The child that `osc_msg_writer_init` made, over the memory object of its parent. -/
def childWriter (parent : WriterState) (child : OscWriter) : WriterState :=
  { toOscWriter := child, mem := parent.mem, kBundle := parent.kBundle }

/-- The call keeps the cursor of the writer inside its `len`, and changes no byte
outside the range that the writer was given. -/
def CallWithin (s : WriterState) (c : WriterCall) : Prop :=
  ∃ s', writerStep P s c = some s' ∧ 0 ≤ s'.pos ∧ s'.pos ≤ s'.len ∧
    s'.mem.take s.data.toNat = s.mem.take s.data.toNat ∧
    s'.mem.drop (s.data + s.len).toNat = s.mem.drop (s.data + s.len).toNat

/-- A child of a parent that has an open bundle. Its calls stayed inside its `len` and
have completed it. -/
structure NestedChild (parent : WriterState) where
  before : OscWriter
  child : OscWriter
  calls : List WriterCall
  final : WriterState
  bundle : parent.state = OSC_WRITER_BUNDLE
  init : oscMsgWriterInit before (.writer parent.toOscWriter) 0 = some (oscOk, child)
  within : Along (writerStep P) (CallWithin P) (childWriter parent child) calls
  ends : run (writerStep P) (childWriter parent child) calls = some final
  complete : final.state = OSC_WRITER_COMPLETE

namespace NestedChild

variable {P} {parent : WriterState} (nested : NestedChild P parent)

/-- The parent once the child is complete: its record is as it was. -/
def parentAfter : WriterState :=
  { parent with mem := nested.final.mem, kBundle := nested.final.kBundle }

/-- The bytes that the child wrote. -/
def bytes : Option (List UInt8) :=
  loadBytes nested.final.mem nested.child.data nested.final.pos.toNat

/-- No byte that the child wrote has changed. -/
def KeepsBytes (s : WriterState) : Prop :=
  ∀ p, nested.child.data ≤ p → p < nested.child.data + nested.final.pos →
    loadByte s.mem p = loadByte nested.final.mem p

/-- The loop over `osc_bundle_reader_next` finds an element with the bytes that the
child wrote, behind everything that the parent had written before. -/
def Contains (s : WriterState) : Prop :=
  ∃ reader₀ reader fuel elements last reader',
    oscBundleReaderInit reader₀ s.data s.pos = (oscOk, reader) ∧
    traverse P s.mem fuel reader = some (elements, last, reader') ∧
    ∃ r ∈ elements, nested.child.data ≤ r.2.start ∧
      loadBytes s.mem r.2.start r.2.len.toNat = nested.bytes

/-- Whatever calls the parent gets, they keep the bytes of the child, and the bundle
contains them when it is finished. -/
def Survives : Prop :=
  ∀ later s, run (writerStep P) nested.parentAfter later = some s →
    nested.KeepsBytes s ∧ (s.state = OSC_WRITER_COMPLETE → nested.Contains s)

end NestedChild

/-! ## Every element lies inside the bundle -/

section Bounds

variable {P} {m : Memory}

theorem four_le_of_getType {buffer len type : Int}
    (h : oscPacketGetType m buffer len = some type) (htype : ¬ type ≤ 0) : 4 ≤ len := by
  by_contra hshort
  have hbad : len < 4 ∨ len % 4 ≠ 0 := Or.inl (by omega)
  rw [oscPacketGetType, if_pos hbad] at h
  obtain rfl := Option.some.inj h
  exact htype (by decide)

/-- An element that a call reports ends inside the bundle. -/
theorem bounds_of_next {reader reader' : OscBundleReader} {ret : Int}
    {out : Option OscElement} {element : OscElement}
    (h : oscBundleReaderNext P m reader = some (ret, out, reader')) (hret : ¬ ret ≤ 0)
    (hout : out = some element) :
    4 ≤ element.len ∧ element.start + element.len ≤ reader.bundleEnd := by
  rcases cases_of_next h with ⟨-, -, hnone, -⟩ | ⟨-, -, n, hn, -, hcases⟩
  · rw [hnone] at hout
    cases hout
  · rw [hn] at hout
    obtain rfl := Option.some.inj hout
    rcases hcases with herror | ⟨hle, htype⟩
    · rw [herror] at hret
      exact absurd (by decide) hret
    · have hfour := four_le_of_getType htype hret
      exact ⟨hfour, by simp only; omega⟩

/-- So does every element of the loop. -/
theorem bounds_of_traverse {fuel : Nat} {reader reader' : OscBundleReader}
    {elements : List (Int × OscElement)} {last : Int}
    (h : traverse P m fuel reader = some (elements, last, reader')) :
    ∀ r ∈ elements, 4 ≤ r.2.len ∧ r.2.start + r.2.len ≤ reader.bundleEnd := by
  induction fuel generalizing reader elements last reader' with
  | zero => cases h
  | succ fuel ih =>
      rw [traverse] at h
      obtain ⟨⟨ret, out, reader₁⟩, hnext, h₁⟩ := Option.bind_eq_some_iff.mp h
      simp only at h₁
      split at h₁
      · obtain ⟨hnil, -⟩ := Prod.mk.inj (Option.some.inj h₁)
        rw [← hnil]
        exact List.forall_mem_nil _
      · rename_i hret
        obtain ⟨element, hout, h₂⟩ := Option.bind_eq_some_iff.mp h₁
        obtain ⟨⟨rest, last₁, reader₂⟩, hrest, h₃⟩ := Option.bind_eq_some_iff.mp h₂
        obtain ⟨hcons, -⟩ := Prod.mk.inj (Option.some.inj h₃)
        rw [← hcons, ← bundleEnd_of_next hnext]
        refine List.forall_mem_cons.mpr ⟨?_, ih hrest⟩
        rw [bundleEnd_of_next hnext]
        exact bounds_of_next hnext hret hout

end Bounds

/-! ## The child does not survive -/

namespace NestedChild

variable {P} {parent s : WriterState} (nested : NestedChild P parent)

/-- The child begins where the parent was, and the parent stays there. -/
theorem child_data : nested.child.data = nested.parentAfter.data + nested.parentAfter.pos := by
  have hchild := (Prod.mk.inj (Option.some.inj nested.init)).2
  rw [← hchild]
  rfl

/-- A bundle that ends where the child began does not contain it. -/
theorem not_contains (hend : s.data + s.pos ≤ nested.child.data) : ¬ nested.Contains s := by
  rintro ⟨reader₀, reader, fuel, elements, last, reader', hinit, htraverse, r, hr, hstart, -⟩
  have hlast : reader.bundleEnd = s.data + s.pos := by
    unfold oscBundleReaderInit at hinit
    split at hinit
    · cases hinit
    · cases hinit
      rfl
  obtain ⟨hfour, hle⟩ := bounds_of_traverse htraverse r hr
  omega

/-- No child survives: nothing keeps the parent from ending its bundle where it stands,
which is where the child began. -/
theorem not_survives (P : Platform) (parent : WriterState) (nested : NestedChild P parent) :
    ¬ nested.Survives := by
  intro hsurvives
  have hrun : run (writerStep P) nested.parentAfter [.endBundle] =
      some { nested.parentAfter with state := OSC_WRITER_COMPLETE } := rfl
  obtain ⟨-, hcontains⟩ := hsurvives _ _ hrun
  refine nested.not_contains ?_ (hcontains rfl)
  rw [nested.child_data]

/-- A message that the parent writes next puts its frame where the child began, and
changes nothing behind it. -/
theorem message_at {msg : OscMessage} (hready : Ready nested.parentAfter)
    (hrun : run (okStep P) nested.parentAfter msg.calls = some s) :
    At s.mem nested.child.data (msg.frame P) ∧
      ∀ p, nested.child.data + (msg.frame P).length ≤ p →
        loadByte s.mem p = loadByte nested.final.mem p := by
  obtain ⟨hwrote, -⟩ := OscMessage.run_inBundle hready nested.bundle hrun
  have hnonneg := hready.nonneg
  have hmem : s.mem = overwrite nested.final.mem nested.parentAfter.pos.toNat (msg.frame P) :=
    hwrote.mem
  have hlength : s.mem.length = nested.final.mem.length := hwrote.length
  have hstart : nested.child.data = (nested.parentAfter.pos.toNat : Int) := by
    rw [nested.child_data, hready.data]
    omega
  have hle : nested.parentAfter.pos.toNat + (msg.frame P).length ≤ nested.final.mem.length := by
    have hframe := length_frame (P := P) msg
    rw [hmem] at hlength
    simp only [overwrite, List.length_append, List.length_take, List.length_drop] at hlength
    omega
  rw [hstart, hmem]
  refine ⟨at_overwrite hle, fun p hp => ?_⟩
  obtain ⟨j, rfl⟩ : ∃ j : Nat, p = j := ⟨p.toNat, by omega⟩
  rw [loadByte_natCast, loadByte_natCast]
  exact getElem?_overwrite_of_le (by omega) (by omega)

/-- It leaves the child's bytes alone only if they agree with its frame. -/
theorem keepsBytes_iff {msg : OscMessage} (hready : Ready nested.parentAfter)
    (hrun : run (okStep P) nested.parentAfter msg.calls = some s) :
    nested.KeepsBytes s ↔
      ∀ i : Nat, (i : Int) < nested.final.pos → i < (msg.frame P).length →
        loadByte nested.final.mem (nested.child.data + i) = (msg.frame P)[i]? := by
  obtain ⟨hat, hbehind⟩ := nested.message_at hready hrun
  constructor
  · intro hkeeps i hi hlt
    rw [← hkeeps (nested.child.data + i) (by omega) (by omega)]
    exact hat.loadByte_add hlt
  · intro hagree p hp hlt
    obtain ⟨i, rfl⟩ : ∃ i : Nat, p = nested.child.data + i :=
      ⟨(p - nested.child.data).toNat, by omega⟩
    by_cases hi : i < (msg.frame P).length
    · rw [hat.loadByte_add hi, hagree i (by omega) hi]
    · exact hbehind _ (by omega)

end NestedChild

/-- A parent that has written the message `/a` into a bundle. -/
def bundleParent : WriterState where
  data := 0
  len := 32
  pos := 24
  msgStart := 20
  typePos := 24
  state := OSC_WRITER_BUNDLE
  mem := bundleHeader bundleLiteral 0 ++ [0, 0, 0, 4] ++ slashA.bytes ++ List.replicate 10 0
  kBundle := CString.empty

/-- Its child writes the message `/abc` into the eight bytes that are left. -/
def nestedMessage : NestedChild bigHost bundleParent where
  before := zeroWriter
  child := ⟨24, 8, 0, 0, 0, OSC_WRITER_OUT⟩
  calls := [.startMsg slashAbc 0, .endMsg]
  final := ⟨⟨24, 8, 8, 0, 8, OSC_WRITER_COMPLETE⟩,
    bundleHeader bundleLiteral 0 ++ [0, 0, 0, 4] ++ slashA.bytes ++ [0, 0] ++ slashAbc.bytes ++
      List.replicate 4 0, CString.empty⟩
  bundle := rfl
  init := rfl
  within := by
    rw [along_cons_of_eq_some rfl, along_cons_of_eq_some rfl]
    exact ⟨⟨_, rfl, by decide, by decide, rfl, rfl⟩, ⟨_, rfl, by decide, by decide, rfl, rfl⟩,
      along_nil _⟩
  ends := rfl
  complete := rfl

/-- The next message of the parent replaces the first bytes of the child, and the
finished bundle has the two messages of the parent and nothing else. -/
theorem nestedMessage_not_survives :
    (∃ s₀, freshWriter zeroWriter (List.replicate 32 0) bundleLiteral = some s₀ ∧
      run (okStep bigHost) s₀ (.startBundle 0 :: emptyMessage.calls) = some bundleParent) ∧
    (∃ s, run (writerStep bigHost) nestedMessage.parentAfter emptyMessage.calls = some s ∧
      ¬ nestedMessage.KeepsBytes s) ∧
    ∃ s, run (writerStep bigHost) nestedMessage.parentAfter
        (emptyMessage.calls ++ [.endBundle]) = some s ∧
      s.state = OSC_WRITER_COMPLETE ∧ ¬ nestedMessage.Contains s := by
  refine ⟨⟨_, rfl, rfl⟩, ?_, ⟨_, rfl, rfl, ?_⟩⟩
  · obtain ⟨s, hrun, hok⟩ : ∃ s,
        run (writerStep bigHost) nestedMessage.parentAfter emptyMessage.calls = some s ∧
          run (okStep bigHost) nestedMessage.parentAfter emptyMessage.calls = some s :=
      ⟨_, rfl, rfl⟩
    refine ⟨s, hrun, fun hkeeps => ?_⟩
    have hready : Ready nestedMessage.parentAfter := ⟨rfl, by decide, by decide, by decide⟩
    have hagree := (nestedMessage.keepsBytes_iff hready hok).mp hkeeps
    exact absurd (hagree 0 (by decide) (by decide)) (by decide)
  · rintro ⟨reader₀, reader, fuel, elements, last, reader', hinit, htraverse, r, hr, hstart, heq⟩
    obtain rfl : reader = ⟨0, 32, 16⟩ := (Prod.mk.inj hinit).2.symm
    rcases fuel with _ | _ | _ | fuel
    · cases htraverse
    · cases htraverse
    · cases htraverse
    · obtain ⟨rfl, -⟩ := Prod.mk.inj (Option.some.inj htraverse)
      rcases List.mem_cons.mp hr with rfl | hr
      · exact absurd hstart (by decide)
      · obtain rfl := List.mem_singleton.mp hr
        exact absurd heq (by decide)

end LittleOscar
