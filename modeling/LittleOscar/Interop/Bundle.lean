import LittleOscar.Ideas.Writer.Bundle
import LittleOscar.Osc.Dump.Print

/-!
# Bundles of the other writer in a dump

The bundles that are written with `osc_bundle_write` are read by the functions of `read.c`: in a
run of calls that have room for what they write, `udp_dump` prints the bundle as it stands at
any moment, with the messages that were written since it was started (`bundleRun_printed`).
-/

namespace LittleOscar.Interop

open Machine Transition Ideas UdpDump

/-- The packet is the message that a call is given. -/
def IsMessage (demote : UInt64 → UInt32) (message : MessageCall) : OscPacket → Prop
  | .message address args => address.toCString = message.address ∧
      message.format.bytes = args.map OscArgument.tag ∧ PassedAll demote args message.args
  | .bundle _ _ => False

variable {P : Platform} {demote : UInt64 → UInt32}

/-- Messages that are encoded are packets. -/
theorem exists_elements {messages : List MessageCall} {encoded : List (List UInt8)}
    (h : List.Forall₂ (Encodes demote) messages encoded)
    (haddress : ∀ message ∈ messages, message.address.bytes.head? ≠ some '#'.toUInt8) :
    ∃ elements, List.Forall₂ (IsMessage demote) messages elements ∧
      encodeEach elements = encoded := by
  induction h with
  | nil => exact ⟨[], .nil, rfl⟩
  | @cons message bs messages encoded henc _ ih =>
      obtain ⟨args, hformat, hargs, rfl⟩ := henc
      obtain ⟨elements, helements, heach⟩ := ih fun message hmessage =>
        haddress message (List.mem_cons_of_mem _ hmessage)
      refine ⟨.message ⟨message.address, haddress message List.mem_cons_self⟩ args :: elements,
        .cons ⟨rfl, hformat, hargs⟩ helements, ?_⟩
      rw [encodeEach, heach]
      rfl

/-- In a run whose calls are admitted, the bundle is well formed. -/
theorem tidy_of_run {buffer : Object} {cs : List BundleCall} {s : BundleState}
    (hadmitted : Along (bundleStep P demote) (Admitted demote) (freshBundle buffer) cs)
    (hrun : run (bundleStep P demote) (freshBundle buffer) cs = some s) : Tidy demote s := by
  refine invariant_run (Tidy demote) ?_ (tidy_freshBundle buffer) hadmitted hrun
  intro s c t hs hc hstep
  obtain ⟨ret, t', hcall, ht, -⟩ := hs.bundleCall (P := P) hc
  rw [bundleStep, hcall] at hstep
  cases hstep
  exact ht

/-- Behind a run of calls, `udp_dump` prints the messages that were written since the bundle
was started. -/
theorem bundleRun_printed (P Q : Platform) (F : FloatText) (demote : UInt64 → UInt32) (base : Int)
    (fuel : Nat) (buffer : Object) (cs : List BundleCall) (s : BundleState) (when : UInt64)
    (messages : List MessageCall) (receive : Memory) (locals : Locals)
    (hadmitted : Along (bundleStep P demote) (Admitted demote) (freshBundle buffer) cs)
    (hrun : run (bundleStep P demote) (freshBundle buffer) cs = some s)
    (hsince : s.since = some (when, messages))
    (haddress : ∀ message ∈ messages, message.address.bytes.head? ≠ some '#'.toUInt8)
    (hreceive : ReceiveBuffer base receive) (hlt : s.bundle.len < bufferSize)
    (hfuel : bufferSize ≤ fuel) :
    ∃ elements, List.Forall₂ (IsMessage demote) messages elements ∧
      receiveLoop Q F base fuel [⟨some (s.mem.take s.bundle.len), locals⟩] receive =
        some ((OscPacket.bundle when elements).text Q F base 0 0) := by
  obtain ⟨encoded, hencoded, hcontent⟩ := (tidy_of_run hadmitted hrun).content when messages hsince
  obtain ⟨elements, helements, heach⟩ := exists_elements hencoded haddress
  have hencode : s.mem.take s.bundle.len = (OscPacket.bundle when elements).encode := by
    rw [hcontent, OscPacket.encode, heach]
  have hshort : (OscPacket.bundle when elements).encode.length < bufferSize := by
    rw [← hencode, List.length_take]
    omega
  have hloop : receiveLoop Q F base fuel
      ([OscPacket.bundle when elements].map fun packet => ⟨some packet.encode, locals⟩) receive =
        some ([OscPacket.bundle when elements].map fun packet =>
          packet.text Q F base 0 0).flatten := by
    refine hreceive.receiveLoop_eq_flatten _ ?_ ?_
    · intro packet hpacket
      rwa [List.mem_singleton.mp hpacket]
    · intro packet hpacket m hplaced hat
      rw [List.mem_singleton] at hpacket
      subst hpacket
      exact dumpOscPacket_encode Q F m base hplaced _ 0 0 locals fuel hat
        (by rw [bufferSize] at hshort; omega) (by omega)
  refine ⟨elements, helements, ?_⟩
  rw [hencode]
  rwa [List.map_singleton, List.map_singleton, List.flatten_singleton] at hloop

/-- What is behind a start and a message. -/
def sevenState : BundleState :=
  ((run (bundleStep littleHost UInt64.toUInt32) (freshBundle smallBuffer)
    [.start 1, .write sevenCall]).getD (freshBundle smallBuffer))

theorem bundleRun_printed_seven :
    ∃ elements, List.Forall₂ (IsMessage UInt64.toUInt32) [sevenCall] elements ∧
      receiveLoop bigHost ⟨fun _ => [], fun _ => []⟩ 4096 bufferSize
          [⟨some (sevenState.mem.take sevenState.bundle.len), zeroLocals⟩]
          (List.replicate bufferSize 0) =
        some ((OscPacket.bundle 1 elements).text bigHost ⟨fun _ => [], fun _ => []⟩ 4096 0 0) :=
  bundleRun_printed littleHost bigHost ⟨fun _ => [], fun _ => []⟩ UInt64.toUInt32 4096 bufferSize
    smallBuffer [.start 1, .write sevenCall] sevenState 1 [sevenCall] (List.replicate bufferSize 0)
    zeroLocals
    ((along_cons_of_eq_some rfl).mpr ⟨show 16 ≤ 64 by decide,
      (along_cons_of_eq_some rfl).mpr
        ⟨Or.inr ⟨_, ⟨[.int32 7], rfl, ⟨rfl, trivial⟩, rfl⟩, by decide, by decide⟩,
          along_nil _⟩⟩)
    rfl rfl (by decide) (ReceiveBuffer.fresh (by decide) (by decide)) (by decide) (le_refl _)

end LittleOscar.Interop
